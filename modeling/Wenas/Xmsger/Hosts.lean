import Wenas.Xmsger.Stamped
import Wenas.Xmsger.Link

/-!
# Connections between two hosts

Each msger counts its own channel ids and finds a channel by the address of the peer and the id in the
head. A connection is known by the host that opened it and a number no other connection has; the code
knows neither, so that a `REQ` can meet a channel of another connection.
-/
namespace Wenas.Xmsger

open Wenas.Machine

/-- The host that called `xmsger_connect`, and how many connections were opened before. -/
structure Conn where
  opener : Side
  number : Nat
  deriving DecidableEq

/-- A channel in the tree `peers`. -/
structure Entry where
  conn : Conn
  chan : Channel

/-- A datagram on its way, and the connection of the channel that sent it. -/
structure Packet where
  conn : Conn
  dgram : Dgram

/-- A `REQ` that was passed to `xchannel_recv_pack` on a channel that was already there. -/
structure Answer where
  side : Side
  packet : Packet
  entry : Entry

/-- `net x` is on its way to `x`; `up x` is false once the loop of `x` has ended. -/
structure World where
  cid : Side → UInt16
  table : Side → UInt16 → Option Entry
  up : Side → Bool
  net : Side → List Packet
  opened : Nat
  answered : List Answer

/-- `msger->cid = __xapi->clock() % UINT16_MAX`. -/
def firstCid (clock : UInt64) : UInt16 := (clock % 65535).toUInt16

def World.start (clock : Side → UInt64) : World :=
  ⟨fun x => firstCid (clock x), fun _ _ => none, fun _ => true, fun _ => [], 0, []⟩

/-- Ids are tried until one is not in the tree: the id taken and the next value of the counter. -/
def pickCid (used : UInt16 → Bool) : Nat → UInt16 → Option (UInt16 × UInt16)
  | 0, _ => none
  | fuel + 1, cid => if used cid then pickCid used fuel (cid + 1) else some (cid, cid + 1)

/-- With no id free the loop goes on for ever. -/
def World.pick (w : World) (x : Side) : Option (UInt16 × UInt16) :=
  pickCid (fun c => (w.table x c).isSome) 65536 (w.cid x)

/-- The channel of `x` under `c` becomes `r`, and what it sent is on its way. -/
def World.work (w : World) (x : Side) (c : UInt16) (conn : Conn) (r : Channel × Bool) : World :=
  { w with
    table := Function.update w.table x (Function.update (w.table x) c (some ⟨conn, r.1⟩))
    up := Function.update w.up x r.2
    net := Function.update w.net x.other (w.net x.other ++ (sentOut r.1.log).map (⟨conn, ·⟩)) }

/-- The `REQ` branch of `xmsger_local_recv`. -/
def World.connect (w : World) (x : Side) (m : Message) (clock : UInt64) : World :=
  match w.pick x with
  | none => { w with up := Function.update w.up x false }
  | some (c, next) =>
    let chan := pushMsg { m with type := xpackTypeReq } (xchannelCreate xpackSerialRange c clock)
    { w.work x c ⟨x, w.opened⟩ (chan, true) with cid := Function.update w.cid x next, opened := w.opened + 1 }

/-- The receive branch of `msger_loop`. What it sends in answer is a call of its own. -/
def World.arrive (w : World) (x : Side) (e : Env) (p : Packet) : World :=
  let d := p.dgram
  match w.table x d.head.cid with
  | some en =>
    if d.head.type = xpackTypeMsg then w.work x d.head.cid en.conn (xchannelRecvPack e d en.chan.quiet)
    else if d.head.type = xpackTypeAck then
      w.work x d.head.cid en.conn (xchannelRecvAck e d.head.ack en.chan.quiet, true)
    else if d.head.type = xpackTypeRes then w.work x d.head.cid en.conn (xchannelRecvPack e d en.chan.quiet)
    else if d.head.type = xpackTypeReq then
      -- the same request again, or one with the same range
      if 0 < d.head.resend ∨ d.head.ack.pos = en.chan.recvbuf.range then
        { w.work x d.head.cid en.conn (xchannelRecvPack e d en.chan.quiet) with
          answered := w.answered ++ [⟨x, p, en⟩] }
      else w
    else w
  | none =>
    if d.head.type = xpackTypeReq then
      w.work x d.head.cid p.conn (xchannelRecvPack e d (xchannelCreate d.head.ack.pos d.head.cid e.clock))
    else if d.head.type = xpackTypeRes then
      { w with net := Function.update w.net x.other (w.net x.other ++ [⟨p.conn, xchannelSendFinal d⟩]) }
    else w

/-- The calls a host makes of its own accord; what `xmsger_send` gets is of the type `MSG`. -/
def Call.spontaneous : Call → Bool
  | .send m => m.type = xpackTypeMsg
  | .recvAck _ _ => false
  | .recvPack _ _ => false
  | _ => true

/-- The network delivers datagrams in any order, more than once or not at all, and a host may start anew. -/
inductive Deed where
  | connect (x : Side) (m : Message) (clock : UInt64)
  | own (x : Side) (c : UInt16) (call : Call)
  | deliver (x : Side) (i : Nat) (again : Bool) (e : Env)
  | lose (x : Side) (i : Nat)
  | flush (x : Side) (c : UInt16)
  | restart (x : Side) (clock : UInt64)

def World.drop (w : World) (x : Side) (i : Nat) : World :=
  { w with net := Function.update w.net x ((w.net x).eraseIdx i) }

def World.step (w : World) : Deed → World
  | .connect x m clock => if w.up x then w.connect x m clock else w
  | .own x c call =>
    match w.table x c with
    | none => w
    | some en => if w.up x ∧ call.spontaneous then w.work x c en.conn (call.run en.chan.quiet) else w
  | .deliver x i again e =>
    match (w.net x)[i]? with
    | none => w
    | some p => if w.up x then (if again then w else w.drop x i).arrive x e p else w
  | .lose x i => w.drop x i
  | .flush x c => { w with table := Function.update w.table x (Function.update (w.table x) c none) }
  | .restart x clock =>
    { w with
      cid := Function.update w.cid x (firstCid clock)
      table := Function.update w.table x (fun _ => none)
      up := Function.update w.up x true }

/-- The head of a request. -/
def Packet.IsReq (p : Packet) : Prop := p.dgram.head.type = xpackTypeReq

/-- The id a new connection takes has no channel at the other host, and no `REQ` with it is on its way. -/
def FreshId (w : World) : Deed → Prop
  | .connect x _ _ => w.up x = true → ∀ c next, w.pick x = some (c, next) →
      w.table x.other c = none ∧ ∀ y, ∀ p ∈ w.net y, p.IsReq → p.dgram.head.cid ≠ c
  | _ => True

/-- No `REQ` was passed to a channel of another connection, nor to one the host had opened itself. -/
def World.Unmixed (w : World) : Prop :=
  ∀ a ∈ w.answered, a.packet.conn = a.entry.conn ∧ a.entry.conn.opener ≠ a.side

/-! ### Ids that are not shared -/

/-- The requests of a host's own channel have its id; other channels send no request. -/
def Stamp (x : Side) (c : UInt16) (conn : Conn) (type cid : UInt16) : Prop :=
  type = xpackTypeReq → conn.opener = x ∧ cid = c

/-- Whatever has the id `c`, at either host or on its way as a request, is of the connection `conn`. -/
structure Agrees (w : World) (c : UInt16) (conn : Conn) : Prop where
  table : ∀ y en, w.table y c = some en → en.conn = conn
  net : ∀ y, ∀ p ∈ w.net y, p.IsReq → p.dgram.head.cid = c → p.conn = conn

/-- Every id belongs to one connection. -/
structure Tidy (w : World) : Prop where
  stamped : ∀ x c en, w.table x c = some en → Stamped (Stamp x c en.conn) en.chan.toCore
  opener : ∀ x, ∀ p ∈ w.net x, p.IsReq → p.conn.opener = x.other
  entries : ∀ x c en, w.table x c = some en → Agrees w c en.conn
  packets : ∀ x, ∀ p ∈ w.net x, p.IsReq → Agrees w p.dgram.head.cid p.conn
  unmixed : w.Unmixed

section

variable {w : World} {x : Side} {c : UInt16} {conn : Conn}

theorem work_table (w : World) (x : Side) (c : UInt16) (conn : Conn) (r : Channel × Bool) (y : Side) (c' : UInt16) :
    (w.work x c conn r).table y c' = if y = x ∧ c' = c then some ⟨conn, r.1⟩ else w.table y c' := by
  simp only [World.work, Function.update_apply]
  by_cases hy : y = x
  · subst hy
    by_cases hc : c' = c
    · simp [hc]
    · simp [hc]
  · simp [hy]

theorem mem_work_net (w : World) (x : Side) (c : UInt16) (conn : Conn) (r : Channel × Bool) (y : Side) (p : Packet) :
    p ∈ (w.work x c conn r).net y ↔ p ∈ w.net y ∨ y = x.other ∧ p.conn = conn ∧ p.dgram ∈ sentOut r.1.log := by
  simp only [World.work, Function.update_apply]
  split
  · rename_i hy
    subst hy
    simp only [List.mem_append, List.mem_map, true_and]
    constructor
    · rintro (h | ⟨d, hd, rfl⟩)
      · exact Or.inl h
      · exact Or.inr ⟨rfl, hd⟩
    · rintro (h | ⟨hconn, hd⟩)
      · exact Or.inl h
      · exact Or.inr ⟨p.dgram, hd, by rw [← hconn]⟩
  · rename_i hy
    simp [hy]

/-- A channel works under an id that is its connection's alone. -/
theorem Tidy.work (h : Tidy w) (hagree : Agrees w c conn) {r : Channel × Bool}
    (hstamped : Stamped (Stamp x c conn) r.1.toCore) (hlog : ∀ e ∈ r.1.log, OnWire (Stamp x c conn) e) :
    Tidy (w.work x c conn r) := by
  have hnew : ∀ {y : Side} {p : Packet}, p ∈ (w.work x c conn r).net y → p.IsReq →
      p ∈ w.net y ∨ y = x.other ∧ p.conn = conn ∧ conn.opener = x ∧ p.dgram.head.cid = c := by
    intro y p hp hreq
    rcases (mem_work_net w x c conn r y p).mp hp with hp | ⟨hy, hconn, hd⟩
    · exact Or.inl hp
    · right
      have hwire := hlog _ (mem_sentOut.mp hd)
      rcases hwire with hack | hstamp
      · rw [Packet.IsReq, hack] at hreq
        exact absurd hreq (by decide)
      · obtain ⟨hopen, hcid⟩ := hstamp hreq
        exact ⟨hy, hconn, hopen, hcid⟩
  have hagrees : ∀ {c' : UInt16} {k : Conn}, Agrees w c' k → (c' = c → k = conn) → Agrees (w.work x c conn r) c' k := by
    intro c' k hk hsame
    constructor
    · intro y en hen
      rw [work_table] at hen
      split at hen
      · rename_i hyc
        cases hen
        exact (hsame hyc.2).symm
      · exact hk.table y en hen
    · intro y p hp hreq hcid
      rcases hnew hp hreq with hold | ⟨-, hconn, -, hc⟩
      · exact hk.net y p hold hreq hcid
      · rw [hconn, hsame (hcid.symm.trans hc)]
  constructor
  · intro y c' en hen
    rw [work_table] at hen
    split at hen
    · rename_i hyc
      obtain ⟨rfl, rfl⟩ := hyc
      cases hen
      exact hstamped
    · exact h.stamped y c' en hen
  · intro y p hp hreq
    rcases hnew hp hreq with hold | ⟨hy, hconn, hopen, -⟩
    · exact h.opener y p hold hreq
    · rw [hconn, hopen, hy, Side.other_other]
  · intro y c' en hen
    rw [work_table] at hen
    split at hen
    · rename_i hyc
      obtain ⟨rfl, rfl⟩ := hyc
      cases hen
      exact hagrees hagree (fun _ => rfl)
    · refine hagrees (h.entries y c' en hen) ?_
      intro hc
      subst hc
      exact hagree.table y en hen
  · intro y p hp hreq
    rcases hnew hp hreq with hold | ⟨-, hconn, -, hc⟩
    · refine hagrees (h.packets y p hold hreq) ?_
      intro hc
      exact hagree.net y p hold hreq hc
    · rw [hconn, hc]
      exact hagrees hagree (fun _ => rfl)
  · exact h.unmixed

/-- Fewer channels and fewer datagrams share no more. -/
theorem Tidy.shrink (h : Tidy w) {w' : World} (htable : ∀ y c en, w'.table y c = some en → w.table y c = some en)
    (hnet : ∀ y, ∀ p ∈ w'.net y, p.IsReq → p ∈ w.net y) (hanswered : w'.answered = w.answered) : Tidy w' := by
  have hagrees : ∀ {c : UInt16} {k : Conn}, Agrees w c k → Agrees w' c k := by
    intro c k hk
    exact ⟨fun y en hen => hk.table y en (htable y c en hen), fun y p hp hreq => hk.net y p (hnet y p hp hreq) hreq⟩
  refine ⟨?_, ?_, ?_, ?_, ?_⟩
  · exact fun y c en hen => h.stamped y c en (htable y c en hen)
  · exact fun y p hp hreq => h.opener y p (hnet y p hp hreq) hreq
  · exact fun y c en hen => hagrees (h.entries y c en (htable y c en hen))
  · exact fun y p hp hreq => hagrees (h.packets y p (hnet y p hp hreq) hreq)
  · rw [World.Unmixed, hanswered]
    exact h.unmixed

/-- A call on a channel that is there. -/
theorem Tidy.call (h : Tidy w) {en : Entry} (hen : w.table x c = some en) (call : Call)
    (hcall : ∀ m, call = .send m → m.type = xpackTypeMsg) : Tidy (w.work x c en.conn (call.run en.chan.quiet)) := by
  have hquiet : Stamped (Stamp x c en.conn) en.chan.quiet.toCore :=
    ⟨(h.stamped x c en hen).slots, (h.stamped x c en hen).frames, (h.stamped x c en hen).ack⟩
  have hmsg : ∀ m, call = .send m → Stamp x c en.conn m.type en.chan.quiet.cid := by
    intro m hm hreq
    rw [hcall m hm] at hreq
    exact absurd hreq (by decide)
  obtain ⟨hstamped, new, hlog, hnew⟩ := Keeps.call hmsg hquiet
  refine h.work (h.entries x c en hen) hstamped ?_
  intro e he
  rw [hlog] at he
  exact hnew e (by simpa [Channel.quiet] using he)

/-- A fresh channel has sent nothing. -/
theorem stamped_create {Q : UInt16 → UInt16 → Prop} (hzero : Q 0 0) (range cid : UInt16) (clock : UInt64) :
    Stamped Q (xchannelCreate range cid clock).toCore :=
  ⟨fun _ => hzero, fun _ hf => absurd hf List.not_mem_nil, rfl⟩

theorem stamp_zero (x : Side) (c : UInt16) (conn : Conn) : Stamp x c conn 0 0 := fun h => absurd h (by decide)

/-- A request for a channel of its own connection, which the other host opened. -/
theorem Tidy.answer (h : Tidy w) {en : Entry} {p : Packet} (hpacket : p.conn = en.conn)
    (hopen : p.conn.opener = x.other) :
    Tidy { w with answered := w.answered ++ [⟨x, p, en⟩] } := by
  refine ⟨h.stamped, h.opener, fun y c en hen => ⟨(h.entries y c en hen).table, (h.entries y c en hen).net⟩,
    fun y p hp hreq => ⟨(h.packets y p hp hreq).table, (h.packets y p hp hreq).net⟩, ?_⟩
  intro a ha
  rcases List.mem_append.mp ha with ha | ha
  · exact h.unmixed a ha
  · rw [List.mem_singleton.mp ha]
    refine ⟨hpacket, ?_⟩
    rw [← hpacket, hopen]
    exact x.other_ne

theorem Tidy.arrive (h : Tidy w) (e : Env) {p : Packet} (hopen : p.IsReq → p.conn.opener = x.other)
    (hagree : p.IsReq → Agrees w p.dgram.head.cid p.conn) : Tidy (w.arrive x e p) := by
  rw [World.arrive]
  dsimp only
  cases hen : w.table x p.dgram.head.cid with
  | some en =>
    have hpack : Tidy (w.work x p.dgram.head.cid en.conn (xchannelRecvPack e p.dgram en.chan.quiet)) :=
      h.call hen (.recvPack e p.dgram) (fun _ hm => nomatch hm)
    dsimp only
    split
    · exact hpack
    · split
      · exact h.call hen (.recvAck e p.dgram.head.ack) (fun _ hm => nomatch hm)
      · split
        · exact hpack
        · split
          · rename_i hreq
            split
            · exact hpack.answer ((hagree hreq).table x en hen).symm (hopen hreq)
            · exact h
          · exact h
  | none =>
    dsimp only
    split
    · rename_i hreq
      have hfresh := stamped_create (stamp_zero x p.dgram.head.cid p.conn) p.dgram.head.ack.pos p.dgram.head.cid e.clock
      obtain ⟨hstamped, new, hlog, hnew⟩ := Keeps.recvPack e p.dgram hfresh
      refine h.work (hagree hreq) hstamped ?_
      intro ev hev
      rw [hlog] at hev
      exact hnew ev (by simpa [xchannelCreate] using hev)
    · split
      · refine h.shrink (fun _ _ _ hen => hen) ?_ rfl
        intro y q hq hreq
        by_cases hy : y = x.other
        · subst hy
          have hq' : q ∈ w.net x.other ++ [⟨p.conn, xchannelSendFinal p.dgram⟩] := by simpa using hq
          rcases List.mem_append.mp hq' with hq' | hq'
          · exact hq'
          · rw [List.mem_singleton.mp hq', Packet.IsReq, xchannelSendFinal] at hreq
            exact absurd hreq (by simp [xpackTypeAck, xpackTypeReq])
        · simpa [hy] using hq
      · exact h

theorem mem_of_mem_drop {i : Nat} {y : Side} {p : Packet} (hp : p ∈ (w.drop x i).net y) : p ∈ w.net y := by
  rw [World.drop] at hp
  by_cases hy : y = x
  · subst hy
    exact List.mem_of_mem_eraseIdx (by simpa using hp)
  · simpa [hy] using hp

theorem Tidy.drop (h : Tidy w) (x : Side) (i : Nat) : Tidy (w.drop x i) :=
  h.shrink (fun _ _ _ hen => hen) (fun _ _ hp _ => mem_of_mem_drop hp) rfl

theorem pickCid_unused {used : UInt16 → Bool} {fuel : Nat} {cid c next : UInt16}
    (h : pickCid used fuel cid = some (c, next)) : used c = false := by
  induction fuel generalizing cid with
  | zero => cases h
  | succ fuel ih =>
    rw [pickCid] at h
    split at h
    · exact ih h
    · rename_i hused
      cases h
      simpa using hused

theorem Tidy.connect (h : Tidy w) (m : Message) (clock : UInt64)
    (hfresh : ∀ c next, w.pick x = some (c, next) →
      w.table x.other c = none ∧ ∀ y, ∀ p ∈ w.net y, p.IsReq → p.dgram.head.cid ≠ c) : Tidy (w.connect x m clock) := by
  rw [World.connect]
  cases hpick : w.pick x with
  | none => exact h.shrink (fun _ _ _ hen => hen) (fun _ _ hp _ => hp) rfl
  | some pr =>
    obtain ⟨c, next⟩ := pr
    obtain ⟨hother, hnet⟩ := hfresh c next hpick
    have hown : w.table x c = none := by simpa using pickCid_unused hpick
    have hnone : ∀ y, w.table y c = none := by
      intro y
      cases x <;> cases y <;> assumption
    have hagree : Agrees w c ⟨x, w.opened⟩ := by
      constructor
      · intro y en hen
        rw [hnone y] at hen
        cases hen
      · intro y p hp hreq hc
        exact absurd hc (hnet y p hp hreq)
    have hreq : Stamp x c ⟨x, w.opened⟩ xpackTypeReq c := fun _ => ⟨rfl, rfl⟩
    obtain ⟨hstamped, -⟩ := Keeps.push (c := xchannelCreate xpackSerialRange c clock)
      (m := { m with type := xpackTypeReq }) hreq (stamped_create (stamp_zero _ _ _) _ _ _)
    have hwork := h.work (x := x) hagree (r := (_, true)) hstamped (fun _ he => absurd he List.not_mem_nil)
    exact hwork.shrink (fun _ _ _ hen => hen) (fun _ _ hp _ => hp) rfl

theorem Tidy.step (h : Tidy w) {d : Deed} (hd : FreshId w d) : Tidy (w.step d) := by
  cases d with
  | connect x m clock =>
    rw [World.step]
    split
    · rename_i hup
      exact h.connect m clock (hd hup)
    · exact h
  | own x c call =>
    rw [World.step]
    cases hen : w.table x c with
    | none => exact h
    | some en =>
      dsimp only
      split
      · rename_i hok
        refine h.call hen call ?_
        intro m hm
        subst hm
        simpa [Call.spontaneous] using hok.2
      · exact h
  | deliver x i again e =>
    rw [World.step]
    cases hp : (w.net x)[i]? with
    | none => exact h
    | some p =>
      dsimp only
      have hmem := List.mem_of_getElem? hp
      have hopen := h.opener x p hmem
      have hagree := h.packets x p hmem
      split
      · split
        · exact h.arrive e hopen hagree
        · refine (h.drop x i).arrive e hopen ?_
          intro hreq
          exact ⟨(hagree hreq).table, fun y q hq => (hagree hreq).net y q (mem_of_mem_drop hq)⟩
      · exact h
  | lose x i => exact h.drop x i
  | flush x c =>
    refine h.shrink ?_ (fun _ _ hp _ => hp) rfl
    intro y c' en hen
    rw [World.step] at hen
    by_cases hy : y = x
    · subst hy
      by_cases hc : c' = c
      · simp [hc] at hen
      · simpa [hc] using hen
    · simpa [hy] using hen
  | restart x clock =>
    refine h.shrink ?_ (fun _ _ hp _ => hp) rfl
    intro y c' en hen
    rw [World.step] at hen
    by_cases hy : y = x
    · subst hy
      simp at hen
    · simpa [hy] using hen

end

theorem Tidy.start (clock : Side → UInt64) : Tidy (World.start clock) := by
  refine ⟨?_, ?_, ?_, ?_, ?_⟩
  · exact fun _ _ _ hen => nomatch hen
  · exact fun _ _ hp => absurd hp List.not_mem_nil
  · exact fun _ _ _ hen => nomatch hen
  · exact fun _ _ hp => absurd hp List.not_mem_nil
  · exact fun _ ha => absurd ha List.not_mem_nil

/-- In every run in which new connections take ids that are nowhere in use, no connections mix. -/
theorem connections_apart (clock : Side → UInt64) (deeds : List Deed)
    (h : Along World.step FreshId (World.start clock) deeds) (j : Nat) :
    (run World.step (World.start clock) (deeds.take j)).Unmixed := by
  have htake : Along World.step FreshId (World.start clock) (deeds.take j) := by
    rw [← List.take_append_drop j deeds, Along.append] at h
    exact h.1
  have htidy : Tidy (run World.step (World.start clock) (deeds.take j)) :=
    htake.invariant (fun _ _ hw hd => hw.step hd) (Tidy.start clock)
  exact htidy.unmixed

/-- An empty request. -/
def emptyReq : Message := ⟨xpackTypeReq, [], nil_fits⟩

/-- The hosts count from different ids. -/
def apartHosts : World := World.start fun x => if x = .a then 0 else 5

/-- Both hosts open a connection to each other, and one request comes twice. -/
def bothOpen : List Deed :=
  [.connect .a emptyReq 0, .connect .b emptyReq 0, .own .a 0 (.sendPack 0 true), .own .b 5 (.sendPack 0 true),
    .deliver .b 0 true Env.fine, .deliver .b 0 false Env.fine, .deliver .a 0 false Env.fine]

theorem connections_apart_both : (run World.step apartHosts (bothOpen.take 7)).Unmixed := by
  refine connections_apart _ bothOpen ⟨?_, ?_, trivial, trivial, trivial, trivial, trivial, trivial⟩ 7
  · intro _ c next _
    exact ⟨rfl, fun _ _ hp => absurd hp List.not_mem_nil⟩
  · intro _ c next hpick
    have hfive : (apartHosts.step (.connect .a emptyReq 0)).pick .b = some (5, 6) := by decide +kernel
    cases hfive.symm.trans hpick
    refine ⟨rfl, fun y p hp => ?_⟩
    cases y <;> exact absurd hp List.not_mem_nil

/-- Both hosts count from the same id and open a connection to each other at the same time. -/
theorem connections_mixed :
    ¬ (run World.step (World.start fun _ => 0)
      [.connect .a emptyReq 0, .connect .b emptyReq 0, .own .a 0 (.sendPack 0 true),
        .deliver .b 0 false Env.fine]).Unmixed := by
  intro h
  have hsome : (run World.step (World.start fun _ => 0)
      [.connect .a emptyReq 0, .connect .b emptyReq 0, .own .a 0 (.sendPack 0 true),
        .deliver .b 0 false Env.fine]).answered.map (fun a => (a.side, a.entry.conn.opener)) = [(.b, .b)] := by
    decide +kernel
  obtain ⟨a, ha, hab⟩ := List.mem_map.mp (hsome ▸ List.mem_singleton.mpr rfl)
  have hopen := (h a ha).2
  simp only [Prod.mk.injEq] at hab
  rw [hab.1, hab.2] at hopen
  exact hopen rfl

end Wenas.Xmsger
