import Wenas.Xmsger.LinkInv

/-!
# Every step of a connection keeps the invariant

One lemma for each thing that can happen, and from them the two laws of a connection:
what is handed up is a beginning of what was accepted on the other side, and what is
acknowledged has been handed up there.
-/
namespace Wenas.Xmsger

open Wenas.Serial Wenas.Machine

section

variable {k : Nat} {s : Link} {g : Side → Marks} {x : Side}

theorem consumed_of_emits {l l' : List Event} (h : Emits (fun e => e.isRecv = false) l l') :
    consumed l' = consumed l := by
  rw [← consumed_taken l', ← consumed_taken l, taken_of_emits (h.mono fun _ => Event.not_taken)]

theorem LinkInv.assembled (h : LinkInv k s g) {c : Channel} (hc : (s.node x).chan = some c) :
    Assembled (s.node x.other).accepted (consumed (s.node x).trace) c.msg (taken (s.node x).trace) := by
  obtain ⟨o, ho, hmsg⟩ := (h.recv x).heap
  rw [hmsg c hc]
  exact ho

/-- A call on the channel `c`, which may have just been made, that leaves the receiving side alone. -/
theorem LinkInv.worked_apart (h : LinkInv k s g) {c r : Channel} {a : List Message} {g' : Marks}
    (hwpos : c.sendbuf.wpos = sn (g x).cut)
    (hring : RecvInv (s.node x.other).Packed k (consumed (s.node x).trace) c.toCore)
    (hheap : Assembled (s.node x.other).accepted (consumed (s.node x).trace) c.msg (taken (s.node x).trace))
    (ha : Apart c.quiet.toCore r.toCore)
    (hout : Outcome k ((s.node x).trace.filter Event.isRelease) ((s.node x).accepted ++ a) c.quiet r (g x) g')
    (hacked : g'.released ≤ consumed (s.node x.other).trace) (hshort : Short a)
    (hdata : ∀ m ∈ a, m.type ≠ xpackTypeAck) : Worked k s x c (r, true) a (g x) g' := by
  have hlog : Emits (fun e => e.isRecv = false) (s.node x).trace ((s.node x).trace ++ r.log) := by
    obtain ⟨new, hnew, hn⟩ := ha.log
    rw [hnew]
    exact ⟨new, rfl, hn⟩
  have hcons := consumed_of_emits hlog
  have htaken := taken_of_emits (hlog.mono fun _ => Event.not_taken)
  have hpeer := h.send x.other
  rw [Side.other_other] at hpeer
  refine
    { outcome := ⟨hout.inv, hout.cut_le, hout.low, hout.high, hout.out⟩
      wpos := hwpos
      acked := hacked
      short := hshort
      data := hdata
      ready := hring.sorted.wpos
      heap := ?_
      ring := ?_
      got := ?_ }
  · rw [hcons, htaken, ha.msg]
    exact hheap
  · intro _
    rw [hcons]
    have hquiet : RecvInv (s.node x.other).Packed k (consumed (s.node x).trace) c.quiet.toCore :=
      ⟨hring.sorted, hring.empty, hring.ready.type, hring.ready.pos⟩
    exact hquiet.apart ha
  · rw [hcons]
    exact hpeer.got

/-- A call of a side's own accord. -/
theorem LinkInv.own (h : LinkInv k s g) (l : Local)
    (hold : ∀ c clock ok, (s.node x).chan = some c → l = .sendPack clock ok → ¬ c.quiet.CarriesOld) :
    ∃ m, m.released = (g x).released ∧ LinkInv k (s.call x l.call) (Function.update g x m) := by
  have hsame : LinkInv k s (Function.update g x (g x)) := by rwa [Function.update_eq_self]
  rw [Link.call]
  split
  · exact ⟨g x, rfl, hsame⟩
  · rename_i c hc
    split
    · rename_i hup
      have hready := ((h.recv x).ring c hc hup).ready
      obtain ⟨g', hrel, hout⟩ := ((h.send x).inv c hc).own rfl ⟨hready.type, hready.pos⟩ l
        (fun clock ok hl => hold c clock ok hc hl)
      have hapart := l.call.apart (by cases l <;> simp [Local.call]) c.quiet
      have hacc : ∀ m ∈ l.call.accepts c.quiet, m.data.length ≤ xmsgMaxLength ∧ m.type ≠ xpackTypeAck := by
        intro m hm
        cases l with
        | send p =>
          simp only [Local.call, Call.accepts] at hm
          split at hm
          · rw [List.mem_singleton.mp hm]
            exact ⟨p.short, p.data⟩
          · cases hm
        | serial => cases hm
        | sendPack _ _ => cases hm
        | resend _ _ => cases hm
        | sendAck _ => cases hm
      have hw := h.worked_apart (c := c) ((h.send x).inv c hc).ring.wpos ((h.recv x).ring c hc hup) (h.assembled hc)
        hapart.1 hout (hrel ▸ (h.send x).acked) (fun m hm => (hacc m hm).1)
        (fun m hm => (hacc m hm).2)
      have hr : l.call.run c.quiet = ((l.call.run c.quiet).1, true) := by
        rw [← hapart.2]
      rw [hr]
      exact ⟨g', hrel, h.work hw⟩
    · exact ⟨g x, rfl, hsame⟩

/-- An acknowledgement arrives. -/
theorem LinkInv.recvAck (h : LinkInv k s g) {f : Flight} (hf : f ∈ s.net) (hfresh : f.Fresh k s)
    (ht : f.dgram.head.type = xpackTypeAck) (e : Env) :
    ∃ m, m.cut = (g f.src.other).cut ∧
      LinkInv k (s.call f.src.other (.recvAck e f.dgram.head.ack)) (Function.update g f.src.other m) := by
  have hsame : LinkInv k s (Function.update g f.src.other (g f.src.other)) := by rwa [Function.update_eq_self]
  rw [Link.call]
  split
  · exact ⟨g f.src.other, rfl, hsame⟩
  · rename_i c hc
    split
    · rename_i hup
      have hside := h.send f.src.other
      obtain ⟨g', hpos, hcut, hout⟩ := (hside.inv c hc).acked rfl e f.dgram.head.ack
      have hacked : g'.released ≤ consumed (s.node f.src.other.other).trace := by
        rcases hpos with hpos | hpos
        · rw [hpos]
          exact hside.acked
        · rw [Side.other_other]
          exact h.ack_exact hf hfresh (Or.inl ht) hout.low hout.high hpos
      have hw := h.worked_apart (c := c) (a := []) (hside.inv c hc).ring.wpos ((h.recv _).ring c hc hup)
        (h.assembled hc)
        (Apart.recvAck e f.dgram.head.ack) (by simpa using hout) hacked (by simp [Short]) (by simp)
      exact ⟨g', hcut, h.work hw⟩
    · exact ⟨g f.src.other, rfl, hsame⟩

/-- The other side's packs go through the assembly, after what has been taken out before. -/
theorem packed_follows {peer : Node} (hshort : Short peer.accepted) (past : List Event) :
    Follows peer.Packed
      (fun n o l => Assembled peer.accepted n o (past ++ l) ∧ ∀ q < n, q ∈ peer.sent) := by
  rintro n o l d ⟨ha, hq⟩ ⟨hd, hn⟩
  refine ⟨?_, ?_⟩
  · rw [← List.append_assoc]
    exact assembled_follows hshort n o _ d ha hd
  · intro q hlt
    by_cases he : q = n
    · rw [he]
      exact hn
    · exact hq q (by omega)

/-- A pack arrives at the channel `c`, which may have just been made for it. -/
theorem LinkInv.worked_pack (h : LinkInv k s g) {f : Flight} (hf : f ∈ s.net) (hfresh : f.Fresh k s)
    (ht : f.dgram.head.type ≠ xpackTypeAck) {c : Channel}
    (hsend : SendInv k ((s.node f.src.other).trace.filter Event.isRelease) (s.node f.src.other).accepted
      c.quiet.toCore (g f.src.other))
    (hring : RecvInv (s.node f.src).Packed k (consumed (s.node f.src.other).trace) c.toCore)
    (hheap : Assembled (s.node f.src).accepted (consumed (s.node f.src.other).trace) c.msg
      (taken (s.node f.src.other).trace)) (e : Env) :
    ∃ g', Worked k s f.src.other c (xchannelRecvPack e f.dgram c.quiet) [] (g f.src.other) g' := by
  have hpeer := h.send f.src
  obtain ⟨hone, hover⟩ := h.pack_exact hf hfresh ht hring
  obtain ⟨hcar, hmem, -⟩ := (h.net f hf).pack ht
  have hquiet : RecvInv (s.node f.src).Packed k (consumed (s.node f.src.other).trace) c.quiet.toCore :=
    ⟨hring.sorted, hring.empty, hring.ready.type, hring.ready.pos⟩
  have hd : ∀ p, consumed (s.node f.src.other).trace ≤ p → p < consumed (s.node f.src.other).trace + 2 ^ k →
      f.dgram.head.sn = sn p → (s.node f.src).Packed p f.dgram := by
    intro p hp hp' hs
    rw [hone p hp hp' hs]
    exact ⟨hcar, hmem⟩
  have hj : Assembled (s.node f.src).accepted (consumed (s.node f.src.other).trace) c.quiet.msg
      (taken (s.node f.src.other).trace ++ taken c.quiet.log) ∧
      ∀ q < consumed (s.node f.src.other).trace, q ∈ (s.node f.src).sent := by
    refine ⟨?_, hpeer.got⟩
    rw [show taken c.quiet.log = [] from rfl, List.append_nil]
    exact hheap
  obtain ⟨p, hrec⟩ := hquiet.recvPack (packed_follows hpeer.short _) e hd hover hj
  obtain ⟨hfollows, hgot⟩ := hrec.follows
  rw [← taken_append] at hfollows
  have hcount : consumed ((s.node f.src.other).trace ++ (xchannelRecvPack e f.dgram c.quiet).1.log) = p := by
    rw [← consumed_taken]
    exact hfollows.count
  obtain ⟨g', hpos, hcut, hout⟩ := hsend.received rfl e f.dgram
  refine ⟨g',
    { outcome := ⟨?_, hout.cut_le, hout.low, hout.high, ?_⟩
      wpos := hsend.ring.wpos
      acked := ?_
      short := by simp [Short]
      data := by simp
      ready := hring.sorted.wpos
      heap := ?_
      ring := ?_
      got := ?_ }⟩
  · simpa using hout.inv
  · rw [List.append_nil]
    exact hout.out
  · rw [Side.other_other]
    rcases hpos with hpos | ⟨hty, hpos⟩
    · rw [hpos]
      have := (h.send f.src.other).acked
      rwa [Side.other_other] at this
    · exact h.ack_exact hf hfresh (Or.inr hty) hout.low hout.high hpos
  · rw [Side.other_other, hcount]
    exact hfollows
  · intro hok
    rw [Side.other_other, hcount]
    exact hrec.inv hok
  · rw [Side.other_other, hcount]
    exact hgot

/-- A pack arrives at an existing channel. -/
theorem LinkInv.recvPack (h : LinkInv k s g) {f : Flight} (hf : f ∈ s.net) (hfresh : f.Fresh k s)
    (ht : f.dgram.head.type ≠ xpackTypeAck) (e : Env) :
    ∃ m, LinkInv k (s.call f.src.other (.recvPack e f.dgram)) (Function.update g f.src.other m) := by
  have hsame : LinkInv k s (Function.update g f.src.other (g f.src.other)) := by rwa [Function.update_eq_self]
  rw [Link.call]
  split
  · exact ⟨g f.src.other, hsame⟩
  · rename_i c hc
    split
    · rename_i hup
      have hring := (h.recv f.src.other).ring c hc hup
      have ho := h.assembled hc
      rw [Side.other_other] at hring ho
      obtain ⟨g', hw⟩ := h.worked_pack hf hfresh ht ((h.send f.src.other).inv c hc) hring ho e
      exact ⟨_, h.work hw⟩
    · exact ⟨g f.src.other, hsame⟩

/-- A request makes the channel of the passive side. -/
theorem LinkInv.create (h : LinkInv k s g) {f : Flight} (hf : f ∈ s.net) (hfresh : f.Fresh k s)
    (ht : f.dgram.head.type ≠ xpackTypeAck) (hever : (s.node f.src.other).ever = false)
    (hrange : f.dgram.head.ack.pos = sn (2 ^ k)) (e : Env) :
    ∃ g', LinkInv k (s.work f.src.other (xchannelCreate f.dgram.head.ack.pos f.dgram.head.cid e.clock)
      (xchannelRecvPack e f.dgram (xchannelCreate f.dgram.head.ack.pos f.dgram.head.cid e.clock)) []) g' := by
  have hsmall := h.small
  obtain ⟨-, hun⟩ := h.unmade f.src.other hever
  rw [hrange]
  have hw := h.worked_pack hf hfresh ht (c := xchannelCreate (sn (2 ^ k)) f.dgram.head.cid e.clock)
    (by
      rw [hun.trace, hun.accepted, hun.marks]
      exact SendInv.create (by omega) _ _)
    (by
      rw [hun.trace]
      exact RecvInv.create (by omega) _ _)
    (by
      rw [hun.trace]
      exact Assembled.nil _) e
  obtain ⟨g', hw⟩ := hw
  exact ⟨_, h.work hw⟩

/-- A side may lose its channel, and answers with good datagrams. -/
theorem LinkInv.post (h : LinkInv k s g) {o : Option Channel} {out : List (Dgram × Nat)}
    (hchan : o = none ∨ o = (s.node x).chan)
    (hout : ∀ d ∈ out, FlightOk k (s.post x { s.node x with chan := o } out)
      ⟨x, d.1, d.2, fun z => ((s.post x { s.node x with chan := o } out).node z).sent.card⟩) :
    LinkInv k (s.post x { s.node x with chan := o } out) g := by
  have hx : (s.post x { s.node x with chan := o } out).node x = { s.node x with chan := o } :=
    Function.update_self _ _ _
  have hy : (s.post x { s.node x with chan := o } out).node x.other = s.node x.other :=
    Function.update_of_ne x.other_ne _ _
  have hsub : ∀ c, o = some c → (s.node x).chan = some c := by
    intro c hc
    rcases hchan with rfl | rfl
    · cases hc
    · exact hc
  have hpeer := h.send x.other
  have hpeer' := h.recv x.other
  rw [Side.other_other] at hpeer hpeer'
  refine ⟨h.small, ?_, ?_, ?_, ?_⟩
  · intro z
    rcases Side.eq_or_other x z with rfl | rfl
    · rw [hx, hy]
      exact { h.send z with inv := fun c hc => (h.send z).inv c (hsub c hc) }
    · rw [Side.other_other, hx, hy]
      exact { hpeer with }
  · intro z
    rcases Side.eq_or_other x z with rfl | rfl
    · rw [hx, hy]
      obtain ⟨r, hr, hmsg⟩ := (h.recv z).heap
      exact ⟨fun c hc hup => (h.recv z).ring c (hsub c hc) hup, r, hr, fun c hc => hmsg c (hsub c hc)⟩
    · rw [Side.other_other, hx, hy]
      exact ⟨hpeer'.ring, hpeer'.heap⟩
  · intro z hz
    rcases Side.eq_or_other x z with rfl | rfl
    · rw [hx] at hz ⊢
      obtain ⟨hnone, hun⟩ := h.unmade z hz
      refine ⟨?_, hun.accepted, hun.trace, hun.sent, hun.marks⟩
      rcases hchan with rfl | rfl
      · rfl
      · exact hnone
    · rw [hy] at hz ⊢
      exact h.unmade _ hz
  · intro f hf
    rcases List.mem_append.mp hf with hf | hf
    · refine (h.net f hf).mono ?_ ?_ ?_ <;> intro z <;> rcases Side.eq_or_other x z with rfl | rfl
      · rw [hx]
      · rw [hy]
      · rw [hx]
        exact ⟨[], by simp⟩
      · rw [hy]
        exact ⟨[], by simp⟩
      · rw [hx]
      · rw [hy]
    · obtain ⟨d, hd, rfl⟩ := List.mem_map.mp hf
      exact hout d hd

/-- The answer to a `RES` pack that was consumed before its channel was freed. -/
theorem LinkInv.final (h : LinkInv k s g) {f : Flight} (hf : f ∈ s.net) (hfresh : f.Fresh k s)
    (ht : f.dgram.head.type = xpackTypeRes) (hnum : f.num < consumed (s.node f.src.other).trace) :
    LinkInv k (s.post f.src.other (s.node f.src.other) [(xchannelSendFinal f.dgram, 0)]) g := by
  obtain ⟨⟨i, m, j, -, hfrag⟩, -, hstamp⟩ := (h.net f hf).pack (by rw [ht]; decide)
  have hnode : ∀ z, (s.post f.src.other (s.node f.src.other) [(xchannelSendFinal f.dgram, 0)]).node z = s.node z := by
    intro z
    simp [Link.post]
  refine h.post (x := f.src.other) (o := (s.node f.src.other).chan) (Or.inr rfl) ?_
  intro d hd
  cases List.mem_singleton.mp hd
  refine ⟨fun _ => Nat.le_refl _, ?_, ?_⟩
  · intro hne
    exact absurd rfl hne
  · intro _
    refine ⟨f.num + 1, ?_, ?_, ?_⟩
    · show f.dgram.head.sn + 1 = _
      rw [hfrag.sn, sn_succ]
    · rw [hnode]
      exact hnum
    · have hnew := hfresh f.src
      have hpow : 2 ^ k ≤ 2 ^ 12 := Nat.pow_le_pow_right (by decide) h.small
      have hcard : ((s.post f.src.other (s.node f.src.other) [(xchannelSendFinal f.dgram, 0)]).node
          f.src.other.other).sent.card ≤ f.num + 1 + 2 ^ 15 := by
        rw [hnode, Side.other_other]
        omega
      exact hcard

/-- A datagram arrives. -/
theorem LinkInv.arrive (h : LinkInv k s g) {f : Flight} (hf : f ∈ s.net) (hfresh : f.Fresh k s) (e : Env)
    (hreq : (s.node f.src.other).chan = none → f.dgram.head.type = xpackTypeReq →
      (s.node f.src.other).ever = false ∧ f.dgram.head.ack.pos = sn (2 ^ k))
    (hres : (s.node f.src.other).chan = none → f.dgram.head.type = xpackTypeRes →
      f.num < consumed (s.node f.src.other).trace) :
    ∃ g', LinkInv k (s.arrive f.src.other e f.dgram) g' := by
  have hpack : f.dgram.head.type ≠ xpackTypeAck → ∃ g', LinkInv k (s.call f.src.other (.recvPack e f.dgram)) g' := by
    intro ht
    obtain ⟨m, hm⟩ := h.recvPack hf hfresh ht e
    exact ⟨_, hm⟩
  rw [Link.arrive]
  split
  · split
    · rename_i ht
      exact hpack (by rw [ht]; decide)
    · split
      · rename_i ht
        obtain ⟨m, -, hm⟩ := h.recvAck hf hfresh ht e
        exact ⟨_, hm⟩
      · rename_i hne
        split
        · exact hpack hne
        · split
          · split
            · exact hpack hne
            · exact ⟨g, h⟩
          · exact ⟨g, h⟩
  · rename_i hc
    split
    · split
      · rename_i ht
        exact h.create hf hfresh (by rw [ht]; decide) (hreq hc ht).1 (hreq hc ht).2 e
      · split
        · rename_i ht
          exact ⟨g, h.final hf hfresh ht (hres hc ht)⟩
        · exact ⟨g, h⟩
    · exact ⟨g, h⟩

theorem LinkInv.move (h : LinkInv k s g) {m : Move} (ht : m.Timely k s) (ho : ¬ m.SendsOld s) (hk : m.Known k s) :
    ∃ g', LinkInv k (s.move m) g' := by
  cases m with
  | own x l =>
    have hown := h.own (x := x) l ?_
    · obtain ⟨m, -, hm⟩ := hown
      exact ⟨_, hm⟩
    · rintro c clock ok hc rfl hold
      exact ho ⟨c, hc, hold⟩
  | deliver i e =>
    rw [Link.move]
    split
    · exact ⟨g, h⟩
    · rename_i f hf
      exact h.arrive (List.mem_of_getElem? hf) (ht f hf) e (fun hc => (hk f hf hc).1) (fun hc => (hk f hf hc).2)

/-- A message is pushed by the msger itself. -/
theorem LinkInv.push (h : LinkInv k s g) {c : Channel}
    (hinv : SendInv k ((s.node x).trace.filter Event.isRelease) (s.node x).accepted c.quiet.toCore (g x))
    (hring : RecvInv (s.node x.other).Packed k (consumed (s.node x).trace) c.toCore)
    (hheap : Assembled (s.node x.other).accepted (consumed (s.node x).trace) c.msg (taken (s.node x).trace))
    (hroom : 0 < c.msgbuf.writable) (m : Payload) :
    ∃ g', LinkInv k (s.work x c (pushMsg m.msg c.quiet, true) [m.msg]) g' := by
  have hout : Outcome k ((s.node x).trace.filter Event.isRelease) ((s.node x).accepted ++ [m.msg]) c.quiet
      (pushMsg m.msg c.quiet) (g x) (g x) := by
    refine ⟨hinv.push (hinv.queue.writable_pos.mp hroom) m.msg, Nat.le_refl _, Nat.le_refl _,
      hinv.ring.read_le.trans hinv.ring.send_le, ?_⟩
    intro d ok hd
    cases hd
  have hapart : Apart c.quiet.toCore (pushMsg m.msg c.quiet).toCore := ⟨rfl, rfl, rfl, rfl, rfl, rfl, rfl, Emits.refl⟩
  refine ⟨_, h.work (h.worked_apart hinv.ring.wpos hring hheap hapart hout (h.send x).acked ?_ ?_)⟩
  · intro m' hm'
    rw [List.mem_singleton.mp hm']
    exact m.short
  · intro m' hm'
    rw [List.mem_singleton.mp hm']
    exact m.data

theorem LinkInv.step (h : LinkInv k s g) {a : Act} (ha : a.Good k s) : ∃ g', LinkInv k (s.step k a) g' := by
  have hsmall := h.small
  cases a with
  | move m => exact h.move ha.1 ha.2.1 ha.2.2
  | connect x m cid clock =>
    rw [Link.step]
    split
    · exact ⟨g, h⟩
    · rename_i hever
      obtain ⟨-, hun⟩ := h.unmade x (by simpa using (not_or.mp hever).1)
      refine h.push (c := xchannelCreate (sn (2 ^ k)) cid clock) ?_ ?_ ?_
        (show (0 : UInt16) < (⟨xmsgBufRange, 0, 0, 0, fun _ => none⟩ : Ring (Option Nat)).writable by decide) m
      · rw [hun.trace, hun.accepted, hun.marks]
        exact SendInv.create (by omega) _ _
      · rw [hun.trace]
        exact RecvInv.create (by omega) _ _
      · rw [hun.trace]
        exact Assembled.nil _
  | disconnect x m =>
    rw [Link.step]
    split
    · exact ⟨g, h⟩
    · rename_i c hc
      split
      · rename_i hup
        exact h.push ((h.send x).inv c hc) ((h.recv x).ring c hc hup) (h.assembled hc) (ha c hc) m
      · exact ⟨g, h⟩
  | flush x =>
    rw [Link.step]
    split
    · exact ⟨g, h.post (Or.inl rfl) (by simp)⟩
    · exact ⟨g, h⟩

end

end Wenas.Xmsger
