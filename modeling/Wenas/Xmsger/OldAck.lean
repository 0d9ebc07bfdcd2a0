import Wenas.Xmsger.Single

/-!
# An acknowledgement from long ago

A run of two honest sides over a network that is never late. Side `b` receives a first
pack, fails to send a pack of its own with the acknowledgement on it, and acknowledges
by itself. When its pack gets out in the end the sequence numbers have gone round once, and the
old acknowledgement names a position that has not been reached.
-/
namespace Wenas.Xmsger

open Wenas.Serial Wenas.Machine

/-! ### The two sides -/

theorem Link.own_eq {s : Link} {x : Side} {c : Channel} (hc : (s.node x).chan = some c) (hup : (s.node x).up = true)
    (l : Local) : s.move (.own x l) = s.work x c (l.call.run c.quiet) (l.call.accepts c.quiet) := by
  simp only [Link.move, Link.call, hc, hup, if_true]

theorem Link.work_self (s : Link) (x : Side) (c : Channel) (r : Channel × Bool) (acc : List Message) :
    (s.work x c r acc).node x = (s.node x).work c r acc := Function.update_self _ _ _

theorem Link.work_other (s : Link) (x : Side) (c : Channel) (r : Channel × Bool) (acc : List Message) :
    (s.work x c r acc).node x.other = s.node x.other := Function.update_of_ne x.other_ne _ _

/-- The network without the numbers only the proofs know. -/
def Link.wire (s : Link) : List (Side × Dgram) := s.net.map fun f => (f.src, f.dgram)

theorem Link.work_wire (s : Link) (x : Side) (c : Channel) (r : Channel × Bool) (acc : List Message) :
    (s.work x c r acc).wire = s.wire ++ (sentOut r.1.log).map (Prod.mk x) := by
  simp [Link.work, Link.post, Link.wire, Function.comp_def]

theorem Link.deliver_eq {s : Link} {i : Nat} {x : Side} {d : Dgram} (h : s.wire[i]? = some (x, d)) (e : Env) :
    s.move (.deliver i e) = s.arrive x.other e d := by
  simp only [Link.wire, List.getElem?_map, Option.map_eq_some_iff, Prod.mk.injEq] at h
  obtain ⟨f, hf, rfl, rfl⟩ := h
  simp only [Link.move, hf]

theorem Link.deliver_msg {s : Link} {i : Nat} {x : Side} {d : Dgram} {c : Channel} (h : s.wire[i]? = some (x, d))
    (hc : (s.node x.other).chan = some c) (hup : (s.node x.other).up = true) (ht : d.head.type = xpackTypeMsg)
    (e : Env) :
    s.move (.deliver i e) = s.work x.other c (xchannelRecvPack e d c.quiet) [] := by
  rw [Link.deliver_eq h]
  simp only [Link.arrive, hc, ht, Link.call, hup, if_true]
  rfl

/-- No side sends more sequence numbers than datagrams get out. -/
def Link.Aged (s : Link) : Prop :=
  ∀ i f, s.net[i]? = some f → ∀ z, (s.node z).sent.card + i + 1 ≤ f.stamp z + s.net.length

theorem card_work (nd : Node) (c : Channel) (r : Channel × Bool) (acc : List Message) :
    (nd.work c r acc).sent.card ≤ nd.sent.card + (sentOut r.1.log).length := by
  refine (Finset.card_union_le _ _).trans (Nat.add_le_add_left ?_ _)
  refine (List.toFinset_card_le _).trans ?_
  rw [List.length_map]
  exact List.length_filter_le _ _

theorem Link.Aged.post {s : Link} (h : s.Aged) {x : Side} {nd : Node} {out : List (Dgram × Nat)}
    (hnd : nd.sent.card ≤ (s.node x).sent.card + out.length) : (s.post x nd out).Aged := by
  intro i f hf z
  have hlen : (s.post x nd out).net.length = s.net.length + out.length := by simp [Link.post]
  have hcard : ((s.post x nd out).node z).sent.card ≤ (s.node z).sent.card + out.length := by
    by_cases hz : z = x
    · subst hz
      simpa [Link.post] using hnd
    · simp [Link.post, hz]
  rw [hlen]
  by_cases hi : i < s.net.length
  · have hold : s.net[i]? = some f := by
      have : (s.post x nd out).net[i]? = s.net[i]? := List.getElem?_append_left hi
      rw [← this, hf]
    have := h i f hold z
    omega
  · have hnew : f ∈ out.map fun d => (⟨x, d.1, d.2, fun z => ((s.post x nd out).node z).sent.card⟩ : Flight) := by
      have : (s.post x nd out).net[i]? = _ := List.getElem?_append_right (by omega)
      exact List.mem_of_getElem? (this.symm.trans hf)
    obtain ⟨d, -, rfl⟩ := List.mem_map.mp hnew
    have hlt := (List.getElem?_eq_some_iff.mp hf).1
    rw [hlen] at hlt
    show _ ≤ ((s.post x nd out).node z).sent.card + _
    omega

theorem Link.Aged.work {s : Link} (h : s.Aged) (x : Side) (c : Channel) (r : Channel × Bool) (acc : List Message) :
    (s.work x c r acc).Aged := by
  apply h.post
  simpa using card_work (s.node x) c r acc

theorem Link.Aged.call {s : Link} (h : s.Aged) (x : Side) (call : Call) : (s.call x call).Aged := by
  rw [Link.call]
  split
  · exact h
  · split
    · exact h.work _ _ _ _
    · exact h

theorem Link.Aged.move {s : Link} (h : s.Aged) (m : Move) : (s.move m).Aged := by
  cases m with
  | own x l => exact h.call x l.call
  | deliver i e =>
    rw [Link.move]
    split
    · exact h
    · rw [Link.arrive]
      repeat' split
      any_goals exact h.call _ _
      any_goals exact h
      · exact h.work _ _ _ _
      · exact h.post (by simp)

/-- A datagram behind which only few others got out is not too old. -/
theorem Link.Aged.timely {s : Link} (h : s.Aged) {i : Nat} (hi : s.wire.length ≤ i + 5) (e : Env) :
    (Move.deliver i e).Timely 1 s := by
  intro f hf z
  have := h i f hf z
  rw [Link.wire, List.length_map] at hi
  have : (2 : Nat) ^ 15 - 2 ^ 1 = 32766 := rfl
  omega

/-- A node with messages of single packs: it has accepted `ms`, sent `w` of them and released `r`. -/
structure Sending (nd : Node) (c : Channel) (ms : List Message) (r w : Nat) : Prop where
  chan : nd.chan = some c
  up : nd.up = true
  accepted : nd.accepted = ms
  single : Single ms
  inv : ∃ past, SendInv 1 past ms c.quiet.toCore (.single r w)

/-- A message is accepted and its pack sent. -/
theorem Sending.send {s : Link} {c : Channel} {ms : List Message} {r w : Nat} (h : Sending (s.node .a) c ms r w)
    (hlen : ms.length = w) (hroom : w < r + 2) (m : Payload) (hm : packs m.msg = 1) :
    ∃ s' c' d, run Link.move s [.own .a (.send m), .own .a (.sendPack 1 true)] = s' ∧
      Sending (s'.node .a) c' (ms ++ [m.msg]) r (w + 1) ∧ c'.ack.ack.type = 0 ∧ c'.recvbuf = c.recvbuf ∧
      s'.node .b = s.node .b ∧ s'.wire = s.wire ++ [(.a, d)] ∧ IsFrag d w m.msg 0 ∧
      (c.ack.ack.type = 0 → d.head.ack.type = 0) := by
  obtain ⟨past, hinv⟩ := h.inv
  have hqueue : ms.length < r + 8 := by omega
  have hwritable : 0 < c.quiet.msgbuf.writable := hinv.queue.writable_pos.mpr hqueue
  have hpushed := hinv.push hqueue m.msg
  have hsingle : Single (ms ++ [m.msg]) := by
    intro m' hm'
    rcases List.mem_append.mp hm' with hm' | hm'
    · exact h.single m' hm'
    · rw [List.mem_singleton.mp hm']
      exact hm
  have h₁ : s.move (.own .a (.send m)) = s.work .a c (pushMsg m.msg c.quiet, true) [m.msg] := by
    rw [Link.own_eq h.chan h.up]
    simp [Local.call, Call.run, Call.accepts, xmsgerSend, if_pos hwritable]
  have hc₁ : ((s.work .a c (pushMsg m.msg c.quiet, true) [m.msg]).node .a).chan = some (pushMsg m.msg c.quiet) := by
    rw [Link.work_self]
    rfl
  have hup₁ : ((s.work .a c (pushMsg m.msg c.quiet, true) [m.msg]).node .a).up = true := by
    rw [Link.work_self]
    rfl
  obtain ⟨d, m', hlog, hget, hd, hack, hclear, hsent⟩ := SendInv.send_next (c := (pushMsg m.msg c.quiet).quiet) hpushed
    hsingle (by simpa using hlen) hroom rfl 1
  have hmm : m' = m.msg := by
    rw [List.getElem?_append_right (by omega)] at hget
    simpa [hlen] using hget.symm
  subst hmm
  have hapart := Apart.sendPack (c := (pushMsg m.msg c.quiet).quiet) 1 true
  refine ⟨_, xchannelSendPack 1 true (pushMsg m.msg c.quiet).quiet, d, rfl, ?_, hclear, hapart.recvbuf,
    ?_, ?_, hd, hack⟩
  · rw [run_cons, run_cons, run_nil, h₁, Link.own_eq hc₁ hup₁, Link.work_self, Link.work_self]
    refine ⟨rfl, rfl, ?_, hsingle, _, hsent.commit⟩
    show (s.node .a).accepted ++ [m.msg] ++ [] = _
    rw [h.accepted, List.append_nil]
  · rw [run_cons, run_cons, run_nil, h₁, Link.own_eq hc₁ hup₁]
    exact (Link.work_other _ .a _ _ _).trans (Link.work_other _ .a _ _ _)
  · rw [run_cons, run_cons, run_nil, h₁, Link.own_eq hc₁ hup₁, Link.work_wire, Link.work_wire]
    simp only [Local.call, Call.run, hlog]
    simp [sentOut, pushMsg, Channel.quiet]

theorem sentOut_of_emits {P : Event → Prop} (hP : ∀ d ok, ¬ P (.sendto d ok)) {l l' : List Event} (h : Emits P l l') :
    sentOut l' = sentOut l := by
  obtain ⟨new, rfl, hn⟩ := h
  have hnil : sentOut new = [] := by
    rw [sentOut, List.filterMap_eq_nil_iff]
    intro e he
    cases e with
    | sendto d ok => exact absurd (hn _ he) (hP d ok)
    | _ => rfl
  calc sentOut (l ++ new) = sentOut l ++ sentOut new := List.filterMap_append
    _ = sentOut l := by rw [hnil, List.append_nil]

/-- An acknowledgement of everything before `p` arrives. -/
theorem Sending.acked {s : Link} {c : Channel} {ms : List Message} {r w p i : Nat} {d : Dgram}
    (h : Sending (s.node .a) c ms r w) (hr : r < p) (hp : p ≤ w) (hi : s.wire[i]? = some (.b, d))
    (ht : d.head.type = xpackTypeAck) (hsn : d.head.ack.sn = sn p) (hpos : d.head.ack.pos = sn p) :
    ∃ s' c', s.move (.deliver i Env.fine) = s' ∧ Sending (s'.node .a) c' ms p w ∧ c'.ack = c.ack ∧
      c'.recvbuf = c.recvbuf ∧ s'.node .b = s.node .b ∧ s'.wire = s.wire := by
  obtain ⟨past, hinv⟩ := h.inv
  obtain ⟨hinv', hack, hlog⟩ := hinv.release_to h.single hr hp Env.fine hsn hpos
  have harrive : s.move (.deliver i Env.fine) = s.work .a c (xchannelRecvAck Env.fine d.head.ack c.quiet, true) [] := by
    rw [Link.deliver_eq hi]
    simp only [Link.arrive, Side.other, h.chan, ht, Link.call, h.up, if_true]
    rfl
  have hsent := sentOut_of_emits (by simp [Event.isRelease]) hlog
  refine ⟨_, xchannelRecvAck Env.fine d.head.ack c.quiet, harrive, ?_, hack, (Apart.recvAck _ _).recvbuf, ?_, ?_⟩
  · rw [Link.work_self]
    refine ⟨rfl, rfl, ?_, h.single, _, hinv'.commit⟩
    show (s.node .a).accepted ++ [] = ms
    rw [h.accepted, List.append_nil]
  · exact Link.work_other _ .a _ _ _
  · rw [Link.work_wire]
    simp only [hsent]
    simp [sentOut, Channel.quiet]

/-- A node with nothing pending on its receiving side. -/
structure Waiting (nd : Node) (c : Channel) (n : Nat) : Prop where
  chan : nd.chan = some c
  up : nd.up = true
  level : Level c n

/-- The next pack arrives. -/
theorem Waiting.recv {s : Link} {c : Channel} {n i : Nat} {d : Dgram} {m : Message} (h : Waiting (s.node .b) c n)
    (hi : s.wire[i]? = some (.a, d)) (hd : IsFrag d n m 0) (hm : packs m = 1) (ht : m.type = xpackTypeMsg)
    (hack : d.head.ack.type = 0) :
    ∃ s' c', s.move (.deliver i Env.fine) = s' ∧ Waiting (s'.node .b) c' (n + 1) ∧ c'.sendbuf = c.sendbuf ∧
      c'.ack.type = xpackTypeAck ∧ c'.ack.ack = ⟨m.type, sn (n + 1), sn (n + 1)⟩ ∧ s'.node .a = s.node .a ∧
      s'.wire = s.wire ∧
      (handed (s'.node .b).trace).map RFrame.content = (handed (s.node .b).trace).map RFrame.content ++ [m.content] := by
  have hquiet : Level c.quiet n := ⟨h.level.range, h.level.rpos, h.level.wpos, h.level.buf, h.level.msg⟩
  obtain ⟨c', f, hrecv, hlevel, hsend, htype, hset, hlog, hcontent⟩ := hquiet.recv hd hm hack
  have harrive : s.move (.deliver i Env.fine) = s.work .b c (c', true) [] := by
    rw [Link.deliver_msg hi h.chan h.up (hd.type.trans ht), hrecv]
    rfl
  have hlog' : c'.log = [.store none d, .consume (sn n) d, .fromPeer f] := hlog
  refine ⟨_, c', harrive, ?_, hsend, htype, hset, ?_, ?_, ?_⟩
  · rw [Link.work_self]
    exact ⟨rfl, rfl, hlevel⟩
  · exact Link.work_other _ .b _ _ _
  · rw [Link.work_wire, hlog']
    simp [sentOut]
  · rw [Link.work_self, Node.work, handed_append, List.map_append, hlog']
    simp [handed, hcontent]

theorem handed_of_emits {l l' : List Event} (h : Emits (fun e => e.isRecv = false) l l') : handed l' = handed l := by
  rw [← handed_taken l', ← handed_taken l, taken_of_emits (h.mono fun _ => Event.not_taken)]

/-- Whatever the node does of its own accord. -/
theorem Waiting.own {s : Link} {c : Channel} {n : Nat} (h : Waiting (s.node .b) c n) (l : Local) :
    Waiting ((s.move (.own .b l)).node .b) (l.call.run c.quiet).1 n ∧ (s.move (.own .b l)).node .a = s.node .a ∧
      (s.move (.own .b l)).wire = s.wire ++ (sentOut (l.call.run c.quiet).1.log).map (Prod.mk .b) ∧
      handed ((s.move (.own .b l)).node .b).trace = handed (s.node .b).trace := by
  obtain ⟨ha, hok⟩ := l.call.apart (by cases l <;> simp [Local.call]) c.quiet
  rw [Link.own_eq h.chan h.up]
  refine ⟨?_, Link.work_other _ .b _ _ _, Link.work_wire _ _ _ _ _, ?_⟩
  · rw [Link.work_self]
    have hr := ha.recvbuf
    have hlevel := h.level
    refine ⟨rfl, hok, ?_, ?_, ?_, ?_, ha.msg.trans hlevel.msg⟩
    · rw [hr]
      exact hlevel.range
    · rw [hr]
      exact hlevel.rpos
    · rw [hr]
      exact hlevel.wpos
    · rw [hr]
      exact hlevel.buf
  · rw [Link.work_self, Node.work]
    apply handed_of_emits
    obtain ⟨new, hnew, hn⟩ := ha.log
    exact ⟨new, by rw [hnew]; rfl, hn⟩

/-- A pack arrives that acknowledges everything before `p`. -/
theorem Sending.recv {s : Link} {c : Channel} {ms : List Message} {r w p i : Nat} {d : Dgram}
    (h : Sending (s.node .a) c ms r w) (hr : r < p) (hp : p ≤ w) (hi : s.wire[i]? = some (.b, d))
    (ht : d.head.type = xpackTypeMsg) (hin : d.head.sn = c.recvbuf.wpos) (hack : d.head.ack.type ≠ 0)
    (hsn : d.head.ack.sn = sn p) (hpos : d.head.ack.pos = sn p) :
    ∃ s' c', s.move (.deliver i Env.fine) = s' ∧ Sending (s'.node .a) c' ms p w ∧ s'.node .b = s.node .b ∧
      s'.wire = s.wire := by
  obtain ⟨past, hinv⟩ := h.inv
  have hnote : SendInv 1 past ms (noteType d c.quiet).toCore (.single r w) := hinv.behind (Behind.noteType d)
  obtain ⟨hinv', -, hlog⟩ := hnote.release_to h.single hr hp Env.fine hsn hpos
  have hcarried : recvCarried Env.fine d (noteType d c.quiet) =
      xchannelRecvAck Env.fine d.head.ack (noteType d c.quiet) := by
    rw [recvCarried, if_pos hack]
  have hb : Behind (xchannelRecvAck Env.fine d.head.ack (noteType d c.quiet)).toCore
      (xchannelRecvPack Env.fine d c.quiet).1.toCore := by
    have hin' : d.head.sn = (noteType d c.quiet).recvbuf.wpos := hin
    rw [xchannelRecvPack, if_pos hin', recvInOrder, hcarried]
    refine Behind.trans ?_ ((Behind.advanceLoop loopFuel).trans (Behind.recvMsg Env.fine))
    exact (Behind.storePack d).trans ⟨rfl, rfl, rfl, rfl, rfl, rfl, Emits.refl⟩
  have hup : (xchannelRecvPack Env.fine d c.quiet).2 = true := recvMsg_fine _
  have harrive : s.move (.deliver i Env.fine) = s.work .a c (xchannelRecvPack Env.fine d c.quiet) [] :=
    Link.deliver_msg hi h.chan h.up ht Env.fine
  have hsent : sentOut (xchannelRecvPack Env.fine d c.quiet).1.log = [] := by
    rw [sentOut_of_emits (by simp [Event.isRecv]) hb.log, sentOut_of_emits (by simp [Event.isRelease]) hlog]
    rfl
  refine ⟨_, (xchannelRecvPack Env.fine d c.quiet).1, harrive, ?_, ?_, ?_⟩
  · rw [Link.work_self]
    refine ⟨rfl, hup, ?_, h.single, _, (hinv'.behind hb).commit⟩
    show (s.node .a).accepted ++ [] = ms
    rw [h.accepted, List.append_nil]
  · exact Link.work_other _ .a _ _ _
  · rw [Link.work_wire, hsent]
    simp

/-! ### The run -/

def tick : Payload := ⟨⟨xpackTypeMsg, [], by decide⟩, by decide, by decide⟩

theorem packs_tick : packs tick.msg = 1 := by decide

/-- Side `a` has sent `n` messages and all have arrived; side `b` still has its pack with the first acknowledgement. -/
structure Steady (s : Link) (n : Nat) : Prop where
  wire : s.wire.length = 2 * n
  sender : ∃ c, Sending (s.node .a) c (List.replicate n tick.msg) n n ∧ c.ack.ack.type = 0 ∧ c.recvbuf.wpos = 0
  receiver : ∃ c, Waiting (s.node .b) c n ∧ c.ack.ack.type = 0 ∧ Stale c.sendbuf
  got : (handed (s.node .b).trace).map RFrame.content = List.replicate n tick.msg.content

/-- One more message goes over and is acknowledged. -/
def turn (n : Nat) : List Move :=
  [.own .a (.send tick), .own .a (.sendPack 1 true), .deliver (2 * n) Env.fine, .own .b (.sendAck true),
    .deliver (2 * n + 1) Env.fine]

theorem Steady.turn {s : Link} {n : Nat} (h : Steady s n) (ha : s.Aged) :
    Along Link.move (Move.Timely 1) s (turn n) ∧ Steady (run Link.move s (turn n)) (n + 1) := by
  obtain ⟨c, hsend, hidle, hpos⟩ := h.sender
  obtain ⟨b, hwait, hquiet, hstale⟩ := h.receiver
  obtain ⟨s₁, c₁, d, hs₁, hsend₁, hidle₁, hrecv₁, hb₁, hwire₁, hd, hack⟩ :=
    hsend.send (by simp) (by omega) tick packs_tick
  rw [run_cons, run_cons, run_nil] at hs₁
  have hget : s₁.wire[2 * n]? = some (.a, d) := by
    rw [hwire₁, ← h.wire]
    exact List.getElem?_concat_length
  obtain ⟨s₂, b₂, hs₂, hwait₂, hbuf₂, htype₂, hack₂, ha₂, hwire₂, hhand₂⟩ :=
    Waiting.recv (s := s₁) (by rw [hb₁]; exact hwait) hget hd packs_tick rfl (hack hidle)
  obtain ⟨hwait₃, ha₃, hwire₃, hhand₃⟩ := hwait₂.own (.sendAck true)
  have hlen₂ : s₂.wire.length = 2 * n + 1 := by
    rw [hwire₂, hwire₁, List.length_append, h.wire, List.length_singleton]
  have hget₃ : (s₂.move (.own .b (.sendAck true))).wire[2 * n + 1]? = some (.b, ⟨b₂.ack, []⟩) := by
    rw [hwire₃, ← hlen₂]
    exact List.getElem?_concat_length
  obtain ⟨s₄, c₄, hs₄, hsend₄, hack₄, hrecv₄, hb₄, hwire₄⟩ :=
    Sending.acked (p := n + 1) (by rw [ha₃, ha₂]; exact hsend₁) (by omega) (by omega) hget₃ htype₂
      (by rw [hack₂]) (by rw [hack₂])
  have hrun : run Link.move s (Xmsger.turn n) = s₄ := by
    rw [Xmsger.turn, run_cons, run_cons, hs₁, run_cons, hs₂, run_cons, run_cons, run_nil, hs₄]
  have hage₁ : s₁.Aged := by
    rw [← hs₁]
    exact (ha.move _).move _
  have ht₁ : (Move.deliver (2 * n) Env.fine).Timely 1 s₁ := hage₁.timely (by rw [← hwire₂, hlen₂]; omega) _
  have ht₃ : (Move.deliver (2 * n + 1) Env.fine).Timely 1 (s₂.move (.own .b (.sendAck true))) := by
    rw [← hs₂]
    refine ((hage₁.move _).move _).timely ?_ _
    rw [hs₂, hwire₃, List.length_append, hlen₂]
    show 2 * n + 1 + 1 ≤ _
    omega
  rw [hrun]
  rw [← hs₂] at ht₃
  rw [← hs₁] at ht₁ ht₃
  refine ⟨⟨trivial, trivial, ht₁, trivial, ht₃, trivial⟩, ?_⟩
  refine ⟨?_, ⟨c₄, ?_, ?_, ?_⟩, ⟨xchannelSendAck true b₂.quiet, ?_, rfl, ?_⟩, ?_⟩
  · rw [hwire₄, hwire₃, List.length_append, hlen₂]
    rfl
  · rw [List.replicate_succ']
    exact hsend₄
  · rw [hack₄, hidle₁]
  · rw [hrecv₄, hrecv₁, hpos]
  · rw [hb₄]
    exact hwait₃
  · show Stale b₂.sendbuf
    rw [hbuf₂]
    exact hstale
  · rw [hb₄, hhand₃, hhand₂, hb₁, h.got, List.replicate_succ']

def turns (n : Nat) : Nat → List Move
  | 0 => []
  | j + 1 => turn n ++ turns (n + 1) j

theorem Link.Aged.run {s : Link} (h : s.Aged) (moves : List Move) : (run Link.move s moves).Aged :=
  invariant (fun _ m hs => hs.move m) moves h

theorem Steady.turns {n : Nat} (j : Nat) {s : Link} (h : Steady s n) (ha : s.Aged) :
    Along Link.move (Move.Timely 1) s (turns n j) ∧ Steady (run Link.move s (turns n j)) (n + j) := by
  induction j generalizing s n with
  | zero => exact ⟨trivial, h⟩
  | succ j ih =>
    obtain ⟨ht, hs⟩ := h.turn ha
    obtain ⟨ht', hs'⟩ := ih hs (ha.run _)
    rw [Xmsger.turns, Along.append, run_append]
    refine ⟨⟨ht, ht'⟩, ?_⟩
    rw [show n + (j + 1) = n + 1 + j by omega]
    exact hs'

def last : Payload := ⟨⟨xpackTypeMsg, [1], by decide⟩, by decide, by decide⟩

end Wenas.Xmsger