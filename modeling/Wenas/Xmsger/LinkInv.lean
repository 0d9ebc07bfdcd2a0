import Wenas.Xmsger.Link

/-!
# The invariant of a connection

For each side: its send ring is at its marks, its receive ring holds packs of the
other side, what it has handed up is a beginning of what the other side accepted, and
it has released no pack that the other side has not consumed. For each datagram in the
network: it is a pack of the stream, and any acknowledgement in it is one its sender had
consumed; both are recent enough for the sixteen bits to name one number only.
-/
namespace Wenas.Xmsger

open Wenas.Serial Wenas.Machine

/-! ### What a call does to the sender -/

/-- A call took a channel with empty log from `c` to `c'`. -/
structure Outcome (k : Nat) (past : List Event) (ms : List Message) (c c' : Channel) (g g' : Marks) : Prop where
  inv : SendInv k past ms c'.toCore g'
  cut_le : g.cut ≤ g'.cut
  low : g.released ≤ g'.released
  high : g'.released ≤ g.cut
  out : ∀ d ok, .sendto d ok ∈ c'.log → Leaves (AckAt c.recvbuf.wpos) ms g'.released g'.cut d ∨
    d.head.type = xpackTypeAck ∧ d.head.ack.pos = c.recvbuf.wpos

theorem Emits.leaves {A : Ack → Prop} {ms : List Message} {low high : Nat} {P : Event → Prop} {l : List Event}
    (h : Emits P [] l) (hP : ∀ d ok, P (.sendto d ok) → Leaves A ms low high d) {d : Dgram} {ok : Bool}
    (hd : .sendto d ok ∈ l) : Leaves A ms low high d := by
  obtain ⟨new, rfl, hn⟩ := h
  exact hP d ok (hn _ hd)

section

variable {k : Nat} {past : List Event} {ms : List Message} {c : Channel} {g : Marks}

theorem outgoing_ack (hready : AckReady c.toCore) (hold : ¬ c.CarriesOld) :
    0 < (serialUnlessReady c).sendbuf.sendable → AckAt c.recvbuf.wpos (serialUnlessReady c).outgoing.head.ack := by
  intro hs
  have hr := hready.pos
  have ha : (serialUnlessReady c).ack = c.ack := by
    rw [serialUnlessReady, xchannelSerialMsg]
    repeat' split
    all_goals rfl
  intro ht
  rw [Channel.outgoing, Pack.carry, ha] at ht ⊢
  split
  · exact hr
  · rename_i hz
    rw [if_neg hz] at ht
    exact absurd ⟨hs, by simpa using hz, ht⟩ hold

theorem SendInv.own (h : SendInv k past ms c.toCore g) (hlog : c.log = []) (hready : AckReady c.toCore) (l : Local)
    (hold : ∀ clock ok, l = .sendPack clock ok → ¬ c.CarriesOld) :
    ∃ g', g'.released = g.released ∧
      Outcome k past (ms ++ l.call.accepts c) c (l.call.run c).1 g g' := by
  have hrel := h.ring.read_le
  have hsent := h.ring.send_le
  cases l with
  | send m =>
    refine ⟨g, rfl, ?_⟩
    simp only [Local.call, Call.accepts, Call.run, xmsgerSend]
    split
    · rename_i hroom
      refine ⟨h.push (h.queue.writable_pos.mp hroom) m.msg, Nat.le_refl _, Nat.le_refl _, by omega, ?_⟩
      intro d ok hd
      rw [show (pushMsg m.msg c).log = c.log from rfl, hlog] at hd
      cases hd
    · refine ⟨by simpa using h, Nat.le_refl _, Nat.le_refl _, by omega, ?_⟩
      intro d ok hd
      rw [hlog] at hd
      cases hd
  | serial =>
    obtain ⟨hl, n, w, hn, h₁⟩ := h.serial
    refine ⟨{ g with cut := n, written := w }, rfl, by simpa [Local.call, Call.accepts, Call.run] using h₁, hn,
      Nat.le_refl _, hrel.trans hsent, ?_⟩
    intro d ok hd
    rw [show (Local.serial.call.run c).1.log = c.log from hl, hlog] at hd
    cases hd
  | sendPack clock ok =>
    obtain ⟨s, n, w, hn, h₁, he⟩ := h.sendPack clock ok (outgoing_ack hready (hold clock ok rfl))
    refine ⟨{ g with sent := s, cut := n, written := w }, rfl,
      by simpa [Local.call, Call.accepts, Call.run] using h₁, hn,
      Nat.le_refl _, hrel.trans hsent, ?_⟩
    intro d ok' hd
    rw [hlog] at he
    rw [show (Local.sendPack clock ok).call.accepts c = [] from rfl, List.append_nil]
    exact Or.inl (Emits.leaves he (fun _ _ hd' => hd') hd)
  | resend clock ok =>
    obtain ⟨h₁, he⟩ := h.resend clock ok
    refine ⟨g, rfl, by simpa [Local.call, Call.accepts, Call.run] using h₁, Nat.le_refl _, Nat.le_refl _, by omega, ?_⟩
    intro d ok' hd
    rw [hlog] at he
    rw [show (Local.resend clock ok).call.accepts c = [] from rfl, List.append_nil]
    exact Or.inl (Emits.leaves he (fun _ _ hd' => hd') hd)
  | sendAck ok =>
    obtain ⟨h₁, hl⟩ := h.sendAck ok
    refine ⟨g, rfl, by simpa [Local.call, Call.accepts, Call.run] using h₁, Nat.le_refl _, Nat.le_refl _, by omega, ?_⟩
    intro d ok' hd
    rw [show ((Local.sendAck ok).call.run c).1.log = c.log ++ [.sendto ⟨c.ack, []⟩ ok] from hl, hlog] at hd
    obtain ⟨rfl, -⟩ : d = ⟨c.ack, []⟩ ∧ ok' = ok := by simpa using hd
    exact Or.inr ⟨hready.type, hready.pos⟩

theorem SendInv.acked (h : SendInv k past ms c.toCore g) (hlog : c.log = []) (e : Env) (ack : Ack) :
    ∃ g', (g'.released = g.released ∨ ack.pos = sn g'.released) ∧ g'.cut = g.cut ∧
      Outcome k past ms c (xchannelRecvAck e ack c) g g' := by
  have hsent := h.ring.send_le
  obtain ⟨n, i, hn, hpos, h₁, he⟩ := h.recvAck e ack
  refine ⟨{ g with released := g.released + n, done := i }, ?_, rfl, h₁, Nat.le_refl _, Nat.le_add_right _ _,
    hn.trans hsent, ?_⟩
  · rcases hpos with rfl | hpos
    · exact Or.inl rfl
    · exact Or.inr hpos
  · intro d ok hd
    rw [hlog] at he
    exact Or.inl (Emits.leaves he (fun _ _ hd' => hd') hd)

theorem SendInv.received (h : SendInv k past ms c.toCore g) (hlog : c.log = []) (e : Env) (d : Dgram) :
    ∃ g', (g'.released = g.released ∨ d.head.ack.type ≠ 0 ∧ d.head.ack.pos = sn g'.released) ∧ g'.cut = g.cut ∧
      Outcome k past ms c (xchannelRecvPack e d c).1 g g' := by
  have hsent := h.ring.send_le
  obtain ⟨n, i, hn, hpos, h₁, he⟩ := h.recvPack e d
  refine ⟨{ g with released := g.released + n, done := i }, ?_, rfl, h₁, Nat.le_refl _, Nat.le_add_right _ _,
    hn.trans hsent, ?_⟩
  · rcases hpos with rfl | hpos
    · exact Or.inl rfl
    · exact Or.inr hpos
  · intro d' ok hd
    rw [hlog] at he
    refine Or.inl (Emits.leaves he ?_ hd)
    rintro d'' _ (hd'' | hd'' | hd'')
    · exact hd''
    · cases hd''
    · cases hd''

end

/-! ### The invariant -/

/-- The sending side of a node. All but the ring itself outlives the channel. -/
structure SendSide (k : Nat) (me peer : Node) (g : Marks) : Prop where
  inv : ∀ c, me.chan = some c → SendInv k (me.trace.filter Event.isRelease) me.accepted c.quiet.toCore g
  doneAt : Cursor me.accepted g.released g.done
  log : me.trace.filter Event.isRelease = releaseLog me.accepted g.done (g.released - start me.accepted g.done)
  room : g.cut ≤ g.released + 2 ^ k
  cut : me.cut = g.cut
  sent : ∀ n ∈ me.sent, n < g.cut
  got : ∀ n < consumed peer.trace, n ∈ me.sent
  acked : g.released ≤ consumed peer.trace
  short : Short me.accepted
  data : ∀ m ∈ me.accepted, m.type ≠ xpackTypeAck

/-- The datagram is pack `n` of this node, which has been sent. -/
def Node.Packed (nd : Node) (n : Nat) (d : Dgram) : Prop := Carried nd.accepted n d ∧ n ∈ nd.sent

/-- The receiving side of a node. -/
structure RecvSide (k : Nat) (me peer : Node) : Prop where
  ring : ∀ c, me.chan = some c → me.up = true → RecvInv peer.Packed k (consumed me.trace) c.toCore
  heap : ∃ o, Assembled peer.accepted (consumed me.trace) o (taken me.trace) ∧ ∀ c, me.chan = some c → c.msg = o

/-- A node whose channel has not been made. -/
structure Unmade (me : Node) (g : Marks) : Prop where
  accepted : me.accepted = []
  trace : me.trace = []
  sent : me.sent = ∅
  marks : g = ⟨0, 0, 0, 0, 0⟩

/-- A datagram in the network. -/
structure FlightOk (k : Nat) (s : Link) (f : Flight) : Prop where
  stamp : ∀ z, f.stamp z ≤ (s.node z).sent.card
  pack : f.dgram.head.type ≠ xpackTypeAck → Carried (s.node f.src).accepted f.num f.dgram ∧
    f.num ∈ (s.node f.src).sent ∧ f.stamp f.src ≤ f.num + 2 ^ k
  ack : f.dgram.head.type = xpackTypeAck ∨ f.dgram.head.ack.type ≠ 0 →
    ∃ p, f.dgram.head.ack.pos = sn p ∧ p ≤ consumed (s.node f.src).trace ∧ f.stamp f.src.other ≤ p + 2 ^ 15

structure LinkInv (k : Nat) (s : Link) (g : Side → Marks) : Prop where
  small : k ≤ 12
  send : ∀ x, SendSide k (s.node x) (s.node x.other) (g x)
  recv : ∀ x, RecvSide k (s.node x) (s.node x.other)
  unmade : ∀ x, (s.node x).ever = false → (s.node x).chan = none ∧ Unmade (s.node x) (g x)
  net : ∀ f ∈ s.net, FlightOk k s f

theorem card_le {s : Finset Nat} {n : Nat} (h : ∀ i ∈ s, i < n) : s.card ≤ n := by
  have hsub : s ⊆ Finset.range n := fun i hi => Finset.mem_range.mpr (h i hi)
  simpa using Finset.card_le_card hsub

theorem le_card {s : Finset Nat} {n : Nat} (h : ∀ i < n, i ∈ s) : n ≤ s.card := by
  have hsub : Finset.range n ⊆ s := fun i hi => h i (Finset.mem_range.mp hi)
  simpa using Finset.card_le_card hsub

section

variable {k : Nat} {s : Link} {g : Side → Marks}

theorem SendSide.sent_card {me peer : Node} {m : Marks} (h : SendSide k me peer m) :
    me.sent.card ≤ m.cut ∧ consumed peer.trace ≤ me.sent.card :=
  ⟨card_le h.sent, le_card h.got⟩

/-- The acknowledgement in a datagram that may still arrive names one position only. -/
theorem LinkInv.ack_exact (h : LinkInv k s g) {f : Flight} (hf : f ∈ s.net) (hfresh : f.Fresh k s)
    (hack : f.dgram.head.type = xpackTypeAck ∨ f.dgram.head.ack.type ≠ 0) {n : Nat}
    (hlow : (g f.src.other).released ≤ n) (hhigh : n ≤ (g f.src.other).cut) (hn : f.dgram.head.ack.pos = sn n) :
    n ≤ consumed (s.node f.src).trace := by
  obtain ⟨p, hp, hle, hstamp⟩ := (h.net f hf).ack hack
  have hnew := hfresh f.src.other
  have hside := h.send f.src.other
  rw [Side.other_other] at hside
  have hcard := hside.sent_card
  have hroom := hside.room
  have hacked := hside.acked
  have hpow : 2 ^ k ≤ 2 ^ 12 := Nat.pow_le_pow_right (by decide) h.small
  have hmod : n % 65536 = p % 65536 := by
    have := congrArg UInt16.toNat (hn.symm.trans hp)
    simpa using this
  omega

/-- The pack in a datagram that may still arrive has one number only, and does not overshoot. -/
theorem LinkInv.pack_exact (h : LinkInv k s g) {f : Flight} (hf : f ∈ s.net) (hfresh : f.Fresh k s)
    (hpack : f.dgram.head.type ≠ xpackTypeAck) {H : Nat → Dgram → Prop} {x : Core}
    (hx : RecvInv H k (consumed (s.node f.src.other).trace) x) :
    (∀ p, consumed (s.node f.src.other).trace ≤ p → p < consumed (s.node f.src.other).trace + 2 ^ k →
      f.dgram.head.sn = sn p → p = f.num) ∧ ¬ Overshoots f.dgram x := by
  obtain ⟨⟨i, m, j, ha, hfrag⟩, hsent, hstamp⟩ := (h.net f hf).pack hpack
  have hnew := hfresh f.src
  have hside := h.send f.src
  have hcard := hside.sent_card
  have hroom := hside.room
  have hacked := hside.acked
  have hcut := hside.sent _ hsent
  have hpow : 2 ^ k ≤ 2 ^ 12 := Nat.pow_le_pow_right (by decide) h.small
  refine ⟨?_, ?_⟩
  · intro p hp hp' hs
    have hmod : p % 65536 = f.num % 65536 := by
      have := congrArg UInt16.toNat (hs.symm.trans hfrag.sn)
      simpa using this
    omega
  · rintro ⟨hearly, hfar⟩
    rw [hx.sorted.wpos, hfrag.sn, UInt16.lt_iff_toNat_lt] at hearly
    rw [hx.sorted.wpos, hx.sorted.range, hfrag.sn, UInt16.le_iff_toNat_le, sn_toNat] at hfar
    simp only [UInt16.toNat_sub, sn_toNat] at hearly hfar
    omega

/-! ### One side works -/

/-- The outcome of a call on side `x`, as far as the other side and the network are concerned. -/
structure Worked (k : Nat) (s : Link) (x : Side) (c : Channel) (r : Channel × Bool) (acc : List Message)
    (g g' : Marks) : Prop where
  outcome : Outcome k ((s.node x).trace.filter Event.isRelease) ((s.node x).accepted ++ acc) c r.1 g g'
  wpos : c.sendbuf.wpos = sn g.cut
  acked : g'.released ≤ consumed (s.node x.other).trace
  short : Short acc
  data : ∀ m ∈ acc, m.type ≠ xpackTypeAck
  ready : c.recvbuf.wpos = sn (consumed (s.node x).trace)
  heap : Assembled (s.node x.other).accepted (consumed ((s.node x).trace ++ r.1.log)) r.1.msg
    (taken ((s.node x).trace ++ r.1.log))
  ring : r.2 = true →
    RecvInv (s.node x.other).Packed k (consumed ((s.node x).trace ++ r.1.log)) r.1.toCore
  got : ∀ n < consumed ((s.node x).trace ++ r.1.log), n ∈ (s.node x.other).sent

theorem number_eq {cut n : Nat} (hle : n ≤ cut) (hlt : cut < n + 65536) : number cut (sn cut) (sn n) = n := by
  rw [number, dist_forward hle (by omega)]
  omega

section

variable {x : Side} {c : Channel} {r : Channel × Bool} {acc : List Message} {g' : Marks}

theorem Worked.cut_eq (hw : Worked k s x c r acc (g x) g') (h : SendSide k (s.node x) (s.node x.other) (g x))
    (hk : k ≤ 12) : ((s.node x).work c r acc).cut = g'.cut := by
  have h₁ := hw.outcome.inv.ring.wpos
  have h₂ := hw.outcome.inv.ring.room
  have h₃ := hw.outcome.cut_le
  have h₄ := hw.outcome.high
  have hpow : 2 ^ k ≤ 2 ^ 12 := Nat.pow_le_pow_right (by decide) hk
  show (s.node x).cut + (r.1.sendbuf.wpos - c.sendbuf.wpos).toNat = g'.cut
  rw [h.cut, hw.wpos, h₁, dist_forward h₃ (by omega)]
  omega

/-- A pack that leaves gets its own number, which lies in the window. -/
theorem Worked.leaving (hw : Worked k s x c r acc (g x) g') (h : SendSide k (s.node x) (s.node x.other) (g x))
    (hk : k ≤ 12) {d : Dgram} (hd : d ∈ sentOut r.1.log) (ht : d.head.type ≠ xpackTypeAck) :
    AckAt c.recvbuf.wpos d.head.ack ∧
      Carried ((s.node x).accepted ++ acc) (number ((s.node x).work c r acc).cut r.1.sendbuf.wpos d.head.sn) d ∧
      g'.released ≤ number ((s.node x).work c r acc).cut r.1.sendbuf.wpos d.head.sn ∧
      number ((s.node x).work c r acc).cut r.1.sendbuf.wpos d.head.sn < g'.cut := by
  rcases hw.outcome.out d true (mem_sentOut.mp hd) with hleave | ⟨ha, -⟩
  · obtain ⟨hack, n, i, m, j, hlow, hhigh, hat, hfrag⟩ := hleave
    have hroom := hw.outcome.inv.ring.room
    have hpow : 2 ^ k ≤ 2 ^ 12 := Nat.pow_le_pow_right (by decide) hk
    have hnum : number ((s.node x).work c r acc).cut r.1.sendbuf.wpos d.head.sn = n := by
      rw [hw.cut_eq h hk, hw.outcome.inv.ring.wpos, hfrag.sn]
      exact number_eq (le_of_lt hhigh) (by omega)
    rw [hnum]
    exact ⟨hack, ⟨i, m, j, hat, hfrag⟩, hlow, hhigh⟩
  · exact absurd ha ht

theorem mem_work_sent {nd : Node} {n : Nat} :
    n ∈ (nd.work c r acc).sent ↔ n ∈ nd.sent ∨
      ∃ d ∈ sentOut r.1.log, d.head.type ≠ xpackTypeAck ∧
        number (nd.work c r acc).cut r.1.sendbuf.wpos d.head.sn = n := by
  simp only [Node.work, Finset.mem_union, List.mem_toFinset, List.mem_map, List.mem_filter,
    decide_eq_true_eq, and_assoc]

theorem Worked.sendSide (hw : Worked k s x c r acc (g x) g') (h : SendSide k (s.node x) (s.node x.other) (g x))
    (hk : k ≤ 12) : SendSide k ((s.node x).work c r acc) (s.node x.other) g' where
  inv := by
    intro c' hc'
    cases hc'
    simpa [Node.work] using hw.outcome.inv.commit
  doneAt := hw.outcome.inv.doneAt
  log := by
    have := hw.outcome.inv.log
    simpa [Node.work] using this
  room := hw.outcome.inv.ring.room
  cut := hw.cut_eq h hk
  sent := by
    intro n hn
    have hle := hw.outcome.cut_le
    rcases mem_work_sent.mp hn with hn | ⟨d, hd, ht, rfl⟩
    · have := h.sent n hn
      omega
    · exact (hw.leaving h hk hd ht).2.2.2
  got := by
    intro n hn
    exact mem_work_sent.mpr (Or.inl (h.got n hn))
  acked := hw.acked
  short := by
    intro m hm
    rcases List.mem_append.mp hm with hm | hm
    · exact h.short m hm
    · exact hw.short m hm
  data := by
    intro m hm
    rcases List.mem_append.mp hm with hm | hm
    · exact h.data m hm
    · exact hw.data m hm

theorem Worked.recvSide (hw : Worked k s x c r acc (g x) g') :
    RecvSide k ((s.node x).work c r acc) (s.node x.other) where
  ring := by
    intro c' hc' hup
    cases hc'
    exact hw.ring hup
  heap := ⟨r.1.msg, hw.heap, by intro c' hc'; cases hc'; rfl⟩

theorem consumed_le_work (nd : Node) : consumed nd.trace ≤ consumed (nd.work c r acc).trace := by
  show _ ≤ consumed (nd.trace ++ r.1.log)
  rw [consumed_append]
  omega

theorem FlightOk.mono {s' : Link} {f : Flight} (h : FlightOk k s f) (hsent : ∀ z, (s.node z).sent ⊆ (s'.node z).sent)
    (hacc : ∀ z, ∃ rest, (s'.node z).accepted = (s.node z).accepted ++ rest)
    (hcons : ∀ z, consumed (s.node z).trace ≤ consumed (s'.node z).trace) : FlightOk k s' f where
  stamp := fun z => (h.stamp z).trans (Finset.card_le_card (hsent z))
  pack := by
    intro ht
    obtain ⟨hcar, hmem, hst⟩ := h.pack ht
    obtain ⟨rest, hrest⟩ := hacc f.src
    rw [hrest]
    exact ⟨hcar.append rest, hsent _ hmem, hst⟩
  ack := by
    intro ht
    obtain ⟨p, hp, hle, hst⟩ := h.ack ht
    exact ⟨p, hp, hle.trans (hcons _), hst⟩

/-- Every datagram the call got out is a good one. -/
theorem Worked.flightOk (hw : Worked k s x c r acc (g x) g') (h : LinkInv k s g) {d : Dgram}
    (hd : d ∈ sentOut r.1.log) :
    FlightOk k (s.work x c r acc)
      ⟨x, d, number ((s.node x).work c r acc).cut r.1.sendbuf.wpos d.head.sn,
        fun z => ((s.work x c r acc).node z).sent.card⟩ := by
  have hx : (s.work x c r acc).node x = (s.node x).work c r acc := Function.update_self _ _ _
  have hy : (s.work x c r acc).node x.other = s.node x.other := Function.update_of_ne x.other_ne _ _
  have hside := hw.sendSide (h.send x) h.small
  have hpeer := h.send x.other
  rw [Side.other_other] at hpeer
  have hpow : 2 ^ k ≤ 2 ^ 12 := Nat.pow_le_pow_right (by decide) h.small
  have hself : d.head.type ≠ xpackTypeAck → AckAt c.recvbuf.wpos d.head.ack := fun ht =>
    (hw.leaving (h.send x) h.small hd ht).1
  refine ⟨fun _ => Nat.le_refl _, ?_, ?_⟩
  · intro ht
    obtain ⟨-, hcar, hlow, -⟩ := hw.leaving (h.send x) h.small hd ht
    have hcard := hside.sent_card.1
    have hroom := hside.room
    simp only [hx]
    exact ⟨hcar, mem_work_sent.mpr (Or.inr ⟨d, hd, ht, rfl⟩), by omega⟩
  · intro ht
    have hpos : d.head.ack.pos = sn (consumed (s.node x).trace) := by
      rw [← hw.ready]
      by_cases htype : d.head.type = xpackTypeAck
      · rcases hw.outcome.out d true (mem_sentOut.mp hd) with hleave | ⟨-, hp⟩
        · obtain ⟨-, n, i, m, j, -, -, hat, hfrag⟩ := hleave
          exact absurd (hfrag.type.symm.trans htype) (hside.data m (List.mem_of_getElem? hat.get))
        · exact hp
      · exact hself htype (ht.resolve_left htype)
    have hcard := hpeer.sent_card.1
    have hroom := hpeer.room
    have hacked := hpeer.acked
    simp only [hx, hy]
    exact ⟨_, hpos, consumed_le_work _, by omega⟩

theorem LinkInv.work (h : LinkInv k s g) (hw : Worked k s x c r acc (g x) g') :
    LinkInv k (s.work x c r acc) (Function.update g x g') := by
  have hx : (s.work x c r acc).node x = (s.node x).work c r acc := Function.update_self _ _ _
  have hy : (s.work x c r acc).node x.other = s.node x.other := Function.update_of_ne x.other_ne _ _
  have hgx : Function.update g x g' x = g' := Function.update_self _ _ _
  have hgy : Function.update g x g' x.other = g x.other := Function.update_of_ne x.other_ne _ _
  have hpeer := h.send x.other
  have hpeer' := h.recv x.other
  rw [Side.other_other] at hpeer hpeer'
  refine ⟨h.small, ?_, ?_, ?_, ?_⟩
  · intro z
    rcases Side.eq_or_other x z with rfl | rfl
    · rw [hx, hy, hgx]
      exact hw.sendSide (h.send z) h.small
    · rw [Side.other_other, hx, hy, hgy]
      exact { hpeer with got := hw.got, acked := hpeer.acked.trans (consumed_le_work _) }
  · intro z
    rcases Side.eq_or_other x z with rfl | rfl
    · rw [hx, hy]
      exact hw.recvSide
    · rw [Side.other_other, hx, hy]
      obtain ⟨o, ho, hmsg⟩ := hpeer'.heap
      refine ⟨fun c' hc' hup => (hpeer'.ring c' hc' hup).mono ?_, o, ho.append_list acc, hmsg⟩
      rintro n d ⟨hd, hn⟩
      exact ⟨hd.append acc, mem_work_sent.mpr (Or.inl hn)⟩
  · intro z hz
    rcases Side.eq_or_other x z with rfl | rfl
    · rw [hx] at hz
      cases hz
    · rw [hy] at hz ⊢
      rw [hgy]
      exact h.unmade _ hz
  · intro f hf
    have hold : ∀ f, FlightOk k s f → FlightOk k (s.work x c r acc) f := by
      intro f hf
      refine hf.mono ?_ ?_ ?_ <;> intro z <;> rcases Side.eq_or_other x z with rfl | rfl
      · rw [hx]
        exact fun n hn => mem_work_sent.mpr (Or.inl hn)
      · rw [hy]
      · rw [hx]
        exact ⟨acc, rfl⟩
      · rw [hy]
        exact ⟨[], by simp⟩
      · rw [hx]
        exact consumed_le_work _
      · rw [hy]
    rcases List.mem_append.mp hf with hf | hf
    · exact hold f (h.net f hf)
    · simp only [List.map_map, List.mem_map, Function.comp_apply] at hf
      obtain ⟨d, hd, rfl⟩ := hf
      exact hw.flightOk h hd

end

end

end Wenas.Xmsger
