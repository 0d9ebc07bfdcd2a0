import Wenas.Xmsger.Queue
import Wenas.Xmsger.Delivery
import Wenas.Xmsger.Stamped

/-!
# A connection can always be completed

When no `udp_sendto` of a new pack fails, no pack that is still to be sent carries an acknowledgement, so that none goes
out that is too old. From every state that such a run leads to the connection can go on until all that one side
accepted is handed up on the other side and acknowledged: send what the ring holds, send the oldest pack again, deliver
it, acknowledge it, deliver the acknowledgement.
-/
namespace Wenas.Xmsger

open Wenas.Serial Wenas.Machine

/-! ### Packs that are still to be sent -/

/-- The packs from the send position on carry no acknowledgement. -/
def Bare (b : Ring Pack) : Prop :=
  ∀ n : UInt16, n - b.spos < b.wpos - b.spos → (b.buf (slot b.range n)).head.ack.type = 0

/-- The ring stands where it stood, and no slot has got an acknowledgement. -/
structure Spares (b b' : Ring Pack) : Prop where
  range : b'.range = b.range
  spos : b'.spos = b.spos
  wpos : b'.wpos = b.wpos
  bare : ∀ i, (b.buf i).head.ack.type = 0 → (b'.buf i).head.ack.type = 0

theorem Spares.refl (b : Ring Pack) : Spares b b := ⟨rfl, rfl, rfl, fun _ => id⟩

theorem Spares.trans {b b₁ b₂ : Ring Pack} (h : Spares b b₁) (h' : Spares b₁ b₂) : Spares b b₂ :=
  ⟨h'.range.trans h.range, h'.spos.trans h.spos, h'.wpos.trans h.wpos, fun i hi => h'.bare i (h.bare i hi)⟩

theorem Spares.put {b : Ring Pack} {i : Nat} {p : Pack}
    (hp : (b.buf i).head.ack.type = 0 → p.head.ack.type = 0) : Spares b (b.put i p) := by
  refine ⟨rfl, rfl, rfl, fun j hj => ?_⟩
  by_cases hji : j = i
  · subst hji
    rw [Ring.put_buf_self]
    exact hp hj
  · rw [Ring.put_buf_of_ne _ _ hji]
    exact hj

theorem Spares.of_eq {b b' : Ring Pack} (h : b' = b) : Spares b b' := h ▸ Spares.refl b

/-- The read position takes no part. -/
theorem Spares.rpos {b b' : Ring Pack} (h : Spares b b') (r : UInt16) : Spares b { b' with rpos := r } :=
  ⟨h.range, h.spos, h.wpos, h.bare⟩

theorem Bare.keep {b b' : Ring Pack} (h : Bare b) (hk : Spares b b') : Bare b' := by
  intro n hn
  rw [hk.spos, hk.wpos] at hn
  rw [hk.range]
  exact hk.bare _ (h n hn)

section

variable {c : Channel}

theorem Spares.releaseMsg (i : Nat) : Spares c.sendbuf (releaseMsg i c).sendbuf := by
  rw [Xmsger.releaseMsg]
  dsimp only
  split
  · exact Spares.refl _
  · split
    · exact Spares.refl _
    · split
      · exact Spares.put id
      · exact Spares.refl _

theorem Spares.releaseOne : Spares c.sendbuf (releaseOne c).sendbuf := by
  have hsampled : Spares c.sendbuf (sampled c).sendbuf := by
    rw [congrArg Core.sendbuf (core_sampled c)]
    exact Spares.put id
  exact (hsampled.trans (Spares.releaseMsg c.sendbuf.rslot)).rpos _

theorem Spares.releaseLoop (pos : UInt16) (fuel : Nat) : Spares c.sendbuf (releaseLoop pos fuel c).sendbuf := by
  induction fuel generalizing c with
  | zero => exact Spares.refl _
  | succ fuel ih =>
    rw [Xmsger.releaseLoop]
    split
    · exact Spares.releaseOne.trans ih
    · exact Spares.refl _

theorem Ack.refresh_zero {a : Ack} {wpos : UInt16} (h : a.type = 0) : (a.refresh wpos).type = 0 := by
  rw [Ack.refresh, if_neg (by simpa using h)]
  exact h

theorem Spares.fastResend (e : Env) (sn : UInt16) (fuel : Nat) (index : UInt16) :
    Spares c.sendbuf (fastResend e sn fuel index c).sendbuf := by
  induction fuel generalizing c index with
  | zero => exact Spares.refl _
  | succ fuel ih =>
    rw [Xmsger.fastResend]
    dsimp only
    split
    · exact Spares.refl _
    · split
      · split
        · exact (Spares.put Ack.refresh_zero).trans (Spares.put (by simp))
        · exact (Spares.put Ack.refresh_zero).trans (ih (c := (c.setPack _ _).emit _) _)
      · exact ih _

theorem Spares.sample (i : Nat) : Spares c.sendbuf (sampleUnlessDone i c).sendbuf := by
  rw [congrArg Core.sendbuf (core_sampleUnlessDone i c)]
  exact Spares.put id

theorem Spares.recvAck (e : Env) (ack : Ack) : Spares c.sendbuf (xchannelRecvAck e ack c).sendbuf := by
  rw [xchannelRecvAck]
  dsimp only
  split
  · have hloop : Spares c.sendbuf
        (Xmsger.releaseLoop ack.pos loopFuel { c with recvTs := e.clock, ackTs := e.clock }).sendbuf :=
      Spares.releaseLoop (c := { c with recvTs := e.clock, ackTs := e.clock }) ack.pos loopFuel
    split
    · refine hloop.trans ?_
      rw [recvAckEarly]
      split
      · exact (Spares.sample _).trans (Spares.fastResend _ _ _ _)
      · exact Spares.sample _
    · exact hloop
  · exact Spares.refl _

theorem Spares.resend (clock : UInt64) (ok : Bool) : Spares c.sendbuf (xchannelResend clock ok c).sendbuf := by
  rw [xchannelResend]
  dsimp only
  split
  · split
    · exact (Spares.put Ack.refresh_zero).trans (Spares.put (by simp))
    · exact Spares.put Ack.refresh_zero
  · exact Spares.refl _

theorem Spares.recvCarried (e : Env) (d : Dgram) : Spares c.sendbuf (recvCarried e d c).sendbuf := by
  rw [Xmsger.recvCarried]
  split
  · exact Spares.recvAck e d.head.ack
  · exact Spares.refl _

theorem Spares.recvPack (e : Env) (d : Dgram) : Spares c.sendbuf (xchannelRecvPack e d c).1.sendbuf := by
  have hmsg : ∀ c : Channel, (xchannelRecvMsg e c).1.sendbuf = c.sendbuf := fun c => (Behind.recvMsg e).sendbuf
  rw [xchannelRecvPack, hmsg]
  split
  · refine (Spares.recvCarried (c := noteType d c) e d).trans (Spares.of_eq ?_)
    exact (Behind.advanceLoop (c := storeNext d (Xmsger.recvCarried e d (noteType d c))) loopFuel).sendbuf
  · split
    · rw [recvEarly]
      split
      · exact Spares.recvCarried (c := (noteType d c).setAck d.head.sn (noteType d c).recvbuf.wpos) e d
      · exact Spares.refl _
    · exact Spares.refl _

/-- What `xchannel_serial_msg` cuts has no acknowledgement. -/
theorem Bare.serial (h : Bare c.sendbuf) : Bare (xchannelSerialMsg c).sendbuf := by
  rw [xchannelSerialMsg]
  split
  · split
    · exact h
    · split
      · exact h
      · next i _ f _ =>
        intro n hn
        simp only [Ring.put_spos, Ring.put_range] at hn ⊢
        by_cases hslot : slot c.sendbuf.range n = c.sendbuf.wslot
        · rw [hslot, Ring.put_buf_self]
          rfl
        · rw [Ring.put_buf_of_ne _ _ hslot]
          refine h n ?_
          have hne : n ≠ c.sendbuf.wpos := fun heq => hslot (heq ▸ rfl)
          have hne' : n.toNat ≠ c.sendbuf.wpos.toNat := fun heq => hne (UInt16.toNat_inj.mp heq)
          rw [UInt16.lt_iff_toNat_lt] at hn ⊢
          simp only [UInt16.toNat_sub, UInt16.toNat_add, UInt16.toNat_one] at hn ⊢
          have hn16 := n.toNat_lt
          have hw16 := c.sendbuf.wpos.toNat_lt
          have hs16 := c.sendbuf.spos.toNat_lt
          omega
  · exact h

theorem Bare.serialUnlessReady (h : Bare c.sendbuf) : Bare (serialUnlessReady c).sendbuf := by
  rw [Xmsger.serialUnlessReady]
  split
  · exact h.serial
  · exact h

/-- The pack under the send position may be given an acknowledgement when it counts as sent. -/
theorem Bare.send {F : Nat → Pack → Prop} {G : Pack → Prop} {k r s w : Nat} {b : Ring Pack} (h : Bare b)
    (hring : b.Holds F G k r s w) (hlt : s < w) (p : Pack) : Bare { b.put b.sslot p with spos := b.spos + 1 } := by
  intro i hi
  have hread := hring.read_le
  have hroom := hring.room
  have hpow := hring.pow_le
  have hahead := exists_ahead s i
  change i - (b.spos + 1) < b.wpos - (b.spos + 1) at hi
  change ((b.put b.sslot p).buf (slot b.range i)).head.ack.type = 0
  rw [hring.spos, sn_succ, hring.wpos, UInt16.lt_iff_toNat_lt, dist_forward (by omega) (by omega)] at hi
  have hdist : (i - sn (s + 1)).toNat + 1 = (i - sn s).toNat := by
    rw [← sn_succ]
    refine dist_step fun heq => ?_
    rw [← heq, ← sn_succ, UInt16.toNat_sub, UInt16.toNat_add, UInt16.toNat_one, sn_toNat] at hi
    omega
  -- the slot of the pack that has just been sent is another one
  have hslot : slot b.range i ≠ b.sslot := by
    rw [hring.sslot, hahead, hring.slot_sn]
    exact Ring.slot_ne (r := r) (by omega) hread (by omega) (by omega) (by omega)
  rw [Ring.put_buf_of_ne _ _ hslot]
  refine h i ?_
  rw [hring.spos, hring.wpos, UInt16.lt_iff_toNat_lt, dist_forward (by omega) (by omega)]
  omega

/-- The ring behind a pack that went out. -/
theorem markSent_sendbuf (p : Pack) (e : Event) (clock : UInt64) :
    ∃ q, (((c.setPack c.sendbuf.sslot p).emit e).markSent clock).sendbuf =
      { c.sendbuf.put c.sendbuf.sslot q with spos := c.sendbuf.spos + 1 } := by
  have htwice : ∀ q, (((c.setPack c.sendbuf.sslot p).emit e).sendbuf.put c.sendbuf.sslot q) =
      c.sendbuf.put c.sendbuf.sslot q := fun q => Ring.put_put ..
  exact ⟨_, congrArg (fun b : Ring Pack => { b with spos := c.sendbuf.spos + 1 }) (htwice _)⟩

theorem Bare.sendPack {k : Nat} {past : List Event} {ms : List Message} {g : Marks} (h : Bare c.sendbuf)
    (hinv : SendInv k past ms c.toCore g) (clock : UInt64) : Bare (xchannelSendPack clock true c).sendbuf := by
  obtain ⟨-, n, w, -, h₁⟩ := hinv.serialUnlessReady
  have hbare := h.serialUnlessReady
  rw [xchannelSendPack]
  by_cases hs : 0 < (Xmsger.serialUnlessReady c).sendbuf.sendable
  · simp only [if_pos hs, if_true]
    refine Bare.serial ?_
    obtain ⟨q, hq⟩ := markSent_sendbuf (c := Xmsger.serialUnlessReady c) (Xmsger.serialUnlessReady c).outgoing
      (.sendto (Xmsger.serialUnlessReady c).outgoing.dgram true) clock
    rw [hq]
    exact hbare.send h₁.ring (h₁.ring.sendable_pos.mp hs) q
  · simp only [if_neg hs]
    exact hbare

/-- No pack goes out with an acknowledgement left over from an attempt that failed. -/
theorem Bare.not_carriesOld (h : Bare c.sendbuf) : ¬ c.CarriesOld := by
  rintro ⟨hs, -, hack⟩
  refine hack (h.serialUnlessReady _ ?_)
  rw [UInt16.sub_self]
  exact hs

end

/-! ### Runs in which new packs get out -/

/-- The receive branch of `msger_loop` passes packs of this type on. -/
def Message.Routed (m : Message) : Prop := m.type = xpackTypeReq ∨ m.type = xpackTypeMsg ∨ m.type = xpackTypeRes

instance (m : Message) : Decidable m.Routed := inferInstanceAs (Decidable (_ ∨ _ ∨ _))

/-- The messages are of a type that is passed on, and `udp_sendto` does not fail for a new pack. -/
def Move.GetsOut : Move → Prop
  | .own _ (.send m) => m.msg.Routed
  | .own _ (.sendPack _ ok) => ok = true
  | _ => True

instance : DecidablePred Move.GetsOut
  | .own _ (.send _) => inferInstanceAs (Decidable (Message.Routed _))
  | .own _ (.sendPack _ _) => inferInstanceAs (Decidable (_ = true))
  | .own _ .serial => .isTrue trivial
  | .own _ (.resend _ _) => .isTrue trivial
  | .own _ (.sendAck _) => .isTrue trivial
  | .deliver _ _ => .isTrue trivial

/-- What such runs keep. -/
structure Whole (k : Nat) (s : Link) : Prop where
  inv : ∃ g, LinkInv k s g
  chan : ∀ z, (s.node z).chan ≠ none
  bare : ∀ z c, (s.node z).chan = some c → Bare c.sendbuf
  routed : ∀ z, ∀ m ∈ (s.node z).accepted, m.Routed

theorem Whole.open {k : Nat} (hk : k ≤ 12) (cid : UInt16) (clock : UInt64) : Whole k (Link.open k cid clock) where
  inv := ⟨_, LinkInv.open hk cid clock⟩
  chan := by simp [Link.open]
  bare := by
    intro z c hc
    cases hc
    intro n _
    rfl
  routed := by
    intro z m hm
    cases hm

section

variable {k : Nat} {s : Link} {x : Side} {c : Channel}

theorem call_eq (hc : (s.node x).chan = some c) (hup : (s.node x).up = true) (call : Call) :
    s.call x call = s.work x c (call.run c.quiet) (call.accepts c.quiet) := by
  rw [Link.call, hc]
  exact if_pos hup

@[simp] theorem work_node (r : Channel × Bool) (acc : List Message) :
    (s.work x c r acc).node x = (s.node x).work c r acc := Function.update_self ..

@[simp] theorem work_other (r : Channel × Bool) (acc : List Message) :
    (s.work x c r acc).node x.other = s.node x.other := Function.update_of_ne x.other_ne ..

theorem Whole.not_carriesOld (h : Whole k s) (hc : (s.node x).chan = some c) : ¬ c.quiet.CarriesOld := by
  have hbare : Bare c.quiet.sendbuf := h.bare x c hc
  exact hbare.not_carriesOld

theorem Whole.call (h : Whole k s) {call : Call} (hinv : ∃ g, LinkInv k (s.call x call) g)
    (hbare : ∀ c, (s.node x).chan = some c → Bare (call.run c.quiet).1.sendbuf)
    (hrouted : ∀ c, ∀ m ∈ call.accepts c, m.Routed) : Whole k (s.call x call) := by
  refine ⟨hinv, Link.call_chan h.chan x call, ?_, ?_⟩
  · intro z c hz
    rw [Link.call] at hz
    split at hz
    · exact h.bare z c hz
    · next c₀ hc =>
      split at hz
      · rcases Side.eq_or_other x z with rfl | rfl
        · rw [work_node] at hz
          cases hz
          exact hbare c₀ hc
        · rw [work_other] at hz
          exact h.bare _ c hz
      · exact h.bare z c hz
  · intro z m hm
    rw [Link.call] at hm
    split at hm
    · exact h.routed z m hm
    · split at hm
      · rcases Side.eq_or_other x z with rfl | rfl
        · rw [work_node] at hm
          rcases List.mem_append.mp hm with hm | hm
          · exact h.routed _ m hm
          · exact hrouted _ m hm
        · rw [work_other] at hm
          exact h.routed _ m hm
      · exact h.routed z m hm

theorem Whole.own (h : Whole k s) {l : Local} (hout : (Move.own x l).GetsOut) : Whole k (s.call x l.call) := by
  obtain ⟨g, hg⟩ := h.inv
  obtain ⟨m, -, hm⟩ := hg.own l fun c _ _ hc _ => h.not_carriesOld hc
  refine h.call ⟨_, hm⟩ ?_ ?_
  · intro c hc
    have hbare : Bare c.quiet.sendbuf := h.bare x c hc
    cases l with
    | send m =>
      rw [Local.call, Call.run, xmsgerSend]
      split <;> exact hbare
    | serial => exact hbare.serial
    | sendPack clock ok =>
      cases hout
      exact hbare.sendPack ((hg.send x).inv c hc) clock
    | resend clock ok => exact hbare.keep (Spares.resend clock ok)
    | sendAck ok => cases ok <;> exact hbare
  · intro c m hm
    cases l with
    | send p =>
      rw [Local.call, Call.accepts] at hm
      split at hm
      · rw [List.mem_singleton.mp hm]
        exact hout
      · cases hm
    | _ => cases hm

theorem Whole.arrive (h : Whole k s) {f : Flight} (hf : f ∈ s.net) (hfresh : f.Fresh k s) (e : Env) :
    Whole k (s.arrive f.src.other e f.dgram) := by
  obtain ⟨g, hg⟩ := h.inv
  have hpack : f.dgram.head.type ≠ xpackTypeAck → Whole k (s.call f.src.other (.recvPack e f.dgram)) := by
    intro ht
    obtain ⟨m, hm⟩ := hg.recvPack hf hfresh ht e
    refine h.call ⟨_, hm⟩ (fun c hc => ?_) fun _ m hm => by cases hm
    have hbare : Bare c.quiet.sendbuf := h.bare _ c hc
    exact hbare.keep (Spares.recvPack (c := c.quiet) e f.dgram)
  have hack : f.dgram.head.type = xpackTypeAck → Whole k (s.call f.src.other (.recvAck e f.dgram.head.ack)) := by
    intro ht
    obtain ⟨m, -, hm⟩ := hg.recvAck hf hfresh ht e
    refine h.call ⟨_, hm⟩ (fun c hc => ?_) fun _ m hm => by cases hm
    have hbare : Bare c.quiet.sendbuf := h.bare _ c hc
    exact hbare.keep (Spares.recvAck (c := c.quiet) e f.dgram.head.ack)
  rw [Link.arrive]
  split
  · split
    · next ht => exact hpack (by rw [ht]; decide)
    · split
      · next ht => exact hack ht
      · next ht =>
        split
        · exact hpack ht
        · split
          · split
            · exact hpack ht
            · exact h
          · exact h
  · next hc => exact absurd hc (h.chan _)

theorem Whole.move (h : Whole k s) {m : Move} (ht : m.Timely k s) (hout : m.GetsOut) : Whole k (s.move m) := by
  cases m with
  | own x l => exact h.own hout
  | deliver i e =>
    rw [Link.move]
    split
    · exact h
    · next f hf => exact h.arrive (List.mem_of_getElem? hf) (ht f hf) e

end

/-! ### What the steps of a round do -/

section

variable {k : Nat} {past : List Event} {ms : List Message} {c : Channel} {g : Marks}

theorem serial_spos (c : Channel) : (xchannelSerialMsg c).sendbuf.spos = c.sendbuf.spos := by
  rw [xchannelSerialMsg]
  repeat' split
  all_goals rfl

theorem serialUnlessReady_spos (c : Channel) : (serialUnlessReady c).sendbuf.spos = c.sendbuf.spos := by
  rw [serialUnlessReady]
  split
  · exact serial_spos c
  · rfl

/-- With nothing left to send, the ring is full or all messages have been cut. -/
theorem SendInv.nothing_ready (h : SendInv k past ms c.toCore g) (hs : ¬ 0 < (Xmsger.serialUnlessReady c).sendbuf.sendable) :
    Xmsger.serialUnlessReady c = c ∧ g.sent = g.cut ∧ (g.cut = g.released + 2 ^ k ∨ g.cut = start ms ms.length) := by
  have hroom := h.ring.room
  have hle := h.ring.send_le
  by_cases hz : c.sendbuf.sendable = 0
  · rw [Xmsger.serialUnlessReady, if_pos hz] at hs ⊢
    have hlevel : ¬ g.sent < g.cut := by
      rw [← h.ring.sendable_pos, hz]
      exact UInt16.lt_irrefl 0
    have hstuck : ¬ (0 < c.sendbuf.writable ∧ 0 < c.msgbuf.sendable) := by
      rintro ⟨hw, hm⟩
      obtain ⟨w, h₁⟩ := h.cut (h.ring.writable_pos.mp hw) (h.queue.sendable_pos.mp hm)
      refine hs (h₁.ring.sendable_pos.mpr ?_)
      simp only
      omega
    refine ⟨?_, by omega, ?_⟩
    · rw [xchannelSerialMsg, if_neg hstuck]
    · rw [h.ring.writable_pos, h.queue.sendable_pos] at hstuck
      by_cases hfull : g.cut = g.released + 2 ^ k
      · exact .inl hfull
      · have hcut := h.cutAt.le
        have hwritten : g.written = ms.length := by omega
        exact .inr (hwritten ▸ h.cutAt.stop hwritten)
  · rw [Xmsger.serialUnlessReady, if_neg hz] at hs
    exact absurd (UInt16.pos_iff_ne_zero.mpr hz) hs

/-- A successful send moves the send position, unless there is nothing left to send. -/
theorem SendInv.sendPack_spos (h : SendInv k past ms c.toCore g) (clock : UInt64) :
    (xchannelSendPack clock true c).sendbuf.spos = c.sendbuf.spos + 1 ∨
      xchannelSendPack clock true c = c ∧ g.sent = g.cut ∧
        (g.cut = g.released + 2 ^ k ∨ g.cut = start ms ms.length) := by
  by_cases hs : 0 < (Xmsger.serialUnlessReady c).sendbuf.sendable
  · refine .inl ?_
    rw [xchannelSendPack]
    simp only [if_pos hs, if_true]
    rw [serial_spos]
    exact congrArg (· + 1) (serialUnlessReady_spos c)
  · obtain ⟨hsame, hlevel⟩ := h.nothing_ready hs
    refine .inr ⟨?_, hlevel⟩
    rw [xchannelSendPack]
    simp only [if_neg hs]
    exact hsame

/-- The oldest outstanding pack, as it is sent again. -/
theorem SendInv.resend_log (h : SendInv k past ms c.toCore g) (hlt : g.released < g.sent) (clock : UInt64) :
    ∃ p : Pack, (xchannelResend clock true c).log = c.log ++ [.sendto p.dgram true] ∧ Carries ms g.released p ∧
      p.head.resend = (c.sendbuf.buf c.sendbuf.rslot).head.resend ∧
      ((xchannelResend clock true c).sendbuf.buf c.sendbuf.rslot).head.resend = p.head.resend + 1 ∧
      (xchannelResend clock true c).sendbuf.rpos = c.sendbuf.rpos := by
  have hw := h.ring.recvable_pos.mpr hlt
  have hcut := h.ring.send_le
  refine ⟨(c.sendbuf.buf c.sendbuf.rslot).late clock c.recvbuf.wpos, ?_, ?_, rfl, ?_, ?_⟩
  · rw [xchannelResend, if_pos hw]
    rfl
  · rw [h.ring.rslot]
    exact (h.ring.used g.released (Nat.le_refl _) (by omega)).same (Pack.late_same _ _ _)
  · rw [xchannelResend, if_pos hw]
    exact congrArg (fun p : Pack => p.head.resend) (Ring.put_buf_self ..)
  · rw [xchannelResend, if_pos hw]
    rfl

/-- An acknowledgement of a position ahead, and of nothing else, moves the read position. -/
theorem SendInv.recvAck_rpos (h : SendInv k past ms c.toCore g) (e : Env) {ack : Ack} {p : Nat} (hlt : g.released < p)
    (hle : p ≤ g.sent) (hpos : ack.pos = sn p) (hsn : ack.sn = sn p) :
    ∃ n, 0 < n ∧ g.released + n ≤ g.sent ∧ (xchannelRecvAck e ack c).sendbuf.rpos = sn (g.released + n) := by
  have hroom := h.ring.room
  have hpow := h.ring.pow_le
  have hsend := h.ring.send_le
  have hdist : (sn p - c.sendbuf.rpos).toNat = p - g.released := by
    rw [h.ring.rpos]
    exact dist_forward (by omega) (by omega)
  have hwindow : sn p - c.sendbuf.rpos ≤ c.sendbuf.spos - c.sendbuf.rpos := by
    rw [UInt16.le_iff_toNat_le, hdist, h.ring.recvable]
    omega
  have hstamp : SendInv k past ms { c with recvTs := e.clock, ackTs := e.clock }.toCore g := h
  obtain ⟨n, d, hn, hloop, h₁, ⟨-, hstop⟩, -⟩ := hstamp.release_loop ack.pos loopFuel (by simp only [loopFuel]; omega)
  have hgo : releasable ack.pos { c with recvTs := e.clock, ackTs := e.clock } = true := by
    have hne : c.sendbuf.rpos ≠ sn p := by
      rw [h.ring.rpos, Ne, sn_eq_iff (by omega) (by omega)]
      omega
    rw [releasable, hpos]
    simpa using ⟨hwindow, hne⟩
  refine ⟨n, Nat.pos_of_ne_zero ?_, by omega, ?_⟩
  · rintro rfl
    rw [Function.iterate_zero, id_eq, hgo] at hstop
    exact Bool.noConfusion hstop
  · rw [xchannelRecvAck, if_pos ⟨h.ring.recvable_pos.mpr (by omega), hsn ▸ hwindow⟩]
    simp only [hpos, hsn, ne_eq, not_true, if_false]
    rw [← hpos, hloop]
    exact h₁.ring.rpos

theorem advanceLoop_sn (fuel : Nat) {c : Channel} (h : c.ack.ack.sn = c.ack.ack.pos) :
    (advanceLoop fuel c).ack.ack.sn = (advanceLoop fuel c).ack.ack.pos := by
  induction fuel generalizing c with
  | zero => exact h
  | succ fuel ih =>
    rw [advanceLoop]
    split
    · exact ih rfl
    · exact h

theorem recvMsgLoop_wpos (e : Env) (fuel : Nat) (c : Channel) :
    (recvMsgLoop e fuel c).1.recvbuf.wpos = c.recvbuf.wpos := by
  induction fuel generalizing c with
  | zero => rfl
  | succ fuel ih =>
    rw [recvMsgLoop]
    split
    · rfl
    · split
      · rfl
      · rw [ih, recvMsgOne]
        dsimp only
        split <;> rfl

theorem recvMsg_wpos (e : Env) (c : Channel) : (xchannelRecvMsg e c).1.recvbuf.wpos = c.recvbuf.wpos := by
  rw [xchannelRecvMsg]
  dsimp only
  split
  · split
    · rfl
    · rw [recvMsgLoop_wpos]
  · rfl

/-- A pack that is expected next, or was received before, is acknowledged with everything that is there by then; the
expected one takes the position on. -/
theorem RecvInv.recvPack_ack {H : Nat → Dgram → Prop} {n p : Nat} (h : RecvInv H k n c.toCore) (e : Env) {d : Dgram}
    (hd : H p d) (hsn : d.head.sn = sn p) (hle : p ≤ n) (hnear : n ≤ p + 2 ^ k) :
    (xchannelRecvPack e d c).1.ack.ack.sn = (xchannelRecvPack e d c).1.ack.ack.pos ∧
      (p = n → ∃ w, n < w ∧ w ≤ n + 2 ^ k ∧ (xchannelRecvPack e d c).1.recvbuf.wpos = sn w) := by
  have hpow := two_pow_le h.sorted.small
  have hw := h.sorted.wpos
  have hnote : RecvInv H k n (noteType d c).toCore := ⟨h.sorted, h.empty, rfl, h.ready.pos⟩
  rw [xchannelRecvPack, recvMsg_ack, recvMsg_wpos]
  by_cases hpn : p = n
  · subst hpn
    have hnext : d.head.sn = (noteType d c).recvbuf.wpos := hsn.trans hw.symm
    rw [if_pos hnext]
    refine ⟨advanceLoop_sn loopFuel rfl, fun _ => ?_⟩
    obtain ⟨h₁, hready, -⟩ := (hnote.apart (Apart.recvCarried e d)).storeNext hsn hd
    obtain ⟨w, hlt, h₂, -⟩ := advance_loop loopFuel h₁ hready (by simp only [loopFuel]; omega)
    exact ⟨w, by omega, h₂.room, h₂.wpos⟩
  · have hother : d.head.sn ≠ (noteType d c).recvbuf.wpos := by
      intro heq
      have heq' : sn p = sn n := hsn.symm.trans (heq.trans hw)
      exact hpn ((sn_eq_iff hle (by omega)).mp heq')
    have hbehind : ¬ d.head.sn - (noteType d c).recvbuf.wpos < (noteType d c).recvbuf.wpos - d.head.sn := by
      change ¬ d.head.sn - c.recvbuf.wpos < c.recvbuf.wpos - d.head.sn
      rw [hsn, hw, UInt16.lt_iff_toNat_lt, dist_forward hle (by omega), dist_backward (by omega) (by omega)]
      omega
    rw [if_neg hother, if_neg hbehind]
    exact ⟨rfl, fun heq => absurd heq hpn⟩

end

/-! ### A round -/

/-- Both msgers run, at the marks `g`. -/
structure Live (k : Nat) (s : Link) (g : Side → Marks) : Prop where
  inv : LinkInv k s g
  whole : Whole k s
  up : ∀ z, (s.node z).up = true

/-- The connection can go on to `s'` without a new message. -/
structure Leads (k : Nat) (s s' : Link) : Prop where
  moves : ∃ moves, Along Link.move (fun s m => m.Timely k s ∧ m.GetsOut) s moves ∧ run Link.move s moves = s'
  accepted : ∀ z, (s'.node z).accepted = (s.node z).accepted
  trace : ∀ z, (s.node z).trace <+: (s'.node z).trace

section

variable {k : Nat} {s s₁ s₂ : Link} {g : Side → Marks} {x : Side} {c : Channel}

theorem Leads.refl (s : Link) : Leads k s s := ⟨⟨[], trivial, rfl⟩, fun _ => rfl, fun _ => List.prefix_rfl⟩

theorem Leads.trans (h : Leads k s s₁) (h' : Leads k s₁ s₂) : Leads k s s₂ := by
  obtain ⟨moves, halong, rfl⟩ := h.moves
  obtain ⟨moves', halong', rfl⟩ := h'.moves
  refine ⟨⟨moves ++ moves', Along.append.mpr ⟨halong, halong'⟩, run_append ..⟩, fun z => ?_, fun z => ?_⟩
  · exact (h'.accepted z).trans (h.accepted z)
  · exact (h.trace z).trans (h'.trace z)

/-- A call that accepts nothing. -/
theorem Leads.work {m : Move} (hm : m.Timely k s) (hout : m.GetsOut) {r : Channel × Bool}
    (heq : s.move m = s.work x c r []) : Leads k s (s.work x c r []) := by
  refine ⟨⟨[m], ⟨⟨hm, hout⟩, trivial⟩, heq⟩, fun z => ?_, fun z => ?_⟩
  · rcases Side.eq_or_other x z with rfl | rfl
    · rw [work_node]
      exact List.append_nil _
    · rw [work_other]
  · rcases Side.eq_or_other x z with rfl | rfl
    · rw [work_node]
      exact List.prefix_append ..
    · rw [work_other]

/-- One move that is a call on side `x` with a channel `c`. -/
theorem Live.work (h : Live k s g) {m : Move} (hm : m.Timely k s) (hout : m.GetsOut) {r : Channel × Bool} {n : Marks}
    (heq : s.move m = s.work x c r []) (hup : r.2 = true) (hinv : LinkInv k (s.move m) (Function.update g x n)) :
    Leads k s (s.work x c r []) ∧ Live k (s.work x c r []) (Function.update g x n) := by
  have hwhole := h.whole.move hm hout
  rw [heq] at hwhole hinv
  refine ⟨.work hm hout heq, hinv, hwhole, fun z => ?_⟩
  rcases Side.eq_or_other x z with rfl | rfl
  · rw [work_node]
    exact hup
  · rw [work_other]
    exact h.up _

/-- The marks of a side lie in its ring. -/
theorem Live.window (h : Live k s g) (x : Side) :
    (g x).released ≤ (g x).sent ∧ (g x).sent ≤ (g x).cut ∧ (g x).cut ≤ (g x).released + 2 ^ k ∧ 2 ^ k ≤ 4096 ∧
      (g x).released ≤ consumed (s.node x.other).trace ∧ consumed (s.node x.other).trace ≤ (g x).cut := by
  obtain ⟨c, hc⟩ := Option.ne_none_iff_exists'.mp (h.whole.chan x)
  have hside := h.inv.send x
  have hring := (hside.inv c hc).ring
  have hcard := hside.sent_card
  exact ⟨hring.read_le, hring.send_le, hring.room, Nat.pow_le_pow_right (by decide) h.inv.small, hside.acked,
    hcard.2.trans hcard.1⟩

theorem Live.own (h : Live k s g) (hc : (s.node x).chan = some c) (l : Local) (hout : (Move.own x l).GetsOut)
    (hnone : l.call.accepts c.quiet = []) :
    ∃ n, n.released = (g x).released ∧ Leads k s (s.work x c (l.call.run c.quiet) []) ∧
      Live k (s.work x c (l.call.run c.quiet) []) (Function.update g x n) := by
  obtain ⟨n, hrel, hinv⟩ := h.inv.own (x := x) l fun c _ _ hc _ => h.whole.not_carriesOld hc
  have heq : s.move (.own x l) = s.work x c (l.call.run c.quiet) [] := by
    rw [Link.move, call_eq hc (h.up x), hnone]
  have hup : (l.call.run c.quiet).2 = true := (l.call.apart (by cases l <;> simp [Local.call]) c.quiet).2
  exact ⟨n, hrel, h.work (m := .own x l) trivial hout heq hup hinv⟩

/-- Positions that stay where they are stand for the same marks. -/
theorem Live.marks_eq {s' : Link} {n : Marks} {c' : Channel} (h : Live k s g) (hlive : Live k s' (Function.update g x n))
    (hrel : n.released = (g x).released) (hc : (s.node x).chan = some c) (hc' : (s'.node x).chan = some c')
    (hspos : c'.sendbuf.spos = c.sendbuf.spos) (hwpos : c'.sendbuf.wpos = c.sendbuf.wpos) :
    n.sent = (g x).sent ∧ n.cut = (g x).cut := by
  obtain ⟨hread, hsend, hroom, hpow, -⟩ := h.window x
  obtain ⟨hread', hsend', hroom', -⟩ := hlive.window x
  have hring := ((h.inv.send x).inv c hc).ring
  have hring' := ((hlive.inv.send x).inv c' hc').ring
  rw [Function.update_self] at hread' hsend' hroom' hring'
  have hsent : sn n.sent = sn (g x).sent := hring'.spos.symm.trans (hspos.trans hring.spos)
  have hcut : sn n.cut = sn (g x).cut := hring'.wpos.symm.trans (hwpos.trans hring.wpos)
  have hmod := congrArg UInt16.toNat hsent
  have hmod' := congrArg UInt16.toNat hcut
  simp only [sn_toNat] at hmod hmod'
  omega

/-- A sent pack, or nothing is left to send. -/
theorem Live.sendPack (h : Live k s g) (x : Side) :
    ∃ s' n, Leads k s s' ∧ Live k s' (Function.update g x n) ∧ n.released = (g x).released ∧
      (n.sent = (g x).sent + 1 ∨ n.sent = n.cut ∧
        (n.cut = n.released + 2 ^ k ∨ n.cut = start (s.node x).accepted (s.node x).accepted.length)) := by
  obtain ⟨c, hc⟩ := Option.ne_none_iff_exists'.mp (h.whole.chan x)
  obtain ⟨hread, hsend, hroom, hpow, -⟩ := h.window x
  obtain ⟨n, hrel, hleads, hlive⟩ := h.own hc (.sendPack 0 true) rfl rfl
  refine ⟨_, n, hleads, hlive, hrel, ?_⟩
  have hc' : ((s.work x c (xchannelSendPack 0 true c.quiet, true) []).node x).chan =
      some (xchannelSendPack 0 true c.quiet) := by
    rw [work_node]
    rfl
  have hinv := (h.inv.send x).inv c hc
  rcases hinv.sendPack_spos 0 with hmoved | ⟨hsame, hlevel, hend⟩
  · left
    obtain ⟨hread', hsend', hroom', -⟩ := hlive.window x
    have hspos := ((hlive.inv.send x).inv _ hc').ring.spos
    rw [Function.update_self] at hread' hsend' hroom' hspos
    have hnext : sn ((g x).sent + 1) = sn n.sent := by
      rw [← sn_succ, ← hinv.ring.spos, ← hmoved]
      exact hspos
    have hmod := congrArg UInt16.toNat hnext
    simp only [sn_toNat] at hmod
    omega
  · right
    obtain ⟨hsent, hcut⟩ := h.marks_eq hlive hrel hc hc' (by rw [hsame]; rfl) (by rw [hsame]; rfl)
    rw [hsent, hcut, hrel]
    exact ⟨hlevel, hend⟩

/-- All that has been cut is sent, and something is outstanding unless all messages are acknowledged. -/
theorem Live.sendAll (x : Side) :
    ∀ (room : Nat) {s : Link} {g : Side → Marks}, Live k s g → (g x).released + 2 ^ k - (g x).sent ≤ room →
      (g x).released < start (s.node x).accepted (s.node x).accepted.length →
      ∃ s' n, Leads k s s' ∧ Live k s' (Function.update g x n) ∧ n.released = (g x).released ∧ n.sent = n.cut ∧
        n.released < n.sent := by
  intro room
  induction room with
  | zero =>
    intro s g h hroom hmore
    obtain ⟨hread, hsend, hcut, hpow, -⟩ := h.window x
    have hpos := Nat.two_pow_pos k
    refine ⟨s, g x, Leads.refl s, ?_, rfl, by omega, by omega⟩
    rwa [Function.update_eq_self]
  | succ room ih =>
    intro s g h hroom hmore
    obtain ⟨s₁, n, hleads, hlive, hrel, hcases⟩ := h.sendPack x
    have hpos := Nat.two_pow_pos k
    obtain hnext | ⟨hlevel, hend⟩ := hcases
    · obtain ⟨s', n', hleads', hlive', hrel', hsent, hout⟩ :=
        ih hlive (by rw [Function.update_self]; omega) (by rw [Function.update_self, hleads.accepted]; omega)
      rw [Function.update_idem] at hlive'
      rw [Function.update_self] at hrel'
      exact ⟨s', n', hleads.trans hleads', hlive', hrel'.trans hrel, hsent, hout⟩
    · refine ⟨s₁, n, hleads, hlive, hrel, hlevel, ?_⟩
      rcases hend with hend | hend <;> omega

/-- The network behind a call that sends one datagram. -/
theorem work_net (r : Channel × Bool) (acc : List Message) {d : Dgram} (hout : sentOut r.1.log = [d]) :
    ∃ num, (s.work x c r acc).net =
      s.net ++ [⟨x, d, num, fun z => ((s.work x c r acc).node z).sent.card⟩] := by
  refine ⟨number ((s.node x).work c r acc).cut r.1.sendbuf.wpos d.head.sn, ?_⟩
  rw [Link.work, Link.post, hout]
  rfl

/-- A datagram that has just got out may be delivered. -/
theorem fresh_of_last (h : Live k s g) {f : Flight} (hstamp : ∀ z, f.stamp z = (s.node z).sent.card) : f.Fresh k s := by
  intro z
  have hpow : 2 ^ k ≤ 2 ^ 12 := Nat.pow_le_pow_right (by decide) h.inv.small
  rw [hstamp]
  omega

/-- The oldest pack is sent again; the slot counts how often. -/
theorem Live.resendOnce (h : Live k s g) (hc : (s.node x).chan = some c) (hlt : (g x).released < (g x).sent) :
    ∃ s' n c' f, Leads k s s' ∧ Live k s' (Function.update g x n) ∧ n.released = (g x).released ∧
      n.sent = (g x).sent ∧ n.cut = (g x).cut ∧ s'.net = s.net ++ [f] ∧ f.src = x ∧ f.Fresh k s' ∧
      (∃ p : Pack, f.dgram = p.dgram ∧ Carries (s.node x).accepted (g x).released p) ∧
      f.dgram.head.resend = (c.sendbuf.buf c.sendbuf.rslot).head.resend ∧ (s'.node x).chan = some c' ∧
      (c'.sendbuf.buf c'.sendbuf.rslot).head.resend = f.dgram.head.resend + 1 := by
  obtain ⟨n, hrel, hleads, hlive⟩ := h.own hc (.resend 0 true) trivial rfl
  have hc' : ((s.work x c (xchannelResend 0 true c.quiet, true) []).node x).chan = some (xchannelResend 0 true c.quiet) := by
    rw [work_node]
    rfl
  have hkept : Spares c.quiet.sendbuf (xchannelResend 0 true c.quiet).sendbuf := Spares.resend 0 true
  obtain ⟨hsent, hcut⟩ := h.marks_eq hlive hrel hc hc' hkept.spos hkept.wpos
  obtain ⟨p, hlog, hcarries, hresend, hslot, hrpos⟩ := ((h.inv.send x).inv c hc).resend_log hlt 0
  have hout : sentOut (xchannelResend 0 true c.quiet).log = [p.dgram] := by
    rw [hlog]
    rfl
  obtain ⟨num, hnet⟩ := work_net (s := s) (x := x) (c := c) (xchannelResend 0 true c.quiet, true) [] hout
  refine ⟨_, n, _, _, hleads, hlive, hrel, hsent, hcut, hnet, rfl, fresh_of_last hlive fun _ => rfl, ⟨p, rfl, hcarries⟩,
    hresend, hc', ?_⟩
  rw [Ring.rslot, hkept.range, hrpos]
  exact hslot

/-- A resent pack is counted as such, unless the count has just come round to 0. -/
theorem Live.resend (h : Live k s g) (hlt : (g x).released < (g x).sent) :
    ∃ s' n f, Leads k s s' ∧ Live k s' (Function.update g x n) ∧ n.released = (g x).released ∧
      n.sent = (g x).sent ∧ n.cut = (g x).cut ∧ s'.net[s'.net.length - 1]? = some f ∧ f.src = x ∧ f.Fresh k s' ∧
      (∃ p : Pack, f.dgram = p.dgram ∧ Carries (s.node x).accepted (g x).released p) ∧ 0 < f.dgram.head.resend := by
  obtain ⟨c, hc⟩ := Option.ne_none_iff_exists'.mp (h.whole.chan x)
  obtain ⟨s₁, n, c₁, f, hleads, hlive, hrel, hsent, hcut, hnet, hsrc, hfresh, hpack, -, hc₁, hslot⟩ := h.resendOnce hc hlt
  by_cases hz : f.dgram.head.resend = 0
  · obtain ⟨s₂, n₂, -, f₂, hleads₂, hlive₂, hrel₂, hsent₂, hcut₂, hnet₂, hsrc₂, hfresh₂, hpack₂, hresend₂, -⟩ :=
      hlive.resendOnce hc₁ (by rw [Function.update_self]; omega)
    rw [Function.update_idem] at hlive₂
    rw [Function.update_self] at hrel₂ hsent₂ hcut₂ hpack₂
    rw [hleads.accepted x, hrel] at hpack₂
    refine ⟨s₂, n₂, f₂, hleads.trans hleads₂, hlive₂, hrel₂.trans hrel, hsent₂.trans hsent, hcut₂.trans hcut, ?_, hsrc₂,
      hfresh₂, hpack₂, ?_⟩
    · rw [hnet₂]
      simp
    · rw [hresend₂, hslot, hz]
      decide
  · refine ⟨s₁, n, f, hleads, hlive, hrel, hsent, hcut, ?_, hsrc, hfresh, hpack, UInt16.pos_iff_ne_zero.mpr hz⟩
    rw [hnet]
    simp

/-- A resent pack is passed on, whatever its type. -/
theorem arrive_resent {d : Dgram} (hc : (s.node x).chan = some c) (e : Env)
    (hrouted : d.head.type = xpackTypeReq ∨ d.head.type = xpackTypeMsg ∨ d.head.type = xpackTypeRes)
    (hresend : 0 < d.head.resend) : s.arrive x e d = s.call x (.recvPack e d) := by
  rw [Link.arrive, hc]
  rcases hrouted with ht | ht | ht
  · simp only [ht, if_pos (Or.inl hresend)]
    rfl
  · simp only [ht, if_true]
  · simp only [ht]
    rfl

/-- The oldest pack arrives: the other side has consumed it by then and acknowledges no single pack. -/
theorem Live.deliverPack (h : Live k s g) {f : Flight} {i : Nat} (hget : s.net[i]? = some f) (hsrc : f.src = x)
    (hfresh : f.Fresh k s) {p : Pack} (hd : f.dgram = p.dgram) (hcarries : Carries (s.node x).accepted (g x).released p)
    (hresend : 0 < f.dgram.head.resend) :
    ∃ s' n c', Leads k s s' ∧ Live k s' (Function.update g x.other n) ∧ s'.node x = s.node x ∧
      (s'.node x.other).chan = some c' ∧ c'.ack.ack.sn = c'.ack.ack.pos ∧
      (g x).released < consumed (s'.node x.other).trace := by
  subst hsrc
  obtain ⟨j, m, q, hat, -, hfrag⟩ := hcarries
  obtain ⟨c, hc⟩ := Option.ne_none_iff_exists'.mp (h.whole.chan f.src.other)
  obtain ⟨-, -, hroom, hpow, hacked, hgot⟩ := h.window f.src
  have hrouted := h.whole.routed f.src m (List.mem_of_getElem? hat.get)
  have htype : f.dgram.head.type = m.type := by
    rw [hd]
    exact hfrag.type
  have hpack : f.dgram.head.type ≠ xpackTypeAck := by
    rw [htype]
    rcases hrouted with ht | ht | ht <;> rw [ht] <;> decide
  have hcall : s.move (.deliver i Env.fine) = s.call f.src.other (.recvPack Env.fine f.dgram) := by
    rw [Link.move, hget]
    exact arrive_resent hc Env.fine (htype ▸ hrouted) hresend
  obtain ⟨n, hinv⟩ := h.inv.recvPack (List.mem_of_getElem? hget) hfresh hpack Env.fine
  obtain ⟨hleads, hlive⟩ := h.work (x := f.src.other) (c := c) (m := .deliver i Env.fine) (n := n)
    (r := xchannelRecvPack Env.fine f.dgram c.quiet)
    (fun f' hf' => by rw [hget] at hf'; cases hf'; exact hfresh) trivial (hcall.trans (call_eq hc (h.up _) _))
    (recvMsg_fine _) (hcall ▸ hinv)
  have hring := (h.inv.recv f.src.other).ring c hc (h.up _)
  have hany : RecvInv (fun _ _ => True) k (consumed (s.node f.src.other).trace) c.quiet.toCore :=
    RecvInv.mono ⟨hring.sorted, hring.empty, hring.ready.type, hring.ready.pos⟩ fun _ _ _ => trivial
  obtain ⟨hsn, hnext⟩ := hany.recvPack_ack Env.fine (d := f.dgram) trivial (hd ▸ hfrag.sn) hacked (by omega)
  have hc' : ((s.work f.src.other c (xchannelRecvPack Env.fine f.dgram c.quiet) []).node f.src.other).chan =
      some (xchannelRecvPack Env.fine f.dgram c.quiet).1 := by
    rw [work_node]
    rfl
  refine ⟨_, n, _, hleads, hlive, Function.update_of_ne f.src.other_ne.symm .., hc', hsn, ?_⟩
  · have hle : consumed (s.node f.src.other).trace ≤ consumed ((s.work f.src.other c
        (xchannelRecvPack Env.fine f.dgram c.quiet) []).node f.src.other).trace := by
      rw [work_node]
      exact consumed_le_work _
    by_cases hlt : (g f.src).released < consumed (s.node f.src.other).trace
    · omega
    · have hlevel : (g f.src).released = consumed (s.node f.src.other).trace := by omega
      obtain ⟨w, hgt, hfar, hwpos⟩ := hnext hlevel
      have hwpos' := ((hlive.inv.recv f.src.other).ring _ hc' (hlive.up _)).sorted.wpos
      have hmod := congrArg UInt16.toNat (hwpos.symm.trans hwpos')
      simp only [sn_toNat] at hmod
      omega

/-- The other side acknowledges what it has consumed, and the acknowledgement arrives. -/
theorem Live.acknowledge (h : Live k s g) (hc : (s.node x.other).chan = some c)
    (hsn : c.ack.ack.sn = c.ack.ack.pos) (hlevel : (g x).sent = (g x).cut)
    (hlt : (g x).released < consumed (s.node x.other).trace) :
    ∃ s' g', Leads k s s' ∧ Live k s' g' ∧ (g x).released < (g' x).released := by
  obtain ⟨n, -, hleads, hlive⟩ := h.own hc (.sendAck true) trivial rfl
  obtain ⟨num, hnet⟩ := work_net (s := s) (x := x.other) (c := c) (xchannelSendAck true c.quiet, true) []
    (d := ⟨c.ack, []⟩) rfl
  obtain ⟨hread, hsend, hroom, hpow, hacked, hgot⟩ := h.window x
  have hready := ((h.inv.recv x.other).ring c hc (h.up _)).ready
  have hwpos := ((h.inv.recv x.other).ring c hc (h.up _)).sorted.wpos
  have hpos : c.ack.ack.pos = sn (consumed (s.node x.other).trace) := hready.pos.trans hwpos
  generalize hs₁ : s.work x.other c ((Local.sendAck true).call.run c.quiet) [] = s₁ at hleads hlive
  have hnet₁ : s₁.net = s.net ++ [⟨x.other, ⟨c.ack, []⟩, num, fun z => (s₁.node z).sent.card⟩] := by
    rw [← hs₁]
    exact hnet
  have hnode : s₁.node x = s.node x := by
    rw [← hs₁]
    exact Function.update_of_ne x.other_ne.symm ..
  obtain ⟨cx, hcx⟩ := Option.ne_none_iff_exists'.mp (h.whole.chan x)
  have hcx₁ : (s₁.node x).chan = some cx := hnode ▸ hcx
  -- the acknowledgement arrives
  have hget : s₁.net[s.net.length]? = some ⟨x.other, ⟨c.ack, []⟩, num, fun z => (s₁.node z).sent.card⟩ := by
    rw [hnet₁]
    simp
  have hfresh := fresh_of_last hlive (f := ⟨x.other, ⟨c.ack, []⟩, num, fun z => (s₁.node z).sent.card⟩) fun _ => rfl
  have hcall : s₁.move (.deliver s.net.length Env.fine) = s₁.call x (.recvAck Env.fine c.ack.ack) := by
    rw [Link.move, hget]
    simp only [Side.other_other, Link.arrive, hcx₁]
    rw [if_neg (by rw [hready.type]; decide), if_pos hready.type]
  obtain ⟨m, hcut, hinv⟩ := hlive.inv.recvAck (List.mem_of_getElem? hget) hfresh hready.type Env.fine
  simp only [Side.other_other] at hcut hinv
  have hother : Function.update g x.other n x = g x := Function.update_of_ne x.other_ne.symm ..
  rw [hother] at hcut
  obtain ⟨hleads', hlive'⟩ := hlive.work (x := x) (c := cx) (m := .deliver s.net.length Env.fine) (n := m)
    (r := (xchannelRecvAck Env.fine c.ack.ack cx.quiet, true))
    (fun f' hf' => by rw [hget] at hf'; cases hf'; exact hfresh) trivial
    (hcall.trans (call_eq hcx₁ (hlive.up x) _)) rfl (hcall ▸ hinv)
  refine ⟨_, _, hleads.trans hleads', hlive', ?_⟩
  rw [Function.update_self]
  obtain ⟨j, hj, hle, hrpos⟩ := ((h.inv.send x).inv cx hcx).recvAck_rpos Env.fine hlt (by omega) hpos (hsn.trans hpos)
  obtain ⟨hread', hsend', hroom', -⟩ := hlive'.window x
  have hring' := ((hlive'.inv.send x).inv _ (by rw [work_node]; rfl)).ring
  rw [Function.update_self] at hread' hsend' hroom' hring'
  have hmod := congrArg UInt16.toNat (hrpos.symm.trans hring'.rpos)
  simp only [sn_toNat] at hmod
  omega

/-- One round: the oldest outstanding pack at least is acknowledged. -/
theorem Live.round (h : Live k s g) (x : Side)
    (hmore : (g x).released < start (s.node x).accepted (s.node x).accepted.length) :
    ∃ s' g', Leads k s s' ∧ Live k s' g' ∧ (g x).released < (g' x).released := by
  obtain ⟨s₁, n₁, hleads₁, hlive₁, hrel₁, hlevel₁, hout₁⟩ := Live.sendAll x _ h le_rfl hmore
  obtain ⟨s₂, n₂, f, hleads₂, hlive₂, hrel₂, hsent₂, hcut₂, hget, hsrc, hfresh, ⟨p, hd, hcarries⟩, hresend⟩ :=
    hlive₁.resend (x := x) (by rw [Function.update_self]; exact hout₁)
  rw [Function.update_idem] at hlive₂
  rw [Function.update_self] at hrel₂ hsent₂ hcut₂ hcarries
  obtain ⟨s₃, n₃, c, hleads₃, hlive₃, hnode, hc, hsn, hgot⟩ := hlive₂.deliverPack hget hsrc hfresh hd
    (by rw [Function.update_self, hleads₂.accepted, hrel₂]; exact hcarries) hresend
  have hmarks : Function.update (Function.update g x n₂) x.other n₃ x = n₂ := by
    rw [Function.update_of_ne x.other_ne.symm, Function.update_self]
  obtain ⟨s₄, g₄, hleads₄, hlive₄, hrel₄⟩ := hlive₃.acknowledge hc hsn (by rw [hmarks]; omega)
    (by rw [hmarks]; rw [Function.update_self] at hgot; exact hgot)
  rw [hmarks] at hrel₄
  exact ⟨s₄, g₄, hleads₁.trans (hleads₂.trans (hleads₃.trans hleads₄)), hlive₄, by omega⟩

/-- Rounds until all messages are acknowledged. -/
theorem Live.rounds (x : Side) (todo : Nat) :
    ∀ {s : Link} {g : Side → Marks}, Live k s g →
      start (s.node x).accepted (s.node x).accepted.length - (g x).released ≤ todo →
      ∃ s' g', Leads k s s' ∧ Live k s' g' ∧
        start (s.node x).accepted (s.node x).accepted.length ≤ (g' x).released := by
  induction todo with
  | zero =>
    intro s g h htodo
    exact ⟨s, g, Leads.refl s, h, by omega⟩
  | succ todo ih =>
    intro s g h htodo
    by_cases hmore : (g x).released < start (s.node x).accepted (s.node x).accepted.length
    · obtain ⟨s₁, g₁, hleads, hlive, hlt⟩ := h.round x hmore
      obtain ⟨s', g', hleads', hlive', hall⟩ := ih hlive (by rw [hleads.accepted]; omega)
      rw [hleads.accepted] at hall
      exact ⟨s', g', hleads.trans hleads', hlive', hall⟩
    · exact ⟨s, g, Leads.refl s, h, by omega⟩

theorem Cursor.eq_length {ms : List Message} {n i : Nat} (h : Cursor ms n i) (hn : start ms ms.length ≤ n) :
    i = ms.length := by
  by_contra hne
  have hi : i < ms.length := lt_of_le_of_ne h.le hne
  have hnext := (h.at (List.getElem?_eq_getElem hi)).next_le hi
  omega

/-- Everything that side `x` has accepted was handed up by the other side, and reported to the peer as acknowledged. -/
structure Settled (s : Link) (x : Side) : Prop where
  delivered : (handed (s.node x.other).trace).map RFrame.content = (s.node x).accepted.map Message.content
  reported : ∀ i < (s.node x).accepted.length, .toPeer i (some i) ∈ (s.node x).trace

theorem LinkInv.settled (h : LinkInv k s g)
    (hall : start (s.node x).accepted (s.node x).accepted.length ≤ (g x).released) : Settled s x := by
  have hside := h.send x
  refine ⟨?_, ?_⟩
  · obtain ⟨o, hheap, -⟩ := (h.recv x.other).heap
    rw [Side.other_other] at hheap
    obtain ⟨j, hj, hhand, -⟩ := hheap.cursor
    rw [handed_taken, hj.eq_length (hall.trans hside.acked), List.take_length] at hhand
    exact hhand
  · intro i hi
    have hdone := hside.doneAt.eq_length hall
    have hmem := mem_releaseLog ((g x).released - start (s.node x).accepted (g x).done) (i := i) (by omega)
      hside.doneAt.le
    rw [← hside.log] at hmem
    exact List.mem_of_mem_filter hmem

/-- What is settled stays so. -/
theorem Leads.settled (h : Leads k s s₁) (h₁ : Live k s₁ g) (hs : Settled s x) : Settled s₁ x := by
  refine ⟨?_, fun i hi => ?_⟩
  · obtain ⟨l, hl⟩ := h.trace x.other
    have hprefix := h₁.inv.handed_prefix x
    rw [← hl, handed_append, List.map_append, hs.delivered, h.accepted x] at hprefix ⊢
    exact hprefix.eq_of_length_le (by simp)
  · rw [h.accepted x] at hi
    exact (h.trace x).subset (hs.reported i hi)

/-- Rounds for one side, with both msgers running to the end. -/
theorem Live.settle (h : Live k s g) (x : Side) : ∃ s' g', Leads k s s' ∧ Live k s' g' ∧ Settled s' x := by
  obtain ⟨s', g', hleads, hlive, hall⟩ := Live.rounds x _ h le_rfl
  rw [← hleads.accepted x] at hall
  exact ⟨s', g', hleads, hlive, hlive.inv.settled hall⟩

end

end Wenas.Xmsger
