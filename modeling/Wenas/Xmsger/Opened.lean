import Wenas.Xmsger.Window

/-!
# Channels opened by a peer

The `REQ` branch of `msger_loop` takes the number of slots of both rings from the pack of the peer.
No call changes it afterwards, so whether the slots of a channel are sound is decided by that one
number: it has to be a power of two.
-/
namespace Wenas.Xmsger

open Wenas.Serial Wenas.Machine

/-- The `REQ` branch of `msger_loop` for a pack no channel is found for: the channel is created with the
range of the pack, gets the pack, and acknowledges it. -/
def opened (e : Env) (req : Dgram) (clock : UInt64) (ok : Bool) : Peer :=
  run Peer.step (Peer.fresh req.head.ack.pos req.head.cid clock) [.recvPack e req, .sendAck ok]

/-- Every index computed for a ring is the slot of some sequence number. It lies below the number of slots,
and sequence numbers less than a ring apart have different ones. -/
def SoundSlots {α : Type} (slots : Nat) (b : Ring α) : Prop :=
  (∀ x, slot b.range x < slots) ∧ ∀ x y, x ≠ y → (y - x).toNat < b.range.toNat → slot b.range x ≠ slot b.range y

/-! ### No call changes the ranges -/

structure SameRange (x y : Core) : Prop where
  recvbuf : y.recvbuf.range = x.recvbuf.range
  sendbuf : y.sendbuf.range = x.sendbuf.range

theorem SameRange.refl (x : Core) : SameRange x x := ⟨rfl, rfl⟩

theorem SameRange.trans {x y z : Core} (h : SameRange x y) (h' : SameRange y z) : SameRange x z :=
  ⟨h'.recvbuf.trans h.recvbuf, h'.sendbuf.trans h.sendbuf⟩

section

variable {c : Channel}

theorem SameRange.releaseMsg (i : Nat) : SameRange c.toCore (releaseMsg i c).toCore := by
  rw [Xmsger.releaseMsg]
  dsimp only
  split
  · exact ⟨rfl, rfl⟩
  · split
    · exact ⟨rfl, rfl⟩
    · split <;> exact ⟨rfl, rfl⟩

theorem SameRange.sample (i : Nat) : SameRange c.toCore (sampleUnlessDone i c).toCore := by
  rw [core_sampleUnlessDone]
  exact ⟨rfl, rfl⟩

theorem SameRange.releaseOne : SameRange c.toCore (releaseOne c).toCore := by
  have hsampled : SameRange c.toCore (sampled c).toCore := by
    rw [core_sampled]
    exact ⟨rfl, rfl⟩
  obtain ⟨hrecv, hsend⟩ := hsampled.trans (SameRange.releaseMsg c.sendbuf.rslot)
  rw [core_releaseOne]
  exact ⟨hrecv, hsend⟩

theorem SameRange.releaseLoop (pos : UInt16) (fuel : Nat) : SameRange c.toCore (releaseLoop pos fuel c).toCore := by
  induction fuel generalizing c with
  | zero => exact SameRange.refl _
  | succ fuel ih =>
    rw [Xmsger.releaseLoop]
    split
    · exact SameRange.releaseOne.trans ih
    · exact SameRange.refl _

theorem SameRange.fastResend (e : Env) (sn : UInt16) (fuel : Nat) (index : UInt16) :
    SameRange c.toCore (fastResend e sn fuel index c).toCore := by
  induction fuel generalizing c index with
  | zero => exact SameRange.refl _
  | succ fuel ih =>
    rw [Xmsger.fastResend]
    dsimp only
    split
    · exact SameRange.refl _
    · split
      · split
        · exact ⟨rfl, rfl⟩
        · refine SameRange.trans ?_ (ih _)
          exact ⟨rfl, rfl⟩
      · exact ih _

theorem SameRange.recvAck (e : Env) (ack : Ack) : SameRange c.toCore (xchannelRecvAck e ack c).toCore := by
  rw [xchannelRecvAck]
  dsimp only
  split
  · have hrelease : SameRange c.toCore
        (Xmsger.releaseLoop ack.pos loopFuel { c with recvTs := e.clock, ackTs := e.clock }).toCore :=
      SameRange.releaseLoop (c := { c with recvTs := e.clock, ackTs := e.clock }) ack.pos loopFuel
    split
    · refine hrelease.trans ?_
      rw [recvAckEarly]
      split
      · exact (SameRange.sample _).trans (SameRange.fastResend _ _ _ _)
      · exact SameRange.sample _
    · exact hrelease
  · exact SameRange.refl _

theorem SameRange.serial : SameRange c.toCore (xchannelSerialMsg c).toCore := by
  rw [xchannelSerialMsg]
  split
  · split
    · exact ⟨rfl, rfl⟩
    · split <;> exact ⟨rfl, rfl⟩
  · exact SameRange.refl _

theorem SameRange.serialUnlessReady : SameRange c.toCore (serialUnlessReady c).toCore := by
  rw [Xmsger.serialUnlessReady]
  split
  · exact SameRange.serial
  · exact SameRange.refl _

theorem SameRange.sendPack (clock : UInt64) (ok : Bool) :
    SameRange c.toCore (xchannelSendPack clock ok c).toCore := by
  refine SameRange.serialUnlessReady.trans ?_
  rw [xchannelSendPack]
  dsimp only
  split
  · split
    · refine SameRange.trans ?_ SameRange.serial
      exact ⟨rfl, rfl⟩
    · exact ⟨rfl, rfl⟩
  · exact SameRange.refl _

theorem SameRange.resend (clock : UInt64) (ok : Bool) : SameRange c.toCore (xchannelResend clock ok c).toCore := by
  rw [xchannelResend]
  dsimp only
  split
  · split <;> exact ⟨rfl, rfl⟩
  · exact SameRange.refl _

theorem SameRange.advanceLoop (fuel : Nat) : SameRange c.toCore (advanceLoop fuel c).toCore := by
  induction fuel generalizing c with
  | zero => exact SameRange.refl _
  | succ fuel ih =>
    rw [Xmsger.advanceLoop]
    split
    · refine SameRange.trans ?_ ih
      exact ⟨rfl, rfl⟩
    · exact SameRange.refl _

theorem recvMsgOne_range (d : Dgram) (c : Channel) : (recvMsgOne d c).recvbuf.range = c.recvbuf.range := by
  rw [recvMsgOne]
  dsimp only
  split <;> rfl

theorem SameRange.recvMsgLoop (e : Env) (fuel : Nat) : SameRange c.toCore (recvMsgLoop e fuel c).1.toCore := by
  induction fuel generalizing c with
  | zero => exact SameRange.refl _
  | succ fuel ih =>
    rw [Xmsger.recvMsgLoop]
    split
    · exact SameRange.refl _
    · split
      · exact SameRange.refl _
      · refine SameRange.trans ?_ ih
        exact ⟨recvMsgOne_range _ c, congrArg Ring.range (Behind.recvMsgOne _).sendbuf⟩

theorem SameRange.recvMsg (e : Env) : SameRange c.toCore (xchannelRecvMsg e c).1.toCore := by
  rw [xchannelRecvMsg]
  dsimp only
  split
  · split
    · exact ⟨rfl, rfl⟩
    · exact SameRange.recvMsgLoop (c := { c with recvTs := e.clock }) e _
  · exact SameRange.refl _

theorem SameRange.recvCarried (e : Env) (d : Dgram) : SameRange c.toCore (recvCarried e d c).toCore := by
  rw [Xmsger.recvCarried]
  split
  · exact SameRange.recvAck e _
  · exact SameRange.refl _

theorem SameRange.recvPack (e : Env) (d : Dgram) : SameRange c.toCore (xchannelRecvPack e d c).1.toCore := by
  have hnote : SameRange c.toCore (noteType d c).toCore := ⟨rfl, rfl⟩
  rw [xchannelRecvPack]
  refine (hnote.trans ?_).trans (SameRange.recvMsg e)
  split
  · refine (SameRange.recvCarried e d).trans (SameRange.trans ?_ (SameRange.advanceLoop loopFuel))
    exact ⟨rfl, rfl⟩
  · split
    · rw [recvEarly]
      split
      · have hset : SameRange (noteType d c).toCore
            ((noteType d c).setAck d.head.sn (noteType d c).recvbuf.wpos).toCore := ⟨rfl, rfl⟩
        refine (hset.trans (SameRange.recvCarried e d)).trans ?_
        exact ⟨rfl, rfl⟩
      · exact ⟨rfl, rfl⟩
    · exact ⟨rfl, rfl⟩

/-- Whatever is called, the channel keeps the ranges it was created with. -/
theorem SameRange.call (call : Call) : SameRange c.toCore (call.run c).1.toCore := by
  cases call with
  | send m =>
    simp only [Call.run, xmsgerSend]
    split <;> exact ⟨rfl, rfl⟩
  | serial => exact SameRange.serial
  | sendPack clock ok => exact SameRange.sendPack clock ok
  | resend clock ok => exact SameRange.resend clock ok
  | sendAck ok => cases ok <;> exact ⟨rfl, rfl⟩
  | recvAck e ack => exact SameRange.recvAck e ack
  | recvPack e d => exact SameRange.recvPack e d

end

/-- Both rings have the range `r`. -/
def Peer.Ranged (r : UInt16) (p : Peer) : Prop := p.chan.recvbuf.range = r ∧ p.chan.sendbuf.range = r

theorem Peer.Ranged.step {r : UInt16} {p : Peer} (h : p.Ranged r) (call : Call) : (p.step call).Ranged r := by
  rw [Peer.step]
  split
  · obtain ⟨hrecv, hsend⟩ := SameRange.call (c := p.chan.quiet) call
    exact ⟨hrecv.trans h.1, hsend.trans h.2⟩
  · exact h

/-! ### Which ranges are sound -/

theorem soundSlots_pow {k : Nat} (hk : k ≤ 15) {α : Type} {b : Ring α} (hb : b.range = sn (2 ^ k)) :
    SoundSlots b.range.toNat b := by
  have hle := two_pow_le hk
  have hnat : b.range.toNat = 2 ^ k := by
    rw [hb, sn_toNat]
    exact Nat.mod_eq_of_lt (by omega)
  refine ⟨?_, ?_⟩
  · intro x
    rw [hnat, hb]
    exact slot_lt hk x
  · intro x y hne hlt
    rw [hnat] at hlt
    have hx := slot_ahead hk x.toNat x
    have hy := slot_ahead hk x.toNat y
    have hself : sn x.toNat = x := UInt16.ofNat_toNat
    rw [hself] at hx hy
    rw [hb, hx, hy]
    have hzero : (x - x).toNat = 0 := by simp
    have hpos : 0 < (y - x).toNat := by
      rw [Nat.pos_iff_ne_zero]
      intro hz
      apply hne
      have heq : x.toNat = y.toNat := by
        have hxlt := x.toNat_lt
        have hylt := y.toNat_lt
        rw [UInt16.toNat_sub] at hz
        omega
      exact UInt16.toNat_inj.mp heq
    rw [hzero]
    intro heq
    have := (mod_eq_iff (Nat.le_add_right _ _) (by omega)).mp heq
    omega

/-- When near sequence numbers have different slots, the numbers below the range are their own slots. -/
theorem slot_self {r : UInt16} (hpos : 0 < r.toNat)
    (hne : ∀ x y, x ≠ y → (y - x).toNat < r.toNat → slot r x ≠ slot r y) :
    ∀ x : Nat, x < r.toNat → x &&& (r.toNat - 1) = x := by
  have hmax := r.toNat_lt
  have hslot : ∀ x < r.toNat, slot r (sn x) = x &&& (r.toNat - 1) := by
    intro x hx
    have hx' : x % 65536 = x := Nat.mod_eq_of_lt (by omega)
    have hmask : (r - 1).toNat = r.toNat - 1 := by
      rw [UInt16.toNat_sub, UInt16.toNat_one]
      omega
    rw [slot, UInt16.toNat_and, sn_toNat, hx', hmask]
  intro x
  induction x using Nat.strong_induction_on with
  | _ x ih =>
    intro hx
    by_contra hcoll
    have hlt : x &&& (r.toNat - 1) < x := lt_of_le_of_ne Nat.and_le_left hcoll
    have hfix := ih _ hlt (by omega)
    have hdist : (sn x - sn (x &&& (r.toNat - 1))).toNat < r.toNat := by
      rw [dist_forward hlt.le (by omega)]
      omega
    have hdiff : sn (x &&& (r.toNat - 1)) ≠ sn x := by
      rw [Ne, sn_eq_iff hlt.le (by omega)]
      exact hcoll
    apply hne _ _ hdiff hdist
    rw [hslot _ (by omega), hslot x hx, hfix]

/-- Only the masks of powers of two leave all smaller numbers as they are. -/
theorem pow_of_soundSlots {α : Type} {b : Ring α} (h : SoundSlots b.range.toNat b) :
    ∃ k ≤ 15, b.range = sn (2 ^ k) := by
  obtain ⟨hlt, hne⟩ := h
  have hpos : 0 < b.range.toNat := Nat.lt_of_le_of_lt (Nat.zero_le _) (hlt 0)
  have hmax := b.range.toNat_lt
  have hlog : b.range.toNat.log2 ≤ 15 := by
    have := (Nat.log2_lt (Nat.pos_iff_ne_zero.mp hpos)).mpr hmax
    omega
  have hself := Nat.log2_self_le (Nat.pos_iff_ne_zero.mp hpos)
  have hnext := (Nat.log2_lt (n := b.range.toNat) (Nat.pos_iff_ne_zero.mp hpos)).mp (Nat.lt_succ_self _)
  generalize b.range.toNat.log2 = k at hlog hself hnext
  have htwo := Nat.two_pow_pos k
  have hmod : (b.range.toNat - 1) % 2 ^ k = 2 ^ k - 1 := by
    rw [← Nat.and_two_pow_sub_one_eq_mod, Nat.and_comm]
    exact slot_self hpos hne (2 ^ k - 1) (by omega)
  refine ⟨k, hlog, ?_⟩
  have heq : b.range.toNat = 2 ^ k := by
    by_contra hgt
    -- the range would lie strictly between two powers, and its predecessor would fill the lower one
    have hdiv := Nat.div_add_mod (b.range.toNat - 1) (2 ^ k)
    have hone : (b.range.toNat - 1) / 2 ^ k = 1 := by
      apply Nat.div_eq_of_lt_le
      · omega
      · rw [pow_succ] at hnext
        omega
    rw [hone, hmod] at hdiv
    rw [pow_succ] at hnext
    omega
  rw [← heq]
  exact UInt16.ofNat_toNat.symm

/-- For every `REQ` and everything that happens on the channel afterwards: the slots of both rings are sound
if and only if the range the `REQ` asks for is a power of two. -/
theorem opened_window (e : Env) (req : Dgram) (clock : UInt64) (ok : Bool) (calls : List Call) :
    let p := run Peer.step (opened e req clock ok) calls
    SoundSlots req.head.ack.pos.toNat p.chan.recvbuf ∧ SoundSlots req.head.ack.pos.toNat p.chan.sendbuf ↔
      ∃ k ≤ 15, req.head.ack.pos = sn (2 ^ k) := by
  intro p
  have hfresh : (Peer.fresh req.head.ack.pos req.head.cid clock).Ranged req.head.ack.pos := ⟨rfl, rfl⟩
  have hstep : ∀ (q : Peer) call, q.Ranged req.head.ack.pos → (q.step call).Ranged req.head.ack.pos :=
    fun _ call hq => hq.step call
  have hopened : (opened e req clock ok).Ranged req.head.ack.pos := invariant hstep _ hfresh
  obtain ⟨hrecv, hsend⟩ : p.Ranged req.head.ack.pos := invariant hstep calls hopened
  constructor
  · rintro ⟨hsound, -⟩
    rw [← hrecv] at hsound ⊢
    exact pow_of_soundSlots hsound
  · rintro ⟨k, hk, hpow⟩
    refine ⟨?_, ?_⟩
    · have hsound := soundSlots_pow hk (hrecv.trans hpow)
      rwa [hrecv] at hsound
    · have hsound := soundSlots_pow hk (hsend.trans hpow)
      rwa [hsend] at hsound

/-- A `REQ` that asks for no slots at all. -/
def noSlots : Dgram := ⟨{ Head.zero with type := xpackTypeReq, range := 1 }, []⟩

theorem opened_without_slots :
    ¬ SoundSlots noSlots.head.ack.pos.toNat (opened ⟨0, fun _ => 0, fun _ => true,
      fun _ => true⟩ noSlots 0 true).chan.recvbuf := by
  rintro ⟨hlt, -⟩
  exact absurd (hlt 0) (by decide)

end Wenas.Xmsger
