import Wenas.Xmsger.Receive

/-!
# The two sides of a channel do not touch each other

Cutting, sending, resending and releasing leave the receive ring and the message
under assembly alone (`Apart`). Storing and joining packs leave the send ring,
the message ring and the frames alone (`Behind`).
-/
namespace Wenas.Xmsger

open Wenas.Serial

/-- The log grew by events that satisfy `P`. -/
def Emits (P : Event → Prop) (l l' : List Event) : Prop := ∃ new, l' = l ++ new ∧ ∀ e ∈ new, P e

section

variable {P Q : Event → Prop} {l l₁ l₂ : List Event}

theorem Emits.refl : Emits P l l := ⟨[], by simp, by simp⟩

theorem Emits.snoc {e : Event} (he : P e) : Emits P l (l ++ [e]) := ⟨[e], rfl, by simpa using he⟩

theorem Emits.trans (h₁ : Emits P l l₁) (h₂ : Emits P l₁ l₂) : Emits P l l₂ := by
  obtain ⟨a, rfl, ha⟩ := h₁
  obtain ⟨b, rfl, hb⟩ := h₂
  refine ⟨a ++ b, by simp, ?_⟩
  intro e he
  rcases List.mem_append.mp he with he | he
  · exact ha e he
  · exact hb e he

theorem Emits.mono (h : Emits P l l₁) (hPQ : ∀ e, P e → Q e) : Emits Q l l₁ := by
  obtain ⟨new, hl, hn⟩ := h
  exact ⟨new, hl, fun e he => hPQ e (hn e he)⟩

/-- Events outside a class leave the part of the log in that class as it was. -/
theorem Emits.filter {p : Event → Bool} (h : Emits (fun e => p e = false) l l₁) : l₁.filter p = l.filter p := by
  obtain ⟨new, rfl, hn⟩ := h
  have hnil : new.filter p = [] := by
    rw [List.filter_eq_nil_iff]
    intro e he
    simp [hn e he]
  simp [hnil]

end

/-- The events of the receiving side. -/
def Event.isRecv : Event → Bool
  | .store _ _ => true
  | .consume _ _ => true
  | .fromPeer _ => true
  | _ => false

/-- The releases of packs and messages. -/
def Event.isRelease : Event → Bool
  | .release _ => true
  | .toPeer _ _ => true
  | _ => false

/-! ### The receiving side seen from the sender -/

structure Apart (x y : Core) : Prop where
  serialRange : y.serialRange = x.serialRange
  cid : y.cid = x.cid
  req : y.req = x.req
  msg : y.msg = x.msg
  recvbuf : y.recvbuf = x.recvbuf
  ackType : y.ack.type = x.ack.type
  ackPos : y.ack.ack.pos = x.ack.ack.pos
  log : Emits (fun e => e.isRecv = false) x.log y.log

theorem Apart.refl (x : Core) : Apart x x := ⟨rfl, rfl, rfl, rfl, rfl, rfl, rfl, Emits.refl⟩

theorem Apart.trans {x y z : Core} (h : Apart x y) (h' : Apart y z) : Apart x z where
  serialRange := h'.serialRange.trans h.serialRange
  cid := h'.cid.trans h.cid
  req := h'.req.trans h.req
  msg := h'.msg.trans h.msg
  recvbuf := h'.recvbuf.trans h.recvbuf
  ackType := h'.ackType.trans h.ackType
  ackPos := h'.ackPos.trans h.ackPos
  log := h.log.trans h'.log

@[simp] theorem core_emit (c : Channel) (e : Event) :
    (c.emit e).toCore = { c.toCore with log := c.log ++ [e] } := rfl

@[simp] theorem core_setPack (c : Channel) (i : Nat) (p : Pack) :
    (c.setPack i p).toCore = { c.toCore with sendbuf := c.sendbuf.put i p } := rfl

theorem core_sampleRtt (rtt : UInt64) (c : Channel) : (sampleRtt rtt c).toCore = c.toCore := by
  unfold sampleRtt
  dsimp only
  split <;> rfl

theorem core_sampleRate (kabuf : UInt64) (c : Channel) : (sampleRate kabuf c).toCore = c.toCore := by
  unfold sampleRate
  dsimp only
  repeat' split
  all_goals rfl

/-- Sampling only marks the pack; everything else it writes is timing. -/
theorem core_xchannelSampling (i : Nat) (c : Channel) :
    (xchannelSampling i c).toCore =
      { c.toCore with sendbuf := c.sendbuf.put i { c.sendbuf.buf i with ts := 0 } } := by
  have h : (sampleRate (c.sendbuf.buf i).kabuf (sampleRtt (c.ackTs - (c.sendbuf.buf i).ts) c)).toCore = c.toCore := by
    rw [core_sampleRate, core_sampleRtt]
  rw [xchannelSampling, core_setPack, h]

theorem core_sampleUnlessDone (i : Nat) (c : Channel) :
    (sampleUnlessDone i c).toCore =
      { c.toCore with sendbuf := c.sendbuf.put i { c.sendbuf.buf i with ts := 0 } } := by
  unfold sampleUnlessDone
  split
  · exact core_xchannelSampling i c
  · rename_i h
    have hp : { c.sendbuf.buf i with ts := 0 } = c.sendbuf.buf i := by
      simp only [ne_eq, not_not] at h
      rw [← h]
    rw [hp, Ring.put_self]

@[simp] theorem core_idleReset (c : Channel) : (idleReset c).toCore = c.toCore := by
  unfold idleReset
  split <;> rfl

section

variable {c : Channel}

theorem Apart.emit {e : Event} (he : e.isRecv = false) : Apart c.toCore (c.emit e).toCore :=
  ⟨rfl, rfl, rfl, rfl, rfl, rfl, rfl, Emits.snoc he⟩

theorem Apart.setPack (i : Nat) (p : Pack) : Apart c.toCore (c.setPack i p).toCore :=
  ⟨rfl, rfl, rfl, rfl, rfl, rfl, rfl, Emits.refl⟩

theorem Apart.sample (i : Nat) : Apart c.toCore (sampleUnlessDone i c).toCore := by
  rw [core_sampleUnlessDone]
  exact Apart.setPack i _

theorem Apart.releaseMsg (i : Nat) : Apart c.toCore (releaseMsg i c).toCore := by
  rw [Xmsger.releaseMsg]
  dsimp only
  split
  · exact Apart.emit rfl
  · split
    · exact Apart.emit rfl
    · split
      · exact ⟨rfl, rfl, rfl, rfl, rfl, rfl, rfl, [.release _, .toPeer _ _], List.append_assoc _ _ _, by simp [Event.isRecv]⟩
      · exact ⟨rfl, rfl, rfl, rfl, rfl, rfl, rfl, Emits.snoc rfl⟩

/-- What the first half of a turn leaves: the pack is marked as sampled, the rest is timing. -/
def sampled (c : Channel) : Channel :=
  let c' := sampleUnlessDone c.sendbuf.rslot c
  idleReset { c' with rpos := c'.rpos + (c'.sendbuf.buf c.sendbuf.rslot).head.len.toUInt64 }

theorem core_sampled (c : Channel) :
    (sampled c).toCore =
      { c.toCore with
        sendbuf := c.sendbuf.put c.sendbuf.rslot { c.sendbuf.buf c.sendbuf.rslot with ts := 0 } } := by
  rw [sampled, core_idleReset]
  exact core_sampleUnlessDone _ c

theorem core_releaseOne (c : Channel) :
    (releaseOne c).toCore =
      { (releaseMsg c.sendbuf.rslot (sampled c)).toCore with
        sendbuf :=
          { (releaseMsg c.sendbuf.rslot (sampled c)).sendbuf with
            rpos := (releaseMsg c.sendbuf.rslot (sampled c)).sendbuf.rpos + 1 } } := rfl

theorem Apart.releaseOne : Apart c.toCore (releaseOne c).toCore := by
  have h₁ : Apart c.toCore (sampled c).toCore := by
    rw [core_sampled]
    exact Apart.setPack _ _
  have h₂ := h₁.trans (Apart.releaseMsg c.sendbuf.rslot)
  rw [core_releaseOne]
  exact ⟨h₂.1, h₂.2, h₂.3, h₂.4, h₂.5, h₂.6, h₂.7, h₂.8⟩

theorem Apart.releaseLoop (pos : UInt16) (fuel : Nat) : Apart c.toCore (releaseLoop pos fuel c).toCore := by
  induction fuel generalizing c with
  | zero => exact Apart.refl _
  | succ fuel ih =>
    rw [Xmsger.releaseLoop]
    split
    · exact Apart.releaseOne.trans ih
    · exact Apart.refl _

theorem Apart.fastResend (e : Env) (sn : UInt16) (fuel : Nat) (index : UInt16) :
    Apart c.toCore (fastResend e sn fuel index c).toCore := by
  induction fuel generalizing c index with
  | zero => exact Apart.refl _
  | succ fuel ih =>
    rw [Xmsger.fastResend]
    dsimp only
    split
    · exact Apart.refl _
    · split
      · split
        · exact (Apart.setPack _ _).trans ((Apart.emit rfl).trans (Apart.setPack _ _))
        · exact (Apart.setPack _ _).trans ((Apart.emit rfl).trans (ih _))
      · exact ih _

theorem Apart.recvAck (e : Env) (ack : Ack) : Apart c.toCore (xchannelRecvAck e ack c).toCore := by
  rw [xchannelRecvAck]
  dsimp only
  split
  · have h₁ : Apart c.toCore
        (Xmsger.releaseLoop ack.pos loopFuel { c with recvTs := e.clock, ackTs := e.clock }).toCore :=
      Apart.releaseLoop (c := { c with recvTs := e.clock, ackTs := e.clock }) ack.pos loopFuel
    split
    · refine h₁.trans ?_
      rw [recvAckEarly]
      split
      · exact (Apart.sample _).trans (Apart.fastResend _ _ _ _)
      · exact Apart.sample _
    · exact h₁
  · exact Apart.refl _

theorem Apart.resend (clock : UInt64) (ok : Bool) : Apart c.toCore (xchannelResend clock ok c).toCore := by
  rw [xchannelResend]
  dsimp only
  split
  · split
    · exact (Apart.setPack _ _).trans ((Apart.emit rfl).trans (Apart.setPack _ _))
    · exact (Apart.setPack _ _).trans (Apart.emit rfl)
  · exact Apart.refl _

theorem Apart.send (m : Message) : Apart c.toCore (xmsgerSend m c).1.toCore := by
  rw [xmsgerSend]
  split
  · exact ⟨rfl, rfl, rfl, rfl, rfl, rfl, rfl, Emits.refl⟩
  · exact Apart.refl _

theorem Apart.serial : Apart c.toCore (xchannelSerialMsg c).toCore := by
  rw [xchannelSerialMsg]
  split
  · split
    · exact Apart.emit rfl
    · split
      · exact Apart.emit rfl
      · exact ⟨rfl, rfl, rfl, rfl, rfl, rfl, rfl, Emits.refl⟩
  · exact Apart.refl _

theorem Apart.serialUnlessReady : Apart c.toCore (serialUnlessReady c).toCore := by
  rw [Xmsger.serialUnlessReady]
  split
  · exact Apart.serial
  · exact Apart.refl _

theorem Apart.markSent (clock : UInt64) : Apart c.toCore (c.markSent clock).toCore :=
  ⟨rfl, rfl, rfl, rfl, rfl, rfl, rfl, Emits.refl⟩

theorem Apart.sendPack (clock : UInt64) (ok : Bool) : Apart c.toCore (xchannelSendPack clock ok c).toCore := by
  refine Apart.serialUnlessReady.trans ?_
  rw [xchannelSendPack]
  dsimp only
  split
  · have hsent : Apart (Xmsger.serialUnlessReady c).toCore
        (((Xmsger.serialUnlessReady c).setPack (Xmsger.serialUnlessReady c).sendbuf.sslot
          (Xmsger.serialUnlessReady c).outgoing).emit
            (.sendto (Xmsger.serialUnlessReady c).outgoing.dgram ok)).toCore :=
      (Apart.setPack _ _).trans (Apart.emit rfl)
    split
    · exact hsent.trans ((Apart.markSent clock).trans Apart.serial)
    · exact hsent
  · exact Apart.refl _

theorem Apart.sendAck (ok : Bool) : Apart c.toCore (xchannelSendAck ok c).toCore := by
  cases ok <;> exact ⟨rfl, rfl, rfl, rfl, rfl, rfl, rfl, Emits.snoc rfl⟩

end

/-! ### The sending side seen from the receiver -/

structure Behind (x y : Core) : Prop where
  serialRange : y.serialRange = x.serialRange
  cid : y.cid = x.cid
  req : y.req = x.req
  sendbuf : y.sendbuf = x.sendbuf
  msgbuf : y.msgbuf = x.msgbuf
  frames : y.frames = x.frames
  log : Emits (fun e => e.isRecv = true ∨ e = .fault) x.log y.log

theorem Behind.refl (x : Core) : Behind x x := ⟨rfl, rfl, rfl, rfl, rfl, rfl, Emits.refl⟩

theorem Behind.trans {x y z : Core} (h : Behind x y) (h' : Behind y z) : Behind x z where
  serialRange := h'.serialRange.trans h.serialRange
  cid := h'.cid.trans h.cid
  req := h'.req.trans h.req
  sendbuf := h'.sendbuf.trans h.sendbuf
  msgbuf := h'.msgbuf.trans h.msgbuf
  frames := h'.frames.trans h.frames
  log := h.log.trans h'.log

section

variable {c : Channel}

theorem Behind.noteType (d : Dgram) : Behind c.toCore (noteType d c).toCore :=
  ⟨rfl, rfl, rfl, rfl, rfl, rfl, Emits.refl⟩

theorem Behind.recvAgain : Behind c.toCore (recvAgain c).toCore :=
  ⟨rfl, rfl, rfl, rfl, rfl, rfl, Emits.refl⟩

theorem Behind.storePack (d : Dgram) : Behind c.toCore (storePack d c).toCore :=
  ⟨rfl, rfl, rfl, rfl, rfl, rfl, Emits.snoc (Or.inl rfl)⟩

theorem Behind.setAck (sn pos : UInt16) : Behind c.toCore (c.setAck sn pos).toCore :=
  ⟨rfl, rfl, rfl, rfl, rfl, rfl, Emits.refl⟩

theorem Behind.advanceLoop (fuel : Nat) : Behind c.toCore (advanceLoop fuel c).toCore := by
  induction fuel generalizing c with
  | zero => exact Behind.refl _
  | succ fuel ih =>
    rw [Xmsger.advanceLoop]
    split
    · refine Behind.trans ?_ ih
      exact ⟨rfl, rfl, rfl, rfl, rfl, rfl, Emits.refl⟩
    · exact Behind.refl _

theorem Behind.recvMsgOne (d : Dgram) : Behind c.toCore (recvMsgOne d c).toCore := by
  rw [Xmsger.recvMsgOne]
  dsimp only
  split
  · exact ⟨rfl, rfl, rfl, rfl, rfl, rfl, [.consume _ d, .fromPeer _], List.append_assoc _ _ _, by simp [Event.isRecv]⟩
  · exact ⟨rfl, rfl, rfl, rfl, rfl, rfl, Emits.snoc (Or.inl rfl)⟩

theorem Behind.recvMsgLoop (e : Env) (fuel : Nat) : Behind c.toCore (recvMsgLoop e fuel c).1.toCore := by
  induction fuel generalizing c with
  | zero => exact Behind.refl _
  | succ fuel ih =>
    rw [Xmsger.recvMsgLoop]
    split
    · exact Behind.refl _
    · split
      · exact Behind.refl _
      · exact (Behind.recvMsgOne _).trans ih

theorem Behind.recvMsg (e : Env) : Behind c.toCore (xchannelRecvMsg e c).1.toCore := by
  rw [xchannelRecvMsg]
  dsimp only
  split
  · split
    · exact ⟨rfl, rfl, rfl, rfl, rfl, rfl, Emits.snoc (Or.inr rfl)⟩
    · exact Behind.recvMsgLoop (c := { c with recvTs := e.clock }) e _
  · exact Behind.refl _

end

end Wenas.Xmsger
