import Wenas.Xmsger.RecvRing

/-!
# What the heads of a channel's datagrams say

A pack gets its type and channel id when it is cut, and neither changes as long as it is in the send
ring. So a relation between the two that holds for every accepted message holds for every datagram the
channel sends, pure acknowledgements apart.
-/
namespace Wenas.Xmsger

open Wenas.Serial

variable {Q : UInt16 → UInt16 → Prop}

/-- Type and id are in relation `Q` in the send ring, and will be for the messages that wait. -/
structure Stamped (Q : UInt16 → UInt16 → Prop) (x : Core) : Prop where
  slots : ∀ j, Q (x.sendbuf.buf j).head.type (x.sendbuf.buf j).head.cid
  frames : ∀ f ∈ x.frames, Q f.msg.type x.cid
  ack : x.ack.type = xpackTypeAck

/-- What is sent is an acknowledgement or has type and id in relation `Q`. -/
def OnWire (Q : UInt16 → UInt16 → Prop) : Event → Prop
  | .sendto d _ => d.head.type = xpackTypeAck ∨ Q d.head.type d.head.cid
  | _ => True

def Keeps (Q : UInt16 → UInt16 → Prop) (x y : Core) : Prop := Stamped Q x → Stamped Q y ∧ Emits (OnWire Q) x.log y.log

theorem Keeps.refl (x : Core) : Keeps Q x x := fun h => ⟨h, Emits.refl⟩

theorem Keeps.trans {x y z : Core} (h : Keeps Q x y) (h' : Keeps Q y z) : Keeps Q x z := by
  intro hx
  obtain ⟨hy, he⟩ := h hx
  obtain ⟨hz, he'⟩ := h' hy
  exact ⟨hz, he.trans he'⟩

/-- The receiving side sends nothing and touches neither the ring nor the messages. -/
theorem Keeps.behind {x y : Core} (h : Behind x y) (hack : x.ack.type = xpackTypeAck → y.ack.type = xpackTypeAck) :
    Keeps Q x y := by
  intro hx
  refine ⟨⟨?_, ?_, hack hx.ack⟩, h.log.mono ?_⟩
  · rw [h.sendbuf]
    exact hx.slots
  · rw [h.frames, h.cid]
    exact hx.frames
  · intro e he
    cases e <;> simp_all [OnWire, Event.isRecv]

section

variable {c : Channel}

theorem Keeps.emit {e : Event} (he : OnWire Q e) : Keeps Q c.toCore (c.emit e).toCore :=
  fun h => ⟨⟨h.slots, h.frames, h.ack⟩, Emits.snoc he⟩

/-- A pack that keeps its type and id is overwritten. -/
theorem Keeps.setPack {i : Nat} {p : Pack} (ht : p.head.type = (c.sendbuf.buf i).head.type)
    (hc : p.head.cid = (c.sendbuf.buf i).head.cid) : Keeps Q c.toCore (c.setPack i p).toCore := by
  intro h
  refine ⟨⟨?_, h.frames, h.ack⟩, Emits.refl⟩
  intro j
  by_cases hj : j = i
  · subst hj
    have hp : (c.setPack j p).sendbuf.buf j = p := Ring.put_buf_self _ _ _
    rw [hp, ht, hc]
    exact h.slots j
  · have hp : (c.setPack i p).sendbuf.buf j = c.sendbuf.buf j := Ring.put_buf_of_ne _ _ hj
    rw [hp]
    exact h.slots j

/-- A pack that keeps its type and id is overwritten and sent. -/
theorem Keeps.sendPacked {i : Nat} {p : Pack} (ht : p.head.type = (c.sendbuf.buf i).head.type)
    (hc : p.head.cid = (c.sendbuf.buf i).head.cid) (ok : Bool) :
    Keeps Q c.toCore ((c.setPack i p).emit (.sendto p.dgram ok)).toCore := by
  intro h
  refine (Keeps.setPack ht hc).trans (Keeps.emit (Or.inr ?_)) h
  show Q p.head.type p.head.cid
  rw [ht, hc]
  exact h.slots i

theorem Keeps.sample (i : Nat) : Keeps Q c.toCore (sampleUnlessDone i c).toCore := by
  rw [core_sampleUnlessDone]
  exact Keeps.setPack (c := c) (i := i) rfl rfl

theorem frames_set_types {fs : List Frame} {cid : UInt16} (h : ∀ f ∈ fs, Q f.msg.type cid) {m : Nat} {f g : Frame}
    (hf : fs[m]? = some f) (hg : g.msg = f.msg) : ∀ f' ∈ fs.set m g, Q f'.msg.type cid := by
  intro f' hf'
  rcases List.mem_or_eq_of_mem_set hf' with hmem | rfl
  · exact h f' hmem
  · rw [hg]
    exact h f (List.mem_of_getElem? hf)

theorem Keeps.releaseMsg (i : Nat) : Keeps Q c.toCore (releaseMsg i c).toCore := by
  have hfault : Keeps Q c.toCore (c.emit .fault).toCore := Keeps.emit trivial
  cases hm : (c.sendbuf.buf i).msg with
  | none =>
    have he : Xmsger.releaseMsg i c = c.emit .fault := by simp only [Xmsger.releaseMsg, hm]
    rw [he]
    exact hfault
  | some m =>
    cases hf : c.frames[m]? with
    | none =>
      have he : Xmsger.releaseMsg i c = c.emit .fault := by simp only [Xmsger.releaseMsg, hm, hf]
      rw [he]
      exact hfault
    | some f =>
      rw [core_releaseMsg hm hf]
      intro h
      have hframes := frames_set_types h.frames hf
        (show { f with rpos := f.rpos + (c.sendbuf.buf i).head.len.toUInt64 }.msg = f.msg from rfl)
      split
      · have hclear : Keeps Q c.toCore (c.setPack i { c.sendbuf.buf i with msg := none }).toCore :=
          Keeps.setPack rfl rfl
        exact ⟨⟨(hclear h).1.slots, hframes, h.ack⟩, [_, _], rfl, by simp [OnWire]⟩
      · exact ⟨⟨h.slots, hframes, h.ack⟩, Emits.snoc trivial⟩

theorem Keeps.releaseOne : Keeps Q c.toCore (releaseOne c).toCore := by
  have h₁ : Keeps Q c.toCore (sampled c).toCore := by
    rw [core_sampled]
    exact Keeps.setPack (c := c) rfl rfl
  have h₂ := h₁.trans (Keeps.releaseMsg c.sendbuf.rslot)
  rw [core_releaseOne]
  intro h
  obtain ⟨h₃, he⟩ := h₂ h
  exact ⟨⟨h₃.slots, h₃.frames, h₃.ack⟩, he⟩

theorem Keeps.releaseLoop (pos : UInt16) (fuel : Nat) : Keeps Q c.toCore (releaseLoop pos fuel c).toCore := by
  induction fuel generalizing c with
  | zero => exact Keeps.refl _
  | succ fuel ih =>
    rw [Xmsger.releaseLoop]
    split
    · exact Keeps.releaseOne.trans ih
    · exact Keeps.refl _

theorem Keeps.fastResend (e : Env) (sn : UInt16) (fuel : Nat) (index : UInt16) :
    Keeps Q c.toCore (fastResend e sn fuel index c).toCore := by
  induction fuel generalizing c index with
  | zero => exact Keeps.refl _
  | succ fuel ih =>
    rw [Xmsger.fastResend]
    dsimp only
    split
    · exact Keeps.refl _
    · split
      · have hsent := Keeps.sendPacked (Q := Q) (c := c) (i := slot c.sendbuf.range index)
          (p := (c.sendbuf.buf (slot c.sendbuf.range index)).again (e.resendClock index) c.recvbuf.wpos) rfl rfl
          (e.resendOk index)
        split
        · refine hsent.trans (Keeps.setPack ?_ ?_)
          · simp [Channel.emit, Channel.setPack]
          · simp [Channel.emit, Channel.setPack]
        · exact hsent.trans (ih _)
      · exact ih _

theorem Keeps.recvAck (e : Env) (ack : Ack) : Keeps Q c.toCore (xchannelRecvAck e ack c).toCore := by
  rw [xchannelRecvAck]
  dsimp only
  split
  · have h₁ : Keeps Q c.toCore
        (Xmsger.releaseLoop ack.pos loopFuel { c with recvTs := e.clock, ackTs := e.clock }).toCore :=
      Keeps.releaseLoop (c := { c with recvTs := e.clock, ackTs := e.clock }) ack.pos loopFuel
    split
    · refine h₁.trans ?_
      rw [recvAckEarly]
      split
      · exact (Keeps.sample _).trans (Keeps.fastResend _ _ _ _)
      · exact Keeps.sample _
    · exact h₁
  · exact Keeps.refl _

theorem Keeps.resend (clock : UInt64) (ok : Bool) : Keeps Q c.toCore (xchannelResend clock ok c).toCore := by
  rw [xchannelResend]
  dsimp only
  split
  · have hsent := Keeps.sendPacked (Q := Q) (c := c) (i := c.sendbuf.rslot)
      (p := (c.sendbuf.buf c.sendbuf.rslot).late clock c.recvbuf.wpos) rfl rfl ok
    split
    · refine hsent.trans ?_
      intro h
      obtain ⟨h', he⟩ := Keeps.setPack (i := c.sendbuf.rslot) (p := { (c.sendbuf.buf c.sendbuf.rslot).late clock
        c.recvbuf.wpos with
          timedout := Double.scale ((c.sendbuf.buf c.sendbuf.rslot).late clock c.recvbuf.wpos).timedout
          head := { ((c.sendbuf.buf c.sendbuf.rslot).late clock c.recvbuf.wpos).head with
            resend := ((c.sendbuf.buf c.sendbuf.rslot).late clock c.recvbuf.wpos).head.resend + 1 } })
        (by simp [Channel.emit, Channel.setPack]) (by simp [Channel.emit, Channel.setPack]) h
      exact ⟨⟨h'.slots, h'.frames, h'.ack⟩, he⟩
    · exact hsent
  · exact Keeps.refl _

theorem Keeps.serial : Keeps Q c.toCore (xchannelSerialMsg c).toCore := by
  have hfault : Keeps Q c.toCore (c.emit .fault).toCore := Keeps.emit trivial
  by_cases hroom : 0 < c.sendbuf.writable ∧ 0 < c.msgbuf.sendable
  · cases hi : c.msgbuf.buf c.msgbuf.sslot with
    | none =>
      have he : xchannelSerialMsg c = c.emit .fault := by simp only [xchannelSerialMsg, hroom, hi, and_self, if_true]
      rw [he]
      exact hfault
    | some i =>
      cases hf : c.frames[i]? with
      | none =>
        have he : xchannelSerialMsg c = c.emit .fault := by
          simp only [xchannelSerialMsg, hroom, hi, hf, and_self, if_true]
        rw [he]
        exact hfault
      | some f =>
        rw [xchannelSerialMsg_eq hroom hi hf]
        intro h
        refine ⟨⟨?_, frames_set_types h.frames hf rfl, h.ack⟩, Emits.refl⟩
        intro j
        by_cases hj : j = c.sendbuf.wslot
        · subst hj
          have hput : (c.sendbuf.put c.sendbuf.wslot (serialPack c i f (c.sendbuf.buf c.sendbuf.wslot))).buf
            c.sendbuf.wslot = _ := Ring.put_buf_self _ _ _
          dsimp only
          rw [hput]
          exact h.frames f (List.mem_of_getElem? hf)
        · have hput : (c.sendbuf.put c.sendbuf.wslot (serialPack c i f (c.sendbuf.buf c.sendbuf.wslot))).buf j = _ :=
            Ring.put_buf_of_ne _ _ hj
          dsimp only
          rw [hput]
          exact h.slots j
  · rw [xchannelSerialMsg, if_neg hroom]
    exact Keeps.refl _

theorem Keeps.serialUnlessReady : Keeps Q c.toCore (serialUnlessReady c).toCore := by
  rw [Xmsger.serialUnlessReady]
  split
  · exact Keeps.serial
  · exact Keeps.refl _

theorem carry_type (p : Pack) (ack : Ack) : (p.carry ack).head.type = p.head.type ∧
    (p.carry ack).head.cid = p.head.cid := by
  rw [Pack.carry]
  split <;> exact ⟨rfl, rfl⟩

theorem Keeps.markSent (clock : UInt64) : Keeps Q c.toCore (c.markSent clock).toCore := by
  intro h
  have hput := Keeps.setPack (Q := Q) (c := c) (i := c.sendbuf.sslot)
    (p := (c.markSent clock).sendbuf.buf c.sendbuf.sslot)
    (by simp [Channel.markSent]) (by simp [Channel.markSent]) h
  refine ⟨⟨?_, h.frames, h.ack⟩, Emits.refl⟩
  intro j
  have hj := hput.1.slots j
  by_cases he : j = c.sendbuf.sslot
  · subst he
    simpa [Channel.markSent, Channel.setPack] using hj
  · simpa [Channel.markSent, Channel.setPack, Ring.put_buf_of_ne _ _ he] using h.slots j

theorem Keeps.sendPack (clock : UInt64) (ok : Bool) : Keeps Q c.toCore (xchannelSendPack clock ok c).toCore := by
  refine Keeps.serialUnlessReady.trans ?_
  rw [xchannelSendPack]
  dsimp only
  split
  · have hcarry := carry_type ((Xmsger.serialUnlessReady c).sendbuf.buf (Xmsger.serialUnlessReady c).sendbuf.sslot)
      (Xmsger.serialUnlessReady c).ack.ack
    have hsent := Keeps.sendPacked (Q := Q) (c := Xmsger.serialUnlessReady c)
      (i := (Xmsger.serialUnlessReady c).sendbuf.sslot)
      (p := (Xmsger.serialUnlessReady c).outgoing) hcarry.1 hcarry.2 ok
    split
    · exact hsent.trans ((Keeps.markSent clock).trans Keeps.serial)
    · exact hsent
  · exact Keeps.refl _

theorem Keeps.sendAck (ok : Bool) : Keeps Q c.toCore (xchannelSendAck ok c).toCore := by
  intro h
  cases ok <;> exact ⟨⟨h.slots, h.frames, h.ack⟩, Emits.snoc (Or.inl h.ack)⟩

/-- A new message enters in relation `Q`. -/
theorem Keeps.push {m : Message} (hm : Q m.type c.cid) : Keeps Q c.toCore (pushMsg m c).toCore := by
  intro h
  refine ⟨⟨h.slots, ?_, h.ack⟩, Emits.refl⟩
  intro f hf
  rcases List.mem_append.mp hf with hf | hf
  · exact h.frames f hf
  · rw [List.mem_singleton.mp hf]
    exact hm

theorem Keeps.send {m : Message} (hm : Q m.type c.cid) : Keeps Q c.toCore (xmsgerSend m c).1.toCore := by
  rw [xmsgerSend]
  split
  · exact Keeps.push hm
  · exact Keeps.refl _

theorem advanceLoop_ack (fuel : Nat) (c : Channel) : (advanceLoop fuel c).ack.type = c.ack.type := by
  induction fuel generalizing c with
  | zero => rfl
  | succ fuel ih =>
    rw [Xmsger.advanceLoop]
    split
    · exact ih _
    · rfl

theorem recvMsgLoop_ack (e : Env) (fuel : Nat) (c : Channel) : (recvMsgLoop e fuel c).1.ack = c.ack := by
  induction fuel generalizing c with
  | zero => rfl
  | succ fuel ih =>
    rw [Xmsger.recvMsgLoop]
    split
    · rfl
    · split
      · rfl
      · rw [ih, Xmsger.recvMsgOne]
        dsimp only
        split <;> rfl

theorem recvMsg_ack (e : Env) (c : Channel) : (xchannelRecvMsg e c).1.ack = c.ack := by
  rw [xchannelRecvMsg]
  dsimp only
  split
  · split
    · rfl
    · rw [recvMsgLoop_ack]
  · rfl

theorem Keeps.recvMsg (e : Env) : Keeps Q c.toCore (xchannelRecvMsg e c).1.toCore :=
  Keeps.behind (Behind.recvMsg e) (fun h => by rw [recvMsg_ack]; exact h)

theorem Keeps.recvCarried (e : Env) (d : Dgram) : Keeps Q c.toCore (recvCarried e d c).toCore := by
  rw [Xmsger.recvCarried]
  split
  · exact Keeps.recvAck e d.head.ack
  · exact Keeps.refl _

theorem Keeps.storePack (d : Dgram) : Keeps Q c.toCore (storePack d c).toCore := Keeps.behind (Behind.storePack d) id

theorem Keeps.setAck (sn pos : UInt16) : Keeps Q c.toCore (c.setAck sn pos).toCore :=
  Keeps.behind (Behind.setAck sn pos) id

theorem Keeps.storeNext (d : Dgram) : Keeps Q c.toCore (storeNext d c).toCore :=
  Keeps.behind ⟨rfl, rfl, rfl, rfl, rfl, rfl, Emits.snoc (Or.inl rfl)⟩ id

theorem Keeps.advanceLoop (fuel : Nat) : Keeps Q c.toCore (advanceLoop fuel c).toCore :=
  Keeps.behind (Behind.advanceLoop fuel) (fun h => by rw [advanceLoop_ack]; exact h)

theorem Keeps.recvEarly (e : Env) (d : Dgram) : Keeps Q c.toCore (recvEarly e d c).toCore := by
  rw [Xmsger.recvEarly]
  refine (Keeps.setAck d.head.sn c.recvbuf.wpos).trans ?_
  split
  · exact (Keeps.recvCarried e d).trans (Keeps.storePack d)
  · exact Keeps.refl _

theorem Keeps.recvPack (e : Env) (d : Dgram) : Keeps Q c.toCore (xchannelRecvPack e d c).1.toCore := by
  have hnote : Keeps Q c.toCore (noteType d c).toCore := Keeps.behind (Behind.noteType d) (fun _ => rfl)
  rw [xchannelRecvPack]
  refine hnote.trans (Keeps.trans ?_ (Keeps.recvMsg e))
  split
  · exact (Keeps.recvCarried e d).trans ((Keeps.storeNext d).trans (Keeps.advanceLoop _))
  · split
    · exact Keeps.recvEarly e d
    · exact Keeps.behind Behind.recvAgain id

/-- Whatever is called, if the messages handed over are in relation `Q`. -/
theorem Keeps.call {call : Call} (hcall : ∀ m, call = .send m → Q m.type c.cid) :
    Keeps Q c.toCore (call.run c).1.toCore := by
  cases call with
  | send m => exact Keeps.send (hcall m rfl)
  | serial => exact Keeps.serial
  | sendPack clock ok => exact Keeps.sendPack clock ok
  | resend clock ok => exact Keeps.resend clock ok
  | sendAck ok => exact Keeps.sendAck ok
  | recvAck e ack => exact Keeps.recvAck e ack
  | recvPack e d => exact Keeps.recvPack e d

end

end Wenas.Xmsger
