import Wenas.Xmsger.Window

/-!
# The round-trip estimate

`xchannel_sampling` keeps the sum, the number and the mean of the round trips, and `xchannel_recv_ack` sets the number back
to zero when everything is acknowledged, but not the sum. The samplings of a run are listed in their order, each with the
channel as it was before it.
-/
namespace Wenas.Xmsger

open Wenas.Serial Wenas.Machine

/-! ### The samplings of a run -/

/-- A call of `xchannel_sampling`: the slot, and the channel before it. -/
structure Sampling where
  slot : Nat
  chan : Channel

def samplingsAt (i : Nat) (c : Channel) : List Sampling := if (c.sendbuf.buf i).ts ≠ 0 then [⟨i, c⟩] else []

def releaseSamplings (pos : UInt16) : Nat → Channel → List Sampling
  | 0, _ => []
  | fuel + 1, c =>
    if releasable pos c then samplingsAt c.sendbuf.rslot c ++ releaseSamplings pos fuel (releaseOne c) else []

/-- The samplings of `xchannel_recv_ack`. -/
def ackSamplings (e : Env) (ack : Ack) (c : Channel) : List Sampling :=
  if 0 < c.sendbuf.recvable ∧ ack.sn - c.sendbuf.rpos ≤ c.sendbuf.spos - c.sendbuf.rpos then
    let c := { c with recvTs := e.clock, ackTs := e.clock }
    releaseSamplings ack.pos loopFuel c ++
      if ack.sn ≠ ack.pos then
        let c := releaseLoop ack.pos loopFuel c
        samplingsAt (slot c.sendbuf.range ack.sn) c
      else []
  else []

/-- The acknowledgement that a received pack carries is looked at when the pack is kept. -/
def carriedSamplings (e : Env) (d : Dgram) (c : Channel) : List Sampling :=
  if d.head.ack.type ≠ 0 then ackSamplings e d.head.ack c else []

def packSamplings (e : Env) (d : Dgram) (c : Channel) : List Sampling :=
  let c := noteType d c
  if d.head.sn = c.recvbuf.wpos then carriedSamplings e d c
  else if d.head.sn - c.recvbuf.wpos < c.recvbuf.wpos - d.head.sn then
    let c := c.setAck d.head.sn c.recvbuf.wpos
    if (c.recvbuf.buf (slot c.recvbuf.range d.head.sn)).isNone then carriedSamplings e d c else []
  else []

def Call.samplings : Call → Channel → List Sampling
  | .recvAck e ack, c => ackSamplings e ack c
  | .recvPack e d, c => packSamplings e d c
  | _, _ => []

def Peer.samplings : Peer → List Call → List Sampling
  | _, [] => []
  | p, call :: calls => (if p.up then call.samplings p.chan.quiet else []) ++ (p.step call).samplings calls

/-! ### What the samplings read and write -/

/-- The estimates of a channel, and the range that bounds the threshold. -/
structure Gauge where
  range : UInt16
  threshold : UInt16
  psf : UInt64
  psfBegin : UInt64
  psfCounter : UInt64
  rtt : UInt64
  rttCounter : UInt16
  rttDuration : UInt64

def Channel.gauge (c : Channel) : Gauge :=
  ⟨c.recvbuf.range, c.threshold, c.psf, c.psfBegin, c.psfCounter, c.rtt, c.rttCounter, c.rttDuration⟩

/-- Everything is acknowledged. -/
def Gauge.reset (g : Gauge) : Gauge :=
  { g with threshold := xchannelThresholdInit, rttCounter := 0, psfBegin := 0, psf := 0 }

/-- A pack is sent again after its timeout. -/
def Gauge.lower (g : Gauge) : Gauge :=
  { g with threshold := if xchannelThresholdMin < g.threshold then g.threshold - 1 else g.threshold }

section

variable {c : Channel} {e : Env}

@[simp] theorem gauge_emit (c : Channel) (e : Event) : (c.emit e).gauge = c.gauge := rfl

@[simp] theorem gauge_setPack (c : Channel) (i : Nat) (p : Pack) : (c.setPack i p).gauge = c.gauge := rfl

@[simp] theorem gauge_setAck (c : Channel) (sn pos : UInt16) : (c.setAck sn pos).gauge = c.gauge := rfl

@[simp] theorem gauge_quiet (c : Channel) : c.quiet.gauge = c.gauge := rfl

theorem gauge_idleReset (c : Channel) : (idleReset c).gauge = if c.rpos = c.wpos then c.gauge.reset else c.gauge := by
  unfold idleReset
  split <;> rfl

theorem gauge_releaseMsg (i : Nat) (c : Channel) : (releaseMsg i c).gauge = c.gauge := by
  unfold releaseMsg
  dsimp only
  split
  · rfl
  · split
    · rfl
    · split <;> rfl

theorem gauge_fastResend (e : Env) (sn : UInt16) (fuel : Nat) (index : UInt16) (c : Channel) :
    (fastResend e sn fuel index c).gauge = c.gauge := by
  induction fuel generalizing index c with
  | zero => rfl
  | succ fuel ih =>
    unfold fastResend
    split
    · rfl
    · dsimp only
      split
      · split
        · rfl
        · rw [ih]
          rfl
      · exact ih _ _

theorem gauge_serial (c : Channel) : (xchannelSerialMsg c).gauge = c.gauge := by
  unfold xchannelSerialMsg
  split
  · split
    · rfl
    · split <;> rfl
  · rfl

theorem gauge_sendPack (clock : UInt64) (ok : Bool) (c : Channel) : (xchannelSendPack clock ok c).gauge = c.gauge := by
  have hready : (serialUnlessReady c).gauge = c.gauge := by
    unfold serialUnlessReady
    split
    · exact gauge_serial c
    · rfl
  unfold xchannelSendPack
  generalize serialUnlessReady c = d at hready
  dsimp only
  by_cases hsend : 0 < d.sendbuf.sendable
  · rw [if_pos hsend]
    cases ok with
    | true =>
      rw [if_pos rfl, gauge_serial, ← hready]
      rfl
    | false =>
      rw [if_neg Bool.false_ne_true, ← hready]
      rfl
  · rw [if_neg hsend]
    exact hready

theorem gauge_sendAck (ok : Bool) (c : Channel) : (xchannelSendAck ok c).gauge = c.gauge := by
  unfold xchannelSendAck
  dsimp only
  split <;> rfl

theorem gauge_send (m : Message) (c : Channel) : (xmsgerSend m c).1.gauge = c.gauge := by
  unfold xmsgerSend
  split <;> rfl

theorem gauge_resend (clock : UInt64) (ok : Bool) (c : Channel) :
    (xchannelResend clock ok c).gauge = c.gauge ∨ (xchannelResend clock ok c).gauge = c.gauge.lower := by
  unfold xchannelResend
  dsimp only
  split
  · split
    · exact .inr rfl
    · exact .inl rfl
  · exact .inl rfl

theorem gauge_noteType (d : Dgram) (c : Channel) : (noteType d c).gauge = c.gauge := rfl

theorem gauge_storePack (d : Dgram) (c : Channel) : (storePack d c).gauge = c.gauge := rfl

theorem gauge_storeNext (d : Dgram) (c : Channel) : (storeNext d c).gauge = c.gauge := rfl

theorem gauge_recvAgain (c : Channel) : (recvAgain c).gauge = c.gauge := rfl

theorem gauge_advanceLoop (fuel : Nat) (c : Channel) : (advanceLoop fuel c).gauge = c.gauge := by
  induction fuel generalizing c with
  | zero => rfl
  | succ fuel ih =>
    unfold advanceLoop
    split
    · rw [ih]
      rfl
    · rfl

theorem gauge_recvMsgOne (d : Dgram) (c : Channel) : (recvMsgOne d c).gauge = c.gauge := by
  unfold recvMsgOne
  dsimp only
  split <;> rfl

theorem gauge_recvMsgLoop (e : Env) (fuel : Nat) (c : Channel) : (recvMsgLoop e fuel c).1.gauge = c.gauge := by
  induction fuel generalizing c with
  | zero => rfl
  | succ fuel ih =>
    unfold recvMsgLoop
    split
    · rfl
    · split
      · rfl
      · rw [ih, gauge_recvMsgOne]

theorem gauge_recvMsg (e : Env) (c : Channel) : (xchannelRecvMsg e c).1.gauge = c.gauge := by
  unfold xchannelRecvMsg
  dsimp only
  split
  · split
    · rfl
    · exact gauge_recvMsgLoop e _ _
  · rfl

end

/-! ### Induction over the samplings -/

/-- The samplings so far, with one more. -/
def noted (xs : List Sampling) (x : Sampling) : List Sampling := xs ++ [x]

theorem run_noted (xs ys : List Sampling) : run noted xs ys = xs ++ ys := by
  induction ys generalizing xs with
  | nil => simp
  | cons y ys ih => simp [ih, noted]

/-- `J` relates the samplings so far to the estimates. Each sampling that is `Ok` keeps it, and so do the other
writes. -/
structure Tracked (J : List Sampling → Gauge → Prop) (Ok : List Sampling → Sampling → Prop) : Prop where
  sample : ∀ xs x, J xs x.chan.gauge → Ok xs x → J (noted xs x) (xchannelSampling x.slot x.chan).gauge
  reset : ∀ xs g, J xs g → J xs g.reset
  lower : ∀ xs g, J xs g → J xs g.lower

/-- A part of a run with the samplings `ys` takes the estimates from `g` to `g'`, and each of its samplings finds
`J`. -/
def Passes (J : List Sampling → Gauge → Prop) (Ok : List Sampling → Sampling → Prop) (g : Gauge) (ys : List Sampling)
    (g' : Gauge) : Prop :=
  ∀ xs, J xs g → Along noted Ok xs ys → J (xs ++ ys) g' ∧ Along noted (fun xs x => J xs x.chan.gauge) xs ys

section

variable {J : List Sampling → Gauge → Prop} {Ok : List Sampling → Sampling → Prop} {g g₁ g₂ : Gauge}
  {ys zs : List Sampling} {c : Channel}

theorem Passes.refl (g : Gauge) : Passes J Ok g [] g := by
  intro xs hJ _
  simpa [Along] using hJ

theorem Passes.trans (h : Passes J Ok g ys g₁) (h' : Passes J Ok g₁ zs g₂) : Passes J Ok g (ys ++ zs) g₂ := by
  intro xs hJ hok
  rw [Along.append, run_noted] at hok
  obtain ⟨hJ₁, hfound⟩ := h xs hJ hok.1
  obtain ⟨hJ₂, hfound'⟩ := h' (xs ++ ys) hJ₁ hok.2
  rw [Along.append, run_noted, ← List.append_assoc]
  exact ⟨hJ₂, hfound, hfound'⟩

/-- A write that is no sampling. -/
theorem Passes.quietly (h : ∀ xs, J xs g → J xs g₁) : Passes J Ok g [] g₁ := by
  intro xs hJ _
  simpa [Along] using h xs hJ

namespace Tracked

variable (hC : Tracked J Ok)
include hC

theorem samplingsAt (i : Nat) (c : Channel) : Passes J Ok c.gauge (samplingsAt i c) (sampleUnlessDone i c).gauge := by
  unfold Xmsger.samplingsAt sampleUnlessDone
  split
  · intro xs hJ hok
    exact ⟨hC.sample xs ⟨i, c⟩ hJ hok.1, hJ, trivial⟩
  · exact .refl _

theorem releaseOne (c : Channel) : Passes J Ok c.gauge (Xmsger.samplingsAt c.sendbuf.rslot c) (releaseOne c).gauge := by
  have hreset : ∀ (c : Channel) (rpos : UInt64), Passes J Ok c.gauge [] (idleReset { c with rpos := rpos }).gauge := by
    intro c rpos
    rw [gauge_idleReset]
    split
    · exact .quietly fun xs => hC.reset xs c.gauge
    · exact .refl _
  have hfirst := hC.samplingsAt c.sendbuf.rslot c
  generalize hc : sampleUnlessDone c.sendbuf.rslot c = c' at hfirst
  have hall := hfirst.trans (hreset c' (c'.rpos + (c'.sendbuf.buf c.sendbuf.rslot).head.len.toUInt64))
  have hlast : (Xmsger.releaseOne c).gauge =
      (idleReset { c' with rpos := c'.rpos + (c'.sendbuf.buf c.sendbuf.rslot).head.len.toUInt64 }).gauge := by
    rw [← hc]
    exact gauge_releaseMsg _ _
  rw [List.append_nil] at hall
  rw [hlast]
  exact hall

theorem releaseLoop (pos : UInt16) (fuel : Nat) (c : Channel) :
    Passes J Ok c.gauge (releaseSamplings pos fuel c) (releaseLoop pos fuel c).gauge := by
  induction fuel generalizing c with
  | zero => exact .refl _
  | succ fuel ih =>
    unfold releaseSamplings Xmsger.releaseLoop
    split
    · exact (hC.releaseOne c).trans (ih _)
    · exact .refl _

theorem recvAck (e : Env) (ack : Ack) (c : Channel) :
    Passes J Ok c.gauge (ackSamplings e ack c) (xchannelRecvAck e ack c).gauge := by
  unfold ackSamplings xchannelRecvAck
  split
  · dsimp only
    split
    · refine (hC.releaseLoop ack.pos loopFuel { c with recvTs := e.clock, ackTs := e.clock }).trans ?_
      have hearly : ∀ c : Channel, (recvAckEarly e ack.sn c).gauge =
          (sampleUnlessDone (slot c.sendbuf.range ack.sn) c).gauge := by
        intro c
        unfold recvAckEarly
        dsimp only
        split
        · exact gauge_fastResend _ _ _ _ _
        · rfl
      rw [hearly]
      exact hC.samplingsAt _ _
    · rw [List.append_nil]
      exact hC.releaseLoop ack.pos loopFuel { c with recvTs := e.clock, ackTs := e.clock }
  · exact .refl _

theorem recvCarried (e : Env) (d : Dgram) (c : Channel) :
    Passes J Ok c.gauge (carriedSamplings e d c) (recvCarried e d c).gauge := by
  unfold carriedSamplings Xmsger.recvCarried
  split
  · exact hC.recvAck e d.head.ack c
  · exact .refl _

theorem recvPack (e : Env) (d : Dgram) (c : Channel) :
    Passes J Ok c.gauge (packSamplings e d c) (xchannelRecvPack e d c).1.gauge := by
  rw [packSamplings, xchannelRecvPack, gauge_recvMsg, ← gauge_noteType d c]
  generalize noteType d c = c
  split
  · rw [recvInOrder, gauge_advanceLoop, gauge_storeNext]
    exact hC.recvCarried e d c
  · split
    · dsimp only [recvEarly]
      rw [← gauge_setAck c d.head.sn c.recvbuf.wpos]
      generalize c.setAck d.head.sn c.recvbuf.wpos = c
      split
      · rw [gauge_storePack]
        exact hC.recvCarried e d c
      · exact .refl _
    · rw [gauge_recvAgain]
      exact .refl _

theorem call (call : Call) (c : Channel) : Passes J Ok c.gauge (call.samplings c) (call.run c).1.gauge := by
  cases call with
  | send m =>
    rw [Call.run, gauge_send]
    exact .refl _
  | serial =>
    rw [Call.run, gauge_serial]
    exact .refl _
  | sendPack clock ok =>
    rw [Call.run, gauge_sendPack]
    exact .refl _
  | resend clock ok =>
    obtain hsame | hlower := gauge_resend clock ok c
    · rw [Call.run, hsame]
      exact .refl _
    · rw [Call.run, hlower]
      exact .quietly fun xs => hC.lower xs _
  | sendAck ok =>
    rw [Call.run, gauge_sendAck]
    exact .refl _
  | recvAck e ack => exact hC.recvAck e ack c
  | recvPack e d => exact hC.recvPack e d c

/-- What holds before the samplings of a run holds at each of them and behind them, if each one is `Ok`. -/
theorem run (calls : List Call) (p : Peer) :
    Passes J Ok p.chan.gauge (p.samplings calls) (Machine.run Peer.step p calls).chan.gauge := by
  induction calls generalizing p with
  | nil => exact .refl _
  | cons call calls ih =>
    refine Passes.trans ?_ (ih (p.step call))
    unfold Peer.step
    split
    · exact hC.call call p.chan.quiet
    · exact .refl _

end Tracked

end

end Wenas.Xmsger
