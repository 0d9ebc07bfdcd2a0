import Wenas.Xmsger.Estimate

/-!
# The send threshold

`xmsger_send_all` sends a pack while fewer than `threshold` packs are in the window. `xchannel_sampling` finds a rate out
of the number of samplings in at least 10 ms, and the threshold out of the estimate and the rate. The number is kept over
idle times, so the rate can come out as zero, and the threshold is cut to sixteen bits before it is clamped.
-/
namespace Wenas.Xmsger

open Wenas.Serial Wenas.Machine

/-- The probe has run long enough. -/
def Sampling.Settles (x : Sampling) : Prop :=
  x.chan.psf = 0 ∧ x.chan.psfBegin ≠ 0 ∧ xpackPsfSampling ≤ x.chan.ackTs - x.chan.psfBegin

instance (x : Sampling) : Decidable x.Settles := inferInstanceAs (Decidable (_ ∧ _ ∧ _))

/-- The channel when the sample has entered the estimate. -/
def Sampling.counted (x : Sampling) : Channel := sampleRtt (x.chan.ackTs - (x.chan.sendbuf.buf x.slot).ts) x.chan

/-- What the sampling divides by. -/
def Sampling.divisors (x : Sampling) : List UInt64 :=
  (if x.chan.rttCounter < xchannelRttSamplingCounts then [(x.chan.rttCounter + 1).toUInt64] else []) ++
    if x.Settles then [x.chan.psfCounter + 1, xpackPsfSampling / (x.chan.psfCounter + 1)] else []

/-- The threshold before it is clamped. -/
def Sampling.quotient (x : Sampling) : UInt16 :=
  let psf := xpackPsfSampling / (x.chan.psfCounter + 1)
  ((x.counted.rtt + psf - 1) / psf + 1).toUInt16

/-- Nothing is divided by zero, and the threshold is positive behind the sampling. -/
def Sampling.Stays (x : Sampling) : Prop := 0 ∉ x.divisors ∧ 1 ≤ (xchannelSampling x.slot x.chan).threshold.toNat

/-- Few enough samplings were counted for a rate, and the quotient does not vanish in sixteen bits: it is at least 2, or
at least 1 with a window of one pack. -/
def Sampling.Fits (x : Sampling) : Prop :=
  x.Settles → x.chan.psfCounter.toNat < 10000000 ∧ min 2 x.chan.recvbuf.range.toNat ≤ x.quotient.toNat

instance (x : Sampling) : Decidable x.Fits := inferInstanceAs (Decidable (_ → _))

/-- The threshold is positive, and with nothing outstanding `xmsger_send_all` may send. -/
def Channel.Open (c : Channel) : Prop :=
  1 ≤ c.threshold.toNat ∧ (c.sendbuf.spos = c.sendbuf.rpos → c.sendbuf.readable < c.threshold)

/-- Each sampling of the call fits. No pack fails to get out while the threshold is 1, and packs are cut by
`xchannel_send_pack` only. -/
def Call.Settled (call : Call) (c : Channel) : Prop :=
  (∀ x ∈ call.samplings c, x.Fits) ∧
    match call with
    | .serial => False
    | .sendPack _ false => 2 ≤ c.threshold.toNat ∨ (serialUnlessReady c).sendbuf.sendable = 0
    | _ => True

instance : ∀ (call : Call) (c : Channel), Decidable (call.Settled c)
  | .serial, _ => .isFalse And.right
  | .sendPack _ false, _ => inferInstanceAs (Decidable (_ ∧ (_ ∨ _)))
  | .sendPack _ true, _ | .send _, _ | .resend _ _, _ | .sendAck _, _ | .recvAck _ _, _ | .recvPack _ _, _ =>
    inferInstanceAs (Decidable (_ ∧ True))

/-! ### The samplings -/

section

variable {x : Sampling} {xs : List Sampling} {serialRange : UInt16}

theorem counted_gauge (x : Sampling) :
    x.counted.recvbuf = x.chan.recvbuf ∧ x.counted.threshold = x.chan.threshold ∧ x.counted.psf = x.chan.psf ∧
      x.counted.psfBegin = x.chan.psfBegin ∧ x.counted.psfCounter = x.chan.psfCounter ∧
        x.counted.ackTs = x.chan.ackTs := by
  unfold Sampling.counted sampleRtt
  dsimp only
  split <;> exact ⟨rfl, rfl, rfl, rfl, rfl, rfl⟩

/-- The threshold behind a sampling: the same, the initial one, or the clamped quotient. -/
theorem sampling_threshold (x : Sampling) :
    (xchannelSampling x.slot x.chan).recvbuf = x.chan.recvbuf ∧
      ((xchannelSampling x.slot x.chan).threshold = x.chan.threshold ∨
        (xchannelSampling x.slot x.chan).threshold = xchannelThresholdInit ∨
        x.Settles ∧ (xchannelSampling x.slot x.chan).threshold =
          if x.chan.recvbuf.range < x.quotient then x.chan.recvbuf.range else x.quotient) := by
  obtain ⟨hrange, hthreshold, hpsf, hbegin, hcounter, hack⟩ := counted_gauge x
  have hsampling : xchannelSampling x.slot x.chan = (sampleRate (x.chan.sendbuf.buf x.slot).kabuf x.counted).setPack x.slot
      { x.chan.sendbuf.buf x.slot with ts := 0 } := rfl
  rw [hsampling]
  simp only [Channel.setPack]
  unfold sampleRate
  by_cases hfound : x.counted.psf = 0
  · rw [if_pos hfound]
    by_cases hbegun : x.counted.psfBegin = 0
    · rw [if_pos hbegun]
      exact ⟨hrange, .inl hthreshold⟩
    · rw [if_neg hbegun]
      dsimp only
      split
      · rename_i hlong
        refine ⟨hrange, .inr (.inr ⟨⟨hpsf ▸ hfound, hbegin ▸ hbegun, hack ▸ hbegin ▸ hlong⟩, ?_⟩)⟩
        simp only [setRate, Sampling.quotient, hcounter, hrange]
        rfl
      · exact ⟨hrange, .inl hthreshold⟩
  · rw [if_neg hfound]
    split
    · exact ⟨hrange, .inr (.inl rfl)⟩
    · exact ⟨hrange, .inl hthreshold⟩

/-- The threshold is at least 2, or at least 1 with a window of one pack. -/
structure High (serialRange : UInt16) (g : Gauge) : Prop where
  range : g.range = serialRange
  threshold : min 2 serialRange.toNat ≤ g.threshold.toNat

theorem High.sample (h : High serialRange x.chan.gauge) (hfits : x.Fits) :
    High serialRange (xchannelSampling x.slot x.chan).gauge := by
  obtain ⟨hrange, hcase⟩ := sampling_threshold x
  have hsame : x.chan.recvbuf.range = serialRange := h.range
  refine ⟨(congrArg Ring.range hrange).trans h.range, ?_⟩
  obtain hold | hinit | ⟨hsettles, hnew⟩ := hcase
  · simp only [Channel.gauge, hold]
    exact h.threshold
  · simp only [Channel.gauge, hinit]
    exact (min_le_left _ _).trans (by decide)
  · obtain ⟨-, hquotient⟩ := hfits hsettles
    simp only [Channel.gauge, hnew]
    rw [hsame] at hquotient ⊢
    split
    · exact min_le_right _ _
    · exact hquotient

theorem high (serialRange : UInt16) : Tracked (fun _ g => High serialRange g) fun _ x => x.Fits where
  sample _ _ h hfits := h.sample hfits
  reset _ _ h := ⟨h.range, (min_le_left _ _).trans (Nat.le_add_left 2 62)⟩
  lower _ g h := by
    refine ⟨h.range, ?_⟩
    have hthreshold := h.threshold
    simp only [Gauge.lower]
    split
    · rename_i hlt
      have hmin : 8 < g.threshold.toNat := UInt16.lt_iff_toNat_lt.mp hlt
      have hone : (g.threshold - 1).toNat = g.threshold.toNat - 1 :=
        UInt16.toNat_sub_of_le _ _ (UInt16.le_iff_toNat_le.mpr (by simp; omega))
      omega
    · exact hthreshold

/-- A sampling that fits divides by nothing that is zero. -/
theorem High.stays (h : High serialRange x.chan.gauge) (hrange : 1 ≤ serialRange.toNat) (hfits : x.Fits) : x.Stays := by
  have hafter := (h.sample hfits).threshold
  refine ⟨?_, (le_min (by decide) hrange).trans hafter⟩
  unfold Sampling.divisors
  rw [List.mem_append, not_or]
  constructor
  · split
    · rename_i hlt
      have hlt' : x.chan.rttCounter.toNat < 256 := UInt16.lt_iff_toNat_lt.mp hlt
      intro hzero
      have hnat := congrArg UInt64.toNat (List.mem_singleton.mp hzero)
      rw [UInt16.toNat_toUInt64, UInt16.toNat_add] at hnat
      simp at hnat
      omega
    · exact List.not_mem_nil
  · split
    · rename_i hsettles
      obtain ⟨hfew, -⟩ := hfits hsettles
      have hcounter : (x.chan.psfCounter + 1).toNat = x.chan.psfCounter.toNat + 1 := by
        rw [UInt64.toNat_add]
        exact Nat.mod_eq_of_lt (by simp; omega)
      have hrate : (xpackPsfSampling / (x.chan.psfCounter + 1)).toNat = 10000000 / (x.chan.psfCounter.toNat + 1) := by
        rw [UInt64.toNat_div, hcounter]
        rfl
      have hpositive : 0 < 10000000 / (x.chan.psfCounter.toNat + 1) := Nat.div_pos (by omega) (by omega)
      intro hzero
      simp only [List.mem_cons, List.not_mem_nil, or_false] at hzero
      obtain hzero | hzero := hzero
      · have hnat := congrArg UInt64.toNat hzero
        rw [hcounter] at hnat
        simp at hnat
      · have hnat := congrArg UInt64.toNat hzero
        rw [hrate] at hnat
        simp at hnat
        omega
    · exact List.not_mem_nil

end

/-! ### The packs that are cut ahead -/

/-- The send and the write position. -/
def Channel.ahead (c : Channel) : UInt16 × UInt16 := (c.sendbuf.spos, c.sendbuf.wpos)

section

variable {c : Channel}

theorem ahead_sampleUnlessDone (i : Nat) (c : Channel) : (sampleUnlessDone i c).ahead = c.ahead := by
  have hcore := congrArg Core.sendbuf (core_sampleUnlessDone i c)
  simp only [Channel.ahead, hcore, Ring.put_spos, Ring.put_wpos]

theorem ahead_releaseMsg (i : Nat) (c : Channel) : (releaseMsg i c).ahead = c.ahead := by
  unfold releaseMsg
  dsimp only
  split
  · rfl
  · split
    · rfl
    · split <;> rfl

theorem ahead_releaseOne (c : Channel) : (releaseOne c).ahead = c.ahead := by
  have hcore := congrArg Core.sendbuf (core_sampled c)
  have hsampled : (sampled c).ahead = c.ahead := by simp only [Channel.ahead, hcore, Ring.put_spos, Ring.put_wpos]
  have hone : (releaseOne c).ahead = (releaseMsg c.sendbuf.rslot (sampled c)).ahead := by
    simp only [Channel.ahead, congrArg Core.sendbuf (core_releaseOne c)]
  rw [hone, ahead_releaseMsg, hsampled]

theorem ahead_releaseLoop (pos : UInt16) (fuel : Nat) (c : Channel) : (releaseLoop pos fuel c).ahead = c.ahead := by
  induction fuel generalizing c with
  | zero => rfl
  | succ fuel ih =>
    unfold releaseLoop
    split
    · rw [ih, ahead_releaseOne]
    · rfl

theorem ahead_fastResend (e : Env) (sn : UInt16) (fuel : Nat) (index : UInt16) (c : Channel) :
    (fastResend e sn fuel index c).ahead = c.ahead := by
  induction fuel generalizing index c with
  | zero => rfl
  | succ fuel ih =>
    unfold fastResend
    split
    · rfl
    · dsimp only
      split
      · split
        · rfl
        · rw [ih]
          rfl
      · exact ih _ _

theorem ahead_recvAckEarly (e : Env) (sn : UInt16) (c : Channel) : (recvAckEarly e sn c).ahead = c.ahead := by
  unfold recvAckEarly
  dsimp only
  split
  · exact (ahead_fastResend e sn loopFuel _ _).trans (ahead_sampleUnlessDone _ c)
  · exact ahead_sampleUnlessDone _ c

theorem ahead_recvAck (e : Env) (ack : Ack) (c : Channel) : (xchannelRecvAck e ack c).ahead = c.ahead := by
  have hloop := ahead_releaseLoop ack.pos loopFuel { c with recvTs := e.clock, ackTs := e.clock }
  unfold xchannelRecvAck
  split
  · dsimp only
    split
    · exact (ahead_recvAckEarly e ack.sn _).trans hloop
    · exact hloop
  · rfl

theorem ahead_behind {c' : Channel} (h : Behind c.toCore c'.toCore) : c'.ahead = c.ahead := by
  simp only [Channel.ahead, h.sendbuf]

theorem ahead_recvCarried (e : Env) (d : Dgram) (c : Channel) : (recvCarried e d c).ahead = c.ahead := by
  unfold recvCarried
  split
  · exact ahead_recvAck e d.head.ack c
  · rfl

theorem ahead_recvPack (e : Env) (d : Dgram) (c : Channel) : (xchannelRecvPack e d c).1.ahead = c.ahead := by
  unfold xchannelRecvPack
  dsimp only
  rw [ahead_behind (Behind.recvMsg e)]
  split
  · unfold recvInOrder
    rw [ahead_behind (Behind.advanceLoop loopFuel)]
    exact ahead_recvCarried e d (noteType d c)
  · split
    · unfold recvEarly
      dsimp only
      split
      · exact ahead_recvCarried e d ((noteType d c).setAck d.head.sn (noteType d c).recvbuf.wpos)
      · rfl
    · rfl

theorem sendable_ahead {c c' : Channel} (h : c'.ahead = c.ahead) : c'.sendbuf.sendable = c.sendbuf.sendable := by
  obtain ⟨hspos, hwpos⟩ := Prod.ext_iff.mp h
  simp only [Channel.ahead] at hspos hwpos
  rw [Ring.sendable, Ring.sendable, hspos, hwpos]

/-- One pack is cut at most. -/
theorem serial_positions (c : Channel) :
    (xchannelSerialMsg c).sendbuf.rpos = c.sendbuf.rpos ∧ (xchannelSerialMsg c).sendbuf.spos = c.sendbuf.spos ∧
      ((xchannelSerialMsg c).sendbuf.wpos = c.sendbuf.wpos ∨
        0 < c.sendbuf.writable ∧ (xchannelSerialMsg c).sendbuf.wpos = c.sendbuf.wpos + 1) := by
  unfold xchannelSerialMsg
  split
  · rename_i hroom
    split
    · exact ⟨rfl, rfl, .inl rfl⟩
    · split
      · exact ⟨rfl, rfl, .inl rfl⟩
      · exact ⟨rfl, rfl, .inr ⟨hroom.1, rfl⟩⟩
  · exact ⟨rfl, rfl, .inl rfl⟩

/-- With nothing cut ahead, at most one pack is behind. -/
theorem serial_sendable (h : c.sendbuf.sendable = 0) : (xchannelSerialMsg c).sendbuf.sendable.toNat ≤ 1 := by
  obtain ⟨-, hspos, hwpos | ⟨-, hwpos⟩⟩ := serial_positions c
  · rw [Ring.sendable, hspos, hwpos, ← Ring.sendable, h]
    exact Nat.zero_le _
  · have hone : (xchannelSerialMsg c).sendbuf.sendable = c.sendbuf.sendable + 1 := by
      rw [Ring.sendable, Ring.sendable, hspos, hwpos]
      grind
    rw [hone, h]
    exact le_rfl

theorem serialUnlessReady_sendable (h : c.sendbuf.sendable.toNat ≤ 1) :
    (serialUnlessReady c).sendbuf.sendable.toNat ≤ 1 := by
  unfold serialUnlessReady
  split
  · rename_i hzero
    exact serial_sendable hzero
  · exact h

/-- The channel when the pack at the send position has got out. -/
def gotOut (clock : UInt64) (ok : Bool) (c : Channel) : Channel :=
  ((c.setPack c.sendbuf.sslot c.outgoing).emit (.sendto c.outgoing.dgram ok)).markSent clock

theorem gotOut_sendable (clock : UInt64) (ok : Bool) (h : c.sendbuf.sendable.toNat ≤ 1)
    (hpos : 0 < c.sendbuf.sendable) :
    (gotOut clock ok c).sendbuf.sendable = 0 := by
  have hone : c.sendbuf.sendable = 1 := by
    apply UInt16.toNat_inj.mp
    have hlt := UInt16.lt_iff_toNat_lt.mp hpos
    simp at hlt ⊢
    omega
  have hnext : (gotOut clock ok c).sendbuf.sendable = c.sendbuf.sendable - 1 := by
    have hspos : (gotOut clock ok c).sendbuf.spos = c.sendbuf.spos + 1 := rfl
    have hwpos : (gotOut clock ok c).sendbuf.wpos = c.sendbuf.wpos := rfl
    rw [Ring.sendable, Ring.sendable, hspos, hwpos]
    grind
  rw [hnext, hone]
  rfl

/-- Sending a pack leaves one pack behind it at most. -/
theorem sendPack_sendable (clock : UInt64) (ok : Bool) (h : c.sendbuf.sendable.toNat ≤ 1) :
    (xchannelSendPack clock ok c).sendbuf.sendable.toNat ≤ 1 := by
  have hready := serialUnlessReady_sendable h
  unfold xchannelSendPack
  dsimp only
  split
  · rename_i hpos
    split
    · exact serial_sendable (gotOut_sendable clock ok hready hpos)
    · exact hready
  · exact hready

variable {past : List Event} {ms : List Message} {g : Marks}

/-- With a window of one pack, the pack that gets out fills it. -/
theorem sendPack_lone (hinv : SendInv 0 past ms c.toCore g) (clock : UInt64) (h : c.sendbuf.sendable.toNat ≤ 1) :
    (xchannelSendPack clock true c).sendbuf.sendable = 0 := by
  obtain ⟨-, n, w, -, hready⟩ := hinv.serialUnlessReady
  have hfew := serialUnlessReady_sendable h
  unfold xchannelSendPack
  dsimp only
  by_cases hpos : 0 < (serialUnlessReady c).sendbuf.sendable
  · rw [if_pos hpos, if_pos rfl]
    have hlt := hready.ring.sendable_pos.mp hpos
    have hout : SendInv 0 past ms (gotOut clock true (serialUnlessReady c)).toCore _ :=
      (hready.outgoing hlt true).markSent hlt clock
    have hzero := gotOut_sendable clock true hfew hpos
    have hfull : ¬ 0 < (gotOut clock true (serialUnlessReady c)).sendbuf.writable := by
      rw [hout.ring.writable_pos]
      have hread := hready.ring.read_le
      simp only at hlt hread ⊢
      omega
    obtain ⟨-, hspos, hwpos | ⟨hroom, -⟩⟩ := serial_positions (gotOut clock true (serialUnlessReady c))
    · have hsame : (xchannelSerialMsg (gotOut clock true (serialUnlessReady c))).ahead =
          (gotOut clock true (serialUnlessReady c)).ahead := by simp only [Channel.ahead, hspos, hwpos]
      exact (sendable_ahead hsame).trans hzero
    · exact absurd hroom hfull
  · rw [if_neg hpos]
    apply UInt16.toNat_inj.mp
    have hzero := mt UInt16.lt_iff_toNat_lt.mpr hpos
    simpa using hzero

theorem ahead_resend (clock : UInt64) (ok : Bool) (c : Channel) : (xchannelResend clock ok c).ahead = c.ahead := by
  unfold xchannelResend
  dsimp only
  split
  · split <;> rfl
  · rfl

theorem ahead_send (m : Message) (c : Channel) : (xmsgerSend m c).1.ahead = c.ahead := by
  unfold xmsgerSend
  split <;> rfl

theorem ahead_sendAck (ok : Bool) (c : Channel) : (xchannelSendAck ok c).ahead = c.ahead := by
  unfold xchannelSendAck
  dsimp only
  split <;> rfl

/-! ### Calls -/

/-- A call that takes a sample finds a pack outstanding. -/
theorem ackSamplings_recvable {e : Env} {ack : Ack} (h : ackSamplings e ack c ≠ []) : 0 < c.sendbuf.recvable := by
  unfold ackSamplings at h
  split at h
  · rename_i hwindow
    exact hwindow.1
  · exact absurd rfl h

theorem carriedSamplings_recvable {e : Env} {d : Dgram} (h : carriedSamplings e d c ≠ []) : 0 < c.sendbuf.recvable := by
  unfold carriedSamplings at h
  split at h
  · exact ackSamplings_recvable h
  · exact absurd rfl h

theorem packSamplings_recvable {e : Env} {d : Dgram} (h : packSamplings e d c ≠ []) : 0 < c.sendbuf.recvable := by
  have hnote : (noteType d c).sendbuf.recvable = c.sendbuf.recvable := rfl
  have hset : ∀ sn pos, ((noteType d c).setAck sn pos).sendbuf.recvable = c.sendbuf.recvable := fun _ _ => rfl
  unfold packSamplings at h
  generalize noteType d c = c' at h hnote hset
  dsimp only at h
  split at h
  · exact hnote ▸ carriedSamplings_recvable h
  · split at h
    · split at h
      · exact hset _ _ ▸ carriedSamplings_recvable h
      · exact absurd rfl h
    · exact absurd rfl h

theorem samplings_recvable {call : Call} (h : call.samplings c ≠ []) : 0 < c.sendbuf.recvable := by
  cases call with
  | recvAck e ack => exact ackSamplings_recvable h
  | recvPack e d => exact packSamplings_recvable h
  | _ => exact absurd rfl h

/-- The threshold stays above 1 without a sampling. -/
theorem above : Tracked (fun xs g => xs = [] → 2 ≤ g.threshold.toNat) fun _ _ => True where
  sample xs x _ _ h := absurd h (List.append_ne_nil_of_right_ne_nil _ (List.cons_ne_nil _ _))
  reset _ _ _ _ := Nat.le_add_left 2 62
  lower _ g h hnil := by
    have hthreshold := h hnil
    simp only [Gauge.lower]
    split
    · rename_i hlt
      have hmin : 8 < g.threshold.toNat := UInt16.lt_iff_toNat_lt.mp hlt
      have hone : (g.threshold - 1).toNat = g.threshold.toNat - 1 :=
        UInt16.toNat_sub_of_le _ _ (UInt16.le_iff_toNat_le.mpr (by simp; omega))
      omega
    · exact hthreshold

end

theorem along_noted {P : Sampling → Prop} {xs ys : List Sampling} :
    Along noted (fun _ x => P x) xs ys ↔ ∀ y ∈ ys, P y := by
  induction ys generalizing xs with
  | nil => simp [Along]
  | cons y ys ih => simp [Along, ih]

/-- What holds of a channel between two calls. -/
structure Ready (serialRange : UInt16) (p : Peer) : Prop where
  high : High serialRange p.chan.gauge
  ahead : p.chan.sendbuf.sendable.toNat ≤ 1
  lone : p.chan.threshold.toNat ≤ 1 → p.chan.sendbuf.sendable = 0
  one : serialRange = 1 → ∃ g, PeerInv 0 p g

section

variable {p : Peer} {call : Call} {serialRange : UInt16}

theorem Ready.open (h : Ready serialRange p) (hrange : 1 ≤ serialRange.toNat) : p.chan.Open := by
  have hthreshold : min 2 serialRange.toNat ≤ p.chan.threshold.toNat := h.high.threshold
  have hone : 1 ≤ p.chan.threshold.toNat := (le_min (by decide) hrange).trans hthreshold
  refine ⟨hone, fun hnone => ?_⟩
  have hsame : p.chan.sendbuf.readable = p.chan.sendbuf.sendable := by
    rw [Ring.readable, Ring.sendable, hnone]
  rw [hsame, UInt16.lt_iff_toNat_lt]
  by_cases hlow : p.chan.threshold.toNat ≤ 1
  · rw [h.lone hlow]
    exact hone
  · have hahead := h.ahead
    omega

/-- The packs ahead of the send position, after a call that is not a send. -/
theorem run_ahead (hserial : call ≠ .serial) (hsend : ∀ clock ok, call ≠ .sendPack clock ok) (c : Channel) :
    (call.run c).1.ahead = c.ahead := by
  cases call with
  | send m => exact ahead_send m c
  | serial => exact absurd rfl hserial
  | sendPack clock ok => exact absurd rfl (hsend clock ok)
  | resend clock ok => exact ahead_resend clock ok c
  | sendAck ok => exact ahead_sendAck ok c
  | recvAck e ack => exact ahead_recvAck e ack c
  | recvPack e d => exact ahead_recvPack e d c

/-- A window of one pack with a pack outstanding has none ahead. -/
theorem PeerInv.outstanding {g : Marks} (h : PeerInv 0 p g) (hpos : 0 < p.chan.sendbuf.recvable) :
    p.chan.sendbuf.sendable = 0 := by
  have hring : p.chan.sendbuf.Holds _ _ 0 g.released g.sent g.cut := h.ring
  have hlt := hring.recvable_pos.mp hpos
  have hroom := hring.room
  apply UInt16.toNat_inj.mp
  rw [Ring.sendable, hring.sendable]
  simp only [UInt16.toNat_zero]
  omega

theorem Ready.step (h : Ready serialRange p) (hrange : 1 ≤ serialRange.toNat)
    (hsettled : p.up = true → call.Settled p.chan.quiet) :
    Ready serialRange (p.step call) ∧ ∀ x ∈ (if p.up then call.samplings p.chan.quiet else []), x.Stays := by
  have hone : serialRange = 1 → ∃ g, PeerInv 0 (p.step call) g := by
    intro hlone
    obtain ⟨g, hg⟩ := h.one hlone
    exact hg.step call
  by_cases hup : p.up = true
  · obtain ⟨hfits, hcall⟩ := hsettled hup
    obtain ⟨hhigh, hfound⟩ := (Xmsger.high serialRange).call call p.chan.quiet [] h.high (along_noted.mpr hfits)
    have hchan : (p.step call).chan = (call.run p.chan.quiet).1 := by rw [Peer.step, if_pos hup]
    rw [if_pos hup]
    refine ⟨⟨hchan ▸ hhigh, ?_, ?_, hone⟩, fun x hx => (along_noted.mp hfound x hx).stays hrange (hfits x hx)⟩
    · rw [hchan]
      by_cases hsend : ∃ clock ok, call = .sendPack clock ok
      · obtain ⟨clock, ok, rfl⟩ := hsend
        exact sendPack_sendable clock ok h.ahead
      · push Not at hsend
        have hserial : call ≠ .serial := by
          rintro rfl
          exact hcall
        rw [sendable_ahead (run_ahead hserial hsend p.chan.quiet)]
        exact h.ahead
    · rw [hchan]
      intro hlow
      have hwindow : serialRange = 1 := by
        have hthreshold : min 2 serialRange.toNat ≤ (call.run p.chan.quiet).1.threshold.toNat := hhigh.threshold
        apply UInt16.toNat_inj.mp
        simp only [UInt16.toNat_one]
        omega
      obtain ⟨g, hg⟩ := h.one hwindow
      by_cases hsend : ∃ clock ok, call = .sendPack clock ok
      · obtain ⟨clock, ok, rfl⟩ := hsend
        have hsame : p.chan.threshold = (Call.run (.sendPack clock ok) p.chan.quiet).1.threshold :=
          (congrArg Gauge.threshold (gauge_sendPack clock ok p.chan.quiet)).symm
        cases ok with
        | true => exact sendPack_lone hg clock h.ahead
        | false =>
          obtain htwo | hnone := hcall
          · have htwo : 2 ≤ p.chan.threshold.toNat := htwo
            rw [← hsame] at hlow
            omega
          · have hrun : (Call.run (.sendPack clock false) p.chan.quiet).1 = serialUnlessReady p.chan.quiet := by
              unfold Call.run xchannelSendPack
              simp [hnone]
            rw [hrun, hnone]
      · push Not at hsend
        have hserial : call ≠ .serial := by
          rintro rfl
          exact hcall
        rw [sendable_ahead (run_ahead hserial hsend p.chan.quiet)]
        by_cases hbefore : p.chan.threshold.toNat ≤ 1
        · exact h.lone hbefore
        · have hrecvable : call.samplings p.chan.quiet ≠ [] → 0 < p.chan.quiet.sendbuf.recvable := samplings_recvable
          refine hg.outstanding (hrecvable fun hnil => ?_)
          obtain ⟨hkept, -⟩ := above.call call p.chan.quiet [] (fun _ => by simp [Channel.gauge, Channel.quiet]; omega)
            (along_noted.mpr fun _ _ => trivial)
          have htwo : 2 ≤ (call.run p.chan.quiet).1.threshold.toNat := hkept hnil
          omega
  · rw [if_neg hup]
    have hsame : p.step call = p := by rw [Peer.step, if_neg hup]
    rw [hsame] at hone ⊢
    exact ⟨⟨h.high, h.ahead, h.lone, hone⟩, fun x hx => absurd hx List.not_mem_nil⟩

end

/-- In every run whose calls are settled, at any clock readings: nothing is divided by zero, the threshold stays
positive, and with nothing outstanding a channel may send. -/
theorem threshold_open (serialRange : UInt16) (hrange : 1 ≤ serialRange) (cid : UInt16) (clock : UInt64)
    (calls : List Call)
    (hcalls : Along Peer.step (fun p call => p.up = true → call.Settled p.chan.quiet) (Peer.fresh serialRange cid clock)
      calls) :
    (∀ x ∈ (Peer.fresh serialRange cid clock).samplings calls, x.Stays) ∧
      (run Peer.step (Peer.fresh serialRange cid clock) calls).chan.Open := by
  have hrange' : 1 ≤ serialRange.toNat := UInt16.le_iff_toNat_le.mp hrange
  have hstart : Ready serialRange (Peer.fresh serialRange cid clock) := by
    have hzero : (Peer.fresh serialRange cid clock).chan.sendbuf.sendable = 0 := UInt16.sub_self 0
    refine ⟨⟨rfl, (min_le_left _ _).trans (Nat.le_add_left 2 62)⟩, by simp [hzero], fun _ => hzero, ?_⟩
    rintro rfl
    exact ⟨_, SendInv.create (Nat.zero_le 15) cid clock⟩
  generalize Peer.fresh serialRange cid clock = p at hcalls hstart
  induction calls generalizing p with
  | nil => exact ⟨fun x hx => absurd hx List.not_mem_nil, hstart.open hrange'⟩
  | cons call calls ih =>
    obtain ⟨hnext, hstays⟩ := hstart.step hrange' hcalls.1
    obtain ⟨hrest, hopen⟩ := ih (p.step call) hcalls.2 hnext
    refine ⟨fun x hx => ?_, hopen⟩
    obtain hx | hx := List.mem_append.mp hx
    · exact hstays x hx
    · exact hrest x hx

/-- A round trip of 100 ms is settled. -/
theorem threshold_open_answered :
    (run Peer.step (Peer.fresh 64 0 1) (answered 1 1 100000001)).chan.Open :=
  (threshold_open 64 (by decide) 0 1 (answered 1 1 100000001) (by decide +kernel)).2

/-- Round trips one after the other, each over the same time. -/
def pings (n : Nat) (time : Nat) : List Call :=
  (List.range n).flatMap fun i =>
    answered (UInt16.ofNat (i + 1)) (UInt64.ofNat (1 + time * i)) (UInt64.ofNat (1 + time * (i + 1)))

/-- Three messages of one byte, of which two get out at the time and come back late, 14.5 ms one after the other. -/
def lateBurst (time : UInt64) : List Call :=
  let back (clock : UInt64) : Env := ⟨clock, fun _ => clock, fun _ => true, fun _ => true⟩
  let msg : Message := ⟨xpackTypeMsg, [0], one_fits⟩
  [.send msg, .send msg, .send msg, .sendPack time true, .sendPack time true,
    .recvAck (back (time + 9360000000)) ⟨xpackTypeMsg, 19, 19⟩,
      .recvAck (back (time + 9374500000)) ⟨xpackTypeMsg, 20, 20⟩]

/-- Behind 18 round trips of three seconds the rate is 0.5 ms and the estimate 32.767 s: the threshold is cut to 0. -/
theorem threshold_vanishes :
    ¬ (run Peer.step (Peer.fresh 64 0 1) (pings 18 3000000000 ++ lateBurst 54000000001)).chan.Open := by
  rintro ⟨h, -⟩
  exact absurd h (by decide +kernel)

end Wenas.Xmsger
