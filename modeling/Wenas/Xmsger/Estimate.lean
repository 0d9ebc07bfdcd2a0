import Wenas.Xmsger.Sampling

/-!
# The round-trip estimate as an average

The sum is that of the samples since the number of them was zero, or since it has been full: then one mean leaves it for
each sample that enters. An idle reset leaves the old sum behind, and the next sample is averaged over it and itself as if
they were one.
-/
namespace Wenas.Xmsger

open Wenas.Serial Wenas.Machine

/-- The sample that is added: a round trip, clipped to twice the estimate. -/
def Sampling.added (x : Sampling) : UInt64 :=
  let rtt := x.chan.ackTs - (x.chan.sendbuf.buf x.slot).ts
  if x.chan.rtt <<< 1 < rtt then x.chan.rtt <<< 1 else rtt

/-- The larger of the initial estimate and the largest sample so far. -/
def most (xs : List Sampling) : Nat := xs.foldl (fun m x => max m x.added.toNat) 100000000

/-- After the sampling the estimate is at most the largest sample. -/
def Bounded (xs : List Sampling) (x : Sampling) : Prop :=
  (xchannelSampling x.slot x.chan).rtt.toNat ≤ most (noted xs x)

/-- The first sample after an idle reset is at most the largest one, together with the sum that was left. -/
def FirstFits (xs : List Sampling) (x : Sampling) : Prop :=
  x.chan.rttCounter = 0 → (x.chan.rttDuration + x.added).toNat ≤ most (noted xs x)

instance (xs : List Sampling) (x : Sampling) : Decidable (Bounded xs x) := inferInstanceAs (Decidable (_ ≤ _))

theorem most_noted (xs : List Sampling) (x : Sampling) : most (noted xs x) = max (most xs) x.added.toNat := by
  simp [most, noted]

section

variable {c : Channel} {x : Sampling} {xs : List Sampling}

theorem gauge_sampleRate (kabuf : UInt64) (c : Channel) :
    (sampleRate kabuf c).rtt = c.rtt ∧ (sampleRate kabuf c).rttCounter = c.rttCounter ∧
      (sampleRate kabuf c).rttDuration = c.rttDuration := by
  unfold sampleRate setRate
  dsimp only
  repeat' split
  all_goals exact ⟨rfl, rfl, rfl⟩

/-- The sampling with fewer than 256 samples. -/
theorem sampling_few (h : x.chan.rttCounter < xchannelRttSamplingCounts) :
    (xchannelSampling x.slot x.chan).rttCounter = x.chan.rttCounter + 1 ∧
      (xchannelSampling x.slot x.chan).rttDuration = x.chan.rttDuration + x.added ∧
      (xchannelSampling x.slot x.chan).rtt = (x.chan.rttDuration + x.added) / (x.chan.rttCounter + 1).toUInt64 := by
  obtain ⟨hrtt, hcounter, hduration⟩ := gauge_sampleRate (x.chan.sendbuf.buf x.slot).kabuf
    (sampleRtt (x.chan.ackTs - (x.chan.sendbuf.buf x.slot).ts) x.chan)
  simp only [xchannelSampling, Channel.setPack, hrtt, hcounter, hduration]
  simp only [sampleRtt, if_pos h]
  exact ⟨trivial, rfl, rfl⟩

/-- The sampling with 256 samples. -/
theorem sampling_full (h : ¬ x.chan.rttCounter < xchannelRttSamplingCounts) :
    (xchannelSampling x.slot x.chan).rttCounter = x.chan.rttCounter ∧
      (xchannelSampling x.slot x.chan).rttDuration = x.chan.rttDuration + x.added - x.chan.rtt ∧
      (xchannelSampling x.slot x.chan).rtt = (x.chan.rttDuration + x.added - x.chan.rtt) >>> 8 := by
  obtain ⟨hrtt, hcounter, hduration⟩ := gauge_sampleRate (x.chan.sendbuf.buf x.slot).kabuf
    (sampleRtt (x.chan.ackTs - (x.chan.sendbuf.buf x.slot).ts) x.chan)
  simp only [xchannelSampling, Channel.setPack, hrtt, hcounter, hduration]
  simp only [sampleRtt, if_neg h]
  exact ⟨trivial, rfl, rfl⟩

end

/-! ### The average -/

/-- The sum is at most that of as many largest samples, and the estimate is the mean once 256 samples are in it. -/
structure Averaged (xs : List Sampling) (g : Gauge) : Prop where
  few : g.rttCounter.toNat ≤ 256
  sum : g.rttCounter ≠ 0 → g.rttDuration.toNat ≤ g.rttCounter.toNat * most xs
  full : g.rttCounter.toNat = 256 → g.rtt.toNat = g.rttDuration.toNat / 256

section

variable {x : Sampling} {xs : List Sampling}

theorem rttCounter_lt : x.chan.rttCounter < xchannelRttSamplingCounts ↔ x.chan.rttCounter.toNat < 256 :=
  UInt16.lt_iff_toNat_lt

/-- The mean that leaves makes room for the sample. The sums wrap around only where every sum is small enough. -/
theorem mean_leaves {d s m : Nat} (hd : d ≤ 256 * m) (hs : s ≤ m) :
    (2 ^ 64 - d / 256 + (d + s) % 2 ^ 64) % 2 ^ 64 ≤ 256 * m := by
  by_cases hm : 2 ^ 56 ≤ m
  · have hlt := Nat.mod_lt (2 ^ 64 - d / 256 + (d + s) % 2 ^ 64) (Nat.two_pow_pos 64)
    omega
  · have hall : d - d / 256 + s ≤ 256 * m := by omega
    have hone : (2 ^ 64 - d / 256 + (d + s) % 2 ^ 64) % 2 ^ 64 = (d - d / 256 + s) % 2 ^ 64 := by omega
    rw [hone, Nat.mod_eq_of_lt (by omega)]
    exact hall

theorem Averaged.sample (h : Averaged xs x.chan.gauge) (hfits : FirstFits xs x) :
    Averaged (noted xs x) (xchannelSampling x.slot x.chan).gauge ∧ Bounded xs x := by
  have hadded : x.added.toNat ≤ most (noted xs x) := by
    rw [most_noted]
    exact le_max_right _ _
  have hmost : most xs ≤ most (noted xs x) := by
    rw [most_noted]
    exact le_max_left _ _
  have hfew : x.chan.rttCounter.toNat ≤ 256 := h.few
  by_cases hlt : x.chan.rttCounter < xchannelRttSamplingCounts
  · obtain ⟨hcounter, hduration, hrtt⟩ := sampling_few hlt
    have hlt' := rttCounter_lt.mp hlt
    have hnext : (x.chan.rttCounter + 1).toNat = x.chan.rttCounter.toNat + 1 := by
      rw [UInt16.toNat_add]
      exact Nat.mod_eq_of_lt (by simp; omega)
    have hsum : (x.chan.rttDuration + x.added).toNat ≤ (x.chan.rttCounter.toNat + 1) * most (noted xs x) := by
      by_cases hzero : x.chan.rttCounter = 0
      · have hfirst := hfits hzero
        rw [hzero]
        simpa using hfirst
      · have hold : x.chan.rttDuration.toNat ≤ x.chan.rttCounter.toNat * most xs := h.sum hzero
        have hgrown := Nat.mul_le_mul_left x.chan.rttCounter.toNat hmost
        rw [UInt64.toNat_add, Nat.add_mul, Nat.one_mul]
        exact (Nat.mod_le _ _).trans (Nat.add_le_add (hold.trans hgrown) hadded)
    have hmean : (xchannelSampling x.slot x.chan).rtt.toNat =
        (x.chan.rttDuration + x.added).toNat / (x.chan.rttCounter.toNat + 1) := by
      rw [hrtt, UInt64.toNat_div, UInt16.toNat_toUInt64, hnext]
    constructor
    · refine ⟨?_, fun _ => ?_, fun hfull => ?_⟩
      · simp only [Channel.gauge, hcounter, hnext]
        omega
      · simp only [Channel.gauge, hcounter, hnext, hduration]
        exact hsum
      · simp only [Channel.gauge, hcounter, hnext] at hfull
        simp only [Channel.gauge, hduration, hmean, hfull]
    · rw [Bounded, hmean]
      exact Nat.div_le_of_le_mul hsum
  · obtain ⟨hcounter, hduration, hrtt⟩ := sampling_full hlt
    have hfull : x.chan.rttCounter.toNat = 256 := by
      have := mt rttCounter_lt.mpr hlt
      omega
    have hold : x.chan.rttDuration.toNat ≤ x.chan.rttCounter.toNat * most xs := h.sum fun hzero => by
      simp only [Channel.gauge] at hzero
      rw [hzero] at hfull
      exact absurd hfull (by decide)
    have hmean : x.chan.rtt.toNat = x.chan.rttDuration.toNat / 256 := h.full hfull
    have hsum : (x.chan.rttDuration + x.added - x.chan.rtt).toNat ≤ 256 * most (noted xs x) := by
      rw [hfull] at hold
      rw [UInt64.toNat_sub, UInt64.toNat_add, hmean]
      exact mean_leaves (by omega) hadded
    have hshift : (xchannelSampling x.slot x.chan).rtt.toNat =
        (x.chan.rttDuration + x.added - x.chan.rtt).toNat / 256 := by
      rw [hrtt, UInt64.toNat_shiftRight]
      exact Nat.shiftRight_eq_div_pow _ 8
    constructor
    · refine ⟨?_, fun _ => ?_, fun _ => ?_⟩
      · simp only [Channel.gauge, hcounter, hfull, le_refl]
      · simp only [Channel.gauge, hcounter, hfull, hduration]
        exact hsum
      · simp only [Channel.gauge, hshift, hduration]
    · rw [Bounded, hshift]
      exact Nat.div_le_of_le_mul hsum

end

theorem averaged : Tracked Averaged FirstFits where
  sample _ _ h hfits := (h.sample hfits).1
  reset _ _ _ := ⟨Nat.zero_le _, fun h => absurd rfl h, fun h => absurd h (Nat.zero_ne_add_one 255)⟩
  lower _ _ h := ⟨h.few, h.sum, h.full⟩

/-- For every run of calls on a channel, at any clock readings: each sampling leaves the estimate at most the largest
sample or the initial 100 ms, if and only if that is so for the sum that each first sample after an idle reset meets. -/
theorem rtt_average (serialRange cid : UInt16) (clock : UInt64) (calls : List Call) :
    Along noted Bounded [] ((Peer.fresh serialRange cid clock).samplings calls) ↔
      Along noted FirstFits [] ((Peer.fresh serialRange cid clock).samplings calls) := by
  constructor
  · intro h
    refine h.mono fun xs x hbounded hzero => ?_
    have hlt : x.chan.rttCounter < xchannelRttSamplingCounts := by
      rw [hzero]
      decide
    obtain ⟨-, -, hrtt⟩ := sampling_few hlt
    rw [Bounded, hrtt, hzero] at hbounded
    simpa using hbounded
  · intro h
    have hstart : Averaged [] (Peer.fresh serialRange cid clock).chan.gauge :=
      ⟨Nat.zero_le _, fun h => absurd rfl h, fun h => absurd h (Nat.zero_ne_add_one 255)⟩
    obtain ⟨-, hfound⟩ := averaged.run calls (Peer.fresh serialRange cid clock) [] hstart h
    exact hfound.both (fun xs x hx hfits => (hx.sample hfits).2) h

/-- A message of one byte is sent at a time and acknowledged at another one, and then nothing is left to send. -/
def answered (n : UInt16) (sent back : UInt64) : List Call :=
  [.send ⟨xpackTypeMsg, [0], one_fits⟩, .sendPack sent true,
    .recvAck ⟨back, fun _ => back, fun _ => true, fun _ => true⟩ ⟨xpackTypeMsg, n, n⟩]

/-- Two round trips of 100 ms with nothing in between, and the estimate is 200 ms. -/
theorem rtt_summed : ¬ Along noted Bounded []
    ((Peer.fresh 64 0 1).samplings (answered 1 1 100000001 ++ answered 2 100000001 200000001)) := by
  decide +kernel

end Wenas.Xmsger
