import Wenas.Xmsger.Link

/-!
# The early resend

An acknowledgement out of order samples the pack it names, and packs before it may be resent. The number it names is
tested against the window before the release loop moves the read position, and a resent pack carries an old number with a
fresh position: the loop then starts behind the number it runs to.
-/
namespace Wenas.Xmsger

open Wenas.Serial Wenas.Machine

/-- The pack is neither sampled nor resent already. -/
def Channel.Lags (c : Channel) (index : UInt16) : Prop :=
  let pack := c.sendbuf.buf (slot c.sendbuf.range index)
  pack.ts ≠ 0 ∧ pack.head.resend < 2

instance (c : Channel) (index : UInt16) : Decidable (c.Lags index) := inferInstanceAs (Decidable (_ ∧ _))

/-- The channel when the pack has been sent again. -/
def Channel.tried (e : Env) (index : UInt16) (c : Channel) : Channel :=
  let i := slot c.sendbuf.range index
  let pack := (c.sendbuf.buf i).again (e.resendClock index) c.recvbuf.wpos
  (c.setPack i pack).emit (.sendto pack.dgram (e.resendOk index))

/-- The turns of the resend loop: the number, and whether its pack is sent again. -/
def fastTurns (e : Env) (sn : UInt16) : Nat → UInt16 → Channel → List (UInt16 × Bool)
  | 0, _, _ => []
  | fuel + 1, index, c =>
    if index = sn then []
    else if c.Lags index then
      (index, true) :: if e.resendOk index then [] else fastTurns e sn fuel (index + 1) (c.tried e index)
    else (index, false) :: fastTurns e sn fuel (index + 1) c

/-- The acknowledgement gets to the part for those out of order. -/
def Channel.Early (ack : Ack) (c : Channel) : Prop :=
  (0 < c.sendbuf.recvable ∧ ack.sn - c.sendbuf.rpos ≤ c.sendbuf.spos - c.sendbuf.rpos) ∧ ack.sn ≠ ack.pos

/-- The channel when the release loop is through. -/
def Channel.released (e : Env) (ack : Ack) (c : Channel) : Channel :=
  releaseLoop ack.pos loopFuel { c with recvTs := e.clock, ackTs := e.clock }

/-- The turns of `recvAckEarly`. -/
def earlyTurns (e : Env) (sn : UInt16) (c : Channel) : List (UInt16 × Bool) :=
  if 3 < sn - c.sendbuf.rpos then
    fastTurns e sn loopFuel c.sendbuf.rpos (sampleUnlessDone (slot c.sendbuf.range sn) c)
  else []

/-- The slots of the packs that `recvAckEarly` samples or sends. -/
def earlySlots (e : Env) (sn : UInt16) (c : Channel) : List Nat :=
  let i := slot c.sendbuf.range sn
  (if (c.sendbuf.buf i).ts ≠ 0 then [i] else []) ++
    ((earlyTurns e sn c).filter Prod.snd).map fun t => slot c.sendbuf.range t.1

/-- The slot is that of a number between the read and the send position. -/
def Channel.Outstanding (c : Channel) (i : Nat) : Prop :=
  ∃ j < c.sendbuf.recvable.toNat, i = slot c.sendbuf.range (c.sendbuf.rpos + sn j)

instance (c : Channel) (i : Nat) : Decidable (c.Outstanding i) :=
  inferInstanceAs (Decidable (∃ j < c.sendbuf.recvable.toNat, _))

/-- The part out of order touches outstanding packs only, and its loop takes fewer turns than the ring has slots. -/
def Channel.Spares (e : Env) (ack : Ack) (c : Channel) : Prop :=
  c.Early ack →
    (∀ i ∈ earlySlots e ack.sn (c.released e ack), (c.released e ack).Outstanding i) ∧
      (earlyTurns e ack.sn (c.released e ack)).length < c.sendbuf.range.toNat

/-- The read position up to which the acknowledgement releases packs. -/
def Channel.upTo (ack : Ack) (c : Channel) : UInt16 :=
  if ack.pos - c.sendbuf.rpos ≤ c.sendbuf.spos - c.sendbuf.rpos then ack.pos else c.sendbuf.rpos

/-- One of the packs that stay outstanding, but not the one in the slot of `sn` nor one that takes a whole turn of the
ring to get to, lags and gets out. -/
def Channel.Stops (e : Env) (ack : Ack) (c : Channel) : Prop :=
  ∃ j < (c.sendbuf.spos - c.upTo ack).toNat, j + 1 < c.sendbuf.range.toNat ∧
    slot c.sendbuf.range (c.upTo ack + sn j) ≠ slot c.sendbuf.range ack.sn ∧
    c.Lags (c.upTo ack + sn j) ∧ e.resendOk (c.upTo ack + sn j) = true

/-- The acknowledged number is still outstanding; or it is the send position, with no pack cut there, or lies behind the
read position, and then the loop stops in time. -/
def Channel.Ahead (e : Env) (ack : Ack) (c : Channel) : Prop :=
  let far := ack.sn - c.upTo ack
  let left := c.sendbuf.spos - c.upTo ack
  far < left ∨
    (far = left → c.sendbuf.sendable = 0 ∨ (c.sendbuf.buf (slot c.sendbuf.range ack.sn)).ts = 0) ∧
      (far ≤ 3 ∨ (far = left ∧ left < c.sendbuf.range) ∨ c.Stops e ack)

instance (ack : Ack) (c : Channel) : Decidable (c.Early ack) := inferInstanceAs (Decidable (_ ∧ _))

instance (e : Env) (ack : Ack) (c : Channel) : Decidable (c.Spares e ack) :=
  inferInstanceAs (Decidable (_ → _ ∧ _))

/-! ### The loop and its turns -/

section

variable {e : Env} {sn : UInt16} {c : Channel}

/-- The loop by its turns. -/
theorem fastResend_eq (e : Env) (sn : UInt16) (fuel : Nat) (index : UInt16) (c : Channel) :
    fastResend e sn (fuel + 1) index c =
      if index = sn then c
      else if c.Lags index then
        if e.resendOk index then
          (c.tried e index).setPack (slot c.sendbuf.range index)
            { (c.tried e index).sendbuf.buf (slot c.sendbuf.range index) with
              timedout := Double.scale ((c.tried e index).sendbuf.buf (slot c.sendbuf.range index)).timedout }
        else fastResend e sn fuel (index + 1) (c.tried e index)
      else fastResend e sn fuel (index + 1) c := by
  have hput : (c.tried e index).sendbuf.buf (slot c.sendbuf.range index) =
      (c.sendbuf.buf (slot c.sendbuf.range index)).again (e.resendClock index) c.recvbuf.wpos := by
    simp [Channel.tried, Channel.setPack, Channel.emit]
  rw [hput]
  rfl

theorem tried_buf (e : Env) (index : UInt16) (c : Channel) {i : Nat} (h : i ≠ slot c.sendbuf.range index) :
    (c.tried e index).sendbuf.buf i = c.sendbuf.buf i := by
  simp [Channel.tried, Channel.setPack, Channel.emit, Ring.put, h]

theorem tried_range (e : Env) (index : UInt16) (c : Channel) :
    (c.tried e index).sendbuf.range = c.sendbuf.range := rfl

/-- The loop sends what its turns say, and leaves every other slot as it was. -/
theorem fastResend_touches (e : Env) (sn : UInt16) (fuel : Nat) (index : UInt16) (c : Channel) :
    (fastResend e sn fuel index c).log.length =
        c.log.length + ((fastTurns e sn fuel index c).filter Prod.snd).length ∧
      ∀ i, (∀ t ∈ (fastTurns e sn fuel index c).filter Prod.snd, i ≠ slot c.sendbuf.range t.1) →
        (fastResend e sn fuel index c).sendbuf.buf i = c.sendbuf.buf i := by
  induction fuel generalizing index c with
  | zero => exact ⟨rfl, fun _ _ => rfl⟩
  | succ fuel ih =>
    rw [fastResend_eq, fastTurns]
    by_cases hsn : index = sn
    · rw [if_pos hsn, if_pos hsn]
      exact ⟨rfl, fun _ _ => rfl⟩
    · rw [if_neg hsn, if_neg hsn]
      by_cases hlags : c.Lags index
      · rw [if_pos hlags, if_pos hlags]
        by_cases hok : e.resendOk index = true
        · rw [if_pos hok, if_pos hok]
          refine ⟨by simp [Channel.tried, Channel.setPack, Channel.emit], fun i hi => ?_⟩
          have hne : i ≠ slot c.sendbuf.range index := hi (index, true) (by simp)
          simp only [Channel.setPack]
          rw [Ring.put_buf_of_ne _ _ hne, tried_buf e index c hne]
        · rw [if_neg hok, if_neg hok]
          obtain ⟨hlog, hbuf⟩ := ih (index + 1) (c.tried e index)
          constructor
          · rw [hlog]
            simp [Channel.tried, Channel.setPack, Channel.emit]
            omega
          · intro i hi
            have hne : i ≠ slot c.sendbuf.range index := hi (index, true) (by simp)
            rw [hbuf i fun t ht => hi t (by simpa using .inr (List.mem_filter.mp ht)), tried_buf e index c hne]
      · rw [if_neg hlags, if_neg hlags]
        obtain ⟨hlog, hbuf⟩ := ih (index + 1) c
        exact ⟨by simpa using hlog, fun i hi => hbuf i fun t ht => hi t (by simpa using List.mem_filter.mp ht)⟩

/-- Each turn takes the next number. -/
theorem fastTurns_numbers (e : Env) (sn : UInt16) (fuel : Nat) (index : UInt16) (c : Channel) :
    (fastTurns e sn fuel index c).length ≤ (sn - index).toNat ∧
      ∀ t ∈ fastTurns e sn fuel index c, ∃ j < (fastTurns e sn fuel index c).length, t.1 = index + Serial.sn j := by
  induction fuel generalizing index c with
  | zero => exact ⟨Nat.zero_le _, fun t ht => absurd ht List.not_mem_nil⟩
  | succ fuel ih =>
    rw [fastTurns]
    by_cases hsn : index = sn
    · rw [if_pos hsn]
      exact ⟨Nat.zero_le _, fun t ht => absurd ht List.not_mem_nil⟩
    · rw [if_neg hsn]
      have hdist := dist_step hsn
      have hlater : ∀ (b : Bool) (c : Channel),
          ((index, b) :: fastTurns e sn fuel (index + 1) c).length ≤ (sn - index).toNat ∧
            ∀ t ∈ (index, b) :: fastTurns e sn fuel (index + 1) c,
              ∃ j < ((index, b) :: fastTurns e sn fuel (index + 1) c).length, t.1 = index + Serial.sn j := by
        intro b c
        obtain ⟨hlen, hmem⟩ := ih (index + 1) c
        refine ⟨by rw [List.length_cons]; omega, fun t ht => ?_⟩
        obtain rfl | ht := List.mem_cons.mp ht
        · exact ⟨0, by simp, by simp⟩
        · obtain ⟨j, hj, hnum⟩ := hmem t ht
          exact ⟨j + 1, by simpa using hj, by rw [hnum, ← sn_succ, UInt16.add_assoc, UInt16.add_comm 1]⟩
      split
      · split
        · refine ⟨by rw [List.length_singleton]; omega, fun t ht => ⟨0, Nat.one_pos, ?_⟩⟩
          rw [List.mem_singleton.mp ht]
          simp
        · exact hlater true _
      · exact hlater false c

end

/-! ### Where the loop stops -/

section

variable {e : Env} {sn : UInt16} {c : Channel} {k : Nat}

/-- Numbers less than a turn of the ring ahead have different slots. -/
theorem slot_add_ne (hk : k ≤ 15) (a : UInt16) {i j : Nat} (hi : i < 2 ^ k) (hj : j < 2 ^ k) (hne : i ≠ j) :
    slot (Serial.sn (2 ^ k)) (a + Serial.sn i) ≠ slot (Serial.sn (2 ^ k)) (a + Serial.sn j) := by
  have hadd : ∀ n, a + Serial.sn n = Serial.sn (a.toNat + n) := fun n => by
    apply UInt16.toNat_inj.mp
    simp [UInt16.toNat_add]
  rw [hadd, hadd, slot_sn hk, slot_sn hk]
  exact Ring.slot_ne (Nat.le_add_right _ _) (Nat.le_add_right _ _) (by omega) (by omega) (by omega)

theorem add_succ (a : UInt16) (j : Nat) : a + Serial.sn (j + 1) = a + 1 + Serial.sn j := by
  rw [← sn_succ, UInt16.add_assoc, UInt16.add_comm 1]

theorem tried_lags (e : Env) {index a : UInt16} (h : slot c.sendbuf.range a ≠ slot c.sendbuf.range index) :
    (c.tried e index).Lags a ↔ c.Lags a := by
  simp only [Channel.Lags, tried_range, tried_buf e index c h]

/-- A later pack that lags does so still when the one before has been tried. -/
theorem tried_lags_succ (hk : k ≤ 15) (hrange : c.sendbuf.range = Serial.sn (2 ^ k)) (e : Env) (index : UInt16)
    {j : Nat}
    (hj : j + 1 < 2 ^ k) : (c.tried e index).Lags (index + 1 + Serial.sn j) ↔ c.Lags (index + Serial.sn (j + 1)) := by
  rw [← add_succ]
  apply tried_lags
  have hne := slot_add_ne hk index hj (Nat.two_pow_pos k) (Nat.succ_ne_zero j)
  rw [hrange]
  simpa using hne

theorem fastTurns_stop (hk : k ≤ 15) (fuel j : Nat) (index : UInt16) (hrange : c.sendbuf.range = Serial.sn (2 ^ k))
    (hj : j < 2 ^ k) (hlags : c.Lags (index + Serial.sn j)) (hok : e.resendOk (index + Serial.sn j) = true) :
    (fastTurns e sn fuel index c).length ≤ j + 1 := by
  induction fuel generalizing j index c with
  | zero => exact Nat.zero_le _
  | succ fuel ih =>
    rw [fastTurns]
    by_cases hsn : index = sn
    · rw [if_pos hsn]
      exact Nat.zero_le _
    · rw [if_neg hsn]
      cases j with
      | zero =>
        have hzero : index + Serial.sn 0 = index := UInt16.add_zero index
        rw [hzero] at hlags hok
        rw [if_pos hlags, if_pos hok]
        exact Nat.le_refl 1
      | succ j =>
        rw [add_succ] at hok
        by_cases hfirst : c.Lags index
        · rw [if_pos hfirst]
          split
          · simp
          · have hnext := ih (c := c.tried e index) j (index + 1) hrange (by omega)
              ((tried_lags_succ hk hrange e index hj).mpr hlags) hok
            rw [List.length_cons]
            omega
        · rw [if_neg hfirst]
          rw [add_succ] at hlags
          have hnext := ih (c := c) j (index + 1) hrange (by omega) hlags hok
          rw [List.length_cons]
          omega

/-- With no pack that stops it, the loop goes on. -/
theorem fastTurns_go (hk : k ≤ 15) (m fuel : Nat) (index : UInt16) (hrange : c.sendbuf.range = Serial.sn (2 ^ k))
    (hm : m ≤ 2 ^ k) (hdist : m ≤ (sn - index).toNat) (hfuel : m ≤ fuel)
    (hgo : ∀ j, j + 1 < m → c.Lags (index + Serial.sn j) → e.resendOk (index + Serial.sn j) = false) :
    m ≤ (fastTurns e sn fuel index c).length := by
  induction m generalizing fuel index c with
  | zero => exact Nat.zero_le _
  | succ m ih =>
    cases fuel with
    | zero => omega
    | succ fuel =>
      have hsn : index ≠ sn := by
        rintro rfl
        simp at hdist
      have hstep := dist_step hsn
      rw [fastTurns, if_neg hsn]
      by_cases hfirst : c.Lags index
      · rw [if_pos hfirst, List.length_cons]
        by_cases hm' : m = 0
        · omega
        · have hzero : index + Serial.sn 0 = index := UInt16.add_zero index
          have hfail := hgo 0 (by omega) (hzero.symm ▸ hfirst)
          rw [hzero] at hfail
          rw [if_neg (by simp [hfail])]
          refine Nat.succ_le_succ (ih (c := c.tried e index) fuel (index + 1) hrange (by omega) (by omega) (by omega) ?_)
          intro j hj hlags
          rw [← add_succ]
          exact hgo (j + 1) (by omega) ((tried_lags_succ hk hrange e index (by omega)).mp hlags)
      · rw [if_neg hfirst, List.length_cons]
        refine Nat.succ_le_succ (ih (c := c) fuel (index + 1) hrange (by omega) (by omega) (by omega) ?_)
        intro j hj hlags
        rw [← add_succ] at hlags ⊢
        exact hgo (j + 1) (by omega) hlags

/-- The first pack that lags and gets out is sent again. -/
theorem fastTurns_first (hk : k ≤ 15) (j fuel : Nat) (index : UInt16) (hrange : c.sendbuf.range = Serial.sn (2 ^ k))
    (hj : j < 2 ^ k) (hdist : j < (sn - index).toNat) (hfuel : j < fuel) (hlags : c.Lags (index + Serial.sn j))
    (hgo : ∀ i < j, c.Lags (index + Serial.sn i) → e.resendOk (index + Serial.sn i) = false) :
    (index + Serial.sn j, true) ∈ fastTurns e sn fuel index c := by
  induction j generalizing fuel index c with
  | zero =>
    cases fuel with
    | zero => omega
    | succ fuel =>
      have hsn : index ≠ sn := by
        rintro rfl
        simp at hdist
      have hzero : index + Serial.sn 0 = index := UInt16.add_zero index
      rw [hzero] at hlags ⊢
      rw [fastTurns, if_neg hsn, if_pos hlags]
      exact List.mem_cons_self
  | succ j ih =>
    cases fuel with
    | zero => omega
    | succ fuel =>
      have hsn : index ≠ sn := by
        rintro rfl
        simp at hdist
      have hstep := dist_step hsn
      rw [fastTurns, if_neg hsn, add_succ]
      by_cases hfirst : c.Lags index
      · have hzero : index + Serial.sn 0 = index := UInt16.add_zero index
        have hfail := hgo 0 (by omega) (hzero.symm ▸ hfirst)
        rw [hzero] at hfail
        rw [if_pos hfirst, if_neg (by simp [hfail])]
        refine List.mem_cons_of_mem _ (ih (c := c.tried e index) fuel (index + 1) hrange (by omega) (by omega) (by omega)
          ((tried_lags_succ hk hrange e index hj).mpr hlags) ?_)
        intro i hi hlags'
        rw [← add_succ]
        exact hgo (i + 1) (by omega) ((tried_lags_succ hk hrange e index (by omega)).mp hlags')
      · rw [if_neg hfirst]
        rw [add_succ] at hlags
        refine List.mem_cons_of_mem _ (ih (c := c) fuel (index + 1) hrange (by omega) (by omega) (by omega) hlags ?_)
        intro i hi hlags'
        rw [← add_succ] at hlags' ⊢
        exact hgo (i + 1) (by omega) hlags'

end

/-! ### The part out of order -/

section

variable {e : Env} {a : UInt16} {c : Channel} {k : Nat} {past : List Event} {ms : List Message} {g : Marks}

theorem sampled_lags (i : Nat) (index : UInt16) (c : Channel) :
    (sampleUnlessDone i c).Lags index ↔ slot c.sendbuf.range index ≠ i ∧ c.Lags index := by
  have hcore := congrArg Core.sendbuf (core_sampleUnlessDone i c)
  simp only [Channel.Lags, hcore, Ring.put_range]
  by_cases hi : slot c.sendbuf.range index = i
  · simp [hi]
  · rw [Ring.put_buf_of_ne _ _ hi]
    simp [hi]

theorem mem_earlySlots {i : Nat} : i ∈ earlySlots e a c ↔
    ((c.sendbuf.buf (slot c.sendbuf.range a)).ts ≠ 0 ∧ i = slot c.sendbuf.range a) ∨
      ∃ index, (index, true) ∈ earlyTurns e a c ∧ i = slot c.sendbuf.range index := by
  unfold earlySlots
  rw [List.mem_append]
  refine or_congr ?_ ?_
  · split <;> simp_all
  · simp only [List.mem_map, List.mem_filter, Prod.exists]
    grind

theorem earlyTurns_numbers (e : Env) (a : UInt16) (c : Channel) :
    (earlyTurns e a c).length ≤ (a - c.sendbuf.rpos).toNat ∧
      ∀ t ∈ earlyTurns e a c, ∃ j < (earlyTurns e a c).length, t.1 = c.sendbuf.rpos + sn j := by
  unfold earlyTurns
  split
  · exact fastTurns_numbers e a loopFuel _ _
  · exact ⟨Nat.zero_le _, fun t ht => absurd ht List.not_mem_nil⟩

/-- What is outstanding, by numbers that do not wrap. -/
theorem SendInv.outstanding_iff (h : SendInv k past ms c.toCore g) {i : Nat} :
    c.Outstanding i ↔ ∃ j < g.sent - g.released, i = slot c.sendbuf.range (c.sendbuf.rpos + sn j) := by
  rw [Channel.Outstanding, Ring.recvable, h.ring.recvable]

theorem SendInv.slot_add (h : SendInv k past ms c.toCore g) (j : Nat) :
    slot c.sendbuf.range (c.sendbuf.rpos + sn j) = (g.released + j) % 2 ^ k := by
  have hadd : c.sendbuf.rpos + sn j = sn (g.released + j) := by
    rw [h.ring.rpos]
    apply UInt16.toNat_inj.mp
    simp [UInt16.toNat_add]
  rw [hadd, h.ring.slot_sn]

/-- The part touches outstanding packs only. -/
def Within (e : Env) (a : UInt16) (c : Channel) : Prop :=
  (∀ i ∈ earlySlots e a c, c.Outstanding i) ∧ (earlyTurns e a c).length < c.sendbuf.range.toNat

theorem SendInv.range_toNat (h : SendInv k past ms c.toCore g) : c.sendbuf.range.toNat = 2 ^ k := by
  have hsmall := h.ring.pow_le
  rw [h.ring.range, sn_toNat, Nat.mod_eq_of_lt (by omega)]

/-- Few enough turns stay within what is outstanding. -/
theorem SendInv.within_of_few (h : SendInv k past ms c.toCore g) {m : Nat} (hturns : (earlyTurns e a c).length ≤ m)
    (hleft : m ≤ g.sent - g.released) (hrange : m < 2 ^ k)
    (hsampled : (c.sendbuf.buf (slot c.sendbuf.range a)).ts ≠ 0 → c.Outstanding (slot c.sendbuf.range a)) :
    Within e a c := by
  refine ⟨fun i hi => ?_, by rw [h.range_toNat]; omega⟩
  obtain ⟨hts, rfl⟩ | ⟨index, hturn, rfl⟩ := mem_earlySlots.mp hi
  · exact hsampled hts
  · obtain ⟨j, hj, hnum⟩ := (earlyTurns_numbers e a c).2 _ hturn
    simp only at hnum
    rw [h.outstanding_iff, hnum]
    exact ⟨j, by omega, rfl⟩

/-- The loop stops in time. -/
def Halts (e : Env) (a : UInt16) (c : Channel) : Prop :=
  ∃ j < c.sendbuf.recvable.toNat, j + 1 < c.sendbuf.range.toNat ∧
    slot c.sendbuf.range (c.sendbuf.rpos + sn j) ≠ slot c.sendbuf.range a ∧
    c.Lags (c.sendbuf.rpos + sn j) ∧ e.resendOk (c.sendbuf.rpos + sn j) = true

theorem SendInv.halts_within (h : SendInv k past ms c.toCore g) (hhalts : Halts e a c)
    (hsampled : (c.sendbuf.buf (slot c.sendbuf.range a)).ts ≠ 0 → c.Outstanding (slot c.sendbuf.range a)) :
    Within e a c := by
  obtain ⟨j, hj, hroom, hslot, hlags, hok⟩ := hhalts
  rw [Ring.recvable, h.ring.recvable] at hj
  rw [h.range_toNat] at hroom
  refine h.within_of_few (m := j + 1) ?_ (by omega) hroom hsampled
  unfold earlyTurns
  split
  · have hrange : (sampleUnlessDone (slot c.sendbuf.range a) c).sendbuf.range = sn (2 ^ k) := (h.sample _).1.ring.range
    exact fastTurns_stop h.ring.small loopFuel j _ hrange (by omega) ((sampled_lags _ _ c).mpr ⟨hslot, hlags⟩) hok
  · exact Nat.zero_le _

/-- The acknowledged number is the send position, or it lies behind the read position by no more than was released. -/
def Beyond (k : Nat) (g : Marks) (a : UInt16) : Prop :=
  a = sn g.sent ∨ ∃ b, 1 ≤ b ∧ b ≤ g.released ∧ a = sn (g.released - b) ∧ g.cut + b ≤ g.released + 2 ^ k

theorem SendInv.beyond_dist (h : SendInv k past ms c.toCore g) (hbeyond : Beyond k g a) :
    (a - c.sendbuf.rpos).toNat = g.sent - g.released ∨ 2 ^ k ≤ (a - c.sendbuf.rpos).toNat ∧
      g.sent - g.released < (a - c.sendbuf.rpos).toNat := by
  have hread := h.ring.read_le
  have hsend := h.ring.send_le
  have hroom := h.ring.room
  have hsmall := h.ring.pow_le
  obtain rfl | ⟨b, hb, hle, rfl, hcut⟩ := hbeyond
  · left
    rw [h.ring.rpos]
    exact dist_forward hread (by omega)
  · right
    rw [h.ring.rpos, dist_backward (by omega) (by omega)]
    omega

/-- Beyond what is outstanding, only a pack that is cut but not sent can be taken for the acknowledged one. -/
theorem SendInv.beyond_sampled (h : SendInv k past ms c.toCore g) (hbeyond : Beyond k g a) :
    ((c.sendbuf.buf (slot c.sendbuf.range a)).ts ≠ 0 → c.Outstanding (slot c.sendbuf.range a)) ↔
      (a = c.sendbuf.spos → c.sendbuf.sendable = 0 ∨ (c.sendbuf.buf (slot c.sendbuf.range a)).ts = 0) := by
  have hread := h.ring.read_le
  have hsend := h.ring.send_le
  have hroom := h.ring.room
  have hsmall := h.ring.pow_le
  have hpos := Nat.two_pow_pos k
  obtain rfl | ⟨b, hb, hle, rfl, hcut⟩ := hbeyond
  · rw [h.ring.spos]
    have hzero : c.sendbuf.sendable = 0 ↔ g.sent = g.cut := by
      have hpositive := h.ring.sendable_pos
      rw [UInt16.lt_iff_toNat_lt, UInt16.toNat_zero] at hpositive
      rw [← UInt16.toNat_inj, UInt16.toNat_zero]
      omega
    rw [hzero]
    constructor
    · intro hout _
      by_cases hts : (c.sendbuf.buf (slot c.sendbuf.range (sn g.sent))).ts = 0
      · exact .inr hts
      · obtain ⟨j, hj, hslot⟩ := h.outstanding_iff.mp (hout hts)
        rw [h.slot_add, h.ring.slot_sn] at hslot
        left
        by_contra hcut
        exact Ring.slot_ne (r := g.released) hread (Nat.le_add_right _ j) (by omega) (by omega) (by omega) hslot
    · intro hcond hts
      obtain hcut | hts' := hcond rfl
      · have hslot : slot c.sendbuf.range (sn g.sent) < 2 ^ k := by
          rw [h.ring.slot_sn]
          exact Nat.mod_lt _ hpos
        obtain ⟨p, hp, hp', hmod⟩ := h.occupied hslot hts
        refine h.outstanding_iff.mpr ⟨p - g.released, by omega, ?_⟩
        rw [h.slot_add, Nat.add_sub_cancel' hp, hmod]
      · exact absurd hts' hts
  · have hfree : (c.sendbuf.buf (slot c.sendbuf.range (sn (g.released - b)))).ts = 0 := by
      by_contra hts
      have hslot : slot c.sendbuf.range (sn (g.released - b)) < 2 ^ k := by
        rw [h.ring.slot_sn]
        exact Nat.mod_lt _ hpos
      obtain ⟨p, hp, hp', hmod⟩ := h.occupied hslot hts
      rw [h.ring.slot_sn] at hmod
      exact Ring.slot_ne (r := g.released - b) (by omega) (by omega) (by omega) (by omega) (by omega) hmod
    constructor
    · exact fun _ _ => .inr hfree
    · exact fun _ hts => absurd hfree hts

/-- When the acknowledged number is not outstanding, the part keeps to the window exactly when no cut pack is sampled
and the loop does not run, runs to the send position, or stops in time. -/
theorem SendInv.within_beyond (h : SendInv k past ms c.toCore g) (hbeyond : Beyond k g a) : Within e a c ↔
    (a = c.sendbuf.spos → c.sendbuf.sendable = 0 ∨ (c.sendbuf.buf (slot c.sendbuf.range a)).ts = 0) ∧
      (a - c.sendbuf.rpos ≤ 3 ∨ (a - c.sendbuf.rpos = c.sendbuf.recvable ∧ c.sendbuf.recvable < c.sendbuf.range) ∨
        Halts e a c) := by
  have hread := h.ring.read_le
  have hsend := h.ring.send_le
  have hroom := h.ring.room
  have hpos := Nat.two_pow_pos k
  have hsmall := h.ring.pow_le
  have hdist := h.beyond_dist hbeyond
  have hrecvable : c.sendbuf.recvable.toNat = g.sent - g.released := h.ring.recvable
  rw [← h.beyond_sampled hbeyond]
  constructor
  · intro hwithin
    refine ⟨fun hts => hwithin.1 _ (mem_earlySlots.mpr (.inl ⟨hts, rfl⟩)), ?_⟩
    by_contra hnot
    push Not at hnot
    obtain ⟨hfar, hleft, hhalts⟩ := hnot
    have hlong : 2 ^ k ≤ (a - c.sendbuf.rpos).toNat := by
      obtain heq | ⟨hlong, -⟩ := hdist
      · have hsame : a - c.sendbuf.rpos = c.sendbuf.recvable := UInt16.toNat_inj.mp (heq.trans hrecvable.symm)
        have hfull := hleft hsame
        rw [UInt16.lt_iff_toNat_lt, h.range_toNat, hrecvable] at hfull
        omega
      · exact hlong
    set d := sampleUnlessDone (slot c.sendbuf.range a) c with hd
    have hrange : d.sendbuf.range = sn (2 ^ k) := (h.sample _).1.ring.range
    have hturns : earlyTurns e a c = fastTurns e a loopFuel c.sendbuf.rpos d := by
      rw [earlyTurns, if_pos (UInt16.not_le.mp hfar)]
    by_cases hstop : ∃ j, j + 1 < 2 ^ k ∧ d.Lags (c.sendbuf.rpos + sn j) ∧ e.resendOk (c.sendbuf.rpos + sn j) = true
    · obtain ⟨hroom', hlags, hok⟩ := Nat.find_spec hstop
      have hfirst := fun i (hi : i < Nat.find hstop) => Nat.find_min hstop hi
      generalize Nat.find hstop = j at hroom' hlags hok hfirst
      obtain ⟨hslot, hlags'⟩ := (sampled_lags _ _ c).mp hlags
      have hlate : g.sent - g.released ≤ j := by
        by_contra hlt
        exact hhalts ⟨j, by omega, by rw [h.range_toNat]; exact hroom', hslot, hlags', hok⟩
      have hturn := @fastTurns_first e a _ _ h.ring.small j loopFuel c.sendbuf.rpos hrange (by omega) (by omega)
        (by simp only [loopFuel]; omega) hlags fun i hi hlags' => by
          have hnone := hfirst i hi
          push Not at hnone
          exact Bool.eq_false_iff.mpr (hnone (by omega) hlags')
      rw [← hturns] at hturn
      obtain ⟨i, hi, hsame⟩ := h.outstanding_iff.mp (hwithin.1 _ (mem_earlySlots.mpr (.inr ⟨_, hturn, rfl⟩)))
      rw [h.slot_add, h.slot_add] at hsame
      exact Ring.slot_ne (r := g.released) (by omega) (by omega) (by omega) (by omega) (by omega) hsame
    · push Not at hstop
      have hgo := @fastTurns_go e a _ _ h.ring.small (2 ^ k) loopFuel c.sendbuf.rpos hrange le_rfl hlong
        (by simp only [loopFuel]; omega) fun j hj hlags => Bool.eq_false_iff.mpr (hstop j hj hlags)
      have hfew := hwithin.2
      rw [hturns, h.range_toNat] at hfew
      omega
  · rintro ⟨hsampled, hnear | ⟨hsame, hlt⟩ | hhalts⟩
    · refine h.within_of_few (m := 0) ?_ (Nat.zero_le _) hpos hsampled
      rw [earlyTurns, if_neg (UInt16.not_lt.mpr hnear)]
      exact le_rfl
    · rw [UInt16.lt_iff_toNat_lt, h.range_toNat, hrecvable] at hlt
      refine h.within_of_few (m := g.sent - g.released) ?_ le_rfl hlt hsampled
      have hnum := (earlyTurns_numbers e a c).1
      rwa [hsame, hrecvable] at hnum
    · exact h.halts_within hhalts hsampled

end

/-! ### From the acknowledgement on -/

section

variable {c : Channel} {k : Nat} {past : List Event} {ms : List Message} {g : Marks}

/-- A release touches the slot at the read position only. -/
theorem releaseOne_buf {i : Nat} (h : i ≠ c.sendbuf.rslot) : (releaseOne c).sendbuf.buf i = c.sendbuf.buf i := by
  have hsampled : (sampled c).sendbuf.buf i = c.sendbuf.buf i := by
    rw [congrArg Core.sendbuf (core_sampled c)]
    exact Ring.put_buf_of_ne _ _ h
  have hone : (releaseOne c).sendbuf.buf i = (releaseMsg c.sendbuf.rslot (sampled c)).sendbuf.buf i := by
    rw [congrArg Core.sendbuf (core_releaseOne c)]
  rw [hone, ← hsampled]
  unfold releaseMsg
  dsimp only
  split
  · rfl
  · split
    · rfl
    · split
      · exact Ring.put_buf_of_ne _ _ h
      · rfl

/-- What is still in the window behind the releases is as it was. -/
theorem SendInv.iterate_buf (n : Nat) (h : SendInv k past ms c.toCore g) (hn : n ≤ g.sent - g.released) {p : Nat}
    (hp : g.released + n ≤ p) (hp' : p < g.released + 2 ^ k) :
    (releaseOne^[n] c).sendbuf.buf (p % 2 ^ k) = c.sendbuf.buf (p % 2 ^ k) := by
  induction n generalizing c g with
  | zero => rfl
  | succ n ih =>
    obtain ⟨d, hnext⟩ := h.release (by omega)
    have hother : p % 2 ^ k ≠ c.sendbuf.rslot := by
      rw [h.ring.rslot]
      exact Ring.slot_ne (r := g.released) (by omega) le_rfl hp' (by omega) (by omega)
    rw [Function.iterate_succ_apply, ih hnext (by simp only; omega) (by simp only; omega) (by simp only; omega)]
    exact releaseOne_buf hother

/-- The channel behind the release loop: the read position is where the acknowledgement says, and the rest of the window
is as it was. -/
theorem SendInv.released (h : SendInv k past ms c.toCore g) (e : Env) (ack : Ack) :
    ∃ n d, g.released + n ≤ g.sent ∧
      SendInv k past ms (c.released e ack).toCore { g with released := g.released + n, done := d } ∧
      (c.released e ack).sendbuf.rpos = c.upTo ack ∧
      ∀ p, g.released + n ≤ p → p < g.released + 2 ^ k →
        (c.released e ack).sendbuf.buf (p % 2 ^ k) = c.sendbuf.buf (p % 2 ^ k) := by
  have hread := h.ring.read_le
  have hsend := h.ring.send_le
  have hroom := h.ring.room
  have hsmall := h.ring.pow_le
  have hstamp : SendInv k past ms { c with recvTs := e.clock, ackTs := e.clock }.toCore g := h
  obtain ⟨n, d, hn, hloop, hinv, ⟨hgo, hstop⟩, hpos⟩ :=
    hstamp.release_loop ack.pos loopFuel (by simp only [loopFuel]; omega)
  have hchan : c.released e ack = releaseOne^[n] { c with recvTs := e.clock, ackTs := e.clock } := hloop
  rw [hchan]
  refine ⟨n, d, by omega, hinv, ?_, fun p hp hp' => hstamp.iterate_buf n hn hp hp'⟩
  rw [hinv.ring.rpos, Channel.upTo]
  by_cases hwindow : ack.pos - c.sendbuf.rpos ≤ c.sendbuf.spos - c.sendbuf.rpos
  · rw [if_pos hwindow]
    obtain rfl | hpos := hpos
    · have hnot : releasable ack.pos c = false := hstop
      rw [releasable, decide_eq_true hwindow, Bool.true_and] at hnot
      exact h.ring.rpos.symm.trans (bne_eq_false_iff_eq.mp hnot)
    · exact hpos.symm
  · rw [if_neg hwindow]
    cases n with
    | zero => exact h.ring.rpos.symm
    | succ n =>
      have hfirst : releasable ack.pos c = true := hgo 0 (Nat.succ_pos n)
      rw [releasable, Bool.and_eq_true, decide_eq_true_eq] at hfirst
      exact absurd hfirst.1 hwindow

/-- In every send window the part out of order keeps to what is outstanding if and only if the acknowledgement does not
get there, or is ahead. -/
theorem SendInv.spares_iff (h : SendInv k past ms c.toCore g) (e : Env) (ack : Ack) :
    c.Spares e ack ↔ (c.Early ack → c.Ahead e ack) := by
  refine imp_congr_right fun ⟨⟨_, hwindow⟩, _⟩ => ?_
  have hread := h.ring.read_le
  have hsend := h.ring.send_le
  have hroom := h.ring.room
  have hsmall := h.ring.pow_le
  obtain ⟨n, d, hn, hinv, hrpos, hbuf⟩ := h.released e ack
  generalize c.released e ack = r at hinv hrpos hbuf
  have hrange : r.sendbuf.range = c.sendbuf.range := hinv.ring.range.trans h.ring.range.symm
  have hspos : r.sendbuf.spos = c.sendbuf.spos := hinv.ring.spos.trans h.ring.spos.symm
  have hwpos : r.sendbuf.wpos = c.sendbuf.wpos := hinv.ring.wpos.trans h.ring.wpos.symm
  have hleft : (c.sendbuf.spos - c.upTo ack).toNat = g.sent - (g.released + n) := by
    rw [← hspos, ← hrpos]
    exact hinv.ring.recvable
  have hspares : ((∀ i ∈ earlySlots e ack.sn r, r.Outstanding i) ∧
      (earlyTurns e ack.sn r).length < c.sendbuf.range.toNat) ↔
      Within e ack.sn r := by rw [Within, hrange]
  rw [hspares]
  by_cases hfar : ack.sn - c.upTo ack < c.sendbuf.spos - c.upTo ack
  · refine iff_of_true ?_ (.inl hfar)
    rw [UInt16.lt_iff_toNat_lt, hleft] at hfar
    have hturns := (earlyTurns_numbers e ack.sn r).1
    rw [hrpos] at hturns
    refine hinv.within_of_few hturns (Nat.le_of_lt hfar) (by omega) fun _ => ?_
    refine hinv.outstanding_iff.mpr ⟨_, hfar, ?_⟩
    rw [hrpos]
    congr 1
    simp
  · rw [Channel.Ahead, or_iff_right hfar]
    have hbeyond : Beyond k { g with released := g.released + n, done := d } ack.sn := by
      rw [UInt16.le_iff_toNat_le, h.ring.recvable, h.ring.rpos] at hwindow
      have hnumber := exists_ahead g.released ack.sn
      generalize (ack.sn - sn g.released).toNat = t at hwindow hnumber
      rw [UInt16.lt_iff_toNat_lt, hleft, ← hrpos, hinv.ring.rpos, hnumber] at hfar
      simp only at hfar
      by_cases hbehind : t < n
      · exact .inr ⟨n - t, by omega, by simp only; omega, by rw [hnumber]; simp only; congr 1; omega, by simp only; omega⟩
      · rw [dist_forward (by omega) (by omega)] at hfar
        left
        rw [hnumber]
        congr 1
        simp only
        omega
    rw [hinv.within_beyond hbeyond, hrpos, Ring.recvable, hspos, hrpos, hrange]
    refine and_congr ?_ (or_congr_right (or_congr_right ?_))
    · have hsame : ack.sn - c.upTo ack = c.sendbuf.spos - c.upTo ack ↔ ack.sn = c.sendbuf.spos := by
        constructor
        · intro heq
          have hadd := congrArg (· + c.upTo ack) heq
          simpa using hadd
        · rintro hack
          rw [hack]
      rw [hsame]
      refine imp_congr_right fun hack => ?_
      rw [Ring.sendable, hwpos, hspos, ← Ring.sendable]
      by_cases hcut : g.sent < g.cut
      · have hslot := hbuf g.sent (by omega) (by omega)
        rw [hack, h.ring.spos, h.ring.slot_sn, hslot]
      · have hnone : c.sendbuf.sendable = 0 := by
          apply UInt16.toNat_inj.mp
          rw [UInt16.toNat_zero, Ring.sendable, h.ring.sendable]
          omega
        exact iff_of_true (.inl hnone) (.inl hnone)
    · rw [Halts, Channel.Stops, hrpos, Ring.recvable, hspos, hrpos, hrange]
      refine exists_congr fun j => and_congr_right fun hj => ?_
      rw [hleft] at hj
      have hslot : slot c.sendbuf.range (c.upTo ack + sn j) = (g.released + n + j) % 2 ^ k := by
        rw [← hrange, ← hrpos]
        exact hinv.slot_add j
      simp only [Channel.Lags, hrange, hslot, hbuf (g.released + n + j) (by omega) (by omega)]

end

/-- In every state a channel gets to, with any answers from the outside, and for every acknowledgement: the part out of
order touches outstanding packs only and takes fewer turns than the ring has slots, if and only if the acknowledgement
does not get there, or is ahead. -/
theorem fast_resend {k : Nat} (hk : k ≤ 15) (cid : UInt16) (clock : UInt64) (calls : List Call) (e : Env) (ack : Ack) :
    let c := (run Peer.step (Peer.fresh (sn (2 ^ k)) cid clock) calls).chan.quiet
    c.Spares e ack ↔ (c.Early ack → c.Ahead e ack) := by
  intro c
  have hfresh : ∃ g, PeerInv k (Peer.fresh (sn (2 ^ k)) cid clock) g := ⟨_, SendInv.create hk cid clock⟩
  have hstep : ∀ p call, (∃ g, PeerInv k p g) → ∃ g, PeerInv k (p.step call) g := fun _ call ⟨_, hp⟩ => hp.step call
  obtain ⟨g, h⟩ : ∃ g, PeerInv k (run Peer.step (Peer.fresh (sn (2 ^ k)) cid clock) calls) g :=
    invariant hstep calls hfresh
  exact h.spares_iff e ack

/-- An acknowledgement of the second of two packs. -/
theorem fast_resend_second :
    let c := (run Peer.step (Peer.fresh (sn (2 ^ 6)) 0 0) [.send ⟨xpackTypeMsg, [0], one_fits⟩,
      .send ⟨xpackTypeMsg, [0], one_fits⟩, .sendPack 1 true, .sendPack 2 true]).chan.quiet
    c.Spares Env.fine ⟨xpackTypeMsg, 1, 0⟩ ↔ (c.Early ⟨xpackTypeMsg, 1, 0⟩ → c.Ahead Env.fine ⟨xpackTypeMsg, 1, 0⟩) :=
  fast_resend (by decide) 0 0 _ _ _

/-- The reading of the clock throughout a call. -/
def Env.at (clock : UInt64) : Env := ⟨clock, fun _ => clock, fun _ => true, fun _ => true⟩

/-- A pack with the acknowledgement of the first pack got lost, and so did that of the second pack. The timeout resends
the former with a fresh position, 70 us after the second pack went out; the third pack is cut by then, but not sent. -/
def freshPosition : List Move :=
  let msg : Payload := ⟨⟨xpackTypeMsg, [0], one_fits⟩, by decide, by decide⟩
  [.own .b (.send msg), .own .b (.send msg), .own .b (.sendPack 1000000 true),
    .own .a (.send msg), .own .a (.sendPack 1040000 true),
    .deliver 0 (.at 1050000), .own .a (.sendAck true),
    .deliver 1 (.at 1080000), .own .b (.sendPack 1080000 true),
    .deliver 2 (.at 1100000),
    .own .a (.send msg), .own .a (.send msg), .own .a (.sendPack 301030000 true),
    .deliver 4 (.at 301070000), .own .b (.sendAck true),
    .own .b (.resend 301100001 true)]

/-- That acknowledgement has the third pack resent. -/
theorem fast_resend_unsent :
    let s := run Link.move (Link.open 6 0 0) freshPosition
    ∃ c ∈ (s.node .a).chan, ∃ f ∈ s.net[6]?, f.src = .b ∧ ¬ c.quiet.Spares (.at 301120000) f.dgram.head.ack := by
  decide +kernel

end Wenas.Xmsger
