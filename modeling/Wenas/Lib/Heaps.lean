import Mathlib

/-!
# The order of a binary heap

The slots of a heap are numbered from 1, and the parent of slot `i` is `i / 2`. `Up` and `Down` say that the order is
broken at one slot at most, above it or below it. An exchange moves the broken slot one level.
-/
namespace Wenas.Heaps

variable {β : Type} [LinearOrder β] {k : Nat → β} {n p c i : Nat}

/-- The key of each slot is at least its parent's. -/
def Ordered (k : Nat → β) (n : Nat) : Prop := ∀ i, 2 ≤ i → i ≤ n → k (i / 2) ≤ k i

/-- The order but between a slot and its parent. -/
structure Up (k : Nat → β) (n p : Nat) : Prop where
  off : ∀ i, 2 ≤ i → i ≤ n → i ≠ p → k (i / 2) ≤ k i
  grand : 2 ≤ p → ∀ i, i / 2 = p → i ≤ n → k (p / 2) ≤ k i

/-- The order but between a slot and its children. -/
structure Down (k : Nat → β) (n p : Nat) : Prop where
  off : ∀ i, 2 ≤ i → i ≤ n → i / 2 ≠ p → k (i / 2) ≤ k i
  grand : 2 ≤ p → ∀ i, i / 2 = p → i ≤ n → k (p / 2) ≤ k i

theorem Ordered.root_le (h : Ordered k n) (hi : 1 ≤ i) (hn : i ≤ n) : k 1 ≤ k i := by
  induction i using Nat.strong_induction_on with
  | _ i ih =>
    by_cases hroot : i = 1
    · rw [hroot]
    · exact (ih (i / 2) (by omega) (by omega) (by omega)).trans (h i (by omega) hn)

theorem Ordered.congr {k' : Nat → β} (h : Ordered k n) (hk : ∀ i, 1 ≤ i → i ≤ n → k' i = k i) : Ordered k' n := by
  intro i hi hn
  rw [hk i (by omega) hn, hk (i / 2) (by omega) (by omega)]
  exact h i hi hn

/-- A new slot at the end. -/
theorem Ordered.up (h : Ordered k n) {k' : Nat → β} (hk : ∀ i, 1 ≤ i → i ≤ n → k' i = k i) : Up k' (n + 1) (n + 1) := by
  constructor
  · intro i hi hn hne
    rw [hk i (by omega) (by omega), hk (i / 2) (by omega) (by omega)]
    exact h i hi (by omega)
  · intro _ i hi hn
    omega

/-- The broken slot goes to its parent. -/
theorem Up.step (h : Up k n p) (hp : 2 ≤ p) (hn : p ≤ n) (hlt : k p < k (p / 2)) :
    Up (k ∘ Equiv.swap p (p / 2)) n (p / 2) := by
  constructor
  · intro i hi hin hne
    by_cases hip : i = p
    · subst hip
      simpa using hlt.le
    rw [Function.comp_apply, Function.comp_apply, Equiv.swap_apply_of_ne_of_ne hip hne]
    by_cases hchild : i / 2 = p
    · rw [hchild, Equiv.swap_apply_left]
      exact h.grand hp i hchild hin
    by_cases hsibling : i / 2 = p / 2
    · have hle := h.off i hi hin hip
      rw [hsibling] at hle ⊢
      rw [Equiv.swap_apply_right]
      exact hlt.le.trans hle
    · rw [Equiv.swap_apply_of_ne_of_ne hchild hsibling]
      exact h.off i hi hin hip
  · intro htop i hi hin
    have habove : k (p / 2 / 2) ≤ k (p / 2) := h.off (p / 2) htop (by omega) (by omega)
    rw [Function.comp_apply, Function.comp_apply, Equiv.swap_apply_of_ne_of_ne (by omega) (by omega)]
    by_cases hip : i = p
    · rw [hip, Equiv.swap_apply_left]
      exact habove
    · have hle := h.off i (by omega) hin hip
      rw [hi] at hle
      rw [Equiv.swap_apply_of_ne_of_ne hip (by omega)]
      exact habove.trans hle

theorem Up.finish (h : Up k n p) (hstop : 2 ≤ p → k (p / 2) ≤ k p) : Ordered k n := by
  intro i hi hn
  by_cases hip : i = p
  · subst hip
    exact hstop hi
  · exact h.off i hi hn hip

/-- The broken slot goes to the child with the smaller key. -/
theorem Down.step (h : Down k n p) (hp : 1 ≤ p) (hc : c / 2 = p) (hn : c ≤ n) (hlt : k c < k p)
    (hmin : ∀ i, i / 2 = p → i ≤ n → k c ≤ k i) : Down (k ∘ Equiv.swap p c) n c := by
  constructor
  · intro i hi hin hne
    by_cases hic : i = c
    · subst hic
      rw [Function.comp_apply, Function.comp_apply, hc, Equiv.swap_apply_left, Equiv.swap_apply_right]
      exact hlt.le
    by_cases hip : i = p
    · subst hip
      rw [Function.comp_apply, Function.comp_apply, Equiv.swap_apply_left, Equiv.swap_apply_of_ne_of_ne (by omega) hne]
      exact h.grand hi c hc hn
    rw [Function.comp_apply, Function.comp_apply, Equiv.swap_apply_of_ne_of_ne hip hic]
    by_cases hchild : i / 2 = p
    · rw [hchild, Equiv.swap_apply_left]
      exact hmin i hchild hin
    · rw [Equiv.swap_apply_of_ne_of_ne hchild hne]
      exact h.off i hi hin hchild
  · intro _ i hi hin
    rw [Function.comp_apply, Function.comp_apply, hc, Equiv.swap_apply_left,
      Equiv.swap_apply_of_ne_of_ne (by omega) (by omega)]
    have hle := h.off i (by omega) hin (by omega)
    rwa [hi] at hle

theorem Down.finish (h : Down k n p) (hstop : ∀ i, i / 2 = p → 2 ≤ i → i ≤ n → k p ≤ k i) : Ordered k n := by
  intro i hi hn
  by_cases hip : i / 2 = p
  · rw [hip]
    exact hstop i hip hi hn
  · exact h.off i hi hn hip

/-- A key that is at least the parent's is put into a slot. -/
theorem Ordered.down {k' : Nat → β} (h : Ordered k n) (hk : ∀ i, 1 ≤ i → i ≤ n → i ≠ p → k' i = k i) (hp : 1 ≤ p)
    (hn : p ≤ n) (habove : 2 ≤ p → k (p / 2) ≤ k' p) : Down k' n p := by
  constructor
  · intro i hi hin hne
    by_cases hip : i = p
    · subst hip
      rw [hk (i / 2) (by omega) (by omega) (by omega)]
      exact habove hi
    · rw [hk i (by omega) hin hip, hk (i / 2) (by omega) (by omega) hne]
      exact h i hi hin
  · intro htop i hi hin
    rw [hk i (by omega) hin (by omega), hk (p / 2) (by omega) (by omega) (by omega)]
    have hle := h i (by omega) hin
    rw [hi] at hle
    exact (h p htop hn).trans hle

/-- A key that is smaller than the parent's stays where it is put. -/
theorem Ordered.stays {k' : Nat → β} (h : Ordered k n) (hk : ∀ i, 1 ≤ i → i ≤ n → i ≠ p → k' i = k i) (hp : 2 ≤ p)
    (hn : p ≤ n) (hbelow : k' p < k (p / 2)) : ∀ i, i / 2 = p → i ≤ n → k' p ≤ k' i := by
  intro i hi hin
  have hle := h i (by omega) hin
  rw [hi] at hle
  rw [hk i (by omega) hin (by omega)]
  exact (hbelow.le.trans (h p hp hn)).trans hle

end Wenas.Heaps
