import Mathlib

/-!
# Messages taken block by block

A step takes one block of a message into a state. What is left of a message is kept until more of it comes: the pieces in
which a message comes do not matter.
-/
namespace Wenas.Absorb

variable {σ β : Type} (step : σ → List β → σ) (n : Nat)

/-- A number of blocks, one after the other. -/
def blocks : Nat → σ → List β → σ
  | 0, s, _ => s
  | k + 1, s, l => blocks k (step s (l.take n)) (l.drop n)

/-- All whole blocks. -/
def absorb (s : σ) (l : List β) : σ := blocks step n (l.length / n) s l

/-- What the whole blocks leave. -/
def rest (l : List β) : List β := l.drop (l.length / n * n)

variable {step n} {s : σ} {l l' : List β} {k i : Nat}

theorem blocks_append (h : k * n ≤ l.length) : blocks step n k s (l ++ l') = blocks step n k s l := by
  induction k generalizing s l with
  | zero => rfl
  | succ k ih =>
    have hn : n ≤ l.length := by
      rw [Nat.succ_mul] at h
      omega
    rw [blocks, blocks, List.take_append_of_le_length hn, List.drop_append_of_le_length hn]
    refine ih ?_
    rw [List.length_drop, Nat.succ_mul] at *
    omega

theorem blocks_add : blocks step n (k + i) s l = blocks step n i (blocks step n k s l) (l.drop (k * n)) := by
  induction k generalizing s l with
  | zero => simp [blocks]
  | succ k ih =>
    rw [Nat.succ_add, blocks, blocks, ih, List.drop_drop, Nat.succ_mul, Nat.add_comm n]

theorem length_rest : (rest n l).length = l.length % n := by
  rw [rest, List.length_drop, Nat.mod_eq_sub_div_mul]

theorem rest_of_lt (h : l.length < n) : rest n l = l := by simp [rest, Nat.div_eq_of_lt h]

theorem absorb_of_lt (h : l.length < n) : absorb step n s l = s := by simp [absorb, Nat.div_eq_of_lt h, blocks]

/-- The whole blocks of a beginning are taken first. -/
theorem absorb_append_of_dvd (hn : 0 < n) (h : n ∣ l.length) :
    absorb step n s (l ++ l') = absorb step n (absorb step n s l) l' := by
  obtain ⟨k, hk⟩ := h
  have hdiv : (l ++ l').length / n = k + l'.length / n := by
    rw [List.length_append, hk, Nat.mul_add_div hn]
  have hdivl : l.length / n = k := by rw [hk, Nat.mul_div_cancel_left k hn]
  rw [absorb, hdiv, blocks_add, blocks_append (by rw [hk, Nat.mul_comm]), List.drop_append_of_le_length (by
    rw [hk, Nat.mul_comm]), List.drop_eq_nil_of_le (by rw [hk, Nat.mul_comm]), List.nil_append, absorb, absorb, hdivl]

theorem rest_append_of_dvd (hn : 0 < n) (h : n ∣ l.length) : rest n (l ++ l') = rest n l' := by
  obtain ⟨k, hk⟩ := h
  have hdiv : (l ++ l').length / n * n = l.length + l'.length / n * n := by
    rw [List.length_append, hk, Nat.mul_add_div hn, Nat.add_mul, Nat.mul_comm k]
  rw [rest, hdiv, ← List.drop_drop, List.drop_left, rest]

theorem dvd_length_take : n ∣ (l.take (l.length / n * n)).length := by
  rw [List.length_take, Nat.min_eq_left (Nat.div_mul_le_self _ _)]
  exact Nat.dvd_mul_left ..

theorem take_append_rest : l.take (l.length / n * n) ++ rest n l = l := List.take_append_drop ..

/-- The last block is not taken before it is whole. -/
theorem absorb_take : absorb step n s (l.take (l.length / n * n)) = absorb step n s l := by
  by_cases hn : 0 < n
  · have hlt : (rest n l).length < n := by
      rw [length_rest]
      exact Nat.mod_lt _ hn
    calc absorb step n s (l.take (l.length / n * n))
      _ = absorb step n (absorb step n s (l.take (l.length / n * n))) (rest n l) := (absorb_of_lt hlt).symm
      _ = absorb step n s (l.take (l.length / n * n) ++ rest n l) := (absorb_append_of_dvd hn dvd_length_take).symm
      _ = absorb step n s l := by rw [take_append_rest]
  · obtain rfl : n = 0 := by omega
    simp [absorb, blocks]

theorem absorb_append (hn : 0 < n) : absorb step n s (l ++ l') = absorb step n (absorb step n s l) (rest n l ++ l') := by
  rw [← absorb_take (l := l), ← absorb_append_of_dvd hn dvd_length_take, ← List.append_assoc, take_append_rest]

theorem rest_append (hn : 0 < n) : rest n (l ++ l') = rest n (rest n l ++ l') := by
  conv_lhs => rw [← take_append_rest (n := n) (l := l), List.append_assoc]
  exact rest_append_of_dvd hn dvd_length_take

end Wenas.Absorb
