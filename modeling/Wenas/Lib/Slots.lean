import Wenas.Lib.Ring

/-!
# The items of a ring

A ring whose slots may be empty holds a bag of items. A filled slot adds its item, an emptied one takes it away, and the
items of an ordered ring are those between its positions.
-/
namespace Wenas.Ring

open Wenas.Serial

variable {α : Type} {b : Ring (Option α)} {i : Nat} {x : α}

/-- The items in the slots, in the order of the slots. -/
def items (b : Ring (Option α)) : List α := (List.range b.range.toNat).filterMap b.buf

theorem filterMap_update {f : Nat → Option α} (hf : f i = none) {l : List Nat} (hl : l.Nodup) (hi : i ∈ l) :
    (l.filterMap (Function.update f i (some x))).Perm (x :: l.filterMap f) := by
  induction l with
  | nil => cases hi
  | cons j l ih =>
    obtain ⟨hj, hl⟩ := List.nodup_cons.mp hl
    rcases List.mem_cons.mp hi with rfl | hi
    · have hrest : l.filterMap (Function.update f i (some x)) = l.filterMap f := by
        refine List.filterMap_congr fun a ha => Function.update_of_ne ?_ ..
        rintro rfl
        exact hj ha
      rw [List.filterMap_cons_some (Function.update_self ..), List.filterMap_cons_none hf, hrest]
    · have hne : j ≠ i := fun heq => hj (heq ▸ hi)
      have hsame : Function.update f i (some x) j = f j := Function.update_of_ne hne ..
      cases hfj : f j with
      | none =>
        rw [List.filterMap_cons_none (hsame.trans hfj), List.filterMap_cons_none hfj]
        exact ih hl hi
      | some y =>
        rw [List.filterMap_cons_some (hsame.trans hfj), List.filterMap_cons_some hfj]
        exact ((ih hl hi).cons y).trans (List.Perm.swap x y _)

/-- An empty slot is filled. -/
theorem items_fill (hi : i < b.range.toNat) (h : b.buf i = none) : (b.put i (some x)).items.Perm (x :: b.items) :=
  filterMap_update h List.nodup_range (List.mem_range.mpr hi)

/-- A slot is emptied. -/
theorem items_empty (hi : i < b.range.toNat) (h : b.buf i = some x) : b.items.Perm (x :: (b.put i none).items) := by
  have hfill := items_fill (b := b.put i none) (x := x) hi (put_buf_self ..)
  rwa [put_put, ← h, put_self] at hfill

theorem Holds.items {k r s w : Nat} {b : Ring (Option Nat)}
    (h : b.Holds (fun n o => o = some n) (fun o => o = none) k r s w) : b.items.Perm (List.range' r (w - r)) := by
  have hlen : b.range.toNat = 2 ^ k := by
    have hpow := h.pow_le
    rw [h.range, sn_toNat]
    exact Nat.mod_eq_of_lt (lt_of_le_of_lt hpow (by decide))
  have hread := h.read_le
  have hsend := h.send_le
  -- a slot holds nothing but its own number
  have hown : ∀ j < 2 ^ k, ∀ n, b.buf j = some n → r ≤ n ∧ n < w ∧ n % 2 ^ k = j := by
    intro j hj n hn
    by_cases hused : ∃ m, r ≤ m ∧ m < w ∧ m % 2 ^ k = j
    · obtain ⟨m, hr, hw, rfl⟩ := hused
      have hm := h.used m hr hw
      rw [hn] at hm
      cases hm
      exact ⟨hr, hw, rfl⟩
    · push Not at hused
      rw [h.free j hj hused] at hn
      cases hn
  have hnodup : b.items.Nodup := by
    refine List.pairwise_filterMap.mpr (List.Pairwise.imp_of_mem ?_ List.nodup_range)
    rintro i j hi hj hne n hn m hm rfl
    rw [List.mem_range, hlen] at hi hj
    exact hne ((hown i hi n hn).2.2.symm.trans (hown j hj n hm).2.2)
  refine (List.perm_ext_iff_of_nodup hnodup List.nodup_range').mpr fun n => ?_
  rw [List.mem_range'_1]
  constructor
  · intro hn
    obtain ⟨j, hj, hn⟩ := List.mem_filterMap.mp hn
    obtain ⟨hr, hw, -⟩ := hown j (hlen ▸ List.mem_range.mp hj) n hn
    omega
  · rintro ⟨hr, hw⟩
    refine List.mem_filterMap.mpr ⟨n % 2 ^ k, ?_, h.used n hr (by omega)⟩
    rw [List.mem_range, hlen]
    exact Nat.mod_lt _ (Nat.two_pow_pos k)

end Wenas.Ring
