import Mathlib

/-!
# Sixteen-bit serial numbers over unbounded counters

A wrapping counter is read as the residue of a natural number that never wraps.
Differences, order tests and power-of-two slot indices of the residues are then
statements about the natural numbers, as long as the two counters stay within
one turn of each other.
-/
namespace Wenas.Serial

/-- The sixteen-bit field that shows the unbounded counter `n`. -/
abbrev sn (n : Nat) : UInt16 := UInt16.ofNat n

@[simp] theorem sn_toNat (n : Nat) : (sn n).toNat = n % 65536 := UInt16.toNat_ofNat'

theorem sn_succ (n : Nat) : sn n + 1 = sn (n + 1) := by
  apply UInt16.toNat_inj.mp
  simp [UInt16.toNat_add]

/-- The forward distance between two counters, as the code computes it. -/
theorem dist_forward {m n : Nat} (h : m ≤ n) (hw : n - m < 65536) :
    (sn n - sn m).toNat = n - m := by
  rw [UInt16.toNat_sub]
  simp only [sn_toNat]
  omega

/-- Looking backwards over less than a turn wraps to the far side. -/
theorem dist_backward {m n : Nat} (h : m < n) (hw : n - m < 65536) :
    (sn m - sn n).toNat = 65536 - (n - m) := by
  rw [UInt16.toNat_sub]
  simp only [sn_toNat]
  omega

theorem sn_eq_iff {m n : Nat} (h : m ≤ n) (hw : n - m < 65536) : sn m = sn n ↔ m = n := by
  constructor
  · intro he
    have := congrArg UInt16.toNat he
    simp only [sn_toNat] at this
    omega
  · rintro rfl
    rfl

/-- Every field value is the residue of a counter at most one turn ahead. -/
theorem exists_ahead (n : Nat) (a : UInt16) : a = sn (n + (a - sn n).toNat) := by
  apply UInt16.toNat_inj.mp
  have ha := a.toNat_lt
  rw [sn_toNat, UInt16.toNat_sub, sn_toNat]
  omega

/-- One step towards a different target shortens the forward distance by one. -/
theorem dist_step {a b : UInt16} (h : a ≠ b) : (b - (a + 1)).toNat + 1 = (b - a).toNat := by
  have hne : a.toNat ≠ b.toNat := by rwa [Ne, UInt16.toNat_inj]
  have ha := a.toNat_lt
  have hb := b.toNat_lt
  simp only [UInt16.toNat_sub, UInt16.toNat_add, UInt16.toNat_one]
  omega

/-- The slot of position `p` in a ring of `range` slots: `p & (range - 1)`. -/
def slot (range p : UInt16) : Nat := (p &&& (range - 1)).toNat

theorem two_pow_le {k : Nat} (hk : k ≤ 15) : 2 ^ k ≤ 32768 :=
  Nat.pow_le_pow_right (by decide) hk

theorem slot_sn {k : Nat} (hk : k ≤ 15) (n : Nat) : slot (sn (2 ^ k)) (sn n) = n % 2 ^ k := by
  have h₁ := two_pow_le hk
  have h₀ : 0 < 2 ^ k := Nat.two_pow_pos k
  have hm : (sn (2 ^ k) - 1).toNat = 2 ^ k - 1 := by
    rw [UInt16.toNat_sub, sn_toNat, UInt16.toNat_one]
    omega
  rw [slot, UInt16.toNat_and, hm, Nat.and_two_pow_sub_one_eq_mod, sn_toNat]
  exact Nat.mod_mod_of_dvd n (Nat.pow_dvd_pow 2 (by omega : k ≤ 16))

/-- A field value less than one turn ahead of `n` sits in the slot of its counter. -/
theorem slot_ahead {k : Nat} (hk : k ≤ 15) (n : Nat) (a : UInt16) :
    slot (sn (2 ^ k)) a = (n + (a - sn n).toNat) % 2 ^ k := by
  have h := slot_sn hk (n + (a - sn n).toNat)
  rwa [← exists_ahead n a] at h

theorem slot_lt {k : Nat} (hk : k ≤ 15) (a : UInt16) : slot (sn (2 ^ k)) a < 2 ^ k := by
  rw [slot_ahead hk 0 a]
  exact Nat.mod_lt _ (Nat.two_pow_pos k)

/-- Two counters less than a ring apart share a slot only when they are equal. -/
theorem mod_eq_iff {m n r : Nat} (h : m ≤ n) (hw : n < m + r) : m % r = n % r ↔ m = n := by
  constructor
  · intro he
    have hd : r ∣ n - m := (Nat.modEq_iff_dvd' h).mp he
    have hz := Nat.eq_zero_of_dvd_of_lt hd (by omega)
    omega
  · rintro rfl
    rfl

end Wenas.Serial
