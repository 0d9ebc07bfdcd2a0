import Mathlib

/-!
# The bytes of a 64-bit word

Least significant byte first; a word is put together again with shifts.
-/
namespace Wenas.Bytes

def ofWord (n : UInt64) : List UInt8 :=
  [n.toUInt8, (n >>> 8).toUInt8, (n >>> 16).toUInt8, (n >>> 24).toUInt8,
    (n >>> 32).toUInt8, (n >>> 40).toUInt8, (n >>> 48).toUInt8, (n >>> 56).toUInt8]

def toWord (b0 b1 b2 b3 b4 b5 b6 b7 : UInt8) : UInt64 :=
  b0.toUInt64 ||| b1.toUInt64 <<< 8 ||| b2.toUInt64 <<< 16 ||| b3.toUInt64 <<< 24 |||
    b4.toUInt64 <<< 32 ||| b5.toUInt64 <<< 40 ||| b6.toUInt64 <<< 48 ||| b7.toUInt64 <<< 56

@[simp] theorem length_ofWord (n : UInt64) : (ofWord n).length = 8 := rfl

theorem getLsbD_mod_256 (x : BitVec 64) (j : Nat) : (x % 256#64).getLsbD j = (decide (j < 8) && x.getLsbD j) := by
  have hx : x % 256#64 = (x.setWidth 8).setWidth 64 := by
    apply BitVec.eq_of_toNat_eq
    simp
    omega
  rw [hx]
  simp only [BitVec.getLsbD_setWidth]
  by_cases hj : j < 8
  · have hj' : j < 64 := by omega
    simp [hj, hj']
  · simp [hj]

/-- The bytes of a word make the word again. -/
theorem toWord_ofWord (n : UInt64) :
    toWord n.toUInt8 (n >>> 8).toUInt8 (n >>> 16).toUInt8 (n >>> 24).toUInt8
      (n >>> 32).toUInt8 (n >>> 40).toUInt8 (n >>> 48).toUInt8 (n >>> 56).toUInt8 = n := by
  apply UInt64.toBitVec_inj.mp
  apply BitVec.eq_of_getLsbD_eq
  intro i hi
  simp [toWord, getLsbD_mod_256]
  interval_cases i <;> simp

end Wenas.Bytes
