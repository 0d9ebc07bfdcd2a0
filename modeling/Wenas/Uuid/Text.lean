import Wenas.Lib.Bytes
import Wenas.Xlib.Sha256

/-!
# New identifiers, and identifiers as text

An identifier is the digest of the time, the clock and a name. As text it is 64 hexadecimal digits, and only the large
letters are read back.
-/
namespace Wenas.Uuid

open Wenas.Bytes Wenas.Xlib

/-- `slength` of a name, stored in an `int`. -/
def nameLen (userName : List UInt8) : Int := (UInt32.ofNat (userName.takeWhile (· ≠ 0)).length).toInt32.toInt

/-- `uuid_generate`, with what `__xapi->time` and `__xapi->clock` return. With a negative length `mcopy` runs out of the
seed, and there is no result. -/
def uuidGenerate (time clock : UInt64) (userName : List UInt8) : Option (List UInt8) :=
  let seed := copyAt (List.replicate 80 0) 0 (ofWord time)
  let seed := copyAt seed 8 (ofWord clock)
  let nameLen := if nameLen userName > 64 then 64 else nameLen userName
  if nameLen < 0 then none
  else
    let seed := copyAt seed 16 (userName.take nameLen.toNat)
    some (sha256Finish (sha256Update sha256Init (seed.take (nameLen.toNat + 16))))

/-- The value of a digit. -/
def digitValue (a : UInt8) : UInt8 := if 48 ≤ a ∧ a ≤ 57 then a - 48 else a - 65 + 10

def str2uuid (hexstr : List UInt8) : List UInt8 :=
  (List.range 32).map fun i => digitValue (hexstr.getD (i * 2) 0) <<< 4 ||| digitValue (hexstr.getD (i * 2 + 1) 0)

/-- `hex_chars`. -/
def hexChars : List UInt8 := [48, 49, 50, 51, 52, 53, 54, 55, 56, 57, 65, 66, 67, 68, 69, 70]

def hexPair (b : UInt8) : List UInt8 :=
  [hexChars.getD ((b >>> 4) &&& 0x0f).toNat 0, hexChars.getD (b &&& 0x0f).toNat 0]

def uuid2str (uuid : List UInt8) : List UInt8 := ((List.range 32).flatMap fun i => hexPair (uuid.getD i 0)) ++ [0]

/-! ### Generating -/

theorem takeWhile_take {p : UInt8 → Bool} (l : List UInt8) (n : Nat) (h : n ≤ (l.takeWhile p).length) :
    l.take n = (l.takeWhile p).take n := by
  conv_lhs => rw [← List.takeWhile_append_dropWhile (p := p) (l := l)]
  rw [List.take_append_of_le_length h]

/-- What an `int` keeps of a length. -/
theorem toInt_ofNat (n : Nat) : (UInt32.ofNat n).toInt32.toInt =
    if n % 2 ^ 32 < 2 ^ 31 then ((n % 2 ^ 32 : Nat) : Int) else ((n % 2 ^ 32 : Nat) : Int) - 4294967296 := by
  rw [Int32.toInt, UInt32.toBitVec_toInt32, BitVec.toInt_eq_toNat_bmod, UInt32.toNat_toBitVec, UInt32.toNat_ofNat',
    Int.bmod]
  split <;> split <;> omega

/-- The digest of the time, the clock and the name. -/
theorem uuidGenerate_name (time clock : UInt64) {userName : List UInt8} {n : Nat}
    (hn : n ≤ (userName.takeWhile (· ≠ 0)).length) (hlen : nameLen userName = n) :
    uuidGenerate time clock userName =
      some (sha256 (ofWord time ++ ofWord clock ++ (userName.takeWhile (· ≠ 0)).take (min 64 n))) := by
  have hmin : (if nameLen userName > 64 then 64 else nameLen userName) = (min 64 n : Nat) := by
    rw [hlen]
    split <;> omega
  have hname : userName.take (min 64 n) = (userName.takeWhile (· ≠ 0)).take (min 64 n) :=
    takeWhile_take userName _ ((Nat.min_le_right _ _).trans hn)
  have hcount : ((userName.takeWhile (· ≠ 0)).take (min 64 n)).length = min 64 n := by
    rw [List.length_take]
    omega
  have htime := copyAt_take (List.replicate 80 0) (ofWord time) 0 (Nat.zero_le _)
  have hclock := copyAt_take (copyAt (List.replicate 80 0) 0 (ofWord time)) (ofWord clock) 8
    (by rw [copyAt_length (by simp)]; simp)
  have hseed := copyAt_take (copyAt (copyAt (List.replicate 80 0) 0 (ofWord time)) 8 (ofWord clock))
    ((userName.takeWhile (· ≠ 0)).take (min 64 n)) 16 (by
      rw [copyAt_length (by rw [copyAt_length (by simp)]; simp), copyAt_length (by simp)]
      simp)
  simp only [length_ofWord, Nat.zero_add, List.take_zero, List.nil_append, Nat.reduceAdd] at htime hclock
  rw [hclock, htime, hcount, Nat.add_comm] at hseed
  have hpos : ¬ ((min 64 n : Nat) : Int) < 0 := by omega
  simp only [uuidGenerate, hmin, hpos, if_false, Int.toNat_natCast, hname, hseed, Option.some.injEq]
  exact sha256Finish_took (sha256Update_took took_init)

/-- The seed is the time, the clock and the name, of whose length only the low 32 bits count, and not beyond 64 bytes.
When the highest of these bits is set there is no result. -/
theorem uuidGenerate_eq (time clock : UInt64) (userName : List UInt8) :
    uuidGenerate time clock userName =
      if (userName.takeWhile (· ≠ 0)).length % 2 ^ 32 < 2 ^ 31 then
        some (sha256 (ofWord time ++ ofWord clock ++
          (userName.takeWhile (· ≠ 0)).take (min 64 ((userName.takeWhile (· ≠ 0)).length % 2 ^ 32))))
      else none := by
  generalize hname : userName.takeWhile (· ≠ 0) = name
  have hlen : nameLen userName = if name.length % 2 ^ 32 < 2 ^ 31 then ((name.length % 2 ^ 32 : Nat) : Int)
      else ((name.length % 2 ^ 32 : Nat) : Int) - 4294967296 := by
    rw [nameLen, hname, toInt_ofNat]
  split
  · rename_i hlow
    rw [if_pos hlow] at hlen
    rw [uuidGenerate_name time clock (hname ▸ Nat.mod_le _ _) hlen, hname]
  · rename_i hhigh
    rw [if_neg hhigh] at hlen
    have hneg : nameLen userName < 0 := by omega
    have hsmall : ¬ nameLen userName > 64 := by omega
    simp only [uuidGenerate, hsmall, if_false, hneg, if_true]

/-! ### Text -/

/-- The two digits of a byte make the byte again. -/
theorem hexPair_value (b : UInt8) :
    digitValue ((hexPair b).getD 0 0) <<< 4 ||| digitValue ((hexPair b).getD 1 0) = b := by
  have hbytes : ∀ n : Fin 256, digitValue ((hexPair (UInt8.ofNat n)).getD 0 0) <<< 4 |||
      digitValue ((hexPair (UInt8.ofNat n)).getD 1 0) = UInt8.ofNat n := by decide +kernel
  have hb := hbytes ⟨b.toNat, b.toNat_lt⟩
  rwa [UInt8.ofNat_toNat] at hb

/-- The digits of `hex_chars` are those of their values. -/
theorem value_hexPair : ∀ a ∈ hexChars, ∀ b ∈ hexChars, hexPair (digitValue a <<< 4 ||| digitValue b) = [a, b] := by
  decide +kernel

/-- Two bytes for each number below `n`. -/
theorem getD_pairs (f g : Nat → UInt8) {n i : Nat} (hi : i < n) (rest : List UInt8) :
    (((List.range n).flatMap fun i => [f i, g i]) ++ rest).getD (i * 2) 0 = f i ∧
      (((List.range n).flatMap fun i => [f i, g i]) ++ rest).getD (i * 2 + 1) 0 = g i := by
  induction n generalizing rest with
  | zero => omega
  | succ n ih =>
    rw [List.range_succ, List.flatMap_append, List.append_assoc]
    obtain hlt | rfl := Nat.lt_succ_iff_lt_or_eq.mp hi
    · exact ih hlt _
    · have hlength : ((List.range i).flatMap fun i => [f i, g i]).length = i * 2 := by simp [List.length_flatMap]
      constructor
      · rw [List.getD_append_right _ _ _ _ (by omega), hlength, Nat.sub_self]
        rfl
      · rw [List.getD_append_right _ _ _ _ (by omega), hlength, Nat.add_sub_cancel_left]
        rfl

theorem pairs_eq {l : List UInt8} {n : Nat} (h : l.length = 2 * n) :
    ((List.range n).flatMap fun i => [l.getD (i * 2) 0, l.getD (i * 2 + 1) 0]) = l := by
  induction n generalizing l with
  | zero => exact (List.length_eq_zero_iff.mp h).symm
  | succ n ih =>
    match l, h with
    | a :: b :: l, h =>
      have hl : l.length = 2 * n := by simpa [Nat.mul_succ] using h
      rw [List.range_succ_eq_map, List.flatMap_cons, List.flatMap_map]
      have hrest := ih hl
      simp only [Nat.succ_mul]
      simpa using hrest

/-- Reading what was written, and writing what was read in large digits, change nothing. -/
theorem uuid_text (uuid hexstr : List UInt8) (huuid : uuid.length = 32) (hlength : hexstr.length = 64)
    (hdigits : ∀ a ∈ hexstr, a ∈ hexChars) :
    str2uuid (uuid2str uuid) = uuid ∧ uuid2str (str2uuid (hexstr ++ [0])) = hexstr ++ [0] := by
  constructor
  · refine List.ext_getElem (by simp [str2uuid, huuid]) fun i hi hi' => ?_
    have hi32 : i < 32 := by simpa [str2uuid] using hi
    have hpairs := getD_pairs (fun i => (hexPair (uuid.getD i 0)).getD 0 0) (fun i => (hexPair (uuid.getD i 0)).getD 1 0) hi32
      [0]
    have hstr : uuid2str uuid = ((List.range 32).flatMap fun i =>
      [(hexPair (uuid.getD i 0)).getD 0 0, (hexPair (uuid.getD i 0)).getD 1 0]) ++ [0] := rfl
    simp only [str2uuid, List.getElem_map, List.getElem_range, hstr, hpairs, hexPair_value]
    rw [List.getD_eq_getElem _ _ hi']
  · rw [uuid2str]
    congr 1
    conv_rhs => rw [← pairs_eq (n := 32) hlength]
    refine List.flatMap_congr fun i hi => ?_
    have hi : i < 32 := List.mem_range.mp hi
    have hdigit : ∀ j < 64, (hexstr ++ [0]).getD j 0 = hexstr.getD j 0 ∧ hexstr.getD j 0 ∈ hexChars := by
      intro j hj
      rw [List.getD_append _ _ _ _ (by omega), List.getD_eq_getElem _ _ (by omega)]
      exact ⟨rfl, hdigits _ (List.getElem_mem _)⟩
    have hvalue : (str2uuid (hexstr ++ [0])).getD i 0 =
        digitValue (hexstr.getD (i * 2) 0) <<< 4 ||| digitValue (hexstr.getD (i * 2 + 1) 0) := by
      rw [List.getD_eq_getElem _ _ (by simpa [str2uuid] using hi)]
      simp only [str2uuid, List.getElem_map, List.getElem_range, (hdigit (i * 2) (by omega)).1,
        (hdigit (i * 2 + 1) (by omega)).1]
    rw [hvalue]
    exact value_hexPair _ (hdigit _ (by omega)).2 _ (hdigit _ (by omega)).2

theorem uuid_text_zeros : str2uuid (uuid2str (List.replicate 32 0)) = List.replicate 32 0 ∧
    uuid2str (str2uuid (List.replicate 64 48 ++ [0])) = List.replicate 64 48 ++ [0] :=
  uuid_text (List.replicate 32 0) (List.replicate 64 48) (by simp) (by simp) (by simp [hexChars])

end Wenas.Uuid
