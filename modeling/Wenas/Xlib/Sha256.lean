import Wenas.Lib.Absorb

/-!
# `xsha256.c`

A context keeps the last block as far as it has come. However a message is cut into pieces, the digest is that of the
whole message, padded as the standard says.
-/
namespace Wenas.Xlib

open Wenas.Absorb

def rol32 (a n : UInt32) : UInt32 := (a <<< n) ||| ((a &&& 0xffffffff) >>> (32 - n))

def ror32 (a n : UInt32) : UInt32 := rol32 a (32 - n)

def ch (x y z : UInt32) : UInt32 := (x &&& y) ^^^ (~~~x &&& z)

def maj (x y z : UInt32) : UInt32 := (x &&& y) ^^^ (x &&& z) ^^^ (y &&& z)

/-- `Sigma0`. -/
def bigSigma0 (x : UInt32) : UInt32 := ror32 x 2 ^^^ ror32 x 13 ^^^ ror32 x 22

/-- `Sigma1`. -/
def bigSigma1 (x : UInt32) : UInt32 := ror32 x 6 ^^^ ror32 x 11 ^^^ ror32 x 25

def sigma0 (x : UInt32) : UInt32 := ror32 x 7 ^^^ ror32 x 18 ^^^ (x >>> 3)

def sigma1 (x : UInt32) : UInt32 := ror32 x 17 ^^^ ror32 x 19 ^^^ (x >>> 10)

/-- `K`. -/
def roundConstants : List UInt32 := [
  0x428a2f98, 0x71374491, 0xb5c0fbcf, 0xe9b5dba5,
  0x3956c25b, 0x59f111f1, 0x923f82a4, 0xab1c5ed5,
  0xd807aa98, 0x12835b01, 0x243185be, 0x550c7dc3,
  0x72be5d74, 0x80deb1fe, 0x9bdc06a7, 0xc19bf174,
  0xe49b69c1, 0xefbe4786, 0x0fc19dc6, 0x240ca1cc,
  0x2de92c6f, 0x4a7484aa, 0x5cb0a9dc, 0x76f988da,
  0x983e5152, 0xa831c66d, 0xb00327c8, 0xbf597fc7,
  0xc6e00bf3, 0xd5a79147, 0x06ca6351, 0x14292967,
  0x27b70a85, 0x2e1b2138, 0x4d2c6dfc, 0x53380d13,
  0x650a7354, 0x766a0abb, 0x81c2c92e, 0x92722c85,
  0xa2bfe8a1, 0xa81a664b, 0xc24b8b70, 0xc76c51a3,
  0xd192e819, 0xd6990624, 0xf40e3585, 0x106aa070,
  0x19a4c116, 0x1e376c08, 0x2748774c, 0x34b0bcb5,
  0x391c0cb3, 0x4ed8aa4a, 0x5b9cca4f, 0x682e6ff3,
  0x748f82ee, 0x78a5636f, 0x84c87814, 0x8cc70208,
  0x90befffa, 0xa4506ceb, 0xbef9a3f7, 0xc67178f2]

/-- `GETU32`. -/
def getU32 (p : List UInt8) : UInt32 :=
  (p.getD 0 0).toUInt32 <<< 24 ||| (p.getD 1 0).toUInt32 <<< 16 ||| (p.getD 2 0).toUInt32 <<< 8 ||| (p.getD 3 0).toUInt32

/-- `PUTU32`, which takes the low bytes of a longer number too. -/
def putU32 (v : UInt64) : List UInt8 := [(v >>> 24).toUInt8, (v >>> 16).toUInt8, (v >>> 8).toUInt8, v.toUInt8]

/-- `state[8]`, and the variables `A` to `H`. -/
structure Sha256State where
  a : UInt32
  b : UInt32
  c : UInt32
  d : UInt32
  e : UInt32
  f : UInt32
  g : UInt32
  h : UInt32
  deriving DecidableEq

namespace Sha256State

def add (s t : Sha256State) : Sha256State :=
  ⟨s.a + t.a, s.b + t.b, s.c + t.c, s.d + t.d, s.e + t.e, s.f + t.f, s.g + t.g, s.h + t.h⟩

/-- The words in turn. -/
def words (s : Sha256State) : List UInt32 := [s.a, s.b, s.c, s.d, s.e, s.f, s.g, s.h]

end Sha256State

/-- One more word of `W`, with the words before it in reverse. -/
def nextWord (W : List UInt32) : UInt32 := sigma1 (W.getD 1 0) + W.getD 6 0 + sigma0 (W.getD 14 0) + W.getD 15 0

/-- `W` after the first loops: the words of a block, and `n` more. -/
def schedule (data : List UInt8) : Nat → List UInt32
  | 0 => ((List.range 16).map fun i => getU32 (data.drop (4 * i))).reverse
  | n + 1 => nextWord (schedule data n) :: schedule data n

def round (s : Sha256State) (k w : UInt32) : Sha256State :=
  let t1 := s.h + bigSigma1 s.e + ch s.e s.f s.g + k + w
  let t2 := bigSigma0 s.a + maj s.a s.b s.c
  ⟨t1 + t2, s.a, s.b, s.c, s.d + t1, s.e, s.f, s.g⟩

/-- One turn of `sha256_compress_blocks`. -/
def compress (state : Sha256State) (data : List UInt8) : Sha256State :=
  state.add (((roundConstants.zip (schedule data 48).reverse).foldl fun s kw => round s kw.1 kw.2) state)

def sha256CompressBlocks (state : Sha256State) (data : List UInt8) (n : Nat) : Sha256State :=
  blocks compress 64 n state data

/-- `SHA256_CTX`. -/
structure Sha256Ctx where
  state : Sha256State
  nblocks : UInt64
  block : List UInt8
  num : Nat

/-- `mcopy(block + at, data, …)` and, with zeros, `mclear`. -/
def copyAt (block : List UInt8) (i : Nat) (data : List UInt8) : List UInt8 :=
  block.take i ++ data ++ block.drop (i + data.length)

def sha256Start : Sha256State :=
  ⟨0x6a09e667, 0xbb67ae85, 0x3c6ef372, 0xa54ff53a, 0x510e527f, 0x9b05688c, 0x1f83d9ab, 0x5be0cd19⟩

def sha256Init : Sha256Ctx := ⟨sha256Start, 0, List.replicate 64 0, 0⟩

/-- `sha256_update` with no block begun. -/
def sha256UpdateBlocks (ctx : Sha256Ctx) (data : List UInt8) : Sha256Ctx :=
  let blocks := data.length / 64
  let (state, nblocks) :=
    if blocks ≠ 0 then (sha256CompressBlocks ctx.state data blocks, ctx.nblocks + UInt64.ofNat blocks)
    else (ctx.state, ctx.nblocks)
  let data := data.drop (64 * blocks)
  { state, nblocks, num := data.length, block := if data.length ≠ 0 then copyAt ctx.block 0 data else ctx.block }

def sha256Update (ctx : Sha256Ctx) (data : List UInt8) : Sha256Ctx :=
  let ctx := { ctx with num := ctx.num &&& 0x3f }
  if ctx.num ≠ 0 then
    let left := 64 - ctx.num
    if data.length < left then
      { ctx with block := copyAt ctx.block ctx.num data, num := ctx.num + data.length }
    else
      let block := copyAt ctx.block ctx.num (data.take left)
      sha256UpdateBlocks { ctx with block, state := sha256CompressBlocks ctx.state block 1, nblocks := ctx.nblocks + 1 }
        (data.drop left)
  else sha256UpdateBlocks ctx data

def sha256Finish (ctx : Sha256Ctx) : List UInt8 :=
  let num := ctx.num &&& 0x3f
  let block := copyAt ctx.block num [0x80]
  let (state, block) :=
    if num ≤ 64 - 9 then (ctx.state, copyAt block (num + 1) (List.replicate (64 - num - 9) 0))
    else
      let block := copyAt block (num + 1) (List.replicate (64 - num - 1) 0)
      (sha256CompressBlocks ctx.state block 1, copyAt block 0 (List.replicate (64 - 8) 0))
  let block := copyAt block 56 (putU32 (ctx.nblocks >>> 23))
  let block := copyAt block 60 (putU32 ((ctx.nblocks <<< 9) + UInt64.ofNat (num <<< 3)))
  (sha256CompressBlocks state block 1).words.flatMap fun w => putU32 w.toUInt64

/-! ### The standard -/

/-- The eight bytes of a number, the highest first. -/
def bigEndian (n : Nat) : List UInt8 := (List.range 8).map fun i => UInt8.ofNat (n / 256 ^ (7 - i))

/-- A one, zeros and the length in bits, up to the end of a block. -/
def pad (message : List UInt8) : List UInt8 :=
  message ++ 0x80 :: List.replicate ((119 - message.length % 64) % 64) 0 ++ bigEndian (8 * message.length)

/-- The digest of a whole message. -/
def sha256 (message : List UInt8) : List UInt8 :=
  (absorb compress 64 sha256Start (pad message)).words.flatMap fun w => putU32 w.toUInt64

/-- The three letters of the standard. -/
example : sha256 [0x61, 0x62, 0x63] = [0xba, 0x78, 0x16, 0xbf, 0x8f, 0x01, 0xcf, 0xea, 0x41, 0x41, 0x40, 0xde, 0x5d, 0xae,
    0x22, 0x23, 0xb0, 0x03, 0x61, 0xa3, 0x96, 0x17, 0x7a, 0x9c, 0xb4, 0x10, 0xff, 0x61, 0xf2, 0x00, 0x15, 0xad] := by
  decide +kernel

variable {ctx : Sha256Ctx} {message data block : List UInt8} {i : Nat}

/-! ### The contexts -/

@[simp] theorem copyAt_length (h : i + data.length ≤ block.length) : (copyAt block i data).length = block.length := by
  simp only [copyAt, List.length_append, List.length_take, List.length_drop]
  omega

theorem copyAt_take (block data : List UInt8) (i : Nat) (h : i ≤ block.length) :
    (copyAt block i data).take (i + data.length) = block.take i ++ data := by
  rw [copyAt, List.take_append_of_le_length (by simp; omega), List.take_of_length_le (by simp)]

theorem copyAt_end (h : i + data.length = block.length) : copyAt block i data = block.take i ++ data := by
  rw [copyAt, h, List.drop_length, List.append_nil]

theorem mask_eq (n : Nat) : n &&& 0x3f = n % 64 := Nat.and_two_pow_sub_one_eq_mod n 6

/-- The context has taken this message. -/
structure Sha256Ctx.Took (ctx : Sha256Ctx) (message : List UInt8) : Prop where
  state : ctx.state = absorb compress 64 sha256Start message
  nblocks : ctx.nblocks = UInt64.ofNat (message.length / 64)
  length : ctx.block.length = 64
  num : ctx.num = message.length % 64
  block : ctx.block.take (message.length % 64) = rest 64 message

theorem took_init : sha256Init.Took [] where
  state := rfl
  nblocks := rfl
  length := rfl
  num := rfl
  block := rfl

theorem absorb_block {s : Sha256State} (h : block.length = 64) :
    absorb compress 64 s block = sha256CompressBlocks s block 1 := by
  rw [absorb, h]
  rfl

theorem sha256UpdateBlocks_took (hstate : ctx.state = absorb compress 64 sha256Start message)
    (hnblocks : ctx.nblocks = UInt64.ofNat (message.length / 64)) (hlength : ctx.block.length = 64)
    (hdvd : 64 ∣ message.length) : (sha256UpdateBlocks ctx data).Took (message ++ data) := by
  have hrest : data.drop (64 * (data.length / 64)) = rest 64 data := by rw [rest, Nat.mul_comm]
  have hmod : (message.length + data.length) % 64 = data.length % 64 := by omega
  have hshort : (rest 64 data).length ≤ 64 := by
    rw [length_rest]
    omega
  constructor
  · rw [absorb_append_of_dvd (by decide) hdvd, ← hstate]
    simp only [sha256UpdateBlocks]
    split
    · rfl
    · rename_i hzero
      rw [absorb, not_not.mp hzero]
      rfl
  · have hdiv : (message ++ data).length / 64 = message.length / 64 + data.length / 64 := by
      rw [List.length_append]
      omega
    rw [hdiv, UInt64.ofNat_add, ← hnblocks]
    simp only [sha256UpdateBlocks]
    split
    · rfl
    · rename_i hzero
      rw [not_not.mp hzero]
      simp
  · simp only [sha256UpdateBlocks, hrest]
    split
    · rw [copyAt_length (by omega), hlength]
    · exact hlength
  · simp only [sha256UpdateBlocks, hrest, length_rest, List.length_append, hmod]
  · simp only [sha256UpdateBlocks, hrest]
    rw [rest_append_of_dvd (by decide) hdvd, List.length_append, hmod, ← length_rest]
    split
    · have htake := copyAt_take ctx.block (rest 64 data) 0 (Nat.zero_le _)
      rwa [Nat.zero_add] at htake
    · rename_i hzero
      rw [List.length_eq_zero_iff.mp (not_not.mp hzero)]
      rfl

/-- `sha256_update` appends to the message. -/
theorem sha256Update_took (h : ctx.Took message) : (sha256Update ctx data).Took (message ++ data) := by
  have hlt : message.length % 64 < 64 := Nat.mod_lt _ (by decide)
  have hmask : ctx.num &&& 0x3f = message.length % 64 := by rw [mask_eq, h.num, Nat.mod_mod]
  have hrest : (rest 64 message).length = message.length % 64 := length_rest
  simp only [sha256Update, hmask]
  split
  · rename_i hnum
    split
    · rename_i hshort
      have hsum : (message.length + data.length) % 64 = message.length % 64 + data.length := by omega
      have hrest' : rest 64 (message ++ data) = rest 64 message ++ data := by
        rw [rest_append (by decide), rest_of_lt]
        rw [List.length_append]
        omega
      constructor
      · rw [absorb_append (by decide), absorb_of_lt]
        · exact h.state
        · rw [List.length_append]
          omega
      · have hdiv : (message ++ data).length / 64 = message.length / 64 := by
          rw [List.length_append]
          omega
        rw [hdiv]
        exact h.nblocks
      · rw [copyAt_length (by rw [h.length]; omega), h.length]
      · rw [List.length_append, hsum]
      · rw [List.length_append, hsum, copyAt_take _ _ _ (by rw [h.length]; omega), h.block, hrest']
    · rename_i hlong
      have htaken : (data.take (64 - message.length % 64)).length = 64 - message.length % 64 := by
        rw [List.length_take]
        omega
      have hblock : copyAt ctx.block (message.length % 64) (data.take (64 - message.length % 64)) =
          rest 64 message ++ data.take (64 - message.length % 64) := by
        rw [copyAt_end (by rw [htaken, h.length]; omega), h.block]
      have hlength : (rest 64 message ++ data.take (64 - message.length % 64)).length = 64 := by
        rw [List.length_append, htaken]
        omega
      rw [hblock]
      conv => rhs; rw [← List.take_append_drop (64 - message.length % 64) data, ← List.append_assoc]
      refine sha256UpdateBlocks_took ?_ ?_ hlength ?_
      · rw [absorb_append (by decide), absorb_block hlength, ← h.state]
      · have hdiv : (message ++ data.take (64 - message.length % 64)).length / 64 = message.length / 64 + 1 := by
          rw [List.length_append, htaken]
          omega
        rw [hdiv, UInt64.ofNat_add, ← h.nblocks]
        rfl
      · rw [List.length_append, htaken]
        omega
  · rename_i hnum
    exact sha256UpdateBlocks_took h.state h.nblocks h.length (Nat.dvd_of_mod_eq_zero (not_not.mp hnum))

/-! ### The end of a message -/

theorem putU32_eq (v : UInt64) : putU32 v =
    [UInt8.ofNat (v.toNat / 2 ^ 24), UInt8.ofNat (v.toNat / 2 ^ 16), UInt8.ofNat (v.toNat / 2 ^ 8), UInt8.ofNat v.toNat] := by
  have hbyte : ∀ w : UInt64, w.toUInt8 = UInt8.ofNat w.toNat := by
    intro w
    apply UInt8.toNat.inj
    simp
  simp only [putU32, hbyte, UInt64.toNat_shiftRight, Nat.shiftRight_eq_div_pow]
  rfl

theorem bigEndian_eq (n : Nat) : bigEndian n =
    [UInt8.ofNat (n / 2 ^ 56), UInt8.ofNat (n / 2 ^ 48), UInt8.ofNat (n / 2 ^ 40), UInt8.ofNat (n / 2 ^ 32),
      UInt8.ofNat (n / 2 ^ 24), UInt8.ofNat (n / 2 ^ 16), UInt8.ofNat (n / 2 ^ 8), UInt8.ofNat n] := by
  simp [bigEndian, List.range_succ]

theorem bigEndian_bits (n : Nat) : putU32 (UInt64.ofNat (n / 64) >>> 23) ++
    putU32 ((UInt64.ofNat (n / 64) <<< 9) + UInt64.ofNat ((n % 64) <<< 3)) = bigEndian (8 * n) := by
  have hhigh : (UInt64.ofNat (n / 64) >>> 23).toNat = n / 64 % 2 ^ 64 / 2 ^ 23 := by
    rw [UInt64.toNat_shiftRight, UInt64.toNat_ofNat', Nat.shiftRight_eq_div_pow]
    rfl
  have hlow : ((UInt64.ofNat (n / 64) <<< 9) + UInt64.ofNat ((n % 64) <<< 3)).toNat = 8 * n % 2 ^ 64 := by
    rw [UInt64.toNat_add, UInt64.toNat_shiftLeft, UInt64.toNat_ofNat', UInt64.toNat_ofNat', Nat.shiftLeft_eq,
      Nat.shiftLeft_eq]
    simp only [UInt64.reduceToNat, Nat.reduceMod, Nat.reducePow]
    omega
  have hbyte : ∀ a b : Nat, a % 256 = b % 256 → UInt8.ofNat a = UInt8.ofNat b := by
    intro a b hab
    apply UInt8.toNat.inj
    simpa using hab
  rw [putU32_eq, putU32_eq, hhigh, hlow, bigEndian_eq]
  simp only [List.cons_append, List.nil_append, List.cons.injEq, and_true]
  refine ⟨?_, ?_, ?_, ?_, ?_, ?_, ?_, ?_⟩ <;> exact hbyte _ _ (by omega)

/-- The length goes to the end of the last block. -/
theorem copyAt_bits {hi lo : List UInt8} (h : block.length = 64) (hhi : hi.length = 4) (hlo : lo.length = 4) :
    copyAt (copyAt block 56 hi) 60 lo = block.take 56 ++ (hi ++ lo) := by
  have hlength : (copyAt block 56 hi).length = 64 := by rw [copyAt_length (by omega), h]
  have htake := copyAt_take block hi 56 (by omega)
  rw [hhi] at htake
  rw [copyAt_end (by omega), htake, List.append_assoc]

/-- A one behind what is left of the message, and zeros up to the place `j`. -/
theorem copyAt_mark {n j : Nat} (h : block.length = 64) (hn : n < j) (hj : j ≤ 64) :
    (copyAt (copyAt block n [0x80]) (n + 1) (List.replicate (j - n - 1) 0)).take j =
      block.take n ++ 0x80 :: List.replicate (j - n - 1) 0 ∧
    (copyAt (copyAt block n [0x80]) (n + 1) (List.replicate (j - n - 1) 0)).length = 64 := by
  have hlength : (copyAt block n [0x80]).length = 64 := by rw [copyAt_length (by simp; omega), h]
  constructor
  · have htake := copyAt_take (copyAt block n [0x80]) (List.replicate (j - n - 1) 0) (n + 1) (by omega)
    rw [List.length_replicate, show n + 1 + (j - n - 1) = j by omega] at htake
    have hone := copyAt_take block [0x80] n (by omega)
    rw [List.length_singleton] at hone
    rw [htake, hone, List.append_assoc, List.singleton_append]
  · rw [copyAt_length (by rw [List.length_replicate]; omega), hlength]

/-- `sha256_finish` gives the digest of the message. -/
theorem sha256Finish_took (h : ctx.Took message) : sha256Finish ctx = sha256 message := by
  have hlt : message.length % 64 < 64 := Nat.mod_lt _ (by decide)
  have hmask : ctx.num &&& 0x3f = message.length % 64 := by rw [mask_eq, h.num, Nat.mod_mod]
  have hrest : (rest 64 message).length = message.length % 64 := length_rest
  have hbits := bigEndian_bits message.length
  rw [← h.nblocks] at hbits
  have hlength : (bigEndian (8 * message.length)).length = 8 := by simp [bigEndian]
  have hpad : pad message = message ++
      (0x80 :: List.replicate ((119 - message.length % 64) % 64) 0 ++ bigEndian (8 * message.length)) := by
    rw [pad, List.append_assoc]
  simp only [sha256Finish, hmask]
  rw [sha256, hpad, absorb_append (by decide), ← h.state]
  split
  · rename_i hsmall
    obtain ⟨htake, hblock⟩ := copyAt_mark (n := message.length % 64) (j := 56) h.length (by omega) (by decide)
    rw [show 64 - message.length % 64 - 9 = 56 - message.length % 64 - 1 by omega, copyAt_bits hblock rfl rfl, htake, hbits,
      h.block, show (119 - message.length % 64) % 64 = 56 - message.length % 64 - 1 by omega, List.append_assoc,
      absorb_block]
    simp only [List.length_append, List.length_cons, List.length_replicate, hrest, hlength]
    omega
  · rename_i hlarge
    obtain ⟨htake, hblock⟩ := copyAt_mark (n := message.length % 64) (j := 64) h.length hlt le_rfl
    rw [List.take_of_length_le hblock.le, h.block] at htake
    rw [htake] at hblock ⊢
    have hzeros := copyAt_take (rest 64 message ++ 0x80 :: List.replicate (64 - message.length % 64 - 1) 0)
      (List.replicate (64 - 8) 0) 0 (Nat.zero_le _)
    rw [List.length_replicate, Nat.zero_add, List.take_zero, List.nil_append] at hzeros
    have hpadding : rest 64 message ++
        (0x80 :: List.replicate ((119 - message.length % 64) % 64) 0 ++ bigEndian (8 * message.length)) =
        rest 64 message ++ 0x80 :: List.replicate (64 - message.length % 64 - 1) 0 ++
          (List.replicate (64 - 8) 0 ++ bigEndian (8 * message.length)) := by
      rw [show (119 - message.length % 64) % 64 = (64 - message.length % 64 - 1) + (64 - 8) by omega,
        ← List.replicate_append_replicate]
      simp only [List.append_assoc, List.cons_append]
    rw [copyAt_bits (by rw [copyAt_length (by rw [List.length_replicate]; omega), hblock]) rfl rfl, hzeros, hbits, hpadding,
      absorb_append_of_dvd (by decide) (by rw [hblock]), absorb_block hblock, absorb_block]
    rw [List.length_append, List.length_replicate, hlength]

/-- Whatever pieces a message comes in, the digest is that of the message. -/
theorem sha256_chunks (chunks : List (List UInt8)) :
    sha256Finish (chunks.foldl sha256Update sha256Init) = sha256 chunks.flatten := by
  have htook : ∀ (ctx : Sha256Ctx) (message : List UInt8), ctx.Took message →
      (chunks.foldl sha256Update ctx).Took (message ++ chunks.flatten) := by
    induction chunks with
    | nil =>
      intro ctx message h
      simpa using h
    | cons data chunks ih =>
      intro ctx message h
      rw [List.foldl_cons, List.flatten_cons, ← List.append_assoc]
      exact ih _ _ (sha256Update_took h)
  exact sha256Finish_took (htook _ _ took_init)

end Wenas.Xlib
