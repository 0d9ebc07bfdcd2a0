import Wenas.Lib.Bytes
import Wenas.Xline.Parser

/-!
# The two byte orders

The macros of `xline.h` exist twice. The encoder works on the bytes of a number in memory, which
are in the order of the host; the decoder of integers works with shifts, and the decoder of reals
puts the bytes back into memory. Both encoders write the low byte first. The decoder of integers of
the big-endian build takes the first byte for the high one.
-/
namespace Wenas.Xline

/-- The build for a host that stores the low byte first, and the one for a host that stores it last. -/
inductive Build where
  | little
  | big
  deriving DecidableEq, Repr

/-- The bytes of a line. -/
structure Line where
  type : UInt8
  b1 : UInt8
  b2 : UInt8
  b3 : UInt8
  b4 : UInt8
  b5 : UInt8
  b6 : UInt8
  b7 : UInt8
  b8 : UInt8
  deriving DecidableEq, Repr

/-- Eight bytes in memory. -/
structure Cell where
  m0 : UInt8
  m1 : UInt8
  m2 : UInt8
  m3 : UInt8
  m4 : UInt8
  m5 : UInt8
  m6 : UInt8
  m7 : UInt8
  deriving DecidableEq, Repr

def Cell.reverse (c : Cell) : Cell := ⟨c.m7, c.m6, c.m5, c.m4, c.m3, c.m2, c.m1, c.m0⟩

def Cell.low (n : UInt64) : Cell :=
  ⟨n.toUInt8, (n >>> 8).toUInt8, (n >>> 16).toUInt8, (n >>> 24).toUInt8,
    (n >>> 32).toUInt8, (n >>> 40).toUInt8, (n >>> 48).toUInt8, (n >>> 56).toUInt8⟩

def Cell.word (c : Cell) : UInt64 := Bytes.toWord c.m0 c.m1 c.m2 c.m3 c.m4 c.m5 c.m6 c.m7

/-- A number in the memory of the host. -/
def Build.store (h : Build) (n : UInt64) : Cell :=
  match h with
  | .little => Cell.low n
  | .big => (Cell.low n).reverse

/-- The number in the memory of the host. -/
def Build.load (h : Build) (c : Cell) : UInt64 :=
  match h with
  | .little => c.word
  | .big => c.reverse.word

def Build.n2b (h : Build) (n : UInt64) (type : UInt8) : Line :=
  let c := h.store n
  match h with
  | .little => ⟨type, c.m0, c.m1, c.m2, c.m3, c.m4, c.m5, c.m6, c.m7⟩
  | .big => ⟨type, c.m7, c.m6, c.m5, c.m4, c.m3, c.m2, c.m1, c.m0⟩

def Build.u2b (h : Build) (n : UInt64) : Line := h.n2b n xlineTypeUint

def Build.i2b (h : Build) (i : Int64) : Line := h.n2b i.toUInt64 xlineTypeInt

/-- A real is its bits. -/
def Build.f2b (h : Build) (x : UInt64) : Line := h.n2b x xlineTypeReal

def Build.b2u (h : Build) (l : Line) : UInt64 :=
  match h with
  | .little => Bytes.toWord l.b1 l.b2 l.b3 l.b4 l.b5 l.b6 l.b7 l.b8
  | .big => Bytes.toWord l.b8 l.b7 l.b6 l.b5 l.b4 l.b3 l.b2 l.b1

def Build.b2i (h : Build) (l : Line) : Int64 := (h.b2u l).toInt64

def Build.b2float (h : Build) (l : Line) : UInt64 :=
  match h with
  | .little => h.load ⟨l.b1, l.b2, l.b3, l.b4, l.b5, l.b6, l.b7, l.b8⟩
  | .big => h.load ⟨l.b8, l.b7, l.b6, l.b5, l.b4, l.b3, l.b2, l.b1⟩

def Build.sizeofLine (h : Build) (l : Line) : UInt64 :=
  if l.type ≤ xlineTypeReal then xlineSize else h.b2u l + xlineSize

/-- The number with its bytes in the other order. -/
def swap (n : UInt64) : UInt64 := (Cell.low n).reverse.word

/-- What one build encodes, the other (or the same) build decodes. -/
structure Speaks (enc dec : Build) (n x : UInt64) : Prop where
  uint : dec.b2u (enc.u2b n) = n
  int : dec.b2i (enc.i2b n.toInt64) = n.toInt64
  real : dec.b2float (enc.f2b x) = x
  size : ∀ type, dec.sizeofLine (enc.n2b n type) = enc.sizeofLine (enc.n2b n type)

/-- All four pairings of an encoder and a decoder. -/
def OneFormat (n x : UInt64) : Prop := ∀ enc dec, Speaks enc dec n x

theorem word_low (n : UInt64) : (Cell.low n).word = n := Bytes.toWord_ofWord n

/-- Both encoders write the same line, with the low byte first. -/
theorem n2b_eq (h : Build) (n : UInt64) (type : UInt8) : h.n2b n type = Build.little.n2b n type := by
  cases h <;> rfl

theorem b2u_little (h : Build) (n : UInt64) (type : UInt8) : Build.little.b2u (h.n2b n type) = n := by
  rw [n2b_eq]
  exact word_low n

theorem b2u_big (h : Build) (n : UInt64) (type : UInt8) : Build.big.b2u (h.n2b n type) = swap n := by
  rw [n2b_eq]
  rfl

theorem b2float_f2b (enc dec : Build) (x : UInt64) : dec.b2float (enc.f2b x) = x := by
  rw [Build.f2b, n2b_eq]
  cases dec <;> exact word_low x

/-- The two builds agree on a number exactly if its bytes read the same in both orders. -/
theorem one_format (n x : UInt64) : OneFormat n x ↔ swap n = n := by
  constructor
  · intro h
    have huint := (h .little .big).uint
    rwa [Build.u2b, b2u_big] at huint
  · intro hswap enc dec
    have hdec : ∀ type, dec.b2u (enc.n2b n type) = n := by
      intro type
      cases dec with
      | little => exact b2u_little enc n type
      | big => rw [b2u_big, hswap]
    have henc : ∀ type, enc.b2u (enc.n2b n type) = n := by
      intro type
      cases enc with
      | little => exact b2u_little .little n type
      | big => rw [b2u_big, hswap]
    constructor
    · exact hdec _
    · simp only [Build.b2i, Build.i2b, UInt64.toUInt64_toInt64, hdec]
    · exact b2float_f2b enc dec x
    · intro type
      simp only [Build.sizeofLine, hdec, henc]

/-- The big-endian build reads its own 1 as `2 ^ 56`. -/
theorem big_reads_other : Build.big.b2u (Build.big.u2b 1) = 2 ^ 56 ∧ ¬ OneFormat 1 0 := by
  refine ⟨by decide, ?_⟩
  intro h
  exact absurd (h .big .big).uint (by decide)

end Wenas.Xline
