import Wenas.Lib.Bytes

/-!
# Lines and their parser

`xline.h`: a line is a header of nine bytes, the type and a number or a length, with the body of
that length behind it. The parser walks through the entries of an object, a key and a line each, or
through the lines of a list. Positions are 64-bit offsets from the body of the frame, so that the
header of the frame itself lies at the offset `-9`. Every byte that is looked at is logged.
-/
namespace Wenas.Xline

abbrev Mem : Type := UInt64 → UInt8

/-- A computation that looks at memory, with the offsets it looks at. -/
structure Read (α : Type) where
  val : Mem → α
  reads : Mem → List UInt64

namespace Read

variable {α β : Type}

instance : Monad Read where
  pure a := ⟨fun _ => a, fun _ => []⟩
  bind x g := ⟨fun m => (g (x.val m)).val m, fun m => x.reads m ++ (g (x.val m)).reads m⟩

@[simp] theorem val_pure (a : α) (m : Mem) : (pure a : Read α).val m = a := (rfl)

@[simp] theorem reads_pure (a : α) (m : Mem) : (pure a : Read α).reads m = [] := (rfl)

@[simp] theorem val_bind (x : Read α) (g : α → Read β) (m : Mem) : (x >>= g).val m = (g (x.val m)).val m := (rfl)

@[simp] theorem reads_bind (x : Read α) (g : α → Read β) (m : Mem) :
    (x >>= g).reads m = x.reads m ++ (g (x.val m)).reads m := (rfl)

@[simp] theorem val_ite (c : Prop) [Decidable c] (x y : Read α) (m : Mem) :
    (if c then x else y).val m = if c then x.val m else y.val m := by
  split <;> rfl

@[simp] theorem reads_ite (c : Prop) [Decidable c] (x y : Read α) (m : Mem) :
    (if c then x else y).reads m = if c then x.reads m else y.reads m := by
  split <;> rfl

@[simp] theorem val_cond (c : Bool) (x y : Read α) (m : Mem) :
    (bif c then x else y).val m = bif c then x.val m else y.val m := by
  cases c <;> rfl

@[simp] theorem reads_cond (c : Bool) (x y : Read α) (m : Mem) :
    (bif c then x else y).reads m = bif c then x.reads m else y.reads m := by
  cases c <;> rfl

end Read

def byte (a : UInt64) : Read UInt8 := ⟨fun m => m a, fun _ => [a]⟩

@[simp] theorem val_byte (a : UInt64) (m : Mem) : (byte a).val m = m a := (rfl)

@[simp] theorem reads_byte (a : UInt64) (m : Mem) : (byte a).reads m = [a] := (rfl)

def xlineTypeInt : UInt8 := 0x01
def xlineTypeUint : UInt8 := 0x02
def xlineTypeReal : UInt8 := 0x04
def xlineTypeStr : UInt8 := 0x08
def xlineTypeBin : UInt8 := 0x10
def xlineTypeObj : UInt8 := 0x20
def xlineTypeList : UInt8 := 0x40

def xlineSize : UInt64 := 9

/-- The offset of the header of a frame. -/
def frameLine : UInt64 := -9

/-! ### Headers

`le` is the choice of `__LITTLE_ENDIAN__`, on a machine that stores the low byte first. -/

def n2b (le : Bool) (n : UInt64) (type : UInt8) : List UInt8 :=
  type :: if le then Bytes.ofWord n else (Bytes.ofWord n).reverse

def b2u (le : Bool) (l : UInt64) : Read UInt64 := do
  let b1 ← byte (l + 1)
  let b2 ← byte (l + 2)
  let b3 ← byte (l + 3)
  let b4 ← byte (l + 4)
  let b5 ← byte (l + 5)
  let b6 ← byte (l + 6)
  let b7 ← byte (l + 7)
  let b8 ← byte (l + 8)
  return if le then Bytes.toWord b1 b2 b3 b4 b5 b6 b7 b8 else Bytes.toWord b8 b7 b6 b5 b4 b3 b2 b1

def typeisNum (l : UInt64) : Read Bool := do return decide ((← byte l) ≤ xlineTypeReal)

def sizeofBody (le : Bool) (l : UInt64) : Read UInt64 := do
  bif ← typeisNum l then return 8 else b2u le l

def sizeofLine (le : Bool) (l : UInt64) : Read UInt64 := do
  bif ← typeisNum l then return xlineSize else do return (← b2u le l) + xlineSize

/-! ### The parser -/

structure Parser where
  rpos : UInt64
  wpos : UInt64
  key : UInt64
  val : Option UInt64
  ptr : UInt64

def xlParser (le : Bool) (xl : UInt64) : Read Parser := do
  let wpos ← sizeofBody le xl
  return { rpos := 0, wpos := wpos, key := 0, val := none, ptr := xl + xlineSize }

def xlListNext (le : Bool) (p : Parser) : Read (Option UInt64 × Parser) := do
  if p.rpos < p.wpos then
    let size ← sizeofLine le (p.ptr + p.rpos)
    return (some (p.ptr + p.rpos), { p with rpos := p.rpos + size })
  else return (none, p)

def xlNext (le : Bool) (p : Parser) : Read (Option UInt64 × Parser) := do
  if p.rpos < p.wpos then
    let k ← byte (p.ptr + p.rpos)
    let rpos := p.rpos + (k.toUInt64 + 1)
    let size ← sizeofLine le (p.ptr + rpos)
    return (some (p.ptr + rpos), { p with key := p.ptr + p.rpos + 1, rpos := rpos + size })
  else return (none, p)

/-- A C string, without the zero at its end. -/
structure CString where
  chars : List UInt8
  noNul : 0 ∉ chars

/-- Whether the bytes at `a` are the given ones. -/
def mcompare : List UInt8 → UInt64 → Read Bool
  | [], _ => return true
  | b :: bs, a => do
    bif (← byte a) == b then mcompare bs (a + 1) else return false

/-- The body of both loops of `xl_find`: the next entry, and whether it has the key. -/
def findEntry (le : Bool) (key : CString) (p : Parser) : Read (Bool × Parser) := do
  let k ← byte (p.ptr + p.rpos)
  let rpos := p.rpos + (k.toUInt64 + 1)
  let size ← sizeofLine le (p.ptr + rpos)
  let q := { p with key := p.ptr + p.rpos, val := some (p.ptr + rpos), rpos := rpos + size }
  bif key.chars.length + 1 == k.toNat then do
    bif ← mcompare (key.chars ++ [0]) (q.key + 1) then return (true, { q with key := q.key + 1 })
    else return (false, q)
  else return (false, q)

/-- How a search ends; with lengths that wrap around it need not end. -/
inductive Found where
  | found : Parser → Found
  | missed : Parser → Found
  | running

def findLoop (le : Bool) (key : CString) (limit : UInt64) : Nat → Parser → Read Found
  | 0, _ => return .running
  | n + 1, p => do
    if p.rpos < limit then
      match ← findEntry le key p with
      | (true, q) => return .found q
      | (false, q) => findLoop le key limit n q
    else return .missed p

/-- To the end and, from the beginning, to where the search started; `n` bounds the turns of a loop. -/
def xlFind (le : Bool) (key : CString) (n : Nat) (p : Parser) : Read Found := do
  match ← findLoop le key p.wpos n p with
  | .found q => return .found q
  | .running => return .running
  | .missed q =>
    match ← findLoop le key p.rpos n { q with rpos := 0 } with
    | .found q => return .found q
    | .running => return .running
    | .missed q => return .missed { q with val := none }

/-- The first `n` turns of `slength`. -/
def slength : Nat → UInt64 → Read (Option Nat)
  | 0, _ => return none
  | n + 1, a => do
    bif (← byte a) == 0 then return some 0 else do return (← slength n (a + 1)).map (· + 1)

/-- `xl_find_word`, and the length of the word it finds. -/
def findWordLength (le : Bool) (key : CString) (n : Nat) (p : Parser) : Read Found := do
  match ← xlFind le key n p with
  | .found q =>
    match q.val with
    | some v =>
      let _ ← slength n (v + xlineSize)
      return .found q
    | none => return .found q
  | r => return r

/-! ### Which bytes a header takes -/

/-- The header of a number is one byte for the parser, any other one is nine. -/
def lineReads (m : Mem) (l : UInt64) : List UInt64 :=
  if m l ≤ xlineTypeReal then [l] else [l, l + 1, l + 2, l + 3, l + 4, l + 5, l + 6, l + 7, l + 8]

theorem reads_b2u (le : Bool) (l : UInt64) (m : Mem) :
    (b2u le l).reads m = [l + 1, l + 2, l + 3, l + 4, l + 5, l + 6, l + 7, l + 8] := rfl

@[simp] theorem reads_sizeofLine (le : Bool) (l : UInt64) (m : Mem) : (sizeofLine le l).reads m = lineReads m l := by
  by_cases h : m l ≤ xlineTypeReal <;> simp [sizeofLine, typeisNum, lineReads, h, reads_b2u]

@[simp] theorem reads_sizeofBody (le : Bool) (l : UInt64) (m : Mem) : (sizeofBody le l).reads m = lineReads m l := by
  by_cases h : m l ≤ xlineTypeReal <;> simp [sizeofBody, typeisNum, lineReads, h, reads_b2u]

/-- The bytes `bs` stand at `l`. -/
def Stands (m : Mem) (l : UInt64) (bs : List UInt8) : Prop := ∀ i < bs.length, m (l + UInt64.ofNat i) = bs.getD i 0

@[simp] theorem length_n2b (le : Bool) (n : UInt64) (type : UInt8) : (n2b le n type).length = 9 := by
  cases le <;> rfl

theorem Stands.type {le : Bool} {m : Mem} {l n : UInt64} {type : UInt8} (h : Stands m l (n2b le n type)) :
    m l = type := by
  have h0 := h 0 (by simp)
  simpa [n2b] using h0

theorem Stands.b2u {le : Bool} {m : Mem} {l n : UInt64} {type : UInt8} (h : Stands m l (n2b le n type)) :
    (Xline.b2u le l).val m = n := by
  have hb : ∀ i < 9, m (l + UInt64.ofNat i) = (n2b le n type).getD i 0 := fun i hi => h i (by simpa using hi)
  have h1 := hb 1 (by decide)
  have h2 := hb 2 (by decide)
  have h3 := hb 3 (by decide)
  have h4 := hb 4 (by decide)
  have h5 := hb 5 (by decide)
  have h6 := hb 6 (by decide)
  have h7 := hb 7 (by decide)
  have h8 := hb 8 (by decide)
  cases le with
  | false =>
    simp only [n2b, Bytes.ofWord] at h1 h2 h3 h4 h5 h6 h7 h8
    simp [Xline.b2u] at *
    rw [h1, h2, h3, h4, h5, h6, h7, h8]
    exact Bytes.toWord_ofWord n
  | true =>
    simp only [n2b, Bytes.ofWord] at h1 h2 h3 h4 h5 h6 h7 h8
    simp [Xline.b2u] at *
    rw [h1, h2, h3, h4, h5, h6, h7, h8]
    exact Bytes.toWord_ofWord n

theorem Stands.sizeofBody {le : Bool} {m : Mem} {l n : UInt64} {type : UInt8} (h : Stands m l (n2b le n type))
    (ht : ¬ type ≤ xlineTypeReal) : (Xline.sizeofBody le l).val m = n := by
  simp [Xline.sizeofBody, typeisNum, h.type, ht, h.b2u]

theorem Stands.sizeofLine {le : Bool} {m : Mem} {l n : UInt64} {type : UInt8} (h : Stands m l (n2b le n type))
    (ht : ¬ type ≤ xlineTypeReal) : (Xline.sizeofLine le l).val m = n + xlineSize := by
  simp [Xline.sizeofLine, typeisNum, h.type, ht, h.b2u]

end Wenas.Xline
