import Wenas.Xline.Bounds
import Wenas.Xline.Contents

/-!
# The values of a line

An object is a row of entries with keys, a list a row of items without, and both may hold objects and lists.
The bytes of a value are a header and, behind it, the body; the bytes of an object or a list are those of its entries.
-/
namespace Wenas.Xline

/-- What an entry of an object has in front of its value, and an item of a list has not. -/
abbrev Label : Kind → Type
  | .obj => Key
  | .list => Unit

inductive Scalar where
  | int (n : UInt64)
  | uint (n : UInt64)
  | real (bits : UInt64)
  | str (bs : List UInt8)
  | bin (bs : List UInt8)

/-- The entries of an object or the items of a list. -/
inductive Tree : Kind → Type where
  | nil {k : Kind} : Tree k
  | leaf {k : Kind} (label : Label k) (s : Scalar) (rest : Tree k) : Tree k
  | node {k inner : Kind} (label : Label k) (content : Tree inner) (rest : Tree k) : Tree k

inductive Value where
  | scalar (s : Scalar)
  | nested {k : Kind} (content : Tree k)

def labelBytes : {k : Kind} → Label k → List UInt8
  | .obj, key => key.entry
  | .list, _ => []

namespace Scalar

def type : Scalar → UInt8
  | .int _ => xlineTypeInt
  | .uint _ => xlineTypeUint
  | .real _ => xlineTypeReal
  | .str _ => xlineTypeStr
  | .bin _ => xlineTypeBin

def body : Scalar → List UInt8
  | .str bs => bs
  | .bin bs => bs
  | _ => []

/-- The number in the header, a value or the length of the body. -/
def word : Scalar → UInt64
  | .int n => n
  | .uint n => n
  | .real bits => bits
  | .str bs => UInt64.ofNat bs.length
  | .bin bs => UInt64.ofNat bs.length

def bytes (le : Bool) (s : Scalar) : List UInt8 := n2b le s.word s.type ++ s.body

end Scalar

namespace Tree

variable {k inner : Kind}

def bytes (le : Bool) : {k : Kind} → Tree k → List UInt8
  | _, .nil => []
  | _, .leaf label s rest => labelBytes label ++ (s.bytes le ++ rest.bytes le)
  | _, @node _ inner label content rest =>
    labelBytes label ++ (n2b le (UInt64.ofNat (content.bytes le).length) inner.type ++ content.bytes le ++ rest.bytes le)

def append : {k : Kind} → Tree k → Tree k → Tree k
  | _, .nil, t => t
  | _, .leaf label s rest, t => .leaf label s (rest.append t)
  | _, .node label content rest, t => .node label content (rest.append t)

/-- The entries of the object or the items of the list themselves. -/
def entries : {k : Kind} → Tree k → List (Label k × Value)
  | _, .nil => []
  | _, .leaf label s rest => (label, .scalar s) :: rest.entries
  | _, .node label content rest => (label, .nested content) :: rest.entries

/-- The turns that a walk through all of it takes. -/
def turns : {k : Kind} → Tree k → Nat
  | _, .nil => 1
  | _, .leaf _ _ rest => rest.turns + 1
  | _, .node _ content rest => content.turns + rest.turns + 1

end Tree

namespace Value

def type : Value → UInt8
  | .scalar s => s.type
  | .nested (k := k) _ => k.type

def body (le : Bool) : Value → List UInt8
  | .scalar s => s.body
  | .nested content => content.bytes le

def word (le : Bool) : Value → UInt64
  | .scalar s => s.word
  | .nested content => UInt64.ofNat (content.bytes le).length

def bytes (le : Bool) (v : Value) : List UInt8 := n2b le (v.word le) v.type ++ v.body le

/-- The value in front of the other entries. -/
def cons {k : Kind} (label : Label k) (v : Value) (rest : Tree k) : Tree k :=
  match v with
  | .scalar s => .leaf label s rest
  | .nested content => .node label content rest

end Value

/-- The bytes of one entry. -/
def entryBytes (le : Bool) {k : Kind} (e : Label k × Value) : List UInt8 := labelBytes e.1 ++ e.2.bytes le

section

variable {le : Bool} {k : Kind}

@[simp] theorem Value.bytes_cons (label : Label k) (v : Value) (rest : Tree k) :
    (v.cons label rest).bytes le = entryBytes le (label, v) ++ rest.bytes le := by
  cases v <;> simp [Value.cons, Tree.bytes, entryBytes, Value.bytes, Scalar.bytes, Value.word, Value.type, Value.body]

@[simp] theorem Value.entries_cons (label : Label k) (v : Value) (rest : Tree k) :
    (v.cons label rest).entries = (label, v) :: rest.entries := by
  cases v <;> rfl

theorem Tree.bytes_entries (t : Tree k) : t.bytes le = t.entries.flatMap (entryBytes le) := by
  induction t with
  | nil => rfl
  | leaf label s rest ih => simp [bytes, entries, entryBytes, Value.bytes, Scalar.bytes, Value.word, Value.type,
    Value.body, ih]
  | node label content rest _ ih => simp [bytes, entries, entryBytes, Value.bytes, Value.word, Value.type,
    Value.body, ih]

@[simp] theorem Tree.entries_append (t t' : Tree k) : (t.append t').entries = t.entries ++ t'.entries := by
  induction t with
  | nil => rfl
  | leaf label s rest ih => simp [append, entries, ih]
  | node label content rest _ ih => simp [append, entries, ih]

@[simp] theorem Tree.bytes_append (t t' : Tree k) : (t.append t').bytes le = t.bytes le ++ t'.bytes le := by
  simp [bytes_entries]

/-- A header gives the number of a value, or the length of its body. -/
theorem Value.shape (le : Bool) (v : Value) :
    (v.type ≤ xlineTypeReal ∧ v.body le = []) ∨
      (¬ v.type ≤ xlineTypeReal ∧ v.word le = UInt64.ofNat (v.body le).length) := by
  cases v with
  | scalar s =>
    cases s with
    | int n => exact .inl ⟨(by decide : xlineTypeInt ≤ xlineTypeReal), rfl⟩
    | uint n => exact .inl ⟨(by decide : xlineTypeUint ≤ xlineTypeReal), rfl⟩
    | real n => exact .inl ⟨(by decide : xlineTypeReal ≤ xlineTypeReal), rfl⟩
    | str bs => exact .inr ⟨(by decide : ¬ xlineTypeStr ≤ xlineTypeReal), rfl⟩
    | bin bs => exact .inr ⟨(by decide : ¬ xlineTypeBin ≤ xlineTypeReal), rfl⟩
  | @nested inner content =>
    cases inner with
    | obj => exact .inr ⟨(by decide : ¬ xlineTypeObj ≤ xlineTypeReal), rfl⟩
    | list => exact .inr ⟨(by decide : ¬ xlineTypeList ≤ xlineTypeReal), rfl⟩

@[simp] theorem Value.length_bytes (le : Bool) (v : Value) : (v.bytes le).length = (v.body le).length + 9 := by
  simp [bytes, Nat.add_comm]

/-- The size of a line, as the parser reads it. -/
theorem Value.sizeofLine {m : Mem} {l : UInt64} {v : Value} (h : Stands m l (v.bytes le)) :
    (Xline.sizeofLine le l).val m = UInt64.ofNat (v.bytes le).length := by
  have hhead := (stands_append.mp h).1
  have hnine : xlineSize = UInt64.ofNat 9 := rfl
  rcases v.shape le with ⟨htype, hbody⟩ | ⟨htype, hword⟩
  · have hnum : m l ≤ xlineTypeReal := hhead.type ▸ htype
    simp [Xline.sizeofLine, typeisNum, hnum, hbody, hnine]
  · rw [hhead.sizeofLine htype, hword, hnine, v.length_bytes, UInt64.ofNat_add]

theorem Value.sizeofBody {m : Mem} {l : UInt64} {v : Value} (h : Stands m l (v.bytes le))
    (htype : ¬ v.type ≤ xlineTypeReal) : (Xline.sizeofBody le l).val m = UInt64.ofNat (v.body le).length := by
  have hhead := (stands_append.mp h).1
  rw [hhead.sizeofBody htype]
  rcases v.shape le with ⟨hnum, -⟩ | ⟨-, hword⟩
  · exact absurd hnum htype
  · exact hword

/-- The body of a value stands behind its header. -/
theorem Value.stands_body {m : Mem} {l : UInt64} {v : Value} (h : Stands m l (v.bytes le)) :
    Stands m (l + xlineSize) (v.body le) := by
  have hbody := (stands_append.mp h).2
  rwa [length_n2b] at hbody

end

/-! ### Lines somewhere else -/

/-- A line in memory that is the encoding of a value. -/
structure Encoded (le : Bool) where
  source : Source
  value : Value
  stands : Stands source.mem source.line (value.bytes le)
  short : (value.bytes le).length < 2 ^ 60

namespace Encoded

variable {le : Bool} (x : Encoded le)

theorem size : x.source.size le = UInt64.ofNat (x.value.bytes le).length := Value.sizeofLine x.stands

theorem toNat_size : (x.source.size le).toNat = (x.value.bytes le).length := by
  have := x.short
  rw [x.size, UInt64.toNat_ofNat']
  omega

theorem bytes : x.source.bytes le = x.value.bytes le := by
  have hstands := x.stands.eq_bytes
  rw [← x.toNat_size] at hstands
  exact hstands.symm

end Encoded

end Wenas.Xline
