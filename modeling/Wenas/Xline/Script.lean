import Wenas.Xline.Tree

/-!
# Properly nested calls

A script is a tree of calls, and writes a tree of values: what it appends is the encoding of that tree, however often
the frame is moved, and the header of the frame follows the calls that write it.
-/
namespace Wenas.Xline

/-! ### Scripts -/

/-- The calls that add an entry, without the key. -/
inductive Adder (le : Bool) where
  | word (w : Text)
  | str (s : Block)
  | bin (b : Block)
  | obj (x : Encoded le)
  | int (i64 : UInt64)
  | uint (u64 : UInt64)
  | float (f64 : UInt64)
  | ptr (p : UInt64)

namespace Adder

variable {le : Bool}

def call (key : Text) : Adder le → Append
  | .word w => .word key w
  | .str s => .str key s
  | .bin b => .bin key b
  | .obj x => .obj key x.source
  | .int i64 => .int key i64
  | .uint u64 => .uint key u64
  | .float f64 => .float key f64
  | .ptr p => .ptr key p

def value : Adder le → Value
  | .word w => .scalar (.str (w.chars ++ [0]))
  | .str s => .scalar (.str s.bytes)
  | .bin b => .scalar (.bin b.bytes)
  | .obj x => x.value
  | .int i64 => .scalar (.int i64)
  | .uint u64 => .scalar (.uint u64)
  | .float f64 => .scalar (.real f64)
  | .ptr p => .scalar (.uint p)

end Adder

/-- What `xl_obj_begin` is given. -/
abbrev Name : Kind → Type
  | .obj => Text
  | .list => Unit

def Name.key : {k : Kind} → Name k → Option Text
  | .obj, key => some key
  | .list, _ => none

def Name.label : {k : Kind} → Name k → Label k
  | .obj, key => Text.clip key
  | .list, _ => ()

/-- The calls inside an object or a list; every call has its own `malloc`. -/
inductive Script (le : Bool) : Kind → Type where
  | nil {k : Kind} : Script le k
  | add (malloc : Malloc) (key : Text) (a : Adder le) (rest : Script le .obj) : Script le .obj
  | append (malloc : Malloc) (x : Encoded le) (rest : Script le .list) : Script le .list
  | node {k inner : Kind} (malloc : Malloc) (name : Name k) (content : Script le inner) (rest : Script le k) :
      Script le k

def Kind.begin (malloc : Malloc) (f : Frame) (key : Option Text) : Kind → Option UInt64 × Frame
  | .obj => xlObjBegin malloc f key
  | .list => xlListBegin malloc f key

def Kind.finish (le : Bool) (f : Frame) (pos : Option UInt64) : Kind → Frame
  | .obj => xlObjEnd le f pos
  | .list => xlListEnd le f pos

namespace Script

variable {le : Bool}

/-- The calls, as long as none of them returns `XEOF`. -/
def exec : {k : Kind} → Script le k → Frame → Option Frame
  | _, .nil, f => some f
  | _, .add malloc key a rest, f =>
    match (a.call key).run le malloc f with
    | (some _, f) => rest.exec f
    | (none, _) => none
  | _, .append malloc x rest, f =>
    match xlListAppend le malloc f x.source with
    | (some _, f) => rest.exec f
    | (none, _) => none
  | _, @node _ _ inner malloc name content rest, f =>
    match inner.begin malloc f name.key with
    | (some pos, f) =>
      match content.exec f with
      | some f => rest.exec (inner.finish le f (some pos))
      | none => none
    | (none, _) => none

/-- The tree that a script writes. -/
def tree : {k : Kind} → Script le k → Tree k
  | _, .nil => .nil
  | _, .add _ key a rest => a.value.cons key.clip rest.tree
  | _, .append _ x rest => x.value.cons () rest.tree
  | _, .node _ name content rest => .node name.label content.tree rest.tree

def length {k : Kind} (s : Script le k) : Nat := (s.tree.bytes le).length

/-- The last `wpos` that a script writes to the header, when it starts at `n`. -/
def refreshed : {k : Kind} → Script le k → Nat → Option Nat
  | _, .nil, _ => none
  | _, .add _ key a rest, n =>
    let n := n + (entryBytes le (k := .obj) (key.clip, a.value)).length
    (rest.refreshed n).or (some n)
  | _, .append _ x rest, n => rest.refreshed (n + (x.value.bytes le).length)
  | _, @node _ _ inner _ name content rest, n =>
    let start := n + (labelBytes name.label).length + 9
    let stop := start + content.length
    (rest.refreshed stop).or (match inner with
      | .obj => content.refreshed start
      | .list => some stop)

/-! ### What a script does to a frame -/

variable {malloc : Malloc} {f f' : Frame} {bs : List UInt8} {p : UInt64}

theorem add_holds (h : f.Holds bs) {key : Text} {a : Adder le} (hrun : (a.call key).run le malloc f = (some p, f')) :
    f'.Holds (bs ++ entryBytes le (k := .obj) (key.clip, a.value)) ∧ f'.line = n2b le f'.wpos xlineTypeObj := by
  have hapt : (a.call key).Apt le := by
    cases a with
    | obj x =>
      have hsize := x.toNat_size
      have hshort := x.short
      simp only [Adder.call, Append.Apt]
      omega
    | _ => trivial
  have hgap : (a.call key).gap = 0 := by cases a <;> rfl
  have hline : (a.call key).header le f'.wpos f.line = n2b le f'.wpos xlineTypeObj := by cases a <;> rfl
  have hbytes : (a.call key).bytes le = entryBytes le (k := .obj) (key.clip, a.value) := by
    cases a with
    | word w =>
      have hlen : UInt64.ofNat (w.chars.length + 1) = w.len + 1 := by simp [Text.len]
      simp [Adder.call, Append.bytes, entryBytes, labelBytes, Adder.value, Value.bytes, Value.word, Value.type,
        Value.body, Scalar.word, Scalar.type, Scalar.body, Text.len]
    | obj x => simp [Adder.call, Append.bytes, entryBytes, labelBytes, Adder.value, x.bytes]
    | _ =>
      simp [Adder.call, Append.bytes, entryBytes, labelBytes, Adder.value, Value.bytes, Value.word, Value.type,
        Value.body, Scalar.word, Scalar.type, Scalar.body, Block.len]
  obtain ⟨gap, hlen, hholds, hheader⟩ := Append.holds h hapt hrun
  rw [hgap, List.length_eq_zero_iff] at hlen
  rw [hlen, List.append_nil, hbytes] at hholds
  exact ⟨hholds, hheader.trans hline⟩

theorem append_holds (h : f.Holds bs) {x : Encoded le} (hrun : xlListAppend le malloc f x.source = (some p, f')) :
    f'.Holds (bs ++ x.value.bytes le) ∧ f'.line = f.line := by
  have hsize := x.toNat_size
  have hshort := x.short
  rw [← x.bytes]
  exact h.listAppend (by omega) hrun

theorem keyBytes_key {k : Kind} (name : Name k) : Frame.keyBytes name.key = labelBytes name.label := by
  cases k <;> rfl

theorem begin_holds (h : f.Holds bs) {k inner : Kind} {name : Name k}
    (hrun : inner.begin malloc f name.key = (some p, f')) :
    ∃ gap, gap.length = 9 ∧ f'.Holds ((bs ++ labelBytes name.label) ++ gap) ∧
      p = UInt64.ofNat (bs ++ labelBytes name.label).length ∧ f'.line = f.line := by
  have hbegin : xlObjBegin malloc f name.key = (some p, f') := by cases inner <;> exact hrun
  rw [← keyBytes_key]
  exact h.objBegin hbegin

/-- The header of the frame after the end of an object or a list. -/
theorem finish_holds (le : Bool) {xs gap zs : List UInt8} (h : f.Holds ((xs ++ gap) ++ zs)) (hgap : gap.length = 9)
    (inner : Kind) :
    (inner.finish le f (some (UInt64.ofNat xs.length))).Holds
        (xs ++ (n2b le (UInt64.ofNat zs.length) inner.type ++ zs)) ∧
      (inner.finish le f (some (UInt64.ofNat xs.length))).line =
        match inner with
        | .obj => f.line
        | .list => n2b le f.wpos xlineTypeObj := by
  cases inner with
  | obj => exact h.close le hgap _
  | list =>
    have hclose := (h.close le hgap xlineTypeList).1
    exact ⟨hclose.setLine _, Frame.line_setLine _ _ _⟩

/-- The header after the last `wpos` that was written to it, if any. -/
def headerOf (le : Bool) (line : List UInt8) : Option Nat → List UInt8
  | some w => n2b le (UInt64.ofNat w) xlineTypeObj
  | none => line

theorem headerOf_or (line : List UInt8) (o o' : Option Nat) :
    headerOf le line (o.or o') = headerOf le (headerOf le line o') o := by
  cases o <;> rfl

theorem exec_holds {k : Kind} (s : Script le k) (h : f.Holds bs) (hrun : s.exec f = some f') :
    f'.Holds (bs ++ s.tree.bytes le) ∧ f'.line = headerOf le f.line (s.refreshed bs.length) := by
  induction s generalizing f f' bs with
  | nil =>
    simp only [exec, Option.some.injEq] at hrun
    subst hrun
    exact ⟨by simpa [tree, Tree.bytes] using h, rfl⟩
  | add malloc key a rest ih =>
    simp only [exec] at hrun
    split at hrun
    · rename_i pos g hcall
      obtain ⟨hg, hline⟩ := add_holds h hcall
      obtain ⟨hholds, hheader⟩ := ih hg hrun
      refine ⟨by simpa [tree] using hholds, ?_⟩
      rw [hheader, hline, hg.wpos, refreshed, headerOf_or, List.length_append]
      rfl
    · cases hrun
  | append malloc x rest ih =>
    simp only [exec] at hrun
    split at hrun
    · rename_i pos g hcall
      obtain ⟨hg, hline⟩ := append_holds h hcall
      obtain ⟨hholds, hheader⟩ := ih hg hrun
      refine ⟨by simpa [tree, entryBytes, labelBytes] using hholds, ?_⟩
      rw [hheader, hline, refreshed, List.length_append]
    · cases hrun
  | @node k inner malloc name content rest ihcontent ih =>
    simp only [exec] at hrun
    split at hrun
    · rename_i pos g hcall
      split at hrun
      · rename_i g' hcontent
        obtain ⟨gap, hgap, hg, rfl, hline⟩ := begin_holds h hcall
        obtain ⟨hg', hline'⟩ := ihcontent hg hcontent
        obtain ⟨hend, hline''⟩ := finish_holds le hg' hgap inner
        obtain ⟨hholds, hheader⟩ := ih hend hrun
        have hwpos := hg'.wpos
        refine ⟨by simpa [tree, Tree.bytes] using hholds, ?_⟩
        have hstart : ((bs ++ labelBytes name.label) ++ gap).length =
            bs.length + (labelBytes name.label).length + 9 := by
          simp [hgap, Nat.add_assoc]
        have hstop : (((bs ++ labelBytes name.label) ++ gap) ++ content.tree.bytes le).length =
            bs.length + (labelBytes name.label).length + 9 + content.length := by
          rw [List.length_append, hstart, length]
        have hlen : (bs ++ labelBytes name.label ++ (n2b le (UInt64.ofNat (content.tree.bytes le).length) inner.type ++
            content.tree.bytes le)).length = bs.length + (labelBytes name.label).length + 9 + content.length := by
          simp [length, Nat.add_assoc]
        rw [hheader, hlen, hline'', hline', hwpos, hstart, hstop, hline]
        cases inner with
        | obj => rw [refreshed, headerOf_or]
        | list =>
          rw [refreshed, headerOf_or]
          rfl
      · cases hrun
    · cases hrun

end Script

end Wenas.Xline
