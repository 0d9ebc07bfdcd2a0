import Wenas.Xline.Decode
import Wenas.Xline.Failure
import Wenas.Xline.Script

/-!
# Building and decoding

What properly nested calls build is decoded to the same tree, unless the frame was asked for with a size to which
`sizeof(xframe_t)` cannot be added. Then the block is too small for the frame, and the first call writes outside.
-/
namespace Wenas.Xline

/-! ### Writes outside stay on record -/

section

variable {le : Bool} {malloc : Malloc} {f f' : Frame} {p : UInt64}

namespace Frame

theorem inside_of_put {a : UInt64} {bs : List UInt8} (h : (f.put a bs).inside = true) : f.inside = true := by
  simp only [put, Bool.and_eq_true] at h
  exact h.1

theorem inside_of_append {bs : List UInt8} (h : (f.append bs).inside = true) : f.inside = true := inside_of_put h

theorem inside_of_fillKey {key : Text} (h : (f.fillKey key).inside = true) : f.inside = true := by
  simp only [fillKey] at h
  exact inside_of_put (f := { f with key := f.wpos }) (inside_of_put (inside_of_put h))

theorem inside_of_reserve {newlen : UInt64} {got : Bool} (hres : f.reserve malloc newlen = (got, f'))
    (h : f'.inside = true) : f.inside = true := by
  unfold reserve realloc at hres
  split at hres
  · simp only at hres
    split at hres
    · cases hres
      exact h
    · cases hres
      simp only [Bool.and_eq_true] at h
      exact h.1
  · cases hres
    exact h

theorem inside_of_add {key : Text} {newlen : UInt64} {line : Frame → Frame}
    (hline : ∀ g : Frame, (line g).inside = true → g.inside = true)
    (hrun : f.add le malloc key newlen line = (some p, f')) (h : f'.inside = true) : f.inside = true := by
  unfold add at hrun
  cases hres : f.reserve malloc newlen with
  | mk got g =>
  cases got with
  | false => simp [hres] at hrun
  | true =>
    simp only [hres, Prod.mk.injEq] at hrun
    obtain ⟨-, rfl⟩ := hrun
    exact inside_of_reserve hres (inside_of_fillKey (hline _ h))

/-- In a block that is too small for the frame the first key is written outside. -/
theorem fillKey_outside (hroom : f.room = 0) (hwpos : f.wpos = 0) (key : Text) : (f.fillKey key).inside = false := by
  have hzero : f.wpos.toNat = 0 := by simp [hwpos]
  rw [f.fillKey_eq key (by omega)]
  simp [append, put, CString.entry, hroom]

theorem reserve_of_le {newlen : UInt64} (h : ¬ f.size - f.wpos < newlen) : f.reserve malloc newlen = (true, f) :=
  if_neg h

theorem add_outside {key : Text} {newlen : UInt64} {line : Frame → Frame} (hroom : f.room = 0) (hwpos : f.wpos = 0)
    (hsize : newlen.toNat ≤ f.size.toNat) (hline : ∀ g : Frame, (line g).inside = true → g.inside = true)
    (hrun : f.add le malloc key newlen line = (some p, f')) : f'.inside = false := by
  have hres : f.reserve malloc newlen = (true, f) := by
    apply reserve_of_le
    rw [hwpos, UInt64.sub_zero, UInt64.lt_iff_toNat_lt]
    omega
  simp only [add, hres, Prod.mk.injEq] at hrun
  obtain ⟨-, rfl⟩ := hrun
  by_contra hin
  have hkey := hline (f.fillKey key) (Bool.of_not_eq_false hin)
  rw [fillKey_outside hroom hwpos] at hkey
  cases hkey

end Frame

namespace Script

/-- What is written behind a key. -/
def line : Adder le → Frame → Frame
  | .word w, g => (g.append (n2b le (w.len + 1) xlineTypeStr)).append (w.chars ++ [0])
  | .str s, g => (g.append (n2b le s.len xlineTypeStr)).append s.bytes
  | .bin b, g => (g.append (n2b le b.len xlineTypeBin)).append b.bytes
  | .obj x, g => g.append (x.source.bytes le)
  | .int i64, g => g.append (n2b le i64 xlineTypeInt)
  | .uint u64, g => g.append (n2b le u64 xlineTypeUint)
  | .float f64, g => g.append (n2b le f64 xlineTypeReal)
  | .ptr q, g => g.append (n2b le q xlineTypeUint)

theorem run_eq (malloc : Malloc) (f : Frame) (key : Text) (a : Adder le) :
    (a.call key).run le malloc f = f.add le malloc key ((a.call key).newlen le) (line a) := by
  cases a <;> rfl

theorem inside_of_line (a : Adder le) {g : Frame} (h : (line a g).inside = true) : g.inside = true := by
  cases a with
  | word w => exact Frame.inside_of_append (Frame.inside_of_append h)
  | str s => exact Frame.inside_of_append (Frame.inside_of_append h)
  | bin b => exact Frame.inside_of_append (Frame.inside_of_append h)
  | _ => exact Frame.inside_of_append h

theorem inside_of_begin {key : Option Text} {inner : Kind} (hrun : inner.begin malloc f key = (some p, f'))
    (h : f'.inside = true) : f.inside = true := by
  have hbegin : xlObjBegin malloc f key = (some p, f') := by cases inner <;> exact hrun
  unfold xlObjBegin at hbegin
  cases hres : f.reserve malloc (beginLen key) with
  | mk got g =>
  cases got with
  | false => simp [hres] at hbegin
  | true =>
    simp only [hres, Prod.mk.injEq] at hbegin
    obtain ⟨-, rfl⟩ := hbegin
    cases key with
    | none => exact Frame.inside_of_reserve hres h
    | some key =>
      have hkey : (g.fillKey key).inside = true := h
      exact Frame.inside_of_reserve hres (Frame.inside_of_fillKey hkey)

theorem inside_of_finish {pos : UInt64} {inner : Kind} (h : (inner.finish le f (some pos)).inside = true) :
    f.inside = true := by
  cases inner <;> exact Frame.inside_of_put h

theorem inside_of_exec {k : Kind} (s : Script le k) (hrun : s.exec f = some f') (h : f'.inside = true) :
    f.inside = true := by
  induction s generalizing f f' with
  | nil =>
    cases hrun
    exact h
  | add malloc key a rest ih =>
    simp only [exec] at hrun
    split at hrun
    · rename_i pos g hcall
      rw [run_eq] at hcall
      exact Frame.inside_of_add (fun _ => inside_of_line a) hcall (ih hrun h)
    · cases hrun
  | append malloc x rest ih =>
    simp only [exec] at hrun
    split at hrun
    · rename_i pos g hcall
      have hg := ih hrun h
      unfold xlListAppend at hcall
      cases hres : f.reserve malloc (x.source.size le) with
      | mk got g' =>
      cases got with
      | false => simp [hres] at hcall
      | true =>
        simp only [hres, Prod.mk.injEq] at hcall
        obtain ⟨-, rfl⟩ := hcall
        exact Frame.inside_of_reserve hres (Frame.inside_of_append hg)
    · cases hrun
  | node malloc name content rest ihcontent ih =>
    simp only [exec] at hrun
    split at hrun
    · rename_i pos g hcall
      split at hrun
      · rename_i g' hcontent
        exact inside_of_begin hcall (ihcontent hcontent (inside_of_finish (ih hrun h)))
      · cases hrun
    · cases hrun

/-- In a block that is too small for the frame every call writes outside. -/
theorem exec_outside (s : Script le .obj) (hs : s ≠ .nil) (hroom : f.room = 0) (hwpos : f.wpos = 0)
    (hsize : 2 ^ 62 ≤ f.size.toNat) (hrun : s.exec f = some f') : f'.inside = false := by
  by_contra hin
  have hin' : f'.inside = true := by simpa using hin
  cases s with
  | nil => exact hs rfl
  | add malloc key a rest =>
    simp only [exec] at hrun
    split at hrun
    · rename_i pos g hcall
      have hg := inside_of_exec rest hrun hin'
      have hapt : (a.call key).Apt le := by
        cases a with
        | obj x =>
          have hx := x.toNat_size
          have hshort := x.short
          simp only [Adder.call, Append.Apt]
          omega
        | _ => trivial
      have hnew := Append.newlen_lt hapt
      rw [run_eq] at hcall
      rw [Frame.add_outside hroom hwpos (by omega) (fun _ => inside_of_line a) hcall] at hg
      cases hg
    · cases hrun
  | @node _ inner malloc name content rest =>
    simp only [exec] at hrun
    split at hrun
    · rename_i pos g hcall
      split at hrun
      · rename_i g' hcontent
        have hg := inside_of_exec content hcontent (inside_of_finish (inside_of_exec rest hrun hin'))
        have hbegin : xlObjBegin malloc f (some name) = (some pos, g) := by cases inner <;> exact hcall
        have hshort := Text.short name
        have hlen := toNat_headLen name
        have hres : f.reserve malloc (beginLen (some name)) = (true, f) := by
          apply Frame.reserve_of_le
          rw [hwpos, UInt64.sub_zero, UInt64.lt_iff_toNat_lt, beginLen]
          omega
        simp only [xlObjBegin, hres, Prod.mk.injEq] at hbegin
        obtain ⟨-, rfl⟩ := hbegin
        exact absurd (Frame.fillKey_outside hroom hwpos name) (by simpa using hg)
      · cases hrun
    · cases hrun

end Script

end

/-! ### The round trip -/

/-- The frame, with its header set, is decoded to the tree, up to `wpos`, and nothing was written outside of it. -/
def RoundTrips (le : Bool) (f : Frame) (t : Tree .obj) : Prop :=
  Decodes le (xlFixed le f).mem ((xlParser le frameLine).val (xlFixed le f).mem) t ∧
    ((xlParser le frameLine).val (xlFixed le f).mem).wpos = f.wpos ∧ f.inside = true

theorem xlCreator_empty {malloc : Malloc} {size : UInt64} {f : Frame} (h : xlCreator malloc size = some f) :
    f.room = roomOf (sizeofFrame + size) ∧ f.wpos = 0 ∧ f.size = size ∧ f.inside = true := by
  unfold xlCreator at h
  cases hm : malloc.give (sizeofFrame + size) with
  | none => simp [hm] at h
  | some m =>
    simp only [hm, Option.bind_eq_bind, Option.bind_some, Option.pure_def, Option.some.injEq] at h
    subst h
    exact ⟨rfl, rfl, rfl, rfl⟩

/-- When `sizeof(xframe_t) + size` wraps around, the block has no room for a body. -/
theorem roomOf_wrapped {size : UInt64} (h : ¬ size.toNat + 176 < 2 ^ 64) : roomOf (sizeofFrame + size) = 0 := by
  have hframe : sizeofFrame.toNat = 176 := rfl
  have hlt := size.toNat_lt
  rw [roomOf, UInt64.toNat_add, hframe]
  omega

theorem roundTrips_of {le : Bool} {f : Frame} {t : Tree .obj} (hstands : Stands (xlFixed le f).mem 0 (t.bytes le))
    (hwpos : f.wpos.toNat = (t.bytes le).length) (hinside : f.inside = true) : RoundTrips le f t := by
  have hline : (xlFixed le f).line = n2b le (xlFixed le f).wpos xlineTypeObj := Frame.line_setLine _ _ _
  refine ⟨decodes_line hstands hwpos hline, ?_, hinside⟩
  rw [xlParser_line hline]
  rfl

/-- For every tree of calls on a new frame that all succeed: the frame is decoded to the tree that they write, whatever
reallocations there were, if and only if its size and the size of the structure fit into 64 bits, or nothing is
written. -/
theorem round_trip (le : Bool) {malloc : Malloc} {size : UInt64} {f₀ f : Frame}
    (hmade : xlCreator malloc size = some f₀)
    (s : Script le .obj) (hrun : s.exec f₀ = some f) :
    RoundTrips le f s.tree ↔ size.toNat + 176 < 2 ^ 64 ∨ s = .nil := by
  obtain ⟨hroom, hwpos, hsame, hinside⟩ := xlCreator_empty hmade
  constructor
  · intro h
    by_contra hno
    obtain ⟨hsize, hs⟩ := not_or.mp hno
    rw [roomOf_wrapped hsize] at hroom
    subst hsame
    have houtside := Script.exec_outside s hs hroom hwpos (by omega) hrun
    exact absurd h.2.2 (by simp [houtside])
  · rintro (hsize | rfl)
    · have hholds := (Script.exec_holds s (Frame.xlCreator_holds hsize hmade) hrun).1
      rw [List.nil_append] at hholds
      exact roundTrips_of (hholds.setLine _).stands hholds.toNat_wpos hholds.inside
    · cases hrun
      exact roundTrips_of (Stands.nil _ _) (by simp [hwpos, Script.tree, Tree.bytes]) hinside

/-- A number under the key `k`. -/
def oneNumber : Script false .obj := .add plenty shortKey (.int 5) .nil

/-- The key `l`. -/
def listKey : Text := ⟨⟨[108], by decide⟩, by decide⟩

/-- A number, a list of an object with two entries and an empty list, and another number under the first key. -/
def nested : Script false .obj :=
  .add plenty shortKey (.int 5)
    (@Script.node false .obj .list plenty listKey
      (@Script.node false .list .obj plenty () (.add plenty shortKey (.uint 6) (.add plenty listKey (.uint 7) .nil))
        (@Script.node false .list .list plenty () .nil .nil))
      (.add plenty shortKey (.int 8) .nil))

/-- The frame begins with 16 bytes and is moved on the way. -/
theorem round_trip_sample : ∃ f, nested.exec (freshFrame 16) = some f ∧ RoundTrips false f nested.tree :=
  ⟨_, rfl, (@round_trip false plenty 16 _ _ rfl nested rfl).mpr (.inl (by decide))⟩

/-- `sizeof(xframe_t)` and `2 ^ 64 - 100` make 76, the block that `xl_creator` gets. -/
theorem wrapped_creator : ∃ f₀ f, xlCreator plenty (2 ^ 64 - 100 : Nat).toUInt64 = some f₀ ∧
    oneNumber.exec f₀ = some f ∧
    ¬ RoundTrips false f oneNumber.tree := by
  refine ⟨_, _, rfl, rfl, ?_⟩
  rintro ⟨-, -, hinside⟩
  exact absurd hinside (by decide +kernel)

end Wenas.Xline
