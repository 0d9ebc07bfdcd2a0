import Wenas.Xline.RoundTrip

/-!
# The header of a frame

The header is written by the calls that add an entry and at the end of a list, not by `xl_obj_end` and `xl_clear`.
It follows the contents as long as the last call that writes it left `wpos` where it is.
-/
namespace Wenas.Xline

/-! ### Frames that are cleared -/

/-- A frame is made, filled and cleared any number of times, and filled again. -/
structure Filling (le : Bool) where
  malloc : Malloc
  size : UInt64
  fits : size.toNat + 176 < 2 ^ 64
  cleared : List (Script le .obj)
  last : Script le .obj

variable {le : Bool}

def runCleared : List (Script le .obj) → Frame → Option Frame
  | [], f => some f
  | s :: ss, f =>
    match s.exec f with
    | some f => runCleared ss (xlClear f)
    | none => none

/-- The last `wpos` that is written to the header before the last `xl_clear`. -/
def refreshedBefore : List (Script le .obj) → Option Nat
  | [] => none
  | s :: ss => (refreshedBefore ss).or (s.refreshed 0)

namespace Filling

variable (b : Filling le)

/-- The new frame and the same after every `xl_clear`. -/
def start : Option Frame :=
  match xlCreator b.malloc b.size with
  | some f => runCleared b.cleared f
  | none => none

def run : Option Frame :=
  match b.start with
  | some f => b.last.exec f
  | none => none

/-- What stands in the block where the header will be. -/
def before : List UInt8 :=
  match b.malloc.give (sizeofFrame + b.size) with
  | some m => m.bytes frameLine 9
  | none => []

def refreshed : Option Nat := (b.last.refreshed 0).or (refreshedBefore b.cleared)

end Filling

namespace Script

/-- A script writes to the header where it has appended something, and not beyond its end. -/
theorem refreshed_bounds {k : Kind} (s : Script le k) {n w : Nat} (h : s.refreshed n = some w) :
    n < w ∧ w ≤ n + s.length := by
  induction s generalizing n w with
  | nil => simp [refreshed] at h
  | add malloc key a rest ih =>
    have hlen : (Script.add malloc key a rest).length =
        (entryBytes le (k := .obj) (key.clip, a.value)).length + rest.length := by simp [length, tree]
    have hentry : 9 ≤ (entryBytes le (k := .obj) (key.clip, a.value)).length := by
      simp only [entryBytes, List.length_append, Value.length_bytes]
      omega
    rw [refreshed] at h
    rcases Option.or_eq_some_iff.mp h with hrest | ⟨-, hw⟩
    · have := ih hrest
      omega
    · cases hw
      omega
  | append malloc x rest ih =>
    have hlen : (Script.append malloc x rest).length = (x.value.bytes le).length + rest.length := by
      simp [length, tree, entryBytes, labelBytes]
    rw [refreshed] at h
    have := ih h
    omega
  | @node k inner malloc name content rest ihcontent ih =>
    have hlen : (Script.node malloc name content rest).length =
        (labelBytes name.label).length + 9 + content.length + rest.length := by
      simp [length, tree, Tree.bytes, Nat.add_assoc]
    cases inner with
    | obj =>
      rw [refreshed] at h
      rcases Option.or_eq_some_iff.mp h with hrest | ⟨-, hw⟩
      · have := ih hrest
        omega
      · have := ihcontent hw
        omega
    | list =>
      rw [refreshed] at h
      rcases Option.or_eq_some_iff.mp h with hrest | ⟨-, hw⟩
      · have := ih hrest
        omega
      · cases hw
        omega

end Script

theorem Frame.Holds.clear {f : Frame} {bs : List UInt8} (h : f.Holds bs) : (xlClear f).Holds [] :=
  ⟨rfl, Stands.nil _ _, Nat.zero_le _, h.size, h.short, h.inside⟩

theorem Script.refreshed_lt {s : Script le .obj} {f : Frame} (h : f.Holds (s.tree.bytes le)) :
    ∀ w ∈ s.refreshed 0, w < 2 ^ 60 := by
  intro w hw
  have hbounds := s.refreshed_bounds hw
  have hfits := h.fits
  have hshort := h.short
  have hlen : s.length = (s.tree.bytes le).length := rfl
  omega

theorem or_lt {o o' : Option Nat} {n : Nat} (h : ∀ w ∈ o, w < n) (h' : ∀ w ∈ o', w < n) : ∀ w ∈ o.or o', w < n := by
  intro w hw
  rcases Option.or_eq_some_iff.mp hw with hw | ⟨-, hw⟩
  · exact h w hw
  · exact h' w hw

theorem runCleared_holds (ss : List (Script le .obj)) {f f' : Frame} (h : f.Holds [])
    (hrun : runCleared ss f = some f') :
    f'.Holds [] ∧ f'.line = Script.headerOf le f.line (refreshedBefore ss) ∧ ∀ w ∈ refreshedBefore ss, w < 2 ^ 60 := by
  induction ss generalizing f with
  | nil =>
    cases hrun
    exact ⟨h, rfl, by simp [refreshedBefore]⟩
  | cons s ss ih =>
    simp only [runCleared] at hrun
    split at hrun
    · rename_i g hexec
      obtain ⟨hg, hline⟩ := s.exec_holds h hexec
      obtain ⟨hholds, hheader, hlt⟩ := ih hg.clear hrun
      have hclear : (xlClear g).line = g.line := rfl
      refine ⟨hholds, ?_, or_lt hlt (Script.refreshed_lt (by simpa using hg))⟩
      rw [hheader, hclear, hline, refreshedBefore, Script.headerOf_or]
      rfl
    · cases hrun

namespace Filling

variable {b : Filling le} {f : Frame}

theorem start_holds (h : b.start = some f) :
    f.Holds [] ∧ f.line = Script.headerOf le b.before (refreshedBefore b.cleared) ∧
      ∀ w ∈ refreshedBefore b.cleared, w < 2 ^ 60 := by
  unfold start at h
  split at h
  · rename_i f₀ hmade
    have hline : f₀.line = b.before := by
      unfold xlCreator at hmade
      unfold before
      cases hm : b.malloc.give (sizeofFrame + b.size) with
      | none => simp [hm] at hmade
      | some m =>
        simp only [hm, Option.bind_eq_bind, Option.bind_some, Option.pure_def, Option.some.injEq] at hmade
        subst hmade
        rfl
    rw [← hline]
    exact runCleared_holds _ (Frame.xlCreator_holds b.fits hmade) h
  · cases h

theorem holds (h : b.run = some f) :
    f.Holds (b.last.tree.bytes le) ∧ f.line = Script.headerOf le b.before b.refreshed ∧
      ∀ w ∈ b.refreshed, w < 2 ^ 60 := by
  unfold run at h
  split at h
  · rename_i g hstart
    obtain ⟨hg, hline, hlt⟩ := start_holds hstart
    obtain ⟨hholds, hheader⟩ := b.last.exec_holds hg h
    rw [List.nil_append] at hholds
    rw [refreshed, Script.headerOf_or, ← hline]
    exact ⟨hholds, hheader, or_lt (Script.refreshed_lt hholds) hlt⟩
  · cases h

/-- The header that the build leaves is the one of its entries: the last call that wrote it left `wpos` where it is now,
or the block happened to hold this header. -/
def Refreshed (b : Filling le) : Prop :=
  match b.refreshed with
  | some w => w = b.last.length
  | none => b.before = n2b le (UInt64.ofNat b.last.length) xlineTypeObj

end Filling

/-- The header gives the type and `wpos`, and whoever parses it finds the tree. -/
def HeaderFollows (le : Bool) (f : Frame) (t : Tree .obj) : Prop :=
  f.line = n2b le f.wpos xlineTypeObj ∧ Decodes le f.mem ((xlParser le frameLine).val f.mem) t

theorem n2b_injective {n n' : UInt64} {type : UInt8} (h : n2b le n type = n2b le n' type) : n = n' := by
  have hstands : Stands (Mem.write (fun _ => 0) 0 (n2b le n type)) 0 (n2b le n type) := Stands.write (by simp)
  have hstands' : Stands (Mem.write (fun _ => 0) 0 (n2b le n type)) 0 (n2b le n' type) := by
    rw [h] at hstands ⊢
    exact hstands
  exact hstands.b2u.symm.trans hstands'.b2u

/-- For every build of properly nested calls, with any number of `xl_clear`s in between: the header follows the contents
if and only if the last call that wrote it left `wpos` where it is now. -/
theorem root_header (b : Filling le) {f : Frame} (hrun : b.run = some f) :
    HeaderFollows le f b.last.tree ↔ b.Refreshed := by
  obtain ⟨hholds, hline, hrefreshed⟩ := b.holds hrun
  have hwpos := hholds.wpos
  have hlt : (b.last.tree.bytes le).length < 2 ^ 64 := by
    have hfits := hholds.fits
    have hshort := hholds.short
    omega
  have hright : f.line = n2b le f.wpos xlineTypeObj ↔ b.Refreshed := by
    unfold Filling.Refreshed
    rw [hline, hwpos]
    cases hr : b.refreshed with
    | none => rfl
    | some w =>
      simp only [Script.headerOf]
      constructor
      · intro h
        have hnat := congrArg UInt64.toNat (n2b_injective h)
        have hw := hrefreshed w hr
        rw [UInt64.toNat_ofNat', UInt64.toNat_ofNat', Nat.mod_eq_of_lt (by omega), Nat.mod_eq_of_lt hlt] at hnat
        exact hnat
      · rintro rfl
        rfl
  rw [← hright]
  exact ⟨fun h => h.1, fun h => ⟨h, decodes_line hholds.stands hholds.toNat_wpos h⟩⟩

/-- A number, and an empty object behind it. -/
def emptyLast : Filling false where
  malloc := plenty
  size := 64
  fits := by decide
  cleared := []
  last := .add plenty shortKey (.int 5) (@Script.node false .obj .obj plenty shortKey .nil .nil)

/-- The frame has been cleared once, and its last entry is a number. -/
def nestedLast : Filling false := { emptyLast with cleared := [oneNumber], last := nested }

theorem root_header_sample : ∃ f, nestedLast.run = some f ∧ HeaderFollows false f nested.tree :=
  ⟨_, rfl, (root_header nestedLast rfl).mpr (rfl : (78 : Nat) = 78)⟩

/-- The header gives 12 bytes, and `wpos` is 24. -/
theorem header_behind : ∃ f, emptyLast.run = some f ∧ ¬ HeaderFollows false f emptyLast.last.tree := by
  refine ⟨_, rfl, ?_⟩
  rintro ⟨hline, -⟩
  exact absurd hline (by decide +kernel)

end Wenas.Xline
