import Mathlib

/-!
# Places in a tree of names

A walk stays, goes up, or goes down to a name. From a root nothing is above; from any other place the way up is
counted. What a walk does from a place follows from what it does on its own.
-/
namespace Wenas.Places

inductive Move (α : Type) where
  | stay
  | up
  | down (a : α)

structure Place (α : Type) where
  rooted : Bool
  ups : Nat
  names : List α
deriving DecidableEq

variable {α : Type}

namespace Place

def go (p : Place α) : Move α → Place α
  | .stay => p
  | .up =>
    if p.names.isEmpty then { p with ups := if p.rooted then p.ups else p.ups + 1 }
    else { p with names := p.names.dropLast }
  | .down a => { p with names := p.names ++ [a] }

def walk (p : Place α) (ms : List (Move α)) : Place α := ms.foldl go p

/-- A walk on its own. -/
def relative (ms : List (Move α)) : Place α := walk ⟨false, 0, []⟩ ms

/-- As many steps up as `r` counts, and then down its names. -/
def join (p r : Place α) : Place α where
  rooted := p.rooted
  ups := if p.rooted then p.ups else p.ups + (r.ups - p.names.length)
  names := p.names.take (p.names.length - r.ups) ++ r.names

/-- `p` is `d`, or below it. -/
def Below (d p : Place α) : Prop := p.rooted = d.rooted ∧ p.ups = d.ups ∧ d.names <+: p.names

/-- The names of `r` lead back down the names of `d` that it went up from. -/
def Returns (d r : Place α) : Prop :=
  (d.rooted ∨ r.ups ≤ d.names.length) ∧ d.names.drop (d.names.length - r.ups) <+: r.names

instance [DecidableEq α] (d p : Place α) : Decidable (Below d p) := inferInstanceAs (Decidable (_ ∧ _))

instance [DecidableEq α] (d r : Place α) : Decidable (Returns d r) := inferInstanceAs (Decidable (_ ∧ _))

variable {p r d : Place α}

theorem walk_append (ms ns : List (Move α)) : p.walk (ms ++ ns) = (p.walk ms).walk ns := List.foldl_append

theorem join_start : p.join ⟨false, 0, []⟩ = p := by
  simp [join]

theorem rooted_walk (ms : List (Move α)) : (p.walk ms).rooted = p.rooted := by
  induction ms using List.reverseRecOn with
  | nil => rfl
  | append_singleton ms m ih =>
    rw [walk_append, ← ih]
    cases m with
    | stay => rfl
    | up =>
      simp only [walk, List.foldl_cons, List.foldl_nil, go]
      split <;> rfl
    | down a => rfl

theorem join_go (hr : r.rooted = false) (m : Move α) : (p.join r).go m = p.join (r.go m) := by
  cases m with
  | stay => rfl
  | down a => simp [go, join]
  | up =>
    cases hnames : r.names with
    | nil =>
      have hgo : r.go .up = { r with ups := r.ups + 1 } := by simp [go, hnames, hr]
      rw [hgo]
      by_cases hlt : r.ups < p.names.length
      · have hjoin : (p.join r).names = p.names.take (p.names.length - r.ups) := by simp [join, hnames]
        have hne : ¬ (p.join r).names.isEmpty := by
          rw [List.isEmpty_iff, ← List.length_eq_zero_iff, hjoin, List.length_take]
          omega
        have hups : r.ups - p.names.length = 0 := by omega
        have hups' : r.ups + 1 - p.names.length = 0 := by omega
        have hlast : min (p.names.length - r.ups) p.names.length - 1 = p.names.length - (r.ups + 1) := by omega
        have hgoJoin : (p.join r).go .up = { p.join r with names := (p.join r).names.dropLast } := if_neg hne
        rw [hgoJoin, hjoin, List.dropLast_eq_take, List.length_take, List.take_take]
        simp only [join, hnames, List.append_nil, hups, hups', hlast]
        congr 2
        omega
      · have hempty : (p.join r).names = [] := by
          have hzero : p.names.length - r.ups = 0 := by omega
          simp [join, hnames, hzero]
        have hzero : p.names.length - r.ups = 0 := by omega
        have hzero' : p.names.length - (r.ups + 1) = 0 := by omega
        simp only [go, hempty, List.isEmpty_nil, if_true]
        simp only [join, hnames, hzero, hzero', List.take_zero, List.append_nil]
        congr 1
        split
        · rfl
        · omega
    | cons a as =>
      have hne : r.names ≠ [] := by rw [hnames]; exact List.cons_ne_nil a as
      have hne' : (p.join r).names ≠ [] := fun heq => hne (List.append_eq_nil_iff.mp heq).2
      simp only [go, List.isEmpty_iff, hne, hne', if_false]
      simp only [join, List.dropLast_append_of_ne_nil hne]

/-- A walk from a place goes where the walk on its own leads from there. -/
theorem walk_eq_join (ms : List (Move α)) : p.walk ms = p.join (relative ms) := by
  induction ms using List.reverseRecOn with
  | nil => exact join_start.symm
  | append_singleton ms m ih =>
    rw [relative, walk_append, walk_append, ih]
    exact join_go (rooted_walk ms) m

theorem below_join : Below d (d.join r) ↔ Returns d r := by
  have hbegins : d.names <+: (d.join r).names ↔ d.names.drop (d.names.length - r.ups) <+: r.names := by
    conv_lhs => rw [← List.take_append_drop (d.names.length - r.ups) d.names]
    exact List.prefix_append_right_inj _
  rw [Below, Returns, hbegins, ← and_assoc]
  refine and_congr_left' ?_
  cases hroot : d.rooted with
  | true => simp [join, hroot]
  | false =>
    simp only [join, hroot, Bool.false_eq_true, if_false, true_and, false_or]
    omega

theorem below_refl : Below p p := ⟨rfl, rfl, List.prefix_rfl⟩

/-- A walk ends at its start or below it if and only if it returns to it. -/
theorem below_walk (ms : List (Move α)) : Below d (d.walk ms) ↔ Returns d (relative ms) := by
  rw [walk_eq_join, below_join]

end Place
end Wenas.Places
