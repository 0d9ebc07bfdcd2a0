import Mathlib

/-!
# Runs of a machine

A machine is a step function over inputs. `Along` says that a condition on the
state and the next input holds at every step of a run.
-/
namespace Wenas.Machine

variable {σ ι : Type} (step : σ → ι → σ)

def run (s : σ) (is : List ι) : σ := is.foldl step s

def Along (P : σ → ι → Prop) : σ → List ι → Prop
  | _, [] => True
  | s, i :: is => P s i ∧ Along P (step s i) is

instance Along.decidable {P : σ → ι → Prop} [d : ∀ s i, Decidable (P s i)] : ∀ s is, Decidable (Along step P s is)
  | _, [] => .isTrue trivial
  | s, i :: is => @instDecidableAnd _ _ (d s i) (Along.decidable (step s i) is)

@[simp] theorem run_nil (s : σ) : run step s [] = s := rfl

@[simp] theorem run_cons (s : σ) (i : ι) (is : List ι) : run step s (i :: is) = run step (step s i) is := rfl

theorem run_append (s : σ) (is js : List ι) : run step s (is ++ js) = run step (run step s is) js :=
  List.foldl_append

variable {step}

theorem Along.append {P : σ → ι → Prop} {s : σ} {is js : List ι} :
    Along step P s (is ++ js) ↔ Along step P s is ∧ Along step P (run step s is) js := by
  induction is generalizing s with
  | nil => simp [Along]
  | cons i is ih => simp [Along, ih, and_assoc]

theorem Along.mono {P Q : σ → ι → Prop} (hPQ : ∀ s i, P s i → Q s i) {s : σ} {is : List ι} (h : Along step P s is) :
    Along step Q s is := by
  induction is generalizing s with
  | nil => trivial
  | cons i is ih => exact ⟨hPQ s i h.1, ih h.2⟩

theorem Along.both {P Q R : σ → ι → Prop} (hPQ : ∀ s i, P s i → Q s i → R s i) {s : σ} {is : List ι}
    (h : Along step P s is) (h' : Along step Q s is) : Along step R s is := by
  induction is generalizing s with
  | nil => trivial
  | cons i is ih => exact ⟨hPQ s i h.1 h'.1, ih h.2 h'.2⟩

/-- What every step that meets the condition preserves holds after the run. -/
theorem Along.invariant {P : σ → ι → Prop} {Inv : σ → Prop} (hstep : ∀ s i, Inv s → P s i → Inv (step s i))
    {s : σ} {is : List ι} (h : Along step P s is) (hs : Inv s) : Inv (run step s is) := by
  induction is generalizing s with
  | nil => exact hs
  | cons i is ih => exact ih h.2 (hstep s i hs h.1)

theorem invariant {Inv : σ → Prop} (hstep : ∀ s i, Inv s → Inv (step s i)) {s : σ} (is : List ι) (hs : Inv s) :
    Inv (run step s is) := by
  induction is generalizing s with
  | nil => exact hs
  | cons i is ih => exact ih (hstep s i hs)

/-- What every step on an input of a kind preserves holds after a run on such inputs. -/
theorem invariant_of_mem {P : ι → Prop} {Inv : σ → Prop} (hstep : ∀ s i, Inv s → P i → Inv (step s i)) {s : σ}
    {is : List ι} (h : ∀ i ∈ is, P i) (hs : Inv s) : Inv (run step s is) := by
  induction is generalizing s with
  | nil => exact hs
  | cons i is ih => exact ih (fun j hj => h j (List.mem_cons_of_mem _ hj)) (hstep s i hs (h i List.mem_cons_self))

/-- What each step raises by at most one is raised by at most the length of the run. -/
theorem run_within {P : Nat → σ → Prop} (hstep : ∀ n s i, P n s → P (n + 1) (step s i)) {s : σ} {n : Nat}
    (is : List ι) (hs : P n s) : P (n + is.length) (run step s is) := by
  induction is generalizing s n with
  | nil => exact hs
  | cons i is ih =>
    have hrest := ih (hstep n s i hs)
    rwa [Nat.add_assoc, Nat.add_comm 1] at hrest

/-- The results of the steps of a run. -/
def results {ο : Type} (step : σ → ι → σ) (out : σ → ι → ο) : σ → List ι → List ο
  | _, [] => []
  | s, i :: is => out s i :: results step out (step s i) is

/-- A run whose steps are those of another machine has the results of that machine. -/
theorem Along.simulation {τ ο : Type} {P : σ → ι → Prop} {out : σ → ι → ο} {step' : τ → ι → τ} {out' : τ → ι → ο}
    {Rel : σ → τ → Prop}
    (hstep : ∀ s t i, Rel s t → P s i → out s i = out' t i ∧ Rel (step s i) (step' t i)) {s : σ} {t : τ}
    {is : List ι} (h : Along step P s is) (hs : Rel s t) :
    results step out s is = results step' out' t is ∧ Rel (run step s is) (run step' t is) := by
  induction is generalizing s t with
  | nil => exact ⟨rfl, hs⟩
  | cons i is ih =>
    obtain ⟨hout, hnext⟩ := hstep s t i hs h.1
    obtain ⟨hrest, hrel⟩ := ih h.2 hnext
    exact ⟨congrArg₂ List.cons hout hrest, hrel⟩

/-- A loop that moves a 64-bit counter up at every turn comes to its end. -/
theorem ends_of_climbing (next : σ → σ) (pos : σ → UInt64) (go : σ → Prop) {s : σ}
    (h : ∀ n, go (next^[n] s) → pos (next^[n] s) < pos (next^[n + 1] s)) : ∃ n, ¬ go (next^[n] s) := by
  by_contra hgo
  push Not at hgo
  have hpos : ∀ n, n ≤ (pos (next^[n] s)).toNat := by
    intro n
    induction n with
    | zero => exact Nat.zero_le _
    | succ n ih =>
      have hstep := UInt64.lt_iff_toNat_lt.mp (h n (hgo n))
      omega
  obtain ⟨last, hlast⟩ : ∃ last : Nat, last = 2 ^ 64 := ⟨_, rfl⟩
  have hle := hpos last
  have hlt := (pos (next^[last] s)).toNat_lt
  omega

end Wenas.Machine
