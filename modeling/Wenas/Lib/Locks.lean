import Wenas.Lib.Machine

/-!
# Try-locks

A lock is a flag that a thread sets when it finds it unset. Each thread stands at a place of its program, and a place
tells which locks its thread holds.
-/
namespace Wenas.Locks
open Wenas.Machine

variable {τ κ π : Type} {locks : π → List κ} {place : τ → π} {taken : κ → Bool} {x y : τ} {l : κ} {p : π}

/-- A flag is set exactly when a thread holds its lock, and no two threads hold one lock. -/
structure Exclusive (locks : π → List κ) (place : τ → π) (taken : κ → Bool) : Prop where
  taken_iff : ∀ l, taken l = true ↔ ∃ x, l ∈ locks (place x)
  unique : ∀ l x y, l ∈ locks (place x) → l ∈ locks (place y) → x = y

namespace Exclusive

theorem start (hplace : ∀ x, locks (place x) = []) (htaken : ∀ l, taken l = false) : Exclusive locks place taken := by
  constructor
  · intro l
    simp [htaken, hplace]
  · intro l x y hx
    rw [hplace] at hx
    exact absurd hx List.not_mem_nil

theorem not_mem (h : Exclusive locks place taken) (hl : taken l = false) (x : τ) : l ∉ locks (place x) := by
  intro hx
  rw [(h.taken_iff l).mpr ⟨x, hx⟩] at hl
  exact Bool.noConfusion hl

variable [DecidableEq τ]

/-- A step of one thread keeps the locks exclusive when it keeps each lock, takes it while it is free, or gives it
back. -/
theorem move (h : Exclusive locks place taken) {taken' : κ → Bool}
    (hstep : ∀ l, (taken' l = taken l ∧ (l ∈ locks p ↔ l ∈ locks (place x))) ∨
      (taken l = false ∧ taken' l = true ∧ l ∈ locks p) ∨
      (l ∈ locks (place x) ∧ taken' l = false ∧ l ∉ locks p)) :
    Exclusive locks (Function.update place x p) taken' := by
  have hother : ∀ {y : τ}, y ≠ x → Function.update place x p y = place y := fun hy => Function.update_of_ne hy ..
  constructor
  · intro l
    obtain ⟨hsame, hiff⟩ | ⟨hfree, hset, hmem⟩ | ⟨hheld, hunset, hmem⟩ := hstep l
    · rw [hsame, h.taken_iff]
      refine exists_congr fun y => ?_
      by_cases hy : y = x
      · subst hy
        rw [Function.update_self, hiff]
      · rw [hother hy]
    · refine ⟨fun _ => ⟨x, ?_⟩, fun _ => hset⟩
      rw [Function.update_self]
      exact hmem
    · rw [hunset]
      refine ⟨fun hfalse => Bool.noConfusion hfalse, fun ⟨y, hy⟩ => ?_⟩
      by_cases hyx : y = x
      · subst hyx
        rw [Function.update_self] at hy
        exact absurd hy hmem
      · rw [hother hyx] at hy
        exact absurd (h.unique l y x hy hheld) hyx
  · intro l y z hy hz
    -- a thread other than `x` that holds `l` had it before
    have hbefore : ∀ {z : τ}, z ≠ x → l ∈ locks (Function.update place x p z) → l ∈ locks (place z) := by
      intro z hzx hz
      rwa [hother hzx] at hz
    have hmine : ∀ {z : τ}, z ≠ x → l ∈ locks p → l ∉ locks (place z) := by
      intro z hzx hp hz
      obtain ⟨-, hiff⟩ | ⟨hfree, -⟩ | ⟨-, -, hmem⟩ := hstep l
      · exact hzx (h.unique l z x hz (hiff.mp hp))
      · exact h.not_mem hfree z hz
      · exact hmem hp
    by_cases hyx : y = x
    · by_cases hzx : z = x
      · rw [hyx, hzx]
      · subst hyx
        rw [Function.update_self] at hy
        exact absurd (hbefore hzx hz) (hmine hzx hy)
    · by_cases hzx : z = x
      · subst hzx
        rw [Function.update_self] at hz
        exact absurd (hbefore hyx hy) (hmine hyx hz)
      · exact h.unique l y z (hbefore hyx hy) (hbefore hzx hz)

theorem stay (h : Exclusive locks place taken) (hp : ∀ l, l ∈ locks p ↔ l ∈ locks (place x)) :
    Exclusive locks (Function.update place x p) taken :=
  h.move fun l => .inl ⟨rfl, hp l⟩

variable [DecidableEq κ]

theorem take (h : Exclusive locks place taken) (hfree : taken l = false)
    (hp : ∀ m, m ∈ locks p ↔ m = l ∨ m ∈ locks (place x)) :
    Exclusive locks (Function.update place x p) (Function.update taken l true) := by
  refine h.move fun m => ?_
  by_cases hm : m = l
  · subst hm
    exact .inr (.inl ⟨hfree, Function.update_self .., (hp m).mpr (.inl rfl)⟩)
  · refine .inl ⟨Function.update_of_ne hm .., ?_⟩
    rw [hp, or_iff_right hm]

theorem give (h : Exclusive locks place taken) (hheld : l ∈ locks (place x))
    (hp : ∀ m, m ∈ locks p ↔ m ∈ locks (place x) ∧ m ≠ l) :
    Exclusive locks (Function.update place x p) (Function.update taken l false) := by
  refine h.move fun m => ?_
  by_cases hm : m = l
  · subst hm
    refine .inr (.inr ⟨hheld, Function.update_self .., fun hmem => ?_⟩)
    exact ((hp m).mp hmem).2 rfl
  · refine .inl ⟨Function.update_of_ne hm .., ?_⟩
    rw [hp, and_iff_left hm]

end Exclusive

/-- What is left of a call goes down with each step of its own thread, and other threads do not add to it. Then it is
done when the thread has moved often enough. -/
theorem ends_within {σ ι : Type} {step : σ → ι → σ} {P : σ → ι → Prop} {done : σ → Prop} (mine : ι → Bool)
    (left : σ → Nat → Prop) (hzero : ∀ s, left s 0 → done s)
    (hstep : ∀ s i n, left s n → ¬ done s → P s i → ∃ m, left (step s i) m ∧ m + (mine i).toNat ≤ n)
    {s : σ} {is : List ι} {n : Nat} (h : Along step P s is) (hs : left s n) (hn : n ≤ is.countP mine) :
    ∃ is₁ is₂, is = is₁ ++ is₂ ∧ done (run step s is₁) := by
  induction is generalizing s n with
  | nil =>
    have hnil : n = 0 := Nat.le_zero.mp hn
    subst hnil
    exact ⟨[], [], rfl, hzero s hs⟩
  | cons i is ih =>
    by_cases hdone : done s
    · exact ⟨[], i :: is, rfl, hdone⟩
    · obtain ⟨m, hm, hle⟩ := hstep s i n hs hdone h.1
      have hcount : m ≤ is.countP mine := by
        rw [List.countP_cons] at hn
        cases hi : mine i <;> simp [hi] at hn hle <;> omega
      obtain ⟨is₁, is₂, rfl, hend⟩ := ih h.2 hm hcount
      exact ⟨i :: is₁, is₂, rfl, hend⟩

end Wenas.Locks
