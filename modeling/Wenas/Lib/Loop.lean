import Mathlib

/-!
# Loops with an end

A loop makes turns until one of them stops it. A turn may also fail, and then the loop has no end.
-/
namespace Wenas.Loop

inductive Turn (σ : Type) where
  | go (s : σ)
  | stop
  | fail

variable {σ : Type} {step : σ → Turn σ} {s t u : σ}

/-- At most `n` turns. -/
def loop (step : σ → Turn σ) : Nat → σ → Option σ
  | 0, _ => none
  | n + 1, s =>
    match step s with
    | .go t => loop step n t
    | .stop => some s
    | .fail => none

/-- The loop ends with `t`, for any number of turns that is large enough. -/
def Ends (step : σ → Turn σ) (s t : σ) : Prop := ∃ k, ∀ n ≥ k, loop step n s = some t

theorem Ends.stop (h : step s = .stop) : Ends step s s := by
  refine ⟨1, fun n hn => ?_⟩
  obtain ⟨n, rfl⟩ := Nat.exists_eq_succ_of_ne_zero (Nat.one_le_iff_ne_zero.mp hn)
  simp [loop, h]

theorem Ends.go (h : step s = .go t) (hends : Ends step t u) : Ends step s u := by
  obtain ⟨k, hk⟩ := hends
  refine ⟨k + 1, fun n hn => ?_⟩
  obtain ⟨n, rfl⟩ := Nat.exists_eq_succ_of_ne_zero (by omega : n ≠ 0)
  rw [loop, h]
  exact hk n (by omega)

theorem Ends.unique (h : Ends step s t) (h' : Ends step s u) : t = u := by
  obtain ⟨k, hk⟩ := h
  obtain ⟨l, hl⟩ := h'
  exact Option.some.inj ((hk (k + l) (by omega)).symm.trans (hl (k + l) (by omega)))

/-- A loop whose turns keep an invariant and lower a measure ends, where a turn stops it. -/
theorem ends_of_measure {Inv : σ → Prop} (measure : σ → Nat) (hfail : ∀ s, Inv s → step s ≠ .fail)
    (hgo : ∀ s t, Inv s → step s = .go t → Inv t ∧ measure t < measure s) (hs : Inv s) :
    ∃ t, Ends step s t ∧ Inv t ∧ step t = .stop := by
  induction hm : measure s using Nat.strong_induction_on generalizing s with
  | _ m ih =>
    cases hturn : step s with
    | fail => exact absurd hturn (hfail s hs)
    | stop => exact ⟨s, .stop hturn, hs, hturn⟩
    | go t =>
      obtain ⟨ht, hlt⟩ := hgo s t hs hturn
      obtain ⟨u, hends, hu⟩ := ih (measure t) (hm ▸ hlt) ht rfl
      exact ⟨u, .go hturn hends, hu⟩

/-- A loop each of whose turns either stops it as it should or goes on, with an invariant and a lower measure, ends as
it should. -/
theorem ends_of_turn {Inv Done : σ → Prop} (measure : σ → Nat)
    (hturn : ∀ s, Inv s → step s = .stop ∧ Done s ∨ ∃ t, step s = .go t ∧ Inv t ∧ measure t < measure s) (hs : Inv s) :
    ∃ t, Ends step s t ∧ Inv t ∧ Done t := by
  have hfail : ∀ t, Inv t → step t ≠ .fail := by
    intro t ht hfail
    obtain ⟨hstop, -⟩ | ⟨u, hgo, -⟩ := hturn t ht
    · rw [hstop] at hfail
      cases hfail
    · rw [hgo] at hfail
      cases hfail
  have hgo : ∀ t u, Inv t → step t = .go u → Inv u ∧ measure u < measure t := by
    intro t u ht hgo
    obtain ⟨hstop, -⟩ | ⟨v, hgo', hv⟩ := hturn t ht
    · rw [hstop] at hgo
      cases hgo
    · rw [hgo'] at hgo
      cases hgo
      exact hv
  obtain ⟨t, hends, ht, hstop⟩ := ends_of_measure measure hfail hgo hs
  obtain ⟨-, hdone⟩ | ⟨u, hgo, -⟩ := hturn t ht
  · exact ⟨t, hends, ht, hdone⟩
  · rw [hgo] at hstop
    cases hstop

/-! ### What contains a loop -/

/-- The result for any number of turns that is large enough. -/
def Yields {β : Type} (f : Nat → Option β) (v : β) : Prop := ∃ k, ∀ n ≥ k, f n = some v

section

variable {β γ : Type} {f : Nat → Option β} {g : Nat → β → Option γ} {v : β} {w : γ}

theorem Yields.pure : Yields (fun _ => some v) v := ⟨0, fun _ _ => rfl⟩

theorem Yields.unique {w : β} (h : Yields f v) (h' : Yields f w) : v = w := by
  obtain ⟨k, hk⟩ := h
  obtain ⟨l, hl⟩ := h'
  exact Option.some.inj ((hk (k + l) (by omega)).symm.trans (hl (k + l) (by omega)))

theorem Yields.bind (hf : Yields f v) (hg : Yields (fun n => g n v) w) : Yields (fun n => (f n).bind (g n)) w := by
  obtain ⟨k, hk⟩ := hf
  obtain ⟨l, hl⟩ := hg
  refine ⟨k + l, fun n hn => ?_⟩
  show (f n).bind (g n) = some w
  rw [hk n (by omega), Option.bind_some]
  exact hl n (by omega)

theorem Yields.map {e : β → γ} (hf : Yields f v) : Yields (fun n => (f n).map e) (e v) := by
  obtain ⟨k, hk⟩ := hf
  exact ⟨k, fun n hn => congrArg (Option.map e) (hk n hn)⟩

theorem Ends.yields (h : Ends step s t) : Yields (fun n => loop step n s) t := h

end

end Wenas.Loop
