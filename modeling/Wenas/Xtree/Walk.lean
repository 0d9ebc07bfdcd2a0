import Wenas.Xtree.Nodes

/-!
# The order of a walk

A walk over the children of each node meets the nodes in the order of their paths, or in the opposite order. After a
place `p ++ [i]` come the places to its right, and then what comes after all that is below `p`.
-/
namespace Wenas.Xtree

variable {p q r : List Nibble} {i j : Nibble}

/-- The path comes after all that begin with `p`. -/
def After (p q : List Nibble) : Prop := p < q ∧ ¬ p <+: q

instance : Decidable (After p q) := inferInstanceAs (Decidable (_ ∧ _))

theorem not_after_nil : ¬ After [] q := fun h => h.2 List.nil_prefix

theorem not_lt_of_begins (h : p <+: q) : ¬ q < p := by
  obtain ⟨r, rfl⟩ := h
  cases r with
  | nil => simp
  | cons i r => exact lt_asymm (lt_append p i r)

theorem not_lt_iff : ¬ q < p ↔ p <+: q ∨ After p q := by
  constructor
  · intro h
    by_cases hbegins : p <+: q
    · exact .inl hbegins
    · refine .inr ⟨lt_of_le_of_ne (not_lt.mp h) ?_, hbegins⟩
      rintro rfl
      exact hbegins (List.prefix_refl p)
  · rintro (hbegins | hafter)
    · exact not_lt_of_begins hbegins
    · exact lt_asymm hafter.1

theorem cons_after_cons : After (i :: p) (j :: q) ↔ i < j ∨ i = j ∧ After p q := by
  rw [After, After, List.cons_lt_cons_iff, List.cons_prefix_cons]
  constructor
  · rintro ⟨hlt | ⟨rfl, hlt⟩, hnot⟩
    · exact .inl hlt
    · exact .inr ⟨rfl, hlt, fun hbegins => hnot ⟨rfl, hbegins⟩⟩
  · rintro (hlt | ⟨rfl, hlt, hnot⟩)
    · exact ⟨.inl hlt, fun h => hlt.ne h.1⟩
    · exact ⟨.inr ⟨rfl, hlt⟩, fun h => hnot h.2⟩

theorem not_after_empty : ¬ After p [] := fun h => List.not_lt_nil p h.1

/-- After a place comes the next one. -/
theorem after_concat (h : j.val = i.val + 1) : After (p ++ [i]) q ↔ ¬ q < p ++ [j] := by
  induction p generalizing q with
  | nil =>
    cases q with
    | nil => simp [not_after_empty]
    | cons k q =>
      simp only [List.nil_append, cons_after_cons, not_after_nil, List.cons_lt_cons_iff, List.not_lt_nil, and_false,
        or_false, Fin.lt_def]
      omega
  | cons a p ih =>
    cases q with
    | nil => simp [not_after_empty]
    | cons k q =>
      rw [List.cons_append, List.cons_append, cons_after_cons, List.cons_lt_cons_iff, ih]
      by_cases heq : a = k
      · simp [heq]
      · simp only [heq, false_and, or_false, Ne.symm heq, not_lt]
        exact (lt_iff_le_and_ne.trans (and_iff_left heq))

/-- After the last place comes what is after the node. -/
theorem after_last : After (p ++ [15]) q ↔ After p q := by
  induction p generalizing q with
  | nil =>
    cases q with
    | nil => simp [not_after_empty]
    | cons k q =>
      simp only [List.nil_append, cons_after_cons, not_after_nil, and_false, or_false, iff_false]
      exact not_lt.mpr (Fin.le_last k)
  | cons a p ih =>
    cases q with
    | nil => simp [not_after_empty]
    | cons k q => rw [List.cons_append, cons_after_cons, cons_after_cons, ih]

/-- The first place of a node follows the node. -/
theorem lt_first : q < p ++ [0] ↔ q < p ∨ q = p := by
  induction p generalizing q with
  | nil =>
    cases q with
    | nil => simp
    | cons k q => simp [List.cons_lt_cons_iff]
  | cons a p ih =>
    cases q with
    | nil => simp
    | cons k q =>
      rw [List.cons_append, List.cons_lt_cons_iff, List.cons_lt_cons_iff, ih, List.cons.injEq]
      tauto

/-- Two parts of an ordered list, one before the other. -/
theorem filter_split {α : Type} {r : α → α → Prop} [Std.Asymm r] {l : List α} {P A B : α → Bool} (hl : l.Pairwise r)
    (hP : ∀ x ∈ l, P x = (A x || B x)) (horder : ∀ x ∈ l, ∀ y ∈ l, A x = true → B y = true → r x y) :
    l.filter P = l.filter A ++ l.filter B := by
  induction hl with
  | nil => rfl
  | @cons a l hfirst _ ih =>
    have hrest := ih (fun x hx => hP x (List.mem_cons_of_mem a hx)) fun x hx y hy =>
      horder x (List.mem_cons_of_mem a hx) y (List.mem_cons_of_mem a hy)
    have ha := hP a List.mem_cons_self
    cases hB : B a with
    | false =>
      rw [hB, Bool.or_false] at ha
      cases hA : A a with
      | false => simp [ha, hA, hB, hrest]
      | true => simp [ha, hA, hB, hrest]
    | true =>
      -- All before `a` is in the first part, so that none after it is.
      have hnone : ∀ x ∈ a :: l, A x = false := by
        intro x hx
        by_contra hAx
        have hbefore := horder x hx a List.mem_cons_self (by simpa using hAx) hB
        obtain rfl | hin := List.mem_cons.mp hx
        · exact Std.Asymm.asymm _ _ hbefore hbefore
        · exact Std.Asymm.asymm _ _ hbefore (hfirst x hin)
      have hempty : (a :: l).filter A = [] := List.filter_eq_nil_iff.mpr fun x hx => by simp [hnone x hx]
      rw [hempty, List.nil_append]
      refine List.filter_congr fun x hx => ?_
      rw [hP x hx, hnone x hx, Bool.false_or]

/-- One element of an ordered list. -/
theorem filter_one {α : Type} [DecidableEq α] {r : α → α → Prop} [Std.Asymm r] {l : List α} {P : α → Bool} {a : α}
    (hl : l.Pairwise r) (ha : a ∈ l) (hP : ∀ x ∈ l, P x = true ↔ x = a) : l.filter P = [a] := by
  have hnodup : l.Nodup := by
    refine hl.imp ?_
    rintro x _ hxx rfl
    exact Std.Asymm.asymm _ _ hxx hxx
  have hsame : l.filter P = l.filter fun x => decide (x = a) := by
    refine List.filter_congr fun x hx => ?_
    rw [Bool.eq_iff_iff, hP x hx, decide_eq_true_iff]
  rw [hsame, List.filter_eq, List.count_eq_one_of_mem hnodup ha, List.replicate_one]

/-- One element of an ordered list, and others after it. -/
theorem filter_first {α : Type} [DecidableEq α] {r : α → α → Prop} [Std.Asymm r] {l : List α} {P B : α → Bool} {a : α}
    (hl : l.Pairwise r) (ha : a ∈ l) (hP : ∀ x ∈ l, P x = true ↔ x = a ∨ B x = true)
    (horder : ∀ y ∈ l, B y = true → r a y) : l.filter P = a :: l.filter B := by
  have hone : l.filter (fun x => decide (x = a)) = [a] := filter_one hl ha fun x _ => decide_eq_true_iff
  rw [filter_split (A := fun x => decide (x = a)) (B := B) hl, hone, List.singleton_append]
  · intro x hx
    rw [Bool.eq_iff_iff, hP x hx]
    simp
  · intro x _ y hy hxa hBy
    rw [of_decide_eq_true hxa]
    exact horder y hy hBy

/-- The part of an ordered list before one of its elements. -/
theorem mem_before {α : Type} {r : α → α → Prop} [Std.Asymm r] {u v : List α} {a x : α}
    (hl : (u ++ a :: v).Pairwise r) : x ∈ u ↔ x ∈ u ++ a :: v ∧ r x a := by
  obtain ⟨-, hright, hcross⟩ := List.pairwise_append.mp hl
  constructor
  · exact fun hx => ⟨List.mem_append_left _ hx, hcross x hx a List.mem_cons_self⟩
  · rintro ⟨hx, hxa⟩
    obtain hx | hx := List.mem_append.mp hx
    · exact hx
    obtain rfl | hx := List.mem_cons.mp hx
    · exact absurd hxa (Std.Asymm.asymm _ _ hxa)
    · exact absurd hxa (Std.Asymm.asymm _ _ (List.rel_of_pairwise_cons hright hx))

/-- The first elements of an ordered list have what more of its elements have, if it goes with the order. -/
theorem take_filter {α : Type} {r : α → α → Prop} {l : List α} {P : α → Bool} {n : Nat} (hl : l.Pairwise r)
    (hP : ∀ x ∈ l, ∀ y ∈ l, r x y → P y = true → P x = true) (hn : n ≤ (l.filter P).length) :
    ∀ x ∈ l.take n, P x = true := by
  induction hl generalizing n with
  | nil => simp
  | @cons a l hfirst _ ih =>
    cases n with
    | zero => simp
    | succ n =>
      have hrest : ∀ x ∈ l, ∀ y ∈ l, r x y → P y = true → P x = true := fun x hx y hy =>
        hP x (List.mem_cons_of_mem a hx) y (List.mem_cons_of_mem a hy)
      cases ha : P a with
      | true =>
        rw [List.filter_cons_of_pos ha, List.length_cons] at hn
        intro x hx
        obtain rfl | hx := List.mem_cons.mp (List.take_succ_cons ▸ hx)
        · exact ha
        · exact ih hrest (Nat.le_of_succ_le_succ hn) x hx
      | false =>
        have hnone : (a :: l).filter P = [] := by
          rw [List.filter_cons_of_neg (by simp [ha]), List.filter_eq_nil_iff]
          intro y hy hPy
          rw [hP a List.mem_cons_self y (List.mem_cons_of_mem a hy) (hfirst y hy) hPy] at ha
          cases ha
        rw [hnone] at hn
        cases hn

/-- The first elements of a list pass a filter. -/
theorem filter_take {α : Type} {l : List α} {P : α → Bool} {n : Nat} :
    (l.filter P).take n = l.take n ↔ ∀ x ∈ l.take n, P x = true := by
  constructor
  · intro heq x hx
    exact (List.mem_filter.mp (List.mem_of_mem_take (heq ▸ hx))).2
  · intro hall
    induction l generalizing n with
    | nil => rfl
    | cons a l ih =>
      cases n with
      | zero => simp
      | succ n =>
        rw [List.take_succ_cons] at hall
        rw [List.filter_cons_of_pos (hall a List.mem_cons_self), List.take_succ_cons, List.take_succ_cons,
          ih fun x hx => hall x (List.mem_cons_of_mem a hx)]

theorem After.append_lt (h : After p q) (r : List Nibble) : p ++ r < q := by
  induction p generalizing q with
  | nil => exact absurd h not_after_nil
  | cons i p ih =>
    cases q with
    | nil => exact absurd h not_after_empty
    | cons j q =>
      rw [List.cons_append, List.cons_lt_cons_iff]
      exact (cons_after_cons.mp h).imp_right fun hrest => ⟨hrest.1, ih hrest.2⟩

end Wenas.Xtree
