import Mathlib

/-!
# Doubly linked lists

The nodes between two sentinels, in order, as the links of an arbitrary heap give them. Each rule takes the links of
the new heap only at the nodes it is about.
-/
namespace Wenas.Links

variable {α : Type} {next prev next' prev' : α → α} {a b c q x z : α} {l r : List α}

/-- From `a` the links lead over `l` to `z`, and back. -/
def Linked (next prev : α → α) : α → List α → α → Prop
  | a, [], z => next a = z ∧ prev z = a
  | a, b :: l, z => next a = b ∧ prev b = a ∧ Linked next prev b l z

theorem Linked.congr (h : Linked next prev a l z) (hnext : ∀ x ∈ a :: l, next' x = next x)
    (hprev : ∀ x ∈ l ++ [z], prev' x = prev x) : Linked next' prev' a l z := by
  induction l generalizing a with
  | nil => exact ⟨(hnext a (by simp)).trans h.1, (hprev z (by simp)).trans h.2⟩
  | cons b l ih =>
    refine ⟨(hnext a (by simp)).trans h.1, (hprev b (by simp)).trans h.2.1, ih h.2.2 ?_ ?_⟩
    · intro x hx
      exact hnext x (List.mem_cons_of_mem _ hx)
    · intro x hx
      exact hprev x (List.mem_cons_of_mem _ hx)

theorem linked_append : Linked next prev a (l ++ b :: r) z ↔ Linked next prev a l b ∧ Linked next prev b r z := by
  induction l generalizing a with
  | nil => simp [Linked, and_assoc]
  | cons c l ih => simp [Linked, ih, and_assoc]

theorem Linked.prev_mem (h : Linked next prev a l z) : prev z ∈ a :: l := by
  induction l generalizing a with
  | nil => simp [h.2]
  | cons b l ih => exact List.mem_cons_of_mem _ (ih h.2.2)

theorem Linked.next_mem (h : Linked next prev a l z) : next a ∈ l ++ [z] := by
  cases l with
  | nil => simp [h.1]
  | cons b l => simp [h.1]

variable [DecidableEq α]

/-- The last link leads to another node. -/
theorem Linked.retarget (h : Linked next prev a l z) (hnodup : (a :: l).Nodup)
    (hnext : ∀ x ∈ a :: l, next' x = if x = prev z then c else next x) (hback : prev' c = prev z)
    (hprev : ∀ x ∈ l, prev' x = prev x) : Linked next' prev' a l c := by
  induction l generalizing a with
  | nil =>
    obtain ⟨-, hz⟩ := h
    refine ⟨?_, hback.trans hz⟩
    rw [hnext a (by simp), if_pos hz.symm]
  | cons b l ih =>
    obtain ⟨hab, hba, hrest⟩ := h
    obtain ⟨ha, hnodup⟩ := List.nodup_cons.mp hnodup
    refine ⟨?_, (hprev b (by simp)).trans hba, ih hrest hnodup ?_ ?_⟩
    · have hne : a ≠ prev z := by
        intro heq
        exact ha (heq ▸ hrest.prev_mem)
      rw [hnext a (by simp), if_neg hne, hab]
    · intro x hx
      exact hnext x (List.mem_cons_of_mem _ hx)
    · intro x hx
      exact hprev x (List.mem_cons_of_mem _ hx)

/-- The first link starts at another node. -/
theorem Linked.resource (h : Linked next prev a l z) (hnodup : (l ++ [z]).Nodup) (hfirst : next' c = next a)
    (hprev : ∀ x ∈ l ++ [z], prev' x = if x = next a then c else prev x) (hnext : ∀ x ∈ l, next' x = next x) :
    Linked next' prev' c l z := by
  cases l with
  | nil =>
    refine ⟨hfirst.trans h.1, ?_⟩
    rw [hprev z (by simp), if_pos h.1.symm]
  | cons b l =>
    obtain ⟨hab, hba, hrest⟩ := h
    refine ⟨hfirst.trans hab, ?_, hrest.congr hnext ?_⟩
    · rw [hprev b (by simp), if_pos hab.symm]
    · intro x hx
      have hne : x ≠ next a := by
        rw [hab]
        rintro rfl
        exact (List.nodup_cons.mp hnodup).1 hx
      rw [hprev x (List.mem_cons_of_mem _ hx), if_neg hne]

/-- A node is taken out. -/
theorem Linked.unlink (h : Linked next prev a (l ++ q :: r) z) (hfront : (a :: (l ++ q :: r)).Nodup)
    (hback : (l ++ q :: r ++ [z]).Nodup)
    (hnext : ∀ x ∈ a :: (l ++ r), next' x = if x = prev q then next q else next x)
    (hprev : ∀ x ∈ l ++ r ++ [z], prev' x = if x = next q then prev q else prev x) :
    Linked next' prev' a (l ++ r) z := by
  obtain ⟨hleft, hright⟩ := linked_append.mp h
  have hlast := hleft.prev_mem
  have hfirst := hright.next_mem
  obtain ⟨hl, -, hfront⟩ := List.nodup_append.mp (show (a :: l ++ q :: r).Nodup by simpa using hfront)
  obtain ⟨-, hq, hback⟩ := List.nodup_append.mp (show (l ++ q :: (r ++ [z])).Nodup by simpa using hback)
  have hr : (r ++ [z]).Nodup := (List.nodup_cons.mp hq).2
  have hbefore : ∀ x ∈ l, x ∉ r ++ [z] := fun x hx hx' => hback x hx x (List.mem_cons_of_mem _ hx') rfl
  have hafter : ∀ x ∈ a :: l, x ∉ r := fun x hx hx' => hfront x hx x (List.mem_cons_of_mem _ hx') rfl
  cases r with
  | nil =>
    have hz : next q = z := hright.1
    rw [List.append_nil] at hnext hprev ⊢
    refine hleft.retarget hl (fun x hx => ?_) ?_ (fun x hx => ?_)
    · rw [hnext x hx, hz]
    · rw [hprev z (by simp), if_pos hz.symm]
    · rw [hprev x (by simp [hx]), if_neg]
      rintro rfl
      exact hbefore _ hx hfirst
  | cons c r =>
    have hc : next q = c := hright.1
    refine linked_append.mpr ⟨hleft.retarget hl (fun x hx => ?_) ?_ (fun x hx => ?_), hright.2.2.congr (fun x hx => ?_)
      (fun x hx => ?_)⟩
    · rw [hnext x (by simp only [List.mem_cons, List.mem_append] at hx ⊢; tauto), hc]
    · rw [hprev c (by simp), if_pos hc.symm]
    · rw [hprev x (by simp [hx]), if_neg]
      rintro rfl
      exact hbefore _ hx hfirst
    · rw [hnext x (by simp only [List.mem_cons, List.mem_append] at hx ⊢; tauto), if_neg]
      rintro rfl
      exact hafter _ hlast hx
    · rw [hprev x (by simp only [List.mem_cons, List.mem_append] at hx ⊢; tauto), if_neg]
      rintro rfl
      rw [hc] at hx
      exact (List.nodup_cons.mp hr).1 hx

/-- A node is put in behind the first sentinel. -/
theorem Linked.pushFront (h : Linked next prev a l z) (hfront : (a :: l).Nodup) (hback : (l ++ [z]).Nodup)
    (hx : x ∉ a :: l ++ [z])
    (hnext : ∀ y ∈ a :: x :: l, next' y = if y = a then x else if y = x then next a else next y)
    (hprev : ∀ y ∈ x :: l ++ [z], prev' y = if y = next a then x else if y = x then a else prev y) :
    Linked next' prev' a (x :: l) z := by
  have hfirst := h.next_mem
  have hxa : x ≠ a := by
    rintro rfl
    exact hx (by simp)
  have hxn : x ≠ next a := by
    rintro rfl
    exact hx (List.mem_cons_of_mem _ hfirst)
  refine ⟨?_, ?_, h.resource hback ?_ (fun y hy => ?_) (fun y hy => ?_)⟩
  · rw [hnext a (by simp), if_pos rfl]
  · rw [hprev x (by simp), if_neg hxn, if_pos rfl]
  · rw [hnext x (by simp), if_neg hxa, if_pos rfl]
  · have hyx : y ≠ x := by
      rintro rfl
      exact hx (List.mem_cons_of_mem _ hy)
    rw [hprev y (List.mem_cons_of_mem _ hy), if_neg hyx]
  · have hya : y ≠ a := by
      rintro rfl
      exact (List.nodup_cons.mp hfront).1 hy
    have hyx : y ≠ x := by
      rintro rfl
      exact hx (List.mem_cons_of_mem _ (List.mem_append_left _ hy))
    rw [hnext y (by simp [hy]), if_neg hya, if_neg hyx]

/-- A node is put in behind another one. -/
theorem Linked.pushAfter (h : Linked next prev a (l ++ q :: r) z) (hfront : (a :: (l ++ q :: r)).Nodup)
    (hback : (l ++ q :: r ++ [z]).Nodup) (hx : x ∉ a :: (l ++ q :: r) ++ [z])
    (hnext : ∀ y ∈ a :: (l ++ q :: x :: r), next' y = if y = q then x else if y = x then next q else next y)
    (hprev : ∀ y ∈ l ++ q :: x :: r ++ [z], prev' y = if y = next q then x else if y = x then q else prev y) :
    Linked next' prev' a (l ++ q :: x :: r) z := by
  obtain ⟨hleft, hright⟩ := linked_append.mp h
  have hfirst := hright.next_mem
  obtain ⟨-, hqr, hfront⟩ := List.nodup_append.mp (show (a :: l ++ q :: r).Nodup by simpa using hfront)
  obtain ⟨-, hqz, hback⟩ := List.nodup_append.mp (show (l ++ q :: (r ++ [z])).Nodup by simpa using hback)
  refine linked_append.mpr ⟨hleft.congr (fun y hy => ?_) (fun y hy => ?_), hright.pushFront hqr
    (List.nodup_cons.mp hqz).2 (fun hx' => hx ?_) (fun y hy => ?_) (fun y hy => ?_)⟩
  · have hyq : y ≠ q := hfront y hy q List.mem_cons_self
    have hyx : y ≠ x := by
      rintro rfl
      exact hx (by simp only [List.mem_cons, List.mem_append] at hy ⊢; tauto)
    rw [hnext y (by simp only [List.mem_cons, List.mem_append] at hy ⊢; tauto), if_neg hyq, if_neg hyx]
  · have hyn : y ≠ next q := by
      rintro rfl
      obtain hy | hy := List.mem_append.mp hy
      · exact hback _ hy _ (List.mem_cons_of_mem _ hfirst) rfl
      · rw [List.mem_singleton.mp hy] at hfirst
        exact (List.nodup_cons.mp hqz).1 hfirst
    have hyx : y ≠ x := by
      rintro rfl
      exact hx (by simp only [List.mem_cons, List.mem_append, List.not_mem_nil, or_false] at hy ⊢; tauto)
    rw [hprev y (by simp only [List.mem_cons, List.mem_append, List.not_mem_nil, or_false] at hy ⊢; tauto),
      if_neg hyn, if_neg hyx]
  · simp only [List.mem_cons, List.mem_append] at hx' ⊢
    tauto
  · exact hnext y (by simp only [List.mem_cons, List.mem_append] at hy ⊢; tauto)
  · exact hprev y (by simp only [List.mem_cons, List.mem_append] at hy ⊢; tauto)

/-- A node is put in before the last sentinel. -/
theorem Linked.pushBack (h : Linked next prev a l z) (hl : (a :: l).Nodup) (hback : (l ++ [z]).Nodup)
    (hx : x ∉ a :: l ++ [z])
    (hnext : ∀ y ∈ a :: (l ++ [x]), next' y = if y = prev z then x else if y = x then z else next y)
    (hprev : ∀ y ∈ l ++ [x] ++ [z], prev' y = if y = z then x else if y = x then prev z else prev y) :
    Linked next' prev' a (l ++ [x]) z := by
  have hlast := h.prev_mem
  have hxz : x ≠ z := by
    rintro rfl
    exact hx (by simp)
  have hxp : x ≠ prev z := by
    rintro rfl
    exact hx (List.mem_append_left _ hlast)
  refine linked_append.mpr ⟨h.retarget hl (fun y hy => ?_) ?_ (fun y hy => ?_), ?_, ?_⟩
  · have hyx : y ≠ x := by
      rintro rfl
      exact hx (List.mem_append_left _ hy)
    rw [hnext y (by simp only [List.mem_cons, List.mem_append] at hy ⊢; tauto), if_neg hyx]
  · rw [hprev x (by simp), if_neg hxz, if_pos rfl]
  · have hyx : y ≠ x := by
      rintro rfl
      exact hx (List.mem_append_left _ (List.mem_cons_of_mem _ hy))
    have hyz : y ≠ z := by
      rintro rfl
      exact (List.nodup_append.mp hback).2.2 y hy y (by simp) rfl
    rw [hprev y (by simp [hy]), if_neg hyz, if_neg hyx]
  · rw [hnext x (by simp), if_neg hxp, if_pos rfl]
  · rw [hprev z (by simp), if_pos rfl]

end Wenas.Links
