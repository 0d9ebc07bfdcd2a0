import Wenas.Xlib.Avlmini

/-!
# The heights of `avlmini.c`

Each node stores the height of its trees, and they differ by one at most. Adding makes a subtree higher by one at most
and removing makes it lower by one at most, so that one turn of a loop over the ancestors mends what the turn before
has left.
-/
namespace Wenas.Xlib.Avl

variable {α : Type} {c : α → Int} {x y p q : α} {l r l' r' t t' : Avl α} {h : Nat} {going : Bool}

/-- Each node has the right height, and its trees differ by one at most. -/
def Balanced : Avl α → Prop
  | nil => True
  | node h l _ r => h = max l.height r.height + 1 ∧ l.height ≤ r.height + 1 ∧ r.height ≤ l.height + 1 ∧
    l.Balanced ∧ r.Balanced

@[simp] theorem height_nil : (nil : Avl α).height = 0 := rfl

@[simp] theorem height_node : (node h l x r).height = h := rfl

@[simp] theorem height_update : (update l x r).height = max l.height r.height + 1 := rfl

@[simp] theorem balanced_update : (update l x r).Balanced ↔
    l.height ≤ r.height + 1 ∧ r.height ≤ l.height + 1 ∧ l.Balanced ∧ r.Balanced := by
  simp [update, Balanced]

/-- A tree that is higher by two on the right gets its balance back. -/
theorem fixL_balanced (hl : l.Balanced) (hr : r.Balanced) (hdiff : r.height = l.height + 2) :
    (fixL l x r).Balanced ∧ r.height ≤ (fixL l x r).height ∧ (fixL l x r).height ≤ r.height + 1 := by
  match r with
  | nil => simp at hdiff
  | node _ nil z d =>
    obtain ⟨hh, hle, hge, -, hd⟩ := hr
    simp only [height_node, height_nil] at hh hle hge hdiff
    have hheights : d.height = 1 ∧ l.height = 0 := by omega
    simp [fixL, hl, hd, hh, hheights, Balanced]
  | node _ (node h a y b) z d =>
    obtain ⟨hh, hle, hge, ⟨hh', hle', hge', ha, hb⟩, hd⟩ := hr
    simp only [height_node] at hh hle hge hdiff
    rw [fixL]
    split
    · have hheights : d.height = l.height ∧ h = l.height + 1 := by omega
      simp only [balanced_update, height_update, height_node, hl, ha, hb, hd, and_true]
      omega
    · have hheights : d.height = l.height + 1 ∧ l.height ≤ h ∧ h ≤ d.height := by omega
      simp only [balanced_update, height_update, height_node, hl, ha, hb, hd, and_true, Balanced]
      grind

/-- The same on the left. -/
theorem fixR_balanced (hl : l.Balanced) (hr : r.Balanced) (hdiff : l.height = r.height + 2) :
    (fixR x r l).Balanced ∧ l.height ≤ (fixR x r l).height ∧ (fixR x r l).height ≤ l.height + 1 := by
  match l with
  | nil => simp at hdiff
  | node _ a y nil =>
    obtain ⟨hh, hle, hge, ha, -⟩ := hl
    simp only [height_node, height_nil] at hh hle hge hdiff
    have hheights : a.height = 1 ∧ r.height = 0 := by omega
    simp [fixR, ha, hr, hh, hheights, Balanced]
  | node _ a y (node h b z d) =>
    obtain ⟨hh, hle, hge, ha, ⟨hh', hle', hge', hb, hd⟩⟩ := hl
    simp only [height_node] at hh hle hge hdiff
    rw [fixR]
    split
    · have hheights : a.height = r.height ∧ h = r.height + 1 := by omega
      simp only [balanced_update, height_update, height_node, hr, ha, hb, hd, and_true]
      omega
    · have hheights : a.height = r.height + 1 ∧ r.height ≤ h ∧ h ≤ a.height := by omega
      simp only [balanced_update, height_update, height_node, hr, ha, hb, hd, and_true, Balanced]
      grind

theorem fix_balanced (hl : l.Balanced) (hr : r.Balanced) (hle : l.height ≤ r.height + 2) (hge : r.height ≤ l.height + 2)
    (hh : h = max l.height r.height + 1) :
    (fix h l x r).Balanced ∧ max l.height r.height ≤ (fix h l x r).height ∧ (fix h l x r).height ≤ h ∧
      (l.height ≤ r.height + 1 → r.height ≤ l.height + 1 → (fix h l x r).height = h) := by
  rw [fix]
  split
  · obtain ⟨hbalanced, hlow, hhigh⟩ := fixL_balanced (x := x) hl hr (by omega)
    exact ⟨hbalanced, by omega, by omega, by omega⟩
  · split
    · obtain ⟨hbalanced, hlow, hhigh⟩ := fixR_balanced (x := x) hl hr (by omega)
      exact ⟨hbalanced, by omega, by omega, by omega⟩
    · exact ⟨⟨hh, by omega, by omega, hl, hr⟩, by simp only [height_node]; omega, le_rfl, fun _ _ => rfl⟩

/-! ### Adding -/

/-- The tree is balanced and higher by one at most, and as high as before where the loop has stopped. -/
def Grown (t : Avl α) (s : Avl α × Bool) : Prop :=
  s.1.Balanced ∧ t.height ≤ s.1.height ∧ s.1.height ≤ t.height + 1 ∧ (s.2 = false → s.1.height = t.height)

theorem postInsert_left (hb : (node h l x r).Balanced) (hl : l'.Balanced) (hle : l.height ≤ l'.height)
    (hge : l'.height ≤ l.height + 1) : Grown (node h l x r) (postInsert h l' x r) := by
  obtain ⟨hh, hlr, hrl, -, hr⟩ := hb
  rw [postInsert]
  split
  · rename_i heq
    exact ⟨⟨heq, by omega, by omega, hl, hr⟩, le_rfl, Nat.le_succ _, fun _ => rfl⟩
  · obtain ⟨hbalanced, hlow, hhigh, -⟩ := fix_balanced (x := x) hl hr (by omega) (by omega) rfl
    simp only [Grown, height_node]
    exact ⟨hbalanced, by omega, by omega, by simp⟩

theorem postInsert_right (hb : (node h l x r).Balanced) (hr : r'.Balanced) (hle : r.height ≤ r'.height)
    (hge : r'.height ≤ r.height + 1) : Grown (node h l x r) (postInsert h l x r') := by
  obtain ⟨hh, hlr, hrl, hl, -⟩ := hb
  rw [postInsert]
  split
  · rename_i heq
    exact ⟨⟨heq, by omega, by omega, hl, hr⟩, le_rfl, Nat.le_succ _, fun _ => rfl⟩
  · obtain ⟨hbalanced, hlow, hhigh, -⟩ := fix_balanced (x := x) hl hr (by omega) (by omega) rfl
    simp only [Grown, height_node]
    exact ⟨hbalanced, by omega, by omega, by simp⟩

theorem attach_grown (hb : t.Balanced) {s : Avl α × Bool} (hs : t.attach c p = .ok s) : Grown t s := by
  induction t generalizing s with
  | nil =>
    cases hs
    simp [Grown, Balanced]
  | node h l x r ihl ihr =>
    have ⟨hh, hlr, hrl, hl, hr⟩ := hb
    simp only [attach] at hs
    split at hs
    · cases hs
    · split at hs
      · cases hl' : l.attach c p with
        | error y => simp [hl', Except.map] at hs
        | ok s' =>
          obtain ⟨hbalanced, hlow, hhigh, hstopped⟩ := ihl hl hl'
          simp only [hl', Except.map, Except.ok.injEq] at hs
          split at hs
          · exact hs ▸ postInsert_left hb hbalanced hlow hhigh
          · rename_i hgoing
            have hsame := hstopped (by simpa using hgoing)
            rw [← hs]
            exact ⟨⟨by omega, by omega, by omega, hbalanced, hr⟩, le_rfl, Nat.le_succ _, fun _ => rfl⟩
      · cases hr' : r.attach c p with
        | error y => simp [hr', Except.map] at hs
        | ok s' =>
          obtain ⟨hbalanced, hlow, hhigh, hstopped⟩ := ihr hr hr'
          simp only [hr', Except.map, Except.ok.injEq] at hs
          split at hs
          · exact hs ▸ postInsert_right hb hbalanced hlow hhigh
          · rename_i hgoing
            have hsame := hstopped (by simpa using hgoing)
            rw [← hs]
            exact ⟨⟨by omega, by omega, by omega, hl, hbalanced⟩, le_rfl, Nat.le_succ _, fun _ => rfl⟩

theorem Balanced.add (h : t.Balanced) : (t.add c p).1.Balanced := by
  rw [Avl.add]
  cases hs : t.attach c p with
  | error x => exact h
  | ok s => exact (attach_grown h hs).1

/-! ### Removing -/

/-- The tree is balanced and lower by one at most, and as high as before where the loop has stopped. -/
def Shrunk (t : Avl α) (s : Avl α × Bool) : Prop :=
  s.1.Balanced ∧ s.1.height ≤ t.height ∧ t.height ≤ s.1.height + 1 ∧ (s.2 = false → s.1.height = t.height)

theorem rebalance_left (hb : (node h l x r).Balanced) (hs : Shrunk l (l', going)) (y : α) :
    Shrunk (node h l x r) (rebalance going h l' y r) := by
  obtain ⟨hh, hlr, hrl, -, hr⟩ := hb
  obtain ⟨hl, hle, hge, hstopped⟩ := hs
  simp only at hl hle hge hstopped
  rw [rebalance]
  split
  · rename_i hstop
    have hbalanced : (node h l' y r).Balanced := by
      cases going with
      | false =>
        have hsame := hstopped rfl
        exact ⟨by omega, by omega, by omega, hl, hr⟩
      | true =>
        obtain ⟨⟨heq, hlow⟩, hhigh⟩ : (h = max l'.height r.height + 1 ∧ l'.height ≤ r.height + 1) ∧
            r.height ≤ l'.height + 1 := by simpa using hstop
        exact ⟨heq, hlow, hhigh, hl, hr⟩
    exact ⟨hbalanced, le_rfl, Nat.le_succ _, fun _ => rfl⟩
  · obtain ⟨hbalanced, hlow, hhigh, heq⟩ := fix_balanced (x := y) hl hr (by omega) (by omega) rfl
    simp only [Shrunk, height_node]
    exact ⟨hbalanced, by omega, by omega, by simp⟩

theorem rebalance_right (hb : (node h l x r).Balanced) (hs : Shrunk r (r', going)) (y : α) :
    Shrunk (node h l x r) (rebalance going h l y r') := by
  obtain ⟨hh, hlr, hrl, hl, -⟩ := hb
  obtain ⟨hr, hle, hge, hstopped⟩ := hs
  simp only at hr hle hge hstopped
  rw [rebalance]
  split
  · rename_i hstop
    have hbalanced : (node h l y r').Balanced := by
      cases going with
      | false =>
        have hsame := hstopped rfl
        exact ⟨by omega, by omega, by omega, hl, hr⟩
      | true =>
        obtain ⟨⟨heq, hlow⟩, hhigh⟩ : (h = max l.height r'.height + 1 ∧ l.height ≤ r'.height + 1) ∧
            r'.height ≤ l.height + 1 := by simpa using hstop
        exact ⟨heq, hlow, hhigh, hl, hr⟩
    exact ⟨hbalanced, le_rfl, Nat.le_succ _, fun _ => rfl⟩
  · obtain ⟨hbalanced, hlow, hhigh, heq⟩ := fix_balanced (x := y) hl hr (by omega) (by omega) rfl
    simp only [Shrunk, height_node]
    exact ⟨hbalanced, by omega, by omega, by simp⟩

theorem takeFirst_shrunk (hb : t.Balanced) (hs : t.takeFirst = some (y, t', going)) : Shrunk t (t', going) := by
  induction t generalizing y t' going with
  | nil => cases hs
  | node h l x r ihl ihr =>
    have ⟨hh, hlr, hrl, hl, hr⟩ := hb
    rw [takeFirst] at hs
    cases hl' : l.takeFirst with
    | none =>
      obtain rfl := takeFirst_isNone hl'
      cases hs
      simp only [height_nil] at hh hrl hlr
      exact ⟨hr, by simp only [height_node]; omega, by simp only [height_node]; omega, by simp⟩
    | some s =>
      obtain ⟨y', l', going'⟩ := s
      simp only [hl', Option.some.injEq, Prod.mk.injEq] at hs
      rw [← hs.2]
      exact rebalance_left hb (ihl hl hl') x

theorem eraseRoot_shrunk (hb : (node h l x r).Balanced) : Shrunk (node h l x r) (eraseRoot h l r) := by
  have ⟨hh, hlr, hrl, hl, hr⟩ := hb
  cases l with
  | nil =>
    have hroot : eraseRoot h nil r = (r, true) := by simp [eraseRoot]
    simp only [height_nil] at hh hrl hlr
    simp only [hroot, Shrunk, height_node]
    exact ⟨hr, by omega, by omega, by simp⟩
  | node k a z b =>
    cases hr' : r.takeFirst with
    | none =>
      have hroot : eraseRoot h (node k a z b) r = (node k a z b, true) := by simp [eraseRoot, hr']
      obtain rfl := takeFirst_isNone hr'
      simp only [height_nil, height_node] at hh hrl hlr
      simp only [hroot, Shrunk, height_node]
      exact ⟨hl, by omega, by omega, by simp⟩
    | some s =>
      obtain ⟨y, r', going⟩ := s
      have hroot : eraseRoot h (node k a z b) r = rebalance going h (node k a z b) y r' := by simp [eraseRoot, hr']
      rw [hroot]
      exact rebalance_right hb (takeFirst_shrunk hr hr') y

variable [DecidableEq α]

theorem erase_shrunk (hb : t.Balanced) : Shrunk t (t.erase p) := by
  induction t with
  | nil => exact ⟨trivial, le_rfl, Nat.zero_le _, fun _ => rfl⟩
  | node h l x r ihl ihr =>
    have ⟨hh, hlr, hrl, hl, hr⟩ := hb
    rw [erase]
    split
    · exact rebalance_left hb (ihl hl) x
    · split
      · exact eraseRoot_shrunk hb
      · exact rebalance_right hb (ihr hr) x

theorem Balanced.remove (h : t.Balanced) (p : α) : (t.remove p).Balanced := (erase_shrunk h).1

@[simp] theorem height_replace : (t.replace p q).height = t.height := by cases t <;> rfl

theorem Balanced.replace (h : t.Balanced) : (t.replace p q).Balanced := by
  induction t with
  | nil => trivial
  | node k l x r ihl ihr =>
    obtain ⟨hh, hlr, hrl, hl, hr⟩ := h
    simp only [Avl.replace, Balanced, height_replace]
    exact ⟨hh, hlr, hrl, ihl hl, ihr hr⟩

/-! ### The height of a balanced tree -/

omit [DecidableEq α]

theorem fib_le (h : t.Balanced) : Nat.fib (t.height + 2) ≤ t.toList.length + 1 := by
  induction t with
  | nil => simp [toList]
  | node k l x r ihl ihr =>
    obtain ⟨rfl, hlr, hrl, hl, hr⟩ := h
    have hl := ihl hl
    have hr := ihr hr
    have hstep : ∀ {a b : Nat}, a ≤ b → b ≤ a + 1 → Nat.fib (b + 1 + 2) ≤ Nat.fib (a + 2) + Nat.fib (b + 2) := by
      intro a b hab hba
      rw [show b + 1 + 2 = (b + 1) + 2 from rfl, Nat.fib_add_two]
      have hmono : Nat.fib (b + 1) ≤ Nat.fib (a + 2) := Nat.fib_mono (by omega)
      rw [show b + 1 + 1 = b + 2 from rfl]
      omega
    have hlength : (node (max l.height r.height + 1) l x r).toList.length = l.toList.length + r.toList.length + 1 := by
      simp only [toList, List.length_append, List.length_cons]
      omega
    rw [hlength, height_node]
    obtain hle | hle := le_total l.height r.height
    · rw [max_eq_right hle]
      have hfib := hstep hle hrl
      omega
    · rw [max_eq_left hle]
      have hfib := hstep hle hlr
      omega

theorem two_pow_le_fib (n : Nat) : 2 ^ n ≤ Nat.fib (2 * n + 2) := by
  induction n with
  | zero => simp
  | succ n ih =>
    have hdouble : Nat.fib (2 * (n + 1) + 2) = Nat.fib (2 * n + 2) + Nat.fib (2 * n + 3) := Nat.fib_add_two
    have hmono : Nat.fib (2 * n + 2) ≤ Nat.fib (2 * n + 3) := Nat.fib_mono (by omega)
    rw [pow_succ, hdouble]
    omega

/-- The height is at most twice the logarithm of the number of nodes. -/
theorem height_le (h : t.Balanced) : t.height ≤ 2 * Nat.log 2 (t.toList.length + 1) + 1 := by
  have hpow : 2 ^ (t.height / 2) ≤ t.toList.length + 1 := by
    refine (two_pow_le_fib _).trans (le_trans (Nat.fib_mono ?_) (fib_le h))
    omega
  have hlog := Nat.le_log_of_pow_le (by omega) hpow
  omega

end Wenas.Xlib.Avl
