import Wenas.Xtree.Rise

/-!
# `tree_drop`

The walk goes from the last child to the first, so that a node comes after the ones below it. When the loops leave a
child they count it in the mark `x` of its parent, and put the parent on the list with the last of its children. On the
way up from a child 0 they count nothing.
-/
namespace Wenas.Xtree

open Wenas.Machine Wenas.Loop

variable {V : Type}

/-- What the walk leaves: the nodes on its list, the rest of the count and the marks of the nodes. -/
structure Found where
  list : List (List Nibble)
  count : UInt64
  x : List Nibble → UInt8

/-- A node goes on the list. -/
def Found.emit (f : Found) (p : List Nibble) : Found := { f with list := f.list ++ [p], count := f.count - 1 }

/-- The block under `if (tree)`. -/
def Found.mark (root : Tree V) (f : Found) (p : List Nibble) : Found :=
  if (f.x p + 1).toUInt16 = (root.nodeAt p).branch then
    let g := { f with x := Function.update f.x p 0 }
    if (root.lookup p).isSome then g.emit p else g
  else { f with x := Function.update f.x p (f.x p + 1) }

/-- The parent, if there is one, is marked. -/
def Found.leave (root : Tree V) (f : Found) (p : List Nibble) : Found :=
  match parent p with
  | none => f
  | some q => f.mark root q

/-- The variables of `tree_drop`, whose loops have the same heads as those of `tree_rise`. -/
structure Drop where
  tree : Option (List Nibble)
  i : UInt8
  line : RiseAt
  found : Found

def dropTurn (root : Tree V) (s : Drop) : Turn Drop :=
  match s.line, s.tree with
  | .outer, none => .stop
  | .outer, some _ => if s.found.count = 0 then .stop else .go { s with line := .inner }
  | .inner, some p =>
    match nibble s.i with
    | none => .fail
    | some i =>
      match root.nodeAt (p ++ [i]) with
      | .null => if s.i = 0 then .go { s with line := .next } else .go { s with i := s.i - 1 }
      | .node n _ =>
        if n.branch = 0 then .go ⟨some (p ++ [i]), 15, .next, s.found.emit (p ++ [i])⟩
        else .go { s with tree := some (p ++ [i]), i := 15 }
  | .next, some p => .go ⟨parent p, (root.nodeAt p).index - 1, .up, s.found.leave root p⟩
  | .up, none => .go { s with line := .outer }
  | .up, some p =>
    if 15 < s.i then .go { s with i := (root.nodeAt p).index - 1, tree := parent p }
    else .go { s with line := .outer }
  | _, none => .fail

/-- `tree_drop` in at most `n` turns of its loops, with the marks that it finds and leaves. -/
def treeDrop (n : Nat) (root : Tree V) (x : List Nibble → UInt8) (key : Option (List UInt8)) (count : UInt64) :
    Option (List (List Nibble) × (List Nibble → UInt8)) :=
  match key with
  | none => (loop (dropTurn root) n ⟨some [], 15, .outer, ⟨[], count, x⟩⟩).map fun s => (s.found.list, s.found.x)
  | some key =>
    let p := path (key.take (keylen key).toNat)
    if (root.nodeAt p).isNull then some ([], x)
    else (loop (dropTurn root) n ⟨parent p, (root.nodeAt p).index - 1, .up, ⟨[p], count - 1, x⟩⟩).map
      fun s => (s.found.list, s.found.x)

/-! ### The nodes that are still ahead -/

/-- The node has no child 0. -/
def Wide (root : Tree V) (p : List Nibble) : Prop := (root.nodeAt (p ++ [0])).isNull = true

instance (root : Tree V) (p : List Nibble) : Decidable (Wide root p) := inferInstanceAs (Decidable (_ = _))

/-- What the loops do at a node, once they are done with the ones below it. -/
def Found.visit (root : Tree V) (f : Found) (p : List Nibble) : Found :=
  if f.count = 0 then f
  else
    let g := if p ≠ [] ∧ (root.nodeAt p).branch = 0 then f.emit p else f
    if Wide root p then g.leave root p else g

/-- The nodes that the walk has not left yet. -/
def Drop.ahead (s : Drop) (q : List Nibble) : Bool :=
  match s.tree with
  | none => false
  | some p =>
    match if s.line = .next then none else nibble s.i with
    | some i => decide (¬ After (p ++ [i]) q)
    | none => decide (q < p)

/-- A node that the inner loop is done with is left. -/
def Drop.settled (root : Tree V) (s : Drop) : Found :=
  match s.line, s.tree with
  | .next, some p => s.found.leave root p
  | _, _ => s.found

/-- What the walk will leave. -/
def Drop.result (root : Tree V) (s : Drop) : Found :=
  (root.nodes.reverse.filter s.ahead).foldl (Found.visit root) (s.settled root)

structure Drop.Proper (root : Tree V) (s : Drop) : Prop where
  there : ∀ p, s.tree = some p → (root.nodeAt p).isNull = false
  above : ∀ p, s.tree = some p → s.line ≠ .next → p = [] ∨ (root.nodeAt p).branch ≠ 0
  inside : ∀ p, s.tree = some p → s.line = .inner ∨ s.line = .outer → s.i.toNat < 16
  leave : s.line = .next → s.tree ≠ none
  busy : s.line = .inner → s.tree ≠ none ∧ s.found.count ≠ 0

/-- The way down to a leaf, and the way up from it. -/
def Drop.place (deep : Nat) (s : Drop) : Nat :=
  match s.tree, s.line with
  | some p, .next => 40 * (deep + 2) + 2 * p.length + 3
  | some p, .up => 40 * (deep + 2) + 2 * p.length + 2
  | some p, .outer => 40 * (deep + 1 - p.length) + s.i.toNat + 20
  | some p, .inner => 40 * (deep + 1 - p.length) + s.i.toNat + 1
  | none, .up => 1
  | none, _ => 0

def dropMeasure (root : Tree V) (s : Drop) : Nat :=
  (root.nodes.reverse.filter s.ahead).length * (42 * root.nodes.toFinset.sup List.length + 90) +
    s.place (root.nodes.toFinset.sup List.length)

/-- A turn that goes on to `t` leaves what the walk will leave. -/
structure Drop.Follows (root : Tree V) (s t : Drop) : Prop where
  turn : dropTurn root s = .go t
  proper : t.Proper root
  result : t.result root = s.result root
  lower : dropMeasure root t < dropMeasure root s

section

variable {root : Tree V} {s t : Drop} {f : Found} {p q : List Nibble} {i j : Nibble} {n : Xnode V} {c : Nibble → Tree V}

theorem visit_done (h : f.count = 0) (l : List (List Nibble)) : l.foldl (Found.visit root) f = f := by
  induction l with
  | nil => rfl
  | cons p l ih =>
    rw [List.foldl_cons, Found.visit, if_pos h]
    exact ih

/-- The walk leaves a node above a child 0 on its way up. -/
theorem visit_above (hzero : ¬ Wide root p) (hbranch : (root.nodeAt p).branch ≠ 0) : f.visit root p = f := by
  simp [Found.visit, hzero, hbranch]

/-- A node without a child 0 is left after those below it. -/
theorem visit_wide (hcount : f.count ≠ 0) (hwide : Wide root p) (hbranch : p = [] ∨ (root.nodeAt p).branch ≠ 0) :
    f.visit root p = f.leave root p := by
  have hinner : ¬ (p ≠ [] ∧ (root.nodeAt p).branch = 0) := fun hleaf => hbranch.elim hleaf.1 fun hne => hne hleaf.2
  rw [Found.visit, if_neg hcount, if_neg hinner, if_pos hwide]

/-- A leaf goes on the list and is left at once. -/
theorem visit_leaf (hshaped : root.Shaped) (hcount : f.count ≠ 0) (hp : p ≠ []) (hleaf : (root.nodeAt p).branch = 0) :
    f.visit root p = (f.emit p).leave root p := by
  have hwide : Wide root p := by
    rw [Wide, Tree.nodeAt_concat, hshaped.nodeAt.branch_eq_zero.mp hleaf]
    rfl
  rw [Found.visit, if_neg hcount, if_pos hwide, if_pos ⟨hp, hleaf⟩]

theorem down_sorted : root.nodes.reverse.Pairwise (· > ·) := List.pairwise_reverse.mpr Tree.nodes_sorted

theorem mem_down : p ∈ root.nodes.reverse ↔ (root.nodeAt p).isNull = false := by
  rw [List.mem_reverse, Tree.mem_nodes]

/-- A node with a child has a branch. -/
theorem branch_above (hshaped : root.Shaped) (h : (root.nodeAt (p ++ [i])).isNull = false) :
    (root.nodeAt p).branch ≠ 0 := by
  intro hzero
  rw [Tree.nodeAt_concat, hshaped.nodeAt.branch_eq_zero.mp hzero] at h
  cases h

/-- Below a leaf there is nothing. -/
theorem only_leaf (hshaped : root.Shaped) (hleaf : (root.nodeAt p).branch = 0) (hq : (root.nodeAt q).isNull = false)
    (hbegins : p <+: q) : q = p := by
  obtain ⟨r, rfl⟩ := hbegins
  cases r with
  | nil => exact List.append_nil p
  | cons i r =>
    rw [← List.singleton_append, ← List.append_assoc] at hq
    exact absurd hleaf (branch_above hshaped (Tree.node_above hq))

namespace Drop

theorem result_congr (hsettled : t.settled root = s.settled root)
    (hahead : ∀ q ∈ root.nodes.reverse, t.ahead q = s.ahead q) :
    t.result root = s.result root := by
  rw [result, result, hsettled, List.filter_congr hahead]

theorem lower_congr (hahead : ∀ q ∈ root.nodes.reverse, t.ahead q = s.ahead q)
    (hplace : t.place (root.nodes.toFinset.sup List.length) < s.place (root.nodes.toFinset.sup List.length)) :
    dropMeasure root t < dropMeasure root s := by
  rw [dropMeasure, dropMeasure, List.filter_congr hahead]
  exact Nat.add_lt_add_left hplace _

theorem place_lt (hthere : ∀ p, t.tree = some p → (root.nodeAt p).isNull = false)
    (hinside : ∀ p, t.tree = some p → t.line = .inner ∨ t.line = .outer → t.i.toNat < 16) :
    t.place (root.nodes.toFinset.sup List.length) < 42 * root.nodes.toFinset.sup List.length + 90 := by
  cases htree : t.tree with
  | none =>
    cases hline : t.line with
    | outer | inner | next | up =>
      simp only [place, htree, hline]
      omega
  | some p =>
    have hdeep := Tree.length_le (hthere p htree)
    have hi := hinside p htree
    cases hline : t.line with
    | outer | inner | next | up =>
      simp only [place, htree, hline, reduceCtorEq, or_true, or_false, true_implies] at hi ⊢
      omega

/-- The walk leaves one node behind. -/
theorem lower_first (hahead : root.nodes.reverse.filter s.ahead = q :: root.nodes.reverse.filter t.ahead)
    (hplace : t.place (root.nodes.toFinset.sup List.length) < 42 * root.nodes.toFinset.sup List.length + 90) :
    dropMeasure root t < dropMeasure root s := by
  rw [dropMeasure, dropMeasure, hahead, List.length_cons, Nat.succ_mul (List.length _)]
  omega

theorem result_first (hahead : root.nodes.reverse.filter s.ahead = q :: root.nodes.reverse.filter t.ahead)
    (hvisit : (s.settled root).visit root q = t.settled root) : t.result root = s.result root := by
  rw [result, result, hahead, List.foldl_cons, hvisit]

theorem ahead_some (htree : s.tree = some p) (hline : s.line ≠ .next) (hi : nibble s.i = some i) :
    s.ahead q = decide (¬ After (p ++ [i]) q) := by
  simp [ahead, htree, hline, hi]

theorem ahead_none (htree : s.tree = some p) (hend : s.line = .next ∨ nibble s.i = none) :
    s.ahead q = decide (q < p) := by
  obtain hline | hi := hend
  · simp [ahead, htree, hline]
  · simp [ahead, htree, hi]

namespace Proper

/-- The walk goes up from a node that it is done with. -/
theorem climb (hnode : (root.nodeAt p).isNull = false) (hroot : Rooted root) (htree : s.tree = some p)
    (hend : s.line = .next ∨ s.line = .up ∧ nibble s.i = none)
    (hturn : dropTurn root s = .go ⟨parent p, (root.nodeAt p).index - 1, .up, s.settled root⟩) :
    s.Follows root ⟨parent p, (root.nodeAt p).index - 1, .up, s.settled root⟩ := by
  have hahead : ∀ q, s.ahead q = decide (q < p) := fun q => ahead_none htree (hend.imp_right And.right)
  have hplace : 40 * (root.nodes.toFinset.sup List.length + 2) + 2 * p.length + 2 ≤
      s.place (root.nodes.toFinset.sup List.length) := by
    obtain hline | ⟨hline, -⟩ := hend
    · simp [place, htree, hline]
    · simp [place, htree, hline]
  cases p using List.reverseRecOn with
  | nil =>
    obtain ⟨t, ht⟩ : ∃ t : Drop, t = ⟨none, (root.nodeAt []).index - 1, .up, s.settled root⟩ := ⟨_, rfl⟩
    rw [parent_nil, ← ht] at hturn ⊢
    have hsame : ∀ q, t.ahead q = s.ahead q := by
      intro q
      rw [hahead, decide_eq_false (List.not_lt_nil q), ht]
      rfl
    have hone : t.place (root.nodes.toFinset.sup List.length) = 1 := by rw [ht]; rfl
    refine ⟨hturn, ⟨?_, ?_, ?_, ?_, ?_⟩, result_congr (by rw [ht]; rfl) fun q _ => hsame q, ?_⟩
    · simp [ht]
    · simp [ht]
    · simp [ht]
    · simp [ht]
    · simp [ht]
    · refine lower_congr (fun q _ => hsame q) (Nat.lt_of_lt_of_le ?_ hplace)
      omega
  | append_singleton p j =>
    have hup := Tree.node_above hnode
    have hbranch := branch_above hroot.shaped hnode
    obtain ⟨t, ht⟩ : ∃ t : Drop, t = ⟨some p, (root.nodeAt (p ++ [j])).index - 1, .up, s.settled root⟩ := ⟨_, rfl⟩
    rw [parent_concat, ← ht] at hturn ⊢
    have htree' : t.tree = some p := by rw [ht]
    have hproper : t.Proper root := by
      refine ⟨?_, ?_, ?_, ?_, ?_⟩
      · rw [htree']
        rintro _ ⟨rfl⟩
        exact hup
      · rw [htree']
        rintro _ ⟨rfl⟩ -
        exact .inr hbranch
      · simp [ht]
      · simp [ht]
      · simp [ht]
    have hindex : t.i = UInt8.ofNat j - 1 := by rw [ht, hroot.shaped.index_concat hnode]
    have hsettled : t.settled root = s.settled root := by rw [ht]; rfl
    have hlow : t.place (root.nodes.toFinset.sup List.length) < s.place (root.nodes.toFinset.sup List.length) := by
      refine Nat.lt_of_lt_of_le ?_ hplace
      simp only [place, ht, List.length_append, List.length_singleton]
      omega
    by_cases hj : j = 0
    · -- `p` has a child 0, so that nothing is done there
      subst hj
      have hi : nibble t.i = none := by rw [hindex]; decide
      have hfirst : root.nodes.reverse.filter s.ahead = p :: root.nodes.reverse.filter t.ahead := by
        refine filter_first down_sorted (mem_down.mpr hup) (fun q _ => ?_) fun q _ hq => ?_
        · rw [hahead, ahead_none htree' (.inr hi), decide_eq_true_iff, decide_eq_true_iff, lt_first, or_comm]
        · rw [ahead_none htree' (.inr hi)] at hq
          exact of_decide_eq_true hq
      exact ⟨hturn, hproper, result_first hfirst (by rw [visit_above (Bool.eq_false_iff.mp hnode) hbranch, hsettled]),
        lower_first hfirst (place_lt hproper.there hproper.inside)⟩
    · have hpos : j.val ≠ 0 := fun hzero => hj (Fin.ext hzero)
      have hsub : t.i.toNat = j.val - 1 := by
        have hone : (1 : UInt8) ≤ UInt8.ofNat j := by
          rw [UInt8.le_iff_toNat_le, UInt8.toNat_ofNat']
          have hone : (1 : UInt8).toNat = 1 := rfl
          omega
        rw [hindex, UInt8.toNat_sub_of_le _ _ hone, UInt8.toNat_ofNat']
        have hone : (1 : UInt8).toNat = 1 := rfl
        omega
      have hlt : j.val - 1 < 16 := by omega
      have hsame : ∀ q, t.ahead q = s.ahead q := by
        intro q
        rw [hahead, ahead_some (i := ⟨j.val - 1, hlt⟩) htree' (by simp [ht]) (nibble_some.mpr hsub.symm)]
        refine decide_eq_decide.mpr ?_
        rw [after_concat (j := j) (Nat.succ_pred_eq_of_ne_zero hpos).symm, not_not]
      exact ⟨hturn, hproper, result_congr hsettled fun q _ => hsame q, lower_congr (fun q _ => hsame q) hlow⟩

/-- A child that is not there is skipped. -/
theorem skip (h : s.Proper root) (htree : s.tree = some p) (hline : s.line = .inner) (hi : nibble s.i = some i)
    (hnull : root.nodeAt (p ++ [i]) = .null) : ∃ t, s.Follows root t := by
  have hival := nibble_some.mp hi
  have hup := h.there p htree
  have hcount := (h.busy hline).2
  have hahead : ∀ q ∈ root.nodes.reverse, s.ahead q = decide (q < p ++ [i]) := by
    intro q hq
    rw [ahead_some htree (by simp [hline]) hi]
    refine decide_eq_decide.mpr ?_
    rw [← not_iff_not, not_not, not_lt_iff, or_iff_right]
    intro hbegins
    rw [mem_down, null_below hnull hbegins] at hq
    cases hq
  have hsettled : s.settled root = s.found := by simp [settled, hline]
  by_cases hlast : s.i = 0
  · obtain rfl : i = 0 := Fin.ext (by rw [hival, hlast]; rfl)
    obtain ⟨t, ht⟩ : ∃ t : Drop, t = { s with line := .next } := ⟨_, rfl⟩
    have htree' : t.tree = some p := by rw [ht]; exact htree
    have hnext : ∀ q, t.ahead q = decide (q < p) := fun q => ahead_none htree' (.inl (by rw [ht]))
    have hfirst : root.nodes.reverse.filter s.ahead = p :: root.nodes.reverse.filter t.ahead := by
      refine filter_first down_sorted (mem_down.mpr hup) (fun q hq => ?_) fun q _ hq => ?_
      · rw [hahead q hq, hnext, decide_eq_true_iff, decide_eq_true_iff, lt_first, or_comm]
      · rw [hnext] at hq
        exact of_decide_eq_true hq
    have hproper : t.Proper root := by
      rw [ht]
      exact ⟨h.there, by simp, by simp, by simp [htree], by simp⟩
    refine ⟨t, ?_, hproper, result_first hfirst ?_, lower_first hfirst (place_lt hproper.there hproper.inside)⟩
    · have hi' : nibble 0 = some 0 := rfl
      simp [dropTurn, hline, htree, hi', hnull, hlast, ht]
    · rw [hsettled, visit_wide hcount (by rw [Wide, hnull]; rfl) (h.above p htree (by simp [hline]))]
      simp [settled, ht, htree]
  · have hpos : i.val ≠ 0 := by
      rw [hival]
      exact fun hzero => hlast (UInt8.toNat_inj.mp hzero)
    have hsub : (s.i - 1).toNat = i.val - 1 := by
      have hone : (1 : UInt8).toNat = 1 := rfl
      have hle : (1 : UInt8) ≤ s.i := by
        rw [UInt8.le_iff_toNat_le]
        omega
      rw [UInt8.toNat_sub_of_le _ _ hle]
      omega
    have hlt : i.val - 1 < 16 := by omega
    have hsame : ∀ q ∈ root.nodes.reverse, ({ s with i := s.i - 1 } : Drop).ahead q = s.ahead q := by
      intro q hq
      have hstep := ahead_some (s := { s with i := s.i - 1 }) (i := ⟨i.val - 1, hlt⟩) (q := q) htree (by simp [hline])
        (nibble_some.mpr hsub.symm)
      rw [hahead q hq, hstep]
      refine decide_eq_decide.mpr ?_
      rw [after_concat (j := i) (Nat.succ_pred_eq_of_ne_zero hpos).symm, not_not]
    refine ⟨{ s with i := s.i - 1 }, ?_, ⟨h.there, h.above, ?_, h.leave, h.busy⟩, ?_, ?_⟩
    · simp [dropTurn, hline, htree, hi, hnull, hlast]
    · rintro _ - -
      exact hsub ▸ hlt
    · exact result_congr (by simp [settled, hline]) hsame
    · refine lower_congr hsame ?_
      simp only [place, htree, hline]
      omega

/-- The walk goes down to a child that has children. -/
theorem pass (h : s.Proper root) (htree : s.tree = some p) (hline : s.line = .inner) (hi : nibble s.i = some i)
    (hnode : root.nodeAt (p ++ [i]) = .node n c) (hbranch : n.branch ≠ 0) : ∃ t, s.Follows root t := by
  have hthere : (root.nodeAt (p ++ [i])).isNull = false := by rw [hnode]; rfl
  have hsame : ∀ q, ({ s with tree := some (p ++ [i]), i := 15 } : Drop).ahead q = s.ahead q := by
    intro q
    rw [ahead_some htree (by simp [hline]) hi, ahead_some (p := p ++ [i]) (i := 15) rfl (by simp [hline]) rfl]
    exact decide_eq_decide.mpr (not_congr after_last)
  refine ⟨{ s with tree := some (p ++ [i]), i := 15 }, ?_,
    ⟨?_, ?_, ?_, by simp [hline], fun _ => ⟨by simp, (h.busy hline).2⟩⟩,
    result_congr (by simp [settled, hline]) fun q _ => hsame q, lower_congr (fun q _ => hsame q) ?_⟩
  · simp [dropTurn, hline, htree, hi, hnode, hbranch]
  · rintro _ ⟨rfl⟩
    exact hthere
  · rintro _ ⟨rfl⟩ -
    rw [hnode]
    exact .inr hbranch
  · rintro _ - -
    exact Nat.lt_succ_self 15
  · have hdeep := Tree.length_le hthere
    rw [List.length_append, List.length_singleton] at hdeep
    have hlast : (15 : UInt8).toNat = 15 := rfl
    simp only [place, htree, hline, List.length_append, List.length_singleton, hlast]
    omega

/-- The walk puts a leaf on the list. -/
theorem add (h : s.Proper root) (hroot : Rooted root) (htree : s.tree = some p) (hline : s.line = .inner)
    (hi : nibble s.i = some i) (hnode : root.nodeAt (p ++ [i]) = .node n c) (hbranch : n.branch = 0) :
    ∃ t, s.Follows root t := by
  have hthere : (root.nodeAt (p ++ [i])).isNull = false := by rw [hnode]; rfl
  have hleaf : (root.nodeAt (p ++ [i])).branch = 0 := by rw [hnode]; exact hbranch
  obtain ⟨t, ht⟩ : ∃ t : Drop, t = ⟨some (p ++ [i]), 15, .next, s.found.emit (p ++ [i])⟩ := ⟨_, rfl⟩
  have htree' : t.tree = some (p ++ [i]) := by rw [ht]
  have hproper : t.Proper root := by
    refine ⟨?_, by simp [ht], by simp [ht], by simp [ht], by simp [ht]⟩
    rw [htree']
    rintro _ ⟨rfl⟩
    exact hthere
  have hbelow : ∀ q, t.ahead q = decide (q < p ++ [i]) := fun q => ahead_none htree' (.inl (by rw [ht]))
  have hfirst : root.nodes.reverse.filter s.ahead = (p ++ [i]) :: root.nodes.reverse.filter t.ahead := by
    refine filter_first down_sorted (mem_down.mpr hthere) (fun q hq => ?_) fun q _ hq => ?_
    · rw [ahead_some htree (by simp [hline]) hi, hbelow, decide_eq_true_iff, decide_eq_true_iff]
      constructor
      · intro hnot
        by_cases hlt : q < p ++ [i]
        · exact .inr hlt
        · exact .inl (only_leaf hroot.shaped hleaf (mem_down.mp hq) ((not_lt_iff.mp hlt).resolve_right hnot))
      · rintro (rfl | hlt)
        · exact fun hafter => hafter.2 (List.prefix_refl _)
        · exact fun hafter => lt_asymm hlt hafter.1
    · rw [hbelow] at hq
      exact of_decide_eq_true hq
  refine ⟨t, ?_, hproper, result_first hfirst ?_, lower_first hfirst (place_lt hproper.there hproper.inside)⟩
  · simp [dropTurn, hline, htree, hi, hnode, hbranch, ht]
  · have hsettled : s.settled root = s.found := by simp [settled, hline]
    rw [hsettled, visit_leaf hroot.shaped (h.busy hline).2 (by simp) hleaf]
    simp [settled, ht]

/-- Each turn follows, until the walk leaves what it should. -/
theorem turn (h : s.Proper root) (hroot : Rooted root) :
    (dropTurn root s = .stop ∧ s.found = s.result root) ∨ ∃ t, s.Follows root t := by
  cases hline : s.line with
  | outer =>
    have hsettled : s.settled root = s.found := by simp [settled, hline]
    cases htree : s.tree with
    | none =>
      refine .inl ⟨by simp [dropTurn, hline, htree], ?_⟩
      have hnone : root.nodes.reverse.filter s.ahead = [] :=
        List.filter_eq_nil_iff.mpr fun q _ => by simp [ahead, htree]
      rw [result, hnone, hsettled]
      rfl
    | some p =>
      by_cases hzero : s.found.count = 0
      · refine .inl ⟨by simp [dropTurn, hline, htree, hzero], ?_⟩
        rw [result, hsettled, visit_done hzero]
      · have hsame : ∀ q, ({ s with line := .inner } : Drop).ahead q = s.ahead q := by
          intro q
          simp [ahead, htree, hline]
        refine .inr ⟨{ s with line := .inner }, ?_, ⟨h.there, ?_, ?_, nofun, fun _ => ⟨by simp [htree], hzero⟩⟩, ?_, ?_⟩
        · simp [dropTurn, hline, htree, hzero]
        · exact fun q hq _ => h.above q hq (by simp [hline])
        · exact fun q hq _ => h.inside q hq (.inr hline)
        · exact result_congr (by simp [settled, hline]) fun q _ => hsame q
        · refine lower_congr (fun q _ => hsame q) ?_
          simp [place, htree, hline]
  | inner =>
    cases htree : s.tree with
    | none => exact absurd htree (h.busy hline).1
    | some p =>
      cases hi : nibble s.i with
      | none => exact absurd (nibble_none.mp hi) (Nat.not_le.mpr (h.inside p htree (.inl hline)))
      | some i =>
        cases hnode : root.nodeAt (p ++ [i]) with
        | null => exact .inr (h.skip htree hline hi hnode)
        | node n c =>
          by_cases hbranch : n.branch = 0
          · exact .inr (h.add hroot htree hline hi hnode hbranch)
          · exact .inr (h.pass htree hline hi hnode hbranch)
  | next =>
    cases htree : s.tree with
    | none => exact absurd htree (h.leave hline)
    | some p => exact .inr ⟨_, climb (h.there p htree) hroot htree (.inl hline) (by simp [dropTurn, hline, htree, settled])⟩
  | up =>
    cases htree : s.tree with
    | none =>
      have hsame : ∀ q, ({ s with line := .outer } : Drop).ahead q = s.ahead q := by
        intro q
        simp [ahead, htree]
      refine .inr ⟨{ s with line := .outer }, ?_, ⟨h.there, ?_, ?_, nofun, nofun⟩, ?_, ?_⟩
      · simp [dropTurn, hline, htree]
      · intro q hq
        exact absurd (htree.symm.trans hq) nofun
      · intro q hq
        exact absurd (htree.symm.trans hq) nofun
      · exact result_congr (by simp [settled, hline]) fun q _ => hsame q
      · refine lower_congr (fun q _ => hsame q) ?_
        simp [place, htree, hline]
    | some p =>
      cases hi : nibble s.i with
      | none =>
        have hlast : 15 < s.i := by
          rw [UInt8.lt_iff_toNat_lt]
          exact nibble_none.mp hi
        exact .inr ⟨_, climb (h.there p htree) hroot htree (.inr ⟨hline, hi⟩)
          (by simp [dropTurn, hline, htree, hlast, settled])⟩
      | some i =>
        have hinside : s.i.toNat < 16 := nibble_some.mp hi ▸ i.isLt
        have hlow : ¬ 15 < s.i := by
          rw [UInt8.lt_iff_toNat_lt, Nat.not_lt]
          exact Nat.le_of_lt_succ hinside
        have hsame : ∀ q, ({ s with line := .outer } : Drop).ahead q = s.ahead q := by
          intro q
          simp [ahead, htree, hline]
        refine .inr ⟨{ s with line := .outer }, ?_, ⟨h.there, ?_, fun _ _ _ => hinside, nofun, nofun⟩, ?_, ?_⟩
        · simp [dropTurn, hline, htree, hlow]
        · exact fun q hq _ => h.above q hq (by simp [hline])
        · exact result_congr (by simp [settled, hline]) fun q _ => hsame q
        · refine lower_congr (fun q _ => hsame q) ?_
          simp only [place, htree, hline]
          omega

/-- The loops end with what the walk should leave. -/
theorem ends (h : s.Proper root) (hroot : Rooted root) : ∃ t, Ends (dropTurn root) s t ∧ t.found = s.result root := by
  have hturn : ∀ t : Drop, t.Proper root ∧ t.result root = s.result root →
      dropTurn root t = .stop ∧ t.found = t.result root ∨
        ∃ u, dropTurn root t = .go u ∧ (u.Proper root ∧ u.result root = s.result root) ∧
          dropMeasure root u < dropMeasure root t := by
    rintro t ⟨ht, hresult⟩
    refine (ht.turn hroot).imp_right ?_
    rintro ⟨u, hu⟩
    exact ⟨u, hu.turn, ⟨hu.proper, hu.result.trans hresult⟩, hu.lower⟩
  obtain ⟨t, hends, ⟨-, hresult⟩, hdone⟩ := ends_of_turn (dropMeasure root) hturn ⟨h, rfl⟩
  exact ⟨t, hends, hdone.trans hresult⟩

end Proper

end Drop

end

end Wenas.Xtree
