import Wenas.Xtree.Counts

/-!
# `tree_min` and `tree_max`

The walk to the smallest key goes down by the first child until it meets a mapping, and the walk to the largest by the
last child until it meets a node without branches. A node without a mapping and without branches, left over from a key
that was added twice or not completely, sends the first walk out of the array and stops the second one.
-/
namespace Wenas.Xtree

open Wenas.Machine

variable {V : Type}

namespace Tree

/-- `while (tree[i] == NULL) i++`, unless it leaves the array. -/
def firstChild (c : Nibble → Tree V) : Option Nibble := (List.finRange 16).find? fun i => !(c i).isNull

/-- `while (tree[i] == NULL) i--`, unless it leaves the array. -/
def lastChild (c : Nibble → Tree V) : Option Nibble := (List.finRange 16).reverse.find? fun i => !(c i).isNull

/-- The loop of `tree_min`. -/
def minBelow : Tree V → Option (Option V)
  | null => some none
  | node _ c =>
    match firstChild c with
    | none => none
    | some i =>
      match (c i).mapping with
      | some v => some (some v)
      | none => (c i).minBelow

/-- The loop of `tree_max`. -/
def maxBelow : Tree V → Option (Option V)
  | null => some none
  | node _ c =>
    match lastChild c with
    | none => none
    | some i => if (c i).branch = 0 then some (c i).mapping else (c i).maxBelow

end Tree

/-- `tree_min`, unless it leaves a child array. -/
def treeMin (root : Tree V) : Option (Option V) := if 0 < root.route then root.minBelow else some none

/-- `tree_max`, unless it leaves a child array. -/
def treeMax (root : Tree V) : Option (Option V) := if 0 < root.route then root.maxBelow else some none

/-- The mappings of the smallest and the largest key, or null, inside the arrays. -/
def Extremes (root : Tree V) (m : KeyMap V) : Prop :=
  treeMin root = some ((sorted m).head?.bind fun key => m.lookup key) ∧
    treeMax root = some ((sorted m).getLast?.bind fun key => m.lookup key)

/-- A node without branches and without a mapping. -/
def Tree.Dead (t : Tree V) (p : List Nibble) : Prop :=
  (t.nodeAt p).isNull = false ∧ (t.nodeAt p).branch = 0 ∧ t.lookup p = none

/-- The counter of a tree without keys is 0, and between the first and the last key are the dead nodes of the others. -/
structure Settled (root : Tree V) : Prop where
  empty : root.keys = [] → root.route = 0
  dead : root.keys ≠ [] → ∀ p, root.Dead p → (∃ q ∈ root.keys, q < p) ∧ ∃ q ∈ root.keys, p < q

/-! ### The first and the last child -/

/-- What a search in an ordered list finds comes before all else that it could find. -/
theorem find_first {α : Type} {r : α → α → Prop} {f : α → Bool} {l : List α} {x : α} (hl : l.Pairwise r)
    (h : l.find? f = some x) : ∀ y ∈ l, f y = true → y = x ∨ r x y := by
  induction hl with
  | nil => cases h
  | @cons a l hfirst _ ih =>
    intro y hy hfy
    by_cases ha : f a = true
    · rw [List.find?_cons_of_pos ha] at h
      obtain rfl := Option.some.inj h
      exact (List.mem_cons.mp hy).imp_right (hfirst y)
    · rw [List.find?_cons_of_neg ha] at h
      obtain rfl | hin := List.mem_cons.mp hy
      · exact absurd hfy ha
      · exact ih h y hin hfy

namespace Tree

variable {t : Tree V} {n : Xnode V} {c : Nibble → Tree V} {i j : Nibble} {p q r : List Nibble} {v : V} {x : Option V}

theorem firstChild_some (h : firstChild c = some i) : (c i).isNull = false ∧ ∀ j, (c j).isNull = false → i ≤ j := by
  refine ⟨by simpa using List.find?_some h, fun j hj => ?_⟩
  obtain heq | hlt := find_first (List.sortedLT_finRange 16).pairwise h j (List.mem_finRange j) (by simp [hj])
  · exact heq.ge
  · exact hlt.le

theorem lastChild_some (h : lastChild c = some i) : (c i).isNull = false ∧ ∀ j, (c j).isNull = false → j ≤ i := by
  refine ⟨by simpa using List.find?_some h, fun j hj => ?_⟩
  have hdown : (List.finRange 16).reverse.Pairwise (· > ·) :=
    List.pairwise_reverse.mpr (List.sortedLT_finRange 16).pairwise
  obtain heq | hlt := find_first hdown h j (List.mem_reverse.mpr (List.mem_finRange j)) (by simp [hj])
  · exact heq.le
  · exact hlt.le

theorem firstChild_none : firstChild c = none ↔ ∀ i, (c i).isNull = true := by
  simp [firstChild]

theorem lastChild_none : lastChild c = none ↔ ∀ i, (c i).isNull = true := by
  simp [lastChild]

/-! ### The walks -/

/-- All nodes that come before a path are on the way to it, and have no mapping. -/
def Straight (t : Tree V) (p : List Nibble) : Prop :=
  ∀ q, (t.nodeAt q).isNull = false → q < p → q <+: p ∧ (q = [] ∨ t.lookup q = none)

theorem Straight.cons (hfirst : ∀ j, (c j).isNull = false → i ≤ j) (hmapping : p ≠ [] → (c i).mapping = none)
    (h : (c i).Straight p) : (node n c).Straight (i :: p) := by
  intro q hq hlt
  cases q with
  | nil => exact ⟨List.nil_prefix, .inl rfl⟩
  | cons j q =>
    rw [nodeAt_cons] at hq
    obtain hji | ⟨rfl, hbefore⟩ := List.cons_lt_cons_iff.mp hlt
    · exact absurd (hfirst j (first_of_nodeAt hq)) (not_le.mpr hji)
    · obtain ⟨hbegins, hnone⟩ := h q hq hbefore
      refine ⟨(List.prefix_cons_inj j).mpr hbegins, .inr ?_⟩
      obtain rfl | hnone := hnone
      · have hp : p ≠ [] := by
          rintro rfl
          exact absurd hbefore (lt_irrefl [])
        rw [lookup_cons, lookup, nodeAt_nil]
        exact hmapping hp
      · exact hnone

theorem Straight.below (h : (node n c).Straight (i :: p)) : (c i).Straight p := by
  intro q hq hlt
  obtain ⟨hbegins, hnone⟩ := h (i :: q) hq (List.cons_lt_cons_iff.mpr (.inr ⟨rfl, hlt⟩))
  exact ⟨(List.prefix_cons_inj i).mp hbegins, .inr (hnone.resolve_left (List.cons_ne_nil i q))⟩

theorem minBelow_sound (ht : t.isNull = false) (h : t.minBelow = some x) :
    ∃ p v, p ≠ [] ∧ x = some v ∧ t.lookup p = some v ∧ t.Straight p := by
  induction t with
  | null => cases ht
  | node n c ih =>
    cases hi : firstChild c with
    | none =>
      rw [minBelow, hi] at h
      cases h
    | some i =>
      obtain ⟨hnode, hfirst⟩ := firstChild_some hi
      cases hmapping : (c i).mapping with
      | some v =>
        simp only [minBelow, hi, hmapping, Option.some.injEq] at h
        refine ⟨[i], v, List.cons_ne_nil i [], h.symm, by rw [lookup_cons, lookup, nodeAt_nil, hmapping], ?_⟩
        refine .cons hfirst (fun hne => absurd rfl hne) fun q _ hlt => ?_
        exact absurd hlt (List.not_lt_nil q)
      | none =>
        simp only [minBelow, hi, hmapping] at h
        obtain ⟨p, v, -, hx, hv, hstraight⟩ := ih i hnode h
        exact ⟨i :: p, v, List.cons_ne_nil i p, hx, hv, hstraight.cons hfirst fun _ => hmapping⟩

theorem minBelow_complete (hp : p ≠ []) (hv : t.lookup p = some v) (h : t.Straight p) : t.minBelow = some (some v) := by
  induction p generalizing t with
  | nil => exact absurd rfl hp
  | cons i p ih =>
    cases t with
    | null =>
      rw [lookup_null] at hv
      cases hv
    | node n c =>
      rw [lookup_cons] at hv
      have hnode : (c i).isNull = false := by
        refine first_of_nodeAt (p := p) ?_
        cases hat : (c i).nodeAt p with
        | null =>
          rw [lookup, hat] at hv
          cases hv
        | node => rfl
      cases hi : firstChild c with
      | none =>
        rw [firstChild_none.mp hi i] at hnode
        cases hnode
      | some j =>
        obtain ⟨hj, hfirst⟩ := firstChild_some hi
        -- A child before `i` would not be on the way.
        have heq : j = i := by
          by_contra hne
          have hlt : j < i := lt_of_le_of_ne (hfirst i hnode) hne
          have hbegins := (h [j] (by simpa using hj) (List.cons_lt_cons_iff.mpr (.inl hlt))).1
          exact hne (List.cons_prefix_cons.mp hbegins).1
        subst heq
        cases p with
        | nil =>
          rw [lookup, nodeAt_nil] at hv
          simp [minBelow, hi, hv]
        | cons k p =>
          have hnone : (c j).mapping = none := by
            have hbefore := (h [j] (by simpa using hj) (lt_append [j] k p)).2.resolve_left (List.cons_ne_nil j [])
            rwa [lookup_cons, lookup, nodeAt_nil] at hbefore
          simp only [minBelow, hi, hnone]
          exact ih (List.cons_ne_nil k p) hv h.below

/-- Below a node without branches there is none. -/
theorem Shaped.leaf (h : t.Shaped) (hbranch : t.branch = 0) (hq : (t.nodeAt q).isNull = false) : q = [] := by
  cases q with
  | nil => rfl
  | cons i q =>
    cases t with
    | null => cases hq
    | node n c =>
      have hnull : c i = null := h.branch_eq_zero.mp hbranch i
      rw [nodeAt_cons, hnull, nodeAt_null] at hq
      cases hq

theorem maxBelow_sound (hshaped : t.Shaped) (ht : t.isNull = false) (h : t.maxBelow = some x) :
    ∃ p, p ≠ [] ∧ (t.nodeAt p).isNull = false ∧ t.lookup p = x ∧ ∀ q, (t.nodeAt q).isNull = false → ¬ p < q := by
  induction t with
  | null => cases ht
  | node n c ih =>
    cases hi : lastChild c with
    | none =>
      rw [maxBelow, hi] at h
      cases h
    | some i =>
      obtain ⟨hnode, hlast⟩ := lastChild_some hi
      have hcons : ∀ p, (∀ q, ((c i).nodeAt q).isNull = false → ¬ p < q) →
          ∀ q, ((node n c).nodeAt q).isNull = false → ¬ i :: p < q := by
        intro p hp q hq hlt
        cases q with
        | nil => exact List.not_lt_nil _ hlt
        | cons j q =>
          obtain hij | ⟨rfl, hafter⟩ := List.cons_lt_cons_iff.mp hlt
          · exact absurd (hlast j (first_of_nodeAt hq)) (not_le.mpr hij)
          · exact hp q hq hafter
      by_cases hbranch : (c i).branch = 0
      · simp only [maxBelow, hi, hbranch, if_true, Option.some.injEq] at h
        refine ⟨[i], List.cons_ne_nil i [], by simpa using hnode, by rw [lookup_cons, lookup, nodeAt_nil, h], hcons [] ?_⟩
        intro q hq
        rw [(hshaped.2 i).1.leaf hbranch hq]
        exact lt_irrefl []
      · simp only [maxBelow, hi, hbranch, if_false] at h
        obtain ⟨p, -, hp, hx, hafter⟩ := ih i (hshaped.2 i).1 hnode h
        exact ⟨i :: p, List.cons_ne_nil i p, hp, hx, hcons p hafter⟩

theorem maxBelow_complete (hshaped : t.Shaped) (hp : p ≠ []) (hnode : (t.nodeAt p).isNull = false)
    (h : ∀ q, (t.nodeAt q).isNull = false → ¬ p < q) : t.maxBelow = some (t.lookup p) := by
  induction p generalizing t with
  | nil => exact absurd rfl hp
  | cons i p ih =>
    cases t with
    | null => cases hnode
    | node n c =>
      rw [nodeAt_cons] at hnode
      have hfirst := first_of_nodeAt hnode
      have hi : lastChild c = some i := by
        cases hj : lastChild c with
        | none =>
          rw [lastChild_none.mp hj i] at hfirst
          cases hfirst
        | some j =>
          obtain ⟨hchild, hlast⟩ := lastChild_some hj
          refine congrArg some (le_antisymm ?_ (hlast i hfirst))
          refine not_lt.mp fun hlt => h [j] (by simpa using hchild) ?_
          exact List.cons_lt_cons_iff.mpr (.inl hlt)
      have hbelow : ∀ q, ((c i).nodeAt q).isNull = false → ¬ p < q := fun q hq hlt =>
        h (i :: q) hq (List.cons_lt_cons_iff.mpr (.inr ⟨rfl, hlt⟩))
      cases p with
      | nil =>
        have hbranch : (c i).branch = 0 := by
          refine (hshaped.2 i).1.branch_eq_zero.mpr fun j => isNull_iff.mp (Bool.not_eq_false _ ▸ fun hj => ?_)
          refine hbelow [j] ?_ (List.nil_lt_cons j [])
          rw [← List.nil_append [j], nodeAt_concat, nodeAt_nil]
          exact hj
        simp only [maxBelow, hi, hbranch, if_true]
        rw [lookup_cons, lookup, nodeAt_nil]
      | cons k p =>
        have hbranch : (c i).branch ≠ 0 := fun hzero =>
          List.cons_ne_nil k p ((hshaped.2 i).1.leaf hzero hnode)
        simp only [maxBelow, hi, hbranch, if_false]
        exact ih (hshaped.2 i).1 (List.cons_ne_nil k p) hnode hbelow

/-- Below every node there is one without branches. -/
theorem Shaped.exists_leaf (h : t.Shaped) (ht : t.isNull = false) :
    ∃ q, (t.nodeAt q).isNull = false ∧ (t.nodeAt q).branch = 0 := by
  induction t with
  | null => cases ht
  | node n c ih =>
    by_cases hbranch : (node n c).branch = 0
    · exact ⟨[], by simpa using ht, by simpa using hbranch⟩
    · rw [h.branch_eq_zero] at hbranch
      push Not at hbranch
      obtain ⟨i, hi⟩ := hbranch
      have hnode : (c i).isNull = false := Bool.eq_false_iff.mpr fun hnull => hi (isNull_iff.mp hnull)
      obtain ⟨q, hq, hzero⟩ := ih i (h.2 i).1 hnode
      exact ⟨i :: q, hq, hzero⟩

end Tree

/-- What is below a node that is not on the way comes before the same paths. -/
theorem append_lt_of_lt {p q : List Nibble} (h : q < p) (hnot : ¬ q <+: p) (r : List Nibble) : q ++ r < p := by
  induction q generalizing p with
  | nil => exact absurd List.nil_prefix hnot
  | cons i q ih =>
    cases p with
    | nil => exact absurd h (List.not_lt_nil _)
    | cons j p =>
      obtain hlt | ⟨rfl, hlt⟩ := List.cons_lt_cons_iff.mp h
      · exact List.cons_lt_cons_iff.mpr (.inl hlt)
      · exact List.cons_lt_cons_iff.mpr (.inr ⟨rfl, ih hlt fun hbegins => hnot ((List.prefix_cons_inj i).mpr hbegins)⟩)

/-! ### When the walks are right -/

section

variable {root : Tree V} {m : KeyMap V} {p first last : List Nibble}

theorem Tree.first_least {t : Tree V} (h : t.keys.head? = some first) : first ∈ t.keys ∧ ∀ q ∈ t.keys, ¬ q < first := by
  obtain ⟨rest, hkeys⟩ := List.head?_eq_some_iff.mp h
  have hsorted := hkeys ▸ t.keys_sorted
  rw [hkeys]
  refine ⟨List.mem_cons_self, fun q hq hlt => ?_⟩
  obtain rfl | hin := List.mem_cons.mp hq
  · exact lt_irrefl _ hlt
  · exact lt_asymm hlt (List.rel_of_pairwise_cons hsorted hin)

theorem Tree.last_greatest {t : Tree V} (h : t.keys.getLast? = some last) :
    last ∈ t.keys ∧ ∀ q ∈ t.keys, ¬ last < q := by
  obtain ⟨rest, hkeys⟩ := List.getLast?_eq_some_iff.mp h
  have hsorted := hkeys ▸ t.keys_sorted
  rw [hkeys]
  refine ⟨List.mem_append_right _ (List.mem_singleton_self last), fun q hq hlt => ?_⟩
  obtain hin | hin := List.mem_append.mp hq
  · exact lt_asymm hlt ((List.pairwise_append.mp hsorted).2.2 q hin last (List.mem_singleton_self last))
  · rw [List.mem_singleton.mp hin] at hlt
    exact lt_irrefl _ hlt

/-- A node that no key is on has a dead one below it. -/
theorem Rooted.exists_dead (h : Rooted root) (hp : (root.nodeAt p).isNull = false)
    (hnone : ∀ r, root.lookup (p ++ r) = none) : ∃ r, root.Dead (p ++ r) := by
  obtain ⟨r, hr, hbranch⟩ := h.shaped.nodeAt.exists_leaf hp
  rw [← Tree.nodeAt_append] at hr hbranch
  exact ⟨r, hr, hbranch, hnone r⟩

theorem Rooted.min_iff (h : Rooted root) (hfirst : root.keys.head? = some first) :
    root.minBelow = some (root.lookup first) ↔ ∀ p, root.Dead p → ∃ q ∈ root.keys, q < p := by
  obtain ⟨hin, hleast⟩ := Tree.first_least hfirst
  obtain ⟨v, hv⟩ := Option.isSome_iff_exists.mp (Tree.mem_keys.mp hin)
  have hne : first ≠ [] := by
    rintro rfl
    rw [h.bare] at hv
    cases hv
  constructor
  · intro hmin p ⟨hp, hbranch, hnone⟩
    obtain ⟨q, w, hq, -, hw, hstraight⟩ := Tree.minBelow_sound h.notNull hmin
    have hkey : q ∈ root.keys := Tree.mem_keys.mpr (by simp [hw])
    have heq : first = q := by
      obtain hlt | heq | hlt := lt_trichotomy first q
      · have hbefore := (hstraight first (Tree.node_of_key hin) hlt).2.resolve_left hne
        rw [hbefore] at hv
        cases hv
      · exact heq
      · exact absurd hlt (hleast q hkey)
    subst heq
    refine ⟨first, hin, ?_⟩
    obtain hlt | heq | hlt := lt_trichotomy first p
    · exact hlt
    · rw [← heq, hv] at hnone
      cases hnone
    · -- A node on the way to the first key has a branch.
      obtain ⟨r, hr⟩ := (hstraight p hp hlt).1
      have hbelow := Tree.node_of_key hin
      rw [← hr, Tree.nodeAt_append] at hbelow
      rw [← hr, h.shaped.nodeAt.leaf hbranch hbelow, List.append_nil] at hlt
      exact absurd hlt (lt_irrefl p)
  · intro hdead
    rw [hv]
    refine Tree.minBelow_complete hne hv fun q hq hlt => ?_
    have hbefore : ∀ r, r < first → root.lookup r = none := by
      intro r hr
      by_contra hsome
      exact hleast r (Tree.mem_keys.mpr (Option.isSome_iff_ne_none.mpr hsome)) hr
    refine ⟨?_, .inr (hbefore q hlt)⟩
    by_contra hnot
    obtain ⟨r, hr⟩ := h.exists_dead hq fun r => hbefore _ (append_lt_of_lt hlt hnot r)
    obtain ⟨k, hk, hlt'⟩ := hdead _ hr
    exact hleast k hk (hlt'.trans (append_lt_of_lt hlt hnot r))

theorem Rooted.max_iff (h : Rooted root) (hlast : root.keys.getLast? = some last) :
    root.maxBelow = some (root.lookup last) ↔ ∀ p, root.Dead p → ∃ q ∈ root.keys, p < q := by
  obtain ⟨hin, hgreatest⟩ := Tree.last_greatest hlast
  obtain ⟨v, hv⟩ := Option.isSome_iff_exists.mp (Tree.mem_keys.mp hin)
  have hne : last ≠ [] := by
    rintro rfl
    rw [h.bare] at hv
    cases hv
  constructor
  · intro hmax p ⟨hp, hbranch, hnone⟩
    obtain ⟨q, -, hq, hw, hafter⟩ := Tree.maxBelow_sound h.shaped h.notNull hmax
    have hkey : q ∈ root.keys := Tree.mem_keys.mpr (by simp [hw, hv])
    have heq : last = q := by
      obtain hlt | heq | hlt := lt_trichotomy last q
      · exact absurd hlt (hgreatest q hkey)
      · exact heq
      · exact absurd hlt (hafter last (Tree.node_of_key hin))
    refine ⟨last, hin, ?_⟩
    obtain hlt | rfl | hlt := lt_trichotomy p last
    · exact hlt
    · rw [hv] at hnone
      cases hnone
    · exact absurd (heq ▸ hlt) (hafter p hp)
  · intro hdead
    refine Tree.maxBelow_complete h.shaped hne (Tree.node_of_key hin) fun q hq hlt => ?_
    have hbelow : ∀ r, last < q ++ r := fun r => by
      cases r with
      | nil => rwa [List.append_nil]
      | cons i r => exact hlt.trans (lt_append q i r)
    have hafter : ∀ r, root.lookup (q ++ r) = none := by
      intro r
      by_contra hsome
      exact hgreatest _ (Tree.mem_keys.mpr (Option.isSome_iff_ne_none.mpr hsome)) (hbelow r)
    obtain ⟨r, hr⟩ := h.exists_dead hq hafter
    obtain ⟨k, hk, hlt'⟩ := hdead _ hr
    exact hgreatest k hk ((hbelow r).trans hlt')

theorem Rooted.min_ne_null (h : Rooted root) : root.minBelow ≠ some none := by
  intro hmin
  obtain ⟨p, v, -, hv, -⟩ := Tree.minBelow_sound h.notNull hmin
  cases hv

theorem Keeps.counted_le (h : Keeps root m) : root.keys.length ≤ root.route := by
  have hcounted := h.counted
  have hnode := h.rooted.notNull
  cases root with
  | null => cases hnode
  | node n c => exact hcounted.1

theorem Keeps.extremes_iff (h : Keeps root m) : Extremes root m ↔ Settled root := by
  have hsorted := sorted_path h.lookup h.paths
  have hlookup : (fun key => m.lookup key) = fun key => root.lookup (path key) := funext fun key => (h.lookup key).symm
  have hhead : ((sorted m).head?.bind fun key => m.lookup key) = root.keys.head?.bind fun p => root.lookup p := by
    rw [hlookup, ← hsorted, List.head?_map, Option.bind_map]
    rfl
  have hgetLast : ((sorted m).getLast?.bind fun key => m.lookup key) = root.keys.getLast?.bind fun p =>
      root.lookup p := by
    rw [hlookup, ← hsorted, List.getLast?_map, Option.bind_map]
    rfl
  rw [Extremes, hhead, hgetLast]
  cases hkeys : root.keys with
  | nil =>
    have hroute : root.route = 0 ↔ Settled root :=
      ⟨fun hzero => ⟨fun _ => hzero, fun hne => absurd hkeys hne⟩, fun hsettled => hsettled.empty hkeys⟩
    rw [← hroute]
    by_cases hpos : 0 < root.route
    · simp [treeMin, hpos, h.rooted.min_ne_null, hpos.ne']
    · simp [treeMin, treeMax, Nat.eq_zero_of_not_pos hpos]
  | cons first rest =>
    have hpos : 0 < root.route := by
      have hle := h.counted_le
      rw [hkeys, List.length_cons] at hle
      omega
    obtain ⟨last, hlast⟩ : ∃ last, (first :: rest).getLast? = some last :=
      Option.isSome_iff_exists.mp (by simp)
    rw [hlast, treeMin, treeMax, if_pos hpos, if_pos hpos]
    have hfirst : root.keys.head? = some first := by rw [hkeys, List.head?_cons]
    have hmin := h.rooted.min_iff hfirst
    have hmax := h.rooted.max_iff (by rw [hkeys, hlast])
    have hsettled : Settled root ↔ ∀ p, root.Dead p → (∃ q ∈ root.keys, q < p) ∧ ∃ q ∈ root.keys, p < q :=
      ⟨fun hsettled => hsettled.dead (by simp [hkeys]), fun hdead => ⟨by simp [hkeys], fun _ => hdead⟩⟩
    rw [List.head?_cons, Option.bind_some, Option.bind_some, hmin, hmax, hsettled]
    exact ⟨fun ⟨hbefore, hafter⟩ p hp => ⟨hbefore p hp, hafter p hp⟩,
      fun hdead => ⟨fun p hp => (hdead p hp).1, fun p hp => (hdead p hp).2⟩⟩

/-- With exact counters no node is dead beside a key. -/
theorem Keeps.settled (h : Keeps root m) (hcounted : root.Counted) : Settled root where
  empty hkeys := by
    rw [hcounted.route_eq, hkeys, List.length_nil]
  dead hkeys p hdead := by
    obtain ⟨hp, hbranch, hnone⟩ := hdead
    have hleaf : ∀ q, (root.lookup (p ++ q)).isSome → q = [] := by
      intro q hq
      have hnode := Tree.node_of_key (Tree.mem_keys.mpr hq)
      rw [Tree.nodeAt_append] at hnode
      exact h.rooted.shaped.nodeAt.leaf hbranch hnode
    have hkey : ∃ q, (root.lookup (p ++ q)).isSome := by
      by_cases hnil : p = []
      · obtain ⟨q, hq⟩ := List.exists_mem_of_ne_nil _ hkeys
        exact ⟨q, by simpa [hnil] using Tree.mem_keys.mp hq⟩
      · refine (hcounted.needed hnil).mp fun hnull => ?_
        rw [hnull] at hp
        cases hp
    obtain ⟨q, hq⟩ := hkey
    rw [hleaf q hq, List.append_nil, hnone] at hq
    cases hq

end

/-- After any additions, and deletions of present keys, the walks are right exactly for a settled tree; and they are
after a run that adds absent keys completely. -/
theorem min_max (es : List (TreeEvent V)) (hrun : Along addedStep Present (Tree.create, ∅) es) :
    let s := run addedStep (Tree.create, ∅) es
    (Extremes s.1 s.2 ↔ Settled s.1) ∧
      (Along addedStep (fun s e => Fits s.1 e) (Tree.create, ∅) es → Extremes s.1 s.2) := by
  intro s
  have hkeeps : Keeps s.1 s.2 := Along.invariant (fun _ _ => Keeps.step) hrun keeps_create
  refine ⟨hkeeps.extremes_iff, fun hfits => hkeeps.extremes_iff.mpr (hkeeps.settled ?_)⟩
  have hboth : Along addedStep (fun s e => Present s e ∧ Fits s.1 e) (Tree.create, ∅) es :=
    hrun.both (fun _ _ hpresent hfit => ⟨hpresent, hfit⟩) hfits
  have hstep : ∀ (s : Tree V × KeyMap V) e, Keeps s.1 s.2 ∧ s.1.Counted → Present s e ∧ Fits s.1 e →
      Keeps (addedStep s e).1 (addedStep s e).2 ∧ (addedStep s e).1.Counted := by
    rintro s e ⟨h, hcounted⟩ ⟨hpresent, hfit⟩
    have hholds : Holds s.1 s.2 := ⟨hcounted, h.lookup, h.paths⟩
    exact ⟨h.step hpresent, (hholds.step hpresent.1 hfit).2.counted⟩
  exact (hboth.invariant hstep ⟨keeps_create, Tree.counted_create⟩).2

/-- Three keys are added, two of them deleted and added again. -/
def backAgain : List (TreeEvent Nat) :=
  [.add [97] 1 fun _ => true, .add [97, 98] 2 fun _ => true, .add [98] 3 fun _ => true, .del [97, 98], .del [97],
    .add [97, 98] 4 fun _ => true, .add [97] 5 fun _ => true]

/-- A present key is added once more, and the last key deleted. -/
def onceMore : List (TreeEvent Nat) := backAgain ++ [.add [97] 6 fun _ => true, .del [98]]

theorem min_max_again :
    Extremes (run addedStep (Tree.create, ∅) backAgain).1 (run addedStep (Tree.create, ∅) backAgain).2 ∧
      (Extremes (run addedStep (Tree.create, ∅) onceMore).1 (run addedStep (Tree.create, ∅) onceMore).2 ↔
        Settled (run addedStep (Tree.create, ∅) onceMore).1) :=
  ⟨(min_max backAgain (by decide +kernel)).2 (by decide +kernel), (min_max onceMore (by decide +kernel)).1⟩

/-- A key is added twice and deleted: `tree_min` leaves the array. -/
theorem min_outside : ∃ es : List (TreeEvent Nat), Along addedStep Present (Tree.create, ∅) es ∧
    ¬ Extremes (run addedStep (Tree.create, ∅) es).1 (run addedStep (Tree.create, ∅) es).2 := by
  refine ⟨[.add [97] 1 fun _ => true, .add [97] 2 fun _ => true, .del [97]], by decide +kernel, fun hextremes => ?_⟩
  have hmin : treeMin (run addedStep ((Tree.create, ∅) : Tree Nat × KeyMap Nat)
      [.add [97] 1 fun _ => true, .add [97] 2 fun _ => true, .del [97]]).1 = none := by decide +kernel
  have hfound := hextremes.1
  rw [hmin] at hfound
  cases hfound

end Wenas.Xtree
