import Wenas.Lib.Loop
import Wenas.Xtree.Walk

/-!
# `tree_rise`

The walk adds the nodes with a mapping to a list, in the order in which it meets them. Its inner loop goes on below a
node that another key runs through, whatever is left of the count.
-/
namespace Wenas.Xtree

open Wenas.Machine Wenas.Loop

variable {V : Type}

/-- The heads of the loops of `tree_rise`, and the lines behind the inner one. -/
inductive RiseAt where
  | outer
  | inner
  | next
  | up
deriving DecidableEq

/-- The variables of `tree_rise`, with nodes by their paths, and the nodes on its list. -/
structure Rise where
  tree : Option (List Nibble)
  i : UInt8
  count : UInt64
  line : RiseAt
  list : List (List Nibble)

def riseTurn (root : Tree V) (s : Rise) : Turn Rise :=
  match s.line, s.tree with
  | .outer, none => .stop
  | .outer, some _ => if s.count = 0 then .stop else .go { s with line := .inner }
  | .inner, some p =>
    match nibble s.i with
    | none => .go { s with line := .next }
    | some i =>
      match root.nodeAt (p ++ [i]) with
      | .null => if s.i = 15 then .go { s with line := .next } else .go { s with i := s.i + 1 }
      | .node n _ =>
        if n.mapping.isSome then
          .go { tree := some (p ++ [i]), i := 0, count := s.count - 1,
                line := if n.route = 1 then .next else .inner, list := s.list ++ [p ++ [i]] }
        else .go { s with tree := some (p ++ [i]), i := 0 }
  | .next, some p => .go { s with i := (root.nodeAt p).index + 1, tree := parent p, line := .up }
  | .up, none => .go { s with line := .outer }
  | .up, some p =>
    if 15 < s.i then .go { s with i := (root.nodeAt p).index + 1, tree := parent p }
    else .go { s with line := .outer }
  | _, none => .fail

/-- `tree_rise` in at most `n` turns of its loops; a key that has no node gives an empty list. -/
def treeRise (n : Nat) (root : Tree V) (key : Option (List UInt8)) (count : UInt64) : Option (List (List Nibble)) :=
  match key with
  | none => (loop (riseTurn root) n ⟨some [], 0, count, .outer, []⟩).map Rise.list
  | some key =>
    let p := path (key.take (keylen key).toNat)
    if (root.nodeAt p).isNull then some []
    else (loop (riseTurn root) n ⟨some p, 0, count - 1, .outer, [p]⟩).map Rise.list

/-! ### The keys that are still ahead -/

/-- What the loops do with the keys ahead: a count that comes to 0 at a node that no other key runs through ends
them. -/
def rising (root : Tree V) (count : UInt64) : List (List Nibble) → List (List Nibble)
  | [] => []
  | p :: ps => p :: if (root.nodeAt p).route = 1 ∧ count = 1 then [] else rising root (count - 1) ps

/-- The nodes that the walk has not met yet. -/
def Rise.ahead (s : Rise) (q : List Nibble) : Bool :=
  match s.tree with
  | none => false
  | some p =>
    match if s.line = .next then none else nibble s.i with
    | some i => decide (¬ q < p ++ [i])
    | none => decide (After p q)

/-- What the list will be. -/
def Rise.result (root : Tree V) (s : Rise) : List (List Nibble) :=
  s.list ++ if s.count = 0 ∧ s.line ≠ .inner then [] else rising root s.count (root.keys.filter s.ahead)

structure Rise.Proper (root : Tree V) (s : Rise) : Prop where
  there : ∀ p, s.tree = some p → (root.nodeAt p).isNull = false
  inside : ∀ p, s.tree = some p → s.line = .inner ∨ s.line = .outer → s.i.toNat < 16
  leave : s.line = .next → s.tree ≠ none
  /-- The inner loop goes on with a count of 0 only above another key. -/
  busy : s.line = .inner → ∃ p, s.tree = some p ∧ (s.count = 0 → ∃ q ∈ root.keys, p <+: q ∧ s.ahead q = true)

/-- How deep the walk is, and the places to its right. -/
def Rise.place (s : Rise) : Nat :=
  match s.tree, s.line with
  | some p, .up => 60 * (p.length + 1) + 3 * (16 - s.i.toNat) + 3
  | some p, .outer => 60 * (p.length + 1) + 3 * (16 - s.i.toNat) + 2
  | some p, .inner => 60 * (p.length + 1) + 3 * (16 - s.i.toNat) + 1
  | some p, .next => 60 * (p.length + 1)
  | none, .up => 1
  | none, _ => 0

def riseMeasure (root : Tree V) (s : Rise) : Nat :=
  (root.nodes.filter s.ahead).length * (60 * root.nodes.toFinset.sup List.length + 180) + s.place

/-- A turn that goes on to `t` leaves what the list will be. -/
structure Rise.Follows (root : Tree V) (s t : Rise) : Prop where
  turn : riseTurn root s = .go t
  proper : t.Proper root
  result : t.result root = s.result root
  lower : riseMeasure root t < riseMeasure root s

section

variable {root : Tree V} {s t : Rise} {p q r : List Nibble} {i j : Nibble} {n : Xnode V} {c : Nibble → Tree V}

theorem null_below (h : root.nodeAt p = .null) (hbegins : p <+: q) : root.nodeAt q = .null := by
  obtain ⟨r, rfl⟩ := hbegins
  rw [Tree.nodeAt_append, h, Tree.nodeAt_null]

/-- Below a counter of 1 there is no other node. -/
theorem only_node (h : root.Counted) (hkey : (root.lookup p).isSome) (hroute : (root.nodeAt p).route = 1) (hp : p ≠ [])
    (hq : (root.nodeAt q).isNull = false) (hbegins : p <+: q) : q = p := by
  obtain ⟨r, rfl⟩ := hbegins
  have hne : root.nodeAt (p ++ r) ≠ .null := by
    intro hnull
    rw [hnull] at hq
    cases hq
  obtain ⟨r', hr'⟩ := (h.needed (List.append_ne_nil_of_left_ne_nil hp r)).mp hne
  obtain hnull | ⟨hcounted, -⟩ := h.nodeAt (p := p)
  · rw [Tree.lookup, hnull] at hkey
    cases hkey
  · obtain ⟨k, hk⟩ := List.length_eq_one_iff.mp (hcounted.route_eq ▸ hroute)
    have hfirst : [] ∈ (root.nodeAt p).keys := Tree.mem_keys.mpr (by rwa [Tree.lookup, Tree.nodeAt_nil])
    have hother : r ++ r' ∈ (root.nodeAt p).keys :=
      Tree.mem_keys.mpr (by rwa [Tree.lookup, ← Tree.nodeAt_append, ← List.append_assoc])
    rw [hk, List.mem_singleton] at hfirst hother
    rw [← hfirst] at hother
    rw [(List.append_eq_nil_iff.mp hother).1, List.append_nil]

/-- Above other keys, or without a mapping, a node has a key below it. -/
theorem other_key (h : root.Counted) (hp : p ≠ []) (hnode : (root.nodeAt p).isNull = false)
    (hmore : root.lookup p = none ∨ (root.nodeAt p).route ≠ 1) : ∃ q ∈ root.keys, p <+: q ∧ q ≠ p := by
  obtain hnull | ⟨hcounted, hpos⟩ := h.nodeAt (p := p)
  · rw [hnull] at hnode
    cases hnode
  by_contra hnone
  push Not at hnone
  have honly : (root.nodeAt p).keys ⊆ [[]] := by
    intro r hr
    have hkey : p ++ r ∈ root.keys := by
      rw [Tree.mem_keys, Tree.lookup, Tree.nodeAt_append]
      exact Tree.mem_keys.mp hr
    have heq := hnone _ hkey (List.prefix_append p r)
    rw [List.append_cancel_left (heq.trans (List.append_nil p).symm)]
    exact List.mem_singleton_self []
  have hlen := (Tree.nodup_keys.subperm honly).length_le
  have hroute := hpos hp
  rw [hcounted.route_eq] at hmore hroute
  obtain ⟨k, hk⟩ := List.length_eq_one_iff.mp (Nat.le_antisymm hlen hroute)
  rw [hk] at hmore honly
  obtain hbare | hmany := hmore
  · have hin : (root.nodeAt p).lookup [] = none := by rwa [Tree.lookup, Tree.nodeAt_nil]
    have hmem : [] ∈ (root.nodeAt p).keys := by
      rw [hk, List.mem_singleton]
      exact (List.mem_singleton.mp (honly (List.mem_singleton_self k))).symm
    rw [Tree.mem_keys, hin] at hmem
    cases hmem
  · exact hmany rfl

theorem Rise.result_congr (hlist : t.list = s.list) (hcount : t.count = s.count)
    (hline : s.count = 0 → (t.line = .inner ↔ s.line = .inner)) (hahead : ∀ q ∈ root.keys, t.ahead q = s.ahead q) :
    t.result root = s.result root := by
  rw [result, result, hlist, hcount, List.filter_congr hahead]
  by_cases hzero : s.count = 0
  · simp only [hzero, true_and, ne_eq, hline hzero]
  · simp only [hzero, false_and, if_false]

theorem Rise.lower_congr (hahead : ∀ q ∈ root.nodes, t.ahead q = s.ahead q) (hplace : t.place < s.place) :
    riseMeasure root t < riseMeasure root s := by
  rw [riseMeasure, riseMeasure, List.filter_congr hahead]
  exact Nat.add_lt_add_left hplace _

/-- The walk meets one node. -/
theorem Rise.lower_first (hahead : root.nodes.filter s.ahead = q :: root.nodes.filter t.ahead)
    (hplace : t.place < 60 * root.nodes.toFinset.sup List.length + 180) : riseMeasure root t < riseMeasure root s := by
  rw [riseMeasure, riseMeasure, hahead, List.length_cons, Nat.succ_mul (List.length _)]
  omega

theorem mem_nodes_of_keys (h : q ∈ root.keys) : q ∈ root.nodes := by
  rw [Tree.keys_eq] at h
  exact List.mem_of_mem_filter h

theorem nibble_toNat (h : nibble s.i = some i) : s.i.toNat = i.val := (nibble_some.mp h).symm

theorem ahead_some (htree : s.tree = some p) (hline : s.line ≠ .next) (hi : nibble s.i = some i) :
    s.ahead q = decide (¬ q < p ++ [i]) := by
  simp [Rise.ahead, htree, hline, hi]

theorem ahead_none (htree : s.tree = some p) (hend : s.line = .next ∨ nibble s.i = none) :
    s.ahead q = decide (After p q) := by
  obtain hline | hi := hend
  · simp [Rise.ahead, htree, hline]
  · simp [Rise.ahead, htree, hi]

namespace Rise.Proper

/-- The walk goes up from a node that it is done with. -/
theorem climb (h : s.Proper root) (hroot : Rooted root) (htree : s.tree = some p)
    (hend : s.line = .next ∨ s.line = .up ∧ nibble s.i = none)
    (hturn : riseTurn root s = .go { s with i := (root.nodeAt p).index + 1, tree := parent p, line := .up }) :
    s.Follows root { s with i := (root.nodeAt p).index + 1, tree := parent p, line := .up } := by
  have hahead : ∀ q, s.ahead q = decide (After p q) := fun q => ahead_none htree (hend.imp_right And.right)
  have hinner : s.line ≠ .inner := by
    obtain hline | ⟨hline, -⟩ := hend
    · simp [hline]
    · simp [hline]
  have hplace : 60 * (p.length + 1) ≤ s.place := by
    obtain hline | ⟨hline, -⟩ := hend
    · simp [place, htree, hline]
    · simp [place, htree, hline]
      omega
  cases p using List.reverseRecOn with
  | nil =>
    have hsame : ∀ q, ({ s with i := (root.nodeAt []).index + 1, tree := none, line := .up } : Rise).ahead q =
        s.ahead q := by
      intro q
      rw [hahead, decide_eq_false not_after_nil]
      rfl
    refine ⟨hturn, ⟨nofun, nofun, nofun, nofun⟩, result_congr rfl rfl (fun _ => by simp [hinner]) fun q _ => hsame q, ?_⟩
    have hone : ({ s with i := (root.nodeAt []).index + 1, tree := none, line := .up } : Rise).place < 60 :=
      Nat.lt_of_sub_eq_succ rfl
    exact lower_congr (fun q _ => hsame q) (Nat.lt_of_lt_of_le hone hplace)
  | append_singleton p j =>
    have hnode := h.there _ htree
    have hindex : ((root.nodeAt (p ++ [j])).index + 1).toNat = j.val + 1 := by
      have hone : (1 : UInt8).toNat = 1 := rfl
      have hj := j.isLt
      rw [hroot.shaped.index_concat hnode, UInt8.toNat_add, UInt8.toNat_ofNat']
      omega
    simp only [parent_concat] at hturn ⊢
    have hsame : ∀ q, ({ s with i := (root.nodeAt (p ++ [j])).index + 1, tree := some p, line := .up } : Rise).ahead q =
        s.ahead q := by
      intro q
      rw [hahead]
      by_cases hj : j.val = 15
      · rw [ahead_none rfl (.inr (nibble_none.mpr (by simp only [hindex]; omega))), show j = 15 from Fin.ext hj]
        exact decide_eq_decide.mpr after_last.symm
      · have hlt : j.val + 1 < 16 := by omega
        rw [ahead_some (i := ⟨j.val + 1, hlt⟩) rfl (by simp) (nibble_some.mpr hindex.symm)]
        exact decide_eq_decide.mpr (after_concat rfl).symm
    have hup := Tree.node_above hnode
    refine ⟨hturn, ⟨?_, ?_, nofun, nofun⟩, result_congr rfl rfl (fun _ => by simp [hinner]) fun q _ => hsame q, ?_⟩
    · rintro _ ⟨rfl⟩
      exact hup
    · rintro _ - (hline | hline)
      · cases hline
      · cases hline
    · refine lower_congr (fun q _ => hsame q) (Nat.lt_of_lt_of_le ?_ hplace)
      simp only [place, List.length_append, List.length_singleton]
      omega

/-- A child that is not there is skipped. -/
theorem skip (h : s.Proper root) (htree : s.tree = some p) (hline : s.line = .inner) (hi : nibble s.i = some i)
    (hnull : root.nodeAt (p ++ [i]) = .null) : ∃ t, s.Follows root t := by
  have hival := nibble_some.mp hi
  have hahead : ∀ q, s.ahead q = decide (¬ q < p ++ [i]) := fun q => ahead_some htree (by simp [hline]) hi
  have hafter : ∀ q ∈ root.nodes, s.ahead q = decide (After (p ++ [i]) q) := by
    intro q hq
    rw [hahead]
    refine decide_eq_decide.mpr (not_lt_iff.trans (or_iff_right fun hbegins => ?_))
    rw [Tree.mem_nodes, null_below hnull hbegins] at hq
    cases hq
  obtain ⟨_, htree', hbusy⟩ := h.busy hline
  obtain rfl := Option.some.inj (htree.symm.trans htree')
  by_cases hlast : s.i = 15
  · have hi15 : i = 15 := Fin.ext (by rw [hival, hlast]; rfl)
    have hsame : ∀ q ∈ root.nodes, ({ s with line := .next } : Rise).ahead q = s.ahead q := by
      intro q hq
      rw [hafter q hq, hi15, ahead_none (s := { s with line := .next }) htree (.inl rfl)]
      exact decide_eq_decide.mpr after_last.symm
    have hcount : s.count ≠ 0 := by
      intro hzero
      obtain ⟨q, hq, hbegins, hin⟩ := hbusy hzero
      rw [← hsame q (mem_nodes_of_keys hq), ahead_none (s := { s with line := .next }) htree (.inl rfl)] at hin
      exact (of_decide_eq_true hin).2 hbegins
    refine ⟨{ s with line := .next }, ?_, ⟨h.there, ?_, fun _ => by simp [htree], nofun⟩, ?_, ?_⟩
    · have hi' : nibble 15 = some i := hlast ▸ hi
      simp [riseTurn, hline, htree, hi', hnull, hlast]
    · rintro _ - (hnext | hnext)
      · cases hnext
      · cases hnext
    · exact result_congr rfl rfl (fun hzero => absurd hzero hcount) fun q hq => hsame q (mem_nodes_of_keys hq)
    · refine lower_congr hsame ?_
      simp [place, htree, hline]
  · have hlt : i.val + 1 < 16 := by
      have hne : s.i.toNat ≠ 15 := fun heq => hlast (UInt8.toNat_inj.mp heq)
      omega
    have hnext : (s.i + 1).toNat = i.val + 1 := by
      have hone : (1 : UInt8).toNat = 1 := rfl
      rw [UInt8.toNat_add]
      omega
    have hsame : ∀ q ∈ root.nodes, ({ s with i := s.i + 1 } : Rise).ahead q = s.ahead q := by
      intro q hq
      have hstep := ahead_some (s := { s with i := s.i + 1 }) (i := ⟨i.val + 1, hlt⟩) (q := q) htree (by simp [hline])
        (nibble_some.mpr hnext.symm)
      rw [hafter q hq, hstep]
      exact decide_eq_decide.mpr (after_concat rfl).symm
    refine ⟨{ s with i := s.i + 1 }, ?_, ⟨h.there, ?_, fun _ => by simp [htree], ?_⟩, ?_, ?_⟩
    · simp [riseTurn, hline, htree, hi, hnull, hlast]
    · rintro _ - -
      exact hnext ▸ hlt
    · intro _
      refine ⟨p, htree, fun hzero => ?_⟩
      obtain ⟨q, hq, hbegins, hin⟩ := hbusy hzero
      exact ⟨q, hq, hbegins, (hsame q (mem_nodes_of_keys hq)).trans hin⟩
    · exact result_congr rfl rfl (fun _ => Iff.rfl) fun q hq => hsame q (mem_nodes_of_keys hq)
    · refine lower_congr hsame ?_
      simp only [place, htree, hline, hnext]
      omega

/-- The places of a child follow the child. -/
theorem ahead_first (h : s.ahead q = decide (¬ q < p)) (h' : t.ahead q = decide (¬ q < p ++ [0])) :
    s.ahead q = true ↔ q = p ∨ t.ahead q = true := by
  rw [h, h', decide_eq_true_iff, decide_eq_true_iff, lt_first, not_or]
  by_cases heq : q = p
  · simp [heq]
  · simp [heq]

/-- A walk at a child is not deeper than the tree. -/
theorem place_le (hthere : (root.nodeAt p).isNull = false) (htree : t.tree = some p) :
    t.place < 60 * root.nodes.toFinset.sup List.length + 180 := by
  have hdeep := Tree.length_le hthere
  cases hline : t.line with
  | outer | inner | next | up =>
    simp only [place, htree, hline]
    omega

/-- The walk goes down to a child without a mapping. -/
theorem pass (hcounted : root.Counted) (htree : s.tree = some p) (hline : s.line = .inner)
    (hi : nibble s.i = some i) (hnode : root.nodeAt (p ++ [i]) = .node n c) (hmapping : n.mapping = none) :
    ∃ t, s.Follows root t := by
  have hthere : (root.nodeAt (p ++ [i])).isNull = false := by rw [hnode]; rfl
  have hbare : root.lookup (p ++ [i]) = none := by rw [Tree.lookup, hnode]; exact hmapping
  have hahead : ∀ q, s.ahead q = decide (¬ q < p ++ [i]) := fun q => ahead_some htree (by simp [hline]) hi
  have hbelow : ∀ q, ({ s with tree := some (p ++ [i]), i := 0 } : Rise).ahead q = decide (¬ q < p ++ [i] ++ [0]) :=
    fun q => ahead_some rfl (by simp [hline]) rfl
  have hfirst : ∀ q, s.ahead q = true ↔
      q = p ++ [i] ∨ ({ s with tree := some (p ++ [i]), i := 0 } : Rise).ahead q = true :=
    fun q => ahead_first (hahead q) (hbelow q)
  refine ⟨{ s with tree := some (p ++ [i]), i := 0 }, ?_, ⟨?_, ?_, by simp [hline], ?_⟩, ?_, ?_⟩
  · simp [riseTurn, hline, htree, hi, hnode, hmapping]
  · rintro _ ⟨rfl⟩
    exact hthere
  · rintro _ - -
    exact Nat.zero_lt_succ 15
  · intro _
    obtain ⟨q, hq, hbegins, hne⟩ := other_key hcounted (by simp) hthere (.inl hbare)
    refine ⟨_, rfl, fun _ => ⟨q, hq, hbegins, ((hfirst q).mp ?_).resolve_left hne⟩⟩
    rw [hahead]
    exact decide_eq_true (not_lt_of_begins hbegins)
  · refine result_congr rfl rfl (fun _ => Iff.rfl) fun q hq => ?_
    rw [Bool.eq_iff_iff, hfirst, or_iff_right]
    rintro rfl
    rw [Tree.mem_keys, hbare] at hq
    cases hq
  · refine lower_first (filter_first Tree.nodes_sorted (Tree.mem_nodes.mpr hthere) (fun q _ => hfirst q) ?_)
      (place_le hthere rfl)
    intro q _ hq
    rw [hbelow, decide_eq_true_iff] at hq
    exact lt_of_lt_of_le (lt_append (p ++ [i]) 0 []) (not_lt.mp hq)

/-- The walk puts a child on the list, and leaves it at once if no other key runs through it. -/
theorem add (hcounted : root.Counted) (htree : s.tree = some p) (hline : s.line = .inner)
    (hi : nibble s.i = some i) (hnode : root.nodeAt (p ++ [i]) = .node n c) (hmapping : n.mapping.isSome) :
    ∃ t, s.Follows root t := by
  have hthere : (root.nodeAt (p ++ [i])).isNull = false := by rw [hnode]; rfl
  have hkey : (root.lookup (p ++ [i])).isSome := by rw [Tree.lookup, hnode]; exact hmapping
  have hroute : (root.nodeAt (p ++ [i])).route = n.route := by rw [hnode]; rfl
  have hahead : ∀ q, s.ahead q = decide (¬ q < p ++ [i]) := fun q => ahead_some htree (by simp [hline]) hi
  obtain ⟨t, ht⟩ : ∃ t : Rise, t = ⟨some (p ++ [i]), 0, s.count - 1, if n.route = 1 then .next else .inner,
    s.list ++ [p ++ [i]]⟩ := ⟨_, rfl⟩
  have htree' : t.tree = some (p ++ [i]) := by rw [ht]
  have hbelow : ∀ q ∈ root.nodes, s.ahead q = true ↔ q = p ++ [i] ∨ t.ahead q = true := by
    intro q hq
    by_cases hone : n.route = 1
    · rw [hahead, ahead_none htree' (.inl (by rw [ht]; exact if_pos hone)), decide_eq_true_iff, decide_eq_true_iff,
        not_lt_iff]
      refine or_congr_left ⟨fun hbegins => ?_, fun heq => heq ▸ List.prefix_refl _⟩
      exact only_node hcounted hkey (hroute.trans hone) (by simp) (Tree.mem_nodes.mp hq) hbegins
    · exact ahead_first (hahead q) (ahead_some htree' (by simp [ht, hone]) (by rw [ht]; rfl))
  have hafter : ∀ q, t.ahead q = true → p ++ [i] < q := by
    intro q hin
    by_cases hone : n.route = 1
    · rw [ahead_none htree' (.inl (by rw [ht]; exact if_pos hone)), decide_eq_true_iff] at hin
      exact hin.1
    · rw [ahead_some htree' (by simp [ht, hone]) (by rw [ht]; rfl), decide_eq_true_iff] at hin
      exact lt_of_lt_of_le (lt_append (p ++ [i]) 0 []) (not_lt.mp hin)
  have hkeys : root.keys.filter s.ahead = (p ++ [i]) :: root.keys.filter t.ahead :=
    filter_first Tree.keys_sorted (Tree.mem_keys.mpr hkey) (fun q hq => hbelow q (mem_nodes_of_keys hq))
      fun q _ hq => hafter q hq
  refine ⟨t, ?_, ⟨?_, ?_, fun _ => by simp [htree'], ?_⟩, ?_, ?_⟩
  · simp [riseTurn, hline, htree, hi, hnode, hmapping, ht]
  · intro q hq
    rw [htree'] at hq
    exact Option.some.inj hq ▸ hthere
  · intro _ _ _
    rw [ht]
    exact Nat.zero_lt_succ 15
  · intro hinner
    have hmany : n.route ≠ 1 := by
      intro hone
      simp [ht, hone] at hinner
    obtain ⟨q, hq, hbegins, hne⟩ := other_key hcounted (by simp) hthere (.inr (hroute.trans_ne hmany))
    refine ⟨_, htree', fun _ => ⟨q, hq, hbegins, ((hbelow q (mem_nodes_of_keys hq)).mp ?_).resolve_left hne⟩⟩
    rw [hahead]
    exact decide_eq_true (not_lt_of_begins hbegins)
  · have hlast : s.count - 1 = 0 ↔ s.count = 1 := by
      rw [sub_eq_zero]
    have hleave : t.line ≠ .inner ↔ n.route = 1 := by
      by_cases hone : n.route = 1 <;> simp [ht, hone]
    have hcount : t.count = s.count - 1 := by rw [ht]
    have hlist : t.list = s.list ++ [p ++ [i]] := by rw [ht]
    have hbusy : ¬ (s.count = 0 ∧ s.line ≠ .inner) := fun hnot => hnot.2 hline
    rw [result, result, hkeys, hlist, hcount, rising, hroute, if_neg hbusy, List.append_assoc, List.singleton_append]
    simp only [hlast, hleave, and_comm]
  · exact lower_first (filter_first Tree.nodes_sorted (Tree.mem_nodes.mpr hthere)
      (fun q hq => hbelow q hq) fun q _ hq => hafter q hq) (place_le hthere htree')

/-- Each turn follows, until the list is what it should be. -/
theorem turn (h : s.Proper root) (hroot : Rooted root) (hcounted : root.Counted) :
    (riseTurn root s = .stop ∧ s.list = s.result root) ∨ ∃ t, s.Follows root t := by
  cases hline : s.line with
  | outer =>
    cases htree : s.tree with
    | none =>
      refine .inl ⟨by simp [riseTurn, hline, htree], ?_⟩
      have hnone : root.keys.filter s.ahead = [] := List.filter_eq_nil_iff.mpr fun q _ => by simp [ahead, htree]
      simp [result, hnone, rising]
    | some p =>
      by_cases hzero : s.count = 0
      · exact .inl ⟨by simp [riseTurn, hline, htree, hzero], by simp [result, hline, hzero]⟩
      · have hsame : ∀ q, ({ s with line := .inner } : Rise).ahead q = s.ahead q := by
          intro q
          simp [ahead, htree, hline]
        refine .inr ⟨{ s with line := .inner }, ?_, ⟨h.there, ?_, nofun, ?_⟩, ?_, ?_⟩
        · simp [riseTurn, hline, htree, hzero]
        · exact fun q hq _ => h.inside q hq (.inr hline)
        · exact fun _ => ⟨p, htree, fun hcount => absurd hcount hzero⟩
        · exact result_congr rfl rfl (fun hcount => absurd hcount hzero) fun q _ => hsame q
        · refine lower_congr (fun q _ => hsame q) ?_
          simp [place, htree, hline]
  | inner =>
    obtain ⟨p, htree, -⟩ := h.busy hline
    cases hi : nibble s.i with
    | none => exact absurd (nibble_none.mp hi) (Nat.not_le.mpr (h.inside p htree (.inl hline)))
    | some i =>
      cases hnode : root.nodeAt (p ++ [i]) with
      | null => exact .inr (h.skip htree hline hi hnode)
      | node n c =>
        cases hmapping : n.mapping with
        | none => exact .inr (pass hcounted htree hline hi hnode hmapping)
        | some v => exact .inr (add hcounted htree hline hi hnode (by rw [hmapping]; rfl))
  | next =>
    cases htree : s.tree with
    | none => exact absurd htree (h.leave hline)
    | some p => exact .inr ⟨_, h.climb hroot htree (.inl hline) (by simp [riseTurn, hline, htree])⟩
  | up =>
    cases htree : s.tree with
    | none =>
      have hsame : ∀ q, ({ s with line := .outer } : Rise).ahead q = s.ahead q := by
        intro q
        simp [ahead, htree]
      refine .inr ⟨{ s with line := .outer }, ?_, ⟨h.there, ?_, nofun, nofun⟩, ?_, ?_⟩
      · simp [riseTurn, hline, htree]
      · intro q hq
        exact absurd (htree.symm.trans hq) nofun
      · exact result_congr rfl rfl (fun _ => by simp [hline]) fun q _ => hsame q
      · refine lower_congr (fun q _ => hsame q) ?_
        simp [place, htree, hline]
    | some p =>
      cases hi : nibble s.i with
      | none =>
        have hlast : 15 < s.i := by
          rw [UInt8.lt_iff_toNat_lt]
          exact nibble_none.mp hi
        exact .inr ⟨_, h.climb hroot htree (.inr ⟨hline, hi⟩) (by simp [riseTurn, hline, htree, hlast])⟩
      | some i =>
        have hinside : s.i.toNat < 16 := nibble_toNat hi ▸ i.isLt
        have hlow : ¬ 15 < s.i := by
          rw [UInt8.lt_iff_toNat_lt, Nat.not_lt]
          exact Nat.le_of_lt_succ hinside
        have hsame : ∀ q, ({ s with line := .outer } : Rise).ahead q = s.ahead q := by
          intro q
          simp [ahead, htree, hline]
        refine .inr ⟨{ s with line := .outer }, ?_, ⟨h.there, fun _ _ _ => hinside, nofun, nofun⟩, ?_, ?_⟩
        · simp [riseTurn, hline, htree, hlow]
        · exact result_congr rfl rfl (fun _ => by simp [hline]) fun q _ => hsame q
        · refine lower_congr (fun q _ => hsame q) ?_
          simp [place, htree, hline]

/-- The loops end with the list. -/
theorem ends (h : s.Proper root) (hroot : Rooted root) (hcounted : root.Counted) :
    ∃ t, Ends (riseTurn root) s t ∧ t.list = s.result root := by
  have hfail : ∀ t, t.Proper root ∧ t.result root = s.result root → riseTurn root t ≠ .fail := by
    rintro t ⟨ht, -⟩ hfail
    obtain ⟨hstop, -⟩ | ⟨u, hu⟩ := ht.turn hroot hcounted
    · rw [hstop] at hfail
      cases hfail
    · rw [hu.turn] at hfail
      cases hfail
  have hgo : ∀ t u, t.Proper root ∧ t.result root = s.result root → riseTurn root t = .go u →
      (u.Proper root ∧ u.result root = s.result root) ∧ riseMeasure root u < riseMeasure root t := by
    rintro t u ⟨ht, hresult⟩ hgo
    obtain ⟨hstop, -⟩ | ⟨u', hu⟩ := ht.turn hroot hcounted
    · rw [hstop] at hgo
      cases hgo
    · rw [hu.turn] at hgo
      cases hgo
      exact ⟨⟨hu.proper, hu.result.trans hresult⟩, hu.lower⟩
  obtain ⟨t, hends, ⟨ht, hresult⟩, hstop⟩ := ends_of_measure (riseMeasure root) hfail hgo ⟨h, rfl⟩
  obtain ⟨-, hlist⟩ | ⟨u, hu⟩ := ht.turn hroot hcounted
  · exact ⟨t, hends, hlist.trans hresult⟩
  · rw [hu.turn] at hstop
    cases hstop

end Rise.Proper

/-! ### The limit -/

/-- The limit is kept when no other key runs through the last node that it allows. -/
theorem rising_eq_take {count : UInt64} {ps : List (List Nibble)} (hcount : count ≠ 0) :
    rising root count ps = ps.take count.toNat ↔
      ∀ p, ps[count.toNat - 1]? = some p → (root.nodeAt p).route = 1 ∨ ps.length = count.toNat := by
  induction ps generalizing count with
  | nil => simp [rising]
  | cons p ps ih =>
    by_cases hone : count = 1
    · subst hone
      have htoNat : (1 : UInt64).toNat = 1 := rfl
      rw [htoNat, rising]
      by_cases hroute : (root.nodeAt p).route = 1
      · simp [hroute]
      · cases ps with
        | nil => simp [hroute, rising]
        | cons q ps => simp [hroute, rising]
    · have hpos : 1 ≤ count.toNat := Nat.one_le_iff_ne_zero.mpr fun hzero => hcount (UInt64.toNat_inj.mp hzero)
      have hsub : (count - 1).toNat = count.toNat - 1 := UInt64.toNat_sub_of_le _ _ hpos
      have hmore : count - 1 ≠ 0 := fun hzero => hone (sub_eq_zero.mp hzero)
      have hmore' : 1 ≤ count.toNat - 1 := by
        rw [← hsub]
        exact Nat.one_le_iff_ne_zero.mpr fun hzero => hmore (UInt64.toNat_inj.mp hzero)
      obtain ⟨k, hk⟩ : ∃ k, count.toNat = k + 2 := ⟨count.toNat - 2, by omega⟩
      rw [rising, if_neg fun hnot => hone hnot.2, hk, List.take_succ_cons, List.cons.injEq, and_iff_right rfl]
      have hrest := ih hmore
      rw [hsub, hk] at hrest
      rw [show k + 1 = k + 2 - 1 from rfl, hrest]
      simp

/-- No other key runs through the node of a key that no other key begins with. -/
theorem Built.route_one {m : KeyMap V} {key : List UInt8} (h : Built root m) (hkey : key ∈ m) :
    (root.nodeAt (path key)).route = 1 ↔ ∀ other ∈ m, key <+: other → other = key := by
  have hin : key ∈ through m (path key) :=
    Finset.mem_filter.mpr ⟨Finmap.mem_keys.mpr hkey, List.prefix_refl _⟩
  rw [(h.holds.route (path key)).1, Finset.card_eq_one]
  constructor
  · rintro ⟨only, honly⟩ other hother hbegins
    have hmem : other ∈ through m (path key) :=
      Finset.mem_filter.mpr ⟨Finmap.mem_keys.mpr hother, path_begins.mpr hbegins⟩
    rw [honly, Finset.mem_singleton] at hin hmem
    rw [hin, hmem]
  · intro halone
    refine ⟨key, Finset.eq_singleton_iff_unique_mem.mpr ⟨hin, fun other hother => ?_⟩⟩
    obtain ⟨hmem, hbegins⟩ := Finset.mem_filter.mp hother
    exact halone other (Finmap.mem_keys.mp hmem) (path_begins.mp hbegins)

/-- A list of keys in their order, with all that come after one of them. -/
theorem Built.limit_iff {m : KeyMap V} {count : UInt64} {keys : List (List UInt8)} (h : Built root m)
    (hsorted : keys.Pairwise (· < ·)) (hin : ∀ key ∈ keys, key ∈ m)
    (hall : ∀ key ∈ keys, ∀ other ∈ m, key < other → other ∈ keys) (hcount : count ≠ 0) :
    rising root count (keys.map path) = (keys.take count.toNat).map path ↔
      ∀ key, keys[count.toNat - 1]? = some key → ∀ other ∈ m, key <+: other → other = key := by
  rw [List.map_take, rising_eq_take hcount, List.length_map]
  simp only [List.getElem?_map, Option.map_eq_some_iff, forall_exists_index, and_imp, forall_apply_eq_imp_iff₂]
  refine forall_congr' fun key => forall_congr' fun hkey => ?_
  have hmem := List.mem_of_getElem? hkey
  rw [h.route_one (hin key hmem), or_iff_left_of_imp]
  -- The last key has none after it.
  intro hlast other hother hbegins
  by_contra hne
  have hlt : key < other := by
    obtain ⟨r, rfl⟩ := hbegins
    cases r with
    | nil => exact absurd (List.append_nil key) hne
    | cons b r =>
      have hlt : key ++ [] < key ++ b :: r := List.append_left_lt (List.nil_lt_cons b r)
      rwa [List.append_nil] at hlt
  obtain ⟨i, hi, hget⟩ := List.getElem_of_mem (hall key hmem other hother hlt)
  obtain ⟨hj, hget'⟩ := List.getElem?_eq_some_iff.mp hkey
  have hle : i ≤ count.toNat - 1 := by omega
  obtain hlt' | heq := Nat.lt_or_eq_of_le hle
  · have hbefore := List.pairwise_iff_getElem.mp hsorted i _ hi hj hlt'
    rw [hget, hget'] at hbefore
    exact lt_asymm (path_lt.mpr hlt) (path_lt.mpr hbefore)
  · subst heq
    exact hne (hget.symm.trans hget')

end

/-- The keys from `start` on, or all of them. -/
def risen (m : KeyMap V) (start : Option (List UInt8)) : List (List UInt8) :=
  (sorted m).filter fun key => start.all fun s => decide (s ≤ key)

theorem mem_sorted {m : KeyMap V} {key : List UInt8} : key ∈ sorted m ↔ key ∈ m := by
  rw [sorted, Finset.mem_sort, Finmap.mem_keys]

/-- A walk from a key of the tree, or from the root, ends with the keys from there on, up to the limit, exactly if the
limit is the start, or no key begins with the last one that the limit allows. -/
theorem rise_first (es : List (TreeEvent V))
    (hrun : Along treeStep (fun root e => Called root e ∧ Fits root e) Tree.create es) (start : Option (List UInt8))
    (count : UInt64) (hstart : ∀ key ∈ start, key ∈ run mapStep (∅ : KeyMap V) es) (hcount : count ≠ 0) :
    let m := run mapStep (∅ : KeyMap V) es
    let keys := risen m start
    ∃ list k, (∀ n ≥ k, treeRise n (run treeStep Tree.create es) start count = some list) ∧
      (list = (keys.take count.toNat).map path ↔ start.isSome ∧ count = 1 ∨
        ∀ key, keys[count.toNat - 1]? = some key → ∀ other ∈ m, key <+: other → other = key) := by
  intro m keys
  have h : Built (run treeStep Tree.create es) m := built es hrun
  generalize run treeStep Tree.create es = root at h
  have hpaths : (sorted m).map path = root.keys := sorted_path h.holds.lookup h.holds.paths
  have hsorted : (sorted m).Pairwise (· < ·) := by
    have hkeys := root.keys_sorted
    rw [← hpaths, List.pairwise_map] at hkeys
    exact hkeys.imp path_lt.mp
  cases start with
  | none =>
    have hkeys : keys = sorted m := List.filter_eq_self.mpr fun _ _ => rfl
    have hproper : Rise.Proper root ⟨some [], 0, count, .outer, []⟩ := by
      refine ⟨?_, fun _ _ _ => Nat.zero_lt_succ 15, nofun, nofun⟩
      rintro _ ⟨rfl⟩
      rw [Tree.nodeAt_nil]
      exact h.rooted.notNull
    have hall : root.keys.filter (Rise.ahead ⟨some [], 0, count, .outer, []⟩) = root.keys := by
      refine List.filter_eq_self.mpr fun q hq => ?_
      rw [ahead_some (i := 0) rfl (by simp) rfl, decide_eq_true_iff, lt_first, not_or]
      refine ⟨List.not_lt_nil q, ?_⟩
      rintro rfl
      rw [Tree.mem_keys, h.rooted.bare] at hq
      cases hq
    obtain ⟨t, ⟨k, hk⟩, hlist⟩ := hproper.ends h.rooted h.holds.counted
    refine ⟨t.list, k, fun n hn => by rw [treeRise, hk n hn]; rfl, ?_⟩
    rw [hlist, Rise.result, hall, ← hpaths, if_neg fun hnot => hcount hnot.1, List.nil_append, hkeys,
      h.limit_iff hsorted (fun key hkey => mem_sorted.mp hkey) (fun _ _ other hother _ => mem_sorted.mpr hother) hcount]
    simp
  | some start =>
    have hin : start ∈ m := hstart start rfl
    obtain ⟨hpos, hlen⟩ := h.short start hin
    have hthere : (root.nodeAt (path start)).isNull = false := by
      refine Tree.node_of_key (Tree.mem_keys.mpr ?_)
      rw [h.holds.lookup, Finmap.lookup_isSome]
      exact hin
    obtain ⟨s, hs⟩ : ∃ s : Rise, s = ⟨some (path start), 0, count - 1, .outer, [path start]⟩ := ⟨_, rfl⟩
    obtain ⟨rest, hrest⟩ : ∃ rest, rest = (sorted m).filter fun key => decide (start < key) := ⟨_, rfl⟩
    have hproper : s.Proper root := by
      subst hs
      refine ⟨?_, fun _ _ _ => Nat.zero_lt_succ 15, nofun, nofun⟩
      rintro _ ⟨rfl⟩
      exact hthere
    have hahead : root.keys.filter s.ahead = rest.map path := by
      rw [← hpaths, List.filter_map, hrest]
      refine congrArg (List.map path) (List.filter_congr fun key _ => ?_)
      subst hs
      rw [Function.comp, ahead_some (i := 0) rfl (by simp) rfl, decide_eq_decide, lt_first, not_or, ← path_lt]
      exact ⟨fun hnot => lt_of_le_of_ne (not_lt.mp hnot.1) (Ne.symm hnot.2), fun hlt => ⟨lt_asymm hlt, hlt.ne'⟩⟩
    have hkeys : keys = start :: rest := by
      rw [hrest]
      refine filter_first hsorted (mem_sorted.mpr hin) (fun key _ => ?_) fun key _ hlt => of_decide_eq_true hlt
      rw [Option.all_some, decide_eq_true_iff, decide_eq_true_iff, ← path_le, ← path_lt, le_iff_eq_or_lt]
      exact or_congr_left ⟨fun heq => (path_inj heq).symm, fun heq => heq ▸ rfl⟩
    have hmem : ∀ key, key ∈ rest ↔ key ∈ m ∧ start < key := by
      intro key
      rw [hrest, List.mem_filter, mem_sorted, decide_eq_true_iff]
    have hall : ∀ key ∈ rest, ∀ other ∈ m, key < other → other ∈ rest := fun key hkey other hother hlt =>
      (hmem other).mpr ⟨hother, path_lt.mp ((path_lt.mpr ((hmem key).mp hkey).2).trans (path_lt.mpr hlt))⟩
    obtain ⟨t, ⟨k, hk⟩, hlist⟩ := hproper.ends h.rooted h.holds.counted
    refine ⟨t.list, k, fun n hn => ?_, ?_⟩
    · rw [treeRise, take_keylen hlen]
      simp only [hthere, Bool.false_eq_true, if_false]
      rw [← hs, hk n hn]
      rfl
    · have hresult : t.list = path start :: if count - 1 = 0 then [] else rising root (count - 1) (rest.map path) := by
        rw [hlist, Rise.result, hahead, hs]
        simp
      rw [hresult, hkeys]
      by_cases hone : count = 1
      · subst hone
        simp
      · have hmore : count - 1 ≠ 0 := fun hzero => hone (sub_eq_zero.mp hzero)
        have hlimit := h.limit_iff (hrest ▸ hsorted.filter _) (fun key hkey => ((hmem key).mp hkey).1) hall hmore
        obtain ⟨k, hk⟩ : ∃ k, count.toNat = k + 2 := by
          have hzero : count.toNat ≠ 0 := fun hzero => hcount (UInt64.toNat_inj.mp hzero)
          have hone' : count.toNat ≠ 1 := fun heq => hone (UInt64.toNat_inj.mp heq)
          exact ⟨count.toNat - 2, by omega⟩
        have hsub : (count - 1).toNat = k + 1 := by
          have hpos : (1 : UInt64) ≤ count := by
            rw [UInt64.le_iff_toNat_le, hk]
            exact Nat.le_add_left 1 (k + 1)
          rw [UInt64.toNat_sub_of_le _ _ hpos, hk]
          rfl
        rw [hsub] at hlimit
        rw [if_neg hmore, hk, List.take_succ_cons, List.map_cons, List.cons.injEq, and_iff_right rfl, hlimit]
        simp [hone]

/-- A key and one that begins with it. -/
theorem rise_first_pair :
    let es := [TreeEvent.add [97] 1 fun _ => true, .add [97, 98] 2 fun _ => true]
    ∃ list k, (∀ n ≥ k, treeRise n (run treeStep (Tree.create : Tree Nat) es) none 2 = some list) ∧
      list = [path [97], path [97, 98]] := by
  intro es
  have hrun : Along treeStep (fun root e => Called root e ∧
      Fits root e) (Tree.create : Tree Nat) es := by decide +kernel
  have hkeys : risen (run mapStep (∅ : KeyMap Nat) es) none = [[97], [97, 98]] := by
    have hsorted : sorted (run mapStep (∅ : KeyMap Nat) es) = [[97], [97, 98]] :=
      (built es hrun).sorted_eq (by decide +kernel)
    rw [risen, hsorted]
    rfl
  obtain ⟨list, k, hk, hiff⟩ := rise_first es hrun none 2 nofun (by decide)
  refine ⟨list, k, hk, ?_⟩
  rw [hkeys] at hiff
  refine hiff.mpr (.inr ?_)
  rintro _ ⟨rfl⟩
  decide +kernel

/-- The limit is the first of two keys, but the second begins with it. -/
theorem rise_over : ∃ es : List (TreeEvent Nat),
    Along treeStep (fun root e => Called root e ∧ Fits root e) Tree.create es ∧
    treeRise 200 (run treeStep Tree.create es) none 1 = some [path [97], path [97, 98]] ∧
      (risen (run mapStep (∅ : KeyMap Nat) es) none).take 1 = [[97]] := by
  obtain ⟨es, hes⟩ : ∃ es : List (TreeEvent Nat), es = [.add [97] 1 fun _ => true, .add [97, 98] 2 fun _ => true] :=
    ⟨_, rfl⟩
  have hrun : Along treeStep (fun root e => Called root e ∧ Fits root e) (Tree.create : Tree Nat) es := by
    rw [hes]
    decide +kernel
  have hsorted : sorted (run mapStep (∅ : KeyMap Nat) es) = [[97], [97, 98]] := by
    refine (built es hrun).sorted_eq ?_
    rw [hes]
    decide +kernel
  refine ⟨es, hrun, ?_, ?_⟩
  · rw [hes]
    decide +kernel
  · rw [risen, hsorted]
    rfl

end Wenas.Xtree
