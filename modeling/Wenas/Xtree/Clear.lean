import Wenas.Lib.Loop
import Wenas.Xtree.Nodes

/-!
# `xtree_clear`

The walk goes down to a node without branches, frees it and goes on at its parent. All that is to the left of the walk
is freed already, so that a node it leaves has no branches any more.
-/
namespace Wenas.Xtree

open Wenas.Machine Wenas.Loop

variable {W : Type}

/-- The heads of the two loops, and the lines behind the inner one. -/
inductive ClearAt where
  | outer
  | inner
  | leave

/-- The nodes that are still there, by their paths, the variables of `xtree_clear`, the calls of `clear` and the nodes
freed. A mapping is a pointer, which may be null. -/
structure Clear (W : Type) where
  cells : List Nibble → Option (Xnode (Option W))
  tree : Option (List Nibble)
  i : UInt8
  line : ClearAt
  cleared : List (List Nibble × W)
  freed : List (List Nibble)

/-- One key less, in 64 bits. -/
def lower (route : Nat) : Nat := if route = 0 then 2 ^ 64 - 1 else route - 1

/-- The node `n` at `p` is freed, and its place `i` in the parent at `q` cleared. -/
def Clear.remove (s : Clear W) (clear : Bool) (p q : List Nibble) (i : Nibble) (n : Xnode (Option W)) : Clear W where
  cells x :=
    if x = q ++ [i] then none
    else (s.cells x).map fun m => { m with
      branch := if x = q then m.branch - 1 else m.branch
      route := if x = [] ∧ n.mapping.join.isSome then lower m.route else m.route }
  tree := some q
  i := n.index + 1
  line := .outer
  cleared := s.cleared ++ if clear then (n.mapping.join.map fun w => (p, w)).toList else []
  freed := s.freed ++ [p]

def clearTurn (clear : Bool) (s : Clear W) : Turn (Clear W) :=
  match s.line, s.tree with
  | .outer, none => .stop
  | .outer, some _ =>
    match s.cells [] with
    | none => .fail
    | some root => if 0 < root.branch then .go { s with line := .inner } else .stop
  | .inner, some p =>
    match nibble s.i with
    | none => .go { s with line := .leave }
    | some i =>
      match s.cells (p ++ [i]) with
      | none => .go { s with i := s.i + 1 }
      | some n =>
        if n.branch = 0 then .go { s with tree := some (p ++ [i]), line := .leave }
        else .go { s with tree := some (p ++ [i]), i := 0 }
  | .leave, some p =>
    match s.cells p with
    | none => .fail
    | some n =>
      if n.branch = 0 then
        match parent p, nibble n.index with
        | some q, some i => .go (s.remove clear p q i n)
        | _, _ => .fail
      else .go { s with tree := parent p, i := n.index + 1, line := .outer }
  | _, none => .fail

def Tree.data {V : Type} : Tree V → Option (Xnode V)
  | null => none
  | node n _ => some n

def clearStart (root : Tree (Option W)) : Clear W := ⟨fun p => (root.nodeAt p).data, some [], 0, .outer, [], []⟩

/-- `xtree_clear` in at most `n` turns of its loops; `clear` tells whether it gets a function to call. -/
def xtreeClear (n : Nat) (clear : Bool) (root : Tree (Option W)) : Option (Clear W) :=
  loop (clearTurn clear) n (clearStart root)

/-! ### What is left of the tree -/

/-- All the places below `p` are empty. -/
def Clear.Bare (s : Clear W) (p : List Nibble) : Prop := ∀ j : Nibble, s.cells (p ++ [j]) = none

/-- Everything to the left of the walk is freed. -/
structure Clear.Swept (s : Clear W) (p : List Nibble) : Prop where
  tree : s.tree = some p
  there : (s.cells p).isSome
  left : ∀ q k r, p = q ++ k :: r → ∀ j < k, s.cells (q ++ [j]) = none
  here : s.line ≠ .leave → ∀ j : Nibble, j.val < s.i.toNat → s.cells (p ++ [j]) = none
  last : s.line = .leave → p ≠ [] ∧ s.Bare p
  more : s.line = .inner → ¬ s.Bare []

structure Clearing (root : Tree (Option W)) (clear : Bool) (s : Clear W) : Prop where
  old : ∀ p n, s.cells p = some n → ∃ m, (root.nodeAt p).data = some m ∧ n.mapping = m.mapping ∧ n.index = m.index
  branch : ∀ p n, s.cells p = some n → n.branch.toNat = (Finset.univ.filter fun i => (s.cells (p ++ [i])).isSome).card
  up : ∀ p i, (s.cells (p ++ [i])).isSome → (s.cells p).isSome
  swept : ∃ p, s.Swept p
  freed : ∀ p, p ∈ s.freed ↔ (root.nodeAt p).isNull = false ∧ s.cells p = none
  freedOnce : s.freed.Nodup
  cleared : ∀ p w, (p, w) ∈ s.cleared ↔ clear = true ∧ s.cells p = none ∧ (root.lookup p).join = some w
  clearedOnce : (s.cleared.map Prod.fst).Nodup

section

variable {root : Tree (Option W)} {clear : Bool} {s t : Clear W} {p q : List Nibble} {k : Nibble}
  {n : Xnode (Option W)}

theorem Tree.data_none {V : Type} {t : Tree V} : t.data = none ↔ t.isNull = true := by cases t <;> simp [data, isNull]

theorem Tree.data_isSome {V : Type} {t : Tree V} : t.data.isSome ↔ t.isNull = false := by
  cases t <;> simp [data, isNull]

/-- The last step of a path, or one before it. -/
theorem concat_eq {r : List Nibble} {i : Nibble} (h : p ++ [i] = q ++ k :: r) :
    (q = p ∧ k = i) ∨ ∃ r', p = q ++ k :: r' := by
  cases r using List.reverseRecOn with
  | nil =>
    obtain ⟨hp, hi⟩ := List.append_inj' h rfl
    exact .inl ⟨hp.symm, (List.cons.inj hi).1.symm⟩
  | append_singleton r x =>
    rw [← List.cons_append, ← List.append_assoc] at h
    exact .inr ⟨r, (List.append_inj' h rfl).1⟩

theorem clearing_start (h : Rooted root) : Clearing root clear (clearStart root) where
  old p n hn := ⟨n, hn, rfl, rfl⟩
  branch p n hn := by
    have hshaped := h.shaped.nodeAt (p := p)
    simp only [clearStart, Tree.nodeAt_concat] at hn ⊢
    cases ht : root.nodeAt p with
    | null =>
      rw [ht] at hn
      cases hn
    | node m c =>
      rw [ht] at hn hshaped
      obtain rfl := Option.some.inj hn
      rw [hshaped.1, Tree.width]
      refine congrArg Finset.card (Finset.filter_congr fun i _ => ?_)
      rw [Tree.child_node, Tree.data_isSome]
  up p i hi := by
    simp only [clearStart, Tree.nodeAt_concat] at hi ⊢
    cases ht : root.nodeAt p with
    | null =>
      rw [ht] at hi
      cases hi
    | node m c => rfl
  swept := by
    refine ⟨[], rfl, ?_, fun q k r hr => by simp at hr, fun _ j hj => absurd hj (Nat.not_lt_zero _), by simp [clearStart],
      by simp [clearStart]⟩
    cases root with
    | null => cases h.notNull
    | node n c => rfl
  freed p := by
    simp [clearStart, Tree.data_none]
  freedOnce := List.nodup_nil
  cleared p w := by
    simp only [clearStart, List.not_mem_nil, false_iff, Tree.data_none, Tree.lookup]
    rintro ⟨-, hnull, hw⟩
    rw [Tree.isNull_iff.mp hnull] at hw
    cases hw
  clearedOnce := List.nodup_nil

namespace Clearing

/-- A step of the walk that frees nothing. -/
theorem move (h : Clearing root clear s) (hcells : t.cells = s.cells) (hfreed : t.freed = s.freed)
    (hcleared : t.cleared = s.cleared) (hswept : ∃ p, t.Swept p) : Clearing root clear t where
  old := hcells ▸ h.old
  branch := hcells ▸ h.branch
  up := hcells ▸ h.up
  swept := hswept
  freed := hfreed ▸ hcells ▸ h.freed
  freedOnce := hfreed ▸ h.freedOnce
  cleared := hcleared ▸ hcells ▸ h.cleared
  clearedOnce := hcleared ▸ h.clearedOnce

theorem branch_eq_zero (h : Clearing root clear s) (hn : s.cells p = some n) : n.branch = 0 ↔ s.Bare p := by
  rw [← UInt16.toNat_inj, h.branch p n hn]
  simp [Clear.Bare, Finset.filter_eq_empty_iff]

theorem index (h : Clearing root clear s) (hroot : Rooted root) (hn : s.cells (q ++ [k]) = some n) :
    nibble n.index = some k := by
  obtain ⟨m, hm, -, hindex⟩ := h.old _ n hn
  have hplace := hroot.shaped.index_concat (p := q) (i := k)
  cases ht : root.nodeAt (q ++ [k]) with
  | null =>
    rw [ht] at hm
    cases hm
  | node m' c =>
    rw [ht] at hm hplace
    obtain rfl := Option.some.inj hm
    rw [hindex, show m'.index = UInt8.ofNat k from hplace rfl]
    exact nibble_ofNat k

theorem root_there (h : Clearing root clear s) (hp : (s.cells p).isSome) : (s.cells []).isSome := by
  induction p using List.reverseRecOn with
  | nil => exact hp
  | append_singleton p i ih => exact ih (h.up p i hp)

theorem node (h : Clearing root clear s) (hp : (s.cells p).isSome) : (root.nodeAt p).isNull = false := by
  obtain ⟨n, hn⟩ := Option.isSome_iff_exists.mp hp
  obtain ⟨m, hm, -⟩ := h.old p n hn
  rw [← Tree.data_isSome, hm]
  rfl

end Clearing

/-! ### A leaf is freed -/

theorem remove_cells {x : List Nibble} : ((s.remove clear p q k n).cells x).isSome ↔ x ≠ q ++ [k] ∧
    (s.cells x).isSome := by
  by_cases hx : x = q ++ [k]
  · simp [Clear.remove, hx]
  · simp [Clear.remove, hx]

theorem remove_none {x : List Nibble} : (s.remove clear p q k n).cells x = none ↔ x = q ++ [k] ∨ s.cells x = none := by
  rw [← Option.not_isSome_iff_eq_none, ← Option.not_isSome_iff_eq_none, remove_cells]
  tauto

theorem remove_some {x : List Nibble} {n' : Xnode (Option W)} (h : (s.remove clear p q k n).cells x = some n') :
    ∃ m, s.cells x = some m ∧ n'.mapping = m.mapping ∧ n'.index = m.index ∧
      n'.branch = if x = q then m.branch - 1 else m.branch := by
  simp only [Clear.remove] at h
  split at h
  · cases h
  · obtain ⟨m, hm, rfl⟩ := Option.map_eq_some_iff.mp h
    exact ⟨m, hm, rfl, rfl, rfl⟩

/-- The node that is freed is the only child its parent loses. -/
theorem remove_branch (h : Clearing root clear s) (hn : s.cells (q ++ [k]) = some n) {x : List Nibble}
    {n' : Xnode (Option W)} (hx : (s.remove clear p q k n).cells x = some n') :
    n'.branch.toNat = (Finset.univ.filter fun i => ((s.remove clear p q k n).cells (x ++ [i])).isSome).card := by
  obtain ⟨m, hm, -, -, hbranch⟩ := remove_some hx
  have hcount := h.branch x m hm
  simp only [remove_cells]
  by_cases hxq : x = q
  · subst hxq
    have hin : k ∈ Finset.univ.filter fun i => (s.cells (x ++ [i])).isSome := by simp [hn]
    have herase : (Finset.univ.filter fun i => x ++ [i] ≠ x ++ [k] ∧ (s.cells (x ++ [i])).isSome) =
        (Finset.univ.filter fun i => (s.cells (x ++ [i])).isSome).erase k := by
      ext i
      simp
    have hpos := Finset.card_pos.mpr ⟨k, hin⟩
    have hone : (1 : UInt16) ≤ m.branch := by
      rw [UInt16.le_iff_toNat_le, hcount]
      exact hpos
    rw [herase, Finset.card_erase_of_mem hin, ← hcount, hbranch, if_pos rfl, UInt16.toNat_sub_of_le _ _ hone]
    rfl
  · have hsame : ∀ i, x ++ [i] ≠ q ++ [k] := fun i heq => hxq (List.append_inj' heq rfl).1
    rw [hbranch, if_neg hxq, hcount]
    simp [hsame]

/-- What `clear` is called with when a node is freed. -/
theorem mem_remove {x : List Nibble} {w : W} : (x, w) ∈ (s.remove clear p q k n).cleared ↔
    (x, w) ∈ s.cleared ∨ clear = true ∧ x = p ∧ n.mapping.join = some w := by
  cases clear with
  | false => simp [Clear.remove]
  | true =>
    simp only [Clear.remove, if_true, List.mem_append, Option.mem_toList, Option.map_eq_some_iff, Prod.mk.injEq,
      true_and]
    refine or_congr_right ⟨?_, ?_⟩
    · rintro ⟨_, hw, rfl, rfl⟩
      exact ⟨rfl, hw⟩
    · rintro ⟨rfl, hw⟩
      exact ⟨w, hw, rfl, rfl⟩

theorem remove_once (hnew : ∀ w, (p, w) ∉ s.cleared) (honce : (s.cleared.map Prod.fst).Nodup) :
    ((s.remove clear p q k n).cleared.map Prod.fst).Nodup := by
  have hp : p ∉ s.cleared.map Prod.fst := by
    simpa using hnew
  rw [Clear.remove, List.map_append]
  cases clear with
  | false => simpa using honce
  | true =>
    cases n.mapping.join with
    | none => simpa using honce
    | some w => simpa [List.nodup_append, honce] using fun x w' hx (heq : x = p) => hnew w' (heq ▸ hx)

theorem Clearing.remove (h : Clearing root clear s) (hroot : Rooted root) (hswept : s.Swept (q ++ [k]))
    (hline : s.line = .leave) (hn : s.cells (q ++ [k]) = some n) :
    Clearing root clear (s.remove clear (q ++ [k]) q k n) := by
  have hthere : (s.cells (q ++ [k])).isSome := hswept.there
  have hindex := nibble_some.mp (h.index hroot hn)
  obtain ⟨m, hm, hmapping, -⟩ := h.old _ n hn
  have hlookup : (root.lookup (q ++ [k])).join = n.mapping.join := by
    rw [hmapping, Tree.lookup]
    cases ht : root.nodeAt (q ++ [k]) with
    | null =>
      rw [ht] at hm
      cases hm
    | node m' c =>
      rw [ht] at hm
      obtain rfl := Option.some.inj hm
      rfl
  refine ⟨fun x n' hx => ?_, fun x n' hx => remove_branch h hn hx, fun x i hx => ?_, ⟨q, ?_⟩, fun x => ?_, ?_,
    fun x w => ?_, ?_⟩
  · obtain ⟨m, hm, hmap, hind, -⟩ := remove_some hx
    obtain ⟨m', hm', hmap', hind'⟩ := h.old x m hm
    exact ⟨m', hm', hmap.trans hmap', hind.trans hind'⟩
  · obtain ⟨-, hthere'⟩ := remove_cells.mp hx
    refine remove_cells.mpr ⟨fun heq => ?_, h.up x i hthere'⟩
    -- The freed node has no children.
    rw [heq, (hswept.last hline).2 i] at hthere'
    cases hthere'
  · refine ⟨rfl, remove_cells.mpr ⟨by simp, h.up q k hthere⟩, fun q' k' r hq j hj => ?_, fun _ j hj => ?_,
      by simp [Clear.remove], by simp [Clear.remove]⟩
    · exact remove_none.mpr (.inr (hswept.left q' k' (r ++ [k]) (by simp [hq]) j hj))
    · have hle : j.val ≤ k.val := by
        have hk := k.isLt
        have hone : (1 : UInt8).toNat = 1 := rfl
        simp only [Clear.remove, UInt8.toNat_add] at hj
        omega
      obtain hlt | heq := Nat.lt_or_eq_of_le hle
      · exact remove_none.mpr (.inr (hswept.left q k [] rfl j hlt))
      · exact remove_none.mpr (.inl (by rw [Fin.ext heq]))
  · rw [remove_none, Clear.remove, List.mem_append, List.mem_singleton, h.freed]
    constructor
    · rintro (⟨hnode, hnone⟩ | rfl)
      · exact ⟨hnode, .inr hnone⟩
      · exact ⟨h.node hthere, .inl rfl⟩
    · rintro ⟨hnode, rfl | hnone⟩
      · exact .inr rfl
      · exact .inl ⟨hnode, hnone⟩
  · refine List.nodup_append.mpr ⟨h.freedOnce, List.nodup_singleton _, fun x hx y hy heq => ?_⟩
    rw [List.mem_singleton.mp hy] at heq
    rw [← heq, ((h.freed x).mp hx).2] at hthere
    cases hthere
  · rw [mem_remove, h.cleared, remove_none]
    constructor
    · rintro (⟨hclear, hnone, hw⟩ | ⟨hclear, rfl, hw⟩)
      · exact ⟨hclear, .inr hnone, hw⟩
      · exact ⟨hclear, .inl rfl, hlookup.trans hw⟩
    · rintro ⟨hclear, rfl | hnone, hw⟩
      · exact .inr ⟨hclear, rfl, hlookup.symm.trans hw⟩
      · exact .inl ⟨hclear, hnone, hw⟩
  · refine remove_once (fun w hw => ?_) h.clearedOnce
    rw [((h.cleared _ w).mp hw).2.1] at hthere
    cases hthere

/-! ### The turns -/

/-- The nodes that are left, how far the walk is above the deepest of them, and the places to its right. -/
def clearMeasure (root : Tree (Option W)) (s : Clear W) : Nat :=
  let deep := root.nodes.toFinset.sup List.length
  (root.nodes.toFinset.filter fun p => (s.cells p).isSome).card * (54 * deep + 60) +
    3 * (18 * (deep - (s.tree.getD []).length) + (17 - s.i.toNat)) +
    match s.line with
    | .outer => 2
    | .inner => 1
    | .leave => 0

/-- The loop stops at an empty tree, or goes on. -/
def Clear.Proper (root : Tree (Option W)) (clear : Bool) (s : Clear W) : Prop :=
  (clearTurn clear s = .stop ∧ s.Bare []) ∨
    ∃ t, clearTurn clear s = .go t ∧ Clearing root clear t ∧ clearMeasure root t < clearMeasure root s

theorem Clearing.outer (h : Clearing root clear s) (hswept : s.Swept p) (hline : s.line = .outer) :
    s.Proper root clear := by
  obtain ⟨n, hn⟩ := Option.isSome_iff_exists.mp (h.root_there hswept.there)
  by_cases hbranch : 0 < n.branch
  · refine .inr ⟨{ s with line := .inner }, ?_, h.move rfl rfl rfl ⟨p, ?_⟩, ?_⟩
    · simp [clearTurn, hline, hswept.tree, hn, hbranch]
    · refine ⟨hswept.tree, hswept.there, hswept.left, fun _ => hswept.here (by simp [hline]), nofun, fun _ hbare => ?_⟩
      rw [(h.branch_eq_zero hn).mpr hbare] at hbranch
      exact absurd hbranch (UInt16.lt_irrefl 0)
    · simp [clearMeasure, hline]
  · refine .inl ⟨?_, (h.branch_eq_zero hn).mp ?_⟩
    · simp [clearTurn, hline, hswept.tree, hn, hbranch]
    · exact UInt16.le_antisymm (UInt16.not_lt.mp hbranch) (UInt16.zero_le)

/-- An empty place is skipped. -/
theorem Clearing.skip (h : Clearing root clear s) (hswept : s.Swept p) (hline : s.line = .inner) {i : Nibble}
    (hi : nibble s.i = some i) (hn : s.cells (p ++ [i]) = none) : s.Proper root clear := by
  have hival := nibble_some.mp hi
  have hnext : (s.i + 1).toNat = s.i.toNat + 1 := by
    have hone : (1 : UInt8).toNat = 1 := rfl
    rw [UInt8.toNat_add]
    omega
  refine .inr ⟨{ s with i := s.i + 1 }, ?_, h.move rfl rfl rfl ⟨p, ?_⟩, ?_⟩
  · simp [clearTurn, hline, hswept.tree, hi, hn]
  · refine ⟨hswept.tree, hswept.there, hswept.left, fun hinner j hj => ?_, fun hleave => ?_, hswept.more⟩
    · obtain hlt | heq := Nat.lt_or_eq_of_le (Nat.le_of_lt_succ (hnext ▸ hj))
      · exact hswept.here hinner j hlt
      · rwa [show j = i from Fin.ext (heq.trans hival.symm)]
    · exact absurd (hline.symm.trans hleave) (by simp)
  · simp only [clearMeasure, hline, hnext]
    omega

/-- The walk goes down to a child, and leaves it at once if it has no branches. -/
theorem Clearing.down (h : Clearing root clear s) (hswept : s.Swept p) (hline : s.line = .inner) {i : Nibble}
    (hi : nibble s.i = some i) (hn : s.cells (p ++ [i]) = some n) : s.Proper root clear := by
  have hival := nibble_some.mp hi
  have hthere : (s.cells (p ++ [i])).isSome := by
    rw [hn]
    rfl
  have hleft : ∀ q k r, p ++ [i] = q ++ k :: r → ∀ j < k, s.cells (q ++ [j]) = none := by
    intro q k r heq j hj
    obtain ⟨rfl, rfl⟩ | ⟨r', heq'⟩ := concat_eq heq
    · exact hswept.here (by simp [hline]) j (hival ▸ hj)
    · exact hswept.left q k r' heq' j hj
  have hdeep := Tree.length_le (h.node hthere)
  rw [List.length_append, List.length_singleton] at hdeep
  by_cases hbranch : n.branch = 0
  · refine .inr ⟨{ s with tree := some (p ++ [i]), line := .leave }, ?_, h.move rfl rfl rfl ⟨p ++ [i], ?_⟩, ?_⟩
    · simp [clearTurn, hline, hswept.tree, hi, hn, hbranch]
    · have hbare := (h.branch_eq_zero hn).mp hbranch
      exact ⟨rfl, hthere, hleft, fun hne => absurd rfl hne, fun _ => ⟨by simp, hbare⟩, nofun⟩
    · simp only [clearMeasure, hline, hswept.tree, Option.getD_some, List.length_append, List.length_singleton]
      omega
  · refine .inr ⟨{ s with tree := some (p ++ [i]), i := 0 }, ?_, h.move rfl rfl rfl ⟨p ++ [i], ?_⟩, ?_⟩
    · simp [clearTurn, hline, hswept.tree, hi, hn, hbranch]
    · refine ⟨rfl, hthere, hleft, fun _ j hj => absurd hj (Nat.not_lt_zero _), fun hleave => ?_, hswept.more⟩
      exact absurd (hline.symm.trans hleave) (by simp)
    · simp only [clearMeasure, hline, hswept.tree, Option.getD_some, List.length_append, List.length_singleton,
        UInt8.toNat_zero]
      omega

theorem Clearing.inner (h : Clearing root clear s) (hswept : s.Swept p) (hline : s.line = .inner) :
    s.Proper root clear := by
  cases hi : nibble s.i with
  | none =>
    have hbare : s.Bare p := fun j => hswept.here (by simp [hline]) j (j.isLt.trans_le (nibble_none.mp hi))
    refine .inr ⟨{ s with line := .leave }, ?_, h.move rfl rfl rfl ⟨p, ?_⟩, ?_⟩
    · simp [clearTurn, hline, hswept.tree, hi]
    · refine ⟨hswept.tree, hswept.there, hswept.left, fun hne => absurd rfl hne, fun _ => ⟨?_, hbare⟩, nofun⟩
      rintro rfl
      exact hswept.more hline hbare
    · simp [clearMeasure, hline]
  | some i =>
    cases hn : s.cells (p ++ [i]) with
    | none => exact h.skip hswept hline hi hn
    | some n => exact h.down hswept hline hi hn

theorem Clearing.leave (h : Clearing root clear s) (hroot : Rooted root) (hswept : s.Swept p)
    (hline : s.line = .leave) :
    s.Proper root clear := by
  obtain ⟨hp, hbare⟩ := hswept.last hline
  obtain ⟨n, hn⟩ := Option.isSome_iff_exists.mp hswept.there
  obtain ⟨q, k, rfl⟩ : ∃ q k, p = q ++ [k] := ⟨p.dropLast, p.getLast hp, (List.dropLast_append_getLast hp).symm⟩
  refine .inr ⟨s.remove clear (q ++ [k]) q k n, ?_, h.remove hroot hswept hline hn, ?_⟩
  · simp [clearTurn, hline, hswept.tree, hn, (h.branch_eq_zero hn).mpr hbare, h.index hroot hn]
  · have hin : q ++ [k] ∈ root.nodes.toFinset.filter fun x => (s.cells x).isSome :=
      Finset.mem_filter.mpr ⟨List.mem_toFinset.mpr (Tree.mem_nodes.mpr (h.node hswept.there)), hswept.there⟩
    have herase : (root.nodes.toFinset.filter fun x => ((s.remove clear (q ++ [k]) q k n).cells x).isSome) =
        (root.nodes.toFinset.filter fun x => (s.cells x).isSome).erase (q ++ [k]) := by
      ext x
      simp only [Finset.mem_filter, Finset.mem_erase, remove_cells]
      tauto
    have hpos := Finset.card_pos.mpr ⟨_, hin⟩
    simp only [clearMeasure, herase, Finset.card_erase_of_mem hin, hline]
    obtain ⟨left, hleft⟩ := Nat.exists_eq_succ_of_ne_zero hpos.ne'
    rw [hleft, Nat.succ_sub_one, Nat.succ_mul left]
    generalize left * _ = rest
    simp only [Clear.remove]
    omega

theorem Clearing.proper (h : Clearing root clear s) (hroot : Rooted root) : s.Proper root clear := by
  obtain ⟨p, hswept⟩ := h.swept
  cases hline : s.line with
  | outer => exact h.outer hswept hline
  | inner => exact h.inner hswept hline
  | leave => exact h.leave hroot hswept hline

/-- The loop ends, with an empty tree. -/
theorem Clearing.ends (h : Clearing root clear s) (hroot : Rooted root) :
    ∃ t, Ends (clearTurn clear) s t ∧ Clearing root clear t ∧ t.Bare [] := by
  have hfail : ∀ s, Clearing root clear s → clearTurn clear s ≠ .fail := by
    intro s hs hfail
    obtain ⟨hturn, -⟩ | ⟨u, hturn, -⟩ := hs.proper hroot
    · rw [hturn] at hfail
      cases hfail
    · rw [hturn] at hfail
      cases hfail
  have hgo : ∀ s t, Clearing root clear s → clearTurn clear s = .go t →
      Clearing root clear t ∧ clearMeasure root t < clearMeasure root s := by
    intro s t hs hgo
    obtain ⟨hturn, -⟩ | ⟨u, hturn, hu⟩ := hs.proper hroot
    · rw [hturn] at hgo
      cases hgo
    · rw [hturn] at hgo
      cases hgo
      exact hu
  obtain ⟨t, hends, ht, hstop⟩ := ends_of_measure (clearMeasure root) hfail hgo h
  obtain ⟨-, hbare⟩ | ⟨u, hturn, -⟩ := ht.proper hroot
  · exact ⟨t, hends, ht, hbare⟩
  · rw [hstop] at hturn
    cases hturn

/-- Without children at the root, no node below it is left. -/
theorem Clearing.bare (h : Clearing root clear s) (hbare : s.Bare []) (hp : p ≠ []) : s.cells p = none := by
  induction p using List.reverseRecOn with
  | nil => exact absurd rfl hp
  | append_singleton p i ih =>
    by_cases hnil : p = []
    · exact hnil ▸ hbare i
    · rw [← Option.not_isSome_iff_eq_none]
      intro hthere
      have hup := h.up p i hthere
      rw [ih hnil] at hup
      cases hup

end

/-- After any calls for keys of 1 to 255 bytes, `xtree_clear` ends. Each node below the root is freed once, and `clear`
called once with each mapping; the root has no children left. -/
theorem clear_empties (es : List (TreeEvent (Option W))) (hrun : Along treeStep Called Tree.create es) (clear : Bool) :
    let root := run treeStep Tree.create es
    ∃ s k, (∀ n ≥ k, xtreeClear n clear root = some s) ∧
      s.freed.Nodup ∧ (∀ p, p ∈ s.freed ↔ p ≠ [] ∧ (root.nodeAt p).isNull = false) ∧
      (s.cleared.map Prod.fst).Nodup ∧ (∀ p w, (p, w) ∈ s.cleared ↔ clear = true ∧ (root.lookup p).join = some w) ∧
      (∀ i, s.cells [i] = none) ∧ ∃ n, s.cells [] = some n ∧ n.branch = 0 := by
  intro root
  have hroot : Rooted root := Along.invariant (fun _ _ => Rooted.step) hrun rooted_create
  have hstart : Clearing root clear (clearStart root) := clearing_start hroot
  obtain ⟨s, ⟨k, hk⟩, h, hbare⟩ := hstart.ends hroot
  obtain ⟨p, hswept⟩ := h.swept
  have hthere := h.root_there hswept.there
  obtain ⟨n, hn⟩ := Option.isSome_iff_exists.mp hthere
  refine ⟨s, k, hk, h.freedOnce, fun p => ?_, h.clearedOnce, fun p w => ?_, hbare, n, hn,
    (h.branch_eq_zero hn).mpr hbare⟩
  · rw [h.freed]
    constructor
    · rintro ⟨hnode, hnone⟩
      refine ⟨?_, hnode⟩
      rintro rfl
      rw [hnone] at hthere
      cases hthere
    · rintro ⟨hp, hnode⟩
      exact ⟨hnode, h.bare hbare hp⟩
  · rw [h.cleared]
    constructor
    · rintro ⟨hclear, -, hw⟩
      exact ⟨hclear, hw⟩
    · rintro ⟨hclear, hw⟩
      refine ⟨hclear, h.bare hbare ?_, hw⟩
      rintro rfl
      rw [hroot.bare] at hw
      cases hw

/-- A key and one that begins with it, the first without a mapping. -/
theorem clear_empties_pair :
    let root := run treeStep Tree.create [TreeEvent.add [97] (none : Option Nat) fun _ => true,
      .add [97, 98] (some 2) fun _ => true]
    ∃ s k, (∀ n ≥ k, xtreeClear n true root = some s) ∧ s.freed.Nodup ∧ ∀ i, s.cells [i] = none := by
  intro root
  obtain ⟨s, k, hk, honce, -, -, -, hbare, -⟩ := clear_empties
    [TreeEvent.add [97] (none : Option Nat) fun _ => true, .add [97, 98] (some 2) fun _ => true]
    (by decide +kernel) true
  exact ⟨s, k, hk, honce, hbare⟩

end Wenas.Xtree
