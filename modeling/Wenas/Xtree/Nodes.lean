import Wenas.Xtree.Map

/-!
# The nodes of the tree

A node is at the end of its path from the root. Its `index` is the last step of the path and its `branch` the number of
its children, after additions and deletions of any keys. In the order of their paths, a node comes before the ones
below it, and the order of the keys is that of their paths.
-/
namespace Wenas.Xtree

open Wenas.Machine

variable {V : Type}

/-- The `parent` of the node at a path. -/
def parent (p : List Nibble) : Option (List Nibble) := if p = [] then none else some p.dropLast

@[simp] theorem parent_nil : parent [] = none := rfl

@[simp] theorem parent_concat (p : List Nibble) (i : Nibble) : parent (p ++ [i]) = some p := by
  simp [parent]

/-- A child index, as long as it is inside the array. -/
def nibble (i : UInt8) : Option Nibble := if h : i.toNat < 16 then some ⟨i.toNat, h⟩ else none

theorem nibble_some {i : UInt8} {j : Nibble} : nibble i = some j ↔ j.val = i.toNat := by
  unfold nibble
  split
  · rw [Option.some.injEq, Fin.ext_iff]
    exact eq_comm
  · simp only [reduceCtorEq, false_iff]
    omega

theorem nibble_none {i : UInt8} : nibble i = none ↔ 16 ≤ i.toNat := by
  unfold nibble
  split <;> simp <;> omega

theorem nibble_ofNat (k : Nibble) : nibble (UInt8.ofNat k) = some k := by
  rw [nibble_some, UInt8.toNat_ofNat']
  omega

namespace Tree

variable {t : Tree V} {n : Xnode V} {c : Nibble → Tree V} {i j : Nibble} {is p q r : List Nibble} {v : V}
  {calloc : Nat → Bool}

def index : Tree V → UInt8
  | null => 0
  | node n _ => n.index

def branch : Tree V → UInt16
  | null => 0
  | node n _ => n.branch

def child (i : Nibble) : Tree V → Tree V
  | null => null
  | node _ c => c i

@[simp] theorem child_node : (node n c).child i = c i := rfl

theorem nodeAt_concat : t.nodeAt (p ++ [i]) = (t.nodeAt p).child i := by
  rw [nodeAt_append]
  cases t.nodeAt p with
  | null => rfl
  | node n c => simp

/-- The number of children. -/
def width (c : Nibble → Tree V) : Nat := (Finset.univ.filter fun i => (c i).isNull = false).card

/-- Children know their place, and the nodes know how many they are. -/
def Shaped : Tree V → Prop
  | null => True
  | node n c => n.branch.toNat = width c ∧ ∀ i, (c i).Shaped ∧ ((c i).isNull = false → (c i).index = UInt8.ofNat i)

theorem width_le (c : Nibble → Tree V) : width c ≤ 16 := (Finset.card_filter_le _ _).trans (by simp)

theorem width_eq_zero : width c = 0 ↔ ∀ i, c i = null := by
  simp [width, Finset.filter_eq_empty_iff, isNull_iff]

theorem width_grow (hnull : (c i).isNull = true) (ht : t.isNull = false) :
    width (Function.update c i t) = width c + 1 := by
  have hsame : (Finset.univ.filter fun j => (Function.update c i t j).isNull = false) =
      insert i (Finset.univ.filter fun j => (c j).isNull = false) := by
    ext j
    by_cases hj : j = i
    · subst hj
      simp [ht]
    · simp [hj]
  rw [width, hsame, Finset.card_insert_of_notMem (by simp [hnull]), width]

theorem width_shrink (hnull : (c i).isNull = false) : width (Function.update c i null) + 1 = width c := by
  have hback := width_grow (c := Function.update c i null) (i := i) (t := c i) (by simp [isNull]) hnull
  rw [Function.update_idem, Function.update_eq_self] at hback
  exact hback.symm

theorem width_keep (hnull : (c i).isNull = t.isNull) : width (Function.update c i t) = width c := by
  unfold width
  congr 1
  ext j
  by_cases hj : j = i
  · subst hj
    simp [hnull]
  · simp [hj]

theorem index_setIndex (ht : t.isNull = false) : (t.setIndex i).index = UInt8.ofNat i := by
  cases t with
  | null => cases ht
  | node n c => rfl

theorem index_addPath : (t.addPath v calloc is).1.index = t.index := by
  cases t with
  | null => cases is <;> rfl
  | node n c =>
    cases is with
    | nil => rfl
    | cons i is =>
      simp only [addPath]
      split <;> rfl

theorem shaped_create : (create : Tree V).Shaped := by
  refine ⟨?_, fun i => ⟨trivial, fun h => by cases h⟩⟩
  simp [width, isNull]

theorem shaped_setIndex (h : t.Shaped) : (t.setIndex i).Shaped := by
  cases t with
  | null => exact h
  | node n c => exact h

theorem shaped_branch (h : (c i).Shaped) : ((if (c i).isNull then create else c i).setIndex i).Shaped := by
  apply shaped_setIndex
  split
  · exact shaped_create
  · exact h

theorem Shaped.addPath (h : t.Shaped) : (t.addPath v calloc is).1.Shaped := by
  induction is generalizing t calloc with
  | nil =>
    cases t with
    | null => exact h
    | node n c => exact h
  | cons i is ih =>
    cases t with
    | null => exact h
    | node n c =>
      cases hcalloc : (c i).isNull && !calloc 0 with
      | true =>
        simp only [Tree.addPath, hcalloc, if_true]
        exact h
      | false =>
        rw [addPath_cons hcalloc]
        have hbelow : ((if (c i).isNull then create else c i).setIndex i |>.addPath v (fun d => calloc (d + 1)) is).1.isNull =
            false := addPath_not_null branch_not_null
        refine ⟨?_, fun j => ?_⟩
        · cases hnull : (c i).isNull with
          | true =>
            have hwidth := width_grow hnull hbelow
            rw [hnull] at hwidth
            simp only [if_true] at hwidth ⊢
            rw [hwidth, ← h.1, UInt16.toNat_add]
            have hle := width_le c
            have hone : (1 : UInt16).toNat = 1 := rfl
            rw [← h.1] at hle
            omega
          | false =>
            have hwidth := width_keep (t := _) (hnull.trans hbelow.symm)
            rw [hnull] at hwidth
            simp only [Bool.false_eq_true, if_false] at hwidth ⊢
            rw [hwidth, ← h.1]
        · by_cases hj : j = i
          · subst hj
            rw [Function.update_self]
            refine ⟨ih (shaped_branch (h.2 j).1), fun _ => ?_⟩
            have hsub := branch_not_null (c := c) (i := j)
            rw [setIndex_isNull] at hsub
            rw [index_addPath, index_setIndex hsub]
          · rw [Function.update_of_ne hj]
            exact h.2 j

theorem index_delPath (ht : (t.delPath is).isNull = false) : (t.delPath is).index = t.index := by
  cases t with
  | null => cases is <;> cases ht
  | node n c =>
    cases is with
    | nil =>
      simp only [delPath] at ht ⊢
      split
      · simp_all [isNull]
      · rfl
    | cons i is =>
      simp only [delPath] at ht ⊢
      split
      · simp_all [isNull]
      · rfl

/-- A node that loses a child, or does not. -/
theorem shaped_update (h : (node n c).Shaped) {n' : Xnode V} (hnode : (c i).isNull = false)
    (hbranch : n'.branch = if ((c i).delPath is).isNull then n.branch - 1 else n.branch)
    (hsub : ((c i).delPath is).Shaped) : (node n' (Function.update c i ((c i).delPath is))).Shaped := by
  refine ⟨?_, fun j => ?_⟩
  · rw [hbranch]
    cases hnull : ((c i).delPath is).isNull with
    | true =>
      have hwidth := width_shrink hnode
      have hle := width_le c
      have hone : (1 : UInt16).toNat = 1 := rfl
      have hpos : (1 : UInt16) ≤ n.branch := by
        rw [UInt16.le_iff_toNat_le, h.1]
        omega
      rw [isNull_iff.mp hnull, if_pos rfl, UInt16.toNat_sub_of_le _ _ hpos, h.1]
      omega
    | false =>
      rw [if_neg Bool.false_ne_true, width_keep (hnode.trans hnull.symm)]
      exact h.1
  · by_cases hj : j = i
    · subst hj
      rw [Function.update_self]
      exact ⟨hsub, fun hleft => (index_delPath hleft).trans ((h.2 j).2 hnode)⟩
    · rw [Function.update_of_ne hj]
      exact h.2 j

theorem first_of_nodeAt (h : (t.nodeAt p).isNull = false) : t.isNull = false := by
  cases t with
  | null =>
    rw [nodeAt_null] at h
    cases h
  | node n c => rfl

theorem node_above (h : (t.nodeAt (p ++ q)).isNull = false) : (t.nodeAt p).isNull = false := by
  rw [nodeAt_append] at h
  exact first_of_nodeAt h

theorem Shaped.delPath (h : t.Shaped) (hin : (t.nodeAt is).isNull = false) : (t.delPath is).Shaped := by
  induction is generalizing t with
  | nil =>
    cases t with
    | null => exact h
    | node n c =>
      simp only [Tree.delPath]
      split
      · trivial
      · exact h
  | cons i is ih =>
    cases t with
    | null => exact h
    | node n c =>
      simp only [Tree.delPath]
      split
      · trivial
      · exact shaped_update h (first_of_nodeAt hin) rfl (ih (h.2 i).1 hin)

theorem Shaped.delRoot (h : t.Shaped) (hin : (t.nodeAt is).isNull = false) : (t.delRoot is).Shaped := by
  cases is with
  | nil =>
    cases t <;> exact h
  | cons i is =>
    cases t with
    | null => exact h
    | node n c =>
      exact shaped_update h (first_of_nodeAt hin) rfl ((h.2 i).1.delPath hin)

theorem Shaped.nodeAt (h : t.Shaped) : (t.nodeAt p).Shaped := by
  induction p generalizing t with
  | nil => rwa [nodeAt_nil]
  | cons i p ih =>
    cases t with
    | null => trivial
    | node n c => exact ih (h.2 i).1

/-- The index of a node below the root. -/
theorem Shaped.index_concat (h : t.Shaped) (hnode : (t.nodeAt (p ++ [i])).isNull = false) :
    (t.nodeAt (p ++ [i])).index = UInt8.ofNat i := by
  have hp := h.nodeAt (p := p)
  rw [nodeAt_concat] at hnode ⊢
  cases ht : t.nodeAt p with
  | null =>
    rw [ht] at hnode
    cases hnode
  | node n c =>
    rw [ht] at hp hnode
    exact (hp.2 i).2 hnode

/-- A node without children has no branch. -/
theorem Shaped.branch_eq_zero (h : t.Shaped) : t.branch = 0 ↔ ∀ i, t.child i = null := by
  cases t with
  | null => simp [branch, child]
  | node n c =>
    simp only [branch, child_node]
    rw [← width_eq_zero, ← h.1, ← UInt16.toNat_inj]
    rfl

/-! ### The order of the nodes -/

/-- The paths of the nodes, in the order of the children. -/
def nodes : Tree V → List (List Nibble)
  | null => []
  | node _ c => [] :: (List.finRange 16).flatMap fun i => (c i).nodes.map (i :: ·)

theorem mem_nodes : p ∈ t.nodes ↔ (t.nodeAt p).isNull = false := by
  induction t generalizing p with
  | null => simp [nodes, isNull]
  | node n c ih =>
    cases p with
    | nil => simp [nodes, isNull]
    | cons i p => simp [nodes, ih]

theorem length_le (h : (t.nodeAt p).isNull = false) : p.length ≤ t.nodes.toFinset.sup List.length := by
  have hin : p ∈ t.nodes.toFinset := List.mem_toFinset.mpr (mem_nodes.mpr h)
  exact Finset.le_sup (f := List.length) hin

theorem nodes_sorted : t.nodes.Pairwise (· < ·) := by
  induction t with
  | null => exact .nil
  | node n c ih =>
    refine List.pairwise_cons.mpr ⟨?_, List.pairwise_flatMap.mpr ⟨fun i _ => ?_, ?_⟩⟩
    · simp only [List.mem_flatMap, List.mem_map]
      rintro _ ⟨i, -, p, -, rfl⟩
      exact List.nil_lt_cons i p
    · refine List.pairwise_map.mpr ((ih i).imp fun hlt => ?_)
      exact List.cons_lt_cons_iff.mpr (.inr ⟨rfl, hlt⟩)
    · refine (List.sortedLT_finRange 16).pairwise.imp fun hij => ?_
      simp only [List.mem_map]
      rintro _ ⟨p, -, rfl⟩ _ ⟨q, -, rfl⟩
      exact List.cons_lt_cons_iff.mpr (.inl hij)

theorem keys_eq : t.keys = t.nodes.filter fun p => (t.lookup p).isSome := by
  induction t with
  | null => rfl
  | node n c ih =>
    have hchild : ∀ i, (c i).keys.map (i :: ·) =
        ((c i).nodes.map (i :: ·)).filter fun p => ((node n c).lookup p).isSome := by
      intro i
      rw [ih, List.filter_map]
      rfl
    have hfirst : [[]].filter (fun p => ((node n c).lookup p).isSome) = if n.mapping.isSome then [[]] else [] := by
      cases hmapping : n.mapping <;> simp [hmapping]
    have hnodes : (node n c).nodes = [[]] ++ (List.finRange 16).flatMap fun i => (c i).nodes.map (i :: ·) := rfl
    rw [keys, hnodes, List.filter_append, hfirst, List.filter_flatMap]
    simp only [hchild]

theorem node_of_key (h : p ∈ t.keys) : (t.nodeAt p).isNull = false := by
  have hsome := mem_keys.mp h
  cases hat : t.nodeAt p with
  | null =>
    rw [lookup, hat] at hsome
    cases hsome
  | node => rfl

theorem keys_sorted : t.keys.Pairwise (· < ·) := by
  rw [keys_eq]
  exact nodes_sorted.sublist List.filter_sublist

end Tree

/-! ### The order of the keys -/

theorem lt_append (p : List Nibble) (i : Nibble) (q : List Nibble) : p < p ++ i :: q := by
  have hlt : p ++ [] < p ++ i :: q := List.append_left_lt (List.nil_lt_cons i q)
  rwa [List.append_nil] at hlt

theorem append_lt (p : List Nibble) {i j : Nibble} (hij : i < j) (q r : List Nibble) : p ++ i :: q < p ++ j :: r :=
  List.append_left_lt (List.cons_lt_cons_iff.mpr (.inl hij))

theorem path_lt {u v : List UInt8} : path u < path v ↔ u < v := by
  induction u generalizing v with
  | nil =>
    cases v with
    | nil => simp [path]
    | cons b v => simp [path]
  | cons a u ih =>
    cases v with
    | nil => simp [path]
    | cons b v =>
      simp only [path, List.flatMap_cons, List.cons_append, List.nil_append, List.cons_lt_cons_iff, Fin.mk_lt_mk,
        Fin.mk.injEq]
      rw [← path, ← path, ih, UInt8.lt_iff_toNat_lt, ← UInt8.toNat_inj]
      have hsplit : (a.toNat / 16 < b.toNat / 16 ∨ a.toNat / 16 = b.toNat / 16 ∧ a.toNat % 16 < b.toNat % 16) ↔
          a.toNat < b.toNat := by omega
      have hsame : (a.toNat / 16 = b.toNat / 16 ∧ a.toNat % 16 = b.toNat % 16) ↔ a.toNat = b.toNat := by omega
      rw [← hsplit, ← hsame]
      tauto

theorem path_le {u v : List UInt8} : path u ≤ path v ↔ u ≤ v := by
  rw [← not_lt, path_lt, List.not_lt]

theorem path_begins {u v : List UInt8} : path u <+: path v ↔ u <+: v := by
  constructor
  · rintro ⟨r, hr⟩
    have htake : path v = path (v.take u.length) ++ path (v.drop u.length) := by
      rw [← path_append, List.take_append_drop]
    have hle : u.length ≤ v.length := by
      have hlen := congrArg List.length hr
      rw [List.length_append, length_path, length_path] at hlen
      omega
    have hsame : (path u).length = (path (v.take u.length)).length := by
      rw [length_path, length_path, List.length_take, Nat.min_eq_left hle]
    rw [path_inj (List.append_inj_left (hr.trans htake) hsame)]
    exact List.take_prefix ..
  · rintro ⟨w, rfl⟩
    rw [path_append]
    exact List.prefix_append ..

/-- The keys of a map in their lexicographic order. -/
def sorted (m : KeyMap V) : List (List UInt8) := m.keys.sort (· ≤ ·)

/-- The keys of the tree are those of the map in their order. -/
theorem sorted_path {root : Tree V} {m : KeyMap V} (hlookup : ∀ key, root.lookup (path key) = m.lookup key)
    (hpaths : ∀ p, (root.lookup p).isSome → ∃ key, p = path key) : (sorted m).map path = root.keys := by
  have hmem : ∀ p, p ∈ (sorted m).map path ↔ p ∈ root.keys := by
    intro p
    simp only [sorted, List.mem_map, Finset.mem_sort, Tree.mem_keys]
    constructor
    · rintro ⟨key, hkey, rfl⟩
      rw [hlookup, Finmap.lookup_isSome]
      exact Finmap.mem_keys.mp hkey
    · intro hp
      obtain ⟨key, rfl⟩ := hpaths p hp
      rw [hlookup, Finmap.lookup_isSome] at hp
      exact ⟨key, Finmap.mem_keys.mpr hp, rfl⟩
  have hnodup : ((sorted m).map path).Nodup := (Finset.sort_nodup _ _).map fun _ _ => path_inj
  have hperm := (List.perm_ext_iff_of_nodup hnodup Tree.nodup_keys).mpr hmem
  refine hperm.eq_of_pairwise' (r := (· ≤ ·)) (List.pairwise_map.mpr ?_) (Tree.keys_sorted.imp le_of_lt)
  exact (Finset.pairwise_sort _ _).imp path_le.mpr

/-! ### Calls -/

/-- The root is there and has no mapping. -/
structure Rooted (root : Tree V) : Prop where
  shaped : root.Shaped
  notNull : root.isNull = false
  bare : root.lookup [] = none

theorem rooted_create : Rooted (Tree.create : Tree V) := ⟨Tree.shaped_create, rfl, rfl⟩

/-- Calls for keys of 1 to 255 bytes, present or not, keep the tree in its shape. -/
theorem Rooted.step {root : Tree V} {e : TreeEvent V} (h : Rooted root) (hcall : Called root e) :
    Rooted (treeStep root e) := by
  obtain ⟨hpos, hlen⟩ := hcall
  have hpath : path e.key ≠ [] := fun hnil => by
    rw [path_eq_nil.mp hnil] at hpos
    exact Nat.lt_irrefl 0 hpos
  obtain ⟨hshaped, hnull, hbare⟩ := h
  cases root with
  | null => cases hnull
  | node n c =>
    cases e with
    | add key mapping calloc =>
      have htake : key.take (keylen key).toNat = key := take_keylen hlen
      simp only [treeStep, xtreeAdd, htake]
      refine ⟨hshaped.addPath, Tree.addPath_not_null rfl, ?_⟩
      rw [Tree.lookup_addPath rfl, if_neg fun hend => hpath hend.2.symm]
      exact hbare
    | del key =>
      have htake : key.take (keylen key).toNat = key := take_keylen hlen
      simp only [treeStep, xtreeDel, htake]
      split
      · exact ⟨hshaped, hnull, hbare⟩
      · rename_i hin
        obtain ⟨i, is, his⟩ : ∃ i is, path key = i :: is := List.exists_cons_of_ne_nil hpath
        rw [his] at hin ⊢
        exact ⟨hshaped.delRoot (Bool.eq_false_iff.mpr hin), rfl, hbare⟩
    | find key => exact ⟨hshaped, hnull, hbare⟩

/-- A tree of keys of 1 to 255 bytes, each added completely while it is absent. -/
structure Built (root : Tree V) (m : KeyMap V) : Prop where
  rooted : Rooted root
  holds : Holds root m
  short : ∀ key ∈ m, 0 < key.length ∧ key.length < 256

theorem Built.step {root : Tree V} {m : KeyMap V} {e : TreeEvent V} (h : Built root m) (hcall : Called root e)
    (hfits : Fits root e) : Built (treeStep root e) (mapStep m e) := by
  refine ⟨h.rooted.step hcall, (h.holds.step hcall hfits).2, fun key hkey => ?_⟩
  cases e with
  | add other mapping calloc =>
    obtain rfl | hin := Finmap.mem_insert.mp hkey
    · exact hcall
    · exact h.short key hin
  | del other => exact h.short key (Finmap.mem_erase.mp hkey).2
  | find other => exact h.short key hkey

theorem built (es : List (TreeEvent V))
    (hrun : Along treeStep (fun root e => Called root e ∧ Fits root e) Tree.create es) :
    Built (run treeStep Tree.create es) (run mapStep (∅ : KeyMap V) es) := by
  have hstep : ∀ (root : Tree V) m e, Built root m → Called root e ∧ Fits root e →
      treeResult root e = mapResult m e ∧ Built (treeStep root e) (mapStep m e) :=
    fun _ _ _ h hfit => ⟨(h.holds.step hfit.1 hfit.2).1, h.step hfit.1 hfit.2⟩
  refine (Along.simulation hstep hrun ⟨rooted_create, holds_create, fun key hkey => ?_⟩).2
  exact absurd hkey Finmap.notMem_empty

/-- The keys of a map, read from the tree. -/
theorem Built.sorted_eq {root : Tree V} {m : KeyMap V} {keys : List (List UInt8)} (h : Built root m)
    (hkeys : root.keys = keys.map path) : sorted m = keys := by
  have hpaths := sorted_path h.holds.lookup h.holds.paths
  exact List.map_injective_iff.mpr (fun _ _ => path_inj) (hpaths.trans hkeys)

end Wenas.Xtree
