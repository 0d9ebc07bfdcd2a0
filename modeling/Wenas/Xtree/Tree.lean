import Mathlib

/-!
# The tree of `xtree.h`

A key is a path of half bytes. Parent pointers are the way back through the recursion: a node is freed, and its place
in the parent cleared, on the way up. The 64-bit counter of the keys through a node moves by one with each call.
-/
namespace Wenas.Xtree

/-- A half byte. -/
abbrev Nibble := Fin 16

/-- The fields of `struct xnode` but its parent. -/
structure Xnode (V : Type) where
  mapping : Option V
  route : Nat
  branch : UInt16
  leaves : UInt16
  index : UInt8

/-- An `xtree`, which is null or an array of sixteen trees with a node behind it. -/
inductive Tree (V : Type) where
  | null
  | node (data : Xnode V) (child : Nibble → Tree V)

variable {V : Type}

namespace Tree

def isNull : Tree V → Bool
  | null => true
  | node .. => false

/-- What `calloc` returns. -/
def create : Tree V := node ⟨none, 0, 0, 0, 0⟩ fun _ => null

def setIndex (i : Nibble) : Tree V → Tree V
  | null => null
  | node n c => node { n with index := UInt8.ofNat i } c

def nodeAt : List Nibble → Tree V → Tree V
  | [], t => t
  | _ :: _, null => null
  | i :: is, node _ c => nodeAt is (c i)

def mapping : Tree V → Option V
  | null => none
  | node n _ => n.mapping

def route : Tree V → Nat
  | null => 0
  | node n _ => n.route

/-- The loop of `xtree_add`, and whether it comes to the end of the path: `calloc d` says whether the call at depth `d`
succeeds, if it is made. -/
def addPath (v : V) : (Nat → Bool) → List Nibble → Tree V → Tree V × Bool
  | _, _, null => (null, false)
  | _, [], node n c => (node { n with mapping := some v, route := n.route + 1 } c, true)
  | calloc, i :: is, node n c =>
    if (c i).isNull && !calloc 0 then (node { n with route := n.route + 1 } c, false)
    else
      let sub := if (c i).isNull then create else c i
      let below := addPath v (fun d => calloc (d + 1)) is (sub.setIndex i)
      (node { n with
        route := n.route + 1
        branch := if (c i).isNull then n.branch + 1 else n.branch
        leaves := if is = [] then n.leaves + 1 else n.leaves } (Function.update c i below.1), below.2)

/-- The second loop of `xtree_del`, for a path with a node at its end. -/
def delPath : List Nibble → Tree V → Tree V
  | _, null => null
  | [], node n c => if n.route - 1 = 0 then null else node { n with mapping := none, route := n.route - 1 } c
  | i :: is, node n c =>
    if n.route - 1 = 0 then null
    else
      let sub := delPath is (c i)
      node { n with
        route := n.route - 1
        branch := if sub.isNull then n.branch - 1 else n.branch
        leaves := if is = [] then n.leaves - 1 else n.leaves } (Function.update c i sub)

/-- `delPath` at the root, which is not freed. -/
def delRoot : List Nibble → Tree V → Tree V
  | i :: is, node n c =>
    let sub := delPath is (c i)
    node { n with
      route := n.route - 1
      branch := if sub.isNull then n.branch - 1 else n.branch
      leaves := if is = [] then n.leaves - 1 else n.leaves } (Function.update c i sub)
  | _, t => t

end Tree

/-- The half bytes that the loops take from `keylen` bytes. -/
def path (key : List UInt8) : List Nibble :=
  key.flatMap fun b => [⟨b.toNat / 16, by have := b.toNat_lt; omega⟩, ⟨b.toNat % 16, by omega⟩]

/-- `xtree_add`, for a `keylen` of at least 1, with whether it returns a place. -/
def xtreeAdd (calloc : Nat → Bool) (key : List UInt8) (keylen : UInt8) (mapping : V) (root : Tree V) : Tree V × Bool :=
  root.addPath mapping calloc (path (key.take keylen.toNat))

/-- `xtree_find`. -/
def xtreeFind (key : List UInt8) (keylen : UInt8) (root : Tree V) : Option V :=
  (root.nodeAt (path (key.take keylen.toNat))).mapping

/-- `xtree_del`, for a `keylen` of at least 1. -/
def xtreeDel (key : List UInt8) (keylen : UInt8) (root : Tree V) : Tree V × Option V :=
  let tree := root.nodeAt (path (key.take keylen.toNat))
  if tree.isNull then (root, none) else (root.delRoot (path (key.take keylen.toNat)), tree.mapping)

/-! ### Paths -/

theorem path_append (u v : List UInt8) : path (u ++ v) = path u ++ path v := List.flatMap_append

theorem path_inj {u v : List UInt8} (h : path u = path v) : u = v := by
  induction u generalizing v with
  | nil =>
    cases v with
    | nil => rfl
    | cons b v => simp [path] at h
  | cons a u ih =>
    cases v with
    | nil => simp [path] at h
    | cons b v =>
      simp only [path, List.flatMap_cons, List.cons_append, List.nil_append, List.cons.injEq, Fin.mk.injEq] at h
      obtain ⟨hhigh, hlow, hrest⟩ := h
      have hab : a = b := UInt8.toNat_inj.mp (by omega)
      rw [hab, ih hrest]

theorem length_path {u : List UInt8} : (path u).length = 2 * u.length := by
  induction u with
  | nil => rfl
  | cons b u ih =>
    rw [path, List.flatMap_cons, List.length_append, ← path, ih, List.length_cons]
    exact Nat.add_comm ..

theorem path_eq_nil {u : List UInt8} : path u = [] ↔ u = [] := by
  cases u with
  | nil => simp [path]
  | cons b u => simp [path]

/-! ### Lookups -/

namespace Tree

variable {t : Tree V} {n : Xnode V} {c : Nibble → Tree V} {i : Nibble} {is p q : List Nibble} {v : V}
  {calloc : Nat → Bool}

/-- The mapping at the end of a path. -/
def lookup (is : List Nibble) (t : Tree V) : Option V := (t.nodeAt is).mapping

@[simp] theorem nodeAt_nil : t.nodeAt [] = t := by cases t <;> rfl

@[simp] theorem nodeAt_null : (null : Tree V).nodeAt is = null := by cases is <;> rfl

@[simp] theorem nodeAt_cons : (node n c).nodeAt (i :: is) = (c i).nodeAt is := rfl

theorem nodeAt_append : t.nodeAt (p ++ q) = (t.nodeAt p).nodeAt q := by
  induction p generalizing t with
  | nil => rfl
  | cons i p ih =>
    cases t with
    | null => simp
    | node n c => exact ih

@[simp] theorem lookup_null : (null : Tree V).lookup is = none := by simp [lookup, mapping]

@[simp] theorem lookup_nil : (node n c).lookup [] = n.mapping := rfl

@[simp] theorem lookup_cons : (node n c).lookup (i :: is) = (c i).lookup is := rfl

@[simp] theorem lookup_create : (create : Tree V).lookup is = none := by cases is <;> simp [create]

@[simp] theorem lookup_setIndex : (t.setIndex i).lookup is = t.lookup is := by
  cases t with
  | null => rfl
  | node n c => cases is <;> rfl

theorem isNull_iff : t.isNull = true ↔ t = null := by cases t <;> simp [isNull]

theorem setIndex_isNull : (t.setIndex i).isNull = t.isNull := by cases t <;> rfl

theorem lookup_branch : ((if (c i).isNull then create else c i).setIndex i).lookup is = (c i).lookup is := by
  rw [lookup_setIndex]
  split
  · rename_i h
    rw [isNull_iff.mp h, lookup_null, lookup_create]
  · rfl

theorem addPath_cons (hcalloc : ((c i).isNull && !calloc 0) = false) : (node n c).addPath v calloc (i :: is) =
    (node { n with
      route := n.route + 1
      branch := if (c i).isNull then n.branch + 1 else n.branch
      leaves := if is = [] then n.leaves + 1 else n.leaves }
      (Function.update c i ((if (c i).isNull then create else c i).setIndex i |>.addPath v (fun d => calloc (d + 1)) is).1),
      ((if (c i).isNull then create else c i).setIndex i |>.addPath v (fun d => calloc (d + 1)) is).2) := by
  simp [addPath, hcalloc]

theorem branch_not_null : ((if (c i).isNull then create else c i).setIndex i).isNull = false := by
  rw [setIndex_isNull]
  split
  · rfl
  · rename_i h
    exact Bool.eq_false_iff.mpr h

/-- An addition that comes to the end changes the mapping at its path, and one that does not changes none. -/
theorem lookup_addPath (ht : t.isNull = false) :
    (t.addPath v calloc is).1.lookup q = if (t.addPath v calloc is).2 ∧ q = is then some v else t.lookup q := by
  induction is generalizing t q calloc with
  | nil =>
    cases t with
    | null => simp [isNull] at ht
    | node n c => cases q <;> simp [addPath]
  | cons i is ih =>
    cases t with
    | null => simp [isNull] at ht
    | node n c =>
      cases hcalloc : (c i).isNull && !calloc 0 with
      | true => cases q <;> simp [addPath, hcalloc]
      | false =>
        rw [addPath_cons hcalloc]
        cases q with
        | nil => simp
        | cons j q =>
          simp only [lookup_cons, Function.update_apply, List.cons.injEq]
          by_cases hj : j = i
          · subst hj
            rw [if_pos rfl, ih branch_not_null, lookup_branch]
            simp
          · simp [hj]

/-- An addition comes to the end if `calloc` does not fail. -/
theorem addPath_added (ht : t.isNull = false) (hcalloc : ∀ d < is.length, calloc d = true) :
    (t.addPath v calloc is).2 = true := by
  induction is generalizing t calloc with
  | nil =>
    cases t with
    | null => simp [isNull] at ht
    | node n c => rfl
  | cons i is ih =>
    cases t with
    | null => simp [isNull] at ht
    | node n c =>
      rw [addPath_cons (by simp [hcalloc 0 (Nat.succ_pos _)])]
      exact ih branch_not_null fun d hd => hcalloc (d + 1) (Nat.succ_lt_succ hd)

theorem addPath_not_null (ht : t.isNull = false) : (t.addPath v calloc is).1.isNull = false := by
  cases t with
  | null => simp [isNull] at ht
  | node n c =>
    cases is with
    | nil => rfl
    | cons i is =>
      simp only [addPath]
      split <;> rfl

/-! ### The keys in a tree -/

/-- The paths with a mapping, in the order of the children. -/
def keys : Tree V → List (List Nibble)
  | null => []
  | node n c =>
    (if n.mapping.isSome then [[]] else []) ++ (List.finRange 16).flatMap fun i => (c i).keys.map (i :: ·)

theorem mem_keys : q ∈ t.keys ↔ (t.lookup q).isSome := by
  induction t generalizing q with
  | null => simp [keys]
  | node n c ih =>
    cases q with
    | nil =>
      simp only [keys, List.mem_append, lookup_nil]
      split <;> simp_all
    | cons i q =>
      simp only [keys, List.mem_append, List.mem_flatMap, List.mem_map, List.cons.injEq, lookup_cons, ← ih]
      split <;> simp

theorem nodup_keys : t.keys.Nodup := by
  induction t with
  | null => exact List.nodup_nil
  | node n c ih =>
    refine List.nodup_append.mpr ⟨?_, ?_, ?_⟩
    · split <;> simp
    · refine List.nodup_flatMap.mpr ⟨fun i _ => (ih i).map fun _ _ h => (List.cons.inj h).2, ?_⟩
      refine (List.nodup_finRange 16).imp fun hij => ?_
      intro q hi hj
      obtain ⟨_, -, rfl⟩ := List.mem_map.mp hi
      obtain ⟨_, -, heq⟩ := List.mem_map.mp hj
      exact hij (List.cons.inj heq).1.symm
    · intro q hq q' hq'
      simp only [List.mem_flatMap, List.mem_map] at hq'
      obtain ⟨i, -, q'', -, rfl⟩ := hq'
      split at hq
      · rw [List.mem_singleton.mp hq]
        exact fun heq => List.cons_ne_nil _ _ heq.symm
      · exact absurd hq List.not_mem_nil

theorem keys_addPath (ht : t.isNull = false) (hcalloc : ∀ d < is.length, calloc d = true) (hnew : t.lookup is = none) :
    (t.addPath v calloc is).1.keys.Perm (is :: t.keys) := by
  have hnot : is ∉ t.keys := by simp [mem_keys, hnew]
  refine (List.perm_ext_iff_of_nodup nodup_keys (List.nodup_cons.mpr ⟨hnot, nodup_keys⟩)).mpr fun q => ?_
  rw [mem_keys, lookup_addPath ht, addPath_added ht hcalloc, List.mem_cons, mem_keys]
  by_cases hq : q = is <;> simp [hq]

theorem keys_without {t' : Tree V} (h : ∀ q, t'.lookup q = if q = is then none else t.lookup q)
    (hin : (t.lookup is).isSome) : t.keys.Perm (is :: t'.keys) := by
  have hnot : is ∉ t'.keys := by simp [mem_keys, h]
  refine (List.perm_ext_iff_of_nodup nodup_keys (List.nodup_cons.mpr ⟨hnot, nodup_keys⟩)).mpr fun q => ?_
  rw [List.mem_cons, mem_keys, mem_keys, h]
  by_cases hq : q = is
  · simp [hq, hin]
  · simp [hq]

/-! ### Counters -/

/-- The counter of each node is the number of keys below it, which is not 0 but at the root. -/
def Counted : Tree V → Prop
  | null => False
  | node n c => n.route = (node n c).keys.length ∧ ∀ i, c i = null ∨ (c i).Counted ∧ 0 < (c i).route

theorem Counted.not_null (h : t.Counted) : t.isNull = false := by
  cases t with
  | null => exact h.elim
  | node n c => rfl

theorem Counted.route_eq (h : t.Counted) : t.route = t.keys.length := by
  cases t with
  | null => exact h.elim
  | node n c => exact h.1

theorem counted_create : (create : Tree V).Counted := ⟨rfl, fun _ => .inl rfl⟩

theorem counted_setIndex (h : t.Counted) : (t.setIndex i).Counted := by
  cases t with
  | null => exact h
  | node n c => exact ⟨h.1, h.2⟩

theorem counted_branch (h : c i = null ∨ (c i).Counted) :
    ((if (c i).isNull then create else c i).setIndex i).Counted := by
  apply counted_setIndex
  split
  · exact counted_create
  · rename_i hnull
    exact h.resolve_left fun heq => hnull (isNull_iff.mpr heq)

theorem Counted.add (h : t.Counted) (hcalloc : ∀ d < is.length, calloc d = true) (hnew : t.lookup is = none) :
    (t.addPath v calloc is).1.Counted ∧ (t.addPath v calloc is).1.route = t.route + 1 := by
  induction is generalizing t calloc with
  | nil =>
    cases t with
    | null => exact h.elim
    | node n c =>
      have hkeys := (keys_addPath (v := v) h.not_null hcalloc hnew).length_eq
      refine ⟨⟨?_, h.2⟩, rfl⟩
      rw [List.length_cons, ← h.1] at hkeys
      exact hkeys.symm
  | cons i is ih =>
    cases t with
    | null => exact h.elim
    | node n c =>
      have hbelow : ∀ d < is.length, calloc (d + 1) = true := fun d hd => hcalloc (d + 1) (Nat.succ_lt_succ hd)
      have hkeys := (keys_addPath (v := v) h.not_null hcalloc hnew).length_eq
      rw [List.length_cons, ← h.1] at hkeys
      rw [addPath_cons (by simp [hcalloc 0 (Nat.succ_pos _)])] at hkeys ⊢
      refine ⟨⟨hkeys.symm, fun j => ?_⟩, rfl⟩
      by_cases hj : j = i
      · subst hj
        obtain ⟨hcounted, hroute⟩ := ih (counted_branch ((h.2 j).imp_right And.left)) hbelow
          (by rw [lookup_branch]; exact hnew)
        rw [Function.update_self]
        exact .inr ⟨hcounted, by omega⟩
      · rw [Function.update_of_ne hj]
        exact h.2 j

/-- A node that is freed has no other key. -/
theorem Counted.last (h : t.Counted) (hin : (t.lookup is).isSome) (hone : t.route - 1 = 0) (q : List Nibble) :
    (null : Tree V).lookup q = if q = is then none else t.lookup q := by
  have hmem := mem_keys.mpr hin
  have hlen : t.keys.length = 1 := by
    have hpos := List.length_pos_of_mem hmem
    rw [h.route_eq] at hone
    omega
  obtain ⟨k, hk⟩ := List.length_eq_one_iff.mp hlen
  rw [hk, List.mem_singleton] at hmem
  rw [lookup_null]
  split
  · rfl
  · rename_i hq
    have hnot : q ∉ t.keys := by rwa [hk, List.mem_singleton, ← hmem]
    exact (by simpa [mem_keys] using hnot : t.lookup q = none).symm

theorem Counted.below (h : (node n c).Counted) (hin : ((c i).lookup is).isSome) : (c i).Counted := by
  obtain heq | hcounted := h.2 i
  · rw [heq, lookup_null] at hin
    cases hin
  · exact hcounted.1

/-- One child is replaced by what is left of it. -/
theorem lookup_update (n' : Xnode V) {sub : Tree V} (hmapping : n'.mapping = n.mapping)
    (hsub : ∀ q, sub.lookup q = if q = is then none else (c i).lookup q) (q : List Nibble) :
    (node n' (Function.update c i sub)).lookup q = if q = i :: is then none else (node n c).lookup q := by
  cases q with
  | nil => simp [hmapping]
  | cons j q =>
    simp only [lookup_cons, List.cons.injEq]
    by_cases hj : j = i
    · subst hj
      rw [Function.update_self, hsub]
      simp
    · simp [hj]

/-- A deletion changes the mapping at its path only, and frees the nodes that no other key needs. -/
theorem Counted.del (h : t.Counted) (hin : (t.lookup is).isSome) :
    (∀ q, (t.delPath is).lookup q = if q = is then none else t.lookup q) ∧
      (t.delPath is = null ∨ (t.delPath is).Counted ∧ 0 < (t.delPath is).route) := by
  induction is generalizing t with
  | nil =>
    cases t with
    | null => exact h.elim
    | node n c =>
      simp only [delPath]
      split
      · rename_i hone
        exact ⟨h.last hin hone, .inl rfl⟩
      · rename_i hmore
        have hlookup : ∀ q, (node { n with mapping := none, route := n.route - 1 } c).lookup q =
            if q = [] then none else (node n c).lookup q := fun q => by cases q <;> simp
        have hkeys := (keys_without hlookup hin).length_eq
        rw [List.length_cons, ← h.1] at hkeys
        refine ⟨hlookup, .inr ⟨⟨?_, h.2⟩, Nat.pos_of_ne_zero hmore⟩⟩
        show n.route - 1 = _
        omega
  | cons i is ih =>
    cases t with
    | null => exact h.elim
    | node n c =>
      simp only [delPath]
      split
      · rename_i hone
        exact ⟨h.last hin hone, .inl rfl⟩
      · rename_i hmore
        obtain ⟨hsub, hleft⟩ := ih (h.below hin) hin
        have hlookup := lookup_update (n := n) { n with
          route := n.route - 1
          branch := if ((c i).delPath is).isNull then n.branch - 1 else n.branch
          leaves := if is = [] then n.leaves - 1 else n.leaves } rfl hsub
        have hkeys := (keys_without hlookup hin).length_eq
        rw [List.length_cons, ← h.1] at hkeys
        refine ⟨hlookup, .inr ⟨⟨?_, fun j => ?_⟩, Nat.pos_of_ne_zero hmore⟩⟩
        · show n.route - 1 = _
          omega
        · by_cases hj : j = i
          · subst hj
            rw [Function.update_self]
            exact hleft
          · rw [Function.update_of_ne hj]
            exact h.2 j

/-- The root stays. -/
theorem Counted.delRoot (h : t.Counted) (hin : (t.lookup is).isSome) (hne : is ≠ []) :
    (∀ q, (t.delRoot is).lookup q = if q = is then none else t.lookup q) ∧ (t.delRoot is).Counted := by
  cases is with
  | nil => exact absurd rfl hne
  | cons i is =>
    cases t with
    | null => exact h.elim
    | node n c =>
      obtain ⟨hsub, hleft⟩ := (h.below hin).del hin
      have hlookup := lookup_update (n := n) { n with
        route := n.route - 1
        branch := if ((c i).delPath is).isNull then n.branch - 1 else n.branch
        leaves := if is = [] then n.leaves - 1 else n.leaves } rfl hsub
      have hkeys := (keys_without hlookup hin).length_eq
      rw [List.length_cons, ← h.1] at hkeys
      refine ⟨hlookup, ⟨?_, fun j => ?_⟩⟩
      · show n.route - 1 = _
        omega
      · by_cases hj : j = i
        · subst hj
          rw [Function.update_self]
          exact hleft
        · rw [Function.update_of_ne hj]
          exact h.2 j

/-- Counters are right below every node. -/
theorem Counted.nodeAt (h : t.Counted) : t.nodeAt p = null ∨ (t.nodeAt p).Counted ∧
    (p ≠ [] → 0 < (t.nodeAt p).route) := by
  induction p generalizing t with
  | nil => exact .inr ⟨by rwa [nodeAt_nil], fun hne => absurd rfl hne⟩
  | cons i p ih =>
    cases t with
    | null => exact h.elim
    | node n c =>
      obtain heq | ⟨hcounted, hpos⟩ := h.2 i
      · rw [nodeAt_cons, heq]
        exact .inl nodeAt_null
      · obtain heq | ⟨hat, hat'⟩ := ih hcounted
        · exact .inl heq
        · refine .inr ⟨hat, fun _ => ?_⟩
          cases p with
          | nil => rwa [nodeAt_cons, nodeAt_nil]
          | cons j p => exact hat' (List.cons_ne_nil j p)

/-- A node but the root has a key below it. -/
theorem Counted.needed (h : t.Counted) (hp : p ≠ []) : t.nodeAt p ≠ null ↔ ∃ q, (t.lookup (p ++ q)).isSome := by
  constructor
  · intro hne
    obtain heq | ⟨hcounted, hpos⟩ := h.nodeAt (p := p)
    · exact absurd heq hne
    · have hlen := hpos hp
      rw [hcounted.route_eq] at hlen
      obtain ⟨q, hq⟩ := List.exists_mem_of_length_pos hlen
      rw [mem_keys, lookup, ← nodeAt_append] at hq
      exact ⟨q, hq⟩
  · rintro ⟨q, hq⟩ heq
    rw [lookup, nodeAt_append, heq, nodeAt_null] at hq
    cases hq

end Tree
end Wenas.Xtree
