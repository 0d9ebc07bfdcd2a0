import Wenas.Xtree.Nodes

/-!
# Counters that are too large

A key that is added twice, or not completely, is counted more often than it is there. The deletions of present keys
still find their keys, and free no node that another key needs. No counter comes to the end of its 64 bits before there
were that many calls, and none that is lowered is 0.
-/
namespace Wenas.Xtree

open Wenas.Machine

variable {V : Type}

/-- The tree beside the keys whose addition returned a place. -/
def addedStep (s : Tree V × KeyMap V) (e : TreeEvent V) : Tree V × KeyMap V :=
  (treeStep s.1 e,
    match e with
    | .add .. => if (treeResult s.1 e).isSome then mapStep s.2 e else s.2
    | e => mapStep s.2 e)

/-- A key that is deleted is present. -/
def Present (s : Tree V × KeyMap V) (e : TreeEvent V) : Prop :=
  Called s.1 e ∧
    match e with
    | .del key => (s.2.lookup key).isSome
    | _ => True

instance (s : Tree V × KeyMap V) : (e : TreeEvent V) → Decidable (Present s e)
  | .add .. => inferInstanceAs (Decidable (_ ∧ True))
  | .del _ => inferInstanceAs (Decidable (_ ∧ _))
  | .find _ => inferInstanceAs (Decidable (_ ∧ True))

namespace Tree

variable {t t' : Tree V} {n : Xnode V} {c : Nibble → Tree V} {i : Nibble} {is p q : List Nibble} {v : V}
  {calloc : Nat → Bool}

/-- The counter of each node is at least the number of keys below it. -/
def Over : Tree V → Prop
  | null => True
  | node n c => (node n c).keys.length ≤ n.route ∧ ∀ i, (c i).Over

theorem over_create : (create : Tree V).Over := ⟨Nat.le_refl 0, fun _ => trivial⟩

theorem over_setIndex (h : t.Over) : (t.setIndex i).Over := by
  cases t with
  | null => trivial
  | node n c => exact h

theorem over_branch (h : (c i).Over) : ((if (c i).isNull then create else c i).setIndex i).Over := by
  apply over_setIndex
  split
  · exact over_create
  · exact h

theorem over_update {n' : Xnode V} {sub : Tree V} (h : (node n c).Over) (hsub : sub.Over)
    (hroute : (node n' (Function.update c i sub)).keys.length ≤ n'.route) :
    (node n' (Function.update c i sub)).Over := by
  refine ⟨hroute, fun j => ?_⟩
  by_cases hj : j = i
  · subst hj
    rwa [Function.update_self]
  · rw [Function.update_of_ne hj]
    exact h.2 j

/-- An addition leads to one key more at most. -/
theorem keys_addPath_le (ht : t.isNull = false) : (t.addPath v calloc is).1.keys.length ≤ t.keys.length + 1 := by
  have hsub : (t.addPath v calloc is).1.keys ⊆ is :: t.keys := by
    intro q hq
    rw [mem_keys, lookup_addPath ht] at hq
    split at hq
    · rename_i hadded
      exact hadded.2 ▸ List.mem_cons_self
    · exact List.mem_cons_of_mem _ (mem_keys.mpr hq)
  exact (nodup_keys.subperm hsub).length_le

theorem Over.addPath (h : t.Over) (ht : t.isNull = false) : (t.addPath v calloc is).1.Over := by
  induction is generalizing t calloc with
  | nil =>
    cases t with
    | null => cases ht
    | node n c =>
      have hkeys : ((node n c).addPath v calloc []).1.keys.length ≤ (node n c).keys.length + 1 := keys_addPath_le ht
      exact ⟨hkeys.trans (Nat.succ_le_succ h.1), h.2⟩
  | cons i is ih =>
    cases t with
    | null => cases ht
    | node n c =>
      have hkeys : ((node n c).addPath v calloc (i :: is)).1.keys.length ≤ (node n c).keys.length + 1 :=
        keys_addPath_le ht
      cases hcalloc : (c i).isNull && !calloc 0 with
      | true =>
        simp only [Tree.addPath, hcalloc, if_true]
        exact ⟨h.1.trans (Nat.le_succ _), h.2⟩
      | false =>
        rw [addPath_cons hcalloc] at hkeys ⊢
        exact over_update h (ih (over_branch (h.2 i)) branch_not_null) (hkeys.trans (Nat.succ_le_succ h.1))

/-- A node that is freed with the last key that it counts has no other key. -/
theorem Over.last (h : (node n c).Over) (hin : ((node n c).lookup is).isSome) (hone : n.route - 1 = 0)
    (q : List Nibble) :
    (null : Tree V).lookup q = if q = is then none else (node n c).lookup q := by
  have hmem := mem_keys.mpr hin
  have hlen : (node n c).keys.length = 1 := by
    have hpos := List.length_pos_of_mem hmem
    have hle := h.1
    omega
  obtain ⟨k, hk⟩ := List.length_eq_one_iff.mp hlen
  rw [hk, List.mem_singleton] at hmem
  rw [lookup_null]
  split
  · rfl
  · rename_i hq
    have hnot : q ∉ (node n c).keys := by rwa [hk, List.mem_singleton, ← hmem]
    exact (by simpa [mem_keys] using hnot : (node n c).lookup q = none).symm

theorem keys_less (hlookup : ∀ q, t'.lookup q = if q = is then none else t.lookup q) (hin : (t.lookup is).isSome)
    {route : Nat} (hle : t.keys.length ≤ route) : t'.keys.length ≤ route - 1 := by
  have hkeys := (keys_without hlookup hin).length_eq
  rw [List.length_cons] at hkeys
  omega

theorem Over.delPath (h : t.Over) (hin : (t.lookup is).isSome) :
    (∀ q, (t.delPath is).lookup q = if q = is then none else t.lookup q) ∧ (t.delPath is).Over := by
  induction is generalizing t with
  | nil =>
    cases t with
    | null => cases hin
    | node n c =>
      simp only [Tree.delPath]
      split
      · rename_i hone
        exact ⟨h.last hin hone, trivial⟩
      · have hlookup : ∀ q, (node { n with mapping := none, route := n.route - 1 } c).lookup q =
            if q = [] then none else (node n c).lookup q := fun q => by cases q <;> simp
        exact ⟨hlookup, keys_less hlookup hin h.1, h.2⟩
  | cons i is ih =>
    cases t with
    | null => cases hin
    | node n c =>
      simp only [Tree.delPath]
      split
      · rename_i hone
        exact ⟨h.last hin hone, trivial⟩
      · obtain ⟨hsub, hover⟩ := ih (h.2 i) hin
        have hlookup := lookup_update (n := n) { n with
          route := n.route - 1
          branch := if ((c i).delPath is).isNull then n.branch - 1 else n.branch
          leaves := if is = [] then n.leaves - 1 else n.leaves } rfl hsub
        exact ⟨hlookup, over_update h hover (keys_less hlookup hin h.1)⟩

theorem Over.delRoot (h : t.Over) (hin : (t.lookup is).isSome) (hne : is ≠ []) :
    (∀ q, (t.delRoot is).lookup q = if q = is then none else t.lookup q) ∧ (t.delRoot is).Over := by
  cases is with
  | nil => exact absurd rfl hne
  | cons i is =>
    cases t with
    | null => cases hin
    | node n c =>
      obtain ⟨hsub, hover⟩ := (h.2 i).delPath hin
      have hlookup := lookup_update (n := n) { n with
        route := n.route - 1
        branch := if ((c i).delPath is).isNull then n.branch - 1 else n.branch
        leaves := if is = [] then n.leaves - 1 else n.leaves } rfl hsub
      exact ⟨hlookup, over_update h hover (keys_less hlookup hin h.1)⟩

end Tree

/-- The tree has the keys that are present, counted at least once. -/
structure Keeps (root : Tree V) (m : KeyMap V) : Prop where
  rooted : Rooted root
  counted : root.Over
  lookup : ∀ key, root.lookup (path key) = m.lookup key
  paths : ∀ p, (root.lookup p).isSome → ∃ key, p = path key

theorem keeps_create : Keeps (Tree.create : Tree V) ∅ where
  rooted := rooted_create
  counted := Tree.over_create
  lookup := by simp
  paths := by simp

namespace Keeps

variable {root : Tree V} {m : KeyMap V} {key : List UInt8} {mapping : V} {calloc : Nat → Bool}

theorem add (h : Keeps root m) (hcall : Called root (.add key mapping calloc)) :
    Keeps (addedStep (root, m) (.add key mapping calloc)).1 (addedStep (root, m) (.add key mapping calloc)).2 := by
  have hrooted := h.rooted.step hcall
  have hlen : key.length < 256 := hcall.2
  have hadd : ∀ q, (root.addPath mapping calloc (path key)).1.lookup q =
      if (root.addPath mapping calloc (path key)).2 ∧ q = path key then some mapping else root.lookup q :=
    fun _ => Tree.lookup_addPath h.rooted.notNull
  simp only [addedStep, mapStep, treeStep, treeResult, xtreeAdd, take_keylen hlen] at hrooted ⊢
  cases hadded : (root.addPath mapping calloc (path key)).2 with
  | false =>
    refine ⟨hrooted, h.counted.addPath h.rooted.notNull, fun other => ?_, fun p hp => ?_⟩
    · simpa [hadd, hadded] using h.lookup other
    · rw [hadd, hadded] at hp
      exact h.paths p (by simpa using hp)
  | true =>
    simp only [hadded, true_and] at hadd
    refine ⟨hrooted, h.counted.addPath h.rooted.notNull, fun other => ?_, fun p hp => ?_⟩
    · simp only [if_true, Option.isSome_some]
      rw [hadd]
      by_cases heq : other = key
      · rw [heq, if_pos rfl, Finmap.lookup_insert]
      · rw [if_neg fun hpath => heq (path_inj hpath), Finmap.lookup_insert_of_ne _ heq, h.lookup]
    · rw [hadd] at hp
      split at hp
      · exact ⟨key, by assumption⟩
      · exact h.paths p hp

theorem del (h : Keeps root m) (hpresent : Present (root, m) (.del key)) :
    Keeps (treeStep root (.del key)) (m.erase key) := by
  have hlen : key.length < 256 := hpresent.1.2
  have hin : (m.lookup key).isSome := hpresent.2
  have hrooted := h.rooted.step hpresent.1
  have hsome : (root.lookup (path key)).isSome := by rwa [h.lookup]
  have hnode : (root.nodeAt (path key)).isNull = false := by
    cases hat : root.nodeAt (path key) with
    | null =>
      rw [Tree.lookup, hat] at hsome
      cases hsome
    | node => rfl
  have hne : path key ≠ [] := fun hnil => by
    rw [hnil, h.rooted.bare] at hsome
    cases hsome
  obtain ⟨hdel, hover⟩ := h.counted.delRoot hsome hne
  simp only [treeStep, xtreeDel, take_keylen hlen, hnode, Bool.false_eq_true, if_false] at hrooted ⊢
  refine ⟨hrooted, hover, fun other => ?_, fun p hp => ?_⟩
  · rw [hdel]
    by_cases heq : other = key
    · rw [heq, if_pos rfl, Finmap.lookup_erase]
    · rw [if_neg fun hpath => heq (path_inj hpath), Finmap.lookup_erase_ne heq, h.lookup]
  · rw [hdel] at hp
    split at hp
    · cases hp
    · exact h.paths p hp

theorem step {s : Tree V × KeyMap V} {e : TreeEvent V} (h : Keeps s.1 s.2) (hpresent : Present s e) :
    Keeps (addedStep s e).1 (addedStep s e).2 := by
  cases e with
  | add key mapping calloc => exact h.add hpresent.1
  | del key => exact h.del hpresent
  | find key => exact h

end Keeps

/-! ### Bounds -/

namespace Tree

variable {t : Tree V} {n : Nat} {c : Nibble → Tree V} {i : Nibble} {is p q : List Nibble} {v : V}
  {calloc : Nat → Bool}

/-- The counters are at most `n`, and not 0 below the first node. -/
def Within (n : Nat) : Tree V → Prop
  | null => True
  | node d c => d.route ≤ n ∧ ∀ i, (c i).Within n ∧ ((c i).isNull = false → 0 < (c i).route)

theorem within_create : (create : Tree V).Within n := ⟨Nat.zero_le n, fun _ => ⟨trivial, fun hnode => by cases hnode⟩⟩

theorem within_setIndex (h : t.Within n) : (t.setIndex i).Within n := by
  cases t with
  | null => trivial
  | node d c => exact h

theorem within_branch (h : (c i).Within n) : ((if (c i).isNull then create else c i).setIndex i).Within n := by
  apply within_setIndex
  split
  · exact within_create
  · exact h

theorem Within.more (h : t.Within n) : t.Within (n + 1) := by
  induction t with
  | null => trivial
  | node d c ih => exact ⟨Nat.le_succ_of_le h.1, fun i => ⟨ih i (h.2 i).1, (h.2 i).2⟩⟩

theorem Within.update {d d' : Xnode V} {sub : Tree V} (h : (node d c).Within n) (hroute : d'.route ≤ n)
    (hsub : sub.Within n) (hpos : sub.isNull = false → 0 < sub.route) :
    (node d' (Function.update c i sub)).Within n := by
  refine ⟨hroute, ?_⟩
  rw [Function.forall_update_iff c fun _ t => t.Within n ∧ (t.isNull = false → 0 < t.route)]
  exact ⟨⟨hsub, hpos⟩, fun j _ => h.2 j⟩

theorem route_node {d : Xnode V} : (node d c).route = d.route := rfl

@[simp] theorem route_setIndex : (t.setIndex i).route = t.route := by cases t <;> rfl

theorem route_branch : ((if (c i).isNull then create else c i).setIndex i).route = (c i).route := by
  rw [route_setIndex]
  split
  · rename_i hnull
    rw [isNull_iff.mp hnull]
    rfl
  · rfl

/-- An addition counts one more at the first node, whether or not it comes to the end. -/
theorem route_addPath (ht : t.isNull = false) : (t.addPath v calloc is).1.route = t.route + 1 := by
  cases t with
  | null => cases ht
  | node d c =>
    cases is with
    | nil => rfl
    | cons i is =>
      simp only [addPath]
      split <;> rfl

theorem route_delPath : (t.delPath is).route = t.route - 1 := by
  cases t with
  | null => cases is <;> rfl
  | node d c =>
    cases is with
    | nil =>
      simp only [delPath]
      split
      · rename_i hone
        exact hone.symm
      · rfl
    | cons i is =>
      simp only [delPath]
      split
      · rename_i hone
        exact hone.symm
      · rfl

theorem Within.addPath (h : t.Within n) : (t.addPath v calloc is).1.Within (n + 1) := by
  induction is generalizing t calloc with
  | nil =>
    cases t with
    | null => trivial
    | node d c => exact ⟨Nat.succ_le_succ h.1, h.more.2⟩
  | cons i is ih =>
    cases t with
    | null => trivial
    | node d c =>
      cases hcalloc : (c i).isNull && !calloc 0 with
      | true =>
        simp only [Tree.addPath, hcalloc, if_true]
        exact ⟨Nat.succ_le_succ h.1, h.more.2⟩
      | false =>
        rw [addPath_cons hcalloc]
        refine h.more.update (Nat.succ_le_succ h.1) (ih (within_branch (h.2 i).1)) fun _ => ?_
        rw [route_addPath branch_not_null]
        exact Nat.succ_pos _

/-- A node that a deletion leaves has a counter other than 0. -/
theorem Within.delPath (h : t.Within n) :
    (t.delPath is).Within n ∧ ((t.delPath is).isNull = false → 0 < (t.delPath is).route) := by
  induction is generalizing t with
  | nil =>
    cases t with
    | null => exact ⟨trivial, fun hnode => by cases hnode⟩
    | node d c =>
      simp only [Tree.delPath]
      split
      · exact ⟨trivial, fun hnode => by cases hnode⟩
      · rename_i hmore
        exact ⟨⟨(Nat.sub_le _ _).trans h.1, h.2⟩, fun _ => Nat.pos_of_ne_zero hmore⟩
  | cons i is ih =>
    cases t with
    | null => exact ⟨trivial, fun hnode => by cases hnode⟩
    | node d c =>
      simp only [Tree.delPath]
      split
      · exact ⟨trivial, fun hnode => by cases hnode⟩
      · rename_i hmore
        obtain ⟨hsub, hpos⟩ := ih (h.2 i).1
        exact ⟨h.update ((Nat.sub_le _ _).trans h.1) hsub hpos, fun _ => Nat.pos_of_ne_zero hmore⟩

theorem Within.route_le (h : t.Within n) : t.route ≤ n := by
  cases t with
  | null => exact Nat.zero_le n
  | node d c => exact h.1

theorem Within.nodeAt (h : t.Within n) : (t.nodeAt p).Within n := by
  induction p generalizing t with
  | nil => rwa [nodeAt_nil]
  | cons i p ih =>
    cases t with
    | null => trivial
    | node d c => exact ih (h.2 i).1

theorem Within.pos (h : t.Within n) (hp : p ≠ []) (hnode : (t.nodeAt p).isNull = false) : 0 < (t.nodeAt p).route := by
  obtain ⟨p, i, rfl⟩ := (List.eq_nil_or_concat' p).resolve_left hp
  have habove := h.nodeAt (p := p)
  rw [nodeAt_concat] at hnode ⊢
  revert habove hnode
  cases t.nodeAt p with
  | null => exact fun hnode _ => by cases hnode
  | node d c => exact fun hnode habove => (habove.2 i).2 hnode

theorem sum_update (sub : Tree V) :
    ∑ j, (Function.update c i sub j).route + (c i).route = ∑ j, (c j).route + sub.route := by
  have hothers :
      ∑ j ∈ Finset.univ.erase i, (Function.update c i sub j).route = ∑ j ∈ Finset.univ.erase i, (c j).route :=
    Finset.sum_congr rfl fun j hj => by rw [Function.update_of_ne (Finset.ne_of_mem_erase hj)]
  rw [← Finset.add_sum_erase _ _ (Finset.mem_univ i), ← Finset.add_sum_erase _ (fun j => (c j).route) (Finset.mem_univ i),
    hothers, Function.update_self]
  omega

/-- Besides, the root counts at least what its children count. -/
structure Routed (n : Nat) (root : Tree V) : Prop where
  within : root.Within n
  total : ∑ i, (root.child i).route ≤ root.route

theorem routed_create : (create : Tree V).Routed n := ⟨within_create, by simp [create, child, route]⟩

theorem Routed.addPath (h : t.Routed n) : (t.addPath v calloc is).1.Routed (n + 1) := by
  refine ⟨h.within.addPath, ?_⟩
  cases t with
  | null => cases is <;> exact h.total
  | node d c =>
    have htotal := h.total
    simp only [child_node, route_node] at htotal
    cases is with
    | nil =>
      simp only [Tree.addPath, child_node, route_node]
      exact Nat.le_succ_of_le htotal
    | cons i is =>
      cases hcalloc : (c i).isNull && !calloc 0 with
      | true =>
        simp only [Tree.addPath, hcalloc, if_true, child_node, route_node]
        exact Nat.le_succ_of_le htotal
      | false =>
        rw [addPath_cons hcalloc]
        simp only [child_node, route_node]
        generalize hsub : (Tree.addPath v (fun d => calloc (d + 1)) is _).1 = sub
        have hroute : sub.route = (c i).route + 1 := by rw [← hsub, route_addPath branch_not_null, route_branch]
        have hsum := sum_update (c := c) (i := i) sub
        omega

/-- The counter of the root, which is lowered without a test, counts the child that is lowered with it. -/
theorem Routed.delRoot (h : t.Routed n) (hne : is ≠ []) (hnode : (t.nodeAt is).isNull = false) :
    0 < t.route ∧ (t.delRoot is).Routed n := by
  cases is with
  | nil => exact absurd rfl hne
  | cons i is =>
    cases t with
    | null => cases hnode
    | node d c =>
      have htotal := h.total
      obtain ⟨hsub, hpos⟩ : ((c i).delPath is).Within n ∧
          (((c i).delPath is).isNull = false → 0 < ((c i).delPath is).route) :=
        (h.within.2 i).1.delPath
      have hchild := (h.within.2 i).2 (first_of_nodeAt hnode)
      have hsum := sum_update (c := c) (i := i) ((c i).delPath is)
      have hle : (c i).route ≤ ∑ j, (c j).route :=
        Finset.single_le_sum (f := fun j => (c j).route) (fun _ _ => Nat.zero_le _) (Finset.mem_univ i)
      rw [route_delPath] at hsum
      simp only [child_node, route_node] at htotal
      refine ⟨by rw [route_node]; omega, h.within.update ((Nat.sub_le _ _).trans h.within.1) hsub hpos, ?_⟩
      simp only [Tree.delRoot, child_node, route_node]
      calc
        ∑ j, (Function.update c i ((c i).delPath is) j).route ≤ ∑ j, (c j).route - 1 := by omega
        _ ≤ d.route - 1 := Nat.sub_le_sub_right htotal 1

end Tree

theorem Tree.Routed.step {n : Nat} {root : Tree V} (h : root.Routed n) (e : TreeEvent V) :
    (treeStep root e).Routed (n + 1) := by
  cases e with
  | add key mapping calloc => exact h.addPath
  | del key =>
    simp only [treeStep, xtreeDel]
    split
    · exact ⟨h.within.more, h.total⟩
    · rename_i hnode
      by_cases hne : path (key.take (keylen key).toNat) = []
      · have hsame : root.delRoot [] = root := by cases root <;> rfl
        rw [hne, hsame]
        exact ⟨h.within.more, h.total⟩
      · obtain ⟨-, hdel⟩ := h.delRoot hne (Bool.eq_false_iff.mpr hnode)
        exact ⟨hdel.within.more, hdel.total⟩
  | find key => exact ⟨h.within.more, h.total⟩

/-- After so many calls no counter is over their number, and the ones on the way to a node, which its deletion lowers,
are not 0: the 64 bits of a counter hold it for the first 2 ^ 64 calls. -/
theorem routes_fit (es : List (TreeEvent V)) (p : List Nibble) :
    let root := run treeStep Tree.create es
    (root.nodeAt p).route ≤ es.length ∧
      (p ≠ [] → (root.nodeAt p).isNull = false → 0 < (root.nodeAt p).route ∧ 0 < root.route) := by
  intro root
  have hrouted : root.Routed (0 + es.length) :=
    run_within (P := Tree.Routed) (fun _ _ e h => h.step e) es Tree.routed_create
  rw [Nat.zero_add] at hrouted
  exact ⟨hrouted.within.nodeAt.route_le, fun hne hnode => ⟨hrouted.within.pos hne hnode, (hrouted.delRoot hne hnode).1⟩⟩


end Wenas.Xtree
