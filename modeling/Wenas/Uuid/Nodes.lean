import Wenas.Lib.Machine
import Wenas.Xtable.Index

/-!
# `uuid_list`

The first node of a hash key is in `hash_tree`, the others of this key are in `uuid_tree` and form a ring with it.
-/
namespace Wenas.Uuid

open Wenas.Machine Wenas.Links Wenas.Xlib Wenas.Xtable

/-- `uint64_t uuid[4]`. -/
abbrev Id := Fin 4 → UInt64

def uuidCompare (x y : Id) : Int :=
  match (List.finRange 4).find? fun i => x i ≠ y i with
  | some i => if x i > y i then 1 else -1
  | none => 0

/-- `uuid_list_t` with the fields of all nodes. -/
structure UuidList where
  count : UInt64
  hashTree : Avl Ptr
  uuidTree : Avl Ptr
  next : Ptr → Ptr
  prev : Ptr → Ptr
  uuid : Ptr → Id
  hashKey : Ptr → UInt64
  listLen : Ptr → UInt32

namespace UuidList

def byHash (k : UInt64) (l : UuidList) (x : Ptr) : Int := numberCompare k (l.hashKey x)

def byUuid (u : Id) (l : UuidList) (x : Ptr) : Int := uuidCompare u (l.uuid x)

def unlink (node : Ptr) (l : UuidList) : UuidList :=
  { l with
    next := Function.update l.next (l.prev node) (l.next node)
    prev := Function.update l.prev (l.next node) (l.prev node) }

/-- A new node as the callers make it: alone in its ring. -/
def create (node : Ptr) (hashKey : UInt64) (uuid : Id) (l : UuidList) : UuidList :=
  { l with
    next := Function.update l.next node node
    prev := Function.update l.prev node node
    uuid := Function.update l.uuid node uuid
    hashKey := Function.update l.hashKey node hashKey
    listLen := Function.update l.listLen node 0 }

end UuidList

/-- `uuid_list_init`. -/
def uuidListInit (next prev : Ptr → Ptr) (uuid : Ptr → Id) (hashKey : Ptr → UInt64)
    (listLen : Ptr → UInt32) : UuidList :=
  ⟨0, .nil, .nil, next, prev, uuid, hashKey, listLen⟩

/-- `uuid_list_add`; says whether the node is in the list. -/
def uuidListAdd (node : Ptr) (l : UuidList) : UuidList × Bool :=
  match l.hashTree.add (l.byHash (l.hashKey node)) node with
  | (_, some head) =>
    match l.uuidTree.add (l.byUuid (l.uuid node)) node with
    | (tree, none) =>
      ({ l with
          count := l.count + 1
          uuidTree := tree
          listLen := Function.update l.listLen head (l.listLen head + 1)
          next := Function.update (Function.update l.next node head) (l.prev head) node
          prev := Function.update (Function.update l.prev node (l.prev head)) head node }, true)
    | (_, some _) => (l, false)
  | (tree, none) => ({ l with count := l.count + 1, hashTree := tree }, true)

/-- `uuid_list_del` for a node with these values; no result where it goes through a null pointer. -/
def uuidListDel (hashKey : UInt64) (uuid : Id) (l : UuidList) : Option (UuidList × Option Ptr) :=
  match l.hashTree.find (l.byHash hashKey) with
  | none => some (l, none)
  | some head =>
    if l.listLen head = 0 then
      some ({ l with count := l.count - 1, hashTree := l.hashTree.remove head }, some head)
    else if uuidCompare (l.uuid head) uuid = 0 then
      let second := l.next head
      some ({ l.unlink head with
        count := l.count - 1
        listLen := Function.update l.listLen second (l.listLen head - 1)
        uuidTree := l.uuidTree.remove second
        hashTree := l.hashTree.replace head second }, some head)
    else
      match l.uuidTree.find (l.byUuid uuid) with
      | none => none
      | some node =>
        some ({ l.unlink node with
          count := l.count - 1
          listLen := Function.update l.listLen head (l.listLen head - 1)
          uuidTree := l.uuidTree.remove node }, some node)

/-- `uuid_list_find`. -/
def uuidListFind (hashKey : UInt64) (uuid : Id) (l : UuidList) : Option Ptr :=
  match l.hashTree.find (l.byHash hashKey) with
  | none => none
  | some head =>
    if uuidCompare uuid (l.uuid head) = 0 then some head
    else if l.listLen head > 0 then l.uuidTree.find (l.byUuid uuid)
    else none

/-- `uuid_list_find_by_hash`. -/
def uuidListFindByHash (hashKey : UInt64) (l : UuidList) : Option Ptr := l.hashTree.find (l.byHash hashKey)

/-! ### The order of uuids -/

/-- The words of a uuid have numerals. -/
instance neZero_words : NeZero 4 := inferInstance

/-- The number that a uuid writes in base `2 ^ 64`. -/
def Id.toNat (u : Id) : Nat :=
  (((u 0).toNat * 2 ^ 64 + (u 1).toNat) * 2 ^ 64 + (u 2).toNat) * 2 ^ 64 + (u 3).toNat

theorem uuidCompare_iff (x y : Id) :
    (uuidCompare x y < 0 ↔ Id.toNat x < Id.toNat y) ∧ (0 < uuidCompare x y ↔ Id.toNat y < Id.toNat x) := by
  have hx0 := (x 0).toNat_lt
  have hx1 := (x 1).toNat_lt
  have hx2 := (x 2).toNat_lt
  have hx3 := (x 3).toNat_lt
  have hy0 := (y 0).toNat_lt
  have hy1 := (y 1).toNat_lt
  have hy2 := (y 2).toNat_lt
  have hy3 := (y 3).toNat_lt
  have hfin : List.finRange 4 = [0, 1, 2, 3] := rfl
  have hne : ∀ i, (x i ≠ y i ↔ (x i).toNat ≠ (y i).toNat) := fun i => not_congr UInt64.toNat_inj.symm
  simp only [uuidCompare, hfin, Id.toNat, List.find?_cons, List.find?_nil, hne, gt_iff_lt, UInt64.lt_iff_toNat_lt]
  by_cases h0 : (x 0).toNat = (y 0).toNat
  · by_cases h1 : (x 1).toNat = (y 1).toNat
    · by_cases h2 : (x 2).toNat = (y 2).toNat
      · by_cases h3 : (x 3).toNat = (y 3).toNat
        · simp [h0, h1, h2, h3]
        · simp only [h0, h1, h2, ne_eq, not_true_eq_false, decide_false, h3, not_false_eq_true, decide_true]
          split <;> omega
      · simp only [h0, h1, ne_eq, not_true_eq_false, decide_false, h2, not_false_eq_true, decide_true]
        split <;> omega
    · simp only [h0, ne_eq, not_true_eq_false, decide_false, h1, not_false_eq_true, decide_true]
      split <;> omega
  · simp only [ne_eq, h0, not_false_eq_true, decide_true]
    split <;> omega

theorem Id.toNat_inj {x y : Id} (h : Id.toNat x = Id.toNat y) : x = y := by
  have hx0 := (x 0).toNat_lt
  have hx1 := (x 1).toNat_lt
  have hx2 := (x 2).toNat_lt
  have hx3 := (x 3).toNat_lt
  have hy0 := (y 0).toNat_lt
  have hy1 := (y 1).toNat_lt
  have hy2 := (y 2).toNat_lt
  have hy3 := (y 3).toNat_lt
  simp only [Id.toNat] at h
  funext i
  refine UInt64.toNat_inj.mp ?_
  fin_cases i <;> simp only [Fin.zero_eta, Fin.mk_one, Fin.reduceFinMk] <;> omega

theorem total_uuid : Avl.Total uuidCompare fun _ => True :=
  Avl.Total.of_order Id.toNat (fun _ _ _ _ => Id.toNat_inj) (fun x y _ _ => (uuidCompare_iff x y).1)
    fun x y _ _ => (uuidCompare_iff x y).2

/-! ### Rings -/

/-- Each bucket is a ring of nodes with one hash key, its first node in one tree and the others in the other one. -/
structure Rings (l : UuidList) (bs : List Bucket) : Prop where
  small : ∀ x ∈ nodes bs, (l.hashKey x).toNat < 2 ^ 31
  distinct : ((nodes bs).map l.uuid).Nodup
  hash : ∀ b ∈ bs, ∀ x ∈ b.2, l.hashKey x = l.hashKey b.1
  ring : ∀ b ∈ bs, Linked l.next l.prev b.1 b.2 b.1
  len : ∀ b ∈ bs, l.listLen b.1 = UInt32.ofNat b.2.length
  hashTree : ∀ x, x ∈ l.hashTree.toList ↔ x ∈ bs.map Prod.fst
  uuidTree : ∀ x, x ∈ l.uuidTree.toList ↔ x ∈ tails bs
  hashSorted : Avl.Sorted numberCompare l.hashKey l.hashTree
  uuidSorted : Avl.Sorted uuidCompare l.uuid l.uuidTree
  count : l.count = UInt64.ofNat (nodes bs).length

/-- The lengths of the rings fit their 32-bit counters. -/
def Short (bs : List Bucket) : Prop := ∀ b ∈ bs, b.2.length < 2 ^ 32

namespace Rings

variable {l : UuidList} {bs cs : List Bucket} {x node : Ptr} {hashKey : UInt64} {uuid : Id}

theorem perm (h : Rings l bs) (hbs : bs.Perm cs) : Rings l cs := by
  have hnodes : (nodes bs).Perm (nodes cs) := hbs.flatMap_right _
  have htails : (tails bs).Perm (tails cs) := hbs.flatMap_right _
  constructor
  · exact fun x hx => h.small x (hnodes.mem_iff.mpr hx)
  · exact (hnodes.map l.uuid).nodup h.distinct
  · exact fun b hb => h.hash b (hbs.mem_iff.mpr hb)
  · exact fun b hb => h.ring b (hbs.mem_iff.mpr hb)
  · exact fun b hb => h.len b (hbs.mem_iff.mpr hb)
  · exact fun x => (h.hashTree x).trans (hbs.map Prod.fst).mem_iff
  · exact fun x => (h.uuidTree x).trans htails.mem_iff
  · exact h.hashSorted
  · exact h.uuidSorted
  · exact h.count.trans (congrArg _ hnodes.length_eq)

theorem nodup (h : Rings l bs) : (nodes bs).Nodup := h.distinct.of_map

theorem uuid_inj (h : Rings l bs) {y : Ptr} (hx : x ∈ nodes bs) (hy : y ∈ nodes bs) (heq : l.uuid x = l.uuid y) :
    x = y := List.inj_on_of_nodup_map h.distinct hx hy heq

theorem first_mem {b : Bucket} (hb : b ∈ bs) : b.1 ∈ nodes bs := mem_nodes.mpr ⟨b, hb, .inl rfl⟩

theorem hash_keys (h : Rings l bs) : ∀ x ∈ l.hashTree.toList, (l.hashKey x).toNat < 2 ^ 31 := by
  intro x hx
  obtain ⟨b, hb, rfl⟩ := List.mem_map.mp ((h.hashTree x).mp hx)
  exact h.small _ (first_mem hb)

/-- The tree of hash keys finds the ring of a key. -/
theorem head_some (h : Rings l bs) (hk : hashKey.toNat < 2 ^ 31) :
    l.hashTree.find (l.byHash hashKey) = some x ↔ (∃ b ∈ bs, b.1 = x) ∧ l.hashKey x = hashKey := by
  refine (h.hashSorted.find_some total_small h.hash_keys hk).trans (and_congr_left fun _ => ?_)
  rw [h.hashTree, List.mem_map]

theorem head_none (h : Rings l bs) (hk : hashKey.toNat < 2 ^ 31) :
    l.hashTree.find (l.byHash hashKey) = none ↔ ∀ x ∈ nodes bs, l.hashKey x ≠ hashKey := by
  refine (h.hashSorted.find_none total_small h.hash_keys hk).trans ?_
  constructor
  · intro hnone x hx
    obtain ⟨b, hb, rfl | hxb⟩ := mem_nodes.mp hx
    · exact hnone _ ((h.hashTree _).mpr (List.mem_map_of_mem hb))
    · rw [h.hash b hb x hxb]
      exact hnone _ ((h.hashTree _).mpr (List.mem_map_of_mem hb))
  · intro hnone x hx
    obtain ⟨b, hb, rfl⟩ := List.mem_map.mp ((h.hashTree x).mp hx)
    exact hnone _ (first_mem hb)

theorem uuid_some (h : Rings l bs) :
    l.uuidTree.find (l.byUuid uuid) = some x ↔ x ∈ tails bs ∧ l.uuid x = uuid := by
  rw [← h.uuidTree]
  exact h.uuidSorted.find_some total_uuid (fun _ _ => trivial) trivial

theorem uuid_none (h : Rings l bs) : l.uuidTree.find (l.byUuid uuid) = none ↔ ∀ x ∈ tails bs, l.uuid x ≠ uuid := by
  refine (h.uuidSorted.find_none total_uuid (fun _ _ => trivial) trivial).trans ?_
  simp only [h.uuidTree]

theorem tails_sub (hx : x ∈ tails bs) : x ∈ nodes bs := by
  obtain ⟨b, hb, hxb⟩ := mem_tails.mp hx
  exact mem_nodes.mpr ⟨b, hb, .inr hxb⟩

theorem ring_mem {b : Bucket} (hb : b ∈ bs) : ∀ x ∈ b.1 :: b.2, x ∈ nodes bs := by
  intro x hx
  obtain rfl | hx := List.mem_cons.mp hx
  · exact first_mem hb
  · exact mem_nodes.mpr ⟨b, hb, .inr hx⟩

/-- Rings without a changed link stay. -/
theorem ring_congr {next prev : Ptr → Ptr} (h : Rings l bs) (hcs : ∀ b ∈ cs, b ∈ bs)
    (hnext : ∀ x ∈ nodes cs, next x = l.next x) (hprev : ∀ x ∈ nodes cs, prev x = l.prev x) :
    ∀ b ∈ cs, Linked next prev b.1 b.2 b.1 := by
  intro b hb
  refine (h.ring b (hcs b hb)).congr (fun x hx => hnext x (ring_mem hb x hx)) (fun x hx => hprev x (ring_mem hb x ?_))
  exact List.mem_cons.mpr (by simpa [or_comm] using hx)

theorem apart {b : Bucket} (h : Rings l (b :: bs)) : ∀ x ∈ nodes bs, x ∉ b.1 :: b.2 := by
  intro x hx hxb
  have hnodup : (b.1 :: b.2 ++ nodes bs).Nodup := h.nodup
  exact (List.nodup_append.mp hnodup).2.2 x hxb x hx rfl

/-- Nodes that are not in the list do not matter. -/
theorem create (h : Rings l bs) (hnode : node ∉ nodes bs) : Rings (l.create node hashKey uuid) bs := by
  have hne : ∀ x ∈ nodes bs, x ≠ node := fun x hx heq => hnode (heq ▸ hx)
  have hhash : ∀ x ∈ nodes bs, (l.create node hashKey uuid).hashKey x = l.hashKey x := fun x hx =>
    Function.update_of_ne (hne x hx) ..
  have huuid : ∀ x ∈ nodes bs, (l.create node hashKey uuid).uuid x = l.uuid x := fun x hx =>
    Function.update_of_ne (hne x hx) ..
  constructor
  · exact fun x hx => (hhash x hx).symm ▸ h.small x hx
  · rw [List.map_congr_left huuid]
    exact h.distinct
  · intro b hb x hx
    rw [hhash _ (mem_nodes.mpr ⟨b, hb, .inr hx⟩), hhash _ (first_mem hb)]
    exact h.hash b hb x hx
  · exact h.ring_congr (fun _ => id) (fun x hx => Function.update_of_ne (hne x hx) ..)
      fun x hx => Function.update_of_ne (hne x hx) ..
  · intro b hb
    exact (Function.update_of_ne (hne _ (first_mem hb)) ..).trans (h.len b hb)
  · exact h.hashTree
  · exact h.uuidTree
  · refine h.hashSorted.congr fun x hx => ?_
    obtain ⟨b, hb, rfl⟩ := List.mem_map.mp ((h.hashTree x).mp hx)
    exact hhash _ (first_mem hb)
  · exact h.uuidSorted.congr fun x hx => huuid x (tails_sub ((h.uuidTree x).mp hx))
  · exact h.count

theorem addFirst {tree : Avl Ptr} (h : Rings l bs) (hnext : l.next node = node) (hprev : l.prev node = node)
    (hlen : l.listLen node = 0) (hk : (l.hashKey node).toNat < 2 ^ 31) (hnew : ∀ x ∈ nodes bs, l.uuid x ≠ l.uuid node)
    (hsorted : Avl.Sorted numberCompare l.hashKey tree)
    (htree : ∀ x, x ∈ tree.toList ↔ x = node ∨ x ∈ l.hashTree.toList) :
    Rings { l with count := l.count + 1, hashTree := tree } ((node, []) :: bs) := by
  constructor
  · intro x hx
    obtain rfl | hx := List.mem_cons.mp hx
    · exact hk
    · exact h.small x hx
  · refine List.nodup_cons.mpr ⟨fun hx => ?_, h.distinct⟩
    obtain ⟨x, hx, heq⟩ := List.mem_map.mp hx
    exact hnew x hx heq
  · intro b hb x hx
    obtain rfl | hb := List.mem_cons.mp hb
    · simp at hx
    · exact h.hash b hb x hx
  · intro b hb
    obtain rfl | hb := List.mem_cons.mp hb
    · exact ⟨hnext, hprev⟩
    · exact h.ring b hb
  · intro b hb
    obtain rfl | hb := List.mem_cons.mp hb
    · exact hlen
    · exact h.len b hb
  · intro x
    rw [htree, h.hashTree, List.map_cons, List.mem_cons]
  · exact h.uuidTree
  · exact hsorted
  · exact h.uuidSorted
  · simp [h.count, UInt64.ofNat_add]

theorem nodes_grown (first : Ptr) (tail : List Ptr) (bs : List Bucket) (node : Ptr) :
    (nodes ((first, tail ++ [node]) :: bs)).Perm (node :: nodes ((first, tail) :: bs)) := by
  simp only [nodes_cons, List.append_assoc, List.singleton_append]
  exact (List.Perm.cons _ List.perm_middle).trans (List.Perm.swap ..)

theorem addOther {tree : Avl Ptr} {first : Ptr} {tail : List Ptr} (h : Rings l ((first, tail) :: bs))
    (hnode : node ∉ nodes ((first, tail) :: bs)) (hhash : l.hashKey node = l.hashKey first)
    (hnew : ∀ x ∈ nodes ((first, tail) :: bs), l.uuid x ≠ l.uuid node) (hsorted : Avl.Sorted uuidCompare l.uuid tree)
    (htree : ∀ x, x ∈ tree.toList ↔ x = node ∨ x ∈ l.uuidTree.toList) :
    Rings { l with
      count := l.count + 1
      uuidTree := tree
      listLen := Function.update l.listLen first (l.listLen first + 1)
      next := Function.update (Function.update l.next node first) (l.prev first) node
      prev := Function.update (Function.update l.prev node (l.prev first)) first node }
      ((first, tail ++ [node]) :: bs) := by
  have hnodup := h.nodup
  simp only [nodes_cons, List.nodup_cons, List.mem_append, not_or, List.nodup_append] at hnodup
  obtain ⟨⟨hfirst, hrest⟩, htailNodup, -, -⟩ := hnodup
  have hgrown := nodes_grown first tail bs node
  have hring := h.ring (first, tail) List.mem_cons_self
  constructor
  · intro x hx
    obtain rfl | hx := List.mem_cons.mp (hgrown.mem_iff.mp hx)
    · exact hhash ▸ h.small first List.mem_cons_self
    · exact h.small x hx
  · refine ((hgrown.map l.uuid).nodup_iff).mpr (List.nodup_cons.mpr ⟨fun hx => ?_, h.distinct⟩)
    obtain ⟨x, hx, heq⟩ := List.mem_map.mp hx
    exact hnew x hx heq
  · intro b hb x hx
    obtain rfl | hb := List.mem_cons.mp hb
    · obtain hx | hx := List.mem_append.mp hx
      · exact h.hash (first, tail) List.mem_cons_self x hx
      · rw [List.mem_singleton.mp hx]
        exact hhash
    · exact h.hash b (List.mem_cons_of_mem _ hb) x hx
  · intro b hb
    obtain rfl | hb := List.mem_cons.mp hb
    · refine hring.pushBack ?_ ?_ ?_ (fun y _ => ?_) (fun y _ => ?_)
      · exact List.nodup_cons.mpr ⟨hfirst, htailNodup⟩
      · rw [List.nodup_append_comm]
        exact List.nodup_cons.mpr ⟨hfirst, htailNodup⟩
      · intro hin
        simp only [List.cons_append, List.mem_cons, List.mem_append, List.not_mem_nil, or_false] at hin
        simp only [nodes_cons, List.mem_cons, List.mem_append] at hnode
        tauto
      · simp only [Function.update_apply]
      · simp only [Function.update_apply]
    · refine h.ring_congr (fun _ => List.mem_cons_of_mem _) (fun y hy => ?_) (fun y hy => ?_) b hb
      · have hyn : y ≠ node := fun heq => hnode (heq ▸ List.mem_cons_of_mem _ (List.mem_append_right _ hy))
        have hyp : y ≠ l.prev first := fun heq => h.apart y hy (heq ▸ hring.prev_mem)
        simp only [Function.update_apply, if_neg hyn, if_neg hyp]
      · have hyn : y ≠ node := fun heq => hnode (heq ▸ List.mem_cons_of_mem _ (List.mem_append_right _ hy))
        have hyf : y ≠ first := fun heq => h.apart y hy (heq ▸ List.mem_cons_self)
        simp only [Function.update_apply, if_neg hyn, if_neg hyf]
  · intro b hb
    obtain rfl | hb := List.mem_cons.mp hb
    · have hlen := h.len (first, tail) List.mem_cons_self
      dsimp only at hlen ⊢
      rw [Function.update_self, hlen, List.length_append, UInt32.ofNat_add]
      rfl
    · have hne : b.1 ≠ first := by
        intro heq
        exact hrest (heq ▸ first_mem hb)
      exact (Function.update_of_ne hne ..).trans (h.len b (List.mem_cons_of_mem _ hb))
  · exact h.hashTree
  · intro x
    rw [htree, h.uuidTree, tails_cons, tails_cons]
    simp only [List.mem_append, List.mem_singleton]
    tauto
  · exact h.hashSorted
  · exact hsorted
  · have hcount := h.count
    rw [hgrown.length_eq, List.length_cons, UInt64.ofNat_add]
    simp [hcount]

/-- A node alone in its ring joins the list. -/
theorem add (h : Rings l bs) (hnode : node ∉ nodes bs) (hnext : l.next node = node) (hprev : l.prev node = node)
    (hlen : l.listLen node = 0) (hk : (l.hashKey node).toNat < 2 ^ 31) (hnew : ∀ x ∈ nodes bs, l.uuid x ≠ l.uuid node) :
    ∃ cs, Rings (uuidListAdd node l).1 cs ∧ (nodes cs).Perm (node :: nodes bs) ∧
      ((∃ as first tail, bs.Perm ((first, tail) :: as) ∧ l.hashKey node = l.hashKey first ∧
        cs = (first, tail ++ [node]) :: as) ∨ cs = (node, []) :: bs) := by
  cases hfind : l.hashTree.find (l.byHash (l.hashKey node)) with
  | none =>
    obtain ⟨hsorted, htree⟩ := h.hashSorted.add total_small h.hash_keys hk hfind
    have hconflict := Avl.add_conflict (c := l.byHash (l.hashKey node)) (p := node) (t := l.hashTree)
    rw [hfind] at hconflict
    have hadd : uuidListAdd node l = ({ l with
        count := l.count + 1
        hashTree := (l.hashTree.add (l.byHash (l.hashKey node)) node).1 }, true) := by
      rw [uuidListAdd]
      generalize l.hashTree.add (l.byHash (l.hashKey node)) node = grown at hconflict
      obtain ⟨tree, conflict⟩ := grown
      obtain rfl : conflict = none := hconflict
      rfl
    rw [hadd]
    exact ⟨(node, []) :: bs, h.addFirst hnext hprev hlen hk hnew hsorted htree, .refl _, .inr rfl⟩
  | some first =>
    obtain ⟨⟨⟨q, tail⟩, hb, heq⟩, hhash⟩ := (h.head_some hk).mp hfind
    obtain rfl : q = first := heq
    obtain ⟨as, cs, rfl⟩ := List.append_of_mem hb
    have hmiddle : (as ++ (q, tail) :: cs).Perm ((q, tail) :: (as ++ cs)) := List.perm_middle
    have hnodes : (nodes (as ++ (q, tail) :: cs)).Perm (nodes ((q, tail) :: (as ++ cs))) := hmiddle.flatMap_right _
    have hother : l.uuidTree.find (l.byUuid (l.uuid node)) = none :=
      h.uuid_none.mpr fun x hx => hnew x (tails_sub hx)
    obtain ⟨hsorted, htree⟩ := h.uuidSorted.add total_uuid (fun _ _ => trivial) trivial hother
    have hconflict := Avl.add_conflict (c := l.byUuid (l.uuid node)) (p := node) (t := l.uuidTree)
    rw [hother] at hconflict
    have hadd : uuidListAdd node l = ({ l with
        count := l.count + 1
        uuidTree := (l.uuidTree.add (l.byUuid (l.uuid node)) node).1
        listLen := Function.update l.listLen q (l.listLen q + 1)
        next := Function.update (Function.update l.next node q) (l.prev q) node
        prev := Function.update (Function.update l.prev node (l.prev q)) q node }, true) := by
      rw [uuidListAdd, Avl.add_of_conflict hfind]
      dsimp only
      generalize l.uuidTree.add (l.byUuid (l.uuid node)) node = grown at hconflict
      obtain ⟨tree, conflict⟩ := grown
      obtain rfl : conflict = none := hconflict
      rfl
    rw [hadd]
    refine ⟨(q, tail ++ [node]) :: (as ++ cs), (h.perm hmiddle).addOther (fun hx => hnode (hnodes.mem_iff.mpr hx))
      hhash.symm (fun x hx => hnew x (hnodes.mem_iff.mpr hx)) hsorted htree, ?_,
      .inl ⟨as ++ cs, q, tail, hmiddle, hhash.symm, rfl⟩⟩
    exact (nodes_grown q tail (as ++ cs) node).trans (hnodes.symm.cons node)

/-! ### Deleting -/

theorem hash_nodup (h : Rings l bs) : l.hashTree.toList.Nodup :=
  (h.hashSorted.keys_nodup total_small h.hash_keys).of_map

theorem uuid_nodup (h : Rings l bs) : l.uuidTree.toList.Nodup :=
  (h.uuidSorted.keys_nodup total_uuid fun _ _ => trivial).of_map

theorem tails_nodup (h : Rings l bs) : (tails bs).Nodup := by
  refine List.Nodup.sublist ?_ h.nodup
  exact List.Sublist.flatMap_right _ fun b _ => List.sublist_cons_self ..

theorem count_pred {n : Nat} (h : l.count = UInt64.ofNat (n + 1)) : l.count - 1 = UInt64.ofNat n := by
  rw [h, UInt64.ofNat_add]
  simp

/-- The only node of a hash key goes. -/
theorem delLone {first : Ptr} (h : Rings l ((first, []) :: bs)) :
    Rings { l with count := l.count - 1, hashTree := l.hashTree.remove first } bs := by
  have hnot : first ∉ bs.map Prod.fst := by
    intro hin
    obtain ⟨b, hb, hbf⟩ := List.mem_map.mp hin
    exact h.apart first (hbf ▸ first_mem hb) List.mem_cons_self
  constructor
  · exact fun x hx => h.small x (List.mem_cons_of_mem _ hx)
  · exact (List.nodup_cons.mp h.distinct).2
  · exact fun b hb => h.hash b (List.mem_cons_of_mem _ hb)
  · exact fun b hb => h.ring b (List.mem_cons_of_mem _ hb)
  · exact fun b hb => h.len b (List.mem_cons_of_mem _ hb)
  · intro x
    rw [Avl.toList_remove, h.hash_nodup.mem_erase_iff, h.hashTree, List.map_cons, List.mem_cons]
    constructor
    · rintro ⟨hne, hx⟩
      exact hx.resolve_left hne
    · intro hx
      exact ⟨fun heq => hnot (heq ▸ hx), .inr hx⟩
  · exact h.uuidTree
  · exact h.hashSorted.remove first
  · exact h.uuidSorted
  · exact count_pred h.count

/-- The second node of a ring takes the place of the first one. -/
theorem delFirst {first second : Ptr} {tail : List Ptr} (h : Rings l ((first, second :: tail) :: bs)) :
    Rings { l.unlink first with
      count := l.count - 1
      listLen := Function.update l.listLen second (l.listLen first - 1)
      uuidTree := l.uuidTree.remove second
      hashTree := l.hashTree.replace first second } ((second, tail) :: bs) := by
  have hnodup : (first :: second :: (tail ++ nodes bs)).Nodup := h.nodup
  have hring : Linked l.next l.prev first (second :: tail) first := h.ring _ List.mem_cons_self
  have hhash : l.hashKey second = l.hashKey first := h.hash _ List.mem_cons_self second List.mem_cons_self
  have hsecond : l.next first = second := hring.1
  have hne : first ≠ second := fun heq => (List.nodup_cons.mp hnodup).1 (heq ▸ List.mem_cons_self)
  have hcycle : (second :: tail).Nodup := (List.nodup_cons.mp hnodup).2.sublist (by simp)
  have hrest : ∀ b ∈ bs, b.1 ≠ first ∧ b.1 ≠ second := by
    intro b hb
    have hout := h.apart _ (first_mem hb)
    exact ⟨fun heq => hout (heq ▸ List.mem_cons_self), fun heq =>
      hout (heq ▸ List.mem_cons_of_mem _ List.mem_cons_self)⟩
  constructor
  · exact fun x hx => h.small x (List.mem_cons_of_mem _ hx)
  · exact (List.nodup_cons.mp h.distinct).2
  · intro b hb x hx
    obtain rfl | hb := List.mem_cons.mp hb
    · exact (h.hash _ List.mem_cons_self x (List.mem_cons_of_mem _ hx)).trans hhash.symm
    · exact h.hash b (List.mem_cons_of_mem _ hb) x hx
  · intro b hb
    obtain rfl | hb := List.mem_cons.mp hb
    · refine hring.2.2.retarget hcycle (fun y _ => ?_) ?_ (fun y hy => ?_)
      · simp only [UuidList.unlink, Function.update_apply, hsecond]
      · simp only [UuidList.unlink, Function.update_apply, hsecond, if_true]
      · have hys : y ≠ second := fun heq => (List.nodup_cons.mp hcycle).1 (heq ▸ hy)
        simp only [UuidList.unlink, Function.update_apply, hsecond, if_neg hys]
    · refine h.ring_congr (fun _ => List.mem_cons_of_mem _) (fun y hy => ?_) (fun y hy => ?_) b hb
      · have hyp : y ≠ l.prev first := fun heq => h.apart y hy (heq ▸ hring.prev_mem)
        simp only [UuidList.unlink, Function.update_apply, if_neg hyp]
      · have hys : y ≠ second := fun heq => h.apart y hy (heq ▸ List.mem_cons_of_mem _ List.mem_cons_self)
        simp only [UuidList.unlink, Function.update_apply, hsecond, if_neg hys]
  · intro b hb
    obtain rfl | hb := List.mem_cons.mp hb
    · have hlen := h.len _ List.mem_cons_self
      dsimp only at hlen ⊢
      rw [Function.update_self, hlen, List.length_cons, UInt32.ofNat_add]
      simp
    · exact (Function.update_of_ne (hrest b hb).2 ..).trans (h.len b (List.mem_cons_of_mem _ hb))
  · intro x
    rw [Avl.toList_replace, List.map_cons, List.mem_cons, List.mem_map]
    constructor
    · rintro ⟨y, hy, rfl⟩
      split
      · exact .inl rfl
      · rename_i hyf
        exact .inr ((List.mem_cons.mp ((h.hashTree y).mp hy)).resolve_left hyf)
    · rintro (rfl | hx)
      · exact ⟨first, (h.hashTree first).mpr List.mem_cons_self, if_pos rfl⟩
      · obtain ⟨b, hb, rfl⟩ := List.mem_map.mp hx
        exact ⟨b.1, (h.hashTree _).mpr (List.mem_cons_of_mem _ hx), if_neg (hrest b hb).1⟩
  · intro x
    have htails : (second :: (tail ++ tails bs)).Nodup := h.tails_nodup
    rw [Avl.toList_remove, h.uuid_nodup.mem_erase_iff, h.uuidTree, tails_cons, tails_cons]
    simp only [List.cons_append, List.mem_cons]
    constructor
    · rintro ⟨hxs, hx⟩
      exact hx.resolve_left hxs
    · intro hx
      exact ⟨fun heq => (List.nodup_cons.mp htails).1 (heq ▸ hx), .inr hx⟩
  · exact h.hashSorted.replace hhash
  · exact h.uuidSorted.remove second
  · exact count_pred h.count

/-- A node of the tree of uuids goes. -/
theorem delOther {first : Ptr} {u v : List Ptr} (h : Rings l ((first, u ++ x :: v) :: bs)) :
    Rings { l.unlink x with
      count := l.count - 1
      listLen := Function.update l.listLen first (l.listLen first - 1)
      uuidTree := l.uuidTree.remove x } ((first, u ++ v) :: bs) := by
  have hnodup : (first :: (u ++ x :: v) ++ nodes bs).Nodup := h.nodup
  have hcycle : (first :: (u ++ x :: v)).Nodup := hnodup.sublist (List.sublist_append_left ..)
  have hring : Linked l.next l.prev first (u ++ x :: v) first := h.ring _ List.mem_cons_self
  have hmiddle : (u ++ x :: v).Perm (x :: (u ++ v)) := List.perm_middle
  have hshrunk : (nodes ((first, u ++ x :: v) :: bs)).Perm (x :: nodes ((first, u ++ v) :: bs)) :=
    ((hmiddle.append_right (nodes bs)).cons first).trans (List.Perm.swap ..)
  have hsub : ∀ y ∈ nodes ((first, u ++ v) :: bs), y ∈ nodes ((first, u ++ x :: v) :: bs) := fun y hy =>
    hshrunk.mem_iff.mpr (List.mem_cons_of_mem _ hy)
  have hnext : l.next x ∈ first :: (u ++ x :: v) := by
    have hin := (linked_append.mp hring).2.next_mem
    simp only [List.mem_append, List.mem_cons, List.not_mem_nil, or_false] at hin ⊢
    tauto
  have hprev : l.prev x ∈ first :: (u ++ x :: v) := by
    have hin := (linked_append.mp hring).1.prev_mem
    simp only [List.mem_append, List.mem_cons] at hin ⊢
    tauto
  constructor
  · exact fun y hy => h.small y (hsub y hy)
  · exact (List.nodup_cons.mp ((hshrunk.map l.uuid).nodup h.distinct)).2
  · intro b hb y hy
    obtain rfl | hb := List.mem_cons.mp hb
    · exact h.hash _ List.mem_cons_self y (hmiddle.mem_iff.mpr (List.mem_cons_of_mem _ hy))
    · exact h.hash b (List.mem_cons_of_mem _ hb) y hy
  · intro b hb
    obtain rfl | hb := List.mem_cons.mp hb
    · refine hring.unlink hcycle ?_ (fun y _ => ?_) (fun y _ => ?_)
      · rw [List.nodup_append_comm]
        exact hcycle
      · simp only [UuidList.unlink, Function.update_apply]
      · simp only [UuidList.unlink, Function.update_apply]
    · refine h.ring_congr (fun _ => List.mem_cons_of_mem _) (fun y hy => ?_) (fun y hy => ?_) b hb
      · have hyp : y ≠ l.prev x := fun heq => h.apart y hy (heq ▸ hprev)
        simp only [UuidList.unlink, Function.update_apply, if_neg hyp]
      · have hyn : y ≠ l.next x := fun heq => h.apart y hy (heq ▸ hnext)
        simp only [UuidList.unlink, Function.update_apply, if_neg hyn]
  · intro b hb
    obtain rfl | hb := List.mem_cons.mp hb
    · have hlen := h.len _ List.mem_cons_self
      dsimp only at hlen ⊢
      rw [Function.update_self, hlen, hmiddle.length_eq, List.length_cons, UInt32.ofNat_add]
      simp
    · have hne : b.1 ≠ first := fun heq => h.apart _ (first_mem hb) (heq ▸ List.mem_cons_self)
      exact (Function.update_of_ne hne ..).trans (h.len b (List.mem_cons_of_mem _ hb))
  · exact h.hashTree
  · intro y
    have htails : (tails ((first, u ++ x :: v) :: bs)).Nodup := h.tails_nodup
    have hperm : (tails ((first, u ++ x :: v) :: bs)).Perm (x :: tails ((first, u ++ v) :: bs)) :=
      hmiddle.append_right (tails bs)
    rw [Avl.toList_remove, h.uuid_nodup.mem_erase_iff, h.uuidTree, hperm.mem_iff, List.mem_cons]
    constructor
    · rintro ⟨hne, hy⟩
      exact hy.resolve_left hne
    · intro hy
      exact ⟨fun heq => (List.nodup_cons.mp (hperm.nodup htails)).1 (heq ▸ hy), .inr hy⟩
  · exact h.hashSorted
  · exact h.uuidSorted.remove x
  · exact count_pred (h.count.trans (congrArg _ hshrunk.length_eq))

theorem uuidCompare_eq {x y : Id} : uuidCompare x y = 0 ↔ x = y := total_uuid.eq_zero trivial trivial

theorem listLen_zero {b : Bucket} (h : Rings l bs) (hshort : Short bs) (hb : b ∈ bs) :
    l.listLen b.1 = 0 ↔ b.2 = [] := by
  rw [h.len b hb, ← UInt32.toNat_inj, UInt32.toNat_ofNat', Nat.mod_eq_of_lt (hshort b hb)]
  exact List.length_eq_zero_iff

/-- The first node of a node's ring is found by its hash key. -/
theorem home (h : Rings l bs) (hx : x ∈ nodes bs) :
    ∃ b ∈ bs, (x = b.1 ∨ x ∈ b.2) ∧ l.hashTree.find (l.byHash (l.hashKey x)) = some b.1 := by
  obtain ⟨b, hb, hcase⟩ := mem_nodes.mp hx
  refine ⟨b, hb, hcase, (h.head_some (h.small x hx)).mpr ⟨⟨b, hb, rfl⟩, ?_⟩⟩
  obtain rfl | hxb := hcase
  · rfl
  · exact (h.hash b hb x hxb).symm

/-- A node of the list is taken out of it. -/
theorem del (h : Rings l bs) (hshort : Short bs) (hx : x ∈ nodes bs) :
    ∃ l', uuidListDel (l.hashKey x) (l.uuid x) l = some (l', some x) ∧ l'.hashKey = l.hashKey ∧ l'.uuid = l.uuid ∧
      ∃ cs, Rings l' cs ∧ Short cs ∧ (nodes cs).Perm ((nodes bs).erase x) := by
  obtain ⟨⟨first, tail⟩, hb, hcase, hfind⟩ := h.home hx
  obtain ⟨as, cs, rfl⟩ := List.append_of_mem hb
  have hmiddle : (as ++ (first, tail) :: cs).Perm ((first, tail) :: (as ++ cs)) := List.perm_middle
  have hnodes : (nodes (as ++ (first, tail) :: cs)).Perm (nodes ((first, tail) :: (as ++ cs))) :=
    hmiddle.flatMap_right _
  have hzero := h.listLen_zero hshort hb
  have hfront := h.perm hmiddle
  have hrest : ∀ b ∈ as ++ cs, b.2.length < 2 ^ 32 := fun b hbr =>
    hshort b (hmiddle.mem_iff.mpr (List.mem_cons_of_mem _ hbr))
  have htail : tail.length < 2 ^ 32 := hshort _ hb
  obtain rfl | hxt : x = first ∨ x ∈ tail := hcase
  · have herase : (nodes ((x, tail) :: (as ++ cs))).erase x = tail ++ nodes (as ++ cs) :=
      List.erase_cons_head ..
    cases tail with
    | nil =>
      have hdel : uuidListDel (l.hashKey x) (l.uuid x) l =
          some ({ l with count := l.count - 1, hashTree := l.hashTree.remove x }, some x) := by
        simp only [uuidListDel, hfind, if_pos (hzero.mpr rfl)]
      refine ⟨_, hdel, rfl, rfl, as ++ cs, hfront.delLone, hrest, ?_⟩
      exact (herase ▸ List.Perm.refl _ : (nodes (as ++ cs)).Perm _).trans (hnodes.erase x).symm
    | cons second tail =>
      have hsecond : l.next x = second := (hfront.ring _ List.mem_cons_self).1
      have hmany : l.listLen x ≠ 0 := fun heq => List.cons_ne_nil _ _ (hzero.mp heq)
      have hdel : uuidListDel (l.hashKey x) (l.uuid x) l = some ({ l.unlink x with
          count := l.count - 1
          listLen := Function.update l.listLen second (l.listLen x - 1)
          uuidTree := l.uuidTree.remove second
          hashTree := l.hashTree.replace x second }, some x) := by
        simp only [uuidListDel, hfind, if_neg hmany, if_pos (uuidCompare_eq.mpr rfl), hsecond]
      refine ⟨_, hdel, rfl, rfl, (second, tail) :: (as ++ cs), hfront.delFirst, ?_, ?_⟩
      · intro b hb
        obtain rfl | hb := List.mem_cons.mp hb
        · exact (Nat.lt_succ_self _).trans htail
        · exact hrest b hb
      · exact (herase ▸ List.Perm.refl _ : (nodes ((second, tail) :: (as ++ cs))).Perm _).trans (hnodes.erase x).symm
  · have hfirst : x ≠ first := by
      rintro rfl
      exact (List.nodup_cons.mp hfront.nodup).1 (List.mem_append_left _ hxt)
    have hother : uuidCompare (l.uuid first) (l.uuid x) ≠ 0 := fun heq =>
      hfirst (h.uuid_inj (first_mem hb) hx (uuidCompare_eq.mp heq)).symm
    have hmany : l.listLen first ≠ 0 := by
      intro heq
      have hnil : tail = [] := hzero.mp heq
      rw [hnil] at hxt
      exact List.not_mem_nil hxt
    have hnode : l.uuidTree.find (l.byUuid (l.uuid x)) = some x := h.uuid_some.mpr ⟨mem_tails.mpr ⟨_, hb, hxt⟩, rfl⟩
    obtain ⟨u, v, hxu, rfl, hcut⟩ := List.exists_erase_eq hxt
    have hdel : uuidListDel (l.hashKey x) (l.uuid x) l = some ({ l.unlink x with
        count := l.count - 1
        listLen := Function.update l.listLen first (l.listLen first - 1)
        uuidTree := l.uuidTree.remove x }, some x) := by
      simp only [uuidListDel, hfind, if_neg hmany, if_neg hother, hnode]
    refine ⟨_, hdel, rfl, rfl, (first, u ++ v) :: (as ++ cs), hfront.delOther, ?_, ?_⟩
    · intro b hb
      obtain rfl | hb := List.mem_cons.mp hb
      · refine Nat.lt_of_le_of_lt ?_ htail
        simp
      · exact hrest b hb
    · refine List.Perm.trans ?_ (hnodes.erase x).symm
      rw [nodes_cons, nodes_cons, List.erase_cons_tail (by simpa using hfirst.symm), List.erase_append_left _ hxt, hcut]

/-- A search finds the node with the hash key and the uuid, unless it meets the uuid under another hash key. -/
theorem find (h : Rings l bs) (hshort : Short bs) (hk : hashKey.toNat < 2 ^ 31)
    (hone : ∀ y ∈ tails bs, l.uuid y = uuid → l.hashKey y = hashKey ∨ ∀ z ∈ tails bs, l.hashKey z ≠ hashKey) :
    uuidListFind hashKey uuid l = some x ↔ x ∈ nodes bs ∧ l.hashKey x = hashKey ∧ l.uuid x = uuid := by
  rw [uuidListFind]
  cases hfind : l.hashTree.find (l.byHash hashKey) with
  | none =>
    simp only [reduceCtorEq, false_iff]
    rintro ⟨hx, hxk, -⟩
    exact (h.head_none hk).mp hfind x hx hxk
  | some first =>
    obtain ⟨⟨⟨q, tail⟩, hb, heq⟩, hhash⟩ := (h.head_some hk).mp hfind
    obtain rfl : q = first := heq
    have hq := first_mem hb
    have hzero := h.listLen_zero hshort hb
    dsimp only at hq hzero ⊢
    split
    · rename_i hsame
      have huuid := uuidCompare_eq.mp hsame
      constructor
      · rintro ⟨⟩
        exact ⟨hq, hhash, huuid.symm⟩
      · rintro ⟨hx, -, hxu⟩
        rw [h.uuid_inj hx hq (hxu.trans huuid)]
    · rename_i hdiffer
      have hnot : ∀ y ∈ nodes bs, l.hashKey y = hashKey → l.uuid y = uuid → y ∈ tails bs ∧ tail ≠ [] := by
        intro y hy hyk hyu
        obtain ⟨b, hbb, hcase, hhome⟩ := h.home hy
        rw [hyk, hfind, Option.some.injEq] at hhome
        obtain rfl | hyb := hcase
        · rw [← hhome] at hyu
          exact absurd (uuidCompare_eq.mpr hyu.symm) hdiffer
        · refine ⟨mem_tails.mpr ⟨b, hbb, hyb⟩, ?_⟩
          rintro rfl
          have hlen := (h.listLen_zero hshort hbb).mp (hhome ▸ hzero.mpr rfl)
          rw [hlen] at hyb
          exact List.not_mem_nil hyb
      split
      · rename_i hmany
        rw [h.uuid_some]
        have hne : tail ≠ [] := fun hnil => by
          rw [hzero.mpr hnil] at hmany
          exact absurd hmany (by decide)
        constructor
        · rintro ⟨hxt, hxu⟩
          refine ⟨tails_sub hxt, (hone x hxt hxu).resolve_right fun hall => ?_, hxu⟩
          obtain ⟨z, hz⟩ := List.exists_mem_of_ne_nil _ hne
          exact hall z (mem_tails.mpr ⟨_, hb, hz⟩) ((h.hash _ hb z hz).trans hhash)
        · rintro ⟨hx, hxk, hxu⟩
          exact ⟨(hnot x hx hxk hxu).1, hxu⟩
      · rename_i hlone
        simp only [reduceCtorEq, false_iff]
        rintro ⟨hx, hxk, hxu⟩
        have hne := (hnot x hx hxk hxu).2
        exact hne (hzero.mp (UInt32.le_antisymm (UInt32.not_lt.mp hlone) (UInt32.zero_le)))

end Rings
end Wenas.Uuid
