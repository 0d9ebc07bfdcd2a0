import Wenas.Uuid.Runs

/-!
# Keys of 64 bits

`number_compare` returns the low half of a difference. The lookups of `index_table` and of `uuid_list_find_by_hash` are
right where this orders the keys that it is asked about.
-/
namespace Wenas.Uuid

open Wenas.Machine Wenas.Links Wenas.Xlib Wenas.Xtable

/-- A call of `uuid_list_add` with a new node. -/
structure NodeAdd where
  node : Ptr
  hashKey : UInt64
  uuid : Id

def addStep (s : UuidState) (a : NodeAdd) : UuidState := uuidStep s (.add a.node a.hashKey a.uuid)

/-- `number_compare` orders the keys in the tree of hash keys and this one. -/
def HashOrdered (l : UuidList) (k : UInt64) : Prop :=
  Avl.Total numberCompare fun a => a = k ∨ ∃ x ∈ l.hashTree.toList, l.hashKey x = a

/-- The tree of hash keys has a node for each of these keys. -/
structure KeysHeld (s : UuidState) (keys : List UInt64) : Prop where
  sorted : Avl.Sorted numberCompare s.list.hashKey s.list.hashTree
  present : ∀ x ∈ s.list.hashTree.toList, x ∈ s.present
  keys : ∀ k, k ∈ keys ↔ ∃ x ∈ s.list.hashTree.toList, s.list.hashKey x = k

variable {s : UuidState} {keys : List UInt64} {a : NodeAdd} {k : UInt64}

namespace KeysHeld

theorem find_some (h : KeysHeld s keys) (hk : HashOrdered s.list k) {x : Ptr} :
    uuidListFindByHash k s.list = some x ↔ x ∈ s.list.hashTree.toList ∧ s.list.hashKey x = k :=
  h.sorted.find_some hk (fun x hx => .inr ⟨x, hx, rfl⟩) (.inl rfl)

theorem find_none (h : KeysHeld s keys) (hk : HashOrdered s.list k) :
    uuidListFindByHash k s.list = none ↔ k ∉ keys := by
  refine (h.sorted.find_none hk (fun x hx => .inr ⟨x, hx, rfl⟩) (.inl rfl)).trans ?_
  rw [h.keys]
  simp

theorem add (h : KeysHeld s keys) (hfresh : a.node ∉ s.present) (hk : HashOrdered s.list a.hashKey) :
    KeysHeld (addStep s a) (a.hashKey :: keys) := by
  obtain ⟨node, hashKey, uuid⟩ := a
  have hkept : ∀ x ∈ s.list.hashTree.toList, (s.list.create node hashKey uuid).hashKey x = s.list.hashKey x := by
    intro x hx
    refine Function.update_of_ne ?_ ..
    rintro rfl
    exact hfresh (h.present _ hx)
  have hkey : (s.list.create node hashKey uuid).hashKey node = hashKey := Function.update_self ..
  have hsorted : Avl.Sorted numberCompare (s.list.create node hashKey uuid).hashKey s.list.hashTree :=
    h.sorted.congr hkept
  have hS : ∀ x ∈ s.list.hashTree.toList, (s.list.create node hashKey uuid).hashKey x = hashKey ∨
      ∃ y ∈ s.list.hashTree.toList, s.list.hashKey y = (s.list.create node hashKey uuid).hashKey x := fun x hx =>
    .inr ⟨x, hx, (hkept x hx).symm⟩
  obtain ⟨-, hfields⟩ := uuidListAdd_keys node (s.list.create node hashKey uuid)
  have hnode : (s.list.create node hashKey uuid).hashKey node = hashKey ∨
      ∃ y ∈ s.list.hashTree.toList, s.list.hashKey y = (s.list.create node hashKey uuid).hashKey node := .inl hkey
  cases hfind : s.list.hashTree.find ((s.list.create node hashKey uuid).byHash
      ((s.list.create node hashKey uuid).hashKey node)) with
  | some first =>
    have htree : (uuidListAdd node (s.list.create node hashKey uuid)).1.hashTree = s.list.hashTree := by
      rw [uuidListAdd, show (s.list.create node hashKey uuid).hashTree = s.list.hashTree from rfl,
        Avl.add_of_conflict hfind]
      dsimp only
      split <;> rfl
    obtain ⟨hfirst, hfirstKey⟩ := (hsorted.find_some hk hS hnode).mp hfind
    refine ⟨?_, fun x hx => ?_, fun k => ?_⟩
    · show Avl.Sorted numberCompare (uuidListAdd node _).1.hashKey (uuidListAdd node _).1.hashTree
      rw [htree, hfields]
      exact hsorted
    · change x ∈ (uuidListAdd node _).1.hashTree.toList at hx
      rw [htree] at hx
      exact List.mem_cons_of_mem _ (h.present x hx)
    · show _ ↔ ∃ x ∈ (uuidListAdd node _).1.hashTree.toList, (uuidListAdd node _).1.hashKey x = k
      rw [htree, hfields, List.mem_cons, h.keys]
      constructor
      · rintro (rfl | ⟨x, hx, rfl⟩)
        · exact ⟨first, hfirst, hfirstKey.trans hkey⟩
        · exact ⟨x, hx, hkept x hx⟩
      · rintro ⟨x, hx, rfl⟩
        exact .inr ⟨x, hx, (hkept x hx).symm⟩
  | none =>
    obtain ⟨hgrown, hmem⟩ := hsorted.add hk hS hnode hfind
    have htree : (uuidListAdd node (s.list.create node hashKey uuid)).1.hashTree =
        (s.list.hashTree.add ((s.list.create node hashKey uuid).byHash
          ((s.list.create node hashKey uuid).hashKey node)) node).1 := by
      have hconflict := Avl.add_conflict (c := (s.list.create node hashKey uuid).byHash
        ((s.list.create node hashKey uuid).hashKey node)) (p := node) (t := s.list.hashTree)
      rw [hfind] at hconflict
      rw [uuidListAdd, show (s.list.create node hashKey uuid).hashTree = s.list.hashTree from rfl]
      generalize s.list.hashTree.add _ node = grown at hconflict
      obtain ⟨tree, conflict⟩ := grown
      obtain rfl : conflict = none := hconflict
      rfl
    refine ⟨?_, fun x hx => ?_, fun k => ?_⟩
    · show Avl.Sorted numberCompare (uuidListAdd node _).1.hashKey (uuidListAdd node _).1.hashTree
      rw [htree, hfields]
      exact hgrown
    · change x ∈ (uuidListAdd node _).1.hashTree.toList at hx
      rw [htree] at hx
      obtain rfl | hx := (hmem x).mp hx
      · exact List.mem_cons_self
      · exact List.mem_cons_of_mem _ (h.present x hx)
    · show _ ↔ ∃ x ∈ (uuidListAdd node _).1.hashTree.toList, (uuidListAdd node _).1.hashKey x = k
      rw [htree, hfields, List.mem_cons, h.keys]
      constructor
      · rintro (rfl | ⟨x, hx, rfl⟩)
        · exact ⟨node, (hmem node).mpr (.inl rfl), hkey⟩
        · exact ⟨x, (hmem x).mpr (.inr hx), hkept x hx⟩
      · rintro ⟨x, hx, rfl⟩
        obtain rfl | hx := (hmem x).mp hx
        · exact .inl hkey
        · exact .inr ⟨x, hx, (hkept x hx).symm⟩

end KeysHeld

/-- Lookups by hash key after such calls of `uuid_list_add`. -/
theorem hash_lookups (next prev : Ptr → Ptr) (uuid : Ptr → Id) (hashKey : Ptr → UInt64) (listLen : Ptr → UInt32)
    (adds : List NodeAdd)
    (hrun : Along addStep (fun s a => a.node ∉ s.present ∧ HashOrdered s.list a.hashKey)
      (uuidStart next prev uuid hashKey listLen) adds) (k : UInt64) :
    let l := (run addStep (uuidStart next prev uuid hashKey listLen) adds).list
    HashOrdered l k →
      ((∃ a ∈ adds, a.hashKey = k) → ∃ x, uuidListFindByHash k l = some x ∧ l.hashKey x = k) ∧
        ((∀ a ∈ adds, a.hashKey ≠ k) → uuidListFindByHash k l = none) := by
  intro l hk
  have hstep : ∀ s keys a, KeysHeld s keys → a.node ∉ s.present ∧ HashOrdered s.list a.hashKey →
      () = () ∧ KeysHeld (addStep s a) (a.hashKey :: keys) := fun s keys a h hok => ⟨rfl, h.add hok.1 hok.2⟩
  have hstart : KeysHeld (uuidStart next prev uuid hashKey listLen) [] := by
    constructor
    all_goals simp [uuidStart, uuidListInit, Avl.toList, Avl.Sorted]
  have hheld := (Along.simulation hstep hrun hstart).2
  have hkeys : ∀ keys, run (fun keys (a : NodeAdd) => a.hashKey :: keys) keys adds =
      (adds.map NodeAdd.hashKey).reverse ++ keys := by
    clear hrun hheld hk
    induction adds with
    | nil => simp
    | cons a adds ih => simp [ih]
  rw [hkeys, List.append_nil] at hheld
  constructor
  · rintro ⟨a, ha, rfl⟩
    obtain ⟨x, hx, hxk⟩ := (hheld.keys a.hashKey).mp (by simpa using ⟨a, ha, rfl⟩)
    exact ⟨x, (hheld.find_some hk).mpr ⟨hx, hxk⟩, hxk⟩
  · intro hnone
    refine (hheld.find_none hk).mpr fun hin => ?_
    obtain ⟨a, ha, hak⟩ := by simpa using hin
    exact hnone a ha hak

/-- Lookups by number are right as long as `number_compare` orders the keys that meet in a tree. -/
theorem number_keys (size : UInt32) (index : Ptr → UInt64) (es : List IndexEvent)
    (hrun : Along indexStep (fun s e => Handed s e ∧ Roomy s e ∧ Comparable s e) (indexTableInit size index) es)
    (next prev : Ptr → Ptr) (uuid : Ptr → Id) (hashKey : Ptr → UInt64) (listLen : Ptr → UInt32) (adds : List NodeAdd)
    (hadds : Along addStep (fun s a => a.node ∉ s.present ∧ HashOrdered s.list a.hashKey)
      (uuidStart next prev uuid hashKey listLen) adds) :
    (let s := run indexStep (indexTableInit size index) es
     results indexStep indexResult (indexTableInit size index) es = results nodeStep nodeResult ∅ es ∧
       (∀ k x, (run nodeStep ∅ es).lookup k = some x → s.table.key x = k) ∧
         ∀ k, Comparable s (.find k) → indexTableFind k s = (run nodeStep ∅ es).lookup k) ∧
    (let l := (run addStep (uuidStart next prev uuid hashKey listLen) adds).list
     ∀ k, HashOrdered l k →
       ((∃ a ∈ adds, a.hashKey = k) → ∃ x, uuidListFindByHash k l = some x ∧ l.hashKey x = k) ∧
         ((∀ a ∈ adds, a.hashKey ≠ k) → uuidListFindByHash k l = none)) := by
  constructor
  · obtain ⟨hresults, hheld⟩ := index_table_map size index es hrun
    exact ⟨hresults, fun k x hx => ((hheld.lookup k x).mp hx).2, fun k hk => hheld.find hk⟩
  · intro l k hk
    exact hash_lookups next prev uuid hashKey listLen adds hadds k hk

instance (s : IndexTable) : (e : IndexEvent) → Decidable (Handed s e)
  | .add .. => inferInstanceAs (Decidable (_ ∧ (_ → _)))
  | .del _ => inferInstanceAs (Decidable True)
  | .find _ => inferInstanceAs (Decidable True)

instance (s : IndexTable) : (e : IndexEvent) → Decidable (Roomy s e)
  | .add .. => inferInstanceAs (Decidable (∀ _ ∈ (_ : Option Ptr), _))
  | .del _ => inferInstanceAs (Decidable True)
  | .find _ => inferInstanceAs (Decidable True)

theorem comparable_of_small (s : IndexTable) (e : IndexEvent) (he : e.index.toNat < 2 ^ 31)
    (hs : ∀ x ∈ s.table.tree.toList, (s.table.key x).toNat < 2 ^ 31) : Comparable s e := by
  have hordered : s.table.Ordered indexKeys e.index := by
    refine total_small.mono ?_
    rintro a (rfl | ⟨x, hx, rfl⟩)
    · exact he
    · exact hs x hx
  cases e with
  | add node index => exact fun _ _ _ => hordered
  | del index => exact fun _ _ _ _ => hordered
  | find index => exact fun _ _ _ => hordered

theorem hashOrdered_of_small (l : UuidList) (k : UInt64) (hk : k.toNat < 2 ^ 31)
    (hl : ∀ x ∈ l.hashTree.toList, (l.hashKey x).toNat < 2 ^ 31) : HashOrdered l k := by
  refine total_small.mono ?_
  rintro a (rfl | ⟨x, hx, rfl⟩)
  · exact hk
  · exact hl x hx

/-- Small keys in one bucket, and three nodes of two hash keys. -/
theorem number_keys_small :
    (let es := [IndexEvent.add 1 5, .add 2 3, .add 3 9, .add 4 3, .find 3, .del 5, .find 9, .find 5]
     results indexStep indexResult (indexTableInit 1 fun _ => 0) es = results nodeStep nodeResult ∅ es) ∧
    (let adds := [NodeAdd.mk 1 7 fun _ => 1, .mk 2 6 fun _ => 2, .mk 3 7 fun _ => 3]
     let l := (run addStep (uuidStart id id (fun _ _ => 0) (fun _ => 0) fun _ => 0) adds).list
     (∃ x, uuidListFindByHash 7 l = some x ∧ l.hashKey x = 7) ∧ uuidListFindByHash 5 l = none) := by
  have hrun : Along indexStep (fun s e => Handed s e ∧ Roomy s e ∧ e.index.toNat < 2 ^ 31 ∧
      ∀ x ∈ s.table.tree.toList, (s.table.key x).toNat < 2 ^ 31)
      (indexTableInit 1 fun _ => 0)
      [.add 1 5, .add 2 3, .add 3 9, .add 4 3, .find 3, .del 5, .find 9, .find 5] := by decide +kernel
  have hadds : Along addStep (fun s a => a.node ∉ s.present ∧ a.hashKey.toNat < 2 ^ 31 ∧
      ∀ x ∈ s.list.hashTree.toList, (s.list.hashKey x).toNat < 2 ^ 31)
      (uuidStart id id (fun _ _ => 0) (fun _ => 0) fun _ => 0)
      [.mk 1 7 fun _ => 1, .mk 2 6 fun _ => 2, .mk 3 7 fun _ => 3] := by decide +kernel
  have hkeys := number_keys 1 (fun _ => 0) _
    (hrun.mono fun s e h => ⟨h.1, h.2.1, comparable_of_small s e h.2.2.1 h.2.2.2⟩)
    id id (fun _ _ => 0) (fun _ => 0) (fun _ => 0) _
    (hadds.mono fun s a h => ⟨h.1, hashOrdered_of_small s.list a.hashKey h.2.1 h.2.2⟩)
  refine ⟨hkeys.1.1, ?_⟩
  intro adds l
  have hsmall : ∀ x ∈ l.hashTree.toList, (l.hashKey x).toNat < 2 ^ 31 := by decide +kernel
  exact ⟨(hkeys.2 7 (hashOrdered_of_small l 7 (by decide) hsmall)).1 (by decide +kernel),
    (hkeys.2 5 (hashOrdered_of_small l 5 (by decide) hsmall)).2 (by decide +kernel)⟩

/-- The difference of two keys that are 2 ^ 32 apart is taken for 0. -/
theorem keys_confused :
    (∃ es, Along indexStep (fun s e => Handed s e ∧ Roomy s e) (indexTableInit 1 fun _ => 0) es ∧
      results indexStep indexResult (indexTableInit 1 fun _ => 0) es ≠ results nodeStep nodeResult ∅ es ∧
      let s := run indexStep (indexTableInit 1 fun _ => 0) es
      indexTableFind (2 ^ 32) s = some 2 ∧ s.table.key 2 ≠ 2 ^ 32) ∧
    (∃ adds, Along addStep (fun s a => a.node ∉ s.present)
        (uuidStart id id (fun _ _ => 0) (fun _ => 0) fun _ => 0) adds ∧
      let l := (run addStep (uuidStart id id (fun _ _ => 0) (fun _ => 0) fun _ => 0) adds).list
      uuidListFindByHash (2 ^ 32) l = some 1 ∧ l.hashKey 1 ≠ 2 ^ 32) := by
  constructor
  · refine ⟨[.add 1 5, .add 2 0, .add 3 (2 ^ 32), .find (2 ^ 32)], ?_⟩
    decide +kernel
  · refine ⟨[⟨1, 0, fun _ => 1⟩, ⟨2, 2 ^ 32, fun _ => 2⟩], ?_⟩
    decide +kernel

end Wenas.Uuid
