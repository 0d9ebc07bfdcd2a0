import Wenas.Uuid.Runs

/-!
# Deleting what is absent and adding what is present

`uuid_list_del` takes the first node of a ring for the node that it looks for when no other has its hash key, and does
not look whether the search in `uuid_tree` finds any. `uuid_list_add` looks for the uuid in `uuid_tree` only, where
first nodes are not.
-/
namespace Wenas.Uuid

open Wenas.Machine Wenas.Links Wenas.Xlib Wenas.Xtable

/-- Calls with any node: a new one, one that is in the list already, and one to search for. -/
inductive UuidCall where
  | add (node : Ptr) (hashKey : UInt64) (uuid : Id)
  | addAgain (node : Ptr)
  | del (hashKey : UInt64) (uuid : Id)

def uuidCall (s : UuidState) : UuidCall → UuidState
  | .add node hashKey uuid =>
    let r := uuidListAdd node (s.list.create node hashKey uuid)
    ⟨r.1, if r.2 then node :: s.present else s.present⟩
  | .addAgain node => ⟨(uuidListAdd node s.list).1, s.present⟩
  | .del hashKey uuid =>
    match uuidListDel hashKey uuid s.list with
    | some (l, some node) => ⟨l, s.present.erase node⟩
    | some (l, none) => ⟨l, s.present⟩
    | none => s

/-- A node with this hash key is present. -/
def Met (s : UuidState) (hashKey : UInt64) : Prop := ∃ x ∈ s.present, s.list.hashKey x = hashKey

/-- A node with this uuid is present and not the first one of its ring. -/
def Behind (s : UuidState) (uuid : Id) : Prop := ∃ x ∈ s.list.uuidTree.toList, s.list.uuid x = uuid

def Absent (s : UuidState) (uuid : Id) : Prop := ∀ x ∈ s.present, s.list.uuid x ≠ uuid

/-- Hash keys have 31 bits, and a new node is not in the list. -/
def UuidCall.Legal (s : UuidState) : UuidCall → Prop
  | .add node hashKey _ => node ∉ s.present ∧ hashKey.toNat < 2 ^ 31
  | .addAgain node => node ∈ s.present
  | .del hashKey _ => hashKey.toNat < 2 ^ 31

/-- A present uuid is added with a hash key that is present and is not that of a first node, a new one to a ring with
room in its counter; a deletion finds its node, or no node with its hash key. -/
def UuidCall.Sound (s : UuidState) : UuidCall → Prop
  | .add node hashKey uuid => (Absent s uuid → Spare s (.add node hashKey uuid)) ∧
      (¬ Absent s uuid → Met s hashKey ∧ Behind s uuid)
  | .addAgain node => Behind s (s.list.uuid node)
  | .del hashKey uuid => Met s hashKey → ∃ x ∈ s.present, s.list.hashKey x = hashKey ∧ s.list.uuid x = uuid

instance (s : UuidState) (k : UInt64) : Decidable (Met s k) := inferInstanceAs (Decidable (∃ _ ∈ _, _))

instance (s : UuidState) (u : Id) : Decidable (Behind s u) := inferInstanceAs (Decidable (∃ _ ∈ _, _))

instance (s : UuidState) (u : Id) : Decidable (Absent s u) := inferInstanceAs (Decidable (∀ _ ∈ _, _))

instance (s : UuidState) : (c : UuidCall) → Decidable (c.Legal s)
  | .add .. => inferInstanceAs (Decidable (_ ∧ _))
  | .addAgain _ => inferInstanceAs (Decidable (_ ∈ _))
  | .del .. => inferInstanceAs (Decidable (_ < _))

instance (s : UuidState) : (c : UuidCall) → Decidable (c.Sound s)
  | .add .. => inferInstanceAs (Decidable ((_ → _) ∧ (_ → _)))
  | .addAgain _ => inferInstanceAs (Decidable (Behind _ _))
  | .del .. => inferInstanceAs (Decidable (_ → _))

/-- The count and all lookups are those before. -/
structure Unchanged (l l' : UuidList) : Prop where
  count : l'.count = l.count
  find : ∀ hashKey uuid, uuidListFind hashKey uuid l' = uuidListFind hashKey uuid l
  findByHash : ∀ hashKey, uuidListFindByHash hashKey l' = uuidListFindByHash hashKey l

/-! ### One call -/

section

variable {l : UuidList} {bs : List Bucket} {node x : Ptr} {hashKey : UInt64} {uuid : Id}

theorem add_met (hhash : (l.hashTree.find (l.byHash (l.hashKey node))).isSome)
    (huuid : (l.uuidTree.find (l.byUuid (l.uuid node))).isSome) : uuidListAdd node l = (l, false) := by
  obtain ⟨first, hfirst⟩ := Option.isSome_iff_exists.mp hhash
  obtain ⟨x, hx⟩ := Option.isSome_iff_exists.mp huuid
  simp only [uuidListAdd, Avl.add_of_conflict hfirst, Avl.add_of_conflict hx]

theorem add_counts (h : l.hashTree.find (l.byHash (l.hashKey node)) = none ∨
    l.uuidTree.find (l.byUuid (l.uuid node)) = none) :
    (uuidListAdd node l).1.count = l.count + 1 ∧ (uuidListAdd node l).2 = true := by
  have hhash := Avl.add_conflict (c := l.byHash (l.hashKey node)) (p := node) (t := l.hashTree)
  have huuid := Avl.add_conflict (c := l.byUuid (l.uuid node)) (p := node) (t := l.uuidTree)
  unfold uuidListAdd
  generalize l.hashTree.add (l.byHash (l.hashKey node)) node = r at hhash
  generalize l.uuidTree.add (l.byUuid (l.uuid node)) node = r' at huuid
  obtain ⟨tree, conflict⟩ := r
  obtain ⟨tree', conflict'⟩ := r'
  dsimp only at hhash huuid
  cases conflict with
  | none => exact ⟨rfl, rfl⟩
  | some first =>
    have hnone : conflict' = none := huuid.trans (h.resolve_left fun hnone => by simp [hnone] at hhash)
    rw [hnone]
    exact ⟨rfl, rfl⟩

theorem count_ne (n : UInt64) : n + 1 ≠ n := by
  intro h
  have htoNat := congrArg UInt64.toNat h
  have hlt := n.toNat_lt
  have hone : (1 : UInt64).toNat = 1 := rfl
  rw [UInt64.toNat_add, hone] at htoNat
  omega

/-- An addition that leaves the count leaves everything. -/
theorem add_same (h : Unchanged l (uuidListAdd node l).1) :
    ((l.hashTree.find (l.byHash (l.hashKey node))).isSome ∧ (l.uuidTree.find (l.byUuid (l.uuid node))).isSome) ∧
      uuidListAdd node l = (l, false) := by
  have hmet : (l.hashTree.find (l.byHash (l.hashKey node))).isSome ∧
      (l.uuidTree.find (l.byUuid (l.uuid node))).isSome := by
    by_contra hmissed
    have hnone : l.hashTree.find (l.byHash (l.hashKey node)) = none ∨
        l.uuidTree.find (l.byUuid (l.uuid node)) = none := by
      rw [not_and_or, Bool.not_eq_true, Bool.not_eq_true] at hmissed
      simpa using hmissed
    exact count_ne _ ((add_counts hnone).1.symm.trans h.count)
  exact ⟨hmet, add_met hmet.1 hmet.2⟩

theorem find_congr {α : Type} {c d : α → Int} {t : Avl α} (h : ∀ x ∈ t.toList, c x = d x) : t.find c = t.find d := by
  induction t with
  | nil => rfl
  | node k left y right ihl ihr =>
    simp only [Avl.toList, List.mem_append, List.mem_cons] at h
    rw [Avl.find, Avl.find, h y (.inr (.inl rfl)), ihl fun x hx => h x (.inl hx), ihr fun x hx => h x (.inr (.inr hx))]

/-- The fields of a node that is not in the list do not matter to a search. -/
theorem Rings.find_create (h : Rings l bs) (hnode : node ∉ nodes bs) : Unchanged l (l.create node hashKey uuid) := by
  have hfirst : ∀ x ∈ l.hashTree.toList, x ≠ node := by
    rintro x hx rfl
    obtain ⟨b, hb, rfl⟩ := List.mem_map.mp ((h.hashTree x).mp hx)
    exact hnode (Rings.first_mem hb)
  have hother : ∀ x ∈ l.uuidTree.toList, x ≠ node := by
    rintro x hx rfl
    exact hnode (Rings.tails_sub ((h.uuidTree x).mp hx))
  have hhash : ∀ k, l.hashTree.find ((l.create node hashKey uuid).byHash k) = l.hashTree.find (l.byHash k) := fun k =>
    find_congr fun x hx => congrArg (numberCompare k) (Function.update_of_ne (hfirst x hx) ..)
  have huuid : ∀ u, l.uuidTree.find ((l.create node hashKey uuid).byUuid u) = l.uuidTree.find (l.byUuid u) := fun u =>
    find_congr fun x hx => congrArg (uuidCompare u) (Function.update_of_ne (hother x hx) ..)
  refine ⟨rfl, fun k u => ?_, hhash⟩
  have htree : (l.create node hashKey uuid).hashTree = l.hashTree := rfl
  unfold uuidListFind
  rw [htree, hhash]
  cases hfind : l.hashTree.find (l.byHash k) with
  | none => rfl
  | some x =>
    have hne := hfirst x (Avl.mem_of_find hfind).1
    have hx : (l.create node hashKey uuid).uuid x = l.uuid x := Function.update_of_ne hne ..
    have hlen : (l.create node hashKey uuid).listLen x = l.listLen x := Function.update_of_ne hne ..
    dsimp only
    rw [hx, hlen]
    split
    · rfl
    · split
      · exact huuid u
      · rfl

/-- A deletion of an absent uuid leaves the list exactly when its hash key is absent, too. -/
theorem Rings.del_absent (h : Rings l bs) (hk : hashKey.toNat < 2 ^ 31) (habsent : ∀ x ∈ nodes bs, l.uuid x ≠ uuid) :
    uuidListDel hashKey uuid l = some (l, none) ↔ ∀ x ∈ nodes bs, l.hashKey x ≠ hashKey := by
  rw [← h.head_none hk]
  cases hfind : l.hashTree.find (l.byHash hashKey) with
  | none => simp [uuidListDel, hfind]
  | some first =>
    have hnone : l.uuidTree.find (l.byUuid uuid) = none := h.uuid_none.mpr fun x hx => habsent x (Rings.tails_sub hx)
    simp only [uuidListDel, hfind, hnone, reduceCtorEq, iff_false]
    split
    · simp
    · split <;> simp

/-- An addition of a present uuid leaves the list exactly when it is met behind a first node. -/
theorem Rings.add_unchanged (h : Rings l bs) (hk : (l.hashKey node).toNat < 2 ^ 31) :
    Unchanged l (uuidListAdd node l).1 ↔
      (∃ x ∈ nodes bs, l.hashKey x = l.hashKey node) ∧ ∃ x ∈ tails bs, l.uuid x = l.uuid node := by
  have hhash : (l.hashTree.find (l.byHash (l.hashKey node))).isSome ↔ ∃ x ∈ nodes bs, l.hashKey x = l.hashKey node := by
    rw [← not_iff_not, Bool.not_eq_true, Option.isSome_eq_false_iff, Option.isNone_iff_eq_none, h.head_none hk]
    push Not
    rfl
  have huuid : (l.uuidTree.find (l.byUuid (l.uuid node))).isSome ↔ ∃ x ∈ tails bs, l.uuid x = l.uuid node := by
    rw [← not_iff_not, Bool.not_eq_true, Option.isSome_eq_false_iff, Option.isNone_iff_eq_none, h.uuid_none]
    push Not
    rfl
  rw [← hhash, ← huuid]
  constructor
  · exact fun hsame => (add_same hsame).1
  · rintro ⟨hmet, hbehind⟩
    rw [add_met hmet hbehind]
    exact ⟨rfl, fun _ _ => rfl, fun _ => rfl⟩

theorem Unchanged.trans {l₁ l₂ l₃ : UuidList} (h : Unchanged l₁ l₂) (h' : Unchanged l₂ l₃) : Unchanged l₁ l₃ :=
  ⟨h'.count.trans h.count, fun k u => (h'.find k u).trans (h.find k u),
    fun k => (h'.findByHash k).trans (h.findByHash k)⟩

theorem Unchanged.symm {l₁ l₂ : UuidList} (h : Unchanged l₁ l₂) : Unchanged l₂ l₁ :=
  ⟨h.count.symm, fun k u => (h.find k u).symm, fun k => (h.findByHash k).symm⟩

end

/-! ### Runs -/

section

variable {s : UuidState} {bs : List Bucket} {node : Ptr} {hashKey : UInt64} {uuid : Id}

namespace Kept

theorem absent_iff (h : Kept s bs) : Absent s uuid ↔ ∀ x ∈ nodes bs, s.list.uuid x ≠ uuid := by
  simp only [Absent, h.present.mem_iff]

theorem met_iff (h : Kept s bs) : Met s hashKey ↔ ∃ x ∈ nodes bs, s.list.hashKey x = hashKey := by
  simp only [Met, h.present.mem_iff]

theorem behind_iff (h : Kept s bs) : Behind s uuid ↔ ∃ x ∈ tails bs, s.list.uuid x = uuid := by
  simp only [Behind, h.rings.uuidTree]

theorem del_absent (h : Kept s bs) (hk : hashKey.toNat < 2 ^ 31) (habsent : Absent s uuid) :
    uuidListDel hashKey uuid s.list = some (s.list, none) ↔ ¬ Met s hashKey := by
  rw [h.rings.del_absent hk (h.absent_iff.mp habsent), h.met_iff]
  push Not
  rfl

theorem add_again (h : Kept s bs) (hnode : node ∈ s.present) :
    Unchanged s.list (uuidListAdd node s.list).1 ↔ Behind s (s.list.uuid node) := by
  have hin := h.present.mem_iff.mpr hnode
  rw [h.rings.add_unchanged (h.rings.small node hin), h.behind_iff]
  exact and_iff_right ⟨node, hin, rfl⟩

theorem add_present (h : Kept s bs) (hnode : node ∉ s.present) (hk : hashKey.toNat < 2 ^ 31) :
    Unchanged s.list (uuidListAdd node (s.list.create node hashKey uuid)).1 ↔ Met s hashKey ∧ Behind s uuid := by
  have hfresh : node ∉ nodes bs := fun hx => hnode (h.present.mem_iff.mp hx)
  have hne : ∀ x ∈ nodes bs, x ≠ node := fun x hx heq => hfresh (heq ▸ hx)
  have hcreated : Rings (s.list.create node hashKey uuid) bs := h.rings.create hfresh
  have hsame : Unchanged s.list (s.list.create node hashKey uuid) := h.rings.find_create hfresh
  have hkey : (s.list.create node hashKey uuid).hashKey node = hashKey := Function.update_self ..
  have huuid : (s.list.create node hashKey uuid).uuid node = uuid := Function.update_self ..
  have hsmall : ((s.list.create node hashKey uuid).hashKey node).toNat < 2 ^ 31 := by rwa [hkey]
  have hadd := hcreated.add_unchanged hsmall
  rw [hkey, huuid] at hadd
  have hkeys : (∃ x ∈ nodes bs, (s.list.create node hashKey uuid).hashKey x = hashKey) ↔ Met s hashKey := by
    rw [h.met_iff]
    refine exists_congr fun x => and_congr_right fun hx => ?_
    rw [show (s.list.create node hashKey uuid).hashKey x = s.list.hashKey x from Function.update_of_ne (hne x hx) ..]
  have huuids : (∃ x ∈ tails bs, (s.list.create node hashKey uuid).uuid x = uuid) ↔ Behind s uuid := by
    rw [h.behind_iff]
    refine exists_congr fun x => and_congr_right fun hx => ?_
    rw [show (s.list.create node hashKey uuid).uuid x = s.list.uuid x from
      Function.update_of_ne (hne x (Rings.tails_sub hx)) ..]
  rw [hkeys, huuids] at hadd
  rw [← hadd]
  exact ⟨hsame.symm.trans, hsame.trans⟩

/-- A sound call keeps the rings. -/
theorem call {c : UuidCall} (h : Kept s bs) (hshort : Short bs) (hlegal : c.Legal s) (hsound : c.Sound s) :
    ∃ cs, Kept (uuidCall s c) cs ∧ Short cs := by
  cases c with
  | add node hashKey uuid =>
    obtain ⟨hnode, hk⟩ := hlegal
    have hfresh : node ∉ nodes bs := fun hx => hnode (h.present.mem_iff.mp hx)
    have hcreated : Rings (s.list.create node hashKey uuid) bs := h.rings.create hfresh
    have huuid : (s.list.create node hashKey uuid).uuid node = uuid := Function.update_self ..
    by_cases habsent : Absent s uuid
    · have hnone : (s.list.create node hashKey uuid).uuidTree.find
          ((s.list.create node hashKey uuid).byUuid ((s.list.create node hashKey uuid).uuid node)) = none := by
        rw [huuid, hcreated.uuid_none]
        intro x hx
        have hin := Rings.tails_sub hx
        rw [show (s.list.create node hashKey uuid).uuid x = s.list.uuid x from
          Function.update_of_ne (fun heq : x = node => hfresh (heq ▸ hin)) ..]
        exact h.absent_iff.mp habsent x hin
      have hadded := (add_counts (.inr hnone)).2
      have hsame : uuidCall s (.add node hashKey uuid) = uuidStep s (.add node hashKey uuid) := by
        simp only [uuidCall, uuidStep, hadded, if_true]
      rw [hsame]
      exact h.step hshort ⟨hnode, hk, habsent⟩ (hsound.1 habsent)
    · have hsame : Unchanged s.list (s.list.create node hashKey uuid) := h.rings.find_create hfresh
      have hunchanged := (h.add_present hnode hk).mpr (hsound.2 habsent)
      refine ⟨bs, ?_, hshort⟩
      simp only [uuidCall, (add_same (hsame.symm.trans hunchanged)).2, Bool.false_eq_true, if_false]
      exact ⟨hcreated, h.present⟩
  | addAgain node =>
    have hunchanged := (h.add_again hlegal).mpr hsound
    refine ⟨bs, ?_, hshort⟩
    simp only [uuidCall, (add_same hunchanged).2]
    exact h
  | del hashKey uuid =>
    by_cases hmet : Met s hashKey
    · obtain ⟨x, hx, rfl, rfl⟩ := hsound hmet
      obtain ⟨l', hdel, -, -, cs, hcs, hcsShort, hperm⟩ := h.rings.del hshort (h.present.mem_iff.mpr hx)
      refine ⟨cs, ?_, hcsShort⟩
      simp only [uuidCall, hdel]
      exact ⟨hcs, hperm.trans (h.present.erase x)⟩
    · have hnone : s.list.hashTree.find (s.list.byHash hashKey) = none := by
        rw [h.met_iff] at hmet
        push Not at hmet
        exact (h.rings.head_none hlegal).mpr hmet
      have hdel : uuidListDel hashKey uuid s.list = some (s.list, none) := by simp only [uuidListDel, hnone]
      refine ⟨bs, ?_, hshort⟩
      simpa only [uuidCall, hdel] using h

end Kept

/-- While all calls are sound, a deletion of an absent uuid leaves everything as it is exactly when no node has its hash
key; and an addition of a present uuid exactly when a node has its hash key and its own node is not a first one. -/
theorem absent_uuid (next prev : Ptr → Ptr) (uuid : Ptr → Id) (hashKey : Ptr → UInt64) (listLen : Ptr → UInt32)
    (calls : List UuidCall)
    (hrun : Along uuidCall (fun s c => c.Legal s ∧ c.Sound s) (uuidStart next prev uuid hashKey listLen) calls) :
    let s := run uuidCall (uuidStart next prev uuid hashKey listLen) calls
    (∀ k u, k.toNat < 2 ^ 31 → Absent s u → (uuidListDel k u s.list = some (s.list, none) ↔ ¬ Met s k)) ∧
      (∀ node k u, node ∉ s.present → k.toNat < 2 ^ 31 → ¬ Absent s u →
        (Unchanged s.list (uuidListAdd node (s.list.create node k u)).1 ↔ Met s k ∧ Behind s u)) ∧
      ∀ node ∈ s.present, Unchanged s.list (uuidListAdd node s.list).1 ↔ Behind s (s.list.uuid node) := by
  intro s
  have hstep : ∀ s (c : UuidCall), (∃ bs, Kept s bs ∧ Short bs) → c.Legal s ∧ c.Sound s →
      ∃ bs, Kept (uuidCall s c) bs ∧ Short bs := by
    rintro s c ⟨bs, h, hshort⟩ ⟨hlegal, hsound⟩
    exact h.call hshort hlegal hsound
  have hinv : ∃ bs, Kept s bs ∧ Short bs :=
    Along.invariant hstep hrun ⟨[], kept_start .., fun b hb => absurd hb List.not_mem_nil⟩
  obtain ⟨bs, h, hshort⟩ := hinv
  exact ⟨fun k u hk habsent => h.del_absent hk habsent, fun node k u hnode hk _ => h.add_present hnode hk,
    fun node hnode => h.add_again hnode⟩

/-- Two nodes of one hash key; the second one is added again, and one of another hash key is deleted. -/
theorem absent_uuid_pair :
    let calls := [UuidCall.add 1 7 fun _ => 1, .add 2 7 fun _ => 2, .addAgain 2, .del 8 fun _ => 3]
    let s := run uuidCall (uuidStart id id (fun _ _ => 0) (fun _ => 0) fun _ => 0) calls
    (uuidListDel 8 (fun _ => 3) s.list = some (s.list, none) ↔ ¬ Met s 8) ∧
      (Unchanged s.list (uuidListAdd 2 s.list).1 ↔ Behind s (s.list.uuid 2)) := by
  intro calls s
  have hrun := absent_uuid id id (fun _ _ => 0) (fun _ => 0) (fun _ => 0) calls (by decide +kernel)
  exact ⟨hrun.1 8 _ (by decide) (by decide +kernel), hrun.2.2 2 (by decide +kernel)⟩

/-- A lone node goes in the place of an absent one with its hash key. -/
theorem absent_uuid_deleted : ¬ ∀ calls : List UuidCall,
    Along uuidCall (fun s c => c.Legal s) (uuidStart id id (fun _ _ => 0) (fun _ => 0) fun _ => 0) calls →
      let s := run uuidCall (uuidStart id id (fun _ _ => 0) (fun _ => 0) fun _ => 0) calls
      (∀ k u, k.toNat < 2 ^ 31 → Absent s u → uuidListDel k u s.list = some (s.list, none)) ∧
        ∀ node ∈ s.present, Unchanged s.list (uuidListAdd node s.list).1 := by
  intro h
  have hdel := (h [.add 1 7 fun _ => 1] (by decide +kernel)).1 7 (fun _ => 2) (by decide) (by decide +kernel)
  have hfound := congrArg (Option.map Prod.snd) hdel
  revert hfound
  decide +kernel

end

end Wenas.Uuid
