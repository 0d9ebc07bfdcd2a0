import Wenas.Uuid.Nodes

/-!
# Runs of `uuid_list`

Nodes are added under their hash keys and deleted again in any order.
-/
namespace Wenas.Uuid

open Wenas.Machine Wenas.Links Wenas.Xlib Wenas.Xtable

/-- The list and the nodes that were added and not deleted. -/
structure UuidState where
  list : UuidList
  present : List Ptr

inductive UuidEvent where
  | add (node : Ptr) (hashKey : UInt64) (uuid : Id)
  | del (node : Ptr)

def uuidStart (next prev : Ptr → Ptr) (uuid : Ptr → Id) (hashKey : Ptr → UInt64) (listLen : Ptr → UInt32) : UuidState :=
  ⟨uuidListInit next prev uuid hashKey listLen, []⟩

def uuidStep (s : UuidState) : UuidEvent → UuidState
  | .add node hashKey uuid => ⟨(uuidListAdd node (s.list.create node hashKey uuid)).1, node :: s.present⟩
  | .del node =>
    match uuidListDel (s.list.hashKey node) (s.list.uuid node) s.list with
    | some r => ⟨r.1, s.present.erase node⟩
    | none => s

/-- New nodes have hash keys of 31 bits and uuids of their own; nodes that are deleted are in the list. -/
def Proper (s : UuidState) : UuidEvent → Prop
  | .add node hashKey uuid => node ∉ s.present ∧ hashKey.toNat < 2 ^ 31 ∧ ∀ x ∈ s.present, s.list.uuid x ≠ uuid
  | .del node => node ∈ s.present

/-- The counter of the ring that is added to is not at its end. -/
def Spare (s : UuidState) : UuidEvent → Prop
  | .add _ hashKey _ => ∀ first ∈ uuidListFindByHash hashKey s.list, (s.list.listLen first).toNat + 1 < 2 ^ 32
  | .del _ => True

instance (s : UuidState) : (e : UuidEvent) → Decidable (Proper s e)
  | .add .. => inferInstanceAs (Decidable (_ ∧ _ ∧ _))
  | .del _ => inferInstanceAs (Decidable (_ ∈ _))

instance (s : UuidState) : (e : UuidEvent) → Decidable (Spare s e)
  | .add .. => inferInstanceAs (Decidable (∀ _ ∈ (_ : Option Ptr), _))
  | .del _ => inferInstanceAs (Decidable True)

/-- The nodes with a hash key: the first one is in the tree of hash keys, the others in the tree of uuids. -/
structure IsRing (s : UuidState) (hashKey : UInt64) (first : Ptr) (others : List Ptr) : Prop where
  linked : Linked s.list.next s.list.prev first others first
  nodup : (first :: others).Nodup
  mem : ∀ x, x ∈ first :: others ↔ x ∈ s.present ∧ s.list.hashKey x = hashKey
  hashTree : ∀ x, x ∈ s.list.hashTree.toList ∧ s.list.hashKey x = hashKey ↔ x = first
  uuidTree : ∀ x, x ∈ s.list.uuidTree.toList ∧ s.list.hashKey x = hashKey ↔ x ∈ others
  len : (s.list.listLen first).toNat = others.length

/-- The rings are those of the nodes present. -/
structure Kept (s : UuidState) (bs : List Bucket) : Prop where
  rings : Rings s.list bs
  present : (nodes bs).Perm s.present

variable {s : UuidState} {bs cs : List Bucket} {node x : Ptr} {hashKey : UInt64} {uuid : Id}

namespace Kept

theorem add (h : Kept s bs) (hproper : Proper s (.add node hashKey uuid)) :
    ∃ cs, Kept (uuidStep s (.add node hashKey uuid)) cs ∧
      ((∃ as first tail, bs.Perm ((first, tail) :: as) ∧ s.list.hashKey first = hashKey ∧
        cs = (first, tail ++ [node]) :: as) ∨ cs = (node, []) :: bs) := by
  obtain ⟨hfresh, hk, hnew⟩ := hproper
  have hnode : node ∉ nodes bs := fun hx => hfresh (h.present.mem_iff.mp hx)
  have hne : ∀ x ∈ nodes bs, x ≠ node := fun x hx heq => hnode (heq ▸ hx)
  have hcreated : Rings (s.list.create node hashKey uuid) bs := h.rings.create hnode
  have hkey : (s.list.create node hashKey uuid).hashKey node = hashKey := Function.update_self ..
  have huuid : (s.list.create node hashKey uuid).uuid node = uuid := Function.update_self ..
  obtain ⟨cs, hcs, hperm, hcase⟩ := hcreated.add hnode (Function.update_self ..) (Function.update_self ..)
    (Function.update_self ..) (by rwa [hkey]) (fun x hx => by
      rw [huuid, show (s.list.create node hashKey uuid).uuid x = s.list.uuid x from Function.update_of_ne (hne x hx) ..]
      exact hnew x (h.present.mem_iff.mp hx))
  refine ⟨cs, ⟨hcs, hperm.trans (h.present.cons node)⟩, hcase.imp_left ?_⟩
  rintro ⟨as, first, tail, hbs, hhash, rfl⟩
  refine ⟨as, first, tail, hbs, ?_, rfl⟩
  have hfirst : first ∈ nodes bs := Rings.first_mem (hbs.mem_iff.mpr List.mem_cons_self)
  rw [hkey] at hhash
  rw [hhash]
  exact (Function.update_of_ne (hne first hfirst) ..).symm

theorem short_add (h : Kept s bs) (hshort : Short bs) (hk : hashKey.toNat < 2 ^ 31)
    (hspare : Spare s (.add node hashKey uuid))
    (hcase : (∃ as first tail, bs.Perm ((first, tail) :: as) ∧ s.list.hashKey first = hashKey ∧
      cs = (first, tail ++ [node]) :: as) ∨ cs = (node, []) :: bs) : Short cs := by
  obtain ⟨as, first, tail, hbs, hhash, rfl⟩ | rfl := hcase
  · have hb : (first, tail) ∈ bs := hbs.mem_iff.mpr List.mem_cons_self
    have hroom := hspare first ((h.rings.head_some hk).mpr ⟨⟨_, hb, rfl⟩, hhash⟩)
    rw [h.rings.len _ hb, UInt32.toNat_ofNat', Nat.mod_eq_of_lt (hshort _ hb)] at hroom
    intro b hbc
    obtain rfl | hbc := List.mem_cons.mp hbc
    · simpa using hroom
    · exact hshort b (hbs.mem_iff.mpr (List.mem_cons_of_mem _ hbc))
  · intro b hbc
    obtain rfl | hbc := List.mem_cons.mp hbc
    · simp
    · exact hshort b hbc

theorem del (h : Kept s bs) (hshort : Short bs) (hx : node ∈ s.present) :
    ∃ cs, Kept (uuidStep s (.del node)) cs ∧ Short cs := by
  obtain ⟨l', hdel, -, -, cs, hcs, hcsShort, hperm⟩ := h.rings.del hshort (h.present.mem_iff.mpr hx)
  refine ⟨cs, ?_, hcsShort⟩
  simp only [uuidStep, hdel]
  exact ⟨hcs, hperm.trans (h.present.erase node)⟩

theorem step {e : UuidEvent} (h : Kept s bs) (hshort : Short bs) (hproper : Proper s e) (hspare : Spare s e) :
    ∃ cs, Kept (uuidStep s e) cs ∧ Short cs := by
  cases e with
  | add node hashKey uuid =>
    obtain ⟨cs, hcs, hcase⟩ := h.add hproper
    exact ⟨cs, hcs, h.short_add hshort hproper.2.1 hspare hcase⟩
  | del node => exact h.del hshort hproper

/-- The ring of a node that is present. -/
theorem isRing (h : Kept s bs) (hshort : Short bs) (hx : x ∈ s.present) :
    ∃ first others, IsRing s (s.list.hashKey x) first others := by
  obtain ⟨⟨first, tail⟩, hb, hcase, hfind⟩ := h.rings.home (h.present.mem_iff.mpr hx)
  have hfirst : s.list.hashKey first = s.list.hashKey x :=
    ((h.rings.head_some (h.rings.small x (h.present.mem_iff.mpr hx))).mp hfind).2
  have hsame : ∀ b ∈ bs, s.list.hashKey b.1 = s.list.hashKey x → b = (first, tail) := by
    intro b hbb hbk
    have hhead := (h.rings.head_some (h.rings.small x (h.present.mem_iff.mpr hx))).mpr ⟨⟨b, hbb, rfl⟩, hbk⟩
    have heq : b.1 = first := Option.some.inj (hhead.symm.trans hfind)
    by_contra hne
    obtain ⟨as, cs, rfl⟩ := List.append_of_mem hb
    have hmiddle : (as ++ (first, tail) :: cs).Perm ((first, tail) :: (as ++ cs)) := List.perm_middle
    have hbr := (List.mem_cons.mp (hmiddle.mem_iff.mp hbb)).resolve_left hne
    exact (h.rings.perm hmiddle).apart _ (Rings.first_mem hbr) (heq ▸ List.mem_cons_self)
  refine ⟨first, tail, h.rings.ring _ hb, ?_, fun y => ?_, fun y => ?_, fun y => ?_, ?_⟩
  · obtain ⟨as, cs, rfl⟩ := List.append_of_mem hb
    have hnodup : ((first :: tail) ++ nodes (as ++ cs)).Nodup := (h.rings.perm List.perm_middle).nodup
    exact hnodup.sublist (List.sublist_append_left ..)
  · constructor
    · intro hy
      refine ⟨h.present.mem_iff.mp (Rings.ring_mem hb y hy), ?_⟩
      obtain rfl | hy := List.mem_cons.mp hy
      · exact hfirst
      · exact (h.rings.hash _ hb y hy).trans hfirst
    · rintro ⟨hy, hyk⟩
      obtain ⟨b, hbb, hyb⟩ := mem_nodes.mp (h.present.mem_iff.mpr hy)
      have hbk : s.list.hashKey b.1 = s.list.hashKey x := by
        obtain rfl | hyb := hyb
        · exact hyk
        · exact (h.rings.hash b hbb y hyb).symm.trans hyk
      obtain rfl := hsame b hbb hbk
      exact List.mem_cons.mpr hyb
  · rw [h.rings.hashTree, List.mem_map]
    constructor
    · rintro ⟨⟨b, hbb, rfl⟩, hyk⟩
      rw [hsame b hbb hyk]
    · rintro rfl
      exact ⟨⟨_, hb, rfl⟩, hfirst⟩
  · rw [h.rings.uuidTree, mem_tails]
    constructor
    · rintro ⟨⟨b, hbb, hyb⟩, hyk⟩
      have hbk : s.list.hashKey b.1 = s.list.hashKey x := (h.rings.hash b hbb y hyb).symm.trans hyk
      obtain rfl := hsame b hbb hbk
      exact hyb
    · intro hy
      exact ⟨⟨_, hb, hy⟩, (h.rings.hash _ hb y hy).trans hfirst⟩
  · have hlen := h.rings.len _ hb
    dsimp only at hlen
    rw [hlen, UInt32.toNat_ofNat', Nat.mod_eq_of_lt (hshort _ hb)]

theorem nodes_length_le {n : Nat} (h : ∀ b ∈ bs, b.2.length < n) : (nodes bs).length ≤ bs.length * n := by
  induction bs with
  | nil => simp
  | cons b bs ih =>
    have hb := h b List.mem_cons_self
    have hrest := ih fun c hc => h c (List.mem_cons_of_mem _ hc)
    rw [nodes_cons, List.length_cons, List.length_append, List.length_cons, Nat.succ_mul]
    omega

/-- There is one ring for a hash key. -/
theorem hashes_nodup (h : Kept s bs) : ((bs.map Prod.fst).map s.list.hashKey).Nodup := by
  have hfirsts : (bs.map Prod.fst).Nodup := by
    refine h.rings.nodup.sublist ?_
    rw [List.map_eq_flatMap]
    exact List.Sublist.flatMap_right _ fun b _ => List.Sublist.cons_cons _ (List.nil_sublist _)
  have hperm : (bs.map Prod.fst).Perm s.list.hashTree.toList :=
    (List.perm_ext_iff_of_nodup hfirsts h.rings.hash_nodup).mpr fun x => (h.rings.hashTree x).symm
  exact ((hperm.map _).nodup_iff).mpr (h.rings.hashSorted.keys_nodup total_small h.rings.hash_keys)

theorem rings_le (h : Kept s bs) : bs.length ≤ 2 ^ 31 := by
  have hnats := h.hashes_nodup.map (fun a b hab => UInt64.toNat_inj.mp hab)
  have hsub : ((bs.map Prod.fst).map s.list.hashKey).map UInt64.toNat ⊆ List.range (2 ^ 31) := by
    intro k hk
    simp only [List.map_map, List.mem_map, Function.comp] at hk
    obtain ⟨b, hb, rfl⟩ := hk
    exact List.mem_range.mpr (h.rings.small _ (Rings.first_mem hb))
  have hle := (hnats.subperm hsub).length_le
  rwa [List.length_map, List.length_map, List.length_map, List.length_range] at hle

/-- There are fewer nodes than the 64-bit counter counts. -/
theorem count (h : Kept s bs) (hshort : Short bs) : s.list.count.toNat = s.present.length := by
  have hlen := h.present.length_eq
  have hnodes := nodes_length_le hshort
  have hmul : bs.length * 2 ^ 32 ≤ 2 ^ 31 * 2 ^ 32 := Nat.mul_le_mul_right _ h.rings_le
  rw [h.rings.count, UInt64.toNat_ofNat', hlen]
  omega

end Kept

theorem kept_start (next prev : Ptr → Ptr) (uuid : Ptr → Id) (hashKey : Ptr → UInt64) (listLen : Ptr → UInt32) :
    Kept (uuidStart next prev uuid hashKey listLen) [] where
  rings := by
    constructor
    all_goals simp [uuidStart, uuidListInit, Avl.toList, Avl.Sorted]
  present := .refl _

/-- As long as a ring has room in its counter, the rings are those of the nodes present, and a search that does not
meet its uuid under another hash key finds the node with both. -/
theorem uuid_list_rings (next prev : Ptr → Ptr) (uuid : Ptr → Id) (hashKey : Ptr → UInt64) (listLen : Ptr → UInt32)
    (es : List UuidEvent)
    (hrun : Along uuidStep (fun s e => Proper s e ∧ Spare s e) (uuidStart next prev uuid hashKey listLen) es) :
    let s := run uuidStep (uuidStart next prev uuid hashKey listLen) es
    s.list.count.toNat = s.present.length ∧
      (∀ x ∈ s.present, ∃ first others, IsRing s (s.list.hashKey x) first others) ∧
      (∀ x ∈ s.list.hashTree.toList, x ∈ s.present) ∧ (∀ x ∈ s.list.uuidTree.toList, x ∈ s.present) ∧
      (∀ x ∈ s.present, ∃ l', uuidListDel (s.list.hashKey x) (s.list.uuid x) s.list = some (l', some x)) ∧
      ∀ k u x, k.toNat < 2 ^ 31 →
        (∀ y ∈ s.list.uuidTree.toList, s.list.uuid y = u →
          s.list.hashKey y = k ∨ ∀ z ∈ s.list.uuidTree.toList, s.list.hashKey z ≠ k) →
        (uuidListFind k u s.list = some x ↔ x ∈ s.present ∧ s.list.hashKey x = k ∧ s.list.uuid x = u) := by
  intro s
  have hstep : ∀ s e, (∃ bs, Kept s bs ∧ Short bs) → Proper s e ∧ Spare s e → ∃ bs, Kept (uuidStep s e) bs ∧
      Short bs := by
    rintro s e ⟨bs, h, hshort⟩ ⟨hproper, hspare⟩
    exact h.step hshort hproper hspare
  have hinv : ∃ bs, Kept s bs ∧ Short bs :=
    Along.invariant hstep hrun ⟨[], kept_start .., fun b hb => absurd hb List.not_mem_nil⟩
  obtain ⟨bs, h, hshort⟩ := hinv
  refine ⟨h.count hshort, fun x hx => h.isRing hshort hx, fun x hx => ?_, fun x hx => ?_, fun x hx => ?_,
    fun k u x hk hone => ?_⟩
  · obtain ⟨b, hb, rfl⟩ := List.mem_map.mp ((h.rings.hashTree x).mp hx)
    exact h.present.mem_iff.mp (Rings.first_mem hb)
  · exact h.present.mem_iff.mp (Rings.tails_sub ((h.rings.uuidTree x).mp hx))
  · obtain ⟨l', hdel, -⟩ := h.rings.del hshort (h.present.mem_iff.mpr hx)
    exact ⟨l', hdel⟩
  · rw [h.rings.find hshort hk, h.present.mem_iff]
    intro y hy hyu
    obtain hyk | hall := hone y ((h.rings.uuidTree y).mpr hy) hyu
    · exact .inl hyk
    · exact .inr fun z hz => hall z ((h.rings.uuidTree z).mpr hz)

/-- Three nodes of one hash key and one of another; the first two of the ring go. -/
theorem uuid_list_rings_sample :
    let es := [UuidEvent.add 1 7 fun _ => 1, .add 2 7 fun _ => 2, .add 3 7 fun _ => 3, .add 4 8 fun _ => 4,
      .del 1, .del 2]
    let s := run uuidStep (uuidStart id id (fun _ _ => 0) (fun _ => 0) fun _ => 0) es
    s.list.count.toNat = s.present.length ∧ ∀ x ∈ s.present, ∃ first others,
      IsRing s (s.list.hashKey x) first others := by
  intro es s
  have hrun := uuid_list_rings id id (fun _ _ => 0) (fun _ => 0) (fun _ => 0) es (by decide +kernel)
  exact ⟨hrun.1, hrun.2.1⟩

/-! ### Rings that are too long -/

theorem uuidListAdd_keys (node : Ptr) (l : UuidList) :
    (uuidListAdd node l).1.uuid = l.uuid ∧ (uuidListAdd node l).1.hashKey = l.hashKey := by
  rw [uuidListAdd]
  repeat' split
  all_goals exact ⟨rfl, rfl⟩

def numbered (i : Nat) : Id := fun j => if j = 0 then UInt64.ofNat i else 0

/-- So many nodes of the hash key 0. -/
def crowd (n : Nat) : List UuidEvent := (List.range n).map fun i => .add i 0 (numbered i)

theorem crowd_run (s₀ : UuidState) (hstart : Kept s₀ []) {n : Nat} (hn : n ≤ 2 ^ 64) :
    Along uuidStep Proper s₀ (crowd n) ∧ (∃ bs, Kept (run uuidStep s₀ (crowd n)) bs) ∧
      (run uuidStep s₀ (crowd n)).present = (List.range n).reverse ∧ ∀ x < n,
        (run uuidStep s₀ (crowd n)).list.uuid x = numbered x ∧ (run uuidStep s₀ (crowd n)).list.hashKey x = 0 := by
  induction n with
  | zero => exact ⟨trivial, ⟨[], hstart⟩, (List.nil_perm.mp hstart.present), by simp⟩
  | succ n ih =>
    obtain ⟨halong, ⟨bs, hkept⟩, hpresent, hkeys⟩ := ih (by omega)
    have hcrowd : crowd (n + 1) = crowd n ++ [.add n 0 (numbered n)] := by
      rw [crowd, List.range_succ, List.map_append]
      rfl
    rw [hcrowd, run_append, Along.append]
    generalize run uuidStep s₀ (crowd n) = s at hkept hpresent hkeys
    obtain ⟨huuid, hhash⟩ := uuidListAdd_keys n (s.list.create n 0 (numbered n))
    have hproper : Proper s (.add n 0 (numbered n)) := by
      refine ⟨by simp [hpresent], by decide, fun x hx => ?_⟩
      rw [hpresent, List.mem_reverse, List.mem_range] at hx
      rw [(hkeys x hx).1]
      intro heq
      have hzero := congrArg UInt64.toNat (congrFun heq 0)
      simp only [numbered, if_true, UInt64.toNat_ofNat'] at hzero
      omega
    obtain ⟨cs, hcs, -⟩ := hkept.add hproper
    refine ⟨⟨halong, hproper, trivial⟩, ⟨cs, hcs⟩, ?_, fun x hx => ?_⟩
    · rw [List.range_succ, List.reverse_append, ← hpresent]
      rfl
    · show (uuidListAdd n _).1.uuid x = _ ∧ (uuidListAdd n _).1.hashKey x = _
      rw [huuid, hhash]
      by_cases hxn : x = n
      · subst hxn
        exact ⟨Function.update_self .., Function.update_self ..⟩
      · have hold := hkeys x (by omega)
        exact ⟨(Function.update_of_ne hxn ..).trans hold.1, (Function.update_of_ne hxn ..).trans hold.2⟩

theorem Kept.one_ring (h : Kept s bs) (hx : x ∈ s.list.hashTree.toList)
    (hhash : ∀ y ∈ s.present, s.list.hashKey y = 0) :
    ∃ tail, bs = [(x, tail)] ∧ s.present.length = tail.length + 1 := by
  have hnodup := h.hashes_nodup
  have hzero : ∀ k ∈ (bs.map Prod.fst).map s.list.hashKey, k = 0 := by
    intro k hk
    simp only [List.map_map, List.mem_map, Function.comp] at hk
    obtain ⟨b, hb, rfl⟩ := hk
    exact hhash _ (h.present.mem_iff.mp (Rings.first_mem hb))
  have hin := (h.rings.hashTree x).mp hx
  match bs with
  | [] => simp at hin
  | [b] =>
    obtain rfl : x = b.1 := by simpa using hin
    refine ⟨b.2, rfl, ?_⟩
    rw [← h.present.length_eq]
    simp
  | b :: c :: bs =>
    simp only [List.map_cons, List.mem_cons, forall_eq_or_imp, List.nodup_cons] at hzero hnodup
    exact absurd (.inl (hzero.1.trans hzero.2.1.symm)) hnodup.1

/-- The counter of a ring of 2 ^ 32 + 1 nodes is 0; and a search can find a node of another hash key. -/
theorem rings_fail :
    (∃ es, Along uuidStep Proper (uuidStart id id (fun _ => numbered 0) (fun _ => 0) fun _ => 0) es ∧
      let s := run uuidStep (uuidStart id id (fun _ => numbered 0) (fun _ => 0) fun _ => 0) es
      s.present.length = 2 ^ 32 + 1 ∧ ∀ x ∈ s.list.hashTree.toList, s.list.listLen x = 0) ∧
    (∃ es, Along uuidStep Proper (uuidStart id id (fun _ => numbered 0) (fun _ => 0) fun _ => 0) es ∧
      let s := run uuidStep (uuidStart id id (fun _ => numbered 0) (fun _ => 0) fun _ => 0) es
      uuidListFind 0 (numbered 4) s.list = some 4 ∧ s.list.hashKey 4 ≠ 0) := by
  constructor
  · obtain ⟨n, hn⟩ : ∃ n : Nat, n = 2 ^ 32 := ⟨_, rfl⟩
    obtain ⟨hrun, ⟨bs, hkept⟩, hpresent, hkeys⟩ := crowd_run _
      (kept_start id id (fun _ => numbered 0) (fun _ => 0) fun _ => 0) (n := n + 1) (by omega)
    refine ⟨crowd (n + 1), hrun, ?_⟩
    generalize run uuidStep _ (crowd (n + 1)) = s at hkept hpresent hkeys
    refine ⟨by rw [hpresent, List.length_reverse, List.length_range, hn], fun x hx => ?_⟩
    obtain ⟨tail, rfl, htail⟩ := hkept.one_ring hx (fun y hy => by
      rw [hpresent, List.mem_reverse, List.mem_range] at hy
      exact (hkeys y hy).2)
    rw [hkept.rings.len (x, tail) List.mem_cons_self]
    have hlen : tail.length = n := by
      rw [hpresent, List.length_reverse, List.length_range] at htail
      omega
    rw [hlen, hn]
    rfl
  · refine ⟨[.add 1 0 (numbered 1), .add 2 0 (numbered 2), .add 3 1 (numbered 3), .add 4 1 (numbered 4)], ?_⟩
    decide +kernel

end Wenas.Uuid
