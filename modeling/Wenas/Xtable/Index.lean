import Wenas.Lib.Machine
import Wenas.Xtable.Table

/-!
# `index_table`

The keys are 64-bit numbers, and the tree compares them by an `int`. The table is a map from the keys to the nodes as
long as this comparison orders the keys that meet in the tree.
-/
namespace Wenas.Xtable

open Wenas.Machine Wenas.Links Wenas.Xlib

/-- `number_compare`, the same in `xtable.c` and `uuid.c`. -/
def numberCompare (a b : UInt64) : Int := (a - b).toUInt32.toInt32.toInt

/-- The distance from `base` to the low half of a number, on the circle of the 32-bit numbers. -/
def ahead (base : UInt32) (a : UInt64) : Nat := (a.toUInt32 - base).toNat

theorem numberCompare_eq (a b : UInt64) : numberCompare a b = (ahead b.toUInt32 a : Int).bmod (2 ^ 32) := by
  rw [numberCompare, Int32.toInt, UInt32.toBitVec_toInt32, BitVec.toInt_eq_toNat_bmod, UInt32.toNat_toBitVec, ahead,
    UInt64.toNat_toUInt32, UInt64.toNat_sub, UInt32.toNat_sub, UInt64.toNat_toUInt32, UInt64.toNat_toUInt32]
  have hb := b.toNat_lt
  congr 2
  omega

theorem numberCompare_low {base : UInt32} {a b : UInt64} (ha : ahead base a < 2 ^ 31) (hb : ahead base b < 2 ^ 31) :
    numberCompare a b = (ahead base a : Int) - ahead base b := by
  have ha' := a.toUInt32.toNat_lt
  have hb' := b.toUInt32.toNat_lt
  rw [numberCompare_eq]
  simp only [ahead, UInt32.toNat_sub, Int.bmod] at ha hb ⊢
  omega

theorem numberCompare_neg {a b : UInt64} (h : 0 < numberCompare a b) : ahead b.toUInt32 a < 2 ^ 31 := by
  have hlt := (a.toUInt32 - b.toUInt32).toNat_lt
  rw [numberCompare_eq, Int.bmod] at h
  rw [ahead] at h ⊢
  omega

/-- The comparison orders the keys exactly when their low halves are different and lie in one half of the circle. -/
theorem total_iff {S : UInt64 → Prop} : Avl.Total numberCompare S ↔
    (∀ a b, S a → S b → a.toUInt32 = b.toUInt32 → a = b) ∧ ∃ base, ∀ a, S a → ahead base a < 2 ^ 31 := by
  constructor
  · intro h
    refine ⟨fun a b ha hb heq => (h.eq_zero ha hb).mp ?_, ?_⟩
    · rw [numberCompare_eq, ahead, heq]
      simp
    · by_cases hnone : ∀ a, ¬ S a
      · exact ⟨0, fun a ha => absurd ha (hnone a)⟩
      push Not at hnone
      -- the first of the keys is where the half begins
      obtain ⟨first, hfirst, hleast⟩ : ∃ first, S first ∧ ∀ a, S a → 0 ≤ numberCompare a first := by
        have hwf : WellFounded fun a b => S a ∧ S b ∧ numberCompare a b < 0 := by
          have : Finite UInt64 := Finite.of_injective (fun a => (⟨a.toNat, a.toNat_lt⟩ : Fin (2 ^ 64)))
            fun a b heq => UInt64.toNat_inj.mp (Fin.ext_iff.mp heq)
          have : IsTrans UInt64 fun a b => S a ∧ S b ∧ numberCompare a b < 0 :=
            ⟨fun a b c hab hbc => ⟨hab.1, hbc.2.1, h.trans a b c hab.1 hab.2.1 hbc.2.1 hab.2.2 hbc.2.2⟩⟩
          have : Std.Irrefl fun a b => S a ∧ S b ∧ numberCompare a b < 0 :=
            ⟨fun a ha => absurd (h.refl a ha.1) (Int.ne_of_lt ha.2.2)⟩
          exact Finite.wellFounded_of_trans_of_irrefl _
        obtain ⟨first, hfirst, hleast⟩ := hwf.has_min {a | S a} hnone
        exact ⟨first, hfirst, fun a ha => not_lt.mp fun hlt => hleast a ha ⟨ha, hfirst, hlt⟩⟩
      refine ⟨first.toUInt32, fun a ha => ?_⟩
      obtain hlt | heq := lt_or_eq_of_le (hleast a ha)
      · exact numberCompare_neg hlt
      · rw [(h.eq_zero ha hfirst).mp heq.symm, ahead, sub_self]
        decide
  · rintro ⟨hinj, base, hhalf⟩
    refine Avl.Total.of_order (ahead base) (fun a b ha hb heq => hinj a b ha hb ?_) (fun a b ha hb => ?_)
      fun a b ha hb => ?_
    · exact sub_left_inj.mp (UInt32.toNat_inj.mp heq)
    · rw [numberCompare_low (hhalf a ha) (hhalf b hb)]
      omega
    · rw [numberCompare_low (hhalf a ha) (hhalf b hb)]
      omega

/-- Numbers of 31 bits are compared as numbers. -/
theorem total_small : Avl.Total numberCompare fun a => a.toNat < 2 ^ 31 := by
  refine total_iff.mpr ⟨fun a b ha hb heq => ?_, 0, fun a ha => ?_⟩
  · have hlow := congrArg UInt32.toNat heq
    rw [UInt64.toNat_toUInt32, UInt64.toNat_toUInt32] at hlow
    exact UInt64.toNat_inj.mp (by omega)
  · rw [ahead, UInt32.sub_zero, UInt64.toNat_toUInt32]
    omega

def indexKeys : Keys UInt64 where
  hash k := k
  compare := numberCompare
  differ a b := a ≠ b
  agree a b := a = b

theorem indexKeys_lawful : indexKeys.Lawful fun _ => True where
  refl a _ := by simp [indexKeys, numberCompare_eq, ahead]
  differ a b _ _ := by simp [indexKeys]
  agree a b _ _ := by simp [indexKeys]

/-- `index_table_t`, and the nodes that were taken in and not taken out. -/
structure IndexTable where
  table : Table UInt64
  members : List Ptr

def indexTableInit (size : UInt32) (index : Ptr → UInt64) : IndexTable := ⟨.init size index, []⟩

def Table.setIndex (node : Ptr) (index : UInt64) (t : Table UInt64) : Table UInt64 :=
  { t with key := Function.update t.key node index }

/-- `index_table_add` for a node with this `index`. -/
def indexTableAdd (node : Ptr) (index : UInt64) (s : IndexTable) : IndexTable :=
  let r := (s.table.setIndex node index).add indexKeys node
  ⟨r.1, if r.2 then node :: s.members else s.members⟩

/-- `index_table_del`, which reads only the `index` of the node it is given. -/
def indexTableDel (index : UInt64) (s : IndexTable) : IndexTable × Option Ptr :=
  let r := s.table.del indexKeys index
  (⟨r.1, r.2.elim s.members s.members.erase⟩, r.2)

def indexTableFind (index : UInt64) (s : IndexTable) : Option Ptr := s.table.find indexKeys index

inductive IndexEvent where
  | add (node : Ptr) (index : UInt64)
  | del (index : UInt64)
  | find (index : UInt64)
  deriving DecidableEq

def IndexEvent.index : IndexEvent → UInt64
  | .add _ index => index
  | .del index => index
  | .find index => index

def indexStep (s : IndexTable) : IndexEvent → IndexTable
  | .add node index => indexTableAdd node index s
  | .del index => (indexTableDel index s).1
  | .find _ => s

def indexResult (s : IndexTable) : IndexEvent → Option Ptr
  | .add .. => none
  | .del index => (indexTableDel index s).2
  | .find index => indexTableFind index s

/-- What the table is for: a finite map from keys to nodes that keeps the first node of a key. -/
abbrev NodeMap := Finmap fun _ : UInt64 => Ptr

def nodeStep (m : NodeMap) : IndexEvent → NodeMap
  | .add node index => if index ∈ m then m else m.insert index node
  | .del index => m.erase index
  | .find _ => m

def nodeResult (m : NodeMap) : IndexEvent → Option Ptr
  | .add .. => none
  | .del index => m.lookup index
  | .find index => m.lookup index

/-- A node in the table keeps its key. -/
def Handed (s : IndexTable) : IndexEvent → Prop
  | .add node index => node ≠ head ∧ (node ∈ s.members → s.table.key node = index)
  | _ => True

/-- The counter of the bucket that is added to is not at its end. -/
def Roomy (s : IndexTable) : IndexEvent → Prop
  | .add _ index => ∀ first ∈ s.table.table (s.table.pos indexKeys index), (s.table.listLen first).toNat + 1 < 2 ^ 32
  | _ => True

/-- A call that goes past the first node of its bucket to the tree finds the keys there and its own ordered by
`number_compare`. -/
def Comparable (s : IndexTable) : IndexEvent → Prop
  | .add _ index => ∀ first ∈ s.table.table (s.table.pos indexKeys index), s.table.key first ≠ index →
      s.table.Ordered indexKeys index
  | .del index => ∀ first ∈ s.table.table (s.table.pos indexKeys index), s.table.listLen first ≠ 0 →
      s.table.key first ≠ index → s.table.Ordered indexKeys index
  | .find index => ∀ first ∈ s.table.table (s.table.pos indexKeys index), s.table.key first ≠ index →
      s.table.Ordered indexKeys index

structure NodesHeld (s : IndexTable) (m : NodeMap) : Prop where
  shape : ∃ bs, Shape indexKeys (fun _ => True) s.table bs ∧ (nodes bs).Perm s.members
  lookup : ∀ k x, m.lookup k = some x ↔ x ∈ s.members ∧ s.table.key x = k

namespace NodesHeld

variable {s : IndexTable} {m : NodeMap} {node : Ptr} {index : UInt64}

theorem mem_iff (h : NodesHeld s m) : index ∈ m ↔ ∃ x ∈ s.members, s.table.key x = index := by
  rw [Finmap.mem_iff]
  exact exists_congr fun x => h.lookup index x

theorem add (h : NodesHeld s m) (hhanded : Handed s (.add node index)) (hroom : Roomy s (.add node index))
    (hc : Comparable s (.add node index)) :
    NodesHeld (indexTableAdd node index s) (nodeStep m (.add node index)) := by
  obtain ⟨bs, hshape, hperm⟩ := h.shape
  obtain ⟨hhead, hkeep⟩ := hhanded
  have hkey : ∀ x ∈ s.members, (s.table.setIndex node index).key x = s.table.key x := by
    intro x hx
    by_cases hxn : x = node
    · subst hxn
      exact (Function.update_self ..).trans (hkeep hx).symm
    · exact Function.update_of_ne hxn ..
  have hwritten : Shape indexKeys (fun _ => True) (s.table.setIndex node index) bs :=
    hshape.congr rfl rfl rfl rfl (fun _ _ => rfl) (fun x hx => hkey x (hperm.mem_iff.mp hx)) (fun _ _ => rfl)
      fun _ _ => rfl
  have hself : (s.table.setIndex node index).key node = index := Function.update_self ..
  have hc' : ∀ first ∈ (s.table.setIndex node index).table
      ((s.table.setIndex node index).pos indexKeys ((s.table.setIndex node index).key node)),
      (s.table.setIndex node index).key first ≠ (s.table.setIndex node index).key node →
        (s.table.setIndex node index).Ordered indexKeys ((s.table.setIndex node index).key node) := by
    rw [hself]
    intro first hfirst hne
    obtain ⟨b, hb, rfl, -⟩ := hshape.home _ _ hfirst
    rw [hkey _ (hperm.mem_iff.mp (mem_nodes.mpr ⟨b, hb, .inl rfl⟩))] at hne
    refine (hc b.1 hfirst hne).mono ?_
    rintro a (rfl | ⟨x, hx, rfl⟩)
    · exact .inl rfl
    · exact .inr ⟨x, hx, (hkey x (hperm.mem_iff.mp (hshape.mem_of_tree hx))).symm⟩
  by_cases hin : index ∈ m
  · obtain ⟨x, hx, hxkey⟩ := h.mem_iff.mp hin
    have hadd := hwritten.add_present (p := node) indexKeys_lawful trivial hc' (hperm.mem_iff.mpr hx)
      ((hkey x hx).trans (hxkey.trans hself.symm))
    simp only [nodeStep, if_pos hin, indexTableAdd, hadd, Bool.false_eq_true, if_false]
    refine ⟨⟨bs, hwritten, hperm⟩, fun k y => (h.lookup k y).trans (and_congr_right fun hy => ?_)⟩
    dsimp only
    rw [hkey y hy]
  · have hnew : ∀ x ∈ nodes bs, (s.table.setIndex node index).key x ≠ (s.table.setIndex node index).key node := by
      intro x hx heq
      have hxm := hperm.mem_iff.mp hx
      exact hin (h.mem_iff.mpr ⟨x, hxm, (hkey x hxm).symm.trans (heq.trans hself)⟩)
    have hfresh : ∀ x ∈ s.members, x ≠ node := by
      rintro x hx rfl
      exact hnew x (hperm.mem_iff.mpr hx) rfl
    obtain ⟨hok, hkeys, cs, hgrown, hcs⟩ := hwritten.add_new (p := node) indexKeys_lawful hhead trivial
      hc' hnew (fun first hfirst => hroom first (by rwa [hself] at hfirst))
    simp only [nodeStep, if_neg hin, indexTableAdd, hok, if_true]
    refine ⟨⟨cs, hgrown, hcs.trans (hperm.cons node)⟩, fun k x => ?_⟩
    dsimp only at hkeys ⊢
    rw [hkeys, List.mem_cons]
    by_cases hk : k = index
    · subst hk
      rw [Finmap.lookup_insert]
      constructor
      · rintro ⟨⟩
        exact ⟨.inl rfl, hself⟩
      · rintro ⟨rfl | hx, hxkey⟩
        · rfl
        · exact absurd (h.mem_iff.mpr ⟨x, hx, (hkey x hx).symm.trans hxkey⟩) hin
    · rw [Finmap.lookup_insert_of_ne _ hk, h.lookup]
      constructor
      · rintro ⟨hx, hxkey⟩
        exact ⟨.inr hx, (hkey x hx).trans hxkey⟩
      · rintro ⟨rfl | hx, hxkey⟩
        · exact absurd (hxkey.symm.trans hself) hk
        · exact ⟨hx, (hkey x hx).symm.trans hxkey⟩

theorem del (h : NodesHeld s m) (hc : Comparable s (.del index)) :
    (indexTableDel index s).2 = m.lookup index ∧ NodesHeld (indexTableDel index s).1 (m.erase index) := by
  obtain ⟨bs, hshape, hperm⟩ := h.shape
  by_cases hin : index ∈ m
  · obtain ⟨x, hx, rfl⟩ := h.mem_iff.mp hin
    have hxn := hperm.mem_iff.mpr hx
    obtain ⟨hdel, hkeys, cs, hshrunk, hcs⟩ := hshape.del_present indexKeys_lawful hxn hc
    have hnodup : s.members.Nodup := hperm.nodup hshape.nodup
    simp only [indexTableDel, hdel, (h.lookup _ x).mpr ⟨hx, rfl⟩, Option.elim_some, true_and]
    refine ⟨⟨cs, hshrunk, hcs.trans (hperm.erase x)⟩, fun k y => ?_⟩
    dsimp only at hkeys ⊢
    rw [hkeys, hnodup.mem_erase_iff]
    by_cases hk : k = s.table.key x
    · subst hk
      rw [Finmap.lookup_erase]
      simp only [reduceCtorEq, false_iff]
      rintro ⟨⟨hne, hy⟩, hykey⟩
      exact hne (hshape.key_inj (hperm.mem_iff.mpr hy) hxn hykey)
    · rw [Finmap.lookup_erase_ne hk, h.lookup]
      refine and_congr_left fun hykey => ⟨fun hy => ⟨?_, hy⟩, And.right⟩
      rintro rfl
      exact hk hykey.symm
  · have hnot : ∀ x ∈ nodes bs, s.table.key x ≠ index := fun x hx heq =>
      hin (h.mem_iff.mpr ⟨x, hperm.mem_iff.mp hx, heq⟩)
    have hdel := hshape.del_absent indexKeys_lawful trivial hc hnot
    have herase : m.erase index = m := Finmap.ext_lookup fun k => by
      by_cases hk : k = index
      · rw [hk, Finmap.lookup_erase, Finmap.lookup_eq_none.mpr hin]
      · exact Finmap.lookup_erase_ne hk
    simp only [indexTableDel, hdel, herase, Finmap.lookup_eq_none.mpr hin, Option.elim_none, true_and]
    exact h

theorem find (h : NodesHeld s m) (hc : Comparable s (.find index)) : indexTableFind index s = m.lookup index := by
  obtain ⟨bs, hshape, hperm⟩ := h.shape
  ext x
  rw [indexTableFind, hshape.find_some indexKeys_lawful trivial hc, h.lookup, hperm.mem_iff]

theorem step {e : IndexEvent} (h : NodesHeld s m) (hhanded : Handed s e) (hroom : Roomy s e) (hc : Comparable s e) :
    indexResult s e = nodeResult m e ∧ NodesHeld (indexStep s e) (nodeStep m e) := by
  cases e with
  | add node index => exact ⟨rfl, h.add hhanded hroom hc⟩
  | del index => exact h.del hc
  | find index => exact ⟨h.find hc, h⟩

end NodesHeld

theorem nodesHeld_init (size : UInt32) (index : Ptr → UInt64) : NodesHeld (indexTableInit size index) ∅ where
  shape := ⟨[], shape_init size index, .refl _⟩
  lookup := by simp [indexTableInit]

/-- The 64-bit `count` is no more than the calls. -/
theorem index_count_le (size : UInt32) (index : Ptr → UInt64) (es : List IndexEvent) :
    (run indexStep (indexTableInit size index) es).table.count ≤ es.length := by
  have hstep : ∀ n (s : IndexTable) e, s.table.count ≤ n → (indexStep s e).table.count ≤ n + 1 := by
    intro n s e hn
    cases e with
    | add node index => exact count_add_le.trans (Nat.succ_le_succ hn)
    | del index => exact (count_del_le.trans hn).trans (Nat.le_succ n)
    | find index => exact Nat.le_succ_of_le hn
  have hcount := run_within (P := fun n (s : IndexTable) => s.table.count ≤ n) hstep es
    (s := indexTableInit size index) (n := 0) (Nat.le_refl 0)
  rwa [Nat.zero_add] at hcount

/-- As long as `number_compare` orders the keys that meet in the tree, every lookup gives the node of the key. -/
theorem index_table_map (size : UInt32) (index : Ptr → UInt64) (es : List IndexEvent)
    (hrun : Along indexStep (fun s e => Handed s e ∧ Roomy s e ∧ Comparable s e) (indexTableInit size index) es) :
    results indexStep indexResult (indexTableInit size index) es = results nodeStep nodeResult ∅ es ∧
      NodesHeld (run indexStep (indexTableInit size index) es) (run nodeStep ∅ es) := by
  have hstep : ∀ s m e, NodesHeld s m → Handed s e ∧ Roomy s e ∧ Comparable s e →
      indexResult s e = nodeResult m e ∧ NodesHeld (indexStep s e) (nodeStep m e) :=
    fun s m e h hok => h.step hok.1 hok.2.1 hok.2.2
  exact Along.simulation hstep hrun (nodesHeld_init size index)

end Wenas.Xtable
