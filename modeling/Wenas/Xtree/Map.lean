import Mathlib
import Wenas.Lib.Machine
import Wenas.Xtree.Tree

/-!
# Runs of the tree

The tree beside a finite map from keys to mappings, for keys of 1 to 255 bytes. An addition of a present key counts it
twice, and a deletion of an absent key that other keys begin with takes one of them off the counters.
-/
namespace Wenas.Xtree
open Wenas.Machine

variable {V : Type}

inductive TreeEvent (V : Type) where
  | add (key : List UInt8) (mapping : V) (calloc : Nat → Bool)
  | del (key : List UInt8)
  | find (key : List UInt8)

def keylen (key : List UInt8) : UInt8 := UInt8.ofNat key.length

def treeStep (root : Tree V) : TreeEvent V → Tree V
  | .add key mapping calloc => (xtreeAdd calloc key (keylen key) mapping root).1
  | .del key => (xtreeDel key (keylen key) root).1
  | .find _ => root

/-- An addition that returns a place returns that of its mapping. -/
def treeResult (root : Tree V) : TreeEvent V → Option V
  | .add key mapping calloc => if (xtreeAdd calloc key (keylen key) mapping root).2 then some mapping else none
  | .del key => (xtreeDel key (keylen key) root).2
  | .find key => xtreeFind key (keylen key) root

/-- What a tree is for. -/
abbrev KeyMap (V : Type) := Finmap fun _ : List UInt8 => V

def mapStep (m : KeyMap V) : TreeEvent V → KeyMap V
  | .add key mapping _ => m.insert key mapping
  | .del key => m.erase key
  | .find _ => m

def mapResult (m : KeyMap V) : TreeEvent V → Option V
  | .add _ mapping _ => some mapping
  | .del key => m.lookup key
  | .find key => m.lookup key

def TreeEvent.key : TreeEvent V → List UInt8
  | .add key .. => key
  | .del key => key
  | .find key => key

/-- Keys have 1 to 255 bytes. -/
def Called (_ : Tree V) (e : TreeEvent V) : Prop := 0 < e.key.length ∧ e.key.length < 256

/-- A key that is added is absent, and `calloc` does not fail; a key that is deleted is present, or has no node. -/
def Fits (root : Tree V) : TreeEvent V → Prop
  | .add key _ calloc => xtreeFind key (keylen key) root = none ∧ ∀ d < (path key).length, calloc d = true
  | .del key => (xtreeFind key (keylen key) root).isSome ∨ (root.nodeAt (path key)).isNull
  | .find _ => True

/-- The keys of a map whose path runs through `p`. -/
def through (m : KeyMap V) (p : List Nibble) : Finset (List UInt8) := m.keys.filter fun key => p <+: path key

instance (root : Tree V) (e : TreeEvent V) : Decidable (Called root e) := inferInstanceAs (Decidable (_ ∧ _))

instance (root : Tree V) : (e : TreeEvent V) → Decidable (Fits root e)
  | .add key _ calloc => decidable_of_iff ((xtreeFind key (keylen key) root).isNone ∧
      ∀ d < (path key).length, calloc d = true) (and_congr_left' Option.isNone_iff_eq_none)
  | .del _ => inferInstanceAs (Decidable (_ ∨ _))
  | .find _ => .isTrue trivial

/-! ### The tree and the map -/

theorem take_keylen {key : List UInt8} (h : key.length < 256) : key.take (keylen key).toNat = key := by
  rw [keylen, UInt8.toNat_ofNat', Nat.mod_eq_of_lt h, List.take_length]

/-- The tree has the keys of the map. -/
structure Holds (root : Tree V) (m : KeyMap V) : Prop where
  counted : root.Counted
  lookup : ∀ key, root.lookup (path key) = m.lookup key
  paths : ∀ p, (root.lookup p).isSome → ∃ key, p = path key

theorem holds_create : Holds (Tree.create : Tree V) ∅ where
  counted := Tree.counted_create
  lookup := by simp
  paths := by simp

namespace Holds

variable {root : Tree V} {m : KeyMap V} {key : List UInt8} {mapping : V} {calloc : Nat → Bool}

theorem find (h : Holds root m) (hlen : key.length < 256) : xtreeFind key (keylen key) root = m.lookup key := by
  rw [xtreeFind, take_keylen hlen]
  exact h.lookup key

theorem add (h : Holds root m) (hlen : key.length < 256) (hfits : Fits root (.add key mapping calloc)) :
    treeResult root (.add key mapping calloc) = some mapping ∧
      Holds (treeStep root (.add key mapping calloc)) (m.insert key mapping) := by
  obtain ⟨hfind, hcalloc⟩ := hfits
  rw [xtreeFind, take_keylen hlen] at hfind
  have hadded := Tree.addPath_added (v := mapping) h.counted.not_null hcalloc
  have hadd : ∀ q, (root.addPath mapping calloc (path key)).1.lookup q =
      if q = path key then some mapping else root.lookup q := by
    intro q
    rw [Tree.lookup_addPath h.counted.not_null]
    simp [hadded]
  simp only [treeResult, treeStep, xtreeAdd, take_keylen hlen, hadded, if_true, true_and]
  refine ⟨(h.counted.add hcalloc hfind).1, fun other => ?_, fun p hp => ?_⟩
  · rw [hadd]
    by_cases heq : other = key
    · rw [heq, if_pos rfl, Finmap.lookup_insert]
    · rw [if_neg fun hpath => heq (path_inj hpath), Finmap.lookup_insert_of_ne _ heq, h.lookup]
  · rw [hadd] at hp
    split at hp
    · exact ⟨key, by assumption⟩
    · exact h.paths p hp

theorem del (h : Holds root m) (hcall : Called root (.del key)) (hfits : Fits root (.del key)) :
    treeResult root (.del key) = m.lookup key ∧ Holds (treeStep root (.del key)) (m.erase key) := by
  have hlen : key.length < 256 := hcall.2
  simp only [Fits, xtreeFind, take_keylen hlen] at hfits
  simp only [treeResult, treeStep, xtreeDel, take_keylen hlen]
  by_cases hnull : (root.nodeAt (path key)).isNull
  · have habsent : m.lookup key = none := by
      rw [← h.lookup, Tree.lookup, Tree.isNull_iff.mp hnull]
      rfl
    simp only [hnull, if_true, habsent, true_and]
    refine ⟨h.counted, fun other => ?_, h.paths⟩
    by_cases heq : other = key
    · rw [heq, Finmap.lookup_erase, h.lookup, habsent]
    · rw [Finmap.lookup_erase_ne heq, h.lookup]
  · simp only [hnull, Bool.false_eq_true, if_false]
    refine ⟨h.lookup key, ?_⟩
    have hne : path key ≠ [] := fun hnil => by
      rw [path_eq_nil.mp hnil] at hcall
      exact Nat.lt_irrefl 0 hcall.1
    obtain ⟨hdel, hcounted⟩ := h.counted.delRoot (hfits.resolve_right hnull) hne
    refine ⟨hcounted, fun other => ?_, fun p hp => ?_⟩
    · rw [hdel]
      by_cases heq : other = key
      · rw [heq, if_pos rfl, Finmap.lookup_erase]
      · rw [if_neg fun hpath => heq (path_inj hpath), Finmap.lookup_erase_ne heq, h.lookup]
    · rw [hdel] at hp
      split at hp
      · cases hp
      · exact h.paths p hp

theorem step {e : TreeEvent V} (h : Holds root m) (hcall : Called root e) (hfits : Fits root e) :
    treeResult root e = mapResult m e ∧ Holds (treeStep root e) (mapStep m e) := by
  cases e with
  | add key mapping calloc => exact h.add hcall.2 hfits
  | del key => exact h.del hcall hfits
  | find key => exact ⟨h.find hcall.2, h⟩

/-- The keys below a node are those whose path runs through it. -/
theorem card_through (h : Holds root m) (p : List Nibble) : (through m p).card = (root.nodeAt p).keys.length := by
  have himage : (through m p).image path = ((root.nodeAt p).keys.map (p ++ ·)).toFinset := by
    ext q
    rw [Finset.mem_image, List.mem_toFinset, List.mem_map]
    constructor
    · rintro ⟨key, hkey, rfl⟩
      obtain ⟨hin, rest, hrest⟩ := Finset.mem_filter.mp hkey
      refine ⟨rest, Tree.mem_keys.mpr ?_, hrest⟩
      rw [Tree.lookup, ← Tree.nodeAt_append, hrest, ← Tree.lookup, h.lookup, Finmap.lookup_isSome]
      exact Finmap.mem_keys.mp hin
    · rintro ⟨rest, hrest, rfl⟩
      rw [Tree.mem_keys, Tree.lookup, ← Tree.nodeAt_append] at hrest
      obtain ⟨key, hkey⟩ := h.paths _ hrest
      refine ⟨key, Finset.mem_filter.mpr ⟨Finmap.mem_keys.mpr ?_, ⟨rest, hkey⟩⟩, hkey.symm⟩
      rwa [hkey, ← Tree.lookup, h.lookup, Finmap.lookup_isSome] at hrest
  rw [← Finset.card_image_of_injective _ fun _ _ => path_inj, himage, List.toFinset_card_of_nodup, List.length_map]
  exact Tree.nodup_keys.map fun _ _ heq => List.append_cancel_left heq

/-- The counter of a node is the number of the keys through it, and a node that none needs is freed. -/
theorem route (h : Holds root m) (p : List Nibble) : (root.nodeAt p).route = (through m p).card ∧
    (p ≠ [] → ((root.nodeAt p).isNull ↔ through m p = ∅)) := by
  rw [← Finset.card_eq_zero, h.card_through]
  obtain heq | ⟨hcounted, hpos⟩ := h.counted.nodeAt (p := p)
  · rw [heq]
    exact ⟨rfl, fun _ => by simp [Tree.isNull, Tree.keys]⟩
  · refine ⟨hcounted.route_eq, fun hp => ?_⟩
    have hroute := hpos hp
    rw [hcounted.route_eq] at hroute
    simp [hcounted.not_null, Nat.ne_of_gt hroute]

end Holds

/-- A run without such additions and deletions has the results of the map, and counters and nodes as its keys need. -/
theorem xtree_map (es : List (TreeEvent V))
    (hrun : Along treeStep (fun root e => Called root e ∧ Fits root e) Tree.create es) :
    results treeStep treeResult Tree.create es = results mapStep mapResult (∅ : KeyMap V) es ∧
      ∀ p, ((run treeStep Tree.create es).nodeAt p).route = (through (run mapStep (∅ : KeyMap V) es) p).card ∧
        (p ≠ [] → (((run treeStep Tree.create es).nodeAt p).isNull ↔ through (run mapStep (∅ : KeyMap V) es) p = ∅)) := by
  have hstep : ∀ (root : Tree V) m e, Holds root m → Called root e ∧ Fits root e →
      treeResult root e = mapResult m e ∧ Holds (treeStep root e) (mapStep m e) :=
    fun _ _ _ h hfit => h.step hfit.1 hfit.2
  obtain ⟨hresults, hholds⟩ := Along.simulation hstep hrun holds_create
  exact ⟨hresults, hholds.route⟩

/-- A key and one that begins with it, the first of them deleted. -/
theorem xtree_map_sample :
    let es := [TreeEvent.add [97] 1 fun _ => true, .add [97, 98] 2 fun _ => true, .find [97], .del [97], .find [97, 98]]
    results treeStep treeResult Tree.create es = results mapStep mapResult (∅ : KeyMap Nat) es := by
  intro es
  exact (xtree_map es (by decide +kernel)).1

/-- The deletion of an absent key frees the node of the key that begins with it. -/
theorem prefix_deletion : ∃ es : List (TreeEvent Nat), Along treeStep Called Tree.create es ∧
    results treeStep treeResult Tree.create es ≠ results mapStep mapResult (∅ : KeyMap Nat) es := by
  refine ⟨[.add [97, 98] 1 fun _ => true, .del [97], .find [97, 98]], by decide +kernel, ?_⟩
  decide +kernel

end Wenas.Xtree
