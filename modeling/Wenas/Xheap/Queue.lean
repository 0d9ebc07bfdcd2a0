import Wenas.Xheap.Heap
import Wenas.Lib.Machine

/-!
# The heap as a priority queue

The operations keep the nodes of the slots and their numbers. `xheap_push` and `xheap_pop` keep the order of the keys.
`xheap_remove` moves the last node down from the slot of the removed one, but never up: it keeps the order if the last
node does not belong above that slot.
-/
namespace Wenas.Xheap
open Wenas.Heaps Wenas.Machine

variable {α : Type} [DecidableEq α] {h h' : Heap α} {n i : Nat} {a x : α}

/-! ### What a call does -/

namespace Heap

/-- A node has left the slots. -/
structure Left (h h' : Heap α) (a : α) : Prop where
  pos : h'.pos + 1 = h.pos
  len : h'.len = h.len
  key : ∀ x, (h'.nodes x).key = (h.nodes x).key
  filled : h'.Filled h'.pos
  stored : ∀ x, h'.Stored h'.pos x ↔ h.Stored h.pos x ∧ x ≠ a

/-- A node has come to a slot. -/
structure Joined (h h' : Heap α) (a : α) : Prop where
  pos : h'.pos = h.pos + 1
  len : h'.len = h.len
  key : ∀ x, (h'.nodes x).key = (h.nodes x).key
  filled : h'.Filled h'.pos
  stored : ∀ x, h'.Stored h'.pos x ↔ h.Stored h.pos x ∨ x = a

/-- The last node does not belong above the slot of the node. -/
def Fits (h : Heap α) (a : α) : Prop := (h.nodes a).pos = 1 ∨ h.keyAt ((h.nodes a).pos / 2) ≤ h.keyAt h.pos

/-- The heap when the last node `z` is in the slot of `a`. -/
def moved (h : Heap α) (i : Nat) (a z : α) : Heap α :=
  { h with
    array := Function.update (Function.update (Function.update h.array 0 (some a)) i (some z)) h.pos none
    nodes := Function.update h.nodes z { h.nodes z with pos := i } }

section

variable {z : α} {c : Nat}

theorem moved_first (hi : 1 ≤ i) (hpos : 1 ≤ h.pos) : (h.moved i a z).array 0 = some a := by
  simp only [moved]
  rw [Function.update_of_ne (by omega), Function.update_of_ne (by omega), Function.update_self]

theorem moved_slot (hi : i < h.pos) : (h.moved i a z).array i = some z := by
  simp only [moved]
  rw [Function.update_of_ne (by omega), Function.update_self]

theorem moved_off (hc : 1 ≤ c) (hpos : c < h.pos) (hne : c ≠ i) : (h.moved i a z).array c = h.array c := by
  simp only [moved]
  rw [Function.update_of_ne (by omega), Function.update_of_ne hne, Function.update_of_ne (by omega)]

theorem moved_key (h : Heap α) (i : Nat) (a z x : α) : ((h.moved i a z).nodes x).key = (h.nodes x).key :=
  seat_key h i z x

theorem moved_keyAt_off (hc : 1 ≤ c) (hpos : c < h.pos) (hne : c ≠ i) : (h.moved i a z).keyAt c = h.keyAt c := by
  simp only [keyAt, moved_off hc hpos hne, moved_key]

theorem moved_keyAt (hz : h.array h.pos = some z) (hi : i < h.pos) : (h.moved i a z).keyAt i = h.keyAt h.pos := by
  rw [keyAt_eq (moved_slot hi), keyAt_eq hz, moved_key]

theorem moved_filled (hf : h.Filled (n + 1)) (hpos : h.pos = n + 1) (hz : h.array h.pos = some z) :
    (h.moved i a z).Filled n := by
  intro c hc hcn
  have hlast : (h.nodes z).pos = n + 1 := hf.pos_eq (by omega) le_rfl (hpos ▸ hz)
  by_cases hci : c = i
  · subst hci
    exact ⟨z, moved_slot (by omega), by simp [moved]⟩
  · obtain ⟨x, hx, hxpos⟩ := hf c hc (by omega)
    have hxz : x ≠ z := by
      rintro rfl
      omega
    exact ⟨x, (moved_off hc (by omega) hci).trans hx, by simp [moved, hxz, hxpos]⟩

theorem moved_stored (hf : h.Filled (n + 1)) (hpos : h.pos = n + 1) (hz : h.array h.pos = some z) (hi : 1 ≤ i)
    (hn : i ≤ n + 1) (ha : h.array i = some a) (x : α) : (h.moved i a z).Stored n x ↔ h.Stored (n + 1) x ∧ x ≠ a := by
  have hlast : (h.nodes z).pos = n + 1 := hf.pos_eq (by omega) le_rfl (hpos ▸ hz)
  have hslot : (h.nodes a).pos = i := hf.pos_eq hi hn ha
  constructor
  · rintro ⟨c, hc, hcn, hx⟩
    by_cases hci : c = i
    · subst hci
      rw [moved_slot (by omega)] at hx
      obtain rfl := Option.some.inj hx
      refine ⟨⟨n + 1, by omega, le_rfl, hpos ▸ hz⟩, ?_⟩
      rintro rfl
      omega
    · rw [moved_off hc (by omega) hci] at hx
      refine ⟨⟨c, hc, by omega, hx⟩, ?_⟩
      rintro rfl
      exact hci ((hf.pos_eq hc (by omega) hx).symm.trans hslot)
  · rintro ⟨⟨c, hc, hcn, hx⟩, hxa⟩
    have hci : c ≠ i := by
      rintro rfl
      exact hxa (Option.some.inj (hx.symm.trans ha))
    by_cases hend : c = n + 1
    · rw [hend, ← hpos, hz] at hx
      obtain rfl := Option.some.inj hx
      exact ⟨i, hi, by omega, moved_slot (by omega)⟩
    · exact ⟨c, hc, by omega, (moved_off hc (by omega) hci).trans hx⟩

/-- The order is broken below the slot at most, if the last node does not belong above. -/
theorem moved_down (hordered : Ordered h.keyAt (n + 1)) (hpos : h.pos = n + 1) (hz : h.array h.pos = some z)
    (hi : 1 ≤ i)
    (hn : i ≤ n + 1) (habove : i = 1 ∨ h.keyAt (i / 2) ≤ h.keyAt (n + 1)) : Down (h.moved i a z).keyAt n i := by
  have hbefore : Ordered h.keyAt n := fun c hc hcn => hordered c hc (by omega)
  by_cases hlast : i = n + 1
  · have hsame : Ordered (h.moved i a z).keyAt n :=
      hbefore.congr fun c hc hcn => moved_keyAt_off hc (by omega) (by omega)
    exact ⟨fun c hc hcn _ => hsame c hc hcn, fun _ c hc hcn => by omega⟩
  · refine hbefore.down (fun c hc hcn hci => moved_keyAt_off hc (by omega) hci) hi (by omega) fun htwo => ?_
    rw [moved_keyAt hz (by omega), hpos]
    exact habove.resolve_left (by omega)

/-- Else the node stays in the slot, and the order is broken above it. -/
theorem moved_stuck (hordered : Ordered h.keyAt (n + 1)) (hpos : h.pos = n + 1) (hz : h.array h.pos = some z)
    (hi : 2 ≤ i)
    (hn : i ≤ n + 1) (hbelow : h.keyAt (n + 1) < h.keyAt (i / 2)) :
    (∀ c, c / 2 = i → c ≤ n → (h.moved i a z).keyAt i ≤ (h.moved i a z).keyAt c) ∧
      ¬ Ordered (h.moved i a z).keyAt n := by
  have hlast : i ≠ n + 1 := by
    rintro rfl
    exact absurd (hordered (n + 1) hi le_rfl) (not_le.mpr hbelow)
  have hbefore : Ordered h.keyAt n := fun c hc hcn => hordered c hc (by omega)
  have hslot : (h.moved i a z).keyAt i = h.keyAt (n + 1) := by
    rw [moved_keyAt hz (by omega), hpos]
  have hparent : (h.moved i a z).keyAt (i / 2) = h.keyAt (i / 2) := moved_keyAt_off (by omega) (by omega) (by omega)
  constructor
  · refine hbefore.stays (fun c hc hcn hci => moved_keyAt_off hc (by omega) hci) hi (by omega) ?_
    rwa [hslot]
  · intro hafter
    have hle := hafter i hi (by omega)
    rw [hslot, hparent] at hle
    exact absurd hle (not_le.mpr hbelow)

/-- The steps of `take` in front of the loop. -/
theorem take_eq (hlen : h.pos ≤ h.len) (hpos : 1 ≤ h.pos) (hn : i ≤ h.pos) (ha : h.array i = some a)
    (hz : h.array h.pos = some z) :
    h.take i = ((h.moved i a z).down i h.pos).bind fun h =>
      (({ h with pos := h.pos - 1 } : Heap α).get 0).map fun first => (first, { h with pos := h.pos - 1 }) := by
  have hzero : Function.update h.array 0 (some a) h.pos = some z := by
    rw [Function.update_of_ne (by omega), hz]
  have hin : i ≤ h.len := hn.trans hlen
  simp [take, get, put, stamp, node, moved, hin, hlen, ha, hzero, Option.map_eq_bind]

end

/-- A node is taken out of any slot. The order is kept if and only if the last node does not belong above the slot. -/
theorem take_spec (hf : h.Filled h.pos) (hlen : h.pos ≤ h.len) (htwo : 2 ≤ h.pos) (hshort : h.pos < 2 ^ 31) (hi : 1 ≤ i)
    (hn : i ≤ h.pos) (ha : h.array i = some a) :
    ∃ h', h.take i = some (some a, h') ∧ Left h h' a ∧
      (Ordered h.keyAt h.pos → (Ordered h'.keyAt h'.pos ↔ i = 1 ∨ h.keyAt (i / 2) ≤ h.keyAt h.pos)) := by
  obtain ⟨z, hz, -⟩ := hf h.pos (by omega) le_rfl
  obtain ⟨n, hpos⟩ : ∃ n, h.pos = n + 1 := ⟨h.pos - 1, by omega⟩
  rw [take_eq hlen (by omega) hn ha hz]
  rw [hpos] at hf hn ⊢
  have hgpos : (h.moved i a z).pos = n + 1 := hpos
  have hglen : n ≤ (h.moved i a z).len := by
    simp only [moved]
    omega
  obtain ⟨h', hrun, hkept, hordered, hstays⟩ :=
    @down_spec _ _ n i _ (n + 1) (moved_filled hf hpos hz) hgpos hglen hi hn (by omega) (by omega)
  have hpos' : h'.pos = n + 1 := hkept.pos.trans hgpos
  have hfirst : h'.array 0 = some a := hkept.first.trans (moved_first hi (by omega))
  refine ⟨{ h' with pos := h'.pos - 1 }, ?_, ⟨?_, hkept.len, ?_, ?_, ?_⟩,
    fun hbefore => ⟨fun hafter => ?_, fun habove => ?_⟩⟩
  · rw [hrun, Option.bind_some, get_eq (Nat.zero_le _)]
    simp [hfirst]
  · simp only
    omega
  · intro x
    exact (hkept.key x).trans (moved_key h i a z x)
  · simp only [hpos', Nat.add_sub_cancel]
    exact hkept.filled
  · intro x
    simp only [hpos', Nat.add_sub_cancel]
    rw [hpos]
    exact (hkept.stored x).trans (moved_stored hf hpos hz hi hn ha x)
  · by_contra hbroken
    push Not at hbroken
    obtain ⟨hstop, hnot⟩ := moved_stuck (a := a) hbefore hpos hz (by omega) hn hbroken.2
    obtain rfl := hstays hstop
    simp only [hpos', Nat.add_sub_cancel] at hafter
    exact hnot hafter
  · simp only [hpos', Nat.add_sub_cancel]
    exact hordered (moved_down hbefore hpos hz hi hn habove)

omit [DecidableEq α] in
/-- The only node is taken. -/
theorem takeOnly_spec (hf : h.Filled h.pos) (hlen : h.pos ≤ h.len) (hone : h.pos = 1) :
    ∃ a h', h.array 1 = some a ∧ h.takeOnly = some (some a, h') ∧ Left h h' a := by
  obtain ⟨a, ha, -⟩ := hf 1 le_rfl (by omega)
  refine ⟨a, { h with pos := 0, array := Function.update (Function.update h.array 0 (some a)) 1 none }, ha, ?_,
    ⟨?_, rfl, fun _ => rfl, ?_, ?_⟩⟩
  · have hin : 1 ≤ h.len := by omega
    simp [takeOnly, get, put, heapTop, hin, ha]
  · simp only
    omega
  · intro c hc hcn
    exact absurd (hc.trans hcn) Nat.zero_lt_one.not_ge
  · intro x
    constructor
    · rintro ⟨c, hc, hcn, -⟩
      exact absurd (hc.trans hcn) Nat.zero_lt_one.not_ge
    · rintro ⟨⟨c, hc, hcn, hx⟩, hxa⟩
      obtain rfl : c = 1 := by omega
      exact absurd (Option.some.inj (hx.symm.trans ha)) hxa

/-- A node that is in no slot comes to one. -/
theorem push_spec (hf : h.Filled h.pos) (hordered : Ordered h.keyAt h.pos) (hroom : h.pos < h.len)
    (hnew : ¬ h.Stored h.pos a) :
    ∃ i h', xheapPush h a = some (i, h') ∧ Joined h h' a ∧ Ordered h'.keyAt h'.pos ∧ 1 ≤ i ∧ i ≤ h'.pos ∧
      h'.array i = some a := by
  obtain ⟨g, hg⟩ : ∃ g : Heap α, g = { h with pos := h.pos + 1 } := ⟨_, rfl⟩
  have harray : ∀ c, c ≤ h.pos → (g.seat (h.pos + 1) a).array c = h.array c := by
    intro c hc
    rw [hg, seat_array, Function.update_of_ne (by omega)]
  have hself : (g.seat (h.pos + 1) a).array (h.pos + 1) = some a := by simp
  have hkey : ∀ x, ((g.seat (h.pos + 1) a).nodes x).key = (h.nodes x).key := by
    intro x
    rw [seat_key, hg]
  have hfilled : (g.seat (h.pos + 1) a).Filled (h.pos + 1) := by
    intro c hc hcn
    by_cases hlast : c = h.pos + 1
    · subst hlast
      exact ⟨a, hself, by simp [seat]⟩
    · obtain ⟨x, hx, hxpos⟩ := hf c hc (by omega)
      have hxa : x ≠ a := by
        rintro rfl
        exact hnew ⟨c, hc, by omega, hx⟩
      exact ⟨x, (harray c (by omega)).trans hx, by rw [seat_node_pos, if_neg hxa, hg, hxpos]⟩
  have hstored : ∀ x, (g.seat (h.pos + 1) a).Stored (h.pos + 1) x ↔ h.Stored h.pos x ∨ x = a := by
    intro x
    constructor
    · rintro ⟨c, hc, hcn, hx⟩
      by_cases hlast : c = h.pos + 1
      · rw [hlast, hself] at hx
        exact .inr (Option.some.inj hx).symm
      · exact .inl ⟨c, hc, by omega, (harray c (by omega)).symm.trans hx⟩
    · rintro (⟨c, hc, hcn, hx⟩ | rfl)
      · exact ⟨c, hc, by omega, (harray c hcn).trans hx⟩
      · exact ⟨h.pos + 1, by omega, le_rfl, hself⟩
  have hup : Up (g.seat (h.pos + 1) a).keyAt (h.pos + 1) (h.pos + 1) := by
    refine hordered.up fun c hc hcn => ?_
    simp only [keyAt, harray c hcn, hkey]
  have hglen : h.pos + 1 ≤ g.len := by
    rw [hg]
    exact hroom
  obtain ⟨i, h', hrun, hi, hin, hkept, hafter⟩ := up_spec hfilled hup (by omega) le_rfl hglen le_rfl
  have hpos' : h'.pos = h.pos + 1 := hkept.pos.trans (by rw [hg, seat_pos])
  have hlen' : h'.len = h.len := hkept.len.trans (by rw [hg, seat_len])
  refine ⟨i, h'.seat i a, ?_, ⟨hpos', hlen', ?_, ?_, ?_⟩, ?_, hi, ?_, by simp⟩
  · have hi' : i ≤ h'.len := by omega
    rw [hg] at hrun
    unfold xheapPush
    rw [if_pos hroom]
    simp only [hrun, Option.bind_eq_bind, Option.bind_some]
    rw [← Option.bind_assoc, put_stamp hi', Option.bind_some, if_neg (by omega)]
  · intro x
    exact (hkept.key x).trans (hkey x)
  · rw [seat_pos, hpos']
    exact hkept.filled
  · intro x
    rw [seat_pos, hpos']
    exact (hkept.stored x).trans (hstored x)
  · rw [seat_pos, hpos']
    exact hafter
  · rw [seat_pos, hpos']
    exact hin

/-- The least node is taken. -/
theorem pop_spec (hf : h.Filled h.pos) (hordered : Ordered h.keyAt h.pos) (hlen : h.pos ≤ h.len)
    (hshort : h.pos < 2 ^ 31)
    (hpos : 1 ≤ h.pos) :
    ∃ a h', h.array 1 = some a ∧ xheapPop h = some (some a, h') ∧ Left h h' a ∧ Ordered h'.keyAt h'.pos := by
  unfold xheapPop heapTop
  rw [if_neg (by omega)]
  by_cases hone : h.pos = 1
  · rw [if_pos hone]
    obtain ⟨a, h', ha, hrun, hleft⟩ := takeOnly_spec hf hlen hone
    have hnone := hleft.pos
    exact ⟨a, h', ha, hrun, hleft, fun c hc hcn => by omega⟩
  · rw [if_neg hone]
    obtain ⟨a, ha, -⟩ := hf 1 le_rfl hpos
    obtain ⟨h', hrun, hleft, hiff⟩ := take_spec hf hlen (by omega) hshort le_rfl hpos ha
    exact ⟨a, h', ha, hrun, hleft, (hiff hordered).mpr (.inl rfl)⟩

/-- A node is taken out of its slot. -/
theorem remove_spec (hf : h.Filled h.pos) (hordered : Ordered h.keyAt h.pos) (hlen : h.pos ≤ h.len)
    (hshort : h.pos < 2 ^ 31) (ha : h.Stored h.pos a) :
    ∃ h', xheapRemove h a = some (some a, h') ∧ Left h h' a ∧ (Ordered h'.keyAt h'.pos ↔ h.Fits a) := by
  obtain ⟨i, hi, hin, ha⟩ := ha
  have hslot : (h.nodes a).pos = i := hf.pos_eq hi hin ha
  have hmod : i % 2 ^ 32 = i := Nat.mod_eq_of_lt (by omega)
  unfold xheapRemove heapTop Fits
  simp only [hslot, hmod]
  rw [if_neg (by omega)]
  by_cases hone : h.pos = 1
  · rw [if_pos hone]
    obtain rfl : i = 1 := by omega
    obtain ⟨b, h', hb, hrun, hleft⟩ := takeOnly_spec hf hlen hone
    obtain rfl : a = b := Option.some.inj (ha.symm.trans hb)
    have hnone := hleft.pos
    exact ⟨h', hrun, hleft, iff_of_true (fun c hc hcn => by omega) (.inl rfl)⟩
  · rw [if_neg hone, key_eq (by omega) ha, Option.bind_some, if_neg (by simp)]
    obtain ⟨h', hrun, hleft, hiff⟩ := take_spec hf hlen (by omega) hshort hi hin ha
    exact ⟨h', hrun, hleft, hiff hordered⟩

end Heap

/-! ### Runs -/

/-- A heap, and the nodes that were pushed and have not come back yet. -/
structure Queue (α : Type) where
  heap : Heap α
  held : List α

inductive Op (α : Type) where
  | push (node : α) (key : UInt64)
  | pop
  | remove (node : α)

/-- The caller sets the key of a node. -/
def Heap.withKey (h : Heap α) (a : α) (key : UInt64) : Heap α :=
  { h with nodes := Function.update h.nodes a { h.nodes a with key := key } }

namespace Queue

def step (s : Queue α) : Op α → Option (Queue α)
  | .push a key => (xheapPush (s.heap.withKey a key) a).map fun r => ⟨r.2, if r.1 = 0 then s.held else a :: s.held⟩
  | .pop => (xheapPop s.heap).map fun r => ⟨r.2, r.1.elim s.held s.held.erase⟩
  | .remove a => (xheapRemove s.heap a).map fun r => ⟨r.2, r.1.elim s.held s.held.erase⟩

def create (size : UInt32) (nodes : α → Node) : Queue α := ⟨xheapCreate size nodes, []⟩

/-- The calls one after the other. It is `none` from the first failed one on. -/
def next (s : Option (Queue α)) (op : Op α) : Option (Queue α) := s.bind fun s => s.step op

/-- The caller pushes nodes that are not in the heap, and removes those that are, each where the last node fits. -/
def Careful : Option (Queue α) → Op α → Prop
  | some s, .push a _ => a ∉ s.held
  | some s, .pop => s.held.length < 2 ^ 31
  | some s, .remove a => s.held.length < 2 ^ 31 ∧ a ∈ s.held ∧ s.heap.Fits a
  | none, _ => True

/-- The caller pushes nodes that are not in the heap, and removes none. -/
def Plain : Option (Queue α) → Op α → Prop
  | some s, .push a _ => a ∉ s.held
  | _, .pop => True
  | _, _ => False

instance (h : Heap α) (a : α) : Decidable (h.Fits a) := inferInstanceAs (Decidable (_ ∨ _))

instance : (s : Option (Queue α)) → (op : Op α) → Decidable (Careful s op)
  | some s, .push a _ => inferInstanceAs (Decidable (a ∉ s.held))
  | some s, .pop => inferInstanceAs (Decidable (s.held.length < 2 ^ 31))
  | some s, .remove a => inferInstanceAs (Decidable (s.held.length < 2 ^ 31 ∧ a ∈ s.held ∧ s.heap.Fits a))
  | none, _ => .isTrue trivial

structure Kept (s : Queue α) : Prop where
  filled : s.heap.Filled s.heap.pos
  ordered : Ordered s.heap.keyAt s.heap.pos
  within : s.heap.pos ≤ s.heap.len
  held : ∀ a, a ∈ s.held ↔ s.heap.Stored s.heap.pos a
  nodup : s.held.Nodup
  count : s.held.length = s.heap.pos

variable {s s' : Queue α} {op : Op α} {ops : List (Op α)} {key : UInt64} {size : UInt32} {nodes : α → Node}

omit [DecidableEq α] in
theorem create_kept (size : UInt32) (nodes : α → Node) : (create size nodes).Kept := by
  refine ⟨fun i hi hn => ?_, fun i hi hn => ?_, Nat.zero_le _, fun a => ?_, List.nodup_nil, rfl⟩
  · exact absurd (hi.trans hn) Nat.zero_lt_one.not_ge
  · exact absurd (hi.trans hn) Nat.zero_lt_two.not_ge
  · constructor
    · intro ha
      cases ha
    · rintro ⟨i, -, -, hi⟩
      cases hi

/-- The key of a node that is in no slot may be set. -/
theorem Kept.withKey (hs : s.Kept) (ha : a ∉ s.held) (key : UInt64) : Kept ⟨s.heap.withKey a key, s.held⟩ := by
  have hother : ∀ i b, 1 ≤ i → i ≤ s.heap.pos → s.heap.array i = some b →
      (s.heap.withKey a key).nodes b = s.heap.nodes b := by
    intro i b hi hn hb
    have hne : b ≠ a := by
      rintro rfl
      exact ha ((hs.held b).mpr ⟨i, hi, hn, hb⟩)
    simp [Heap.withKey, hne]
  refine ⟨fun i hi hn => ?_, hs.ordered.congr fun i hi hn => ?_, hs.within, hs.held, hs.nodup, hs.count⟩
  · obtain ⟨b, hb, hpos⟩ := hs.filled i hi hn
    exact ⟨b, hb, by rw [hother i b hi hn hb, hpos]⟩
  · obtain ⟨b, hb, -⟩ := hs.filled i hi hn
    have hb' : (s.heap.withKey a key).array i = some b := hb
    rw [Heap.keyAt_eq hb, Heap.keyAt_eq hb', hother i b hi hn hb]

theorem Kept.left {h' : Heap α} (hs : s.Kept) (ha : a ∈ s.held) (hleft : Heap.Left s.heap h' a)
    (hordered : Ordered h'.keyAt h'.pos) : Kept ⟨h', s.held.erase a⟩ := by
  have hlen := hleft.len
  have hpos := hleft.pos
  have hwithin := hs.within
  refine ⟨hleft.filled, hordered, ?_, fun x => ?_, hs.nodup.erase a, ?_⟩
  · simp only
    omega
  · rw [hs.nodup.mem_erase_iff, hs.held x, hleft.stored x]
    exact and_comm
  · simp only [List.length_erase_of_mem ha, hs.count]
    omega

omit [DecidableEq α] in
theorem Kept.joined {h' : Heap α} (hs : s.Kept) (ha : a ∉ s.held) (hjoined : Heap.Joined s.heap h' a)
    (hroom : s.heap.pos < s.heap.len) (hordered : Ordered h'.keyAt h'.pos) : Kept ⟨h', a :: s.held⟩ := by
  have hlen := hjoined.len
  have hpos := hjoined.pos
  refine ⟨hjoined.filled, hordered, ?_, fun x => ?_, List.nodup_cons.mpr ⟨ha, hs.nodup⟩, ?_⟩
  · simp only
    omega
  · rw [List.mem_cons, hs.held x, hjoined.stored x]
    exact or_comm
  · simp only [List.length_cons, hs.count, hpos]

/-- The result of a push. -/
theorem Kept.push (hs : s.Kept) (ha : a ∉ s.held) (key : UInt64) :
    ∃ i h', xheapPush (s.heap.withKey a key) a = some (i, h') ∧ Kept ⟨h', if i = 0 then s.held else a :: s.held⟩ ∧
      h'.len = s.heap.len ∧ (∀ x, (h'.nodes x).key = ((s.heap.withKey a key).nodes x).key) ∧
      (i = 0 ↔ s.held.length = s.heap.len) ∧ (i = 0 → h' = s.heap.withKey a key) ∧
      (i ≠ 0 → i ≤ h'.pos ∧ h'.array i = some a) := by
  have hset := hs.withKey ha key
  have hcount := hs.count
  have hwithin := hs.within
  by_cases hroom : s.heap.pos < s.heap.len
  · have hnew : ¬ (s.heap.withKey a key).Stored (s.heap.withKey a key).pos a := fun h => ha ((hs.held a).mpr h)
    obtain ⟨i, h', hrun, hjoined, hordered, hi, hin, hslot⟩ := Heap.push_spec hset.filled hset.ordered hroom hnew
    have hne : i ≠ 0 := by omega
    refine ⟨i, h', hrun, ?_, hjoined.len, hjoined.key, iff_of_false hne (by omega), fun h => absurd h hne,
      fun _ => ⟨hin, hslot⟩⟩
    rw [if_neg hne]
    exact hset.joined ha hjoined hroom hordered
  · refine ⟨0, s.heap.withKey a key, if_neg hroom, hset, rfl, fun _ => rfl, iff_of_true rfl (by omega), fun _ => rfl,
      fun h => absurd rfl h⟩

/-- The result of a pop. -/
theorem Kept.pop (hs : s.Kept) (hshort : s.held.length < 2 ^ 31) :
    ∃ p h', xheapPop s.heap = some (p, h') ∧ Kept ⟨h', p.elim s.held s.held.erase⟩ ∧ h'.len = s.heap.len ∧
      (∀ x, (h'.nodes x).key = (s.heap.nodes x).key) ∧ (p = none ↔ s.held = []) ∧
      ∀ a, p = some a → a ∈ s.held ∧ ∀ b ∈ s.held, (s.heap.nodes a).key ≤ (s.heap.nodes b).key := by
  have hcount := hs.count
  by_cases hpos : 1 ≤ s.heap.pos
  · obtain ⟨a, h', hfirst, hrun, hleft, hordered⟩ := Heap.pop_spec hs.filled hs.ordered hs.within (by omega) hpos
    have ha : a ∈ s.held := (hs.held a).mpr ⟨1, le_rfl, hpos, hfirst⟩
    refine ⟨some a, h', hrun, hs.left ha hleft hordered, hleft.len, hleft.key, ?_, ?_⟩
    · refine iff_of_false (by simp) ?_
      rintro hnil
      simp [hnil] at ha
    · rintro _ ⟨⟩
      refine ⟨ha, fun b hb => ?_⟩
      obtain ⟨i, hi, hn, hb⟩ := (hs.held b).mp hb
      have hle := hs.ordered.root_le hi hn
      rwa [Heap.keyAt_eq hfirst, Heap.keyAt_eq hb, ← UInt64.le_iff_toNat_le] at hle
  · have hnil : s.held = [] := List.length_eq_zero_iff.mp (by omega)
    refine ⟨none, s.heap, if_pos (by simp only [heapTop]; omega), hs, rfl, fun _ => rfl, iff_of_true rfl hnil, ?_⟩
    rintro _ ⟨⟩

/-- The result of a removal. -/
theorem Kept.remove (hs : s.Kept) (hshort : s.held.length < 2 ^ 31) (ha : a ∈ s.held) :
    ∃ h', xheapRemove s.heap a = some (some a, h') ∧ Heap.Left s.heap h' a ∧
      (Ordered h'.keyAt h'.pos ↔ s.heap.Fits a) := by
  have hcount := hs.count
  exact Heap.remove_spec hs.filled hs.ordered hs.within (by omega) ((hs.held a).mp ha)

theorem Kept.step (hs : s.Kept) (hcareful : Careful (some s) op) :
    ∃ s', s.step op = some s' ∧ s'.Kept ∧ s'.heap.len = s.heap.len := by
  cases op with
  | push a key =>
    obtain ⟨i, h', hrun, hkept, hlen, -⟩ := hs.push hcareful key
    exact ⟨_, by simp [Queue.step, hrun], hkept, hlen⟩
  | pop =>
    obtain ⟨p, h', hrun, hkept, hlen, -⟩ := hs.pop hcareful
    exact ⟨_, by simp [Queue.step, hrun], hkept, hlen⟩
  | remove a =>
    obtain ⟨hshort, ha, hfits⟩ := hcareful
    obtain ⟨h', hrun, hleft, hiff⟩ := hs.remove hshort ha
    exact ⟨_, by simp [Queue.step, hrun], hs.left ha hleft (hiff.mpr hfits), hleft.len⟩

/-- Every careful run ends, with the nodes in order. -/
theorem careful_run (hops : Along next Careful (some (create size nodes)) ops) :
    ∃ s, run next (some (create size nodes)) ops = some s ∧ s.Kept := by
  have hstep : ∀ s op, (∃ q : Queue α, s = some q ∧ q.Kept) → Careful s op → ∃ q, next s op = some q ∧ q.Kept := by
    rintro _ op ⟨s, rfl, hs⟩ hcareful
    obtain ⟨s', hstep, hs', -⟩ := hs.step hcareful
    exact ⟨s', hstep, hs'⟩
  exact hops.invariant hstep ⟨_, rfl, create_kept size nodes⟩

/-! ### Removal -/

/-- What a removal has to do: the node comes back, the others stay in the slots, each knows its slot, and the keys are
in order. -/
def Removes (h : Heap α) (a : α) : Prop :=
  ∃ h', xheapRemove h a = some (some a, h') ∧ h'.pos + 1 = h.pos ∧
    (∀ x, h'.Stored h'.pos x ↔ h.Stored h.pos x ∧ x ≠ a) ∧ h'.Filled h'.pos ∧ Ordered h'.keyAt h'.pos

/-- In every run whose removals are where the last node fits, the next removal does what it has to do if and only if the
last node fits there too. -/
theorem removal_keeps (size : UInt32) (nodes : α → Node) (ops : List (Op α))
    (hops : Along next Careful (some (create size nodes)) ops) :
    ∃ s, run next (some (create size nodes)) ops = some s ∧ s.heap.Filled s.heap.pos ∧ Ordered s.heap.keyAt s.heap.pos ∧
      ∀ a ∈ s.held, s.held.length < 2 ^ 31 → (Removes s.heap a ↔ s.heap.Fits a) := by
  obtain ⟨s, hrun, hs⟩ := careful_run hops
  refine ⟨s, hrun, hs.filled, hs.ordered, fun a ha hshort => ?_⟩
  obtain ⟨h', hremove, hleft, hiff⟩ := hs.remove hshort ha
  rw [← hiff]
  constructor
  · rintro ⟨g, hg, -, -, -, hordered⟩
    rw [hremove] at hg
    cases hg
    exact hordered
  · intro hordered
    exact ⟨h', hremove, hleft.pos, hleft.stored, hleft.filled, hordered⟩

/-- Seven nodes with these keys. The one with 4 is the last, and the one with 11 is below the one with 10. -/
def sevenPushed : List (Op Nat) := [.push 0 1, .push 1 10, .push 2 2, .push 3 11, .push 4 12, .push 5 3, .push 6 4]

theorem removal_keeps_sample : ∃ s, run next (some (create 7 fun _ : Nat => ⟨0, 0⟩)) sevenPushed = some s ∧
    s.heap.Filled s.heap.pos ∧ Ordered s.heap.keyAt s.heap.pos ∧
    ∀ a ∈ s.held, s.held.length < 2 ^ 31 → (Removes s.heap a ↔ s.heap.Fits a) :=
  removal_keeps 7 (fun _ => ⟨0, 0⟩) sevenPushed (by decide +kernel)

/-- The last node is put below the one with the key 10, and stays there. -/
theorem removal_breaks : ∃ s, run next (some (create 7 fun _ : Nat => ⟨0, 0⟩)) sevenPushed = some s ∧ 3 ∈ s.held ∧
    ¬ Removes s.heap 3 := by
  refine ⟨_, rfl, by decide, ?_⟩
  rintro ⟨h', hremove, -, -, -, hordered⟩
  have hkeys := congrArg (Option.map fun r : Option Nat × Heap Nat => (r.2.pos, r.2.keyAt 2, r.2.keyAt 4)) hremove
  have hsix : (h'.pos, h'.keyAt 2, h'.keyAt 4) = (6, 10, 4) := Option.some.inj (hkeys.symm.trans (by decide +kernel))
  simp only [Prod.mk.injEq] at hsix
  have hle : h'.keyAt 2 ≤ h'.keyAt 4 := hordered 4 (by decide) (by omega)
  omega

/-! ### The law of the queue -/

/-- The nodes that are popped until the heap is empty, with their keys. -/
def drain (h : Heap α) : Nat → Option (List (α × UInt64))
  | 0 => none
  | n + 1 => (xheapPop h).bind fun r =>
    match r.1 with
    | some a => (drain r.2 n).map ((a, (r.2.nodes a).key) :: ·)
    | none => some []

/-- The nodes of the queue with their keys. -/
def items (s : Queue α) : List (α × UInt64) := s.held.map fun a => (a, (s.heap.nodes a).key)

/-- What the next call does, from a state that a run has come to. -/
structure Serves (s : Queue α) : Prop where
  stored : ∀ a, s.heap.Stored s.heap.pos a ↔ a ∈ s.held
  numbered : s.heap.Filled s.heap.pos
  push : ∀ a key, a ∉ s.held → ∃ i h', xheapPush (s.heap.withKey a key) a = some (i, h') ∧
    (i = 0 ↔ s.held.length = s.heap.len) ∧ (i = 0 → h' = s.heap.withKey a key) ∧
    (i ≠ 0 → i ≤ h'.pos ∧ h'.array i = some a)
  pop : ∃ p h', xheapPop s.heap = some (p, h') ∧ (p = none ↔ s.held = []) ∧
    ∀ a, p = some a → a ∈ s.held ∧ ∀ b ∈ s.held, (s.heap.nodes a).key ≤ (s.heap.nodes b).key
  drained : ∃ ys, drain s.heap (s.held.length + 1) = some ys ∧ ys.Perm s.items ∧ ys.Pairwise fun x y => x.2 ≤ y.2

/-- Popping until the heap is empty gives its nodes in the order of their keys. -/
theorem Kept.drained (hs : s.Kept) (hshort : s.held.length < 2 ^ 31) {turns : Nat} (hturns : s.held.length < turns) :
    ∃ ys, drain s.heap turns = some ys ∧ ys.Perm s.items ∧ ys.Pairwise fun x y => x.2 ≤ y.2 := by
  induction turns generalizing s with
  | zero => omega
  | succ turns ih =>
    obtain ⟨p, h', hrun, hkept, -, hkey, hnil, hleast⟩ := hs.pop hshort
    unfold drain
    rw [hrun, Option.bind_some]
    cases p with
    | none =>
      refine ⟨[], rfl, ?_, .nil⟩
      rw [items, hnil.mp rfl]
      exact .nil
    | some a =>
      obtain ⟨ha, hmin⟩ := hleast a rfl
      have hlen : (s.held.erase a).length + 1 = s.held.length := by
        have hpos := List.length_pos_of_mem ha
        rw [List.length_erase_of_mem ha]
        omega
      obtain ⟨ys, hys, hperm, hsorted⟩ := ih hkept (by simp only [Option.elim]; omega) (by simp only [Option.elim]; omega)
      have hsame : items ⟨h', s.held.erase a⟩ = (s.held.erase a).map fun b => (b, (s.heap.nodes b).key) :=
        List.map_congr_left fun b _ => congrArg (Prod.mk b) (hkey b)
      have hrest : ys.Perm ((s.held.erase a).map fun b => (b, (s.heap.nodes b).key)) := hsame ▸ hperm
      refine ⟨(a, (h'.nodes a).key) :: ys, by simp [hys], ?_, ?_⟩
      · rw [hkey a]
        have hall := (List.perm_cons_erase ha).map fun b => (b, (s.heap.nodes b).key)
        exact (hrest.cons _).trans hall.symm
      · refine List.pairwise_cons.mpr ⟨?_, hsorted⟩
        intro y hy
        obtain ⟨b, hb, rfl⟩ := List.mem_map.mp (hrest.mem_iff.mp hy)
        rw [hkey a]
        exact hmin b (List.mem_of_mem_erase hb)

theorem Kept.serves (hs : s.Kept) (hshort : s.held.length < 2 ^ 31) : s.Serves where
  stored a := (hs.held a).symm
  numbered := hs.filled
  push a key ha := by
    obtain ⟨i, h', hrun, -, -, -, hfull, hsame, hslot⟩ := hs.push ha key
    exact ⟨i, h', hrun, hfull, hsame, hslot⟩
  pop := by
    obtain ⟨p, h', hrun, -, -, -, hnil, hleast⟩ := hs.pop hshort
    exact ⟨p, h', hrun, hnil, hleast⟩
  drained := hs.drained hshort (Nat.lt_succ_self _)

/-- A run without removals. -/
theorem plain_run (hsize : size.toNat < 2 ^ 31) (hops : Along next Plain (some (create size nodes)) ops) :
    ∃ s, run next (some (create size nodes)) ops = some s ∧ s.Kept ∧ s.heap.len = size.toNat := by
  have hstep : ∀ s op, (∃ q : Queue α, s = some q ∧ q.Kept ∧ q.heap.len = size.toNat) → Plain s op →
      ∃ q, next s op = some q ∧ q.Kept ∧ q.heap.len = size.toNat := by
    rintro _ op ⟨s, rfl, hs, hlen⟩ hplain
    have hcount := hs.count
    have hwithin := hs.within
    have hcareful : Careful (some s) op := by
      cases op with
      | push a key => exact hplain
      | pop =>
        simp only [Careful]
        omega
      | remove a => exact hplain.elim
    obtain ⟨s', hnext, hs', hlen'⟩ := hs.step hcareful
    exact ⟨s', hnext, hs', hlen'.trans hlen⟩
  exact hops.invariant hstep ⟨_, rfl, create_kept size nodes, rfl⟩

/-- Nodes pushed one after the other. -/
def pushes (xs : List (α × UInt64)) : List (Op α) := xs.map fun x => .push x.1 x.2

/-- Different nodes are pushed as long as there is room. -/
theorem pushes_run (hs : s.Kept) (xs : List (α × UInt64)) (hnodup : (xs.map Prod.fst).Nodup)
    (hnew : ∀ x ∈ xs, x.1 ∉ s.held)
    (hroom : s.held.length + xs.length ≤ s.heap.len) :
    ∃ s', run next (some s) (pushes xs) = some s' ∧ s'.Kept ∧ s'.heap.len = s.heap.len ∧
      s'.items.Perm (s.items ++ xs) := by
  induction xs generalizing s with
  | nil => exact ⟨s, rfl, hs, rfl, by simp⟩
  | cons x xs ih =>
    obtain ⟨a, key⟩ := x
    obtain ⟨hnot, hnodup⟩ := List.nodup_cons.mp hnodup
    have ha : a ∉ s.held := hnew _ List.mem_cons_self
    obtain ⟨i, h', hrun, hkept, hlen, hkey, hfull, -, -⟩ := hs.push ha key
    simp only [List.length_cons] at hroom
    have hne : i ≠ 0 := fun h => by have := hfull.mp h; omega
    rw [if_neg hne] at hkept
    have hstep : next (some s) (.push a key) = some ⟨h', a :: s.held⟩ := by simp [next, Queue.step, hrun, hne]
    have hitems : items ⟨h', a :: s.held⟩ = (a, key) :: s.items := by
      simp only [items, List.map_cons, List.cons.injEq, Prod.mk.injEq, true_and]
      refine ⟨by simp [hkey, Heap.withKey], List.map_congr_left fun b hb => congrArg (Prod.mk b) ?_⟩
      have hba : b ≠ a := by
        rintro rfl
        exact ha hb
      simp [hkey, Heap.withKey, hba]
    have hnew' : ∀ y ∈ xs, y.1 ∉ a :: s.held := by
      intro y hy hmem
      obtain rfl | hmem := List.mem_cons.mp hmem
      · exact hnot (List.mem_map.mpr ⟨y, hy, rfl⟩)
      · exact hnew y (List.mem_cons_of_mem _ hy) hmem
    obtain ⟨s', hrun', hs', hlen', hperm⟩ := ih hkept hnodup hnew' (by simp only [List.length_cons, hlen]; omega)
    refine ⟨s', ?_, hs', hlen'.trans hlen, ?_⟩
    · rw [pushes, List.map_cons, run_cons, hstep]
      exact hrun'
    · rw [hitems] at hperm
      exact hperm.trans (List.perm_middle.symm)

/-- For every capacity below 2^31, every run of pushes and pops comes to a state that serves, and pushing a list and
popping until the heap is empty gives the list in the order of its keys. -/
theorem priority_queue (size : UInt32) (hsize : size.toNat < 2 ^ 31) (nodes : α → Node) :
    (∀ ops, Along next Plain (some (create size nodes)) ops →
      ∃ s, run next (some (create size nodes)) ops = some s ∧ s.heap.len = size.toNat ∧ s.Serves) ∧
    ∀ xs : List (α × UInt64), (xs.map Prod.fst).Nodup → xs.length ≤ size.toNat →
      ∃ s ys, run next (some (create size nodes)) (pushes xs) = some s ∧ drain s.heap (xs.length + 1) = some ys ∧
        ys.Perm xs ∧ ys.Pairwise fun x y => x.2 ≤ y.2 := by
  constructor
  · intro ops hops
    obtain ⟨s, hrun, hs, hlen⟩ := plain_run hsize hops
    have hcount := hs.count
    have hwithin := hs.within
    exact ⟨s, hrun, hlen, hs.serves (by omega)⟩
  · intro xs hnodup hroom
    have hnew : ∀ x ∈ xs, x.1 ∉ (create size nodes).held := fun _ _ => List.not_mem_nil
    obtain ⟨s, hrun, hs, hlen, hperm⟩ := pushes_run (create_kept size nodes) xs hnodup hnew
      (by simpa [create, xheapCreate] using hroom)
    have hcount : s.held.length = xs.length := by simpa [items, create] using hperm.length_eq
    have hturns : s.held.length < xs.length + 1 := by omega
    obtain ⟨ys, hys, hperm', hsorted⟩ := hs.drained (by omega) hturns
    exact ⟨s, ys, hrun, hys, hperm'.trans (by simpa [items, create] using hperm), hsorted⟩

theorem priority_queue_sample : (∀ ops, Along next Plain (some (create 7 fun _ : Nat => ⟨0, 0⟩)) ops →
      ∃ s, run next (some (create 7 fun _ : Nat => ⟨0, 0⟩)) ops = some s ∧ s.heap.len = 7 ∧ s.Serves) ∧
    ∀ xs : List (Nat × UInt64), (xs.map Prod.fst).Nodup → xs.length ≤ 7 →
      ∃ s ys, run next (some (create 7 fun _ : Nat => ⟨0, 0⟩)) (pushes xs) = some s ∧
        drain s.heap (xs.length + 1) = some ys ∧
        ys.Perm xs ∧ ys.Pairwise fun x y => x.2 ≤ y.2 :=
  priority_queue 7 (by decide) fun _ => ⟨0, 0⟩

end Queue

end Wenas.Xheap
