import Wenas.Lib.Heaps

/-!
# The heap of nodes

A heap is an array of pointers to nodes, and each node knows its slot. The nodes are in the state, since the heap
writes their `pos`. An operation is `none` when it goes through a null pointer or beyond the array, or does not end.
-/
namespace Wenas.Xheap
open Wenas.Heaps

structure Node where
  pos : Nat
  key : UInt64

/-- `array` has the cells 0 to `len`, and the first one is not a slot. -/
structure Heap (α : Type) where
  pos : Nat
  len : Nat
  array : Nat → Option α
  nodes : α → Node

def heapTop : Nat := 1

def topOf (i : Nat) : Nat := i / 2

/-- The children of a slot in 32 bits. -/
def leftOf (i : Nat) : Nat := i * 2 % 2 ^ 32

def rightOf (i : Nat) : Nat := (leftOf i + 1) % 2 ^ 32

def xeof : Nat := 2 ^ 64 - 1

def xheapCreate {α : Type} (size : UInt32) (nodes : α → Node) : Heap α := ⟨0, size.toNat, fun _ => none, nodes⟩

variable {α : Type} {h h' : Heap α} {n i j : Nat} {a b x : α}

namespace Heap

def get (h : Heap α) (i : Nat) : Option (Option α) := if i ≤ h.len then some (h.array i) else none

def put (h : Heap α) (i : Nat) (p : Option α) : Option (Heap α) :=
  if i ≤ h.len then some { h with array := Function.update h.array i p } else none

/-- `array[i]` as a node. -/
def node (h : Heap α) (i : Nat) : Option α := (h.get i).join

def key (h : Heap α) (i : Nat) : Option UInt64 := (h.node i).map fun a => (h.nodes a).key

/-- A child is compared with the smallest so far. The last slot is empty, and is not compared. -/
def smaller (h : Heap α) (smallest child : Nat) : Option Nat :=
  if child < h.pos then do
    let a ← h.key smallest
    let b ← h.key child
    some (if a > b then child else smallest)
  else some smallest

/-! ### Filled slots -/

/-- The slots hold nodes, and each one knows its slot. -/
def Filled (h : Heap α) (n : Nat) : Prop := ∀ i, 1 ≤ i → i ≤ n → ∃ a, h.array i = some a ∧ (h.nodes a).pos = i

/-- A node is in one of the slots. -/
def Stored (h : Heap α) (n : Nat) (a : α) : Prop := ∃ i, 1 ≤ i ∧ i ≤ n ∧ h.array i = some a

/-- The key of the node in a slot. -/
def keyAt (h : Heap α) (i : Nat) : Nat := (h.array i).elim 0 fun a => (h.nodes a).key.toNat

/-- The same nodes are in the slots, maybe in another order. -/
structure Rearranged (h h' : Heap α) (n : Nat) : Prop where
  pos : h'.pos = h.pos
  len : h'.len = h.len
  first : h'.array 0 = h.array 0
  key : ∀ x, (h'.nodes x).key = (h.nodes x).key
  filled : h'.Filled n
  stored : ∀ x, h'.Stored n x ↔ h.Stored n x

theorem Rearranged.refl (hf : h.Filled n) : Rearranged h h n := ⟨rfl, rfl, rfl, fun _ => rfl, hf, fun _ => Iff.rfl⟩

theorem Rearranged.trans {h'' : Heap α} (r : Rearranged h h' n) (s : Rearranged h' h'' n) : Rearranged h h'' n :=
  ⟨s.pos.trans r.pos, s.len.trans r.len, s.first.trans r.first, fun x => (s.key x).trans (r.key x), s.filled,
    fun x => (s.stored x).trans (r.stored x)⟩

/-- A node is in one slot only. -/
theorem Filled.pos_eq (hf : h.Filled n) (hi : 1 ≤ i) (hn : i ≤ n) (ha : h.array i = some a) : (h.nodes a).pos = i := by
  obtain ⟨b, hb, hpos⟩ := hf i hi hn
  obtain rfl : b = a := Option.some.inj (hb.symm.trans ha)
  exact hpos

theorem keyAt_eq (ha : h.array i = some a) : h.keyAt i = (h.nodes a).key.toNat := by simp [keyAt, ha]

/-! ### Cells within the array -/

theorem get_eq (hi : i ≤ h.len) : h.get i = some (h.array i) := if_pos hi

theorem put_eq (hi : i ≤ h.len) (p : Option α) : h.put i p = some { h with array := Function.update h.array i p } :=
  if_pos hi

theorem node_eq (hi : i ≤ h.len) (ha : h.array i = some a) : h.node i = some a := by simp [node, get_eq hi, ha]

theorem key_eq (hi : i ≤ h.len) (ha : h.array i = some a) : h.key i = some (h.nodes a).key := by
  simp [key, node_eq hi ha]

/-! ### The choice of a child -/

/-- One comparison. The compared child is in front of the last slot. -/
theorem smaller_eq (hf : h.Filled n) (hpos : h.pos = n + 1) (hlen : n ≤ h.len) (hs : j ≤ n → 1 ≤ i ∧ i ≤ n)
    (hj : 1 ≤ j) :
    h.smaller i j = some (if j ≤ n ∧ h.keyAt j < h.keyAt i then j else i) := by
  unfold smaller
  by_cases hjn : j ≤ n
  · obtain ⟨hi, hin⟩ := hs hjn
    obtain ⟨a, ha, -⟩ := hf i hi hin
    obtain ⟨b, hb, -⟩ := hf j hj hjn
    rw [if_pos (by omega), key_eq (by omega) ha, key_eq (by omega) hb]
    simp [hjn, keyAt_eq ha, keyAt_eq hb, UInt64.lt_iff_toNat_lt]
  · rw [if_neg (by omega), if_neg (by simp [hjn])]

/-- What the two comparisons choose: the slot, when no child has a smaller key, else the child with the smallest key. -/
theorem smaller_spec (hf : h.Filled n) (hpos : h.pos = n + 1) (hlen : n ≤ h.len) (hi : 1 ≤ i) (hin : i ≤ n + 1)
    (hshort : n + 1 < 2 ^ 31) :
    ∃ s t, h.smaller i (leftOf i) = some s ∧ h.smaller s (rightOf i) = some t ∧
      (t = i ∧ (∀ c, c / 2 = i → c ≤ n → h.keyAt i ≤ h.keyAt c) ∨
        t / 2 = i ∧ t ≤ n ∧ h.keyAt t < h.keyAt i ∧ ∀ c, c / 2 = i → c ≤ n → h.keyAt t ≤ h.keyAt c) := by
  have hleft : leftOf i = i * 2 := Nat.mod_eq_of_lt (by omega)
  have hright : rightOf i = i * 2 + 1 := by
    rw [rightOf, hleft]
    exact Nat.mod_eq_of_lt (by omega)
  have hchild : ∀ c, c / 2 = i → c = i * 2 ∨ c = i * 2 + 1 := fun c hc => by omega
  rw [hleft, hright]
  refine ⟨_, _, smaller_eq hf hpos hlen (fun h2 => ⟨hi, by omega⟩) (by omega),
    smaller_eq hf hpos hlen (fun h2 => ?_) (by omega), ?_⟩
  · split <;> omega
  · by_cases hl : i * 2 ≤ n ∧ h.keyAt (i * 2) < h.keyAt i
    · rw [if_pos hl]
      by_cases hr : i * 2 + 1 ≤ n ∧ h.keyAt (i * 2 + 1) < h.keyAt (i * 2)
      · rw [if_pos hr]
        refine .inr ⟨by omega, hr.1, hr.2.trans hl.2, fun c hc _ => ?_⟩
        obtain rfl | rfl := hchild c hc
        · exact hr.2.le
        · exact le_rfl
      · rw [if_neg hr]
        refine .inr ⟨by omega, hl.1, hl.2, fun c hc hcn => ?_⟩
        obtain rfl | rfl := hchild c hc
        · exact le_rfl
        · exact not_lt.mp fun hlt => hr ⟨hcn, hlt⟩
    · rw [if_neg hl]
      by_cases hr : i * 2 + 1 ≤ n ∧ h.keyAt (i * 2 + 1) < h.keyAt i
      · rw [if_pos hr]
        refine .inr ⟨by omega, hr.1, hr.2, fun c hc hcn => ?_⟩
        obtain rfl | rfl := hchild c hc
        · exact hr.2.le.trans (not_lt.mp fun hlt => hl ⟨hcn, hlt⟩)
        · exact le_rfl
      · rw [if_neg hr]
        refine .inl ⟨rfl, fun c hc hcn => ?_⟩
        obtain rfl | rfl := hchild c hc
        · exact not_lt.mp fun hlt => hl ⟨hcn, hlt⟩
        · exact not_lt.mp fun hlt => hr ⟨hcn, hlt⟩

end Heap

/-! ### The operations -/

variable [DecidableEq α]

namespace Heap

/-- `array[i]->pos = i`. -/
def stamp (h : Heap α) (i : Nat) : Option (Heap α) :=
  (h.node i).map fun a => { h with nodes := Function.update h.nodes a { h.nodes a with pos := i } }

/-- The loop of `xheap_push`. -/
def up (h : Heap α) (node : α) (i : Nat) : Nat → Option (Nat × Heap α)
  | 0 => none
  | n + 1 =>
    if topOf i > 0 then
      (h.key (topOf i)).bind fun above =>
        if (h.nodes node).key < above then do
          let p ← h.get (topOf i)
          let h ← h.put i p
          let h ← h.stamp i
          up h node (topOf i) n
        else some (i, h)
    else some (i, h)

/-- The two nodes are exchanged. -/
def exchange (h : Heap α) (index smallest : Nat) : Option (Heap α) := do
  let tmp ← h.get index
  let p ← h.get smallest
  let h ← h.put index p
  let h ← h.stamp index
  let h ← h.put smallest tmp
  h.stamp smallest

/-- The loop of `xheap_pop` and of `xheap_remove`. -/
def down (h : Heap α) (index : Nat) : Nat → Option (Heap α)
  | 0 => none
  | n + 1 =>
    (h.smaller index (leftOf index)).bind fun smallest =>
      (h.smaller smallest (rightOf index)).bind fun smallest =>
        if smallest ≠ index then (h.exchange index smallest).bind fun h => down h smallest n else some h

/-- The node of a slot is put aside, the last one is put into the slot and goes down. -/
def take (h : Heap α) (smallest : Nat) : Option (Option α × Heap α) := do
  let p ← h.get smallest
  let h ← h.put 0 p
  let last ← h.get h.pos
  let h ← h.put smallest last
  let h ← h.stamp smallest
  let h ← h.put h.pos none
  let h ← h.down smallest h.pos
  let h := { h with pos := h.pos - 1 }
  let first ← h.get 0
  some (first, h)

/-- The only node is taken. -/
def takeOnly (h : Heap α) : Option (Option α × Heap α) := do
  let h := { h with pos := 0 }
  let p ← h.get heapTop
  let h ← h.put 0 p
  let h ← h.put heapTop none
  let first ← h.get 0
  some (first, h)

end Heap

def xheapPush (h : Heap α) (node : α) : Option (Nat × Heap α) :=
  if h.pos < h.len then do
    let h := { h with pos := h.pos + 1 }
    let (i, h) ← h.up node h.pos h.pos
    let h ← h.put i (some node)
    let h ← h.stamp i
    if i ≤ 0 then some (xeof, h) else some (i, h)
  else some (0, h)

def xheapPop (h : Heap α) : Option (Option α × Heap α) :=
  if h.pos < heapTop then some (none, h) else if h.pos = heapTop then h.takeOnly else h.take heapTop

def xheapRemove (h : Heap α) (node : α) : Option (Option α × Heap α) :=
  let smallest := (h.nodes node).pos % 2 ^ 32
  if h.pos < heapTop then some (none, h)
  else if h.pos = heapTop then h.takeOnly
  else (h.key smallest).bind fun key => if key ≠ (h.nodes node).key then some (none, h) else h.take smallest

namespace Heap

/-- A node is put into a slot. -/
def seat (h : Heap α) (i : Nat) (a : α) : Heap α :=
  { h with
    array := Function.update h.array i (some a)
    nodes := Function.update h.nodes a { h.nodes a with pos := i } }

/-- A node is put into a cell and gets the number of the cell. -/
theorem put_stamp (hi : i ≤ h.len) (a : α) : ((h.put i (some a)).bind fun h => h.stamp i) = some (h.seat i a) := by
  simp [put_eq hi, stamp, node, get, hi, seat]

@[simp] theorem seat_pos (h : Heap α) (i : Nat) (a : α) : (h.seat i a).pos = h.pos := rfl

@[simp] theorem seat_len (h : Heap α) (i : Nat) (a : α) : (h.seat i a).len = h.len := rfl

@[simp] theorem seat_array (h : Heap α) (i : Nat) (a : α) : (h.seat i a).array = Function.update h.array i (some a) :=
  rfl

theorem seat_key (h : Heap α) (i : Nat) (a x : α) : ((h.seat i a).nodes x).key = (h.nodes x).key := by
  by_cases hx : x = a
  · subst hx
    simp [seat]
  · simp [seat, hx]

theorem seat_node_pos (h : Heap α) (i : Nat) (a x : α) :
    ((h.seat i a).nodes x).pos = if x = a then i else (h.nodes x).pos := by
  by_cases hx : x = a
  · subst hx
    simp [seat]
  · simp [seat, hx]

/-! ### The exchange of two nodes -/

theorem exchange_eq (hi : i ≤ h.len) (hj : j ≤ h.len) (ha : h.array i = some a) (hb : h.array j = some b) :
    h.exchange i j = some ((h.seat i b).seat j a) := by
  have hfirst := put_stamp hi b
  have hj' : j ≤ (h.seat i b).len := hj
  have hsecond := put_stamp hj' a
  unfold exchange
  simp only [get_eq hi, get_eq hj, ha, hb, Option.bind_eq_bind, Option.bind_some]
  rw [← Option.bind_assoc, hfirst]
  exact hsecond

/-- An exchange keeps the nodes of the slots. -/
theorem exchange_rearranged (hf : h.Filled n) (hi : 1 ≤ i) (hin : i ≤ n) (hj : 1 ≤ j) (hjn : j ≤ n) (hij : i ≠ j)
    (ha : h.array i = some a) (hb : h.array j = some b) :
    Rearranged h ((h.seat i b).seat j a) n ∧ ((h.seat i b).seat j a).keyAt = h.keyAt ∘ Equiv.swap i j := by
  have harray : ((h.seat i b).seat j a).array = h.array ∘ Equiv.swap i j := by
    funext c
    simp only [seat_array, Function.comp_apply]
    by_cases hcj : c = j
    · subst hcj
      simp [ha]
    by_cases hci : c = i
    · subst hci
      simp [hij, hb]
    · rw [Function.update_of_ne hcj, Function.update_of_ne hci, Equiv.swap_apply_of_ne_of_ne hci hcj]
  have hkey : ∀ x, (((h.seat i b).seat j a).nodes x).key = (h.nodes x).key := by
    intro x
    rw [seat_key, seat_key]
  have hwithin : ∀ c, 1 ≤ c → c ≤ n → 1 ≤ Equiv.swap i j c ∧ Equiv.swap i j c ≤ n := by
    intro c hc hcn
    rw [Equiv.swap_apply_def]
    split
    · exact ⟨hj, hjn⟩
    · split
      · exact ⟨hi, hin⟩
      · exact ⟨hc, hcn⟩
  refine ⟨⟨rfl, rfl, ?_, hkey, ?_, ?_⟩, ?_⟩
  · rw [harray, Function.comp_apply, Equiv.swap_apply_of_ne_of_ne (by omega) (by omega)]
  · intro c hc hcn
    rw [harray, Function.comp_apply]
    by_cases hcj : c = j
    · subst hcj
      exact ⟨a, by simpa using ha, by simp [seat_node_pos]⟩
    by_cases hci : c = i
    · subst hci
      have hba : b ≠ a := by
        rintro rfl
        exact hij ((hf.pos_eq hi hin ha).symm.trans (hf.pos_eq hj hjn hb))
      exact ⟨b, by simpa using hb, by simp [seat_node_pos, hba]⟩
    · rw [Equiv.swap_apply_of_ne_of_ne hci hcj]
      obtain ⟨x, hx, hpos⟩ := hf c hc hcn
      have hxa : x ≠ a := by
        rintro rfl
        exact hci (hpos.symm.trans (hf.pos_eq hi hin ha))
      have hxb : x ≠ b := by
        rintro rfl
        exact hcj (hpos.symm.trans (hf.pos_eq hj hjn hb))
      exact ⟨x, hx, by simp [seat_node_pos, hxa, hxb, hpos]⟩
  · intro x
    constructor
    · rintro ⟨c, hc, hcn, hx⟩
      rw [harray] at hx
      exact ⟨_, (hwithin c hc hcn).1, (hwithin c hc hcn).2, hx⟩
    · rintro ⟨c, hc, hcn, hx⟩
      refine ⟨_, (hwithin c hc hcn).1, (hwithin c hc hcn).2, ?_⟩
      rw [harray, Function.comp_apply, Equiv.swap_apply_self]
      exact hx
  · funext c
    simp only [keyAt, harray, hkey, Function.comp_apply]

/-! ### The way up -/

theorem seat_seat (h : Heap α) (i j : Nat) (a b : α) : ((h.seat i a).seat i b).seat j a = (h.seat i b).seat j a := by
  unfold seat
  congr 1
  · simp
  · funext x
    by_cases hxa : x = a
    · subst hxa
      by_cases hxb : x = b
      · subst hxb
        simp
      · simp [hxb]
    · by_cases hxb : x = b
      · subst hxb
        simp [hxa]
      · simp [hxa, hxb]

/-- The loop ends at a slot where the node can be put. -/
theorem up_spec {node : α} {turns : Nat} (hf : (h.seat i node).Filled n) (hup : Up (h.seat i node).keyAt n i)
    (hi : 1 ≤ i)
    (hin : i ≤ n) (hn : n ≤ h.len) (hturns : i ≤ turns) :
    ∃ i' h', h.up node i turns = some (i', h') ∧ 1 ≤ i' ∧ i' ≤ n ∧
      Rearranged (h.seat i node) (h'.seat i' node) n ∧ Ordered (h'.seat i' node).keyAt n := by
  induction turns generalizing h i with
  | zero => omega
  | succ turns ih =>
    unfold up topOf
    have hseated : (h.seat i node).array i = some node := by simp
    by_cases htop : i / 2 > 0
    · obtain ⟨b, hb, -⟩ := hf (i / 2) htop (by omega)
      have hne : i / 2 ≠ i := by omega
      have harray : h.array (i / 2) = some b := by
        rwa [seat_array, Function.update_of_ne hne] at hb
      have hless : (h.nodes node).key < (h.nodes b).key ↔ (h.seat i node).keyAt i < (h.seat i node).keyAt (i / 2) := by
        rw [keyAt_eq hseated, keyAt_eq hb, seat_key, seat_key, UInt64.lt_iff_toNat_lt]
      rw [if_pos htop, key_eq (by omega) harray, Option.bind_some]
      by_cases hlt : (h.nodes node).key < (h.nodes b).key
      · rw [if_pos hlt]
        obtain ⟨hswap, hkeys⟩ := exchange_rearranged hf hi hin htop (by omega) hne.symm hseated hb
        rw [seat_seat] at hswap hkeys
        have hnext : Up ((h.seat i b).seat (i / 2) node).keyAt n (i / 2) := by
          rw [hkeys]
          exact hup.step (by omega) hin (hless.mp hlt)
        have hn' : n ≤ (h.seat i b).len := hn
        obtain ⟨i', h', hrun, hi', hin', hkept, hordered⟩ := ih hswap.filled hnext htop (by omega) hn' (by omega)
        refine ⟨i', h', ?_, hi', hin', hswap.trans hkept, hordered⟩
        have hlen : i ≤ h.len := by omega
        simp only [get_eq (show i / 2 ≤ h.len by omega), harray, Option.bind_eq_bind, Option.bind_some]
        rw [← Option.bind_assoc, put_stamp hlen]
        exact hrun
      · rw [if_neg hlt]
        exact ⟨i, h, rfl, hi, hin, .refl hf, hup.finish fun _ => not_lt.mp fun h => hlt (hless.mpr h)⟩
    · rw [if_neg htop]
      exact ⟨i, h, rfl, hi, hin, .refl hf, hup.finish fun h2 => by omega⟩

/-! ### The way down -/

/-- The loop ends, and puts the slots in order when only the children of the slot may have smaller keys. It stops at
once when they have not. -/
theorem down_spec {turns : Nat} (hf : h.Filled n) (hpos : h.pos = n + 1) (hlen : n ≤ h.len) (hi : 1 ≤ i)
    (hin : i ≤ n + 1)
    (hshort : n + 1 < 2 ^ 31) (hturns : n + 1 < i + turns) :
    ∃ h', h.down i turns = some h' ∧ Rearranged h h' n ∧ (Down h.keyAt n i → Ordered h'.keyAt n) ∧
      ((∀ c, c / 2 = i → c ≤ n → h.keyAt i ≤ h.keyAt c) → h' = h) := by
  induction turns generalizing h i with
  | zero => omega
  | succ turns ih =>
    obtain ⟨s, t, hs, ht, hcase⟩ := smaller_spec hf hpos hlen hi hin hshort
    unfold down
    rw [hs, Option.bind_some, ht, Option.bind_some]
    obtain ⟨rfl, hstop⟩ | ⟨hchild, htn, hlt, hmin⟩ := hcase
    · rw [if_neg (by simp)]
      exact ⟨h, rfl, .refl hf, fun hdown => hdown.finish fun c hc _ hcn => hstop c hc hcn, fun _ => rfl⟩
    · have hne : t ≠ i := by omega
      obtain ⟨a, ha, -⟩ := hf i hi (by omega)
      obtain ⟨b, hb, -⟩ := hf t (by omega) htn
      obtain ⟨hswap, hkeys⟩ := exchange_rearranged hf hi (by omega) (by omega) htn hne.symm ha hb
      rw [if_pos hne, exchange_eq (by omega) (by omega) ha hb, Option.bind_some]
      obtain ⟨h', hrun, hkept, hordered, -⟩ :=
        ih (i := t) hswap.filled hpos hlen (by omega) (by omega) (by omega)
      refine ⟨h', hrun, hswap.trans hkept, fun hdown => hordered ?_, fun hstop => ?_⟩
      · rw [hkeys]
        exact hdown.step hi hchild htn hlt hmin
      · exact absurd (hstop t hchild htn) (not_le.mpr hlt)

end Heap

end Wenas.Xheap
