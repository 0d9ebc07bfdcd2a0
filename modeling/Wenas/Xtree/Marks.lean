import Wenas.Xtree.Drop

/-!
# The marks of `tree_drop`

A node with children goes on the list when all of them are counted in its mark. The ones that are not counted are those
above a child 0, those that the walk does not come to, and the node where it starts. What is on the list and in the
marks after a part of the walk follows from the children counted so far.
-/
namespace Wenas.Xtree

open Wenas.Machine Wenas.Loop

variable {V : Type}

/-- The node comes after the start of the walk. -/
def below (start : Option (List Nibble)) (p : List Nibble) : Bool := start.all fun s => decide (p < s)

/-- The nodes in the order of the walk. -/
def visits (root : Tree V) (start : Option (List Nibble)) : List (List Nibble) :=
  root.nodes.reverse.filter (below start)

/-- The places of the children. -/
def kids (root : Tree V) (p : List Nibble) : Finset Nibble :=
  Finset.univ.filter fun i => (root.nodeAt (p ++ [i])).isNull = false

/-- The walk starts at the node, or counts all its children. -/
def Whole (root : Tree V) (start : Option (List Nibble)) (p : List Nibble) : Prop :=
  start = some p ∨ ∀ i ∈ kids root p, below start (p ++ [i]) = true ∧ Wide root (p ++ [i])

instance (root : Tree V) (start : Option (List Nibble)) (p : List Nibble) : Decidable (Whole root start p) :=
  inferInstanceAs (Decidable (_ ∨ _))

/-- The nodes of the list, without a limit. -/
def emitted (root : Tree V) (start : Option (List Nibble)) (keys : List (List Nibble)) : List (List Nibble) :=
  keys.filter fun p => decide (Whole root start p)

/-- After the nodes in `P`, it is the turn of this one to be on the list. -/
def Due (root : Tree V) (start : Option (List Nibble)) (P : List (List Nibble)) (p : List Nibble) : Prop :=
  start = some p ∨ (root.nodeAt p).branch = 0 ∧ p ∈ P ∨ (root.nodeAt p).branch ≠ 0 ∧ ∀ i ∈ kids root p, p ++ [i] ∈ P

instance (root : Tree V) (start : Option (List Nibble)) (P : List (List Nibble)) (p : List Nibble) :
    Decidable (Due root start P p) := inferInstanceAs (Decidable (_ ∨ _))

/-- The key is on the list before the walk leaves the node. -/
def Before (root : Tree V) (p q : List Nibble) : Prop := p < q ∨ p = q ∧ (root.nodeAt p).branch ≠ 0

instance (root : Tree V) (p q : List Nibble) : Decidable (Before root p q) := inferInstanceAs (Decidable (_ ∨ _))

/-- The node is counted in the mark of its parent, if the walk does not start before it. -/
def Noted (root : Tree V) (keys : List (List Nibble)) (count : Nat) (p : List Nibble) : Prop :=
  Wide root p ∧ (keys.filter fun q => decide (Before root p q)).length < count

instance (root : Tree V) (keys : List (List Nibble)) (count : Nat) (p : List Nibble) :
    Decidable (Noted root keys count p) := inferInstanceAs (Decidable (_ ∧ _))

/-- The children that are counted among the nodes in `P`. -/
def noted (root : Tree V) (keys : List (List Nibble)) (count : Nat) (P : List (List Nibble)) (p : List Nibble) :
    Finset Nibble :=
  (kids root p).filter fun i => p ++ [i] ∈ P ∧ Noted root keys count (p ++ [i])

/-- The keys up to the start of the walk, in a tree whose leaves are keys. -/
structure Kept (root : Tree V) (start : Option (List Nibble)) (keys : List (List Nibble)) : Prop where
  shaped : root.Shaped
  keys_eq : keys = root.keys.reverse.filter fun p => start = some p ∨ below start p = true
  present : ∀ s ∈ start, s ∈ root.keys
  leaf : ∀ p ≠ [], (root.nodeAt p).isNull = false → (root.nodeAt p).branch = 0 → p ∈ root.keys
  even : ∀ p ∈ root.keys, p.length % 2 = 0
  bare : [] ∉ root.keys

/-- What the walk has left after the nodes in `P`. -/
structure Found.Marked (root : Tree V) (start : Option (List Nibble)) (keys : List (List Nibble)) (count : Nat)
    (P : List (List Nibble)) (f : Found) : Prop where
  list : f.list = ((emitted root start keys).filter fun p => decide (Due root start P p)).take count
  rest : f.count.toNat + f.list.length = count
  marks : ∀ p, (f.x p).toNat = (noted root (emitted root start keys) count P p).card % (kids root p).card

section

variable {root : Tree V} {start : Option (List Nibble)} {keys P Q : List (List Nibble)} {count k b : Nat} {f : Found}
  {p q : List Nibble} {i : Nibble}

theorem mem_kids : i ∈ kids root p ↔ (root.nodeAt (p ++ [i])).isNull = false := by
  simp [kids]

theorem mem_visits : p ∈ visits root start ↔ (root.nodeAt p).isNull = false ∧ below start p = true := by
  rw [visits, List.mem_filter, mem_down]

theorem visits_sorted : (visits root start).Pairwise (· > ·) := down_sorted.filter _

theorem below_start (h : below start p = true) : start ≠ some p := by
  rintro rfl
  exact lt_irrefl p (of_decide_eq_true h)

theorem below_mono (h : below start p = true) (hlt : q < p) : below start q = true := by
  cases start with
  | none => rfl
  | some s => exact decide_eq_true (hlt.trans (of_decide_eq_true h))

theorem branch_card (h : root.Shaped) : (root.nodeAt p).branch.toNat = (kids root p).card := by
  have hshaped := h.nodeAt (p := p)
  cases hnode : root.nodeAt p with
  | null => simp [kids, Tree.nodeAt_concat, hnode, Tree.branch, Tree.child, Tree.isNull]
  | node n c =>
    rw [hnode] at hshaped
    rw [Tree.branch, hshaped.1, Tree.width, kids]
    simp only [Tree.nodeAt_concat, hnode, Tree.child_node]

theorem kids_le : (kids root p).card ≤ 16 := (Finset.card_le_univ _).trans_eq (Finset.card_fin 16)

theorem kids_null (h : (root.nodeAt p).isNull = true) : kids root p = ∅ := by
  refine Finset.filter_eq_empty_iff.mpr fun i _ hi => ?_
  rw [Tree.node_above hi] at h
  cases h

theorem kids_empty (h : root.Shaped) : kids root p = ∅ ↔ (root.nodeAt p).branch = 0 := by
  rw [← Finset.card_eq_zero, ← branch_card h, ← UInt16.toNat_inj]
  rfl

namespace Kept

theorem mem (h : Kept root start keys) : p ∈ keys ↔ p ∈ root.keys ∧ (start = some p ∨ below start p = true) := by
  rw [h.keys_eq, List.mem_filter, List.mem_reverse, decide_eq_true_iff]

theorem sorted (h : Kept root start keys) : keys.Pairwise (· > ·) := by
  rw [h.keys_eq]
  exact (List.pairwise_reverse.mpr Tree.keys_sorted).filter _

theorem emitted_sorted (h : Kept root start keys) : (emitted root start keys).Pairwise (· > ·) := h.sorted.filter _

theorem mem_emitted (h : Kept root start keys) :
    p ∈ emitted root start keys ↔ p ∈ root.keys ∧ (start = some p ∨ below start p = true) ∧ Whole root start p := by
  rw [emitted, List.mem_filter, h.mem, decide_eq_true_iff, and_assoc]

theorem there (h : Kept root start keys) (hp : p ∈ emitted root start keys) : (root.nodeAt p).isNull = false :=
  Tree.node_of_key (h.mem_emitted.mp hp).1

/-- The start is on the list. -/
theorem start_first (h : Kept root start keys) :
    (emitted root start keys).filter (fun p => decide (start = some p)) = start.toList := by
  cases start with
  | none => exact List.filter_eq_nil_iff.mpr fun _ _ => nofun
  | some s =>
    refine filter_one h.emitted_sorted ?_ fun p _ => ?_
    · exact h.mem_emitted.mpr ⟨h.present s rfl, .inl rfl, .inl rfl⟩
    · rw [decide_eq_true_iff, Option.some.injEq]
      exact eq_comm

/-- The keys that are on the list before the walk leaves a node. -/
theorem due_before (h : Kept root start keys) (hsplit : visits root start = P ++ p :: Q)
    (hq : q ∈ emitted root start keys) : Due root start P q ↔ Before root p q := by
  have hmem : ∀ r, r ∈ P ↔ ((root.nodeAt r).isNull = false ∧ below start r = true) ∧ p < r := by
    intro r
    rw [mem_before (hsplit ▸ visits_sorted), ← hsplit, mem_visits]
  obtain ⟨hpthere, hpbelow⟩ := mem_visits.mp (hsplit ▸ List.mem_append_right P List.mem_cons_self)
  obtain ⟨-, hup, hwhole⟩ := h.mem_emitted.mp hq
  have hqthere := h.there hq
  constructor
  · rintro (rfl | ⟨-, hin⟩ | ⟨hbranch, hkids⟩)
    · exact .inl (of_decide_eq_true hpbelow)
    · exact .inl ((hmem q).mp hin).2
    · by_cases heq : p = q
      · exact .inr ⟨heq, heq ▸ hbranch⟩
      refine .inl (not_le.mp fun hle => ?_)
      -- Between a node and a child there are only the ones below other children.
      obtain ⟨j, hj⟩ : (kids root q).Nonempty :=
        Finset.nonempty_iff_ne_empty.mpr fun hempty => hbranch ((kids_empty h.shaped).mp hempty)
      have hchild := ((hmem _).mp (hkids j hj)).2
      obtain ⟨r, rfl⟩ | hafter := not_lt_iff.mp (not_lt.mpr hle)
      · cases r with
        | nil => exact heq (List.append_nil q)
        | cons i r =>
          rw [← List.singleton_append, ← List.append_assoc] at hpthere
          have hless := ((hmem _).mp (hkids i (mem_kids.mpr (Tree.node_above hpthere)))).2
          rw [← List.singleton_append, ← List.append_assoc] at hless
          exact not_lt_of_begins (List.prefix_append _ _) hless
      · exact lt_asymm hchild (hafter.append_lt [j])
  · intro hbefore
    have hle : p ≤ q := hbefore.elim le_of_lt fun heq => heq.1.le
    by_cases hstart : start = some q
    · exact .inl hstart
    by_cases hbranch : (root.nodeAt q).branch = 0
    · have hlt : p < q := hbefore.resolve_right fun heq => heq.2 (heq.1 ▸ hbranch)
      exact .inr (.inl ⟨hbranch, (hmem q).mpr ⟨⟨hqthere, hup.resolve_left hstart⟩, hlt⟩⟩)
    · refine .inr (.inr ⟨hbranch, fun i hi => (hmem _).mpr ⟨⟨mem_kids.mp hi, ?_⟩, ?_⟩⟩)
      · exact ((hwhole.resolve_left hstart) i hi).1
      · exact lt_of_le_of_lt hle (lt_append q i [])

theorem due_mono (hdue : Due root start P q) : Due root start (P ++ [p]) q :=
  hdue.imp_right (Or.imp (And.imp_right (List.mem_append_left _))
    (And.imp_right fun hkids i hi => List.mem_append_left _ (hkids i hi)))

/-- A node brings itself on the list if it is a leaf, and else its parent. -/
theorem due_fresh (hdue : Due root start (P ++ [p]) q) (hnot : ¬ Due root start P q) :
    p = q ∧ (root.nodeAt q).branch = 0 ∨ ∃ i ∈ kids root q, p = q ++ [i] := by
  obtain hstart | ⟨hleaf, hin⟩ | ⟨hbranch, hkids⟩ := hdue
  · exact absurd (.inl hstart) hnot
  · obtain hin | hin := List.mem_append.mp hin
    · exact absurd (.inr (.inl ⟨hleaf, hin⟩)) hnot
    · exact .inl ⟨(List.mem_singleton.mp hin).symm, hleaf⟩
  · by_contra hother
    push Not at hother
    refine hnot (.inr (.inr ⟨hbranch, fun i hi => ?_⟩))
    exact (List.mem_append.mp (hkids i hi)).resolve_right fun hin => hother.2 i hi (List.mem_singleton.mp hin).symm

/-- What comes on the list comes behind what is there. -/
theorem due_snoc (h : Kept root start keys) (hsplit : visits root start = P ++ p :: Q) :
    (emitted root start keys).filter (fun q => decide (Due root start (P ++ [p]) q)) =
      (emitted root start keys).filter (fun q => decide (Due root start P q)) ++
        (emitted root start keys).filter fun q => decide (Due root start (P ++ [p]) q ∧ ¬ Due root start P q) := by
  refine filter_split h.emitted_sorted (fun q hq => ?_) fun q hq r hr hdue hfresh => ?_
  · rw [Bool.eq_iff_iff, Bool.or_eq_true, decide_eq_true_iff, decide_eq_true_iff, decide_eq_true_iff]
    constructor
    · intro hdue
      by_cases hold : Due root start P q
      · exact .inl hold
      · exact .inr ⟨hdue, hold⟩
    · exact fun hor => hor.elim due_mono And.left
  · have hbefore := (h.due_before hsplit hq).mp (of_decide_eq_true hdue)
    obtain ⟨hdue, hnot⟩ := of_decide_eq_true hfresh
    obtain ⟨rfl, hleaf⟩ | ⟨i, -, rfl⟩ := due_fresh hdue hnot
    · exact hbefore.resolve_right fun heq => heq.2 hleaf
    · exact lt_of_lt_of_le (lt_append r i []) (hbefore.elim le_of_lt fun heq => heq.1.le)

/-- A leaf comes on the list. -/
theorem due_leaf (h : Kept root start keys) (hsplit : visits root start = P ++ p :: Q) (hp : p ≠ [])
    (hleaf : (root.nodeAt p).branch = 0) :
    (emitted root start keys).filter (fun q => decide (Due root start (P ++ [p]) q)) =
      (emitted root start keys).filter (fun q => decide (Due root start P q)) ++ [p] := by
  obtain ⟨hthere, hbelow⟩ := mem_visits.mp (hsplit ▸ List.mem_append_right P List.mem_cons_self)
  have hkey := h.leaf p hp hthere hleaf
  have hin : p ∈ emitted root start keys := by
    refine h.mem_emitted.mpr ⟨hkey, .inr hbelow, .inr fun i hi => ?_⟩
    rw [(kids_empty h.shaped).mpr hleaf] at hi
    cases hi
  rw [h.due_snoc hsplit, List.append_right_inj]
  refine filter_one h.emitted_sorted hin fun q hq => ?_
  rw [decide_eq_true_iff]
  constructor
  · rintro ⟨hdue, hnot⟩
    obtain ⟨rfl, -⟩ | ⟨i, -, rfl⟩ := due_fresh hdue hnot
    · rfl
    · -- a key and its parent are not both of whole bytes
      have hlen := h.even _ hkey
      have hlen' := h.even _ (h.mem_emitted.mp hq).1
      rw [List.length_append, List.length_singleton] at hlen
      omega
  · rintro rfl
    refine ⟨.inr (.inl ⟨hleaf, by simp⟩), fun hdue => ?_⟩
    obtain hlt | heq := (h.due_before hsplit hin).mp hdue
    · exact lt_irrefl _ hlt
    · exact heq.2 hleaf

/-- The parent of the last child comes on the list. -/
theorem due_parent (h : Kept root start keys) (hsplit : visits root start = P ++ (p ++ [i]) :: Q)
    (hin : p ∈ emitted root start keys) (hkids : ∀ j ∈ kids root p, p ++ [j] ∈ P ++ [p ++ [i]])
    (hbranch : (root.nodeAt (p ++ [i])).branch ≠ 0) :
    (emitted root start keys).filter (fun q => decide (Due root start (P ++ [p ++ [i]]) q)) =
      (emitted root start keys).filter (fun q => decide (Due root start P q)) ++ [p] := by
  obtain ⟨hthere, hbelow⟩ := mem_visits.mp (hsplit ▸ List.mem_append_right P List.mem_cons_self)
  rw [h.due_snoc hsplit, List.append_right_inj]
  refine filter_one h.emitted_sorted hin fun q hq => ?_
  rw [decide_eq_true_iff]
  constructor
  · rintro ⟨hdue, hnot⟩
    obtain ⟨rfl, hleaf⟩ | ⟨j, -, heq⟩ := due_fresh hdue hnot
    · exact absurd hleaf hbranch
    · exact (List.append_inj_left' heq rfl).symm
  · rintro rfl
    refine ⟨.inr (.inr ⟨branch_above h.shaped hthere, hkids⟩), fun hdue => ?_⟩
    have hlt := lt_append q i []
    obtain hlt' | heq := (h.due_before hsplit hin).mp hdue
    · exact lt_asymm hlt hlt'
    · exact hlt.ne' heq.1

/-- Nothing comes on the list. -/
theorem due_nothing (h : Kept root start keys) (hsplit : visits root start = P ++ p :: Q)
    (hleaf : (root.nodeAt p).branch ≠ 0 ∨ p ∉ emitted root start keys)
    (hparent : ∀ q i, p = q ++ [i] → q ∈ emitted root start keys → ∃ j ∈ kids root q, q ++ [j] ∉ P ++ [p]) :
    (emitted root start keys).filter (fun q => decide (Due root start (P ++ [p]) q)) =
      (emitted root start keys).filter (fun q => decide (Due root start P q)) := by
  rw [h.due_snoc hsplit, List.append_right_eq_self, List.filter_eq_nil_iff]
  intro q hq hfresh
  obtain ⟨hdue, hnot⟩ := of_decide_eq_true hfresh
  obtain ⟨rfl, hzero⟩ | ⟨i, hi, rfl⟩ := due_fresh hdue hnot
  · exact hleaf.elim (fun hne => hne hzero) fun hout => hout hq
  · obtain ⟨j, hj, hout⟩ := hparent q i rfl hq
    obtain hstart | ⟨hzero, -⟩ | ⟨-, hall⟩ := hdue
    · exact hnot (.inl hstart)
    · exact branch_above h.shaped (mem_kids.mp hi) hzero
    · exact hout (hall j hj)

end Kept

/-! ### The marks -/

theorem mem_noted : i ∈ noted root keys count P p ↔
    i ∈ kids root p ∧ p ++ [i] ∈ P ∧ Noted root keys count (p ++ [i]) := by
  rw [noted, Finset.mem_filter]

theorem noted_same (h : ∀ i, q = p ++ [i] → ¬ Noted root keys count q) :
    noted root keys count (P ++ [q]) p = noted root keys count P p := by
  ext i
  rw [mem_noted, mem_noted, List.mem_append, List.mem_singleton]
  refine and_congr_right fun _ => and_congr_left fun hnoted => or_iff_left ?_
  rintro rfl
  exact h i rfl hnoted

theorem noted_insert (hi : i ∈ kids root p) (hnoted : Noted root keys count (p ++ [i])) :
    noted root keys count (P ++ [p ++ [i]]) p = insert i (noted root keys count P p) := by
  ext j
  rw [Finset.mem_insert, mem_noted, mem_noted, List.mem_append, List.mem_singleton]
  by_cases hj : j = i
  · subst hj
    simp [hi, hnoted]
  · simp [hj]

/-- The block under `if (tree)`, for a mark that is `k` of `b`. -/
theorem mark_eq (hk : (f.x p).toNat = k) (hb : (root.nodeAt p).branch.toNat = b) (hlt : k < b) (hle : b ≤ 16) :
    f.mark root p = ⟨if k + 1 = b ∧ p ∈ root.keys then f.list ++ [p] else f.list,
      if k + 1 = b ∧ p ∈ root.keys then f.count - 1 else f.count,
        Function.update f.x p (UInt8.ofNat ((k + 1) % b))⟩ := by
  have hone : (1 : UInt8).toNat = 1 := rfl
  have hnext : (f.x p + 1).toNat = k + 1 := by
    rw [UInt8.toNat_add]
    omega
  have hfull : (f.x p + 1).toUInt16 = (root.nodeAt p).branch ↔ k + 1 = b := by
    rw [← UInt16.toNat_inj, UInt8.toNat_toUInt16, hnext, hb]
  rw [Found.mark]
  by_cases hlast : k + 1 = b
  · rw [if_pos (hfull.mpr hlast), ← hlast, Nat.mod_self]
    by_cases hkey : p ∈ root.keys
    · simp [Tree.mem_keys.mp hkey, hkey, Found.emit]
    · have hbare : ¬ (root.lookup p).isSome := fun hsome => hkey (Tree.mem_keys.mpr hsome)
      simp [hbare, hkey]
  · rw [if_neg fun heq => hlast (hfull.mp heq), Nat.mod_eq_of_lt (by omega)]
    have hx : UInt8.ofNat (k + 1) = f.x p + 1 := UInt8.toNat_inj.mp (by rw [hnext, UInt8.toNat_ofNat']; omega)
    simp [hlast, hx]

namespace Found.Marked

/-- The limit for the next node is the one for the list. -/
theorem noted_iff (hkept : Kept root start keys) (hsplit : visits root start = P ++ p :: Q) :
    Noted root (emitted root start keys) count p ↔
      Wide root p ∧ ((emitted root start keys).filter fun q => decide (Due root start P q)).length < count := by
  rw [Noted, List.filter_congr fun q hq => decide_eq_decide.mpr (hkept.due_before hsplit hq)]

theorem length_eq (h : f.Marked root start keys count P) : f.list.length =
    min count ((emitted root start keys).filter fun q => decide (Due root start P q)).length := by
  rw [h.list, List.length_take]

/-- A count that is used up stays so. -/
theorem spent (h : f.Marked root start keys count P) (hkept : Kept root start keys)
    (hsplit : visits root start = P ++ p :: Q) (hzero : f.count = 0) : f.Marked root start keys count (P ++ [p]) := by
  have hrest := h.rest
  rw [hzero, h.length_eq] at hrest
  have hle : count ≤ ((emitted root start keys).filter fun q => decide (Due root start P q)).length := by
    have hzero' : (0 : UInt64).toNat = 0 := rfl
    omega
  refine ⟨?_, h.rest, fun q => ?_⟩
  · rw [hkept.due_snoc hsplit, List.take_append_of_le_length hle]
    exact h.list
  · rw [noted_same fun _ _ hnoted => Nat.not_lt.mpr hle ((noted_iff hkept hsplit).mp hnoted).2]
    exact h.marks q

/-- With a rest of the count, the list has all that was due. -/
theorem room (h : f.Marked root start keys count P) (hcount : f.count ≠ 0) :
    ((emitted root start keys).filter fun q => decide (Due root start P q)).length < count ∧
      f.list = (emitted root start keys).filter fun q => decide (Due root start P q) := by
  have hpos : 0 < f.count.toNat := Nat.pos_of_ne_zero fun hzero => hcount (UInt64.toNat_inj.mp hzero)
  have hrest := h.rest
  have hlen := h.length_eq
  have hlt : ((emitted root start keys).filter fun q => decide (Due root start P q)).length < count := by omega
  exact ⟨hlt, h.list.trans (List.take_of_length_le hlt.le)⟩

/-- A node that is not counted changes no mark. -/
theorem marks_same (h : f.Marked root start keys count P) (hnot : ∀ q i, p = q ++ [i] →
    ¬ Noted root (emitted root start keys) count p) (q : List Nibble) :
    (f.x q).toNat = (noted root (emitted root start keys) count (P ++ [p]) q).card % (kids root q).card := by
  rw [noted_same fun i hi => hnot q i hi]
  exact h.marks q

/-- A child that is counted. The last one brings its parent on the list, if this is a key. -/
theorem mark_step {g : Found} (h : f.Marked root start keys count P) (hkept : Kept root start keys)
    (hsplit : visits root start = P ++ (p ++ [i]) :: Q)
    (hnoted : Noted root (emitted root start keys) count (p ++ [i])) (hx : g.x = f.x) :
    ∃ full : Bool, (full = true ↔
        noted root (emitted root start keys) count (P ++ [p ++ [i]]) p = kids root p ∧ p ∈ root.keys) ∧
      (g.mark root p).list = (if full then g.list ++ [p] else g.list) ∧
      (g.mark root p).count = (if full then g.count - 1 else g.count) ∧
      ∀ q, ((g.mark root p).x q).toNat =
        (noted root (emitted root start keys) count (P ++ [p ++ [i]]) q).card % (kids root q).card := by
  have hthere := (mem_visits.mp (hsplit ▸ List.mem_append_right P List.mem_cons_self)).1
  have hi := mem_kids.mpr hthere
  have hinsert := noted_insert (P := P) hi hnoted
  have hnew : i ∉ noted root (emitted root start keys) count P p := by
    intro hin
    have hlt := ((mem_before (hsplit ▸ visits_sorted)).mp (mem_noted.mp hin).2.1).2
    exact lt_irrefl _ hlt
  have hcard : (noted root (emitted root start keys) count (P ++ [p ++ [i]]) p).card =
      (noted root (emitted root start keys) count P p).card + 1 := by
    rw [hinsert, Finset.card_insert_of_notMem hnew]
  have hsub : noted root (emitted root start keys) count (P ++ [p ++ [i]]) p ⊆ kids root p := Finset.filter_subset ..
  have hlt : (noted root (emitted root start keys) count P p).card < (kids root p).card := by
    have hle := Finset.card_le_card hsub
    omega
  have hk : (g.x p).toNat = (noted root (emitted root start keys) count P p).card := by
    rw [hx, h.marks p, Nat.mod_eq_of_lt hlt]
  have hfull : (noted root (emitted root start keys) count P p).card + 1 = (kids root p).card ↔
      noted root (emitted root start keys) count (P ++ [p ++ [i]]) p = kids root p := by
    rw [← hcard]
    exact ⟨fun heq => Finset.eq_of_subset_of_card_le hsub heq.ge, fun heq => by rw [heq]⟩
  refine ⟨decide (noted root (emitted root start keys) count (P ++ [p ++ [i]]) p = kids root p ∧ p ∈ root.keys),
    decide_eq_true_iff, ?_⟩
  rw [mark_eq hk (branch_card hkept.shaped) hlt kids_le]
  simp only [hfull, hx, decide_eq_true_eq, true_and]
  intro q
  by_cases hq : q = p
  · subst hq
    have hmod := Nat.mod_lt ((noted root (emitted root start keys) count P q).card + 1) (Nat.zero_lt_of_lt hlt)
    have hle : (kids root q).card ≤ 16 := kids_le
    rw [Function.update_self, hcard, UInt8.toNat_ofNat', Nat.mod_eq_of_lt (by omega)]
  · rw [Function.update_of_ne hq, noted_same fun j hj => absurd (List.append_inj_left' hj rfl).symm hq]
    exact h.marks q

/-- A node that is to be on the list has all its children counted by then. -/
theorem all_noted (hkept : Kept root start keys) (hsplit : visits root start = P ++ (p ++ [i]) :: Q)
    (hnoted : Noted root (emitted root start keys) count (p ++ [i])) (hin : p ∈ emitted root start keys)
    (hstart : start ≠ some p) (hall : ∀ j ∈ kids root p, p ++ [j] ∈ P ++ [p ++ [i]]) :
    noted root (emitted root start keys) count (P ++ [p ++ [i]]) p = kids root p := by
  refine Finset.Subset.antisymm (Finset.filter_subset ..) fun j hj => mem_noted.mpr ⟨hj, hall j hj, ?_⟩
  have hwhole := (hkept.mem_emitted.mp hin).2.2.resolve_left hstart
  refine ⟨(hwhole j hj).2, Nat.lt_of_le_of_lt ?_ hnoted.2⟩
  refine (List.monotone_filter_right _ fun q hq => ?_).length_le
  have hbefore := of_decide_eq_true hq
  obtain hmem | heq := List.mem_append.mp (hall j hj)
  · have hlt := ((mem_before (hsplit ▸ visits_sorted)).mp hmem).2
    exact decide_eq_true (.inl (lt_of_lt_of_le hlt (hbefore.elim le_of_lt fun heq => heq.1.le)))
  · rw [← List.mem_singleton.mp heq]
    exact hq

/-- What a visit brings. -/
theorem visit (h : f.Marked root start keys count P) (hkept : Kept root start keys)
    (hsplit : visits root start = P ++ p :: Q) : (f.visit root p).Marked root start keys count (P ++ [p]) := by
  by_cases hcount : f.count = 0
  · rw [Found.visit, if_pos hcount]
    exact h.spent hkept hsplit hcount
  obtain ⟨hlt, hlist⟩ := h.room hcount
  have hpos : (1 : UInt64) ≤ f.count := by
    rw [UInt64.le_iff_toNat_le]
    exact Nat.one_le_iff_ne_zero.mpr fun hzero => hcount (UInt64.toNat_inj.mp hzero)
  have hrest := h.rest
  have hless : (f.count - 1).toNat + (f.list.length + 1) = count := by
    have hle := UInt64.le_iff_toNat_le.mp hpos
    have hone : (1 : UInt64).toNat = 1 := rfl
    rw [UInt64.toNat_sub_of_le _ _ hpos]
    omega
  -- one more on the list, at the end
  have hmore : ∀ q, (f.list ++ [q]).take count = f.list ++ [q] := by
    intro q
    refine List.take_of_length_le ?_
    rw [List.length_append, List.length_singleton, hlist]
    exact hlt
  obtain ⟨hthere, hbelow⟩ := mem_visits.mp (hsplit ▸ List.mem_append_right P List.mem_cons_self)
  cases p using List.reverseRecOn with
  | nil =>
    have hsame : f.visit root [] = f := by
      simp [Found.visit, Found.leave]
    rw [hsame]
    refine ⟨?_, h.rest, h.marks_same fun q i hq => absurd hq (by simp)⟩
    rw [hkept.due_nothing hsplit (.inr fun hin => hkept.bare (hkept.mem_emitted.mp hin).1) fun q i hq =>
      absurd hq (by simp)]
    exact h.list
  | append_singleton q i =>
    have hi := mem_kids.mpr hthere
    by_cases hleaf : (root.nodeAt (q ++ [i])).branch = 0
    · have hwide : Wide root (q ++ [i]) := by
        rw [Wide, Tree.nodeAt_concat, hkept.shaped.nodeAt.branch_eq_zero.mp hleaf]
        rfl
      obtain ⟨full, hfull, hlist', hcount', hmarks⟩ := h.mark_step (g := f.emit (q ++ [i])) hkept hsplit
        ((noted_iff hkept hsplit).mpr ⟨hwide, hlt⟩) rfl
      have hkey := hkept.leaf _ (by simp) hthere hleaf
      have hout : q ∉ root.keys := by
        intro hin
        have hlen := hkept.even _ hkey
        have hlen' := hkept.even _ hin
        rw [List.length_append, List.length_singleton] at hlen
        omega
      obtain rfl : full = false := Bool.eq_false_iff.mpr fun htrue => hout (hfull.mp htrue).2
      rw [visit_leaf hkept.shaped hcount (by simp) hleaf, Found.leave, parent_concat]
      refine ⟨?_, ?_, hmarks⟩
      · rw [hkept.due_leaf hsplit (by simp) hleaf, ← hlist, hmore, hlist']
        rfl
      · rw [hcount', hlist', ← hless]
        simp [Found.emit]
    by_cases hwide : Wide root (q ++ [i])
    · obtain ⟨full, hfull, hlist', hcount', hmarks⟩ := h.mark_step (g := f) hkept hsplit
        ((noted_iff hkept hsplit).mpr ⟨hwide, hlt⟩) rfl
      rw [visit_wide hcount hwide (.inr hleaf), Found.leave, parent_concat]
      have hup : below start q = true := below_mono hbelow (lt_append q i [])
      cases full with
      | true =>
        obtain ⟨hall, hkey⟩ := hfull.mp rfl
        have hkids : ∀ j ∈ kids root q, q ++ [j] ∈ P ++ [q ++ [i]] ∧
            Noted root (emitted root start keys) count (q ++ [j]) := by
          intro j hj
          rw [← hall] at hj
          exact (mem_noted.mp hj).2
        have hin : q ∈ emitted root start keys := by
          refine hkept.mem_emitted.mpr ⟨hkey, .inr hup, .inr fun j hj => ⟨?_, (hkids j hj).2.1⟩⟩
          have hvisit : q ++ [j] ∈ visits root start := by
            rw [hsplit, List.append_cons]
            exact List.mem_append_left Q (hkids j hj).1
          exact (mem_visits.mp hvisit).2
        refine ⟨?_, ?_, hmarks⟩
        · rw [hkept.due_parent hsplit hin (fun j hj => (hkids j hj).1) hleaf, ← hlist, hmore, hlist']
          rfl
        · rw [hcount', hlist', ← hless]
          simp
      | false =>
        refine ⟨?_, ?_, hmarks⟩
        · rw [hkept.due_nothing hsplit (.inl hleaf) fun p j hj hin => ?_, ← hlist, hlist']
          · exact (List.take_of_length_le (hlist ▸ hlt.le)).symm
          · obtain rfl : q = p := List.append_inj_left' hj rfl
            by_contra hnone
            push Not at hnone
            have hall := all_noted hkept hsplit ((noted_iff hkept hsplit).mpr ⟨hwide, hlt⟩) hin (below_start hup) hnone
            exact Bool.false_ne_true (hfull.mpr ⟨hall, (hkept.mem_emitted.mp hin).1⟩)
        · rw [hcount', hlist']
          exact hrest
    · rw [visit_above hwide hleaf]
      refine ⟨?_, h.rest, h.marks_same fun _ _ _ hnoted => hwide hnoted.1⟩
      rw [hkept.due_nothing hsplit (.inl hleaf) fun p j hj hin => ?_]
      · exact h.list
      · obtain rfl : q = p := List.append_inj_left' hj rfl
        obtain hstart | hwhole := (hkept.mem_emitted.mp hin).2.2
        · exact absurd hstart (below_start (below_mono hbelow (lt_append q i [])))
        · exact absurd (hwhole i hi).2 hwide

/-- The visits of the rest of the walk. -/
theorem run (h : f.Marked root start keys count P) (hkept : Kept root start keys)
    (hsplit : visits root start = P ++ Q) :
    (Q.foldl (Found.visit root) f).Marked root start keys count (visits root start) := by
  induction Q generalizing P f with
  | nil =>
    rw [List.append_nil] at hsplit
    rwa [hsplit]
  | cons p Q ih => exact ih (h.visit hkept hsplit) (by rw [hsplit, List.append_cons])

/-- After the whole walk all keys of the list are on it. -/
theorem list_eq (h : f.Marked root start keys count (visits root start)) (hkept : Kept root start keys) :
    f.list = (emitted root start keys).take count := by
  rw [h.list, List.filter_eq_self.mpr fun p hp => decide_eq_true ?_]
  obtain ⟨-, hup, hwhole⟩ := hkept.mem_emitted.mp hp
  obtain hstart | hup := hup
  · exact .inl hstart
  by_cases hleaf : (root.nodeAt p).branch = 0
  · exact .inr (.inl ⟨hleaf, mem_visits.mpr ⟨hkept.there hp, hup⟩⟩)
  · refine .inr (.inr ⟨hleaf, fun i hi => mem_visits.mpr ⟨mem_kids.mp hi, ?_⟩⟩)
    exact (hwhole.resolve_left (below_start hup) i hi).1

/-- At the start the list has the start. -/
theorem first (hkept : Kept root start keys) (hrest : f.count.toNat + f.list.length = count) (hx : f.x = fun _ => 0)
    (hlist : f.list = start.toList) : f.Marked root start keys count [] := by
  have hnone : ∀ p, noted root (emitted root start keys) count [] p = ∅ := fun p =>
    Finset.filter_eq_empty_iff.mpr fun i _ hin => List.not_mem_nil hin.1
  have hdue : ∀ p, Due root start [] p ↔ start = some p := by
    refine fun p => or_iff_left ?_
    rintro (⟨-, hin⟩ | ⟨hbranch, hall⟩)
    · cases hin
    · obtain ⟨i, hi⟩ : (kids root p).Nonempty :=
        Finset.nonempty_iff_ne_empty.mpr fun hempty => hbranch ((kids_empty hkept.shaped).mp hempty)
      cases hall i hi
  refine ⟨?_, hrest, fun p => by simp [hnone p, hx]⟩
  have hstart : (emitted root start keys).filter (fun p => decide (Due root start [] p)) = start.toList := by
    rw [← hkept.start_first]
    exact List.filter_congr fun p _ => decide_eq_decide.mpr (hdue p)
  rw [hstart, ← hlist, List.take_of_length_le (by omega)]

end Found.Marked

/-! ### The limit -/

/-- The node is counted in the mark of its parent. -/
def Passed (root : Tree V) (start : Option (List Nibble)) (keys : List (List Nibble)) (count : Nat) (p : List Nibble) :
    Prop := below start p = true ∧ Noted root keys count p

instance (root : Tree V) (start : Option (List Nibble)) (keys : List (List Nibble)) (count : Nat) (p : List Nibble) :
    Decidable (Passed root start keys count p) := inferInstanceAs (Decidable (_ ∧ _))

/-- Of each node all children are counted, or none, and then it is not to be on the list, or it is the start. -/
def AllOrNone (root : Tree V) (start : Option (List Nibble)) (keys : List (List Nibble)) (count : Nat) : Prop :=
  ∀ p ∈ root.nodes, (∀ i ∈ kids root p, Passed root start keys count (p ++ [i])) ∨
    (∀ i ∈ kids root p, ¬ Passed root start keys count (p ++ [i])) ∧ (start = some p ∨ p ∉ keys.take count)

instance (root : Tree V) (start : Option (List Nibble)) (keys : List (List Nibble)) (count : Nat) :
    Decidable (AllOrNone root start keys count) := inferInstanceAs (Decidable (∀ p ∈ root.nodes, _))

namespace Kept

/-- The nodes without a limit are as many as the keys, as far as the limit goes. -/
theorem noted_emitted (h : Kept root start keys) (hwhole : ∀ q ∈ keys.take count, Whole root start q) :
    Noted root (emitted root start keys) count p ↔ Noted root keys count p := by
  refine and_congr_right fun _ => ⟨fun hlt => ?_, fun hlt => ?_⟩
  · by_contra hle
    rw [Nat.not_lt] at hle
    have hbefore := take_filter h.sorted (fun x _ y _ hxy hy => ?_) hle
    · have hsame : (keys.take count).filter (fun q => decide (Before root p q) && decide (Whole root start q)) =
          keys.take count := by
        refine List.filter_eq_self.mpr fun q hq => ?_
        rw [hbefore q hq, decide_eq_true (hwhole q hq), Bool.and_true]
      have hlen := ((List.take_sublist count keys).filter
        fun q => decide (Before root p q) && decide (Whole root start q)).length_le
      rw [hsame, ← List.filter_filter, ← emitted] at hlen
      have hall := List.length_filter_le (fun q => decide (Before root p q)) keys
      rw [List.length_take] at hlen
      omega
    · have hy := of_decide_eq_true hy
      exact decide_eq_true (.inl (lt_of_le_of_lt (hy.elim le_of_lt fun heq => heq.1.le) hxy))
  · refine Nat.lt_of_le_of_lt ?_ hlt
    exact ((List.filter_sublist (l := keys)).filter _).length_le

/-- The children of a key that is on the list come to their turn before the count is used up. -/
theorem noted_child (h : Kept root start keys) (hp : p ∈ keys.take count) (hwide : Wide root (p ++ [i])) :
    Noted root keys count (p ++ [i]) := by
  refine ⟨hwide, ?_⟩
  by_contra hle
  rw [Nat.not_lt] at hle
  have hbefore := take_filter h.sorted (fun x _ y _ hxy hy => ?_) hle p hp
  · have hlt := lt_append p i []
    obtain hlt' | heq := of_decide_eq_true hbefore
    · exact lt_asymm hlt hlt'
    · exact hlt.ne' heq.1
  · have hy := of_decide_eq_true hy
    exact decide_eq_true (.inl (lt_of_le_of_lt (hy.elim le_of_lt fun heq => heq.1.le) hxy))

/-- When the walk leaves the first keys on its list and no marks. -/
theorem limit_iff (h : Kept root start keys) (hf : f.Marked root start keys count (visits root start)) :
    f.list = keys.take count ∧ f.x = (fun _ => 0) ↔ AllOrNone root start keys count := by
  have hlist : f.list = keys.take count ↔ ∀ p ∈ keys.take count, Whole root start p := by
    rw [hf.list_eq h, emitted, filter_take]
    simp only [decide_eq_true_iff]
  -- the children that are counted after the whole walk
  have hcounted : (∀ p ∈ keys.take count, Whole root start p) → ∀ p,
      noted root (emitted root start keys) count (visits root start) p =
        (kids root p).filter fun i => Passed root start keys count (p ++ [i]) := by
    intro hwhole p
    refine Finset.filter_congr fun i hi => ?_
    rw [h.noted_emitted hwhole, mem_visits, Passed, and_iff_right (mem_kids.mp hi)]
  rw [hlist]
  constructor
  · rintro ⟨hwhole, hx⟩ p -
    have hmark := hf.marks p
    rw [hx, hcounted hwhole p] at hmark
    have hle : ((kids root p).filter fun i => Passed root start keys count (p ++ [i])).card ≤ (kids root p).card :=
      Finset.card_le_card (Finset.filter_subset ..)
    obtain hlt | heq := Nat.lt_or_eq_of_le hle
    · rw [Nat.mod_eq_of_lt hlt] at hmark
      have hempty := Finset.card_eq_zero.mp hmark.symm
      have hnone := Finset.filter_eq_empty_iff.mp hempty
      refine .inr ⟨fun i hi => hnone hi, or_iff_not_imp_left.mpr fun hstart hp => ?_⟩
      obtain ⟨i, hi⟩ : (kids root p).Nonempty := Finset.card_pos.mp (Nat.zero_lt_of_lt hlt)
      obtain ⟨hbelow, hwide⟩ := (hwhole p hp).resolve_left hstart i hi
      exact hnone hi ⟨hbelow, h.noted_child hp hwide⟩
    · have hself := Finset.eq_of_subset_of_card_le (Finset.filter_subset ..) heq.ge
      exact .inl fun i hi => Finset.filter_eq_self.mp hself i hi
  · intro hall
    have hwhole : ∀ p ∈ keys.take count, Whole root start p := by
      intro p hp
      have hnode := Tree.node_of_key (h.mem.mp (List.mem_of_mem_take hp)).1
      obtain hkids | ⟨-, hstart | hout⟩ := hall p (Tree.mem_nodes.mpr hnode)
      · exact .inr fun i hi => ⟨(hkids i hi).1, (hkids i hi).2.1⟩
      · exact .inl hstart
      · exact absurd hp hout
    refine ⟨hwhole, funext fun p => UInt8.toNat_inj.mp ?_⟩
    rw [hf.marks p, hcounted hwhole p]
    cases hnode : (root.nodeAt p).isNull with
    | true =>
      rw [kids_null hnode]
      rfl
    | false =>
    obtain hkids | ⟨hnone, -⟩ := hall p (Tree.mem_nodes.mpr hnode)
    · rw [Finset.filter_eq_self.mpr hkids, Nat.mod_self]
      rfl
    · rw [Finset.filter_eq_empty_iff.mpr hnone, Finset.card_empty, Nat.zero_mod]
      rfl

end Kept

end

/-- The keys up to `start`, or all of them, from the last one down. -/
def dropped (m : KeyMap V) (start : Option (List UInt8)) : List (List UInt8) :=
  (sorted m).reverse.filter fun key => start.all fun s => decide (key ≤ s)

section

variable {root : Tree V} {m : KeyMap V} {start : Option (List UInt8)} {count : UInt64}

theorem Built.kept (h : Built root m) (hstart : ∀ key ∈ start, key ∈ m) :
    Kept root (start.map path) ((dropped m start).map path) := by
  have hpaths : (sorted m).map path = root.keys := sorted_path h.holds.lookup h.holds.paths
  refine ⟨h.rooted.shaped, ?_, ?_, ?_, ?_, ?_⟩
  · rw [← hpaths, ← List.map_reverse, List.filter_map, dropped]
    refine congrArg (List.map path) (List.filter_congr fun key _ => ?_)
    rw [Function.comp, Bool.eq_iff_iff, decide_eq_true_iff]
    cases start with
    | none => simp [below]
    | some s =>
      rw [Option.all_some, decide_eq_true_iff, Option.map_some, Option.some.injEq, below, Option.all_some,
        decide_eq_true_iff, ← path_le, le_iff_eq_or_lt]
      exact or_congr_left eq_comm
  · intro s hs
    obtain ⟨key, hkey, rfl⟩ := Option.map_eq_some_iff.mp hs
    rw [Tree.mem_keys, h.holds.lookup, Finmap.lookup_isSome]
    exact hstart key hkey
  · intro p hp hnode hleaf
    have hne : root.nodeAt p ≠ .null := by
      intro hnull
      rw [hnull] at hnode
      cases hnode
    obtain ⟨q, hq⟩ := (h.holds.counted.needed hp).mp hne
    have hkey := Tree.mem_keys.mpr hq
    rwa [only_leaf h.rooted.shaped hleaf (Tree.node_of_key hkey) (List.prefix_append p q)] at hkey
  · intro p hp
    obtain ⟨key, rfl⟩ := h.holds.paths p (Tree.mem_keys.mp hp)
    rw [length_path, Nat.mul_mod_right]
  · rw [Tree.mem_keys, h.rooted.bare]
    exact Bool.false_ne_true

/-- The walk ends with its list and marks. -/
theorem Built.drop_ends (h : Built root m) (hstart : ∀ key ∈ start, key ∈ m) (hcount : count ≠ 0) :
    ∃ (f : Found) (k : Nat), (∀ n ≥ k, treeDrop n root (fun _ => 0) start count = some (f.list, f.x)) ∧
      f.Marked root (start.map path) ((dropped m start).map path) count.toNat (visits root (start.map path)) := by
  have hkept := h.kept hstart
  cases start with
  | none =>
    obtain ⟨s, hs⟩ : ∃ s : Drop, s = ⟨some [], 15, .outer, ⟨[], count, fun _ => 0⟩⟩ := ⟨_, rfl⟩
    have hproper : s.Proper root := by
      subst hs
      refine ⟨?_, ?_, fun _ _ _ => Nat.lt_succ_self 15, nofun, nofun⟩
      · rintro _ ⟨rfl⟩
        rw [Tree.nodeAt_nil]
        exact h.rooted.notNull
      · rintro _ ⟨rfl⟩ -
        exact .inl rfl
    have hahead : root.nodes.reverse.filter s.ahead = visits root none := by
      subst hs
      refine List.filter_congr fun q _ => ?_
      rw [Drop.ahead_some (i := 15) rfl (by simp) rfl]
      exact decide_eq_true fun hafter => not_after_nil (after_last.mp hafter)
    obtain ⟨t, ⟨k, hk⟩, hresult⟩ := hproper.ends h.rooted
    refine ⟨t.found, k, fun n hn => ?_, ?_⟩
    · rw [treeDrop, ← hs, hk n hn]
      rfl
    · have hsettled : s.settled root = ⟨[], count, fun _ => 0⟩ := by rw [hs]; rfl
      rw [hresult, Drop.result, hahead, hsettled]
      exact (Found.Marked.first (f := ⟨[], count, fun _ => 0⟩) hkept rfl rfl rfl).run hkept rfl
  | some start =>
    have hin : start ∈ m := hstart start rfl
    obtain ⟨hpos, hlen⟩ := h.short start hin
    have hthere : (root.nodeAt (path start)).isNull = false := by
      refine Tree.node_of_key (Tree.mem_keys.mpr ?_)
      rw [h.holds.lookup, Finmap.lookup_isSome]
      exact hin
    obtain ⟨s, hs⟩ : ∃ s : Drop, s = ⟨some (path start), 255, .up, ⟨[path start], count - 1, fun _ => 0⟩⟩ := ⟨_, rfl⟩
    have hfollows := Drop.Proper.climb (s := s) hthere h.rooted (by rw [hs]) (.inr ⟨by rw [hs], by rw [hs]; rfl⟩)
      (by rw [hs]; rfl)
    have hahead : root.nodes.reverse.filter s.ahead = visits root (some (path start)) := by
      subst hs
      exact List.filter_congr fun q _ => Drop.ahead_none rfl (.inr rfl)
    obtain ⟨t, ⟨k, hk⟩, hresult⟩ := hfollows.proper.ends h.rooted
    refine ⟨t.found, k, fun n hn => ?_, ?_⟩
    · have hloop := hk n hn
      rw [hs] at hloop
      rw [treeDrop, take_keylen hlen]
      simp only [hthere, Bool.false_eq_true, if_false]
      exact congrArg (Option.map fun s => (s.found.list, s.found.x)) hloop
    · have hsettled : s.settled root = ⟨[path start], count - 1, fun _ => 0⟩ := by rw [hs]; rfl
      rw [hresult, hfollows.result, Drop.result, hahead, hsettled]
      refine (Found.Marked.first hkept ?_ rfl rfl).run hkept rfl
      have hone : (1 : UInt64).toNat = 1 := rfl
      have hne : count.toNat ≠ 0 := fun hzero => hcount (UInt64.toNat_inj.mp hzero)
      have hle : (1 : UInt64) ≤ count := by
        rw [UInt64.le_iff_toNat_le]
        omega
      rw [UInt64.toNat_sub_of_le _ _ hle, List.length_singleton]
      omega

end

/-- A walk down from a key of the tree, or from the end, leaves the first keys on its list and all marks at 0, so that a
second walk does the same, exactly if of each node all children are counted in its mark, or none. -/
theorem drop_first (es : List (TreeEvent V))
    (hrun : Along treeStep (fun root e => Called root e ∧ Fits root e) Tree.create es) (start : Option (List UInt8))
    (count : UInt64) (hstart : ∀ key ∈ start, key ∈ run mapStep (∅ : KeyMap V) es) (hcount : count ≠ 0) :
    let root := run treeStep Tree.create es
    let keys := (dropped (run mapStep (∅ : KeyMap V) es) start).map path
    ∃ list x k, (∀ n ≥ k, treeDrop n root (fun _ => 0) start count = some (list, x)) ∧
      (list = keys.take count.toNat ∧ x = (fun _ => 0) ∧ (∀ n ≥ k, treeDrop n root x start count = some (list, x)) ↔
        AllOrNone root (start.map path) keys count.toNat) := by
  intro root keys
  have h : Built root (run mapStep (∅ : KeyMap V) es) := built es hrun
  obtain ⟨f, k, hk, hmarked⟩ := h.drop_ends hstart hcount
  refine ⟨f.list, f.x, k, hk, ?_⟩
  rw [← (h.kept hstart).limit_iff hmarked]
  constructor
  · rintro ⟨hlist, hx, -⟩
    exact ⟨hlist, hx⟩
  · rintro ⟨hlist, hx⟩
    exact ⟨hlist, hx, fun n hn => by rw [hx, hk n hn, hx]⟩

/-- Two keys of one byte. -/
theorem drop_first_pair :
    let es := [TreeEvent.add [97] 1 fun _ => true, .add [98] 2 fun _ => true]
    ∃ list x k, (∀ n ≥ k, treeDrop n (run treeStep (Tree.create : Tree Nat) es) (fun _ => 0) none 2 = some (list, x)) ∧
      list = [path [98], path [97]] ∧ x = fun _ => 0 := by
  intro es
  have hrun : Along treeStep (fun root e => Called root e ∧
      Fits root e) (Tree.create : Tree Nat) es := by decide +kernel
  have hkeys : dropped (run mapStep (∅ : KeyMap Nat) es) none = [[98], [97]] := by
    have hsorted : sorted (run mapStep (∅ : KeyMap Nat) es) = [[97], [98]] :=
      (built es hrun).sorted_eq (by decide +kernel)
    rw [dropped, hsorted]
    rfl
  obtain ⟨list, x, k, hk, hiff⟩ := drop_first es hrun none 2 nofun (by decide)
  rw [hkeys] at hiff
  obtain ⟨hlist, hx, -⟩ := hiff.mpr (by decide +kernel)
  exact ⟨list, x, k, hk, hlist, hx⟩

/-- The first key is not on the list: below it is a child 0. -/
theorem drop_skips : ∃ es : List (TreeEvent Nat),
    Along treeStep (fun root e => Called root e ∧ Fits root e) Tree.create es ∧
    (treeDrop 200 (run treeStep Tree.create es) (fun _ => 0) none 2).map Prod.fst = some [path [97, 112]] ∧
      (dropped (run mapStep (∅ : KeyMap Nat) es) none).take 2 = [[97, 112], [97]] := by
  obtain ⟨es, hes⟩ : ∃ es : List (TreeEvent Nat), es = [.add [97] 1 fun _ => true, .add [97, 112] 2 fun _ => true] :=
    ⟨_, rfl⟩
  have hrun : Along treeStep (fun root e => Called root e ∧ Fits root e) (Tree.create : Tree Nat) es := by
    rw [hes]
    decide +kernel
  have hsorted : sorted (run mapStep (∅ : KeyMap Nat) es) = [[97], [97, 112]] := by
    refine (built es hrun).sorted_eq ?_
    rw [hes]
    decide +kernel
  refine ⟨es, hrun, ?_, ?_⟩
  · rw [hes]
    decide +kernel
  · rw [dropped, hsorted]
    rfl

end Wenas.Xtree
