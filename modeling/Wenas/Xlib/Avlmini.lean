import Mathlib

/-!
# The tree of `avlmini.c`

A tree holds pointers to user data. Parent pointers are the way back through the recursion; the flag beside a tree
says whether a loop over the ancestors goes on. Searches follow the comparison alone, so that what a search finds is
read off the nodes in order, whatever the heights are.
-/
namespace Wenas.Xlib

inductive Avl (α : Type) where
  | nil
  | node (height : Nat) (left : Avl α) (data : α) (right : Avl α)
  deriving DecidableEq, Repr

namespace Avl

variable {α : Type} {c : α → Int} {p q x y : α} {t t' : Avl α} {u v : List α}

def height : Avl α → Nat
  | nil => 0
  | node h _ _ _ => h

/-- The nodes in the order of `avl_node_first`, `avl_node_next`. -/
def toList : Avl α → List α
  | nil => []
  | node _ l x r => l.toList ++ x :: r.toList

/-- `_avl_node_height_update`. -/
def update (l : Avl α) (x : α) (r : Avl α) : Avl α := node (max l.height r.height + 1) l x r

/-- `_avl_node_fix_l`. -/
def fixL (l : Avl α) (x : α) : Avl α → Avl α
  | node _ (node h a y b) z d =>
    if d.height < h then update (update l x a) y (update b z d) else update (update l x (node h a y b)) z d
  | node _ nil z d => update (update l x nil) z d
  | nil => update l x nil

/-- `_avl_node_fix_r`. -/
def fixR (x : α) (r : Avl α) : Avl α → Avl α
  | node _ a y (node h b z d) =>
    if a.height < h then update (update a y b) z (update d x r) else update a y (update (node h b z d) x r)
  | node _ a y nil => update a y (update nil x r)
  | nil => update nil x r

def fix (h : Nat) (l : Avl α) (x : α) (r : Avl α) : Avl α :=
  if l.height + 2 ≤ r.height then fixL l x r
  else if r.height + 2 ≤ l.height then fixR x r l
  else node h l x r

/-- One turn of the loop of `avl_node_post_insert`. -/
def postInsert (h : Nat) (l : Avl α) (x : α) (r : Avl α) : Avl α × Bool :=
  let height := max l.height r.height + 1
  if h = height then (node h l x r, false) else (fix height l x r, true)

/-- One turn of `_avl_node_rebalance`, at a node that the loop has reached. -/
def rebalance (going : Bool) (h : Nat) (l : Avl α) (x : α) (r : Avl α) : Avl α × Bool :=
  let height := max l.height r.height + 1
  if !going || (h = height && decide (l.height ≤ r.height + 1) && decide (r.height ≤ l.height + 1)) then
    (node h l x r, false)
  else (fix height l x r, true)

/-- `avl_tree_find`; `c` compares the wanted data with that of a node. -/
def find (c : α → Int) : Avl α → Option α
  | nil => none
  | node _ l x r => if c x = 0 then some x else if c x < 0 then l.find c else r.find c

/-- The loop of `avl_tree_add` and then `avl_node_post_insert`; an error is the conflict. -/
def attach (c : α → Int) (p : α) : Avl α → Except α (Avl α × Bool)
  | nil => .ok (node 1 nil p nil, true)
  | node h l x r =>
    if c x = 0 then .error x
    else if c x < 0 then
      (l.attach c p).map fun s => if s.2 then postInsert h s.1 x r else (node h s.1 x r, false)
    else (r.attach c p).map fun s => if s.2 then postInsert h l x s.1 else (node h l x s.1, false)

/-- `avl_tree_add`: the tree, and the conflicting data if there is one. -/
def add (c : α → Int) (p : α) (t : Avl α) : Avl α × Option α :=
  match t.attach c p with
  | .ok s => (s.1, none)
  | .error x => (t, some x)

/-- The first node leaves its place to its right child. -/
def takeFirst : Avl α → Option (α × Avl α × Bool)
  | nil => none
  | node h l x r =>
    match l.takeFirst with
    | none => some (x, r, true)
    | some (y, l', going) => some (y, rebalance going h l' x r)

/-- `avl_node_erase` at the node itself. -/
def eraseRoot (h : Nat) (l r : Avl α) : Avl α × Bool :=
  match l, r.takeFirst with
  | nil, _ => (r, true)
  | l, none => (l, true)
  | l, some (y, r', going) => rebalance going h l y r'

/-! ### The nodes in order -/

@[simp] theorem toList_update (l : Avl α) (x : α) (r : Avl α) : (update l x r).toList = l.toList ++ x :: r.toList := rfl

@[simp] theorem toList_fixL (l : Avl α) (x : α) (r : Avl α) : (fixL l x r).toList = l.toList ++ x :: r.toList := by
  match r with
  | nil => rfl
  | node _ nil z d => simp [fixL, toList]
  | node _ (node h a y b) z d =>
    simp only [fixL]
    split <;> simp [toList]

@[simp] theorem toList_fixR (l : Avl α) (x : α) (r : Avl α) : (fixR x r l).toList = l.toList ++ x :: r.toList := by
  match l with
  | nil => rfl
  | node _ a y nil => simp [fixR, toList]
  | node _ a y (node h b z d) =>
    simp only [fixR]
    split <;> simp [toList]

@[simp] theorem toList_fix (h : Nat) (l : Avl α) (x : α) (r : Avl α) :
    (fix h l x r).toList = l.toList ++ x :: r.toList := by
  simp only [fix]
  split
  · simp
  · split <;> simp [toList]

@[simp] theorem toList_postInsert (h : Nat) (l : Avl α) (x : α) (r : Avl α) :
    (postInsert h l x r).1.toList = l.toList ++ x :: r.toList := by
  simp only [postInsert]
  split <;> simp [toList]

@[simp] theorem toList_rebalance (going : Bool) (h : Nat) (l : Avl α) (x : α) (r : Avl α) :
    (rebalance going h l x r).1.toList = l.toList ++ x :: r.toList := by
  simp only [rebalance]
  split <;> simp [toList]

/-! ### Searching -/

/-- The nodes before one that is not below the wanted data are not below it either. -/
def Monotone (c : α → Int) (l : List α) : Prop := l.Pairwise fun x y => c x ≤ 0 → c y < 0

theorem Monotone.split (h : Monotone c (u ++ x :: v)) :
    Monotone c u ∧ Monotone c v ∧ (c x ≤ 0 → ∀ y ∈ v, c y < 0) ∧ (0 ≤ c x → ∀ y ∈ u, 0 < c y) := by
  obtain ⟨hu, hv, hcross⟩ := List.pairwise_append.mp h
  obtain ⟨hx, hv⟩ := List.pairwise_cons.mp hv
  refine ⟨hu, hv, fun hle y hy => hx y hy hle, fun hge y hy => ?_⟩
  by_contra hle
  have hlt := hcross y hy x List.mem_cons_self (not_lt.mp hle)
  omega

theorem find_eq (h : Monotone c t.toList) : t.find c = t.toList.find? fun x => c x = 0 := by
  induction t with
  | nil => rfl
  | node k l x r ihl ihr =>
    obtain ⟨hl, hr, hafter, hbefore⟩ := Monotone.split h
    have hnot : 0 ≤ c x → l.toList.find? (fun x => c x = 0) = none := by
      intro hx
      refine List.find?_eq_none.mpr fun y hy => ?_
      have hpos := hbefore hx y hy
      simp only [decide_eq_true_eq]
      omega
    simp only [find, toList]
    split
    · rename_i hx
      simp [List.find?_append, hnot hx.ge, hx]
    · split
      · rename_i hne hx
        have hright : r.toList.find? (fun x => c x = 0) = none := by
          refine List.find?_eq_none.mpr fun y hy => ?_
          have hneg := hafter hx.le y hy
          simp only [decide_eq_true_eq]
          omega
        simp [List.find?_append, ihl hl, hne, hright]
      · rename_i hne hx
        simp [List.find?_append, ihr hr, hne, hnot (not_lt.mp hx)]

theorem mem_of_find (h : t.find c = some x) : x ∈ t.toList ∧ c x = 0 := by
  induction t with
  | nil => cases h
  | node k l y r ihl ihr =>
    simp only [find] at h
    simp only [toList, List.mem_append, List.mem_cons]
    split at h
    · obtain rfl := Option.some.inj h
      exact ⟨.inr (.inl rfl), by assumption⟩
    · split at h
      · exact ⟨.inl (ihl h).1, (ihl h).2⟩
      · exact ⟨.inr (.inr (ihr h).1), (ihr h).2⟩

theorem find_isNone (h : Monotone c t.toList) : t.find c = none ↔ ∀ x ∈ t.toList, c x ≠ 0 := by
  rw [find_eq h, List.find?_eq_none]
  simp

/-! ### Adding -/

theorem attach_error : t.attach c p = .error x ↔ t.find c = some x := by
  induction t with
  | nil => simp [attach, find]
  | node k l y r ihl ihr =>
    simp only [attach, find]
    split
    · simp
    · split
      · rw [← ihl]
        cases l.attach c p <;> simp [Except.map]
      · rw [← ihr]
        cases r.attach c p <;> simp [Except.map]

/-- A new node goes between the smaller and the larger ones. -/
theorem attach_ok {b : Bool} (h : Monotone c t.toList) (hok : t.attach c p = .ok (t', b)) :
    ∃ u v, t.toList = u ++ v ∧ t'.toList = u ++ p :: v ∧ (∀ x ∈ u, 0 < c x) ∧ ∀ x ∈ v, c x < 0 := by
  induction t generalizing t' b with
  | nil =>
    cases hok
    exact ⟨[], [], rfl, rfl, by simp, by simp⟩
  | node k l y r ihl ihr =>
    obtain ⟨hl, hr, hafter, hbefore⟩ := Monotone.split h
    simp only [attach] at hok
    split at hok
    · cases hok
    · split at hok
      · rename_i hne hlt
        cases hs : l.attach c p with
        | error x => simp [hs, Except.map] at hok
        | ok s =>
          obtain ⟨u, v, hl', hs', hu, hv⟩ := ihl hl hs
          have hlist : t'.toList = s.1.toList ++ y :: r.toList := by
            rw [hs] at hok
            simp only [Except.map, Except.ok.injEq] at hok
            split at hok <;> obtain rfl := (Prod.ext_iff.mp hok).1 <;> simp [toList]
          refine ⟨u, v ++ y :: r.toList, by simp [toList, hl'], by simp [hlist, hs'], hu, ?_⟩
          intro x hx
          obtain hx | rfl | hx := by simpa using hx
          · exact hv x hx
          · exact hlt
          · exact hafter hlt.le x hx
      · rename_i hne hlt
        cases hs : r.attach c p with
        | error x => simp [hs, Except.map] at hok
        | ok s =>
          obtain ⟨u, v, hr', hs', hu, hv⟩ := ihr hr hs
          have hlist : t'.toList = l.toList ++ y :: s.1.toList := by
            rw [hs] at hok
            simp only [Except.map, Except.ok.injEq] at hok
            split at hok <;> obtain rfl := (Prod.ext_iff.mp hok).1 <;> simp [toList]
          refine ⟨l.toList ++ y :: u, v, by simp [toList, hr'], by simp [hlist, hs'], ?_, hv⟩
          intro x hx
          obtain hx | rfl | hx := by simpa using hx
          · exact hbefore (not_lt.mp hlt) x hx
          · omega
          · exact hu x hx

theorem add_conflict : (t.add c p).2 = t.find c := by
  simp only [add]
  cases hs : t.attach c p with
  | error x => exact (attach_error.mp hs).symm
  | ok s =>
    cases hf : t.find c with
    | none => rfl
    | some x => simp [attach_error.mpr hf] at hs

theorem add_of_conflict (h : t.find c = some x) : t.add c p = (t, some x) := by
  simp [add, attach_error.mpr h]

theorem add_of_new (h : Monotone c t.toList) (hnew : t.find c = none) :
    ∃ u v, t.toList = u ++ v ∧ (t.add c p).1.toList = u ++ p :: v ∧ (∀ x ∈ u, 0 < c x) ∧ ∀ x ∈ v, c x < 0 := by
  cases hs : t.attach c p with
  | error x => simp [attach_error.mp hs] at hnew
  | ok s =>
    simp only [add, hs]
    exact attach_ok h hs

/-! ### Removing -/

theorem toList_takeFirst {b : Bool} (h : t.takeFirst = some (x, t', b)) : t.toList = x :: t'.toList := by
  induction t generalizing x t' b with
  | nil => cases h
  | node k l y r ihl ihr =>
    cases hl : l.takeFirst with
    | none =>
      have hnil : l = nil := by
        cases l with
        | nil => rfl
        | node k' a z d =>
          simp only [takeFirst] at hl
          split at hl <;> cases hl
      simp only [takeFirst, hl] at h
      cases h
      simp [toList, hnil]
    | some s =>
      obtain ⟨m, l', going⟩ := s
      simp only [takeFirst, hl, Option.some.injEq, Prod.mk.injEq] at h
      obtain ⟨rfl, h⟩ := h
      obtain rfl := (Prod.ext_iff.mp h).1
      simp [toList, ihl hl]

theorem takeFirst_isNone (h : t.takeFirst = none) : t = nil := by
  cases t with
  | nil => rfl
  | node k l x r =>
    simp only [takeFirst] at h
    split at h <;> cases h

@[simp] theorem toList_eraseRoot (h : Nat) (l r : Avl α) : (eraseRoot h l r).1.toList = l.toList ++ r.toList := by
  cases l with
  | nil => simp [eraseRoot, toList]
  | node k a z d =>
    cases hr : r.takeFirst with
    | none =>
      obtain rfl := takeFirst_isNone hr
      simp [eraseRoot, takeFirst, toList]
    | some s =>
      obtain ⟨m, r', going⟩ := s
      simp [eraseRoot, hr, toList_takeFirst hr]

section

variable [DecidableEq α]

def erase (p : α) : Avl α → Avl α × Bool
  | nil => (nil, false)
  | node h l x r =>
    if p ∈ l.toList then
      let s := l.erase p
      rebalance s.2 h s.1 x r
    else if x = p then eraseRoot h l r
    else
      let s := r.erase p
      rebalance s.2 h l x s.1

/-- `avl_tree_remove`; a node without a tree is its own parent and left alone. -/
def remove (p : α) (t : Avl α) : Avl α := (t.erase p).1

/-- `avl_tree_replace`: the new node takes the links and the height of the victim. -/
def replace (p q : α) : Avl α → Avl α
  | nil => nil
  | node h l x r => node h (l.replace p q) (if x = p then q else x) (r.replace p q)

theorem toList_erase (p : α) (t : Avl α) : (t.erase p).1.toList = t.toList.erase p := by
  induction t with
  | nil => rfl
  | node h l x r ihl ihr =>
    simp only [erase, toList]
    split
    · rename_i hl
      simp [ihl, List.erase_append_left _ hl]
    · rename_i hl
      rw [List.erase_append_right _ hl]
      split
      · rename_i hx
        simp [hx]
      · rename_i hx
        simp [ihr, hx]

@[simp] theorem toList_remove (p : α) (t : Avl α) : (t.remove p).toList = t.toList.erase p := toList_erase p t

@[simp] theorem toList_replace (p q : α) (t : Avl α) :
    (t.replace p q).toList = t.toList.map fun x => if x = p then q else x := by
  induction t with
  | nil => rfl
  | node h l x r ihl ihr => simp [replace, toList, ihl, ihr]

end

/-! ### Trees in the order of their keys -/

variable {κ : Type} {cmp : κ → κ → Int} {S : κ → Prop} {key key' : α → κ} {k : κ}

/-- The comparison is a total order of the keys in `S` and is zero for equal keys only. -/
structure Total (cmp : κ → κ → Int) (S : κ → Prop) : Prop where
  refl : ∀ a, S a → cmp a a = 0
  swap : ∀ a b, S a → S b → cmp a b < 0 → 0 < cmp b a
  connex : ∀ a b, S a → S b → a ≠ b → cmp a b < 0 ∨ cmp b a < 0
  trans : ∀ a b c, S a → S b → S c → cmp a b < 0 → cmp b c < 0 → cmp a c < 0

theorem Total.mono {S' : κ → Prop} (h : Total cmp S) (hS : ∀ a, S' a → S a) : Total cmp S' where
  refl a ha := h.refl a (hS a ha)
  swap a b ha hb := h.swap a b (hS a ha) (hS b hb)
  connex a b ha hb := h.connex a b (hS a ha) (hS b hb)
  trans a b c ha hb hc := h.trans a b c (hS a ha) (hS b hb) (hS c hc)

/-- The keys have an order of their own that the comparison follows. -/
theorem Total.of_order {β : Type} [LinearOrder β] (f : κ → β) (hinj : ∀ a b, S a → S b → f a = f b → a = b)
    (hlt : ∀ a b, S a → S b → (cmp a b < 0 ↔ f a < f b)) (hgt : ∀ a b, S a → S b → (0 < cmp a b ↔ f b < f a)) :
    Total cmp S where
  refl a ha := by
    have hneg := hlt a a ha ha
    have hpos := hgt a a ha ha
    simp only [lt_irrefl, iff_false, not_lt] at hneg hpos
    omega
  swap a b ha hb h := (hgt b a hb ha).mpr ((hlt a b ha hb).mp h)
  connex a b ha hb hne := by
    rw [hlt a b ha hb, hlt b a hb ha]
    exact lt_or_gt_of_ne fun heq => hne (hinj a b ha hb heq)
  trans a b c ha hb hc hab hbc :=
    (hlt a c ha hc).mpr (((hlt a b ha hb).mp hab).trans ((hlt b c hb hc).mp hbc))

theorem Total.eq_zero (h : Total cmp S) {a b : κ} (ha : S a) (hb : S b) : cmp a b = 0 ↔ a = b := by
  constructor
  · intro hzero
    by_contra hne
    obtain hlt | hlt := h.connex a b ha hb hne
    · omega
    · have hpos := h.swap b a hb ha hlt
      omega
  · rintro rfl
    exact h.refl a ha

theorem Total.pos (h : Total cmp S) {a b : κ} (ha : S a) (hb : S b) : 0 < cmp a b ↔ cmp b a < 0 := by
  constructor
  · intro hpos
    obtain hlt | hlt := h.connex a b ha hb (fun heq => by rw [(h.eq_zero ha hb).mpr heq] at hpos; omega)
    · omega
    · exact hlt
  · exact h.swap b a hb ha

def Sorted (cmp : κ → κ → Int) (key : α → κ) (t : Avl α) : Prop :=
  t.toList.Pairwise fun x y => cmp (key x) (key y) < 0

theorem Sorted.congr (h : Sorted cmp key t) (hkey : ∀ x ∈ t.toList, key' x = key x) : Sorted cmp key' t := by
  refine List.Pairwise.imp_of_mem (fun {x y} hx hy hlt => ?_) h
  rwa [hkey x hx, hkey y hy]

theorem Sorted.keys_nodup (ht : Total cmp S) (hS : ∀ x ∈ t.toList, S (key x)) (h : Sorted cmp key t) :
    (t.toList.map key).Nodup := by
  rw [List.Nodup, List.pairwise_map]
  refine List.Pairwise.imp_of_mem (fun {x y} hx hy hlt heq => ?_) h
  rw [heq, ht.refl _ (hS y hy)] at hlt
  omega

theorem Sorted.monotone (ht : Total cmp S) (hS : ∀ x ∈ t.toList, S (key x)) (hk : S k) (h : Sorted cmp key t) :
    Monotone (fun x => cmp k (key x)) t.toList := by
  refine List.Pairwise.imp_of_mem (fun {x y} hx hy hlt hle => ?_) h
  obtain heq | hkx := eq_or_lt_of_le hle
  · rwa [(ht.eq_zero hk (hS x hx)).mp heq]
  · exact ht.trans k (key x) (key y) hk (hS x hx) (hS y hy) hkx hlt

theorem Sorted.find_none (ht : Total cmp S) (hS : ∀ x ∈ t.toList, S (key x)) (hk : S k) (h : Sorted cmp key t) :
    t.find (fun x => cmp k (key x)) = none ↔ ∀ x ∈ t.toList, key x ≠ k := by
  rw [find_isNone (h.monotone ht hS hk)]
  refine forall₂_congr fun x hx => ?_
  rw [Ne, ht.eq_zero hk (hS x hx), eq_comm]

theorem Sorted.find_some (ht : Total cmp S) (hS : ∀ x ∈ t.toList, S (key x)) (hk : S k) (h : Sorted cmp key t) :
    t.find (fun x => cmp k (key x)) = some x ↔ x ∈ t.toList ∧ key x = k := by
  constructor
  · intro hf
    obtain ⟨hx, hzero⟩ := mem_of_find hf
    exact ⟨hx, ((ht.eq_zero hk (hS x hx)).mp hzero).symm⟩
  · rintro ⟨hx, hkey⟩
    cases hf : t.find (fun x => cmp k (key x)) with
    | none => exact absurd hkey ((h.find_none ht hS hk).mp hf x hx)
    | some y =>
      obtain ⟨hy, hzero⟩ := mem_of_find hf
      have hyk := (ht.eq_zero hk (hS y hy)).mp hzero
      rw [List.inj_on_of_nodup_map (h.keys_nodup ht hS) hx hy (hkey.trans hyk)]

theorem Sorted.add (ht : Total cmp S) (hS : ∀ x ∈ t.toList, S (key x)) (hk : S (key p)) (h : Sorted cmp key t)
    (hnew : t.find (fun x => cmp (key p) (key x)) = none) : Sorted cmp key (t.add (fun x => cmp (key p) (key x)) p).1 ∧
      ∀ x, x ∈ (t.add (fun x => cmp (key p) (key x)) p).1.toList ↔ x = p ∨ x ∈ t.toList := by
  obtain ⟨u, v, hold, hadd, hu, hv⟩ := add_of_new (p := p) (h.monotone ht hS hk) hnew
  rw [Sorted, hold] at h
  obtain ⟨hsu, hsv, hcross⟩ := List.pairwise_append.mp h
  constructor
  · rw [Sorted, hadd]
    refine List.pairwise_append.mpr ⟨hsu, List.pairwise_cons.mpr ⟨hv, hsv⟩, fun x hx y hy => ?_⟩
    obtain rfl | hy := List.mem_cons.mp hy
    · exact (ht.pos hk (hS x (by simp [hold, hx]))).mp (hu x hx)
    · exact hcross x hx y hy
  · intro x
    simp only [hadd, hold, List.mem_append, List.mem_cons]
    tauto

theorem Sorted.remove [DecidableEq α] (h : Sorted cmp key t) (p : α) : Sorted cmp key (t.remove p) := by
  rw [Sorted, toList_remove]
  exact List.Pairwise.sublist List.erase_sublist h

theorem Sorted.replace [DecidableEq α] (h : Sorted cmp key t)
    (hkey : key q = key p) : Sorted cmp key (t.replace p q) := by
  rw [Sorted, toList_replace]
  refine List.Pairwise.map _ (fun x y hlt => ?_) h
  have hsame : ∀ x, key (if x = p then q else x) = key x := by
    intro x
    split
    · rename_i hx
      rw [hx, hkey]
    · rfl
  rwa [hsame, hsame]

end Avl
end Wenas.Xlib
