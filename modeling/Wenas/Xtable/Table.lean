import Wenas.Lib.Links
import Wenas.Xlib.Avlmini

/-!
# The hash tables of `xtable.c`

`search_table` and `index_table` are one structure over two kinds of keys. A bucket keeps its first node in the table
and the others in a tree that all buckets share; one linked list runs through all nodes. The invariant cuts this list
into the buckets.
-/
namespace Wenas.Xtable

open Wenas.Links Wenas.Xlib

abbrev Ptr := Nat

/-- `&st->head`, and no other node. -/
def head : Ptr := 0

/-- `search_table_t` and `index_table_t` with the fields of all nodes. The 64-bit `count` is never more than the calls. -/
structure Table (κ : Type) where
  count : Nat
  mask : UInt32
  next : Ptr → Ptr
  prev : Ptr → Ptr
  listLen : Ptr → UInt32
  key : Ptr → κ
  table : Nat → Option Ptr
  tree : Avl Ptr

/-- How the functions of a table compare keys. -/
structure Keys (κ : Type) where
  hash : κ → UInt64
  /-- the comparison of the tree -/
  compare : κ → κ → Int
  /-- the test against the first node before the tree is searched, in `add` and for a lone node in `del` -/
  differ : κ → κ → Bool
  /-- the test against the first node in `del` and `find` -/
  agree : κ → κ → Bool

variable {κ : Type}

namespace Table

/-- `search_table_init`, `index_table_init`. -/
def init (size : UInt32) (key : Ptr → κ) : Table κ where
  count := 0
  mask := size - 1
  next _ := head
  prev _ := head
  listLen _ := 0
  key := key
  table _ := none
  tree := .nil

/-- `key & mask`. -/
def pos (K : Keys κ) (t : Table κ) (k : κ) : Nat := (K.hash k &&& t.mask.toUInt64).toNat

def linkAfter (q node : Ptr) (t : Table κ) : Table κ :=
  { t with
    next := Function.update (Function.update t.next node (t.next q)) q node
    prev := Function.update (Function.update t.prev node q) (t.next q) node }

def unlink (node : Ptr) (t : Table κ) : Table κ :=
  { t with
    next := Function.update t.next (t.prev node) (t.next node)
    prev := Function.update t.prev (t.next node) (t.prev node) }

/-- `search_table_add`, `index_table_add`, for a node with its key; says whether the node was taken in. -/
def add (K : Keys κ) (node : Ptr) (t : Table κ) : Table κ × Bool :=
  let pos := t.pos K (t.key node)
  match t.table pos with
  | none =>
    ({ t.linkAfter head node with
        table := Function.update t.table pos (some node)
        listLen := Function.update t.listLen node 0
        count := t.count + 1 }, true)
  | some first =>
    if K.differ (t.key node) (t.key first) then
      match t.tree.add (fun x => K.compare (t.key node) (t.key x)) node with
      | (tree, none) =>
        ({ t.linkAfter first node with
            tree := tree
            listLen := Function.update t.listLen first (t.listLen first + 1)
            count := t.count + 1 }, true)
      | (_, some _) => (t, false)
    else (t, false)

/-- `search_table_del`, `index_table_del`; the node taken out, if any. -/
def del (K : Keys κ) (k : κ) (t : Table κ) : Table κ × Option Ptr :=
  let pos := t.pos K k
  match t.table pos with
  | none => (t, none)
  | some first =>
    if t.listLen first = 0 then
      if K.differ k (t.key first) then (t, none)
      else ({ t.unlink first with table := Function.update t.table pos none, count := t.count - 1 }, some first)
    else if K.agree k (t.key first) then
      let second := t.next first
      ({ t.unlink first with
          listLen := Function.update t.listLen second (t.listLen first - 1)
          table := Function.update t.table pos (some second)
          tree := t.tree.remove second
          count := t.count - 1 }, some first)
    else
      match t.tree.find (fun x => K.compare k (t.key x)) with
      | none => (t, none)
      | some node =>
        ({ t.unlink node with
            listLen := Function.update t.listLen first (t.listLen first - 1)
            tree := t.tree.remove node
            count := t.count - 1 }, some node)

/-- `search_table_find`, `index_table_find`. -/
def find (K : Keys κ) (k : κ) (t : Table κ) : Option Ptr :=
  match t.table (t.pos K k) with
  | none => none
  | some first =>
    if K.agree k (t.key first) then some first else t.tree.find (fun x => K.compare k (t.key x))

end Table

/-! ### The buckets in the list -/

/-- A first node and the others of its bucket. -/
abbrev Bucket := Ptr × List Ptr

def nodes (bs : List Bucket) : List Ptr := bs.flatMap fun b => b.1 :: b.2

def tails (bs : List Bucket) : List Ptr := bs.flatMap fun b => b.2

@[simp] theorem nodes_nil : nodes [] = [] := rfl

@[simp] theorem nodes_cons (b : Bucket) (bs : List Bucket) : nodes (b :: bs) = b.1 :: (b.2 ++ nodes bs) := rfl

@[simp] theorem nodes_append (bs cs : List Bucket) : nodes (bs ++ cs) = nodes bs ++ nodes cs := List.flatMap_append

@[simp] theorem tails_nil : tails [] = [] := rfl

@[simp] theorem tails_cons (b : Bucket) (bs : List Bucket) : tails (b :: bs) = b.2 ++ tails bs := rfl

@[simp] theorem tails_append (bs cs : List Bucket) : tails (bs ++ cs) = tails bs ++ tails cs := List.flatMap_append

theorem mem_nodes {bs : List Bucket} {x : Ptr} : x ∈ nodes bs ↔ ∃ b ∈ bs, x = b.1 ∨ x ∈ b.2 := by
  simp [nodes]

theorem mem_tails {bs : List Bucket} {x : Ptr} : x ∈ tails bs ↔ ∃ b ∈ bs, x ∈ b.2 := by
  simp [tails]

/-- The keys in `S` are told apart by the tests against a first node. -/
structure Keys.Lawful (K : Keys κ) (S : κ → Prop) : Prop where
  refl : ∀ a, S a → K.compare a a = 0
  differ : ∀ a b, S a → S b → (K.differ a b = true ↔ a ≠ b)
  agree : ∀ a b, S a → S b → (K.agree a b = true ↔ a = b)

/-- The keys in the tree and one more are in the order of the comparison. -/
def Table.Ordered (K : Keys κ) (t : Table κ) (k : κ) : Prop :=
  Avl.Total K.compare fun a => a = k ∨ ∃ x ∈ t.tree.toList, t.key x = a

/-- The buckets are their first node, which the table has, and as many others as the first node says, which are the
nodes in the tree. -/
structure Content (K : Keys κ) (S : κ → Prop) (t : Table κ) (bs : List Bucket) : Prop where
  apart : head ∉ nodes bs
  keys : ∀ x ∈ nodes bs, S (t.key x)
  distinct : ((nodes bs).map t.key).Nodup
  table : ∀ b ∈ bs, t.table (t.pos K (t.key b.1)) = some b.1
  home : ∀ pos first, t.table pos = some first → ∃ b ∈ bs, b.1 = first ∧ t.pos K (t.key first) = pos
  bucket : ∀ b ∈ bs, ∀ x ∈ b.2, t.pos K (t.key x) = t.pos K (t.key b.1)
  len : ∀ b ∈ bs, (t.listLen b.1).toNat = b.2.length
  tree : ∀ x, x ∈ t.tree.toList ↔ x ∈ tails bs
  sorted : Avl.Sorted K.compare t.key t.tree
  count : t.count = (nodes bs).length

/-- The linked list is one bucket after the other. -/
structure Shape (K : Keys κ) (S : κ → Prop) (t : Table κ) (bs : List Bucket) : Prop extends Content K S t bs where
  linked : Linked t.next t.prev head (nodes bs) head

variable {K : Keys κ} {S : κ → Prop} {t : Table κ} {as bs cs : List Bucket} {x p : Ptr} {k : κ}

@[simp] theorem mask_add : (t.add K p).1.mask = t.mask := by
  simp only [Table.add]
  repeat' split
  all_goals rfl

@[simp] theorem mask_del : (t.del K k).1.mask = t.mask := by
  simp only [Table.del]
  repeat' split
  all_goals rfl

theorem count_add_le : (t.add K p).1.count ≤ t.count + 1 := by
  simp only [Table.add]
  repeat' split
  all_goals simp

theorem count_del_le : (t.del K k).1.count ≤ t.count := by
  simp only [Table.del]
  repeat' split
  all_goals simp

/-- A bucket is an index of the table. -/
theorem pos_lt {j : Nat} (hj : j < 32) (hmask : t.mask = UInt32.ofNat (2 ^ j) - 1) (k : κ) : t.pos K k < 2 ^ j := by
  have hpow : (2 : Nat) ^ j < 2 ^ 32 := Nat.pow_lt_pow_right (by decide) hj
  have hpos : 0 < (2 : Nat) ^ j := Nat.two_pow_pos j
  have hone : (1 : UInt32) ≤ UInt32.ofNat (2 ^ j) := by
    rw [UInt32.le_iff_toNat_le, UInt32.toNat_ofNat_of_lt' hpow]
    exact hpos
  have hnat : t.mask.toUInt64.toNat = 2 ^ j - 1 := by
    rw [hmask, UInt32.toNat_toUInt64, UInt32.toNat_sub_of_le _ _ hone, UInt32.toNat_ofNat_of_lt' hpow]
    rfl
  have hle : t.pos K k ≤ t.mask.toUInt64.toNat := by
    rw [Table.pos, UInt64.toNat_and]
    exact Nat.and_le_right
  omega

theorem shape_init (size : UInt32) (key : Ptr → κ) : Shape K S (.init size key) [] where
  linked := ⟨rfl, rfl⟩
  apart := by simp
  keys := by simp
  distinct := by simp
  table := by simp
  home := by simp [Table.init]
  bucket := by simp
  len := by simp
  tree := by simp [Table.init, Avl.toList]
  sorted := List.Pairwise.nil
  count := rfl

namespace Content

theorem perm (h : Content K S t bs) (hbs : bs.Perm cs) : Content K S t cs := by
  have hnodes : (nodes bs).Perm (nodes cs) := hbs.flatMap_right _
  have htails : (tails bs).Perm (tails cs) := hbs.flatMap_right _
  constructor
  · exact fun hhead => h.apart (hnodes.mem_iff.mpr hhead)
  · exact fun x hx => h.keys x (hnodes.mem_iff.mpr hx)
  · exact (hnodes.map t.key).nodup h.distinct
  · exact fun b hb => h.table b (hbs.mem_iff.mpr hb)
  · intro pos first hfirst
    obtain ⟨b, hb, hrest⟩ := h.home pos first hfirst
    exact ⟨b, hbs.mem_iff.mp hb, hrest⟩
  · exact fun b hb => h.bucket b (hbs.mem_iff.mpr hb)
  · exact fun b hb => h.len b (hbs.mem_iff.mpr hb)
  · exact fun x => (h.tree x).trans htails.mem_iff
  · exact h.sorted
  · exact h.count.trans hnodes.length_eq

theorem nodup (h : Content K S t bs) : (nodes bs).Nodup := h.distinct.of_map

theorem key_inj (h : Content K S t bs) {x y : Ptr} (hx : x ∈ nodes bs) (hy : y ∈ nodes bs) (heq : t.key x = t.key y) :
    x = y := List.inj_on_of_nodup_map h.distinct hx hy heq

theorem mem_of_tree (h : Content K S t bs) (hx : x ∈ t.tree.toList) : x ∈ nodes bs := by
  obtain ⟨b, hb, hxb⟩ := mem_tails.mp ((h.tree x).mp hx)
  exact mem_nodes.mpr ⟨b, hb, .inr hxb⟩

theorem in_tree (_ : Content K S t bs) : ∀ x ∈ t.tree.toList, t.key x = k ∨ ∃ y ∈ t.tree.toList, t.key y = t.key x :=
  fun x hx => .inr ⟨x, hx, rfl⟩

theorem ordered (h : Content K S t bs) (htotal : Avl.Total K.compare S) (hk : S k) : t.Ordered K k := by
  refine htotal.mono ?_
  rintro a (rfl | ⟨x, hx, rfl⟩)
  · exact hk
  · exact h.keys x (h.mem_of_tree hx)

/-- A node is the first one of its bucket or in the tree. -/
theorem lives (h : Content K S t bs) (hx : x ∈ nodes bs) :
    ∃ first, t.table (t.pos K (t.key x)) = some first ∧ (x = first ∨ x ∈ t.tree.toList) := by
  obtain ⟨b, hb, rfl | hxb⟩ := mem_nodes.mp hx
  · exact ⟨b.1, h.table b hb, .inl rfl⟩
  · refine ⟨b.1, ?_, .inr ((h.tree x).mpr (mem_tails.mpr ⟨b, hb, hxb⟩))⟩
    rw [h.bucket b hb x hxb]
    exact h.table b hb

theorem find_some (hK : K.Lawful S) (h : Content K S t bs) (hk : S k)
    (hc : ∀ first ∈ t.table (t.pos K k), t.key first ≠ k → t.Ordered K k) :
    t.find K k = some x ↔ x ∈ nodes bs ∧ t.key x = k := by
  simp only [Table.find]
  cases hfirst : t.table (t.pos K k) with
  | none =>
    simp only [reduceCtorEq, false_iff]
    rintro ⟨hx, rfl⟩
    obtain ⟨first, htable, -⟩ := h.lives hx
    rw [hfirst] at htable
    cases htable
  | some first =>
    obtain ⟨b, hb, rfl, hpos⟩ := h.home _ _ hfirst
    have hmem : b.1 ∈ nodes bs := mem_nodes.mpr ⟨b, hb, .inl rfl⟩
    dsimp only
    split
    · rename_i hagree
      have hkey := (hK.agree k (t.key b.1) hk (h.keys _ hmem)).mp hagree
      constructor
      · intro heq
        cases heq
        exact ⟨hmem, hkey.symm⟩
      · rintro ⟨hx, hxk⟩
        rw [h.key_inj hx hmem (hxk.trans hkey)]
    · rename_i hagree
      have hne : t.key b.1 ≠ k := fun heq => hagree ((hK.agree _ _ hk (h.keys _ hmem)).mpr heq.symm)
      rw [h.sorted.find_some (hc _ hfirst hne) h.in_tree (.inl rfl)]
      refine and_congr_left fun hxk => ⟨h.mem_of_tree, fun hx => ?_⟩
      obtain ⟨first, htable, rfl | htree⟩ := h.lives hx
      · rw [hxk, hfirst, Option.some.injEq] at htable
        rw [htable, hxk] at hagree
        exact absurd ((hK.agree k k hk hk).mpr rfl) hagree
      · exact htree

theorem find_none (hK : K.Lawful S) (h : Content K S t bs) (hk : S k)
    (hc : ∀ first ∈ t.table (t.pos K k), t.key first ≠ k → t.Ordered K k) :
    t.find K k = none ↔ ∀ x ∈ nodes bs, t.key x ≠ k := by
  rw [Option.eq_none_iff_forall_ne_some]
  refine ⟨fun hf x hx hkey => hf x ((h.find_some hK hk hc).mpr ⟨hx, hkey⟩), fun hf x hx => ?_⟩
  obtain ⟨hmem, hkey⟩ := (h.find_some hK hk hc).mp hx
  exact hf x hmem hkey

/-! ### Adding -/

theorem add_present (hK : K.Lawful S) (h : Content K S t bs) (hk : S (t.key p))
    (hc : ∀ first ∈ t.table (t.pos K (t.key p)), t.key first ≠ t.key p → t.Ordered K (t.key p))
    (hx : x ∈ nodes bs) (hkey : t.key x = t.key p) : t.add K p = (t, false) := by
  obtain ⟨first, hfirst, hor⟩ := h.lives hx
  rw [hkey] at hfirst
  obtain ⟨b, hb, rfl, hpos⟩ := h.home _ _ hfirst
  have hmem : b.1 ∈ nodes bs := mem_nodes.mpr ⟨b, hb, .inl rfl⟩
  simp only [Table.add, hfirst]
  split
  · rename_i hdiffer
    have hne := (hK.differ _ _ hk (h.keys _ hmem)).mp hdiffer
    have htree : x ∈ t.tree.toList := hor.resolve_left (fun heq => hne (heq ▸ hkey.symm))
    rw [Avl.add_of_conflict ((h.sorted.find_some (hc _ hfirst hne.symm) h.in_tree (.inl rfl)).mpr ⟨htree, hkey⟩)]
  · rfl

theorem addFirst (h : Content K S t bs) (hp : p ≠ head) (hk : S (t.key p)) (hnew : ∀ x ∈ nodes bs, t.key x ≠ t.key p)
    (hfree : t.table (t.pos K (t.key p)) = none) :
    Content K S { t.linkAfter head p with
      table := Function.update t.table (t.pos K (t.key p)) (some p)
      listLen := Function.update t.listLen p 0
      count := t.count + 1 } ((p, []) :: bs) := by
  have hfresh : p ∉ nodes bs := fun hx => hnew p hx rfl
  have hother : ∀ b ∈ bs, t.pos K (t.key b.1) ≠ t.pos K (t.key p) := by
    intro b hb heq
    have htable := h.table b hb
    rw [heq, hfree] at htable
    cases htable
  constructor
  · simp [hp.symm, h.apart]
  · intro x hx
    obtain rfl | hx := by simpa using hx
    · exact hk
    · exact h.keys x hx
  · refine List.nodup_cons.mpr ⟨fun hx => ?_, h.distinct⟩
    obtain ⟨x, hx, hkey⟩ := List.mem_map.mp hx
    exact hnew x hx hkey
  · intro b hb
    obtain rfl | hb := List.mem_cons.mp hb
    · exact Function.update_self ..
    · exact (Function.update_of_ne (hother b hb) ..).trans (h.table b hb)
  · intro pos first hfirst
    by_cases hpos : pos = t.pos K (t.key p)
    · subst hpos
      cases (Function.update_self ..).symm.trans hfirst
      exact ⟨(p, []), List.mem_cons_self, rfl, rfl⟩
    · obtain ⟨b, hb, hrest⟩ := h.home pos first ((Function.update_of_ne hpos ..).symm.trans hfirst)
      exact ⟨b, List.mem_cons_of_mem _ hb, hrest⟩
  · intro b hb x hx
    obtain rfl | hb := List.mem_cons.mp hb
    · simp at hx
    · exact h.bucket b hb x hx
  · intro b hb
    obtain rfl | hb := List.mem_cons.mp hb
    · simp
    · have hne : b.1 ≠ p := fun heq => hfresh (mem_nodes.mpr ⟨b, hb, .inl heq.symm⟩)
      simpa [hne] using h.len b hb
  · simpa [Table.linkAfter] using h.tree
  · exact h.sorted
  · simp [h.count]

theorem addOther {tree : Avl Ptr} {first : Ptr} {tail : List Ptr} (h : Content K S t ((first, tail) :: bs))
    (hp : p ≠ head) (hk : S (t.key p)) (hnew : ∀ x ∈ nodes ((first, tail) :: bs), t.key x ≠ t.key p)
    (hpos : t.pos K (t.key p) = t.pos K (t.key first)) (hsorted : Avl.Sorted K.compare t.key tree)
    (hmem : ∀ x, x ∈ tree.toList ↔ x = p ∨ x ∈ t.tree.toList) (hroom : (t.listLen first).toNat + 1 < 2 ^ 32) :
    Content K S { t.linkAfter first p with
      tree := tree
      listLen := Function.update t.listLen first (t.listLen first + 1)
      count := t.count + 1 } ((first, p :: tail) :: bs) := by
  have hothers : ∀ b ∈ bs, b.1 ≠ first := by
    rintro b hb rfl
    exact (List.nodup_cons.mp h.nodup).1 (List.mem_append_right _ (mem_nodes.mpr ⟨b, hb, .inl rfl⟩))
  have hswap : (nodes ((first, p :: tail) :: bs)).Perm (p :: nodes ((first, tail) :: bs)) := List.Perm.swap ..
  constructor
  · intro hhead
    obtain heq | hhead := List.mem_cons.mp (hswap.mem_iff.mp hhead)
    · exact hp heq.symm
    · exact h.apart hhead
  · intro x hx
    obtain rfl | hx := List.mem_cons.mp (hswap.mem_iff.mp hx)
    · exact hk
    · exact h.keys x hx
  · refine ((hswap.map t.key).nodup_iff).mpr (List.nodup_cons.mpr ⟨fun hx => ?_, h.distinct⟩)
    obtain ⟨x, hx, hkey⟩ := List.mem_map.mp hx
    exact hnew x hx hkey
  · intro b hb
    obtain rfl | hb := List.mem_cons.mp hb
    · exact h.table (first, tail) List.mem_cons_self
    · exact h.table b (List.mem_cons_of_mem _ hb)
  · intro pos q hq
    obtain ⟨b, hb, hrest⟩ := h.home pos q hq
    obtain rfl | hb := List.mem_cons.mp hb
    · exact ⟨(first, p :: tail), List.mem_cons_self, hrest⟩
    · exact ⟨b, List.mem_cons_of_mem _ hb, hrest⟩
  · intro b hb x hx
    obtain rfl | hb := List.mem_cons.mp hb
    · obtain rfl | hx := List.mem_cons.mp hx
      · exact hpos
      · exact h.bucket (first, tail) List.mem_cons_self x hx
    · exact h.bucket b (List.mem_cons_of_mem _ hb) x hx
  · intro b hb
    obtain rfl | hb := List.mem_cons.mp hb
    · have hlen := h.len (first, tail) List.mem_cons_self
      dsimp only at hlen ⊢
      rw [Function.update_self, UInt32.toNat_add, List.length_cons, ← hlen]
      exact Nat.mod_eq_of_lt hroom
    · exact (congrArg UInt32.toNat (Function.update_of_ne (hothers b hb) ..)).trans
        (h.len b (List.mem_cons_of_mem _ hb))
  · intro x
    simp only [hmem, h.tree, tails_cons, List.cons_append, List.mem_cons]
  · exact hsorted
  · have hcount := h.count
    simp only [nodes_cons, List.length_cons, List.length_append] at hcount ⊢
    omega

/-! ### Deleting -/

theorem del_absent (hK : K.Lawful S) (h : Content K S t bs) (hk : S k)
    (hc : ∀ first ∈ t.table (t.pos K k), t.listLen first ≠ 0 → t.key first ≠ k → t.Ordered K k)
    (hnot : ∀ x ∈ nodes bs, t.key x ≠ k) : t.del K k = (t, none) := by
  simp only [Table.del]
  cases hfirst : t.table (t.pos K k) with
  | none => rfl
  | some first =>
    obtain ⟨b, hb, rfl, hpos⟩ := h.home _ _ hfirst
    have hmem : b.1 ∈ nodes bs := mem_nodes.mpr ⟨b, hb, .inl rfl⟩
    have hne : k ≠ t.key b.1 := fun heq => hnot _ hmem heq.symm
    have hdiffer : K.differ k (t.key b.1) = true := (hK.differ _ _ hk (h.keys _ hmem)).mpr hne
    have hagree : K.agree k (t.key b.1) = false :=
      Bool.eq_false_iff.mpr fun heq => hne ((hK.agree _ _ hk (h.keys _ hmem)).mp heq)
    by_cases hlone : t.listLen b.1 = 0
    · simp [hlone, hdiffer]
    · have htree : t.tree.find (fun x => K.compare k (t.key x)) = none :=
        (h.sorted.find_none (hc _ hfirst hlone hne.symm) h.in_tree (.inl rfl)).mpr fun x hx => hnot x (h.mem_of_tree hx)
      simp [hlone, hagree, htree]

theorem tails_nodup (h : Content K S t bs) : (tails bs).Nodup := by
  refine List.Nodup.sublist ?_ h.nodup
  exact List.Sublist.flatMap_right _ fun b _ => List.sublist_cons_self ..

theorem tree_nodup (hK : K.Lawful S) (h : Content K S t bs) : t.tree.toList.Nodup := by
  refine List.Pairwise.imp_of_mem (fun {x y} hx hy hlt heq => ?_) h.sorted
  rw [heq, hK.refl _ (h.keys y (h.mem_of_tree hy))] at hlt
  exact lt_irrefl _ hlt

theorem mem_remove (hK : K.Lawful S) (h : Content K S t bs) (q : Ptr) :
    x ∈ (t.tree.remove q).toList ↔ x ≠ q ∧ x ∈ tails bs := by
  rw [Avl.toList_remove, (h.tree_nodup hK).mem_erase_iff, h.tree]

/-- The buckets are found by their first nodes. -/
theorem pos_ne {b : Bucket} (h : Content K S t (b :: bs)) {c : Bucket} (hc : c ∈ bs) :
    t.pos K (t.key c.1) ≠ t.pos K (t.key b.1) := by
  intro heq
  have htable := h.table c (List.mem_cons_of_mem _ hc)
  rw [heq, h.table b List.mem_cons_self, Option.some.injEq] at htable
  exact (List.nodup_cons.mp h.nodup).1 (List.mem_append_right _ (mem_nodes.mpr ⟨c, hc, .inl htable⟩))

/-- A bucket of one node ends. -/
theorem delLone (h : Content K S t ((p, []) :: bs)) :
    Content K S { t.unlink p with
      table := Function.update t.table (t.pos K (t.key p)) none
      count := t.count - 1 } bs := by
  constructor
  · exact fun hhead => h.apart (List.mem_cons_of_mem _ hhead)
  · exact fun x hx => h.keys x (List.mem_cons_of_mem _ hx)
  · exact (List.nodup_cons.mp h.distinct).2
  · intro b hb
    exact (Function.update_of_ne (h.pos_ne hb) ..).trans (h.table b (List.mem_cons_of_mem _ hb))
  · intro pos first hfirst
    by_cases hpos : pos = t.pos K (t.key p)
    · subst hpos
      cases (Function.update_self ..).symm.trans hfirst
    · obtain ⟨b, hb, hrest⟩ := h.home pos first ((Function.update_of_ne hpos ..).symm.trans hfirst)
      obtain rfl | hb := List.mem_cons.mp hb
      · obtain ⟨rfl, rfl⟩ := hrest
        exact absurd rfl hpos
      · exact ⟨b, hb, hrest⟩
  · exact fun b hb => h.bucket b (List.mem_cons_of_mem _ hb)
  · exact fun b hb => h.len b (List.mem_cons_of_mem _ hb)
  · exact h.tree
  · exact h.sorted
  · have hcount := h.count
    simp only [nodes_cons, List.length_cons, List.nil_append] at hcount ⊢
    omega

/-- The second node of a bucket becomes its first one. -/
theorem delFirst {second : Ptr} {tail : List Ptr} (hK : K.Lawful S)
    (h : Content K S t ((p, second :: tail) :: bs)) :
    Content K S { t.unlink p with
      listLen := Function.update t.listLen second (t.listLen p - 1)
      table := Function.update t.table (t.pos K (t.key p)) (some second)
      tree := t.tree.remove second
      count := t.count - 1 } ((second, tail) :: bs) := by
  have hnodup := (List.nodup_cons.mp h.nodup).2
  have hsecond : t.pos K (t.key second) = t.pos K (t.key p) :=
    h.bucket (p, second :: tail) List.mem_cons_self second List.mem_cons_self
  constructor
  · exact fun hhead => h.apart (List.mem_cons_of_mem _ hhead)
  · exact fun x hx => h.keys x (List.mem_cons_of_mem _ hx)
  · exact (List.nodup_cons.mp h.distinct).2
  · intro b hb
    obtain rfl | hb := List.mem_cons.mp hb
    · exact (congrArg (Function.update t.table _ _) hsecond).trans (Function.update_self ..)
    · exact (Function.update_of_ne (h.pos_ne hb) ..).trans (h.table b (List.mem_cons_of_mem _ hb))
  · intro pos first hfirst
    by_cases hpos : pos = t.pos K (t.key p)
    · subst hpos
      cases (Function.update_self ..).symm.trans hfirst
      exact ⟨(second, tail), List.mem_cons_self, rfl, hsecond⟩
    · obtain ⟨b, hb, hrest⟩ := h.home pos first ((Function.update_of_ne hpos ..).symm.trans hfirst)
      obtain rfl | hb := List.mem_cons.mp hb
      · obtain ⟨rfl, rfl⟩ := hrest
        exact absurd rfl hpos
      · exact ⟨b, List.mem_cons_of_mem _ hb, hrest⟩
  · intro b hb x hx
    obtain rfl | hb := List.mem_cons.mp hb
    · exact (h.bucket (p, second :: tail) List.mem_cons_self x (List.mem_cons_of_mem _ hx)).trans hsecond.symm
    · exact h.bucket b (List.mem_cons_of_mem _ hb) x hx
  · intro b hb
    obtain rfl | hb := List.mem_cons.mp hb
    · have hlen := h.len (p, second :: tail) List.mem_cons_self
      have hone : (1 : UInt32) ≤ t.listLen p := by
        rw [UInt32.le_iff_toNat_le, hlen]
        simp
      dsimp only at hlen ⊢
      rw [Function.update_self, UInt32.toNat_sub_of_le _ _ hone, hlen]
      simp
    · have hne : b.1 ≠ second := fun heq =>
        (List.nodup_cons.mp hnodup).1 (List.mem_append_right _ (mem_nodes.mpr ⟨b, hb, .inl heq.symm⟩))
      exact (congrArg UInt32.toNat (Function.update_of_ne hne ..)).trans (h.len b (List.mem_cons_of_mem _ hb))
  · intro x
    have htails := h.tails_nodup
    rw [h.mem_remove hK]
    simp only [tails_cons, List.cons_append, List.nodup_cons, List.mem_cons] at htails ⊢
    constructor
    · rintro ⟨hne, rfl | hx⟩
      · exact absurd rfl hne
      · exact hx
    · intro hx
      exact ⟨fun heq => htails.1 (heq ▸ hx), .inr hx⟩
  · exact h.sorted.remove second
  · have hcount := h.count
    simp only [nodes_cons, List.length_cons, List.length_append] at hcount ⊢
    omega

/-- A node of the tree goes. -/
theorem delOther {first : Ptr} {tail : List Ptr} (hK : K.Lawful S) (h : Content K S t ((first, tail) :: bs))
    (hp : p ∈ tail) :
    Content K S { t.unlink p with
      listLen := Function.update t.listLen first (t.listLen first - 1)
      tree := t.tree.remove p
      count := t.count - 1 } ((first, tail.erase p) :: bs) := by
  have hsub : (nodes ((first, tail.erase p) :: bs)).Sublist (nodes ((first, tail) :: bs)) :=
    ((List.erase_sublist ..).append_right _).cons_cons _
  constructor
  · exact fun hhead => h.apart (hsub.subset hhead)
  · exact fun x hx => h.keys x (hsub.subset hx)
  · exact h.distinct.sublist (hsub.map t.key)
  · intro b hb
    obtain rfl | hb := List.mem_cons.mp hb
    · exact h.table (first, tail) List.mem_cons_self
    · exact h.table b (List.mem_cons_of_mem _ hb)
  · intro pos q hq
    obtain ⟨b, hb, hrest⟩ := h.home pos q hq
    obtain rfl | hb := List.mem_cons.mp hb
    · exact ⟨(first, tail.erase p), List.mem_cons_self, hrest⟩
    · exact ⟨b, List.mem_cons_of_mem _ hb, hrest⟩
  · intro b hb x hx
    obtain rfl | hb := List.mem_cons.mp hb
    · exact h.bucket (first, tail) List.mem_cons_self x (List.mem_of_mem_erase hx)
    · exact h.bucket b (List.mem_cons_of_mem _ hb) x hx
  · intro b hb
    obtain rfl | hb := List.mem_cons.mp hb
    · have hlen := h.len (first, tail) List.mem_cons_self
      have hone : (1 : UInt32) ≤ t.listLen first := by
        rw [UInt32.le_iff_toNat_le, hlen]
        exact List.length_pos_of_mem hp
      dsimp only at hlen ⊢
      rw [Function.update_self, UInt32.toNat_sub_of_le _ _ hone, hlen, List.length_erase_of_mem hp]
      rfl
    · have hne : b.1 ≠ first := fun heq =>
        (List.nodup_cons.mp h.nodup).1 (List.mem_append_right _ (mem_nodes.mpr ⟨b, hb, .inl heq.symm⟩))
      exact (congrArg UInt32.toNat (Function.update_of_ne hne ..)).trans (h.len b (List.mem_cons_of_mem _ hb))
  · intro x
    have htails : (tail ++ tails bs).Nodup := h.tails_nodup
    rw [h.mem_remove hK]
    simp only [tails_cons]
    rw [← htails.mem_erase_iff, List.erase_append_left _ hp]
  · exact h.sorted.remove p
  · have hcount := h.count
    have hpos := List.length_pos_of_mem hp
    simp only [nodes_cons, List.length_cons, List.length_append, List.length_erase_of_mem hp] at hcount ⊢
    omega

end Content

namespace Shape

theorem front (h : Shape K S t bs) : (head :: nodes bs).Nodup := List.nodup_cons.mpr ⟨h.apart, h.nodup⟩

theorem back (h : Shape K S t bs) : (nodes bs ++ [head]).Nodup := by
  rw [List.nodup_append_comm]
  exact h.front

/-- Nodes that are not in the table do not matter. -/
theorem congr {t' : Table κ} (h : Shape K S t bs) (hcount : t'.count = t.count) (hmask : t'.mask = t.mask)
    (htable : t'.table = t.table) (htree : t'.tree = t.tree) (hlen : ∀ x ∈ nodes bs, t'.listLen x = t.listLen x)
    (hkey : ∀ x ∈ nodes bs, t'.key x = t.key x) (hnext : ∀ x ∈ head :: nodes bs, t'.next x = t.next x)
    (hprev : ∀ x ∈ nodes bs ++ [head], t'.prev x = t.prev x) : Shape K S t' bs := by
  have hpos : ∀ k, t'.pos K k = t.pos K k := fun k => by rw [Table.pos, hmask, Table.pos]
  have hfirst : ∀ b ∈ bs, b.1 ∈ nodes bs := fun b hb => mem_nodes.mpr ⟨b, hb, .inl rfl⟩
  refine ⟨⟨h.apart, fun x hx => hkey x hx ▸ h.keys x hx, ?_, fun b hb => ?_, fun pos first hf => ?_,
    fun b hb x hx => ?_, fun b hb => ?_, ?_, ?_, hcount.trans h.count⟩, h.linked.congr hnext hprev⟩
  · rw [List.map_congr_left hkey]
    exact h.distinct
  · rw [htable, hpos, hkey _ (hfirst b hb)]
    exact h.table b hb
  · rw [htable] at hf
    obtain ⟨b, hb, rfl, hb'⟩ := h.home pos first hf
    exact ⟨b, hb, rfl, by rw [hpos, hkey _ (hfirst b hb), hb']⟩
  · rw [hpos, hpos, hkey _ (hfirst b hb), hkey _ (mem_nodes.mpr ⟨b, hb, .inr hx⟩)]
    exact h.bucket b hb x hx
  · rw [hlen _ (hfirst b hb)]
    exact h.len b hb
  · rw [htree]
    exact h.tree
  · rw [htree]
    exact h.sorted.congr fun x hx => hkey x (h.mem_of_tree hx)

/-- A new key is taken in if its bucket has room. -/
theorem add_new (hK : K.Lawful S) (h : Shape K S t bs) (hp : p ≠ head) (hk : S (t.key p))
    (hc : ∀ first ∈ t.table (t.pos K (t.key p)), t.key first ≠ t.key p → t.Ordered K (t.key p))
    (hnew : ∀ x ∈ nodes bs, t.key x ≠ t.key p)
    (hroom : ∀ first, t.table (t.pos K (t.key p)) = some first → (t.listLen first).toNat + 1 < 2 ^ 32) :
    (t.add K p).2 = true ∧ (t.add K p).1.key = t.key ∧
      ∃ cs, Shape K S (t.add K p).1 cs ∧ (nodes cs).Perm (p :: nodes bs) := by
  have hfresh : p ∉ nodes bs := fun hx => hnew p hx rfl
  cases hfirst : t.table (t.pos K (t.key p)) with
  | none =>
    simp only [Table.add, hfirst]
    refine ⟨trivial, rfl, (p, []) :: bs, ⟨h.addFirst hp hk hnew hfirst, ?_⟩, .refl _⟩
    refine h.linked.pushFront h.front h.back ?_ ?_ ?_
    · simp [hp, hfresh]
    · intro y _
      simp [Table.linkAfter, Function.update_apply]
    · intro y _
      simp [Table.linkAfter, Function.update_apply]
  | some first =>
    obtain ⟨⟨q, tail⟩, hb, heq, hpos⟩ := h.home _ _ hfirst
    obtain rfl : q = first := heq
    obtain ⟨as, cs, rfl⟩ := List.append_of_mem hb
    have hmem : q ∈ nodes (as ++ (q, tail) :: cs) := mem_nodes.mpr ⟨_, hb, .inl rfl⟩
    have hdiffer := (hK.differ _ _ hk (h.keys _ hmem)).mpr (hnew _ hmem).symm
    have hc := hc q hfirst (hnew _ hmem)
    have hfind : t.tree.find (fun x => K.compare (t.key p) (t.key x)) = none :=
      (h.sorted.find_none hc h.in_tree (.inl rfl)).mpr fun x hx => hnew x (h.mem_of_tree hx)
    obtain ⟨hsorted, htree⟩ := h.sorted.add hc h.in_tree (.inl rfl) hfind
    have hconflict := Avl.add_conflict (c := fun x => K.compare (t.key p) (t.key x)) (p := p) (t := t.tree)
    rw [hfind] at hconflict
    simp only [Table.add, hfirst, hdiffer, if_true]
    revert hsorted htree hconflict
    generalize t.tree.add (fun x => K.compare (t.key p) (t.key x)) p = grown
    obtain ⟨tree, conflict⟩ := grown
    intro hsorted htree hconflict
    obtain rfl : conflict = none := hconflict
    have hmiddle : (as ++ (q, tail) :: cs).Perm ((q, tail) :: (as ++ cs)) := List.perm_middle
    have hcontent := ((h.toContent.perm hmiddle).addOther hp hk (fun x hx => hnew x
      ((hmiddle.flatMap_right _).mem_iff.mpr hx)) hpos.symm hsorted htree (hroom q hfirst)).perm List.perm_middle.symm
    refine ⟨rfl, rfl, as ++ (q, p :: tail) :: cs, ⟨hcontent, ?_⟩, ?_⟩
    · have hlinked := h.linked
      have hfront := h.front
      have hback := h.back
      simp only [nodes_append, nodes_cons] at hlinked hfront hback hfresh ⊢
      refine hlinked.pushAfter hfront hback ?_ ?_ ?_
      · simp only [List.mem_cons, List.mem_append, List.not_mem_nil, or_false] at hfresh ⊢
        tauto
      · intro y _
        simp [Table.linkAfter, Function.update_apply]
      · intro y _
        simp [Table.linkAfter, Function.update_apply]
    · simp only [nodes_append, nodes_cons]
      exact (List.Perm.append_left _ (List.Perm.swap ..)).trans List.perm_middle

/-- A key that is there is taken out with its node. -/
theorem del_present (hK : K.Lawful S) (h : Shape K S t bs) (hx : x ∈ nodes bs)
    (hc : ∀ first ∈ t.table (t.pos K (t.key x)), t.listLen first ≠ 0 → t.key first ≠ t.key x → t.Ordered K (t.key x)) :
    (t.del K (t.key x)).2 = some x ∧ (t.del K (t.key x)).1.key = t.key ∧
      ∃ cs, Shape K S (t.del K (t.key x)).1 cs ∧ (nodes cs).Perm ((nodes bs).erase x) := by
  have hk := h.keys x hx
  obtain ⟨b, hb, hcase⟩ := mem_nodes.mp hx
  obtain ⟨as, cs, rfl⟩ := List.append_of_mem hb
  have hmiddle : (as ++ b :: cs).Perm (b :: (as ++ cs)) := List.perm_middle
  have hcontent := h.toContent.perm hmiddle
  have hlinked := h.linked
  have hfront := h.front
  have hback := h.back
  have hmem : b.1 ∈ nodes (as ++ b :: cs) := mem_nodes.mpr ⟨_, hb, .inl rfl⟩
  have hlen := h.len b hb
  obtain ⟨first, tail⟩ := b
  have hfirst : t.table (t.pos K (t.key x)) = some first := by
    obtain rfl | hxt := hcase
    · exact h.table _ hb
    · rw [h.bucket _ hb x hxt]
      exact h.table _ hb
  simp only [nodes_append, nodes_cons] at hlinked hfront hback hlen hmem ⊢
  obtain rfl | hxt : x = first ∨ x ∈ tail := hcase
  · have hnot : x ∉ nodes as := by
      intro hxa
      exact (List.nodup_append.mp (List.nodup_cons.mp hfront).2).2.2 x hxa x List.mem_cons_self rfl
    have herase : (nodes as ++ x :: (tail ++ nodes cs)).erase x = nodes as ++ (tail ++ nodes cs) := by
      rw [List.erase_append_right _ hnot, List.erase_cons_head]
    rw [herase]
    have hunlinked : Linked (t.unlink x).next (t.unlink x).prev head (nodes as ++ (tail ++ nodes cs)) head := by
      refine hlinked.unlink hfront hback ?_ ?_
      · intro y _
        simp [Table.unlink, Function.update_apply]
      · intro y _
        simp [Table.unlink, Function.update_apply]
    cases tail with
    | nil =>
      have hlone : t.listLen x = 0 := UInt32.toNat_inj.mp (by simpa using hlen)
      have hdiffer : K.differ (t.key x) (t.key x) = false :=
        Bool.eq_false_iff.mpr fun hd => (hK.differ _ _ hk hk).mp hd rfl
      simp only [Table.del, hfirst, hlone, if_true, hdiffer, Bool.false_eq_true, if_false]
      refine ⟨trivial, rfl, as ++ cs, ⟨hcontent.delLone, ?_⟩, by simp⟩
      simpa using hunlinked
    | cons second rest =>
      have hmany : t.listLen x ≠ 0 := by
        intro hzero
        rw [hzero] at hlen
        simp at hlen
      have hagree := (hK.agree _ _ hk hk).mpr rfl
      have hsecond : t.next x = second := (linked_append.mp hlinked).2.1
      simp only [Table.del, hfirst, hmany, if_false, hagree, if_true, hsecond]
      refine ⟨trivial, rfl, as ++ (second, rest) :: cs, ⟨(hcontent.delFirst hK).perm List.perm_middle.symm, ?_⟩, ?_⟩
      · simpa using hunlinked
      · simp
  · obtain ⟨u, v, hxu, rfl, hcut⟩ := List.exists_erase_eq hxt
    have hmany : t.listLen first ≠ 0 := by
      intro hzero
      rw [hzero] at hlen
      simp at hlen
    have hne : t.key x ≠ t.key first := by
      intro heq
      obtain rfl : x = first := h.key_inj hx (mem_nodes.mpr ⟨_, hb, .inl rfl⟩) heq
      exact (List.nodup_cons.mp hcontent.nodup).1 (List.mem_append_left _ hxt)
    have hagree : K.agree (t.key x) (t.key first) = false :=
      Bool.eq_false_iff.mpr fun ha => hne ((hK.agree _ _ hk (h.keys _ (mem_nodes.mpr ⟨_, hb, .inl rfl⟩))).mp ha)
    have hfind : t.tree.find (fun y => K.compare (t.key x) (t.key y)) = some x :=
      (h.sorted.find_some (hc first hfirst hmany hne.symm) h.in_tree (.inl rfl)).mpr
        ⟨(h.tree x).mpr (mem_tails.mpr ⟨_, hb, hxt⟩), rfl⟩
    simp only [Table.del, hfirst, hmany, if_false, hagree, Bool.false_eq_true, hfind]
    refine ⟨trivial, rfl, as ++ (first, (u ++ x :: v).erase x) :: cs,
      ⟨(hcontent.delOther hK hxt).perm List.perm_middle.symm, ?_⟩, ?_⟩
    · have hsplit : nodes as ++ first :: (u ++ x :: v ++ nodes cs) =
          (nodes as ++ first :: u) ++ x :: (v ++ nodes cs) := by
        simp
      rw [hsplit] at hlinked hfront hback
      have hgoal : nodes (as ++ (first, (u ++ x :: v).erase x) :: cs) = nodes as ++ first :: u ++ (v ++ nodes cs) := by
        simp [hcut]
      rw [hgoal]
      refine hlinked.unlink hfront hback ?_ ?_
      · intro y _
        simp [Table.unlink, Function.update_apply]
      · intro y _
        simp [Table.unlink, Function.update_apply]
    · have hnot : x ∉ nodes as := by
        intro hxa
        have hapart := (List.nodup_append.mp (List.nodup_cons.mp hfront).2).2.2
        exact hapart x hxa x (by simp) rfl
      have hxf : x ≠ first := fun heq => hne (congrArg t.key heq)
      rw [List.erase_append_right _ hnot, List.erase_cons_tail (by simpa using hxf.symm),
        List.erase_append_left _ hxt]
      simp

end Shape
end Wenas.Xtable
