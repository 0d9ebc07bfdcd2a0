import Wenas.Xlib.Searches
import Wenas.Xlib.Walks

/-!
# Runs of the tree

A tree of `avlmini.c` is a map from keys to nodes. Any run of the operations answers as the map does, and what stands in
memory after it is a balanced search tree of the nodes of the map, with the right parents, heights and count; the nodes
outside of it are empty ones.
-/
namespace Wenas.Xlib

open Wenas.Trees Wenas.Loop AvlRoot Avl

variable {α κ : Type} [DecidableEq α] [DecidableEq κ]

/-! ### The map -/

inductive TreeOp (α : Type) where
  | add (data : α)
  | remove (data : α)
  | replace (victim newdata : α)
  | clear

namespace TreeOp

/-- The operation on the memory, with the node that `avl_tree_add` returns. -/
def exec (n : Nat) : TreeOp α → AvlTree α → Option (Option α × AvlTree α)
  | add data, tree => avlTreeAdd n data tree
  | remove data, tree => (avlTreeRemove n data tree).map fun tree => (none, tree)
  | replace victim newdata, tree => some (none, avlTreeReplace victim newdata tree)
  | clear, tree => (avlTreeClear n tree).map fun (_, tree) => (none, tree)

/-- The operation on the map. -/
def apply (key : α → κ) : TreeOp α → (κ → Option α) → Option α × (κ → Option α)
  | add data, m =>
    match m (key data) with
    | some x => (some x, m)
    | none => (none, Function.update m (key data) (some data))
  | remove data, m => (none, if m (key data) = some data then Function.update m (key data) none else m)
  | replace victim newdata, m => (none, Function.update m (key victim) (some newdata))
  | clear, _ => (none, fun _ => none)

/-- A node is replaced by another one with the same key, and only where it is in the tree. -/
def Allowed (key : α → κ) (m : κ → Option α) : TreeOp α → Prop
  | replace victim newdata => m (key victim) = some victim ∧ key newdata = key victim ∧ newdata ≠ victim
  | _ => True

end TreeOp

/-- The tree in memory is `t`, and its nodes are those of the map. -/
structure Holds (cmp : κ → κ → Int) (key : α → κ) (tree : AvlTree α) (m : κ → Option α) (t : Avl α) : Prop where
  stands : tree.root.Stands tree.root.nodes t.shape
  empty : ∀ x ∉ t.toList, (tree.root.nodes x).parent = some x
  sorted : Sorted cmp key t
  balanced : t.Balanced
  count : tree.count = t.toList.length
  contents : ∀ k x, m k = some x ↔ x ∈ t.toList ∧ key x = k
  compare : tree.compare = fun x y => cmp (key x) (key y)
  findCompare : tree.findCompare = fun x y => cmp (key x) (key y)

variable {cmp : κ → κ → Int} {S : κ → Prop} {key : α → κ} {tree tree' : AvlTree α} {root : AvlRoot α}
  {o : α → AvlNode α} {m : κ → Option α} {t t' : Avl α} {x data victim newdata : α} {c : Nat}

omit [DecidableEq α] in
theorem AvlRoot.Stands.self (h : root.Stands o t.shape) : root.Stands root.nodes t.shape := ⟨h.tree, fun _ _ => rfl⟩

omit [DecidableEq α] [DecidableEq κ] in
theorem Holds.nodup (h : Holds cmp key tree m t) : t.toList.Nodup := shape_nodes t ▸ h.stands.tree.nodup

section

variable (ht : Total cmp S) (hS : ∀ x, S (key x))

include ht hS

omit [DecidableEq α] [DecidableEq κ] in
theorem Holds.find_eq (h : Holds cmp key tree m t) (data : α) : t.find (fun x => cmp (key data) (key x)) = m (key data) := by
  ext x
  rw [h.sorted.find_some ht (fun x _ => hS x) (hS data), h.contents]

omit [DecidableEq α] in
theorem Holds.contents_add (h : Holds cmp key tree m t) (hnew : m (key data) = none) (k : κ) (x : α) :
    Function.update m (key data) (some data) k = some x ↔
      x ∈ (t.add (fun x => cmp (key data) (key x)) data).1.toList ∧ key x = k := by
  have hfind := (h.find_eq ht hS data).trans hnew
  obtain ⟨-, hmem⟩ := h.sorted.add ht (fun x _ => hS x) (hS data) hfind
  rw [hmem, Function.update_apply]
  split
  · rename_i hk
    constructor
    · rintro ⟨⟩
      exact ⟨.inl rfl, hk.symm⟩
    · rintro ⟨rfl | hx, hkx⟩
      · rfl
      · have hx := (h.contents k x).mpr ⟨hx, hkx⟩
        rw [hk, hnew] at hx
        cases hx
  · rename_i hk
    rw [h.contents]
    constructor
    · rintro ⟨hx, hkx⟩
      exact ⟨.inr hx, hkx⟩
    · rintro ⟨rfl | hx, hkx⟩
      · exact absurd hkx.symm hk
      · exact ⟨hx, hkx⟩

/-! ### One operation -/

theorem Holds.add (h : Holds cmp key tree m t) (data : α) :
    ∃ tree' t', Yields (fun n => (TreeOp.add data).exec n tree) (((TreeOp.add data).apply key m).1, tree') ∧
      Holds cmp key tree' ((TreeOp.add data).apply key m).2 t' := by
  have hcompare : tree.compare data = fun x => cmp (key data) (key x) := by rw [h.compare]
  have hfind := h.find_eq ht hS data
  cases hm : m (key data) with
  | some x =>
    refine ⟨tree, t, ?_, ?_⟩
    · simp only [TreeOp.apply, hm]
      exact avlTreeAdd_conflict h.stands (by rw [hcompare, hfind, hm])
    · simp only [TreeOp.apply, hm]
      exact h
  | none =>
    have hfresh : data ∉ t.toList := by
      intro hdata
      rw [(h.contents (key data) data).mpr ⟨hdata, rfl⟩] at hm
      cases hm
    rw [hm] at hfind
    obtain ⟨root, hroot, hyields⟩ := avlTreeAdd_new h.stands (by rw [hcompare, hfind]) hfresh
    rw [hcompare] at hroot
    obtain ⟨hsorted, hmem⟩ := h.sorted.add ht (fun x _ => hS x) (hS data) hfind
    obtain ⟨u, v, hold, hnew, -⟩ := add_of_new (p := data) (h.sorted.monotone ht (fun x _ => hS x) (hS data)) hfind
    refine ⟨{ tree with root, count := tree.count + 1 }, _, ?_, hroot.self, fun x hx => ?_, hsorted, h.balanced.add, ?_, ?_,
      h.compare, h.findCompare⟩
    · simp only [TreeOp.apply, hm]
      exact hyields
    · have hx' : x ∉ t.toList := fun hx' => hx ((hmem x).mpr (.inr hx'))
      rw [hroot.outside x (by rwa [shape_nodes]), h.empty x hx']
    · rw [hnew, h.count, hold]
      simp
      omega
    · simp only [TreeOp.apply, hm]
      exact h.contents_add ht hS hm

end

/-- `avl_tree_remove` does to the memory what `remove` does to the tree. -/
theorem avlTreeRemove_spec (hs : tree.root.Stands o t.shape) (hdata : data ∈ t.toList) :
    ∃ root : AvlRoot α, Yields (fun n => avlTreeRemove n data tree) { tree with root, count := tree.count - 1 } ∧
      root.Stands (Function.update o data (root.nodes data)) (t.remove data).shape ∧
      (root.nodes data).parent = some data := by
  have hparent : (tree.root.nodes data).parent ≠ some data := by
    rw [← shape_nodes] at hdata
    obtain ⟨ctx, l, b, d, hplug⟩ := exists_plug hdata
    have hs := hplug ▸ hs
    obtain ⟨-, -, -, hparent, -⟩ := hs.heights (s := .left)
    obtain ⟨p, -, -, -, -, hout⟩ := stands_plug.mp hs.tree
    rw [hparent]
    exact fun htop => hout data (by simp) (top_mem htop)
  have hnodup : t.toList.Nodup := shape_nodes t ▸ hs.tree.nodup
  obtain ⟨r', hyields, hr'⟩ := avlNodeErase_spec hs hdata
  have hremoved := hr'.set_outside (x := data) (n := { r'.nodes data with parent := some data }) (by
    rw [shape_nodes, toList_erase, hnodup.mem_erase_iff]
    simp)
  rw [Function.update_idem] at hremoved
  refine ⟨r'.setParent data (some data), ?_, ?_, ?_⟩
  · simp only [avlTreeRemove, if_neg hparent]
    exact hyields.bind Yields.pure
  · rw [setParent, set_nodes_self]
    exact hremoved
  · rw [setParent, set_nodes_self]

theorem Holds.remove (h : Holds cmp key tree m t) (data : α) :
    ∃ tree' t', Yields (fun n => (TreeOp.remove data).exec n tree) (none, tree') ∧
      Holds cmp key tree' ((TreeOp.remove data).apply key m).2 t' := by
  by_cases hdata : data ∈ t.toList
  · obtain ⟨root, hyields, hroot, hparent⟩ := avlTreeRemove_spec h.stands hdata
    have hm := (h.contents (key data) data).mpr ⟨hdata, rfl⟩
    refine ⟨_, t.remove data, hyields.map, hroot.self, fun x hx => ?_, h.sorted.remove data, h.balanced.remove data, ?_,
      fun k x => ?_, h.compare, h.findCompare⟩
    · by_cases hxd : x = data
      · rw [hxd, hparent]
      · rw [hroot.outside x (by rwa [shape_nodes]), Function.update_of_ne hxd]
        refine h.empty x fun hx' => hx ?_
        rw [toList_remove, h.nodup.mem_erase_iff]
        exact ⟨hxd, hx'⟩
    · rw [toList_remove, List.length_erase_of_mem hdata, h.count]
    · simp only [TreeOp.apply, if_pos hm, Function.update_apply, toList_remove, h.nodup.mem_erase_iff]
      split
      · rename_i hk
        refine iff_of_false (Option.some_ne_none x).symm ?_
        rintro ⟨⟨hne, hx⟩, hkx⟩
        have hx := (h.contents k x).mpr ⟨hx, hkx⟩
        rw [hk, hm] at hx
        exact hne (Option.some.inj hx).symm
      · rename_i hk
        rw [h.contents]
        refine ⟨fun ⟨hx, hkx⟩ => ⟨⟨?_, hx⟩, hkx⟩, fun ⟨⟨_, hx⟩, hkx⟩ => ⟨hx, hkx⟩⟩
        rintro rfl
        exact hk hkx.symm
  · have hm : m (key data) ≠ some data := fun hm => hdata ((h.contents _ _).mp hm).1
    refine ⟨tree, t, ⟨0, fun n _ => ?_⟩, ?_⟩
    · simp [TreeOp.exec, avlTreeRemove, h.empty data hdata]
    · rwa [TreeOp.apply, if_neg hm]

omit [DecidableEq κ] in
theorem Avl.replace_of_notMem (h : victim ∉ t.toList) : t.replace victim newdata = t := by
  induction t with
  | nil => rfl
  | node b l x d ihl ihd =>
    simp only [toList, List.mem_append, List.mem_cons, not_or] at h
    simp only [Avl.replace, ihl h.1, ihd h.2.2, if_neg fun heq => h.2.1 (Eq.symm heq)]

theorem Avl.replace_plug {ctx : List (Frame α Nat)} {u : Shape α Nat} (h : victim ∉ around ctx) :
    ((ofShape (plug ctx u)).replace victim newdata).shape = plug ctx ((ofShape u).replace victim newdata).shape := by
  induction ctx generalizing u with
  | nil => rfl
  | cons f ctx ih =>
    obtain ⟨side, x, b, sibling⟩ := f
    simp only [mem_around_cons, not_or] at h
    have hsibling : (ofShape sibling).replace victim newdata = ofShape sibling := by
      refine replace_of_notMem ?_
      rw [← shape_nodes, shape_ofShape]
      exact h.2.1
    have hx : ¬ x = victim := fun heq => h.1 heq.symm
    rw [plug, ih h.2.2, plug]
    cases side <;> simp [Frame.fill, Shape.join, ofShape, Avl.replace, hsibling, hx, shape]

/-- `avl_tree_replace` does to the memory what `replace` does to the tree. -/
theorem avlTreeReplace_spec (hs : tree.root.Stands o t.shape) (hvictim : victim ∈ t.toList) (hnew : newdata ∉ t.toList) :
    ∃ root : AvlRoot α, avlTreeReplace victim newdata tree = { tree with root } ∧
      root.Stands (Function.update o victim (root.nodes victim)) (t.replace victim newdata).shape ∧
      (root.nodes victim).parent = some victim := by
  rw [← shape_nodes] at hvictim hnew
  obtain ⟨ctx, l, b, d, hplug⟩ := exists_plug hvictim
  rw [hplug] at hs hnew
  obtain ⟨p, -, -, hnodup, -, hout⟩ := stands_plug.mp hs.tree
  obtain ⟨-, -, hl, hd, -⟩ := Shape.nodup_join (s := .left).mp hnodup
  have hshape : (t.replace victim newdata).shape = plug ctx (.node l newdata b d) := by
    have hl' : (ofShape l).replace victim newdata = ofShape l := replace_of_notMem (by rwa [← shape_nodes, shape_ofShape])
    have hd' : (ofShape d).replace victim newdata = ofShape d := replace_of_notMem (by rwa [← shape_nodes, shape_ofShape])
    rw [← ofShape_shape t, hplug, replace_plug (hout victim (by simp))]
    simp [ofShape, Avl.replace, hl', hd', shape]
  have hvictim : victim ∉ (plug ctx (.node l newdata b d)).nodes := by
    have hne : victim ≠ newdata := by
      rintro rfl
      simp at hnew
    have hout := hout victim (by simp)
    simp only [around, List.mem_append, not_or] at hout
    simp [hl, hd, hne, hout]
  have hreplaced := (avlNodeReplace_spec hs hnew).set_outside
    (n := { (avlNodeReplace victim newdata tree.root).nodes victim with parent := some victim }) hvictim
  rw [Function.update_idem] at hreplaced
  refine ⟨(avlNodeReplace victim newdata tree.root).setParent victim (some victim), rfl, ?_, ?_⟩
  · rw [hshape, setParent, set_nodes_self]
    exact hreplaced
  · rw [setParent, set_nodes_self]

theorem Holds.replace (h : Holds cmp key tree m t) (hallowed : (TreeOp.replace victim newdata).Allowed key m) :
    ∃ tree' t', (TreeOp.replace victim newdata).exec c tree = some (none, tree') ∧
      Holds cmp key tree' ((TreeOp.replace victim newdata).apply key m).2 t' := by
  obtain ⟨hvictim, hkey, hne⟩ := hallowed
  have hin := ((h.contents _ _).mp hvictim).1
  have hnew : newdata ∉ t.toList := by
    intro hnew
    have hm := (h.contents _ _).mpr ⟨hnew, hkey⟩
    rw [hvictim] at hm
    exact hne (Option.some.inj hm).symm
  have hmem : ∀ x, x ∈ (t.replace victim newdata).toList ↔ x = newdata ∨ x ∈ t.toList ∧ x ≠ victim := by
    intro x
    rw [toList_replace, List.mem_map]
    constructor
    · rintro ⟨y, hy, rfl⟩
      split
      · exact .inl rfl
      · rename_i hne
        exact .inr ⟨hy, hne⟩
    · rintro (rfl | ⟨hx, hne⟩)
      · exact ⟨victim, hin, if_pos rfl⟩
      · exact ⟨x, hx, if_neg hne⟩
  obtain ⟨root, htree, hroot, hparent⟩ := avlTreeReplace_spec h.stands hin hnew
  refine ⟨_, t.replace victim newdata, congrArg (fun tree => some (none, tree)) htree, hroot.self, fun x hx => ?_,
    h.sorted.replace hkey, h.balanced.replace, ?_, fun k x => ?_, h.compare, h.findCompare⟩
  · by_cases hxv : x = victim
    · rw [hxv, hparent]
    · rw [hroot.outside x (by rwa [shape_nodes]), Function.update_of_ne hxv]
      exact h.empty x fun hx' => hx ((hmem x).mpr (.inr ⟨hx', hxv⟩))
  · rw [toList_replace, List.length_map, h.count]
  · simp only [TreeOp.apply, Function.update_apply, hmem]
    split
    · rename_i hk
      constructor
      · rintro ⟨⟩
        exact ⟨.inl rfl, hkey.trans hk.symm⟩
      · rintro ⟨rfl | ⟨hx, hne⟩, hkx⟩
        · rfl
        · have hx := (h.contents k x).mpr ⟨hx, hkx⟩
          rw [hk, hvictim] at hx
          exact absurd (Option.some.inj hx).symm hne
    · rename_i hk
      rw [h.contents]
      constructor
      · rintro ⟨hx, hkx⟩
        refine ⟨.inr ⟨hx, ?_⟩, hkx⟩
        rintro rfl
        exact hk hkx.symm
      · rintro ⟨rfl | ⟨hx, -⟩, hkx⟩
        · exact absurd (hkx.symm.trans hkey) hk
        · exact ⟨hx, hkx⟩

omit [DecidableEq κ] in
theorem Holds.clear (h : Holds cmp key tree m t) : ∃ tree', Holds cmp key tree' (fun _ => none) .nil ∧
    Yields (fun n => avlTreeClear n tree) (postorder t.shape, tree') := by
  obtain ⟨root, o', hroot, hempty, hyields⟩ := avlTreeClear_spec h.stands
  have hlength : (postorder t.shape).length = t.toList.length := by rw [(postorder_perm _).length_eq, shape_nodes]
  refine ⟨{ tree with root, count := tree.count - (postorder t.shape).length },
    ⟨⟨hroot.tree, fun _ _ => rfl⟩, fun x _ => ?_, .nil, trivial, ?_, fun k x => ?_, h.compare, h.findCompare⟩, hyields⟩
  · obtain ⟨hin, hout⟩ := hempty x
    rw [hroot.outside x List.not_mem_nil]
    by_cases hx : x ∈ postorder t.shape
    · exact hin hx
    · rw [hout hx]
      refine h.empty x fun hx' => hx ?_
      rwa [(postorder_perm _).mem_iff, shape_nodes]
  · simp only [hlength, h.count, Nat.sub_self, toList, List.length_nil]
  · simp [toList]

/-! ### Runs -/

namespace TreeOp

/-- One operation after the other, with what `avl_tree_add` returns. -/
def execs (n : Nat) : List (TreeOp α) → AvlTree α → Option (List (Option α) × AvlTree α)
  | [], tree => some ([], tree)
  | op :: ops, tree => do
    let (x, tree) ← op.exec n tree
    let (xs, tree) ← execs n ops tree
    pure (x :: xs, tree)

def applies (key : α → κ) : List (TreeOp α) → (κ → Option α) → List (Option α) × (κ → Option α)
  | [], m => ([], m)
  | op :: ops, m =>
    let s := applies key ops (op.apply key m).2
    ((op.apply key m).1 :: s.1, s.2)

def AllAllowed (key : α → κ) : List (TreeOp α) → (κ → Option α) → Prop
  | [], _ => True
  | op :: ops, m => op.Allowed key m ∧ AllAllowed key ops (op.apply key m).2

end TreeOp

open TreeOp

variable {ops : List (TreeOp α)} {nodes : α → AvlNode α}

omit [DecidableEq α] [DecidableEq κ] in
theorem Holds.init (hnodes : ∀ x, (nodes x).parent = some x) :
    Holds cmp key (avlTreeInit (fun x y => cmp (key x) (key y)) (fun x y => cmp (key x) (key y)) nodes) (fun _ => none)
      .nil where
  stands := ⟨⟨rfl, .nil⟩, fun _ _ => rfl⟩
  empty x _ := hnodes x
  sorted := .nil
  balanced := trivial
  count := rfl
  contents k x := by simp [toList]
  compare := rfl
  findCompare := rfl

section

variable (ht : Total cmp S) (hS : ∀ x, S (key x))

include ht hS

theorem Holds.exec (h : Holds cmp key tree m t) (op : TreeOp α) (hop : op.Allowed key m) :
    ∃ tree' t', Yields (fun n => op.exec n tree) ((op.apply key m).1, tree') ∧
      Holds cmp key tree' (op.apply key m).2 t' := by
  cases op with
  | add data => exact h.add ht hS data
  | remove data => exact h.remove data
  | replace victim newdata =>
    obtain ⟨tree', t', hexec, hholds⟩ := h.replace (c := 0) hop
    exact ⟨tree', t', ⟨0, fun _ _ => hexec⟩, hholds⟩
  | clear =>
    obtain ⟨tree', hholds, hyields⟩ := h.clear
    exact ⟨tree', .nil, hyields.map, hholds⟩

theorem Holds.execs (h : Holds cmp key tree m t) (hops : AllAllowed key ops m) :
    ∃ tree' t', Yields (fun n => execs n ops tree) ((applies key ops m).1, tree') ∧
      Holds cmp key tree' (applies key ops m).2 t' := by
  induction ops generalizing tree m t with
  | nil => exact ⟨tree, t, Yields.pure, h⟩
  | cons op ops ih =>
    obtain ⟨tree₁, t₁, hexec, h₁⟩ := h.exec ht hS op hops.1
    obtain ⟨tree₂, t₂, hexecs, h₂⟩ := ih h₁ hops.2
    exact ⟨tree₂, t₂, hexec.bind (hexecs.bind Yields.pure), h₂⟩

/-- Every run answers as the map does, and the memory holds the map in a balanced tree. -/
theorem avlTree_runs (hnodes : ∀ x, (nodes x).parent = some x) (hops : AllAllowed key ops fun _ => none) :
    ∃ tree t, Yields
        (fun n => execs n ops (avlTreeInit (fun x y => cmp (key x) (key y)) (fun x y => cmp (key x) (key y)) nodes))
        ((applies key ops fun _ => none).1, tree) ∧
      Holds cmp key tree (applies key ops fun _ => none).2 t :=
  (Holds.init hnodes).execs ht hS hops

end

/-! Numbers under their halves. -/

def half (x : Nat) : Nat := x / 2

def difference (a b : Nat) : Int := a - b

theorem total_difference : Total difference fun _ => True where
  refl a _ := by simp [difference]
  swap a b _ _ h := by rw [difference] at *; omega
  connex a b _ _ h := by rw [difference, difference]; omega
  trans a b c _ _ _ hab hbc := by rw [difference] at *; omega

def halves : List (TreeOp Nat) := [add 4, add 2, add 7, replace 2 3, add 5, remove 4, remove 9]

theorem halves_allowed : AllAllowed half halves fun _ => none :=
  ⟨trivial, trivial, trivial, ⟨rfl, rfl, by decide⟩, trivial, trivial, trivial, trivial⟩

theorem avlTree_runs_halves : ∃ tree t, Yields (fun n => execs n halves (avlTreeInit
      (fun x y => difference (half x) (half y)) (fun x y => difference (half x) (half y)) fun x => ⟨none, none, some x, 0⟩))
      ([none, none, none, none, some 4, none, none], tree) ∧
    Holds difference half tree (applies half halves fun _ => none).2 t :=
  avlTree_runs total_difference (fun _ => trivial) (fun _ => rfl) halves_allowed

/-- A run from a new tree has led to this memory and to this map. -/
def Reached (cmp : κ → κ → Int) (key : α → κ) (tree : AvlTree α) (m : κ → Option α) : Prop :=
  ∃ (nodes : α → AvlNode α) (ops : List (TreeOp α)) (xs : List (Option α)), (∀ x, (nodes x).parent = some x) ∧
    AllAllowed key ops (fun _ => none) ∧ m = (applies key ops fun _ => none).2 ∧
    Yields (fun n => execs n ops (avlTreeInit (fun x y => cmp (key x) (key y)) (fun x y => cmp (key x) (key y)) nodes))
      (xs, tree)

theorem Reached.holds (ht : Total cmp S) (hS : ∀ x, S (key x)) (h : Reached cmp key tree m) :
    ∃ t, Holds cmp key tree m t := by
  obtain ⟨nodes, ops, xs, hnodes, hops, rfl, hyields⟩ := h
  obtain ⟨tree', t, hyields', hholds⟩ := (Holds.init hnodes).execs ht hS hops
  obtain ⟨-, rfl⟩ := Prod.mk.inj (hyields.unique hyields')
  exact ⟨t, hholds⟩

theorem halves_reached :
    ∃ tree, Reached difference half tree (applies half halves fun _ => none).2 := by
  have hnodes : ∀ x : Nat, (⟨none, none, some x, 0⟩ : AvlNode Nat).parent = some x := fun _ => rfl
  obtain ⟨tree, t, hyields, -⟩ := (Holds.init hnodes).execs total_difference (fun _ => trivial) halves_allowed
  exact ⟨tree, _, halves, _, hnodes, halves_allowed, rfl, hyields⟩

/-! ### Questions to a tree that a run has led to -/

omit [DecidableEq α] [DecidableEq κ] in
theorem Holds.height_lt {n : Nat} (h : Holds cmp key tree m t) (hn : 2 * Nat.log 2 (tree.count + 1) + 1 < n) :
    t.height < n := by
  rw [h.count] at hn
  exact (height_le h.balanced).trans_lt hn

omit [DecidableEq α] [DecidableEq κ] in
theorem Holds.mem_iff (h : Holds cmp key tree m t) (x : α) : x ∈ t.toList ↔ m (key x) = some x := by simp [h.contents]

section

variable (ht : Total cmp S) (hS : ∀ x, S (key x)) {n : Nat}

include ht hS

/-- Finding takes no more turns than twice the logarithm of the number of nodes. -/
theorem avlTreeFind_reached (h : Reached cmp key tree m) (hn : 2 * Nat.log 2 (tree.count + 1) + 1 < n) (data : α) :
    avlTreeFind n data tree = some (m (key data)) := by
  obtain ⟨t, h⟩ := h.holds ht hS
  rw [avlTreeFind_eq h.stands h.balanced (h.height_lt hn), h.findCompare, h.find_eq ht hS]

omit [DecidableEq α] [DecidableEq κ] ht hS in
theorem avlTreeFind_reached_halves : ∃ tree : AvlTree Nat, avlTreeFind (2 * Nat.log 2 (tree.count + 1) + 2) 6 tree =
    some (some 7) := by
  obtain ⟨tree, h⟩ := halves_reached
  exact ⟨tree, avlTreeFind_reached total_difference (fun _ => trivial) h (Nat.lt_succ_self _) 6⟩

/-- The nodes of the map in the order of their keys, from either end. -/
theorem avlNodeNext_reached (h : Reached cmp key tree m) :
    ∃ l, (∀ x, x ∈ l ↔ m (key x) = some x) ∧ l.Pairwise (fun x y => cmp (key x) (key y) < 0) ∧ tree.count = l.length ∧
      Yields (fun n => avlNodeFirst n tree.root) l.head? ∧ Yields (fun n => avlNodeLast n tree.root) l.getLast? ∧
      ∀ u x v, l = u ++ x :: v → Yields (fun n => avlNodeNext n (some x) tree.root) v.head? ∧
        Yields (fun n => avlNodePrev n (some x) tree.root) u.getLast? := by
  obtain ⟨t, h⟩ := h.holds ht hS
  have hends := avlNodeEnd_nodes h.stands
  rw [shape_nodes] at hends
  refine ⟨t.toList, h.mem_iff, h.sorted, h.count, hends.1, hends.2, fun u x v hl => ?_⟩
  exact avlNodeStep_nodes h.stands (by rw [shape_nodes, hl])

omit [DecidableEq α] [DecidableEq κ] ht hS in
theorem avlNodeNext_reached_halves : ∃ (tree : AvlTree Nat) (l : List Nat), (∀ x, x ∈ l ↔
    (applies half halves fun _ => none).2 (half x) = some x) ∧ Yields (fun n => avlNodeFirst n tree.root) l.head? := by
  obtain ⟨tree, h⟩ := halves_reached
  obtain ⟨l, hmem, -, -, hfirst, -⟩ := avlNodeNext_reached total_difference (fun _ => trivial) h
  exact ⟨tree, l, hmem, hfirst⟩

omit [DecidableEq α] [DecidableEq κ] ht hS in
theorem neighbour_mem {u v : List α} (hx : u.getLast? = some x ∨ v.head? = some x) : x ∈ u ++ v := by
  obtain hx | hx := hx
  · exact List.mem_append_left v (List.mem_of_getLast? hx)
  · exact List.mem_append_right u (List.mem_of_head? hx)

omit [DecidableEq α] [DecidableEq κ] in
theorem neighbour_missing {u v : List α} {y : α} (h : Holds cmp key tree m t) (hl : t.toList = u ++ v)
    (hu : ∀ y ∈ u, 0 < cmp (key data) (key y)) (hv : ∀ y ∈ v, cmp (key data) (key y) < 0) : m (key data) ≠ some y := by
  intro hm
  obtain ⟨hy, hkey⟩ := (h.contents _ _).mp hm
  have hzero := (ht.eq_zero (hS data) (hS y)).mpr hkey.symm
  rw [hl] at hy
  obtain hy | hy := List.mem_append.mp hy
  · have hpos := hu y hy
    omega
  · have hneg := hv y hy
    omega

omit [DecidableEq α] [DecidableEq κ] in
/-- No node comes between the missing key and its neighbour. -/
theorem neighbour_between {u v : List α} {y : α} (hsorted : (u ++ v).Pairwise fun x y => cmp (key x) (key y) < 0)
    (hu : ∀ y ∈ u, 0 < cmp (key data) (key y)) (hv : ∀ y ∈ v, cmp (key data) (key y) < 0)
    (hx : u.getLast? = some x ∨ v.head? = some x) (hy : y ∈ u ++ v) :
    ¬ (cmp (key data) (key y) < 0 ∧ cmp (key y) (key x) < 0) ∧ ¬ (cmp (key x) (key y) < 0 ∧ cmp (key y) (key data) < 0) := by
  have hswap : ∀ a b : α, cmp (key a) (key b) < 0 → ¬ cmp (key b) (key a) < 0 := by
    intro a b hab
    exact not_lt.mpr (ht.swap _ _ (hS a) (hS b) hab).le
  have hirrefl : ¬ cmp (key x) (key x) < 0 := fun hlt => hswap x x hlt hlt
  obtain ⟨-, -, hcross⟩ := List.pairwise_append.mp hsorted
  obtain hx | hx := hx
  · -- the last of the smaller nodes
    obtain ⟨u, rfl⟩ := List.getLast?_eq_some_iff.mp hx
    have hbefore : y ∈ u ++ [x] → ¬ cmp (key x) (key y) < 0 := by
      intro hy
      obtain hy | hy := List.mem_append.mp hy
      · have hlast := (List.pairwise_append.mp (List.pairwise_append.mp hsorted).1).2.2 y hy x (by simp)
        exact fun hxy => hswap _ _ hxy hlast
      · rw [List.mem_singleton.mp hy]
        exact hirrefl
    obtain hy | hy := List.mem_append.mp hy
    · exact ⟨fun h => (hu y hy).not_gt h.1, fun h => hbefore hy h.1⟩
    · exact ⟨fun h => hswap _ _ h.2 (hcross x (by simp) y hy), fun h => hswap _ _ h.2 (hv y hy)⟩
  · -- the first of the larger nodes
    obtain ⟨v, rfl⟩ := List.head?_eq_some_iff.mp hx
    have hbehind : y ∈ x :: v → ¬ cmp (key y) (key x) < 0 := by
      intro hy
      obtain rfl | hy := List.mem_cons.mp hy
      · exact hirrefl
      · have hfirst := (List.pairwise_cons.mp (List.pairwise_append.mp hsorted).2.1).1 y hy
        exact hswap _ _ hfirst
    obtain hy | hy := List.mem_append.mp hy
    · exact ⟨fun h => (hu y hy).not_gt h.1, fun h => hswap _ _ h.1 (hcross y hy x (by simp))⟩
    · exact ⟨fun h => hbehind hy h.2, fun h => hswap _ _ h.2 (hv y hy)⟩

/-- A node with the same key, or a neighbour of the missing key. -/
theorem avlTreeNearest_reached (h : Reached cmp key tree m) (hn : 2 * Nat.log 2 (tree.count + 1) + 1 < n) (data : α) :
    ∃ p, avlTreeNearest n data tree = some p ∧ (p = none ↔ ∀ k, m k = none) ∧
      ∀ x, p = some x → m (key x) = some x ∧ ((∃ y, m (key data) = some y) → key x = key data) ∧
        ∀ y, m (key y) = some y → ¬ (cmp (key data) (key y) < 0 ∧ cmp (key y) (key x) < 0) ∧
          ¬ (cmp (key x) (key y) < 0 ∧ cmp (key y) (key data) < 0) := by
  obtain ⟨t, h⟩ := h.holds ht hS
  have hmono := h.sorted.monotone ht (fun x _ => hS x) (hS data)
  refine ⟨_, avlTreeNearest_eq h.stands h.balanced (h.height_lt hn), ?_, fun x hx => ?_⟩
  · rw [nearest_isNone]
    constructor
    · rintro ⟨-, rfl⟩ k
      cases hm : m k with
      | none => rfl
      | some x => exact absurd ((h.contents k x).mp hm).1 List.not_mem_nil
    · intro hm
      cases t with
      | nil => exact ⟨rfl, rfl⟩
      | node b l x d =>
        have hx := (h.mem_iff x).mp (by simp [toList])
        rw [hm] at hx
        cases hx
  · rw [h.compare] at hx
    obtain ⟨hx, hzero⟩ | ⟨u, v, hl, hu, hv, hx⟩ := nearest_spec (u := []) (v := []) (by simpa using hmono) (by simp) (by simp)
      (by simp) hx
    · have hkey := (ht.eq_zero (hS data) (hS x)).mp hzero
      rw [List.nil_append, List.append_nil] at hx
      refine ⟨(h.mem_iff x).mp hx, fun _ => hkey.symm, fun y _ => ?_⟩
      rw [hkey]
      have hnot : ¬ (cmp (key x) (key y) < 0 ∧ cmp (key y) (key x) < 0) := by
        rintro ⟨hxy, hyx⟩
        have hpos := ht.swap _ _ (hS x) (hS y) hxy
        omega
      exact ⟨hnot, hnot⟩
    · rw [List.nil_append, List.append_nil] at hl
      have hsorted := h.sorted
      rw [Sorted, hl] at hsorted
      refine ⟨(h.mem_iff x).mp (by rw [hl]; exact neighbour_mem hx), fun hmet => ?_,
        fun y hy => neighbour_between ht hS hsorted hu hv hx (by rw [← hl]; exact (h.mem_iff y).mpr hy)⟩
      obtain ⟨y, hy⟩ := hmet
      exact absurd hy (neighbour_missing ht hS h hl hu hv)

omit [DecidableEq α] [DecidableEq κ] ht hS in
theorem avlTreeNearest_reached_halves : ∃ (tree : AvlTree Nat) (p : Option Nat),
    avlTreeNearest (2 * Nat.log 2 (tree.count + 1) + 2) 4 tree = some p ∧
      (p = none ↔ ∀ k, (applies half halves fun _ => none).2 k = none) := by
  obtain ⟨tree, h⟩ := halves_reached
  obtain ⟨p, hp, hnone, -⟩ := avlTreeNearest_reached total_difference (fun _ => trivial) h (Nat.lt_succ_self _) 4
  exact ⟨tree, p, hp, hnone⟩

end

omit [DecidableEq α] [DecidableEq κ] in
/-- The parent of a node is in the tree, or it is the one above the tree. -/
theorem At.parent_mem {nodes : α → AvlNode α} {up p : Option α} {t : Shape α Nat} (h : At nodes up p t)
    (hx : x ∈ t.nodes) : (nodes x).parent = up ∨ ∃ y ∈ t.nodes, (nodes x).parent = some y := by
  induction t generalizing up p with
  | nil => cases hx
  | node l z b d ihl ihd =>
    obtain ⟨-, hparent, -, hl, hd⟩ := h
    obtain hx | rfl | hx := by simpa using hx
    · obtain hparent | ⟨y, hy, hparent⟩ := ihl hl hx
      · exact .inr ⟨z, by simp, hparent⟩
      · exact .inr ⟨y, by simp [hy], hparent⟩
    · exact .inl hparent
    · obtain hparent | ⟨y, hy, hparent⟩ := ihd hd hx
      · exact .inr ⟨z, by simp, hparent⟩
      · exact .inr ⟨y, by simp [hy], hparent⟩

omit [DecidableEq α] [DecidableEq κ] in
theorem postorder_pairwise {nodes : α → AvlNode α} {up p : Option α} {t : Shape α Nat} (h : At nodes up p t)
    (hnodup : t.nodes.Nodup) (hup : ∀ x ∈ t.nodes, up ≠ some x) :
    (postorder t).Pairwise fun x y => (nodes y).parent ≠ some x := by
  induction t generalizing up p with
  | nil => exact .nil
  | node l z b d ihl ihd =>
    obtain ⟨-, hparent, -, hl, hd⟩ := h
    obtain ⟨hnl, hnd, hzl, hzd, hld⟩ := Shape.nodup_join (s := .left).mp hnodup
    have hmem : ∀ {t : Shape α Nat} {x}, x ∈ postorder t ↔ x ∈ t.nodes := (postorder_perm _).mem_iff
    have hne : ∀ {t : Shape α Nat}, z ∉ t.nodes → ∀ x ∈ t.nodes, some z ≠ some x := by
      rintro t hz x hx ⟨⟩
      exact hz hx
    refine List.pairwise_append.mpr ⟨ihl hl hnl (hne hzl), List.pairwise_append.mpr ⟨ihd hd hnd (hne hzd),
      List.pairwise_singleton .., fun x hx y hy => ?_⟩, fun x hx y hy => ?_⟩
    · rw [List.mem_singleton.mp hy, hparent]
      exact hup x (by simp [hmem.mp hx])
    · have hx := hmem.mp hx
      obtain hy | hy := List.mem_append.mp hy
      · obtain hparent | ⟨w, hw, hparent⟩ := At.parent_mem hd (hmem.mp hy)
        · rw [hparent]
          exact hne hzl x hx
        · rw [hparent]
          rintro ⟨⟩
          exact hld x hx hw
      · rw [List.mem_singleton.mp hy, hparent]
        exact hup x (by simp [hx])

/-- `avl_tree_clear` hands every node of the map to `destroy` once, and no node before one that has it as its parent. -/
theorem avlTreeClear_reached (ht : Total cmp S) (hS : ∀ x, S (key x)) (h : Reached cmp key tree m) :
    ∃ l tree', Yields (fun n => avlTreeClear n tree) (l, tree') ∧ l.Nodup ∧ (∀ x, x ∈ l ↔ m (key x) = some x) ∧
      l.Pairwise (fun x y => (tree.root.nodes y).parent ≠ some x) ∧ tree'.root.node = none ∧ tree'.count = 0 ∧
      ∀ x, (tree'.root.nodes x).parent = some x := by
  obtain ⟨t, h⟩ := h.holds ht hS
  obtain ⟨tree', hholds, hyields⟩ := h.clear
  have hperm := postorder_perm t.shape
  refine ⟨_, tree', hyields, hperm.nodup_iff.mpr h.stands.tree.nodup, fun x => ?_,
    postorder_pairwise h.stands.tree.tree h.stands.tree.nodup (by simp), hholds.stands.tree.tree, hholds.count,
    fun x => hholds.empty x (by simp [toList])⟩
  rw [hperm.mem_iff, shape_nodes, h.mem_iff]

omit [DecidableEq α] [DecidableEq κ] in
theorem avlTreeClear_reached_halves : ∃ (tree : AvlTree Nat) (l : List Nat) (tree' : AvlTree Nat),
    Yields (fun n => avlTreeClear n tree) (l, tree') ∧ (∀ x, x ∈ l ↔
      (applies half halves fun _ => none).2 (half x) = some x) ∧ tree'.count = 0 := by
  obtain ⟨tree, h⟩ := halves_reached
  obtain ⟨l, tree', hyields, -, hmem, -, -, hcount, -⟩ := avlTreeClear_reached total_difference (fun _ => trivial) h
  exact ⟨tree, l, tree', hyields, hmem, hcount⟩

end Wenas.Xlib
