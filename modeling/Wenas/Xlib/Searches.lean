import Wenas.Xlib.Balance
import Wenas.Xlib.Turns

/-!
# Searching and adding on the memory

The loops of `avl_tree_find`, `avl_tree_nearest` and `avl_tree_add` go down the tree. The pointer that `link` points to
is the one at the hole of a context.
-/
namespace Wenas.Xlib

open Wenas.Trees Wenas.Loop AvlRoot Avl
open Wenas.Trees.Shape (join mem_join nodup_join root_mem)

variable {α : Type} {r : AvlRoot α} {tree : AvlTree α} {o : α → AvlNode α} {x y data : α} {h n : Nat} {hr : Int}
  {ctx : List (Frame α Nat)} {t l d : Avl α}

theorem towards_left (hs : r.Stands o (plug ctx (node h l x d).shape)) (hlt : hr < 0) :
    r.towards x hr = l.shape.root := by
  rw [towards, if_pos hlt]
  exact (hs.heights (s := .left)).2.2.2.2.1

theorem towards_right (hs : r.Stands o (plug ctx (node h l x d).shape)) (hge : ¬ hr < 0) :
    r.towards x hr = d.shape.root := by
  rw [towards, if_neg hge]
  exact (hs.heights (s := .right)).2.2.2.2.1

/-! ### Finding -/

theorem avlTreeFindTurn_loop (hs : tree.root.Stands o (plug ctx t.shape)) (hb : t.Balanced) (hn : t.height < n) :
    loop (avlTreeFindTurn data tree) n t.shape.root = some (t.find (tree.findCompare data)) := by
  induction t generalizing ctx n with
  | nil =>
    obtain ⟨n, rfl⟩ := Nat.exists_eq_succ_of_ne_zero (by omega : n ≠ 0)
    rfl
  | node h l x d ihl ihd =>
    obtain ⟨n, rfl⟩ := Nat.exists_eq_succ_of_ne_zero (by omega : n ≠ 0)
    obtain ⟨hh, -, -, hl, hd⟩ := hb
    rw [height_node] at hn
    simp only [shape, Shape.root, loop, avlTreeFindTurn, find]
    by_cases hzero : tree.findCompare data x = 0
    · simp [hzero]
    · by_cases hlt : tree.findCompare data x < 0
      · simp only [if_neg hzero, if_pos hlt, towards_left hs hlt]
        exact ihl (hs.child (s := .left)) hl (by omega)
      · simp only [if_neg hzero, if_neg hlt, towards_right hs hlt]
        exact ihd (hs.child (s := .right)) hd (by omega)

/-- The search makes no more turns than the height allows. -/
theorem avlTreeFind_eq (hs : tree.root.Stands o t.shape) (hb : t.Balanced) (hn : t.height < n) :
    avlTreeFind n data tree = some (t.find (tree.findCompare data)) := by
  rw [avlTreeFind, hs.tree.tree.eq_root]
  exact avlTreeFindTurn_loop hs.here hb hn

/-! ### The nearest node -/

/-- `avl_tree_nearest` from the node `p`. -/
def Avl.nearest (c : α → Int) (p : Option α) : Avl α → Option α
  | .nil => p
  | .node _ l x r => if c x = 0 then some x else if c x < 0 then l.nearest c (some x) else r.nearest c (some x)

theorem avlTreeNearestTurn_loop {p : Option α} (hs : tree.root.Stands o (plug ctx t.shape)) (hb : t.Balanced)
    (hn : t.height < n) :
    (loop (avlTreeNearestTurn data tree) n (t.shape.root, p)).map (fun (n, p) => n.or p) =
      some (t.nearest (tree.compare data) p) := by
  induction t generalizing ctx n p with
  | nil =>
    obtain ⟨n, rfl⟩ := Nat.exists_eq_succ_of_ne_zero (by omega : n ≠ 0)
    rfl
  | node h l x d ihl ihd =>
    obtain ⟨n, rfl⟩ := Nat.exists_eq_succ_of_ne_zero (by omega : n ≠ 0)
    obtain ⟨hh, -, -, hl, hd⟩ := hb
    rw [height_node] at hn
    simp only [shape, Shape.root, loop, avlTreeNearestTurn, nearest]
    by_cases hzero : tree.compare data x = 0
    · simp [hzero]
    · by_cases hlt : tree.compare data x < 0
      · simp only [if_neg hzero, if_pos hlt, towards_left hs hlt]
        exact ihl (hs.child (s := .left)) hl (by omega)
      · simp only [if_neg hzero, if_neg hlt, towards_right hs hlt]
        exact ihd (hs.child (s := .right)) hd (by omega)

theorem avlTreeNearest_eq (hs : tree.root.Stands o t.shape) (hb : t.Balanced) (hn : t.height < n) :
    avlTreeNearest n data tree = some (t.nearest (tree.compare data) none) := by
  rw [avlTreeNearest, hs.tree.tree.eq_root]
  exact avlTreeNearestTurn_loop hs.here hb hn

namespace Avl

variable {c : α → Int} {p : Option α} {u v : List α}

/-- What a node may be for the wanted data: an equal one, the last of the smaller ones `u` or the first of the larger
ones `v`. -/
def Nearest (c : α → Int) (l : List α) (x : α) : Prop :=
  x ∈ l ∧ c x = 0 ∨ ∃ u v, l = u ++ v ∧ (∀ y ∈ u, 0 < c y) ∧ (∀ y ∈ v, c y < 0) ∧
    (u.getLast? = some x ∨ v.head? = some x)

/-- Below the node `p`, the nodes `u` before the tree and `v` behind it are known. -/
theorem nearest_spec (hmono : Monotone c (u ++ t.toList ++ v)) (hu : ∀ y ∈ u, 0 < c y) (hv : ∀ y ∈ v, c y < 0)
    (hp : ∀ y, p = some y → u.getLast? = some y ∨ v.head? = some y) (hx : t.nearest c p = some x) :
    Nearest c (u ++ t.toList ++ v) x := by
  induction t generalizing u v p with
  | nil => exact .inr ⟨u, v, by simp [toList], hu, hv, hp x hx⟩
  | node h l z d ihl ihd =>
    have hlist : u ++ (node h l z d).toList ++ v = (u ++ l.toList) ++ z :: (d.toList ++ v) := by simp [toList]
    rw [hlist] at hmono
    obtain ⟨-, -, hafter, hbefore⟩ := Monotone.split hmono
    simp only [nearest] at hx
    split at hx
    · rename_i hzero
      obtain rfl := Option.some.inj hx
      exact .inl ⟨by simp [toList], hzero⟩
    · split at hx
      · rename_i hne hlt
        have hrest : ∀ y ∈ z :: (d.toList ++ v), c y < 0 := by
          intro y hy
          obtain rfl | hy := List.mem_cons.mp hy
          · exact hlt
          · exact hafter hlt.le y hy
        have hnearest := ihl (u := u) (v := z :: (d.toList ++ v)) hmono hu hrest (by simp) hx
        rwa [hlist]
      · rename_i hne hlt
        have hpos : 0 < c z := by omega
        have hrest : ∀ y ∈ u ++ l.toList ++ [z], 0 < c y := by
          intro y hy
          obtain hy | hy := List.mem_append.mp hy
          · exact hbefore hpos.le y hy
          · rwa [List.mem_singleton.mp hy]
        have hlist' : u ++ l.toList ++ [z] ++ d.toList ++ v = u ++ l.toList ++ z :: (d.toList ++ v) := by simp
        have hnearest := ihd (u := u ++ l.toList ++ [z]) (v := v) (hlist' ▸ hmono) hrest hv (by simp) hx
        rwa [hlist, ← hlist']

theorem nearest_isNone : t.nearest c p = none ↔ p = none ∧ t = nil := by
  induction t generalizing p with
  | nil => simp [nearest]
  | node h l z d ihl ihd =>
    simp only [nearest]
    split
    · simp
    · split
      · simp [ihl]
      · simp [ihd]

end Avl

/-! ### Adding -/

/-- The pointer below the frames. -/
def linkOf : List (Frame α Nat) → Link α
  | [] => none
  | f :: _ => some (f.x, f.side)

theorem link_linkOf {p : Option α} (habove : Above r.nodes r.node p ctx) : r.link (linkOf ctx) = p := by
  cases ctx with
  | nil => exact habove
  | cons f ctx => exact habove.1

theorem link_eq (hs : r.Stands o (plug ctx t.shape)) : r.link (linkOf ctx) = t.shape.root := by
  obtain ⟨p, habove, hat, -⟩ := stands_plug.mp hs.tree
  rw [link_linkOf habove, hat.eq_root]

theorem avlTreeAddTurn_go {link : Link α} {parent : Option α} (hlink : tree.root.link link = some x)
    (hne : tree.compare data x ≠ 0) : avlTreeAddTurn data tree (link, parent) =
      .go (some (x, if tree.compare data x < 0 then .left else .right), some x) := by
  simp [avlTreeAddTurn, hlink, hne]

/-- The loop stops at a node with the same key. -/
theorem avlTreeAddTurn_conflict (hs : tree.root.Stands o (plug ctx t.shape)) (hx : t.find (tree.compare data) = some x) :
    ∃ link parent, Ends (avlTreeAddTurn data tree) (linkOf ctx, top ctx) (link, parent) ∧
      tree.root.link link = some x := by
  induction t generalizing ctx with
  | nil => cases hx
  | node h l z d ihl ihd =>
    have hlink : tree.root.link (linkOf ctx) = some z := link_eq hs
    rw [find] at hx
    split at hx
    · rename_i hzero
      obtain rfl := Option.some.inj hx
      refine ⟨linkOf ctx, top ctx, .stop ?_, hlink⟩
      simp [avlTreeAddTurn, hlink, hzero]
    · split at hx
      · rename_i hne hlt
        obtain ⟨link, parent, hends, hlink'⟩ := ihl (hs.child (s := .left)) hx
        refine ⟨link, parent, .go ?_ hends, hlink'⟩
        rw [avlTreeAddTurn_go hlink hne, if_pos hlt]
        rfl
      · rename_i hne hlt
        obtain ⟨link, parent, hends, hlink'⟩ := ihd (hs.child (s := .right)) hx
        refine ⟨link, parent, .go ?_ hends, hlink'⟩
        rw [avlTreeAddTurn_go hlink hne, if_neg hlt]
        rfl

/-- The loop stops at the place for a new node, and the turns of the loop over the ancestors go all the way back. -/
theorem avlTreeAddTurn_new (hs : tree.root.Stands o (plug ctx t.shape)) (hnew : t.find (tree.compare data) = none) :
    ∃ inner, t.shape = plug inner .nil ∧
      t.attach (tree.compare data) data = .ok (climb postInsert inner (node 1 .nil data .nil, true)) ∧
      Ends (avlTreeAddTurn data tree) (linkOf ctx, top ctx) (linkOf (inner ++ ctx), top (inner ++ ctx)) := by
  induction t generalizing ctx with
  | nil =>
    have hlink : tree.root.link (linkOf ctx) = none := link_eq hs
    refine ⟨[], rfl, rfl, .stop ?_⟩
    simp [avlTreeAddTurn, hlink]
  | node h l z d ihl ihd =>
    have hlink : tree.root.link (linkOf ctx) = some z := link_eq hs
    rw [find] at hnew
    split at hnew
    · cases hnew
    · split at hnew
      · rename_i hne hlt
        obtain ⟨inner, hplug, hattach, hends⟩ := ihl (hs.child (s := .left)) hnew
        refine ⟨inner ++ [⟨.left, z, h, d.shape⟩], ?_, ?_, ?_⟩
        · rw [plug_append, ← hplug]
          rfl
        · rw [climb_append, climb_left]
          simp [attach, hne, hlt, hattach, Except.map]
        · rw [List.append_assoc]
          refine .go ?_ hends
          rw [avlTreeAddTurn_go hlink hne, if_pos hlt]
          rfl
      · rename_i hne hlt
        obtain ⟨inner, hplug, hattach, hends⟩ := ihd (hs.child (s := .right)) hnew
        refine ⟨inner ++ [⟨.right, z, h, l.shape⟩], ?_, ?_, ?_⟩
        · rw [plug_append, ← hplug]
          rfl
        · rw [climb_append, climb_right]
          simp [attach, hne, hlt, hattach, Except.map]
        · rw [List.append_assoc]
          refine .go ?_ hends
          rw [avlTreeAddTurn_go hlink hne, if_neg hlt]
          rfl

variable [DecidableEq α]

/-- A new node below the frames. -/
theorem setLink_stands (hs : r.Stands o (plug ctx .nil)) (hfresh : y ∉ around ctx) :
    ((r.set y ⟨none, none, top ctx, h⟩).setLink (linkOf ctx) (some y)).Stands o (plug ctx (.node .nil y h .nil)) := by
  have hlink : ∀ z, ((r.set y ⟨none, none, top ctx, h⟩).setLink (linkOf ctx) (some y)).nodes z =
      if z = y then ⟨none, none, top ctx, h⟩ else (relink ctx (some y) r.nodes r.node).1 z := by
    intro z
    cases ctx with
    | nil => exact Function.update_apply ..
    | cons f ctx =>
      have hne : f.x ≠ y := by
        rintro rfl
        exact hfresh (by simp)
      by_cases hz : z = y
      · subst hz
        simp only [linkOf, setLink, setChild, if_pos]
        rw [set_nodes_of_ne hne.symm, set_nodes_self]
      · by_cases hzf : z = f.x
        · subst hzf
          simp only [linkOf, setLink, setChild, relink, set_nodes_of_ne hz, Function.update_self, if_neg hz]
          rw [set_nodes_self]
        · simp only [linkOf, setLink, setChild, relink, Function.update_of_ne hzf, if_neg hz]
          rw [set_nodes_of_ne hzf, set_nodes_of_ne hz]
  have hnode : ((r.set y ⟨none, none, top ctx, h⟩).setLink (linkOf ctx) (some y)).node =
      (relink ctx (some y) r.nodes r.node).2 := by
    cases ctx <;> rfl
  constructor
  · refine hs.tree.attach hfresh (fun z hz => ?_) hnode ?_
    · rw [hlink, if_neg]
      rintro rfl
      exact hfresh hz
    · rw [hlink, if_pos rfl]
  · intro z hz
    simp only [nodes_plug, Shape.nodes_node, Shape.nodes_nil, List.mem_append, List.mem_cons, not_or] at hz
    rw [hlink, if_neg hz.2.1.2.1, relink_of_notMem (by simpa [around] using ⟨hz.1, hz.2.2⟩)]
    exact hs.outside z (by simpa using ⟨hz.1, hz.2.2⟩)

/-- `avl_tree_add` leaves the tree alone where it has the key. -/
theorem avlTreeAdd_conflict (hs : tree.root.Stands o t.shape) (hx : t.find (tree.compare data) = some x) :
    Yields (fun n => avlTreeAdd n data tree) (some x, tree) := by
  obtain ⟨link, parent, hends, hlink⟩ := avlTreeAddTurn_conflict hs.here hx
  refine hends.yields.bind ?_
  simp only [hlink]
  exact Yields.pure

/-- With a new key, it does to the memory what `add` does to the tree. -/
theorem avlTreeAdd_new (hs : tree.root.Stands o t.shape) (hnew : t.find (tree.compare data) = none)
    (hfresh : data ∉ t.toList) :
    ∃ root, root.Stands o (t.add (tree.compare data) data).1.shape ∧
      Yields (fun n => avlTreeAdd n data tree) (none, { tree with root, count := tree.count + 1 }) := by
  obtain ⟨inner, hplug, hattach, hends⟩ := avlTreeAddTurn_new hs.here hnew
  rw [List.append_nil] at hends
  rw [hplug] at hs
  have hdata : data ∉ around inner := by
    rwa [← shape_nodes, hplug, nodes_plug] at hfresh
  have hlink : tree.root.link (linkOf inner) = none := link_eq (t := .nil) hs
  have hs₁ := setHeight_spec (s := .left) (c := 1) (setLink_stands (h := 0) hs hdata)
  obtain ⟨-, -, -, hparent, -⟩ := hs₁.heights
  obtain ⟨q, r', hloop, hr'⟩ := climb_ends (t := node 1 .nil data .nil) postInsert_follows hs₁
  refine ⟨r', ?_, hends.yields.bind ?_⟩
  · rw [add, hattach]
    exact hr'
  · simp only [hlink]
    refine Yields.bind (v := r') ?_ Yields.pure
    simp only [avlNodePostInsert, hparent]
    exact hloop.yields.map

end Wenas.Xlib
