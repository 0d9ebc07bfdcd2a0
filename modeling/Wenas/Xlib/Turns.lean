import Wenas.Xlib.Avlmini
import Wenas.Xlib.Nodes

/-!
# Rotations and the loops over the ancestors

What each function of `avlmini.c` does to the memory is what the functions on trees do: a loop over the ancestors takes
the frames of a context one after the other.
-/
namespace Wenas.Xlib

open Wenas.Trees Wenas.Loop
open Wenas.Trees.Shape (join mem_join nodup_join root_mem)

variable {α : Type} [DecidableEq α]

namespace AvlRoot

variable {r : AvlRoot α} {x y : α} {s : Side} {p q : Option α} {h : Nat} {n : AvlNode α}

/-- The nodes stand in memory as in this tree, and those outside of it are the nodes `o`. -/
structure Stands (r : AvlRoot α) (o : α → AvlNode α) (t : Shape α Nat) : Prop where
  tree : Trees.Stands r.nodes r.node t
  outside : ∀ x ∉ t.nodes, r.nodes x = o x

@[simp] theorem set_node : (r.set x n).node = r.node := rfl

@[simp] theorem set_nodes_self : (r.set x n).nodes x = n := Function.update_self ..

theorem set_nodes_of_ne (hne : y ≠ x) : (r.set x n).nodes y = r.nodes y := Function.update_of_ne hne ..

theorem set_nodes : (r.set x n).nodes y = if y = x then n else r.nodes y := Function.update_apply ..

theorem setParentOf_nodes :
    (r.setParentOf p q).nodes y = if p = some y then { r.nodes y with parent := q } else r.nodes y := by
  cases p with
  | none => simp [setParentOf]
  | some z =>
    by_cases hz : y = z
    · simp [setParentOf, setParent, hz]
    · simp [setParentOf, setParent, set_nodes_of_ne hz, show ¬ z = y from fun h => hz h.symm]

@[simp] theorem setParentOf_node : (r.setParentOf p q).node = r.node := by cases p <;> rfl

end AvlRoot

open AvlRoot

variable {r : AvlRoot α} {o : α → AvlNode α} {x y : α} {s : Side} {p q : Option α} {b c : Nat}
  {ctx : List (Frame α Nat)} {t u v : Shape α Nat}

/-- A node outside of the tree is another one. -/
theorem AvlRoot.Stands.set_outside {n : AvlNode α} (h : r.Stands o t) (hx : x ∉ t.nodes) :
    (r.set x n).Stands (Function.update o x n) t := by
  refine ⟨⟨h.tree.tree.congr fun z hz => ?_, h.tree.nodup⟩, fun z hz => ?_⟩
  · refine set_nodes_of_ne ?_
    rintro rfl
    exact hx hz
  · by_cases hzx : z = x
    · rw [hzx, set_nodes_self, Function.update_self]
    · rw [set_nodes_of_ne hzx, Function.update_of_ne hzx, h.outside z hz]

/-- The pointer at the hole is found by comparing. -/
theorem avlChildReplace_eq (h : Above r.nodes r.node (some x) ctx) (hx : x ∉ around ctx) :
    (avlChildReplace (some x) q (top ctx) r).nodes = (relink ctx q r.nodes r.node).1 ∧
      (avlChildReplace (some x) q (top ctx) r).node = (relink ctx q r.nodes r.node).2 := by
  cases ctx with
  | nil => exact ⟨rfl, rfl⟩
  | cons f ctx =>
    obtain ⟨side, z, b, sibling⟩ := f
    obtain ⟨hchild, hsibling, -⟩ := h
    have hside : (if (r.nodes z).left = some x then Side.left else Side.right) = side := by
      cases side with
      | left => exact if_pos hchild
      | right =>
        refine if_neg fun hleft => hx ?_
        have hroot : sibling.root = some x := hsibling.eq_root.symm.trans hleft
        simp [root_mem hroot]
    simp only [top, avlChildReplace, hside]
    exact ⟨rfl, rfl⟩

theorem avlNodeRotate_spec (h : r.Stands o (plug ctx (join s t x b (join s u y c v)))) :
    ∃ r', avlNodeRotate s x r = some (y, r') ∧ r'.Stands o (plug ctx (join s (join s t x b u) y c v)) := by
  obtain ⟨p, habove, hat, hnodup, hctx, hout⟩ := stands_plug.mp h.tree
  obtain ⟨rfl, hparent, -, -, hat⟩ := at_join.mp hat
  obtain ⟨hright, -, -, hatu, -⟩ := at_join.mp hat
  obtain ⟨-, hnuv, hxt, hxuv, hdisj⟩ := nodup_join.mp hnodup
  obtain ⟨-, -, hyu, hyv, huv⟩ := nodup_join.mp hnuv
  simp only [mem_join, not_or] at hxuv hdisj hout
  have hroot := hatu.eq_root
  -- the memory before the parent learns of its new child
  let r₂ := (((r.setChild x s.other u.root).setParentOf u.root (some x)).setChild y s (some x)).setParent y (top ctx)
  have hr₂ : ∀ z, r₂.nodes z = if z = y then { (r.nodes y).setChild s (some x) with parent := top ctx } else
      if z = x then (r.nodes x).setChild s.other u.root else
      if u.root = some z then { r.nodes z with parent := some x } else r.nodes z := by
    intro z
    have hux : u.root ≠ some x := fun heq => hxuv.2.1 (root_mem heq)
    have huy : u.root ≠ some y := fun heq => hyu (root_mem heq)
    have hyx : y ≠ x := fun heq => hxuv.1 heq.symm
    simp only [r₂, setParent, setChild, set_nodes, setParentOf_nodes]
    split_ifs <;> simp_all
  have hsame : ∀ z ∈ around ctx, r₂.nodes z = r.nodes z := by
    intro z hz
    rw [hr₂, if_neg, if_neg, if_neg]
    · intro heq
      exact hout z (.inr (.inr (.inr (.inl (root_mem heq))))) hz
    · rintro rfl
      exact hout z (.inl rfl) hz
    · rintro rfl
      exact hout z (.inr (.inr (.inl rfl))) hz
  have hnode : r₂.node = r.node := by simp [r₂, setParent, setChild]
  have hlink := avlChildReplace_eq (r := r₂) (q := some y) (hnode ▸ habove.congr hsame) (hout x (.inl rfl))
  have hxy : x ≠ y := hxuv.1
  refine ⟨(avlChildReplace (some x) (some y) (top ctx) r₂).setParent x (some y), ?_, ?_⟩
  · simp [avlNodeRotate, hright, hparent, hroot, r₂, setChild, set_nodes_of_ne hxy.symm]
  · have hfar : ∀ z, z ∉ around ctx → (avlChildReplace (some x) (some y) (top ctx) r₂).nodes z = r₂.nodes z := by
      intro z hz
      rw [hlink.1, relink_of_notMem hz]
    have hnx : ∀ z, z ≠ x → ((avlChildReplace (some x) (some y) (top ctx) r₂).setParent x (some y)).nodes z =
        (avlChildReplace (some x) (some y) (top ctx) r₂).nodes z := fun z hz => set_nodes_of_ne hz
    refine ⟨Trees.Stands.rotate h.tree (fun z hz => ?_) ?_ ?_ ?_ (fun z hz => ?_) (fun z hz => ?_), fun z hz => ?_⟩
    · rw [hnx z (by rintro rfl; exact hout z (.inl rfl) hz), hlink.1, hnode, relink_congr hsame hz]
    · rw [setParent, set_node, hlink.2, hnode, relink_root]
    · rw [setParent, set_nodes_self, hfar x (hout x (.inl rfl)), hr₂, if_neg hxy, if_pos rfl]
    · rw [hnx y hxy.symm, hfar y (hout y (by tauto)), hr₂, if_pos rfl]
    · rw [hnx z (by rintro rfl; tauto), hfar z (hout z (by tauto)), hr₂, if_neg (by rintro rfl; tauto),
        if_neg (by rintro rfl; tauto)]
    · have hzx : z ≠ x := by
        rintro rfl
        simp only [List.mem_append] at hz
        tauto
      have hzy : z ≠ y := by
        rintro rfl
        simp only [List.mem_append] at hz
        grind
      have hzu : u.root ≠ some z := by
        intro heq
        have hzu := root_mem heq
        simp only [List.mem_append] at hz
        grind
      rw [hnx z hzx, hfar z (hout z (by simp only [List.mem_append] at hz; tauto)), hr₂, if_neg hzy, if_neg hzx, if_neg hzu]
    · simp only [nodes_plug, List.mem_append, mem_join, not_or] at hz
      have hzctx : z ∉ around ctx := by simpa [around] using ⟨hz.1, hz.2.2⟩
      have hzu : u.root ≠ some z := fun heq => hz.2.1.2.1.2.2 (root_mem heq)
      rw [hnx z hz.2.1.2.1.1, hfar z hzctx, hr₂, if_neg hz.2.1.1, if_neg hz.2.1.2.1.1, if_neg hzu, h.outside]
      simp only [nodes_plug, List.mem_append, mem_join]
      tauto

/-! ### Heights -/

/-- The height that the root of a tree stores. -/
def heightOf : Shape α Nat → Nat
  | .nil => 0
  | .node _ _ h _ => h

/-- A node with the height of its trees. -/
def updated (s : Side) (t : Shape α Nat) (x : α) (u : Shape α Nat) : Shape α Nat :=
  join s t x (max (heightOf t) (heightOf u) + 1) u

omit [DecidableEq α] in
@[simp] theorem heightOf_join : heightOf (join s t x b u) = b := by cases s <;> rfl

omit [DecidableEq α] in
@[simp] theorem heightOf_updated : heightOf (updated s t x u) = max (heightOf t) (heightOf u) + 1 := heightOf_join

omit [DecidableEq α] in
theorem childHeight_eq (h : At r.nodes p ((r.nodes x).child s) t) : r.childHeight x s = heightOf t := by
  rw [childHeight, h.eq_root]
  cases t with
  | nil => rfl
  | node l y b u => exact h.2.2.1

omit [DecidableEq α] in
theorem AvlRoot.Stands.heights (h : r.Stands o (plug ctx (join s t x b u))) :
    r.childHeight x s = heightOf t ∧ r.childHeight x s.other = heightOf u ∧ (r.nodes x).data = b ∧
      (r.nodes x).parent = top ctx ∧ (r.nodes x).child s = t.root ∧ (r.nodes x).child s.other = u.root := by
  obtain ⟨p, -, hat, -⟩ := stands_plug.mp h.tree
  obtain ⟨-, hparent, hdata, hatt, hatu⟩ := at_join.mp hat
  exact ⟨childHeight_eq hatt, childHeight_eq hatu, hdata, hparent, hatt.eq_root, hatu.eq_root⟩

omit [DecidableEq α] in
theorem AvlRoot.Stands.here {t : Shape α Nat} (h : r.Stands o t) : r.Stands o (plug [] t) := h

omit [DecidableEq α] in
/-- A child stands in the frame of its parent. -/
theorem AvlRoot.Stands.child (h : r.Stands o (plug ctx (join s t x b u))) : r.Stands o (plug (⟨s, x, b, u⟩ :: ctx) t) := h

theorem setHeight_spec (h : r.Stands o (plug ctx (join s t x b u))) :
    (r.setHeight x c).Stands o (plug ctx (join s t x c u)) := by
  refine ⟨h.tree.load set_nodes_self fun _ hz => set_nodes_of_ne hz, fun z hz => ?_⟩
  simp only [nodes_plug, List.mem_append, mem_join, not_or] at hz
  rw [setHeight, set_nodes_of_ne hz.2.1.1, h.outside]
  simp only [nodes_plug, List.mem_append, mem_join]
  tauto

theorem avlNodeHeightUpdate_spec (ctx : List (Frame α Nat)) (h : r.Stands o (plug ctx (join s t x b u))) :
    (avlNodeHeightUpdate x r).Stands o (plug ctx (updated s t x u)) := by
  obtain ⟨ht, hu, -⟩ := h.heights
  have hmax : max (r.childHeight x .left) (r.childHeight x .right) = max (heightOf t) (heightOf u) := by
    cases s with
    | left => rw [ht, show r.childHeight x .right = heightOf u from hu]
    | right => rw [ht, show r.childHeight x .left = heightOf u from hu, max_comm]
  rw [avlNodeHeightUpdate, hmax]
  exact setHeight_spec h

/-- One rotation, where the far tree is as high as the near one. -/
theorem avlNodeFix_single (h : r.Stands o (plug ctx (join s t x b (join s u y c v)))) (hle : heightOf u ≤ heightOf v) :
    ∃ r', avlNodeFix s x r = some (y, r') ∧ r'.Stands o (plug ctx (updated s (updated s t x u) y v)) := by
  obtain ⟨-, -, -, -, -, hright⟩ := h.heights
  rw [Shape.root_join] at hright
  have hy : r.Stands o (plug (⟨s.other, x, b, t⟩ :: ctx) (join s u y c v)) := by
    rwa [plug, Frame.fill, Shape.join_other]
  obtain ⟨hu, hv, -⟩ := hy.heights
  obtain ⟨r', hrotate, hr'⟩ := avlNodeRotate_spec h
  obtain ⟨-, -, -, -, hlower, -⟩ := hr'.heights
  rw [Shape.root_join] at hlower
  have hx : (avlNodeHeightUpdate x r').Stands o (plug (⟨s, y, c, v⟩ :: ctx) (updated s t x u)) :=
    avlNodeHeightUpdate_spec (⟨s, y, c, v⟩ :: ctx) hr'
  refine ⟨avlNodeHeightUpdate y (avlNodeHeightUpdate x r'), ?_, avlNodeHeightUpdate_spec ctx hx⟩
  simp [avlNodeFix, hright, hu, hv, Nat.not_lt.mpr hle, hrotate, hlower]

/-- Two rotations, where the near tree is higher. -/
theorem avlNodeFix_double {z : α} {d : Nat} {w : Shape α Nat}
    (h : r.Stands o (plug ctx (join s t x b (join s (join s u z d v) y c w)))) (hlt : heightOf w < d) :
    ∃ r', avlNodeFix s x r = some (z, r') ∧
      r'.Stands o (plug ctx (updated s (updated s t x u) z (updated s v y w))) := by
  obtain ⟨-, -, -, -, -, hright⟩ := h.heights
  rw [Shape.root_join] at hright
  have hy : r.Stands o (plug (⟨s.other, x, b, t⟩ :: ctx) (join s (join s u z d v) y c w)) := by
    rwa [plug, Frame.fill, Shape.join_other]
  obtain ⟨hnear, hfar, -⟩ := hy.heights
  rw [heightOf_join] at hnear
  have hy' : r.Stands o (plug (⟨s.other, x, b, t⟩ :: ctx) (join s.other w y c (join s.other v z d u))) := by
    rwa [Shape.join_other, Shape.join_other]
  obtain ⟨r₁, hrotate₁, hr₁⟩ := avlNodeRotate_spec hy'
  obtain ⟨-, -, -, -, hlower₁, -⟩ := hr₁.heights
  rw [Shape.root_join] at hlower₁
  have hr₂ : (avlNodeHeightUpdate y r₁).Stands o (plug (⟨s.other, z, d, u⟩ :: ⟨s.other, x, b, t⟩ :: ctx)
      (updated s.other w y v)) := avlNodeHeightUpdate_spec (⟨s.other, z, d, u⟩ :: ⟨s.other, x, b, t⟩ :: ctx) hr₁
  have hr₃ := avlNodeHeightUpdate_spec (x := z) (⟨s.other, x, b, t⟩ :: ctx) hr₂
  have hr₃' : (avlNodeHeightUpdate z (avlNodeHeightUpdate y r₁)).Stands o (plug ctx (join s t x b
      (join s u z (max (heightOf (updated s.other w y v)) (heightOf u) + 1) (updated s.other w y v)))) := by
    rw [updated, Shape.join_other, plug, Frame.fill, Shape.join_other] at hr₃
    exact hr₃
  obtain ⟨r₄, hrotate₄, hr₄⟩ := avlNodeRotate_spec hr₃'
  obtain ⟨-, -, -, -, hlower₄, -⟩ := hr₄.heights
  rw [Shape.root_join] at hlower₄
  have hr₅ : (avlNodeHeightUpdate x r₄).Stands o (plug (⟨s, z, _, updated s.other w y v⟩ :: ctx) (updated s t x u)) :=
    avlNodeHeightUpdate_spec (⟨s, z, _, updated s.other w y v⟩ :: ctx) hr₄
  refine ⟨avlNodeHeightUpdate z (avlNodeHeightUpdate x r₄), ?_, ?_⟩
  · simp [avlNodeFix, hright, hnear, hfar, hlt, hrotate₁, hlower₁, hrotate₄, hlower₄]
  · have hsides : updated s.other w y v = updated s v y w := by
      rw [updated, updated, Shape.join_other, max_comm]
    rw [← hsides]
    exact avlNodeHeightUpdate_spec ctx hr₅

/-! ### One turn -/

def Avl.shape : Avl α → Shape α Nat
  | nil => .nil
  | node h l x r => .node l.shape x h r.shape

def Avl.ofShape : Shape α Nat → Avl α
  | .nil => nil
  | .node l x h r => node h (ofShape l) x (ofShape r)

namespace Avl

variable {h : Nat} {l d : Avl α}

omit [DecidableEq α]

@[simp] theorem ofShape_shape (t : Avl α) : ofShape t.shape = t := by
  induction t with
  | nil => rfl
  | node h l x r ihl ihr => simp [shape, ofShape, ihl, ihr]

@[simp] theorem shape_ofShape (t : Shape α Nat) : (ofShape t).shape = t := by
  induction t with
  | nil => rfl
  | node l x h r ihl ihr => simp [shape, ofShape, ihl, ihr]

@[simp] theorem heightOf_shape (t : Avl α) : heightOf t.shape = t.height := by cases t <;> rfl

@[simp] theorem shape_nodes (t : Avl α) : t.shape.nodes = t.toList := by
  induction t with
  | nil => rfl
  | node h l x r ihl ihr => simp [shape, toList, ihl, ihr]

theorem shape_update (l : Avl α) (x : α) (d : Avl α) : (update l x d).shape = updated .left l.shape x d.shape := by
  simp [update, shape, updated, join]

theorem shape_update' (l : Avl α) (x : α) (d : Avl α) : (update l x d).shape = updated .right d.shape x l.shape := by
  simp [update, shape, updated, join, max_comm]

end Avl

open Avl

/-- The subtree at the hole is this one, and its root has been found. -/
def Reaches (o : α → AvlNode α) (ctx : List (Frame α Nat)) (t : Avl α) (e : Option (α × AvlRoot α)) : Prop :=
  ∃ z r, e = some (z, r) ∧ t.shape.root = some z ∧ r.Stands o (plug ctx t.shape)

variable {l d : Avl α} {h : Nat}

theorem avlNodeFixL_spec (hr : r.Stands o (plug ctx (node h l x d).shape)) (hd : d ≠ nil) :
    Reaches o ctx (fixL l x d) (avlNodeFixL x r) := by
  cases d with
  | nil => exact absurd rfl hd
  | node k a y c =>
    have hsingle : a.height ≤ c.height → Reaches o ctx (update (update l x a) y c) (avlNodeFixL x r) := by
      intro hle
      obtain ⟨r', hfix, hr'⟩ := avlNodeFix_single (s := .left) (t := l.shape) (u := a.shape) (v := c.shape) hr
        (by simpa using hle)
      refine ⟨y, r', hfix, by simp [shape_update, updated], ?_⟩
      rwa [shape_update, shape_update]
    cases a with
    | nil => exact hsingle (Nat.zero_le _)
    | node e a z b =>
      rw [fixL]
      split
      · rename_i hlt
        obtain ⟨r', hfix, hr'⟩ := avlNodeFix_double (s := .left) (t := l.shape) (u := a.shape) (v := b.shape)
          (w := c.shape) hr (by simpa using hlt)
        refine ⟨z, r', hfix, by simp [shape_update, updated], ?_⟩
        rwa [shape_update, shape_update, shape_update]
      · rename_i hlt
        exact hsingle (Nat.not_lt.mp hlt)

theorem avlNodeFixR_spec (hr : r.Stands o (plug ctx (node h l x d).shape)) (hl : l ≠ nil) :
    Reaches o ctx (fixR x d l) (avlNodeFixR x r) := by
  cases l with
  | nil => exact absurd rfl hl
  | node k c y a =>
    have hsingle : a.height ≤ c.height → Reaches o ctx (update c y (update a x d)) (avlNodeFixR x r) := by
      intro hle
      obtain ⟨r', hfix, hr'⟩ := avlNodeFix_single (s := .right) (t := d.shape) (u := a.shape) (v := c.shape) hr
        (by simpa using hle)
      refine ⟨y, r', hfix, by simp [shape_update', updated], ?_⟩
      rwa [shape_update', shape_update']
    cases a with
    | nil => exact hsingle (Nat.zero_le _)
    | node e b z a =>
      rw [fixR]
      split
      · rename_i hlt
        obtain ⟨r', hfix, hr'⟩ := avlNodeFix_double (s := .right) (t := d.shape) (u := a.shape) (v := b.shape)
          (w := c.shape) hr (by simpa using hlt)
        refine ⟨z, r', hfix, by simp [shape_update', updated], ?_⟩
        rwa [shape_update', shape_update', shape_update']
      · rename_i hlt
        exact hsingle (Nat.not_lt.mp hlt)

omit [DecidableEq α] in
theorem Reaches.parent {t : Avl α} {e : Option (α × AvlRoot α)} (h : Reaches o ctx t e) :
    ∃ z r', e = some (z, r') ∧ (r'.nodes z).parent = top ctx ∧ r'.Stands o (plug ctx t.shape) := by
  obtain ⟨z, r', ho, hroot, hr'⟩ := h
  refine ⟨z, r', ho, ?_, hr'⟩
  cases t with
  | nil => cases hroot
  | node k a y b =>
    cases hroot
    obtain ⟨-, -, -, hparent, -⟩ := hr'.heights (s := .left)
    exact hparent

theorem avlNodeFixed_spec {diff : Int} (hr : r.Stands o (plug ctx (node h l x d).shape))
    (hdiff : diff = l.height - d.height) :
    ∃ r', avlNodeFixed diff x r = .go (top ctx, r') ∧ r'.Stands o (plug ctx (fix h l x d).shape) := by
  have hreach : Reaches o ctx (fix h l x d)
      (if diff ≤ -2 then avlNodeFixL x r else if 2 ≤ diff then avlNodeFixR x r else some (x, r)) := by
    rw [fix]
    by_cases hleft : l.height + 2 ≤ d.height
    · rw [if_pos hleft, if_pos (by omega)]
      exact avlNodeFixL_spec hr (by rintro rfl; simp [height] at hleft)
    · rw [if_neg hleft, if_neg (show ¬ diff ≤ -2 by omega)]
      by_cases hright : d.height + 2 ≤ l.height
      · rw [if_pos hright, if_pos (by omega)]
        exact avlNodeFixR_spec hr (by rintro rfl; simp [height] at hright)
      · rw [if_neg hright, if_neg (by omega)]
        exact ⟨x, r, rfl, rfl, hr⟩
  obtain ⟨z, r', hfix, hparent, hr'⟩ := hreach.parent
  exact ⟨r', by rw [avlNodeFixed, hfix, ← hparent], hr'⟩

/-- A turn of a loop does to the memory what the function does to the tree, and stops where it goes on no more. -/
def Follows (step : Option α × AvlRoot α → Turn (Option α × AvlRoot α))
    (turn : Nat → Avl α → α → Avl α → Avl α × Bool) : Prop :=
  (∀ r, step (none, r) = .stop) ∧ ∀ r o ctx h l x d, r.Stands o (plug ctx (node h l x d).shape) →
    (turn h l x d = (node h l x d, false) ∧ step (some x, r) = .stop) ∨
      ∃ r' t, turn h l x d = (t, true) ∧ step (some x, r) = .go (top ctx, r') ∧ r'.Stands o (plug ctx t.shape)

theorem postInsert_follows : Follows (avlNodePostInsertTurn : Option α × AvlRoot α → _) postInsert := by
  refine ⟨fun r => rfl, fun r o ctx h l x d hr => ?_⟩
  obtain ⟨hl, hd, hh, -⟩ := hr.heights (s := .left)
  rw [heightOf_shape] at hl hd
  simp only [avlNodePostInsertTurn, postInsert, hl, show r.childHeight x .right = d.height from hd, hh]
  split_ifs with heq
  · exact .inl ⟨rfl, rfl⟩
  · obtain ⟨r', hgo, hr'⟩ := avlNodeFixed_spec (setHeight_spec (s := .left) (c := max l.height d.height + 1) hr) rfl
    exact .inr ⟨r', _, rfl, hgo, hr'⟩

theorem rebalance_follows : Follows (avlNodeRebalanceTurn : Option α × AvlRoot α → _) (rebalance true) := by
  refine ⟨fun r => rfl, fun r o ctx h l x d hr => ?_⟩
  obtain ⟨hl, hd, hh, -⟩ := hr.heights (s := .left)
  rw [heightOf_shape] at hl hd
  simp only [avlNodeRebalanceTurn, rebalance, hl, show r.childHeight x .right = d.height from hd, hh]
  by_cases heq : h = max l.height d.height + 1
  · by_cases hdiff : (-1 : Int) ≤ l.height - d.height ∧ (l.height - d.height : Int) ≤ 1
    · have hle : l.height ≤ d.height + 1 ∧ d.height ≤ l.height + 1 := by omega
      refine .inl ⟨?_, ?_⟩
      · simp [← heq, hle]
      · simp [← heq, hdiff]
    · have hle : ¬ (l.height ≤ d.height + 1 ∧ d.height ≤ l.height + 1) := by omega
      obtain ⟨r', hgo, hr'⟩ := avlNodeFixed_spec hr rfl
      refine .inr ⟨r', fix h l x d, ?_, ?_, hr'⟩
      · simp [← heq, hle]
      · rw [if_neg (not_not.mpr heq), if_neg hdiff, hgo]
  · obtain ⟨r', hgo, hr'⟩ := avlNodeFixed_spec (setHeight_spec (s := .left) (c := max l.height d.height + 1) hr) rfl
    refine .inr ⟨r', fix (max l.height d.height + 1) l x d, ?_, ?_, hr'⟩
    · simp [heq]
    · simp [heq, hgo]

/-! ### All turns -/

/-- A turn at a frame, with the tree that has come up to it. -/
def turnAt (turn : Nat → Avl α → α → Avl α → Avl α × Bool) (f : Frame α Nat) (t : Avl α) : Avl α × Bool :=
  match f.side with
  | .left => turn f.b t f.x (ofShape f.sibling)
  | .right => turn f.b (ofShape f.sibling) f.x t

/-- The turns of a loop, up to the first that stops it. -/
def climb (turn : Nat → Avl α → α → Avl α → Avl α × Bool) : List (Frame α Nat) → Avl α × Bool → Avl α × Bool
  | [], s => s
  | f :: ctx, (t, going) => climb turn ctx (if going then turnAt turn f t else (ofShape (f.fill t.shape), false))

section

variable {turn : Nat → Avl α → α → Avl α → Avl α × Bool} {step : Option α × AvlRoot α → Turn (Option α × AvlRoot α)}
  {t : Avl α} {ctx' : List (Frame α Nat)} {e : Avl α × Bool}

omit [DecidableEq α] in
/-- One frame. -/
theorem climb_left :
    climb turn [⟨.left, x, h, d.shape⟩] e = if e.2 then turn h e.1 x d else (node h e.1 x d, false) := by
  obtain ⟨t, going⟩ := e
  cases going <;> simp [climb, turnAt, Frame.fill, join, ofShape]

omit [DecidableEq α] in
theorem climb_right :
    climb turn [⟨.right, x, h, l.shape⟩] e = if e.2 then turn h l x e.1 else (node h l x e.1, false) := by
  obtain ⟨t, going⟩ := e
  cases going <;> simp [climb, turnAt, Frame.fill, join, ofShape]

omit [DecidableEq α] in
theorem climb_append : climb turn (ctx ++ ctx') e = climb turn ctx' (climb turn ctx e) := by
  induction ctx generalizing e with
  | nil => rfl
  | cons f ctx ih => exact ih

omit [DecidableEq α] in
theorem climb_false : climb turn ctx (t, false) = (ofShape (plug ctx t.shape), false) := by
  induction ctx generalizing t with
  | nil => simp [climb, plug]
  | cons f ctx ih => simp [climb, plug, ih]

omit [DecidableEq α] in
theorem climb_ends (hstep : Follows step turn) (hr : r.Stands o (plug ctx t.shape)) :
    ∃ q r', Ends step (top ctx, r) (q, r') ∧ r'.Stands o (climb turn ctx (t, true)).1.shape := by
  induction ctx generalizing r t with
  | nil => exact ⟨none, r, .stop (hstep.1 r), hr⟩
  | cons f ctx ih =>
    obtain ⟨side, x, h, sibling⟩ := f
    obtain ⟨l, d, hturn, hfill⟩ : ∃ l d, turnAt turn ⟨side, x, h, sibling⟩ t = turn h l x d ∧
        Frame.fill ⟨side, x, h, sibling⟩ t.shape = (node h l x d).shape := by
      cases side with
      | left => exact ⟨t, ofShape sibling, rfl, by simp [Frame.fill, join, shape]⟩
      | right => exact ⟨ofShape sibling, t, rfl, by simp [Frame.fill, join, shape]⟩
    rw [plug, hfill] at hr
    obtain ⟨hstop, hend⟩ | ⟨r', t', hgo, hnext, hr'⟩ := hstep.2 r o ctx h l x d hr
    · refine ⟨some x, r, .stop hend, ?_⟩
      rw [climb, if_pos rfl, hturn, hstop, climb_false, shape_ofShape]
      exact hr
    · obtain ⟨q, r'', hends, hr''⟩ := ih hr'
      refine ⟨q, r'', .go hnext hends, ?_⟩
      rwa [climb, if_pos rfl, hturn, hgo]

end

end Wenas.Xlib
