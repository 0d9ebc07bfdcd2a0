import Wenas.Xlib.Turns

/-!
# `avl_node_erase` and `avl_node_replace` on the memory

A node with two children first loses its successor, which then takes its place: the tree without the node is there
before the loop over the ancestors begins.
-/
namespace Wenas.Xlib

open Wenas.Trees Wenas.Loop AvlRoot Avl
open Wenas.Trees.Shape (join mem_join nodup_join root_mem)

variable {α : Type}

/-! ### Down to one side -/

section

variable [DecidableEq α] {r : AvlRoot α} {o : α → AvlNode α} {x : α} {s : Side} {ctx : List (Frame α Nat)} {t : Shape α Nat}

omit [DecidableEq α] in
/-- The way to the last node of a side. -/
theorem sink_ends (h : r.Stands o (plug ctx t)) (hx : t.root = some x) : ∃ inner y b u,
    t = plug inner (join s .nil y b u) ∧ (∀ f ∈ inner, f.side = s) ∧ Ends (avlNodeSinkTurn s r) x y := by
  induction t generalizing ctx x with
  | nil => cases hx
  | node l z b d ihl ihd =>
    cases hx
    have hstep : ∀ u v, Shape.node l z b d = join s u z b v →
        (∀ y, u.root = some y → ∃ inner w c v', u = plug inner (join s .nil w c v') ∧ (∀ f ∈ inner, f.side = s) ∧
          Ends (avlNodeSinkTurn s r) y w) → ∃ inner y c w, Shape.node l z b d = plug inner (join s .nil y c w) ∧
          (∀ f ∈ inner, f.side = s) ∧ Ends (avlNodeSinkTurn s r) z y := by
      intro u v huv ih
      rw [huv] at h ⊢
      obtain ⟨-, -, -, -, hchild, -⟩ := h.heights
      cases hu : u.root with
      | none =>
        have hnil : u = .nil := by
          cases u with
          | nil => rfl
          | node => cases hu
        refine ⟨[], z, b, v, by rw [hnil]; rfl, by simp, .stop ?_⟩
        rw [avlNodeSinkTurn, hchild, hu]
      | some y =>
        obtain ⟨inner, w, c, v', hplug, hsides, hends⟩ := ih y hu
        refine ⟨inner ++ [⟨s, z, b, v⟩], w, c, v', ?_, ?_, .go ?_ hends⟩
        · rw [plug_append, ← hplug]
          rfl
        · simpa [or_imp, forall_and] using hsides
        · rw [avlNodeSinkTurn, hchild, hu]
    cases s with
    | left => exact hstep l d rfl fun y hy => ihl (h.child (s := .left)) hy
    | right => exact hstep d l rfl fun y hy => ihd (h.child (s := .right)) hy

end

/-! ### The way of `erase` -/

namespace Avl

variable {x y : α} {l d t : Avl α} {h b : Nat} {ctx inner : List (Frame α Nat)}

theorem rebalance_going {going : Bool} :
    rebalance going h l x d = if going then rebalance true h l x d else (node h l x d, false) := by
  cases going <;> simp [rebalance]

theorem takeFirst_plug (hsides : ∀ f ∈ inner, f.side = .left) :
    (ofShape (plug inner (node b nil y d).shape)).takeFirst = some (y, climb (rebalance true) inner (d, true)) := by
  induction inner using List.reverseRecOn with
  | nil => simp [plug, takeFirst, climb]
  | append_singleton inner f ih =>
    obtain ⟨side, x, h, sibling⟩ := f
    obtain rfl : side = .left := hsides ⟨side, x, h, sibling⟩ (by simp)
    have ih := ih fun f hf => hsides f (by simp [hf])
    rw [plug_append, plug, plug, Frame.fill, join, ofShape, takeFirst, ih, climb_append]
    rw [← shape_ofShape sibling, climb_left, ← rebalance_going, ofShape_shape]

variable [DecidableEq α]

theorem erase_climb (hx : x ∈ t.toList) : ∃ ctx h l d, t.shape = plug ctx (node h l x d).shape ∧
    t.erase x = climb (rebalance true) ctx (eraseRoot h l d) := by
  induction t with
  | nil => cases hx
  | node k l y d ihl ihd =>
    rw [erase]
    split
    · rename_i hl
      obtain ⟨ctx, h, l', d', hplug, herase⟩ := ihl hl
      refine ⟨ctx ++ [⟨.left, y, k, d.shape⟩], h, l', d', ?_, ?_⟩
      · rw [plug_append, ← hplug]
        rfl
      · rw [climb_append, ← herase, climb_left, ← rebalance_going]
    · rename_i hl
      split
      · rename_i hy
        exact ⟨[], k, l, d, by rw [hy]; rfl, rfl⟩
      · rename_i hy
        have hd : x ∈ d.toList := by
          simp only [toList, List.mem_append, List.mem_cons] at hx
          grind
        obtain ⟨ctx, h, l', d', hplug, herase⟩ := ihd hd
        refine ⟨ctx ++ [⟨.right, y, k, l.shape⟩], h, l', d', ?_, ?_⟩
        · rw [plug_append, ← hplug]
          rfl
        · rw [climb_append, ← herase, climb_right, ← rebalance_going]

end Avl

/-! ### Taking out -/

variable [DecidableEq α] {r r' : AvlRoot α} {o o' : α → AvlNode α} {x y : α} {s : Side} {p q : Option α} {h b : Nat}
  {ctx : List (Frame α Nat)} {t u : Shape α Nat}

omit [DecidableEq α] in
theorem AvlRoot.Stands.congr_outside (h : r.Stands o t) (ho : ∀ z ∉ t.nodes, o z = o' z) : r.Stands o' t :=
  ⟨h.tree, fun z hz => (h.outside z hz).trans (ho z hz)⟩

/-- A child that is no ancestor does not matter to the pointer at the hole. -/
theorem avlChildReplace_setParentOf (hp : ∀ z, p = some z → z ∉ around ctx) :
    avlChildReplace (some x) q (top ctx) (r.setParentOf p (top ctx)) =
      (avlChildReplace (some x) q (top ctx) r).setParentOf p (top ctx) := by
  cases p with
  | none => rfl
  | some z =>
    cases ctx with
    | nil => rfl
    | cons f ctx =>
      have hne : f.x ≠ z := by
        rintro rfl
        exact hp f.x rfl (by simp)
      simp only [setParentOf, setParent, avlChildReplace, top, setChild, AvlRoot.set, Function.update_of_ne hne,
        Function.update_of_ne hne.symm]
      rw [Function.update_comm hne]

/-- A node with one child is taken out. -/
theorem avlChildReplace_cut (hr : r.Stands o (plug ctx (join s .nil x b u)))
    (hr' : r' = (avlChildReplace (some x) u.root (top ctx) r).setParentOf u.root (top ctx)) :
    r'.Stands (Function.update o x (r'.nodes x)) (plug ctx u) ∧ r'.nodes x = r.nodes x := by
  obtain ⟨p, habove, hat, hnodup, hctx, hout⟩ := stands_plug.mp hr.tree
  obtain ⟨rfl, -⟩ := at_join.mp hat
  obtain ⟨-, -, -, hxu, -⟩ := nodup_join.mp hnodup
  obtain ⟨hnodes, hnode⟩ := avlChildReplace_eq (q := u.root) habove (hout x (by simp))
  have hcells : ∀ z, r'.nodes z = if u.root = some z then { (relink ctx u.root r.nodes r.node).1 z with parent := top ctx }
      else (relink ctx u.root r.nodes r.node).1 z := by
    intro z
    rw [hr', setParentOf_nodes, hnodes]
  have hroot : ∀ z, z ∉ u.nodes → u.root ≠ some z := fun z hz heq => hz (root_mem heq)
  refine ⟨⟨?_, ?_⟩, by rw [hcells, if_neg (hroot x hxu), relink_of_notMem (hout x (by simp))]⟩
  · refine Trees.Stands.cut hr.tree (fun z hz => ?_) ?_ fun z hz => ?_
    · rw [hcells, if_neg (hroot z fun hzu => hout z (by simp [hzu]) hz)]
    · rw [hr', setParentOf_node, hnode]
    · rw [hcells, relink_of_notMem (hout z (by simp [hz]))]
  · intro z hz
    by_cases hzx : z = x
    · rw [hzx, Function.update_self]
    · simp only [nodes_plug, List.mem_append, not_or] at hz
      rw [Function.update_of_ne hzx, hcells, if_neg (hroot z hz.2.1),
        relink_of_notMem (by simpa [around] using ⟨hz.1, hz.2.2⟩)]
      refine hr.outside z ?_
      simp only [nodes_plug, List.mem_append, mem_join, not_or, Shape.nodes_nil]
      simp [hzx, hz]

/-- A node from outside takes the place of one of the tree; the other nodes learn of it. -/
theorem AvlRoot.Stands.rename (hr : r.Stands o (plug ctx (.node t x b u)))
    (hy : y ∉ (plug ctx (.node t x b u)).nodes)
    (hcells : ∀ z, r'.nodes z = if z = y then r.nodes x else
      if t.root = some z ∨ u.root = some z then { r.nodes z with parent := some y } else
      (relink ctx (some y) r.nodes r.node).1 z)
    (hnode : r'.node = (relink ctx (some y) r.nodes r.node).2) :
    r'.Stands (Function.update o x (r'.nodes x)) (plug ctx (.node t y b u)) := by
  obtain ⟨p, habove, hat, hnodup, hctx, hout⟩ := stands_plug.mp hr.tree
  obtain ⟨hnt, hnu, hxt, hxu, htu⟩ := nodup_join (s := .left).mp hnodup
  simp only [nodes_plug, Shape.nodes_node, List.mem_append, List.mem_cons, not_or] at hy hout
  have hroot : ∀ {v : Shape α Nat} {z}, z ∉ v.nodes → v.root ≠ some z := fun hz heq => hz (root_mem heq)
  constructor
  · refine Trees.Stands.rename hr.tree (by simpa [and_assoc] using hy) (fun z hz => ?_) hnode ?_ (fun z hz => ?_) fun z hz => ?_
    · have hzy : z ≠ y := by
        rintro rfl
        simp only [around, List.mem_append] at hz
        tauto
      have hzt : t.root ≠ some z := hroot fun hzt => hout z (.inl hzt) hz
      have hzu : u.root ≠ some z := hroot fun hzu => hout z (.inr (.inr hzu)) hz
      rw [hcells, if_neg hzy, if_neg (by simp [hzt, hzu])]
    · rw [hcells, if_pos rfl]
    · have hzy : z ≠ y := by
        rintro rfl
        tauto
      have hzu : u.root ≠ some z := hroot (htu z hz)
      rw [hcells, if_neg hzy]
      simp only [hzu, or_false, relink_of_notMem (hout z (.inl hz))]
    · have hzy : z ≠ y := by
        rintro rfl
        tauto
      have hzt : t.root ≠ some z := hroot fun hzt => htu z hzt hz
      rw [hcells, if_neg hzy]
      simp only [hzt, false_or, relink_of_notMem (hout z (.inr (.inr hz)))]
  · intro z hz
    by_cases hzx : z = x
    · rw [hzx, Function.update_self]
    · simp only [nodes_plug, Shape.nodes_node, List.mem_append, List.mem_cons, not_or] at hz
      have hzt : t.root ≠ some z := hroot hz.2.1.1
      have hzu : u.root ≠ some z := hroot hz.2.1.2.2
      rw [Function.update_of_ne hzx, hcells, if_neg hz.2.1.2.1, if_neg (by simp [hzt, hzu]),
        relink_of_notMem (by simpa [around] using ⟨hz.1, hz.2.2⟩)]
      refine hr.outside z ?_
      simp only [nodes_plug, Shape.nodes_node, List.mem_append, List.mem_cons, not_or]
      tauto

/-- What the nodes around `x` learn when `y` takes its place. -/
theorem avlChildReplace_replaced {r₀ : AvlRoot α} (hr : r.Stands o (plug ctx (.node t x b u)))
    (hy : y ∉ (plug ctx (.node t x b u)).nodes) (hcells : ∀ z ≠ y, r₀.nodes z = r.nodes z) (hnode : r₀.node = r.node)
    (hr' : r' = ((avlChildReplace (some x) (some y) (top ctx) r₀).setParentOf t.root (some y)).setParentOf u.root
      (some y)) :
    r'.nodes y = r₀.nodes y ∧ (∀ z ≠ y, r'.nodes z =
      if t.root = some z ∨ u.root = some z then { r.nodes z with parent := some y } else
        (relink ctx (some y) r.nodes r.node).1 z) ∧ r'.node = (relink ctx (some y) r.nodes r.node).2 := by
  obtain ⟨p, habove, hat, hnodup, hctx, hout⟩ := stands_plug.mp hr.tree
  obtain ⟨rfl, -⟩ := hat
  obtain ⟨-, -, -, -, htu⟩ := nodup_join (s := .left).mp hnodup
  simp only [nodes_plug, Shape.nodes_node, List.mem_append, List.mem_cons, not_or] at hy hout
  have hyctx : y ∉ around ctx := by simpa [around] using ⟨hy.1, hy.2.2⟩
  have hroot : ∀ {v : Shape α Nat} {z}, v.root = some z → z ∈ v.nodes := fun heq => root_mem heq
  have hsame : ∀ z ∈ around ctx, r₀.nodes z = r.nodes z := by
    intro z hz
    refine hcells z ?_
    rintro rfl
    exact hyctx hz
  obtain ⟨hlink, hlinkroot⟩ := avlChildReplace_eq (r := r₀) (q := some y) (hnode ▸ habove.congr hsame) (hout x (by simp))
  have hrelink : ∀ z ≠ y, (relink ctx (some y) r₀.nodes r₀.node).1 z = (relink ctx (some y) r.nodes r.node).1 z := by
    intro z hzy
    by_cases hz : z ∈ around ctx
    · rw [hnode, relink_congr hsame hz]
    · rw [relink_of_notMem hz, relink_of_notMem hz, hcells z hzy]
  have hty : t.root ≠ some y := fun heq => hy.2.1.1 (hroot heq)
  have huy : u.root ≠ some y := fun heq => hy.2.1.2.2 (hroot heq)
  refine ⟨?_, fun z hzy => ?_, ?_⟩
  · rw [hr', setParentOf_nodes, if_neg huy, setParentOf_nodes, if_neg hty, hlink, relink_of_notMem hyctx]
  · rw [hr', setParentOf_nodes, setParentOf_nodes, hlink, hrelink z hzy]
    by_cases ht : t.root = some z
    · have hu : u.root ≠ some z := fun heq => htu z (hroot ht) (hroot heq)
      rw [if_neg hu, if_pos ht, if_pos (.inl ht), relink_of_notMem (hout z (.inl (hroot ht)))]
    · by_cases hu : u.root = some z
      · rw [if_pos hu, if_neg ht, if_pos (.inr hu), relink_of_notMem (hout z (.inr (.inr (hroot hu))))]
      · rw [if_neg hu, if_neg ht, if_neg (by simp [ht, hu])]
  · rw [hr', setParentOf_node, setParentOf_node, hlinkroot, hnode, relink_root]

/-- The victim keeps its pointers meanwhile. -/
theorem avlChildReplace_victim {r₀ : AvlRoot α} (hr : r.Stands o (plug ctx (.node t x b u)))
    (hy : y ∉ (plug ctx (.node t x b u)).nodes) (hcells : ∀ z ≠ y, r₀.nodes z = r.nodes z) (hnode : r₀.node = r.node) :
    (avlChildReplace (some x) (some y) (top ctx) r₀).nodes x = r.nodes x ∧
      ((avlChildReplace (some x) (some y) (top ctx) r₀).setParentOf t.root (some y)).nodes x = r.nodes x := by
  obtain ⟨p, habove, hat, hnodup, -, hout⟩ := stands_plug.mp hr.tree
  obtain ⟨rfl, -⟩ := hat
  obtain ⟨-, -, hxt, -⟩ := nodup_join (s := .left).mp hnodup
  simp only [nodes_plug, Shape.nodes_node, List.mem_append, List.mem_cons, not_or] at hy
  have hsame : ∀ z ∈ around ctx, r₀.nodes z = r.nodes z := by
    intro z hz
    refine hcells z ?_
    rintro rfl
    simp only [around, List.mem_append] at hz
    tauto
  have hxctx := hout x (by simp)
  obtain ⟨hlink, -⟩ := avlChildReplace_eq (r := r₀) (q := some y) (hnode ▸ habove.congr hsame) hxctx
  have hxy : x ≠ y := fun heq => hy.2.1.2.1 heq.symm
  have hx : (avlChildReplace (some x) (some y) (top ctx) r₀).nodes x = r.nodes x := by
    rw [hlink, relink_of_notMem hxctx, hcells x hxy]
  exact ⟨hx, by rw [setParentOf_nodes, if_neg fun heq => hxt (root_mem heq), hx]⟩

theorem avlNodeReplace_spec (hr : r.Stands o (plug ctx (.node t x b u))) (hy : y ∉ (plug ctx (.node t x b u)).nodes) :
    (avlNodeReplace x y r).Stands (Function.update o x ((avlNodeReplace x y r).nodes x)) (plug ctx (.node t y b u)) := by
  obtain ⟨-, -, -, hparent, hleft, hright⟩ := hr.heights (s := .left)
  have hleft : (r.nodes x).left = t.root := hleft
  have hright : (r.nodes x).right = u.root := hright
  obtain ⟨hx, hx'⟩ := avlChildReplace_victim hr hy (fun _ _ => rfl) rfl
  obtain ⟨-, hcells, hnode⟩ := avlChildReplace_replaced hr hy (fun _ _ => rfl) rfl rfl
  have hxu : u.root ≠ some x := by
    obtain ⟨-, -, -, hnodup, -⟩ := stands_plug.mp hr.tree
    exact fun heq => (nodup_join (s := .left).mp hnodup).2.2.2.1 (root_mem heq)
  refine hr.rename hy (fun z => ?_) ?_
  · simp only [avlNodeReplace, hparent, hx, hleft, hx', hright]
    by_cases hz : z = y
    · rw [hz, set_nodes_self, setParentOf_nodes, if_neg hxu, hx', if_pos rfl]
    · rw [set_nodes_of_ne hz, hcells z hz, if_neg hz]
  · simp only [avlNodeReplace, hparent, hx, hleft, hx', hright]
    exact hnode

theorem avlNodeSucceed_spec {inner : List (Frame α Nat)} {l : Shape α Nat} (hl : l ≠ .nil)
    (hr : r.Stands o (plug (inner ++ ⟨.right, x, h, l⟩ :: ctx) (join .left .nil y b u))) :
    ∃ r', avlNodeSucceed x y r = some (top (inner ++ ⟨.right, y, h, l⟩ :: ctx), r') ∧
      r'.Stands (Function.update o x (r'.nodes x)) (plug (inner ++ ⟨.right, y, h, l⟩ :: ctx) u) := by
  obtain ⟨-, -, -, hyparent, -, hyright⟩ := hr.heights
  have hyright : (r.nodes y).right = u.root := hyright
  obtain ⟨-, -, -, hynodup, hctxnodup, hyout⟩ := stands_plug.mp hr.tree
  -- the tree without the successor
  obtain ⟨hr₁, hy₁⟩ := avlChildReplace_cut hr rfl
  rw [← avlChildReplace_setParentOf fun z hz => hyout z (by simp [root_mem hz])] at hr₁ hy₁
  generalize hr₁eq : avlChildReplace (some y) u.root (top (inner ++ ⟨.right, x, h, l⟩ :: ctx))
    (r.setParentOf u.root (top (inner ++ ⟨.right, x, h, l⟩ :: ctx))) = r₁ at hr₁ hy₁
  have hplug : ∀ z, plug (inner ++ ⟨.right, z, h, l⟩ :: ctx) u = plug ctx (.node l z h (plug inner u)) := by
    intro z
    rw [plug_append]
    rfl
  have hy : y ∉ (plug ctx (.node l x h (plug inner u))).nodes := by
    have hout := hyout y (by simp)
    have hyu := (nodup_join.mp hynodup).2.2.2.1
    rw [← hplug, nodes_plug]
    simp only [around, List.mem_append] at hout ⊢
    tauto
  rw [hplug] at hr₁
  obtain ⟨-, -, -, hparent, hleft, hright⟩ := hr₁.heights (s := .left)
  have hleft : (r₁.nodes x).left = l.root := hleft
  have hright : (r₁.nodes x).right = (plug inner u).root := hright
  obtain ⟨v, hv⟩ : ∃ v, l.root = some v := by
    cases l with
    | nil => exact absurd rfl hl
    | node a v c d => exact ⟨v, rfl⟩
  have hxy : x ≠ y := by
    rintro rfl
    simp at hy
  -- the successor in the place of the node
  have hset : ∀ z ≠ y, (r₁.set y (r₁.nodes x)).nodes z = r₁.nodes z := fun z hz => set_nodes_of_ne hz
  obtain ⟨hx₂, hx₃⟩ := avlChildReplace_victim hr₁ hy hset rfl
  obtain ⟨hy₂, hcells, hnode⟩ := avlChildReplace_replaced hr₁ hy hset rfl rfl
  have hr₂ := hr₁.rename hy (fun z => ?_) hnode
  · refine ⟨_, ?_, (hplug y ▸ hr₂).congr_outside fun z hz => ?_⟩
    · have htop : (if top (inner ++ ⟨.right, x, h, l⟩ :: ctx) = some x then some y
          else top (inner ++ ⟨.right, x, h, l⟩ :: ctx)) = top (inner ++ ⟨.right, y, h, l⟩ :: ctx) := by
        cases inner with
        | nil => exact if_pos rfl
        | cons f inner =>
          refine if_neg fun heq => ?_
          obtain ⟨-, -, -, hf, -⟩ := nodup_around_cons.mp hctxnodup
          obtain rfl := Option.some.inj heq
          refine hf ?_
          have hmem : ∀ i : List (Frame α Nat), f.x ∈ around (i ++ ⟨.right, f.x, h, l⟩ :: ctx) := by
            intro i
            induction i with
            | nil => simp
            | cons g i ih => simp [ih]
          exact hmem inner
      simp only [avlNodeSucceed, hyright, hyparent, hr₁eq, hy₁, htop, hset x hxy, hparent, hx₂, hleft, hv,
        Option.bind_eq_bind, Option.bind_some]
      rw [hv, setParentOf] at hx₃
      simp only [hx₃, hright, Option.pure_def]
      rfl
    · by_cases hzx : z = x
      · rw [hzx, Function.update_self, Function.update_self]
      · rw [Function.update_of_ne hzx, Function.update_of_ne hzx, Function.update_of_ne]
        rintro rfl
        exact hz (by simp [hplug])
  · by_cases hz : z = y
    · rw [hz, hy₂, set_nodes_self, if_pos rfl]
    · rw [hcells z hz, if_neg hz]

/-- The part of `avl_node_erase` before the loop leaves the tree that the turns of the loop mend. -/
theorem avlNodeTakeOut_spec {l d : Avl α} (hr : r.Stands o (plug ctx (node h l x d).shape)) :
    ∃ inner e r', Yields (fun n => avlNodeTakeOut n x r) (top (inner ++ ctx), r') ∧
      eraseRoot h l d = climb (rebalance true) inner (e, true) ∧
      r'.Stands (Function.update o x (r'.nodes x)) (plug (inner ++ ctx) e.shape) := by
  obtain ⟨-, -, -, hparent, hleft, hright⟩ := hr.heights (s := .left)
  have hleft : (r.nodes x).left = l.shape.root := hleft
  have hright : (r.nodes x).right = d.shape.root := hright
  cases l with
  | nil =>
    refine ⟨[], d, _, ⟨0, fun n _ => ?_⟩, by simp [eraseRoot, climb], (avlChildReplace_cut (s := .left) hr rfl).1⟩
    simp [avlNodeTakeOut, hleft, hright, hparent, shape, Shape.root]
  | node k a z c =>
    cases d with
    | nil =>
      refine ⟨[], node k a z c, _, ⟨0, fun n _ => ?_⟩, by simp [eraseRoot, takeFirst, climb],
        (avlChildReplace_cut (s := .right) hr rfl).1⟩
      simp [avlNodeTakeOut, hleft, hright, hparent, shape, Shape.root]
    | node m b' w e =>
      obtain ⟨inner, y, b, u, hplug, hsides, i, hi⟩ :=
        sink_ends (s := .left) (x := w) (hr.child (s := .right)) rfl
      have hr₀ : r.Stands o (plug (inner ++ ⟨.right, x, h, (node k a z c).shape⟩ :: ctx) (join .left .nil y b u)) := by
        rw [plug_append, ← hplug]
        exact hr
      obtain ⟨r', htake, hr'⟩ := avlNodeSucceed_spec (by simp [shape]) hr₀
      have hfirst : (node m b' w e).takeFirst = some (y, climb (rebalance true) inner (ofShape u, true)) := by
        have hfirst := takeFirst_plug (b := b) (y := y) (d := ofShape u) hsides
        rw [shape, shape_ofShape] at hfirst
        rw [← ofShape_shape (node m b' w e), hplug]
        exact hfirst
      refine ⟨inner ++ [⟨.right, y, h, (node k a z c).shape⟩], ofShape u, r', ⟨i, fun n hn => ?_⟩, ?_, ?_⟩
      · simp only [avlNodeTakeOut, hleft, hright, shape, Shape.root, hi n hn, Option.bind_eq_bind, Option.bind_some]
        simpa [shape] using htake
      · rw [climb_append, climb_right, ← rebalance_going]
        simp [eraseRoot, hfirst]
      · simpa using hr'

/-- `avl_node_erase` does to the memory what `erase` does to the tree. -/
theorem avlNodeErase_spec {t : Avl α} (hr : r.Stands o t.shape) (hx : x ∈ t.toList) :
    ∃ r', Yields (fun n => avlNodeErase n x r) r' ∧
      r'.Stands (Function.update o x (r'.nodes x)) (t.erase x).1.shape := by
  obtain ⟨ctx, h, l, d, hplug, herase⟩ := erase_climb hx
  rw [hplug] at hr
  obtain ⟨inner, e, r₁, htake, hroot, hr₁⟩ := avlNodeTakeOut_spec hr
  obtain ⟨q, r₂, hends, hr₂⟩ := climb_ends rebalance_follows hr₁
  rw [climb_append, ← hroot, ← herase] at hr₂
  have hx₂ : r₂.nodes x = r₁.nodes x := by
    have hnodup : t.toList.Nodup := by
      rw [← shape_nodes, hplug]
      exact hr.tree.nodup
    have hx₂ := hr₂.outside x (by rw [shape_nodes, toList_erase, hnodup.mem_erase_iff]; simp)
    rwa [Function.update_self] at hx₂
  refine ⟨r₂, htake.bind ?_, hx₂ ▸ hr₂⟩
  by_cases htop : top (inner ++ ctx) = none
  · rw [htop] at hends
    obtain ⟨-, rfl⟩ := Prod.mk.inj (Ends.unique (.stop (rebalance_follows.1 r₁)) hends)
    simp only [htop, if_pos]
    exact Yields.pure
  · simp only [htop, if_false]
    exact hends.yields.map

end Wenas.Xlib
