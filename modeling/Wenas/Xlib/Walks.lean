import Wenas.Xlib.Removal

/-!
# Walking and tearing down

`avl_node_next` and `avl_node_prev` need no stack: behind the last node of a subtree comes the first ancestor that has
the subtree on the other side. `avl_node_tear` takes the leaves from left to right, each node after its children.
-/
namespace Wenas.Xlib

open Wenas.Trees Wenas.Loop AvlRoot Avl
open Wenas.Trees.Shape (join mem_join nodup_join root_mem ordered)

variable {α : Type} [DecidableEq α] {r r' : AvlRoot α} {o o' o'' : α → AvlNode α} {x y : α} {s : Side} {b : Nat}
  {ctx : List (Frame α Nat)} {t u : Shape α Nat} {l v : List α}

/-! ### Walking -/

theorem rise_ends (habove : Above r.nodes r.node (some x) ctx) (hx : x ∉ around ctx) (hnodup : (around ctx).Nodup) :
    ∃ y, Ends (avlNodeRiseTurn s.other r) (x, top ctx) (y, (beyond s ctx).head?) := by
  induction ctx generalizing x with
  | nil =>
    rw [beyond_nil]
    exact ⟨x, .stop rfl⟩
  | cons f ctx ih =>
    obtain ⟨side, z, c, sibling⟩ := f
    obtain ⟨hchild, hsibling, -, hparent, habove⟩ := habove
    obtain ⟨hctx, -, hz, hzctx, -⟩ := nodup_around_cons.mp hnodup
    by_cases hside : side = s.other
    · subst hside
      rw [beyond_near]
      exact ⟨x, .stop (if_pos hchild)⟩
    · obtain rfl : side = s := by
        cases s <;> cases side <;> first | rfl | exact absurd rfl hside
      obtain ⟨y, hends⟩ := ih habove hzctx hctx
      refine ⟨y, .go ?_ (beyond_far (s := side) ▸ hends)⟩
      have hother : (r.nodes z).child side.other ≠ some x := by
        intro heq
        have hroot := hsibling.eq_root.symm.trans heq
        exact hx (by simp [root_mem hroot])
      simp [avlNodeRiseTurn, top, hother, hparent]

/-- One step from a node to the nearest one on the side `s`. -/
theorem avlNodeStep_spec (hs : r.Stands o (plug ctx (join s.other u x b t))) :
    Yields (fun n => avlNodeStep s n (some x) r) (t.ordered s ++ beyond s ctx).head? := by
  obtain ⟨-, -, -, hparent, -, hchild⟩ := hs.heights
  rw [Side.other_other] at hchild
  cases hroot : t.root with
  | none =>
    obtain rfl : t = .nil := by
      cases t with
      | nil => rfl
      | node => cases hroot
    obtain ⟨p, habove, hat, -, hnodup, hout⟩ := stands_plug.mp hs.tree
    obtain ⟨rfl, -⟩ := at_join.mp hat
    obtain ⟨y, hends⟩ := rise_ends (s := s) habove (hout x (by simp)) hnodup
    simp only [avlNodeStep, hchild, hroot, hparent, ordered_nil, List.nil_append]
    exact hends.yields.map
  | some w =>
    have hdown : r.Stands o (plug (⟨s, x, b, u⟩ :: ctx) t) := by
      rw [← Side.other_other s, plug, Frame.fill, Shape.join_other]
      exact hs
    obtain ⟨inner, y, c, v, rfl, hsides, hends⟩ := sink_ends (s := s.other) hdown hroot
    have hhead := head_ordered_plug (u := v) (x := y) (b := c) hsides
    rw [List.head?_append, hhead]
    simp only [avlNodeStep, hchild, hroot]
    exact hends.yields.map

/-- The nodes next to a node, in the order of the tree. -/
theorem avlNodeStep_nodes (hs : r.Stands o t) (hnodes : t.nodes = l ++ x :: v) :
    Yields (fun n => avlNodeNext n (some x) r) v.head? ∧ Yields (fun n => avlNodePrev n (some x) r) l.getLast? := by
  obtain ⟨ctx, u, b, w, rfl⟩ := exists_plug (show x ∈ t.nodes by simp [hnodes])
  have heq : (before ctx ++ u.nodes) ++ x :: (w.nodes ++ after ctx) = l ++ x :: v := by
    rw [← hnodes]
    simp
  have hx : x ∉ before ctx ++ u.nodes ∧ x ∉ w.nodes ++ after ctx := by
    have hnodup := hs.tree.nodup
    rw [hnodes, ← heq, List.nodup_middle, List.nodup_cons] at hnodup
    exact ⟨fun hx => hnodup.1 (List.mem_append_left _ hx), fun hx => hnodup.1 (List.mem_append_right _ hx)⟩
  obtain ⟨rfl, -, rfl⟩ := (List.append_cons_inj_of_notMem hx.1 hx.2).mp heq
  refine ⟨avlNodeStep_spec (s := .right) hs, ?_⟩
  have hprev := avlNodeStep_spec (s := .left) (u := w) (t := u) hs
  rwa [Shape.ordered, beyond, ← List.reverse_append, List.head?_reverse] at hprev

omit [DecidableEq α] in
/-- The ends of the tree. -/
theorem avlNodeEnd_nodes (hs : r.Stands o t) :
    Yields (fun n => avlNodeFirst n r) t.nodes.head? ∧ Yields (fun n => avlNodeLast n r) t.nodes.getLast? := by
  have hend : ∀ s : Side, Yields (fun n => avlNodeEnd s.other n r) (t.ordered s).head? := by
    intro s
    have hnode := hs.tree.tree.eq_root
    cases hroot : t.root with
    | none =>
      obtain rfl : t = .nil := by
        cases t with
        | nil => rfl
        | node => cases hroot
      simp only [avlNodeEnd, hnode, hroot, ordered_nil]
      exact Yields.pure
    | some w =>
      obtain ⟨inner, y, c, v, rfl, hsides, hends⟩ := sink_ends (s := s.other) hs.here hroot
      simp only [avlNodeEnd, hnode, hroot, head_ordered_plug hsides]
      exact hends.yields.map
  exact ⟨hend .right, List.head?_reverse ▸ hend .left⟩

/-! ### Tearing down -/

/-- Each node after its children, from left to right. -/
def postorder : Shape α Nat → List α
  | .nil => []
  | .node l x _ r => postorder l ++ (postorder r ++ [x])

omit [DecidableEq α] in
theorem postorder_perm (t : Shape α Nat) : (postorder t).Perm t.nodes := by
  induction t with
  | nil => exact .nil
  | node l x b r ihl ihr =>
    refine ihl.append ?_
    exact (List.perm_append_comm.trans (ihr.cons x) : (postorder r ++ [x]).Perm (x :: r.nodes))

/-- The nodes `l` have become empty. -/
def Emptied (o : α → AvlNode α) (l : List α) (o' : α → AvlNode α) : Prop :=
  ∀ z, (z ∈ l → (o' z).parent = some z) ∧ (z ∉ l → o' z = o z)

omit [DecidableEq α] in
theorem Emptied.nil : Emptied o [] o := fun _ => ⟨fun hz => absurd hz List.not_mem_nil, fun _ => rfl⟩

omit [DecidableEq α] in
theorem Emptied.trans (h : Emptied o l o') (h' : Emptied o' v o'') : Emptied o (l ++ v) o'' := by
  intro z
  obtain ⟨hin, hout⟩ := h z
  obtain ⟨hin', hout'⟩ := h' z
  by_cases hz : z ∈ v
  · exact ⟨fun _ => hin' hz, fun hz' => absurd (List.mem_append_right l hz) hz'⟩
  · rw [List.mem_append, hout' hz]
    exact ⟨fun hl => hin (hl.resolve_right hz), fun hl => hout fun hz' => hl (.inl hz')⟩

/-- `avl_node_tear` takes the leaf `x` once it has sunk down to it. -/
theorem avlNodeTear_leaf {next : Option α} {q : α} (hs : r.Stands o (plug ctx (.node .nil x b .nil)))
    (hq : next.or r.node = some q) (hends : Ends (avlNodeLeafTurn r) q x) :
    ∃ r', Yields (fun n => avlNodeTear n next r) (some x, top ctx, r') ∧
      (r'.setParent x (some x)).Stands (Function.update o x ((r'.setParent x (some x)).nodes x)) (plug ctx .nil) := by
  obtain ⟨-, -, -, hparent, -⟩ := hs.heights (s := .left)
  have hcut := (avlChildReplace_cut (s := .left) hs rfl).1
  simp only [Shape.root, setParentOf] at hcut
  have hx : x ∉ (plug ctx (.nil : Shape α Nat)).nodes := by
    obtain ⟨p, -, -, -, -, hout⟩ := stands_plug.mp hs.tree
    have hx := hout x (by simp)
    simpa [around] using hx
  obtain ⟨k, hk⟩ := hends
  cases ctx with
  | nil =>
    refine ⟨{ r with node := none }, ⟨k, fun n hn => ?_⟩, ?_⟩
    · simp [avlNodeTear, hq, hk n hn, hparent, top]
    · have hset := hcut.set_outside (n := { r.nodes x with parent := some x }) hx
      rw [Function.update_idem] at hset
      rwa [setParent, set_nodes_self]
  | cons f ctx =>
    refine ⟨(avlChildReplace (some x) none (some f.x) r).setHeight x 0, ⟨k, fun n hn => ?_⟩, ?_⟩
    · simp [avlNodeTear, hq, hk n hn, hparent, top, avlChildReplace]
    · have hset := (hcut.set_outside (n := { (avlChildReplace (some x) none (some f.x) r).nodes x with data := 0 })
        hx).set_outside (n := { (((avlChildReplace (some x) none (some f.x) r).setHeight x 0).nodes x) with
          parent := some x }) hx
      rw [Function.update_idem, Function.update_idem] at hset
      rwa [setParent, set_nodes_self]

/-- From `next`, the next tear goes where one from the root of `t` goes. -/
def Begins (r : AvlRoot α) (next : Option α) (t : Shape α Nat) : Prop :=
  ∀ w x, t.root = some w → Ends (avlNodeLeafTurn r) w x → ∃ q, next.or r.node = some q ∧ Ends (avlNodeLeafTurn r) q x

variable {next next' next'' : Option α} {tree : AvlTree α}

/-- The turns of `avl_tree_clear` that take the nodes `l`. -/
def Clears (tree : AvlTree α) (next : Option α) (l : List α) (r' : AvlRoot α) (next' : Option α) : Prop :=
  ∃ k, ∀ n ≥ k, ∀ m destroyed, loop (avlTreeClearTurn n) (m + l.length) (next, destroyed, tree) =
    loop (avlTreeClearTurn n) m (next', destroyed ++ l, { tree with root := r', count := tree.count - l.length })

theorem Clears.trans {r'' : AvlRoot α} (h : Clears tree next l r' next')
    (h' : Clears { tree with root := r', count := tree.count - l.length } next' v r'' next'') :
    Clears tree next (l ++ v) r'' next'' := by
  obtain ⟨k, hk⟩ := h
  obtain ⟨k', hk'⟩ := h'
  refine ⟨k + k', fun n hn m destroyed => ?_⟩
  rw [List.length_append, Nat.add_comm l.length, ← Nat.add_assoc, hk n (by omega), hk' n (by omega), List.append_assoc,
    Nat.sub_sub, Nat.add_comm v.length]

theorem Clears.leaf (tree : AvlTree α) (hs : tree.root.Stands o (plug ctx (.node .nil x b .nil)))
    (hbegins : Begins tree.root next (.node .nil x b .nil)) :
    ∃ r' o', Clears tree next [x] r' (top ctx) ∧ r'.Stands o' (plug ctx .nil) ∧ Emptied o [x] o' := by
  obtain ⟨-, -, -, -, hleft, hright⟩ := hs.heights (s := .left)
  have hleaf : Ends (avlNodeLeafTurn tree.root) x x := by
    refine .stop ?_
    rw [avlNodeLeafTurn, show (tree.root.nodes x).left = none from hleft, show (tree.root.nodes x).right = none from hright]
  obtain ⟨q, hq, hends⟩ := hbegins x x rfl hleaf
  obtain ⟨r', ⟨k, hk⟩, hr'⟩ := avlNodeTear_leaf hs hq hends
  refine ⟨_, _, ⟨k, fun n hn m destroyed => ?_⟩, hr', fun z => ⟨fun hz => ?_, fun hz => ?_⟩⟩
  · simp [loop, avlTreeClearTurn, hk n hn]
  · rw [List.mem_singleton.mp hz, Function.update_self, setParent, set_nodes_self]
  · exact Function.update_of_ne (by simpa using hz) ..

/-- The whole tree below the frames is taken, and the next leaf is looked for above it. -/
def Torn (t : Shape α Nat) : Prop :=
  ∀ (tree : AvlTree α) (o : α → AvlNode α) (ctx : List (Frame α Nat)) (next : Option α), t ≠ .nil →
    tree.root.Stands o (plug ctx t) → Begins tree.root next t →
      ∃ r' o', Clears tree next (postorder t) r' (top ctx) ∧ r'.Stands o' (plug ctx .nil) ∧ Emptied o (postorder t) o'

/-- The child that a sinking pointer meets first is taken, if there is one. -/
theorem Torn.child (ht : Torn t) (tree : AvlTree α) (hfirst : s = .left ∨ u = .nil)
    (hs : tree.root.Stands o (plug (⟨s, x, b, u⟩ :: ctx) t)) (hbegins : Begins tree.root next (join s t x b u)) :
    ∃ r' o' next', Clears tree next (postorder t) r' next' ∧ r'.Stands o' (plug (⟨s, x, b, u⟩ :: ctx) .nil) ∧
      Emptied o (postorder t) o' ∧ Begins r' next' (join s .nil x b u) := by
  by_cases hnil : t = .nil
  · subst hnil
    refine ⟨tree.root, o, next, ⟨0, fun n _ m destroyed => ?_⟩, hs, Emptied.nil, hbegins⟩
    simp [postorder]
  · have hparent : tree.root.Stands o (plug ctx (join s t x b u)) := hs
    obtain ⟨-, -, -, -, hchild, hother⟩ := hparent.heights
    have hgo : ∀ w, t.root = some w → avlNodeLeafTurn tree.root x = .go w := by
      intro w hw
      rw [hw] at hchild
      cases s with
      | left =>
        have hleft : (tree.root.nodes x).left = some w := hchild
        rw [avlNodeLeafTurn, hleft]
      | right =>
        obtain rfl : u = .nil := hfirst.resolve_left (by simp)
        have hleft : (tree.root.nodes x).left = none := hother
        have hright : (tree.root.nodes x).right = some w := hchild
        rw [avlNodeLeafTurn, hleft, hright]
    obtain ⟨r', o', hclears, hr', ho'⟩ := ht tree o (⟨s, x, b, u⟩ :: ctx) next hnil hs fun w y hw hends =>
      hbegins x y Shape.root_join (.go (hgo w hw) hends)
    refine ⟨r', o', some x, hclears, hr', ho', fun w y hw hends => ⟨x, rfl, ?_⟩⟩
    obtain rfl := Option.some.inj (Shape.root_join.symm.trans hw)
    exact hends

theorem torn (t : Shape α Nat) : Torn t := by
  induction t with
  | nil => exact fun _ _ _ _ h => absurd rfl h
  | node l x b d ihl ihd =>
    intro tree o ctx next _ hs hbegins
    obtain ⟨r₁, o₁, next₁, hclears₁, hr₁, ho₁, hbegins₁⟩ := ihl.child tree (s := .left) (.inl rfl) hs hbegins
    obtain ⟨r₂, o₂, next₂, hclears₂, hr₂, ho₂, hbegins₂⟩ :=
      ihd.child { tree with root := r₁, count := tree.count - (postorder l).length } (s := .right) (.inr rfl) hr₁
        hbegins₁
    obtain ⟨r₃, o₃, hclears₃, hr₃, ho₃⟩ := Clears.leaf
      { tree with root := r₂, count := tree.count - (postorder l).length - (postorder d).length } hr₂ hbegins₂
    exact ⟨r₃, o₃, hclears₁.trans (hclears₂.trans hclears₃), hr₃, ho₁.trans (ho₂.trans ho₃)⟩

/-- `avl_tree_clear` hands over each node once, after its children, and leaves an empty tree. -/
theorem avlTreeClear_spec (hs : tree.root.Stands o t) : ∃ root o', root.Stands o' .nil ∧ Emptied o (postorder t) o' ∧
    Yields (fun n => avlTreeClear n tree)
      (postorder t, { tree with root, count := tree.count - (postorder t).length }) := by
  have hstop : ∀ n r l c, r.node = none → avlTreeClearTurn n (none, l, { tree with root := r, count := c }) = .stop := by
    intro n r l c hnode
    simp [avlTreeClearTurn, avlNodeTear, hnode]
  by_cases hnil : t = .nil
  · subst hnil
    have hnode : tree.root.node = none := hs.tree.tree
    refine ⟨tree.root, o, hs, Emptied.nil, ⟨1, fun n hn => ?_⟩⟩
    obtain ⟨n, rfl⟩ := Nat.exists_eq_succ_of_ne_zero (Nat.one_le_iff_ne_zero.mp hn)
    simp [avlTreeClear, loop, hstop _ tree.root [] tree.count hnode, postorder]
  · have hnode := hs.tree.tree.eq_root
    obtain ⟨r', o', ⟨k, hk⟩, hr', ho'⟩ := torn t tree o [] none hnil hs fun w x hw hends => ⟨w, by simp [hnode, hw], hends⟩
    refine ⟨r', o', hr', ho', ⟨k + (postorder t).length + 1, fun n hn => ?_⟩⟩
    have hloop : loop (avlTreeClearTurn n) n (none, [], tree) =
        some (none, postorder t, { tree with root := r', count := tree.count - (postorder t).length }) := by
      obtain ⟨m, hm⟩ : ∃ m, n = m + 1 + (postorder t).length := ⟨n - 1 - (postorder t).length, by omega⟩
      have hturns := hk n (by omega) (m + 1) []
      rw [← hm] at hturns
      rw [hturns, loop, top, hstop _ _ _ _ hr'.tree.tree, List.nil_append]
    exact congrArg (Option.map Prod.snd) hloop

end Wenas.Xlib
