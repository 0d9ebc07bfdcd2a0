import Mathlib

/-!
# Binary trees with parent pointers

A tree as the cells of an arbitrary memory give it. A context is the way from a place in a tree up to its root; what a
program changes below a place is put together again with the context.
-/
namespace Wenas.Trees

inductive Shape (α β : Type) where
  | nil
  | node (left : Shape α β) (x : α) (b : β) (right : Shape α β)

inductive Side where
  | left
  | right
  deriving DecidableEq

def Side.other : Side → Side
  | .left => .right
  | .right => .left

@[simp] theorem Side.other_other (s : Side) : s.other.other = s := by cases s <;> rfl

structure Cell (α β : Type) where
  left : Option α
  right : Option α
  parent : Option α
  data : β

variable {α β : Type}

namespace Cell

def child (c : Cell α β) : Side → Option α
  | .left => c.left
  | .right => c.right

def setChild (c : Cell α β) (s : Side) (p : Option α) : Cell α β :=
  match s with
  | .left => { c with left := p }
  | .right => { c with right := p }

variable (c : Cell α β) (s : Side) (p : Option α)

@[simp] theorem child_setChild : (c.setChild s p).child s = p := by cases s <;> rfl

@[simp] theorem child_setChild_other : (c.setChild s p).child s.other = c.child s.other := by cases s <;> rfl

@[simp] theorem child_other_setChild : (c.setChild s.other p).child s = c.child s := by cases s <;> rfl

@[simp] theorem setChild_parent : (c.setChild s p).parent = c.parent := by cases s <;> rfl

@[simp] theorem setChild_data : (c.setChild s p).data = c.data := by cases s <;> rfl

end Cell

namespace Shape

/-- The nodes from left to right. -/
def nodes : Shape α β → List α
  | nil => []
  | node l x _ r => l.nodes ++ x :: r.nodes

def root : Shape α β → Option α
  | nil => none
  | node _ x _ _ => some x

/-- A node with `t` on the side `s`. -/
def join (s : Side) (t : Shape α β) (x : α) (b : β) (u : Shape α β) : Shape α β :=
  match s with
  | .left => node t x b u
  | .right => node u x b t

variable {s : Side} {t u : Shape α β} {x y : α} {b : β}

theorem join_other : join s.other t x b u = join s u x b t := by cases s <;> rfl

@[simp] theorem nodes_nil : (nil : Shape α β).nodes = [] := rfl

@[simp] theorem nodes_node : (node t x b u).nodes = t.nodes ++ x :: u.nodes := rfl

@[simp] theorem root_join : (join s t x b u).root = some x := by cases s <;> rfl

@[simp] theorem mem_join : y ∈ (join s t x b u).nodes ↔ y = x ∨ y ∈ t.nodes ∨ y ∈ u.nodes := by
  cases s <;> simp [join] <;> tauto

theorem nodup_join : (join s t x b u).nodes.Nodup ↔
    t.nodes.Nodup ∧ u.nodes.Nodup ∧ x ∉ t.nodes ∧ x ∉ u.nodes ∧ ∀ y ∈ t.nodes, y ∉ u.nodes := by
  cases s <;> simp only [join, nodes_node, List.nodup_append, List.nodup_cons, List.mem_cons] <;> grind

theorem root_mem (h : t.root = some x) : x ∈ t.nodes := by
  cases t with
  | nil => cases h
  | node l y b r =>
    cases h
    simp

end Shape

open Shape

/-- A node above the hole, the side of the hole and the tree on the other side. -/
structure Frame (α β : Type) where
  side : Side
  x : α
  b : β
  sibling : Shape α β

def Frame.fill (f : Frame α β) (t : Shape α β) : Shape α β := join f.side t f.x f.b f.sibling

def plug : List (Frame α β) → Shape α β → Shape α β
  | [], t => t
  | f :: ctx, t => plug ctx (f.fill t)

/-- The nodes before the hole. -/
def before : List (Frame α β) → List α
  | [] => []
  | ⟨.left, _, _, _⟩ :: ctx => before ctx
  | ⟨.right, x, _, sibling⟩ :: ctx => before ctx ++ (sibling.nodes ++ [x])

def after : List (Frame α β) → List α
  | [] => []
  | ⟨.left, x, _, sibling⟩ :: ctx => x :: sibling.nodes ++ after ctx
  | ⟨.right, _, _, _⟩ :: ctx => after ctx

/-- The nodes of the frames and of their siblings. -/
def around (ctx : List (Frame α β)) : List α := before ctx ++ after ctx

/-- The node right above the hole. -/
def top : List (Frame α β) → Option α
  | [] => none
  | f :: _ => some f.x

section

variable {ctx ctx' : List (Frame α β)} {f : Frame α β} {t u : Shape α β} {x y : α}

@[simp] theorem plug_append : plug (ctx ++ ctx') t = plug ctx' (plug ctx t) := by
  induction ctx generalizing t with
  | nil => rfl
  | cons f ctx ih => exact ih

@[simp] theorem nodes_plug : (plug ctx t).nodes = before ctx ++ (t.nodes ++ after ctx) := by
  induction ctx generalizing t with
  | nil => simp [plug, before, after]
  | cons f ctx ih =>
    obtain ⟨side, x, b, sibling⟩ := f
    cases side <;> simp [plug, before, after, ih, Frame.fill, join]

/-- Every node has a context. -/
theorem exists_plug (hx : x ∈ t.nodes) : ∃ ctx l b r, t = plug ctx (.node l x b r) := by
  induction t with
  | nil => cases hx
  | node l y b r ihl ihr =>
    obtain hx | rfl | hx := by simpa using hx
    · obtain ⟨ctx, l', b', r', rfl⟩ := ihl hx
      exact ⟨ctx ++ [⟨.left, y, b, r⟩], l', b', r', by rw [plug_append]; rfl⟩
    · exact ⟨[], l, b, r, rfl⟩
    · obtain ⟨ctx, l', b', r', rfl⟩ := ihr hx
      exact ⟨ctx ++ [⟨.right, y, b, l⟩], l', b', r', by rw [plug_append]; rfl⟩

@[simp] theorem around_nil : around ([] : List (Frame α β)) = [] := rfl

@[simp] theorem mem_around_cons : x ∈ around (f :: ctx) ↔ x = f.x ∨ x ∈ f.sibling.nodes ∨ x ∈ around ctx := by
  obtain ⟨side, y, b, sibling⟩ := f
  cases side <;> simp only [around, before, after, List.mem_append, List.mem_cons, List.not_mem_nil, or_false] <;> tauto

theorem nodup_around_cons : (around (f :: ctx)).Nodup ↔ (around ctx).Nodup ∧ f.sibling.nodes.Nodup ∧
    f.x ∉ f.sibling.nodes ∧ f.x ∉ around ctx ∧ ∀ y ∈ f.sibling.nodes, y ∉ around ctx := by
  obtain ⟨side, y, b, sibling⟩ := f
  cases side <;>
    simp only [around, before, after, List.nodup_append, List.nodup_cons, List.mem_append, List.mem_cons,
      List.cons_append] <;> grind

theorem top_mem (h : top ctx = some x) : x ∈ around ctx := by
  cases ctx with
  | nil => cases h
  | cons f ctx =>
    cases h
    simp

theorem nodup_plug : (plug ctx t).nodes.Nodup ↔ t.nodes.Nodup ∧ (around ctx).Nodup ∧ ∀ x ∈ t.nodes, x ∉ around ctx := by
  rw [nodes_plug, around]
  simp only [List.nodup_append, List.mem_append]
  grind

end

/-! ### From one side to the other -/

/-- The nodes in the order in which they come towards the side `s`. -/
def Shape.ordered (s : Side) (t : Shape α β) : List α :=
  match s with
  | .left => t.nodes.reverse
  | .right => t.nodes

/-- The nodes of the context on the side `s` of the hole. -/
def beyond (s : Side) (ctx : List (Frame α β)) : List α :=
  match s with
  | .left => (before ctx).reverse
  | .right => after ctx

section

variable {s : Side} {ctx : List (Frame α β)} {t u : Shape α β} {x : α} {b : β}

@[simp] theorem ordered_nil : (nil : Shape α β).ordered s = [] := by cases s <;> rfl

@[simp] theorem beyond_nil : beyond s ([] : List (Frame α β)) = [] := by cases s <;> rfl

theorem ordered_join : (join s.other t x b u).ordered s = t.ordered s ++ x :: u.ordered s := by
  cases s <;> simp [join, Shape.ordered, Side.other]

theorem beyond_near : beyond s (⟨s.other, x, b, u⟩ :: ctx) = x :: u.ordered s ++ beyond s ctx := by
  cases s <;> simp [beyond, Shape.ordered, Side.other, before, after]

theorem beyond_far : beyond s (⟨s, x, b, u⟩ :: ctx) = beyond s ctx := by cases s <;> rfl

/-- The first node of a tree is at the end of the way to the other side. -/
theorem head_ordered_plug (hsides : ∀ f ∈ ctx, f.side = s.other) :
    ((plug ctx (join s.other .nil x b u)).ordered s).head? = some x := by
  induction ctx using List.reverseRecOn with
  | nil => simp [plug, ordered_join]
  | append_singleton ctx f ih =>
    obtain ⟨side, y, c, sibling⟩ := f
    obtain rfl : side = s.other := hsides ⟨side, y, c, sibling⟩ (by simp)
    have ih := ih fun f hf => hsides f (by simp [hf])
    rw [plug_append, plug, plug, Frame.fill, ordered_join, List.head?_append, ih]
    rfl

end

/-! ### Trees in memory -/

/-- The tree stands at `p`, below `up`. -/
def At (m : α → Cell α β) : Option α → Option α → Shape α β → Prop
  | _, p, .nil => p = none
  | up, p, .node l x b r =>
    p = some x ∧ (m x).parent = up ∧ (m x).data = b ∧ At m (some x) (m x).left l ∧ At m (some x) (m x).right r

/-- The frames stand above the place that holds `p`. -/
def Above (m : α → Cell α β) (root : Option α) : Option α → List (Frame α β) → Prop
  | p, [] => root = p
  | p, f :: ctx =>
    (m f.x).child f.side = p ∧ At m (some f.x) ((m f.x).child f.side.other) f.sibling ∧ (m f.x).data = f.b ∧
      (m f.x).parent = top ctx ∧ Above m root (some f.x) ctx

/-- The whole tree, with a cell for each node. -/
structure Stands (m : α → Cell α β) (root : Option α) (t : Shape α β) : Prop where
  tree : At m none root t
  nodup : t.nodes.Nodup

section

variable {m m' : α → Cell α β} {root root' up p q : Option α} {ctx : List (Frame α β)} {s : Side} {t u v : Shape α β}
  {x y : α} {b c : β}

theorem at_join : At m up p (join s t x b u) ↔ p = some x ∧ (m x).parent = up ∧ (m x).data = b ∧
    At m (some x) ((m x).child s) t ∧ At m (some x) ((m x).child s.other) u := by
  cases s <;> simp only [join, At, Cell.child, Side.other]
  tauto

theorem At.congr (h : At m up p t) (hm : ∀ x ∈ t.nodes, m' x = m x) : At m' up p t := by
  induction t generalizing up p with
  | nil => exact h
  | node l x b r ihl ihr =>
    obtain ⟨hp, hparent, hdata, hl, hr⟩ := h
    have hx := hm x (by simp)
    refine ⟨hp, by rw [hx, hparent], by rw [hx, hdata], ?_, ?_⟩
    · rw [hx]
      exact ihl hl fun y hy => hm y (by simp [hy])
    · rw [hx]
      exact ihr hr fun y hy => hm y (by simp [hy])

theorem At.eq_root (h : At m up p t) : p = t.root := by
  cases t with
  | nil => exact h
  | node l x b r => exact h.1

theorem Above.congr (h : Above m root p ctx) (hm : ∀ x ∈ around ctx, m' x = m x) : Above m' root p ctx := by
  induction ctx generalizing p with
  | nil => exact h
  | cons f ctx ih =>
    obtain ⟨hp, hsibling, hdata, hparent, habove⟩ := h
    have hx := hm f.x (by simp)
    refine ⟨by rw [hx, hp], ?_, by rw [hx, hdata], by rw [hx, hparent], ih habove fun y hy => hm y (by simp [hy])⟩
    rw [hx]
    exact hsibling.congr fun y hy => hm y (by simp [hy])

theorem at_plug : At m none root (plug ctx t) ↔ ∃ p, Above m root p ctx ∧ At m (top ctx) p t := by
  induction ctx generalizing t with
  | nil => simp [plug, Above, top]
  | cons f ctx ih =>
    simp only [plug, ih, Frame.fill, at_join, Above, top]
    grind

/-- The tree and its context, each with the cells of its own. -/
theorem stands_plug : Stands m root (plug ctx t) ↔ ∃ p, Above m root p ctx ∧ At m (top ctx) p t ∧ t.nodes.Nodup ∧
    (around ctx).Nodup ∧ ∀ x ∈ t.nodes, x ∉ around ctx := by
  constructor
  · rintro ⟨htree, hnodup⟩
    obtain ⟨p, habove, hat⟩ := at_plug.mp htree
    exact ⟨p, habove, hat, nodup_plug.mp hnodup⟩
  · rintro ⟨p, habove, hat, hnodup⟩
    exact ⟨at_plug.mpr ⟨p, habove, hat⟩, nodup_plug.mpr hnodup⟩

/-- The data of one node changes. -/
theorem Stands.load (h : Stands m root (plug ctx (join s t x b u))) (hx : m' x = { m x with data := c })
    (hm : ∀ z ≠ x, m' z = m z) : Stands m' root (plug ctx (join s t x c u)) := by
  obtain ⟨p, habove, hat, hnodup, hctx, hout⟩ := stands_plug.mp h
  obtain ⟨hp, hparent, -, hatt, hatu⟩ := at_join.mp hat
  have hn := nodup_join.mp hnodup
  refine stands_plug.mpr ⟨p, habove.congr fun z hz => hm z ?_, at_join.mpr ?_, nodup_join.mpr hn, hctx, ?_⟩
  · rintro rfl
    exact hout z (by simp) hz
  · have hchild : ∀ s, ({ m x with data := c } : Cell α β).child s = (m x).child s := by
      intro s
      cases s <;> rfl
    rw [hx, hchild, hchild]
    refine ⟨hp, hparent, rfl, hatt.congr fun z hz => hm z ?_, hatu.congr fun z hz => hm z ?_⟩
    · rintro rfl
      exact hn.2.2.1 hz
    · rintro rfl
      exact hn.2.2.2.1 hz
  · intro z hz
    exact hout z (by simpa using hz)

variable [DecidableEq α]

/-- The root of a tree gets another parent. -/
theorem At.reparent (h : At m up p t) (hnodup : t.nodes.Nodup)
    (hm : ∀ x ∈ t.nodes, m' x = if t.root = some x then { m x with parent := q } else m x) : At m' q p t := by
  cases t with
  | nil => exact h
  | node l x b r =>
    obtain ⟨hp, -, hdata, hl, hr⟩ := h
    have hx := hm x (by simp)
    rw [Shape.root, if_pos rfl] at hx
    have hrest : ∀ y ∈ l.nodes ++ r.nodes, m' y = m y := by
      intro y hy
      have hne : (Shape.node l x b r).root ≠ some y := by
        rintro heq
        obtain rfl := Option.some.inj heq
        exact (List.nodup_middle.mp hnodup).notMem hy
      rw [hm y (by simp only [List.mem_append, nodes_node, List.mem_cons] at hy ⊢; tauto), if_neg hne]
    refine ⟨hp, by rw [hx], by rw [hx, hdata], ?_, ?_⟩
    · rw [hx]
      exact hl.congr fun y hy => hrest y (List.mem_append_left _ hy)
    · rw [hx]
      exact hr.congr fun y hy => hrest y (List.mem_append_right _ hy)

/-- The place below the frames gets another pointer. -/
def relink (ctx : List (Frame α β)) (q : Option α) (m : α → Cell α β) (root : Option α) : (α → Cell α β) × Option α :=
  match ctx with
  | [] => (m, q)
  | f :: _ => (Function.update m f.x ((m f.x).setChild f.side q), root)

theorem relink_of_notMem (hx : x ∉ around ctx) : (relink ctx q m root).1 x = m x := by
  cases ctx with
  | nil => rfl
  | cons f ctx =>
    have hne : x ≠ f.x := by
      rintro rfl
      exact hx (by simp)
    simp [relink, Function.update_of_ne hne]

theorem Above.relink (h : Above m root p ctx) (hnodup : (around ctx).Nodup) :
    Above (relink ctx q m root).1 (relink ctx q m root).2 q ctx := by
  cases ctx with
  | nil => rfl
  | cons f ctx =>
    obtain ⟨-, hsibling, hdata, hparent, habove⟩ := h
    obtain ⟨-, -, hx, hctx, -⟩ := nodup_around_cons.mp hnodup
    have hsame : ∀ y ≠ f.x, Function.update m f.x ((m f.x).setChild f.side q) y = m y :=
      fun y hy => Function.update_of_ne hy _ _
    simp only [Trees.relink, Above, Function.update_self, Cell.child_setChild, Cell.child_setChild_other,
      Cell.setChild_data, Cell.setChild_parent]
    refine ⟨trivial, hsibling.congr fun y hy => hsame y ?_, hdata, hparent, habove.congr fun y hy => hsame y ?_⟩
    · rintro rfl
      exact hx hy
    · rintro rfl
      exact hctx hy

/-- Below a context one tree takes the place of another, and the cells of the context know of it. -/
theorem Stands.exchange (h : Stands m root (plug ctx t)) (hctx : ∀ x ∈ around ctx, m' x = (relink ctx q m root).1 x)
    (hroot : root' = (relink ctx q m root).2) (hat : At m' (top ctx) q u) (hu : u.nodes.Nodup)
    (hout : ∀ x ∈ u.nodes, x ∉ around ctx) : Stands m' root' (plug ctx u) := by
  obtain ⟨p, habove, -, -, hnodup, -⟩ := stands_plug.mp h
  refine stands_plug.mpr ⟨q, ?_, hat, hu, hnodup, hout⟩
  rw [hroot]
  exact (habove.relink hnodup).congr hctx

/-- The child of `x` away from `s` goes up, and `x` goes down to the side `s`. -/
theorem Stands.rotate (h : Stands m root (plug ctx (join s t x b (join s u y c v))))
    (hctx : ∀ z ∈ around ctx, m' z = (relink ctx (some y) m root).1 z)
    (hroot : root' = (relink ctx (some y) m root).2)
    (hx : m' x = { (m x).setChild s.other u.root with parent := some y })
    (hy : m' y = { (m y).setChild s (some x) with parent := top ctx })
    (hu : ∀ z ∈ u.nodes, m' z = if u.root = some z then { m z with parent := some x } else m z)
    (hrest : ∀ z ∈ t.nodes ++ v.nodes, m' z = m z) :
    Stands m' root' (plug ctx (join s (join s t x b u) y c v)) := by
  obtain ⟨p, -, hat, hnodup, -, hout⟩ := stands_plug.mp h
  obtain ⟨-, -, hdatax, hatt, hat⟩ := at_join.mp hat
  obtain ⟨-, -, hdatay, hatu, hatv⟩ := at_join.mp hat
  obtain ⟨hnt, hnuv, hxt, hxuv, hdisj⟩ := nodup_join.mp hnodup
  obtain ⟨hnu, hnv, hyu, hyv, huv⟩ := nodup_join.mp hnuv
  refine h.exchange hctx hroot ?_ ?_ ?_
  · rw [at_join, hy]
    refine ⟨rfl, rfl, by simpa using hdatay, at_join.mpr ?_, ?_⟩
    · have hchild : ({ (m x).setChild s.other u.root with parent := some y } : Cell α β).child s = (m x).child s ∧
          ({ (m x).setChild s.other u.root with parent := some y } : Cell α β).child s.other = u.root := by
        cases s <;> exact ⟨rfl, rfl⟩
      have hchildy : ({ (m y).setChild s (some x) with parent := top ctx } : Cell α β).child s = some x := by
        cases s <;> rfl
      rw [hx, hchildy, hchild.1, hchild.2]
      refine ⟨rfl, rfl, by simpa using hdatax, hatt.congr fun z hz => hrest z (List.mem_append_left _ hz), ?_⟩
      rw [← hatu.eq_root]
      exact hatu.reparent hnu hu
    · have hchildy : ({ (m y).setChild s (some x) with parent := top ctx } : Cell α β).child s.other =
          (m y).child s.other := by
        cases s <;> rfl
      rw [hchildy]
      exact hatv.congr fun z hz => hrest z (List.mem_append_right _ hz)
  · simp only [nodup_join, mem_join] at hxuv hdisj ⊢
    grind
  · intro z hz
    refine hout z ?_
    simp only [mem_join] at hz ⊢
    tauto

/-- A node with one child leaves its place to it. -/
theorem Stands.cut (h : Stands m root (plug ctx (join s .nil x b u)))
    (hctx : ∀ z ∈ around ctx, m' z = (relink ctx u.root m root).1 z) (hroot : root' = (relink ctx u.root m root).2)
    (hu : ∀ z ∈ u.nodes, m' z = if u.root = some z then { m z with parent := top ctx } else m z) :
    Stands m' root' (plug ctx u) := by
  obtain ⟨p, -, hat, hnodup, -, hout⟩ := stands_plug.mp h
  obtain ⟨-, -, -, -, hatu⟩ := at_join.mp hat
  obtain ⟨-, hnu, -⟩ := nodup_join.mp hnodup
  refine h.exchange hctx hroot ?_ hnu fun z hz => hout z (by simp [hz])
  rw [← hatu.eq_root]
  exact hatu.reparent hnu hu

/-- A node that is not in the tree takes the place of one that is. -/
theorem Stands.rename (h : Stands m root (plug ctx (.node t x b u))) (hfresh : y ∉ (plug ctx (.node t x b u)).nodes)
    (hctx : ∀ z ∈ around ctx, m' z = (relink ctx (some y) m root).1 z)
    (hroot : root' = (relink ctx (some y) m root).2) (hy : m' y = m x)
    (ht : ∀ z ∈ t.nodes, m' z = if t.root = some z then { m z with parent := some y } else m z)
    (hu : ∀ z ∈ u.nodes, m' z = if u.root = some z then { m z with parent := some y } else m z) :
    Stands m' root' (plug ctx (.node t y b u)) := by
  obtain ⟨p, -, hat, hnodup, -, hout⟩ := stands_plug.mp h
  obtain ⟨-, hparent, hdata, hatt, hatu⟩ := hat
  have hn := nodup_join (s := .left).mp hnodup
  simp only [nodes_plug, nodes_node, List.mem_append, List.mem_cons, not_or] at hfresh
  refine h.exchange hctx hroot ⟨rfl, ?_, ?_, ?_, ?_⟩ ?_ ?_
  · rw [hy, hparent]
  · rw [hy, hdata]
  · rw [hy]
    exact hatt.reparent hn.1 ht
  · rw [hy]
    exact hatu.reparent hn.2.1 hu
  · have hy : y ∉ t.nodes ∧ y ∉ u.nodes := by tauto
    exact nodup_join (s := .left).mpr ⟨hn.1, hn.2.1, hy.1, hy.2, hn.2.2.2.2⟩
  · intro z hz
    obtain hz | rfl | hz := by simpa using hz
    · exact hout z (by simp [hz])
    · simp only [around, List.mem_append]
      tauto
    · exact hout z (by simp [hz])

/-- A place without a tree gets a node. -/
theorem Stands.attach (h : Stands m root (plug ctx .nil)) (hfresh : y ∉ around ctx)
    (hctx : ∀ z ∈ around ctx, m' z = (relink ctx (some y) m root).1 z)
    (hroot : root' = (relink ctx (some y) m root).2) (hy : m' y = ⟨none, none, top ctx, b⟩) :
    Stands m' root' (plug ctx (.node .nil y b .nil)) := by
  refine h.exchange hctx hroot ⟨rfl, ?_, ?_, ?_, ?_⟩ (by simp) (by simpa using hfresh) <;> simp [hy, At]

theorem relink_congr (hm : ∀ z ∈ around ctx, m' z = m z) (hz : x ∈ around ctx) :
    (relink ctx q m' root).1 x = (relink ctx q m root).1 x := by
  cases ctx with
  | nil => cases hz
  | cons f ctx =>
    by_cases hx : x = f.x
    · subst hx
      simp [relink, hm f.x (by simp)]
    · simp [relink, Function.update_of_ne hx, hm x hz]

theorem relink_root : (relink ctx q m' root).2 = (relink ctx q m root).2 := by cases ctx <;> rfl

end

end Wenas.Trees
