import Wenas.Xmalloc.Layout

/-!
# The order of the queue

`free_pointer` puts a block at the front of the queue when it is at least as large as the first one there, and `malloc`
looks at the first one only.
-/
namespace Wenas.Xmalloc
open Wenas.Links

/-! ### The first one is the largest -/

/-- No element is larger than the first one. -/
def Peak (size : Nat → Nat) : List Nat → Prop
  | [] => True
  | p :: ps => ∀ q ∈ ps, size q ≤ size p

instance (size : Nat → Nat) : (l : List Nat) → Decidable (Peak size l)
  | [] => .isTrue trivial
  | _ :: ps => inferInstanceAs (Decidable (∀ q ∈ ps, _))

variable {size size' : Nat → Nat} {l r : List Nat} {p q : Nat}

theorem Peak.congr (h : Peak size l) (hsize : ∀ q ∈ l, size' q = size q) : Peak size' l := by
  cases l with
  | nil => trivial
  | cons p ps =>
    intro q hq
    rw [hsize q (List.mem_cons_of_mem _ hq), hsize p List.mem_cons_self]
    exact h q hq

theorem Peak.head_le (h : Peak size (p :: l)) (hq : q ∈ p :: l) : size q ≤ size p := by
  obtain rfl | hq := List.mem_cons.mp hq
  · exact le_rfl
  · exact h q hq

/-- An element leaves; if it is the first one, the rest has to start with its largest. -/
theorem Peak.erase (h : Peak size l) (hfirst : l.head? = some q → Peak size l.tail) : Peak size (l.erase q) := by
  cases l with
  | nil => trivial
  | cons p ps =>
    by_cases hpq : p = q
    · subst hpq
      rw [List.erase_cons_head]
      exact hfirst rfl
    · rw [List.erase_cons_tail (by simpa using hpq)]
      exact fun x hx => h x (List.mem_of_mem_erase hx)

/-- The first one of a list is the first one of each part that it is in. -/
theorem head_of_sublist (hsub : r.Sublist (p :: l)) (hnodup : (p :: l).Nodup) (hp : p ∈ r) : r.head? = some p := by
  cases hsub with
  | cons _ hsub => exact absurd (hsub.subset hp) (List.nodup_cons.mp hnodup).1
  | cons_cons => rfl

/-- An element that takes the place of others, no larger than itself, is put first or last. -/
theorem Peak.insert (h : Peak size l) (hnodup : l.Nodup) (hsub : r.Sublist l)
    (hgone : ∀ q ∈ l, q ∉ r → size q ≤ size' p) (hsame : ∀ q ∈ r, size' q = size q) :
    ((∀ q ∈ r.head?, size' q ≤ size' p) → Peak size' (p :: r)) ∧
      ((∃ q ∈ r.head?, size' p < size' q) → Peak size' (r ++ [p])) := by
  cases l with
  | nil =>
    obtain rfl := List.sublist_nil.mp hsub
    exact ⟨fun _ _ hq => absurd hq List.not_mem_nil, fun ⟨_, hq, _⟩ => absurd hq (by simp)⟩
  | cons x xs =>
    have hle : ∀ q ∈ r, size' q ≤ size x := by
      intro q hq
      rw [hsame q hq]
      exact h.head_le (hsub.subset hq)
    by_cases hx : x ∈ r
    · have hhead := head_of_sublist hsub hnodup hx
      refine ⟨fun hfirst q hq => ?_, fun ⟨y, hy, hlt⟩ => ?_⟩
      · have hfirst := hfirst x hhead
        rw [hsame x hx] at hfirst
        exact (hle q hq).trans hfirst
      · rw [hhead, Option.mem_some_iff] at hy
        subst hy
        obtain ⟨ys, rfl⟩ := List.head?_eq_some_iff.mp hhead
        intro q hq
        obtain hq | hq := List.mem_append.mp hq
        · rw [hsame x hx]
          exact hle q (List.mem_cons_of_mem _ hq)
        · rw [List.mem_singleton.mp hq]
          exact hlt.le
    · have hgone := hgone x List.mem_cons_self hx
      refine ⟨fun _ q hq => (hle q hq).trans hgone, fun ⟨y, hy, hlt⟩ => ?_⟩
      have hy := hle y (List.mem_of_mem_head? hy)
      omega

/-! ### The queue in memory -/

variable [Build]

/-- The links from `p` to `stop`. -/
def follow (m : Mem) (stop : Nat) : Nat → Nat → List Nat
  | 0, _ => []
  | turns + 1, p => if p = stop then [] else p :: follow m stop turns (m.get p .next)

/-- The blocks in the queue. A page has fewer of them than there are addresses before its end. -/
def Page.queue (pg : Page) : List Nat := follow pg.mem pg.end_ pg.end_ (pg.mem.get pg.head .next)

def Page.sizeAt (pg : Page) (p : Nat) : Nat := pg.mem.get p .size

/-- No block in the queue is larger than the first one. -/
def Page.Peaked (pg : Page) : Prop := Peak pg.sizeAt pg.queue

/-- The block that `free_pointer` takes out of the queue for the current one. -/
def Page.leaving (pg : Page) (ptr : Nat) : Option Nat :=
  let m := pg.mem
  if nextPointer m ptr = pg.ptr then if mergeable m ptr then some (prevPointer m ptr) else none
  else if nextPointer m pg.ptr = ptr then
    if mergeable m (nextPointer m (nextPointer m ptr)) then some (nextPointer m ptr) else none
  else none

/-- The current block does not take the first one of the queue while the second one is smaller than another. -/
def Page.FreeKeeps (pg : Page) (ptr : Nat) : Prop :=
  ∀ p ∈ pg.leaving ptr, pg.queue.head? = some p → Peak pg.sizeAt pg.queue.tail

/-- When the first block of the queue becomes the current one, the second one is no smaller than another, nor than the
block that was the current one. -/
def Page.MallocKeeps (pg : Page) (n : Nat) : Prop :=
  pg.mem.get pg.ptr .size < wrap (req2align n + freePointerSize) →
    wrap (req2align n + freePointerSize) < pg.mem.get (pg.mem.get pg.head .next) .size →
      Peak pg.sizeAt (pg.queue.tail ++ [pg.ptr])

instance (pg : Page) : Decidable pg.Peaked := inferInstanceAs (Decidable (Peak ..))

instance (pg : Page) (ptr : Nat) : Decidable (pg.FreeKeeps ptr) := by
  delta Page.FreeKeeps
  infer_instance

instance (pg : Page) (n : Nat) : Decidable (pg.MallocKeeps n) := by
  delta Page.MallocKeeps
  infer_instance

theorem Page.peaked_of {pg : Page} {size : Nat → Nat} {order : List Nat} (hqueue : pg.queue = order)
    (h : Peak size order)
    (hsize : ∀ q ∈ order, pg.sizeAt q = size q) : pg.Peaked := by
  rw [Page.Peaked, hqueue]
  exact h.congr hsize

/-- Nothing is put into the queue, and at most the leaving block is taken out. -/
theorem Page.Peaked.left {pg pg' : Page} {ptr : Nat} {order : List Nat} (h : pg.Peaked) (hkeeps : pg.FreeKeeps ptr)
    (hqueue : pg'.queue = order) (horder : order = pg.queue ∨ ∃ p ∈ pg.leaving ptr, order = pg.queue.erase p)
    (hsize : ∀ q ∈ order, pg'.sizeAt q = pg.sizeAt q) : pg'.Peaked := by
  refine Page.peaked_of hqueue ?_ hsize
  obtain rfl | ⟨p, hp, rfl⟩ := horder
  · exact h
  · exact h.erase (hkeeps p hp)

theorem follow_eq {m : Mem} {a stop turns : Nat} {prev : Nat → Nat} {order : List Nat}
    (h : Linked (fun p => m.get p .next) prev a order stop) (hstop : stop ∉ order) (hturns : order.length ≤ turns) :
    follow m stop turns (m.get a .next) = order := by
  induction order generalizing a turns with
  | nil =>
    have hnext : m.get a .next = stop := h.1
    rw [hnext]
    cases turns with
    | zero => rfl
    | succ turns => rw [follow, if_pos rfl]
  | cons b order ih =>
    have hnext : m.get a .next = b := h.1
    cases turns with
    | zero => exact absurd hturns (by simp)
    | succ turns =>
      have hne : b ≠ stop := by
        rintro rfl
        exact hstop List.mem_cons_self
      rw [hnext, follow, if_neg hne]
      rw [ih h.2.2 (fun hmem => hstop (List.mem_cons_of_mem _ hmem)) (by simpa using hturns)]

/-- The order of a layout is what the links in memory lead over. -/
theorem Layout.follow_eq {g : Bound} {m : Mem} {bs : List Blk} {order cur : List Nat} {next : Nat → Nat}
    (h : Layout g m bs order cur next) : follow m g.end_ g.end_ (m.get g.head .next) = order := by
  have hnodup := h.queue_nodup
  have hlength : order.length ≤ bs.length := by
    rw [h.queued.length_eq, addrsOf, List.length_map]
    exact List.length_filter_le ..
  have hle := h.tiled.length_le
  refine Xmalloc.follow_eq h.queue ?_ (by omega)
  intro hmem
  rw [List.nodup_append] at hnodup
  exact hnodup.2.2 _ (List.mem_cons_of_mem _ hmem) _ (by simp) rfl

end Wenas.Xmalloc
