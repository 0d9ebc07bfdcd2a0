import Wenas.Xmalloc.Joins

/-!
# The writes of `free_pointer` and `malloc`

The writes of each branch make the changes that `Joins.lean` is about.
-/
namespace Wenas.Xmalloc
open Wenas.Links

variable [Build]

variable {g : Bound} {m m' : Mem} {bs l r : List Blk} {order order' cur : List Nat} {next : Nat → Nat}
  {a c z p q : Nat} {b x y : Blk} {f : Field}

theorem Layout.apart (h : Layout g m bs order cur next) : Apart (heads bs g.end_) := h.tiled.apart

/-- The size of two neighbours together is no more than the page. -/
theorem Layout.wrap_add (h : Layout g m (l ++ x :: y :: r) order cur next) :
    wrap (m.get x.addr .size + m.get y.addr .size) = x.size + y.size ∧ x.stop = y.addr ∧
      x.addr + (x.size + y.size) = y.stop ∧ y.stop < 2 ^ 64 := by
  have hpos := free_size_pos
  have hspace := h.space
  obtain ⟨a, hl, rfl, -, -, hy, -, -, hrest⟩ := tiled_append.mp h.tiled
  have hto := hrest.bounds.1
  have hstop : x.addr + (x.size + y.size) = y.stop := by
    rw [Blk.stop, hy, Blk.stop, Nat.add_assoc]
  refine ⟨?_, hy.symm, hstop, by omega⟩
  rw [h.sizes x (by simp), h.sizes y (by simp), wrap, Nat.mod_eq_of_lt (by omega)]

/-! ### The block before -/

/-- `growPrev`, and the mark behind when it is made. -/
theorem Layout.grown_get (h : Layout g m (l ++ x :: y :: r) order cur next) (hx : x.isFree) (marked : Bool)
    (hp : p ∈ heads (l ++ x :: y :: r) g.end_) :
    (if marked then markNext (growPrev m y.addr) x.addr else growPrev m y.addr).get p f =
      if f = .size ∧ p = x.addr then x.size + y.size
      else if f = .flag ∧ p = y.stop ∧ marked then x.size + y.size else m.get p f := by
  obtain ⟨hsum, hstop, hend, hlt⟩ := h.wrap_add
  have hmem : x.addr ∈ heads (l ++ x :: y :: r) g.end_ := mem_heads (by simp)
  have hprev : prevPointer m y.addr = x.addr := by
    rw [← hstop]
    exact h.prevPointer_eq (by simp) hx
  have hgrow : ∀ p ∈ heads (l ++ x :: y :: r) g.end_, ∀ f, (growPrev m y.addr).get p f =
      if f = .size ∧ p = x.addr then x.size + y.size else m.get p f := by
    intro p hp f
    rw [growPrev, hprev, hsum, get_put h.apart hmem hp]
    simp only [and_comm]
  have hsize : (growPrev m y.addr).get x.addr .size = x.size + y.size := by
    rw [hgrow _ hmem, if_pos ⟨rfl, rfl⟩]
  have hnext : nextPointer (growPrev m y.addr) x.addr = y.stop := by
    rw [nextPointer, hsize, hend, wrap, Nat.mod_eq_of_lt hlt]
  cases marked with
  | false =>
    rw [if_neg (by simp), hgrow p hp]
    simp
  | true =>
    rw [if_pos rfl, markNext_get h.apart (by rw [hnext]; exact h.tiled.stop_mem (by simp)) hp, hnext, hsize, hgrow p hp]
    cases f <;> simp

/-- The queue without one of its blocks. -/
theorem Layout.erase_order (h : Layout g m bs (order ++ q :: order') cur next) :
    (order ++ q :: order').erase q = order ++ order' := by
  have hnodup := h.queue_nodup
  have hq : q ∉ order := by
    have horder := (List.nodup_cons.mp (List.nodup_append.mp hnodup).1).2
    intro hmem
    exact (List.nodup_append.mp horder).2.2 q hmem q List.mem_cons_self rfl
  rw [List.erase_append_right _ hq, List.erase_cons_head]

/-- The block before is merged in when it is free. -/
theorem Layout.mergeBefore (h : Layout g m (l ++ x :: r) order cur next) (hx : x.kind = .opened)
    (hl : ∀ b ∈ l.getLast?, b.kind ≠ .current ∧ b.kind ≠ .opened) (marked : Bool) :
    ∃ l' x' order', Layout g (Xmalloc.mergeBefore marked m x.addr).1 (l' ++ x' :: r) order' cur next ∧
      (Xmalloc.mergeBefore marked m x.addr).2 = x'.addr ∧ x'.kind = .opened ∧ lives l' = lives l ∧
      (∀ b ∈ l'.getLast?, ¬ b.isFree) ∧ (∀ b ∈ l', b ∈ l) ∧
      (order' = order ∧ x'.size = x.size ∨
        ∃ w ∈ l.getLast?, w.isFree ∧ order' = order.erase w.addr ∧ x'.size = w.size + x.size) := by
  obtain rfl | ⟨l, w, rfl⟩ := l.eq_nil_or_concat'
  · exact absurd rfl (h.front_ne (by simp [hx]))
  have h' : Layout g m (l ++ w :: x :: r) order cur next := by simpa using h
  have hw : w ∈ (l ++ [w]).getLast? := by simp
  obtain ⟨hsum, hstop, hend, hlt⟩ := h'.wrap_add
  have hmergeable : mergeable m x.addr = w.isFree := by
    rw [← hstop]
    exact h'.mergeable_eq (by simp) (hl w hw).2
  rw [Xmalloc.mergeBefore, hmergeable]
  cases hfree : w.isFree with
  | false => exact ⟨l ++ [w], x, order, by simpa using h, rfl, hx, rfl, by simp [hfree], fun _ => id, .inl ⟨rfl, rfl⟩⟩
  | true =>
    have hqueued : w.kind = .queued := by
      obtain ⟨hcurrent, -⟩ := hl w hw
      revert hcurrent hfree
      rw [Blk.isFree]
      cases w.kind <;> simp [Kind.isFree]
    obtain ⟨o, o', rfl⟩ := List.append_of_mem (h'.mem_order.mpr ⟨w, by simp, hqueued, rfl⟩)
    obtain ⟨-, -, hbetween⟩ := settled_append_cons.mp h'.settled
    have hapart := h'.apart
    have hwmem : w.addr ∈ heads (l ++ w :: x :: r) g.end_ := mem_heads (by simp)
    have hxmem : x.addr ∈ heads (l ++ w :: x :: r) g.end_ := mem_heads (by simp)
    have hflag : (growPrev m x.addr).get x.addr .flag = m.get x.addr .flag := by
      have hget := h'.grown_get (f := .flag) hfree false hxmem
      simpa using hget
    have hprev : prevPointer (growPrev m x.addr) x.addr = w.addr := by
      rw [prevPointer, hflag, ← hstop]
      exact h'.prevPointer_eq (by simp) hfree
    have hget := fun p hp f => h'.grown_get (f := f) (p := p) hfree marked hp
    simp only [if_true, hprev]
    generalize (if marked then markNext (growPrev m x.addr) w.addr else growPrev m x.addr) = m₁ at hget ⊢
    have hnext₁ : m₁.get w.addr .next = m.get w.addr .next := by simpa using hget _ hwmem .next
    have hprev₁ : m₁.get w.addr .prev = m.get w.addr .prev := by simpa using hget _ hwmem .prev
    obtain ⟨haround, haround'⟩ := h'.around
    have hout : ∀ p ∈ heads (l ++ w :: x :: r) g.end_, ∀ f, (takeOut m₁ w.addr).get p f =
        if f = .next ∧ p = m.get w.addr .prev then m.get w.addr .next
        else if f = .prev ∧ p = m.get w.addr .next then m.get w.addr .prev else m₁.get p f := by
      intro p hp f
      rw [takeOut_get hapart hwmem _ _ hp, hnext₁, hprev₁]
      · rw [hnext₁]
        refine h'.linked_mem ?_
        simp only [List.mem_cons, List.mem_append] at haround' ⊢
        tauto
      · rw [hprev₁]
        refine h'.linked_mem ?_
        simp only [List.mem_cons, List.mem_append] at haround ⊢
        tauto
    have hmerge : Layout g (takeOut m₁ w.addr) (l ++ ⟨w.addr, w.size + x.size, .opened⟩ :: r) (o ++ o') cur next := by
      apply h'.merge (.inr ⟨hqueued, hx, rfl⟩)
      · intro p hp
        rw [hout p hp, hget p hp]
        simp
      · intro p hp hpz
        rw [hout p hp, hget p hp]
        simp [hpz]
      · intro p hp
        rw [hout p hp, hget p hp]
        simp
      · intro p hp
        rw [hout p hp, hget p hp]
        simp
    refine ⟨l, _, _, hmerge, rfl, rfl, ?_, (hbetween hfree).before, fun b hb => List.mem_append_left _ hb,
      .inr ⟨w, hw, hfree, h'.erase_order.symm, rfl⟩⟩
    simp [hqueued]

/-- The block behind is merged in when it is free. -/
theorem Layout.mergeAfter (h : Layout g m (l ++ x :: y :: r) order cur next) (hx : x.kind = .opened)
    (hy : y.kind ≠ .current ∧ y.kind ≠ .opened) :
    ∃ x' r' order', Layout g (Xmalloc.mergeAfter m x.addr) (l ++ x' :: r') order' cur next ∧ x'.addr = x.addr ∧
      x'.kind = .opened ∧ lives r' = lives (y :: r) ∧ (∀ b ∈ r'.head?, ¬ b.isFree) ∧ (∀ b ∈ r', b ∈ y :: r) ∧
      (order' = order ∧ x'.size = x.size ∨
        y.isFree ∧ order' = order.erase y.addr ∧ x'.size = x.size + y.size) := by
  obtain ⟨hsum, hstop, hend, hlt⟩ := h.wrap_add
  have hxnext : nextPointer m x.addr = y.addr := (h.nextPointer_eq (by simp)).trans hstop
  have hynext : nextPointer m y.addr = y.stop := h.nextPointer_eq (by simp)
  have hmergeable : mergeable m y.stop = y.isFree := h.mergeable_eq (by simp) hy.2
  rw [Xmalloc.mergeAfter, hxnext, hynext, hmergeable]
  cases hfree : y.isFree with
  | false => exact ⟨x, y :: r, order, by simpa using h, rfl, hx, rfl, by simp [hfree], fun _ => id, .inl ⟨rfl, rfl⟩⟩
  | true =>
    have hqueued : y.kind = .queued := by
      obtain ⟨hcurrent, -⟩ := hy
      revert hcurrent hfree
      rw [Blk.isFree]
      cases y.kind <;> simp [Kind.isFree]
    obtain ⟨o, o', rfl⟩ := List.append_of_mem (h.mem_order.mpr ⟨y, by simp, hqueued, rfl⟩)
    have hcons : Settled ((l ++ [x]) ++ y :: r) := by simpa using h.settled
    obtain ⟨-, -, hbetween⟩ := settled_append_cons.mp hcons
    obtain ⟨haround, haround'⟩ := h.around
    have hget : ∀ p ∈ heads (l ++ x :: y :: r) g.end_, ∀ f, (mergeNext m x.addr).get p f =
        if f = .size ∧ p = x.addr then x.size + y.size
        else if f = .next ∧ p = m.get y.addr .prev then m.get y.addr .next
        else if f = .prev ∧ p = m.get y.addr .next then m.get y.addr .prev else m.get p f := by
      intro p hp f
      rw [mergeNext_get h.apart (mem_heads (by simp)) _ _ _ hp, hxnext, hsum]
      · rw [hxnext]
        exact mem_heads (by simp)
      · rw [hxnext]
        refine h.linked_mem ?_
        simp only [List.mem_cons, List.mem_append] at haround' ⊢
        tauto
      · rw [hxnext]
        refine h.linked_mem ?_
        simp only [List.mem_cons, List.mem_append] at haround ⊢
        tauto
    have hmerge : Layout g (mergeNext m x.addr) (l ++ ⟨x.addr, x.size + y.size, .opened⟩ :: r) (o ++ o') cur next := by
      apply h.merge (.inl ⟨hx, hqueued, rfl⟩)
      · intro p hp
        rw [hget p hp]
        simp
      · intro p hp hpz
        rw [hget p hp]
        simp
      · intro p hp
        rw [hget p hp]
        simp
      · intro p hp
        rw [hget p hp]
        simp
    refine ⟨_, r, _, hmerge, rfl, rfl, ?_, (hbetween hfree).behind, fun b hb => List.mem_cons_of_mem _ hb,
      .inr ⟨rfl, h.erase_order.symm, rfl⟩⟩
    simp [hqueued]

/-! ### The current block -/

/-- The writes that make the current block and its neighbour one. -/
theorem Layout.joined (h : Layout g m (l ++ x :: y :: r) order [c] next)
    (hkinds : x.kind = .opened ∧ y.kind = .current ∨ x.kind = .current ∧ y.kind = .opened) (hfree : Between l r) :
    Layout g (markNext (m.put x.addr .size (wrap (m.get x.addr .size + m.get y.addr .size))) x.addr)
      (l ++ ⟨x.addr, x.size + y.size, .current⟩ :: r) order [x.addr] next := by
  obtain ⟨hsum, hstop, hend, hlt⟩ := h.wrap_add
  rw [hsum]
  have hmem : x.addr ∈ heads (l ++ x :: y :: r) g.end_ := mem_heads (by simp)
  have hput : ∀ p ∈ heads (l ++ x :: y :: r) g.end_, ∀ f, (m.put x.addr .size (x.size + y.size)).get p f =
      if f = .size ∧ p = x.addr then x.size + y.size else m.get p f := by
    intro p hp f
    rw [get_put h.apart hmem hp]
    simp only [and_comm]
  have hsize : (m.put x.addr .size (x.size + y.size)).get x.addr .size = x.size + y.size := by
    rw [hput _ hmem, if_pos ⟨rfl, rfl⟩]
  have hnext : nextPointer (m.put x.addr .size (x.size + y.size)) x.addr = y.stop := by
    rw [nextPointer, hsize, hend, wrap, Nat.mod_eq_of_lt hlt]
  have hget : ∀ p ∈ heads (l ++ x :: y :: r) g.end_, ∀ f,
      (markNext (m.put x.addr .size (x.size + y.size)) x.addr).get p f = if f = .flag ∧ p = y.stop then x.size + y.size
        else if f = .size ∧ p = x.addr then x.size + y.size else m.get p f := by
    intro p hp f
    rw [markNext_get h.apart (by rw [hnext]; exact h.tiled.stop_mem (by simp)) hp, hnext, hsize, hput p hp]
  apply h.join hkinds hfree
  · intro p hp
    rw [hget p hp]
    simp
  · intro p hp
    rw [hget p hp]
    simp
  · intro p hp
    rw [hget p hp]
    simp
  · intro p hp
    rw [hget p hp]
    simp

/-! ### The queue -/

/-- The writes that put the block that was being freed between two neighbours of the queue. -/
theorem Layout.putIn_eq (h : Layout g m (l ++ x :: r) order cur next) (hx : x.kind = .opened)
    (ha : a ∈ g.head :: order ++ [g.end_]) (hc : c ∈ g.head :: order ++ [g.end_])
    (hp : p ∈ heads (l ++ x :: r) g.end_) :
    (putIn m x.addr a c).get p f = if f = .next ∧ p = a then x.addr else if f = .prev ∧ p = c then x.addr
      else if f = .next ∧ p = x.addr then c else if f = .prev ∧ p = x.addr then a else m.get p f := by
  refine putIn_get h.apart (mem_heads (by simp)) (h.linked_mem ha) (h.linked_mem hc) ?_ hp
  rintro rfl
  exact h.not_linked (by simp) (by simp [hx]) (by simp [hx]) hc

/-- What holds at either end of the queue. -/
theorem Layout.pushed (h : Layout g m (l ++ x :: r) order cur next) (hx : x.kind = .opened) (hfree : Between l r)
    (ha : a ∈ g.head :: order) (hc : c ∈ order ++ [g.end_])
    (hget : ∀ p ∈ heads (l ++ x :: r) g.end_, ∀ f, m'.get p f = if f = .flag ∧ p = x.stop then x.size
      else (putIn m x.addr a c).get p f)
    (hqueue : x.addr ∉ g.head :: order ++ [g.end_] →
      (∀ p ∈ g.head :: x.addr :: order, m'.get p .next = if p = a then x.addr else if p =
        x.addr then c else m.get p .next) →
      (∀ p ∈ x.addr :: order ++ [g.end_],
        m'.get p .prev = if p = c then x.addr else if p = x.addr then a else m.get p .prev) →
      Linked (fun p => m'.get p .next) (fun p => m'.get p .prev) g.head order' g.end_)
    (hperm : order'.Perm (x.addr :: order)) :
    Layout g m' (l ++ { x with kind := .queued } :: r) order' cur next := by
  have ha' := List.mem_append_left [g.end_] ha
  have hput : ∀ p ∈ heads (l ++ x :: r) g.end_, ∀ f, m'.get p f = if f = .flag ∧ p = x.stop then x.size
      else if f = .next ∧ p = a then x.addr else if f = .prev ∧ p = c then x.addr
      else if f = .next ∧ p = x.addr then c else if f = .prev ∧ p = x.addr then a else m.get p f := by
    intro p hp f
    rw [hget p hp, h.putIn_eq hx ha' (List.mem_cons_of_mem _ hc) hp]
  have hmem : ∀ p ∈ x.addr :: (g.head :: order ++ [g.end_]), p ∈ heads (l ++ x :: r) g.end_ := by
    intro p hp
    obtain rfl | hp := List.mem_cons.mp hp
    · exact mem_heads (by simp)
    · exact h.linked_mem hp
  apply h.close hx hfree
  · intro p hp
    rw [hput p hp]
    simp
  · intro p hp
    rw [hput p hp]
    simp
  · apply hqueue (h.not_linked (by simp) (by simp [hx]) (by simp [hx]))
    · intro p hp
      rw [hput p (hmem p (by simp only [List.mem_cons, List.mem_append] at hp ⊢; tauto))]
      simp
    · intro p hp
      rw [hput p (hmem p (by simp only [List.mem_cons, List.mem_append] at hp ⊢; tauto))]
      simp
  · exact hperm
  · intro b hb hlive
    have hne : b.addr ≠ x.addr := by
      intro heq
      rw [h.tiled.addr_inj hb (by simp) heq, hx] at hlive
      exact absurd hlive (by simp)
    rw [hput _ (mem_heads hb)]
    simp [h.live_ne hb hlive ha', hne]

/-- The writes that put it at the end of the queue. -/
theorem Layout.pushBack (h : Layout g m (l ++ x :: r) order cur next) (hx : x.kind = .opened) (hfree : Between l r)
    (hget : ∀ p ∈ heads (l ++ x :: r) g.end_, ∀ f, m'.get p f = if f = .flag ∧ p = x.stop then x.size
      else (putIn m x.addr (m.get g.end_ .prev) g.end_).get p f) :
    Layout g m' (l ++ { x with kind := .queued } :: r) (order ++ [x.addr]) cur next := by
  have hnodup := h.queue_nodup
  apply h.pushed hx hfree h.prev_end_mem (by simp) hget
  · intro hxlinked hnext hprev
    apply h.queue.pushBack (hnodup.sublist (List.sublist_append_left ..)) (List.nodup_cons.mp hnodup).2 hxlinked
    · intro p hp
      exact hnext p (by simp only [List.mem_cons, List.mem_append] at hp ⊢; tauto)
    · intro p hp
      exact hprev p (by simp only [List.mem_cons, List.mem_append] at hp ⊢; tauto)
  · exact List.perm_append_singleton ..

/-- The writes that put it at the front. -/
theorem Layout.pushFront (h : Layout g m (l ++ x :: r) order cur next) (hx : x.kind = .opened) (hfree : Between l r)
    (hget : ∀ p ∈ heads (l ++ x :: r) g.end_, ∀ f, m'.get p f = if f = .flag ∧ p = x.stop then x.size
      else (putIn m x.addr g.head (m.get g.head .next)).get p f) :
    Layout g m' (l ++ { x with kind := .queued } :: r) (x.addr :: order) cur next := by
  have hnodup := h.queue_nodup
  apply h.pushed hx hfree (by simp) h.next_head_mem hget
  · intro hxlinked hnext hprev
    exact h.queue.pushFront (hnodup.sublist (List.sublist_append_left ..))
      (List.nodup_cons.mp hnodup).2 hxlinked hnext hprev
  · exact List.Perm.refl _

end Wenas.Xmalloc
