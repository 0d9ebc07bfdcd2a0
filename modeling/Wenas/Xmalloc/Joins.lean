import Wenas.Xmalloc.Layout

/-!
# Joins and cuts

What each step of the allocator does to the layout, for any memory that differs from the old one as the step says.
-/
namespace Wenas.Xmalloc
open Wenas.Links

variable [Build]

variable {g : Bound} {m m' : Mem} {bs l r : List Blk} {order order' cur : List Nat} {next : Nat → Nat}
  {a c z p q : Nat} {b x y : Blk}

theorem Layout.front_ne (h : Layout g m (l ++ b :: r) order cur next) (hkind : b.kind ≠ .sentinel) : l ≠ [] := by
  rintro rfl
  have hfirst := h.first
  rw [List.nil_append, List.head?_cons, Option.some_inj] at hfirst
  rw [hfirst] at hkind
  exact hkind rfl

/-- The addresses around the blocks in the middle. -/
theorem Layout.middle {mid : List Blk} (h : Layout g m (l ++ (mid ++ r)) order cur next) :
    ∃ a z, Tiled g.head l a ∧ Tiled a mid z ∧ Tiled z r g.end_ := by
  obtain ⟨a, hl, hmr⟩ := tiled_append.mp h.tiled
  obtain ⟨z, hmid, hr⟩ := tiled_append.mp hmr
  exact ⟨a, z, hl, hmid, hr⟩

/-- The other headers are outside of the blocks in the middle. -/
theorem Tiled.heads_around (mid : List Blk) (hl : Tiled g.head l a) (hr : Tiled z r g.end_) (hlt : a < z)
    (hp : p ∈ heads (l ++ r) g.end_) : p ∈ heads (l ++ (mid ++ r)) g.end_ ∧ (p < a ∨ z ≤ p) := by
  have hpos := free_size_pos
  obtain hp | hp := List.mem_append.mp hp
  · obtain ⟨b, hb, rfl⟩ := List.mem_map.mp hp
    refine ⟨mem_heads ?_, ?_⟩
    · simp only [List.mem_append] at hb ⊢
      tauto
    · obtain ⟨hout, -, hne⟩ := hl.outside hr hlt hb
      rw [Blk.stop] at hout
      omega
  · rw [List.mem_singleton.mp hp]
    exact ⟨end_mem_heads, .inr hr.bounds.1⟩

theorem Layout.live_ne (h : Layout g m bs order cur next) (hb : b ∈ bs) (hlive : b.kind = .live)
    (hp : p ∈ g.head :: order ++ [g.end_]) : b.addr ≠ p := by
  rintro rfl
  exact h.not_linked hb (by simp [hlive]) (by simp [hlive]) hp

/-- The page has one current block. -/
theorem Layout.sole (h : Layout g m (l ++ b :: r) order [p] next) (hb : b.kind = .current) :
    addrsOf .current l = [] ∧ b.addr = p ∧ addrsOf .current r = [] := by
  have hcurrent := h.current
  rw [addrsOf_append, addrsOf_cons, if_pos hb] at hcurrent
  cases hl : addrsOf .current l with
  | nil =>
    rw [hl] at hcurrent
    obtain ⟨hp, hr⟩ := List.cons.inj hcurrent
    exact ⟨rfl, hp, hr⟩
  | cons c cs =>
    rw [hl] at hcurrent
    exact absurd (List.cons.inj hcurrent).2 (by simp)

/-- A block is being freed, or is not the current one any more. -/
theorem Layout.reopen (h : Layout g m (l ++ b :: r) order cur next) (hkind : b.kind = .live ∨ b.kind = .current) :
    Layout g m (l ++ { b with kind := .opened } :: r) order (addrsOf .current (l ++ r)) next := by
  have h' : Layout g m (l ++ ([b] ++ r)) order cur next := h
  obtain ⟨a, z, hl, hmid, hr⟩ := h'.middle
  have hne : l ≠ [] := h.front_ne (by obtain hk | hk := hkind <;> simp [hk])
  obtain ⟨hsl, hsr, -⟩ := settled_append_cons.mp h.settled
  have hnew : Layout g m (l ++ ([{ b with kind := .opened }] ++ r)) order (addrsOf .current (l ++ r)) next := by
    apply h'.replace hl hr hne (List.cons_ne_nil _ _)
    · exact hmid
    · simp
    · simp
    · exact settled_append_cons.mpr ⟨hsl, hsr, fun hfree => absurd hfree (by simp [Blk.isFree, Kind.isFree])⟩
    · simp
    · have hsize := h.sizes b (by simp)
      simpa using hsize
    · simp
    · simp
    · exact h.queue
    · have hqueued := h.queued
      obtain hk | hk := hkind <;> simpa [hk] using hqueued
    · simp
    · exact h.kept
    · simp
  exact hnew

/-- A queued block and the one that is being freed become one. -/
theorem Layout.merge (h : Layout g m (l ++ x :: y :: r) (order ++ q :: order') cur next)
    (hkinds : x.kind = .opened ∧ y.kind = .queued ∧ y.addr = q ∨ x.kind = .queued ∧ y.kind = .opened ∧ x.addr = q)
    (hsize : ∀ p ∈ heads (l ++ x :: y :: r) g.end_,
      m'.get p .size = if p = x.addr then x.size + y.size else m.get p .size)
    (hflag : ∀ p ∈ heads (l ++ x :: y :: r) g.end_, p ≠ y.stop → m'.get p .flag = m.get p .flag)
    (hnext : ∀ p ∈ heads (l ++ x :: y :: r) g.end_,
      m'.get p .next = if p = m.get q .prev then m.get q .next else m.get p .next)
    (hprev : ∀ p ∈ heads (l ++ x :: y :: r) g.end_,
      m'.get p .prev = if p = m.get q .next then m.get q .prev else m.get p .prev) :
    Layout g m' (l ++ ⟨x.addr, x.size + y.size, .opened⟩ :: r) (order ++ order') cur next := by
  have h' : Layout g m (l ++ ([x, y] ++ r)) (order ++ q :: order') cur next := h
  obtain ⟨a, z, hl, ⟨rfl, hx, hxdvd, hy, hysize, hydvd, rfl⟩, hr⟩ := h'.middle
  have hne : l ≠ [] := h.front_ne (by obtain hk | hk := hkinds <;> simp [hk.1])
  obtain ⟨hsl, hsr, -⟩ := settled_append_cons.mp h.settled
  have hnodup := h.queue_nodup
  have hstop : x.addr + (x.size + y.size) = y.stop := by
    rw [Blk.stop, hy, Blk.stop, Nat.add_assoc]
  have hlt : x.addr < y.stop := by
    have hpos := free_size_pos
    omega
  have hlinked : ∀ p ∈ g.head :: (order ++ q :: order') ++ [g.end_], p ∈ heads (l ++ x :: y :: r) g.end_ :=
    fun p hp => h.linked_mem hp
  have hnew : Layout g m' (l ++ ([⟨x.addr, x.size + y.size, .opened⟩] ++ r)) (order ++ order') cur next := by
    apply h'.replace hl hr hne (List.cons_ne_nil _ _)
    · exact ⟨rfl, hx.trans (Nat.le_add_right ..), hxdvd.add hydvd, hstop⟩
    · simp
    · simp
    · exact settled_append_cons.mpr ⟨hsl, hsr.tail, fun hfree => absurd hfree (by simp [Blk.isFree, Kind.isFree])⟩
    · intro p hp
      obtain ⟨hmem, hout⟩ := hl.heads_around [x, y] hr hlt hp
      rw [hsize p hmem, if_neg (by omega)]
    · have hsum := hsize x.addr (mem_heads (by simp))
      rw [if_pos rfl] at hsum
      simpa using hsum
    · exact hflag
    · simp
    · refine h.queue.unlink (hnodup.sublist (List.sublist_append_left ..)) (List.nodup_cons.mp hnodup).2
        (fun p hp => hnext p (hlinked p ?_)) (fun p hp => hprev p (hlinked p ?_))
      · simp only [List.mem_cons, List.mem_append] at hp ⊢
        tauto
      · simp only [List.mem_cons, List.mem_append] at hp ⊢
        tauto
    · have hqueued := h.queued
      have hperm : (q :: (order ++ order')).Perm (q :: addrsOf .queued (l ++ r)) := by
        refine List.perm_middle.symm.trans (hqueued.trans ?_)
        obtain ⟨hx, hy, rfl⟩ | ⟨hx, hy, rfl⟩ := hkinds
        · simp [hx, hy]
        · simp [hx, hy]
      simpa using hperm.cons_inv
    · have hcurrent := h.current
      obtain ⟨hx, hy, -⟩ | ⟨hx, hy, -⟩ := hkinds <;> simpa [hx, hy] using hcurrent
    · intro b hb hlive
      have hne : b.addr ≠ m.get q .prev := by
        refine h.live_ne hb hlive ?_
        have hmem := h.around.1
        simp only [List.mem_cons, List.mem_append] at hmem ⊢
        tauto
      rw [hnext _ (mem_heads hb), if_neg hne, h.kept b hb hlive]
    · simp
  exact hnew

/-- The current block and the one that is being freed become one. -/
theorem Layout.join (h : Layout g m (l ++ x :: y :: r) order [c] next)
    (hkinds : x.kind = .opened ∧ y.kind = .current ∨ x.kind = .current ∧ y.kind = .opened) (hfree : Between l r)
    (hsize : ∀ p ∈ heads (l ++ x :: y :: r) g.end_,
      m'.get p .size = if p = x.addr then x.size + y.size else m.get p .size)
    (hflag : ∀ p ∈ heads (l ++ x :: y :: r) g.end_,
      m'.get p .flag = if p = y.stop then x.size + y.size else m.get p .flag)
    (hnext : ∀ p ∈ heads (l ++ x :: y :: r) g.end_, m'.get p .next = m.get p .next)
    (hprev : ∀ p ∈ heads (l ++ x :: y :: r) g.end_, m'.get p .prev = m.get p .prev) :
    Layout g m' (l ++ ⟨x.addr, x.size + y.size, .current⟩ :: r) order [x.addr] next := by
  have h' : Layout g m (l ++ ([x, y] ++ r)) order [c] next := h
  obtain ⟨a, z, hl, ⟨rfl, hx, hxdvd, hy, hysize, hydvd, rfl⟩, hr⟩ := h'.middle
  have hne : l ≠ [] := h.front_ne (by obtain hk | hk := hkinds <;> simp [hk.1])
  obtain ⟨hsl, hsr, -⟩ := settled_append_cons.mp h.settled
  have hstop : x.addr + (x.size + y.size) = y.stop := by
    rw [Blk.stop, hy, Blk.stop, Nat.add_assoc]
  have hlt : x.addr < y.stop := by
    have hpos := free_size_pos
    omega
  have hnew : Layout g m' (l ++ ([⟨x.addr, x.size + y.size, .current⟩] ++ r)) order [x.addr] next := by
    apply h'.replace hl hr hne (List.cons_ne_nil _ _)
    · exact ⟨rfl, hx.trans (Nat.le_add_right ..), hxdvd.add hydvd, hstop⟩
    · simp
    · simp
    · exact settled_append_cons.mpr ⟨hsl, hsr.tail, fun _ => hfree⟩
    · intro p hp
      obtain ⟨hmem, hout⟩ := hl.heads_around [x, y] hr hlt hp
      rw [hsize p hmem, if_neg (by omega)]
    · have hsum := hsize x.addr (mem_heads (by simp))
      rw [if_pos rfl] at hsum
      simpa using hsum
    · intro p hp hpz
      rw [hflag p hp, if_neg hpz]
    · have hsum := hflag y.stop (h.tiled.stop_mem (by simp))
      rw [if_pos rfl] at hsum
      simpa [Blk.stop, Blk.mark, Blk.isFree, Kind.isFree, hstop] using hsum
    · exact h.queue.congr (fun p hp => hnext p (h.linked_mem (List.mem_append_left _ hp)))
        (fun p hp => hprev p (h.linked_mem (List.mem_cons_of_mem _ hp)))
    · have hqueued := h.queued
      obtain ⟨hx, hy⟩ | ⟨hx, hy⟩ := hkinds <;> simpa [hx, hy] using hqueued
    · obtain ⟨hx, hy⟩ | ⟨hx, hy⟩ := hkinds
      · have h'' : Layout g m ((l ++ [x]) ++ y :: r) order [c] next := by simpa using h
        obtain ⟨hl, -, hr⟩ := h''.sole hy
        simp only [addrsOf_append, addrsOf_cons, addrsOf_nil, hx, reduceCtorEq, if_false, List.append_nil] at hl
        simp [hl, hr]
      · obtain ⟨hl, -, hr⟩ := h.sole hx
        simp only [addrsOf_cons, hy, reduceCtorEq, if_false] at hr
        simp [hl, hr]
    · intro b hb hlive
      rw [hnext _ (mem_heads hb), h.kept b hb hlive]
    · simp
  exact hnew

/-- The block that was being freed is in the queue. -/
theorem Layout.close (h : Layout g m (l ++ x :: r) order cur next) (hx : x.kind = .opened) (hfree : Between l r)
    (hsize : ∀ p ∈ heads (l ++ x :: r) g.end_, m'.get p .size = m.get p .size)
    (hflag : ∀ p ∈ heads (l ++ x :: r) g.end_, m'.get p .flag = if p = x.stop then x.size else m.get p .flag)
    (hqueue : Linked (fun p => m'.get p .next) (fun p => m'.get p .prev) g.head order' g.end_)
    (hperm : order'.Perm (x.addr :: order))
    (hnext : ∀ b ∈ l ++ x :: r, b.kind = .live → m'.get b.addr .next = m.get b.addr .next) :
    Layout g m' (l ++ { x with kind := .queued } :: r) order' cur next := by
  have h' : Layout g m (l ++ ([x] ++ r)) order cur next := h
  obtain ⟨a, z, hl, ⟨rfl, hsize', hdvd, rfl⟩, hr⟩ := h'.middle
  have hne : l ≠ [] := h.front_ne (by simp [hx])
  obtain ⟨hsl, hsr, -⟩ := settled_append_cons.mp h.settled
  have hnew : Layout g m' (l ++ ([{ x with kind := .queued }] ++ r)) order' cur next := by
    apply h'.replace hl hr hne (List.cons_ne_nil _ _)
    · exact ⟨rfl, hsize', hdvd, rfl⟩
    · simp
    · simp
    · exact settled_append_cons.mpr ⟨hsl, hsr, fun _ => hfree⟩
    · intro p hp
      have hlt : x.addr < x.stop := Nat.lt_add_of_pos_right (free_size_pos.trans_le hsize')
      exact hsize p (hl.heads_around [x] hr hlt hp).1
    · have hold := hsize x.addr (mem_heads (by simp))
      rw [h.sizes x (by simp)] at hold
      simpa using hold
    · intro p hp hpz
      rw [hflag p hp, if_neg hpz]
    · have hmark := hflag x.stop (h.tiled.stop_mem (by simp))
      rw [if_pos rfl] at hmark
      simpa [Blk.stop, Blk.mark, Blk.isFree, Kind.isFree] using hmark
    · exact hqueue
    · have hqueued := h.queued
      simp only [addrsOf_append, addrsOf_cons, hx, reduceCtorEq, if_false] at hqueued
      refine hperm.trans ((hqueued.cons x.addr).trans ?_)
      simpa using List.perm_middle.symm
    · have hcurrent := h.current
      simpa [hx] using hcurrent
    · intro b hb hlive
      rw [hnext b hb hlive, h.kept b hb hlive]
    · simp
  exact hnew

/-- The first block of the queue becomes the current one. -/
theorem Layout.promote (h : Layout g m (l ++ x :: r) (x.addr :: order) [] next) (hx : x.kind = .queued)
    (hsize : ∀ p ∈ heads (l ++ x :: r) g.end_, m'.get p .size = m.get p .size)
    (hflag : ∀ p ∈ heads (l ++ x :: r) g.end_, m'.get p .flag = m.get p .flag)
    (hnext : ∀ p ∈ heads (l ++ x :: r) g.end_,
      m'.get p .next = if p = g.head then m.get x.addr .next else m.get p .next)
    (hprev : ∀ p ∈ heads (l ++ x :: r) g.end_,
      m'.get p .prev = if p = m.get x.addr .next then g.head else m.get p .prev) :
    Layout g m' (l ++ { x with kind := .current } :: r) order [x.addr] next := by
  have h' : Layout g m (l ++ ([x] ++ r)) (x.addr :: order) [] next := h
  obtain ⟨a, z, hl, ⟨rfl, hsize', hdvd, rfl⟩, hr⟩ := h'.middle
  have hne : l ≠ [] := h.front_ne (by simp [hx])
  obtain ⟨hsl, hsr, hfree⟩ := settled_append_cons.mp h.settled
  have hnodup := h.queue_nodup
  have hback : m.get x.addr .prev = g.head := h.queue.2.1
  have hlinked : ∀ p ∈ g.head :: ([] ++ x.addr :: order) ++ [g.end_], p ∈ heads (l ++ x :: r) g.end_ :=
    fun p hp => h.linked_mem hp
  have hcurrent := h.current
  simp only [addrsOf_append, addrsOf_cons, hx, reduceCtorEq, if_false, List.append_eq_nil_iff] at hcurrent
  have hnew : Layout g m' (l ++ ([{ x with kind := .current }] ++ r)) order [x.addr] next := by
    apply h'.replace hl hr hne (List.cons_ne_nil _ _)
    · exact ⟨rfl, hsize', hdvd, rfl⟩
    · simp
    · simp
    · exact settled_append_cons.mpr ⟨hsl, hsr, fun _ => hfree (by simp [Blk.isFree, Kind.isFree, hx])⟩
    · intro p hp
      have hlt : x.addr < x.stop := Nat.lt_add_of_pos_right (free_size_pos.trans_le hsize')
      exact hsize p (hl.heads_around [x] hr hlt hp).1
    · have hold := hsize x.addr (mem_heads (by simp))
      rw [h.sizes x (by simp)] at hold
      simpa using hold
    · intro p hp hpz
      exact hflag p hp
    · have hmark := hflag x.stop (h.tiled.stop_mem (by simp))
      rw [h.marks x (by simp) (by simp [hx])] at hmark
      simpa [Blk.stop, Blk.mark, Blk.isFree, Kind.isFree, hx] using hmark
    · have hqueue : Linked (fun p => m'.get p .next) (fun p => m'.get p .prev) g.head ([] ++ order) g.end_ := by
        refine h.queue.unlink (l := []) (hnodup.sublist (List.sublist_append_left ..)) (List.nodup_cons.mp hnodup).2
          (fun p hp => ?_) (fun p hp => ?_)
        · rw [hnext p (hlinked p ?_), hback]
          simp only [List.mem_cons, List.mem_append] at hp ⊢
          tauto
        · rw [hprev p (hlinked p ?_), hback]
          simp only [List.mem_cons, List.mem_append] at hp ⊢
          tauto
      exact hqueue
    · have hqueued := h.queued
      have hperm : (x.addr :: order).Perm (x.addr :: addrsOf .queued (l ++ r)) := by
        refine hqueued.trans ?_
        simp [hx]
      simpa using hperm.cons_inv
    · simp [hcurrent]
    · intro b hb hlive
      rw [hnext _ (mem_heads hb), if_neg (h.live_ne hb hlive (by simp)), h.kept b hb hlive]
    · simp
  exact hnew

omit [Build] in
/-- The headers of a page whose current block is cut. -/
theorem mem_heads_cut {s : Nat} (hp : p ∈ heads (l ++ x :: r) z) :
    p ∈ heads (l ++ ⟨x.addr, s, .live⟩ :: ⟨x.addr + s, x.size - s, .current⟩ :: r) z := by
  simp only [heads, List.map_append, List.map_cons, List.mem_append, List.mem_cons] at hp ⊢
  tauto

/-- Every other header is before a block or behind it. -/
theorem Layout.heads_sides (h : Layout g m (l ++ x :: r) order cur next) (hp : p ∈ heads (l ++ x :: r) g.end_) :
    p = x.addr ∨ p < x.addr ∨ x.stop ≤ p := by
  have h' : Layout g m (l ++ ([x] ++ r)) order cur next := h
  obtain ⟨a, z, hl, ⟨rfl, hsize, -, rfl⟩, hr⟩ := h'.middle
  have hlt : x.addr < x.stop := Nat.lt_add_of_pos_right (free_size_pos.trans_le hsize)
  by_cases hpx : p = x.addr
  · exact .inl hpx
  · refine .inr (hl.heads_around [x] hr hlt ?_).2
    simp only [heads, List.map_append, List.map_cons, List.mem_append, List.mem_cons] at hp ⊢
    tauto

theorem Tiled.cut (h : Tiled a [x] z) {s : Nat} (hs : freePointerSize ≤ s) (hdvd : 8 ∣ s)
    (hroom : s + freePointerSize ≤ x.size) : Tiled a [⟨x.addr, s, .live⟩, ⟨x.addr + s, x.size - s, .current⟩] z := by
  obtain ⟨rfl, -, hxdvd, rfl⟩ := h
  refine ⟨rfl, hs, hdvd, rfl, Nat.le_sub_of_add_le' hroom, Nat.dvd_sub hxdvd hdvd, ?_⟩
  simp only [Tiled, Blk.stop]
  omega

/-- A block is cut off the front of the current one. -/
theorem Layout.cut (h : Layout g m (l ++ x :: r) order [c] next) (hx : x.kind = .current) {s : Nat}
    (hs : freePointerSize ≤ s) (hdvd : 8 ∣ s) (hroom : s + freePointerSize ≤ x.size)
    (hsize : ∀ p ∈ heads (l ++ ⟨x.addr, s, .live⟩ :: ⟨x.addr + s, x.size - s, .current⟩ :: r) g.end_,
      m'.get p .size = if p = x.addr then s else if p = x.addr + s then x.size - s else m.get p .size)
    (hflag : ∀ p ∈ heads (l ++ ⟨x.addr, s, .live⟩ :: ⟨x.addr + s, x.size - s, .current⟩ :: r) g.end_,
      m'.get p .flag = if p = x.stop then x.size - s else if p = x.addr + s then g.tag else m.get p .flag)
    (hnext : ∀ p ∈ heads (l ++ x :: r) g.end_, m'.get p .next = m.get p .next)
    (hprev : ∀ p ∈ heads (l ++ x :: r) g.end_, m'.get p .prev = m.get p .prev) :
    Layout g m' (l ++ ⟨x.addr, s, .live⟩ :: ⟨x.addr + s, x.size - s, .current⟩ :: r) order [x.addr + s]
      (Function.update next x.addr (m.get x.addr .next)) := by
  have hpos := free_size_pos
  have h' : Layout g m (l ++ ([x] ++ r)) order [c] next := h
  obtain ⟨a, z, hl, ⟨rfl, hxsize, hxdvd, rfl⟩, hr⟩ := h'.middle
  have hne : l ≠ [] := h.front_ne (by simp [hx])
  obtain ⟨hsl, hsr, hfree⟩ := settled_append_cons.mp h.settled
  obtain ⟨-, hbehind⟩ := hfree (by simp [Blk.isFree, Kind.isFree, hx])
  have hlt : x.addr < x.stop := Nat.lt_add_of_pos_right (hpos.trans_le hxsize)
  have hinside : x.addr + s < x.stop := by
    rw [Blk.stop]
    omega
  obtain ⟨hl0, -, hr0⟩ := h.sole hx
  have hnew : Layout g m' (l ++ ([⟨x.addr, s, .live⟩, ⟨x.addr + s, x.size - s, .current⟩] ++ r)) order [x.addr + s]
      (Function.update next x.addr (m.get x.addr .next)) := by
    apply h'.replace hl hr hne (List.cons_ne_nil _ _)
    · exact Tiled.cut ⟨rfl, hxsize, hxdvd, rfl⟩ hs hdvd hroom
    · simp
    · simp
    · refine settled_append_cons.mpr ⟨hsl, ?_, fun hfree => absurd hfree (by simp [Blk.isFree, Kind.isFree])⟩
      exact settled_append_cons (l := []) |>.mpr ⟨List.isChain_nil, hsr, fun _ => ⟨by simp, hbehind⟩⟩
    · intro p hp
      obtain ⟨hmem, hout⟩ := hl.heads_around [x] hr hlt hp
      rw [hsize p (mem_heads_cut hmem), if_neg (by omega), if_neg (by omega)]
    · intro b hb
      simp only [List.mem_cons, List.not_mem_nil, or_false] at hb
      obtain rfl | rfl := hb
      · rw [hsize _ (mem_heads (by simp)), if_pos rfl]
      · rw [hsize _ (mem_heads (by simp)), if_neg (by simp only; omega), if_pos rfl]
    · intro p hp hpz
      have hout := h.heads_sides hp
      rw [hflag p (mem_heads_cut hp), if_neg hpz, if_neg (by omega)]
    · intro b hb _
      have hstops : ∀ p, p = x.addr + s ∨ p = x.stop → p ∈ heads (l ++ ⟨x.addr, s, .live⟩ ::
          ⟨x.addr + s, x.size - s, .current⟩ :: r) g.end_ := by
        rintro p (rfl | rfl)
        · exact mem_heads (b := ⟨x.addr + s, x.size - s, .current⟩) (by simp)
        · exact mem_heads_cut (h.tiled.stop_mem (by simp))
      simp only [List.mem_cons, List.not_mem_nil, or_false] at hb
      obtain rfl | rfl := hb
      · simp only [Blk.stop, Blk.mark, Blk.isFree, Kind.isFree]
        rw [hflag _ (hstops _ (.inl rfl)), if_neg hinside.ne, if_pos rfl]
        rfl
      · have hend : x.addr + s + (x.size - s) = x.stop := by
          rw [Blk.stop]
          omega
        simp only [Blk.stop, Blk.mark, Blk.isFree, Kind.isFree, if_true]
        rw [hend, hflag _ (hstops _ (.inr rfl)), if_pos rfl]
    · exact h.queue.congr (fun p hp => hnext p (h.linked_mem (List.mem_append_left _ hp)))
        (fun p hp => hprev p (h.linked_mem (List.mem_cons_of_mem _ hp)))
    · simpa [hx] using h.queued
    · simp [hl0, hr0]
    · intro b hb hlive
      have hne : b.addr ≠ x.addr := by
        intro heq
        rw [h.tiled.addr_inj hb (by simp) heq, hx] at hlive
        exact absurd hlive (by simp)
      rw [hnext _ (mem_heads hb), h.kept b hb hlive, Function.update_of_ne hne]
    · intro b hb hlive
      simp only [List.mem_cons, List.not_mem_nil, or_false] at hb
      obtain rfl | rfl := hb
      · rw [hnext _ (mem_heads (b := x) (by simp)), Function.update_self]
      · exact absurd hlive (by simp)
  exact hnew

end Wenas.Xmalloc
