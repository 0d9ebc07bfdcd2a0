import Wenas.Xmalloc.Runs

/-!
# Requests

A request is served from a page of the pool or from a page that `malloc` makes for it. The header of the block that is
returned tells its size, which the `free` at the end of `aligned_alloc` leaves as it is.
-/
namespace Wenas.Xmalloc
open Wenas.Links Wenas.Machine

variable [Build]

/-! ### A word that is no field of the headers -/

section

variable {A : List Nat} {m : Mem} {a c p v w : Nat} {f : Field}

theorem put_off (hw : ∀ q ∈ A, ∀ f : Field, q + f.offset ≠ w) (hp : p ∈ A) : (m.put p f v) w = m w := by
  rw [Mem.put, Function.update_of_ne (hw p hp f).symm]

theorem takeOut_off (hw : ∀ q ∈ A, ∀ f : Field, q + f.offset ≠ w) (hA : Apart A) (hp : p ∈ A)
    (hnext : m.get p .next ∈ A)
    (hprev : m.get p .prev ∈ A) : (takeOut m p) w = m w := by
  have hback : (m.put (m.get p .next) .prev (m.get p .prev)).get p .prev = m.get p .prev := by
    rw [get_put hA hnext hp]
    split <;> rfl
  rw [takeOut, hback, put_off hw hprev, put_off hw hnext]

theorem putIn_off (hw : ∀ q ∈ A, ∀ f : Field, q + f.offset ≠ w) (hA : Apart A) (hp : p ∈ A) (ha : a ∈ A) (hc : c ∈ A) :
    (putIn m p a c) w = m w := by
  have hforth : ((m.put p .next c).put p .prev a).get p .next = c := by
    rw [get_put hA hp hp, if_neg (by simp), get_put hA hp hp, if_pos ⟨rfl, rfl⟩]
  have hback : (((m.put p .next c).put p .prev a).put c .prev p).get p .prev ∈ A := by
    rw [get_put hA hc hp]
    split
    · exact hp
    · rwa [get_put hA hp hp, if_pos ⟨rfl, rfl⟩]
  simp only [putIn, hforth]
  rw [put_off hw hback, put_off hw hc, put_off hw hp, put_off hw hp]

theorem Page.enqueue_off {pg : Page} (hw : ∀ q ∈ A, ∀ f : Field, q + f.offset ≠ w) (hA : Apart A) (hp : p ∈ A)
    (hhead : pg.head ∈ A) (hend : pg.end_ ∈ A) (hfirst : m.get pg.head .next ∈ A) (hlast : m.get pg.end_ .prev ∈ A) :
    (pg.enqueue m p).mem w = m w := by
  rw [Page.enqueue]
  split
  · exact putIn_off hw hA hp hhead hfirst
  · exact putIn_off hw hA hp hlast hend

end

/-! ### The part in front of an aligned address -/

section

variable {A : List Nat} {m : Mem} {bs l r : List Blk} {next : Nat → Nat} {b w : Blk} {d p q : Nat} {pg : Page}
  {f : Field}

/-- The words at the start of the tail are behind the header of the front and before the block that follows. -/
theorem Page.Laid.tail_off (h : pg.Laid (l ++ b :: r) next) (hd : freePointerSize ≤ d) (hroom : d + 16 ≤ b.size)
    (hf : f = .flag ∨ f = .size) :
    ∀ q ∈ heads (l ++ b :: r) pg.end_, ∀ g : Field, q + g.offset ≠ b.addr + d + f.offset := by
  obtain ⟨⟨order, hlayout⟩, -⟩ := h
  have hoffset : f.offset ≤ 8 := by
    obtain rfl | rfl := hf <;> simp [Field.offset]
  intro q hq g
  have hlt := offset_lt g
  have hout := hlayout.heads_sides hq
  rw [Blk.stop] at hout
  omega

/-- A block that ends at the tail is not joined with it. -/
theorem Page.Laid.mergeAfter_tail (h : pg.Laid (l ++ b :: r) next) (hb : b.kind = .live) (hroom : d + 16 ≤ b.size)
    (hnext : nextPointer m p = b.addr + d) (hsize : m.get (b.addr + d) .size = b.size - d)
    (hflag : m.get b.stop .flag = pg.mem.get b.stop .flag) : mergeAfter m p = m := by
  obtain ⟨⟨order, hlayout⟩, -⟩ := h
  have hstop : nextPointer m (b.addr + d) = b.stop := by
    have hto := (hlayout.tiled.bounds.2 b (by simp)).2.1
    have hspace := hlayout.space
    have hpos := free_size_pos
    have hsum : b.addr + d + (b.size - d) = b.stop := by
      rw [Blk.stop]
      omega
    rw [nextPointer, hsize, hsum, wrap, Nat.mod_eq_of_lt (by omega)]
  have hodd : mergeable m b.stop = false := by
    have hmergeable := hlayout.mergeable_eq (b := b) (by simp) (by simp [hb])
    rw [mergeable] at hmergeable ⊢
    rw [hflag, hmergeable]
    simp [Blk.isFree, hb, Kind.isFree]
  rw [mergeAfter, hnext, hstop, hodd, if_neg (by simp)]

/-- Its way into the queue leaves the tail's size. -/
theorem Page.Laid.enqueue_tail (h : pg.Laid (l ++ b :: r) next) (hb : b.kind = .live) (hd : freePointerSize ≤ d)
    (hroom : d + 16 ≤ b.size) (hp : p ∈ heads (l ++ b :: r) pg.end_) (hnext : nextPointer m p = b.addr + d)
    (hsize : m.get (b.addr + d) .size = b.size - d) (hflag : m.get b.stop .flag = pg.mem.get b.stop .flag)
    (hfirst : m.get pg.head .next ∈ heads (l ++ b :: r) pg.end_)
    (hlast : m.get pg.end_ .prev ∈ heads (l ++ b :: r) pg.end_) :
    (pg.enqueue (markNext (mergeAfter m p) p) p).mem.get (b.addr + d) .size = b.size - d := by
  have hoff := h.tail_off hd hroom (f := .size) (.inr rfl)
  have hoff' := h.tail_off hd hroom (f := .flag) (.inl rfl)
  have hafter := h.mergeAfter_tail hb hroom hnext hsize hflag
  obtain ⟨⟨order, hlayout⟩, -⟩ := h
  have hhead : pg.head ∈ heads (l ++ b :: r) pg.end_ := hlayout.linked_mem (p := pg.head) (by simp [Page.bound])
  have hmark : ∀ q ∈ heads (l ++ b :: r) pg.end_, ∀ g, (markNext m p).get q g = m.get q g := by
    intro q hq g
    rw [markNext, hnext, Mem.get, Mem.put, Function.update_of_ne (hoff' q hq g)]
    rfl
  rw [hafter, Mem.get]
  rw [Page.enqueue_off hoff hlayout.apart hp hhead end_mem_heads (by rwa [hmark _ hhead]) (by rwa [hmark _ end_mem_heads])]
  rw [markNext, hnext, Mem.put, Function.update_of_ne (by simp [Field.offset])]
  exact hsize

/-- The front of an allocated block is freed: what follows keeps its size, however small it is. -/
theorem Page.Laid.front_freed (h : pg.Laid (l ++ b :: r) next) (hb : b.kind = .live) (hd : freePointerSize ≤ d)
    (hroom : d + 16 ≤ b.size)
    (hm : ∀ p ∈ heads (l ++ b :: r) pg.end_, ∀ f, m.get p f = if f = .size ∧ p = b.addr then d else pg.mem.get p f)
    (hsize : m.get (b.addr + d) .size = b.size - d) :
    (({ pg with mem := m } : Page).freePointer b.addr).mem.get (b.addr + d) .size = b.size - d := by
  have hoff := h.tail_off hd hroom (f := .size) (.inr rfl)
  have hoff' := h.tail_off hd hroom (f := .flag) (.inl rfl)
  have hlaid := h
  obtain ⟨⟨order, hlayout⟩, hclosed⟩ := h
  have hto := (hlayout.tiled.bounds.2 b (by simp)).2.1
  have hspace := hlayout.space
  have hpos := free_size_pos
  have hbmem : b.addr ∈ heads (l ++ b :: r) pg.end_ := mem_heads (by simp)
  have hstopmem : b.stop ∈ heads (l ++ b :: r) pg.end_ := hlayout.tiled.stop_mem (by simp)
  have hhead : pg.head ∈ heads (l ++ b :: r) pg.end_ := hlayout.linked_mem (p := pg.head) (by simp [Page.bound])
  have hheadnext : pg.mem.get pg.head .next ∈ heads (l ++ b :: r) pg.end_ :=
    hlayout.linked_mem (List.mem_cons_of_mem _ hlayout.next_head_mem)
  have hendprev : pg.mem.get pg.end_ .prev ∈ heads (l ++ b :: r) pg.end_ :=
    hlayout.linked_mem (List.mem_append_left _ hlayout.prev_end_mem)
  have hstop : b.stop = b.addr + b.size := rfl
  have hbound : pg.bound.end_ = pg.end_ := rfl
  have hnext : nextPointer m b.addr = b.addr + d := by
    rw [nextPointer, hm _ hbmem, if_pos ⟨rfl, rfl⟩, wrap, Nat.mod_eq_of_lt (by omega)]
  obtain ⟨k, hk, hcurrent, hkaddr⟩ := mem_addrsOf.mp (hlayout.current ▸ List.mem_singleton.mpr rfl)
  have hkmem : pg.ptr ∈ heads (l ++ b :: r) pg.end_ := hkaddr ▸ mem_heads hk
  have hkb : pg.ptr ≠ b.addr := by
    intro heq
    rw [hlayout.tiled.addr_inj hk (by simp : b ∈ _) (hkaddr.trans heq), hb] at hcurrent
    exact absurd hcurrent (by simp)
  have hktail : ¬ b.addr + d = pg.ptr := by
    intro heq
    exact hoff' pg.ptr hkmem .flag (congrArg (· + Field.flag.offset) heq.symm)
  have hmark : ∀ (m' : Mem) v, (m'.put (b.addr + d) .flag v) (b.addr + d + Field.size.offset) =
      m' (b.addr + d + Field.size.offset) := by
    intro m' v
    rw [Mem.put, Function.update_of_ne (by simp [Field.offset])]
  obtain ⟨l, w, y, r, rfl, rfl, hw, -⟩ := hlayout.neighbours hb
  rw [Page.freePointer]
  simp only [hnext, if_neg hktail]
  split
  · next hR =>
    -- the current block is before
    have hksize : m.get pg.ptr .size = k.size := by
      rw [hm _ hkmem, if_neg fun heq => hkb heq.2, ← hkaddr]
      exact hlayout.sizes k hk
    have hkstop : pg.ptr + k.size = b.addr := by
      have hkto := hlayout.nextPointer_eq hk
      rw [hkaddr] at hkto
      rw [nextPointer, hksize] at hR
      rw [nextPointer, ← hkaddr, hlayout.sizes k hk, hkaddr] at hkto
      rw [← hR, hkto, Blk.stop, hkaddr]
    have hm' : ∀ v, nextPointer (m.put pg.ptr .size v) pg.ptr = wrap (pg.ptr + v) := fun v => nextPointer_put ..
    have hsum : wrap (k.size + d) = k.size + d := Nat.mod_eq_of_lt (by omega)
    have htail : wrap (pg.ptr + (k.size + d)) = b.addr + d := by
      rw [← Nat.add_assoc, hkstop, wrap, Nat.mod_eq_of_lt (by omega)]
    rw [hlaid.mergeAfter_tail hb hroom hnext hsize (by rw [hm _ hstopmem]; simp)]
    rw [hksize, hm _ hbmem, if_pos ⟨rfl, rfl⟩, hsum, markNext, hm', htail]
    exact (hmark _ _).trans ((put_off hoff hkmem).trans hsize)
  · next hR =>
    -- any other
    have hwmem : w.addr ∈ heads (l ++ [w] ++ b :: y :: r) pg.end_ := mem_heads (by simp)
    have hsum : w.size + d < 2 ^ 64 := by
      have hwstop : w.stop = w.addr + w.size := rfl
      omega
    have hmergeable : mergeable m b.addr = w.isFree := by
      have hlay := hlayout.mergeable_eq (b := w) (by simp) (hclosed w (by simp))
      rw [hw] at hlay
      rw [mergeable, hm _ hbmem]
      simpa [mergeable] using hlay
    rw [mergeBefore, hmergeable]
    cases hfree : w.isFree with
    | false =>
      simp only [Bool.false_eq_true, if_false]
      refine hlaid.enqueue_tail hb hd hroom hbmem hnext hsize ?_ ?_ ?_
      · rw [hm _ hstopmem]
        simp
      · rw [hm _ hhead]
        simpa using hheadnext
      · rw [hm _ end_mem_heads]
        simpa using hendprev
    | true =>
      have hwcurrent : w.kind ≠ .current := by
        intro hkind
        have hwk := (hlayout.current_iff (b := w) (by simp)).mp hkind
        have hwnext := hlayout.nextPointer_eq (b := w) (by simp)
        rw [hwk, hw] at hwnext
        rw [nextPointer, hm _ hkmem, if_neg fun heq => hkb heq.2] at hR
        exact hR hwnext
      have hqueued : w.kind = .queued := by
        revert hfree hwcurrent
        rw [Blk.isFree]
        cases w.kind <;> simp [Kind.isFree]
      obtain ⟨o, o', rfl⟩ := List.append_of_mem (hlayout.mem_order.mpr ⟨w, by simp, hqueued, rfl⟩)
      obtain ⟨haround, haround'⟩ := hlayout.around
      have hA := hlayout.apart
      have hwb : w.addr ≠ b.addr := by
        intro heq
        have hsize' := (hlayout.tiled.bounds.2 w (by simp)).2.2
        have hwstop : w.stop = w.addr + w.size := rfl
        omega
      have hflag : m.get b.addr .flag = pg.mem.get b.addr .flag := by
        rw [hm _ hbmem, if_neg (by simp)]
      have hprev : prevPointer m b.addr = w.addr := by
        rw [prevPointer, hflag, ← hw]
        exact hlayout.prevPointer_eq (b := w) (by simp) hfree
      have hgrow : growPrev m b.addr = m.put w.addr .size (w.size + d) := by
        rw [growPrev, hprev, hm _ hwmem, if_neg fun heq => hwb heq.2, hlayout.sizes w (by simp), hm _ hbmem,
          if_pos ⟨rfl, rfl⟩, wrap, Nat.mod_eq_of_lt hsum]
      have hprev' : prevPointer (m.put w.addr .size (w.size + d)) b.addr = w.addr := by
        rw [prevPointer, get_put hA hwmem hbmem, if_neg (by simp), ← prevPointer, hprev]
      have hnext' : nextPointer (m.put w.addr .size (w.size + d)) w.addr = b.addr + d := by
        have hend : w.addr + (w.size + d) = b.addr + d := by
          rw [← hw, Blk.stop]
          omega
        rw [nextPointer_put, hend, wrap, Nat.mod_eq_of_lt (by omega)]
      simp only [if_true, hgrow, hprev']
      obtain ⟨m₁, hm₁⟩ : ∃ m₁, m₁ = markNext (m.put w.addr .size (w.size + d)) w.addr := ⟨_, rfl⟩
      have hget : ∀ p ∈ heads (l ++ [w] ++ b :: y :: r) pg.end_, ∀ f, m₁.get p f =
          if f = .size ∧ p = w.addr then w.size + d else m.get p f := by
        intro p hp f
        have hmarked : m₁.get p f = (m.put w.addr .size (w.size + d)).get p f := by
          rw [hm₁, markNext, hnext']
          exact Function.update_of_ne (hoff' p hp f) ..
        rw [hmarked, get_put hA hwmem hp]
        simp only [and_comm]
      have hlink : ∀ p ∈ heads (l ++ [w] ++ b :: y :: r) pg.end_, ∀ f, f = .next ∨ f = .prev →
          m₁.get p f = pg.mem.get p f := by
        intro p hp f hf
        rw [hget p hp, hm p hp]
        obtain rfl | rfl := hf <;> simp
      have hwnext : m₁.get w.addr .next ∈ heads (l ++ [w] ++ b :: y :: r) pg.end_ := by
        rw [hlink _ hwmem _ (.inl rfl)]
        refine hlayout.linked_mem ?_
        simp only [List.mem_cons, List.mem_append] at haround' ⊢
        tauto
      have hwprev : m₁.get w.addr .prev ∈ heads (l ++ [w] ++ b :: y :: r) pg.end_ := by
        rw [hlink _ hwmem _ (.inr rfl)]
        refine hlayout.linked_mem ?_
        simp only [List.mem_cons, List.mem_append] at haround ⊢
        tauto
      have hout := fun p hp f => takeOut_get hA hwmem hwnext hwprev (q := p) (f := f) hp
      rw [← hm₁]
      refine hlaid.enqueue_tail hb hd hroom hwmem ?_ ?_ ?_ ?_ ?_
      · rw [nextPointer, hout _ hwmem, if_neg (by simp), if_neg (by simp), hget _ hwmem, if_pos ⟨rfl, rfl⟩]
        rw [nextPointer_put] at hnext'
        exact hnext'
      · rw [Mem.get, takeOut_off hoff hA hwmem hwnext hwprev, hm₁, markNext, hnext', hmark, put_off hoff hwmem]
        exact hsize
      · rw [hout _ hstopmem, if_neg (by simp), if_neg (by simp), hget _ hstopmem, if_neg (by simp), hm _ hstopmem,
          if_neg (by simp)]
      · rw [hout _ hhead]
        split
        · exact hwnext
        · rw [if_neg (by simp), hlink _ hhead _ (.inl rfl)]
          exact hheadnext
      · rw [hout pg.end_ end_mem_heads, if_neg (by simp)]
        split
        · exact hwprev
        · rw [hlink pg.end_ end_mem_heads _ (.inr rfl)]
          exact hendprev

theorem Page.freePointer_same (pg : Page) (p : Nat) : pg.Same (pg.freePointer p) := by
  rw [Page.freePointer]
  split
  · exact ⟨rfl, rfl, rfl⟩
  split
  · exact ⟨rfl, rfl, rfl⟩
  · rw [Page.enqueue]
    split <;> exact ⟨rfl, rfl, rfl⟩

/-- The header of the aligned part. -/
theorem Page.Laid.carve_size (h : pg.Laid bs next) (hb : b ∈ lives bs) (hd : freePointerSize ≤ d)
    (hroom : d + 16 ≤ b.size)
    {alignment : Nat}
    (haligned : maskOff (wrap (b.addr + workPointerSize + alignment + freePointerSize)) alignment =
      b.addr + d + workPointerSize) :
    (pg.carve (b.addr + workPointerSize) alignment).2 = b.addr + d + workPointerSize ∧
      (pg.carve (b.addr + workPointerSize) alignment).1.mem.get (b.addr + d) .size = b.size - d ∧
      pg.Same (pg.carve (b.addr + workPointerSize) alignment).1 := by
  rw [lives, List.mem_filter, decide_eq_true_eq] at hb
  obtain ⟨hmem, hlive⟩ := hb
  have haddr := h.addr_eq hmem
  obtain ⟨l, r, rfl⟩ := List.append_of_mem hmem
  have hoff := h.tail_off hd hroom (f := .size) (.inr rfl)
  have hoff' := h.tail_off hd hroom (f := .flag) (.inl rfl)
  have hlaid := h
  obtain ⟨⟨order, hlayout⟩, -⟩ := h
  have hto := (hlayout.tiled.bounds.2 b hmem).2.1
  have hspace := hlayout.space
  have hpos := free_size_pos
  rw [Blk.stop] at hto
  have hwork : workPointerSize ≤ freePointerSize := by simp [workPointerSize, freePointerSize]
  have haddr' : sub64 (b.addr + d + workPointerSize) workPointerSize = b.addr + d := by
    rw [sub64_eq (by omega) (by omega), Nat.add_sub_cancel]
  have hfree : sub64 (b.addr + d) b.addr = d := by
    rw [sub64_eq (by omega) (by omega), Nat.add_sub_cancel_left]
  have htail : sub64 b.size d = b.size - d := sub64_eq (by omega) (by omega)
  have hbmem : b.addr ∈ heads (l ++ b :: r) pg.end_ := mem_heads hmem
  refine ⟨haligned, ?_, ?_⟩
  · simp only [Page.carve, Page.free, haligned, haddr, haddr', hfree, hlayout.sizes b hmem, htail]
    apply hlaid.front_freed hlive hd hroom
    · intro p hp f
      rw [get_put hlayout.apart hbmem hp]
      split
      · next hcond => rw [if_pos hcond.symm]
      · next hcond =>
        rw [if_neg fun heq => hcond heq.symm, Mem.get, Mem.put, Function.update_of_ne (hoff' p hp f), Mem.put,
          Function.update_of_ne (hoff p hp f)]
        rfl
    · rw [Mem.get, put_off hoff hbmem, Mem.put, Function.update_of_ne (by simp [Field.offset]), Mem.put, Function.update_self]
  · exact Page.freePointer_same ..

end

/-! ### Where a block comes from -/

/-- A page of the pool, or one that `malloc` makes. -/
inductive Source where
  | page (pg : Page)
  | made (pool id start : Nat) (mem : Mem)

namespace Source

/-- `malloc`, with the page after it. -/
def malloc : Source → Nat → Option (Page × Nat)
  | .page pg, n =>
    match pg.malloc n with
    | (_, none) => none
    | (pg, some address) => some (pg, address)
  | .made pool id start mem, n => some (mallocOnNewPage pool id n start mem)

/-- `calloc`. -/
def calloc (s : Source) (number size : Nat) : Option (Page × Nat) :=
  let size := wrap (size * number)
  match s.malloc size with
  | none => none
  | some (pg, address) => some ({ pg with mem := clear pg.mem address size }, address)

/-- `aligned_alloc`. -/
def alignedAlloc (s : Source) (alignment size : Nat) : Option (Page × Nat) :=
  if alignment = 8 then s.malloc size
  else if size = 0 ∨ alignment = 0 ∨ alignment &&& (8 - 1) ≠ 0 ∨ alignment &&& sub64 alignment 1 ≠ 0 then none
  else
    match s.malloc (wrap (size + alignment + freePointerSize)) with
    | none => none
    | some (pg, address) =>
      if maskOff address alignment = address then some (pg, address) else some (pg.carve address alignment)

theorem page_calloc (pg : Page) (number size : Nat) : (page pg).calloc number size =
    match pg.calloc number size with
    | (_, none) => none
    | (pg, some address) => some (pg, address) := by
  simp only [calloc, malloc, Page.calloc]
  obtain ⟨pg', o⟩ := pg.malloc (wrap (size * number))
  cases o <;> rfl

theorem page_alignedAlloc (pg : Page) (alignment size : Nat) : (page pg).alignedAlloc alignment size =
    match pg.alignedAlloc alignment size with
    | (_, none) => none
    | (pg, some address) => some (pg, address) := by
  rw [alignedAlloc, Page.alignedAlloc]
  split
  · rfl
  split
  · rfl
  · rw [malloc]
    obtain ⟨pg', o⟩ := pg.malloc (wrap (size + alignment + freePointerSize))
    cases o with
    | none => rfl
    | some address =>
      simp only
      split <;> rfl

end Source

/-- A call for memory. -/
inductive Request where
  | malloc (n : Nat)
  | calloc (number size : Nat)
  | alignedAlloc (alignment size : Nat)

namespace Request

def serve (s : Source) : Request → Option (Page × Nat)
  | .malloc n => s.malloc n
  | .calloc number size => s.calloc number size
  | .alignedAlloc alignment size => s.alignedAlloc alignment size

/-- The arguments are of type `size_t`. -/
def Words : Request → Prop
  | .malloc n => n < 2 ^ 64
  | .calloc number size => number < 2 ^ 64 ∧ size < 2 ^ 64
  | .alignedAlloc alignment size => alignment < 2 ^ 64 ∧ size < 2 ^ 64

/-- The number of bytes that are asked for. -/
def bytes : Request → Nat
  | .malloc n => n
  | .calloc number size => number * size
  | .alignedAlloc _ size => size

/-- The number of bytes that the block is for, which the call hands to `malloc` in 64 bits. -/
def passed : Request → Nat
  | .malloc n => n
  | .calloc number size => size * number
  | .alignedAlloc alignment size => if alignment = 8 then size else size + alignment + freePointerSize

end Request

/-- The block of `address` lies in the page and has room for the bytes behind its header. -/
def Page.Honours (pg : Page) (bytes address : Nat) : Prop :=
  let p := sub64 address workPointerSize
  bytes + workPointerSize ≤ pg.mem.get p .size ∧ pg.head ≤ p ∧ p + pg.mem.get p .size ≤ pg.end_

instance (pg : Page) (bytes address : Nat) : Decidable (pg.Honours bytes address) :=
  inferInstanceAs (Decidable (_ ∧ _ ∧ _))

/-! ### The block that `malloc` cuts off -/

namespace Source

/-- No size overflows on the way to the size of the page. -/
def Room : Source → Nat → Prop
  | .page _, n => Reserves n
  | .made .., n => mmPageSize + req2align n + freePointerSize * 4 + pageAlignedMask < 2 ^ 64

/-- No size that the call adds up overflows. -/
def Fits (s : Source) (r : Request) : Prop := Rounds r.passed ∧ s.Room r.passed

instance (s : Source) (n : Nat) : Decidable (s.Room n) := by
  cases s <;> delta Room <;> infer_instance

instance (s : Source) (r : Request) : Decidable (s.Fits r) := inferInstanceAs (Decidable (_ ∧ _))

/-- The page is one between two calls, or `mmap` has given a new one for the request. No mapping is larger than an
object may be. -/
inductive Ready : Source → Nat → Prop
  | page {pg : Page} {bs : List Blk} {next : Nat → Nat} {n : Nat} (hlaid : pg.Laid bs next)
      (hwhole : pg.head = pg.startAddress ∧ pg.end_ + freePointerSize = pg.startAddress + pg.size)
      (hlarge : pg.size + pageAlignedMask < 2 ^ 63) : Ready (.page pg) n
  | made {pool id start n : Nat} {mem : Mem} (hsize : pageBytes (wrap (mmPageSize + req2align n)) ≠ 0)
      (hspace : start + pageBytes (wrap (mmPageSize + req2align n)) ≤ 2 ^ 64)
      (hlarge : pageBytes (wrap (mmPageSize + req2align n)) + pageAlignedMask < 2 ^ 63) :
      Ready (.made pool id start mem) n

/-- The page whose current block is cut. -/
structure Cut (s : Source) (n : Nat) (pg : Page) : Prop where
  laid : ∃ bs next, pg.Laid bs next
  fits : Rounds n → s.Room n → req2align n + freePointerSize ≤ pg.mem.get pg.ptr .size
  leaves : Rounds n → ¬ s.Room n → pg.end_ < pg.ptr + req2align n
  span : Rounds n → ¬ s.Room n →
    2 ^ 64 ≤ n + workPointerSize + 7 + freePointerSize ∨ pg.end_ + 2 ^ 64 ≤ pg.head + n + 2 ^ 25
  large : pg.end_ + freePointerSize + pageAlignedMask < pg.head + 2 ^ 63

variable {s : Source} {n a : Nat} {pg : Page} {r : Request}

theorem req2align_lt (n : Nat) : req2align n < 2 ^ 64 := by
  have hlt : wrap (n + workPointerSize + 7) < 2 ^ 64 := Nat.mod_lt _ (by simp)
  obtain ⟨-, hF, hW⟩ := workPointerSize_dvd
  rw [req2align]
  split <;> omega

theorem req2align_le (n : Nat) : req2align n ≤ n + workPointerSize + 7 + freePointerSize := by
  have hle : wrap (n + workPointerSize + 7) ≤ n + workPointerSize + 7 := Nat.mod_le ..
  rw [req2align]
  split <;> omega

/-- The rounded size is too small exactly when the rounding overflows. -/
theorem le_req2align_iff (hn : n < 2 ^ 64) : n + workPointerSize ≤ req2align n ↔ Rounds n := by
  constructor
  · intro hle
    obtain ⟨-, hF, hW⟩ := workPointerSize_dvd
    by_contra hover
    rw [Rounds, Nat.not_lt] at hover
    have hwrap : wrap (n + workPointerSize + 7) = n + workPointerSize + 7 - 2 ^ 64 := by
      rw [wrap, Nat.mod_eq_sub_mod hover, Nat.mod_eq_of_lt (by omega)]
    rw [req2align, hwrap] at hle
    split at hle <;> omega
  · exact fun hrounds => hrounds.req2align_spec.2.2

theorem page_cut {bs' : List Blk} {next : Nat → Nat} {pg' : Page} (hsame : pg.Same pg') (hlaid' : pg'.Laid bs' next)
    (hwhole : pg.head = pg.startAddress ∧ pg.end_ + freePointerSize = pg.startAddress + pg.size)
    (hlarge : pg.size + pageAlignedMask < 2 ^ 63)
    (hfits : wrap (req2align n + freePointerSize) ≤ pg'.mem.get pg'.ptr .size) : Cut (.page pg) n pg' := by
  have hhead : pg'.head = pg.head := congrArg Bound.head hsame.1
  have hend : pg'.end_ = pg.end_ := congrArg Bound.end_ hsame.1
  refine ⟨⟨bs', next, hlaid'⟩, fun _ hroom => ?_, fun _ hroom => ?_, fun hn hroom => .inl ?_, ?_⟩
  · rwa [wrap, Nat.mod_eq_of_lt hroom] at hfits
  · obtain ⟨l, x, r, order, rfl, hx, hptr, hlayout⟩ := hlaid'.current
    obtain ⟨hfrom, hto, hle⟩ := hlayout.tiled.bounds.2 x (by simp)
    have hspace := hlayout.space
    have hpos := free_size_pos
    have hne : x.addr ≠ pg'.bound.head := fun heq => by
      have hsentinel := hlayout.tiled.addr_inj (by simp) (List.mem_of_mem_head? hlayout.first) heq
      rw [hsentinel] at hx
      exact absurd hx (by simp)
    have hbound : pg'.bound.end_ = pg'.end_ := rfl
    rw [Room, Reserves, Nat.not_lt] at hroom
    omega
  · obtain ⟨-, hF, hW⟩ := workPointerSize_dvd
    rw [Room, Reserves, Nat.not_lt] at hroom
    have hle := hn.req2align_spec.1
    by_cases hsmall : freePointerSize ≤ n + workPointerSize
    · rw [hn.req2align_eq hsmall] at hroom
      omega
    · rw [req2align, wrap, wrap, Nat.mod_eq_of_lt (by omega), if_pos (by omega)] at hroom
      omega
  · omega

/-- What `malloc` returns is cut off the current block of a page. -/
theorem Ready.cut (h : s.Ready n) (hs : s.malloc n = some (pg, a)) : ∃ pg', s.Cut n pg' ∧
    (pg, a) = pg'.split (req2align n) := by
  have hpos := free_size_pos
  cases h with
  | @page pg₀ bs next _ hlaid hwhole hlarge =>
    have hsmall : freePointerSize ≤ pg₀.mem.get pg₀.ptr .size := by
      obtain ⟨l, x, r, order, rfl, hx, hptr, hlayout⟩ := hlaid.current
      rw [← hptr, hlayout.sizes x (by simp)]
      exact (hlayout.tiled.bounds.2 x (by simp)).2.2
    rw [malloc, Page.malloc] at hs
    by_cases hroom : pg₀.mem.get pg₀.ptr .size < wrap (req2align n + freePointerSize)
    · simp only [if_pos hroom] at hs
      by_cases hfirst : wrap (req2align n + freePointerSize) < pg₀.mem.get (pg₀.mem.get pg₀.head .next) .size
      · simp only [if_pos hfirst, Option.some.injEq] at hs
        obtain ⟨bs', hlaid', -, hsame, hptr, hsize, -⟩ := hlaid.exchange (by omega)
        exact ⟨_, page_cut hsame hlaid' hwhole hlarge (by omega), hs.symm⟩
      · simp [if_neg hfirst] at hs
    · simp only [if_neg hroom, Option.some.injEq] at hs
      exact ⟨_, page_cut ⟨rfl, rfl, rfl⟩ hlaid hwhole hlarge (by omega), hs.symm⟩
  | @made pool id start _ mem hsize hspace hlarge =>
    obtain ⟨next, hlaid, hbound⟩ := mallocPage_laid pool id (wrap (mmPageSize + req2align n)) start mem hsize hspace
    obtain ⟨hle, -, -⟩ := pageBytes_le hsize
    obtain ⟨-, hF, hW⟩ := workPointerSize_dvd
    have hlt := req2align_lt n
    have hle' := req2align_le n
    have hend : (mallocPage pool id (wrap (mmPageSize + req2align n)) start mem).end_ =
        start + pageBytes (wrap (mmPageSize + req2align n)) - freePointerSize := congrArg Bound.end_ hbound
    have hhead : (mallocPage pool id (wrap (mmPageSize + req2align n)) start mem).head = start :=
      congrArg Bound.head hbound
    obtain ⟨order, hlayout⟩ := hlaid.layout
    have hptr : start + freePointerSize = (mallocPage pool id (wrap (mmPageSize + req2align n)) start mem).ptr := by
      have hcurrent := hlayout.current
      simpa [freshBlocks] using hcurrent
    have hfirst : (mallocPage pool id (wrap (mmPageSize + req2align n)) start mem).mem.get
        (mallocPage pool id (wrap (mmPageSize + req2align n)) start mem).ptr .size =
          pageBytes (wrap (mmPageSize + req2align n)) - freePointerSize * 2 := by
      rw [← hptr]
      exact hlayout.sizes ⟨start + freePointerSize, _, .current⟩ (by simp [freshBlocks])
    have hmm : mmPageSize = 16777216 := rfl
    have hmask : pageAlignedMask = 4095 := rfl
    have hover : ¬ (Source.made pool id start mem).Room n → pageBytes (wrap (mmPageSize + req2align n)) + 2 ^ 64 ≤
        mmPageSize + req2align n + freePointerSize * 4 + pageAlignedMask := by
      intro hroom
      have hroom : ¬ mmPageSize + req2align n + freePointerSize * 4 + pageAlignedMask < 2 ^ 64 := hroom
      have hmod := Nat.mod_lt (mmPageSize + req2align n) (Nat.two_pow_pos 64)
      have hcases : wrap (mmPageSize + req2align n) = mmPageSize + req2align n ∨
          wrap (mmPageSize + req2align n) + 2 ^ 64 = mmPageSize + req2align n := by
        rw [wrap]
        omega
      rw [pageBytes]
      generalize wrap (mmPageSize + req2align n) = x at *
      rw [wrap]
      omega
    refine ⟨_, ⟨⟨_, next, hlaid⟩, fun _ hroom => ?_, fun _ hroom => ?_, fun _ hroom => .inr ?_, ?_⟩, ?_⟩
    · simp only [Room] at hroom
      rw [hfirst, pageBytes, wrap, wrap, Nat.mod_eq_of_lt (by omega), Nat.mod_eq_of_lt (by omega)]
      omega
    · have hover := hover hroom
      rw [hend, ← hptr]
      omega
    · have hover := hover hroom
      rw [hend, hhead]
      omega
    · rw [hend, hhead]
      omega
    · rw [malloc, Option.some.injEq] at hs
      exact hs.symm

/-! ### Requests that fit -/

omit [Build] in
/-- The writes of `calloc` start at the address. -/
theorem clear_off {m : Mem} {address size w : Nat} (hw : w < address) : clear m address size w = m w := by
  have hwords : ∀ n (m : Mem), (List.range n).foldl (fun m i => Function.update m (address + 8 * i) 0) m w = m w := by
    intro n
    induction n with
    | zero => simp
    | succ n ih =>
      intro m
      rw [List.range_succ, List.foldl_append, List.foldl_cons, List.foldl_nil, Function.update_of_ne (by omega), ih]
  simp only [clear]
  split
  · exact hwords ..
  · rw [Function.update_of_ne (by omega), hwords]

theorem split_head (pg : Page) (size : Nat) : (pg.split size).2 = wrap (pg.ptr + workPointerSize) ∧
    (pg.split size).1.mem.get pg.ptr .size = size ∧ pg.Same (pg.split size).1 := by
  refine ⟨?_, ?_, rfl, rfl, rfl⟩
  · simp only [Page.split, get_put_self]
  · simp only [Page.split, get_put_self]

variable {pg' : Page} {k size : Nat}

/-- The current block has an address behind the header of the page. -/
theorem Cut.ptr_bounds (h : s.Cut n pg) : pg.head ≤ pg.ptr ∧ pg.ptr + workPointerSize < 2 ^ 64 ∧
    sub64 (pg.ptr + workPointerSize) workPointerSize = pg.ptr := by
  obtain ⟨bs, next, hlaid⟩ := h.laid
  obtain ⟨l, x, r, order, rfl, hx, hptr, hlayout⟩ := hlaid.current
  have hfrom : pg.head ≤ x.addr := (hlayout.tiled.bounds.2 x (by simp)).1
  obtain ⟨-, hto, hle⟩ := hlayout.tiled.bounds.2 x (by simp)
  have hspace := hlayout.space
  have hstop : x.stop = x.addr + x.size := rfl
  have hpos := free_size_pos
  have hwork : workPointerSize ≤ freePointerSize := by simp [workPointerSize, freePointerSize]
  refine ⟨by omega, by omega, ?_⟩
  rw [sub64_eq (by omega) (by omega), Nat.add_sub_cancel]

theorem Cut.honours_iff (h : s.Cut n pg') (hs : (pg, a) = pg'.split size) (bytes : Nat) :
    a = pg'.ptr + workPointerSize ∧
      (pg.Honours bytes a ↔ bytes + workPointerSize ≤ size ∧ pg'.ptr + size ≤ pg'.end_) := by
  obtain ⟨hfrom, hlt, hsub⟩ := h.ptr_bounds
  obtain ⟨haddr, hsize, hbound, -⟩ := split_head pg' size
  rw [← hs] at haddr hsize hbound
  have hhead : pg.head = pg'.head := congrArg Bound.head hbound
  have hend : pg.end_ = pg'.end_ := congrArg Bound.end_ hbound
  have ha : a = pg'.ptr + workPointerSize := haddr.trans (Nat.mod_eq_of_lt hlt)
  refine ⟨ha, ?_⟩
  simp only [Page.Honours, ha, hsub, hsize, hhead, hend]
  tauto

/-- The block of `malloc` holds the number that was meant when that fits. -/
theorem Ready.malloc_iff (h : s.Ready (wrap n)) (hs : s.malloc (wrap n) = some (pg, a)) :
    pg.Honours n a ↔ Rounds n ∧ s.Room n := by
  obtain ⟨pg', hcut, hsplit⟩ := h.cut hs
  rw [(hcut.honours_iff hsplit n).2]
  constructor
  · rintro ⟨hle, hto⟩
    have hlt : n < 2 ^ 64 := by
      have hreq := req2align_lt (wrap n)
      omega
    have hwrap : wrap n = n := Nat.mod_eq_of_lt hlt
    rw [hwrap] at hle hto hcut
    have hrounds := (le_req2align_iff hlt).mp hle
    refine ⟨hrounds, ?_⟩
    by_contra hroom
    exact absurd hto (Nat.not_le.mpr (hcut.leaves hrounds hroom))
  · rintro ⟨hrounds, hroom⟩
    have hwrap : wrap n = n := by
      rw [Rounds] at hrounds
      exact Nat.mod_eq_of_lt (by omega)
    rw [hwrap] at hcut ⊢
    have hfits := hcut.fits hrounds hroom
    obtain ⟨bs, next, hlaid⟩ := hcut.laid
    obtain ⟨l, x, r, order, rfl, -, hptr, hlayout⟩ := hlaid.current
    have hto := (hlayout.tiled.bounds.2 x (by simp)).2.1
    rw [← hptr, hlayout.sizes x (by simp)] at hfits
    rw [Blk.stop] at hto
    have hbound : pg'.bound.end_ = pg'.end_ := rfl
    exact ⟨hrounds.req2align_spec.2.2, by omega⟩

/-- The aligned address is close enough to leave the bytes that were asked for. -/
theorem tail_holds {address d : Nat} (hd : address + d = (address + 2 ^ k + freePointerSize) / 2 ^ k * 2 ^ k) :
    freePointerSize ≤ d ∧ size + workPointerSize + d ≤ (size + 2 ^ k + freePointerSize + workPointerSize + 7) / 8 * 8 := by
  have hmod := Nat.div_add_mod' (address + 2 ^ k + freePointerSize) (2 ^ k)
  have hlt := Nat.mod_lt (address + 2 ^ k + freePointerSize) (Nat.two_pow_pos k)
  omega

/-- An aligned block is within the page, so the bytes are too few to overflow. -/
theorem Cut.fits_of_honours (h : s.Cut n pg') (hspan : pg.head = pg'.head ∧ pg.end_ = pg'.end_) (hk : k < 64)
    (hhonours : pg.Honours size a) (hn : wrap (size + 2 ^ k + freePointerSize) = n) :
    Rounds (size + 2 ^ k + freePointerSize) ∧ s.Room (size + 2 ^ k + freePointerSize) := by
  obtain ⟨hsize, hfrom, hto⟩ := hhonours
  obtain ⟨-, hF, hW⟩ := workPointerSize_dvd
  have hpow : 2 ^ k ≤ 2 ^ 63 := Nat.pow_le_pow_right (by simp) (by omega)
  have hlarge := h.large
  have hmask : pageAlignedMask = 4095 := rfl
  have hrounds : Rounds (size + 2 ^ k + freePointerSize) := by
    rw [Rounds]
    omega
  refine ⟨hrounds, ?_⟩
  by_contra hroom
  rw [wrap, Nat.mod_eq_of_lt (by omega)] at hn
  rw [hn] at hrounds hroom
  have hover := h.span hrounds hroom
  omega

theorem Ready.aligned_iff (h : s.Ready (wrap (size + 2 ^ k + freePointerSize))) (hk : k < 64)
    (hs : s.malloc (wrap (size + 2 ^ k + freePointerSize)) = some (pg, a)) :
    Page.Honours (if maskOff a (2 ^ k) = a then (pg, a) else pg.carve a (2 ^ k)).1 size
        (if maskOff a (2 ^ k) = a then (pg, a) else pg.carve a (2 ^ k)).2 ↔
      Rounds (size + 2 ^ k + freePointerSize) ∧ s.Room (size + 2 ^ k + freePointerSize) := by
  obtain ⟨pg', hcut, hsplit⟩ := h.cut hs
  obtain ⟨ha, hiff⟩ := hcut.honours_iff hsplit size
  have hsame : pg'.Same pg := by
    have hhead := (split_head pg' (req2align (wrap (size + 2 ^ k + freePointerSize)))).2.2
    rwa [← hsplit] at hhead
  have hcarved : pg'.Same (if maskOff a (2 ^ k) = a then (pg, a) else pg.carve a (2 ^ k)).1 := by
    split
    · exact hsame
    · exact hsame.trans (Page.freePointer_same ..)
  constructor
  · intro hhonours
    exact hcut.fits_of_honours ⟨congrArg Bound.head hcarved.1, congrArg Bound.end_ hcarved.1⟩ hk hhonours rfl
  · rintro ⟨hrounds, hroom⟩
    have hF := free_size_pos
    have hpow := Nat.two_pow_pos k
    have hwrap : wrap (size + 2 ^ k + freePointerSize) = size + 2 ^ k + freePointerSize := by
      rw [Rounds] at hrounds
      exact Nat.mod_eq_of_lt (by omega)
    rw [hwrap] at hcut hsplit hiff
    have hfits := hcut.fits hrounds hroom
    obtain ⟨hle, hdvd, hbytes⟩ := hrounds.req2align_spec
    obtain ⟨bs, next, hlaid⟩ := hcut.laid
    obtain ⟨bs', next', hlaid', -, hlives, -, -⟩ := hlaid.split hle hdvd hfits
    rw [← hsplit] at hlaid'
    have hb : (⟨pg'.ptr, req2align (size + 2 ^ k + freePointerSize), .live⟩ : Blk) ∈ lives bs' :=
      hlives.mem_iff.mpr List.mem_cons_self
    have hto : pg'.ptr + req2align (size + 2 ^ k + freePointerSize) ≤ pg'.end_ := by
      obtain ⟨l, x, r, order, rfl, -, hptr, hlayout⟩ := hlaid.current
      have hto := (hlayout.tiled.bounds.2 x (by simp)).2.1
      rw [← hptr, hlayout.sizes x (by simp)] at hfits
      rw [Blk.stop] at hto
      have hbound : pg'.bound.end_ = pg'.end_ := rfl
      omega
    have hspace : pg'.end_ + freePointerSize ≤ 2 ^ 64 := by
      obtain ⟨order, hlayout⟩ := hlaid.layout
      exact hlayout.space
    split
    · exact hiff.mpr ⟨by omega, hto⟩
    · obtain ⟨d, hd⟩ : ∃ d, a + d = (a + 2 ^ k + freePointerSize) / 2 ^ k * 2 ^ k := by
        have hmod := Nat.div_add_mod' (a + 2 ^ k + freePointerSize) (2 ^ k)
        have hlt := Nat.mod_lt (a + 2 ^ k + freePointerSize) (Nat.two_pow_pos k)
        exact ⟨_, Nat.add_sub_cancel' (by omega)⟩
      obtain ⟨hfront, htail⟩ := @tail_holds _ k size a d hd
      obtain ⟨-, hFW, -⟩ := workPointerSize_dvd
      have hwork : 16 ≤ workPointerSize := by simp [workPointerSize]
      rw [← hrounds.req2align_eq (by omega)] at htail
      have haligned : maskOff (wrap (pg'.ptr + workPointerSize + 2 ^ k + freePointerSize)) (2 ^ k) =
          pg'.ptr + d + workPointerSize := by
        rw [← ha, wrap, Nat.mod_eq_of_lt (by omega), maskOff_eq hk (by omega), ← hd, ha]
        omega
      obtain ⟨haddr, hheader, hbound, -⟩ := hlaid'.carve_size hb hfront (by simp only; omega) haligned
      have hhead : (pg.carve a (2 ^ k)).1.head = pg'.head := by
        rw [ha]
        exact (congrArg Bound.head hbound).trans (congrArg Bound.head hsame.1)
      have hend : (pg.carve a (2 ^ k)).1.end_ = pg'.end_ := by
        rw [ha]
        exact (congrArg Bound.end_ hbound).trans (congrArg Bound.end_ hsame.1)
      obtain ⟨hfrom, -, -⟩ := hcut.ptr_bounds
      have hsub : sub64 (pg'.ptr + d + workPointerSize) workPointerSize = pg'.ptr + d := by
        rw [sub64_eq (by omega) (by omega), Nat.add_sub_cancel]
      rw [← ha] at haddr hheader
      simp only [Page.Honours, haddr, hsub, hheader, hhead, hend]
      omega

/-! ### Every request -/

/-- The page is one that a run of fitting calls has left, or one that `malloc` makes for the request. -/
inductive Reached : Source → Nat → Prop
  | page (h : Heap) (hbegins : h.Begins) (es : List Event)
    (hes : Along Heap.step (fun h e => h.Legal e ∧ h.Fits e) h es)
      (n : Nat) (hlarge : (run Heap.step h es).page.size + pageAlignedMask < 2 ^ 63) :
      Reached (.page (run Heap.step h es).page) n
  | made (pool id start n : Nat) (mem : Mem) (hsize : pageBytes (wrap (mmPageSize + req2align n)) ≠ 0)
      (hspace : start + pageBytes (wrap (mmPageSize + req2align n)) ≤ 2 ^ 64)
      (hlarge : pageBytes (wrap (mmPageSize + req2align n)) + pageAlignedMask < 2 ^ 63) :
      Reached (.made pool id start mem) n

theorem Reached.ready (h : s.Reached n) : s.Ready n := by
  cases h with
  | page h hbegins es hes _ hlarge =>
    obtain ⟨bs, next, held, parked, hs⟩ := Heap.runs_sound hbegins hes
    exact .page hs.laid ⟨hs.whole.1, hs.whole.2.1⟩ hlarge
  | made pool id start _ mem hsize hspace hlarge => exact .made hsize hspace hlarge

end Source

/-- A call that returns a block honours the number of bytes it was asked for exactly when none of the sizes on the way
overflows. -/
theorem honoured_requests (s : Source) (r : Request) (hr : r.Words) (hs : s.Reached (wrap r.passed)) :
    ∀ e ∈ r.serve s, e.1.Honours r.bytes e.2 ↔ s.Fits r := by
  rintro ⟨pg, a⟩ he
  rw [Option.mem_def] at he
  have hready := hs.ready
  cases r with
  | malloc n =>
    have hwrap : wrap n = n := Nat.mod_eq_of_lt hr
    simp only [Request.serve] at he
    apply hready.malloc_iff
    rwa [Request.passed, hwrap]
  | calloc number size =>
    simp only [Request.serve, Source.calloc] at he
    split at he
    · exact absurd he (by simp)
    · next pg' a' hmalloc =>
      obtain ⟨rfl, rfl⟩ : { pg' with mem := clear pg'.mem a' (wrap (size * number)) } = pg ∧ a' = a := by simpa using he
      rw [Source.Fits, ← hready.malloc_iff hmalloc]
      obtain ⟨pg₀, hcut, hsplit⟩ := hready.cut hmalloc
      obtain ⟨-, -, hsub⟩ := hcut.ptr_bounds
      have ha := (hcut.honours_iff hsplit 0).1
      have hsize : Field.size.offset < workPointerSize := by
        simp only [Field.offset, workPointerSize]
        omega
      have hclear : Mem.get (clear pg'.mem a' (wrap (size * number))) pg₀.ptr .size = pg'.mem.get pg₀.ptr .size :=
        Source.clear_off (by omega)
      simp only [Page.Honours, Request.bytes, Request.passed, ha, hsub] at hclear ⊢
      rw [hclear, Nat.mul_comm]
  | alignedAlloc alignment size =>
    simp only [Request.serve, Source.alignedAlloc] at he
    rw [Source.Fits]
    rw [Request.passed] at hready ⊢
    split at he
    · next h8 =>
      simp only [h8, if_true] at hready ⊢
      have hwrap : wrap size = size := Nat.mod_eq_of_lt hr.2
      exact hready.malloc_iff (by rwa [hwrap])
    · next h8 =>
      simp only [h8, if_false] at hready ⊢
      split at he
      · exact absurd he (by simp)
      · next hvalid =>
        simp only [not_or, not_not] at hvalid
        obtain ⟨-, hzero, hlow, hpow⟩ := hvalid
        obtain ⟨k, -, hk, rfl⟩ := exists_pow_of_admitted hr.1 h8 hzero hlow hpow
        split at he
        · exact absurd he (by simp)
        · next pg' a' hmalloc =>
          have hiff := hready.aligned_iff hk hmalloc
          have hresult : (if maskOff a' (2 ^ k) = a' then (pg', a') else pg'.carve a' (2 ^ k)) = (pg, a) := by
            split at he <;> split <;> simp_all
          rw [hresult] at hiff
          exact hiff

omit [Build] in
/-- Three elements of 8 bytes on a page with a block. -/
theorem honoured_requests_sample :
    letI := untraced
    ∃ e ∈ (Request.calloc 3 8).serve (.page (run Heap.step (.fresh 0 0 4096 65536 fun _ => 0) [.malloc 32]).page),
      (e.1.Honours (Request.calloc 3 8).bytes e.2 ↔
        Source.Fits (.page (run Heap.step (.fresh 0 0 4096 65536 fun _ => 0) [.malloc 32]).page) (.calloc 3 8)) := by
  have hserved : letI := untraced
      ((Request.calloc 3 8).serve
        (.page (run Heap.step (.fresh 0 0 4096 65536 fun _ => 0) [.malloc 32]).page)).isSome = true := by decide +kernel
  obtain ⟨e, he⟩ := Option.isSome_iff_exists.mp hserved
  refine ⟨e, he, ?_⟩
  exact @honoured_requests untraced _ (.calloc 3 8) ⟨by decide, by decide⟩
    (@Source.Reached.page untraced _
      (@Heap.Begins.page untraced 0 0 4096 65536 (fun _ => 0) (by decide) (by decide) (by decide)) [.malloc 32]
      (by decide +kernel) _ (by decide +kernel)) e he

omit [Build] in
/-- The product of the arguments is 0 in 64 bits, and the block is the smallest one. -/
theorem wrapped_product :
    letI := untraced
    Request.Words (.calloc (2 ^ 32) (2 ^ 32)) ∧
    ∃ pg a, (Request.calloc (2 ^ 32) (2 ^ 32)).serve (.page (Heap.fresh 0 0 4096 65536 fun _ => 0).page) =
      some (pg, a) ∧
      ¬ pg.Honours (2 ^ 32 * 2 ^ 32) a := by
  refine ⟨⟨by decide, by decide⟩, _, _, rfl, ?_⟩
  decide +kernel

end Wenas.Xmalloc
