import Wenas.Xmalloc.Leaks

/-!
# The largest block first

`malloc` asks a page for its current block and for the first one of its queue only. As long as the first one is the largest,
a page that is passed over has nothing that is large enough.
-/
namespace Wenas.Xmalloc
open Wenas.Links Wenas.Machine

variable [Build]

/-- The blocks of a page, as the headers tell them. -/
structure Page.Divided (pg : Page) (bs : List Blk) : Prop where
  tiles : Tiled pg.head bs pg.end_
  sizes : ∀ b ∈ bs, pg.mem.get b.addr .size = b.size
  tells : ∀ b ∈ bs, b.isFree = mergeable pg.mem b.stop
  queue : ∃ order, order.Nodup ∧ (∀ p, p ∈ order ↔ p ≠ pg.ptr ∧ ∃ b ∈ bs, b.isFree ∧ b.addr = p) ∧
    Linked (fun p => pg.mem.get p .next) (fun p => pg.mem.get p .prev) pg.head order pg.end_

/-- `head->next` is a free block, and the largest one besides the current one, or `end` when there is no other. -/
def Page.FirstLargest (pg : Page) (bs : List Blk) : Prop :=
  (pg.mem.get pg.head .next = pg.end_ ∧ ∀ c ∈ bs, c.isFree → c.addr = pg.ptr) ∨
    ∃ b ∈ bs, b.isFree ∧ b.addr ≠ pg.ptr ∧ b.addr = pg.mem.get pg.head .next ∧
      ∀ c ∈ bs, c.isFree → c.addr ≠ pg.ptr → c.size ≤ b.size

/-- A request that the page is passed over for is for more than each of its free blocks can spare. -/
def Page.SkippedRightly (pg : Page) (bs : List Blk) : Prop :=
  ∀ n, (pg.malloc n).2 = none → ∀ b ∈ bs, b.isFree → b.size ≤ wrap (req2align n + freePointerSize)

variable {pg : Page} {bs held : List Blk} {next : Nat → Nat} {h : Heap} {parked : Fin 3 → List Blk} {i : Fin 3}
  {e : Event}

/-! ### What the order is for -/

theorem Page.Laid.divided (h : pg.Laid bs next) : pg.Divided bs := by
  obtain ⟨⟨order, hlayout⟩, hclosed⟩ := h
  refine ⟨hlayout.tiled, hlayout.sizes, fun b hb => (hlayout.mergeable_eq hb (hclosed b hb)).symm, order,
    hlayout.order_nodup, fun p => ?_, hlayout.queue⟩
  rw [hlayout.mem_order]
  constructor
  · rintro ⟨b, hb, hkind, rfl⟩
    refine ⟨fun heq => ?_, b, hb, Heap.isFree_iff.mpr (.inl hkind), rfl⟩
    rw [(hlayout.current_iff hb).mpr heq] at hkind
    exact absurd hkind (by simp)
  · rintro ⟨hne, b, hb, hfree, rfl⟩
    obtain hkind | hkind := Heap.isFree_iff.mp hfree
    · exact ⟨b, hb, hkind, rfl⟩
    · exact absurd ((hlayout.current_iff hb).mp hkind) hne

theorem Page.Laid.firstLargest (h : pg.Laid bs next) (hpeak : pg.Peaked) : pg.FirstLargest bs := by
  obtain ⟨⟨order, hlayout⟩, -⟩ := h
  have hqueue : pg.queue = order := hlayout.follow_eq
  have hfree : ∀ c ∈ bs, c.isFree → c.addr ≠ pg.ptr → c.addr ∈ order := by
    intro c hc hfree hne
    obtain hkind | hkind := Heap.isFree_iff.mp hfree
    · exact hlayout.mem_order.mpr ⟨c, hc, hkind, rfl⟩
    · exact absurd ((hlayout.current_iff hc).mp hkind) hne
  rw [Page.Peaked, hqueue] at hpeak
  cases order with
  | nil =>
    refine .inl ⟨hlayout.queue.1, fun c hc hcfree => ?_⟩
    by_contra hne
    exact absurd (hfree c hc hcfree hne) List.not_mem_nil
  | cons p ps =>
    obtain ⟨b, hb, hkind, rfl⟩ := hlayout.mem_order.mp List.mem_cons_self
    refine .inr ⟨b, hb, Heap.isFree_iff.mpr (.inl hkind), fun heq => ?_, hlayout.queue.1.symm,
      fun c hc hcfree hne => ?_⟩
    · rw [(hlayout.current_iff hb).mpr heq] at hkind
      exact absurd hkind (by simp)
    · have hle := hpeak.head_le (hfree c hc hcfree hne)
      simp only [Page.sizeAt] at hle
      rwa [hlayout.sizes c hc, hlayout.sizes b hb] at hle

theorem Page.Laid.skippedRightly (h : pg.Laid bs next) (hfirst : pg.FirstLargest bs) : pg.SkippedRightly bs := by
  obtain ⟨⟨order, hlayout⟩, -⟩ := h
  intro n hnone b hb hfree
  rw [Page.malloc] at hnone
  split at hnone
  · next hcurrent =>
    split at hnone
    · exact absurd hnone (by simp)
    · next hsmall =>
      by_cases hptr : b.addr = pg.ptr
      · rw [← hlayout.sizes b hb, hptr]
        exact hcurrent.le
      · obtain ⟨-, hnothing⟩ | ⟨c, hc, -, -, haddr, hlargest⟩ := hfirst
        · exact absurd (hnothing b hb hfree) hptr
        · rw [← haddr, hlayout.sizes c hc, Nat.not_lt] at hsmall
          exact (hlargest b hb hfree hptr).trans hsmall
  · exact absurd hnone (by simp)

/-- The order is seen in the memory. -/
theorem Page.Divided.peaked (hd : pg.Divided bs) (hfirst : pg.FirstLargest bs) : pg.Peaked := by
  obtain ⟨order, hnodup, hmem, hlinked⟩ := hd.queue
  have hsub : order ⊆ bs.map Blk.addr := by
    intro p hp
    obtain ⟨-, b, hb, -, rfl⟩ := (hmem p).mp hp
    exact List.mem_map_of_mem hb
  have hqueue : pg.queue = order := by
    apply follow_eq hlinked
    · intro hp
      obtain ⟨-, b, hb, -, haddr⟩ := (hmem _).mp hp
      exact hd.tiles.addr_ne_end hb haddr
    · have hle := hd.tiles.length_le
      have hlength := hnodup.length_le_of_subset hsub
      rw [List.length_map] at hlength
      omega
  rw [Page.Peaked, hqueue]
  cases order with
  | nil => trivial
  | cons p ps =>
    intro q hq
    obtain ⟨hqne, c, hc, hcfree, rfl⟩ := (hmem q).mp (List.mem_cons_of_mem _ hq)
    obtain ⟨-, hnothing⟩ | ⟨b, hb, -, -, haddr, hlargest⟩ := hfirst
    · exact absurd (hnothing c hc hcfree) hqne
    · have hp : b.addr = p := haddr.trans hlinked.1
      have hle := hlargest c hc hcfree hqne
      simp only [Page.sizeAt]
      rwa [← hp, hd.sizes c hc, hd.sizes b hb]

/-! ### Runs -/

namespace Heap

/-- One turn of the loop over a recycle pool. -/
def turn (i : Fin 3) (h : Heap) : Heap :=
  { h with
    recycle := Function.update h.recycle i (h.page.mem.get (h.recycle i) .next)
    page := h.page.freePointer (h.recycle i) }

/-- `Page.FreeKeeps` in every turn of the loop over a recycle pool. -/
def DrainKeeps : Nat → Fin 3 → Heap → Prop
  | 0, _, _ => True
  | turns + 1, i, h => h.recycle i = 0 ∨ h.page.FreeKeeps (h.recycle i) ∧ DrainKeeps turns i (h.turn i)

/-- The recycle pools have numerals. -/
instance neZero_pools : NeZero 3 := inferInstance

/-- `Page.FreeKeeps` and `Page.MallocKeeps` for what the calls do. The runs are those of `malloc` and `free`. -/
def Keeps (h : Heap) : Event → Prop
  | .malloc n => h.page.MallocKeeps n
  | .alignedAlloc _ _ => False
  | .free a => h.page.FreeKeeps (sub64 a workPointerSize)
  | .flush => DrainKeeps h.page.size 0 h ∧ DrainKeeps h.page.size 1 (drain h.page.size 0 h) ∧
    DrainKeeps h.page.size 2 (drain h.page.size 1 (drain h.page.size 0 h))
  | _ => True

instance instDecidableDrainKeeps : (turns : Nat) → (i : Fin 3) → (h : Heap) → Decidable (DrainKeeps turns i h)
  | 0, _, _ => .isTrue trivial
  | turns + 1, i, h =>
    have : Decidable (DrainKeeps turns i (h.turn i)) := instDecidableDrainKeeps turns i (h.turn i)
    inferInstanceAs (Decidable (_ ∨ _ ∧ _))

instance (h : Heap) : (e : Event) → Decidable (h.Keeps e)
  | .malloc _ => inferInstanceAs (Decidable (Page.MallocKeeps ..))
  | .alignedAlloc _ _ => .isFalse id
  | .free _ => inferInstanceAs (Decidable (Page.FreeKeeps ..))
  | .park _ _ => .isTrue trivial
  | .flush => inferInstanceAs (Decidable (_ ∧ _ ∧ _))
  | .store _ _ => .isTrue trivial

/-- A block of a recycle pool is freed. -/
theorem Sound.turn_peaked (hs : h.Sound bs next held parked) (hi : h.recycle i ≠ 0) (hpeak : h.page.Peaked)
    (hkeeps : h.page.FreeKeeps (h.recycle i)) : (h.turn i).page.Peaked := by
  have hthread := hs.threads i
  cases hparked : parked i with
  | nil =>
    rw [hparked] at hthread
    exact absurd hthread hi
  | cons b ps =>
    rw [hparked] at hthread
    have hb : b ∈ lives bs := hs.mem_parked (i := i) (by simp [hparked])
    obtain ⟨bs', -, -, -, hrelease⟩ := hs.laid.release hb
    rw [hthread.1] at hkeeps
    rw [turn, hthread.1]
    exact hrelease hpeak hkeeps

theorem Sound.drain_peaked (hs : h.Sound bs next held parked) {turns : Nat} (hpeak : h.page.Peaked)
    (hkeeps : DrainKeeps turns i h) : (Heap.drain turns i h).page.Peaked := by
  induction turns generalizing h bs parked with
  | zero => exact hpeak
  | succ turns ih =>
    obtain ⟨bs', hturn, -, -⟩ := hs.drain 1 i
    by_cases hi : h.recycle i = 0
    · rw [Heap.drain, if_pos hi]
      exact hpeak
    · obtain ⟨hfirst, hrest⟩ := hkeeps.resolve_left hi
      rw [Heap.drain, if_neg hi] at hturn ⊢
      exact ih hturn (hs.turn_peaked hi hpeak hfirst) hrest

/-- The first block stays the largest in every step. -/
theorem Sound.step_peaked (hs : h.Sound bs next held parked) (hpeak : h.page.Peaked) (hlegal : h.Legal e)
    (hfits : h.Fits e)
    (hkeeps : h.Keeps e) : (h.step e).page.Peaked := by
  cases e with
  | malloc n =>
    obtain hnone | ⟨a, bs', next', ha, -, -, -, -, hmalloc⟩ := hs.laid.malloc hlegal hfits
    · rw [Heap.step, hnone]
      exact hpeak
    · rw [Heap.step, ← Prod.mk.eta (p := h.page.malloc n), ha]
      exact hmalloc hpeak hkeeps
  | alignedAlloc alignment size => exact absurd hkeeps id
  | free a =>
    obtain ⟨x, hx, rfl⟩ := List.mem_map.mp hlegal
    obtain ⟨b, hb, hxb, -⟩ := exists_held hs.holds hx
    obtain ⟨bs', -, -, -, hrelease⟩ := hs.laid.release (hs.mem_held hb)
    have hptr : sub64 x.1 workPointerSize = b.addr := by
      rw [hxb]
      exact hs.laid.addr_eq (List.mem_of_mem_filter (hs.mem_held hb))
    rw [Keeps, hptr] at hkeeps
    rw [Heap.step, Page.free, hptr]
    exact hrelease hpeak hkeeps
  | park i a =>
    obtain ⟨x, hx, rfl⟩ := List.mem_map.mp hlegal
    obtain ⟨b, hb, hxb, -⟩ := exists_held hs.holds hx
    have hmem := hs.mem_held hb
    have hptr : sub64 x.1 workPointerSize = b.addr := by
      rw [hxb]
      exact hs.laid.addr_eq (List.mem_of_mem_filter hmem)
    have hoffset := offset_lt .next
    have hsize : freePointerSize ≤ b.size := by
      obtain ⟨order, hlayout⟩ := hs.laid.layout
      exact (hlayout.tiled.bounds.2 b (List.mem_of_mem_filter hmem)).2.2
    obtain ⟨next', -, -, -, hstore⟩ := hs.laid.store (p := b.addr + Field.next.offset) hmem
      (by simp only [Field.offset]; omega) (by rw [Blk.stop]; omega) (h.recycle i)
    rw [Heap.step, hptr]
    exact hstore hpeak
  | flush =>
    obtain ⟨hkeeps₀, hkeeps₁, hkeeps₂⟩ := hkeeps
    obtain ⟨bs₀, h₀, -, -⟩ := hs.drain h.page.size 0
    obtain ⟨bs₁, h₁, -, -⟩ := h₀.drain h.page.size 1
    exact h₁.drain_peaked (h₀.drain_peaked (hs.drain_peaked hpeak hkeeps₀) hkeeps₁) hkeeps₂
  | store p v =>
    obtain ⟨x, hx, hfrom, hto⟩ := hlegal
    obtain ⟨b, hb, haddr, hsize⟩ := exists_held hs.holds hx
    obtain ⟨next', -, -, -, hstore⟩ := hs.laid.store (p := p) (hs.mem_held hb) (by omega) (by rw [Blk.stop]; omega) v
    exact hstore hpeak

theorem runs_peaked {es : List Event} (hbegins : h.Begins)
    (hes : Along Heap.step (fun h e => h.Legal e ∧ h.Fits e ∧ h.Keeps e) h es) :
    ∃ bs next held parked, (run Heap.step h es).Sound bs next held parked ∧ (run Heap.step h es).page.Peaked := by
  have hstep : ∀ (h : Heap) (e : Event), (∃ bs next held parked, h.Sound bs next held parked ∧ h.page.Peaked) →
      h.Legal e ∧ h.Fits e ∧ h.Keeps e → ∃ bs next held parked, (h.step e).Sound bs next held parked ∧
        (h.step e).page.Peaked := by
    intro h e hs hok
    obtain ⟨bs, next, held, parked, hs, hpeak⟩ := hs
    obtain ⟨bs', next', held', parked', hs', -⟩ := hs.step hok.1 hok.2.1
    exact ⟨bs', next', held', parked', hs', hs.step_peaked hpeak hok.1 hok.2.1 hok.2.2⟩
  obtain ⟨bs, next, held, hs⟩ := hbegins.sound
  exact Along.invariant hstep hes ⟨bs, next, held, _, hs, hbegins.peaked⟩

end Heap

/-- In every run that never lets the first block of the queue go while the second one is smaller than another, the first
one is the largest, and a page is passed over rightly. -/
theorem first_largest (h : Heap) (hbegins : h.Begins) (es : List Event)
    (hes : Along Heap.step (fun h e => h.Legal e ∧ h.Fits e ∧ h.Keeps e) h es) :
    ∃ bs, (run Heap.step h es).page.Divided bs ∧ (run Heap.step h es).page.FirstLargest bs ∧
      (run Heap.step h es).page.SkippedRightly bs := by
  obtain ⟨bs, next, held, parked, hs, hpeak⟩ := Heap.runs_peaked hbegins hes
  have hfirst := hs.laid.firstLargest hpeak
  exact ⟨bs, hs.laid.divided, hfirst, hs.laid.skippedRightly hfirst⟩

omit [Build] in
/-- Three blocks are freed, and the largest one becomes the current one. -/
theorem first_largest_sample :
    letI := untraced
    ∃ bs, (run Heap.step (.fresh 0 0 4096 65536 fun _ => 0)
        [.malloc 100, .malloc 8, .malloc 500, .malloc 8, .free 65584, .park 1 65736, .flush,
          .malloc 8]).page.Divided bs ∧
      (run Heap.step (.fresh 0 0 4096 65536 fun _ => 0)
        [.malloc 100, .malloc 8, .malloc 500, .malloc 8, .free 65584, .park 1 65736, .flush,
          .malloc 8]).page.FirstLargest bs ∧
      (run Heap.step (.fresh 0 0 4096 65536 fun _ => 0)
        [.malloc 100, .malloc 8, .malloc 500, .malloc 8, .free 65584, .park 1 65736, .flush,
          .malloc 8]).page.SkippedRightly bs :=
  @first_largest untraced _ (@Heap.Begins.page untraced 0 0 4096 65536 (fun _ => 0) (by decide) (by decide) (by decide)) _
    (by decide +kernel)

omit [Build] in
/-- The largest of three free blocks becomes a part of the current one, and the smallest one is left in front. -/
theorem small_first :
    letI := untraced
    Along Heap.step (fun h e => h.Legal e ∧ h.Fits e) (.fresh 0 0 4096 65536 fun _ => 0)
      [.malloc 100, .malloc 8, .malloc 500, .malloc 8, .malloc 1000, .malloc 8, .free 66288, .free 65584, .free 65736,
        .free 67304] ∧
    ¬ ∃ bs, (run Heap.step (.fresh 0 0 4096 65536 fun _ => 0)
        [.malloc 100, .malloc 8, .malloc 500, .malloc 8, .malloc 1000, .malloc 8, .free 66288, .free 65584, .free 65736,
          .free 67304]).page.Divided bs ∧
      (run Heap.step (.fresh 0 0 4096 65536 fun _ => 0)
        [.malloc 100, .malloc 8, .malloc 500, .malloc 8, .malloc 1000, .malloc 8, .free 66288, .free 65584, .free 65736,
          .free 67304]).page.FirstLargest bs := by
  refine ⟨by decide +kernel, ?_⟩
  rintro ⟨bs, hdivided, hfirst⟩
  exact absurd (@Page.Divided.peaked untraced _ _ hdivided hfirst) (by decide +kernel)

end Wenas.Xmalloc
