import Wenas.Xmalloc.Runs

/-!
# The invariant of a page, and its leaks

What a sound heap says of the page in the words of its memory: the blocks that `__next_pointer` leads over, their flags, the
queue, and the payloads. With it `xmalloc_leak_trace` finds exactly the pages on which a block is held.
-/
namespace Wenas.Xmalloc
open Wenas.Links Wenas.Machine

variable [Build]

variable {h : Heap} {bs held : List Blk} {next : Nat → Nat} {parked : Fin 3 → List Blk} {b c : Blk} {es : List Event}

/-- The blocks of a page between two calls. -/
structure Heap.Tidy (h : Heap) (bs : List Blk) : Prop where
  tiles : Tiled h.page.head bs h.page.end_
  walks : ∀ b ∈ bs, nextPointer h.page.mem b.addr = b.stop
  whole : h.page.head = h.page.startAddress ∧ h.page.end_ + freePointerSize = h.page.startAddress + h.page.size
  tells : ∀ b ∈ bs, b.isFree = mergeable h.page.mem b.stop
  marks : ∀ b ∈ bs, h.page.mem.get b.stop .flag = if b.isFree then b.size else h.page.tag
  queue : ∃ order, order.Nodup ∧ (∀ p, p ∈ order ↔ p ≠ h.page.ptr ∧ ∃ b ∈ bs, b.isFree ∧ b.addr = p) ∧
    Linked (fun p => h.page.mem.get p .next) (fun p => h.page.mem.get p .prev) h.page.head order h.page.end_
  settled : bs.IsChain fun b c => ¬ (b.isFree ∧ c.isFree)
  taken : ∀ b ∈ bs, b.isFree = false ↔ b.addr = h.page.head ∨ b.addr + workPointerSize ∈ h.live.map Prod.fst

/-- The payloads that the program holds do not overlap and are inside the page. -/
structure Heap.Payloads (h : Heap) : Prop where
  disjoint : h.live.Pairwise fun e e' => e.1 + e.2 ≤ e'.1 ∨ e'.1 + e'.2 ≤ e.1
  inside : ∀ e ∈ h.live, h.page.startAddress ≤ e.1 ∧ e.1 + e.2 ≤ h.page.startAddress + h.page.size

/-- The walk over `n` headers from `p` finds room for each, or the end. -/
def Page.spaced (pg : Page) : Nat → Nat → Bool
  | 0, _ => true
  | n + 1, p => p == pg.end_ || (decide (p + freePointerSize ≤ nextPointer pg.mem p) && pg.spaced n (nextPointer pg.mem p))

namespace Heap

omit [Build] in
theorem isFree_iff : b.isFree ↔ b.kind = .queued ∨ b.kind = .current := by
  rw [Blk.isFree]
  cases b.kind <;> simp [Kind.isFree]

theorem Sound.free_iff (hs : h.Sound bs next held parked) (hb : b ∈ bs) :
    b.isFree = false ↔ b.addr = h.page.head ∨ b ∈ lives bs := by
  obtain ⟨order, hlayout⟩ := hs.laid.layout
  have hopened := hs.laid.closed b hb
  rw [lives, List.mem_filter, decide_eq_true_eq]
  constructor
  · intro hfree
    have hkind : b.kind = .sentinel ∨ b.kind = .live := by
      revert hfree hopened
      rw [Blk.isFree]
      cases b.kind <;> simp [Kind.isFree]
    obtain hkind | hkind := hkind
    · exact .inl (hlayout.alone b hb hkind)
    · exact .inr ⟨hb, hkind⟩
  · rintro (haddr | ⟨-, hkind⟩)
    · have hfirst := List.mem_of_mem_head? hlayout.first
      rw [hlayout.tiled.addr_inj hb hfirst haddr]
      rfl
    · simp [Blk.isFree, Kind.isFree, hkind]

theorem exists_live {live : List (Nat × Nat)} (hholds : live.Forall₂ Holds held) (hb : b ∈ held) :
    b.addr + workPointerSize ∈ live.map Prod.fst := by
  induction hholds with
  | nil => exact absurd hb List.not_mem_nil
  | @cons e c live held hec _ ih =>
    obtain rfl | hb := List.mem_cons.mp hb
    · rw [← hec.1]
      exact List.mem_cons_self
    · exact List.mem_cons_of_mem _ (ih hb)

theorem Sound.tidy (hs : h.Sound bs next held fun _ => []) : h.Tidy bs := by
  obtain ⟨order, hlayout⟩ := hs.laid.layout
  have hclosed := hs.laid.closed
  have hblocks : (lives bs).Perm held := by simpa using hs.blocks
  exact
    { tiles := hlayout.tiled
      walks := fun b hb => hlayout.nextPointer_eq hb
      whole := ⟨hs.whole.1, hs.whole.2.1⟩
      tells := fun b hb => (hlayout.mergeable_eq hb (hclosed b hb)).symm
      marks := fun b hb => hlayout.marks b hb (hclosed b hb)
      queue := by
        refine ⟨order, ?_, fun p => ?_, hlayout.queue⟩
        · exact (List.nodup_cons.mp (List.nodup_append.mp hlayout.queue_nodup).1).2
        · rw [hlayout.mem_order]
          constructor
          · rintro ⟨b, hb, hkind, rfl⟩
            refine ⟨fun heq => ?_, b, hb, isFree_iff.mpr (.inl hkind), rfl⟩
            rw [← hlayout.current_iff hb, hkind] at heq
            exact absurd heq (by simp)
          · rintro ⟨hne, b, hb, hfree, rfl⟩
            obtain hkind | hkind := isFree_iff.mp hfree
            · exact ⟨b, hb, hkind, rfl⟩
            · exact absurd ((hlayout.current_iff hb).mp hkind) hne
      settled := hlayout.settled
      taken := by
        intro b hb
        rw [hs.free_iff hb]
        refine or_congr_right ⟨fun hlive => exists_live hs.holds (hblocks.mem_iff.mp hlive), fun haddr => ?_⟩
        obtain ⟨e, he, heq⟩ := List.mem_map.mp haddr
        obtain ⟨c, hc, haddr', -⟩ := exists_held hs.holds he
        have hcb : c.addr = b.addr := by omega
        have hclive := hblocks.mem_iff.mpr hc
        rwa [hlayout.tiled.addr_inj (List.mem_of_mem_filter hclive) hb hcb] at hclive }

/-- On a tidy page the walk over the headers finds room for each. -/
theorem Tidy.spaced (ht : h.Tidy bs) (n : Nat) : h.page.spaced n h.page.head = true := by
  have htiles := ht.tiles
  have hwalks := ht.walks
  clear ht
  generalize h.page.head = a at htiles
  induction n generalizing a bs with
  | zero => rfl
  | succ n ih =>
    rw [Page.spaced]
    cases bs with
    | nil => simp [show a = h.page.end_ from htiles]
    | cons b bs =>
      obtain ⟨rfl, hsize, -, hrest⟩ := htiles
      rw [hwalks b List.mem_cons_self, ih (fun c hc => hwalks c (List.mem_cons_of_mem _ hc)) b.stop hrest]
      simp [Blk.stop, hsize]

/-- Two blocks that are not the same do not overlap. -/
theorem Sound.apart (hs : h.Sound bs next held parked) (hb : b ∈ bs) (hc : c ∈ bs) (hne : b.addr ≠ c.addr) :
    b.stop ≤ c.addr ∨ c.stop ≤ b.addr := by
  obtain ⟨order, hlayout⟩ := hs.laid.layout
  obtain ⟨l, r, rfl⟩ := List.append_of_mem hc
  have hsides := hlayout.heads_sides (mem_heads hb)
  obtain ⟨l', r', hsplit⟩ := List.append_of_mem hb
  rw [hsplit] at hlayout
  have hsides' := hlayout.heads_sides (p := c.addr) (mem_heads (hsplit ▸ hc))
  omega

theorem payloads_disjoint {live : List (Nat × Nat)} (hholds : live.Forall₂ Holds held)
    (hapart : held.Pairwise fun b c => b.stop ≤ c.addr ∨ c.stop ≤ b.addr) :
    live.Pairwise fun e e' => e.1 + e.2 ≤ e'.1 ∨ e'.1 + e'.2 ≤ e.1 := by
  induction hholds with
  | nil => exact List.Pairwise.nil
  | @cons e b live held heb hrest ih =>
    obtain ⟨hb, hapart⟩ := List.pairwise_cons.mp hapart
    refine List.pairwise_cons.mpr ⟨fun e' he' => ?_, ih hapart⟩
    obtain ⟨c, hc, hec⟩ := exists_held hrest he'
    have hout := hb c hc
    obtain ⟨haddr, hsize⟩ := heb
    obtain ⟨haddr', hsize'⟩ := hec
    rw [Blk.stop, Blk.stop] at hout
    omega

theorem Sound.payloads (hs : h.Sound bs next held parked) : h.Payloads := by
  have hmem := fun b (hb : b ∈ held) => List.mem_of_mem_filter (hs.mem_held hb)
  constructor
  · refine payloads_disjoint hs.holds ((List.pairwise_map.mp hs.held_nodup).imp_of_mem ?_)
    intro b c hb hc hne
    exact hs.apart (hmem b hb) (hmem c hc) hne
  · intro e he
    obtain ⟨b, hb, haddr, hsize⟩ := exists_held hs.holds he
    obtain ⟨order, hlayout⟩ := hs.laid.layout
    obtain ⟨hfrom, hto, -⟩ := hlayout.tiled.bounds.2 b (hmem b hb)
    obtain ⟨hhead, hend, -⟩ := hs.whole
    have hbound : h.page.bound.head = h.page.head := rfl
    have hbound' : h.page.bound.end_ = h.page.end_ := rfl
    rw [Blk.stop] at hto
    omega

end Heap

/-- In every run whose frees are of held addresses and whose sizes do not overflow, the page is tidy and the payloads do
not overlap. -/
theorem page_invariant (h : Heap) (hbegins : h.Begins) (es : List Event)
    (hes : Along Heap.step (fun h e => h.Legal e ∧ h.Fits e ∧ e.parks = false) h es) :
    (∃ bs, (run Heap.step h es).Tidy bs) ∧ (run Heap.step h es).Payloads := by
  obtain ⟨bs, next, held, hs⟩ := Heap.runs_held hbegins hes
  exact ⟨⟨bs, hs.tidy⟩, hs.payloads⟩

omit [Build] in
/-- Two blocks, one of them freed, a write to the other one and a third block. -/
theorem page_invariant_sample :
    letI := untraced
    (∃ bs, (run Heap.step (.fresh 0 0 4096 65536 fun _ => 0)
      [.malloc 10, .malloc 100, .free 65584, .store 65624 7, .malloc 8]).Tidy bs) ∧
      (run Heap.step (.fresh 0 0 4096 65536 fun _ => 0)
        [.malloc 10, .malloc 100, .free 65584, .store 65624 7, .malloc 8]).Payloads :=
  @page_invariant untraced _ (@Heap.Begins.page untraced 0 0 4096 65536 (fun _ => 0) (by decide) (by decide) (by decide)) _
    (by decide +kernel)

omit [Build] in
/-- The reserved size of this request is 0, and its block ends in the header of the page. -/
theorem header_overwritten :
    letI := untraced
    Along Heap.step (fun h e => h.Legal e) (.fresh 0 0 4096 65536 fun _ => 0) [.malloc (2 ^ 64 - 40)] ∧
      ¬ ∃ bs, (run Heap.step (.fresh 0 0 4096 65536 fun _ => 0) [.malloc (2 ^ 64 - 40)]).Tidy bs := by
  refine ⟨by decide +kernel, ?_⟩
  rintro ⟨bs, htidy⟩
  exact absurd (@Heap.Tidy.spaced untraced _ _ htidy 1) (by decide +kernel)

/-! ### Leaks -/

/-- The test of `xmalloc_leak_trace`, once `flush_cache` has run. -/
def Page.leaks (pg : Page) : Bool := pg.mem.get pg.ptr .size != sub64 pg.size (freePointerSize * 2)

namespace Heap

/-- Behind the header of the page. -/
theorem Sound.behind_head (hs : h.Sound bs next held parked) (hb : b ∈ bs) (hne : b.addr ≠ h.page.head) :
    h.page.head + freePointerSize ≤ b.addr := by
  obtain ⟨order, hlayout⟩ := hs.laid.layout
  have hfirst := List.mem_of_mem_head? hlayout.first
  have hpos := free_size_pos
  have hfrom := (hlayout.tiled.bounds.2 b hb).1
  have hapart := hs.apart hb hfirst hne
  have hbound : h.page.bound.head = h.page.head := rfl
  simp only [Blk.stop] at hapart
  omega

theorem Sound.lives_ne (hs : h.Sound bs next held parked) (hb : b ∈ lives bs) : b.addr ≠ h.page.head := by
  obtain ⟨order, hlayout⟩ := hs.laid.layout
  have hfirst := List.mem_of_mem_head? hlayout.first
  intro haddr
  have hbmem := List.mem_of_mem_filter hb
  rw [hlayout.tiled.addr_inj hbmem hfirst haddr, lives, List.mem_filter, decide_eq_true_eq] at hb
  exact absurd hb.2 (by simp)

/-- Without a block that is held or parked the current one is all of the page. -/
theorem Sound.leaks_iff (hs : h.Sound bs next held parked) : h.page.leaks = true ↔ lives bs ≠ [] := by
  obtain ⟨l, x, r, order, rfl, hx, hptr, hlayout⟩ := hs.laid.current
  have hpos := free_size_pos
  have hspace := hlayout.space
  obtain ⟨hhead, hend, hlt⟩ := hs.whole
  have hbound : h.page.bound.head = h.page.head := rfl
  have hbound' : h.page.bound.end_ = h.page.end_ := rfl
  obtain ⟨-, hto, hsize⟩ := hlayout.tiled.bounds.2 x (by simp)
  rw [Blk.stop] at hto
  have hxfree : x.isFree = true := isFree_iff.mpr (.inr hx)
  have hxhead : x.addr ≠ h.page.head := by
    intro heq
    have hfalse := (hs.free_iff (by simp)).mpr (.inl heq)
    rw [hxfree] at hfalse
    exact absurd hfalse (by simp)
  have hxbehind := hs.behind_head (b := x) (by simp) hxhead
  have hsub : sub64 h.page.size (freePointerSize * 2) = h.page.size - freePointerSize * 2 :=
    sub64_eq (by omega) hlt
  rw [Page.leaks, bne_iff_ne, ← hptr, hlayout.sizes x (by simp), hsub, not_iff_not]
  constructor
  · intro heq
    refine List.eq_nil_iff_forall_not_mem.mpr fun b hb => ?_
    have hbmem := List.mem_of_mem_filter hb
    have hbehind := hs.behind_head hbmem (hs.lives_ne hb)
    have hbsize := (hlayout.tiled.bounds.2 b hbmem).2
    have hne : b.addr ≠ x.addr := by
      intro haddr
      rw [hlayout.tiled.addr_inj hbmem (by simp) haddr, lives, List.mem_filter, decide_eq_true_eq, hx] at hb
      exact absurd hb.2 (by simp)
    have hapart := hs.apart hbmem (c := x) (by simp) hne
    simp only [Blk.stop] at hapart hbsize
    omega
  · intro hnil
    have hfree : ∀ b ∈ l ++ x :: r, b.addr ≠ h.page.head → b.isFree := by
      intro b hb hne
      by_contra hfree
      obtain haddr | hlive := (hs.free_iff hb).mp (by simpa using hfree)
      · exact hne haddr
      · rw [hnil] at hlive
        exact absurd hlive List.not_mem_nil
    have hsettled := (settled_append_cons.mp hlayout.settled).2.2 hxfree
    have hfirst := List.mem_of_mem_head? hlayout.first
    have hstart : x.addr = h.page.head + freePointerSize := by
      obtain rfl | ⟨l, w, rfl⟩ := l.eq_nil_or_concat'
      · exact absurd rfl (hlayout.front_ne (by simp [hx]))
      have hw : w.addr = h.page.head := by
        by_contra hne
        exact hsettled.before w (by simp) (hfree w (by simp) hne)
      have hlayout' : Layout h.page.bound h.page.mem (l ++ w :: x :: r) order [h.page.ptr] next := by simpa using hlayout
      rw [← hlayout'.wrap_add.2.1, hlayout.tiled.addr_inj (by simp) hfirst hw]
      rfl
    have hstop : x.addr + x.size = h.page.end_ := by
      cases r with
      | nil =>
        obtain ⟨c, -, -, -, -, hstop⟩ := tiled_append.mp hlayout.tiled
        exact hstop
      | cons y r =>
        have hy : y.addr = h.page.head := by
          by_contra hne
          exact hsettled.behind y (by simp) (hfree y (by simp) hne)
        have hnext := hlayout.wrap_add.2.1
        rw [Blk.stop] at hnext
        omega
    omega

end Heap

/-- The leak test of a page, after a run and the flush, tells whether the program holds a block of it. -/
theorem leaks_exact (h : Heap) (hbegins : h.Begins) (es : List Event)
    (hes : Along Heap.step (fun h e => h.Legal e ∧ h.Fits e) h es) :
    (run Heap.step h es).flushPage.page.leaks = true ↔ (run Heap.step h es).live ≠ [] := by
  obtain ⟨bs, next, held, parked, hs⟩ := Heap.runs_sound hbegins hes
  obtain ⟨bs', hs', hlive⟩ := hs.flush
  rw [hs'.leaks_iff, not_iff_not]
  have hblocks : (lives bs').Perm held := by simpa using hs'.blocks
  have hlength := hs'.holds.length_eq
  rw [hlive] at hlength
  rw [← List.length_eq_zero_iff, ← List.length_eq_zero_iff, hblocks.length_eq, hlength]

omit [Build] in
/-- A block that is parked, and one that is held. -/
theorem leaks_exact_sample :
    letI := untraced
    (run Heap.step (.fresh 0 0 4096 65536 fun _ => 0) [.malloc 10, .malloc 100,
      .park 1 65584]).flushPage.page.leaks = true ↔
      (run Heap.step (.fresh 0 0 4096 65536 fun _ => 0) [.malloc 10, .malloc 100, .park 1 65584]).live ≠ [] :=
  @leaks_exact untraced _ (@Heap.Begins.page untraced 0 0 4096 65536 (fun _ => 0) (by decide) (by decide) (by decide)) _ (by decide +kernel)

omit [Build] in
/-- The current block is moved back by a request whose reserved size is 0, and then has the size of an empty page
again. -/
theorem leak_missed :
    letI := untraced
    Along Heap.step (fun h e => h.Legal e) (.fresh 0 0 4096 65536 fun _ => 0) [.malloc (2 ^ 64 - 48), .malloc 8] ∧
      ¬ ((run Heap.step (.fresh 0 0 4096 65536 fun _ => 0) [.malloc (2 ^ 64 - 48), .malloc 8]).flushPage.page.leaks = true ↔
        (run Heap.step (.fresh 0 0 4096 65536 fun _ => 0) [.malloc (2 ^ 64 - 48), .malloc 8]).live ≠ []) := by
  decide +kernel

end Wenas.Xmalloc
