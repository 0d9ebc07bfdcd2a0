import Wenas.Xmalloc.Align
import Wenas.Lib.Machine

/-!
# Runs on a page

The calls of a program that work on one page, with the addresses that it holds. A block whose `free` does not get the
page's lock is parked in a recycle pool, which links the blocks through their own `next`, and is freed when the pool is
flushed.
-/
namespace Wenas.Xmalloc
open Wenas.Machine

/-- A page with its recycle pools, and what the program holds: each address with the size it was asked for. -/
structure Heap where
  page : Page
  live : List (Nat × Nat)
  recycle : Fin 3 → Nat

inductive Event where
  | malloc (n : Nat)
  | alignedAlloc (alignment size : Nat)
  | free (address : Nat)
  | park (i : Fin 3) (address : Nat)
  | flush
  | store (p v : Nat)

/-- A `free` that does not get the page's lock. -/
def Event.parks : Event → Bool
  | .park _ _ => true
  | _ => false

namespace Heap

variable [Build]

def granted (h : Heap) (n : Nat) : Page × Option Nat → Heap
  | (pg, none) => { h with page := pg }
  | (pg, some a) => { h with page := pg, live := (a, n) :: h.live }

def forget (h : Heap) (address : Nat) : List (Nat × Nat) := h.live.filter fun e => e.1 ≠ address

/-- The loop over a recycle pool in `flush_page`, with the number of its turns. -/
def drain : Nat → Fin 3 → Heap → Heap
  | 0, _, h => h
  | turns + 1, i, h =>
    if h.recycle i = 0 then h
    else
      let ptr := h.recycle i
      drain turns i { h with
        recycle := Function.update h.recycle i (h.page.mem.get ptr .next)
        page := h.page.freePointer ptr }

/-- `flush_page`. A page has fewer blocks than bytes. -/
def flushPage (h : Heap) : Heap := drain h.page.size 2 (drain h.page.size 1 (drain h.page.size 0 h))

def step (h : Heap) : Event → Heap
  | .malloc n => h.granted n (h.page.malloc n)
  | .alignedAlloc alignment size => h.granted size (h.page.alignedAlloc alignment size)
  | .free a => { h with page := h.page.free a, live := h.forget a }
  | .park i a =>
    let ptr := sub64 a workPointerSize
    { page := { h.page with mem := h.page.mem.put ptr .next (h.recycle i) }
      live := h.forget a
      recycle := Function.update h.recycle i ptr }
  | .flush => h.flushPage
  | .store p v => { h with page := { h.page with mem := Function.update h.page.mem p v } }

/-- A page of `malloc_page`. -/
def fresh (pool id pageSize start : Nat) (mem : Mem) : Heap :=
  ⟨mallocPage pool id pageSize start mem, [], fun _ => 0⟩

/-- A page that `malloc` has made for a request. -/
def forRequest (pool id n start : Nat) (mem : Mem) : Heap :=
  let r := mallocOnNewPage pool id n start mem
  ⟨r.1, [(r.2, n)], fun _ => 0⟩

/-- What the program must keep to: it frees what it holds, and writes to what it holds. -/
def Legal (h : Heap) : Event → Prop
  | .malloc n => Rounds n
  | .alignedAlloc alignment _ => alignment < 2 ^ 64
  | .free a => a ∈ h.live.map Prod.fst
  | .park _ a => a ∈ h.live.map Prod.fst
  | .flush => True
  | .store p _ => ∃ e ∈ h.live, e.1 - workPointerSize + 16 ≤ p ∧ p < e.1 + e.2

/-- No size that the call adds up overflows, and `aligned_alloc` leaves room for a header. -/
def Fits (h : Heap) : Event → Prop
  | .malloc n => Reserves n
  | .alignedAlloc alignment size => h.page.AlignFits alignment size
  | _ => True

instance (h : Heap) : (e : Event) → Decidable (h.Legal e)
  | .malloc _ => inferInstanceAs (Decidable (Rounds _))
  | .alignedAlloc _ _ => inferInstanceAs (Decidable (_ < _))
  | .free _ => inferInstanceAs (Decidable (_ ∈ _))
  | .park _ _ => inferInstanceAs (Decidable (_ ∈ _))
  | .flush => .isTrue trivial
  | .store _ _ => inferInstanceAs (Decidable (∃ e ∈ h.live, _ ∧ _))

instance (h : Heap) : (e : Event) → Decidable (h.Fits e)
  | .malloc _ => inferInstanceAs (Decidable (Reserves _))
  | .alignedAlloc _ _ => inferInstanceAs (Decidable (Page.AlignFits ..))
  | .free _ => .isTrue trivial
  | .park _ _ => .isTrue trivial
  | .flush => .isTrue trivial
  | .store _ _ => .isTrue trivial

/-! ### What holds between two calls -/

/-- From `p` the links lead over the blocks to `NULL`. -/
def Threaded (next : Nat → Nat) : Nat → List Blk → Prop
  | p, [] => p = 0
  | p, b :: bs => p = b.addr ∧ Threaded next (next b.addr) bs

/-- The program holds a block at this address. -/
def Holds (e : Nat × Nat) (b : Blk) : Prop := e.1 = b.addr + workPointerSize ∧ e.2 + workPointerSize ≤ b.size

/-- The blocks of the page that are allocated: those that the program holds, and those that are parked. -/
structure Sound (h : Heap) (bs : List Blk) (next : Nat → Nat) (held : List Blk) (parked : Fin 3 → List Blk) : Prop where
  laid : h.page.Laid bs next
  aligned : 8 ∣ h.page.head
  whole : h.page.head = h.page.startAddress ∧ h.page.end_ + freePointerSize = h.page.startAddress + h.page.size ∧
    h.page.size < 2 ^ 64
  blocks : (lives bs).Perm (held ++ (parked 0 ++ (parked 1 ++ parked 2)))
  holds : h.live.Forall₂ Holds held
  threads : ∀ i, Threaded next (h.recycle i) (parked i)

/-! ### Lists of blocks -/

omit [Build] in
theorem Threaded.congr {next next' : Nat → Nat} {p : Nat} {bs : List Blk} (h : Threaded next p bs)
    (hnext : ∀ b ∈ bs, next' b.addr = next b.addr) : Threaded next' p bs := by
  induction bs generalizing p with
  | nil => exact h
  | cons b bs ih =>
    refine ⟨h.1, ?_⟩
    rw [hnext b List.mem_cons_self]
    exact ih h.2 fun c hc => hnext c (List.mem_cons_of_mem _ hc)

omit [Build] in
theorem Threaded.zero {next : Nat → Nat} {bs : List Blk} (h : Threaded next 0 bs)
    (hpos : ∀ b ∈ bs, b.addr ≠ 0) : bs = [] := by
  cases bs with
  | nil => rfl
  | cons b bs => exact absurd h.1.symm (hpos b List.mem_cons_self)

omit [Build] in
/-- A block and the others. -/
theorem perm_cons_filter {bs : List Blk} {b : Blk} (hnodup : (bs.map Blk.addr).Nodup) (hb : b ∈ bs) :
    bs.Perm (b :: bs.filter fun c => c.addr ≠ b.addr) := by
  induction bs with
  | nil => exact absurd hb List.not_mem_nil
  | cons c bs ih =>
    rw [List.map_cons, List.nodup_cons] at hnodup
    obtain ⟨hc, hnodup⟩ := hnodup
    obtain rfl | hb := List.mem_cons.mp hb
    · have hall : bs.filter (fun c => c.addr ≠ b.addr) = bs := by
        refine List.filter_eq_self.mpr fun x hx => decide_eq_true ?_
        intro heq
        exact hc (heq ▸ List.mem_map_of_mem hx)
      rw [List.filter_cons_of_neg (by simp), hall]
    · have hne : c.addr ≠ b.addr := by
        intro heq
        exact hc (heq ▸ List.mem_map_of_mem hb)
      rw [List.filter_cons_of_pos (by simpa using hne)]
      exact ((ih hnodup hb).cons c).trans (List.Perm.swap ..)

variable {h : Heap} {bs held : List Blk} {next : Nat → Nat} {parked : Fin 3 → List Blk} {live : List (Nat × Nat)}
  {b : Blk}
  {a n p v : Nat} {i : Fin 3} {pg : Page}

theorem holds_filter (hholds : live.Forall₂ Holds held) :
    (live.filter fun e => e.1 ≠ b.addr + workPointerSize).Forall₂ Holds (held.filter fun c => c.addr ≠ b.addr) := by
  induction hholds with
  | nil => exact .nil
  | @cons e c live held hec _ ih =>
    by_cases heq : c.addr = b.addr
    · rw [List.filter_cons_of_neg (by simp [hec.1, heq]), List.filter_cons_of_neg (by simp [heq])]
      exact ih
    · have hne : e.1 ≠ b.addr + workPointerSize := by
        rw [hec.1]
        omega
      rw [List.filter_cons_of_pos (by simpa using hne), List.filter_cons_of_pos (by simpa using heq)]
      exact ih.cons hec

theorem exists_held (hholds : live.Forall₂ Holds held) {e : Nat × Nat} (he : e ∈ live) : ∃ b ∈ held, Holds e b := by
  induction hholds with
  | nil => exact absurd he List.not_mem_nil
  | @cons e' c live held hec _ ih =>
    obtain rfl | he := List.mem_cons.mp he
    · exact ⟨c, List.mem_cons_self, hec⟩
    · obtain ⟨b, hb, heb⟩ := ih he
      exact ⟨b, List.mem_cons_of_mem _ hb, heb⟩

/-! ### What each step keeps -/

/-- The blocks that are parked. -/
def parkedBlocks (parked : Fin 3 → List Blk) : List Blk := parked 0 ++ (parked 1 ++ parked 2)

omit [Build] in
theorem parkedBlocks_update (parked : Fin 3 → List Blk) (i : Fin 3) (b : Blk) (bs : List Blk) :
    (parkedBlocks (Function.update parked i (b :: bs))).Perm (b :: parkedBlocks (Function.update parked i bs)) := by
  fin_cases i
  · simp [parkedBlocks]
  · simp [parkedBlocks]
  · simp only [parkedBlocks, Fin.isValue]
    exact (List.perm_middle.append_left (parked 0)).trans List.perm_middle

omit [Build] in
theorem mem_parkedBlocks {parked : Fin 3 → List Blk} {i : Fin 3} {b : Blk}
    (hb : b ∈ parked i) : b ∈ parkedBlocks parked := by
  fin_cases i <;> simp_all [parkedBlocks]

namespace Sound

theorem mem_held (hs : h.Sound bs next held parked) (hb : b ∈ held) : b ∈ lives bs :=
  hs.blocks.mem_iff.mpr (List.mem_append_left _ hb)

theorem mem_parked (hs : h.Sound bs next held parked) (hb : b ∈ parked i) : b ∈ lives bs :=
  hs.blocks.mem_iff.mpr (List.mem_append_right _ (mem_parkedBlocks hb))

theorem held_nodup (hs : h.Sound bs next held parked) : (held.map Blk.addr).Nodup := by
  have hnodup := (hs.blocks.map Blk.addr).nodup_iff.mp hs.laid.lives_nodup
  rw [List.map_append] at hnodup
  exact (List.nodup_append.mp hnodup).1

theorem held_ne (hs : h.Sound bs next held parked) {c : Blk} (hb : b ∈ held) (hc : c ∈ parked i) : b.addr ≠ c.addr := by
  have hnodup := (hs.blocks.map Blk.addr).nodup_iff.mp hs.laid.lives_nodup
  rw [List.map_append] at hnodup
  exact (List.nodup_append.mp hnodup).2.2 _ (List.mem_map_of_mem hb) _ (List.mem_map_of_mem (mem_parkedBlocks hc))

/-- Behind the header of the page no block is at `NULL`. -/
theorem addr_ne (hs : h.Sound bs next held parked) (hb : b ∈ lives bs) : b.addr ≠ 0 := by
  obtain ⟨order, hlayout⟩ := hs.laid.layout
  rw [lives, List.mem_filter, decide_eq_true_eq] at hb
  obtain ⟨hb, hlive⟩ := hb
  have hhead : h.page.bound.head ∈ heads bs h.page.bound.end_ := hlayout.linked_mem (by simp)
  obtain ⟨l, r, rfl⟩ := List.append_of_mem hb
  have hne := hlayout.live_ne hb hlive (p := h.page.bound.head) (by simp)
  have hfrom := (hlayout.tiled.bounds.2 b hb).1
  omega

theorem grant (hs : h.Sound bs next held parked) (hb : h.page.Grants pg b bs next) (hn : n + workPointerSize ≤ b.size) :
    ∃ bs' next', Heap.Sound (h.granted n (pg, some (b.addr + workPointerSize))) bs' next' (b :: held) parked := by
  obtain ⟨⟨bs', next', hlaid, hlives, hnext⟩, hbound, hstart, hsize⟩ := hb
  have hhead : pg.head = h.page.head := congrArg Bound.head hbound
  have hend : pg.end_ = h.page.end_ := congrArg Bound.end_ hbound
  refine ⟨bs', next', hlaid, ?_, ?_, hlives.trans (hs.blocks.cons b), hs.holds.cons ⟨rfl, hn⟩, fun i => ?_⟩
  · rw [Heap.granted, hhead]
    exact hs.aligned
  · rw [Heap.granted, hhead, hend, hstart, hsize]
    exact hs.whole
  · exact (hs.threads i).congr fun c hc => hnext c (hs.mem_parked hc)

theorem malloc (hs : h.Sound bs next held parked) (hn : Rounds n) (hreserves : Reserves n) :
    ∃ bs' next' held', (h.step (.malloc n)).Sound bs' next' held' parked := by
  obtain hnone | ⟨a, ha, hgrants⟩ := hs.laid.malloc_grants hn hreserves
  · refine ⟨bs, next, held, ?_⟩
    rw [step, hnone]
    exact hs
  · obtain ⟨bs', next', hsound⟩ := hs.grant hgrants hn.req2align_spec.2.2
    refine ⟨bs', next', ⟨a, req2align n, .live⟩ :: held, ?_⟩
    rw [step, ← Prod.mk.eta (p := h.page.malloc n), ha]
    exact hsound

theorem alignedAlloc {alignment size : Nat} (hs : h.Sound bs next held parked) (hlt : alignment < 2 ^ 64)
    (hfits : h.page.AlignFits alignment size) :
    ∃ bs' next' held', (h.step (.alignedAlloc alignment size)).Sound bs' next' held' parked := by
  obtain hnone | ⟨b, hb, -, hsize, -, hgrants⟩ := hs.laid.alignedAlloc hs.aligned hlt hfits
  · refine ⟨bs, next, held, ?_⟩
    rw [step, hnone]
    exact hs
  · obtain ⟨bs', next', hsound⟩ := hs.grant hgrants hsize
    refine ⟨bs', next', b :: held, ?_⟩
    rw [step, ← Prod.mk.eta (p := h.page.alignedAlloc alignment size), hb]
    exact hsound

theorem free (hs : h.Sound bs next held parked) (ha : a ∈ h.live.map Prod.fst) :
    ∃ bs' held', (h.step (.free a)).Sound bs' next held' parked := by
  obtain ⟨e, he, rfl⟩ := List.mem_map.mp ha
  obtain ⟨b, hb, heb, -⟩ := exists_held hs.holds he
  obtain ⟨bs', hlaid, hperm, ⟨hbound, hstart, hsize⟩, -⟩ := hs.laid.release (hs.mem_held hb)
  have hptr : sub64 e.1 workPointerSize = b.addr := by
    rw [heb]
    exact hs.laid.addr_eq (List.mem_of_mem_filter (hs.mem_held hb))
  have hhead : (h.page.freePointer b.addr).head = h.page.head := congrArg Bound.head hbound
  have hend : (h.page.freePointer b.addr).end_ = h.page.end_ := congrArg Bound.end_ hbound
  have hblocks : (lives bs').Perm (held.filter (fun c => c.addr ≠ b.addr) ++ parkedBlocks parked) := by
    have hall := hs.blocks.trans ((perm_cons_filter hs.held_nodup hb).append_right _)
    exact (hperm.symm.trans hall).cons_inv
  refine ⟨bs', held.filter fun c => c.addr ≠ b.addr, ?_⟩
  rw [step, Page.free, hptr]
  refine ⟨hlaid, ?_, ?_, hblocks, ?_, hs.threads⟩
  · rw [hhead]
    exact hs.aligned
  · rw [hhead, hend, hstart, hsize]
    exact hs.whole
  · rw [forget, heb]
    exact holds_filter hs.holds

theorem drain (hs : h.Sound bs next held parked) (turns : Nat) (i : Fin 3) :
    ∃ bs', (Heap.drain turns i h).Sound bs' next held (Function.update parked i ((parked i).drop turns)) ∧
      (Heap.drain turns i h).page.size = h.page.size ∧ (Heap.drain turns i h).live = h.live := by
  induction turns generalizing h bs parked with
  | zero => exact ⟨bs, by simpa [Heap.drain] using hs, rfl, rfl⟩
  | succ turns ih =>
    rw [Heap.drain]
    have hthread := hs.threads i
    have hmem := fun b (hb : b ∈ parked i) => hs.mem_parked hb
    cases hparked : parked i with
    | nil =>
      rw [hparked] at hthread
      have hzero : h.recycle i = 0 := hthread
      have hsame : Function.update parked i ([] : List Blk) = parked := by
        rw [← hparked, Function.update_eq_self]
      rw [if_pos hzero, List.drop_nil, hsame]
      exact ⟨bs, hs, rfl, rfl⟩
    | cons b ps =>
      rw [hparked] at hthread hmem
      obtain ⟨hptr, hrest⟩ := hthread
      have hb := hmem b List.mem_cons_self
      rw [if_neg (by rw [hptr]; exact hs.addr_ne hb)]
      have hparked' : Function.update parked i (b :: ps) = parked := by
        rw [← hparked, Function.update_eq_self]
      obtain ⟨bs₁, hlaid, hperm, ⟨hbound, hstart, hsize⟩, -⟩ := hs.laid.release hb
      have hhead : (h.page.freePointer b.addr).head = h.page.head := congrArg Bound.head hbound
      have hend : (h.page.freePointer b.addr).end_ = h.page.end_ := congrArg Bound.end_ hbound
      have hblocks : (lives bs₁).Perm (held ++ parkedBlocks (Function.update parked i ps)) := by
        have hall := hs.blocks
        rw [← hparked'] at hall
        have hmiddle := hall.trans (((parkedBlocks_update parked i b ps).append_left held).trans List.perm_middle)
        exact (hperm.symm.trans hmiddle).cons_inv
      have hnext : h.page.mem.get b.addr .next = next b.addr := by
        obtain ⟨order, hlayout⟩ := hs.laid.layout
        rw [lives, List.mem_filter, decide_eq_true_eq] at hb
        exact hlayout.kept b hb.1 hb.2
      have hone : Heap.Sound { h with
          recycle := Function.update h.recycle i (h.page.mem.get (h.recycle i) .next)
          page := h.page.freePointer (h.recycle i) } bs₁ next held (Function.update parked i ps) := by
        rw [hptr, hnext]
        refine ⟨hlaid, ?_, ?_, hblocks, hs.holds, fun j => ?_⟩
        · rw [hhead]
          exact hs.aligned
        · rw [hhead, hend, hstart, hsize]
          exact hs.whole
        · by_cases hj : j = i
          · subst hj
            simpa only [Function.update_self] using hrest
          · simpa only [Function.update_of_ne hj] using hs.threads j
      obtain ⟨bs', hsound, hsize', hlive⟩ := ih hone
      refine ⟨bs', ?_, ?_, hlive⟩
      · rw [Function.update_self, Function.update_idem] at hsound
        exact hsound
      · refine hsize'.trans ?_
        rw [hptr]
        exact hsize

/-- The number of blocks. -/
theorem parked_length (hs : h.Sound bs next held parked) : (parked i).length ≤ h.page.size := by
  have hpos := free_size_pos
  obtain ⟨order, hlayout⟩ := hs.laid.layout
  have hbs : bs.length ≤ h.page.size := by
    have hle := hlayout.tiled.length_le
    obtain ⟨hhead, hend, -⟩ := hs.whole
    have hbound : h.page.bound.end_ = h.page.end_ := rfl
    have hbound' : h.page.bound.head = h.page.head := rfl
    omega
  have hlives : (lives bs).length ≤ bs.length := List.length_filter_le ..
  have hblocks := hs.blocks.length_eq
  have hparked : (parked i).length ≤ (parkedBlocks parked).length := by
    fin_cases i <;> simp [parkedBlocks] <;> omega
  rw [List.length_append] at hblocks
  rw [parkedBlocks] at hparked
  omega

theorem flush (hs : h.Sound bs next held parked) :
    ∃ bs', h.flushPage.Sound bs' next held (fun _ => []) ∧ h.flushPage.live = h.live := by
  obtain ⟨bs₀, h₀, hsize₀, hlive₀⟩ := hs.drain h.page.size 0
  rw [List.drop_eq_nil_of_le hs.parked_length] at h₀
  obtain ⟨bs₁, h₁, hsize₁, hlive₁⟩ := h₀.drain h.page.size 1
  rw [List.drop_eq_nil_of_le (hsize₀ ▸ h₀.parked_length)] at h₁
  obtain ⟨bs₂, h₂, hsize₂, hlive₂⟩ := h₁.drain h.page.size 2
  rw [List.drop_eq_nil_of_le ((hsize₁.trans hsize₀) ▸ h₁.parked_length)] at h₂
  have hempty : Function.update (Function.update (Function.update parked 0 []) 1 []) 2 [] = fun _ => [] := by
    funext i
    fin_cases i <;> rfl
  rw [hempty] at h₂
  exact ⟨bs₂, h₂, hlive₂.trans (hlive₁.trans hlive₀)⟩

theorem park (hs : h.Sound bs next held parked) (ha : a ∈ h.live.map Prod.fst) (i : Fin 3) :
    ∃ next' held' b, (h.step (.park i a)).Sound bs next' held' (Function.update parked i (b :: parked i)) := by
  obtain ⟨e, he, rfl⟩ := List.mem_map.mp ha
  obtain ⟨b, hb, heb, -⟩ := exists_held hs.holds he
  have hmem := hs.mem_held hb
  have hptr : sub64 e.1 workPointerSize = b.addr := by
    rw [heb]
    exact hs.laid.addr_eq (List.mem_of_mem_filter hmem)
  have hoffset := offset_lt .next
  have hsize : freePointerSize ≤ b.size := by
    obtain ⟨order, hlayout⟩ := hs.laid.layout
    exact (hlayout.tiled.bounds.2 b (List.mem_of_mem_filter hmem)).2.2
  obtain ⟨next', hlaid, hother, hset, -⟩ := hs.laid.store (p := b.addr + Field.next.offset) hmem
    (by simp only [Field.offset]; omega) (by rw [Blk.stop]; omega) (h.recycle i)
  refine ⟨next', held.filter fun c => c.addr ≠ b.addr, b, ?_⟩
  rw [step, hptr]
  refine ⟨hlaid, hs.aligned, hs.whole, ?_, ?_, fun j => ?_⟩
  · have hall := hs.blocks.trans ((perm_cons_filter hs.held_nodup hb).append_right _)
    have hpark := parkedBlocks_update parked i b (parked i)
    rw [Function.update_eq_self] at hpark
    exact hall.trans (List.perm_middle.symm.trans (hpark.symm.append_left _))
  · rw [forget, heb]
    exact holds_filter hs.holds
  · have hthread := hs.threads j
    have hkeep : ∀ c ∈ parked j, next' c.addr = next c.addr := fun c hc => hother _ (hs.held_ne hb hc).symm
    by_cases hj : j = i
    · subst hj
      simp only [Function.update_self]
      refine ⟨rfl, ?_⟩
      rw [hset rfl]
      exact hthread.congr hkeep
    · simp only [Function.update_of_ne hj]
      exact hthread.congr hkeep

theorem store (hs : h.Sound bs next held parked) (hlegal : h.Legal (.store p v)) :
    ∃ next', (h.step (.store p v)).Sound bs next' held parked := by
  obtain ⟨e, he, hfrom, hto⟩ := hlegal
  obtain ⟨b, hb, haddr, hsize⟩ := exists_held hs.holds he
  obtain ⟨next', hlaid, hother, -⟩ := hs.laid.store (p := p) (hs.mem_held hb) (by omega) (by rw [Blk.stop]; omega) v
  refine ⟨next', hlaid, hs.aligned, hs.whole, hs.blocks, hs.holds, fun i => ?_⟩
  exact (hs.threads i).congr fun c hc => hother _ (hs.held_ne hb hc).symm

end Sound

/-- Every call that keeps to the rules and whose sizes fit keeps the heap sound, and only a park parks a block. -/
theorem Sound.step {e : Event} (hs : h.Sound bs next held parked) (hlegal : h.Legal e) (hfits : h.Fits e) :
    ∃ bs' next' held' parked', (h.step e).Sound bs' next' held' parked' ∧
      (e.parks = false → parked = (fun _ => []) → parked' = fun _ => []) := by
  cases e with
  | malloc n =>
    obtain ⟨bs', next', held', hs'⟩ := hs.malloc hlegal hfits
    exact ⟨bs', next', held', parked, hs', fun _ => id⟩
  | alignedAlloc alignment size =>
    obtain ⟨bs', next', held', hs'⟩ := hs.alignedAlloc hlegal hfits
    exact ⟨bs', next', held', parked, hs', fun _ => id⟩
  | free a =>
    obtain ⟨bs', held', hs'⟩ := hs.free hlegal
    exact ⟨bs', next, held', parked, hs', fun _ => id⟩
  | park i a =>
    obtain ⟨next', held', b, hs'⟩ := hs.park hlegal i
    exact ⟨bs, next', held', _, hs', fun hparks => absurd hparks (by simp [Event.parks])⟩
  | flush =>
    obtain ⟨bs', hs', -⟩ := hs.flush
    exact ⟨bs', next, held, fun _ => [], hs', fun _ _ => rfl⟩
  | store p v =>
    obtain ⟨next', hs'⟩ := hs.store hlegal
    exact ⟨bs, next', held, parked, hs', fun _ => id⟩

/-! ### Where runs begin -/

/-- A page that `malloc_page` has set up, or that `malloc` has set up for a request, when its size does not overflow.
The mapping is not empty, aligned and in the address space. -/
inductive Begins : Heap → Prop where
  | page (pool id pageSize start : Nat) (mem : Mem) (hstart : 8 ∣ start) (hsize : pageBytes pageSize ≠ 0)
      (hspace : start + pageBytes pageSize ≤ 2 ^ 64) : Begins (fresh pool id pageSize start mem)
  | request (pool id n start : Nat) (mem : Mem) (hn : Rounds n)
      (hfits : mmPageSize + req2align n + freePointerSize * 4 + pageAlignedMask < 2 ^ 64) (hstart : 8 ∣ start)
      (hspace : start + pageBytes (mmPageSize + req2align n) ≤ 2 ^ 64) : Begins (forRequest pool id n start mem)

theorem fresh_sound (pool id pageSize start : Nat) (mem : Mem) (hstart : 8 ∣ start) (hsize : pageBytes pageSize ≠ 0)
    (hspace : start + pageBytes pageSize ≤ 2 ^ 64) :
    ∃ next, (fresh pool id pageSize start mem).Sound (freshBlocks start (pageBytes pageSize)) next [] fun _ => [] := by
  obtain ⟨next, hlaid, hbound⟩ := mallocPage_laid pool id pageSize start mem hsize hspace
  obtain ⟨hle, -, hlt⟩ := pageBytes_le hsize
  refine ⟨next, hlaid, hstart, ⟨rfl, ?_, hlt⟩, ?_, .nil, fun _ => rfl⟩
  · have hend : (mallocPage pool id pageSize start mem).end_ = start + pageBytes pageSize - freePointerSize :=
      congrArg Bound.end_ hbound
    rw [fresh, hend]
    exact Nat.sub_add_cancel (by omega)
  · simp [freshBlocks]

/-- A new page has nothing in its queue. -/
theorem fresh_peaked {start size : Nat} (h : pg.Laid (freshBlocks start size) next) : pg.Peaked := by
  obtain ⟨⟨order, hlayout⟩, -⟩ := h
  have hqueued := hlayout.queued
  have hnil : order = [] := by simpa [freshBlocks] using hqueued
  subst hnil
  exact @Page.peaked_of _ pg pg.sizeAt _ hlayout.follow_eq trivial fun _ _ => rfl

/-- The page is large enough for the request. -/
theorem request_sound (pool id n start : Nat) (mem : Mem) (hn : Rounds n)
    (hfits : mmPageSize + req2align n + freePointerSize * 4 + pageAlignedMask < 2 ^ 64) (hstart : 8 ∣ start)
    (hspace : start + pageBytes (mmPageSize + req2align n) ≤ 2 ^ 64) :
    (∃ bs next held, (forRequest pool id n start mem).Sound bs next held fun _ => []) ∧
      (forRequest pool id n start mem).page.Peaked := by
  obtain ⟨hle, hdvd, hhonoured⟩ := hn.req2align_spec
  have hwrap : wrap (mmPageSize + req2align n) = mmPageSize + req2align n := Nat.mod_eq_of_lt (by omega)
  have hbytes : req2align n + freePointerSize * 3 ≤ pageBytes (mmPageSize + req2align n) := by
    have hwrap' : wrap (mmPageSize + req2align n + freePointerSize * 4 + pageAlignedMask) =
        mmPageSize + req2align n + freePointerSize * 4 + pageAlignedMask := Nat.mod_eq_of_lt hfits
    rw [pageBytes, hwrap', pageAlignedMask]
    omega
  have hpos := free_size_pos
  obtain ⟨next, hs⟩ := fresh_sound pool id (mmPageSize + req2align n) start mem hstart (by omega) hspace
  obtain ⟨order, hlayout⟩ := hs.laid.layout
  have hroom : req2align n + freePointerSize ≤ (mallocPage pool id (mmPageSize + req2align n) start mem).mem.get
      (mallocPage pool id (mmPageSize + req2align n) start mem).ptr .size := by
    have hmem : (⟨start + freePointerSize, pageBytes (mmPageSize + req2align n) - freePointerSize * 2,
        .current⟩ : Blk) ∈
        freshBlocks start (pageBytes (mmPageSize + req2align n)) := by simp [freshBlocks]
    have hsize := hlayout.sizes _ hmem
    rw [(hlayout.current_iff hmem).mp rfl] at hsize
    refine le_of_le_of_eq ?_ hsize.symm
    simp only
    omega
  obtain ⟨bs', next', hlaid, hnext, hlives, hsame, haddr, hpeak⟩ := hs.laid.split hle hdvd hroom
  obtain ⟨bs'', next'', hsound⟩ := hs.grant (n := n)
    ⟨⟨bs', next', hlaid, hlives, fun c hc => absurd hc (by simp [freshBlocks])⟩, hsame⟩ hhonoured
  have hrequest : forRequest pool id n start mem = (fresh pool id (mmPageSize + req2align n) start mem).granted n
      (((mallocPage pool id (mmPageSize + req2align n) start mem).split (req2align n)).1,
        some ((mallocPage pool id (mmPageSize + req2align n) start mem).ptr + workPointerSize)) := by
    have haddr' : ((mallocPage pool id (mmPageSize + req2align n) start mem).split (req2align n)).2 =
        (mallocPage pool id (mmPageSize + req2align n) start mem).ptr + workPointerSize := haddr
    rw [forRequest, mallocOnNewPage, hwrap, haddr']
    rfl
  rw [hrequest]
  exact ⟨⟨bs'', next'', _, hsound⟩, hpeak (fresh_peaked hs.laid)⟩

theorem Begins.sound (hbegins : Begins h) : ∃ bs next held, h.Sound bs next held fun _ => [] := by
  cases hbegins with
  | page pool id pageSize start mem hstart hsize hspace =>
    obtain ⟨next, hs⟩ := fresh_sound pool id pageSize start mem hstart hsize hspace
    exact ⟨_, next, _, hs⟩
  | request pool id n start mem hn hfits hstart hspace =>
    exact (request_sound pool id n start mem hn hfits hstart hspace).1

theorem Begins.peaked (hbegins : Begins h) : h.page.Peaked := by
  cases hbegins with
  | page pool id pageSize start mem hstart hsize hspace =>
    obtain ⟨next, hs⟩ := fresh_sound pool id pageSize start mem hstart hsize hspace
    exact fresh_peaked hs.laid
  | request pool id n start mem hn hfits hstart hspace =>
    exact (request_sound pool id n start mem hn hfits hstart hspace).2

/-- What holds after every run whose calls keep to the rules and fit. -/
theorem runs_sound {es : List Event} (hbegins : Begins h)
    (hes : Along Heap.step (fun h e => h.Legal e ∧ h.Fits e) h es) :
    ∃ bs next held parked, (run Heap.step h es).Sound bs next held parked := by
  have hstep : ∀ (h : Heap) (e : Event), (∃ bs next held parked, h.Sound bs next held parked) → h.Legal e ∧ h.Fits e →
      ∃ bs next held parked, (h.step e).Sound bs next held parked := by
    intro h e hs hfits
    obtain ⟨bs, next, held, parked, hs⟩ := hs
    obtain ⟨bs', next', held', parked', hs', -⟩ := hs.step hfits.1 hfits.2
    exact ⟨bs', next', held', parked', hs'⟩
  obtain ⟨bs, next, held, hs⟩ := hbegins.sound
  exact Along.invariant hstep hes ⟨bs, next, held, _, hs⟩

/-- Without parks every allocated block is held. -/
theorem runs_held {es : List Event} (hbegins : Begins h)
    (hes : Along Heap.step (fun h e => h.Legal e ∧ h.Fits e ∧ e.parks = false) h es) :
    ∃ bs next held, (run Heap.step h es).Sound bs next held fun _ => [] := by
  have hstep : ∀ (h : Heap) (e : Event), (∃ bs next held, h.Sound bs next held fun _ => []) →
      h.Legal e ∧ h.Fits e ∧ e.parks = false → ∃ bs next held, (h.step e).Sound bs next held fun _ => [] := by
    intro h e hs hfits
    obtain ⟨bs, next, held, hs⟩ := hs
    obtain ⟨bs', next', held', parked', hs', hparked⟩ := hs.step hfits.1 hfits.2.1
    rw [hparked hfits.2.2 rfl] at hs'
    exact ⟨bs', next', held', hs'⟩
  exact Along.invariant hstep hes hbegins.sound

end Heap

end Wenas.Xmalloc
