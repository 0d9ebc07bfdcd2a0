import Wenas.Xmalloc.Blocks

/-!
# The layout of a page

`Layout` says that a memory holds given blocks and a given queue. `next` of an allocated block belongs to the program,
which the layout keeps as a function. One rule, `Layout.replace`, puts other blocks in the place of some; the joins and
the cuts of the allocator are its instances.
-/
namespace Wenas.Xmalloc
open Wenas.Links

/-- The blocks that the program holds. -/
def lives (bs : List Blk) : List Blk := bs.filter fun b => b.kind = .live

def addrsOf (k : Kind) (bs : List Blk) : List Nat := (bs.filter fun b => b.kind = k).map Blk.addr

def Settled (bs : List Blk) : Prop := bs.IsChain fun b c => ¬ (b.isFree ∧ c.isFree)

/-- The constants of a page. -/
structure Bound where
  head : Nat
  end_ : Nat
  tag : Nat

@[simp] theorem lives_append (l r : List Blk) : lives (l ++ r) = lives l ++ lives r := List.filter_append ..

@[simp] theorem addrsOf_append (k : Kind) (l r : List Blk) : addrsOf k (l ++ r) = addrsOf k l ++ addrsOf k r := by
  simp [addrsOf]

@[simp] theorem addrsOf_nil (k : Kind) : addrsOf k [] = [] := rfl

@[simp] theorem addrsOf_cons (k : Kind) (b : Blk) (bs : List Blk) :
    addrsOf k (b :: bs) = if b.kind = k then b.addr :: addrsOf k bs else addrsOf k bs := by
  by_cases h : b.kind = k <;> simp [addrsOf, h]

@[simp] theorem lives_cons (b : Blk) (bs : List Blk) :
    lives (b :: bs) = if b.kind = .live then b :: lives bs else lives bs := by
  by_cases h : b.kind = .live <;> simp [lives, h]

@[simp] theorem lives_nil : lives [] = [] := rfl

theorem mem_addrsOf {k : Kind} {bs : List Blk} {p : Nat} : p ∈ addrsOf k bs ↔ ∃ b ∈ bs, b.kind = k ∧ b.addr = p := by
  simp [addrsOf, and_assoc]

variable {g : Bound} {m m' : Mem} {bs l r mid mid' : List Blk} {order order' cur cur' : List Nat}
  {next next' : Nat → Nat}
  {a z p q : Nat} {b c x y : Blk}

theorem mem_heads (hb : b ∈ bs) : b.addr ∈ heads bs z := List.mem_append_left _ (List.mem_map_of_mem hb)

theorem end_mem_heads : z ∈ heads bs z := List.mem_append_right _ List.mem_cons_self

variable [Build]

structure Layout (g : Bound) (m : Mem) (bs : List Blk) (order cur : List Nat) (next : Nat → Nat) : Prop where
  tiled : Tiled g.head bs g.end_
  first : bs.head? = some ⟨g.head, freePointerSize, .sentinel⟩
  alone : ∀ b ∈ bs, b.kind = .sentinel → b.addr = g.head
  last : ∀ b ∈ bs.getLast?, b.kind ≠ .live
  settled : Settled bs
  space : g.end_ + freePointerSize ≤ 2 ^ 64
  odd : g.tag % 2 = 1
  sizes : ∀ b ∈ bs, m.get b.addr .size = b.size
  endSize : m.get g.end_ .size = freePointerSize
  marks : ∀ b ∈ bs, b.kind ≠ .opened → m.get b.stop .flag = b.mark g.tag
  queue : Linked (fun p => m.get p .next) (fun p => m.get p .prev) g.head order g.end_
  queued : order.Perm (addrsOf .queued bs)
  current : addrsOf .current bs = cur
  kept : ∀ b ∈ bs, b.kind = .live → m.get b.addr .next = next b.addr

theorem Tiled.first_mem (h : Tiled a bs z) : a ∈ heads bs z := by
  cases bs with
  | nil =>
    rw [show a = z from h]
    exact end_mem_heads
  | cons b bs =>
    rw [← h.1]
    exact mem_heads List.mem_cons_self

theorem Tiled.stop_mem (h : Tiled a bs z) (hb : b ∈ bs) : b.stop ∈ heads bs z := by
  induction bs generalizing a with
  | nil => exact absurd hb List.not_mem_nil
  | cons c bs ih =>
    obtain ⟨-, -, -, hrest⟩ := h
    obtain rfl | hb := List.mem_cons.mp hb
    · exact List.mem_cons_of_mem _ hrest.first_mem
    · exact List.mem_cons_of_mem _ (ih hrest hb)

/-- Neither the last block before nor the first block behind is free. -/
structure Between (l r : List Blk) : Prop where
  before : ∀ c ∈ l.getLast?, ¬ c.isFree
  behind : ∀ c ∈ r.head?, ¬ c.isFree

omit [Build] in
theorem settled_append_cons : Settled (l ++ b :: r) ↔ Settled l ∧ Settled r ∧ (b.isFree → Between l r) := by
  rw [Settled, List.isChain_append, List.isChain_cons]
  simp only [List.head?_cons, Option.mem_some_iff, forall_eq']
  constructor
  · rintro ⟨hl, ⟨hbehind, hr⟩, hbefore⟩
    exact ⟨hl, hr, fun hb => ⟨fun c hc hfree => hbefore c hc ⟨hfree, hb⟩, fun c hc hfree => hbehind c hc ⟨hb, hfree⟩⟩⟩
  · rintro ⟨hl, hr, hbetween⟩
    exact ⟨hl, ⟨fun c hc hfree => (hbetween hfree.1).behind c hc hfree.2, hr⟩,
      fun c hc hfree => (hbetween hfree.2).before c hc hfree.1⟩

omit [Build] in
theorem Settled.tail (h : Settled (b :: r)) : Settled r := List.IsChain.tail h

/-- Blocks are told apart by their addresses. -/
theorem Tiled.addr_inj (h : Tiled a bs z) (hb : b ∈ bs) (hc : c ∈ bs) (heq : b.addr = c.addr) : b = c :=
  List.inj_on_of_nodup_map (List.nodup_append.mp h.nodup).1 hb hc heq

theorem Tiled.addr_ne_end (h : Tiled a bs z) (hb : b ∈ bs) : b.addr ≠ z := by
  intro heq
  exact (List.nodup_append.mp h.nodup).2.2 _ (List.mem_map_of_mem hb) _ List.mem_cons_self heq

theorem free_size_pos : 0 < freePointerSize := by simp [freePointerSize]

/-- The blocks around the middle ones neither start nor end in them. -/
theorem Tiled.outside (hl : Tiled a l p) (hr : Tiled q r z) (hpq : p < q) (hb : b ∈ l ++ r) :
    (b.stop ≤ p ∨ q ≤ b.addr) ∧ b.stop ≠ q ∧ b.addr ≠ p := by
  have hpos := free_size_pos
  obtain hb | hb := List.mem_append.mp hb
  · obtain ⟨-, hto, hsize⟩ := hl.bounds.2 b hb
    rw [Blk.stop] at hto ⊢
    exact ⟨.inl hto, by omega, by omega⟩
  · obtain ⟨hfrom, -, hsize⟩ := hr.bounds.2 b hb
    rw [Blk.stop]
    exact ⟨.inr hfrom, by omega, by omega⟩

/-- Other blocks in the place of the middle ones. -/
theorem Layout.replace (h : Layout g m (l ++ (mid ++ r)) order cur next) (hl : Tiled g.head l a) (hr : Tiled z r g.end_)
    (hne : l ≠ []) (hne' : mid' ≠ []) (hmid : Tiled a mid' z)
    (halone : ∀ b ∈ mid', b.kind ≠ .sentinel) (hlast : ∀ b ∈ mid'.getLast?, r = [] → b.kind ≠ .live)
    (hsettled : Settled (l ++ (mid' ++ r)))
    (hsize : ∀ p ∈ heads (l ++ r) g.end_, m'.get p .size = m.get p .size)
    (hsizes : ∀ b ∈ mid', m'.get b.addr .size = b.size)
    (hflag : ∀ p ∈ heads (l ++ (mid ++ r)) g.end_, p ≠ z → m'.get p .flag = m.get p .flag)
    (hmarks : ∀ b ∈ mid', b.kind ≠ .opened → m'.get b.stop .flag = b.mark g.tag)
    (hqueue : Linked (fun p => m'.get p .next) (fun p => m'.get p .prev) g.head order' g.end_)
    (hqueued : order'.Perm (addrsOf .queued (l ++ (mid' ++ r)))) (hcurrent : addrsOf .current (l ++ (mid' ++ r)) = cur')
    (hkept : ∀ b ∈ l ++ (mid ++ r), b.kind = .live → m'.get b.addr .next = next' b.addr)
    (hkept' : ∀ b ∈ mid', b.kind = .live → m'.get b.addr .next = next' b.addr) :
    Layout g m' (l ++ (mid' ++ r)) order' cur' next' := by
  have hstop : ∀ b ∈ l ++ r, b.stop ≠ z := by
    have hlt : a < z := by
      obtain ⟨b, mid', rfl⟩ := List.exists_cons_of_ne_nil hne'
      obtain ⟨rfl, hsize, -, hrest⟩ := hmid
      exact lt_of_lt_of_le (Nat.lt_add_of_pos_right (free_size_pos.trans_le hsize)) hrest.bounds.1
    intro b hb
    exact (hl.outside hr hlt hb).2.1
  have hout : ∀ b ∈ l ++ (mid' ++ r), b ∈ mid' ∨ b ∈ l ++ r := by
    intro b hb
    simp only [List.mem_append] at hb ⊢
    tauto
  have hold : ∀ b ∈ l ++ r, b ∈ l ++ (mid ++ r) := by
    intro b hb
    simp only [List.mem_append] at hb ⊢
    tauto
  exact
    { tiled := tiled_append.mpr ⟨a, hl, tiled_append.mpr ⟨z, hmid, hr⟩⟩
      first := by
        obtain ⟨b, l, rfl⟩ := List.exists_cons_of_ne_nil hne
        exact h.first
      alone := by
        intro b hb hkind
        obtain hb | hb := hout b hb
        · exact absurd hkind (halone b hb)
        · exact h.alone b (hold b hb) hkind
      last := by
        intro b hb
        cases r with
        | nil =>
          rw [List.append_nil, List.getLast?_append_of_ne_nil _ hne'] at hb
          exact hlast b hb rfl
        | cons c r =>
          rw [← List.append_assoc, List.getLast?_append_of_ne_nil _ (List.cons_ne_nil c r)] at hb
          have hlast := h.last b
          rw [← List.append_assoc, List.getLast?_append_of_ne_nil _ (List.cons_ne_nil c r)] at hlast
          exact hlast hb
      settled := hsettled
      space := h.space
      odd := h.odd
      sizes := by
        intro b hb
        obtain hb | hb := hout b hb
        · exact hsizes b hb
        · rw [hsize _ (mem_heads hb), h.sizes b (hold b hb)]
      endSize := (hsize _ end_mem_heads).trans h.endSize
      marks := by
        intro b hb hkind
        obtain hb | hb := hout b hb
        · exact hmarks b hb hkind
        · rw [hflag _ (h.tiled.stop_mem (hold b hb)) (hstop b hb), h.marks b (hold b hb) hkind]
      queue := hqueue
      queued := hqueued
      current := hcurrent
      kept := by
        intro b hb hlive
        obtain hb | hb := hout b hb
        · exact hkept' b hb hlive
        · exact hkept b (hold b hb) hlive }

/-! ### The queue -/

theorem Layout.mem_order (h : Layout g m bs order cur next) : p ∈ order ↔ ∃ b ∈ bs, b.kind = .queued ∧ b.addr = p := by
  rw [h.queued.mem_iff, mem_addrsOf]

theorem Layout.queue_nodup (h : Layout g m bs order cur next) : (g.head :: order ++ [g.end_]).Nodup := by
  have hperm : (g.head :: order ++ [g.end_]).Perm (g.head :: addrsOf .queued bs ++ [g.end_]) :=
    (h.queued.cons g.head).append_right _
  have hsub : (g.head :: addrsOf .queued bs ++ [g.end_]).Sublist (heads bs g.end_) := by
    obtain ⟨rest, rfl⟩ := List.head?_eq_some_iff.mp h.first
    rw [heads, addrsOf_cons, if_neg (by simp), List.map_cons]
    exact ((List.filter_sublist.map _).cons_cons _).append_right _
  exact hperm.nodup_iff.mpr (hsub.nodup h.tiled.nodup)

/-- The queue runs through the blocks that are queued. -/
theorem Layout.linked_mem (h : Layout g m bs order cur next) (hp : p ∈ g.head :: order ++ [g.end_]) :
    p ∈ heads bs g.end_ := by
  obtain hp | hp := List.mem_append.mp hp
  · obtain rfl | hp := List.mem_cons.mp hp
    · exact h.tiled.first_mem
    · obtain ⟨b, hb, -, rfl⟩ := h.mem_order.mp hp
      exact mem_heads hb
  · rw [List.mem_singleton.mp hp]
    exact end_mem_heads

theorem Layout.not_linked (h : Layout g m bs order cur next) (hb : b ∈ bs) (hqueued : b.kind ≠ .queued)
    (hsentinel : b.kind ≠ .sentinel) : b.addr ∉ g.head :: order ++ [g.end_] := by
  intro hp
  obtain hp | hp := List.mem_append.mp hp
  · obtain hp | hp := List.mem_cons.mp hp
    · have hfirst := List.mem_of_mem_head? h.first
      rw [h.tiled.addr_inj hb hfirst hp] at hsentinel
      exact hsentinel rfl
    · obtain ⟨c, hc, hkind, heq⟩ := h.mem_order.mp hp
      rw [h.tiled.addr_inj hb hc heq.symm] at hqueued
      exact hqueued hkind
  · exact h.tiled.addr_ne_end hb (List.mem_singleton.mp hp)

theorem Layout.prev_end_mem (h : Layout g m bs order cur next) : m.get g.end_ .prev ∈ g.head :: order :=
  h.queue.prev_mem

theorem Layout.next_head_mem (h : Layout g m bs order cur next) : m.get g.head .next ∈ order ++ [g.end_] :=
  h.queue.next_mem

/-- The neighbours of a queued block. -/
theorem Layout.around (h : Layout g m bs (order ++ q :: order') cur next) :
    m.get q .prev ∈ g.head :: order ∧ m.get q .next ∈ order' ++ [g.end_] := by
  obtain ⟨hbefore, hafter⟩ := linked_append.mp h.queue
  exact ⟨hbefore.prev_mem, hafter.next_mem⟩

/-! ### Pointers -/

theorem Layout.nextPointer_eq (h : Layout g m bs order cur next) (hb : b ∈ bs) : nextPointer m b.addr = b.stop := by
  have hto := (h.tiled.bounds.2 b hb).2.1
  have hspace := h.space
  have hpos := free_size_pos
  rw [nextPointer, h.sizes b hb, wrap, Nat.mod_eq_of_lt]
  · rfl
  · rw [Blk.stop] at hto
    omega

theorem Tiled.dvd (h : Tiled a bs z) (hb : b ∈ bs) : 8 ∣ b.size := by
  induction bs generalizing a with
  | nil => exact absurd hb List.not_mem_nil
  | cons c bs ih =>
    obtain ⟨-, -, hdvd, hrest⟩ := h
    obtain rfl | hb := List.mem_cons.mp hb
    · exact hdvd
    · exact ih hrest hb

/-- The flag behind a block tells whether it is free. -/
theorem Layout.mergeable_eq (h : Layout g m bs order cur next) (hb : b ∈ bs) (hkind : b.kind ≠ .opened) :
    mergeable m b.stop = b.isFree := by
  have hodd := h.odd
  have hdvd := h.tiled.dvd hb
  rw [mergeable, h.marks b hb hkind, Blk.mark]
  cases hfree : b.isFree with
  | false => simp [hodd]
  | true =>
    have heven : b.size % 2 = 0 := by omega
    simp [heven]

theorem Layout.prevPointer_eq (h : Layout g m bs order cur next) (hb : b ∈ bs) (hfree : b.isFree) :
    prevPointer m b.stop = b.addr := by
  have hto := (h.tiled.bounds.2 b hb).2.1
  have hspace := h.space
  have hpos := free_size_pos
  have hkind : b.kind ≠ .opened := by
    intro hkind
    simp [Blk.isFree, hkind, Kind.isFree] at hfree
  rw [prevPointer, h.marks b hb hkind, Blk.mark, if_pos hfree, sub64, wrap]
  rw [Blk.stop] at hto ⊢
  have hsum : b.addr + b.size + (2 ^ 64 - b.size) = b.addr + 2 ^ 64 := by omega
  rw [hsum, Nat.add_mod_right, Nat.mod_eq_of_lt (by omega)]

end Wenas.Xmalloc
