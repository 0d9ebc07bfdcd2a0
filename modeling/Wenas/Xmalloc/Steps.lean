import Wenas.Xmalloc.Order
import Wenas.Xmalloc.Release

/-!
# The calls on a page

`malloc_page` lays a page out, and `free_pointer` and `malloc` keep it laid out.
-/
namespace Wenas.Xmalloc
open Wenas.Links

variable [Build]

def Page.bound (pg : Page) : Bound := ⟨pg.head, pg.end_, pg.tag⟩

/-- A page between two calls. -/
structure Page.Laid (pg : Page) (bs : List Blk) (next : Nat → Nat) : Prop where
  layout : ∃ order, Layout pg.bound pg.mem bs order [pg.ptr] next
  closed : ∀ b ∈ bs, b.kind ≠ .opened

variable {g : Bound} {m m' : Mem} {bs l r : List Blk} {order order' cur : List Nat} {next : Nat → Nat}
  {a c z p q : Nat} {b x y : Blk} {f : Field} {pg : Page}

/-! ### `free_pointer` -/

theorem Layout.mark_mem (h : Layout g m (l ++ x :: r) order cur next) :
    nextPointer m x.addr ∈ heads (l ++ x :: r) g.end_ := by
  rw [h.nextPointer_eq (by simp)]
  exact h.tiled.stop_mem (by simp)

/-- The mark behind the block and its place in the queue are written in either order. -/
theorem Layout.marked_putIn (h : Layout g m (l ++ x :: r) order cur next) (hx : x.kind = .opened)
    (ha : a ∈ g.head :: order ++ [g.end_]) (hc : c ∈ g.head :: order ++ [g.end_])
    (hp : p ∈ heads (l ++ x :: r) g.end_) :
    (putIn (markNext m x.addr) x.addr a c).get p f =
      if f = .flag ∧ p = x.stop then x.size else (putIn m x.addr a c).get p f := by
  have hxmem : x.addr ∈ heads (l ++ x :: r) g.end_ := mem_heads (by simp)
  have hne : x.addr ≠ c := by
    rintro rfl
    exact h.not_linked (by simp) (by simp [hx]) (by simp [hx]) hc
  rw [h.putIn_eq hx ha hc hp, putIn_get h.apart hxmem (h.linked_mem ha) (h.linked_mem hc) hne hp,
    markNext_get h.apart h.mark_mem hp, h.nextPointer_eq (by simp), h.sizes x (by simp)]
  cases f <;> simp

theorem Layout.enqueue (h : Layout pg.bound m (l ++ x :: r) order cur next) (hx : x.kind = .opened)
    (hfree : Between l r) :
    ∃ m' order', pg.enqueue (markNext m x.addr) x.addr = { pg with mem := m' } ∧
      Layout pg.bound m' (l ++ { x with kind := .queued } :: r) order' cur next ∧
      (order' = x.addr :: order ∧ m.get (m.get pg.head .next) .size ≤ x.size ∨
        order' = order ++ [x.addr] ∧ x.size < m.get (m.get pg.head .next) .size) := by
  have hmark : ∀ p ∈ pg.head :: order ++ [pg.end_], ∀ f, f ≠ .flag → (markNext m x.addr).get p f = m.get p f := by
    intro p hp f hf
    rw [markNext_get h.apart h.mark_mem (h.linked_mem hp), if_neg fun heq => hf heq.1]
  have hfirst : (markNext m x.addr).get pg.head .next = m.get pg.head .next := hmark _ (by simp) _ (by simp)
  have hlast : (markNext m x.addr).get pg.end_ .prev = m.get pg.end_ .prev := hmark _ (by simp) _ (by simp)
  have hfirst' := hmark _ (List.mem_cons_of_mem _ h.next_head_mem) .size (by simp)
  have hsize : (markNext m x.addr).get x.addr .size = x.size := by
    rw [markNext_get h.apart h.mark_mem (mem_heads (by simp)), if_neg (by simp), h.sizes x (by simp)]
  have hbound : pg.bound.head = pg.head := rfl
  rw [hbound] at hfirst'
  rw [Page.enqueue, hfirst, hlast, hfirst', hsize]
  split
  · next hle =>
    refine ⟨_, _, rfl, h.pushFront hx hfree fun p hp f => ?_, .inl ⟨rfl, hle⟩⟩
    exact h.marked_putIn hx (by simp [Page.bound]) (List.mem_cons_of_mem _ h.next_head_mem) hp
  · next hlt =>
    refine ⟨_, _, rfl, h.pushBack hx hfree fun p hp f => ?_, .inr ⟨rfl, Nat.not_le.mp hlt⟩⟩
    exact h.marked_putIn hx (List.mem_append_left _ h.prev_end_mem) (by simp [Page.bound]) hp

/-- The constants of a page, which no call changes. -/
def Page.Same (pg pg' : Page) : Prop := pg'.bound = pg.bound ∧ pg'.startAddress = pg.startAddress ∧ pg'.size = pg.size

/-- Blocks are told apart by where they end, too. -/
theorem Tiled.stop_inj (h : Tiled a bs z) (hb : b ∈ bs) (hx : x ∈ bs) (heq : b.stop = x.stop) : b = x := by
  have hpos := free_size_pos
  induction bs generalizing a with
  | nil => exact absurd hb List.not_mem_nil
  | cons y bs ih =>
    obtain ⟨-, -, -, hrest⟩ := h
    have hafter : ∀ w ∈ bs, w.stop ≠ y.stop := by
      intro w hw
      obtain ⟨hfrom, -, hsize⟩ := hrest.bounds.2 w hw
      have hstop : w.stop = w.addr + w.size := rfl
      omega
    obtain rfl | hb' := List.mem_cons.mp hb
    · obtain rfl | hx' := List.mem_cons.mp hx
      · rfl
      · exact absurd heq.symm (hafter x hx')
    · obtain rfl | hx' := List.mem_cons.mp hx
      · exact absurd heq (hafter b hb')
      · exact ih hrest hb' hx'

theorem Layout.current_iff (h : Layout g m bs order [p] next) (hb : b ∈ bs) : b.kind = .current ↔ b.addr = p := by
  have hp : p ∈ addrsOf .current bs := by simp [h.current]
  obtain ⟨k, hk, hkind, rfl⟩ := mem_addrsOf.mp hp
  constructor
  · intro hb'
    have hmem : b.addr ∈ addrsOf .current bs := mem_addrsOf.mpr ⟨b, hb, hb', rfl⟩
    rw [h.current] at hmem
    exact List.mem_singleton.mp hmem
  · intro heq
    rw [h.tiled.addr_inj hb hk heq]
    exact hkind

/-- An allocated block has neighbours. -/
theorem Layout.neighbours (h : Layout g m (l ++ b :: r) order cur next) (hb : b.kind = .live) :
    ∃ l' w y r', l = l' ++ [w] ∧ r = y :: r' ∧ w.stop = b.addr ∧ b.stop = y.addr := by
  obtain rfl | ⟨l, w, rfl⟩ := l.eq_nil_or_concat'
  · exact absurd rfl (h.front_ne (by simp [hb]))
  cases r with
  | nil => exact absurd hb (h.last b (by simp))
  | cons y r =>
    have hw : Layout g m (l ++ w :: b :: y :: r) order cur next := by simpa using h
    exact ⟨l, w, y, r, rfl, rfl, hw.wrap_add.2.1, h.wrap_add.2.1⟩

/-- Blocks in the queue of both have the same size in both. -/
theorem Layout.size_congr {g' : Bound} {bs' : List Blk} {cur' : List Nat} {next' : Nat → Nat}
    (h : Layout g m bs order cur next) (h' : Layout g' m' bs' order' cur' next')
    (hsub : ∀ b ∈ bs', b.kind = .queued → b ∈ bs) : ∀ q ∈ order', m'.get q .size = m.get q .size := by
  intro q hq
  obtain ⟨b, hb, hkind, rfl⟩ := h'.mem_order.mp hq
  rw [h'.sizes b hb, h.sizes b (hsub b hb hkind)]

theorem Layout.order_nodup (h : Layout g m bs order cur next) : order.Nodup :=
  (List.nodup_cons.mp (List.nodup_append.mp h.queue_nodup).1).2

theorem Page.Laid.freePointer (h : pg.Laid (l ++ b :: r) next) (hb : b.kind = .live) :
    ∃ bs', (pg.freePointer b.addr).Laid bs' next ∧ lives bs' = lives (l ++ r) ∧ pg.Same (pg.freePointer b.addr) ∧
      (pg.Peaked → pg.FreeKeeps b.addr → (pg.freePointer b.addr).Peaked) := by
  obtain ⟨⟨order, hlayout⟩, hclosed⟩ := h
  have hqueue : pg.queue = order := hlayout.follow_eq
  have hopened : Layout pg.bound pg.mem (l ++ { b with kind := .opened } :: r) order [pg.ptr] next := by
    have hreopen := hlayout.reopen (.inl hb)
    have hcurrent := hlayout.current
    rw [addrsOf_append, addrsOf_cons, if_neg (by simp [hb])] at hcurrent
    rwa [addrsOf_append, hcurrent] at hreopen
  obtain ⟨l, w, y, r, rfl, rfl, hw, hy⟩ := hlayout.neighbours hb
  have hbnext : nextPointer pg.mem b.addr = y.addr := (hlayout.nextPointer_eq (by simp)).trans hy
  have hycurrent : y.kind = .current ↔ y.addr = pg.ptr := hlayout.current_iff (by simp)
  have hwcurrent : w.kind = .current ↔ w.addr = pg.ptr := hlayout.current_iff (by simp)
  have hwclosed : w.kind ≠ .opened := hclosed w (by simp)
  have hyclosed : y.kind ≠ .opened := hclosed y (by simp)
  have hmergeable : mergeable pg.mem b.addr = w.isFree := by
    have hmarked := hlayout.mergeable_eq (b := w) (by simp) hwclosed
    rwa [hw] at hmarked
  have hprev : w.isFree → prevPointer pg.mem b.addr = w.addr := by
    intro hfree
    have hback := hlayout.prevPointer_eq (b := w) (by simp) hfree
    rwa [hw] at hback
  rw [Page.freePointer]
  simp only [hbnext]
  split
  · next hL =>
    -- the current block is behind
    have hcurrent := hycurrent.mpr hL
    have hsole := (Layout.sole (l := (l ++ [w]) ++ [{ b with kind := .opened }]) (by simpa using hopened) hcurrent).1
    have hwc : w.kind ≠ .current := by
      intro hkind
      simp [hkind] at hsole
    obtain ⟨l', x', order', hmerged, haddr, hx', hlives, hbefore, hsub, horder⟩ :=
      hopened.mergeBefore rfl (by simpa using ⟨hwc, hwclosed⟩) false
    have hsettled : Settled ((l' ++ [x']) ++ y :: r) := by simpa using hmerged.settled
    have hfree : y.isFree := by simp [Blk.isFree, Kind.isFree, hcurrent]
    have hbetween : Between l' r := ⟨hbefore, ((settled_append_cons.mp hsettled).2.2 hfree).behind⟩
    have hjoined := hmerged.joined (.inl ⟨hx', hcurrent⟩) hbetween
    simp only [haddr, ← hL]
    refine ⟨_, ⟨⟨order', hjoined⟩, ?_⟩, ?_, ⟨rfl, rfl, rfl⟩, fun hpeak hkeeps => ?_⟩
    · intro k hk
      simp only [List.mem_append, List.mem_cons] at hk
      obtain hk | rfl | hk := hk
      · exact hclosed k (by simp only [List.mem_append, List.mem_cons]; exact .inl (by simpa using hsub k hk))
      · simp
      · exact hclosed k (by simp [hk])
    · rw [lives_append, lives_cons, if_neg (by simp), hlives, lives_append (l ++ [w]), lives_cons y, if_neg (by simp [hcurrent])]
    · have hsizes := hlayout.size_congr hjoined (by
        intro k hk hkind
        simp only [List.mem_append, List.mem_cons] at hk
        obtain hk | rfl | hk := hk
        · exact List.mem_append_left _ (hsub k hk)
        · exact absurd hkind (by simp)
        · simp [hk])
      refine hpeak.left hkeeps hjoined.follow_eq ?_ hsizes
      rw [hqueue]
      obtain ⟨rfl, -⟩ | ⟨k, hk, hfree, rfl, -⟩ := horder
      · exact .inl rfl
      · rw [List.getLast?_concat, Option.mem_some_iff] at hk
        subst hk
        refine .inr ⟨w.addr, ?_, rfl⟩
        rw [Page.leaving]
        simp only [hbnext, if_pos hL, hmergeable, hfree, if_true, hprev hfree, Option.mem_some_iff]
  · next hL =>
    have hyc : y.kind ≠ .current := fun hkind => hL (hycurrent.mp hkind)
    split
    · next hR =>
      -- the current block is before
      obtain ⟨k, hk, hkind, hkaddr⟩ := mem_addrsOf.mp (hlayout.current ▸ List.mem_singleton.mpr rfl)
      have hkstop : k.stop = w.stop := by
        rw [← hkaddr, hlayout.nextPointer_eq hk] at hR
        rw [hR, hw]
      have hkw : k = w := hlayout.tiled.stop_inj hk (by simp) hkstop
      subst hkw
      obtain ⟨x', r', order', hmerged, haddr, hx', hlives, hbehind, hsub, horder⟩ :=
        hopened.mergeAfter rfl ⟨hyc, hyclosed⟩
      have hmerged' : Layout pg.bound (mergeAfter pg.mem b.addr) (l ++ k :: x' :: r') order' [pg.ptr] next := by
        simpa using hmerged
      have hfree : k.isFree := by simp [Blk.isFree, Kind.isFree, hkind]
      have hbetween : Between l r' := ⟨((settled_append_cons.mp hmerged'.settled).2.2 hfree).before, hbehind⟩
      have hjoined := hmerged'.joined (.inr ⟨hkind, hx'⟩) hbetween
      rw [haddr, hkaddr] at hjoined
      refine ⟨_, ⟨⟨order', hjoined⟩, ?_⟩, ?_, ⟨rfl, rfl, rfl⟩, fun hpeak hkeeps => ?_⟩
      · intro k' hk'
        simp only [List.mem_append, List.mem_cons] at hk'
        obtain hk' | rfl | hk' := hk'
        · exact hclosed k' (by simp [hk'])
        · simp
        · exact hclosed k' (List.mem_append_right _ (List.mem_cons_of_mem _ (hsub k' hk')))
      · rw [lives_append, lives_cons, if_neg (by simp), hlives, lives_append (l ++ [k]), lives_append l, lives_cons k,
          if_neg (by simp [hkind]), lives_nil, List.append_nil]
      · have hsizes := hlayout.size_congr hjoined (by
          intro k' hk' hkind'
          simp only [List.mem_append, List.mem_cons] at hk'
          obtain hk' | rfl | hk' := hk'
          · simp [hk']
          · exact absurd hkind' (by simp)
          · exact List.mem_append_right _ (List.mem_cons_of_mem _ (hsub k' hk')))
        refine hpeak.left hkeeps hjoined.follow_eq ?_ hsizes
        rw [hqueue]
        obtain ⟨rfl, -⟩ | ⟨hfree, rfl, -⟩ := horder
        · exact .inl rfl
        · have hynext : nextPointer pg.mem y.addr = y.stop := hlayout.nextPointer_eq (by simp)
          have hymergeable : mergeable pg.mem y.stop = y.isFree := hlayout.mergeable_eq (by simp) hyclosed
          refine .inr ⟨y.addr, ?_, rfl⟩
          rw [Page.leaving]
          simp only [hbnext, if_neg hL, if_pos hR, hynext, hymergeable, hfree, if_true, Option.mem_some_iff]
    · next hR =>
      have hwc : w.kind ≠ .current := by
        intro hkind
        rw [← hwcurrent.mp hkind, hlayout.nextPointer_eq (by simp), hw] at hR
        exact hR rfl
      obtain ⟨l', x', o₁, hmerged, haddr, hx', hlives, hbefore, hsub, horder⟩ :=
        hopened.mergeBefore rfl (by simpa using ⟨hwc, hwclosed⟩) true
      obtain ⟨x₂, r', o₂, hmerged₂, haddr₂, hx₂, hlives₂, hbehind, hsub₂, horder₂⟩ :=
        hmerged.mergeAfter hx' ⟨hyc, hyclosed⟩
      obtain ⟨m', o₃, heq, hqueued, hplace⟩ := hmerged₂.enqueue hx₂ ⟨hbefore, hbehind⟩
      rw [haddr₂] at heq
      simp only [haddr]
      rw [heq]
      refine ⟨_, ⟨⟨o₃, hqueued⟩, ?_⟩, ?_, ⟨rfl, rfl, rfl⟩, fun hpeak _ => ?_⟩
      · intro k hk
        simp only [List.mem_append, List.mem_cons] at hk
        obtain hk | rfl | hk := hk
        · exact hclosed k (List.mem_append_left _ (hsub k hk))
        · simp
        · exact hclosed k (List.mem_append_right _ (List.mem_cons_of_mem _ (hsub₂ k hk)))
      · rw [lives_append, lives_cons, if_neg (by simp), hlives, hlives₂, lives_append (l ++ [w])]
      · have hxsize : m'.get x₂.addr .size = x₂.size := hqueued.sizes { x₂ with kind := .queued } (by simp)
        have hsizes₂ := hlayout.size_congr hmerged₂ (by
          intro k hk hkind
          simp only [List.mem_append, List.mem_cons] at hk
          obtain hk | rfl | hk := hk
          · exact List.mem_append_left _ (hsub k hk)
          · exact absurd hkind (by simp [hx₂])
          · exact List.mem_append_right _ (List.mem_cons_of_mem _ (hsub₂ k hk)))
        have hsizes : ∀ q ∈ o₂, m'.get q .size = pg.mem.get q .size := by
          intro q hq
          obtain ⟨k, hk, hkind, rfl⟩ := hmerged₂.mem_order.mp hq
          have hk' : k ∈ l' ++ { x₂ with kind := .queued } :: r' := by
            simp only [List.mem_append, List.mem_cons] at hk ⊢
            obtain hk | rfl | hk := hk
            · exact .inl hk
            · exact absurd hkind (by simp [hx₂])
            · exact .inr (.inr hk)
          rw [← hsizes₂ _ hq, hqueued.sizes k hk', hmerged₂.sizes k hk]
        have hle : x'.size ≤ x₂.size := by
          obtain ⟨-, hsize⟩ | ⟨-, -, hsize⟩ := horder₂
          · exact hsize.ge
          · omega
        have hsub₁ : o₁.Sublist order ∧ ∀ q ∈ order, q ∉ o₁ → pg.mem.get q .size ≤ x'.size := by
          obtain ⟨rfl, -⟩ | ⟨k, hk, -, rfl, hsize⟩ := horder
          · exact ⟨List.Sublist.refl _, fun q hq hq' => absurd hq hq'⟩
          · rw [List.getLast?_concat, Option.mem_some_iff] at hk
            subst hk
            refine ⟨List.erase_sublist, fun q hq hq' => ?_⟩
            have hqw : q = w.addr := by
              by_contra hne
              exact hq' ((List.mem_erase_of_ne hne).mpr hq)
            rw [hqw, hlayout.sizes w (by simp)]
            omega
        have hgone : o₂.Sublist order ∧ ∀ q ∈ order, q ∉ o₂ → pg.mem.get q .size ≤ x₂.size := by
          obtain ⟨rfl, -⟩ | ⟨-, rfl, hsize⟩ := horder₂
          · exact ⟨hsub₁.1, fun q hq hq' => (hsub₁.2 q hq hq').trans hle⟩
          · refine ⟨List.erase_sublist.trans hsub₁.1, fun q hq hq' => ?_⟩
            by_cases hq₁ : q ∈ o₁
            · have hqy : q = y.addr := by
                by_contra hne
                exact hq' ((List.mem_erase_of_ne hne).mpr hq₁)
              rw [hqy, hlayout.sizes y (by simp)]
              omega
            · exact (hsub₁.2 q hq hq₁).trans hle
        have hqueue' : Page.queue { pg with mem := m' } = o₃ := hqueued.follow_eq
        rw [Page.Peaked, hqueue']
        rw [Page.Peaked, hqueue] at hpeak
        have hbelow : ∀ q ∈ order, q ∉ o₂ → pg.sizeAt q ≤ Page.sizeAt { pg with mem := m' } x₂.addr :=
          fun q hq hq₂ => (hgone.2 q hq hq₂).trans hxsize.ge
        have hkept : ∀ q ∈ o₂, Page.sizeAt { pg with mem := m' } q = pg.sizeAt q := hsizes
        obtain ⟨hfront, hback⟩ := hpeak.insert hlayout.order_nodup hgone.1 hbelow hkept
        have hfirst : ∀ q ∈ o₂.head?, (mergeAfter (mergeBefore true pg.mem b.addr).1 x'.addr).get pg.head .next = q := by
          intro q hq
          obtain ⟨qs, rfl⟩ := List.head?_eq_some_iff.mp hq
          exact hmerged₂.queue.1
        obtain ⟨rfl, hle⟩ | ⟨rfl, hlt⟩ := hplace
        · refine hfront fun q hq => ?_
          rw [hfirst q hq, hsizes₂ q (List.mem_of_mem_head? hq), ← hsizes q (List.mem_of_mem_head? hq)] at hle
          exact hle.trans hxsize.ge
        · apply hback
          cases o₂ with
          | nil =>
            have hend : (mergeAfter (mergeBefore true pg.mem b.addr).1 x'.addr).get pg.head .next = pg.end_ :=
              hmerged₂.queue.1
            have hendSize : (mergeAfter (mergeBefore true pg.mem b.addr).1 x'.addr).get pg.end_ .size =
                freePointerSize :=
              hmerged₂.endSize
            have hroom := (hmerged₂.tiled.bounds.2 x₂ (by simp)).2.2
            rw [hend, hendSize] at hlt
            exact absurd hlt (Nat.not_lt.mpr hroom)
          | cons q qs =>
            refine ⟨q, rfl, ?_⟩
            rw [hfirst q rfl, hsizes₂ q (by simp), ← hsizes q (by simp)] at hlt
            exact hxsize.trans_lt hlt

/-! ### `malloc` -/

omit [Build] in
theorem sub64_eq {a b : Nat} (hle : b ≤ a) (hlt : a < 2 ^ 64) : sub64 a b = a - b := by
  have hsum : a + (2 ^ 64 - b) = a - b + 2 ^ 64 := by omega
  rw [sub64, wrap, hsum, Nat.add_mod_right, Nat.mod_eq_of_lt (by omega)]

/-- The writes that cut a block off the current one. -/
theorem Layout.split_get (h : Layout g m (l ++ x :: r) order cur next) {s : Nat} (hs : freePointerSize ≤ s)
    (hdvd : 8 ∣ s)
    (hroom : s + freePointerSize ≤ x.size) {m₂ : Mem}
    (hm₂ : m₂ = (m.put (x.addr + s) .flag g.tag).put (x.addr + s) .size (x.size - s))
    (hp : p ∈ heads (l ++ ⟨x.addr, s, .live⟩ :: ⟨x.addr + s, x.size - s, .current⟩ :: r) g.end_) :
    (((markNext m₂ (x.addr + s)).put (x.addr + s) .prev x.addr).put x.addr .size s).get p f =
      if f = .size ∧ p = x.addr then s else if f = .prev ∧ p = x.addr + s then x.addr
      else if f = .flag ∧ p = x.stop then x.size - s else if f = .size ∧ p = x.addr + s then x.size - s
      else if f = .flag ∧ p = x.addr + s then g.tag else m.get p f := by
  have hpos := free_size_pos
  have hspace := h.space
  have h' : Layout g m (l ++ ([x] ++ r)) order cur next := h
  obtain ⟨a, z, hl, hx, hr⟩ := h'.middle
  have hcut : Tiled g.head (l ++ ([⟨x.addr, s, .live⟩, ⟨x.addr + s, x.size - s, .current⟩] ++ r)) g.end_ :=
    tiled_append.mpr ⟨a, hl, tiled_append.mpr ⟨z, hx.cut hs hdvd hroom, hr⟩⟩
  have hto := (h.tiled.bounds.2 x (by simp)).2.1
  have hstop : x.addr + s + (x.size - s) = x.stop := by
    rw [Blk.stop]
    omega
  have hA := hcut.apart
  have hx : x.addr ∈ heads (l ++ ([⟨x.addr, s, .live⟩, ⟨x.addr + s, x.size - s, .current⟩] ++ r)) g.end_ :=
    mem_heads (b := ⟨x.addr, s, .live⟩) (by simp)
  have hxs : x.addr + s ∈ heads (l ++ ([⟨x.addr, s, .live⟩, ⟨x.addr + s, x.size - s, .current⟩] ++ r)) g.end_ :=
    mem_heads (b := ⟨x.addr + s, x.size - s, .current⟩) (by simp)
  have hz : x.stop ∈ heads (l ++ ([⟨x.addr, s, .live⟩, ⟨x.addr + s, x.size - s, .current⟩] ++ r)) g.end_ :=
    mem_heads_cut (h.tiled.stop_mem (by simp))
  have hsize : m₂.get (x.addr + s) .size = x.size - s := by
    rw [hm₂, get_put hA hxs hxs, if_pos ⟨rfl, rfl⟩]
  have hnext : nextPointer m₂ (x.addr + s) = x.stop := by
    rw [nextPointer, hsize, hstop, wrap, Nat.mod_eq_of_lt (by omega)]
  rw [get_put hA hx hp, get_put hA hxs hp, markNext_get hA (by rw [hnext]; exact hz) hp, hnext, hsize, hm₂,
    get_put hA hxs hp, get_put hA hxs hp]
  simp only [and_comm]

/-- The current block and what is around it. -/
theorem Page.Laid.current (h : pg.Laid bs next) :
    ∃ l x r order, bs = l ++ x :: r ∧ x.kind = .current ∧ x.addr = pg.ptr ∧
      Layout pg.bound pg.mem (l ++ x :: r) order [pg.ptr] next := by
  obtain ⟨⟨order, hlayout⟩, -⟩ := h
  obtain ⟨x, hx, hkind, haddr⟩ := mem_addrsOf.mp (hlayout.current ▸ List.mem_singleton.mpr rfl)
  obtain ⟨l, r, rfl⟩ := List.append_of_mem hx
  exact ⟨l, x, r, order, rfl, hkind, haddr, hlayout⟩

theorem Page.Laid.split (h : pg.Laid bs next) {s : Nat} (hs : freePointerSize ≤ s) (hdvd : 8 ∣ s)
    (hroom : s + freePointerSize ≤ pg.mem.get pg.ptr .size) :
    ∃ bs' next', (pg.split s).1.Laid bs' next' ∧ (∀ p, p ≠ pg.ptr → next' p = next p) ∧
      (lives bs').Perm (⟨pg.ptr, s, .live⟩ :: lives bs) ∧ pg.Same (pg.split s).1 ∧
      (pg.split s).2 = pg.ptr + workPointerSize ∧ (pg.Peaked → (pg.split s).1.Peaked) := by
  have hclosed := h.closed
  obtain ⟨l, x, r, order, rfl, hx, hptr, hlayout⟩ := h.current
  have hpos := free_size_pos
  have hspace := hlayout.space
  have hto := (hlayout.tiled.bounds.2 x (by simp)).2.1
  rw [Blk.stop] at hto
  rw [← hptr, hlayout.sizes x (by simp)] at hroom
  have hsum : wrap (pg.ptr + s) = x.addr + s := by
    rw [← hptr, wrap, Nat.mod_eq_of_lt (by omega)]
  have hsub : sub64 ((pg.mem.put (x.addr + s) .flag pg.tag).get pg.ptr .size) s = x.size - s := by
    have hne : x.addr + Field.size.offset ≠ x.addr + s + Field.flag.offset := by
      have hle := offset_lt .size
      simp only [Field.offset] at hle ⊢
      omega
    rw [Mem.get, Mem.put, ← hptr, Function.update_of_ne hne]
    have hsize : pg.mem (x.addr + Field.size.offset) = x.size := hlayout.sizes x (by simp)
    rw [hsize, sub64_eq (by omega) (by omega)]
  have hcut : ∀ m : Mem, (m.put (x.addr + s) .prev pg.ptr).get (x.addr + s) .prev = x.addr := by
    intro m
    rw [Mem.get, Mem.put, Function.update_self, hptr]
  have hsplit : pg.split s = ({ pg with
    mem := ((markNext ((pg.mem.put (x.addr + s) .flag pg.tag).put (x.addr + s) .size (x.size - s)) (x.addr + s)).put
      (x.addr + s) .prev x.addr).put x.addr .size s, ptr := x.addr + s }, wrap (x.addr + workPointerSize)) := by
    simp only [Page.split, hsum, hsub, hcut]
    rw [hptr]
  have hget : ∀ p ∈ heads (l ++ ⟨x.addr, s, .live⟩ :: ⟨x.addr + s, x.size - s, .current⟩ :: r) pg.bound.end_, ∀ f,
      (pg.split s).1.mem.get p f = if f = .size ∧ p = x.addr then s else if f = .prev ∧ p = x.addr + s then x.addr
        else if f = .flag ∧ p = x.stop then x.size - s else if f = .size ∧ p = x.addr + s then x.size - s
        else if f = .flag ∧ p = x.addr + s then pg.tag else pg.mem.get p f := by
    intro p hp f
    rw [hsplit]
    exact hlayout.split_get hs hdvd hroom rfl hp
  have hcutLayout : Layout pg.bound (pg.split s).1.mem
      (l ++ ⟨x.addr, s, .live⟩ :: ⟨x.addr + s, x.size - s, .current⟩ :: r) order [x.addr + s]
      (Function.update next x.addr (pg.mem.get x.addr .next)) := by
    apply hlayout.cut hx hs hdvd hroom
    · intro p hp
      rw [hget p hp]
      simp
    · intro p hp
      rw [hget p hp]
      simp [Page.bound]
    · intro p hp
      rw [hget p (mem_heads_cut hp)]
      simp
    · intro p hp
      have hout := hlayout.heads_sides hp
      have hne : p ≠ x.addr + s := by
        rw [Blk.stop] at hout
        omega
      rw [hget p (mem_heads_cut hp)]
      simp [hne]
  have hlaid : (pg.split s).1.Laid (l ++ ⟨x.addr, s, .live⟩ :: ⟨x.addr + s, x.size - s, .current⟩ :: r)
      (Function.update next x.addr (pg.mem.get x.addr .next)) := by
    constructor
    · rw [hsplit] at hcutLayout ⊢
      exact ⟨order, hcutLayout⟩
    · intro k hk
      simp only [List.mem_append, List.mem_cons] at hk
      obtain hk | rfl | rfl | hk := hk
      · exact hclosed k (by simp [hk])
      · simp
      · simp
      · exact hclosed k (by simp [hk])
  refine ⟨_, _, hlaid, ?_, ?_, ?_, ?_, fun hpeak => ?_⟩
  · intro p hp
    rw [Function.update_of_ne (by rwa [hptr])]
  · simp only [lives_append, lives_cons, if_true, reduceCtorEq, if_false, hx, hptr]
    exact List.perm_middle
  · rw [hsplit]
    exact ⟨rfl, rfl, rfl⟩
  · have hwork : workPointerSize ≤ freePointerSize := by simp [workPointerSize, freePointerSize]
    rw [hsplit, wrap, Nat.mod_eq_of_lt (by omega), hptr]
  · have hsizes := hlayout.size_congr hcutLayout (by
      intro k hk hkind
      simp only [List.mem_append, List.mem_cons] at hk
      obtain hk | rfl | rfl | hk := hk
      · simp [hk]
      · exact absurd hkind (by simp)
      · exact absurd hkind (by simp)
      · simp [hk])
    have hqueue : pg.queue = order := hlayout.follow_eq
    rw [Page.Peaked, hqueue] at hpeak
    exact Page.peaked_of hcutLayout.follow_eq hpeak hsizes

/-- The writes of `exchange` up to the end of the queue. -/
theorem Layout.requeue (h : Layout g m (l ++ x :: r) order [c] next) (hx : x.kind = .current) :
    Layout g (markNext (putIn m x.addr (m.get g.end_ .prev) g.end_) x.addr) (l ++ { x with kind := .queued } :: r)
      (order ++ [x.addr]) [] next := by
  obtain ⟨hl, -, hr⟩ := h.sole hx
  have hopened := h.reopen (.inr hx)
  rw [addrsOf_append, hl, hr, List.append_nil] at hopened
  obtain ⟨-, -, hfree⟩ := settled_append_cons.mp h.settled
  have hlast := List.mem_append_left [g.end_] hopened.prev_end_mem
  have hmem : x.addr ∈ heads (l ++ { x with kind := .opened } :: r) g.end_ :=
    mem_heads (b := { x with kind := .opened }) (by simp)
  have hput := fun p (hp : p ∈ heads (l ++ { x with kind := .opened } :: r) g.end_) f =>
    hopened.putIn_eq (f := f) (c := g.end_) rfl hlast (by simp) hp
  have hsize : (putIn m x.addr (m.get g.end_ .prev) g.end_).get x.addr .size = x.size := by
    have hget := hput x.addr hmem .size
    simp only [reduceCtorEq, false_and, if_false] at hget
    exact hget.trans (h.sizes x (by simp))
  have hnext : nextPointer (putIn m x.addr (m.get g.end_ .prev) g.end_) x.addr = x.stop := by
    have hstop := h.nextPointer_eq (b := x) (by simp)
    rw [nextPointer, h.sizes x (by simp)] at hstop
    rw [nextPointer, hsize, hstop]
  have hstop : x.stop ∈ heads (l ++ { x with kind := .opened } :: r) g.end_ :=
    hopened.tiled.stop_mem (b := { x with kind := .opened }) (by simp)
  refine hopened.pushBack rfl (hfree (by simp [Blk.isFree, Kind.isFree, hx])) fun p hp f => ?_
  rw [markNext_get hopened.apart (by rw [hnext]; exact hstop) hp, hnext, hsize]
  rfl

/-- The first block of the queue becomes the current one. -/
theorem Page.Laid.exchange (h : pg.Laid bs next)
    (hfirst : freePointerSize < pg.mem.get (pg.mem.get pg.head .next) .size) :
    ∃ bs', pg.exchange.Laid bs' next ∧ lives bs' = lives bs ∧ pg.Same pg.exchange ∧
      pg.exchange.ptr = pg.mem.get pg.head .next ∧
      pg.exchange.mem.get pg.exchange.ptr .size = pg.mem.get (pg.mem.get pg.head .next) .size ∧
      (Peak pg.sizeAt (pg.queue.tail ++ [pg.ptr]) → pg.exchange.Peaked) := by
  have hclosed := h.closed
  obtain ⟨l, x, r, order, rfl, hx, hptr, hlayout⟩ := h.current
  have hrequeue := hlayout.requeue hx
  cases order with
  | nil =>
    have hend : pg.mem.get pg.head .next = pg.end_ := hlayout.queue.1
    rw [hend] at hfirst
    exact absurd hlayout.endSize hfirst.ne'
  | cons q o =>
    have hq : pg.mem.get pg.head .next = q := hlayout.queue.1
    obtain ⟨k, hk, hqueued, rfl⟩ := hlayout.mem_order.mp List.mem_cons_self
    have hk' : k ∈ l ++ { x with kind := .queued } :: r := by
      simp only [List.mem_append, List.mem_cons] at hk ⊢
      obtain hk | rfl | hk := hk
      · exact .inl hk
      · rw [hx] at hqueued
        exact absurd hqueued (by simp)
      · exact .inr (.inr hk)
    have hsize := hlayout.sizes k hk
    have hqueue : pg.queue = k.addr :: o := hlayout.follow_eq
    have hsizes : ∀ p ∈ o ++ [x.addr], (markNext (putIn pg.mem x.addr (pg.mem.get pg.bound.end_ .prev) pg.bound.end_) x.addr).get
        p .size = pg.mem.get p .size := by
      intro p hp
      obtain ⟨c, hc, -, rfl⟩ := hrequeue.mem_order.mp (List.mem_cons_of_mem _ hp)
      rw [hrequeue.sizes c hc]
      simp only [List.mem_append, List.mem_cons] at hc
      obtain hc | rfl | hc := hc
      · exact (hlayout.sizes c (by simp [hc])).symm
      · exact (hlayout.sizes x (by simp)).symm
      · exact (hlayout.sizes c (by simp [hc])).symm
    have hlives : lives (l ++ { x with kind := .queued } :: r) = lives (l ++ x :: r) := by simp [hx]
    have hclosed' : ∀ b ∈ l ++ { x with kind := .queued } :: r, b.kind ≠ .opened := by
      intro b hb
      simp only [List.mem_append, List.mem_cons] at hb
      obtain hb | rfl | hb := hb
      · exact hclosed b (by simp [hb])
      · simp
      · exact hclosed b (by simp [hb])
    have hm₁ : markNext (putIn pg.mem pg.ptr (pg.mem.get pg.end_ .prev) pg.end_) pg.ptr =
        markNext (putIn pg.mem x.addr (pg.mem.get pg.bound.end_ .prev) pg.bound.end_) x.addr := by
      rw [hptr]
      rfl
    rw [Page.exchange, hm₁, hq]
    generalize markNext (putIn pg.mem x.addr (pg.mem.get pg.bound.end_ .prev) pg.bound.end_) x.addr =
      m₁ at hrequeue hsizes ⊢
    generalize l ++ { x with kind := .queued } :: r = bs at hrequeue hk' hlives hclosed'
    obtain ⟨l₂, r₂, rfl⟩ := List.append_of_mem hk'
    have hfront : m₁.get pg.head .next = k.addr := hrequeue.queue.1
    have hA := hrequeue.apart
    have hhead : pg.head ∈ heads (l₂ ++ k :: r₂) pg.end_ := hrequeue.linked_mem (p := pg.head) (by simp [Page.bound])
    have hsecond : m₁.get k.addr .next ∈ heads (l₂ ++ k :: r₂) pg.end_ := by
      refine hrequeue.linked_mem ?_
      have haround : Layout pg.bound m₁ (l₂ ++ k :: r₂) ([] ++ k.addr :: (o ++ [x.addr])) [] next := hrequeue
      have hmem := haround.around.2
      simp only [List.cons_append, List.mem_cons, List.mem_append] at hmem ⊢
      tauto
    have hback : (m₁.put pg.head .next (m₁.get k.addr .next)).get pg.head .next = m₁.get k.addr .next := by
      rw [get_put hA hhead hhead, if_pos ⟨rfl, rfl⟩]
    have hget : ∀ p ∈ heads (l₂ ++ k :: r₂) pg.end_, ∀ f,
        ((m₁.put pg.head .next (m₁.get k.addr .next)).put (m₁.get k.addr .next) .prev pg.head).get p f =
          if f = .prev ∧ p = m₁.get k.addr .next then pg.head
          else if f = .next ∧ p = pg.head then m₁.get k.addr .next else m₁.get p f := by
      intro p hp f
      rw [get_put hA hsecond hp, get_put hA hhead hp]
      simp only [and_comm]
    simp only [hfront, hback]
    have hpromote : Layout pg.bound
        ((m₁.put pg.head .next (m₁.get k.addr .next)).put (m₁.get k.addr .next) .prev pg.head)
        (l₂ ++ { k with kind := .current } :: r₂) (o ++ [x.addr]) [k.addr] next := by
      apply hrequeue.promote hqueued
      · intro p hp
        rw [hget p hp]
        simp
      · intro p hp
        rw [hget p hp]
        simp
      · intro p hp
        rw [hget p hp]
        simp only [reduceCtorEq, false_and, true_and, if_false]
        rfl
      · intro p hp
        rw [hget p hp]
        simp only [reduceCtorEq, false_and, true_and, if_false]
        rfl
    refine ⟨_, ⟨⟨_, hpromote⟩, ?_⟩, ?_, ⟨rfl, rfl, rfl⟩, trivial, ?_, fun hpeak => ?_⟩
    · intro b hb
      simp only [List.mem_append, List.mem_cons] at hb
      obtain hb | rfl | hb := hb
      · exact hclosed' b (by simp [hb])
      · simp
      · exact hclosed' b (by simp [hb])
    · rw [← hlives]
      simp [hqueued]
    · rw [hsize]
      exact hpromote.sizes { k with kind := .current } (by simp)
    · have hsizes' := hrequeue.size_congr hpromote (by
        intro c hc hkind
        simp only [List.mem_append, List.mem_cons] at hc
        obtain hc | rfl | hc := hc
        · simp [hc]
        · exact absurd hkind (by simp)
        · simp [hc])
      rw [hqueue, List.tail_cons, ← hptr] at hpeak
      exact Page.peaked_of hpromote.follow_eq hpeak fun p hp => (hsizes' p hp).trans (hsizes p hp)

/-! ### Sizes -/

/-- The size rounding of a request does not overflow. -/
def Rounds (n : Nat) : Prop := n + workPointerSize + 7 < 2 ^ 64

instance (n : Nat) : Decidable (Rounds n) := inferInstanceAs (Decidable (_ < _))

/-- Neither does the size that is to be reserved for it. -/
def Reserves (n : Nat) : Prop := req2align n + freePointerSize < 2 ^ 64

instance (n : Nat) : Decidable (Reserves n) := inferInstanceAs (Decidable (_ < _))

theorem Rounds.req2align_spec {n : Nat} (h : Rounds n) :
    freePointerSize ≤ req2align n ∧ 8 ∣ req2align n ∧ n + workPointerSize ≤ req2align n := by
  have hF : 8 ∣ freePointerSize := by
    simp only [freePointerSize, backtraceSize]
    split <;> omega
  rw [Rounds] at h
  have hwrap : wrap (n + workPointerSize) = n + workPointerSize := Nat.mod_eq_of_lt (by omega)
  have hwrap' : wrap (n + workPointerSize + 7) = n + workPointerSize + 7 := Nat.mod_eq_of_lt (by omega)
  rw [req2align, hwrap, hwrap']
  split
  · exact ⟨le_rfl, hF, by omega⟩
  · exact ⟨by omega, Nat.dvd_mul_left .., by omega⟩

/-! ### The calls -/

omit [Build] in
theorem Page.Same.trans {pg' pg'' : Page} (h : pg.Same pg') (h' : pg'.Same pg'') : pg.Same pg'' :=
  ⟨h'.1.trans h.1, h'.2.1.trans h.2.1, h'.2.2.trans h.2.2⟩

theorem Page.Laid.malloc (h : pg.Laid bs next) {n : Nat} (hn : Rounds n) (hreserves : Reserves n) :
    (pg.malloc n = (pg, none)) ∨ ∃ a bs' next', (pg.malloc n).2 = some (a + workPointerSize) ∧
      (pg.malloc n).1.Laid bs' next' ∧ (∀ p, p ≠ a → next' p = next p) ∧
      (lives bs').Perm (⟨a, req2align n, .live⟩ :: lives bs) ∧ pg.Same (pg.malloc n).1 ∧
      (pg.Peaked → pg.MallocKeeps n → (pg.malloc n).1.Peaked) := by
  obtain ⟨hle, hdvd, -⟩ := hn.req2align_spec
  have hwrap : wrap (req2align n + freePointerSize) = req2align n + freePointerSize := Nat.mod_eq_of_lt hreserves
  rw [Page.malloc, hwrap]
  by_cases hroom : pg.mem.get pg.ptr .size < req2align n + freePointerSize
  · simp only [if_pos hroom]
    by_cases hfirst : req2align n + freePointerSize < pg.mem.get (pg.mem.get pg.head .next) .size
    · simp only [if_pos hfirst]
      obtain ⟨bs', hlaid, hlives, hsame, hptr, hsize, hpeak⟩ := h.exchange (by omega)
      obtain ⟨bs'', next', hlaid', hnext, hlives', hsame', haddr, hpeak'⟩ := hlaid.split hle hdvd (by rw [hsize]; omega)
      rw [hlives] at hlives'
      refine .inr ⟨_, _, _, by rw [haddr], hlaid', hnext, hlives', hsame.trans hsame', fun _ hkeeps => ?_⟩
      rw [Page.MallocKeeps, hwrap] at hkeeps
      exact hpeak' (hpeak (hkeeps hroom hfirst))
    · simp only [if_neg hfirst]
      exact .inl trivial
  · simp only [if_neg hroom]
    obtain ⟨bs', next', hlaid, hnext, hlives, hsame, haddr, hpeak⟩ := h.split hle hdvd (Nat.not_lt.mp hroom)
    exact .inr ⟨_, _, _, by rw [haddr], hlaid, hnext, hlives, hsame, fun hpeaked _ => hpeak hpeaked⟩

/-- A write to an allocated block behind its flag and its size. -/
theorem Page.Laid.store (h : pg.Laid bs next) (hb : b ∈ lives bs) (hfrom : b.addr + 16 ≤ p) (hto : p < b.stop)
    (v : Nat) :
    ∃ next', Page.Laid { pg with mem := Function.update pg.mem p v } bs next' ∧ (∀ q, q ≠ b.addr → next' q = next q) ∧
      (p = b.addr + Field.next.offset → next' b.addr = v) ∧
      (pg.Peaked → Page.Peaked { pg with mem := Function.update pg.mem p v }) := by
  obtain ⟨⟨order, hlayout⟩, hclosed⟩ := h
  rw [lives, List.mem_filter] at hb
  obtain ⟨hb, hlive⟩ := hb
  rw [decide_eq_true_eq] at hlive
  have hother : ∀ q ∈ heads bs pg.bound.end_, ∀ f, q ≠ b.addr →
      Mem.get (Function.update pg.mem p v) q f = pg.mem.get q f := by
    intro q hq f hne
    have hoffset := offset_lt f
    have hsplit : q = b.addr ∨ q < b.addr ∨ b.stop ≤ q := by
      obtain ⟨l, r, rfl⟩ := List.append_of_mem hb
      exact hlayout.heads_sides hq
    have happ := hlayout.apart q hq b.addr (mem_heads hb) hne
    have hout : q + f.offset ≠ p := by omega
    rw [Mem.get, Function.update_of_ne hout]
    rfl
  have hsame : ∀ f, f = .flag ∨ f = .size → Mem.get (Function.update pg.mem p v) b.addr f = pg.mem.get b.addr f := by
    intro f hf
    have hne : b.addr + f.offset ≠ p := by
      obtain rfl | rfl := hf <;> simp only [Field.offset] <;> omega
    rw [Mem.get, Function.update_of_ne hne]
    rfl
  have hkeep : ∀ q ∈ heads bs pg.bound.end_, ∀ f, f = .flag ∨ f = .size →
      Mem.get (Function.update pg.mem p v) q f = pg.mem.get q f := by
    intro q hq f hf
    by_cases hqb : q = b.addr
    · rw [hqb]
      exact hsame f hf
    · exact hother q hq f hqb
  have hlinked : ∀ q ∈ pg.bound.head :: order ++ [pg.bound.end_], ∀ f,
      Mem.get (Function.update pg.mem p v) q f = pg.mem.get q f :=
    fun q hq f => hother q (hlayout.linked_mem hq) f (hlayout.live_ne hb hlive hq).symm
  have hlayout' : Layout pg.bound (Function.update pg.mem p v) bs order [pg.ptr]
      (Function.update next b.addr (Mem.get (Function.update pg.mem p v) b.addr .next)) :=
      { hlayout with
        sizes := fun k hk => (hkeep _ (mem_heads hk) _ (.inr rfl)).trans (hlayout.sizes k hk)
        endSize := (hkeep _ end_mem_heads _ (.inr rfl)).trans hlayout.endSize
        marks := fun k hk hkind => (hkeep _ (hlayout.tiled.stop_mem hk) _ (.inl rfl)).trans (hlayout.marks k hk hkind)
        queue := hlayout.queue.congr (fun q hq => hlinked q (List.mem_append_left _ hq) _)
          (fun q hq => hlinked q (List.mem_cons_of_mem _ hq) _)
        kept := by
          intro k hk hklive
          by_cases hkb : k.addr = b.addr
          · rw [hkb, Function.update_self]
          · rw [Function.update_of_ne hkb]
            exact (hother _ (mem_heads hk) _ hkb).trans (hlayout.kept k hk hklive) }
  refine ⟨_, ⟨⟨order, hlayout'⟩, hclosed⟩, fun q hq => Function.update_of_ne hq .., fun hp => ?_, fun hpeak => ?_⟩
  · rw [Function.update_self, Mem.get, ← hp, Function.update_self]
  · have hqueue : pg.queue = order := hlayout.follow_eq
    rw [Page.Peaked, hqueue] at hpeak
    exact Page.peaked_of hlayout'.follow_eq hpeak (hlayout.size_congr hlayout' fun _ hb _ => hb)

/-! ### A new page -/

omit [Build] in
theorem inuseFlag_odd (pool id : Nat) : inuseFlag pool id % 2 = 1 := by
  rw [inuseFlag, Nat.or_mod_two_eq_one]
  exact .inr rfl

theorem pageBytes_le {s : Nat} (h : pageBytes s ≠ 0) :
    3 * freePointerSize ≤ pageBytes s ∧ 8 ∣ pageBytes s ∧ pageBytes s < 2 ^ 64 := by
  have hF : freePointerSize ≤ 160 := by
    simp only [freePointerSize, backtraceSize]
    split <;> omega
  have hlt : wrap (s + freePointerSize * 4 + pageAlignedMask) < 2 ^ 64 := Nat.mod_lt _ (by simp)
  rw [pageBytes] at h ⊢
  omega

/-- The blocks of a new page. -/
def freshBlocks (startAddress size : Nat) : List Blk :=
  [⟨startAddress, freePointerSize, .sentinel⟩, ⟨startAddress + freePointerSize, size - freePointerSize * 2, .current⟩]

theorem get_put_self (m : Mem) (p : Nat) (f : Field) (v : Nat) : (m.put p f v).get p f = v := by
  rw [Mem.get, Mem.put, Function.update_self]

theorem nextPointer_put (m : Mem) (p v : Nat) : nextPointer (m.put p .size v) p = wrap (p + v) := by
  rw [nextPointer, get_put_self]

/-- One of four values for each field of a header. -/
@[simp] def Field.pick (flag size prev next : Nat) : Field → Nat
  | .flag => flag
  | .size => size
  | .prev => prev
  | .next => next

/-- `malloc_page` lays the page out, when the mapping is in the address space and not empty. -/
theorem mallocPage_laid (pool id pageSize start : Nat) (mem : Mem) (hsize : pageBytes pageSize ≠ 0)
    (hspace : start + pageBytes pageSize ≤ 2 ^ 64) :
    ∃ next, (mallocPage pool id pageSize start mem).Laid (freshBlocks start (pageBytes pageSize)) next ∧
      (mallocPage pool id pageSize start mem).bound =
        ⟨start, start + pageBytes pageSize - freePointerSize, inuseFlag pool id⟩ := by
  obtain ⟨hle, hdvd, hlt⟩ := pageBytes_le hsize
  have hpos := free_size_pos
  have hF : 8 ∣ freePointerSize := by
    simp only [freePointerSize, backtraceSize]
    split <;> omega
  have hptr : wrap (start + freePointerSize) = start + freePointerSize := Nat.mod_eq_of_lt (by omega)
  have hsub : sub64 (pageBytes pageSize) (freePointerSize * 2) = pageBytes pageSize - freePointerSize * 2 :=
    sub64_eq (by omega) (by omega)
  have hend : wrap (start + freePointerSize + (pageBytes pageSize - freePointerSize * 2)) =
      start + pageBytes pageSize - freePointerSize := by
    have hsum : start + freePointerSize + (pageBytes pageSize - freePointerSize * 2) =
        start + pageBytes pageSize - freePointerSize := by omega
    rw [hsum]
    exact Nat.mod_eq_of_lt (by omega)
  have htiled : Tiled start (freshBlocks start (pageBytes pageSize))
      (start + pageBytes pageSize - freePointerSize) := by
    refine ⟨rfl, le_rfl, hF, rfl, ?_, ?_, ?_⟩
    · simp only
      omega
    · simp only
      omega
    · simp only [Tiled, Blk.stop]
      omega
  have hA := htiled.apart
  simp only [mallocPage, nextPointer_put, get_put_self, hptr, hsub, hend]
  generalize pageBytes pageSize = size at *
  have hstart : start ∈ heads (freshBlocks start size) (start + size - freePointerSize) := by simp [heads, freshBlocks]
  have hfirst : start + freePointerSize ∈ heads (freshBlocks start size) (start + size - freePointerSize) := by
    simp [heads, freshBlocks]
  have hlast : start + size - freePointerSize ∈ heads (freshBlocks start size) (start + size - freePointerSize) :=
    end_mem_heads
  have hne : start + freePointerSize ≠ start := by omega
  have hne' : start + size - freePointerSize ≠ start := by omega
  have hne'' : start + size - freePointerSize ≠ start + freePointerSize := by omega
  obtain ⟨m, hm⟩ : ∃ m, m = (((((((((mem.put start .flag (inuseFlag pool id)).put start .size freePointerSize).put
      (start + freePointerSize) .flag (inuseFlag pool id)).put (start + freePointerSize) .size
      (size - freePointerSize * 2)).put (start + size - freePointerSize) .flag (size - freePointerSize * 2)).put
      (start + size - freePointerSize) .size freePointerSize).put start .prev 0).put start .next
      (start + size - freePointerSize)).put (start + size - freePointerSize) .prev start).put
      (start + size - freePointerSize) .next 0 := ⟨_, rfl⟩
  have hget : ∀ p ∈ heads (freshBlocks start size) (start + size - freePointerSize), ∀ f, m.get p f =
      if p = start + size - freePointerSize then f.pick (size - freePointerSize * 2) freePointerSize start 0
      else if p = start + freePointerSize then
        f.pick (inuseFlag pool id) (size - freePointerSize * 2) (mem.get p .prev) (mem.get p .next)
      else if p = start then f.pick (inuseFlag pool id) freePointerSize 0 (start + size - freePointerSize)
      else mem.get p f := by
    intro p hp f
    rw [hm, get_put hA hlast hp, get_put hA hlast hp, get_put hA hstart hp, get_put hA hstart hp, get_put hA hlast hp,
      get_put hA hlast hp, get_put hA hfirst hp, get_put hA hfirst hp, get_put hA hstart hp, get_put hA hstart hp]
    cases f <;> grind [Field.pick]
  rw [← hm]
  have hlayout : Layout ⟨start, start + size - freePointerSize, inuseFlag pool id⟩ m (freshBlocks start size) []
      [start + freePointerSize] fun _ => 0 :=
    { tiled := htiled
      first := rfl
      alone := by simp [freshBlocks]
      last := by simp [freshBlocks]
      settled := by simp [Settled, freshBlocks, Blk.isFree, Kind.isFree]
      space := by
        simp only
        omega
      odd := inuseFlag_odd ..
      sizes := by
        intro b hb
        rw [hget _ (mem_heads hb)]
        simp only [freshBlocks, List.mem_cons, List.not_mem_nil, or_false] at hb
        obtain rfl | rfl := hb
        · simp [hpos.ne', hne'.symm]
        · simp [hne''.symm]
      endSize := by
        rw [hget _ hlast]
        simp
      marks := by
        intro b hb _
        rw [hget _ (htiled.stop_mem hb)]
        simp only [freshBlocks, List.mem_cons, List.not_mem_nil, or_false] at hb
        obtain rfl | rfl := hb
        · simp [Blk.stop, Blk.mark, Blk.isFree, Kind.isFree, hne''.symm]
        · have hstop : start + freePointerSize + (size - freePointerSize * 2) =
              start + size - freePointerSize := by omega
          simp [Blk.stop, Blk.mark, Blk.isFree, Kind.isFree, hstop]
      queue := by
        refine ⟨?_, ?_⟩
        · simp only [hget _ hstart]
          simp [hpos.ne', hne'.symm]
        · simp only [hget _ hlast]
          simp
      queued := by simp [freshBlocks]
      current := by simp [freshBlocks]
      kept := by simp [freshBlocks] }
  refine ⟨_, ⟨⟨_, hlayout⟩, by simp [freshBlocks]⟩, rfl⟩

end Wenas.Xmalloc
