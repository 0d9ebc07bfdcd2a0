import Wenas.Xmalloc.Steps

/-!
# `aligned_alloc`

The block is cut in two at the aligned address, both parts are allocated for a moment, and the first one is freed.
-/
namespace Wenas.Xmalloc
open Wenas.Links

/-! ### The mask -/

theorem and_sub_two_pow {x k : Nat} (hk : k ≤ 64) (hx : x < 2 ^ 64) : x &&& (2 ^ 64 - 2 ^ k) = x / 2 ^ k * 2 ^ k := by
  have hmask : 2 ^ 64 - 2 ^ k = 2 ^ k * (2 ^ (64 - k) - 1) := by
    rw [Nat.mul_sub, ← pow_add, Nat.add_sub_cancel' hk, mul_one]
  apply Nat.eq_of_testBit_eq
  intro i
  rw [hmask, Nat.testBit_and, mul_comm (x / 2 ^ k), Nat.testBit_two_pow_mul, Nat.testBit_two_pow_mul,
    Nat.testBit_two_pow_sub_one, Nat.testBit_div_two_pow]
  by_cases hi : k ≤ i
  · have hlow : i < 64 ∨ x.testBit i = false := by
      by_cases hlt : i < 64
      · exact .inl hlt
      · exact .inr (Nat.testBit_lt_two_pow (hx.trans_le (Nat.pow_le_pow_right (by simp) (Nat.not_lt.mp hlt))))
    obtain hlt | hzero := hlow
    · have hlt' : i - k < 64 - k := by omega
      simp [hi, hlt']
    · simp [hi, hzero]
  · simp [hi]

theorem maskOff_eq {x k : Nat} (hk : k < 64) (hx : x < 2 ^ 64) : maskOff x (2 ^ k) = x / 2 ^ k * 2 ^ k := by
  have hpos : 0 < 2 ^ k := Nat.two_pow_pos k
  have hlt : 2 ^ k < 2 ^ 64 := Nat.pow_lt_pow_right (by simp) hk
  have hmask : 2 ^ 64 - 1 - sub64 (2 ^ k) 1 = 2 ^ 64 - 2 ^ k := by
    rw [sub64_eq hpos hlt]
    omega
  rw [maskOff, hmask, and_sub_two_pow hk.le hx]

/-! ### The cut -/

variable [Build]

variable {g : Bound} {m m' : Mem} {bs l r : List Blk} {order cur : List Nat} {next : Nat → Nat}
  {a c d n k z p : Nat} {b x : Blk} {f : Field} {pg : Page}

omit [Build] in
theorem mem_heads_carved (hp : p ∈ heads (l ++ x :: r) z) :
    p ∈ heads (l ++ ⟨x.addr, d, .live⟩ :: ⟨x.addr + d, x.size - d, .live⟩ :: r) z := by
  simp only [heads, List.map_append, List.map_cons, List.mem_append, List.mem_cons] at hp ⊢
  tauto

theorem Tiled.carved (h : Tiled a [x] z) (hd : freePointerSize ≤ d) (hdvd : 8 ∣ d)
    (hroom : d + freePointerSize ≤ x.size) :
    Tiled a [⟨x.addr, d, .live⟩, ⟨x.addr + d, x.size - d, .live⟩] z := by
  obtain ⟨rfl, -, hxdvd, rfl⟩ := h
  refine ⟨rfl, hd, hdvd, rfl, Nat.le_sub_of_add_le' hroom, Nat.dvd_sub hxdvd hdvd, ?_⟩
  simp only [Tiled, Blk.stop]
  omega

/-- An allocated block becomes two. -/
theorem Layout.carve (h : Layout g m (l ++ x :: r) order cur next) (hx : x.kind = .live) (hd : freePointerSize ≤ d)
    (hdvd : 8 ∣ d) (hroom : d + freePointerSize ≤ x.size)
    (hsize : ∀ p ∈ heads (l ++ ⟨x.addr, d, .live⟩ :: ⟨x.addr + d, x.size - d, .live⟩ :: r) g.end_,
      m'.get p .size = if p = x.addr then d else if p = x.addr + d then x.size - d else m.get p .size)
    (hflag : ∀ p ∈ heads (l ++ ⟨x.addr, d, .live⟩ :: ⟨x.addr + d, x.size - d, .live⟩ :: r) g.end_,
      m'.get p .flag = if p = x.addr + d then g.tag else m.get p .flag)
    (hnext : ∀ p ∈ heads (l ++ x :: r) g.end_, m'.get p .next = m.get p .next)
    (hprev : ∀ p ∈ heads (l ++ x :: r) g.end_, m'.get p .prev = m.get p .prev) :
    Layout g m' (l ++ ⟨x.addr, d, .live⟩ :: ⟨x.addr + d, x.size - d, .live⟩ :: r) order cur
      (Function.update next (x.addr + d) (m'.get (x.addr + d) .next)) := by
  have hpos := free_size_pos
  have h' : Layout g m (l ++ ([x] ++ r)) order cur next := h
  obtain ⟨a, z, hl, ⟨rfl, hxsize, hxdvd, rfl⟩, hr⟩ := h'.middle
  have hne : l ≠ [] := h.front_ne (by simp [hx])
  obtain ⟨hsl, hsr, -⟩ := settled_append_cons.mp h.settled
  have hlt : x.addr < x.stop := Nat.lt_add_of_pos_right (hpos.trans_le hxsize)
  have hinside : x.addr + d < x.stop := by
    rw [Blk.stop]
    omega
  have hold : ∀ p ∈ heads (l ++ x :: r) g.end_, p ≠ x.addr + d := by
    intro p hp
    have hout := h.heads_sides hp
    omega
  have hnew : Layout g m' (l ++ ([⟨x.addr, d, .live⟩, ⟨x.addr + d, x.size - d, .live⟩] ++ r)) order cur
      (Function.update next (x.addr + d) (m'.get (x.addr + d) .next)) := by
    apply h'.replace hl hr hne (List.cons_ne_nil _ _)
    · exact Tiled.carved ⟨rfl, hxsize, hxdvd, rfl⟩ hd hdvd hroom
    · simp
    · intro b _ hrnil
      rw [hrnil] at h
      exact absurd hx (h.last x (by simp))
    · refine settled_append_cons.mpr ⟨hsl, ?_, fun hfree => absurd hfree (by simp [Blk.isFree, Kind.isFree])⟩
      have hnil : Settled ([] ++ ⟨x.addr + d, x.size - d, .live⟩ :: r) :=
        settled_append_cons.mpr ⟨List.isChain_nil, hsr, fun hfree => absurd hfree (by simp [Blk.isFree, Kind.isFree])⟩
      exact hnil
    · intro p hp
      obtain ⟨hmem, hout⟩ := hl.heads_around [x] hr hlt hp
      rw [hsize p (mem_heads_carved hmem), if_neg (by omega), if_neg (by omega)]
    · intro b hb
      simp only [List.mem_cons, List.not_mem_nil, or_false] at hb
      obtain rfl | rfl := hb
      · rw [hsize _ (mem_heads (by simp)), if_pos rfl]
      · rw [hsize _ (mem_heads (by simp)), if_neg (by simp only; omega), if_pos rfl]
    · intro p hp _
      rw [hflag p (mem_heads_carved hp), if_neg (hold p hp)]
    · intro b hb _
      simp only [List.mem_cons, List.not_mem_nil, or_false] at hb
      obtain rfl | rfl := hb
      · simp only [Blk.stop, Blk.mark, Blk.isFree, Kind.isFree]
        rw [hflag _ (mem_heads (b := ⟨x.addr + d, x.size - d, .live⟩) (by simp)), if_pos rfl]
        rfl
      · have hend : x.addr + d + (x.size - d) = x.stop := by
          rw [Blk.stop]
          omega
        have hmark := h.marks x (by simp) (by simp [hx])
        simp only [Blk.stop, Blk.mark, Blk.isFree, Kind.isFree, hx, Bool.false_eq_true, if_false] at hmark ⊢
        rw [hend, hflag _ (mem_heads_carved (h.tiled.stop_mem (by simp))), if_neg (by omega)]
        exact hmark
    · exact h.queue.congr (fun p hp => hnext p (h.linked_mem (List.mem_append_left _ hp)))
        (fun p hp => hprev p (h.linked_mem (List.mem_cons_of_mem _ hp)))
    · simpa [hx] using h.queued
    · simpa [hx] using h.current
    · intro b hb hlive
      rw [hnext _ (mem_heads hb), h.kept b hb hlive, Function.update_of_ne (hold _ (mem_heads hb))]
    · intro b hb hlive
      simp only [List.mem_cons, List.not_mem_nil, or_false] at hb
      obtain rfl | rfl := hb
      · have hkept := h.kept x (by simp) hx
        rw [hnext _ (mem_heads (b := x) (by simp)), hkept, Function.update_of_ne (hold _ (mem_heads (b := x) (by simp)))]
      · rw [Function.update_self]
  exact hnew

/-- `free_pointer` of an allocated block. -/
theorem Page.Laid.release (h : pg.Laid bs next) (hb : b ∈ lives bs) :
    ∃ bs', (pg.freePointer b.addr).Laid bs' next ∧ (lives bs).Perm (b :: lives bs') ∧
      pg.Same (pg.freePointer b.addr) ∧ (pg.Peaked → pg.FreeKeeps b.addr → (pg.freePointer b.addr).Peaked) := by
  rw [lives, List.mem_filter, decide_eq_true_eq] at hb
  obtain ⟨hb, hlive⟩ := hb
  obtain ⟨l, r, rfl⟩ := List.append_of_mem hb
  obtain ⟨bs', hlaid, hlives, hsame⟩ := h.freePointer hlive
  refine ⟨bs', hlaid, ?_, hsame⟩
  rw [hlives, lives_append, lives_cons, if_pos hlive, lives_append]
  exact List.perm_middle

theorem Page.Laid.addr_eq (h : pg.Laid bs next) (hb : b ∈ bs) :
    sub64 (b.addr + workPointerSize) workPointerSize = b.addr := by
  obtain ⟨⟨order, hlayout⟩, -⟩ := h
  have hto := (hlayout.tiled.bounds.2 b hb).2
  have hspace := hlayout.space
  have hpos := free_size_pos
  have hwork : workPointerSize ≤ freePointerSize := by simp [workPointerSize, freePointerSize]
  rw [Blk.stop] at hto
  rw [sub64_eq (by omega) (by omega), Nat.add_sub_cancel]

theorem Page.Laid.carve (h : pg.Laid bs next) (hb : b ∈ lives bs) (hd : freePointerSize ≤ d) (hdvd : 8 ∣ d)
    (hroom : d + freePointerSize ≤ b.size) {alignment : Nat}
    (haligned : maskOff (wrap (b.addr + workPointerSize + alignment + freePointerSize)) alignment =
      b.addr + d + workPointerSize) :
    ∃ bs' next' rest, (pg.carve (b.addr + workPointerSize) alignment).1.Laid bs' next' ∧
      (∀ p, p ≠ b.addr + d → next' p = next p) ∧ (lives bs).Perm (b :: rest) ∧
      (lives bs').Perm (⟨b.addr + d, b.size - d, .live⟩ :: rest) ∧
      pg.Same (pg.carve (b.addr + workPointerSize) alignment).1 := by
  have hclosed := h.closed
  obtain ⟨order, hlayout⟩ := h.layout
  have hbmem := hb
  rw [lives, List.mem_filter, decide_eq_true_eq] at hbmem
  obtain ⟨hmem, hlive⟩ := hbmem
  have haddr := h.addr_eq hmem
  have hspace := hlayout.space
  have hto := (hlayout.tiled.bounds.2 b hmem).2.1
  rw [Blk.stop] at hto
  have hpos := free_size_pos
  have hwork : workPointerSize ≤ freePointerSize := by simp [workPointerSize, freePointerSize]
  have haddr' : sub64 (b.addr + d + workPointerSize) workPointerSize = b.addr + d := by
    rw [sub64_eq (by omega) (by omega), Nat.add_sub_cancel]
  have hfree : sub64 (b.addr + d) b.addr = d := by
    rw [sub64_eq (by omega) (by omega), Nat.add_sub_cancel_left]
  have htail : sub64 b.size d = b.size - d := sub64_eq (by omega) (by omega)
  obtain ⟨l, r, rfl⟩ := List.append_of_mem hmem
  have h' : Layout pg.bound pg.mem (l ++ ([b] ++ r)) order [pg.ptr] next := hlayout
  obtain ⟨a, z, hl, hx, hr⟩ := h'.middle
  have hcut : Tiled pg.head (l ++ ([⟨b.addr, d, .live⟩, ⟨b.addr + d, b.size - d, .live⟩] ++ r)) pg.end_ :=
    tiled_append.mpr ⟨a, hl, tiled_append.mpr ⟨z, hx.carved hd hdvd hroom, hr⟩⟩
  have hA := hcut.apart
  have hfront : b.addr ∈ heads (l ++ ([⟨b.addr, d, .live⟩, ⟨b.addr + d, b.size - d, .live⟩] ++ r)) pg.end_ :=
    mem_heads (b := ⟨b.addr, d, .live⟩) (by simp)
  have hback : b.addr + d ∈ heads (l ++ ([⟨b.addr, d, .live⟩, ⟨b.addr + d, b.size - d, .live⟩] ++ r)) pg.end_ :=
    mem_heads (b := ⟨b.addr + d, b.size - d, .live⟩) (by simp)
  have hstop : b.stop ∈ heads (l ++ ([⟨b.addr, d, .live⟩, ⟨b.addr + d, b.size - d, .live⟩] ++ r)) pg.end_ :=
    mem_heads_carved (hlayout.tiled.stop_mem (by simp))
  have hne : b.addr ≠ b.addr + d := by omega
  have hne' : b.stop ≠ b.addr + d := by
    rw [Blk.stop]
    omega
  have hnext : nextPointer (pg.mem.put (b.addr + d) .size (b.size - d)) b.addr = b.stop := by
    rw [nextPointer, get_put hA hback hfront, if_neg fun heq => hne heq.1]
    exact hlayout.nextPointer_eq (by simp)
  have hmark : (pg.mem.put (b.addr + d) .size (b.size - d)).get b.stop .flag = pg.tag := by
    rw [get_put hA hback hstop, if_neg fun heq => hne' heq.1, hlayout.marks b (by simp) (by simp [hlive]), Blk.mark,
      if_neg (by simp [Blk.isFree, Kind.isFree, hlive])]
    rfl
  obtain ⟨m, hm⟩ : ∃ m, m = ((pg.mem.put (b.addr + d) .size (b.size - d)).put (b.addr + d) .flag pg.tag).put b.addr .size d :=
    ⟨_, rfl⟩
  have hcarve : pg.carve (b.addr + workPointerSize) alignment =
      (({ pg with mem := m } : Page).freePointer b.addr, b.addr + d + workPointerSize) := by
    simp only [Page.carve, Page.free, haligned, haddr, haddr', hfree, hlayout.sizes b (by simp), htail, hnext, hmark]
    rw [hm]
  have hget : ∀ p ∈ heads (l ++ ⟨b.addr, d, .live⟩ :: ⟨b.addr + d, b.size - d, .live⟩ :: r) pg.end_, ∀ f, m.get p f =
      if f = .size ∧ p = b.addr then d else if f = .flag ∧ p = b.addr + d then pg.tag
      else if f = .size ∧ p = b.addr + d then b.size - d else pg.mem.get p f := by
    intro p hp f
    rw [hm, get_put hA hfront hp, get_put hA hback hp, get_put hA hback hp]
    simp only [and_comm]
  have hcarved : Layout pg.bound m (l ++ ⟨b.addr, d, .live⟩ :: ⟨b.addr + d, b.size - d, .live⟩ :: r) order [pg.ptr]
      (Function.update next (b.addr + d) (m.get (b.addr + d) .next)) := by
    apply hlayout.carve hlive hd hdvd hroom
    · intro p hp
      rw [hget p hp]
      simp
    · intro p hp
      rw [hget p hp]
      simp [Page.bound]
    · intro p hp
      rw [hget p (mem_heads_carved hp)]
      simp
    · intro p hp
      rw [hget p (mem_heads_carved hp)]
      simp
  have hlaid : Page.Laid { pg with mem := m } (l ++ ⟨b.addr, d, .live⟩ :: ⟨b.addr + d, b.size - d, .live⟩ :: r)
      (Function.update next (b.addr + d) (m.get (b.addr + d) .next)) := by
    refine ⟨⟨order, hcarved⟩, fun k hk => ?_⟩
    simp only [List.mem_append, List.mem_cons] at hk
    obtain hk | rfl | rfl | hk := hk
    · exact hclosed k (by simp [hk])
    · simp
    · simp
    · exact hclosed k (by simp [hk])
  obtain ⟨bs', hlaid', hlives, hsame, -⟩ := hlaid.freePointer rfl
  refine ⟨bs', Function.update next (b.addr + d) (m.get (b.addr + d) .next), lives (l ++ r), ?_, ?_, ?_, ?_, ?_⟩
  · rw [hcarve]
    exact hlaid'
  · intro p hp
    exact Function.update_of_ne hp ..
  · rw [lives_append, lives_cons, if_pos hlive, lives_append]
    exact List.perm_middle
  · rw [hlives, lives_append, lives_cons, if_pos rfl, lives_append]
    exact List.perm_middle
  · rw [hcarve]
    exact hsame

/-! ### The call -/

omit [Build] in
/-- The tests let the powers of two from 8 on pass, and 8 is handled before. -/
theorem exists_pow_of_admitted {alignment : Nat} (hlt : alignment < 2 ^ 64) (h8 : alignment ≠ 8) (hzero : alignment ≠ 0)
    (hlow : alignment &&& (8 - 1) = 0) (hpow : alignment &&& sub64 alignment 1 = 0) :
    ∃ k, 4 ≤ k ∧ k < 64 ∧ alignment = 2 ^ k := by
  rw [sub64_eq (Nat.pos_of_ne_zero hzero) hlt] at hpow
  obtain ⟨k, rfl⟩ := (Nat.and_sub_one_eq_zero_iff_isPowerOfTwo hzero).mp hpow
  have hmod : 2 ^ k % 2 ^ 3 = 0 := (Nat.and_two_pow_sub_one_eq_mod (2 ^ k) 3).symm.trans hlow
  have hk : 4 ≤ k := by
    by_contra hle
    obtain rfl | rfl | rfl | rfl : k = 0 ∨ k = 1 ∨ k = 2 ∨ k = 3 := by omega
    all_goals simp at hmod h8
  exact ⟨k, hk, (Nat.pow_lt_pow_iff_right (by simp)).mp hlt, rfl⟩

/-- The new page has one more block, `b`. -/
structure Page.Grants (pg pg' : Page) (b : Blk) (bs : List Blk) (next : Nat → Nat) : Prop where
  laid : ∃ bs' next', pg'.Laid bs' next' ∧ (lives bs').Perm (b :: lives bs) ∧ ∀ c ∈ lives bs, next' c.addr = next c.addr
  same : pg.Same pg'

theorem Page.Laid.lives_nodup (h : pg.Laid bs next) : ((lives bs).map Blk.addr).Nodup := by
  obtain ⟨order, hlayout⟩ := h.layout
  have hsub : ((lives bs).map Blk.addr).Sublist (heads bs pg.end_) :=
    (List.filter_sublist.map _).trans (List.sublist_append_left ..)
  exact hsub.nodup hlayout.tiled.nodup

/-- A new block is none of the old ones. -/
theorem Page.Laid.fresh_ne {bs' : List Blk} {next' : Nat → Nat} {pg' : Page} (h : pg'.Laid bs' next')
    (hperm : (lives bs').Perm (b :: lives bs)) : ∀ c ∈ lives bs, c.addr ≠ b.addr := by
  intro x hx heq
  have hnodup := (hperm.map Blk.addr).nodup_iff.mp h.lives_nodup
  rw [List.map_cons, List.nodup_cons] at hnodup
  exact hnodup.1 (heq ▸ List.mem_map_of_mem hx)

theorem Page.Laid.malloc_grants (h : pg.Laid bs next) (hn : Rounds n) (hreserves : Reserves n) :
    pg.malloc n = (pg, none) ∨ ∃ a, (pg.malloc n).2 = some (a + workPointerSize) ∧
      pg.Grants (pg.malloc n).1 ⟨a, req2align n, .live⟩ bs next := by
  obtain hnone | ⟨a, bs', next', ha, hlaid, hnext, hlives, hsame, -⟩ := h.malloc hn hreserves
  · exact .inl hnone
  · refine .inr ⟨a, ha, ⟨bs', next', hlaid, hlives, fun c hc => hnext _ (hlaid.fresh_ne hlives c hc)⟩, hsame⟩

/-- What lets `aligned_alloc` keep the page: no overflow of the sizes, and not a small block whose address is as far
from the next multiple as it can be. -/
def Page.AlignFits (pg : Page) (alignment size : Nat) : Prop :=
  if alignment = 8 then Rounds size ∧ Reserves size
  else if size = 0 ∨ alignment = 0 ∨ alignment &&& (8 - 1) ≠ 0 ∨ alignment &&& sub64 alignment 1 ≠ 0 then True
  else Rounds (size + alignment + freePointerSize) ∧ Reserves (size + alignment + freePointerSize) ∧
    ∀ address ∈ (pg.malloc (size + alignment + freePointerSize)).2,
      8 < size ∨ alignment ∣ address ∨ ¬ alignment ∣ address + freePointerSize

instance (pg : Page) (alignment size : Nat) : Decidable (pg.AlignFits alignment size) := by
  delta Page.AlignFits
  infer_instance

theorem Tiled.addr_dvd (h : Tiled a bs z) (ha : 8 ∣ a) (hb : b ∈ bs) : 8 ∣ b.addr := by
  induction bs generalizing a with
  | nil => exact absurd hb List.not_mem_nil
  | cons c bs ih =>
    obtain ⟨rfl, -, hdvd, hrest⟩ := h
    obtain rfl | hb := List.mem_cons.mp hb
    · exact ha
    · exact ih hrest (ha.add hdvd) hb

theorem workPointerSize_dvd : 8 ∣ workPointerSize ∧ freePointerSize = workPointerSize + 16 ∧ workPointerSize ≤ 144 := by
  by_cases htraced : Build.traced = true <;> simp [workPointerSize, freePointerSize, backtraceSize, htraced]

/-- The distance to the aligned address, and what is left behind it. -/
theorem tail_fits {address size : Nat} (hk : 4 ≤ k) (haddr : 8 ∣ address) (hsize : 0 < size)
    (hfits : 8 < size ∨ ¬ 2 ^ k ∣ address + freePointerSize)
    (hd : address + d = (address + 2 ^ k + freePointerSize) / 2 ^ k * 2 ^ k) :
    freePointerSize ≤ d ∧ 8 ∣ d ∧
      d + freePointerSize ≤ (size + 2 ^ k + freePointerSize + workPointerSize + 7) / 8 * 8 ∧
      size + workPointerSize + d ≤ (size + 2 ^ k + freePointerSize + workPointerSize + 7) / 8 * 8 := by
  obtain ⟨hwork, hF, -⟩ := workPointerSize_dvd
  have hpow : 2 ^ k = 16 * 2 ^ (k - 4) := by
    rw [show (16 : Nat) = 2 ^ 4 from rfl, ← pow_add, Nat.add_sub_cancel' hk]
  have hpos : 0 < 2 ^ k := Nat.two_pow_pos k
  have hmod := Nat.div_add_mod' (address + 2 ^ k + freePointerSize) (2 ^ k)
  have hlt := Nat.mod_lt (address + 2 ^ k + freePointerSize) hpos
  have hrem : (address + 2 ^ k + freePointerSize) % 2 ^ k = (address + freePointerSize) % 2 ^ k := by
    rw [show address + 2 ^ k + freePointerSize = address + freePointerSize + 2 ^ k by omega, Nat.add_mod_right]
  have hzero : 2 ^ k ∣ address + freePointerSize ↔ (address + freePointerSize) % 2 ^ k = 0 := Nat.dvd_iff_mod_eq_zero
  rw [hzero] at hfits
  have hrem8 : (address + freePointerSize) % 2 ^ k % 8 = 0 := by
    rw [Nat.mod_mod_of_dvd _ ⟨2 * 2 ^ (k - 4), by omega⟩]
    omega
  rw [← hd, hrem] at hmod
  rw [hrem] at hlt
  generalize (address + freePointerSize) % 2 ^ k = ρ at *
  generalize 2 ^ k = A at *
  omega

/-- A block that was granted starts at a multiple of 8. -/
theorem Page.Grants.addr_dvd {pg' : Page} (h : pg.Grants pg' b bs next) (hhead : 8 ∣ pg.head) : 8 ∣ b.addr := by
  obtain ⟨⟨bs', next', hlaid, hlives, -⟩, hbound, -⟩ := h
  obtain ⟨order, hlayout⟩ := hlaid.layout
  have hb : b ∈ bs' := List.mem_of_mem_filter (hlives.mem_iff.mpr List.mem_cons_self)
  refine hlayout.tiled.addr_dvd ?_ hb
  rw [hbound]
  exact hhead

/-- A block that was granted is in the address space. -/
theorem Page.Grants.stop_lt {pg' : Page} (h : pg.Grants pg' b bs next) : b.stop < 2 ^ 64 := by
  have hpos := free_size_pos
  obtain ⟨⟨bs', next', hlaid, hlives, -⟩, -⟩ := h
  obtain ⟨order, hlayout⟩ := hlaid.layout
  have hb : b ∈ bs' := List.mem_of_mem_filter (hlives.mem_iff.mpr List.mem_cons_self)
  have hto := (hlayout.tiled.bounds.2 b hb).2.1
  have hspace := hlayout.space
  omega

theorem Rounds.req2align_eq (h : Rounds n) (hle : freePointerSize ≤ n + workPointerSize) :
    req2align n = (n + workPointerSize + 7) / 8 * 8 := by
  rw [Rounds] at h
  have hwrap : wrap (n + workPointerSize) = n + workPointerSize := Nat.mod_eq_of_lt (by omega)
  have hwrap' : wrap (n + workPointerSize + 7) = n + workPointerSize + 7 := Nat.mod_eq_of_lt (by omega)
  rw [req2align, hwrap, hwrap', if_neg (Nat.not_lt.mpr hle)]

/-- The part of a granted block behind the cut is granted. -/
theorem Page.Grants.carve {pg' : Page} {a s alignment : Nat} (h : pg.Grants pg' ⟨a, s, .live⟩ bs next)
    (hd : freePointerSize ≤ d) (hdvd : 8 ∣ d) (hroom : d + freePointerSize ≤ s)
    (haligned : maskOff (wrap (a + workPointerSize + alignment + freePointerSize)) alignment = a + d + workPointerSize) :
    pg.Grants (pg'.carve (a + workPointerSize) alignment).1 ⟨a + d, s - d, .live⟩ bs next := by
  obtain ⟨⟨bs', next', hlaid, hlives, hnext⟩, hsame⟩ := h
  have hb : (⟨a, s, .live⟩ : Blk) ∈ lives bs' := hlives.mem_iff.mpr List.mem_cons_self
  obtain ⟨bs'', next'', rest, hlaid', hnext', hrest, hlives', hsame'⟩ := hlaid.carve hb hd hdvd hroom haligned
  have hperm : rest.Perm (lives bs) := (hrest.symm.trans hlives).cons_inv
  have hlives'' := hlives'.trans (hperm.cons _)
  refine ⟨⟨bs'', next'', hlaid', hlives'', fun c hc => ?_⟩, hsame.trans hsame'⟩
  rw [hnext' _ (hlaid'.fresh_ne hlives'' c hc), hnext c hc]

/-- `aligned_alloc` gives a block of the page that is aligned and as large as asked. -/
theorem Page.Laid.alignedAlloc (h : pg.Laid bs next) (hhead : 8 ∣ pg.head) {alignment size : Nat}
    (hlt : alignment < 2 ^ 64) (hfits : pg.AlignFits alignment size) :
    pg.alignedAlloc alignment size = (pg, none) ∨
      ∃ b, (pg.alignedAlloc alignment size).2 = some (b.addr + workPointerSize) ∧ b.kind = .live ∧
        size + workPointerSize ≤ b.size ∧ alignment ∣ b.addr + workPointerSize ∧
        pg.Grants (pg.alignedAlloc alignment size).1 b bs next := by
  obtain ⟨hwork, hF, -⟩ := workPointerSize_dvd
  rw [Page.AlignFits] at hfits
  rw [Page.alignedAlloc]
  split at hfits
  · next h8 =>
    simp only [if_pos h8]
    obtain hnone | ⟨a, ha, hgrants⟩ := h.malloc_grants hfits.1 hfits.2
    · exact .inl hnone
    · refine .inr ⟨_, ha, rfl, hfits.1.req2align_spec.2.2, ?_, hgrants⟩
      rw [h8]
      exact (hgrants.addr_dvd hhead).add hwork
  · next h8 =>
    simp only [if_neg h8]
    split at hfits
    · next hinvalid => exact .inl (if_pos hinvalid)
    · next hvalid =>
      simp only [if_neg hvalid]
      simp only [not_or, not_not] at hvalid
      obtain ⟨hsize, hzero, hlow, hpow⟩ := hvalid
      obtain ⟨k, hk, hk', rfl⟩ := exists_pow_of_admitted hlt h8 hzero hlow hpow
      obtain ⟨hn, hreserves, hfits⟩ := hfits
      have hpos := Nat.two_pow_pos k
      have hwrap : wrap (size + 2 ^ k + freePointerSize) = size + 2 ^ k + freePointerSize := by
        rw [Rounds] at hn
        exact Nat.mod_eq_of_lt (by omega)
      rw [hwrap]
      obtain hnone | ⟨a, ha, hgrants⟩ := h.malloc_grants hn hreserves
      · rw [hnone]
        exact .inl rfl
      · rw [ha] at hfits
        generalize pg.malloc (size + 2 ^ k + freePointerSize) = r at ha hgrants
        obtain ⟨pg', o⟩ := r
        cases ha
        have hdvd := hgrants.addr_dvd hhead
        have hstop := hgrants.stop_lt
        have hspec := hn.req2align_spec.2.2
        simp only [Blk.stop] at hdvd hstop hfits
        have hmask : maskOff (a + workPointerSize) (2 ^ k) = (a + workPointerSize) / 2 ^ k * 2 ^ k :=
          maskOff_eq hk' (by omega)
        simp only [hmask]
        by_cases haligned : (a + workPointerSize) / 2 ^ k * 2 ^ k = a + workPointerSize
        · simp only [if_pos haligned]
          refine .inr ⟨⟨a, req2align (size + 2 ^ k + freePointerSize), .live⟩, rfl, rfl, ?_, Dvd.intro_left _ haligned,
            hgrants⟩
          simp only
          omega
        · simp only [if_neg haligned]
          have hnot : ¬ 2 ^ k ∣ a + workPointerSize := fun hd => haligned (Nat.div_mul_cancel hd)
          obtain ⟨d, hd⟩ : ∃ d, a + workPointerSize + d =
              (a + workPointerSize + 2 ^ k + freePointerSize) / 2 ^ k * 2 ^ k := by
            have hmod := Nat.div_add_mod' (a + workPointerSize + 2 ^ k + freePointerSize) (2 ^ k)
            have hlt := Nat.mod_lt (a + workPointerSize + 2 ^ k + freePointerSize) (Nat.two_pow_pos k)
            exact ⟨_, Nat.add_sub_cancel' (by omega)⟩
          have hfits' : 8 < size ∨ ¬ 2 ^ k ∣ a + workPointerSize + freePointerSize := by
            have hcases := hfits _ rfl
            tauto
          obtain ⟨hle, hddvd, hroom, hhonoured⟩ :=
            tail_fits hk (hdvd.add hwork) (Nat.pos_of_ne_zero hsize) hfits' hd
          rw [← hn.req2align_eq (by omega)] at hroom hhonoured
          have hwrap' : wrap (a + workPointerSize + 2 ^ k + freePointerSize) =
              a + workPointerSize + 2 ^ k + freePointerSize := Nat.mod_eq_of_lt (by omega)
          have hcut : maskOff (wrap (a + workPointerSize + 2 ^ k + freePointerSize)) (2 ^ k) =
              a + d + workPointerSize := by
            rw [hwrap', maskOff_eq hk' (by omega), ← hd]
            omega
          have hsecond : (pg'.carve (a + workPointerSize) (2 ^ k)).2 = a + d + workPointerSize := hcut
          refine .inr ⟨⟨a + d, req2align (size + 2 ^ k + freePointerSize) - d, .live⟩,
            congrArg some hsecond, rfl, ?_, ?_,
            hgrants.carve hle hddvd hroom hcut⟩
          · simp only
            omega
          · have heq : a + d + workPointerSize = (a + workPointerSize + 2 ^ k + freePointerSize) / 2 ^ k * 2 ^ k := by omega
            simp only [heq]
            exact Nat.dvd_mul_left ..

end Wenas.Xmalloc
