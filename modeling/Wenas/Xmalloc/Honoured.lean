import Wenas.Xmalloc.Leaks

/-!
# Aligned and honoured requests

`aligned_alloc` keeps the page tidy and gives aligned addresses, and a result is as large as asked, when no size overflows.
-/
namespace Wenas.Xmalloc
open Wenas.Links Wenas.Machine

variable [Build]

/-! ### Alignment -/

/-- In every run whose frees are of held addresses and whose sizes fit, `aligned_alloc` gives a multiple of the
alignment, and every block of the page has room for a header. -/
theorem aligned_pages (h : Heap) (hbegins : h.Begins) (es : List Event)
    (hes : Along Heap.step (fun h e => h.Legal e ∧ h.Fits e ∧ e.parks = false) h es) (k size : Nat)
    (hk : k < 64) (hfits : (run Heap.step h es).page.AlignFits (2 ^ k) size) :
    (∀ a ∈ ((run Heap.step h es).page.alignedAlloc (2 ^ k) size).2, 2 ^ k ∣ a) ∧
      ∃ bs, ((run Heap.step h es).step (.alignedAlloc (2 ^ k) size)).Tidy bs ∧ ∀ b ∈ bs, freePointerSize ≤ b.size := by
  obtain ⟨bs, next, held, hs⟩ := Heap.runs_held hbegins hes
  have hlt : 2 ^ k < 2 ^ 64 := Nat.pow_lt_pow_right (by simp) hk
  constructor
  · intro a ha
    obtain hnone | ⟨b, hb, -, -, hdvd, -⟩ := hs.laid.alignedAlloc hs.aligned hlt hfits
    · rw [hnone] at ha
      exact absurd ha (by simp)
    · rw [hb, Option.mem_some_iff] at ha
      rwa [← ha]
  · obtain ⟨bs', next', held', hs'⟩ := hs.alignedAlloc hlt hfits
    exact ⟨bs', hs'.tidy, fun b hb => (hs'.tidy.tiles.bounds.2 b hb).2.2⟩

omit [Build] in
/-- A block of 100 bytes at a multiple of 64. -/
theorem aligned_pages_sample :
    letI := untraced
    (∀ a ∈ ((run Heap.step (.fresh 0 0 4096 65536 fun _ => 0) [.malloc 32]).page.alignedAlloc (2 ^ 6) 100).2, 2 ^ 6 ∣ a) ∧
      ∃ bs, ((run Heap.step (.fresh 0 0 4096 65536 fun _ => 0) [.malloc 32]).step (.alignedAlloc (2 ^ 6) 100)).Tidy bs ∧
        ∀ b ∈ bs, freePointerSize ≤ b.size :=
  @aligned_pages untraced _ (@Heap.Begins.page untraced 0 0 4096 65536 (fun _ => 0) (by decide) (by decide) (by decide)) _
    (by decide +kernel) 6 100 (by decide) (by decide +kernel)

omit [Build] in
/-- 8 bytes at a multiple of 64, in a block that starts 32 bytes behind one: 24 bytes are left for the block. -/
theorem short_block :
    letI := untraced
    Along Heap.step (fun h e => h.Legal e ∧ h.Fits e) (.fresh 0 0 4096 65536 fun _ => 0) [.malloc 32] ∧
      ¬ ∃ bs, ((run Heap.step (.fresh 0 0 4096 65536 fun _ => 0) [.malloc 32]).step (.alignedAlloc (2 ^ 6) 8)).Tidy bs := by
  refine ⟨by decide +kernel, ?_⟩
  rintro ⟨bs, htidy⟩
  exact absurd (@Heap.Tidy.spaced untraced _ _ htidy 4) (by decide +kernel)

end Wenas.Xmalloc
