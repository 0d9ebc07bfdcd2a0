import Wenas.Xmsger.Sides

/-!
# Messages as one stream of packs

Cutting every accepted message into packs gives one numbered stream: message `i`
owns the numbers from `start ms i` on, one for each of its packs. A frame of the
code is determined by how many of its packs have been cut and released.
-/
namespace Wenas.Xmsger

open Wenas.Serial

/-- The number of packs of a message; an empty message still takes one. -/
def packs (m : Message) : Nat := max 1 ((m.data.length + 1279) / 1280)

/-- The number of the first pack of message `i`. -/
def start (ms : List Message) (i : Nat) : Nat := ((ms.take i).map packs).sum

/-- The bytes in the first `k` packs of a message. -/
def bytes (m : Message) (k : Nat) : Nat := min (1280 * k) m.data.length

/-- The body of pack `k` of a message. -/
def frag (m : Message) (k : Nat) : List UInt8 := (m.data.drop (1280 * k)).take 1280

/-- Number `n` of the stream is pack `k` of message `i`. -/
structure At (ms : List Message) (n i : Nat) (m : Message) (k : Nat) : Prop where
  get : ms[i]? = some m
  eq : n = start ms i + k
  lt : k < packs m

/-- The frame of a message after `cut` packs were made and `rel` released. -/
def frameAt (m : Message) (cut rel : Nat) : Frame :=
  ⟨m, UInt64.ofNat (packs m - cut), UInt64.ofNat (bytes m rel), UInt64.ofNat (bytes m cut)⟩

theorem packs_pos (m : Message) : 0 < packs m := by
  unfold packs
  omega

theorem packs_spec (m : Message) {k : Nat} (hk : k < packs m) :
    1280 * k ≤ m.data.length ∧ (k + 1 = packs m ↔ m.data.length ≤ 1280 * (k + 1)) := by
  unfold packs at *
  omega

theorem packs_cover (m : Message) : m.data.length ≤ 1280 * packs m := by
  unfold packs
  omega

theorem packs_lt (m : Message) : packs m < 2 ^ 64 := by
  have := m.fits
  unfold packs
  omega

@[simp] theorem start_zero (ms : List Message) : start ms 0 = 0 := by simp [start]

theorem start_succ {ms : List Message} {i : Nat} {m : Message} (h : ms[i]? = some m) :
    start ms (i + 1) = start ms i + packs m := by
  simp [start, List.take_add_one, h]

theorem start_append {ms : List Message} (rest : List Message) {i : Nat} (h : i ≤ ms.length) :
    start (ms ++ rest) i = start ms i := by
  simp [start, List.take_append_of_le_length h]

theorem start_past {ms : List Message} {i : Nat} (h : ms.length ≤ i) : start ms i = start ms ms.length := by
  simp [start, List.take_of_length_le h]

theorem start_mono (ms : List Message) {i j : Nat} (h : i ≤ j) : start ms i ≤ start ms j := by
  induction j with
  | zero => simp_all
  | succ j ih =>
    by_cases hj : i = j + 1
    · rw [hj]
    · have := ih (by omega)
      cases hm : ms[j]? with
      | none =>
        have hl : ms.length ≤ j := List.getElem?_eq_none_iff.mp hm
        rw [start_past (show ms.length ≤ j + 1 by omega), ← start_past hl]
        exact this
      | some m =>
        rw [start_succ hm]
        omega

/-- The last pack of message `i` comes before every pack of a later message. -/
theorem At.next_le {ms : List Message} {n i k : Nat} {m : Message} (h : At ms n i m k) {j : Nat} (hj : i < j) :
    n < start ms j := by
  have h₁ := start_mono ms (show i + 1 ≤ j from hj)
  rw [start_succ h.get] at h₁
  have := h.eq
  have := h.lt
  omega

/-- A stream number belongs to one message and one pack of it. -/
theorem At.unique {ms : List Message} {n i j k l : Nat} {m m' : Message}
    (h : At ms n i m k) (h' : At ms n j m' l) : i = j ∧ m = m' ∧ k = l := by
  have hij : i = j := by
    rcases Nat.lt_trichotomy i j with hlt | he | hlt
    · have := h.next_le hlt
      have := h'.eq
      omega
    · exact he
    · have := h'.next_le hlt
      have := h.eq
      omega
  subst hij
  have hm : m = m' := by
    have := h.get.symm.trans h'.get
    simpa using this
  refine ⟨rfl, hm, ?_⟩
  have := h.eq
  have := h'.eq
  omega

theorem At.append {ms : List Message} {n i k : Nat} {m : Message} (h : At ms n i m k) (rest : List Message) :
    At (ms ++ rest) n i m k := by
  have hi : i < ms.length := (List.getElem?_eq_some_iff.mp h.get).1
  refine ⟨?_, ?_, h.lt⟩
  · rw [List.getElem?_append_left hi]
    exact h.get
  · rw [start_append rest (by omega)]
    exact h.eq

/-- A pack of message `i` changes no count of another message. -/
theorem At.other {ms : List Message} {n i k : Nat} {m : Message} (h : At ms n i m k) {i' : Nat} (hne : i' ≠ i)
    {m' : Message} (hm' : ms[i']? = some m') :
    n + 1 - start ms i' = n - start ms i' ∨
      (packs m' ≤ n - start ms i' ∧ packs m' ≤ n + 1 - start ms i') := by
  have he := h.eq
  rcases Nat.lt_or_gt_of_ne hne with hlt | hgt
  · have h₁ := start_mono ms (show i' + 1 ≤ i from hlt)
    rw [start_succ hm'] at h₁
    right
    omega
  · have := h.next_le hgt
    left
    omega

theorem At.lt_length {ms : List Message} {n i k : Nat} {m : Message} (h : At ms n i m k) : i < ms.length :=
  (List.getElem?_eq_some_iff.mp h.get).1

/-- Message `i` is the one the position `n` lies in, or `n` is the end of the stream. -/
structure Cursor (ms : List Message) (n i : Nat) : Prop where
  low : start ms i ≤ n
  le : i ≤ ms.length
  high : ∀ m, ms[i]? = some m → n < start ms i + packs m
  stop : i = ms.length → n = start ms i

theorem Cursor.at {ms : List Message} {n i : Nat} {m : Message} (h : Cursor ms n i) (hm : ms[i]? = some m) :
    At ms n i m (n - start ms i) := by
  have hl := h.low
  have hh := h.high m hm
  exact ⟨hm, by omega, by omega⟩

/-- The position after the pack under the cursor. -/
theorem Cursor.next {ms : List Message} {n i k : Nat} {m : Message} (h : At ms n i m k) :
    Cursor ms (n + 1) (if k + 1 = packs m then i + 1 else i) := by
  have hi := h.lt_length
  have hs := start_succ h.get
  have he := h.eq
  have hk := h.lt
  split
  · refine ⟨by omega, by omega, ?_, by intro _; omega⟩
    intro m' _
    have := packs_pos m'
    omega
  · refine ⟨by omega, by omega, ?_, by omega⟩
    intro m' hm'
    have : m = m' := by simpa using h.get.symm.trans hm'
    subst this
    omega

theorem Cursor.append {ms : List Message} {n i : Nat} (h : Cursor ms n i) (m : Message) :
    Cursor (ms ++ [m]) n i := by
  have hle := h.le
  have hs := start_append [m] hle
  refine ⟨by rw [hs]; exact h.low, by simp; omega, ?_, by simp; omega⟩
  intro m' hm'
  rw [hs]
  by_cases hi : i = ms.length
  · have := h.stop hi
    have := packs_pos m'
    omega
  · rw [List.getElem?_append_left (by omega)] at hm'
    exact h.high m' hm'

theorem Cursor.zero (ms : List Message) : Cursor ms 0 0 := by
  refine ⟨by simp, by omega, ?_, by simp⟩
  intro m _
  have := packs_pos m
  simp
  omega

theorem Cursor.eq_of_at {ms : List Message} {n i j k : Nat} {m : Message} (h : Cursor ms n i)
    (ha : At ms n j m k) : i = j := by
  have hl : i < ms.length := by
    by_contra hlt
    have he : i = ms.length := Nat.le_antisymm h.le (Nat.le_of_not_lt hlt)
    have h₁ := h.stop he
    have h₂ := ha.next_le (show j < i by have := ha.lt_length; omega)
    omega
  exact ((h.at (List.getElem?_eq_getElem hl)).unique ha).1

theorem Cursor.mono {ms : List Message} {n p i j : Nat} (h : Cursor ms n i) (h' : Cursor ms p j)
    (hnp : n ≤ p) : i ≤ j := by
  by_contra hlt
  have hj : j < ms.length := lt_of_lt_of_le (by omega) h.le
  have := (h'.at (List.getElem?_eq_getElem hj)).next_le (show j < i by omega)
  have := h.low
  omega

/-! ### Frames are what their counts say -/

section

variable (m : Message) (k r : Nat)

theorem bytes_le : bytes m k ≤ m.data.length := by
  unfold bytes
  omega

theorem bytes_lt : bytes m k < 2 ^ 64 := lt_of_le_of_lt (bytes_le m k) m.fits

theorem bytes_step : bytes m (k + 1) - bytes m k ≤ 1280 ∧ bytes m k ≤ bytes m (k + 1) := by
  unfold bytes
  omega

theorem bytes_eq_length_iff (hk : k < packs m) : bytes m (k + 1) = m.data.length ↔ k + 1 = packs m := by
  have := packs_spec m hk
  unfold bytes
  omega

theorem bytes_of_packs_le (hk : packs m ≤ k) : bytes m k = m.data.length := by
  have := packs_cover m
  unfold bytes
  omega

theorem frag_eq (hk : k < packs m) :
    (m.data.drop (bytes m k)).take (bytes m (k + 1) - bytes m k) = frag m k := by
  have h := packs_spec m hk
  have hb : bytes m k = 1280 * k := by unfold bytes; omega
  rw [frag, hb]
  by_cases hl : 1280 * (k + 1) ≤ m.data.length
  · have he : bytes m (k + 1) - 1280 * k = 1280 := by unfold bytes; omega
    rw [he]
  · have he : bytes m (k + 1) - 1280 * k = (m.data.drop (1280 * k)).length := by
      unfold bytes
      simp only [List.length_drop]
      omega
    rw [he, List.take_length, List.take_of_length_le]
    simp only [List.length_drop]
    omega

theorem frag_length (hk : k < packs m) : (frag m k).length = bytes m (k + 1) - bytes m k := by
  have h := packs_spec m hk
  simp only [frag, List.length_take, List.length_drop, bytes]
  omega

/-- The first `k + 1` packs hold the first `k` and one fragment more. -/
theorem take_bytes_succ (hk : k < packs m) :
    m.data.take (bytes m (k + 1)) = m.data.take (bytes m k) ++ frag m k := by
  have hs := bytes_step m k
  have he : bytes m (k + 1) = bytes m k + (bytes m (k + 1) - bytes m k) := by omega
  rw [he, List.take_add, frag_eq m k hk]

theorem wpos_frameAt : (frameAt m k r).wpos = UInt64.ofNat m.data.length := rfl

theorem packLen_frameAt (hk : k < packs m) :
    (frameAt m k r).packLen = UInt16.ofNat (bytes m (k + 1) - bytes m k) := by
  have hf := m.fits
  have hb := bytes_le m k
  have hs := packs_spec m hk
  have hl : (UInt64.ofNat m.data.length).toNat = m.data.length := by
    rw [UInt64.toNat_ofNat']
    omega
  have hd : (UInt64.ofNat m.data.length - UInt64.ofNat (bytes m k)).toNat = m.data.length - bytes m k := by
    simp only [UInt64.toNat_sub, UInt64.toNat_ofNat']
    omega
  have hx : (UInt64.ofNat xbodySize).toNat = 1280 := rfl
  change (if 0 < UInt64.ofNat m.data.length then
    if UInt64.ofNat m.data.length - UInt64.ofNat (bytes m k) < UInt64.ofNat xbodySize then
      (UInt64.ofNat m.data.length - UInt64.ofNat (bytes m k)).toUInt16
    else UInt16.ofNat xbodySize
  else 0) = _
  simp only [UInt64.lt_iff_toNat_lt, UInt64.toNat_zero, hl, hd, hx]
  have hbk : bytes m k = 1280 * k := by unfold bytes; omega
  have hbs : bytes m (k + 1) = min (1280 * (k + 1)) m.data.length := rfl
  split
  · split
    · apply UInt16.toNat_inj.mp
      simp only [UInt64.toNat_toUInt16, hd, UInt16.toNat_ofNat']
      omega
    · rw [show bytes m (k + 1) - bytes m k = xbodySize by simp only [xbodySize]; omega]
  · rw [show bytes m (k + 1) - bytes m k = 0 by omega]
    rfl

theorem packLen_toNat :
    (UInt16.ofNat (bytes m (k + 1) - bytes m k)).toNat = bytes m (k + 1) - bytes m k := by
  have := (bytes_step m k).1
  rw [UInt16.toNat_ofNat']
  omega

/-- Adding the length of pack `k` moves a byte count from `k` packs to `k + 1`. -/
theorem bytes_add :
    UInt64.ofNat (bytes m k) + (UInt16.ofNat (bytes m (k + 1) - bytes m k)).toUInt64 =
      UInt64.ofNat (bytes m (k + 1)) := by
  have hs := bytes_step m k
  have hl := bytes_lt m (k + 1)
  apply UInt64.toNat_inj.mp
  simp only [UInt64.toNat_add, UInt16.toNat_toUInt64, packLen_toNat m k, UInt64.toNat_ofNat']
  omega

theorem cut_frameAt (hk : k < packs m) : (frameAt m k r).cut = frameAt m (k + 1) r := by
  have hp := packs_lt m
  simp only [Frame.cut, packLen_frameAt m k r hk]
  simp only [frameAt, bytes_add m k, Frame.mk.injEq, and_true, true_and]
  apply UInt64.toNat_inj.mp
  simp only [UInt64.toNat_sub, UInt64.toNat_ofNat', UInt64.toNat_one]
  omega

theorem ofNat_bytes_eq_iff (hk : k < packs m) :
    UInt64.ofNat (bytes m (k + 1)) = UInt64.ofNat m.data.length ↔ k + 1 = packs m := by
  have hl := bytes_lt m (k + 1)
  have hf := m.fits
  rw [← bytes_eq_length_iff m k hk, ← UInt64.toNat_inj]
  simp only [UInt64.toNat_ofNat']
  omega

end

theorem bytes_congr {m : Message} {a b : Nat} (h : a = b ∨ (packs m ≤ a ∧ packs m ≤ b)) :
    bytes m a = bytes m b := by
  rcases h with rfl | ⟨ha, hb⟩
  · rfl
  · rw [bytes_of_packs_le m a ha, bytes_of_packs_le m b hb]

theorem frameAt_congr {m : Message} {a b c d : Nat} (h : a = b ∨ (packs m ≤ a ∧ packs m ≤ b))
    (h' : c = d ∨ (packs m ≤ c ∧ packs m ≤ d)) : frameAt m a c = frameAt m b d := by
  have hr : packs m - a = packs m - b := by omega
  rw [frameAt, frameAt, bytes_congr h, bytes_congr h', hr]

/-- `xmsg_fixed` counts the packs of the message. -/
theorem xmsgFixed_eq (m : Message) : xmsgFixed m = frameAt m 0 0 := by
  have hf := m.fits
  simp only [xmsgFixed, frameAt, Frame.mk.injEq, true_and, xbodySize]
  refine ⟨?_, by simp [bytes], by simp [bytes]⟩
  apply UInt64.toNat_inj.mp
  have hl : (UInt64.ofNat m.data.length).toNat = m.data.length := by
    rw [UInt64.toNat_ofNat']
    omega
  have hp := packs_lt m
  have hb : (UInt64.ofNat 1280).toNat = 1280 := rfl
  have hd : (UInt64.ofNat m.data.length / UInt64.ofNat 1280).toNat = m.data.length / 1280 := by
    rw [UInt64.toNat_div, hl, hb]
  have hm : (UInt64.ofNat m.data.length / UInt64.ofNat 1280 * UInt64.ofNat 1280).toNat =
      m.data.length / 1280 * 1280 := by
    rw [UInt64.toNat_mul, hd, hb]
    omega
  have hr : (UInt64.ofNat (packs m - 0)).toNat = packs m := by
    rw [UInt64.toNat_ofNat']
    omega
  rw [hr]
  simp only [UInt64.lt_iff_toNat_lt, UInt64.toNat_zero, hm, hl]
  unfold packs
  split
  · split
    · rw [UInt64.toNat_add, hd, UInt64.toNat_one]
      omega
    · rw [hd]
      omega
  · rw [UInt64.toNat_one]
    omega

end Wenas.Xmsger
