import Wenas.Xline.Frame

/-!
# What a frame holds

A frame holds the bytes that were appended, in front of `wpos`, as long as `size` is what was allocated for the body.
Every call that appends is a request for space, the same append for all of them and, for most, the header.
-/
namespace Wenas.Xline

/-! ### Memory -/

section

variable {m : Mem} {a l : UInt64} {xs ys bs : List UInt8}

theorem toNat_sub_add (x a : UInt64) (n : Nat) (hn : n ≤ 2 ^ 64) :
    (x - (a + UInt64.ofNat n)).toNat =
      if n ≤ (x - a).toNat then (x - a).toNat - n else (x - a).toNat + 2 ^ 64 - n := by
  have hx := x.toNat_lt
  have ha := a.toNat_lt
  simp only [UInt64.toNat_sub, UInt64.toNat_add, UInt64.toNat_ofNat']
  split <;> omega

/-- Two writes, one behind the other. -/
theorem Mem.write_write (h : xs.length + ys.length ≤ 2 ^ 64) :
    (m.write a xs).write (a + UInt64.ofNat xs.length) ys = m.write a (xs ++ ys) := by
  funext x
  have hsub := toNat_sub_add x a xs.length (by omega)
  have hd := (x - a).toNat_lt
  simp only [Mem.write, List.length_append]
  by_cases hx : xs.length ≤ (x - a).toNat
  · rw [if_pos hx] at hsub
    by_cases hy : (x - a).toNat - xs.length < ys.length
    · rw [if_pos (hsub ▸ hy), if_pos (by omega), hsub]
      simp only [List.getD_eq_getElem?_getD, List.getElem?_append_right hx]
    · rw [if_neg (hsub ▸ hy), if_neg (by omega), if_neg (by omega)]
  · rw [if_neg hx] at hsub
    rw [if_neg (by omega), if_pos (by omega), if_pos (by omega)]
    simp only [List.getD_eq_getElem?_getD, List.getElem?_append_left (Nat.lt_of_not_le hx)]

@[simp] theorem Mem.write_nil : m.write a [] = m := by
  funext x
  simp [Mem.write]

theorem Mem.write_off {x : UInt64} (h : xs.length ≤ (x - a).toNat) : m.write a xs x = m x := if_neg (by omega)

theorem Mem.write_at {i : Nat} (hi : i < xs.length) (hlen : xs.length ≤ 2 ^ 64) :
    m.write a xs (a + UInt64.ofNat i) = xs.getD i 0 := by
  have hsub : (a + UInt64.ofNat i - a).toNat = i := by
    have ha := a.toNat_lt
    simp only [UInt64.toNat_sub, UInt64.toNat_add, UInt64.toNat_ofNat']
    omega
  simp only [Mem.write, hsub, if_pos hi]

theorem Stands.nil (m : Mem) (l : UInt64) : Stands m l [] := by simp [Stands]

theorem Stands.write (hlen : xs.length ≤ 2 ^ 64) : Stands (m.write a xs) a xs := fun _ hi => Mem.write_at hi hlen

theorem add_ofNat_add (a : UInt64) (n i : Nat) : a + UInt64.ofNat n + UInt64.ofNat i = a + UInt64.ofNat (n + i) := by
  apply UInt64.toNat_inj.mp
  simp only [UInt64.toNat_add, UInt64.toNat_ofNat']
  omega

theorem stands_append : Stands m l (xs ++ ys) ↔ Stands m l xs ∧ Stands m (l + UInt64.ofNat xs.length) ys := by
  simp only [Stands, List.length_append, List.getD_eq_getElem?_getD]
  constructor
  · intro h
    constructor
    · intro i hi
      rw [h i (by omega), List.getElem?_append_left hi]
    · intro i hi
      rw [add_ofNat_add, h (xs.length + i) (by omega), List.getElem?_append_right (by omega), Nat.add_sub_cancel_left]
  · rintro ⟨hx, hy⟩ i hi
    by_cases hlt : i < xs.length
    · rw [hx i hlt, List.getElem?_append_left hlt]
    · have hrest := hy (i - xs.length) (by omega)
      rw [add_ofNat_add, Nat.add_sub_cancel' (by omega)] at hrest
      rw [hrest, List.getElem?_append_right (by omega)]

/-- What stands before and behind a write is still there. -/
theorem Stands.off (h : Stands m l bs) (hoff : ∀ i < bs.length, xs.length ≤ (l + UInt64.ofNat i - a).toNat) :
    Stands (m.write a xs) l bs := by
  intro i hi
  rw [Mem.write_off (hoff i hi)]
  exact h i hi

theorem Stands.congr {m' : Mem} (h : Stands m l bs)
    (heq : ∀ i < bs.length, m' (l + UInt64.ofNat i) = m (l + UInt64.ofNat i)) : Stands m' l bs := by
  intro i hi
  rw [heq i hi]
  exact h i hi

/-- The bytes from `l` on, whatever they are. -/
def Mem.bytes (m : Mem) (l : UInt64) (n : Nat) : List UInt8 := (List.range n).map fun i => m (l + UInt64.ofNat i)

@[simp] theorem Mem.length_bytes (m : Mem) (l : UInt64) (n : Nat) : (m.bytes l n).length = n := by simp [Mem.bytes]

theorem Stands.bytes (m : Mem) (l : UInt64) (n : Nat) : Stands m l (m.bytes l n) := by
  intro i hi
  rw [Mem.length_bytes] at hi
  simp [Mem.bytes, List.getD_eq_getElem?_getD, hi]

theorem Stands.eq_bytes (h : Stands m l bs) : bs = m.bytes l bs.length := by
  apply List.ext_getElem
  · simp
  · intro i hi _
    simp [Mem.bytes, h i hi, List.getD_eq_getElem?_getD, hi]

end

/-! ### Keys -/

/-- The key of an entry. -/
structure Key extends CString where
  atMost : chars.length ≤ 64

/-- The key that `__xl_fill_key` stores. -/
def Text.clip (key : Text) : Key :=
  ⟨⟨key.chars.take 64, fun h => key.noNul (List.mem_of_mem_take h)⟩, List.length_take_le 64 _⟩

theorem Text.chars_clip (key : Text) (h : key.chars.length ≤ 64) : key.clip.chars = key.chars :=
  List.take_of_length_le h

theorem Text.length_clip (key : Text) : key.clip.chars.length = min 64 key.chars.length := by
  simp [Text.clip]

/-- A key in an entry: one more than its length, the key and a zero. -/
def CString.entry (key : CString) : List UInt8 := UInt8.ofNat (key.chars.length + 1) :: (key.chars ++ [0])

@[simp] theorem CString.length_entry (key : CString) : key.entry.length = key.chars.length + 2 := by
  simp [CString.entry]

theorem Text.toNat_len (s : Text) : s.len.toNat = s.chars.length := by
  have := s.short
  simp only [Text.len, UInt64.toNat_ofNat']
  omega

theorem Block.toNat_len (b : Block) : b.len.toNat = b.bytes.length := by
  have := b.short
  simp only [Block.len, UInt64.toNat_ofNat']
  omega

theorem toNat_headLen (key : Text) : (headLen key).toNat = key.chars.length + 11 := by
  have hlen := key.toNat_len
  have := key.short
  have hsize : xlineSize.toNat = 9 := rfl
  simp only [headLen, UInt64.toNat_add, hlen, hsize, UInt64.toNat_ofNat]
  omega

namespace Frame

/-! ### Appends -/

/-- The header of the frame. -/
def line (f : Frame) : List UInt8 := f.mem.bytes frameLine 9

@[simp] theorem put_mem (f : Frame) (a : UInt64) (bs : List UInt8) : (f.put a bs).mem = f.mem.write a bs := rfl

@[simp] theorem put_wpos (f : Frame) (a : UInt64) (bs : List UInt8) : (f.put a bs).wpos = f.wpos := rfl

@[simp] theorem put_room (f : Frame) (a : UInt64) (bs : List UInt8) : (f.put a bs).room = f.room := rfl

@[simp] theorem put_size (f : Frame) (a : UInt64) (bs : List UInt8) : (f.put a bs).size = f.size := rfl

@[simp] theorem put_key (f : Frame) (a : UInt64) (bs : List UInt8) : (f.put a bs).key = f.key := rfl

theorem put_put (f : Frame) (a : UInt64) (xs ys : List UInt8) (h : a.toNat + xs.length + ys.length < 2 ^ 64) :
    (f.put a xs).put (a + UInt64.ofNat xs.length) ys = f.put a (xs ++ ys) := by
  have hend : (a + UInt64.ofNat xs.length).toNat = a.toNat + xs.length := by
    simp only [UInt64.toNat_add, UInt64.toNat_ofNat']
    omega
  have hinside : (f.put a xs).put (a + UInt64.ofNat xs.length) ys =
      { f with
        mem := f.mem.write a (xs ++ ys)
        inside := (f.inside && (xs.isEmpty || decide (a.toNat + xs.length ≤ f.room))) &&
          (ys.isEmpty || decide (a.toNat + xs.length + ys.length ≤ f.room)) } := by
    simp only [put, @Mem.write_write f.mem a xs ys (by omega), hend]
  rw [hinside]
  simp only [put, Bool.and_assoc]
  congr 2
  cases xs with
  | nil => simp
  | cons x xs =>
    cases ys with
    | nil => simp
    | cons y ys =>
      simp only [List.isEmpty_cons, Bool.false_or, List.cons_append, List.length_cons, List.length_append]
      rw [Bool.eq_iff_iff]
      simp only [Bool.and_eq_true, decide_eq_true_eq]
      omega

theorem append_append (f : Frame) {xs ys : List UInt8} (h : f.wpos.toNat + xs.length + ys.length < 2 ^ 64) :
    (f.append xs).append ys = f.append (xs ++ ys) := by
  have hput := f.put_put f.wpos xs ys h
  have hmove : f.wpos + UInt64.ofNat xs.length + UInt64.ofNat ys.length =
      f.wpos + UInt64.ofNat (xs.length + ys.length) :=
    add_ofNat_add _ _ _
  simp only [append, List.length_append, ← hput, hmove]
  rfl

theorem klen_eq (key : Text) :
    (if UInt64.ofNat key.chars.length > 64 then 64 else UInt64.ofNat key.chars.length) =
      UInt64.ofNat key.clip.chars.length := by
  have hshort := key.short
  have h64 : (64 : UInt64).toNat = 64 := rfl
  rw [key.length_clip]
  apply UInt64.toNat_inj.mp
  split <;> rename_i hlt <;> simp only [UInt64.lt_iff_toNat_lt, gt_iff_lt, h64, UInt64.toNat_ofNat'] at hlt ⊢ <;> omega

theorem take_klen (key : Text) : key.chars.take key.clip.chars.length = key.clip.chars := by
  rw [key.length_clip]
  by_cases hle : key.chars.length ≤ 64
  · rw [min_eq_right hle, List.take_length, key.chars_clip hle]
  · rw [min_eq_left (by omega)]
    rfl

/-- The length byte is still there when the rest of the key is written. -/
theorem put_mem_before (f : Frame) {w : UInt64} {b : UInt8} (n : Nat) (xs : List UInt8) (hn : 0 < n)
    (h : n + xs.length ≤ 2 ^ 64) (hb : f.mem w = b) : (f.put (w + UInt64.ofNat n) xs).mem w = b := by
  have hsub := toNat_sub_add w w n (by omega)
  rw [if_neg (by simp; omega)] at hsub
  have hzero : (w - w).toNat = 0 := by simp
  rw [put_mem, Mem.write_off (by omega), hb]

theorem put_mem_first (f : Frame) (w : UInt64) (b : UInt8) : (f.put w [b]).mem w = b := by
  simp [Mem.write]

/-- `__xl_fill_key` writes one piece. -/
theorem fillKey_eq (f : Frame) (key : Text) (h : f.wpos.toNat < 2 ^ 63) :
    f.fillKey key = { f.append key.clip.entry with key := f.wpos } := by
  have hlen := key.length_clip
  have hnat : (UInt64.ofNat key.clip.chars.length).toNat = key.clip.chars.length := by
    rw [UInt64.toNat_ofNat']
    omega
  have hbyte : (UInt64.ofNat key.clip.chars.length).toUInt8 + 1 = UInt8.ofNat (key.clip.chars.length + 1) := by
    apply UInt8.toNat_inj.mp
    simp only [UInt8.toNat_add, UInt64.toNat_toUInt8, hnat, UInt8.toNat_ofNat', UInt8.toNat_one]
    omega
  simp only [fillKey, klen_eq, hnat, take_klen, hbyte]
  unfold append CString.entry
  generalize key.clip.chars = k at *
  have hword : (UInt8.ofNat (k.length + 1)).toUInt64 = UInt64.ofNat (k.length + 1) := by
    apply UInt64.toNat_inj.mp
    simp only [UInt8.toNat_toUInt64, UInt8.toNat_ofNat', UInt64.toNat_ofNat']
    omega
  have hmove : UInt64.ofNat (k.length + 1) + 1 = UInt64.ofNat (k.length + 2) := by
    apply UInt64.toNat_inj.mp
    simp only [UInt64.toNat_add, UInt64.toNat_ofNat', UInt64.toNat_one]
    omega
  generalize hg : ({ f with key := f.wpos } : Frame) = g
  have hkey : g.key = f.wpos := by rw [← hg]
  have hfirst := g.put_mem_first f.wpos (UInt8.ofNat (k.length + 1))
  have hsecond := (g.put f.wpos [UInt8.ofNat (k.length + 1)]).put_mem_before 1 k (by omega) (by omega) hfirst
  have hthird := ((g.put f.wpos [UInt8.ofNat (k.length + 1)]).put (f.wpos + UInt64.ofNat 1) k).put_mem_before
    (k.length + 1) [0] (by omega) (by simp; omega) hsecond
  have hpieces : ((g.put f.wpos [UInt8.ofNat (k.length + 1)]).put (f.wpos + UInt64.ofNat 1) k).put
      (f.wpos + UInt64.ofNat (k.length + 1)) [0] = g.put f.wpos (UInt8.ofNat (k.length + 1) :: (k ++ [0])) := by
    have htwo := g.put_put f.wpos [UInt8.ofNat (k.length + 1)] k (by simp; omega)
    have hthree := g.put_put f.wpos (UInt8.ofNat (k.length + 1) :: k) [0] (by simp; omega)
    rw [List.length_singleton, List.singleton_append] at htwo
    rwa [htwo]
  rw [hpieces] at hthird
  rw [show (1 : UInt64) = UInt64.ofNat 1 from rfl] at *
  simp only [put_key, hkey, hsecond, hword, hthird, hmove, hpieces, List.length_cons, List.length_append,
    List.length_nil, Nat.zero_add]
  rw [← hg]
  rfl

/-! ### The contents -/

/-- The bytes `bs` stand in front of `wpos`, and `size` bytes are allocated for the body. -/
structure Holds (f : Frame) (bs : List UInt8) : Prop where
  wpos : f.wpos = UInt64.ofNat bs.length
  stands : Stands f.mem 0 bs
  fits : bs.length ≤ f.room
  size : f.size.toNat = f.room
  short : f.room < 2 ^ 60
  inside : f.inside = true

namespace Holds

variable {le : Bool} {malloc : Malloc} {f f' : Frame} {bs xs ys : List UInt8}

theorem toNat_wpos (h : f.Holds bs) : f.wpos.toNat = bs.length := by
  have hfits := h.fits
  have hshort := h.short
  rw [h.wpos, UInt64.toNat_ofNat']
  omega

theorem withKey (h : f.Holds bs) (k : UInt64) : Holds { f with key := k } bs := ⟨h.1, h.2, h.3, h.4, h.5, h.6⟩

theorem toNat_frameLine (i : Nat) (hi : i < 9) : (frameLine + UInt64.ofNat i).toNat = 2 ^ 64 - 9 + i := by
  have hline : frameLine.toNat = 2 ^ 64 - 9 := rfl
  simp only [UInt64.toNat_add, hline, UInt64.toNat_ofNat']
  omega

/-- A write to the body leaves the header of the frame. -/
theorem line_write {m : Mem} {a : UInt64} (h : a.toNat + xs.length < 2 ^ 63) :
    (m.write a xs).bytes frameLine 9 = m.bytes frameLine 9 := by
  apply List.map_congr_left
  intro i hi
  have hpos := toNat_frameLine i (List.mem_range.mp hi)
  apply Mem.write_off
  rw [UInt64.toNat_sub, hpos]
  have := List.mem_range.mp hi
  omega

theorem append (h : f.Holds bs) (hroom : bs.length + xs.length ≤ f.room) : (f.append xs).Holds (bs ++ xs) := by
  have hwpos := h.toNat_wpos
  have hfits := h.fits
  have hshort := h.short
  constructor
  · simp only [Frame.append, h.wpos, List.length_append]
    apply UInt64.toNat_inj.mp
    simp only [UInt64.toNat_add, UInt64.toNat_ofNat']
    omega
  · rw [stands_append]
    constructor
    · apply h.stands.off
      intro i hi
      rw [UInt64.toNat_sub, hwpos, UInt64.zero_add, UInt64.toNat_ofNat']
      omega
    · rw [UInt64.zero_add, ← h.wpos]
      exact Stands.write (by omega)
  · rwa [List.length_append]
  · exact h.size
  · exact hshort
  · simp only [Frame.append, put, h.inside, hwpos, Bool.true_and, Bool.or_eq_true, decide_eq_true_eq]
    exact Or.inr hroom

theorem line_append (h : f.Holds bs) (hroom : bs.length + xs.length ≤ f.room) : (f.append xs).line = f.line := by
  have hwpos := h.toNat_wpos
  have hshort := h.short
  exact line_write (by omega)

/-- `wpos` is moved over what is there. -/
theorem skip (h : f.Holds bs) {n : Nat} (hroom : bs.length + n ≤ f.room) :
    Holds { f with wpos := f.wpos + UInt64.ofNat n } (bs ++ f.mem.bytes f.wpos n) := by
  have hshort := h.short
  constructor
  · simp only [h.wpos, List.length_append, Mem.length_bytes]
    apply UInt64.toNat_inj.mp
    simp only [UInt64.toNat_add, UInt64.toNat_ofNat']
    omega
  · rw [stands_append]
    refine ⟨h.stands, ?_⟩
    rw [UInt64.zero_add, ← h.wpos]
    exact Stands.bytes _ _ _
  · rwa [List.length_append, Mem.length_bytes]
  · exact h.size
  · exact hshort
  · exact h.inside

/-- A header is written over the place that was left for it. -/
theorem put {zs : List UInt8} (h : f.Holds (xs ++ (ys ++ zs))) {new : List UInt8} (hlen : new.length = ys.length) :
    (f.put (UInt64.ofNat xs.length) new).Holds (xs ++ (new ++ zs)) := by
  have hfits := h.fits
  have hshort := h.short
  simp only [List.length_append] at hfits
  have hpos : (UInt64.ofNat xs.length).toNat = xs.length := by
    rw [UInt64.toNat_ofNat']
    omega
  obtain ⟨hxs, hrest⟩ := stands_append.mp h.stands
  obtain ⟨-, hzs⟩ := stands_append.mp hrest
  rw [UInt64.zero_add] at hzs
  constructor
  · rw [put_wpos, h.wpos]
    simp [hlen]
  · rw [stands_append, stands_append, UInt64.zero_add, hlen]
    refine ⟨?_, Stands.write (by omega), ?_⟩
    · apply hxs.off
      intro i hi
      rw [UInt64.toNat_sub, hpos, UInt64.zero_add, UInt64.toNat_ofNat']
      omega
    · apply hzs.off
      intro i hi
      simp only [UInt64.toNat_sub, UInt64.toNat_add, UInt64.toNat_ofNat']
      omega
  · simp only [List.length_append, put_room]
    omega
  · exact h.size
  · exact hshort
  · simp only [Frame.put, h.inside, hpos, Bool.true_and, Bool.or_eq_true, decide_eq_true_eq]
    omega

theorem line_put (h : f.Holds (xs ++ (ys ++ zs))) {new : List UInt8} (hlen : new.length = ys.length) :
    (f.put (UInt64.ofNat xs.length) new).line = f.line := by
  have hfits := h.fits
  have hshort := h.short
  simp only [List.length_append] at hfits
  apply line_write
  rw [UInt64.toNat_ofNat']
  omega

theorem setLine (h : f.Holds bs) (type : UInt8) : (f.setLine le type).Holds bs := by
  have hfits := h.fits
  have hshort := h.short
  refine ⟨h.wpos, ?_, h.fits, h.size, h.short, h.inside⟩
  apply h.stands.off
  intro i hi
  have hline : frameLine.toNat = 2 ^ 64 - 9 := rfl
  rw [length_n2b, UInt64.toNat_sub, hline, UInt64.zero_add, UInt64.toNat_ofNat']
  omega

/-- A larger block for the same contents. -/
theorem realloc (h : f.Holds bs) {newlen : UInt64} (hnew : newlen.toNat < 2 ^ 62)
    (hres : f.realloc malloc newlen = (true, f')) :
    f'.Holds bs ∧ f'.room = f.room * 2 + newlen.toNat ∧ f'.line = f.line := by
  have hwpos := h.toNat_wpos
  have hfits := h.fits
  have hshort := h.short
  have hframe : sizeofFrame.toNat = 176 := rfl
  have hnewsize : (f.size * 2 + newlen).toNat = f.room * 2 + newlen.toNat := by
    have htwo : (2 : UInt64).toNat = 2 := rfl
    simp only [UInt64.toNat_add, UInt64.toNat_mul, htwo, h.size]
    omega
  have hwhole : (sizeofFrame + (f.size * 2 + newlen)).toNat = 176 + (f.room * 2 + newlen.toNat) := by
    rw [UInt64.toNat_add, hframe, hnewsize]
    omega
  have hroom : roomOf (sizeofFrame + (f.size * 2 + newlen)) = f.room * 2 + newlen.toNat := by
    rw [roomOf, hwhole, hframe]
    omega
  simp only [Frame.realloc] at hres
  split at hres
  · simp at hres
  · rename_i m hm
    have hlimit := malloc.limit _ _ hm
    rw [hwhole] at hlimit
    simp only [hroom, h.inside, hwpos, Prod.mk.injEq, true_and] at hres
    subst hres
    refine ⟨⟨h.wpos, ?_, ?_, hnewsize, ?_, ?_⟩, rfl, ?_⟩
    · apply h.stands.congr
      intro i hi
      apply if_pos
      left
      rw [UInt64.lt_iff_toNat_lt, hwpos, UInt64.zero_add, UInt64.toNat_ofNat']
      omega
    · simp only
      omega
    · simp only
      omega
    · simp only [Bool.true_and, decide_eq_true_eq]
      omega
    · unfold line Mem.bytes
      apply List.map_congr_left
      intro i hi
      apply if_pos
      right
      have hline : frameLine.toNat = 2 ^ 64 - 9 := rfl
      rw [UInt64.le_iff_toNat_le, toNat_frameLine i (List.mem_range.mp hi), hline]
      omega

/-- Space for `newlen` bytes, and nothing else is changed. -/
theorem reserve (h : f.Holds bs) {newlen : UInt64} (hnew : newlen.toNat < 2 ^ 62)
    (hres : f.reserve malloc newlen = (true, f')) :
    f'.Holds bs ∧ bs.length + newlen.toNat ≤ f'.room ∧ f'.line = f.line := by
  have hfits := h.fits
  unfold Frame.reserve at hres
  split at hres
  · obtain ⟨hholds, hroom, hline⟩ := h.realloc hnew hres
    exact ⟨hholds, by omega, hline⟩
  · rename_i hlt
    have hspace : (f.size - f.wpos).toNat = f.room - bs.length := by
      have hsize := h.size
      have hwpos := h.toNat_wpos
      have hshort := h.short
      rw [UInt64.toNat_sub, hwpos]
      omega
    simp only [Prod.mk.injEq, true_and] at hres
    subst hres
    rw [UInt64.lt_iff_toNat_lt, hspace] at hlt
    exact ⟨h, by omega, rfl⟩

end Holds

theorem line_setLine (le : Bool) (type : UInt8) (f : Frame) : (f.setLine le type).line = n2b le f.wpos type := by
  have hstands : Stands (f.mem.write frameLine (n2b le f.wpos type)) frameLine (n2b le f.wpos type) :=
    Stands.write (by simp)
  have hbytes := hstands.eq_bytes
  rw [length_n2b] at hbytes
  exact hbytes.symm

/-! ### The calls -/

/-- The bytes of a key, where there is one. -/
def keyBytes : Option Text → List UInt8
  | some key => key.clip.entry
  | none => []

variable {le : Bool} {malloc : Malloc} {f f' : Frame} {bs : List UInt8} {p : UInt64}

theorem xlCreator_holds {size : UInt64} (hsize : size.toNat + 176 < 2 ^ 64) (h : xlCreator malloc size = some f) :
    f.Holds [] := by
  unfold xlCreator at h
  cases hm : malloc.give (sizeofFrame + size) with
  | none => simp [hm] at h
  | some m =>
    have hlimit := malloc.limit _ _ hm
    have hframe : sizeofFrame.toNat = 176 := rfl
    have hroom : roomOf (sizeofFrame + size) = size.toNat := by
      rw [roomOf, UInt64.toNat_add, hframe]
      omega
    rw [UInt64.toNat_add, hframe] at hlimit
    simp only [hm, Option.bind_eq_bind, Option.bind_some, Option.pure_def, Option.some.injEq] at h
    subst h
    refine ⟨rfl, Stands.nil _ _, Nat.zero_le _, hroom.symm, ?_, rfl⟩
    simp only [hroom]
    omega

namespace Holds

theorem fillKey (h : f.Holds bs) (key : Text) (hroom : bs.length + key.clip.entry.length ≤ f.room) :
    (f.fillKey key).Holds (bs ++ key.clip.entry) ∧ (f.fillKey key).line = f.line := by
  have hwpos := h.toNat_wpos
  have hfits := h.fits
  have hshort := h.short
  rw [f.fillKey_eq key (by omega)]
  exact ⟨(h.append hroom).withKey _, h.line_append hroom⟩

theorem length_clip_entry (key : Text) : key.clip.entry.length + 9 ≤ (headLen key).toNat := by
  rw [CString.length_entry, key.length_clip, toNat_headLen]
  omega

/-- A call that adds an entry with the line `item`. -/
theorem add (h : f.Holds bs) {key : Text} {newlen : UInt64} {item : List UInt8} {line : Frame → Frame}
    (hnew : newlen.toNat < 2 ^ 62) (hitem : key.clip.entry.length + item.length ≤ newlen.toNat)
    (hline : ∀ g : Frame, g.wpos.toNat + item.length < 2 ^ 62 → line g = g.append item)
    (hrun : f.add le malloc key newlen line = (some p, f')) :
    f'.Holds (bs ++ (key.clip.entry ++ item)) ∧ f'.line = n2b le f'.wpos xlineTypeObj := by
  unfold Frame.add at hrun
  cases hres : f.reserve malloc newlen with
  | mk got g =>
  cases got with
  | false => simp [hres] at hrun
  | true =>
    obtain ⟨hg, hroom, -⟩ := h.reserve hnew hres
    have hshort := hg.short
    obtain ⟨hkey, -⟩ := hg.fillKey key (by omega)
    have hwpos := hkey.toNat_wpos
    have hsame : (g.fillKey key).room = g.room := by
      rw [g.fillKey_eq key (by have := hg.toNat_wpos; omega)]
      rfl
    rw [List.length_append] at hwpos
    have hspace : (bs ++ key.clip.entry).length + item.length ≤ (g.fillKey key).room := by
      rw [List.length_append, hsame]
      omega
    have hlast := hkey.append hspace
    rw [← hline _ (by omega), List.append_assoc] at hlast
    simp only [hres, Prod.mk.injEq] at hrun
    obtain ⟨-, rfl⟩ := hrun
    exact ⟨hlast.setLine _, line_setLine _ _ _⟩

theorem listAppend (h : f.Holds bs) {xl : Source} (hxl : (xl.size le).toNat < 2 ^ 62)
    (hrun : xlListAppend le malloc f xl = (some p, f')) :
    f'.Holds (bs ++ xl.bytes le) ∧ f'.line = f.line := by
  unfold xlListAppend at hrun
  cases hres : f.reserve malloc (xl.size le) with
  | mk got g =>
  cases got with
  | false => simp [hres] at hrun
  | true =>
    obtain ⟨hg, hroom, hsame⟩ := h.reserve hxl hres
    have hlen : (xl.bytes le).length = (xl.size le).toNat := by simp [Source.bytes]
    simp only [hres, Prod.mk.injEq] at hrun
    obtain ⟨-, rfl⟩ := hrun
    exact ⟨hg.append (by omega), (hg.line_append (by omega)).trans hsame⟩

theorem listAdd (h : f.Holds bs) {xl : Source} (hxl : (xl.size le).toNat < 2 ^ 62)
    (hrun : xlListAdd le malloc f xl = (some p, f')) : f'.Holds (bs ++ xl.bytes le) := by
  unfold xlListAdd at hrun
  cases hres : f.reserve malloc (xl.size le) with
  | mk got g =>
  cases got with
  | false => simp [hres] at hrun
  | true =>
    obtain ⟨hg, hroom, -⟩ := h.reserve hxl hres
    have hlen : (xl.bytes le).length = (xl.size le).toNat := by simp [Source.bytes]
    simp only [hres, Prod.mk.injEq] at hrun
    obtain ⟨-, rfl⟩ := hrun
    exact (hg.append (by omega)).setLine _

/-- The place for the header of an object or a list is left open. -/
theorem objBegin (h : f.Holds bs) {key : Option Text} (hrun : xlObjBegin malloc f key = (some p, f')) :
    ∃ gap, gap.length = 9 ∧ f'.Holds ((bs ++ keyBytes key) ++ gap) ∧
      p = UInt64.ofNat (bs ++ keyBytes key).length ∧ f'.line = f.line := by
  have hnew : (beginLen key).toNat < 2 ^ 62 ∧ (keyBytes key).length + 9 ≤ (beginLen key).toNat := by
    cases key with
    | none => exact ⟨by decide, by decide⟩
    | some key =>
      have hshort := key.short
      have hlen := length_clip_entry key
      refine ⟨?_, hlen⟩
      simp only [beginLen, toNat_headLen]
      omega
  unfold xlObjBegin at hrun
  cases hres : f.reserve malloc (beginLen key) with
  | mk got g =>
  cases got with
  | false => simp [hres] at hrun
  | true =>
    obtain ⟨hg, hroom, hsame⟩ := h.reserve hnew.1 hres
    have hkeyed : ∀ k : Frame, k.Holds (bs ++ keyBytes key) → k.room = g.room → k.line = g.line →
        (some (k.wpos + xlineSize - xlineSize), { k with wpos := k.wpos + xlineSize }) = (some p, f') →
        ∃ gap, gap.length = 9 ∧ f'.Holds ((bs ++ keyBytes key) ++ gap) ∧
          p = UInt64.ofNat (bs ++ keyBytes key).length ∧ f'.line = f.line := by
      intro k hk hkroom hkline hout
      simp only [Prod.mk.injEq, Option.some.injEq] at hout
      obtain ⟨rfl, rfl⟩ := hout
      refine ⟨k.mem.bytes k.wpos 9, by simp, ?_, by simp [hk.wpos], hkline.trans hsame⟩
      have hspace : (bs ++ keyBytes key).length + 9 ≤ k.room := by
        rw [List.length_append, hkroom]
        omega
      exact hk.skip hspace
    simp only [hres] at hrun
    cases key with
    | none => exact hkeyed g (by simpa [keyBytes] using hg) rfl rfl hrun
    | some key =>
      obtain ⟨hkey, hline⟩ := hg.fillKey key (by simp only [keyBytes] at hnew; omega)
      have hroom' : (g.fillKey key).room = g.room := by
        rw [g.fillKey_eq key (by have := hg.toNat_wpos; have := hg.short; have := hg.fits; omega)]
        rfl
      exact hkeyed _ hkey hroom' hline hrun

/-- The header of an object or a list is written in front of what was appended since. -/
theorem close (le : Bool) {xs gap zs : List UInt8} (h : f.Holds ((xs ++ gap) ++ zs)) (hgap : gap.length = 9)
    (type : UInt8) :
    (f.put (UInt64.ofNat xs.length) (n2b le (f.wpos - UInt64.ofNat xs.length - xlineSize) type)).Holds
        (xs ++ (n2b le (UInt64.ofNat zs.length) type ++ zs)) ∧
      (f.put (UInt64.ofNat xs.length) (n2b le (f.wpos - UInt64.ofNat xs.length - xlineSize) type)).line = f.line := by
  have hfits := h.fits
  have hshort := h.short
  rw [List.append_assoc] at h
  have hlen : f.wpos - UInt64.ofNat xs.length - xlineSize = UInt64.ofNat zs.length := by
    have hnine : xlineSize.toNat = 9 := rfl
    rw [h.wpos]
    apply UInt64.toNat_inj.mp
    simp only [List.length_append, hgap] at hfits ⊢
    simp only [UInt64.toNat_sub, UInt64.toNat_ofNat', hnine]
    omega
  rw [hlen]
  exact ⟨h.put (by simp [hgap]), h.line_put (by simp [hgap])⟩

end Holds

end Frame

namespace Append

variable {le : Bool} {malloc : Malloc} {f f' : Frame} {bs : List UInt8} {p : UInt64}

/-- The bytes that a call appends. -/
def bytes (le : Bool) : Append → List UInt8
  | .objBegin key => Frame.keyBytes key
  | .word key w => key.clip.entry ++ (n2b le (w.len + 1) xlineTypeStr ++ (w.chars ++ [0]))
  | .str key s => key.clip.entry ++ (n2b le s.len xlineTypeStr ++ s.bytes)
  | .bin key b => key.clip.entry ++ (n2b le b.len xlineTypeBin ++ b.bytes)
  | .obj key xd => key.clip.entry ++ xd.bytes le
  | .int key i64 => key.clip.entry ++ n2b le i64 xlineTypeInt
  | .uint key u64 => key.clip.entry ++ n2b le u64 xlineTypeUint
  | .float key f64 => key.clip.entry ++ n2b le f64 xlineTypeReal
  | .ptr key p => key.clip.entry ++ n2b le p xlineTypeUint
  | .listAppend xl => xl.bytes le
  | .listAdd xl => xl.bytes le

/-- The bytes that a call leaves open behind them. -/
def gap : Append → Nat
  | .objBegin _ => 9
  | _ => 0

/-- The header of the frame after a call. -/
def header (le : Bool) (wpos : UInt64) (line : List UInt8) : Append → List UInt8
  | .objBegin _ => line
  | .listAppend _ => line
  | .listAdd _ => n2b le wpos xlineTypeList
  | _ => n2b le wpos xlineTypeObj

/-- A line that is copied lies in memory. -/
def Apt (le : Bool) : Append → Prop
  | .obj _ xd => (xd.size le).toNat < 2 ^ 60
  | .listAppend xl => (xl.size le).toNat < 2 ^ 60
  | .listAdd xl => (xl.size le).toNat < 2 ^ 60
  | _ => True

theorem toNat_len_add_one (w : Text) : (w.len + 1).toNat = w.chars.length + 1 := by
  have hlen := w.toNat_len
  have hshort := w.short
  rw [UInt64.toNat_add, hlen, UInt64.toNat_one]
  omega

theorem newlen_lt {c : Append} (h : c.Apt le) : (c.newlen le).toNat < 2 ^ 62 := by
  have hhead : ∀ (key : Text) (n : UInt64), n.toNat < 2 ^ 61 → (headLen key + n).toNat < 2 ^ 62 := by
    intro key n hn
    have hlen := toNat_headLen key
    have hshort := key.short
    rw [UInt64.toNat_add, hlen]
    omega
  have hzero : ∀ key : Text, (headLen key).toNat < 2 ^ 62 := fun key => by
    simpa using hhead key 0 (by decide)
  cases c with
  | objBegin key =>
    cases key with
    | none => exact (by decide : xlineSize.toNat < 2 ^ 62)
    | some key => exact hzero key
  | word key w =>
    have hlen := toNat_len_add_one w
    have hshort := w.short
    exact hhead key _ (by omega)
  | str key s =>
    have hlen := s.toNat_len
    have hshort := s.short
    exact hhead key _ (by omega)
  | bin key b =>
    have hlen := b.toNat_len
    have hshort := b.short
    exact hhead key _ (by omega)
  | obj key xd =>
    have hxd : (xd.size le).toNat < 2 ^ 60 := h
    exact hhead key _ (by omega)
  | int key _ => exact hzero key
  | uint key _ => exact hzero key
  | float key _ => exact hzero key
  | ptr key _ => exact hzero key
  | listAppend xl =>
    have hxl : (xl.size le).toNat < 2 ^ 60 := h
    simp only [newlen]
    omega
  | listAdd xl =>
    have hxl : (xl.size le).toNat < 2 ^ 60 := h
    simp only [newlen]
    omega

/-- The space that a call asks for is enough for what it appends. -/
theorem toNat_headLen_add (key : Text) {n : UInt64} {k : Nat} (hn : n.toNat = k) (hk : k < 2 ^ 61) :
    key.clip.entry.length + (9 + k) ≤ (headLen key + n).toNat := by
  have hlen := toNat_headLen key
  have hclip := Frame.Holds.length_clip_entry key
  have hshort := key.short
  rw [UInt64.toNat_add, hlen, hn]
  omega

/-- What a call that succeeds does to the contents. -/
theorem holds (h : f.Holds bs) {c : Append} (hc : c.Apt le) (hrun : c.run le malloc f = (some p, f')) :
    ∃ open' : List UInt8, open'.length = c.gap ∧ f'.Holds (bs ++ c.bytes le ++ open') ∧
      f'.line = c.header le f'.wpos f.line := by
  have hnew := newlen_lt hc
  have hnone : ∀ {item : List UInt8} {l : List UInt8}, f'.Holds (bs ++ item) ∧ f'.line = l →
      ∃ open' : List UInt8, open'.length = 0 ∧ f'.Holds (bs ++ item ++ open') ∧ f'.line = l := by
    intro item l hitem
    exact ⟨[], rfl, by simpa using hitem.1, hitem.2⟩
  have hnum : ∀ {key : Text} {n : UInt64} {type : UInt8}, xlAddNumber le malloc f key type n = (some p, f') →
      ∃ open' : List UInt8, open'.length = 0 ∧ f'.Holds (bs ++ (key.clip.entry ++ n2b le n type) ++ open') ∧
        f'.line = n2b le f'.wpos xlineTypeObj := by
    intro key n type hadd
    have hlen := toNat_headLen key
    have hshort := key.short
    apply hnone
    apply h.add (by omega) _ (fun g _ => rfl) hadd
    rw [length_n2b]
    exact Frame.Holds.length_clip_entry key
  have htwo : ∀ {key : Text} {n : UInt64} {xs ys : List UInt8} {line : Frame → Frame},
      (headLen key + n).toNat < 2 ^ 62 →
      n.toNat = ys.length → ys.length < 2 ^ 61 → xs.length = 9 → (∀ g : Frame, line g = (g.append xs).append ys) →
      f.add le malloc key (headLen key + n) line = (some p, f') →
      ∃ open' : List UInt8, open'.length = 0 ∧ f'.Holds (bs ++ (key.clip.entry ++ (xs ++ ys)) ++ open') ∧
        f'.line = n2b le f'.wpos xlineTypeObj := by
    intro key n xs ys line hlt hn hys hxs hline hadd
    apply hnone
    apply h.add hlt _ _ hadd
    · rw [List.length_append, hxs]
      exact toNat_headLen_add key hn hys
    · intro g hg
      rw [List.length_append] at hg
      rw [hline, g.append_append (by omega)]
  cases c with
  | objBegin key =>
    obtain ⟨open', hlen, hholds, -, hline⟩ := h.objBegin hrun
    exact ⟨open', hlen, hholds, hline⟩
  | word key w =>
    have hlen := toNat_len_add_one w
    have hshort := w.short
    exact htwo hnew (by simpa using hlen) (by simp; omega) (by simp) (fun _ => rfl) hrun
  | str key s =>
    have hshort := s.short
    exact htwo hnew s.toNat_len (by omega) (by simp) (fun _ => rfl) hrun
  | bin key b =>
    have hshort := b.short
    exact htwo hnew b.toNat_len (by omega) (by simp) (fun _ => rfl) hrun
  | obj key xd =>
    have hxd : (xd.size le).toNat < 2 ^ 60 := hc
    have hlen : (xd.bytes le).length = (xd.size le).toNat := by simp [Source.bytes]
    have hfit := toNat_headLen_add (n := xd.size le) key rfl (by omega)
    exact hnone (h.add hnew (by simp only [newlen]; omega) (fun _ _ => rfl) hrun)
  | int key _ => exact hnum hrun
  | uint key _ => exact hnum hrun
  | float key _ => exact hnum hrun
  | ptr key _ => exact hnum hrun
  | listAppend xl => exact hnone (h.listAppend hnew hrun)
  | listAdd xl =>
    apply hnone
    refine ⟨h.listAdd hnew hrun, ?_⟩
    simp only [run, xlListAdd] at hrun
    split at hrun
    · simp at hrun
    · simp only [Prod.mk.injEq] at hrun
      obtain ⟨-, rfl⟩ := hrun
      exact Frame.line_setLine _ _ _

end Append

end Wenas.Xline
