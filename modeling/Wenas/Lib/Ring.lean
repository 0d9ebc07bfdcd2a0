import Wenas.Lib.Serial

/-!
# Rings with a read, a send and a write position

The positions are sixteen-bit and wrap, the number of slots is a power of two.
`Ring.Holds` reads them as unbounded counters `r ≤ s ≤ w ≤ r + 2 ^ k` and says
what the occupied slots hold and what the others do.
-/
namespace Wenas

open Wenas.Serial

structure Ring (α : Type) where
  range : UInt16
  spos : UInt16
  rpos : UInt16
  wpos : UInt16
  buf : Nat → α

namespace Ring

variable {α : Type}

def wslot (b : Ring α) : Nat := slot b.range b.wpos
def rslot (b : Ring α) : Nat := slot b.range b.rpos
def sslot (b : Ring α) : Nat := slot b.range b.spos

def recvable (b : Ring α) : UInt16 := b.spos - b.rpos
def sendable (b : Ring α) : UInt16 := b.wpos - b.spos
def readable (b : Ring α) : UInt16 := b.wpos - b.rpos
def writable (b : Ring α) : UInt16 := b.range - b.wpos + b.rpos

def put (b : Ring α) (i : Nat) (x : α) : Ring α := { b with buf := Function.update b.buf i x }

@[simp] theorem put_range (b : Ring α) (i : Nat) (x : α) : (b.put i x).range = b.range := rfl
@[simp] theorem put_rpos (b : Ring α) (i : Nat) (x : α) : (b.put i x).rpos = b.rpos := rfl
@[simp] theorem put_spos (b : Ring α) (i : Nat) (x : α) : (b.put i x).spos = b.spos := rfl
@[simp] theorem put_wpos (b : Ring α) (i : Nat) (x : α) : (b.put i x).wpos = b.wpos := rfl
@[simp] theorem put_buf_self (b : Ring α) (i : Nat) (x : α) : (b.put i x).buf i = x := by simp [put]

theorem put_buf_of_ne (b : Ring α) {i j : Nat} (x : α) (h : j ≠ i) : (b.put i x).buf j = b.buf j := by
  simp [put, h]

@[simp] theorem put_self (b : Ring α) (i : Nat) : b.put i (b.buf i) = b := by simp [put]

@[simp] theorem put_put (b : Ring α) (i : Nat) (x y : α) : (b.put i x).put i y = b.put i y := by simp [put]

/-- The positions are in order modulo `2 ^ 16`: read, send, write, and a ring further read again. -/
def Ordered (b : Ring α) : Prop := b.spos - b.rpos ≤ b.wpos - b.rpos ∧ b.wpos - b.rpos ≤ b.range

/-- The occupied slots satisfy `F` at their number, the free ones satisfy `G`. -/
structure Holds (F : Nat → α → Prop) (G : α → Prop) (k r s w : Nat) (b : Ring α) : Prop where
  small : k ≤ 15
  range : b.range = sn (2 ^ k)
  rpos : b.rpos = sn r
  spos : b.spos = sn s
  wpos : b.wpos = sn w
  read_le : r ≤ s
  send_le : s ≤ w
  room : w ≤ r + 2 ^ k
  used : ∀ n, r ≤ n → n < w → F n (b.buf (n % 2 ^ k))
  free : ∀ j, j < 2 ^ k → (∀ n, r ≤ n → n < w → n % 2 ^ k ≠ j) → G (b.buf j)

/-- Numbers less than a turn apart have different slots. -/
theorem slot_ne {k n p r : Nat} (hn : r ≤ n) (hp : r ≤ p) (hn' : n < r + 2 ^ k) (hp' : p < r + 2 ^ k)
    (hne : n ≠ p) : n % 2 ^ k ≠ p % 2 ^ k := by
  intro he
  rcases Nat.lt_or_gt_of_ne hne with hlt | hgt
  · exact hne ((mod_eq_iff (le_of_lt hlt) (by omega)).mp he)
  · exact hne ((mod_eq_iff (le_of_lt hgt) (by omega)).mp he.symm).symm

namespace Holds

variable {F F' : Nat → α → Prop} {G : α → Prop} {k r s w : Nat} {b : Ring α}

theorem pow_le (h : Holds F G k r s w b) : 2 ^ k ≤ 32768 := two_pow_le h.small

theorem slot_sn (h : Holds F G k r s w b) (n : Nat) : slot b.range (sn n) = n % 2 ^ k := by
  rw [h.range]
  exact Serial.slot_sn h.small n

theorem rslot (h : Holds F G k r s w b) : b.rslot = r % 2 ^ k := by
  rw [Ring.rslot, h.rpos, h.slot_sn]

theorem sslot (h : Holds F G k r s w b) : b.sslot = s % 2 ^ k := by
  rw [Ring.sslot, h.spos, h.slot_sn]

theorem wslot (h : Holds F G k r s w b) : b.wslot = w % 2 ^ k := by
  rw [Ring.wslot, h.wpos, h.slot_sn]

theorem recvable (h : Holds F G k r s w b) : (b.spos - b.rpos).toNat = s - r := by
  have := h.pow_le
  have := h.send_le
  have := h.room
  rw [h.spos, h.rpos]
  exact dist_forward h.read_le (by omega)

theorem sendable (h : Holds F G k r s w b) : (b.wpos - b.spos).toNat = w - s := by
  have := h.pow_le
  have := h.read_le
  have := h.room
  rw [h.wpos, h.spos]
  exact dist_forward h.send_le (by omega)

theorem readable (h : Holds F G k r s w b) : (b.wpos - b.rpos).toNat = w - r := by
  have := h.pow_le
  have := h.read_le
  have := h.send_le
  have := h.room
  rw [h.wpos, h.rpos]
  exact dist_forward (by omega) (by omega)

theorem writable (h : Holds F G k r s w b) : b.writable.toNat = 2 ^ k - (w - r) := by
  have := h.pow_le
  have := h.read_le
  have := h.send_le
  have := h.room
  rw [Ring.writable, h.range, h.wpos, h.rpos]
  simp only [UInt16.toNat_add, UInt16.toNat_sub, sn_toNat]
  omega

theorem writable_pos (h : Holds F G k r s w b) : 0 < b.writable ↔ w < r + 2 ^ k := by
  have := h.read_le
  have := h.send_le
  rw [UInt16.lt_iff_toNat_lt, UInt16.toNat_zero, h.writable]
  omega

theorem sendable_pos (h : Holds F G k r s w b) : 0 < b.sendable ↔ s < w := by
  rw [UInt16.lt_iff_toNat_lt, UInt16.toNat_zero, Ring.sendable, h.sendable]
  omega

theorem recvable_pos (h : Holds F G k r s w b) : 0 < b.recvable ↔ r < s := by
  rw [UInt16.lt_iff_toNat_lt, UInt16.toNat_zero, Ring.recvable, h.recvable]
  omega

theorem ordered (h : Holds F G k r s w b) : b.Ordered := by
  have := h.pow_le
  have := h.read_le
  have := h.send_le
  have := h.room
  rw [Ordered, UInt16.le_iff_toNat_le, UInt16.le_iff_toNat_le, h.recvable, h.readable, h.range, sn_toNat]
  omega

theorem mono (h : Holds F G k r s w b) (hF : ∀ n x, F n x → F' n x) : Holds F' G k r s w b :=
  { h with used := fun n hr hw => hF _ _ (h.used n hr hw) }

/-- The same positions over slots that still hold what they should. -/
theorem of_buf (h : Holds F G k r s w b) (buf : Nat → α)
    (hF : ∀ n, r ≤ n → n < w → F n (b.buf (n % 2 ^ k)) → F n (buf (n % 2 ^ k)))
    (hG : ∀ j, j < 2 ^ k → (∀ n, r ≤ n → n < w → n % 2 ^ k ≠ j) → G (b.buf j) → G (buf j)) :
    Holds F G k r s w { b with buf := buf } :=
  { h with
    used := fun n hr hw => hF n hr hw (h.used n hr hw)
    free := fun j hj hn => hG j hj hn (h.free j hj hn) }

/-- An occupied slot is overwritten. -/
theorem put (h : Holds F G k r s w b) {n : Nat} (hr : r ≤ n) (hw : n < w) {x : α} (hx : F n x) :
    Holds F G k r s w (b.put (n % 2 ^ k) x) := by
  have hroom := h.room
  apply h.of_buf
  · intro p hrp hpw hp
    by_cases he : p = n
    · subst he
      simpa using hx
    · rwa [Function.update_of_ne (slot_ne hrp hr (by omega) (by omega) he)]
  · intro j _ hn hG
    rwa [Function.update_of_ne (Ne.symm (hn n hr hw))]

/-- The next slot is filled. -/
theorem push (h : Holds F G k r s w b) (hroom : w < r + 2 ^ k) {x : α} (hx : F w x) :
    Holds F G k r s (w + 1) { b.put b.wslot x with wpos := b.wpos + 1 } := by
  have hr := h.read_le
  have hs := h.send_le
  rw [h.wslot]
  refine { h with wpos := ?_, send_le := by omega, room := by omega, used := ?_, free := ?_ }
  · show b.wpos + 1 = sn (w + 1)
    rw [h.wpos, sn_succ]
  · intro n hrn hnw
    by_cases he : n = w
    · subst he
      simpa [Ring.put] using hx
    · have hne := slot_ne (k := k) hrn (show r ≤ w by omega) (by omega) hroom he
      simpa [Ring.put, hne] using h.used n hrn (by omega)
  · intro j hj hn
    have hne : j ≠ w % 2 ^ k := Ne.symm (hn w (by omega) (by omega))
    simpa [Ring.put, hne] using h.free j hj (fun n hrn hnw => hn n hrn (by omega))

/-- One item more counts as sent. -/
theorem send (h : Holds F G k r s w b) (hlt : s < w) :
    Holds F G k r (s + 1) w { b with spos := b.spos + 1 } := by
  have hr := h.read_le
  refine { h with spos := ?_, read_le := by omega, send_le := by omega }
  show b.spos + 1 = sn (s + 1)
  rw [h.spos, sn_succ]

/-- The oldest sent item leaves the ring. -/
theorem pop (h : Holds F G k r s w b) (hlt : r < s) {x : α} (hx : G x) :
    Holds F G k (r + 1) s w { b.put b.rslot x with rpos := b.rpos + 1 } := by
  have hs := h.send_le
  have hroom := h.room
  rw [h.rslot]
  refine { h with rpos := ?_, read_le := by omega, room := by omega, used := ?_, free := ?_ }
  · show b.rpos + 1 = sn (r + 1)
    rw [h.rpos, sn_succ]
  · intro n hrn hnw
    have hne := slot_ne (k := k) (show r ≤ n by omega) (Nat.le_refl r) (by omega) (by omega) (show n ≠ r by omega)
    simpa [Ring.put, hne] using h.used n (by omega) hnw
  · intro j hj hn
    by_cases he : j = r % 2 ^ k
    · subst he
      simpa [Ring.put] using hx
    · have hfree : ∀ n, r ≤ n → n < w → n % 2 ^ k ≠ j := by
        intro n hrn hnw
        by_cases hnr : n = r
        · rw [hnr]
          exact Ne.symm he
        · exact hn n (by omega) hnw
      simpa [Ring.put, he] using h.free j hj hfree

end Holds

end Ring

end Wenas
