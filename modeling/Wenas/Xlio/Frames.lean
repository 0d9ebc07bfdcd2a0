import Mathlib
import Wenas.Lib.Machine
import Wenas.Xlio.Control

/-!
# The frames of a stream

`xmsgbuf` with its four slots and its two eight-bit counters, and the handlers of `xlio.c` with the frames they take.
What they do to the other fields is what the streams of `Stream.lean` do.
-/
namespace Wenas.Xlio
open Wenas.Machine

/-- One of the four frames: `id` is the slot it was taken from, and `res` whether it left as a `RES`. -/
structure Frame where
  name : Nat
  id : Nat
  res : Bool

def msgbufRange : UInt8 := 4

structure Msgbuf where
  rpos : UInt8
  wpos : UInt8
  buf : Nat → Option Frame

namespace Msgbuf

def rslot (b : Msgbuf) : Nat := (b.rpos &&& (msgbufRange - 1)).toNat

def wslot (b : Msgbuf) : Nat := (b.wpos &&& (msgbufRange - 1)).toNat

def readable (b : Msgbuf) : UInt8 := b.wpos - b.rpos

/-- What `xlio_stream_maker` leaves. -/
def made : Msgbuf := ⟨0, msgbufRange, fun i => if i < 4 then some ⟨i, 0, false⟩ else none⟩

/-- `xlio_take_frame`; an empty slot holds no frame to write the `id` to. -/
def take (b : Msgbuf) : Option (Frame × Msgbuf) :=
  (b.buf b.rslot).map fun f =>
    ({ f with id := b.rslot }, { b with buf := Function.update b.buf b.rslot none, rpos := b.rpos + 1 })

/-- `xlio_resave_frame`. -/
def resave (b : Msgbuf) (f : Frame) : Msgbuf :=
  { b with buf := Function.update b.buf f.id (some f), wpos := b.wpos + 1 }

/-! ### The window of the slots -/

/-- The frames in the slots from `rpos` on, the frames in flight, and where these will come back to. -/
structure Window (b : Msgbuf) (flight ring : List Frame) : Prop where
  total : ring.length + flight.length = 4
  readable : b.wpos.toNat = (b.rpos.toNat + ring.length) % 256
  slots : ∀ k < 4, b.buf ((b.rpos.toNat + k) % 4) = ring[k]?
  ids : ∀ j f, flight[j]? = some f → f.id = (b.wpos.toNat + j) % 4
  names : ((ring ++ flight).map Frame.name).Perm (List.range 4)

variable {b b' : Msgbuf} {f : Frame} {flight ring : List Frame}

theorem mask_eq (pos : UInt8) : (pos &&& (msgbufRange - 1)).toNat = pos.toNat % 4 := by
  rw [UInt8.toNat_and]
  exact Nat.and_two_pow_sub_one_eq_mod pos.toNat 2

theorem rslot_eq : b.rslot = b.rpos.toNat % 4 := mask_eq b.rpos

theorem wslot_eq : b.wslot = b.wpos.toNat % 4 := mask_eq b.wpos

theorem Window.readable_eq (h : Window b flight ring) : b.readable.toNat = ring.length := by
  have htotal := h.total
  have hreadable := h.readable
  have hlt := b.rpos.toNat_lt
  rw [Msgbuf.readable, UInt8.toNat_sub]
  omega

theorem take_some (h : b.buf b.rslot = some f) : ∃ b', b.take = some ({ f with id := b.rslot }, b') ∧
    b'.rpos.toNat = (b.rpos.toNat + 1) % 256 ∧ b'.wpos = b.wpos ∧
      ∀ i, b'.buf i = if i = b.rslot then none else b.buf i := by
  refine ⟨{ b with buf := Function.update b.buf b.rslot none, rpos := b.rpos + 1 }, ?_, ?_, rfl, ?_⟩
  · rw [take, h]
    rfl
  · exact UInt8.toNat_add ..
  · exact fun i => Function.update_apply ..

/-- The slot at `rpos` holds a frame while one is readable. -/
theorem Window.take (h : Window b flight (f :: ring)) : ∃ b', b.take = some ({ f with id := b.rslot }, b') ∧
    ∀ res, Window b' (flight ++ [{ f with id := b.rslot, res := res }]) ring := by
  have hslot : b.buf b.rslot = some f := by
    rw [rslot_eq]
    exact h.slots 0 (by decide)
  obtain ⟨b', htake, hrpos, hwpos, hbuf⟩ := take_some hslot
  have htotal := h.total
  have hreadable := h.readable
  have hlt := b.rpos.toNat_lt
  rw [List.length_cons] at htotal hreadable
  refine ⟨b', htake, fun res => ⟨?_, ?_, fun k hk => ?_, fun j g hg => ?_, ?_⟩⟩
  · rw [List.length_append, List.length_singleton]
    omega
  · rw [hwpos, hrpos]
    omega
  · rw [hrpos, hbuf, rslot_eq]
    split
    · exact (List.getElem?_eq_none (by omega)).symm
    · have hold := h.slots (k + 1)
      rw [List.getElem?_cons_succ] at hold
      rw [← hold (by omega)]
      congr 1
      omega
  · rw [hwpos]
    obtain hj | hj := lt_or_ge j flight.length
    · rw [List.getElem?_append_left hj] at hg
      exact h.ids j g hg
    · rw [List.getElem?_append_right hj, List.getElem?_singleton] at hg
      split at hg
      · cases hg
        dsimp only
        rw [rslot_eq]
        omega
      · cases hg
  · refine .trans ?_ h.names
    rw [← List.append_assoc, List.map_append, List.cons_append, List.map_cons]
    exact List.perm_append_singleton _ _

theorem resave_wpos : (b.resave f).wpos.toNat = (b.wpos.toNat + 1) % 256 := UInt8.toNat_add ..

theorem resave_rpos : (b.resave f).rpos = b.rpos := rfl

theorem resave_buf (i : Nat) : (b.resave f).buf i = if i = f.id then some f else b.buf i := Function.update_apply ..

/-- The oldest frame in flight comes back to the slot at `wpos`, which is empty. -/
theorem Window.resave (h : Window b (f :: flight) ring) :
    f.id = b.wslot ∧ b.buf b.wslot = none ∧ Window (b.resave f) flight (ring ++ [f]) := by
  have htotal := h.total
  have hreadable := h.readable
  have hlt := b.rpos.toNat_lt
  rw [List.length_cons] at htotal
  have hid : f.id = b.wslot := by
    rw [wslot_eq]
    exact h.ids 0 f rfl
  have hlength : (ring ++ [f]).length = ring.length + 1 := by rw [List.length_append, List.length_singleton]
  refine ⟨hid, ?_, ?_, ?_, fun k hk => ?_, fun j g hg => ?_, ?_⟩
  · have hslot := h.slots ring.length (by omega)
    rw [List.getElem?_eq_none le_rfl] at hslot
    rw [← hslot, wslot_eq]
    congr 1
    omega
  · omega
  · rw [hlength, resave_wpos, resave_rpos]
    omega
  · rw [resave_buf, resave_rpos, hid, wslot_eq]
    split
    · have hk : k = ring.length := by omega
      rw [hk, List.getElem?_concat_length]
    · rw [h.slots k hk]
      obtain hlt | hge := lt_or_ge k ring.length
      · rw [List.getElem?_append_left hlt]
      · rw [List.getElem?_eq_none hge, List.getElem?_eq_none]
        omega
  · rw [resave_wpos, h.ids (j + 1) g hg]
    omega
  · rw [List.append_assoc]
    exact h.names

end Msgbuf

end Wenas.Xlio
