import Wenas.Xmalloc.Page
import Wenas.Lib.Links

/-!
# The blocks of a page

The blocks from `head` to `end` in the order of their addresses, with what the allocator takes each of them for, and how
the words of the memory describe them. A header is as long as the smallest block, so that headers never overlap.
-/
namespace Wenas.Xmalloc
open Wenas.Links

/-- The header at `head`, or a block that is allocated, in the queue, the current one of the page, or being freed. -/
inductive Kind where
  | sentinel
  | live
  | queued
  | current
  | opened
deriving DecidableEq

def Kind.isFree : Kind → Bool
  | .queued => true
  | .current => true
  | _ => false

structure Blk where
  addr : Nat
  size : Nat
  kind : Kind
deriving DecidableEq

namespace Blk

def stop (b : Blk) : Nat := b.addr + b.size

def isFree (b : Blk) : Bool := b.kind.isFree

/-- The flag of the block behind. -/
def mark (tag : Nat) (b : Blk) : Nat := if b.isFree then b.size else tag

end Blk

variable [Build]

/-! ### Addresses -/

/-- The blocks follow one another from `a` to `z`. -/
def Tiled : Nat → List Blk → Nat → Prop
  | a, [], z => a = z
  | a, b :: bs, z => b.addr = a ∧ freePointerSize ≤ b.size ∧ 8 ∣ b.size ∧ Tiled b.stop bs z

/-- The addresses of the blocks and of the one behind them. -/
def heads (bs : List Blk) (z : Nat) : List Nat := bs.map Blk.addr ++ [z]

variable {a z p q v : Nat} {bs l r : List Blk} {b x y : Blk} {m m' : Mem} {f g : Field} {A : List Nat}

theorem tiled_append : Tiled a (l ++ r) z ↔ ∃ c, Tiled a l c ∧ Tiled c r z := by
  induction l generalizing a with
  | nil => simp [Tiled]
  | cons b l ih => simp [Tiled, ih, and_assoc]

theorem Tiled.bounds (h : Tiled a bs z) : a ≤ z ∧ ∀ b ∈ bs, a ≤ b.addr ∧ b.stop ≤ z ∧ freePointerSize ≤ b.size := by
  induction bs generalizing a with
  | nil => exact ⟨h.le, fun _ hb => absurd hb List.not_mem_nil⟩
  | cons c bs ih =>
    obtain ⟨rfl, hsize, -, hrest⟩ := h
    obtain ⟨hle, hbounds⟩ := ih hrest
    have hstop : c.addr ≤ c.stop := Nat.le_add_right ..
    refine ⟨hstop.trans hle, fun b hb => ?_⟩
    obtain rfl | hb := List.mem_cons.mp hb
    · exact ⟨le_rfl, hle, hsize⟩
    · obtain ⟨hfrom, hto⟩ := hbounds b hb
      exact ⟨hstop.trans hfrom, hto⟩

/-- No more blocks than bytes. -/
theorem Tiled.length_le (h : Tiled a bs z) : a + bs.length ≤ z := by
  have hpos : 0 < freePointerSize := by simp [freePointerSize]
  induction bs generalizing a with
  | nil => exact h.le
  | cons c bs ih =>
    obtain ⟨rfl, hsize, -, hrest⟩ := h
    have hle := ih hrest
    rw [Blk.stop] at hle
    rw [List.length_cons]
    omega

theorem Tiled.sorted (h : Tiled a bs z) : (heads bs z).Pairwise fun p q => p + freePointerSize ≤ q := by
  induction bs generalizing a with
  | nil => exact List.pairwise_singleton ..
  | cons c bs ih =>
    obtain ⟨-, hsize, -, hrest⟩ := h
    obtain ⟨hle, hbounds⟩ := hrest.bounds
    refine List.pairwise_cons.mpr ⟨fun p hp => ?_, ih hrest⟩
    have hstop : c.addr + freePointerSize ≤ c.stop := Nat.add_le_add_left hsize _
    obtain hp | hp := List.mem_append.mp hp
    · obtain ⟨b, hb, rfl⟩ := List.mem_map.mp hp
      exact hstop.trans (hbounds b hb).1
    · rw [List.mem_singleton.mp hp]
      exact hstop.trans hle

/-- Headers at these addresses do not overlap. -/
def Apart (A : List Nat) : Prop := ∀ p ∈ A, ∀ q ∈ A, p ≠ q → p + freePointerSize ≤ q ∨ q + freePointerSize ≤ p

theorem Tiled.apart (h : Tiled a bs z) : Apart (heads bs z) := by
  have hsym : (heads bs z).Pairwise fun p q => p + freePointerSize ≤ q ∨ q + freePointerSize ≤ p :=
    h.sorted.imp .inl
  have hor : Std.Symm fun p q : Nat => p + freePointerSize ≤ q ∨ q + freePointerSize ≤ p := ⟨fun _ _ => Or.symm⟩
  intro p hp q hq hne
  exact hsym.forall hp hq hne

theorem Tiled.nodup (h : Tiled a bs z) : (heads bs z).Nodup := by
  refine h.sorted.imp fun hle => Nat.ne_of_lt (Nat.lt_of_lt_of_le (Nat.lt_add_of_pos_right ?_) hle)
  simp [freePointerSize]

/-! ### Fields -/

theorem offset_lt (f : Field) : f.offset + 8 ≤ freePointerSize := by
  cases f <;> simp [Field.offset, freePointerSize] <;> omega

theorem offset_inj (h : f.offset = g.offset) : f = g := by
  cases f <;> cases g <;> simp [Field.offset] at h ⊢ <;> omega

/-- A write to a field of a header leaves the other fields of it and the other headers. -/
theorem get_put (hA : Apart A) (hp : p ∈ A) (hq : q ∈ A) :
    (m.put p f v).get q g = if q = p ∧ g = f then v else m.get q g := by
  rw [Mem.get, Mem.put, Function.update_apply]
  by_cases hqp : q = p
  · subst hqp
    by_cases hgf : g = f
    · simp [hgf]
    · have hne : q + g.offset ≠ q + f.offset := fun heq => hgf (offset_inj (Nat.add_left_cancel heq))
      rw [if_neg hne, if_neg fun heq => hgf heq.2]
      rfl
  · have hf := offset_lt f
    have hg := offset_lt g
    have hne : q + g.offset ≠ p + f.offset := by
      obtain hle | hle := hA p hp q hq (Ne.symm hqp)
      · omega
      · omega
    rw [if_neg hne, if_neg fun heq => hqp heq.1]
    rfl

/-! ### What the writes change -/

theorem takeOut_get (hA : Apart A) (hp : p ∈ A) (hnext : m.get p .next ∈ A) (hprev : m.get p .prev ∈ A) (hq : q ∈ A) :
    (takeOut m p).get q f = if f = .next ∧ q = m.get p .prev then m.get p .next
      else if f = .prev ∧ q = m.get p .next then m.get p .prev else m.get q f := by
  have hback : (m.put (m.get p .next) .prev (m.get p .prev)).get p .prev = m.get p .prev := by
    rw [get_put hA hnext hp]
    split <;> rfl
  have hforth : (m.put (m.get p .next) .prev (m.get p .prev)).get p .next = m.get p .next := by
    rw [get_put hA hnext hp, if_neg (by simp)]
  rw [takeOut, hback, hforth, get_put hA hprev hq, get_put hA hnext hq]
  simp only [and_comm]

theorem mergeNext_get (hA : Apart A) (hp : p ∈ A) (hc : nextPointer m p ∈ A)
    (hnext : m.get (nextPointer m p) .next ∈ A) (hprev : m.get (nextPointer m p) .prev ∈ A) (hq : q ∈ A) :
    (mergeNext m p).get q f = if f = .size ∧ q = p then wrap (m.get p .size + m.get (nextPointer m p) .size)
      else if f = .next ∧ q = m.get (nextPointer m p) .prev then m.get (nextPointer m p) .next
      else if f = .prev ∧ q = m.get (nextPointer m p) .next then m.get (nextPointer m p) .prev else m.get q f := by
  generalize hc' : nextPointer m p = c at *
  generalize hn : m.get c .next = n at *
  generalize hr : m.get c .prev = r at *
  have hforth : (m.put r .next n).get c .next = n := by
    rw [get_put hA hprev hc, hn]
    split <;> rfl
  have hback : (m.put r .next n).get c .prev = r := by
    rw [get_put hA hprev hc, if_neg (by simp), hr]
  have hsize : ∀ a ∈ A, ((m.put r .next n).put n .prev r).get a .size = m.get a .size := by
    intro a ha
    rw [get_put hA hnext ha, if_neg (by simp), get_put hA hprev ha, if_neg (by simp)]
  have hagain : nextPointer ((m.put r .next n).put n .prev r) p = c := by
    rw [nextPointer, hsize p hp, ← hc', nextPointer]
  have hmerge : mergeNext m p =
      ((m.put r .next n).put n .prev r).put p .size (wrap (m.get p .size + m.get c .size)) := by
    simp only [mergeNext, hc', hn, hr, hforth, hback, hagain, hsize p hp, hsize c hc]
  rw [hmerge, get_put hA hp hq, get_put hA hnext hq, get_put hA hprev hq]
  cases f <;> simp

theorem markNext_get (hA : Apart A) (hc : nextPointer m p ∈ A) (hq : q ∈ A) :
    (markNext m p).get q f = if f = .flag ∧ q = nextPointer m p then m.get p .size else m.get q f := by
  rw [markNext, get_put hA hc hq]
  simp only [and_comm]

theorem putIn_get (hA : Apart A) {a c : Nat} (hp : p ∈ A) (ha : a ∈ A) (hc : c ∈ A) (hpc : p ≠ c) (hq : q ∈ A) :
    (putIn m p a c).get q f = if f = .next ∧ q = a then p else if f = .prev ∧ q = c then p
      else if f = .next ∧ q = p then c else if f = .prev ∧ q = p then a else m.get q f := by
  have hforth : ((m.put p .next c).put p .prev a).get p .next = c := by
    rw [get_put hA hp hp, if_neg (by simp), get_put hA hp hp, if_pos ⟨rfl, rfl⟩]
  have hback : (((m.put p .next c).put p .prev a).put c .prev p).get p .prev = a := by
    rw [get_put hA hc hp, if_neg fun heq => hpc heq.1, get_put hA hp hp, if_pos ⟨rfl, rfl⟩]
  have hput : putIn m p a c = (((m.put p .next c).put p .prev a).put c .prev p).put a .next p := by
    simp only [putIn, hforth, hback]
  rw [hput, get_put hA ha hq, get_put hA hc hq, get_put hA hp hq, get_put hA hp hq]
  cases f <;> simp

end Wenas.Xmalloc
