import Wenas.Lib.Cyclic
import Wenas.Lib.Machine

/-!
# The byte ring of `xpipe.h`

The counters `reader` and `writer` are 64-bit and wrap; the capacity is a power of two, so that a
masked counter is the cell of the byte also after a wrap. The bytes accepted by writes form a stream,
and the ring holds a window of it.
-/
namespace Wenas.Xpipe

open Wenas.Machine Wenas.Cyclic

/-- The fields of `struct xpipe` that `__xpipe_write` and `__xpipe_read` use besides their locks. -/
structure Pipe where
  len : UInt64
  writer : UInt64
  reader : UInt64
  buf : Nat → UInt8

/-- Bytes in memory, with a 64-bit length. -/
structure Block where
  bytes : List UInt8
  fits : bytes.length < 2 ^ 64

def Block.len (d : Block) : UInt64 := UInt64.ofNat d.bytes.length

/-- `do { cap <<= 1 } while (len >>= 1)`. -/
def doubling (cap len : UInt64) : UInt64 :=
  if len >>> 1 = 0 then cap <<< 1 else doubling (cap <<< 1) (len >>> 1)
termination_by len.toNat
decreasing_by
  rename_i h
  have hne : (len >>> 1).toNat ≠ 0 := by rwa [Ne, ← UInt64.toNat_zero, UInt64.toNat_inj]
  simp only [UInt64.toNat_shiftRight] at hne ⊢
  simp at hne ⊢
  omega

def capacity (len : UInt64) : UInt64 := if len &&& (len - 1) = 0 then len else doubling 1 len

/-- `xpipe_create`; what `malloc` leaves in the buffer is arbitrary. -/
def xpipeCreate (len : UInt64) (buf : Nat → UInt8) : Pipe := ⟨capacity len, 0, 0, buf⟩

def xpipeWritable (p : Pipe) : UInt64 := p.len - p.writer + p.reader

def xpipeReadable (p : Pipe) : UInt64 := p.writer - p.reader

/-- `__xpipe_write`; `locked` when another thread has `wlock`. The result is the number of bytes written. -/
def xpipeWriteOnce (locked : Bool) (data : List UInt8) (len : UInt64) (p : Pipe) : UInt64 × Pipe :=
  if locked then (0, p)
  else
    let writable := if xpipeWritable p > len then len else xpipeWritable p
    if writable > 0 then
      let pos := (p.writer &&& (p.len - 1)).toNat
      let leftover := p.len - (p.writer &&& (p.len - 1))
      let buf :=
        if leftover ≥ writable then copy p.buf pos (data.take writable.toNat)
        else
          copy (copy p.buf pos (data.take leftover.toNat)) 0
            ((data.drop leftover.toNat).take (writable - leftover).toNat)
      (writable, { p with buf := buf, writer := p.writer + writable })
    else (writable, p)

/-- `__xpipe_read`; `locked` when another thread has `rlock`. The result are the bytes read. -/
def xpipeReadOnce (locked : Bool) (len : UInt64) (p : Pipe) : List UInt8 × Pipe :=
  if locked then ([], p)
  else
    let readable := if xpipeReadable p > len then len else xpipeReadable p
    if readable > 0 then
      let pos := (p.reader &&& (p.len - 1)).toNat
      let leftover := p.len - (p.reader &&& (p.len - 1))
      let out :=
        if leftover ≥ readable then slice p.buf pos readable.toNat
        else slice p.buf pos leftover.toNat ++ slice p.buf 0 (readable - leftover).toNat
      (out, { p with reader := p.reader + readable })
    else ([], p)

/-! ### The capacity -/

theorem shiftLeft_one_toNat {a : UInt64} (h : a.toNat * 2 < 2 ^ 64) : (a <<< 1).toNat = a.toNat * 2 := by
  rw [UInt64.toNat_shiftLeft]
  simp [Nat.shiftLeft_eq]
  omega

theorem shiftRight_one_toNat (a : UInt64) : (a >>> 1).toNat = a.toNat / 2 := by
  rw [UInt64.toNat_shiftRight]
  simp [Nat.shiftRight_eq_div_pow]

/-- The loop doubles once for every binary digit. -/
theorem doubling_toNat (j : Nat) : ∀ {cap len : UInt64}, 2 ^ j ≤ len.toNat → len.toNat < 2 ^ (j + 1) →
    cap.toNat * 2 ^ (j + 1) < 2 ^ 64 → (doubling cap len).toNat = cap.toNat * 2 ^ (j + 1) := by
  induction j with
  | zero =>
    intro cap len hlow hhigh hfit
    have hz : len >>> 1 = 0 := by
      apply UInt64.toNat_inj.mp
      rw [shiftRight_one_toNat, UInt64.toNat_zero]
      omega
    rw [doubling, if_pos hz, shiftLeft_one_toNat (by simpa using hfit), zero_add, pow_one]
  | succ j ih =>
    intro cap len hlow hhigh hfit
    have hpow : 2 ^ (j + 1 + 1) = 2 * 2 ^ (j + 1) := by ring
    have hpos := Nat.two_pow_pos j
    have hnz : len >>> 1 ≠ 0 := by
      intro hz
      have := congrArg UInt64.toNat hz
      rw [shiftRight_one_toNat, UInt64.toNat_zero] at this
      rw [pow_succ] at hlow
      omega
    have hcap : (cap <<< 1).toNat = cap.toNat * 2 := by
      apply shiftLeft_one_toNat
      refine lt_of_le_of_lt ?_ hfit
      apply Nat.mul_le_mul_left
      omega
    rw [doubling, if_neg hnz, ih, hcap, hpow, Nat.mul_assoc]
    · rw [shiftRight_one_toNat]
      rw [pow_succ] at hlow
      omega
    · rw [shiftRight_one_toNat]
      omega
    · rw [hcap, Nat.mul_assoc, ← hpow]
      exact hfit

/-- The least power of two that is not less than the length. -/
theorem capacity_spec {len : UInt64} (hlow : 1 ≤ len.toNat) (hhigh : len.toNat ≤ 2 ^ 63) :
    ∃ k, k ≤ 63 ∧ (capacity len).toNat = 2 ^ k ∧ len.toNat ≤ 2 ^ k ∧ ∀ j, len.toNat ≤ 2 ^ j → k ≤ j := by
  have hone : (len - 1).toNat = len.toNat - 1 := by
    have := len.toNat_lt
    rw [UInt64.toNat_sub, UInt64.toNat_one]
    omega
  have hiff : len &&& (len - 1) = 0 ↔ Nat.isPowerOfTwo len.toNat := by
    rw [← Nat.and_sub_one_eq_zero_iff_isPowerOfTwo (by omega), ← UInt64.toNat_inj, UInt64.toNat_and, hone,
      UInt64.toNat_zero]
  rw [capacity]
  split
  · rename_i h
    obtain ⟨k, hk⟩ := hiff.mp h
    refine ⟨k, ?_, hk, by omega, ?_⟩
    · rw [hk] at hhigh
      exact (Nat.pow_le_pow_iff_right (by decide)).mp hhigh
    · intro j hj
      rw [hk] at hj
      exact (Nat.pow_le_pow_iff_right (by decide)).mp hj
  · rename_i h
    have hnot := hiff.not.mp h
    obtain ⟨j, hj, hj'⟩ : ∃ j, 2 ^ j ≤ len.toNat ∧ len.toNat < 2 ^ (j + 1) :=
      ⟨_, Nat.log2_self_le (by omega), Nat.lt_log2_self⟩
    have hlt : 2 ^ j < len.toNat := lt_of_le_of_ne hj (fun he => hnot ⟨j, he.symm⟩)
    have hle : j < 63 := (Nat.pow_lt_pow_iff_right (by decide)).mp (lt_of_lt_of_le hlt hhigh)
    have hfit : (1 : UInt64).toNat * 2 ^ (j + 1) < 2 ^ 64 := by
      rw [UInt64.toNat_one, Nat.one_mul]
      exact Nat.pow_lt_pow_right (by decide) (by omega)
    refine ⟨j + 1, by omega, ?_, by omega, ?_⟩
    · rw [doubling_toNat j hj hj' hfit, UInt64.toNat_one, Nat.one_mul]
    · intro i hi
      exact (Nat.pow_lt_pow_iff_right (by decide)).mp (lt_of_lt_of_le hlt hi)

/-! ### The stream -/

/-- The bytes `xs` have been accepted and the first `r` of them read. -/
structure Carries (k : Nat) (p : Pipe) (xs : List UInt8) (r : Nat) : Prop where
  small : k ≤ 63
  len : p.len.toNat = 2 ^ k
  writer : p.writer = UInt64.ofNat xs.length
  reader : p.reader = UInt64.ofNat r
  window : Window (2 ^ k) p.buf xs r

theorem two_pow_le {k : Nat} (hk : k ≤ 63) : 2 ^ k ≤ 2 ^ 63 := Nat.pow_le_pow_right (by decide) hk

/-- A masked counter is the cell of the byte it counts. -/
theorem mask_toNat {k : Nat} (hk : k ≤ 63) {len : UInt64} (hlen : len.toNat = 2 ^ k) (n : Nat) :
    (UInt64.ofNat n &&& (len - 1)).toNat = n % 2 ^ k := by
  have hle := two_pow_le hk
  have hpos := Nat.two_pow_pos k
  have hone : (len - 1).toNat = 2 ^ k - 1 := by
    rw [UInt64.toNat_sub, UInt64.toNat_one, hlen]
    omega
  have hdvd : 2 ^ k ∣ 2 ^ 64 := Nat.pow_dvd_pow 2 (by omega)
  rw [UInt64.toNat_and, hone, Nat.and_two_pow_sub_one_eq_mod, UInt64.toNat_ofNat', Nat.mod_mod_of_dvd _ hdvd]

theorem leftover_toNat {k : Nat} (hk : k ≤ 63) {len : UInt64} (hlen : len.toNat = 2 ^ k) (n : Nat) :
    (len - (UInt64.ofNat n &&& (len - 1))).toNat = 2 ^ k - n % 2 ^ k := by
  have hle := two_pow_le hk
  have hlt := Nat.mod_lt n (Nat.two_pow_pos k)
  rw [UInt64.toNat_sub, mask_toNat hk hlen, hlen]
  omega

section

variable {k : Nat} {p : Pipe} {xs : List UInt8} {r : Nat}

theorem Carries.create {len : UInt64} (hk : k ≤ 63) (hlen : (capacity len).toNat = 2 ^ k) (buf : Nat → UInt8) :
    Carries k (xpipeCreate len buf) [] 0 :=
  ⟨hk, hlen, rfl, rfl, Window.empty _ _⟩

theorem Carries.readable (h : Carries k p xs r) : (xpipeReadable p).toNat = xs.length - r := by
  have hle := two_pow_le h.small
  have hread := h.window.read_le
  have hroom := h.window.room
  rw [xpipeReadable, h.writer, h.reader, UInt64.toNat_sub]
  simp only [UInt64.toNat_ofNat']
  omega

theorem Carries.writable (h : Carries k p xs r) : (xpipeWritable p).toNat = 2 ^ k - (xs.length - r) := by
  have hle := two_pow_le h.small
  have hread := h.window.read_le
  have hroom := h.window.room
  rw [xpipeWritable, h.writer, h.reader, UInt64.toNat_add, UInt64.toNat_sub, h.len]
  simp only [UInt64.toNat_ofNat']
  omega

/-- The smaller of what is asked for and what there is. -/
theorem clip_toNat (a b : UInt64) : (if a > b then b else a).toNat = min b.toNat a.toNat := by
  split
  · rename_i h
    have := UInt64.lt_iff_toNat_lt.mp h
    omega
  · rename_i h
    have := UInt64.lt_iff_toNat_lt.not.mp h
    omega

theorem ofNat_add (m : Nat) (a : UInt64) : UInt64.ofNat m + a = UInt64.ofNat (m + a.toNat) := by
  apply UInt64.toNat_inj.mp
  rw [UInt64.toNat_add]
  simp only [UInt64.toNat_ofNat']
  omega

/-- A write appends as many of its bytes as there is room for. -/
theorem Carries.write (h : Carries k p xs r) (locked : Bool) {data : List UInt8} (len : UInt64)
    (hdata : data.length = len.toNat) :
    ∃ n, (xpipeWriteOnce locked data len p).1.toNat = n ∧
      n = (if locked then 0 else min len.toNat (2 ^ k - (xs.length - r))) ∧
      Carries k (xpipeWriteOnce locked data len p).2 (xs ++ data.take n) r := by
  refine ⟨_, rfl, ?_⟩
  have hclip := clip_toNat (xpipeWritable p) len
  rw [h.writable] at hclip
  cases locked with
  | true => simpa [xpipeWriteOnce] using h
  | false =>
    simp only [xpipeWriteOnce, Bool.false_eq_true, if_false]
    generalize (if xpipeWritable p > len then len else xpipeWritable p) = writable at hclip
    split
    · refine ⟨hclip, h.small, h.len, ?_, h.reader, ?_⟩
      · have hle : writable.toNat ≤ data.length := by omega
        rw [h.writer, ofNat_add, List.length_append, List.length_take, Nat.min_eq_left hle]
      · have hroom := h.window.room
        have hread := h.window.read_le
        have hblock : (data.take writable.toNat).length = writable.toNat := by
          rw [List.length_take]
          omega
        have hw := h.window.write (data.take writable.toNat) (by omega)
        have hleft := leftover_toNat h.small h.len xs.length
        have hmask := mask_toNat h.small h.len xs.length
        rw [copyIn, hblock] at hw
        rw [h.writer]
        generalize UInt64.ofNat xs.length &&& (p.len - 1) = mask at hleft hmask
        have hiff : p.len - mask ≥ writable ↔ writable.toNat ≤ 2 ^ k - xs.length % 2 ^ k := by
          rw [ge_iff_le, UInt64.le_iff_toNat_le, hleft]
        simp only [hiff, hmask, hleft]
        have hrest : ¬ writable.toNat ≤ 2 ^ k - xs.length % 2 ^ k →
            (writable - (p.len - mask)).toNat = writable.toNat - (2 ^ k - xs.length % 2 ^ k) := by
          intro hn
          rw [UInt64.toNat_sub_of_le, hleft]
          rw [UInt64.le_iff_toNat_le, hleft]
          omega
        split at hw
        · rename_i hc
          rw [if_pos hc]
          exact hw
        · rename_i hc
          rw [if_neg hc, hrest hc]
          rw [List.take_take, Nat.min_eq_left (by omega), List.drop_take] at hw
          exact hw
    · rename_i hz
      have hzero : writable.toNat = 0 := by
        have := UInt64.lt_iff_toNat_lt.not.mp hz
        rw [UInt64.toNat_zero] at this
        omega
      refine ⟨hclip, ?_⟩
      rw [hzero, List.take_zero, List.append_nil]
      exact h

/-- A read takes as many bytes as there are, those that were accepted next. -/
theorem Carries.read (h : Carries k p xs r) (locked : Bool) (len : UInt64) :
    ∃ n, n = (if locked then 0 else min len.toNat (xs.length - r)) ∧
      (xpipeReadOnce locked len p).1 = (xs.drop r).take n ∧ Carries k (xpipeReadOnce locked len p).2 xs (r + n) := by
  refine ⟨_, rfl, ?_⟩
  have hclip := clip_toNat (xpipeReadable p) len
  rw [h.readable] at hclip
  cases locked with
  | true => simpa [xpipeReadOnce] using h
  | false =>
    simp only [xpipeReadOnce, Bool.false_eq_true, if_false, ← hclip]
    generalize (if xpipeReadable p > len then len else xpipeReadable p) = readable at hclip
    have hroom := h.window.room
    have hread := h.window.read_le
    split
    · obtain ⟨hout, hwin⟩ := h.window.read (n := readable.toNat) (by omega)
      refine ⟨?_, h.small, h.len, h.writer, ?_, hwin⟩
      · have hleft := leftover_toNat h.small h.len r
        have hmask := mask_toNat h.small h.len r
        rw [← hout, copyOut, h.reader]
        generalize UInt64.ofNat r &&& (p.len - 1) = mask at hleft hmask
        have hiff : p.len - mask ≥ readable ↔ readable.toNat ≤ 2 ^ k - r % 2 ^ k := by
          rw [ge_iff_le, UInt64.le_iff_toNat_le, hleft]
        simp only [hiff, hmask, hleft]
        split
        · rfl
        · rename_i hc
          rw [UInt64.toNat_sub_of_le, hleft]
          rw [UInt64.le_iff_toNat_le, hleft]
          omega
      · rw [h.reader, ofNat_add]
    · rename_i hz
      have hzero : readable.toNat = 0 := by
        have := UInt64.lt_iff_toNat_lt.not.mp hz
        rw [UInt64.toNat_zero] at this
        omega
      rw [hzero]
      exact ⟨rfl, h⟩

end

/-! ### Writes and reads in any order -/

/-- One call of `__xpipe_write` or `__xpipe_read`, and whether it finds its lock taken. -/
inductive Op where
  | write : Bool → Block → Op
  | read : Bool → UInt64 → Op

/-- A pipe with all bytes its writes accepted and all bytes its reads returned. -/
structure Traffic where
  pipe : Pipe
  accepted : List UInt8
  taken : List UInt8

def Traffic.step (t : Traffic) : Op → Traffic
  | .write locked d =>
    let r := xpipeWriteOnce locked d.bytes d.len t.pipe
    { t with pipe := r.2, accepted := t.accepted ++ d.bytes.take r.1.toNat }
  | .read locked len =>
    let r := xpipeReadOnce locked len t.pipe
    { t with pipe := r.2, taken := t.taken ++ r.1 }

theorem Block.len_toNat (d : Block) : d.bytes.length = d.len.toNat := by
  have := d.fits
  rw [Block.len, UInt64.toNat_ofNat']
  omega

/-- What has been read is the part of the stream before the window. -/
def Traffic.Inv (k : Nat) (t : Traffic) : Prop :=
  Carries k t.pipe t.accepted t.taken.length ∧ t.taken = t.accepted.take t.taken.length

theorem Traffic.Inv.step {k : Nat} {t : Traffic} (h : t.Inv k) (op : Op) : (t.step op).Inv k := by
  obtain ⟨hpipe, htaken⟩ := h
  cases op with
  | write locked d =>
    obtain ⟨n, hn, -, h'⟩ := hpipe.write locked d.len d.len_toNat
    refine ⟨?_, ?_⟩
    · simpa [Traffic.step, hn] using h'
    · have hle := hpipe.window.read_le
      simpa [Traffic.step, List.take_append_of_le_length hle] using htaken
  | read locked len =>
    obtain ⟨n, hn, hout, h'⟩ := hpipe.read locked len
    have hread := hpipe.window.read_le
    have hle : n ≤ t.accepted.length - t.taken.length := by
      rw [hn]
      split <;> omega
    have hlen : (t.taken ++ (xpipeReadOnce locked len t.pipe).1).length = t.taken.length + n := by
      rw [hout, List.length_append, List.length_take, List.length_drop, Nat.min_eq_left hle]
    refine ⟨?_, ?_⟩
    · simp only [Traffic.step, hlen]
      exact h'
    · simp only [Traffic.step, hlen]
      rw [hout, List.take_add, ← htaken]

/-- The capacity is the least power of two that holds the length, the counters are never further
apart than the capacity, and what is read is a beginning of what was written. -/
theorem pipe_stream (len : UInt64) (hlow : 1 ≤ len.toNat) (hhigh : len.toNat ≤ 2 ^ 63) (buf : Nat → UInt8)
    (ops : List Op) :
    (∃ k, (xpipeCreate len buf).len.toNat = 2 ^ k ∧ len.toNat ≤ 2 ^ k ∧ ∀ j, len.toNat ≤ 2 ^ j → 2 ^ k ≤ 2 ^ j) ∧
      let t := run Traffic.step ⟨xpipeCreate len buf, [], []⟩ ops
      t.pipe.writer - t.pipe.reader ≤ (xpipeCreate len buf).len ∧ t.taken <+: t.accepted := by
  obtain ⟨k, hk, hcap, hle, hleast⟩ := capacity_spec hlow hhigh
  refine ⟨⟨k, hcap, hle, fun j hj => Nat.pow_le_pow_right (by decide) (hleast j hj)⟩, ?_⟩
  intro t
  have hstart : Traffic.Inv k ⟨xpipeCreate len buf, [], []⟩ := ⟨Carries.create hk hcap buf, rfl⟩
  obtain ⟨hpipe, htaken⟩ : t.Inv k := invariant (fun _ op h => h.step op) ops hstart
  refine ⟨?_, ?_⟩
  · have hroom := hpipe.window.room
    have hdist : (t.pipe.writer - t.pipe.reader).toNat = _ := hpipe.readable
    have hlen : (xpipeCreate len buf).len.toNat = 2 ^ k := hcap
    rw [UInt64.le_iff_toNat_le, hdist, hlen]
    omega
  · rw [htaken]
    exact List.take_prefix _ _

theorem pipe_stream_of_three :
    (run Traffic.step ⟨xpipeCreate 3 (fun _ => 0), [], []⟩
      [.write false ⟨[1, 2, 3, 4, 5], by decide⟩, .read false 3, .write false ⟨[6, 7], by decide⟩, .read false 9]).taken <+:
      (run Traffic.step ⟨xpipeCreate 3 (fun _ => 0), [], []⟩
        [.write false ⟨[1, 2, 3, 4, 5], by decide⟩, .read false 3, .write false ⟨[6, 7], by decide⟩, .read false 9]).accepted :=
  (pipe_stream 3 (by decide) (by decide) _ _).2.2

end Wenas.Xpipe
