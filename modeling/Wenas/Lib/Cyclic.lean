import Mathlib

/-!
# Block copies into and out of a ring

A ring of `N` cells holds a window of an unbounded stream: entry `n` of the stream stands in cell
`n % N`. A block that runs over the end of the ring is copied in two parts.
-/
namespace Wenas.Cyclic

variable {α : Type}

/-- The block `ys` is copied to the cells from `off` on. -/
def copy (buf : Nat → α) (off : Nat) (ys : List α) : Nat → α :=
  fun j => if off ≤ j then (ys[j - off]?).getD (buf j) else buf j

/-- The `n` cells from `off` on. -/
def slice (buf : Nat → α) (off n : Nat) : List α := (List.range n).map (fun i => buf (off + i))

/-- A block is copied in at the cell of stream position `w`. -/
def copyIn (N : Nat) (buf : Nat → α) (w : Nat) (ys : List α) : Nat → α :=
  if ys.length ≤ N - w % N then copy buf (w % N) ys
  else copy (copy buf (w % N) (ys.take (N - w % N))) 0 (ys.drop (N - w % N))

/-- A block of `n` entries is copied out from the cell of stream position `r`. -/
def copyOut (N : Nat) (buf : Nat → α) (r n : Nat) : List α :=
  if n ≤ N - r % N then slice buf (r % N) n
  else slice buf (r % N) (N - r % N) ++ slice buf 0 (n - (N - r % N))

/-- A position less than a turn ahead. -/
theorem add_mod_ring {N : Nat} (w : Nat) {i : Nat} (hi : i < N) :
    (w + i) % N = if w % N + i < N then w % N + i else w % N + i - N := by
  have hw : w % N < N := Nat.mod_lt _ (by omega)
  rw [Nat.add_mod, Nat.mod_eq_of_lt hi]
  split
  · rename_i h
    exact Nat.mod_eq_of_lt h
  · rename_i h
    rw [Nat.mod_eq_sub_mod (by omega), Nat.mod_eq_of_lt (by omega)]

/-- The cells ahead of `w` hold the block. -/
theorem copyIn_new {N : Nat} (buf : Nat → α) (w : Nat) {ys : List α} (hlen : ys.length ≤ N) {i : Nat}
    (hi : i < ys.length) :
    copyIn N buf w ys ((w + i) % N) = ys[i] := by
  have hw : w % N < N := Nat.mod_lt _ (by omega)
  rw [add_mod_ring w (by omega), copyIn]
  split
  · rw [if_pos (by omega), copy, if_pos (by omega), Nat.add_sub_cancel_left, List.getElem?_eq_getElem hi]
    rfl
  · split
    · rename_i hlt
      have hnone : (ys.drop (N - w % N))[w % N + i - 0]? = none := by
        rw [List.getElem?_eq_none_iff, List.length_drop]
        omega
      have hsome : (ys.take (N - w % N))[i]? = some ys[i] := by
        rw [List.getElem?_take_of_lt (by omega), List.getElem?_eq_getElem hi]
      rw [copy, if_pos (Nat.zero_le _), hnone, Option.getD_none, copy,
        if_pos (by omega), Nat.add_sub_cancel_left, hsome]
      rfl
    · have hsome : (ys.drop (N - w % N))[w % N + i - N - 0]? = some ys[i] := by
        rw [List.getElem?_drop, show N - w % N + (w % N + i - N - 0) = i by omega, List.getElem?_eq_getElem hi]
      rw [copy, if_pos (Nat.zero_le _), hsome]
      rfl

/-- The cells behind `w`, up to the end of the block, are as they were. -/
theorem copyIn_old {N : Nat} (buf : Nat → α) {w n : Nat} (ys : List α) (hn : n < w) (hroom : w + ys.length ≤ n + N) :
    copyIn N buf w ys (n % N) = buf (n % N) := by
  obtain ⟨d, rfl⟩ : ∃ d, w = n + d := ⟨w - n, by omega⟩
  have hcell : n % N < N := Nat.mod_lt _ (by omega)
  by_cases hd : d = N
  · have hnil : ys = [] := List.length_eq_zero_iff.mp (by omega)
    simp [hnil, copyIn, copy]
  · have hw := add_mod_ring n (show d < N by omega)
    rw [copyIn]
    split
    · rw [copy]
      split
      · have hnone : ys[n % N - (n + d) % N]? = none := by
          rw [List.getElem?_eq_none_iff]
          split at hw <;> omega
        rw [hnone]
        rfl
      · rfl
    · have hnone : (ys.drop (N - (n + d) % N))[n % N - 0]? = none := by
        rw [List.getElem?_eq_none_iff, List.length_drop]
        split at hw <;> omega
      rw [copy, if_pos (Nat.zero_le _), hnone, Option.getD_none, copy]
      split
      · have hnone' : (ys.take (N - (n + d) % N))[n % N - (n + d) % N]? = none := by
          rw [List.getElem?_eq_none_iff, List.length_take]
          split at hw <;> omega
        rw [hnone']
        rfl
      · rfl

theorem copyOut_eq {N : Nat} (buf : Nat → α) (r : Nat) {n : Nat} (hn : n ≤ N) :
    copyOut N buf r n = (List.range n).map (fun i => buf ((r + i) % N)) := by
  rw [copyOut]
  split
  · apply List.map_congr_left
    intro i hi
    rw [List.mem_range] at hi
    rw [add_mod_ring r (by omega), if_pos (by omega)]
  · have hr : r % N < N := Nat.mod_lt _ (by omega)
    obtain ⟨m, rfl⟩ : ∃ m, n = N - r % N + m := ⟨n - (N - r % N), by omega⟩
    rw [Nat.add_sub_cancel_left, List.range_add, List.map_append, List.map_map]
    congr 1
    · apply List.map_congr_left
      intro i hi
      rw [List.mem_range] at hi
      rw [add_mod_ring r (by omega), if_pos (by omega)]
    · apply List.map_congr_left
      intro i hi
      rw [List.mem_range] at hi
      rw [Function.comp_apply, add_mod_ring r (by omega), if_neg (by omega)]
      congr 1
      omega

/-- The ring holds the entries of the stream `xs` from `r` on. -/
structure Window (N : Nat) (buf : Nat → α) (xs : List α) (r : Nat) : Prop where
  read_le : r ≤ xs.length
  room : xs.length ≤ r + N
  cells : ∀ n, r ≤ n → (h : n < xs.length) → buf (n % N) = xs[n]

variable {N r : Nat} {buf : Nat → α} {xs : List α}

theorem Window.empty (N : Nat) (buf : Nat → α) : Window N buf [] 0 := by
  refine ⟨Nat.le_refl 0, Nat.zero_le _, ?_⟩
  intro n _ h
  exact absurd h (Nat.not_lt_zero n)

/-- A block that fits is added to the stream. -/
theorem Window.write (h : Window N buf xs r) (ys : List α) (hroom : xs.length + ys.length ≤ r + N) :
    Window N (copyIn N buf xs.length ys) (xs ++ ys) r := by
  have hread := h.read_le
  refine ⟨?_, ?_, ?_⟩
  · rw [List.length_append]
    omega
  · rw [List.length_append]
    omega
  · intro n hn hlt
    by_cases hold : n < xs.length
    · rw [copyIn_old buf ys hold (by omega), List.getElem_append_left hold]
      exact h.cells n hn hold
    · rw [List.length_append] at hlt
      obtain ⟨i, rfl⟩ : ∃ i, n = xs.length + i := ⟨n - xs.length, by omega⟩
      rw [copyIn_new buf xs.length (by omega) (show i < ys.length by omega), List.getElem_append_right (by omega)]
      simp

/-- A block that is there is what the stream has at the read position. -/
theorem Window.read (h : Window N buf xs r) {n : Nat} (hn : r + n ≤ xs.length) :
    copyOut N buf r n = (xs.drop r).take n ∧ Window N buf xs (r + n) := by
  have hroom := h.room
  refine ⟨?_, hn, by omega, fun m hm hlt => h.cells m (by omega) hlt⟩
  rw [copyOut_eq buf r (by omega)]
  apply List.ext_getElem
  · simp
    omega
  · intro i hi hi'
    have hin : i < n := by simpa using hi
    simp only [List.getElem_map, List.getElem_range, List.getElem_take, List.getElem_drop]
    exact h.cells (r + i) (by omega) (by omega)

end Wenas.Cyclic
