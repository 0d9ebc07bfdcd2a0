import Wenas.Lib.Machine
import Wenas.Xline.Bounds

/-!
# Whether parsing comes to an end

The position of a parser moves by the size of an entry, a length out of the data, modulo `2 ^ 64`.
Walking and searching end, with the position going up at every turn, exactly if no entry on the way
has the size zero or takes the position over the end of the 64-bit numbers.
-/
namespace Wenas.Xline

open Wenas.Machine

/-! ### Walking to the end -/

/-- The parser after one call of `xl_next` or `xl_list_next`. -/
def Kind.call (le : Bool) (m : Mem) : Kind → Parser → Option UInt64 × Parser
  | .obj, p => (xlNext le p).val m
  | .list, p => (xlListNext le p).val m

def Kind.turn (le : Bool) (m : Mem) (k : Kind) (p : Parser) : Parser := (k.call le m p).2

/-- The calls come to `NULL`, and every call before moves the position up. -/
def Kind.WalkEnds (le : Bool) (m : Mem) (k : Kind) (p : Parser) : Prop :=
  (∃ n, (k.call le m ((k.turn le m)^[n] p)).1 = none) ∧
    ∀ n, (k.call le m ((k.turn le m)^[n] p)).1 ≠ none →
      ((k.turn le m)^[n] p).rpos < ((k.turn le m)^[n + 1] p).rpos

/-- The size of the entry at `r`, with its key, modulo `2 ^ 64`. -/
def Kind.entrySize (le : Bool) (m : Mem) (ptr r : UInt64) : Kind → UInt64
  | .obj => (m (ptr + r)).toUInt64 + 1 + (sizeofLine le (Kind.value m ptr r .obj)).val m
  | .list => (sizeofLine le (Kind.value m ptr r .list)).val m

/-- The entry takes some space, and its end is not beyond the 64-bit numbers. -/
def Kind.Ends (le : Bool) (m : Mem) (ptr r : UInt64) (k : Kind) : Prop :=
  k.entrySize le m ptr r ≠ 0 ∧ r.toNat + (k.entrySize le m ptr r).toNat < 2 ^ 64

/-- Every entry of the container from the position of the parser on. -/
def Kind.WalkFits (le : Bool) (m : Mem) (k : Kind) (p : Parser) : Prop :=
  ∀ r, Steps le m k p.ptr p.wpos p.rpos r → r < p.wpos → k.Ends le m p.ptr r

/-! ### Searching -/

def searchTurn (le : Bool) (m : Mem) (key : CString) (p : Parser) : Parser := ((findEntry le key p).val m).2

/-- The loop goes on after this entry. -/
def GoesOn (m : Mem) (key : CString) (limit : UInt64) (p : Parser) : Prop :=
  p.rpos < limit ∧ ¬ HasKey m (p.ptr + p.rpos) key

/-- Every turn of one loop of `xl_find` moves the position up. -/
def LoopClimbs (le : Bool) (m : Mem) (key : CString) (limit : UInt64) (p : Parser) : Prop :=
  ∀ n, (∀ i < n, GoesOn m key limit ((searchTurn le m key)^[i] p)) → ((searchTurn le m key)^[n] p).rpos < limit →
    ((searchTurn le m key)^[n] p).rpos < ((searchTurn le m key)^[n + 1] p).rpos

/-- The search comes back, and every turn of both loops moves the position up. -/
def SearchEnds (le : Bool) (m : Mem) (key : CString) (p : Parser) : Prop :=
  (∃ n, (xlFind le key n p).val m ≠ .running) ∧ LoopClimbs le m key p.wpos p ∧
    ∀ n q, (findLoop le key p.wpos n p).val m = .missed q → LoopClimbs le m key p.rpos { q with rpos := 0 }

/-- The entries of an object from `r` on that a search looks at before it comes to `limit` or to the key. -/
inductive Seen (le : Bool) (m : Mem) (key : CString) (ptr limit : UInt64) : UInt64 → UInt64 → Prop where
  | here (r : UInt64) : Seen le m key ptr limit r r
  | later {r s : UInt64} : r < limit → ¬ HasKey m (ptr + r) key →
      Seen le m key ptr limit (Kind.after le m ptr r .obj) s → Seen le m key ptr limit r s

/-- The entries of the first loop and, when the key is not among them, those of the second. -/
def SearchFits (le : Bool) (m : Mem) (key : CString) (p : Parser) : Prop :=
  (∀ r, Seen le m key p.ptr p.wpos p.rpos r → r < p.wpos → Kind.Ends le m p.ptr r .obj) ∧
    ((∃ s, Seen le m key p.ptr p.wpos p.rpos s ∧ ¬ s < p.wpos) →
      ∀ r, Seen le m key p.ptr p.rpos 0 r → r < p.rpos → Kind.Ends le m p.ptr r .obj)

/-! ### One entry -/

section

variable {le : Bool} {m : Mem}

theorem after_eq (k : Kind) (ptr r : UInt64) : k.after le m ptr r = r + k.entrySize le m ptr r := by
  cases k with
  | obj => simp only [Kind.after, Kind.entrySize, UInt64.add_assoc]
  | list => rfl

theorem lt_add_iff (r d : UInt64) : r < r + d ↔ d ≠ 0 ∧ r.toNat + d.toNat < 2 ^ 64 := by
  have hr := r.toNat_lt
  have hd := d.toNat_lt
  have hzero : d ≠ 0 ↔ d.toNat ≠ 0 := by
    rw [Ne, Ne, ← UInt64.toNat_inj]
    rfl
  rw [UInt64.lt_iff_toNat_lt, UInt64.toNat_add, hzero]
  omega

/-- The position goes up at an entry exactly if the entry ends. -/
theorem lt_after_iff (k : Kind) (ptr r : UInt64) : r < k.after le m ptr r ↔ k.Ends le m ptr r := by
  rw [after_eq, lt_add_iff]
  rfl

theorem call_none_iff (k : Kind) (p : Parser) : (k.call le m p).1 = none ↔ ¬ p.rpos < p.wpos := by
  cases k with
  | obj =>
    by_cases h : p.rpos < p.wpos
    · simp [Kind.call, xlNext_val h, h]
    · simp [Kind.call, xlNext, h]
  | list =>
    by_cases h : p.rpos < p.wpos
    · simp [Kind.call, xlListNext_val h, h]
    · simp [Kind.call, xlListNext, h]

theorem turn_same (le : Bool) (m : Mem) (k : Kind) (p : Parser) : (k.turn le m p).ptr = p.ptr ∧
    (k.turn le m p).wpos = p.wpos := by
  cases k with
  | obj => by_cases h : p.rpos < p.wpos <;> simp [Kind.turn, Kind.call, xlNext, h]
  | list => by_cases h : p.rpos < p.wpos <;> simp [Kind.turn, Kind.call, xlListNext, h]

theorem turn_rpos (k : Kind) {p : Parser} (h : p.rpos < p.wpos) :
    (k.turn le m p).rpos = k.after le m p.ptr p.rpos := by
  cases k with
  | obj => simp [Kind.turn, Kind.call, xlNext_val h]
  | list => simp [Kind.turn, Kind.call, xlListNext_val h]

theorem turns_same (le : Bool) (m : Mem) (k : Kind) (p : Parser) (n : Nat) :
    ((k.turn le m)^[n] p).ptr = p.ptr ∧ ((k.turn le m)^[n] p).wpos = p.wpos := by
  induction n with
  | zero => exact ⟨rfl, rfl⟩
  | succ n ih =>
    rw [Function.iterate_succ_apply']
    obtain ⟨hptr, hwpos⟩ := turn_same le m k ((k.turn le m)^[n] p)
    exact ⟨hptr.trans ih.1, hwpos.trans ih.2⟩

/-- The calls come to the entries of the container, one after the other. -/
theorem steps_iff_turns (k : Kind) (p : Parser) (r : UInt64) :
    Steps le m k p.ptr p.wpos p.rpos r ↔
      ∃ n, (∀ i < n, ((k.turn le m)^[i] p).rpos < p.wpos) ∧ ((k.turn le m)^[n] p).rpos = r := by
  constructor
  · intro h
    generalize hrpos : p.rpos = s at h
    generalize hptr : p.ptr = ptr at h
    generalize hwpos : p.wpos = w at h
    induction h generalizing p with
    | refl => exact ⟨0, by simp, hrpos⟩
    | step hlt _ ih =>
      subst hrpos hptr hwpos
      obtain ⟨n, hgo, hend⟩ := ih (k.turn le m p) (turn_rpos k hlt) (turn_same le m k p).1 (turn_same le m k p).2
      refine ⟨n + 1, ?_, by rwa [Function.iterate_succ_apply]⟩
      intro i hi
      cases i with
      | zero => exact hlt
      | succ i =>
        rw [Function.iterate_succ_apply]
        exact hgo i (by omega)
  · rintro ⟨n, hgo, rfl⟩
    induction n with
    | zero => exact .refl _
    | succ n ih =>
      have hlt := hgo n (by omega)
      obtain ⟨hptr, hwpos⟩ := turns_same le m k p n
      rw [Function.iterate_succ_apply', turn_rpos k (hwpos ▸ hlt), hptr]
      exact (ih fun i hi => hgo i (by omega)).one hlt

theorem walkEnds_iff (k : Kind) (p : Parser) : k.WalkEnds le m p ↔ k.WalkFits le m p := by
  have hgo : ∀ n, (k.call le m ((k.turn le m)^[n] p)).1 ≠ none ↔ ((k.turn le m)^[n] p).rpos < p.wpos := by
    intro n
    rw [Ne, call_none_iff, not_not, (turns_same le m k p n).2]
  have hstep : ∀ n, ((k.turn le m)^[n] p).rpos < p.wpos →
      ((k.turn le m)^[n + 1] p).rpos = k.after le m p.ptr ((k.turn le m)^[n] p).rpos := by
    intro n hn
    rw [Function.iterate_succ_apply', turn_rpos k ((turns_same le m k p n).2 ▸ hn), (turns_same le m k p n).1]
  constructor
  · rintro ⟨-, hclimb⟩ r hr hlt
    obtain ⟨n, -, rfl⟩ := (steps_iff_turns k p r).mp hr
    have := hclimb n ((hgo n).mpr hlt)
    rwa [hstep n hlt, lt_after_iff] at this
  · intro hfits
    -- before the first NULL every position is one of the container's entries
    have hreach : ∀ n, ((k.turn le m)^[n] p).rpos < p.wpos → ∀ i < n, ((k.turn le m)^[i] p).rpos < p.wpos := by
      intro n hn i hi
      by_contra hstop
      have hfix : ∀ j, ((k.turn le m)^[i + j] p) = (k.turn le m)^[i] p := by
        intro j
        induction j with
        | zero => rfl
        | succ j ih =>
          rw [← Nat.add_assoc, Function.iterate_succ_apply', ih]
          have hnone : ¬ ((k.turn le m)^[i] p).rpos < ((k.turn le m)^[i] p).wpos := by rwa [(turns_same le m k p i).2]
          cases k with
          | obj => simp [Kind.turn, Kind.call, xlNext, hnone]
          | list => simp [Kind.turn, Kind.call, xlListNext, hnone]
      have hsame := hfix (n - i)
      rw [Nat.add_sub_cancel' hi.le] at hsame
      exact hstop (hsame ▸ hn)
    have hclimb : ∀ n, (k.call le m ((k.turn le m)^[n] p)).1 ≠ none →
        ((k.turn le m)^[n] p).rpos < ((k.turn le m)^[n + 1] p).rpos := by
      intro n hn
      have hlt := (hgo n).mp hn
      rw [hstep n hlt, lt_after_iff]
      exact hfits _ ((steps_iff_turns k p _).mpr ⟨n, hreach n hlt, rfl⟩) hlt
    obtain ⟨n, hn⟩ := ends_of_climbing (k.turn le m) Parser.rpos (fun q => (k.call le m q).1 ≠ none) hclimb
    exact ⟨⟨n, not_not.mp hn⟩, hclimb⟩

/-! ### One loop of a search -/

variable {key : CString} {limit : UInt64}

theorem searchTurn_rpos (p : Parser) : (searchTurn le m key p).rpos = Kind.after le m p.ptr p.rpos .obj :=
  (findEntry_next le m key p).2.2.1

theorem searchTurns_same (p : Parser) (n : Nat) :
    ((searchTurn le m key)^[n] p).ptr = p.ptr ∧ ((searchTurn le m key)^[n] p).wpos = p.wpos := by
  induction n with
  | zero => exact ⟨rfl, rfl⟩
  | succ n ih =>
    rw [Function.iterate_succ_apply']
    obtain ⟨hptr, hwpos, -⟩ := findEntry_next le m key ((searchTurn le m key)^[n] p)
    exact ⟨hptr.trans ih.1, hwpos.trans ih.2⟩

/-- The turns of a loop come to the entries that it sees. -/
theorem seen_iff_turns (p : Parser) (r : UInt64) :
    Seen le m key p.ptr limit p.rpos r ↔
      ∃ n, (∀ i < n, GoesOn m key limit ((searchTurn le m key)^[i] p)) ∧ ((searchTurn le m key)^[n] p).rpos = r := by
  constructor
  · intro h
    generalize hrpos : p.rpos = s at h
    generalize hptr : p.ptr = ptr at h
    induction h generalizing p with
    | here => exact ⟨0, by simp, hrpos⟩
    | later hlt hkey _ ih =>
      subst hrpos hptr
      obtain ⟨n, hgo, hend⟩ := ih (searchTurn le m key p) (searchTurn_rpos p) (findEntry_next le m key p).1
      refine ⟨n + 1, ?_, by rwa [Function.iterate_succ_apply]⟩
      intro i hi
      cases i with
      | zero => exact ⟨hlt, hkey⟩
      | succ i =>
        rw [Function.iterate_succ_apply]
        exact hgo i (by omega)
  · rintro ⟨n, hgo, rfl⟩
    induction n generalizing p with
    | zero => exact .here _
    | succ n ih =>
      have hfirst : GoesOn m key limit p := hgo 0 (by omega)
      have hrest := ih (searchTurn le m key p) fun i hi => by
        rw [← Function.iterate_succ_apply]
        exact hgo (i + 1) (by omega)
      rw [searchTurn_rpos, show (searchTurn le m key p).ptr = p.ptr from (findEntry_next le m key p).1,
        ← Function.iterate_succ_apply] at hrest
      exact .later hfirst.1 hfirst.2 hrest

theorem loopClimbs_iff (p : Parser) :
    LoopClimbs le m key limit p ↔
      ∀ r, Seen le m key p.ptr limit p.rpos r → r < limit → Kind.Ends le m p.ptr r .obj := by
  have hstep : ∀ n, ((searchTurn le m key)^[n + 1] p).rpos =
      Kind.after le m p.ptr ((searchTurn le m key)^[n] p).rpos .obj := by
    intro n
    rw [Function.iterate_succ_apply', searchTurn_rpos, (searchTurns_same p n).1]
  constructor
  · intro hclimb r hr hlt
    obtain ⟨n, hgo, rfl⟩ := (seen_iff_turns p r).mp hr
    have hup := hclimb n hgo hlt
    rwa [hstep n, lt_after_iff] at hup
  · intro hfits n hgo hlt
    rw [hstep n, lt_after_iff]
    exact hfits _ ((seen_iff_turns p _).mpr ⟨n, hgo, rfl⟩) hlt

theorem findLoop_on (i : Nat) {p : Parser} (h : GoesOn m key limit p) :
    (findLoop le key limit (i + 1) p).val m = (findLoop le key limit i (searchTurn le m key p)).val m := by
  have hhit := findEntry_hit le m key p
  cases hentry : (findEntry le key p).val m with
  | mk hit q =>
  rw [hentry] at hhit
  cases hit with
  | true => exact absurd (hhit.mp rfl) h.2
  | false => simp [findLoop, h.1, hentry, searchTurn]

theorem findLoop_turns (n i : Nat) {p : Parser} (h : ∀ j < n, GoesOn m key limit ((searchTurn le m key)^[j] p)) :
    (findLoop le key limit (n + i) p).val m = (findLoop le key limit i ((searchTurn le m key)^[n] p)).val m := by
  induction n generalizing p with
  | zero => rw [Nat.zero_add, Function.iterate_zero_apply]
  | succ n ih =>
    have hfirst : GoesOn m key limit p := h 0 (by omega)
    rw [Nat.add_right_comm, findLoop_on _ hfirst, Function.iterate_succ_apply]
    apply ih
    intro j hj
    rw [← Function.iterate_succ_apply]
    exact h (j + 1) (by omega)

theorem findLoop_stop (i : Nat) {p : Parser} (h : ¬ p.rpos < limit) :
    (findLoop le key limit (i + 1) p).val m = .missed p := by
  simp [findLoop, h]

theorem findLoop_hit (i : Nat) {p : Parser} (h : p.rpos < limit) (hkey : HasKey m (p.ptr + p.rpos) key) :
    (findLoop le key limit (i + 1) p).val m = .found (searchTurn le m key p) := by
  have hhit := (findEntry_hit le _ key p).mpr hkey
  cases hentry : (findEntry le key p).val m with
  | mk hit q =>
  rw [hentry] at hhit
  simp only at hhit
  subst hhit
  simp [findLoop, h, hentry, searchTurn]

/-- A loop that misses has come to an entry at or behind the limit. -/
theorem findLoop_missed {n : Nat} {p q : Parser} (h : (findLoop le key limit n p).val m = .missed q) :
    ∃ j, (∀ i < j, GoesOn m key limit ((searchTurn le m key)^[i] p)) ∧ q = (searchTurn le m key)^[j] p ∧
      ¬ q.rpos < limit := by
  induction n generalizing p with
  | zero => simp [findLoop] at h
  | succ n ih =>
    by_cases hlt : p.rpos < limit
    · by_cases hkey : HasKey m (p.ptr + p.rpos) key
      · rw [findLoop_hit n hlt hkey] at h
        cases h
      · rw [findLoop_on n ⟨hlt, hkey⟩] at h
        obtain ⟨j, hgo, hq, hend⟩ := ih h
        refine ⟨j + 1, ?_, by rwa [Function.iterate_succ_apply], hend⟩
        intro i hi
        cases i with
        | zero => exact ⟨hlt, hkey⟩
        | succ i =>
          rw [Function.iterate_succ_apply]
          exact hgo i (by omega)
    · rw [findLoop_stop n hlt] at h
      cases h
      exact ⟨0, by simp, rfl, hlt⟩

/-- A loop that climbs has a last turn. -/
theorem LoopClimbs.last {p : Parser} (h : LoopClimbs le m key limit p) :
    ∃ n, (∀ i < n, GoesOn m key limit ((searchTurn le m key)^[i] p)) ∧
      ¬ GoesOn m key limit ((searchTurn le m key)^[n] p) := by
  by_contra hno
  have hall : ∀ n, ∀ i < n, GoesOn m key limit ((searchTurn le m key)^[i] p) := by
    intro n
    induction n with
    | zero => simp
    | succ n ih =>
      intro i hi
      rcases Nat.lt_succ_iff_lt_or_eq.mp hi with hi | rfl
      · exact ih i hi
      · by_contra hstop
        exact hno ⟨i, ih, hstop⟩
  obtain ⟨n, hn⟩ := ends_of_climbing (searchTurn le m key) Parser.rpos (GoesOn m key limit)
    fun n hgo => h n (hall n) hgo.1
  exact hn (hall (n + 1) n (by omega))

/-- Enough turns bring a loop that climbs to its end. -/
theorem LoopClimbs.ends {p : Parser} (h : LoopClimbs le m key limit p) :
    ∃ n f, f ≠ Found.running ∧ ∀ i, (findLoop le key limit (n + (i + 1)) p).val m = f := by
  obtain ⟨n, hgo, hlast⟩ := h.last
  by_cases hlt : ((searchTurn le m key)^[n] p).rpos < limit
  · have hkey : HasKey m (((searchTurn le m key)^[n] p).ptr + ((searchTurn le m key)^[n] p).rpos) key := by
      by_contra hkey
      exact hlast ⟨hlt, hkey⟩
    refine ⟨n, .found (searchTurn le m key ((searchTurn le m key)^[n] p)), by simp, ?_⟩
    intro i
    rw [findLoop_turns n (i + 1) hgo, findLoop_hit i hlt hkey]
  · refine ⟨n, .missed ((searchTurn le m key)^[n] p), by simp, ?_⟩
    intro i
    rw [findLoop_turns n (i + 1) hgo, findLoop_stop i hlt]

theorem searchEnds_iff (p : Parser) : SearchEnds le m key p ↔ SearchFits le m key p := by
  constructor
  · rintro ⟨-, hfirst, hsecond⟩
    refine ⟨(loopClimbs_iff p).mp hfirst, ?_⟩
    rintro ⟨s, hs, hend⟩
    obtain ⟨n, hgo, rfl⟩ := (seen_iff_turns p s).mp hs
    have hmiss : (findLoop le key p.wpos (n + 1) p).val m = .missed ((searchTurn le m key)^[n] p) := by
      rw [findLoop_turns n 1 hgo, findLoop_stop 0 hend]
    have hclimb := (loopClimbs_iff _).mp (hsecond _ _ hmiss)
    simpa only [(searchTurns_same p n).1] using hclimb
  · rintro ⟨hfirst, hsecond⟩
    have hclimb := (loopClimbs_iff p).mpr hfirst
    have hclimb' : ∀ n q, (findLoop le key p.wpos n p).val m = .missed q →
        LoopClimbs le m key p.rpos { q with rpos := 0 } := by
      intro n q hq
      obtain ⟨j, hgo, rfl, hend⟩ := findLoop_missed hq
      have hfits := hsecond ⟨_, (seen_iff_turns p _).mpr ⟨j, hgo, rfl⟩, hend⟩
      rw [loopClimbs_iff]
      simpa only [(searchTurns_same p j).1] using hfits
    refine ⟨?_, hclimb, hclimb'⟩
    obtain ⟨n, f, hf, hn⟩ := hclimb.ends
    cases f with
    | running => exact absurd rfl hf
    | found q => exact ⟨n + 1, by simp [xlFind, hn 0]⟩
    | missed q =>
      obtain ⟨n', f', hf', hn'⟩ := (hclimb' _ q (hn 0)).ends
      have hone : (findLoop le key p.wpos (n + n' + 1) p).val m = .missed q := by
        rw [Nat.add_assoc]
        exact hn n'
      have htwo : (findLoop le key p.rpos (n + n' + 1) { q with rpos := 0 }).val m = f' := by
        rw [Nat.add_comm n n', Nat.add_assoc]
        exact hn' n
      refine ⟨n + n' + 1, ?_⟩
      cases f' with
      | running => exact absurd rfl hf'
      | found q' => simp [xlFind, hone, htwo]
      | missed q' => simp [xlFind, hone, htwo]

end

/-- Walking with `xl_next` and with `xl_list_next`, and searching for a key, from any position. -/
def Terminates (le : Bool) (m : Mem) (key : CString) (p : Parser) : Prop :=
  Kind.WalkEnds le m .obj p ∧ Kind.WalkEnds le m .list p ∧ SearchEnds le m key p

/-- For all bytes, every key and every parser: the three loops end, with the position going up at every turn,
if and only if every entry they come to ends within the 64-bit numbers. -/
theorem parsing_terminates (le : Bool) (m : Mem) (key : CString) (p : Parser) :
    Terminates le m key p ↔ Kind.WalkFits le m .obj p ∧ Kind.WalkFits le m .list p ∧ SearchFits le m key p := by
  unfold Terminates
  rw [walkEnds_iff, walkEnds_iff, searchEnds_iff]

/-- An entry with an empty key and a string of `2 ^ 64 - 10` bytes: its size is zero. -/
def standstill : Body := ⟨[0, 0x08, 0xff, 0xff, 0xff, 0xff, 0xff, 0xff, 0xff, 0xf6], by decide⟩

/-- The key `api`. -/
def apiKey : CString := ⟨[97, 112, 105], by decide⟩

/-- `xl_next` returns the same entry for ever. -/
theorem parsing_stands_still :
    ¬ Terminates false (standstill.mem false fun _ => 0) apiKey ⟨0, standstill.wpos, 0, none, 0⟩ := by
  rintro ⟨⟨-, hclimb⟩, -⟩
  have hup := hclimb 0 (by decide +kernel)
  exact absurd hup (by decide +kernel)

end Wenas.Xline
