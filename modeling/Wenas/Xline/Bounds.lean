import Wenas.Xline.Parser

/-!
# What the parser reads of a received frame

The lengths of a received frame are never checked, nor is the type of a value that is opened as an
object or a list. Whoever parses a frame stays below `wpos` exactly if every entry that can be reached
through the opened values begins and has its header there, and every value with a usable key has a
zero behind it.
-/
namespace Wenas.Xline

/-! ### A received frame -/

/-- The body of a received frame. -/
structure Body where
  bytes : List UInt8
  short : bytes.length < 2 ^ 63

def Body.wpos (b : Body) : UInt64 := UInt64.ofNat b.bytes.length

/-- The memory around the body, with the header that `xl_fixed` writes in front of it. -/
def Body.mem (b : Body) (le : Bool) (beyond : Mem) : Mem := fun a =>
  if a < b.wpos then b.bytes.getD a.toNat 0
  else if frameLine ≤ a then (n2b le b.wpos xlineTypeObj).getD (a - frameLine).toNat 0
  else beyond a

/-- What a parser walks through. -/
inductive Kind where
  | obj
  | list

def Kind.type : Kind → UInt8
  | .obj => xlineTypeObj
  | .list => xlineTypeList

/-- The calls for an object and for a list; a search is given a number of turns. -/
inductive Call : Kind → Type where
  | next : Call .obj
  | find : CString → Nat → Call .obj
  | findWord : CString → Nat → Call .obj
  | listNext : Call .list

def Found.result : Found → Option UInt64 × Option Parser
  | .found q => (q.val, some q)
  | .missed q => (none, some q)
  | .running => (none, none)

/-- The value a call returns and the parser it leaves. -/
def Call.run (le : Bool) (p : Parser) : {k : Kind} → Call k → Read (Option UInt64 × Option Parser)
  | _, .next => do
    let (v, q) ← xlNext le p
    return (v, some q)
  | _, .find key n => do return (← xlFind le key n p).result
  | _, .findWord key n => do return (← findWordLength le key n p).result
  | _, .listNext => do
    let (v, q) ← xlListNext le p
    return (v, some q)

/-- The parsers of a frame: of the frame itself, and of every returned value that the caller opens. `opens` says which
these are and what the caller takes them for; nothing in `xl_parser` looks at their types. -/
inductive Reach (opens : UInt64 → Kind → Prop) (le : Bool) (m : Mem) : Kind → Parser → Prop where
  | root : Reach opens le m .obj ((xlParser le frameLine).val m)
  | call {k : Kind} {p q : Parser} (c : Call k) :
      Reach opens le m k p → ((c.run le p).val m).2 = some q → Reach opens le m k q
  | enter {k k' : Kind} {p : Parser} {v : UInt64} (c : Call k) :
      Reach opens le m k p → ((c.run le p).val m).1 = some v → opens v k' → Reach opens le m k' ((xlParser le v).val m)

/-- Every byte a call or a new parser inspects lies below `n`. -/
def Contained (opens : UInt64 → Kind → Prop) (le : Bool) (m : Mem) (n : UInt64) : Prop :=
  ∀ (k : Kind) (p : Parser), Reach opens le m k p → ∀ c : Call k,
    (∀ a ∈ (c.run le p).reads m, a < n) ∧
      ∀ v k', ((c.run le p).val m).1 = some v → opens v k' → ∀ a ∈ (xlParser le v).reads m, a < n

/-! ### Well-formed frames -/

/-- Where the value of the entry at `r` begins. -/
def Kind.value (m : Mem) (ptr r : UInt64) : Kind → UInt64
  | .obj => ptr + (r + ((m (ptr + r)).toUInt64 + 1))
  | .list => ptr + r

/-- Where the next entry begins. -/
def Kind.after (le : Bool) (m : Mem) (ptr r : UInt64) : Kind → UInt64
  | .obj => r + ((m (ptr + r)).toUInt64 + 1) + (sizeofLine le (Kind.value m ptr r .obj)).val m
  | .list => r + (sizeofLine le (Kind.value m ptr r .list)).val m

/-- The entries of the container at `ptr` with the length `w`, from the one at `r` on. -/
inductive Steps (le : Bool) (m : Mem) (k : Kind) (ptr w : UInt64) : UInt64 → UInt64 → Prop where
  | refl (r : UInt64) : Steps le m k ptr w r r
  | step {r s : UInt64} : r < w → Steps le m k ptr w (k.after le m ptr r) s → Steps le m k ptr w r s

/-- The containers of a frame with a body of `n` bytes: the body, and what begins behind the header of every value
that the caller opens. -/
inductive Container (opens : UInt64 → Kind → Prop) (le : Bool) (m : Mem) (n : UInt64) :
    Kind → UInt64 → UInt64 → Prop where
  | root : Container opens le m n .obj 0 n
  | inside {k k' : Kind} {ptr w r : UInt64} : Container opens le m n k ptr w → Steps le m k ptr w 0 r → r < w →
      opens (k.value m ptr r) k' →
      Container opens le m n k' (k.value m ptr r + xlineSize) ((sizeofBody le (k.value m ptr r)).val m)

/-- The key of the entry at `a`, as `xl_find` compares it. -/
def HasKey (m : Mem) (a : UInt64) (key : CString) : Prop :=
  key.chars.length + 1 = (m a).toNat ∧ (mcompare (key.chars ++ [0]) (a + 1)).val m = true

/-- A zero ends the bytes from `a` on, below `n`. -/
def Terminated (m : Mem) (n a : UInt64) : Prop := ∃ j : Nat, a.toNat + j < n.toNat ∧ m (a + UInt64.ofNat j) = 0

/-- The key and the header of an entry lie below `n`, and so does the end of the word behind it. -/
def Kind.Fits (m : Mem) (n ptr r : UInt64) : Kind → Prop
  | .obj =>
    ptr + r < n ∧ (∀ a ∈ lineReads m (Kind.value m ptr r .obj), a < n) ∧
      ∀ key, HasKey m (ptr + r) key → Terminated m n (Kind.value m ptr r .obj + xlineSize)
  | .list => ∀ a ∈ lineReads m (Kind.value m ptr r .list), a < n

/-- Every entry that begins inside its container fits. -/
def WellFormed (opens : UInt64 → Kind → Prop) (le : Bool) (m : Mem) (n : UInt64) : Prop :=
  ∀ k ptr w, Container opens le m n k ptr w → ∀ r, Steps le m k ptr w 0 r → r < w → k.Fits m n ptr r

/-! ### One entry -/

section

variable {opens : UInt64 → Kind → Prop} {le : Bool} {m : Mem} {n : UInt64}

theorem mcompare_reads (bs : List UInt8) (a : UInt64) :
    ∀ x ∈ (mcompare bs a).reads m, ∃ i < bs.length, x = a + UInt64.ofNat i := by
  induction bs generalizing a with
  | nil => simp [mcompare]
  | cons b bs ih =>
    intro x hx
    simp only [mcompare, Read.reads_bind, reads_byte, Read.reads_cond, List.mem_append, List.mem_singleton] at hx
    rcases hx with hx | hx
    · exact ⟨0, by simp, by simpa using hx⟩
    · cases hb : (byte a).val m == b with
      | true =>
        rw [hb] at hx
        obtain ⟨i, hi, rfl⟩ := ih (a + 1) x hx
        refine ⟨i + 1, by simpa using hi, ?_⟩
        apply UInt64.toNat_inj.mp
        simp only [UInt64.toNat_add, UInt64.toNat_ofNat', UInt64.toNat_one]
        omega
      | false =>
        rw [hb] at hx
        simp at hx

/-- The key lies between its length and the header of the value. -/
theorem key_reads_lt (hn : n.toNat < 2 ^ 63) {a k : UInt64} (hk : k.toNat < 256) (ha : a < n) (hv : a + (k + 1) < n)
    {i : Nat} (hi : i < k.toNat) : a + 1 + UInt64.ofNat i < n := by
  simp only [UInt64.lt_iff_toNat_lt, UInt64.toNat_add, UInt64.toNat_ofNat', UInt64.toNat_one] at *
  omega

theorem value_eq (m : Mem) (ptr r : UInt64) :
    Kind.value m ptr r .obj = ptr + r + ((m (ptr + r)).toUInt64 + 1) := by
  simp only [Kind.value, UInt64.add_assoc]

theorem findEntry_hit (le : Bool) (m : Mem) (key : CString) (p : Parser) :
    ((findEntry le key p).val m).1 = true ↔ HasKey m (p.ptr + p.rpos) key := by
  simp only [findEntry, Read.val_bind, val_byte, Read.val_cond, Read.val_pure, HasKey]
  cases hlen : key.chars.length + 1 == (m (p.ptr + p.rpos)).toNat with
  | true =>
    have hlen' : key.chars.length + 1 = (m (p.ptr + p.rpos)).toNat := by simpa using hlen
    cases hcmp : (mcompare (key.chars ++ [0]) (p.ptr + p.rpos + 1)).val m <;> simp [hlen']
  | false =>
    have hlen' : ¬ key.chars.length + 1 = (m (p.ptr + p.rpos)).toNat := by simpa using hlen
    simp [hlen']

/-- Where one turn of a search leaves the parser. -/
theorem findEntry_next (le : Bool) (m : Mem) (key : CString) (p : Parser) :
    ((findEntry le key p).val m).2.ptr = p.ptr ∧ ((findEntry le key p).val m).2.wpos = p.wpos ∧
      ((findEntry le key p).val m).2.rpos = Kind.after le m p.ptr p.rpos .obj ∧
      ((findEntry le key p).val m).2.val = some (Kind.value m p.ptr p.rpos .obj) := by
  simp only [findEntry, Read.val_bind, val_byte, Read.val_cond, Read.val_pure]
  cases key.chars.length + 1 == (m (p.ptr + p.rpos)).toNat with
  | true => cases (mcompare (key.chars ++ [0]) (p.ptr + p.rpos + 1)).val m <;> exact ⟨rfl, rfl, rfl, rfl⟩
  | false => exact ⟨rfl, rfl, rfl, rfl⟩

theorem findEntry_reads (le : Bool) (hn : n.toNat < 2 ^ 63) (key : CString) {p : Parser}
    (hfits : Kind.Fits m n p.ptr p.rpos .obj) : ∀ a ∈ (findEntry le key p).reads m, a < n := by
  obtain ⟨hpos, hline, -⟩ := hfits
  intro a ha
  simp only [findEntry, Read.reads_bind, reads_byte, val_byte, reads_sizeofLine, Read.reads_cond, Read.reads_pure,
    Bool.cond_self, List.append_nil, List.mem_append, List.mem_singleton] at ha
  rcases ha with rfl | ha | ha
  · exact hpos
  · exact hline a ha
  · cases hlen : key.chars.length + 1 == (m (p.ptr + p.rpos)).toNat with
    | false =>
      rw [hlen] at ha
      simp at ha
    | true =>
      rw [hlen] at ha
      have hlen' : key.chars.length + 1 = (m (p.ptr + p.rpos)).toNat := by simpa using hlen
      obtain ⟨i, hi, rfl⟩ := mcompare_reads _ _ a ha
      have hhead : p.ptr + p.rpos + ((m (p.ptr + p.rpos)).toUInt64 + 1) < n := by
        rw [← value_eq]
        apply hline
        unfold lineReads
        split <;> simp
      have hbyte : (m (p.ptr + p.rpos)).toUInt64.toNat = (m (p.ptr + p.rpos)).toNat := by simp
      have hlt := (m (p.ptr + p.rpos)).toNat_lt
      refine key_reads_lt hn (by omega) hpos hhead ?_
      rw [hbyte, ← hlen']
      simpa using hi

/-! ### A search -/

theorem Steps.trans {k : Kind} {ptr w r s t : UInt64} (h : Steps le m k ptr w r s) (h' : Steps le m k ptr w s t) :
    Steps le m k ptr w r t := by
  induction h with
  | refl => exact h'
  | step hlt _ ih => exact .step hlt (ih h')

theorem Steps.one {k : Kind} {ptr w r s : UInt64} (h : Steps le m k ptr w r s) (hs : s < w) :
    Steps le m k ptr w r (k.after le m ptr s) := h.trans (.step hs (.refl _))

/-- The parser stands at an entry of a container of the frame. -/
structure Walks (opens : UInt64 → Kind → Prop) (le : Bool) (m : Mem) (n : UInt64) (k : Kind) (ptr w : UInt64)
    (p : Parser) : Prop where
  container : Container opens le m n k ptr w
  ptr_eq : p.ptr = ptr
  wpos_eq : p.wpos = w
  steps : Steps le m k ptr w 0 p.rpos

/-- What a search may return. -/
def Found.Good (opens : UInt64 → Kind → Prop) (le : Bool) (m : Mem) (n ptr w : UInt64) (key : CString) : Found → Prop
  | .found q => Walks opens le m n .obj ptr w q ∧ ∃ r, Steps le m .obj ptr w 0 r ∧ r < w ∧ HasKey m (ptr + r) key ∧
      q.val = some (Kind.value m ptr r .obj)
  | .missed q => Walks opens le m n .obj ptr w q
  | .running => True

/-- A loop whose positions stay inside the container reads only entries of the container. -/
theorem findLoop_spec (hn : n.toNat < 2 ^ 63) (hwf : WellFormed opens le m n) (key : CString) (limit : UInt64)
    {ptr w : UInt64} (inside : UInt64 → Prop)
    (hinside : ∀ r, inside r → r < limit → r < w ∧ inside (Kind.after le m ptr r .obj)) (i : Nat) (p : Parser)
    (hp : Walks opens le m n .obj ptr w p) (hin : inside p.rpos) :
    (∀ a ∈ (findLoop le key limit i p).reads m, a < n) ∧
      ((findLoop le key limit i p).val m).Good opens le m n ptr w key := by
  induction i generalizing p with
  | zero => simp [findLoop, Found.Good]
  | succ i ih =>
    obtain ⟨hcont, rfl, rfl, hsteps⟩ := hp
    simp only [findLoop]
    by_cases hlim : p.rpos < limit
    · rw [if_pos hlim]
      obtain ⟨hlt, hnext⟩ := hinside _ hin hlim
      have hreads := findEntry_reads le hn key (hwf _ _ _ hcont _ hsteps hlt)
      obtain ⟨hptr, hwpos, hrpos, hval⟩ := findEntry_next le m key p
      have hhit := findEntry_hit le m key p
      have hq : Walks opens le m n .obj p.ptr p.wpos ((findEntry le key p).val m).2 :=
        ⟨hcont, hptr, hwpos, hrpos ▸ hsteps.one hlt⟩
      simp only [Read.reads_bind, Read.val_bind, List.mem_append]
      cases hentry : (findEntry le key p).val m with
      | mk hit q =>
      rw [hentry] at hhit hrpos hval hq
      cases hit with
      | true =>
        have hkey := hhit.mp rfl
        refine ⟨?_, hq, p.rpos, hsteps, hlt, hkey, hval⟩
        intro a ha
        rcases ha with ha | ha
        · exact hreads a ha
        · simp at ha
      | false =>
        have hrest := ih q hq (hrpos ▸ hnext)
        refine ⟨?_, hrest.2⟩
        intro a ha
        rcases ha with ha | ha
        · exact hreads a ha
        · exact hrest.1 a ha
    · rw [if_neg hlim]
      exact ⟨by simp, hcont, rfl, rfl, hsteps⟩

theorem xlFind_spec (hn : n.toNat < 2 ^ 63) (hwf : WellFormed opens le m n) (key : CString) (i : Nat) {ptr w : UInt64}
    {p : Parser} (hp : Walks opens le m n .obj ptr w p) :
    (∀ a ∈ (xlFind le key i p).reads m, a < n) ∧ ((xlFind le key i p).val m).Good opens le m n ptr w key := by
  obtain ⟨hcont, rfl, rfl, hsteps⟩ := hp
  have hfirst := findLoop_spec hn hwf key p.wpos (fun _ => True) (fun _ _ hlt => ⟨hlt, trivial⟩) i p
    ⟨hcont, rfl, rfl, hsteps⟩ trivial
  -- the second loop follows the entries that led to the position of the parser
  have hback : ∀ r, Steps le m .obj p.ptr p.wpos r p.rpos → r < p.rpos →
      r < p.wpos ∧ Steps le m .obj p.ptr p.wpos (Kind.after le m p.ptr r .obj) p.rpos := by
    intro r hr hlt
    cases hr with
    | refl => exact absurd hlt (by simp)
    | step hw hrest => exact ⟨hw, hrest⟩
  simp only [xlFind, Read.reads_bind, Read.val_bind, List.mem_append]
  obtain ⟨hreads, hgood⟩ := hfirst
  cases hfound : (findLoop le key p.wpos i p).val m with
  | found q =>
    rw [hfound] at hgood
    exact ⟨fun a ha => ha.elim (hreads a) (by simp), hgood⟩
  | running => exact ⟨fun a ha => ha.elim (hreads a) (by simp), trivial⟩
  | missed q =>
    rw [hfound] at hgood
    obtain ⟨-, hptr, hwpos, -⟩ := hgood
    have hstart : Walks opens le m n .obj p.ptr p.wpos { q with rpos := 0 } := ⟨hcont, hptr, hwpos, .refl 0⟩
    obtain ⟨hreads', hgood'⟩ := findLoop_spec hn hwf key p.rpos
      (fun r => Steps le m .obj p.ptr p.wpos r p.rpos) hback i { q with rpos := 0 } hstart hsteps
    simp only [Read.reads_bind, Read.val_bind, List.mem_append]
    cases hfound' : (findLoop le key p.rpos i { q with rpos := 0 }).val m with
    | found q' =>
      rw [hfound'] at hgood'
      exact ⟨fun a ha => ha.elim (hreads a) fun ha => ha.elim (hreads' a) (by simp), hgood'⟩
    | running => exact ⟨fun a ha => ha.elim (hreads a) fun ha => ha.elim (hreads' a) (by simp), trivial⟩
    | missed q' =>
      rw [hfound'] at hgood'
      exact ⟨fun a ha => ha.elim (hreads a) fun ha => ha.elim (hreads' a) (by simp),
        hgood'.container, hgood'.ptr_eq, hgood'.wpos_eq, hgood'.steps⟩

/-! ### A word -/

theorem slength_reads (hn : n.toNat < 2 ^ 63) (i : Nat) {a : UInt64} (ha : Terminated m n a) :
    ∀ x ∈ (slength i a).reads m, x < n := by
  induction i generalizing a with
  | zero => simp [slength]
  | succ i ih =>
    obtain ⟨j, hj, hzero⟩ := ha
    have halt : a < n := UInt64.lt_iff_toNat_lt.mpr (by omega)
    intro x hx
    simp only [slength, Read.reads_bind, reads_byte, val_byte, Read.reads_cond, Read.reads_pure, List.append_nil,
      List.mem_append, List.mem_singleton] at hx
    rcases hx with rfl | hx
    · exact halt
    · cases hb : m a == 0 with
      | true => simp [hb] at hx
      | false =>
        have hne : m a ≠ 0 := by simpa using hb
        cases j with
        | zero => exact absurd (by simpa using hzero) hne
        | succ j =>
          have hstep : a + UInt64.ofNat (j + 1) = a + 1 + UInt64.ofNat j := by
            apply UInt64.toNat_inj.mp
            simp only [UInt64.toNat_add, UInt64.toNat_ofNat', UInt64.toNat_one]
            omega
          have hnat : (a + 1).toNat = a.toNat + 1 := by
            simp only [UInt64.toNat_add, UInt64.toNat_one]
            omega
          refine ih ⟨j, by omega, hstep ▸ hzero⟩ x ?_
          simpa [hb] using hx

/-- As long as no zero comes, `slength` goes on. -/
theorem slength_goes_on (j : Nat) {a : UInt64} (h : ∀ i < j, m (a + UInt64.ofNat i) ≠ 0) :
    a + UInt64.ofNat j ∈ (slength (j + 1) a).reads m := by
  induction j generalizing a with
  | zero => simp [slength]
  | succ j ih =>
    have hne : (m a == 0) = false := by simpa using h 0 (by omega)
    have hshift : ∀ i, a + 1 + UInt64.ofNat i = a + UInt64.ofNat (i + 1) := by
      intro i
      apply UInt64.toNat_inj.mp
      simp only [UInt64.toNat_add, UInt64.toNat_ofNat', UInt64.toNat_one]
      omega
    have hrest := ih (a := a + 1) (by
      intro i hi
      rw [hshift]
      exact h (i + 1) (by omega))
    rw [hshift] at hrest
    rw [slength]
    simp only [Read.reads_bind, reads_byte, val_byte, hne, cond_false, List.mem_append]
    exact Or.inr (Or.inl hrest)

theorem terminated_of_reads {a : UInt64} (h : ∀ i, ∀ x ∈ (slength i a).reads m, x < n) : Terminated m n a := by
  by_contra hno
  have halt : a < n := h 1 a (by simp [slength])
  have halt' := UInt64.lt_iff_toNat_lt.mp halt
  have hne : ∀ i < n.toNat - a.toNat, m (a + UInt64.ofNat i) ≠ 0 := by
    intro i hi hzero
    exact hno ⟨i, by omega, hzero⟩
  have hmem := h _ _ (slength_goes_on _ hne)
  have hend : a + UInt64.ofNat (n.toNat - a.toNat) = n := by
    apply UInt64.toNat_inj.mp
    have := n.toNat_lt
    simp only [UInt64.toNat_add, UInt64.toNat_ofNat']
    omega
  rw [hend] at hmem
  exact absurd hmem (by simp)

/-! ### Every call -/

@[simp] theorem xlParser_val (l : UInt64) :
    (xlParser le l).val m = ⟨0, (sizeofBody le l).val m, 0, none, l + xlineSize⟩ := by
  simp [xlParser]

@[simp] theorem xlParser_reads (l : UInt64) : (xlParser le l).reads m = lineReads m l := by
  simp [xlParser]

theorem xlNext_val {p : Parser} (h : p.rpos < p.wpos) :
    (xlNext le p).val m = (some (Kind.value m p.ptr p.rpos .obj),
      { p with key := p.ptr + p.rpos + 1, rpos := Kind.after le m p.ptr p.rpos .obj }) := by
  simp [xlNext, h, Kind.value, Kind.after]

theorem xlNext_reads {p : Parser} (h : p.rpos < p.wpos) :
    (xlNext le p).reads m = (p.ptr + p.rpos) :: lineReads m (Kind.value m p.ptr p.rpos .obj) := by
  simp [xlNext, h, Kind.value]

theorem xlListNext_val {p : Parser} (h : p.rpos < p.wpos) :
    (xlListNext le p).val m = (some (Kind.value m p.ptr p.rpos .list),
      { p with rpos := Kind.after le m p.ptr p.rpos .list }) := by
  simp [xlListNext, h, Kind.value, Kind.after]

theorem xlListNext_reads {p : Parser} (h : p.rpos < p.wpos) :
    (xlListNext le p).reads m = lineReads m (Kind.value m p.ptr p.rpos .list) := by
  simp [xlListNext, h, Kind.value]

/-- What a call on a well-formed frame may do. -/
structure Sane (opens : UInt64 → Kind → Prop) (le : Bool) (m : Mem) (n : UInt64) (k : Kind) (ptr w : UInt64)
    (r : Read (Option UInt64 × Option Parser)) : Prop where
  reads : ∀ a ∈ r.reads m, a < n
  value : ∀ v, (r.val m).1 = some v → ∃ s, Steps le m k ptr w 0 s ∧ s < w ∧ v = k.value m ptr s
  parser : ∀ q, (r.val m).2 = some q → Walks opens le m n k ptr w q

theorem Found.Good.sane {ptr w : UInt64} {key : CString} {f : Found} (h : f.Good opens le m n ptr w key) :
    (∀ v, f.result.1 = some v → ∃ s, Steps le m .obj ptr w 0 s ∧ s < w ∧ v = Kind.value m ptr s .obj) ∧
      ∀ q, f.result.2 = some q → Walks opens le m n .obj ptr w q := by
  cases f with
  | found q =>
    obtain ⟨hq, r, hr, hlt, -, hval⟩ := h
    refine ⟨?_, ?_⟩
    · intro v hv
      have hv' : q.val = some v := hv
      exact ⟨r, hr, hlt, by simpa [hval] using hv'.symm⟩
    · intro q' hq'
      cases hq'
      exact hq
  | missed q =>
    refine ⟨by simp [Found.result], ?_⟩
    intro q' hq'
    cases hq'
    exact h
  | running => simp [Found.result]

/-- A call that goes on to the next entry. -/
theorem Sane.entry {k : Kind} {ptr w : UInt64} {p q : Parser} {r : Read (Option UInt64 × Option Parser)}
    (hp : Walks opens le m n k ptr w p) (hlt : p.rpos < p.wpos) (hreads : ∀ a ∈ r.reads m, a < n)
    (hval : r.val m = (some (k.value m p.ptr p.rpos), some q)) (hptr : q.ptr = p.ptr) (hwpos : q.wpos = p.wpos)
    (hrpos : q.rpos = k.after le m p.ptr p.rpos) : Sane opens le m n k ptr w r := by
  obtain ⟨hcont, rfl, rfl, hsteps⟩ := hp
  constructor
  · exact hreads
  · intro v hv
    rw [hval] at hv
    exact ⟨p.rpos, hsteps, hlt, (Option.some.inj hv).symm⟩
  · intro q' hq
    rw [hval] at hq
    cases hq
    exact ⟨hcont, hptr, hwpos, hrpos ▸ hsteps.one hlt⟩

/-- A call at the end of the container. -/
theorem Sane.stop {k : Kind} {ptr w : UInt64} {p : Parser} {r : Read (Option UInt64 × Option Parser)}
    (hp : Walks opens le m n k ptr w p) (hreads : r.reads m = []) (hval : r.val m = (none, some p)) :
    Sane opens le m n k ptr w r := by
  constructor
  · simp [hreads]
  · simp [hval]
  · intro q hq
    rw [hval] at hq
    cases hq
    exact hp

theorem Call.sane_next (hwf : WellFormed opens le m n) {ptr w : UInt64} {p : Parser}
    (hp : Walks opens le m n .obj ptr w p) : Sane opens le m n .obj ptr w (Call.next.run le p) := by
  by_cases hlt : p.rpos < p.wpos
  · obtain ⟨hcont, rfl, rfl, hsteps⟩ := hp
    obtain ⟨hpos, hline, -⟩ := hwf _ _ _ hcont _ hsteps hlt
    have hreads : ∀ a ∈ (Call.next.run le p).reads m, a < n := by
      simpa [Call.run, xlNext_reads hlt] using ⟨hpos, hline⟩
    have hval : (Call.next.run le p).val m = (some (Kind.value m p.ptr p.rpos .obj),
        some { p with key := p.ptr + p.rpos + 1, rpos := Kind.after le m p.ptr p.rpos .obj }) := by
      simp [Call.run, xlNext_val hlt]
    exact Sane.entry ⟨hcont, rfl, rfl, hsteps⟩ hlt hreads hval rfl rfl rfl
  · exact Sane.stop hp (by simp [Call.run, xlNext, hlt]) (by simp [Call.run, xlNext, hlt])

theorem Call.sane_listNext (hwf : WellFormed opens le m n) {ptr w : UInt64} {p : Parser}
    (hp : Walks opens le m n .list ptr w p) : Sane opens le m n .list ptr w (Call.listNext.run le p) := by
  by_cases hlt : p.rpos < p.wpos
  · obtain ⟨hcont, rfl, rfl, hsteps⟩ := hp
    have hline := hwf _ _ _ hcont _ hsteps hlt
    have hreads : ∀ a ∈ (Call.listNext.run le p).reads m, a < n := by
      simpa [Call.run, xlListNext_reads hlt, Kind.Fits] using hline
    have hval : (Call.listNext.run le p).val m = (some (Kind.value m p.ptr p.rpos .list),
        some { p with rpos := Kind.after le m p.ptr p.rpos .list }) := by
      simp [Call.run, xlListNext_val hlt]
    exact Sane.entry ⟨hcont, rfl, rfl, hsteps⟩ hlt hreads hval rfl rfl rfl
  · exact Sane.stop hp (by simp [Call.run, xlListNext, hlt]) (by simp [Call.run, xlListNext, hlt])

theorem Call.sane_find (hn : n.toNat < 2 ^ 63) (hwf : WellFormed opens le m n) (key : CString) (i : Nat)
    {ptr w : UInt64} {p : Parser} (hp : Walks opens le m n .obj ptr w p) :
    Sane opens le m n .obj ptr w ((Call.find key i).run le p) := by
  obtain ⟨hreads, hgood⟩ := xlFind_spec hn hwf key i hp
  obtain ⟨hvalue, hparser⟩ := hgood.sane
  exact ⟨by simpa [Call.run] using hreads, by simpa [Call.run] using hvalue, by simpa [Call.run] using hparser⟩

theorem Call.sane_findWord (hn : n.toNat < 2 ^ 63) (hwf : WellFormed opens le m n) (key : CString) (i : Nat)
    {ptr w : UInt64} {p : Parser} (hp : Walks opens le m n .obj ptr w p) :
    Sane opens le m n .obj ptr w ((Call.findWord key i).run le p) := by
  obtain ⟨hreads, hgood⟩ := xlFind_spec hn hwf key i hp
  obtain ⟨hvalue, hparser⟩ := hgood.sane
  cases hfound : (xlFind le key i p).val m with
  | found q =>
    rw [hfound] at hgood hvalue hparser
    obtain ⟨-, r, hr, hlt, hkey, hval⟩ := hgood
    obtain ⟨-, -, hword⟩ := hwf _ _ _ hp.container _ hr hlt
    have hslen := slength_reads hn i (hword key hkey)
    constructor
    · intro a ha
      simp only [Call.run, findWordLength, Read.reads_bind, hfound, hval, Read.reads_pure, List.append_nil,
        List.mem_append] at ha
      rcases ha with ha | ha
      · exact hreads a ha
      · exact hslen a ha
    · simpa [Call.run, findWordLength, hfound, hval] using hvalue
    · simpa [Call.run, findWordLength, hfound, hval] using hparser
  | missed q =>
    rw [hfound] at hvalue hparser
    constructor
    · simpa [Call.run, findWordLength, hfound] using hreads
    · simpa [Call.run, findWordLength, hfound] using hvalue
    · simpa [Call.run, findWordLength, hfound] using hparser
  | running =>
    constructor
    · simpa [Call.run, findWordLength, hfound] using hreads
    · simp [Call.run, findWordLength, hfound, Found.result]
    · simp [Call.run, findWordLength, hfound, Found.result]

theorem Call.sane (hn : n.toNat < 2 ^ 63) (hwf : WellFormed opens le m n) {k : Kind} (c : Call k) {ptr w : UInt64}
    {p : Parser} (hp : Walks opens le m n k ptr w p) : Sane opens le m n k ptr w (c.run le p) := by
  cases c with
  | next => exact sane_next hwf hp
  | find key i => exact sane_find hn hwf key i hp
  | findWord key i => exact sane_findWord hn hwf key i hp
  | listNext => exact sane_listNext hwf hp

/-! ### The parsers of a received frame -/

theorem Reach.walks (hn : n.toNat < 2 ^ 63) (hwf : WellFormed opens le m n)
    (hroot : (xlParser le frameLine).val m = ⟨0, n, 0, none, 0⟩) {k : Kind} {p : Parser} (h : Reach opens le m k p) :
    ∃ ptr w, Walks opens le m n k ptr w p := by
  induction h with
  | root =>
    rw [hroot]
    exact ⟨0, n, .root, rfl, rfl, .refl 0⟩
  | call c _ hq ih =>
    obtain ⟨ptr, w, hp⟩ := ih
    exact ⟨ptr, w, (c.sane hn hwf hp).parser _ hq⟩
  | enter c _ hv htype ih =>
    obtain ⟨ptr, w, hp⟩ := ih
    obtain ⟨s, hs, hlt, rfl⟩ := (c.sane hn hwf hp).value _ hv
    rw [xlParser_val]
    exact ⟨_, _, .inside hp.container hs hlt htype, rfl, rfl, .refl 0⟩

theorem Contained.of_wellFormed (hn : n.toNat < 2 ^ 63) (hwf : WellFormed opens le m n)
    (hroot : (xlParser le frameLine).val m = ⟨0, n, 0, none, 0⟩) : Contained opens le m n := by
  intro k p hp c
  obtain ⟨ptr, w, hwalk⟩ := hp.walks hn hwf hroot
  have hsane := c.sane hn hwf hwalk
  refine ⟨hsane.reads, ?_⟩
  intro v k' hv _ a ha
  obtain ⟨s, hs, hlt, rfl⟩ := hsane.value v hv
  have hfits := hwf _ _ _ hwalk.container _ hs hlt
  rw [xlParser_reads] at ha
  cases k with
  | obj => exact hfits.2.1 a ha
  | list => exact hfits a ha

/-- A parser at `r` can be taken on to every later entry. -/
theorem Reach.steps {k : Kind} {ptr w r s : UInt64} (h : Steps le m k ptr w r s) {p : Parser}
    (hp : Reach opens le m k p) (hptr : p.ptr = ptr) (hwpos : p.wpos = w) (hrpos : p.rpos = r) :
    ∃ q, Reach opens le m k q ∧ q.ptr = ptr ∧ q.wpos = w ∧ q.rpos = s := by
  induction h generalizing p with
  | refl r => exact ⟨p, hp, hptr, hwpos, hrpos⟩
  | step hlt _ ih =>
    subst hptr hwpos hrpos
    cases k with
    | obj =>
      have hq : ((Call.next.run le p).val m).2 =
          some { p with key := p.ptr + p.rpos + 1, rpos := Kind.after le m p.ptr p.rpos .obj } := by
        simp [Call.run, xlNext_val hlt]
      exact ih (hp.call .next hq) rfl rfl rfl
    | list =>
      have hq : ((Call.listNext.run le p).val m).2 = some { p with rpos := Kind.after le m p.ptr p.rpos .list } := by
        simp [Call.run, xlListNext_val hlt]
      exact ih (hp.call .listNext hq) rfl rfl rfl

theorem Reach.container (hroot : (xlParser le frameLine).val m = ⟨0, n, 0, none, 0⟩) {k : Kind} {ptr w : UInt64}
    (h : Container opens le m n k ptr w) : ∃ p, Reach opens le m k p ∧ p.ptr = ptr ∧ p.wpos = w ∧ p.rpos = 0 := by
  induction h with
  | root => exact ⟨_, .root, by rw [hroot], by rw [hroot], by rw [hroot]⟩
  | @inside k k' ptr w r _ hs hlt htype ih =>
    obtain ⟨p, hp, hptr, hwpos, hrpos⟩ := ih
    obtain ⟨q, hq, rfl, rfl, rfl⟩ := hp.steps hs hptr hwpos hrpos
    refine ⟨(xlParser le (k.value m q.ptr q.rpos)).val m, ?_, by simp, by simp, by simp⟩
    cases k with
    | obj => exact hq.enter .next (by simp [Call.run, xlNext_val hlt]) htype
    | list => exact hq.enter .listNext (by simp [Call.run, xlListNext_val hlt]) htype

/-- A search that starts at an entry with the key looks for the end of its word. -/
theorem findWord_here {key : CString} {p : Parser} (hlt : p.rpos < p.wpos) (hkey : HasKey m (p.ptr + p.rpos) key)
    (i : Nat) : ∀ a ∈ (slength i (Kind.value m p.ptr p.rpos .obj + xlineSize)).reads m,
      a ∈ ((Call.findWord key i).run le p).reads m := by
  intro a ha
  cases i with
  | zero => simp [slength] at ha
  | succ i =>
    have hhit := (findEntry_hit le _ key p).mpr hkey
    have hval := (findEntry_next le m key p).2.2.2
    cases hentry : (findEntry le key p).val m with
    | mk hit q =>
    rw [hentry] at hhit hval
    simp only at hhit hval
    subst hhit
    simp only [Call.run, findWordLength, xlFind, findLoop, hlt, if_true, Read.reads_bind, Read.val_bind, hentry,
      Read.val_pure, hval, List.mem_append]
    exact Or.inl (Or.inr (Or.inl ha))

theorem WellFormed.of_contained (hroot : (xlParser le frameLine).val m = ⟨0, n, 0, none, 0⟩)
    (h : Contained opens le m n) : WellFormed opens le m n := by
  intro k ptr w hcont r hs hlt
  obtain ⟨p, hp, hptr, hwpos, hrpos⟩ := Reach.container hroot hcont
  obtain ⟨q, hq, rfl, rfl, rfl⟩ := hp.steps hs hptr hwpos hrpos
  cases k with
  | obj =>
    have hreads := (h _ _ hq .next).1
    simp only [Call.run, Read.reads_bind, xlNext_reads hlt, Read.reads_pure, List.append_nil] at hreads
    refine ⟨hreads _ List.mem_cons_self, fun a ha => hreads a (List.mem_cons_of_mem _ ha), ?_⟩
    intro key hkey
    apply terminated_of_reads
    intro i a ha
    exact (h _ _ hq (.findWord key i)).1 a (findWord_here hlt hkey i a ha)
  | list =>
    have hreads := (h _ _ hq .listNext).1
    simpa [Call.run, xlListNext_reads hlt, Kind.Fits] using hreads

end

theorem Body.toNat_wpos (b : Body) : b.wpos.toNat = b.bytes.length := by
  have := b.short
  simp only [Body.wpos, UInt64.toNat_ofNat']
  omega

/-- `xl_fixed` has written the header of the frame. -/
theorem Body.stands (b : Body) (le : Bool) (beyond : Mem) :
    Stands (b.mem le beyond) frameLine (n2b le b.wpos xlineTypeObj) := by
  intro i hi
  have hi' : i < 9 := by simpa using hi
  have hwpos := b.toNat_wpos
  have hshort := b.short
  have hline : frameLine.toNat = 2 ^ 64 - 9 := by decide
  have hsum : (frameLine + UInt64.ofNat i).toNat = 2 ^ 64 - 9 + i := by
    simp only [UInt64.toNat_add, UInt64.toNat_ofNat', hline]
    omega
  have hout : ¬ frameLine + UInt64.ofNat i < b.wpos := by
    rw [UInt64.lt_iff_toNat_lt]
    omega
  have hin : frameLine ≤ frameLine + UInt64.ofNat i := by
    rw [UInt64.le_iff_toNat_le]
    omega
  have hback : (frameLine + UInt64.ofNat i - frameLine).toNat = i := by
    rw [UInt64.toNat_sub, hsum, hline]
    omega
  simp only [Body.mem, hout, hin, if_true, if_false, hback]

/-- For every received body, whichever values are opened: all that is read lies below `wpos` if and only if the body
is well-formed. -/
theorem parsing_contained (opens : UInt64 → Kind → Prop) (b : Body) (le : Bool) (beyond : Mem) :
    Contained opens le (b.mem le beyond) b.wpos ↔ WellFormed opens le (b.mem le beyond) b.wpos := by
  have hn : b.wpos.toNat < 2 ^ 63 := by
    rw [b.toNat_wpos]
    exact b.short
  have hbody : (sizeofBody le frameLine).val (b.mem le beyond) = b.wpos :=
    (b.stands le beyond).sizeofBody (by decide)
  have hroot : (xlParser le frameLine).val (b.mem le beyond) = ⟨0, b.wpos, 0, none, 0⟩ := by
    rw [xlParser_val, hbody]
    rfl
  exact ⟨WellFormed.of_contained hroot, fun hwf => Contained.of_wellFormed hn hwf hroot⟩

/-- One byte, which announces a key of five. -/
def oneByte : Body := ⟨[5], by decide⟩

/-- The header behind the key is looked for at the offset 6, though no value is opened. -/
theorem parsing_escapes : ¬ Contained (fun _ _ => False) false (oneByte.mem false fun _ => 0) oneByte.wpos := by
  intro h
  have hreads := (h _ _ .root .next).1
  have hoffset := hreads 6 (by decide +kernel)
  exact absurd hoffset (by decide)

end Wenas.Xline
