import Wenas.Xline.Decode

/-!
# Printing a line

`xl_printf` prints an object into a buffer of twice the size of its line. `xl_format` walks through it, and every line of
the text is one call of `snprintf`, which returns the length of the text in full. Only that length counts here.
-/
namespace Wenas.Xline

/-! ### The lengths of the texts -/

/-- `%*s`, or any conversion with a width. -/
def padded (width len : Nat) : Nat := max width len

/-- `%lu`. -/
def natLen (n : Nat) : Nat := max 1 (Nat.digits 10 n).length

/-- `%ld`. -/
def intLen (n : UInt64) : Nat := if n.toNat < 2 ^ 63 then natLen n.toNat else 1 + natLen (2 ^ 64 - n.toNat)

/-- The nearest integer to `n / d`, ties to even. -/
def roundDiv (n d : Nat) : Nat :=
  let q := n / d
  let r := n % d
  if d < 2 * r ∨ d = 2 * r ∧ q % 2 = 1 then q + 1 else q

/-- A finite binary64 without its sign, times a million and rounded. -/
def millionths (exp frac : Nat) : Nat :=
  let sig := if exp = 0 then frac else 2 ^ 52 + frac
  if 1075 ≤ exp then sig * 2 ^ (exp - 1075) * 10 ^ 6 else roundDiv (sig * 10 ^ 6) (2 ^ (1075 - max exp 1))

/-- `%lf`: six digits behind the point, and `inf` or `nan` without them. -/
def realLen (bits : UInt64) : Nat :=
  let exp := bits.toNat / 2 ^ 52 % 2 ^ 11
  let sign := if bits.toNat < 2 ^ 63 then 0 else 1
  if exp = 2 ^ 11 - 1 then sign + "inf".length
  else sign + natLen (millionths exp (bits.toNat % 2 ^ 52) / 10 ^ 6) + ".000000".length

/-- The first line of an object. -/
def opened (label depth : Nat) : Nat :=
  if depth = 1 then "\x7b\n".length
  else if label = 0 then padded (depth * 4) 0 + "\x7b\n".length
  else padded (depth * 4) label + ": \x7b\n".length

/-- The last line of an object. -/
def closed (depth : Nat) : Nat :=
  if depth = 1 then padded ((depth - 1) * 4) 0 + "\x7d\n".length else padded (depth * 4) 0 + "\x7d,\n".length

def listOpened (label depth : Nat) : Nat := padded ((depth + 1) * 4) label + ": [\n".length

def listClosed (depth : Nat) : Nat := "  ".length + padded (depth * 4) 0 + "],\n".length

/-- The line of a value that is no object and no list. -/
def scalarLine (label depth : Nat) (bin : Bool) (len : Nat) : Kind → Nat
  | .obj => padded ((depth + 1) * 4) label + ": ".length + len + ",\n".length
  | .list => if bin then "    bin,\n".length else "    ".length + padded ((depth + 1) * 4) len + ",\n".length

/-! ### The walk -/

/-- `*pos`, and where it stood before each `snprintf`. -/
structure Out where
  pos : UInt64
  calls : List UInt64

def Out.print (o : Out) (len : Nat) : Out := ⟨o.pos + UInt64.ofNat len, o.calls ++ [o.pos]⟩

/-- The key of an entry; the items of a list have none. -/
def labelLen (m : Mem) (n : Nat) (q : Parser) : Kind → Option Nat
  | .obj => (slength n q.key).val m
  | .list => some 0

/-- What is printed of a value; of binary data, the size. -/
def scalarLen (le : Bool) (m : Mem) (n : Nat) (v : UInt64) : Option Nat :=
  if m v = xlineTypeInt then some (intLen ((b2u le v).val m))
  else if m v = xlineTypeUint then some (natLen ((b2u le v).val m).toNat)
  else if m v = xlineTypeReal then some (realLen ((b2u le v).val m))
  else if m v = xlineTypeStr then (slength n (v + xlineSize)).val m
  else some ("size[]".length + natLen ((sizeofBody le v).val m).toNat)

def isScalar (m : Mem) (v : UInt64) : Bool :=
  m v = xlineTypeInt || m v = xlineTypeUint || m v = xlineTypeReal || m v = xlineTypeStr || m v = xlineTypeBin

/-- `xl_format` of an object, with the loop through its entries. -/
def formatObject (loop : Parser → Nat → Out → Option Out) (le : Bool) (m : Mem) (xl : UInt64) (label depth : Nat)
    (o : Out) :
    Option Out :=
  (loop ((xlParser le xl).val m) depth (o.print (opened label depth))).map fun o => o.print (closed depth)

/-- The loops of `xl_format`, through the entries of an object and through the items of a list in it, where a list is
passed over; `n` bounds the turns and the characters of a string. -/
def formatLoop (le : Bool) (m : Mem) : Nat → Kind → Parser → Nat → Out → Option Out
  | 0, _, _, _, _ => none
  | n + 1, k, p, depth, o =>
    match k.call le m p with
    | (none, _) => some o
    | (some v, q) =>
      if isScalar m v then do
        let label ← labelLen m n q k
        let len ← scalarLen le m n v
        formatLoop le m n k q depth (o.print (scalarLine label depth (m v = xlineTypeBin) len k))
      else if m v = xlineTypeObj then do
        let label ← labelLen m n q k
        let o ← formatObject (formatLoop le m n .obj) le m v label (depth + 1) o
        formatLoop le m n k q depth o
      else if m v = xlineTypeList then
        match k with
        | .obj => do
          let label ← labelLen m n q .obj
          let o ← formatLoop le m n .list ((xlParser le v).val m) depth (o.print (listOpened label depth))
          formatLoop le m n .obj q depth (o.print (listClosed depth))
        | .list => formatLoop le m n .list q depth o
      else formatLoop le m n k q depth o

/-- `xl_format`. -/
def xlFormat (le : Bool) (m : Mem) (n : Nat) (xl : UInt64) (label depth : Nat) (o : Out) : Option Out :=
  formatObject (formatLoop le m n .obj) le m xl label depth o

/-- `xl_printf`. -/
def xlPrintf (le : Bool) (m : Mem) (n : Nat) (xl : UInt64) : Option Out := xlFormat le m n xl 0 1 ⟨0, []⟩

/-- The buffer of `xl_printf`. -/
def printSize (le : Bool) (m : Mem) (xl : UInt64) : UInt64 := (sizeofLine le xl).val m * 2

/-! ### The lines of a tree -/

def Scalar.len : Scalar → Nat
  | .int n => intLen n
  | .uint n => natLen n.toNat
  | .real bits => realLen bits
  | .str bs => (bs.takeWhile (· != 0)).length
  | .bin bs => "size[]".length + natLen bs.length

def Scalar.isBin : Scalar → Bool
  | .bin _ => true
  | _ => false

def Label.len : {k : Kind} → Label k → Nat
  | .obj, key => key.chars.length
  | .list, _ => 0

namespace Tree

/-- The lengths of the lines, from the top. -/
def lines : {k : Kind} → Tree k → Nat → List Nat
  | _, .nil, _ => []
  | k, .leaf label s rest, depth => scalarLine (Label.len label) depth s.isBin s.len k :: rest.lines depth
  | _, @node _ .obj label content rest, depth =>
    opened (Label.len label) (depth + 1) :: content.lines (depth + 1) ++ closed (depth + 1) :: rest.lines depth
  | .obj, @node _ .list label content rest, depth =>
    listOpened (Label.len label) depth :: content.lines depth ++ listClosed depth :: rest.lines depth
  | .list, @node _ .list _ _ rest, depth => rest.lines depth

/-- Every string has a zero in it. -/
def Words : {k : Kind} → Tree k → Prop
  | _, .nil => True
  | _, .leaf _ (.str bs) rest => 0 ∈ bs ∧ rest.Words
  | _, .leaf _ _ rest => rest.Words
  | _, .node _ content rest => content.Words ∧ rest.Words

end Tree

section

variable {le : Bool} {m : Mem} {k : Kind} {n : Nat}

/-- A string ends at its first zero. -/
theorem slength_word {a : UInt64} {bs : List UInt8} (hzero : 0 ∈ bs) (h : Stands m a bs) (hn : bs.length ≤ n) :
    (slength n a).val m = some (bs.takeWhile (· != 0)).length := by
  induction bs generalizing a n with
  | nil => cases hzero
  | cons b bs ih =>
    rw [List.length_cons] at hn
    obtain ⟨n, rfl⟩ : ∃ i, n = i + 1 := ⟨n - 1, by omega⟩
    have hfirst : m a = b := by simpa using h 0 (by simp)
    by_cases hb : b = 0
    · have hend : (m a == 0) = true := by simp [hfirst, hb]
      simp [slength, hend, hb]
    · have hgo : (m a == 0) = false := by simpa [hfirst] using hb
      have hrest : 0 ∈ bs := (List.mem_cons.mp hzero).resolve_left (Ne.symm hb)
      have htail : Stands m (a + 1) bs := (stands_append.mp (show Stands m a ([b] ++ bs) from h)).2
      have hlen := ih (n := n) hrest htail (by omega)
      simp [slength, hgo, hb, hlen]

theorem labelLen_entry {p q : Parser} {v : UInt64} {e : Label k × Value}
    (h : Stands m (p.ptr + p.rpos) (entryBytes le e))
    (hlt : p.rpos < p.wpos) (hcall : k.call le m p = (some v, q)) (hn : (entryBytes le e).length ≤ n) :
    labelLen m n q k = some (Label.len e.1) := by
  cases k with
  | list => rfl
  | obj =>
    have hkey : q.key = p.ptr + p.rpos + 1 := by
      rw [Kind.call, xlNext_val hlt] at hcall
      rw [← (Prod.mk.inj hcall).2]
    obtain ⟨hentry, -⟩ := stands_append.mp h
    have hcons : labelBytes e.1 = [UInt8.ofNat (e.1.chars.length + 1)] ++ (e.1.chars ++ [0]) := rfl
    rw [hcons] at hentry
    have hchars : Stands m (p.ptr + p.rpos + 1) (e.1.chars ++ [0]) := (stands_append.mp hentry).2
    have hlen : (e.1.chars ++ [0]).length ≤ n := by
      simp only [entryBytes, hcons, List.length_append, List.length_singleton] at hn ⊢
      omega
    have htake : (e.1.chars ++ [0]).takeWhile (· != 0) = e.1.chars := by
      rw [List.takeWhile_append_of_pos]
      · simp
      · intro b hb
        simpa using fun hzero : b = 0 => e.1.noNul (hzero ▸ hb)
    rw [labelLen, hkey, slength_word (by simp) hchars hlen, htake]
    rfl

theorem scalarLen_stands {v : UInt64} {s : Scalar} (h : Stands m v (s.bytes le)) (hwords : ∀ bs, s = .str bs → 0 ∈ bs)
    (hn : s.body.length ≤ n) (hshort : s.body.length < 2 ^ 64) :
    isScalar m v = true ∧ scalarLen le m n v = some s.len ∧ decide (m v = xlineTypeBin) = s.isBin := by
  obtain ⟨hhead, hbody⟩ := stands_append.mp h
  rw [length_n2b] at hbody
  have htype := hhead.type
  have hword := hhead.b2u
  cases s with
  | int n =>
    simp [isScalar, scalarLen, htype, hword, Scalar.type, Scalar.word, Scalar.len, Scalar.isBin,
      xlineTypeInt, xlineTypeBin]
  | uint n =>
    simp [isScalar, scalarLen, htype, hword, Scalar.type, Scalar.word, Scalar.len, Scalar.isBin, xlineTypeInt,
      xlineTypeUint,
      xlineTypeBin]
  | real bits =>
    simp [isScalar, scalarLen, htype, hword, Scalar.type, Scalar.word, Scalar.len, Scalar.isBin, xlineTypeInt,
      xlineTypeUint,
      xlineTypeReal, xlineTypeBin]
  | str bs =>
    have hlen := slength_word (n := n) (hwords bs rfl) hbody hn
    have hsame : (slength n (v + xlineSize)).val m = some (bs.takeWhile (· != 0)).length := hlen
    simp [isScalar, scalarLen, htype, Scalar.type, Scalar.len, Scalar.isBin, xlineTypeInt, xlineTypeUint,
      xlineTypeReal, xlineTypeStr, xlineTypeBin, hsame]
  | bin bs =>
    have hbin : ¬ (Scalar.bin bs).type ≤ xlineTypeReal := (by decide : ¬ xlineTypeBin ≤ xlineTypeReal)
    have hsize : ((sizeofBody le v).val m).toNat = bs.length := by
      have hlt : bs.length < 2 ^ 64 := hshort
      rw [hhead.sizeofBody hbin, Scalar.word, UInt64.toNat_ofNat', Nat.mod_eq_of_lt hlt]
    simp [isScalar, scalarLen, htype, Scalar.type, Scalar.len, Scalar.isBin, xlineTypeInt, xlineTypeUint,
      xlineTypeReal, xlineTypeStr, xlineTypeBin, hsize]

/-- The walk prints the lines of the tree. -/
theorem formatLoop_stands (t : Tree k) {p : Parser} {n depth : Nat} {o : Out} (hwords : t.Words)
    (h : Stands m (p.ptr + p.rpos) (t.bytes le)) (hend : p.rpos.toNat + (t.bytes le).length = p.wpos.toNat)
    (hn : (t.bytes le).length < n) : formatLoop le m n k p depth o = some ((t.lines depth).foldl Out.print o) := by
  induction t generalizing p n depth o with
  | @nil k =>
    obtain ⟨n, rfl⟩ : ∃ i, n = i + 1 := ⟨n - 1, by omega⟩
    have hstop : ¬ p.rpos < p.wpos := by
      rw [UInt64.lt_iff_toNat_lt]
      simp only [Tree.bytes, List.length_nil] at hend
      omega
    have hnone : k.call le m p = (none, p) := by cases k <;> simp [Kind.call, xlNext, xlListNext, hstop]
    simp [formatLoop, hnone, Tree.lines]
  | @leaf k label s rest ih =>
    obtain ⟨n, rfl⟩ : ∃ i, n = i + 1 := ⟨n - 1, by omega⟩
    have hbytes : (Tree.leaf label s rest).bytes le = entryBytes le (label, .scalar s) ++ rest.bytes le := by
      rw [← Value.bytes_cons]
      rfl
    rw [hbytes] at h hend hn
    obtain ⟨v, q, hcall, -, hvalue, hwpos, hrest, hstop⟩ := walk_entry h hend
    rw [List.length_append] at hend hn
    have hlt := p.wpos.toNat_lt
    have hentry : 9 ≤ (entryBytes le (label, Value.scalar s)).length ∧
        s.body.length + 9 ≤ (entryBytes le (label, Value.scalar s)).length := by
      simp only [entryBytes, List.length_append, Value.length_bytes, Value.body]
      omega
    have hroom : p.rpos.toNat + (entryBytes le (label, Value.scalar s)).length ≤ p.wpos.toNat := by omega
    have hgo := lt_of_entry hroom
    have hlabel := labelLen_entry (stands_append.mp h).1 hgo hcall (n := n) (by omega)
    have hstr : ∀ bs, s = .str bs → 0 ∈ bs := by
      rintro bs rfl
      exact hwords.1
    have hrestWords : rest.Words := by
      cases s <;> first | exact hwords | exact hwords.2
    obtain ⟨hscalar, hlen, hbin⟩ := scalarLen_stands (n := n) hvalue hstr (by omega) (by omega)
    rw [formatLoop, hcall]
    dsimp only
    rw [if_pos hscalar, hlabel, hlen, hbin]
    exact ih hrestWords hrest hstop (by omega)
  | @node k inner label content rest ihcontent ih =>
    obtain ⟨n, rfl⟩ : ∃ i, n = i + 1 := ⟨n - 1, by omega⟩
    have hbytes : (Tree.node label content rest).bytes le = entryBytes le (label,
        .nested content) ++ rest.bytes le := by
      rw [← Value.bytes_cons]
      rfl
    rw [hbytes] at h hend hn
    obtain ⟨v, q, hcall, -, hvalue, hwpos, hrest, hstop⟩ := walk_entry h hend
    rw [List.length_append] at hend hn
    have hlt := p.wpos.toNat_lt
    have hentry : (content.bytes le).length + 9 ≤ (entryBytes le (label, Value.nested content)).length := by
      simp only [entryBytes, List.length_append, Value.length_bytes, Value.body]
      omega
    have hroom : p.rpos.toNat + (entryBytes le (label, Value.nested content)).length ≤ p.wpos.toNat := by omega
    have hgo := lt_of_entry hroom
    have hlabel := labelLen_entry (stands_append.mp h).1 hgo hcall (n := n) (by omega)
    have htype : m v = inner.type := (stands_append.mp hvalue).1.type
    have hscalar : isScalar m v = false := by
      rw [isScalar, htype]
      cases inner <;> decide
    have hparser := xlParser_stands hvalue
    have hinside : ∀ (d : Nat) (o : Out), formatLoop le m n inner ((xlParser le v).val m) d o =
        some ((content.lines d).foldl Out.print o) := by
      intro d o
      rw [hparser]
      refine ihcontent hwords.1 (by simpa [Value.body] using Value.stands_body hvalue) ?_ (by omega)
      simpa [UInt64.toNat_ofNat'] using (Nat.mod_eq_of_lt (by omega)).symm
    have hnext : ∀ o : Out, formatLoop le m n k q depth o = some ((rest.lines depth).foldl Out.print o) :=
      fun o => ih hwords.2 hrest hstop (by omega)
    rw [formatLoop, hcall]
    dsimp only
    rw [if_neg (by simp [hscalar])]
    cases inner with
    | obj =>
      have hobj : m v = xlineTypeObj := htype
      rw [if_pos hobj, hlabel]
      simp [formatObject, hinside, hnext, Tree.lines, -xlParser_val]
    | list =>
      have hlist : m v = xlineTypeList := htype
      have hobj : m v ≠ xlineTypeObj := by
        rw [hlist]
        decide
      rw [if_neg hobj, if_pos hlist]
      cases k with
      | obj =>
        dsimp only
        rw [hlabel]
        simp [hinside, hnext, Tree.lines, -xlParser_val]
      | list => simpa [Tree.lines] using hnext o

/-! ### Where the lines begin -/

/-- Up to the end of the buffer nothing wraps around: the last line begins where the ones before it end. -/
theorem print_calls {size : UInt64} (ls : List Nat) (o : Out) (hls : ∀ l ∈ ls, size.toNat + l < 2 ^ 64) :
    ∃ begins, (ls.foldl Out.print o).calls = o.calls ++ begins ∧
      ((∀ pos ∈ begins, pos ≤ size) ↔ (ls ≠ [] → o.pos.toNat + ls.dropLast.sum ≤ size.toNat)) := by
  induction ls generalizing o with
  | nil => exact ⟨[], by simp, by simp⟩
  | cons l ls ih =>
    obtain ⟨begins, hcalls, hiff⟩ := ih (o.print l) fun x hx => hls x (List.mem_cons_of_mem _ hx)
    refine ⟨o.pos :: begins, by rw [List.foldl_cons, hcalls]; simp [Out.print], ?_⟩
    rw [List.forall_mem_cons, hiff]
    have hl := hls l List.mem_cons_self
    have hbegin : o.pos ≤ size ↔ o.pos.toNat ≤ size.toNat := UInt64.le_iff_toNat_le
    rw [hbegin]
    cases ls with
    | nil => simp
    | cons x ls =>
      have hpos : o.pos.toNat ≤ size.toNat → (o.print l).pos.toNat = o.pos.toNat + l := by
        intro hle
        simp only [Out.print, UInt64.toNat_add, UInt64.toNat_ofNat']
        omega
      simp only [ne_eq, reduceCtorEq, not_false_eq_true, forall_const, List.dropLast_cons_cons, List.sum_cons]
      constructor
      · rintro ⟨hle, hrest⟩
        rw [hpos hle] at hrest
        omega
      · intro hsum
        have hle : o.pos.toNat ≤ size.toNat := by omega
        rw [hpos hle]
        omega

theorem natLen_le {n k : Nat} (h : n < 10 ^ k) : natLen n ≤ max 1 k :=
  max_le_max le_rfl ((Nat.digits_length_le_iff (by decide) n).mpr h)

theorem natLen_le_succ (n : Nat) : natLen n ≤ n + 1 := by
  have h := natLen_le (Nat.lt_pow_self (by decide : 1 < 10) : n < 10 ^ n)
  omega

theorem word_lt (n : UInt64) : n.toNat < 10 ^ 20 := lt_of_lt_of_le n.toNat_lt (by decide)

theorem intLen_le (n : UInt64) : intLen n ≤ 21 := by
  have hn := word_lt n
  unfold intLen
  split
  · have h := natLen_le hn
    omega
  · have h := natLen_le (show 2 ^ 64 - n.toNat < 10 ^ 20 by omega)
    omega

theorem roundDiv_le (n d : Nat) : roundDiv n d ≤ n + 1 := by
  have hq := Nat.div_le_self n d
  unfold roundDiv
  dsimp only
  split <;> omega

/-- The largest binary64 has 309 digits; a rougher bound is enough. -/
theorem millionths_le {exp frac k : Nat} (hexp : exp < 2 ^ 11) (hfrac : frac < 2 ^ 52) (hk : 1032 ≤ k) :
    millionths exp frac ≤ 10 ^ k := by
  have hsig : (if exp = 0 then frac else 2 ^ 52 + frac) < 10 ^ 53 := by
    have hten : 2 ^ 53 ≤ 10 ^ 53 := Nat.pow_le_pow_left (by decide) 53
    split <;> omega
  unfold millionths
  dsimp only
  generalize (if exp = 0 then frac else 2 ^ 52 + frac) = sig at hsig ⊢
  split
  · have hshift : exp - 1075 ≤ 973 := by omega
    generalize exp - 1075 = shift at hshift ⊢
    calc sig * 2 ^ shift * 10 ^ 6 ≤ 10 ^ 53 * 10 ^ shift * 10 ^ 6 :=
          Nat.mul_le_mul_right _ (Nat.mul_le_mul hsig.le (Nat.pow_le_pow_left (by decide) shift))
      _ = 10 ^ (53 + shift + 6) := by rw [pow_add, pow_add]
      _ ≤ 10 ^ k := Nat.pow_le_pow_right (by decide) (by omega)
  · have hround := roundDiv_le (sig * 10 ^ 6) (2 ^ (1075 - max exp 1))
    have hmul : sig * 10 ^ 6 < 10 ^ (53 + 6) := by
      rw [pow_add]
      exact Nat.mul_lt_mul_of_pos_right hsig (by decide)
    exact (hround.trans hmul).trans (Nat.pow_le_pow_right (by decide) (by omega))

theorem realLen_le (bits : UInt64) : realLen bits ≤ 1041 := by
  have hexp : bits.toNat / 2 ^ 52 % 2 ^ 11 < 2 ^ 11 := Nat.mod_lt _ (by decide)
  have hfrac : bits.toNat % 2 ^ 52 < 2 ^ 52 := Nat.mod_lt _ (by decide)
  have hdigits : ∀ k, 1032 ≤ k →
      natLen (millionths (bits.toNat / 2 ^ 52 % 2 ^ 11) (bits.toNat % 2 ^ 52) / 10 ^ 6) ≤ max 1 (k + 1) := by
    intro k hk
    have hmill := (Nat.div_le_self _ (10 ^ 6)).trans (millionths_le hexp hfrac hk)
    exact natLen_le (lt_of_le_of_lt hmill (Nat.pow_lt_pow_right (by decide) (Nat.lt_succ_self k)))
  have hwhole := hdigits 1032 le_rfl
  have hpoint : ".000000".length = 7 := by decide
  have hinf : "inf".length = 3 := by decide
  unfold realLen
  dsimp only
  rw [hpoint, hinf]
  split <;> split <;> omega

theorem Scalar.len_le (s : Scalar) : s.len ≤ s.body.length + 1041 := by
  cases s with
  | int n =>
    have h := intLen_le n
    exact h.trans (by simp)
  | uint n =>
    have h := natLen_le (word_lt n)
    exact h.trans (by simp)
  | real bits => exact (realLen_le bits).trans (by simp)
  | str bs => exact ((List.takeWhile_sublist _).length_le).trans (by simp [Scalar.body])
  | bin bs =>
    have h := natLen_le_succ bs.length
    have hsize : "size[]".length = 6 := by decide
    simp only [Scalar.len, Scalar.body, hsize]
    omega

theorem Label.len_le (label : Label k) : Label.len label ≤ (labelBytes label).length := by
  cases k with
  | list => exact Nat.zero_le _
  | obj => simp [Label.len, labelBytes]

theorem Tree.lines_le (t : Tree k) (depth : Nat) :
    ∀ l ∈ t.lines depth, l ≤ 4 * depth + 5 * (t.bytes le).length + 2000 := by
  induction t generalizing depth with
  | nil => simp [lines]
  | @leaf k label s rest ih =>
    have hlabel := Label.len_le label
    have hvalue := s.len_le
    intro l hl
    simp only [lines, List.mem_cons] at hl
    simp only [bytes, Scalar.bytes, List.length_append, length_n2b]
    rcases hl with rfl | hl
    · have hcomma : ",\n".length = 2 := by decide
      have hcolon : ": ".length = 2 := by decide
      have hbin : "    bin,\n".length = 9 := by decide
      have hspaces : "    ".length = 4 := by decide
      unfold scalarLine padded
      rw [hcomma, hcolon, hbin, hspaces]
      cases k with
      | obj =>
        dsimp only
        omega
      | list =>
        dsimp only
        split <;> omega
    · have hle := ih depth l hl
      omega
  | @node k inner label content rest ihcontent ih =>
    have hlabel := Label.len_le label
    have hopened : opened (Label.len label) (depth + 1) ≤ 4 * depth + Label.len label + 8 := by
      have hopen : "\x7b\n".length = 2 := by decide
      have hlabelled : ": \x7b\n".length = 4 := by decide
      unfold opened padded
      rw [hopen, hlabelled]
      split
      · omega
      · split <;> omega
    have hclosed : closed (depth + 1) ≤ 4 * depth + 7 := by
      have hclose : "\x7d\n".length = 2 := by decide
      have hinner : "\x7d,\n".length = 3 := by decide
      unfold closed padded
      rw [hclose, hinner]
      split <;> omega
    have hlist : listOpened (Label.len label) depth ≤ 4 * depth + Label.len label + 8 ∧
        listClosed depth ≤ 4 * depth + 5 := by
      have hopen : ": [\n".length = 4 := by decide
      have hindent : "  ".length = 2 := by decide
      have hclose : "],\n".length = 3 := by decide
      unfold listOpened listClosed padded
      rw [hopen, hindent, hclose]
      omega
    intro l hl
    simp only [bytes, List.length_append, length_n2b]
    cases inner with
    | obj =>
      simp only [lines, List.cons_append, List.mem_cons, List.mem_append] at hl
      rcases hl with rfl | hl | rfl | hl
      · omega
      · have hle := ihcontent (depth + 1) l hl
        omega
      · omega
      · have hle := ih depth l hl
        omega
    | list =>
      cases k with
      | obj =>
        simp only [lines, List.cons_append, List.mem_cons, List.mem_append] at hl
        rcases hl with rfl | hl | rfl | hl
        · omega
        · have hle := ihcontent depth l hl
          omega
        · omega
        · have hle := ih depth l hl
          omega
      | list =>
        have hle := ih depth l hl
        omega

/-- The lines of an object, with the braces of `xl_printf` around them. -/
def Tree.printed (t : Tree .obj) : List Nat := opened 0 1 :: (t.lines 1 ++ [closed 1])

theorem xlPrintf_stands {t : Tree .obj} {l : UInt64} (hwords : t.Words) (h : Stands m l ((Value.nested t).bytes le))
    (hshort : (t.bytes le).length < 2 ^ 64) (hn : (t.bytes le).length < n) :
    xlPrintf le m n l = some (t.printed.foldl Out.print ⟨0, []⟩) := by
  have hbody : (Value.nested t).body le = t.bytes le := rfl
  have hloop : formatLoop le m n .obj ((xlParser le l).val m) 1 ((⟨0, []⟩ : Out).print (opened 0 1)) =
      some ((t.lines 1).foldl Out.print ((⟨0, []⟩ : Out).print (opened 0 1))) := by
    rw [xlParser_stands h]
    apply formatLoop_stands t hwords
    · simpa [hbody] using Value.stands_body h
    · simpa [UInt64.toNat_ofNat', hbody] using (Nat.mod_eq_of_lt hshort).symm
    · exact hn
  simp [xlPrintf, xlFormat, formatObject, hloop, Tree.printed, -xlParser_val]

theorem toNat_printSize {t : Tree .obj} {l : UInt64} (h : Stands m l ((Value.nested t).bytes le))
    (hshort : (t.bytes le).length < 2 ^ 60) : (printSize le m l).toNat = 2 * ((t.bytes le).length + 9) := by
  have htwo : (2 : UInt64).toNat = 2 := rfl
  have hbody : (Value.nested t).body le = t.bytes le := rfl
  rw [printSize, Value.sizeofLine h, Value.length_bytes, hbody, UInt64.toNat_mul, UInt64.toNat_ofNat', htwo]
  omega

end

/-! ### The buffer -/

/-- `xl_printf` stays in its buffer exactly when all the lines before the last brace fit in it. -/
theorem printf_fits (le : Bool) (x : Encoded le) {t : Tree .obj} (hobj : x.value = .nested t) (hwords : t.Words)
    {n : Nat}
    (hn : (t.bytes le).length < n) :
    ∃ out, xlPrintf le x.source.mem n x.source.line = some out ∧
      ((∀ pos ∈ out.calls, pos ≤ printSize le x.source.mem x.source.line) ↔
        "\x7b\n".length + (t.lines 1).sum ≤ 2 * ((t.bytes le).length + 9)) := by
  have hstands := x.stands
  have hshort := x.short
  rw [hobj] at hstands
  rw [hobj, Value.length_bytes] at hshort
  have hbody : (t.bytes le).length < 2 ^ 60 := lt_of_le_of_lt (Nat.le_add_right _ 9) hshort
  have hsize := toNat_printSize hstands hbody
  have hwidth : ∀ l ∈ t.printed, (printSize le x.source.mem x.source.line).toNat + l < 2 ^ 64 := by
    have hfirst : opened 0 1 = 2 := by decide
    have hlast : closed 1 = 2 := by decide
    intro l hl
    rw [hsize]
    simp only [Tree.printed, List.mem_cons, List.mem_append, List.not_mem_nil, or_false, hfirst, hlast] at hl
    rcases hl with rfl | hl | rfl
    · omega
    · have hle : l ≤ 4 * 1 + 5 * (t.bytes le).length + 2000 := t.lines_le 1 l hl
      omega
    · omega
  obtain ⟨begins, hcalls, hiff⟩ := print_calls t.printed ⟨0, []⟩ hwidth
  have hlast : t.printed.dropLast = opened 0 1 :: t.lines 1 := by
    rw [Tree.printed, List.dropLast_cons_of_ne_nil (by simp), List.dropLast_concat]
  refine ⟨_, xlPrintf_stands hwords hstands (by omega) hn, ?_⟩
  rw [hcalls, List.nil_append, hiff, hsize, hlast]
  simp [Tree.printed, opened]

/-- A line with nothing else in memory. -/
def Encoded.alone {le : Bool} (v : Value) (h : (v.bytes le).length < 2 ^ 60) : Encoded le where
  source := ⟨Mem.write (fun _ => 0) 0 (v.bytes le), 0⟩
  value := v
  stands := Stands.write (by omega)
  short := h

def keyA : Key := ⟨⟨[97], by decide⟩, by decide⟩

/-- A number, and a list of an object and a word. -/
def mixed : Tree .obj :=
  .leaf keyA (.int 5)
    (.node keyA (@Tree.node .list .obj () (.leaf keyA (.uint 6) .nil) (.leaf () (.str [104, 105, 0]) .nil)) .nil)

def mixedLine : Encoded true := Encoded.alone (.nested mixed) (by decide)

/-- The lines before the last brace have 88 characters, and the buffer 132. -/
theorem printf_fits_mixed : ∃ out, xlPrintf true mixedLine.source.mem 58 mixedLine.source.line = some out ∧
    ((∀ pos ∈ out.calls, pos ≤ printSize true mixedLine.source.mem mixedLine.source.line) ↔ 88 ≤ 132) :=
  printf_fits true mixedLine (t := mixed) rfl (by simp [mixed, Tree.Words]) (by decide)

/-- An object in an object in an object in an object, each with a key of one letter. -/
def deep : Tree .obj := .node keyA (.node keyA (.node keyA (@Tree.nil .obj) .nil : Tree .obj) .nil : Tree .obj) .nil

def deepLine : Encoded true := Encoded.alone (.nested deep) (by decide)

/-- Its line has 45 bytes and the buffer 90; the last brace would begin at the 95th. -/
theorem printf_overflow : ¬ ∀ (le : Bool) (x : Encoded le) (t : Tree .obj), x.value = .nested t → t.Words → ∀ n out,
    xlPrintf le x.source.mem n x.source.line = some out →
      ∀ pos ∈ out.calls, pos ≤ printSize le x.source.mem x.source.line := by
  intro h
  have hwords : deep.Words := ⟨⟨⟨trivial, trivial⟩, trivial⟩, trivial⟩
  have hout := xlPrintf_stands (n := 37) hwords deepLine.stands (by decide) (by decide)
  have hlast := h true deepLine deep rfl hwords 37 _ hout 95 (by decide)
  have hsize : (printSize true deepLine.source.mem deepLine.source.line).toNat = 90 :=
    toNat_printSize deepLine.stands (by decide)
  rw [UInt64.le_iff_toNat_le, hsize] at hlast
  exact absurd hlast (by decide)

end Wenas.Xline
