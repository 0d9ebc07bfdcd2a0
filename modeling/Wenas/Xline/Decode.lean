import Wenas.Xline.Termination
import Wenas.Xline.Tree

/-!
# Decoding with the parser

Walking through a line with `xl_parser`, `xl_next` and `xl_list_next`, into every object and list that is met, gives back
the tree whose encoding stands there.
-/
namespace Wenas.Xline

/-! ### The walk -/

/-- The key at `a`, up to its zero. -/
def keyAt (m : Mem) (a : UInt64) : Key where
  chars := (m.bytes a 64).takeWhile (· != 0)
  noNul h := by simpa using List.mem_takeWhile_imp h
  atMost := (List.takeWhile_sublist _).length_le.trans (by simp)

def labelAt (m : Mem) (q : Parser) : (k : Kind) → Label k
  | .obj => keyAt m q.key
  | .list => ()

/-- The value at `v`, when it is no object and no list. -/
def scalarAt (le : Bool) (m : Mem) (v : UInt64) : Option Scalar :=
  let n := (b2u le v).val m
  if m v = xlineTypeInt then some (.int n)
  else if m v = xlineTypeUint then some (.uint n)
  else if m v = xlineTypeReal then some (.real n)
  else if m v = xlineTypeStr then some (.str (m.bytes (v + xlineSize) n.toNat))
  else if m v = xlineTypeBin then some (.bin (m.bytes (v + xlineSize) n.toNat))
  else none

def kindAt (m : Mem) (v : UInt64) : Option Kind :=
  if m v = xlineTypeObj then some .obj
  else if m v = xlineTypeList then some .list
  else none

/-- The tree from the position of the parser on, and the parser at its end; at most `n` turns deep and wide. -/
def decode (le : Bool) (m : Mem) : Nat → (k : Kind) → Parser → Option (Tree k × Parser)
  | 0, _, _ => none
  | n + 1, k, p =>
    match k.call le m p with
    | (none, q) => some (.nil, q)
    | (some v, q) =>
      match scalarAt le m v with
      | some s => do
        let (rest, r) ← decode le m n k q
        return (.leaf (labelAt m q k) s rest, r)
      | none => do
        let inner ← kindAt m v
        let (content, _) ← decode le m n inner ((xlParser le v).val m)
        let (rest, r) ← decode le m n k q
        return (.node (labelAt m q k) content rest, r)

/-- The walk gives the tree, and ends at the end of the parser's line. -/
def Decodes (le : Bool) (m : Mem) {k : Kind} (p : Parser) (t : Tree k) : Prop :=
  ∃ q : Parser, q.rpos = p.wpos ∧ ∀ n, t.turns ≤ n → decode le m n k p = some (t, q)

/-! ### One entry -/

section

variable {le : Bool} {m : Mem} {k : Kind}

theorem Mem.bytes_add (m : Mem) (a : UInt64) (i j : Nat) :
    m.bytes a (i + j) = m.bytes a i ++ m.bytes (a + UInt64.ofNat i) j := by
  simp only [Mem.bytes, List.range_add, List.map_append, List.map_map]
  congr 1
  apply List.map_congr_left
  intro x _
  simp [add_ofNat_add]

theorem keyAt_stands {a : UInt64} {key : Key} (h : Stands m a (key.chars ++ [0])) : keyAt m a = key := by
  obtain ⟨hchars, hzero⟩ := stands_append.mp h
  have hnul := hzero 0 (by simp)
  have hsplit : m.bytes a 64 = key.chars ++ m.bytes (a + UInt64.ofNat key.chars.length) (64 - key.chars.length) := by
    have hadd := m.bytes_add a key.chars.length (64 - key.chars.length)
    rwa [Nat.add_sub_cancel' key.atMost, ← hchars.eq_bytes] at hadd
  have htake : (m.bytes a 64).takeWhile (· != 0) = key.chars := by
    rw [hsplit, List.takeWhile_append_of_pos]
    · cases hn : 64 - key.chars.length with
      | zero => simp [Mem.bytes]
      | succ n =>
        have hfirst : m.bytes (a + UInt64.ofNat key.chars.length) (n + 1) =
            0 :: m.bytes (a + UInt64.ofNat key.chars.length + UInt64.ofNat 1) n := by
          rw [Nat.add_comm, m.bytes_add]
          simpa [Mem.bytes] using hnul
        rw [hfirst]
        simp
    · intro b hb
      simpa using fun hzero : b = 0 => key.noNul (hzero ▸ hb)
  cases key
  simp only [keyAt, htake]

/-- Where the value of an entry begins. -/
theorem value_stands {ptr r : UInt64} {label : Label k} {xs : List UInt8}
    (h : Stands m (ptr + r) (labelBytes label ++ xs)) :
    k.value m ptr r = ptr + r + UInt64.ofNat (labelBytes label).length := by
  cases k with
  | list => simp [Kind.value, labelBytes]
  | obj =>
    have hkey := label.atMost
    have hfirst := h 0 (by simp [labelBytes])
    have hbyte : m (ptr + r) = UInt8.ofNat (label.chars.length + 1) := by
      simpa [labelBytes, CString.entry] using hfirst
    have hword : (UInt8.ofNat (label.chars.length + 1)).toUInt64 + 1 =
        UInt64.ofNat (labelBytes (k := .obj) label).length := by
      apply UInt64.toNat_inj.mp
      simp only [labelBytes, CString.length_entry, UInt64.toNat_add, UInt8.toNat_toUInt64, UInt8.toNat_ofNat',
        UInt64.toNat_ofNat', UInt64.toNat_one]
      omega
    rw [value_eq, hbyte, hword]

/-- Where the next entry begins. -/
theorem after_stands {ptr r : UInt64} {e : Label k × Value} (h : Stands m (ptr + r) (entryBytes le e)) :
    k.after le m ptr r = r + UInt64.ofNat (entryBytes le e).length := by
  have hvalue := value_stands h
  have hline := Value.sizeofLine (hvalue ▸ (stands_append.mp h).2)
  have hsum : r + UInt64.ofNat (entryBytes le e).length =
      r + UInt64.ofNat (labelBytes e.1).length + UInt64.ofNat (e.2.bytes le).length := by
    rw [add_ofNat_add, entryBytes, List.length_append]
  rw [hsum]
  cases k with
  | list => simp [Kind.after, hline, labelBytes]
  | obj =>
    have hstep : r + ((m (ptr + r)).toUInt64 + 1) = r + UInt64.ofNat (labelBytes e.1).length := by
      simp only [Kind.value, UInt64.add_assoc] at hvalue
      simpa using hvalue
    rw [Kind.after, hline, hstep]

theorem lt_of_entry {p : Parser} {e : Label k × Value} (h : p.rpos.toNat + (entryBytes le e).length ≤ p.wpos.toNat) :
    p.rpos < p.wpos := by
  simp only [entryBytes, List.length_append, Value.length_bytes] at h
  rw [UInt64.lt_iff_toNat_lt]
  omega

/-- A turn of the walk at an entry. -/
theorem call_entry {p : Parser} {e : Label k × Value} (h : Stands m (p.ptr + p.rpos) (entryBytes le e))
    (hlt : p.rpos.toNat + (entryBytes le e).length ≤ p.wpos.toNat) :
    ∃ q, k.call le m p = (some (p.ptr + p.rpos + UInt64.ofNat (labelBytes e.1).length), q) ∧ q.ptr = p.ptr ∧
      q.wpos = p.wpos ∧ q.rpos = p.rpos + UInt64.ofNat (entryBytes le e).length ∧ labelAt m q k = e.1 := by
  have hpos := lt_of_entry hlt
  have hvalue := value_stands h
  have hafter := after_stands h
  cases k with
  | list =>
    refine ⟨{ p with rpos := Kind.after le m p.ptr p.rpos .list }, ?_, rfl, rfl, hafter, rfl⟩
    rw [Kind.call, xlListNext_val hpos, hvalue]
  | obj =>
    refine ⟨{ p with key := p.ptr + p.rpos + 1, rpos := Kind.after le m p.ptr p.rpos .obj }, ?_, rfl, rfl, hafter, ?_⟩
    · rw [Kind.call, xlNext_val hpos, hvalue]
    · have hkey := (stands_append.mp h).1
      have hchars : Stands m (p.ptr + p.rpos + 1) (e.1.chars ++ [0]) := by
        have hcons : labelBytes e.1 = [UInt8.ofNat (e.1.chars.length + 1)] ++ (e.1.chars ++ [0]) := rfl
        rw [hcons] at hkey
        exact (stands_append.mp hkey).2
      exact keyAt_stands hchars

theorem scalarAt_stands {v : UInt64} {s : Scalar} (h : Stands m v (s.bytes le)) (hlen : s.body.length < 2 ^ 64) :
    scalarAt le m v = some s := by
  obtain ⟨hhead, hbody⟩ := stands_append.mp h
  rw [length_n2b] at hbody
  have htype := hhead.type
  have hword := hhead.b2u
  have hbytes := hbody.eq_bytes
  cases s with
  | int n => simp [scalarAt, htype, hword, Scalar.type, Scalar.word]
  | uint n => simp [scalarAt, htype, hword, Scalar.type, Scalar.word, xlineTypeInt, xlineTypeUint]
  | real n => simp [scalarAt, htype, hword, Scalar.type, Scalar.word, xlineTypeInt, xlineTypeUint, xlineTypeReal]
  | str bs =>
    have hnat : (UInt64.ofNat bs.length).toNat = bs.length := by
      rw [UInt64.toNat_ofNat']
      exact Nat.mod_eq_of_lt hlen
    have hsame : m.bytes (v + xlineSize) bs.length = bs := hbytes.symm
    simp [scalarAt, htype, hword, Scalar.type, Scalar.word, xlineTypeInt, xlineTypeUint, xlineTypeReal, xlineTypeStr,
      hnat, hsame]
  | bin bs =>
    have hnat : (UInt64.ofNat bs.length).toNat = bs.length := by
      rw [UInt64.toNat_ofNat']
      exact Nat.mod_eq_of_lt hlen
    have hsame : m.bytes (v + xlineSize) bs.length = bs := hbytes.symm
    simp [scalarAt, htype, hword, Scalar.type, Scalar.word, xlineTypeInt, xlineTypeUint, xlineTypeReal, xlineTypeStr,
      xlineTypeBin, hnat, hsame]

theorem kindAt_stands {v n : UInt64} {inner : Kind} (h : Stands m v (n2b le n inner.type)) :
    scalarAt le m v = none ∧ kindAt m v = some inner := by
  have htype := h.type
  cases inner with
  | obj =>
    exact ⟨by simp [scalarAt, htype, Kind.type, xlineTypeInt, xlineTypeUint, xlineTypeReal, xlineTypeStr,
      xlineTypeBin, xlineTypeObj], by simp [kindAt, htype, Kind.type]⟩
  | list =>
    exact ⟨by simp [scalarAt, htype, Kind.type, xlineTypeInt, xlineTypeUint, xlineTypeReal, xlineTypeStr,
      xlineTypeBin, xlineTypeList], by simp [kindAt, htype, Kind.type, xlineTypeObj, xlineTypeList]⟩

/-! ### The whole tree -/

/-- A parser of an object or a list. -/
theorem xlParser_stands {v : UInt64} {inner : Kind} {content : Tree inner}
    (h : Stands m v ((Value.nested content).bytes le)) :
    (xlParser le v).val m = ⟨0, UInt64.ofNat (content.bytes le).length, 0, none, v + xlineSize⟩ := by
  have htype : ¬ (Value.nested content).type ≤ xlineTypeReal := by
    cases inner with
    | obj => exact (by decide : ¬ xlineTypeObj ≤ xlineTypeReal)
    | list => exact (by decide : ¬ xlineTypeList ≤ xlineTypeReal)
  rw [xlParser_val, Value.sizeofBody h htype]
  rfl

/-- A turn of the walk at an entry with others behind it. -/
theorem walk_entry {p : Parser} {e : Label k × Value} {ys : List UInt8}
    (h : Stands m (p.ptr + p.rpos) (entryBytes le e ++ ys))
    (hend : p.rpos.toNat + (entryBytes le e ++ ys).length = p.wpos.toNat) :
    ∃ v q, k.call le m p = (some v, q) ∧ labelAt m q k = e.1 ∧ Stands m v (e.2.bytes le) ∧ q.wpos = p.wpos ∧
      Stands m (q.ptr + q.rpos) ys ∧ q.rpos.toNat + ys.length = q.wpos.toNat := by
  rw [List.length_append] at hend
  have hwpos := p.wpos.toNat_lt
  obtain ⟨hentry, hrest⟩ := stands_append.mp h
  obtain ⟨q, hcall, hptr, hwpos', hrpos, hlabel⟩ := call_entry hentry (by omega)
  refine ⟨_, q, hcall, hlabel, (stands_append.mp hentry).2, hwpos', ?_, ?_⟩
  · rwa [hptr, hrpos, ← UInt64.add_assoc]
  · rw [hwpos', hrpos, UInt64.toNat_add, UInt64.toNat_ofNat']
    omega

theorem decode_stands (t : Tree k) {p : Parser} (h : Stands m (p.ptr + p.rpos) (t.bytes le))
    (hend : p.rpos.toNat + (t.bytes le).length = p.wpos.toNat) : Decodes le m p t := by
  induction t generalizing p with
  | @nil k =>
    have hstop : ¬ p.rpos < p.wpos := by
      rw [UInt64.lt_iff_toNat_lt]
      simp only [Tree.bytes, List.length_nil] at hend
      omega
    have hnone : k.call le m p = (none, p) := by cases k <;> simp [Kind.call, xlNext, xlListNext, hstop]
    refine ⟨p, ?_, ?_⟩
    · apply UInt64.toNat_inj.mp
      simpa [Tree.bytes] using hend
    · intro n hn
      cases n with
      | zero => simp [Tree.turns] at hn
      | succ n => simp [decode, hnone]
  | @leaf k label s rest ih =>
    have hbytes : (Tree.leaf label s rest).bytes le = entryBytes le (label, .scalar s) ++ rest.bytes le := by
      rw [← Value.bytes_cons]
      rfl
    rw [hbytes] at h hend
    obtain ⟨v, q, hcall, hlabel, hvalue, hwpos, hrest, hstop⟩ := walk_entry h hend
    have hshort : s.body.length < 2 ^ 64 := by
      have hlt := p.wpos.toNat_lt
      simp only [entryBytes, List.length_append, Value.length_bytes, Value.body] at hend
      omega
    have hscalar := scalarAt_stands hvalue hshort
    obtain ⟨r, hr, hdecode⟩ := ih hrest hstop
    refine ⟨r, hr.trans hwpos, ?_⟩
    intro n hn
    cases n with
    | zero => simp [Tree.turns] at hn
    | succ n => simp [decode, hcall, hscalar, hlabel, hdecode n (by simpa [Tree.turns] using hn)]
  | @node k inner label content rest ihcontent ih =>
    have hbytes : (Tree.node label content rest).bytes le = entryBytes le (label,
        .nested content) ++ rest.bytes le := by
      rw [← Value.bytes_cons]
      rfl
    rw [hbytes] at h hend
    obtain ⟨v, q, hcall, hlabel, hvalue, hwpos, hrest, hstop⟩ := walk_entry h hend
    have hshort : (content.bytes le).length < 2 ^ 64 := by
      have hlt := p.wpos.toNat_lt
      simp only [entryBytes, List.length_append, Value.length_bytes, Value.body] at hend
      omega
    obtain ⟨hscalar, hkind⟩ := kindAt_stands (stands_append.mp hvalue).1
    have hparser := xlParser_stands hvalue
    obtain ⟨r, hr, hdecode⟩ := ih hrest hstop
    obtain ⟨r', -, hdecode'⟩ := ihcontent (p := ⟨0, UInt64.ofNat (content.bytes le).length, 0, none, v + xlineSize⟩)
      (by simpa [Value.body] using Value.stands_body hvalue)
      (by simpa [UInt64.toNat_ofNat'] using (Nat.mod_eq_of_lt hshort).symm)
    refine ⟨r, hr.trans hwpos, ?_⟩
    intro n hn
    cases n with
    | zero => simp [Tree.turns] at hn
    | succ n =>
      simp only [Tree.turns] at hn
      simp [decode, hcall, hscalar, hkind, hparser, hlabel, hdecode n (by omega), hdecode' n (by omega), -xlParser_val]

/-- The parser of a frame with the length `w` in its header. -/
theorem xlParser_line {f : Frame} {w : UInt64} (hline : f.line = n2b le w xlineTypeObj) :
    (xlParser le frameLine).val f.mem = ⟨0, w, 0, none, 0⟩ := by
  have hstands : Stands f.mem frameLine (n2b le w xlineTypeObj) := by
    rw [← hline]
    exact Stands.bytes _ _ _
  rw [xlParser_val, hstands.sizeofBody (by decide)]
  rfl

theorem decodes_line {f : Frame} {t : Tree .obj} (hstands : Stands f.mem 0 (t.bytes le))
    (hwpos : f.wpos.toNat = (t.bytes le).length) (hline : f.line = n2b le f.wpos xlineTypeObj) :
    Decodes le f.mem ((xlParser le frameLine).val f.mem) t := by
  rw [xlParser_line hline]
  exact decode_stands t hstands (by simpa using hwpos.symm)

end

end Wenas.Xline
