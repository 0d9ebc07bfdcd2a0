import Wenas.Xline.Header

/-!
# Searching for a key

`xl_find` looks at the entries of an object from the position of the parser to the end and from the beginning back to
that position. It stops behind the first entry with the key in this order, so that repeated calls go round.
-/
namespace Wenas.Xline

abbrev Entry : Type := Label .obj × Value

/-- The entries stand in memory, one behind the other. -/
structure Row (le : Bool) (m : Mem) (ptr : UInt64) {k : Kind} (es : List (Label k × Value)) : Prop where
  stands : Stands m ptr (es.flatMap (entryBytes le))
  short : (es.flatMap (entryBytes le)).length < 2 ^ 64

/-- Where the entry `i` begins. -/
def boundary (le : Bool) {k : Kind} (es : List (Label k × Value)) (i : Nat) : Nat :=
  ((es.take i).flatMap (entryBytes le)).length

/-- Where the value of the entry `i` begins. -/
def valueOf (le : Bool) (m : Mem) (ptr : UInt64) (es : List Entry) (i : Nat) : UInt64 :=
  Kind.value m ptr (UInt64.ofNat (boundary le es i)) .obj

def matchesAt (key : CString) (es : List Entry) (i : Nat) : Bool := es[i]?.any fun e => e.1.chars == key.chars

/-- The parser stands in front of the entry `i`. -/
structure Parser.Before (le : Bool) (ptr w : UInt64) (es : List Entry) (i : Nat) (p : Parser) : Prop where
  ptr_eq : p.ptr = ptr
  wpos_eq : p.wpos = w
  rpos_eq : p.rpos = UInt64.ofNat (boundary le es i)

/-- How a search ends that starts in front of `i`, when `o` is the entry that it is to find. -/
def Found.Ends (le : Bool) (m : Mem) (ptr w : UInt64) (es : List Entry) (i : Nat) : Option Nat → Found → Prop
  | some j, .found q => q.Before le ptr w es (j + 1) ∧ q.val = some (valueOf le m ptr es j)
  | none, .missed q => q.Before le ptr w es i ∧ q.val = none
  | _, _ => False

/-! ### Positions -/

section

variable {le : Bool} {m : Mem} {ptr : UInt64} {k : Kind} {es : List (Label k × Value)}

theorem boundary_succ {i : Nat} (hi : i < es.length) :
    boundary le es (i + 1) = boundary le es i + (entryBytes le es[i]).length := by
  simp only [boundary, List.take_add_one, List.getElem?_eq_getElem hi, Option.toList_some, List.flatMap_append,
    List.flatMap_singleton, List.length_append]

theorem boundary_le_succ (i : Nat) : boundary le es i ≤ boundary le es (i + 1) := by
  by_cases hi : i < es.length
  · rw [boundary_succ hi]
    omega
  · simp [boundary, List.take_of_length_le (Nat.le_of_not_lt hi), List.take_of_length_le (by omega : es.length ≤ i + 1)]

theorem boundary_mono {i j : Nat} (h : i ≤ j) : boundary le es i ≤ boundary le es j := by
  induction h with
  | refl => rfl
  | step _ ih => exact ih.trans (boundary_le_succ _)

theorem boundary_lt {i j : Nat} (hij : i < j) (hj : j ≤ es.length) : boundary le es i < boundary le es j := by
  have hi : i < es.length := by omega
  have hsucc : boundary le es (i + 1) = _ := boundary_succ hi
  have hmono : boundary le es (i + 1) ≤ boundary le es j := boundary_mono hij
  simp only [entryBytes, List.length_append, Value.length_bytes] at hsucc
  omega

theorem boundary_length : boundary le es es.length = (es.flatMap (entryBytes le)).length := by simp [boundary]

namespace Row

variable (h : Row le m ptr es)
include h

theorem boundary_lt_two_pow (i : Nat) : boundary le es i < 2 ^ 64 := by
  have hshort := h.short
  rw [← boundary_length] at hshort
  by_cases hi : i ≤ es.length
  · exact (boundary_mono hi).trans_lt hshort
  · simpa [boundary, List.take_of_length_le (by omega : es.length ≤ i)] using hshort

theorem toNat_boundary (i : Nat) : (UInt64.ofNat (boundary le es i)).toNat = boundary le es i := by
  have hlt := h.boundary_lt_two_pow i
  rw [UInt64.toNat_ofNat']
  exact Nat.mod_eq_of_lt hlt

theorem entry {i : Nat} (hi : i < es.length) :
    Stands m (ptr + UInt64.ofNat (boundary le es i)) (entryBytes le es[i]) := by
  have hstands := h.stands
  have hsplit : es.flatMap (entryBytes le) = (es.take i).flatMap (entryBytes le) ++
      (entryBytes le es[i] ++ (es.drop (i + 1)).flatMap (entryBytes le)) := by
    rw [← List.flatMap_cons, ← List.flatMap_append, List.getElem_cons_drop, List.take_append_drop]
  rw [hsplit] at hstands
  exact (stands_append.mp (stands_append.mp hstands).2).1

theorem after {i : Nat} (hi : i < es.length) :
    k.after le m ptr (UInt64.ofNat (boundary le es i)) = UInt64.ofNat (boundary le es (i + 1)) := by
  rw [after_stands (h.entry hi), boundary_succ hi, UInt64.ofNat_add]

end Row

end

section

variable {le : Bool} {m : Mem} {ptr w : UInt64} {es : List Entry} {key : CString}

/-! ### Keys -/

theorem Stands.tail {a : UInt64} {x : UInt8} {xs : List UInt8} (h : Stands m a (x :: xs)) :
    m a = x ∧ Stands m (a + 1) xs := by
  have hsplit : Stands m a ([x] ++ xs) := h
  obtain ⟨hfirst, hrest⟩ := stands_append.mp hsplit
  exact ⟨by simpa using hfirst 0 (by simp), hrest⟩

theorem mcompare_stands {bs xs : List UInt8} {a : UInt64} (hstands : Stands m a xs) (hlen : bs.length = xs.length) :
    (mcompare bs a).val m = true ↔ bs = xs := by
  induction bs generalizing xs a with
  | nil =>
    have hnil : xs = [] := List.length_eq_zero_iff.mp hlen.symm
    simp [mcompare, hnil]
  | cons b bs ih =>
    cases xs with
    | nil => simp at hlen
    | cons x xs =>
      obtain ⟨hfirst, hrest⟩ := hstands.tail
      have htail := ih hrest (by simpa using hlen)
      by_cases hx : x = b
      · simp [mcompare, hfirst, hx, htail]
      · have hne : (x == b) = false := by simpa using hx
        have hne' : ¬ b = x := fun heq => hx heq.symm
        simp [mcompare, hfirst, hne, hne']

/-- A search compares the key that is stored, the whole of it. -/
theorem hasKey_stands {a : UInt64} {e : Entry} (hstands : Stands m a (entryBytes le e)) :
    HasKey m a key ↔ e.1.chars = key.chars := by
  have hmost := e.1.atMost
  have hlabel := (stands_append.mp hstands).1
  obtain ⟨hfirst, hrest⟩ := hlabel.tail
  have hlen : (m a).toNat = e.1.chars.length + 1 := by
    rw [hfirst, UInt8.toNat_ofNat']
    omega
  unfold HasKey
  rw [hlen]
  constructor
  · rintro ⟨hsame, hcompare⟩
    have heq := (mcompare_stands hrest (by simpa using hsame)).mp hcompare
    exact (List.append_cancel_right heq).symm
  · intro hsame
    refine ⟨by rw [hsame], ?_⟩
    rw [mcompare_stands hrest (by simp [hsame]), hsame]

theorem Row.hasKey (h : Row le m ptr es) {i : Nat} (hi : i < es.length) :
    HasKey m (ptr + UInt64.ofNat (boundary le es i)) key ↔ matchesAt key es i = true := by
  rw [hasKey_stands (h.entry hi)]
  simp [matchesAt, List.getElem?_eq_getElem hi]

/-! ### One loop -/

/-- One loop of a search from the entry `i` up to the entry `k`, at or behind the limit. -/
theorem Row.loop (h : Row le m ptr es) (key : CString) {limit : UInt64} {i k : Nat} (hik : i ≤ k) (hk : k ≤ es.length)
    (hin : ∀ j, i ≤ j → j < k → boundary le es j < limit.toNat) (hend : limit.toNat ≤ boundary le es k) {p : Parser}
    (hp : p.Before le ptr w es i) :
    match (List.range' i (k - i)).find? (matchesAt key es) with
    | some j => ∃ q, q.Before le ptr w es (j + 1) ∧ q.val = some (valueOf le m ptr es j) ∧
        ∀ n, k - i < n → (findLoop le key limit n p).val m = .found q
    | none => ∃ q, q.Before le ptr w es k ∧ ∀ n, k - i < n → (findLoop le key limit n p).val m = .missed q := by
  induction hd : k - i generalizing i p with
  | zero =>
    obtain rfl : i = k := by omega
    have hstop : ¬ p.rpos < limit := by
      rw [hp.rpos_eq, UInt64.lt_iff_toNat_lt, h.toNat_boundary]
      omega
    refine ⟨p, hp, ?_⟩
    intro n hn
    obtain ⟨n, rfl⟩ : ∃ n', n = n' + 1 := ⟨n - 1, by omega⟩
    exact findLoop_stop n hstop
  | succ d ih =>
    have hi : i < es.length := by omega
    have hgo : p.rpos < limit := by
      rw [hp.rpos_eq, UInt64.lt_iff_toNat_lt, h.toNat_boundary]
      exact hin i le_rfl (by omega)
    have hkey : HasKey m (p.ptr + p.rpos) key ↔ matchesAt key es i = true := by
      rw [hp.ptr_eq, hp.rpos_eq]
      exact h.hasKey hi
    obtain ⟨hptr, hwpos, hrpos, hval⟩ := findEntry_next le m key p
    rw [hp.ptr_eq, hp.rpos_eq] at hrpos hval
    have hnext : (searchTurn le m key p).Before le ptr w es (i + 1) :=
      ⟨hptr.trans hp.ptr_eq, hwpos.trans hp.wpos_eq, hrpos.trans (h.after hi)⟩
    rw [List.range'_succ, List.find?_cons]
    cases hmatch : matchesAt key es i with
    | true =>
      refine ⟨searchTurn le m key p, hnext, hval, ?_⟩
      intro n hn
      obtain ⟨n, rfl⟩ : ∃ n', n = n' + 1 := ⟨n - 1, by omega⟩
      exact findLoop_hit n hgo (hkey.mpr hmatch)
    | false =>
      have hrest := ih (by omega) (fun j hj => hin j (by omega)) hnext (by omega)
      have hturn : ∀ n, d + 1 < n → ∃ n', d < n' ∧
          (findLoop le key limit n p).val m = (findLoop le key limit n' (searchTurn le m key p)).val m := by
        intro n hn
        obtain ⟨n, rfl⟩ : ∃ n', n = n' + 1 := ⟨n - 1, by omega⟩
        exact ⟨n, by omega, findLoop_on n ⟨hgo, by rw [hkey, hmatch]; simp⟩⟩
      cases hfind : (List.range' (i + 1) d).find? (matchesAt key es) with
      | none =>
        rw [hfind] at hrest
        obtain ⟨q, hq, hn⟩ := hrest
        refine ⟨q, hq, ?_⟩
        intro n hlt
        obtain ⟨n', hlt', heq⟩ := hturn n hlt
        rw [heq, hn n' hlt']
      | some j =>
        rw [hfind] at hrest
        obtain ⟨q, hq, hqval, hn⟩ := hrest
        refine ⟨q, hq, hqval, ?_⟩
        intro n hlt
        obtain ⟨n', hlt', heq⟩ := hturn n hlt
        rw [heq, hn n' hlt']

/-! ### A search -/

/-- A search, with the entries from `k` on at or behind the end of the parser's line. -/
theorem Row.find (h : Row le m ptr es) (key : CString) {i k : Nat} (hik : i ≤ k) (hk : k ≤ es.length)
    (hin : ∀ j, i ≤ j → j < k → boundary le es j < w.toNat) (hend : w.toNat ≤ boundary le es k) {p : Parser}
    (hp : p.Before le ptr w es i) :
    ∃ r : Found, r.Ends le m ptr w es i ((List.range' i (k - i) ++ List.range i).find? (matchesAt key es)) ∧
      ∀ n, es.length < n → (xlFind le key n p).val m = r := by
  have hwpos := hp.wpos_eq
  have hfirst := h.loop key hik hk hin hend hp
  rw [List.find?_append]
  cases hfind : (List.range' i (k - i)).find? (matchesAt key es) with
  | some j =>
    rw [hfind] at hfirst
    obtain ⟨q, hq, hval, hn⟩ := hfirst
    refine ⟨.found q, ⟨hq, hval⟩, ?_⟩
    intro n hlt
    simp [xlFind, hwpos, hn n (by omega)]
  | none =>
    rw [hfind] at hfirst
    obtain ⟨q, hq, hn⟩ := hfirst
    have hstart : Parser.Before le ptr w es 0 { q with rpos := 0 } :=
      ⟨hq.ptr_eq, hq.wpos_eq, by simp [boundary]⟩
    have hback : ∀ j, 0 ≤ j → j < i → boundary le es j < p.rpos.toNat := by
      intro j _ hj
      rw [hp.rpos_eq, h.toNat_boundary]
      exact boundary_lt hj (by omega)
    have hlimit : p.rpos.toNat ≤ boundary le es i := by rw [hp.rpos_eq, h.toNat_boundary]
    have hsecond := h.loop key (Nat.zero_le i) (by omega) hback hlimit hstart
    rw [Nat.sub_zero, ← List.range_eq_range'] at hsecond
    rw [Option.none_or]
    cases hfind' : (List.range i).find? (matchesAt key es) with
    | some j =>
      rw [hfind'] at hsecond
      obtain ⟨q', hq', hval, hn'⟩ := hsecond
      refine ⟨.found q', ⟨hq', hval⟩, ?_⟩
      intro n hlt
      simp [xlFind, hwpos, hn n (by omega), hn' n (by omega)]
    | none =>
      rw [hfind'] at hsecond
      obtain ⟨q', hq', hn'⟩ := hsecond
      refine ⟨.missed { q' with val := none }, ⟨⟨hq'.ptr_eq, hq'.wpos_eq, hq'.rpos_eq⟩, rfl⟩, ?_⟩
      intro n hlt
      simp [xlFind, hwpos, hn n (by omega), hn' n (by omega)]

/-! ### Round and round -/

/-- The entries in the order in which a search from the entry `i` looks at them. -/
def around (es : List Entry) (i : Nat) : List Nat := (List.range es.length).rotate i

theorem around_eq {i : Nat} (hi : i ≤ es.length) :
    around es i = List.range' i (es.length - i) ++ List.range i := by
  have hsplit : List.range es.length = List.range i ++ List.range' i (es.length - i) := by
    have happend := List.range'_append_1 (s := 0) (m := i) (n := es.length - i)
    rw [Nat.zero_add, Nat.add_sub_cancel' hi] at happend
    rw [List.range_eq_range', List.range_eq_range', happend]
  unfold around
  rw [List.rotate_eq_drop_append_take (by simpa using hi), hsplit, List.drop_left' (by simp), List.take_left' (by simp)]

/-- The order from behind the first entry that matches: what came before it, and itself, are the last. -/
theorem around_next {i j : Nat} {before behind : List Nat} (h : around es i = before ++ j :: behind) :
    around es (j + 1) = behind ++ (before ++ [j]) := by
  have hlen : (before ++ j :: behind).length = es.length := by rw [← h]; simp [around]
  have hpos : before.length < (List.range es.length).length := by
    rw [List.length_append, List.length_cons] at hlen
    rw [List.length_range]
    omega
  have hj : j = (before.length + i) % es.length := by
    have hget : (around es i)[before.length]? = some j := by simp [h]
    unfold around at hget
    rw [List.getElem?_rotate hpos, List.length_range, List.getElem?_range (Nat.mod_lt _ (by rw [List.length_range] at hpos; omega))] at hget
    exact (Option.some.inj hget).symm
  have hrotate : around es (j + 1) = (around es i).rotate (before.length + 1) := by
    unfold around
    rw [List.rotate_rotate, ← List.rotate_mod, ← List.rotate_mod _ (i + _), List.length_range, hj]
    congr 1
    rw [Nat.add_mod, Nat.mod_mod, ← Nat.add_mod]
    congr 1
    omega
  have hshape : before ++ j :: behind = (before ++ [j]) ++ behind := by simp
  rw [hrotate, h, hshape, List.rotate_eq_drop_append_take (by simp), List.drop_left' (by simp), List.take_left' (by simp)]

/-- The entries with the key, in that order. -/
def hits (key : CString) (es : List Entry) (i : Nat) : List Nat := (around es i).filter (matchesAt key es)

/-- After a search the entry that was found is the last one of those to come. -/
theorem hits_next {i j : Nat} (h : (around es i).find? (matchesAt key es) = some j) :
    hits key es (j + 1) = (hits key es i).rotate 1 ∧ (hits key es i).head? = some j := by
  obtain ⟨hj, before, behind, hsplit, hbefore⟩ := List.find?_eq_some_iff_append.mp h
  have hnone : before.filter (matchesAt key es) = [] := by
    rw [List.filter_eq_nil_iff]
    intro x hx
    simpa using hbefore x hx
  unfold hits
  rw [around_next hsplit, hsplit]
  simp [List.filter_append, hnone, hj]

/-- What the first `t` calls of `xl_find` with one key return. -/
def calls (le : Bool) (m : Mem) (key : CString) (n : Nat) : Nat → Parser → List (Option UInt64)
  | 0, _ => []
  | t + 1, p =>
    match (xlFind le key n p).val m with
    | .found q => q.val :: calls le m key n t q
    | .missed q => q.val :: calls le m key n t q
    | .running => []

/-- The calls go round the entries with the key; if there are none they all return `NULL`. -/
theorem Row.calls (h : Row le m ptr es) (hw : w.toNat = boundary le es es.length) {n : Nat} (hn : es.length < n)
    (t : Nat)
    {i : Nat} (hi : i ≤ es.length) {p : Parser} (hp : p.Before le ptr w es i) :
    Xline.calls le m key n t p =
      (List.range t).map fun s => ((hits key es i)[s % (hits key es i).length]?).map (valueOf le m ptr es) := by
  induction t generalizing i p with
  | zero => rfl
  | succ t ih =>
    have hin : ∀ j, i ≤ j → j < es.length → boundary le es j < w.toNat := by
      intro j _ hj
      rw [hw]
      exact boundary_lt hj le_rfl
    obtain ⟨r, hr, hfind⟩ := h.find key hi le_rfl hin hw.le hp
    rw [← around_eq hi] at hr
    rw [List.range_succ_eq_map, List.map_cons, List.map_map, Xline.calls, hfind n hn]
    cases hfirst : (around es i).find? (matchesAt key es) with
    | none =>
      have hnil : hits key es i = [] := by
        rw [hits, List.filter_eq_nil_iff]
        simpa using List.find?_eq_none.mp hfirst
      rw [hfirst] at hr
      cases r with
      | missed q =>
        obtain ⟨hq, hval⟩ := hr
        simp only [ih hi hq, hval, hnil]
        simp [Function.comp_def]
      | found q => exact hr.elim
      | running => exact hr.elim
    | some j =>
      obtain ⟨hnext, hhead⟩ := hits_next hfirst
      have hj : j < es.length := by
        have hmem := List.mem_of_find?_eq_some hfirst
        simpa [around] using hmem
      rw [hfirst] at hr
      cases r with
      | found q =>
        obtain ⟨hq, hval⟩ := hr
        have hpos : 0 < (hits key es i).length := by
          cases hh : hits key es i with
          | nil => simp [hh] at hhead
          | cons _ _ => simp
        simp only [ih hj hq, hval, hnext, List.length_rotate]
        congr 1
        · rw [Nat.zero_mod, ← List.head?_eq_getElem?, hhead]
          rfl
        · apply List.map_congr_left
          intro s _
          simp only [Function.comp]
          rw [List.getElem?_rotate (Nat.mod_lt _ hpos), Nat.mod_add_mod]
      | missed q => exact hr.elim
      | running => exact hr.elim

end

end Wenas.Xline
