import Wenas.Xline.Objects

/-!
# Keys that are stored and keys that are looked up

The calls store the first 64 bytes of a key, and `xl_find` compares all of the key it is given.
-/
namespace Wenas.Xline

variable {le : Bool}

/-- The keys of the entries of an object, as the calls are given them. -/
def Script.keys : Script le .obj → List Text
  | .nil => []
  | .add _ key _ rest => key :: rest.keys
  | .node _ name _ rest => name :: rest.keys

theorem Script.labels_eq (s : Script le .obj) : s.tree.entries.map Prod.fst = s.keys.map Text.clip := by
  match s with
  | .nil => simp [tree, keys, Tree.entries]
  | .add _ key a rest => simp [tree, keys, rest.labels_eq]
  | .node _ name content rest => simp [tree, keys, Tree.entries, rest.labels_eq, Name.label]

/-- What `xl_find` returns on a fresh parser of a frame. -/
def lookup (le : Bool) (f : Frame) (key : CString) (n : Nat) : Option UInt64 :=
  ((xlFind le key n ((xlParser le frameLine).val f.mem)).val f.mem).result.1

section

variable {m : Mem} {ptr : UInt64} {es : List Entry} {f : Frame} {key : CString}

theorem Row.valueOf_eq (h : Row le m ptr es) {i : Nat} (hi : i < es.length) :
    valueOf le m ptr es i = ptr + UInt64.ofNat (boundary le es i + (labelBytes es[i].1).length) := by
  rw [valueOf, value_stands (h.entry hi), add_ofNat_add]

/-- Two entries have their values at two places. -/
theorem Row.valueOf_injective (h : Row le m ptr es) {i j : Nat} (hi : i < es.length) (hj : j < es.length)
    (heq : valueOf le m ptr es i = valueOf le m ptr es j) : i = j := by
  have hplace : ∀ l, (hl : l < es.length) →
      boundary le es l + (labelBytes es[l].1).length < boundary le es (l + 1) := by
    intro l hl
    rw [boundary_succ hl]
    simp only [entryBytes, List.length_append, Value.length_bytes]
    omega
  have hi' := hplace i hi
  have hj' := hplace j hj
  have hilt := h.boundary_lt_two_pow (i + 1)
  have hjlt := h.boundary_lt_two_pow (j + 1)
  rw [h.valueOf_eq hi, h.valueOf_eq hj] at heq
  have hnat := congrArg UInt64.toNat (UInt64.add_right_inj ptr |>.mp heq)
  rw [UInt64.toNat_ofNat', UInt64.toNat_ofNat', Nat.mod_eq_of_lt (by omega), Nat.mod_eq_of_lt (by omega)] at hnat
  rcases Nat.lt_trichotomy i j with hlt | rfl | hgt
  · have hmono : boundary le es (i + 1) ≤ boundary le es j := boundary_mono hlt
    omega
  · rfl
  · have hmono : boundary le es (j + 1) ≤ boundary le es i := boundary_mono hgt
    omega

/-- A lookup on a fresh parser finds the first entry with the key among those in front of the length in the header. -/
theorem Row.lookup (h : Row le f.mem 0 es) {w : UInt64} (hline : f.line = n2b le w xlineTypeObj) {k : Nat}
    (hk : k ≤ es.length) (hin : ∀ j < k, boundary le es j < w.toNat) (hend : w.toNat ≤ boundary le es k) {n : Nat}
    (hn : es.length < n) :
    Xline.lookup le f key n = ((List.range k).find? (matchesAt key es)).map (valueOf le f.mem 0 es) := by
  have hbefore : Parser.Before le 0 w es 0 ⟨0, w, 0, none, 0⟩ := ⟨rfl, rfl, by simp [boundary]⟩
  obtain ⟨r, hr, hfind⟩ := h.find key (Nat.zero_le _) hk (fun j _ => hin j) hend hbefore
  rw [Nat.sub_zero, List.range_zero, List.append_nil, ← List.range_eq_range'] at hr
  unfold Xline.lookup
  rw [xlParser_line hline, hfind n hn]
  cases hfirst : (List.range k).find? (matchesAt key es) with
  | none =>
    rw [hfirst] at hr
    cases r with
    | missed q => rfl
    | found q => exact hr.elim
    | running => exact hr.elim
  | some j =>
    rw [hfirst] at hr
    cases r with
    | found q => exact hr.2
    | missed q => exact hr.elim
    | running => exact hr.elim

end

/-- The entry that was added last is found with its key, and with no other one. -/
def FoundByKey (le : Bool) (f : Frame) (es : List Entry) (key : CString) : Prop :=
  ∀ n, es.length < n → lookup le f key n = some (valueOf le f.mem 0 es (es.length - 1)) ∧
    ∀ other : CString, other.chars ≠ key.chars → lookup le f other n ≠ some (valueOf le f.mem 0 es (es.length - 1))

theorem find_last {es : List Entry} {e : Entry} {key : CString} :
    (List.range (es.length + 1)).find? (matchesAt key (es ++ [e])) = some es.length ↔
      e.1.chars = key.chars ∧ ∀ e' ∈ es, e'.1.chars ≠ key.chars := by
  have hlast : matchesAt key (es ++ [e]) es.length = (e.1.chars == key.chars) := by simp [matchesAt]
  have hsame : ∀ j, (hj : j < es.length) → matchesAt key (es ++ [e]) j = (es[j].1.chars == key.chars) := by
    intro j hj
    simp [matchesAt, List.getElem?_append_left hj, List.getElem?_eq_getElem hj]
  rw [List.find?_range_eq_some, hlast]
  constructor
  · rintro ⟨hkey, -, hbefore⟩
    refine ⟨by simpa using hkey, ?_⟩
    intro e' he'
    obtain ⟨j, hj, rfl⟩ := List.getElem_of_mem he'
    simpa [hsame j hj] using hbefore j hj
  · rintro ⟨hkey, hbefore⟩
    refine ⟨by simpa using hkey, by simp, ?_⟩
    intro j hj
    simpa [hsame j hj] using hbefore _ (List.getElem_mem hj)

/-- For every frame that was built, every key and everything that can be added under it: the new entry is found with its
key and with no other one, if and only if the key has at most 64 bytes and is not what was stored for a longer key. -/
theorem add_then_find (b : Filling le) {f : Frame} (hrun : b.run = some f) {malloc : Malloc} {key : Text} {a : Adder le}
    {p : UInt64} {f' : Frame} (hadd : (a.call key).run le malloc f = (some p, f')) :
    FoundByKey le f' (b.last.tree.entries ++ [(key.clip, a.value)]) key.toCString ↔
      key.chars.length ≤ 64 ∧ ∀ k ∈ b.last.keys, k.clip.chars ≠ key.chars := by
  obtain ⟨hholds, -, -⟩ := b.holds hrun
  obtain ⟨hholds', hline⟩ := Script.add_holds hholds hadd
  have hbytes : b.last.tree.bytes le ++ entryBytes le (k := .obj) (key.clip, a.value) =
      (b.last.tree.entries ++ [(key.clip, a.value)]).flatMap (entryBytes le) := by
    rw [List.flatMap_append, List.flatMap_singleton, Tree.bytes_entries]
  have hfits := hholds'.fits
  have hshort := hholds'.short
  have hstands := hholds'.stands
  have hwpos := hholds'.toNat_wpos
  rw [hbytes] at hfits hstands hwpos
  rw [← boundary_length] at hwpos
  have hlabels : (∀ k ∈ b.last.keys, k.clip.chars ≠ key.chars) ↔
      ∀ e ∈ b.last.tree.entries, e.1.chars ≠ key.chars := by
    have hmap : b.last.tree.entries.map (fun e => e.1.chars) = b.last.keys.map fun k => k.clip.chars := by
      have hsame := congrArg (List.map fun l : Key => l.chars) b.last.labels_eq
      simpa [List.map_map, Function.comp_def] using hsame
    have hmem : ∀ cs, cs ∈ b.last.tree.entries.map (fun e => e.1.chars) ↔
        cs ∈ b.last.keys.map fun k => k.clip.chars := by
      simp [hmap]
    constructor
    · intro h e he heq
      obtain ⟨k, hk, hks⟩ := List.mem_map.mp ((hmem _).mp (List.mem_map_of_mem he))
      exact h k hk (hks.trans heq)
    · intro h k hk heq
      obtain ⟨e, he, hes⟩ := List.mem_map.mp ((hmem _).mpr (List.mem_map_of_mem hk))
      exact h e he (hes.trans heq)
  rw [hlabels]
  generalize b.last.tree.entries = es at *
  have hrow : Row le f'.mem 0 (es ++ [(key.clip, a.value)]) := ⟨hstands, by omega⟩
  have hlen : (es ++ [(key.clip, a.value)]).length = es.length + 1 := by simp
  have hlast : es.length < (es ++ [(key.clip, a.value)]).length := by simp
  have hclip : key.clip.chars = key.chars ↔ key.chars.length ≤ 64 := by
    constructor
    · intro h
      have hmost := key.clip.atMost
      rwa [h] at hmost
    · exact key.chars_clip
  -- a lookup returns the new entry exactly when it is the first one with that key
  have hnew : ∀ other : CString, ∀ n, (es ++ [(key.clip, a.value)]).length < n →
      (lookup le f' other n = some (valueOf le f'.mem 0 (es ++ [(key.clip, a.value)]) es.length) ↔
        key.clip.chars = other.chars ∧ ∀ e ∈ es, e.1.chars ≠ other.chars) := by
    intro other n hn
    rw [hrow.lookup hline le_rfl (fun j hj => by rw [hwpos]; exact boundary_lt hj le_rfl) hwpos.le hn, ← find_last (e := ((key.clip, a.value) : Entry)), ← hlen]
    constructor
    · intro h
      obtain ⟨j, hj, heq⟩ := Option.map_eq_some_iff.mp h
      have hjlt : j < (es ++ [(key.clip, a.value)]).length := by
        simpa using List.mem_of_find?_eq_some hj
      rw [hj, hrow.valueOf_injective hjlt hlast heq]
    · intro h
      rw [h]
      rfl
  unfold FoundByKey
  rw [hlen, Nat.add_sub_cancel]
  rw [hlen] at hnew
  constructor
  · intro h
    obtain ⟨hkey, hbefore⟩ := (hnew key.toCString _ (Nat.lt_succ_self _)).mp (h _ (Nat.lt_succ_self _)).1
    exact ⟨hclip.mp hkey, hbefore⟩
  · rintro ⟨hkey, hbefore⟩ n hn
    refine ⟨(hnew key.toCString n hn).mpr ⟨hclip.mpr hkey, hbefore⟩, ?_⟩
    intro other hother hfound
    have hsame := ((hnew other n hn).mp hfound).1
    exact hother (hsame.symm.trans (hclip.mpr hkey))

/-- A key of 65 bytes. -/
def longKey : Text := ⟨⟨List.replicate 65 107, by decide⟩, by decide⟩

/-- A frame without entries. -/
def noEntries : Filling false := { emptyLast with last := .nil }

def five : Adder false := .int 5

/-- The key `m`. -/
def newKey : Text := ⟨⟨[109], by decide⟩, by decide⟩

/-- Behind three entries with two other keys. -/
theorem add_then_find_sample : ∃ f f' p, nestedLast.run = some f ∧
    (five.call newKey).run false plenty f = (some p, f') ∧
    FoundByKey false f' (nested.tree.entries ++ [(newKey.clip, five.value)]) newKey.toCString :=
  ⟨_, _, _, rfl, rfl, (@add_then_find _ nestedLast _ rfl plenty newKey five _ _ rfl).mpr
    ⟨by decide, by simp only [nestedLast, nested, Script.keys]; decide⟩⟩

/-- The number under the long key is added, and a lookup with this key finds nothing. -/
theorem long_key_lost : ∃ f f' p, noEntries.run = some f ∧
    (five.call longKey).run false plenty f = (some p, f') ∧
    ¬ FoundByKey false f' [(longKey.clip, five.value)] longKey.toCString := by
  refine ⟨_, _, _, rfl, rfl, ?_⟩
  intro h
  have hfound := (h 2 (by decide)).1
  exact absurd (congrArg Option.isSome hfound) (by decide +kernel)

end Wenas.Xline
