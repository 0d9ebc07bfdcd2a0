import Wenas.Xline.Find

/-!
# The objects of a frame

Every object and every list that the parser comes to in a frame that was built stands there with all its entries, and
the parser stands between two of them.
-/
namespace Wenas.Xline

/-- Every object and every list is opened, as what it is. -/
def byType (m : Mem) : UInt64 → Kind → Prop := fun v k => m v = k.type

section

variable {le : Bool} {m : Mem} {ptr w n : UInt64} {k : Kind}

/-- The parser goes from entry to entry. -/
theorem Steps.boundary {es : List (Label k × Value)} (h : Row le m ptr es)
    (hw : w.toNat = Xline.boundary le es es.length) {r s : UInt64} (hsteps : Steps le m k ptr w r s) {i : Nat}
    (hi : i ≤ es.length) (hr : r = UInt64.ofNat (Xline.boundary le es i)) :
    ∃ j ≤ es.length, s = UInt64.ofNat (Xline.boundary le es j) := by
  induction hsteps generalizing i with
  | refl => exact ⟨i, hi, hr⟩
  | step hlt _ ih =>
    have hi' : i < es.length := by
      by_contra hge
      obtain rfl : i = es.length := by omega
      rw [hr, UInt64.lt_iff_toNat_lt, h.toNat_boundary, hw] at hlt
      omega
    exact ih (i := i + 1) hi' (by rw [hr, h.after hi'])

/-- It comes to every boundary. -/
theorem Row.steps {es : List (Label k × Value)} (h : Row le m ptr es) (hw : w.toNat = Xline.boundary le es es.length)
    {i : Nat} (hi : i ≤ es.length) : Steps le m k ptr w 0 (UInt64.ofNat (Xline.boundary le es i)) := by
  induction i with
  | zero => exact .refl 0
  | succ i ih =>
    have hlt : UInt64.ofNat (Xline.boundary le es i) < w := by
      rw [UInt64.lt_iff_toNat_lt, h.toNat_boundary, hw]
      exact boundary_lt hi le_rfl
    have hnext := (ih (Nat.le_of_succ_le hi)).one hlt
    rwa [h.after hi] at hnext

theorem Value.eq_nested {v : Value} {inner : Kind} (h : v.type = inner.type) : ∃ content : Tree inner,
    v = .nested content := by
  cases v with
  | scalar s =>
    cases inner <;> cases s <;>
      simp [Value.type, Scalar.type, Kind.type, xlineTypeInt, xlineTypeUint, xlineTypeReal, xlineTypeStr, xlineTypeBin,
        xlineTypeObj, xlineTypeList] at h
  | @nested k' content =>
    have hkind : k' = inner := by
      cases inner <;> cases k' <;> simp_all [Value.type, Kind.type, xlineTypeObj, xlineTypeList]
    subst hkind
    exact ⟨content, rfl⟩

/-- Every object and every list inside stands there with its entries. -/
theorem Container.row {t : Tree .obj} (hroot : Row le m 0 t.entries)
    (hn : n.toNat = boundary le t.entries t.entries.length)
    (hc : Container (byType m) le m n k ptr w) : ∃ t : Tree k, Row le m ptr t.entries ∧
    w.toNat = boundary le t.entries t.entries.length := by
  induction hc with
  | root => exact ⟨t, hroot, hn⟩
  | @inside k inner ptr w r hc hsteps hlt htype ih =>
    obtain ⟨t, hrow, hw⟩ := ih
    obtain ⟨i, hi, rfl⟩ := hsteps.boundary hrow hw (Nat.zero_le _) (by simp [boundary])
    have hi' : i < t.entries.length := by
      by_contra hge
      obtain rfl : i = t.entries.length := by omega
      rw [UInt64.lt_iff_toNat_lt, hrow.toNat_boundary, hw] at hlt
      omega
    have hentry := hrow.entry hi'
    have hvalue := value_stands hentry
    have hstands := (stands_append.mp hentry).2
    rw [← hvalue] at hstands
    rw [byType, (stands_append.mp hstands).1.type] at htype
    obtain ⟨content, hcontent⟩ := Value.eq_nested htype
    rw [hcontent] at hstands
    have hshort := hrow.boundary_lt_two_pow (i + 1)
    rw [boundary_succ hi'] at hshort
    simp only [entryBytes, List.length_append, Value.length_bytes, hcontent, Value.body,
      content.bytes_entries] at hshort
    refine ⟨content, ⟨?_, by omega⟩, ?_⟩
    · rw [← content.bytes_entries]
      exact Value.stands_body hstands
    · have hparser := xlParser_stands hstands
      rw [xlParser_val] at hparser
      have hbody := congrArg Parser.wpos hparser
      simp only at hbody
      rw [hbody, boundary_length, content.bytes_entries, UInt64.toNat_ofNat']
      exact Nat.mod_eq_of_lt (by omega)

end

/-- A parser between the entries of an object, and the searches from there. With any key the search finds the first
entry in cyclic order and stops behind it, or there is none and it comes back; with one key again and again the
searches go round all its entries. -/
def Searches (le : Bool) (m : Mem) (ptr w : UInt64) (p : Parser) : Prop :=
  ∃ (es : List Entry) (i : Nat), Row le m ptr es ∧ w.toNat = boundary le es es.length ∧ i ≤ es.length ∧
    p.rpos = UInt64.ofNat (boundary le es i) ∧ ∀ (key : CString) (n : Nat), es.length < n →
      ((xlFind le key n p).val m).Ends le m ptr w es i ((around es i).find? (matchesAt key es)) ∧
      ((around es i).find? (matchesAt key es) = none ↔ ∀ e ∈ es, e.1.chars ≠ key.chars) ∧
      ∀ t, calls le m key n t p =
        (List.range t).map fun s => ((hits key es i)[s % (hits key es i).length]?).map (valueOf le m ptr es)

theorem around_find_none {es : List Entry} {key : CString} {i : Nat} :
    (around es i).find? (matchesAt key es) = none ↔ ∀ e ∈ es, e.1.chars ≠ key.chars := by
  simp only [List.find?_eq_none, around, List.mem_rotate, List.mem_range, matchesAt]
  constructor
  · intro h e he
    obtain ⟨j, hj, rfl⟩ := List.getElem_of_mem he
    simpa [List.getElem?_eq_getElem hj] using h j hj
  · intro h j hj
    simpa [List.getElem?_eq_getElem hj] using h _ (List.getElem_mem hj)

/-- The frame of a filling holds its entries. -/
theorem Filling.holds_row {le : Bool} {b : Filling le} {f : Frame} (h : b.run = some f) :
    Row le f.mem 0 b.last.tree.entries ∧ f.inside = true ∧
      boundary le b.last.tree.entries b.last.tree.entries.length ≤ f.room ∧ f.room < 2 ^ 60 := by
  obtain ⟨hholds, -, -⟩ := b.holds h
  have hfits := hholds.fits
  have hshort := hholds.short
  have hstands := hholds.stands
  rw [Tree.bytes_entries] at hfits hstands
  rw [boundary_length]
  exact ⟨⟨hstands, by omega⟩, hholds.inside, hfits, hshort⟩

theorem Filling.toNat_wpos {le : Bool} {b : Filling le} {f : Frame} (h : b.run = some f) :
    f.wpos.toNat = boundary le b.last.tree.entries b.last.tree.entries.length := by
  rw [boundary_length, ← Tree.bytes_entries]
  exact (b.holds h).1.toNat_wpos

/-- A parser of the frame between any two of its entries. -/
theorem Filling.walks {le : Bool} {b : Filling le} {f : Frame} (h : b.run = some f) {i : Nat}
    (hi : i ≤ b.last.tree.entries.length) :
    Walks (byType f.mem) le f.mem f.wpos .obj 0 f.wpos
      ⟨UInt64.ofNat (boundary le b.last.tree.entries i), f.wpos, 0, none, 0⟩ :=
  ⟨.root, rfl, rfl, (Filling.holds_row h).1.steps (Filling.toNat_wpos h) hi⟩

/-- In every frame that was built, for every object in it, at any depth, and every parser between two of its entries. -/
theorem cyclic_lookup {le : Bool} (b : Filling le) {f : Frame} (hrun : b.run = some f) {ptr w : UInt64} {p : Parser}
    (hp : Walks (byType f.mem) le f.mem f.wpos .obj ptr w p) : Searches le f.mem ptr w p := by
  obtain ⟨t, hrow, hw⟩ := hp.container.row (Filling.holds_row hrun).1 (Filling.toNat_wpos hrun)
  obtain ⟨i, hi, hrpos⟩ := hp.steps.boundary hrow hw (Nat.zero_le _) (by simp [boundary])
  have hbefore : p.Before le ptr w t.entries i := ⟨hp.ptr_eq, hp.wpos_eq, hrpos⟩
  refine ⟨t.entries, i, hrow, hw, hi, hrpos, ?_⟩
  intro key n hn
  refine ⟨?_, around_find_none, fun s => hrow.calls hw hn s hi hbefore⟩
  have hin : ∀ j, i ≤ j → j < t.entries.length → boundary le t.entries j < w.toNat := by
    intro j _ hj
    rw [hw]
    exact boundary_lt hj le_rfl
  obtain ⟨r, hr, hfind⟩ := hrow.find key hi le_rfl hin hw.le hbefore
  rw [← around_eq hi] at hr
  rwa [hfind n hn]

/-- A parser behind the first entry, which has the key of the last one. -/
theorem cyclic_lookup_sample : ∃ f, nestedLast.run = some f ∧ Searches false f.mem 0 f.wpos ⟨12, f.wpos, 0, none, 0⟩ :=
  ⟨_, rfl, cyclic_lookup nestedLast rfl (Filling.walks (b := nestedLast) rfl (i := 1) (by decide))⟩

end Wenas.Xline
