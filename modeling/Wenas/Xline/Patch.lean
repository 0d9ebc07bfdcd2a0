import Wenas.Xline.Keys

/-!
# Patching a number

`xl_set_value` looks a key up and writes a number over the line it finds. Two builds that differ in one number only
leave frames that differ in its eight bytes, wherever the frame was moved to in between.
-/
namespace Wenas.Xline

/-- `xl_set_value`, with `n` turns of a loop at most. -/
def xlSetValue (le : Bool) (key : CString) (n : Nat) (nb : UInt64) (p : Parser) (f : Frame) : Option UInt64 × Frame :=
  match ((xlFind le key n p).val f.mem).result.1 with
  | some val => (some val, f.put val (n2b le nb xlineTypeUint))
  | none => (none, f)

/-! ### Two runs of the same calls -/

/-- Two frames that are the same but for some bytes of their memory. -/
def Alike (D : Set UInt64) (f g : Frame) : Prop := ∃ m, g = { f with mem := m } ∧ Set.EqOn f.mem m Dᶜ

section

variable {le : Bool} {malloc : Malloc} {D : Set UInt64} {f g f' : Frame} {p : UInt64}

theorem Mem.write_congr {m m' : Mem} {x : UInt64} (h : m x = m' x) (a : UInt64) (bs : List UInt8) :
    m.write a bs x = m'.write a bs x := by
  simp only [Mem.write, h]

namespace Alike

theorem refl (D : Set UInt64) (f : Frame) : Alike D f f := ⟨f.mem, rfl, fun _ _ => rfl⟩

theorem put (h : Alike D f g) (a : UInt64) (bs : List UInt8) : Alike D (f.put a bs) (g.put a bs) := by
  obtain ⟨m, rfl, hm⟩ := h
  exact ⟨m.write a bs, rfl, fun _ hx => Mem.write_congr (hm hx) a bs⟩

theorem append (h : Alike D f g) (bs : List UInt8) : Alike D (f.append bs) (g.append bs) := by
  obtain ⟨m, rfl, hm⟩ := h
  exact ⟨m.write f.wpos bs, rfl, fun _ hx => Mem.write_congr (hm hx) _ bs⟩

theorem setLine (h : Alike D f g) (type : UInt8) : Alike D (f.setLine le type) (g.setLine le type) := by
  obtain ⟨m, rfl, hm⟩ := h
  exact ⟨m.write frameLine (n2b le f.wpos type), rfl, fun _ hx => Mem.write_congr (hm hx) _ _⟩

theorem skip (h : Alike D f g) (n : UInt64) :
    Alike D { f with wpos := f.wpos + n } { g with wpos := g.wpos + n } := by
  obtain ⟨m, rfl, hm⟩ := h
  exact ⟨m, rfl, hm⟩

theorem reserve (h : Alike D f g) {newlen : UInt64} {got : Bool} (hres : f.reserve malloc newlen = (got, f')) :
    ∃ g', g.reserve malloc newlen = (got, g') ∧ Alike D f' g' := by
  obtain ⟨m, rfl, hm⟩ := h
  unfold Frame.reserve Frame.realloc at *
  split at hres
  · rename_i hlt
    simp only [if_pos hlt]
    cases hb : malloc.give (sizeofFrame + (f.size * 2 + newlen)) with
    | none =>
      simp only [hb] at hres
      cases hres
      exact ⟨_, rfl, m, rfl, hm⟩
    | some block =>
      simp only [hb] at hres
      cases hres
      refine ⟨_, rfl, fun a => if a < f.wpos ∨ frameLine ≤ a then m a else block a, rfl, ?_⟩
      intro a ha
      simp only
      split
      · exact hm ha
      · rfl
  · rename_i hlt
    cases hres
    exact ⟨_, if_neg hlt, m, rfl, hm⟩

/-- The length byte of a key is read back after it was written, and is the same in both. -/
theorem fillKey (h : Alike D f g) (key : Text) : Alike D (f.fillKey key) (g.fillKey key) := by
  obtain ⟨m, rfl, hm⟩ := h
  refine ⟨(Frame.fillKey { f with mem := m } key).mem, ?_, ?_⟩
  all_goals simp only [Frame.fillKey, Frame.put]
  all_goals generalize (if UInt64.ofNat key.chars.length > 64 then (64 : UInt64) else UInt64.ofNat key.chars.length) = klen
  all_goals
    have hfirst : f.mem.write f.wpos [klen.toUInt8 + 1] f.wpos = m.write f.wpos [klen.toUInt8 + 1] f.wpos := by
      simp [Mem.write]
    have hsecond := Mem.write_congr hfirst (f.wpos + 1) (key.chars.take klen.toNat)
    have hthird := fun a => Mem.write_congr hsecond a [0]
    simp only [hsecond, hthird]
  · rfl
  · intro x hx
    exact Mem.write_congr (Mem.write_congr (Mem.write_congr (hm hx) _ _) _ _) _ _

theorem add (h : Alike D f g) {key : Text} {newlen : UInt64} {line : Frame → Frame}
    (hline : ∀ f g, Alike D f g → Alike D (line f) (line g)) (hrun : f.add le malloc key newlen line = (some p, f')) :
    ∃ g', g.add le malloc key newlen line = (some p, g') ∧ Alike D f' g' := by
  unfold Frame.add at *
  cases hres : f.reserve malloc newlen with
  | mk got k =>
  obtain ⟨k', hres', hk⟩ := h.reserve hres
  cases got with
  | false => simp [hres] at hrun
  | true =>
    have hlast : Alike D _ (Frame.setLine le xlineTypeObj _) := (hline _ _ (hk.fillKey key)).setLine xlineTypeObj
    simp only [hres, Prod.mk.injEq, Option.some.injEq] at hrun
    obtain ⟨rfl, rfl⟩ := hrun
    refine ⟨_, ?_, hlast⟩
    obtain ⟨m, hm, -⟩ := hlast
    simp only [hres', hm]

theorem line (h : Alike D f g) (a : Adder le) : Alike D (Script.line a f) (Script.line a g) := by
  cases a with
  | word w => exact (h.append _).append _
  | str s => exact (h.append _).append _
  | bin b => exact (h.append _).append _
  | _ => exact h.append _

theorem listAppend (h : Alike D f g) {xl : Source} (hrun : xlListAppend le malloc f xl = (some p, f')) :
    ∃ g', xlListAppend le malloc g xl = (some p, g') ∧ Alike D f' g' := by
  unfold xlListAppend at *
  cases hres : f.reserve malloc (xl.size le) with
  | mk got k =>
  obtain ⟨k', hres', hk⟩ := h.reserve hres
  cases got with
  | false => simp [hres] at hrun
  | true =>
    have hlast := hk.append (xl.bytes le)
    simp only [hres, Prod.mk.injEq, Option.some.injEq] at hrun
    obtain ⟨rfl, rfl⟩ := hrun
    refine ⟨_, ?_, hlast⟩
    obtain ⟨m, hm, -⟩ := hlast
    simp only [hres', hm]

theorem begin {inner : Kind} {key : Option Text} (h : Alike D f g) (hrun : inner.begin malloc f key = (some p, f')) :
    ∃ g', inner.begin malloc g key = (some p, g') ∧ Alike D f' g' := by
  have hbegin : xlObjBegin malloc f key = (some p, f') := by cases inner <;> exact hrun
  have hsame : inner.begin malloc g key = xlObjBegin malloc g key := by cases inner <;> rfl
  rw [hsame]
  unfold xlObjBegin at *
  cases hres : f.reserve malloc (beginLen key) with
  | mk got k =>
  obtain ⟨k', hres', hk⟩ := h.reserve hres
  cases got with
  | false => simp [hres] at hbegin
  | true =>
    simp only [hres] at hbegin
    simp only [hres']
    have hstep : ∀ k k' : Frame, Alike D k k' →
        (some (k.wpos + xlineSize - xlineSize), { k with wpos := k.wpos + xlineSize }) = (some p, f') →
        ∃ g', (some (k'.wpos + xlineSize - xlineSize), { k' with wpos := k'.wpos + xlineSize }) = (some p, g') ∧
          Alike D f' g' := by
      rintro k k' ⟨m, rfl, hm⟩ hout
      simp only [Prod.mk.injEq, Option.some.injEq] at hout
      obtain ⟨rfl, rfl⟩ := hout
      exact ⟨_, rfl, m, rfl, hm⟩
    cases key with
    | none => exact hstep k k' hk hbegin
    | some key => exact hstep _ _ (hk.fillKey key) hbegin

theorem finish (h : Alike D f g) (inner : Kind) (pos : UInt64) :
    Alike D (inner.finish le f (some pos)) (inner.finish le g (some pos)) := by
  have hwpos : f.wpos = g.wpos := by
    obtain ⟨m, rfl, -⟩ := h
    rfl
  cases inner with
  | obj =>
    simp only [Kind.finish, xlObjEnd, hwpos]
    exact h.put _ _
  | list =>
    simp only [Kind.finish, xlListEnd, hwpos]
    exact (h.put _ _).setLine _

/-- The same calls do the same to both. -/
theorem exec {k : Kind} (s : Script le k) (h : Alike D f g) (hrun : s.exec f = some f') :
    ∃ g', s.exec g = some g' ∧ Alike D f' g' := by
  induction s generalizing f g f' with
  | nil =>
    cases hrun
    exact ⟨g, rfl, h⟩
  | add malloc key a rest ih =>
    simp only [Script.exec] at *
    split at hrun
    · rename_i pos k hcall
      rw [Script.run_eq] at hcall ⊢
      obtain ⟨k', hcall', hk⟩ := h.add (fun _ _ h => h.line a) hcall
      rw [hcall']
      exact ih hk hrun
    · cases hrun
  | append malloc x rest ih =>
    simp only [Script.exec] at *
    split at hrun
    · rename_i pos k hcall
      obtain ⟨k', hcall', hk⟩ := h.listAppend hcall
      rw [hcall']
      exact ih hk hrun
    · cases hrun
  | @node k inner malloc name content rest ihcontent ih =>
    simp only [Script.exec] at *
    split at hrun
    · rename_i pos k hcall
      split at hrun
      · rename_i c hcontent
        obtain ⟨k', hcall', hk⟩ := h.begin hcall
        obtain ⟨c', hcontent', hc⟩ := ihcontent hk hcontent
        simp only [hcall', hcontent']
        exact ih (hc.finish inner pos) hrun
      · cases hrun
    · cases hrun

end Alike

end

/-! ### A placeholder and a number -/

variable {le : Bool}

/-- The calls of one script and of another one behind it. -/
def Script.followedBy : {k : Kind} → Script le k → Script le k → Script le k
  | _, .nil, t => t
  | _, .add malloc key a rest, t => .add malloc key a (rest.followedBy t)
  | _, .append malloc x rest, t => .append malloc x (rest.followedBy t)
  | _, .node malloc name content rest, t => .node malloc name content (rest.followedBy t)

theorem Script.exec_followedBy {k : Kind} (s t : Script le k) (f : Frame) :
    (s.followedBy t).exec f = (s.exec f).bind t.exec := by
  induction s generalizing f with
  | nil => simp [followedBy, exec]
  | add malloc key a rest ih =>
    simp only [followedBy, exec]
    split
    · exact ih t _
    · rfl
  | append malloc x rest ih =>
    simp only [followedBy, exec]
    split
    · exact ih t _
    · rfl
  | node malloc name content rest _ ih =>
    simp only [followedBy, exec]
    split
    · split
      · exact ih t _
      · rfl
    · rfl

theorem Script.entries_followedBy (s t : Script le .obj) :
    (s.followedBy t).tree.entries = s.tree.entries ++ t.tree.entries := by
  match s with
  | .nil => simp [followedBy, tree, Tree.entries]
  | .add malloc key a rest => simp [followedBy, tree, rest.entries_followedBy t]
  | .node malloc name content rest => simp [followedBy, tree, Tree.entries, rest.entries_followedBy t]

/-- A frame that is filled, a number, and whatever is added behind it. -/
def Filling.number (b : Filling le) (malloc : Malloc) (key : Text) (u : UInt64) (post : Script le .obj) : Filling le :=
  { b with last := b.last.followedBy (.add malloc key (.uint u) post) }

section

variable {b : Filling le} {malloc : Malloc} {key : Text} {u : UInt64} {post : Script le .obj} {f g : Frame}

theorem Filling.number_run (h : (b.number malloc key u post).run = some f) :
    ∃ g p k, b.run = some g ∧ ((Adder.uint u : Adder le).call key).run le malloc g = (some p, k) ∧
      post.exec k = some f := by
  have hstart : (b.number malloc key u post).start = b.start := rfl
  unfold run at *
  rw [hstart] at h
  cases hs : b.start with
  | none => simp [hs] at h
  | some f₀ =>
    simp only [hs, number, Script.exec_followedBy] at h ⊢
    obtain ⟨g, hg, hrest⟩ := Option.bind_eq_some_iff.mp h
    simp only [Script.exec] at hrest
    split at hrest
    · rename_i p k hcall
      exact ⟨g, p, k, hg, hcall, hrest⟩
    · cases hrest

/-- The entries of the frame, with the number among them. -/
def Filling.row (b : Filling le) (key : Text) (u : UInt64) (post : Script le .obj) : List Entry :=
  b.last.tree.entries ++ (key.clip, .scalar (.uint u)) :: post.tree.entries

theorem Filling.number_entries (b : Filling le) (malloc : Malloc) (key : Text) (u : UInt64) (post : Script le .obj) :
    (b.number malloc key u post).last.tree.entries = b.row key u post := by
  simp [number, row, Script.entries_followedBy, Script.tree, Adder.value]

/-- The bytes of the line of the number. -/
def nine (d : UInt64) : Set UInt64 := { x | (x - d).toNat < 9 }

/-- The same call with another number: only the line is another one. -/
theorem alike_uint {bs : List UInt8} (h : g.Holds bs) {v : UInt64} {p q : UInt64} {k k' : Frame}
    (hu : ((Adder.uint u : Adder le).call key).run le malloc g = (some p, k))
    (hv : ((Adder.uint v : Adder le).call key).run le malloc g = (some q, k')) :
    Alike (nine (UInt64.ofNat (bs ++ key.clip.entry).length)) k k' := by
  have hapt : (headLen key).toNat < 2 ^ 62 := by
    have hlen := toNat_headLen key
    have hshort := key.short
    omega
  rw [Script.run_eq] at hu hv
  unfold Frame.add at hu hv
  cases hres : g.reserve malloc (headLen key) with
  | mk got r =>
  have hsame : ∀ w : UInt64, g.reserve malloc (((Adder.uint w : Adder le).call key).newlen le) = (got, r) :=
    fun _ => hres
  rw [hsame] at hu hv
  cases got with
  | false => simp at hu
  | true =>
    obtain ⟨hr, hroom, -⟩ := h.reserve hapt hres
    obtain ⟨hkey, -⟩ := hr.fillKey key (by have := Frame.Holds.length_clip_entry key; omega)
    have hline : Alike (nine (UInt64.ofNat (bs ++ key.clip.entry).length))
        ((r.fillKey key).append (n2b le u xlineTypeUint)) ((r.fillKey key).append (n2b le v xlineTypeUint)) := by
      refine ⟨(r.fillKey key).mem.write (r.fillKey key).wpos (n2b le v xlineTypeUint), ?_, ?_⟩
      · have hempty : ∀ w : UInt64, (n2b le w xlineTypeUint).isEmpty = false := fun _ => rfl
        simp only [Frame.append, Frame.put, length_n2b, hempty]
      · intro x hx
        have hfar : ¬ (x - (r.fillKey key).wpos).toNat < 9 := by
          rw [hkey.wpos]
          exact hx
        simp only [Frame.append, Frame.put, Mem.write, length_n2b, if_neg hfar]
    simp only [Prod.mk.injEq, Option.some.injEq] at hu hv
    obtain ⟨-, rfl⟩ := hu
    obtain ⟨-, rfl⟩ := hv
    exact hline.setLine _

/-- The header of the frame reaches over the number, and not over the end. -/
theorem number_header {bs : List UInt8} (h : g.Holds bs) {p : UInt64} {k : Frame}
    (hu : ((Adder.uint u : Adder le).call key).run le malloc g = (some p, k)) (hpost : post.exec k = some f) :
    ∃ w, f.line = n2b le (UInt64.ofNat w) xlineTypeObj ∧
      (bs ++ entryBytes le (k := .obj) (key.clip, .scalar (.uint u))).length ≤ w ∧
      w ≤ (bs ++ entryBytes le (k := .obj) (key.clip, .scalar (.uint u))).length + post.length := by
  obtain ⟨hk, hline⟩ := Script.add_holds h hu
  obtain ⟨-, hheader⟩ := post.exec_holds hk hpost
  rw [hheader, hline, hk.wpos]
  cases hr : post.refreshed _ with
  | none => exact ⟨_, rfl, le_rfl, Nat.le_add_right _ _⟩
  | some w =>
    have hbounds := post.refreshed_bounds hr
    exact ⟨w, rfl, hbounds.1.le, hbounds.2⟩

end

section

variable {m : Mem} {es : List Entry} {key : CString}

/-- The entries in front of a position. -/
theorem exists_cut {w : Nat} (hw : w ≤ boundary le es es.length) :
    ∃ k ≤ es.length, (∀ j < k, boundary le es j < w) ∧ w ≤ boundary le es k := by
  classical
  have hex : ∃ k, w ≤ boundary le es k := ⟨_, hw⟩
  exact ⟨Nat.find hex, Nat.find_le hw, fun j hj => Nat.lt_of_not_le (Nat.find_min hex hj), Nat.find_spec hex⟩

/-- The first entry with the key is in front of the number. -/
theorem find_earlier {pre post : List Entry} {e e' : Entry} {k : Nat} (hk : pre.length < k)
    (h : pre.find? (fun e => e.1.chars == key.chars) = some e') :
    ∃ j, ∃ hj : j < pre.length, pre[j] = e' ∧ (List.range k).find? (matchesAt key (pre ++ e :: post)) = some j := by
  obtain ⟨hkey, j, hj, hget, hbefore⟩ := List.find?_eq_some_iff_getElem.mp h
  have hsame : ∀ i, (hi : i < pre.length) → matchesAt key (pre ++ e :: post) i = (pre[i].1.chars == key.chars) := by
    intro i hi
    simp [matchesAt, List.getElem?_append_left hi, List.getElem?_eq_getElem hi]
  refine ⟨j, hj, hget, List.find?_range_eq_some.mpr ⟨?_, ?_, ?_⟩⟩
  · rw [hsame j hj, hget]
    exact hkey
  · exact List.mem_range.mpr (by omega)
  · intro i hi
    rw [hsame i (by omega)]
    exact hbefore i hi

/-- The first entry with the key is the number, or there is none. -/
theorem find_number {pre post : List Entry} {e : Entry} {k : Nat} (hk : pre.length < k)
    (h : pre.find? (fun e => e.1.chars == key.chars) = none) :
    (e.1.chars = key.chars → (List.range k).find? (matchesAt key (pre ++ e :: post)) = some pre.length) := by
  intro hkey
  have hbefore := List.find?_eq_none.mp h
  refine List.find?_range_eq_some.mpr ⟨?_, List.mem_range.mpr hk, ?_⟩
  · simp [matchesAt, hkey]
  · intro i hi
    have hne := hbefore _ (List.getElem_mem hi)
    simpa [matchesAt, List.getElem?_append_left hi, List.getElem?_eq_getElem hi] using hne

theorem find_long {k : Nat} (h : 64 < key.chars.length) : (List.range k).find? (matchesAt key es) = none := by
  rw [List.find?_eq_none]
  intro i _ hmatch
  cases hi : es[i]? with
  | none => simp [matchesAt, hi] at hmatch
  | some e =>
    have hsame : e.1.chars = key.chars := by simpa [matchesAt, hi] using hmatch
    have hmost := e.1.atMost
    rw [hsame] at hmost
    omega

theorem Stands.unique {a : UInt64} {xs ys : List UInt8} (hx : Stands m a xs) (hy : Stands m a ys)
    (hlen : xs.length = ys.length) : xs = ys := by
  rw [hx.eq_bytes, hlen, ← hy.eq_bytes]

/-- Bytes are written where they stand. -/
theorem Mem.write_same {a : UInt64} {xs : List UInt8} (h : Stands m a xs) : m.write a xs = m := by
  funext x
  unfold Mem.write
  split
  · rename_i hx
    have hat := h _ hx
    have hback : a + UInt64.ofNat (x - a).toNat = x := by
      rw [UInt64.ofNat_toNat]
      apply UInt64.toNat_inj.mp
      have := x.toNat_lt
      have := a.toNat_lt
      simp only [UInt64.toNat_add, UInt64.toNat_sub]
      omega
    rw [hback] at hat
    exact hat.symm
  · rfl

theorem Frame.put_same {f : Frame} {a : UInt64} {xs : List UInt8} (h : Stands f.mem a xs) (hin : f.inside = true)
    (hroom : a.toNat + xs.length ≤ f.room) : f.put a xs = f := by
  cases f
  simp only at h hin hroom
  simp [Frame.put, Mem.write_same h, hin, hroom]

/-- The bytes of the number make one frame the other. -/
theorem Alike.put_eq {f g : Frame} {d : UInt64} {xs : List UInt8} (h : Alike (nine d) f g) (hlen : xs.length = 9)
    (hstands : Stands g.mem d xs) (hin : f.inside = true) (hroom : d.toNat + 9 ≤ f.room) : f.put d xs = g := by
  obtain ⟨m', rfl, hm⟩ := h
  have hmem : f.mem.write d xs = m' := by
    have hsame : m'.write d xs = m' := Mem.write_same hstands
    funext x
    by_cases hx : (x - d).toNat < 9
    · have hat := congrFun hsame x
      simp only [Mem.write, hlen, if_pos hx] at hat ⊢
      exact hat
    · simp only [Mem.write, hlen, if_neg hx]
      exact hm hx
  simp [Frame.put, hmem, hin, hlen, hroom]

end

theorem boundary_append (pre post : List Entry) {j : Nat} (hj : j ≤ pre.length) :
    boundary le (pre ++ post) j = boundary le pre j := by
  unfold boundary
  rw [List.take_append_of_le_length hj]

theorem Row.value {m : Mem} {ptr : UInt64} {es : List Entry} (h : Row le m ptr es) {j : Nat} (hj : j < es.length) :
    Stands m (valueOf le m ptr es j) (es[j].2.bytes le) := by
  have hentry := h.entry hj
  have hvalue := value_stands hentry
  rw [valueOf, hvalue]
  exact (stands_append.mp hentry).2

/-- The value that the patch meets is the number, or is already what the patch would write. -/
def Filling.Patchable (b : Filling le) (key : Text) (ph v : UInt64) : Prop :=
  match b.last.tree.entries.find? (fun e => e.1.chars == key.chars) with
  | some e => v = ph ∧ (e.2.bytes le).take 9 = n2b le v xlineTypeUint
  | none => key.chars.length ≤ 64 ∨ v = ph

/-- A lookup on a fresh parser of the frame with the placeholder finds the first entry with the key up to it, or nothing
but what is behind it. -/
theorem lookup_number {b : Filling le} {malloc : Malloc} {key : Text} {post : Script le .obj} {u : UInt64} {f : Frame}
    (hf : (b.number malloc key u post).run = some f) {n : Nat} (hn : (b.row key u post).length < n) :
    ∃ k, b.last.tree.entries.length < k ∧ lookup le f key.toCString n =
      ((List.range k).find? (matchesAt key.toCString (b.row key u post))).map
        (valueOf le f.mem 0 (b.row key u post)) := by
  obtain ⟨hrow, -, hroom, hshort⟩ := Filling.holds_row hf
  rw [Filling.number_entries] at hrow hroom
  obtain ⟨start, p, k, hstart, hcall, hpost⟩ := Filling.number_run hf
  obtain ⟨hholds, -, -⟩ := b.holds hstart
  obtain ⟨w, hline, hover, hbelow⟩ := number_header hholds hcall hpost
  have htotal : boundary le (b.row key u post) (b.row key u post).length =
      (b.last.tree.bytes le ++ entryBytes le (k := .obj) (key.clip, .scalar (.uint u))).length + post.length := by
    rw [boundary_length, Filling.row, Script.length, Tree.bytes_entries, Tree.bytes_entries]
    simp [Nat.add_assoc]
  have hw : (UInt64.ofNat w).toNat = w := by
    rw [UInt64.toNat_ofNat']
    omega
  have hwithin : w ≤ boundary le (b.row key u post) (b.row key u post).length := by omega
  obtain ⟨c, hc, hbefore, hend⟩ := exists_cut hwithin
  refine ⟨c, ?_, hrow.lookup hline hc (fun j hj => by rw [hw]; exact hbefore j hj) (by rw [hw]; exact hend) hn⟩
  by_contra hle
  have hmono : boundary le (b.row key u post) c ≤ boundary le (b.row key u post) b.last.tree.entries.length :=
    boundary_mono (by omega)
  have hpre : boundary le (b.row key u post) b.last.tree.entries.length = (b.last.tree.bytes le).length := by
    rw [Filling.row, boundary_append _ _ le_rfl, boundary_length, Tree.bytes_entries]
  have hentry : 9 ≤ (entryBytes le (k := .obj) (key.clip, Value.scalar (.uint u))).length := by
    simp only [entryBytes, List.length_append, Value.length_bytes]
    omega
  rw [List.length_append] at hover
  omega

/-- Where the line of the number is. -/
def Filling.place (b : Filling le) (key : Text) : UInt64 := UInt64.ofNat (b.last.tree.bytes le ++ key.clip.entry).length

theorem place_row {b : Filling le} {key : Text} {post : Script le .obj} {u : UInt64} {m : Mem}
    (h : Row le m 0 (b.row key u post)) :
    valueOf le m 0 (b.row key u post) b.last.tree.entries.length = b.place key ∧
      Stands m (b.place key) (n2b le u xlineTypeUint) ∧
      (b.place key).toNat = boundary le (b.row key u post) b.last.tree.entries.length + key.clip.entry.length ∧
      (b.place key).toNat + 9 ≤ boundary le (b.row key u post) (b.row key u post).length := by
  have hlt : b.last.tree.entries.length < (b.row key u post).length := by simp [Filling.row]
  have hget : (b.row key u post)[b.last.tree.entries.length] = (key.clip, .scalar (.uint u)) := by simp [Filling.row]
  have hbound : boundary le (b.row key u post) b.last.tree.entries.length = (b.last.tree.bytes le).length := by
    rw [Filling.row, boundary_append _ _ le_rfl, boundary_length, Tree.bytes_entries]
  have hplace : valueOf le m 0 (b.row key u post) b.last.tree.entries.length = b.place key := by
    rw [h.valueOf_eq hlt, hget, hbound, UInt64.zero_add, Filling.place, List.length_append]
    rfl
  have hvalue := h.value hlt
  rw [hplace, hget] at hvalue
  have hsucc := @boundary_succ le _ _ _ hlt
  have hmono : boundary le (b.row key u post) (b.last.tree.entries.length + 1) ≤ _ := boundary_mono hlt
  have hshort := h.boundary_lt_two_pow (b.row key u post).length
  rw [hget] at hsucc
  have hentry : (entryBytes le (k := .obj) (key.clip, Value.scalar (.uint u))).length = key.clip.entry.length + 9 := by
    simp [entryBytes, labelBytes, Value.body, Scalar.body]
  have hnat : (b.place key).toNat = boundary le (b.row key u post) b.last.tree.entries.length + key.clip.entry.length := by
    rw [Filling.place, UInt64.toNat_ofNat', List.length_append, ← hbound]
    omega
  refine ⟨hplace, ?_, hnat, by omega⟩
  simpa [Value.bytes, Value.body, Value.word, Value.type, Scalar.body, Scalar.word, Scalar.type] using hvalue

/-- A line of an earlier entry ends in front of the number. -/
theorem value_before {b : Filling le} {key : Text} {post : Script le .obj} {u : UInt64} {m : Mem}
    (h : Row le m 0 (b.row key u post)) {j : Nat} (hj : j < b.last.tree.entries.length) :
    (valueOf le m 0 (b.row key u post) j).toNat + 9 ≤ (b.place key).toNat := by
  obtain ⟨-, -, hnat, -⟩ := place_row h
  have hlt : j < (b.row key u post).length := by
    simp only [Filling.row, List.length_append]
    omega
  have hshort := h.boundary_lt_two_pow (j + 1)
  have hmono : boundary le (b.row key u post) (j + 1) ≤ boundary le (b.row key u post) b.last.tree.entries.length :=
    boundary_mono hj
  have hsucc := @boundary_succ le _ _ _ hlt
  simp only [entryBytes, List.length_append, Value.length_bytes] at hsucc
  rw [h.valueOf_eq hlt, UInt64.zero_add, UInt64.toNat_ofNat', Nat.mod_eq_of_lt (by omega)]
  omega

/-- The nine bytes of a line are behind the nine bytes of one that ends in front of it. -/
theorem far_behind {a d : UInt64} {i : Nat} (h : a.toNat + 9 ≤ d.toNat) (hd : d.toNat < 2 ^ 60) (hi : i < 9) :
    9 ≤ (d + UInt64.ofNat i - a).toNat := by
  rw [UInt64.toNat_sub, UInt64.toNat_add, UInt64.toNat_ofNat']
  omega

/-- For every filling with a number among any other entries: patching the placeholder through a fresh parser gives the
frame that the same calls with the number give, if and only if the patch finds the placeholder or has nothing to do. -/
theorem patched_is_built (b : Filling le) (malloc : Malloc) (key : Text) (post : Script le .obj) (ph v : UInt64)
    {f g : Frame} (hf : (b.number malloc key ph post).run = some f) (hg : (b.number malloc key v post).run = some g)
    {n : Nat} (hn : (b.row key ph post).length < n) :
    (xlSetValue le key.toCString n v ((xlParser le frameLine).val f.mem) f).2 = g ↔ b.Patchable key ph v := by
  obtain ⟨hrow, hin, hroom, hshort⟩ := Filling.holds_row hf
  obtain ⟨hrow', -, -, -⟩ := Filling.holds_row hg
  rw [Filling.number_entries] at hrow hroom hrow'
  obtain ⟨start, p, k, hstart, hcall, hpost⟩ := Filling.number_run hf
  obtain ⟨start', p', k', hstart', hcall', hpost'⟩ := Filling.number_run hg
  obtain rfl : start = start' := Option.some.inj (hstart.symm.trans hstart')
  obtain ⟨hholds, -, -⟩ := b.holds hstart
  obtain ⟨g', hg', halike⟩ := (alike_uint hholds hcall hcall').exec post hpost
  obtain rfl : g' = g := Option.some.inj (hg'.symm.trans hpost')
  obtain ⟨c, hc, hlookup⟩ := lookup_number hf hn
  have halike : Alike (nine (b.place key)) f g' := halike
  obtain ⟨hplace, hph, -, hend⟩ := place_row hrow
  obtain ⟨-, hv, -, -⟩ := place_row hrow'
  have hspace : (b.place key).toNat + 9 ≤ f.room := hend.trans hroom
  have hput : f.put (b.place key) (n2b le v xlineTypeUint) = g' := halike.put_eq (length_n2b _ _ _) hv hin hspace
  have hsame : ph = v → f = g' := by
    rintro rfl
    exact Option.some.inj (hf.symm.trans hg)
  have hdiffer : Stands g'.mem (b.place key) (n2b le ph xlineTypeUint) → ph = v := fun hstands =>
    n2b_injective (hstands.unique hv (by simp))
  have hset : (xlSetValue le key.toCString n v ((xlParser le frameLine).val f.mem) f).2 =
      match lookup le f key.toCString n with
      | some val => f.put val (n2b le v xlineTypeUint)
      | none => f := by
    unfold xlSetValue lookup
    split <;> simp_all only
  rw [hset, hlookup]
  unfold Filling.Patchable
  cases hfirst : b.last.tree.entries.find? (fun e => e.1.chars == key.chars) with
  | none =>
    simp only
    by_cases hlong : key.chars.length ≤ 64
    · have hfind : (List.range c).find? (matchesAt key.toCString (b.row key ph post)) =
          some b.last.tree.entries.length := find_number hc hfirst (key.chars_clip hlong)
      simp only [hfind, Option.map_some, hplace, hput, hlong, true_or]
    · have hfind : (List.range c).find? (matchesAt key.toCString (b.row key ph post)) = none :=
        find_long (Nat.lt_of_not_le hlong)
      simp only [hfind, Option.map_none, hlong, false_or]
      exact ⟨fun h => (hdiffer (h ▸ hph)).symm, fun h => hsame h.symm⟩
  | some e =>
    obtain ⟨j, hj, hget, hfind⟩ := @find_earlier _ _ post.tree.entries (key.clip, .scalar (.uint ph)) _ _ hc hfirst
    rw [← Filling.row] at hfind
    have hlt : j < (b.row key ph post).length := by
      simp only [Filling.row, List.length_append]
      omega
    have hget' : (b.row key ph post)[j] = e := by simp [Filling.row, List.getElem_append_left hj, hget]
    have hvalue := hrow.value hlt
    rw [hget'] at hvalue
    have hbefore := value_before hrow hj
    simp only [hfind, Option.map_some]
    have hnine : Stands f.mem (valueOf le f.mem 0 (b.row key ph post) j) ((e.2.bytes le).take 9) := by
      rw [← List.take_append_drop 9 (e.2.bytes le)] at hvalue
      exact (stands_append.mp hvalue).1
    have hlen : ((e.2.bytes le).take 9).length = 9 := by
      rw [List.length_take, Value.length_bytes]
      omega
    constructor
    · intro h
      -- the patch was written in front of the placeholder, which is still there
      have hkept : Stands g'.mem (b.place key) (n2b le ph xlineTypeUint) := by
        rw [← h]
        exact hph.off fun i hi => by
          rw [length_n2b] at hi ⊢
          exact far_behind hbefore (by omega) hi
      obtain rfl := hdiffer hkept
      obtain rfl := hsame rfl
      refine ⟨rfl, hnine.unique ?_ (by simp [hlen])⟩
      have hwritten : Stands (f.put (valueOf le f.mem 0 (b.row key ph post) j) (n2b le ph xlineTypeUint)).mem _ _ :=
        Stands.write (by simp)
      rwa [h] at hwritten
    · rintro ⟨rfl, hbytes⟩
      rw [hbytes] at hnine
      rw [Frame.put_same hnine hin (by rw [length_n2b]; omega)]
      exact hsame rfl

/-- A placeholder between entries with other keys. -/
theorem patched_is_built_sample : ∃ f g, (nestedLast.number plenty newKey 0 nested).run = some f ∧
    (nestedLast.number plenty newKey 5 nested).run = some g ∧
    (xlSetValue false newKey.toCString 8 5 ((xlParser false frameLine).val f.mem) f).2 = g :=
  ⟨_, _, rfl, rfl, (@patched_is_built _ nestedLast plenty newKey nested 0 5 _ _ rfl rfl 8 (by decide)).mpr
    (.inl (by decide))⟩

/-- The patch of a number under a key of 65 bytes finds nothing, and the placeholder stays. -/
theorem long_key_kept : ∃ f g, (noEntries.number plenty longKey 0 .nil).run = some f ∧
    (noEntries.number plenty longKey 5 .nil).run = some g ∧
    (xlSetValue false longKey.toCString 2 5 ((xlParser false frameLine).val f.mem) f).2 ≠ g := by
  refine ⟨_, _, rfl, rfl, ?_⟩
  intro h
  exact absurd (congrArg (fun k => k.mem.bytes (noEntries.place longKey) 9) h) (by decide +kernel)

end Wenas.Xline
