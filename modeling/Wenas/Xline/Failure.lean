import Wenas.Xline.Contents

/-!
# When an allocation fails

`__xl_realloc` stores the new size in the frame before it asks for the block. A call that gets none returns `XEOF` and
leaves a frame that claims more space than it has.
-/
namespace Wenas.Xline

/-- The calls on a frame. -/
inductive Builder where
  | append (malloc : Malloc) (c : Append)
  | objEnd (pos : Option UInt64)
  | listEnd (pos : Option UInt64)
  | fixed
  | clear

def Builder.run (le : Bool) (f : Frame) : Builder → Frame
  | .append malloc c => (c.run le malloc f).2
  | .objEnd pos => xlObjEnd le f pos
  | .listEnd pos => xlListEnd le f pos
  | .fixed => xlFixed le f
  | .clear => xlClear f

/-- The call asks for a block, and there is none. -/
def Append.Fails (le : Bool) (malloc : Malloc) (f : Frame) (c : Append) : Prop :=
  f.size - f.wpos < c.newlen le ∧ malloc.give (sizeofFrame + (f.size * 2 + c.newlen le)) = none

/-- A copied line lies in memory, and a header is written behind its `xl_obj_begin`. -/
def Builder.Apt (le : Bool) (f : Frame) : Builder → Prop
  | .append _ c => c.Apt le
  | .objEnd pos => ∀ p ∈ pos, p.toNat + 9 ≤ f.wpos.toNat
  | .listEnd pos => ∀ p ∈ pos, p.toNat + 9 ≤ f.wpos.toNat
  | _ => True

/-- Every call of a run gets what it may get. -/
def Apt (le : Bool) : List Builder → Frame → Prop
  | [], _ => True
  | b :: bs, f => b.Apt le f ∧ Apt le bs (b.run le f)

/-- `size` is what is allocated for the body, and all that was written is inside. -/
def Frame.Whole (f : Frame) : Prop := f.size.toNat = f.room ∧ f.inside = true

/-- Every call of a run whose allocation fails returns `XEOF` and leaves the frame as it was, and every frame is
whole. -/
def Intact (le : Bool) : List Builder → Frame → Prop
  | [], f => f.Whole
  | b :: bs, f =>
    f.Whole ∧ (∀ malloc c, b = .append malloc c → c.Fails le malloc f → c.run le malloc f = (none, f)) ∧
      Intact le bs (b.run le f)

/-- No allocation of a run fails. -/
def Granted (le : Bool) : List Builder → Frame → Prop
  | [], _ => True
  | b :: bs, f => (∀ malloc c, b = .append malloc c → ¬ c.Fails le malloc f) ∧ Granted le bs (b.run le f)

section

variable {le : Bool} {malloc : Malloc} {f : Frame} {bs : List UInt8} {c : Append}

/-- What a failed allocation leaves. -/
theorem Append.run_of_fails (h : c.Fails le malloc f) :
    c.run le malloc f = (none, { f with size := f.size * 2 + c.newlen le }) := by
  apply run_of_reserve
  simp [Frame.reserve, Frame.realloc, h.1, h.2]

theorem Append.run_of_not_fails (h : ¬ c.Fails le malloc f) : ∃ p f', c.run le malloc f = (some p, f') := by
  have hres : ∃ g, f.reserve malloc (c.newlen le) = (true, g) := by
    unfold Frame.reserve
    split
    · rename_i hlt
      unfold Frame.realloc
      cases hm : malloc.give (sizeofFrame + (f.size * 2 + c.newlen le)) with
      | none => exact absurd ⟨hlt, hm⟩ h
      | some m => simp [hm]
    · exact ⟨f, rfl⟩
  obtain ⟨g, hg⟩ := hres
  cases c <;> simp only [newlen] at hg <;>
    simp [run, xlObjBegin, xlAddWord, xlAddStr, xlAddBin, xlAddObj, xlAddInt, xlAddUint, xlAddFloat, xlAddPtr,
      xlAddNumber, xlListAppend, xlListAdd, Frame.add, hg]

/-- The frame that a failed allocation leaves is another one: its size has grown. -/
theorem Append.fails_changes (h : f.Holds bs) (hc : c.Apt le) (hfails : c.Fails le malloc f) :
    c.run le malloc f ≠ (none, f) := by
  intro hsame
  rw [run_of_fails hfails] at hsame
  have hsize : f.size * 2 + c.newlen le = f.size := congrArg Frame.size (Prod.ext_iff.mp hsame).2
  have hnew := newlen_lt hc
  have hlt := UInt64.lt_iff_toNat_lt.mp hfails.1
  have hroom := h.size
  have hshort := h.short
  have hnat := congrArg UInt64.toNat hsize
  have htwo : (2 : UInt64).toNat = 2 := rfl
  simp only [UInt64.toNat_add, UInt64.toNat_mul, htwo] at hnat
  omega

theorem Frame.Holds.whole (h : f.Holds bs) : f.Whole := ⟨h.size, h.inside⟩

/-- A header behind `wpos` splits the contents. -/
theorem Frame.Holds.end (le : Bool) (h : f.Holds bs) {p : UInt64} (hp : p.toNat + 9 ≤ f.wpos.toNat) (type : UInt8) :
    ∃ bs', (f.put p (n2b le (f.wpos - p - xlineSize) type)).Holds bs' := by
  have hwpos := h.toNat_wpos
  have hlen : (bs.take p.toNat).length = p.toNat := by
    rw [List.length_take]
    omega
  have hgap : ((bs.drop p.toNat).take 9).length = 9 := by
    rw [List.length_take, List.length_drop]
    omega
  have hsplit : bs = (bs.take p.toNat ++ (bs.drop p.toNat).take 9) ++ (bs.drop p.toNat).drop 9 := by
    rw [List.append_assoc, List.take_append_drop, List.take_append_drop]
  rw [hsplit] at h
  have hclose := (h.close le hgap type).1
  rw [hlen, UInt64.ofNat_toNat] at hclose
  exact ⟨_, hclose⟩

/-- A call whose allocation does not fail keeps the frame whole. -/
theorem Builder.holds (h : f.Holds bs) {b : Builder} (hb : b.Apt le f)
    (hgranted : ∀ malloc c, b = .append malloc c → ¬ c.Fails le malloc f) : ∃ bs', (b.run le f).Holds bs' := by
  cases b with
  | append malloc c =>
    obtain ⟨p, f', hrun⟩ := Append.run_of_not_fails (hgranted malloc c rfl)
    obtain ⟨open', -, hholds, -⟩ := Append.holds h hb hrun
    have hsame : (Builder.append malloc c).run le f = f' := by simp [run, hrun]
    exact ⟨_, hsame ▸ hholds⟩
  | objEnd pos =>
    cases pos with
    | none => exact ⟨bs, h⟩
    | some p => exact h.end le (hb p rfl) _
  | listEnd pos =>
    cases pos with
    | none => exact ⟨bs, h⟩
    | some p =>
      obtain ⟨bs', hholds⟩ := h.end le (hb p rfl) xlineTypeList
      exact ⟨bs', hholds.setLine _⟩
  | fixed => exact ⟨bs, h.setLine _⟩
  | clear => exact ⟨[], rfl, Stands.nil _ _, Nat.zero_le _, h.size, h.short, h.inside⟩

theorem intact_iff (run : List Builder) (h : f.Holds bs)
    (hapt : Apt le run f) : Intact le run f ↔ Granted le run f := by
  induction run generalizing f bs with
  | nil => exact iff_of_true h.whole trivial
  | cons b run ih =>
    obtain ⟨hb, hrest⟩ := hapt
    constructor
    · rintro ⟨-, hkeeps, hintact⟩
      have hgranted : ∀ malloc c, b = .append malloc c → ¬ c.Fails le malloc f := by
        rintro malloc c rfl hfails
        exact Append.fails_changes h hb hfails (hkeeps malloc c rfl hfails)
      obtain ⟨bs', h'⟩ := Builder.holds h hb hgranted
      exact ⟨hgranted, (ih h' hrest).mp hintact⟩
    · rintro ⟨hgranted, hgrants⟩
      obtain ⟨bs', h'⟩ := Builder.holds h hb hgranted
      exact ⟨h.whole, fun malloc c hc hfails => absurd hfails (hgranted malloc c hc), (ih h' hrest).mpr hgrants⟩

end

/-- In every run of the calls on a frame, from its creation on: what the failed allocations leave is intact if and only
if there are none. -/
theorem failed_appends (le : Bool) {malloc : Malloc} {size : UInt64} (hsize : size.toNat + 176 < 2 ^ 64) {f : Frame}
    (hmade : xlCreator malloc size = some f) (run : List Builder) (hapt : Apt le run f) :
    Intact le run f ↔ Granted le run f :=
  intact_iff run (Frame.xlCreator_holds hsize hmade) hapt

/-- A `malloc` that always finds a block of zeros. -/
def plenty : Malloc where
  give n := if n.toNat < 2 ^ 60 then some fun _ => 0 else none
  limit n m h := by
    split at h
    · assumption
    · cases h

def exhausted : Malloc := ⟨fun _ => none, by simp⟩

/-- The key `k`. -/
def shortKey : Text := ⟨⟨[107], by decide⟩, by decide⟩

/-- A new frame of `size` bytes. -/
def freshFrame (size : UInt64) : Frame := ⟨size, 0, 0, 0, fun _ => 0, size.toNat, true⟩

/-- A second number that is not added and a third one that is. -/
def lostNumber : List Builder :=
  [.append plenty (.int shortKey 1), .append exhausted (.int shortKey 2), .append plenty (.int shortKey 3)]

/-- A number, and an object with a second one. The first call behind 16 bytes needs a new block, the next one does not. -/
def twoNumbers : List Builder :=
  [.append plenty (.int shortKey 1), .append plenty (.objBegin (some shortKey)), .append exhausted (.int shortKey 2),
    .objEnd (some 15), .fixed]

theorem failed_appends_sample : Intact false twoNumbers (freshFrame 16) := by
  have hapt : Apt false twoNumbers (freshFrame 16) :=
    ⟨trivial, trivial, trivial, by rintro p ⟨⟩; decide, trivial, trivial⟩
  refine (@failed_appends false plenty 16 (by decide) (freshFrame 16) rfl twoNumbers hapt).mpr ⟨?_, ?_, ?_, ?_⟩
  · rintro malloc c ⟨⟩ ⟨hlt, -⟩
    exact absurd hlt (by decide)
  · rintro malloc c ⟨⟩ ⟨-, hnone⟩
    cases hnone
  · rintro malloc c ⟨⟩ ⟨hlt, -⟩
    exact absurd hlt (by decide)
  · exact ⟨fun _ _ h => (by cases h), fun _ _ h => (by cases h), trivial⟩

/-- The third number is written over the end of the body, which is 16 bytes long. -/
theorem append_outside : xlCreator plenty 16 = some (freshFrame 16) ∧ Apt false lostNumber (freshFrame 16) ∧
    ¬ Intact false lostNumber (freshFrame 16) := by
  refine ⟨rfl, ⟨trivial, trivial, trivial, trivial⟩, ?_⟩
  rintro ⟨-, -, -, -, -, -, hwhole⟩
  exact absurd hwhole.2 (by decide +kernel)

end Wenas.Xline
