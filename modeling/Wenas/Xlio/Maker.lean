import Mathlib

/-!
# The path of a stream

What `xlio_stream_maker` does with the uri of a request. Its length is kept in an `int`, the search for a last byte that
is no slash has no end at the start of the string, and the copy is as long as what it finds.
-/
namespace Wenas.Xlio.Maker

/-- A string up to its NUL. -/
structure CString where
  bytes : List UInt8
  noNul : 0 ∉ bytes

def slength (s : CString) : Nat := s.bytes.length

/-- A `size_t` in an `int`. -/
def toInt (n : Nat) : Int := (BitVec.ofNat 32 n).toInt

/-- `char uri[2048]`. -/
def uriSize : Nat := 2048

/-- The fields of `xlio_stream_t` that the path is split into. -/
structure PathFields where
  uri : List UInt8
  uriLen : Nat
  srcNameLen : Nat
  srcNamePos : Nat

/-- `while (uri[ios->uri_len-1] == '/')` from a length on. At a length of 0 it reads before the string. -/
def trimFrom (s : CString) : Nat → Option Nat
  | 0 => none
  | n + 1 =>
    match (s.bytes ++ [0])[n]? with
    | none => none
    | some c => if c = 47 then trimFrom s n else some (n + 1)

/-- The loop from an `int`; below 0 it reads before the string, too. -/
def trim (s : CString) (uriLen : Int) : Option Nat := trimFrom s uriLen.toNat

/-- `mcopy` into the field, which is zero before, unless it writes outside of it. -/
def copyUri (s : CString) (n : Nat) : Option (List UInt8) :=
  if n ≤ uriSize then some (s.bytes.take n ++ List.replicate (uriSize - n) 0) else none

/-- `src_name_len`, counted from the end of the first `n` bytes down to a slash. -/
def nameLen (uri : List UInt8) : Nat → Nat
  | 0 => 0
  | n + 1 => if uri[n]? = some 47 then 0 else nameLen uri n + 1

/-- The path part of `xlio_stream_maker`, unless it reads or writes outside. -/
def streamMaker (uri : CString) : Option PathFields :=
  match trim uri (toInt (slength uri)) with
  | none => none
  | some uriLen =>
    match copyUri uri uriLen with
    | none => none
    | some field => some ⟨field, uriLen, nameLen field uriLen, uriLen - nameLen field uriLen⟩

/-! ### What it should be -/

/-- The string without its trailing slashes. -/
def stripped (uri : CString) : List UInt8 := uri.bytes.rdropWhile (· == 47)

/-- The field holds the stripped string and a NUL, and the position splits off its last component. -/
structure Splits (uri : CString) (r : PathFields) : Prop where
  size : r.uri.length = uriSize
  terminated : 0 ∈ r.uri
  stored : r.uri.takeWhile (· != 0) = stripped uri
  uriLen : r.uriLen = (stripped uri).length
  whole : r.srcNamePos + r.srcNameLen = r.uriLen
  name : 47 ∉ (stripped uri).drop r.srcNamePos
  before : r.srcNamePos = 0 ∨ (stripped uri)[r.srcNamePos - 1]? = some 47

section

variable {uri : CString} {n : Nat} {r : PathFields} {field l : List UInt8}

theorem toInt_le (n : Nat) : toInt n ≤ n := by
  have hle : (BitVec.ofNat 32 n).toInt ≤ (BitVec.ofNat 32 n).toNat := by
    rw [BitVec.toInt_eq_toNat_cond]
    split <;> omega
  refine hle.trans ?_
  rw [BitVec.toNat_ofNat]
  exact_mod_cast Nat.mod_le n _

/-- The search finds what is left of the bytes before it without slashes at their end. -/
theorem trimFrom_eq (h : n ≤ uri.bytes.length) :
    trimFrom uri n = if (uri.bytes.take n).rdropWhile (· == 47) = [] then none
      else some ((uri.bytes.take n).rdropWhile (· == 47)).length := by
  induction n with
  | zero => rfl
  | succ n ih =>
    rw [trimFrom, List.getElem?_append_left h, List.getElem?_eq_getElem h, List.take_succ_eq_append_getElem h]
    by_cases hslash : uri.bytes[n] = 47
    · simp only [hslash, if_true]
      rw [List.rdropWhile_concat_pos _ _ _ (by decide), ih (Nat.le_of_succ_le h)]
    · simp only [hslash, if_false]
      rw [List.rdropWhile_concat_neg _ _ _ (by simpa using hslash), if_neg (List.concat_ne_nil _ _), List.length_append,
        List.length_take, Nat.min_eq_left (Nat.le_of_succ_le h), List.length_singleton]

theorem rdropWhile_append {p : UInt8 → Bool} {rest : List UInt8} (h : ∀ x ∈ rest, p x = true) :
    (l ++ rest).rdropWhile p = l.rdropWhile p := by
  induction rest using List.reverseRecOn with
  | nil => rw [List.append_nil]
  | append_singleton rest x ih =>
    rw [← List.append_assoc, List.rdropWhile_concat_pos _ _ _ (h x (by simp))]
    exact ih fun y hy => h y (List.mem_append_left _ hy)

/-- The end of the string is made of slashes, of which any number may be left out. -/
theorem take_stripped (hle : (stripped uri).length ≤ n) : (uri.bytes.take n).rdropWhile (· == 47) = stripped uri := by
  have hsplit : uri.bytes = stripped uri ++ uri.bytes.rtakeWhile (· == 47) := List.rdropWhile_append_rtakeWhile.symm
  have hslashes : ∀ x ∈ (uri.bytes.rtakeWhile (· == 47)).take (n - (stripped uri).length), (x == 47) = true :=
    fun _ hx => List.mem_rtakeWhile_imp (p := (· == 47)) (List.mem_of_mem_take hx)
  rw [hsplit, List.take_append, List.take_of_length_le hle, rdropWhile_append hslashes]
  exact List.rdropWhile_idempotent ..

theorem nameLen_le : nameLen l n ≤ n := by
  induction n with
  | zero => exact Nat.le_refl 0
  | succ n ih =>
    rw [nameLen]
    split
    · exact Nat.zero_le _
    · exact Nat.succ_le_succ ih

theorem nameLen_append (h : n ≤ l.length) (rest : List UInt8) : nameLen (l ++ rest) n = nameLen l n := by
  induction n with
  | zero => rfl
  | succ n ih => rw [nameLen, nameLen, List.getElem?_append_left h, ih (Nat.le_of_succ_le h)]

/-- The name is what follows the last slash. -/
theorem nameLen_spec (l : List UInt8) : 47 ∉ l.drop (l.length - nameLen l l.length) ∧
    (l.length - nameLen l l.length = 0 ∨ l[l.length - nameLen l l.length - 1]? = some 47) := by
  induction l using List.reverseRecOn with
  | nil => simp
  | append_singleton l x ih =>
    obtain ⟨hname, hbefore⟩ := ih
    rw [List.length_append, List.length_singleton, nameLen, List.getElem?_concat_length, nameLen_append (Nat.le_refl _)]
    by_cases hx : x = 47
    · simp [hx]
    · have hne : ¬ some x = some 47 := fun heq => hx (Option.some.inj heq)
      rw [if_neg hne, Nat.add_sub_add_right, List.drop_append_of_le_length (Nat.sub_le ..)]
      refine ⟨fun hin => ?_, hbefore.imp_right fun hslash => ?_⟩
      · obtain hin | hin := List.mem_append.mp hin
        · exact hname hin
        · exact hx (List.mem_singleton.mp hin).symm
      · rw [List.getElem?_append_left (List.getElem?_eq_some_iff.mp hslash).1, hslash]

/-- What is copied ends at the first NUL behind it. -/
theorem takeWhile_field (k : Nat) : (uri.bytes.take n ++ List.replicate k 0).takeWhile (· != 0) = uri.bytes.take n := by
  have hnot : ∀ b ∈ uri.bytes.take n, (b != 0) = true := by
    intro b hb
    have hne : b ≠ 0 := fun heq => uri.noNul (heq ▸ List.mem_of_mem_take hb)
    simpa using hne
  rw [List.takeWhile_append_of_pos hnot]
  cases k with
  | zero => simp
  | succ k => simp [List.replicate_succ]

theorem stripped_prefix : stripped uri <+: uri.bytes := List.rdropWhile_prefix ..

end

/-- The maker splits the path, inside the string and the field, exactly if the stripped string is not empty, leaves room
for a NUL in the field, and is not longer than the `int` says. -/
theorem maker_splits (uri : CString) : (∃ r, streamMaker uri = some r ∧ Splits uri r) ↔
    stripped uri ≠ [] ∧ (stripped uri).length < uriSize ∧ ((stripped uri).length : Int) ≤ toInt (slength uri) := by
  have hint := toInt_le (slength uri)
  have hle : (toInt (slength uri)).toNat ≤ uri.bytes.length := by
    rw [slength] at hint ⊢
    omega
  have htrim := trimFrom_eq hle
  constructor
  · rintro ⟨r, hr, hsplits⟩
    cases htrimmed : trim uri (toInt (slength uri)) with
    | none => simp [streamMaker, htrimmed] at hr
    | some n =>
      cases hcopied : copyUri uri n with
      | none => simp [streamMaker, htrimmed, hcopied] at hr
      | some field =>
        simp only [streamMaker, htrimmed, hcopied, Option.some.injEq] at hr
        subst hr
        rw [← trim, htrimmed] at htrim
        obtain ⟨hne, hn⟩ := Option.ite_none_left_eq_some.mp htrim.symm
        rw [Option.some.injEq] at hn
        have hpos := List.length_pos_iff.mpr hne
        have hshort := (List.rdropWhile_prefix (· == 47) (l := uri.bytes.take (toInt (slength uri)).toNat)).length_le
        rw [hn] at hpos hshort
        rw [List.length_take, Nat.min_eq_left hle] at hshort
        obtain ⟨hsize, hfield⟩ := Option.ite_none_right_eq_some.mp hcopied
        rw [Option.some.injEq] at hfield
        have hlen : n = (stripped uri).length := hsplits.uriLen
        have hroom : n < uriSize := by
          refine lt_of_le_of_ne hsize fun heq => ?_
          have hnul := hsplits.terminated
          simp only [← hfield, heq, Nat.sub_self, List.replicate_zero, List.append_nil] at hnul
          exact uri.noNul (List.mem_of_mem_take hnul)
        rw [← hlen]
        refine ⟨fun hnil => ?_, hroom, by omega⟩
        rw [hnil, List.length_nil] at hlen
        omega
  · rintro ⟨hne, hsize, hlen⟩
    rw [take_stripped (by omega), if_neg hne] at htrim
    have htake : uri.bytes.take (stripped uri).length = stripped uri :=
      (List.prefix_iff_eq_take.mp stripped_prefix).symm
    have hcopy : copyUri uri (stripped uri).length =
        some (uri.bytes.take (stripped uri).length ++ List.replicate (uriSize - (stripped uri).length) 0) :=
      if_pos hsize.le
    have hname : nameLen (uri.bytes.take (stripped uri).length ++ List.replicate (uriSize - (stripped uri).length) 0)
        (stripped uri).length = nameLen (stripped uri) (stripped uri).length := by
      rw [htake]
      exact nameLen_append (Nat.le_refl _) _
    obtain ⟨hslash, hbefore⟩ := nameLen_spec (stripped uri)
    refine ⟨_, by simp only [streamMaker, trim, htrim, hcopy, hname]; rfl, ⟨?_, ?_, ?_, rfl, ?_, hslash, hbefore⟩⟩
    · rw [List.length_append, List.length_replicate, htake]
      omega
    · exact List.mem_append_right _ (List.mem_replicate.mpr ⟨by omega, rfl⟩)
    · exact (takeWhile_field _).trans htake
    · exact Nat.sub_add_cancel nameLen_le

/-- The uri of only a slash: the search reads before the string. -/
theorem slash_outside : ∃ uri : CString, uri.bytes = [47] ∧ ¬ ∃ r, streamMaker uri = some r ∧ Splits uri r := by
  refine ⟨⟨[47], by decide⟩, rfl, ?_⟩
  rintro ⟨r, hr, -⟩
  have hnone : streamMaker ⟨[47], by decide⟩ = none := by decide
  rw [hnone] at hr
  cases hr

end Wenas.Xlio.Maker
