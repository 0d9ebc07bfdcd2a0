import Wenas.Xmsger.Reassembly

/-!
# Messages come out as they went in

The packs of the stream, consumed in order, are joined into the messages they were
cut from: after `n` packs the messages before the cursor have been handed up, and the
one under the cursor holds the bytes of its packs so far.
-/
namespace Wenas.Xmsger

open Wenas.Serial

/-- What a receiver sees of a message. -/
def Message.content (m : Message) : UInt16 × List UInt8 := (m.type, m.data)

def RFrame.content (f : RFrame) : UInt16 × List UInt8 := (f.type, f.data)

/-- The messages handed up. -/
def handed (l : List Event) : List RFrame :=
  l.filterMap fun
    | .fromPeer m => some m
    | _ => none

/-- The number of packs consumed. -/
def consumed (l : List Event) : Nat :=
  (l.filter fun
    | .consume _ _ => true
    | _ => false).length

theorem handed_append (l l' : List Event) : handed (l ++ l') = handed l ++ handed l' := by simp [handed]

theorem consumed_append (l l' : List Event) : consumed (l ++ l') = consumed l + consumed l' := by
  simp [consumed]

theorem handed_taken (l : List Event) : handed (taken l) = handed l := by
  induction l with
  | nil => rfl
  | cons e l ih => cases e <;> simp_all [handed, taken, Event.isTaken, List.filter_cons]

theorem consumed_taken (l : List Event) : consumed (taken l) = consumed l := by
  induction l with
  | nil => rfl
  | cons e l ih => cases e <;> simp_all [consumed, taken, Event.isTaken, List.filter_cons]

/-- The message under assembly after the first `k` packs of `m`; there is none before the first. -/
def Partial (m : Message) (k : Nat) (o : Option RFrame) : Prop :=
  if k = 0 then o = none
  else ∃ f, o = some f ∧ f.type = m.type ∧ f.data = m.data.take (bytes m k) ∧ f.range.toNat = packs m - k

/-- After `n` packs of the messages `ms`. -/
structure Assembled (ms : List Message) (n : Nat) (o : Option RFrame) (l : List Event) : Prop where
  count : consumed l = n
  cursor : ∃ i, Cursor ms n i ∧ (handed l).map RFrame.content = (ms.take i).map Message.content ∧
    (∀ m, ms[i]? = some m → Partial m (n - start ms i) o) ∧ (ms[i]? = none → o = none)

/-- The datagram is pack `n` of the messages `ms`. -/
def Carried (ms : List Message) (n : Nat) (d : Dgram) : Prop := ∃ i m j, At ms n i m j ∧ IsFrag d n m j

/-- Messages short enough that the number of packs fits the head. -/
def Short (ms : List Message) : Prop := ∀ m ∈ ms, m.data.length ≤ xmsgMaxLength

theorem Short.packs_le {ms : List Message} (h : Short ms) {i : Nat} {m : Message} (hm : ms[i]? = some m) :
    packs m ≤ 8192 := by
  have := h m (List.mem_of_getElem? hm)
  simp only [xmsgMaxLength, xbodySize, xmsgPackRange] at this
  unfold packs
  omega

theorem range_toNat {m : Message} {k : Nat} (hp : packs m ≤ 8192) :
    (UInt64.ofNat (packs m - k)).toUInt16.toNat = packs m - k := by
  simp only [UInt64.toNat_toUInt16, UInt64.toNat_ofNat']
  omega

/-- Joining pack `k` to the first `k` packs gives the first `k + 1`. -/
theorem Partial.extend {m : Message} {k n : Nat} {o : Option RFrame} (h : Partial m k o) (hk : k < packs m)
    (hp : packs m ≤ 8192) {d : Dgram} (hd : IsFrag d n m k) :
    (RFrame.extend o d).type = m.type ∧ (RFrame.extend o d).data = m.data.take (bytes m (k + 1)) ∧
      (RFrame.extend o d).range.toNat = packs m - (k + 1) := by
  have hbody : d.body.take d.head.len.toNat = frag m k := by
    rw [hd.len, packLen_toNat, hd.body, ← frag_length m k hk, List.take_length]
  have hsplit := take_bytes_succ m k hk
  by_cases hz : k = 0
  · subst hz
    have ho : o = none := by simpa [Partial] using h
    subst ho
    have hb : bytes m 0 = 0 := by simp [bytes]
    refine ⟨hd.type, ?_, ?_⟩
    · show [] ++ d.body.take d.head.len.toNat = _
      rw [hbody, hsplit, hb]
      rfl
    · show (d.head.range.toUInt64 - 1).toNat = _
      rw [hd.range, UInt64.toNat_sub, UInt16.toNat_toUInt64, range_toNat hp, UInt64.toNat_one]
      have := packs_pos m
      omega
  · obtain ⟨f, rfl, ht, hdata, hr⟩ : ∃ f, o = some f ∧ f.type = m.type ∧ f.data = m.data.take (bytes m k) ∧
        f.range.toNat = packs m - k := by simpa [Partial, hz] using h
    refine ⟨ht, ?_, ?_⟩
    · show f.data ++ d.body.take d.head.len.toNat = _
      rw [hbody, hsplit, hdata]
    · show (f.range - 1).toNat = _
      rw [UInt64.toNat_sub, UInt64.toNat_one, hr]
      omega

theorem assembled_follows {ms : List Message} (hshort : Short ms) : Follows (Carried ms) (Assembled ms) := by
  intro n o l d h hd
  obtain ⟨i, m, j, ha, hf⟩ := hd
  obtain ⟨i', hc, hhand, hpart, -⟩ := h.cursor
  have hi := hc.eq_of_at ha
  subst hi
  have hp := hshort.packs_le ha.get
  have hj : n - start ms i' = j := by
    have := ha.eq
    omega
  have hpart' := hpart m ha.get
  rw [hj] at hpart'
  obtain ⟨htype, hdata, hrange⟩ := hpart'.extend ha.lt hp hf
  have hnext := Cursor.next ha
  have hcount : consumed (l ++ takenWith n o d) = n + 1 := by
    rw [consumed_append, h.count, takenWith]
    split <;> simp [consumed]
  refine ⟨hcount, ?_⟩
  by_cases hl : j + 1 = packs m
  · have hz : (RFrame.extend o d).range = 0 := by
      apply UInt64.toNat_inj.mp
      rw [hrange, UInt64.toNat_zero]
      omega
    rw [if_pos hl] at hnext
    have hall : (RFrame.extend o d).content = m.content := by
      rw [RFrame.content, Message.content, htype, hdata, hl, bytes_of_packs_le m _ (Nat.le_refl _), List.take_length]
    refine ⟨i' + 1, hnext, ?_, ?_, ?_⟩
    · rw [takenWith, if_pos hz, handed_append, List.map_append, hhand, List.take_add_one, ha.get]
      simp [handed, hall]
    · intro m' hm'
      have hs : n + 1 - start ms (i' + 1) = 0 := by
        rw [start_succ ha.get]
        have := ha.eq
        omega
      simp [Partial, hs, remains, hz]
    · intro _
      simp [remains, hz]
  · have hnz : (RFrame.extend o d).range ≠ 0 := by
      intro hz
      rw [hz, UInt64.toNat_zero] at hrange
      have := ha.lt
      omega
    rw [if_neg hl] at hnext
    refine ⟨i', hnext, ?_, ?_, ?_⟩
    · rw [takenWith, if_neg hnz, handed_append, List.map_append, hhand]
      simp [handed]
    · intro m' hm'
      have hmm : m = m' := by simpa using ha.get.symm.trans hm'
      subst hmm
      have hs : n + 1 - start ms i' = j + 1 := by
        have := ha.eq
        omega
      rw [hs, Partial, if_neg (by omega)]
      exact ⟨_, if_neg hnz, htype, hdata, hrange⟩
    · intro hnone
      rw [ha.get] at hnone
      cases hnone

theorem Carried.append {ms : List Message} {n : Nat} {d : Dgram} (h : Carried ms n d) (rest : List Message) :
    Carried (ms ++ rest) n d := by
  obtain ⟨i, m, j, ha, hf⟩ := h
  exact ⟨i, m, j, ha.append rest, hf⟩

/-- New messages at the end of the stream change nothing for those that came before. -/
theorem Assembled.append {ms : List Message} {n : Nat} {o : Option RFrame} {l : List Event} (h : Assembled ms n o l)
    (m : Message) : Assembled (ms ++ [m]) n o l := by
  obtain ⟨i, hc, hhand, hpart, hnone⟩ := h.cursor
  refine ⟨h.count, i, hc.append m, ?_, ?_, ?_⟩
  · rw [hhand, List.take_append_of_le_length hc.le]
  · intro m' hm'
    rw [start_append [m] hc.le]
    by_cases hi : i < ms.length
    · rw [List.getElem?_append_left hi] at hm'
      exact hpart m' hm'
    · have he : i = ms.length := by have := hc.le; omega
      have ho := hnone (by rw [List.getElem?_eq_none_iff]; omega)
      have hz : n - start ms i = 0 := by
        have := hc.stop he
        omega
      simp [Partial, hz, ho]
  · intro hn
    rw [List.getElem?_eq_none_iff] at hn
    simp only [List.length_append, List.length_singleton] at hn
    have := hc.le
    omega

theorem Assembled.append_list {ms : List Message} {n : Nat} {o : Option RFrame} {l : List Event}
    (h : Assembled ms n o l) (rest : List Message) : Assembled (ms ++ rest) n o l := by
  induction rest generalizing ms with
  | nil => simpa using h
  | cons m rest ih => simpa using ih (h.append m)

theorem Assembled.nil (ms : List Message) : Assembled ms 0 none [] := by
  refine ⟨rfl, 0, Cursor.zero ms, rfl, ?_, fun _ => rfl⟩
  intro m _
  simp [Partial]

/-- What has been handed up is a beginning of what was accepted. -/
theorem Assembled.prefix {ms : List Message} {n : Nat} {o : Option RFrame} {l : List Event} (h : Assembled ms n o l) :
    (handed l).map RFrame.content <+: ms.map Message.content := by
  obtain ⟨i, -, hhand, -⟩ := h.cursor
  rw [hhand, List.map_take]
  exact List.take_prefix _ _

end Wenas.Xmsger
