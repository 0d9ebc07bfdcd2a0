import Wenas.Xlio.Batch

/-!
# The downloader in a batch

The pieces are written where the cursor of the downloader stands. A file that was closed has the bytes of the
source, and the file of the first entry left has the bytes up to the cursor.
-/
namespace Wenas.Xlio

variable {src : Source}

structure Stream.Receives (src : Source) (d : Stream) (c : Cursor) : Prop where
  valid : c.Valid src
  pos : d.filePos = c.pos
  count : d.listPos + c.left = d.listSize
  total : d.listSize < 2 ^ 64
  fd : d.fd = none ∧ c.pos = 0 ∨ ∃ e rest data, c.todo = e :: rest ∧ src.content e.path = some data ∧
    d.fd = some (e.path, c.pos) ∧ d.disk.files e.path = some (data.take c.pos)
  clean : ∀ p bytes, d.disk.files p = some bytes →
    src.content p = some bytes ∨ ∃ e rest, c.todo = e :: rest ∧ p = e.path ∧ d.fd ≠ none

/-- The fields that `xlio_recv_file` leaves as they are. -/
def SameList (s t : Stream) : Prop :=
  t.disk.dirs = s.disk.dirs ∧ ∃ fd disk filePos fileSize listPos, t = { s with
    fd := fd, disk := disk, filePos := filePos, fileSize := fileSize, listPos := listPos }

theorem SameList.refl (s : Stream) : SameList s s := ⟨rfl, _, _, _, _, _, rfl⟩

theorem SameList.trans {s t u : Stream} (h : SameList s t) (h' : SameList t u) : SameList s u := by
  obtain ⟨hd, a, b, c, d, e, rfl⟩ := h
  obtain ⟨hd', a', b', c', d', e', rfl⟩ := h'
  exact ⟨hd'.trans hd, a', b', c', d', e', rfl⟩

/-- A file of the source is on the disk or among the entries left. -/
def Due (src : Source) (d : Disk) (c : Cursor) (p : Path) (bytes : List UInt8) : Prop :=
  src.content p = some bytes ∧ (d.files p = some bytes ∨ ∃ e ∈ c.todo, e.path = p)

/-- The open file of the downloader is that of the first entry, with the bytes up to the cursor. -/
structure Stream.Opened (src : Source) (d : Stream) (e : Entry) (k : Nat) (data : List UInt8) : Prop where
  content : src.content e.path = some data
  size : e.size = data.length
  fd : d.fd = some (e.path, k)
  file : d.disk.files e.path = some (data.take k)
  others : ∀ p bytes, p ≠ e.path → d.disk.files p = some bytes → src.content p = some bytes

theorem openWrite_opened {d t : Stream} {e : Entry} {rest : List Entry} {k : Nat} {p : Piece}
    (h : d.Receives src ⟨e :: rest, k⟩) (hp : p.Next src e k)
    (ht : { d with fileSize := p.size }.openWrite p = (t, true)) :
    (∃ data, t.Opened src e k data) ∧ SameList d t ∧ t.fileSize = e.size ∧ t.filePos = d.filePos ∧
      t.listPos = d.listPos ∧ ∀ q, q ≠ e.path → t.disk.files q = d.disk.files q := by
  have hsize := (h.valid.holds e List.mem_cons_self).2
  have hothers : ∀ q bytes, q ≠ e.path → d.disk.files q = some bytes → src.content q = some bytes := by
    intro q bytes hq hfile
    obtain hc | ⟨e', rest', heq, rfl, -⟩ := h.clean q bytes hfile
    · exact hc
    · obtain ⟨rfl, -⟩ := List.cons.inj heq
      exact absurd rfl hq
  obtain ⟨data, hdata, hlen⟩ := hsize
  rw [Stream.openWrite] at ht
  split at ht
  · rename_i f hf
    obtain ⟨hnone, -⟩ | ⟨e', rest', data', heq, hdata', hfd, hfile⟩ := h.fd
    · rw [show d.fd = some f from hf] at hnone
      cases hnone
    · obtain ⟨rfl, -⟩ := List.cons.inj heq
      obtain rfl : data' = data := Option.some.inj (hdata'.symm.trans hdata)
      obtain rfl := (Prod.ext_iff.mp ht).1
      exact ⟨⟨data', hdata, hlen, hfd, hfile, hothers⟩, ⟨rfl, _, _, _, _, _, rfl⟩, hp.size, rfl, rfl, fun _ _ => rfl⟩
  · rename_i hf
    obtain ⟨-, hk⟩ | ⟨e', rest', data', heq, hdata', hfd, hfile⟩ := h.fd
    · obtain rfl : k = 0 := hk
      rw [if_pos hp.pos] at ht
      split at ht
      · rename_i disk hcreate
        cases ht
        simp only [Disk.create, Option.ite_none_left_eq_some, Option.some.injEq] at hcreate
        obtain ⟨-, rfl⟩ := hcreate
        have hframe : ∀ q, q ≠ e.path → Function.update d.disk.files p.path (some []) q = d.disk.files q := by
          intro q hq
          rw [Function.update_of_ne (hp.path ▸ hq)]
        refine ⟨⟨data, hdata, hlen, by simp [hp.path], by simp [hp.path], ?_⟩, ⟨rfl, _, _, _, _, _, rfl⟩, hp.size, rfl,
          rfl, hframe⟩
        intro q bytes hq hfile
        exact hothers q bytes hq (hframe q hq ▸ hfile)
      · cases ht
    · rw [show d.fd = none from hf] at hfd
      cases hfd

theorem overwrite_take {data bytes : List UInt8} {k : Nat} (h : bytes = (data.drop k).take bytes.length) :
    overwrite (data.take k) k bytes = data.take (k + bytes.length) := by
  have hdrop : (data.take k).drop (k + bytes.length) = [] := List.drop_eq_nil_of_le (by simp)
  rw [overwrite, hdrop, List.take_take, Nat.min_self, List.append_nil, List.take_add]
  congr 1

/-- The bytes of a piece bring the cursor forward; the file of the last byte is whole. -/
theorem writePart_receives {d : Stream} {e : Entry} (rest : List Entry) {k : Nat} {data bytes : List UInt8}
    (ho : d.Opened src e k data) (hvalid : Cursor.Valid src ⟨e :: rest, k⟩) (hsize : d.fileSize = e.size)
    (hpos : d.filePos = k) (hcount : d.listPos + Cursor.left ⟨e :: rest, k⟩ = d.listSize) (htotal : d.listSize < 2 ^ 64)
    (hbytes : bytes = (data.drop k).take bytes.length) (hfits : k + bytes.length ≤ e.size) :
    (d.writePart bytes).Receives src (.after e rest (k + bytes.length)) ∧ SameList d (d.writePart bytes) ∧
      (∀ q, q ≠ e.path → (d.writePart bytes).disk.files q = d.disk.files q) ∧
      (k + bytes.length = e.size → (d.writePart bytes).disk.files e.path = some data) := by
  have hlt := (hvalid.holds e List.mem_cons_self).lt
  have hleft := Cursor.left_after rest hfits
  have hvalid' := hvalid.after hfits
  have hfp : add64 d.filePos bytes.length = k + bytes.length := by rw [add64_eq (by omega), hpos]
  have hlp : add64 d.listPos bytes.length = d.listPos + bytes.length := add64_eq (by omega)
  have hover : overwrite (data.take k) k bytes = data.take (k + bytes.length) :=
    overwrite_take hbytes
  have hwrite : d.disk.write e.path k bytes =
      ⟨Function.update d.disk.files e.path (some (data.take (k + bytes.length))), d.disk.dirs⟩ := by
    simp [Disk.write, ho.file, hover]
  have hothers : ∀ q b, q ≠ e.path →
      Function.update d.disk.files e.path (some (data.take (k + bytes.length))) q = some b →
        src.content q = some b := by
    intro q b hq hb
    rw [Function.update_of_ne hq] at hb
    exact ho.others q b hq hb
  simp only [Stream.writePart, ho.fd, hwrite, hfp, hlp, hsize]
  split
  · rename_i hend
    have hwhole : data.take (k + bytes.length) = data := List.take_of_length_le (by have := ho.size; omega)
    have hafter : Cursor.after e rest (k + bytes.length) = ⟨rest, 0⟩ := if_pos hend
    rw [hafter] at hleft hvalid' ⊢
    refine ⟨⟨hvalid', rfl, ?_, htotal, .inl ⟨rfl, rfl⟩, ?_⟩, ⟨rfl, _, _, _, _, _, rfl⟩, ?_, ?_⟩
    · simp only
      omega
    · intro q b hb
      by_cases hq : q = e.path
      · subst hq
        obtain rfl : data = b := by simpa [hwhole] using hb
        exact .inl ho.content
      · exact .inl (hothers q b hq hb)
    · intro q hq
      exact Function.update_of_ne hq _ _
    · intro _
      simp [hwhole]
  · rename_i hmid
    have hafter : Cursor.after e rest (k + bytes.length) = ⟨e :: rest, k + bytes.length⟩ := if_neg hmid
    rw [hafter] at hleft hvalid' ⊢
    refine ⟨⟨hvalid', rfl, ?_, htotal, .inr ⟨e, rest, data, rfl, ho.content, rfl, by simp⟩, ?_⟩,
      ⟨rfl, _, _, _, _, _, rfl⟩, ?_, fun hend => absurd hend hmid⟩
    · simp only
      omega
    · intro q b hb
      by_cases hq : q = e.path
      · exact .inr ⟨e, rest, rfl, hq, by simp⟩
      · exact .inl (hothers q b hq hb)
    · intro q hq
      exact Function.update_of_ne hq _ _

theorem recvPiece_receives {d t : Stream} {e : Entry} {rest : List Entry} {k : Nat} {p : Piece}
    (h : d.Receives src ⟨e :: rest, k⟩) (hp : p.Next src e k) (ht : d.recvPiece p = (t, true)) :
    t.Receives src (.after e rest (k + (p.data.getD []).length)) ∧ SameList d t ∧
      ∀ q bytes, Due src d.disk ⟨e :: rest, k⟩ q bytes →
        Due src t.disk (.after e rest (k + (p.data.getD []).length)) q bytes := by
  rw [Stream.recvPiece] at ht
  split at ht
  · cases ht
  · rename_i u hu
    cases ht
    obtain ⟨⟨data, ho⟩, hsame, hsize, hfp, hlp, hframe⟩ := openWrite_opened h hp hu
    obtain ⟨data', hdata', -, hbytes⟩ := hp.data
    obtain rfl : data' = data := Option.some.inj (hdata'.symm.trans ho.content)
    have hlist : u.listSize = d.listSize := by
      obtain ⟨-, _, _, _, _, _, rfl⟩ := hsame
      rfl
    have hwr := writePart_receives rest ho h.valid hsize (hfp.trans h.pos) (by rw [hlp, hlist]; exact h.count)
      (hlist ▸ h.total) hbytes hp.fits
    obtain ⟨hrec, hsame', hframe', hend⟩ := hwr
    refine ⟨hrec, hsame.trans hsame', ?_⟩
    rintro q bytes ⟨hcontent, hdue⟩
    refine ⟨hcontent, ?_⟩
    by_cases hq : q = e.path
    · subst hq
      by_cases hlast : k + (p.data.getD []).length = e.size
      · obtain rfl : data' = bytes := Option.some.inj (ho.content.symm.trans hcontent)
        exact .inl (hend hlast)
      · refine .inr ⟨e, ?_, rfl⟩
        rw [Cursor.after, if_neg hlast]
        exact List.mem_cons_self
    · obtain hfile | ⟨e', he', rfl⟩ := hdue
      · exact .inl (by rw [hframe' q hq, hframe q hq, hfile])
      · refine .inr ⟨e', ?_, rfl⟩
        have hrest : e' ∈ rest := by
          rcases List.mem_cons.mp he' with rfl | hrest
          · exact absurd rfl hq
          · exact hrest
        rw [Cursor.after]
        split
        · exact hrest
        · exact List.mem_cons_of_mem _ hrest

/-- All pieces of a frame. -/
theorem each_receives {d t : Stream} {c c' : Cursor} {ps : List Piece} (h : d.Receives src c) (hs : Sent src c ps c')
    (ht : each Stream.recvPiece ps d = (t, true)) :
    t.Receives src c' ∧ SameList d t ∧ ∀ q bytes, Due src d.disk c q bytes → Due src t.disk c' q bytes := by
  induction hs generalizing d with
  | nil c =>
    cases ht
    exact ⟨h, .refl _, fun _ _ hq => hq⟩
  | cons head _ ih =>
    rw [each] at ht
    split at ht
    · cases ht
    · rename_i u hu
      obtain ⟨hrec, hsame, hdue⟩ := recvPiece_receives h head hu
      obtain ⟨hrec', hsame', hdue'⟩ := ih hrec ht
      exact ⟨hrec', hsame.trans hsame', fun q bytes hq => hdue' q bytes (hdue q bytes hq)⟩

end Wenas.Xlio
