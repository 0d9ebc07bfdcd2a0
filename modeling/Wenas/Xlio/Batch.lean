import Wenas.Xlio.Scan

/-!
# One batch of files

A cursor says how far a `DOWNLOAD_LIST` has come: the entries left and the position in the first of them. Both ends
have one, and the pieces on their way lead from that of the downloader to that of the uploader.
-/
namespace Wenas.Xlio

variable {src : Source}

structure Cursor where
  todo : List Entry
  pos : Nat

def Cursor.left (c : Cursor) : Nat := (c.todo.map (·.size)).sum - c.pos

/-- The bytes of a file under the path that a list gives it. -/
def Source.content (src : Source) : Path → Option (List UInt8)
  | [] => none
  | x :: q => if x = srcName src.uri then src.tree.disk.files q else none

/-- A file of the source as an entry. -/
def Source.Holds (src : Source) (e : Entry) : Prop :=
  e.isFile = true ∧ ∃ data, src.content e.path = some data ∧ e.size = data.length

/-- After `pos` bytes of the first entry. -/
def Cursor.after (e : Entry) (rest : List Entry) (pos : Nat) : Cursor :=
  if pos = e.size then ⟨rest, 0⟩ else ⟨e :: rest, pos⟩

structure Cursor.Valid (src : Source) (c : Cursor) : Prop where
  holds : ∀ e ∈ c.todo, src.Holds e
  pos : c.pos ≠ 0 → ∃ e rest, c.todo = e :: rest ∧ c.pos < e.size

theorem Cursor.Valid.pos_le {e : Entry} {rest : List Entry} {pos : Nat} (h : Cursor.Valid src ⟨e :: rest, pos⟩) :
    pos ≤ e.size := by
  by_cases hp : pos = 0
  · omega
  · obtain ⟨e', rest', heq, hlt⟩ := h.pos hp
    obtain ⟨rfl, -⟩ := List.cons.inj heq
    exact hlt.le

theorem Cursor.Valid.after {e : Entry} {rest : List Entry} {pos : Nat} (h : Cursor.Valid src ⟨e :: rest, pos⟩)
    {pos' : Nat} (hle : pos' ≤ e.size) : (Cursor.after e rest pos').Valid src := by
  rw [Cursor.after]
  split
  · exact ⟨fun e' he => h.holds e' (List.mem_cons_of_mem _ he), fun hp => absurd rfl hp⟩
  · exact ⟨h.holds, fun _ => ⟨e, rest, rfl, by simp only; omega⟩⟩

theorem Cursor.left_after {e : Entry} (rest : List Entry) {pos len : Nat} (h : pos + len ≤ e.size) :
    (Cursor.after e rest (pos + len)).left + len = Cursor.left ⟨e :: rest, pos⟩ := by
  rw [Cursor.after]
  split
  · simp only [Cursor.left, List.map_cons, List.sum_cons]
    omega
  · simp only [Cursor.left, List.map_cons, List.sum_cons]
    omega

/-- A piece holds the bytes of the first entry from the cursor on. -/
structure Piece.Next (src : Source) (e : Entry) (k : Nat) (p : Piece) : Prop where
  path : p.path = e.path
  size : p.size = e.size
  pos : p.pos = k
  data : ∃ data, src.content e.path = some data ∧ e.size = data.length ∧
    p.data.getD [] = (data.drop k).take (p.data.getD []).length
  fits : k + (p.data.getD []).length ≤ e.size

/-- Pieces that take one cursor to another. -/
inductive Sent (src : Source) : Cursor → List Piece → Cursor → Prop
  | nil (c : Cursor) : Sent src c [] c
  | cons {e : Entry} {rest : List Entry} {pos : Nat} {p : Piece} {ps : List Piece} {c : Cursor}
      (head : p.Next src e pos) (tail : Sent src (.after e rest (pos + (p.data.getD []).length)) ps c) :
      Sent src ⟨e :: rest, pos⟩ (p :: ps) c

theorem Sent.append {a b c : Cursor} {ps qs : List Piece} (h : Sent src a ps b) (h' : Sent src b qs c) :
    Sent src a (ps ++ qs) c := by
  induction h with
  | nil c => exact h'
  | cons head _ ih => exact .cons head (ih h')

theorem slashed_eq_zero {p : Path} (h : slashed p = 0) : p = [] := by
  cases p with
  | nil => rfl
  | cons x p => simp [slashed] at h

theorem srcName_length (uri : Name) : (srcName uri).length = srcNameLen uri := by
  have hle : srcNameLen uri ≤ uri.length := by
    have h := (List.takeWhile_sublist (l := uri.reverse) (fun b => b != 47)).length_le
    simpa [srcNameLen] using h
  rw [srcName, List.length_drop]
  omega

/-- The file opened to be read is the one that was listed. -/
theorem localPath_cons {s : Stream} (q : Path) : s.localPath (srcName s.uri :: q) = q := by
  rw [Stream.localPath]
  split
  · rename_i h
    have hlen := srcName_length s.uri
    have hzero : slashed q = 0 := by
      simp only [wordSize, slashed, List.map_cons, List.sum_cons] at h ⊢
      omega
    exact (slashed_eq_zero hzero).symm
  · rfl

theorem content_local {s : Stream} {p : Path} {data : List UInt8} (huri : s.uri = src.uri)
    (h : src.content p = some data) : src.tree.disk.files (s.localPath p) = some data := by
  cases p with
  | nil => cases h
  | cons x q =>
    simp only [Source.content] at h
    split at h
    · rename_i hx
      subst hx
      rw [← huri, localPath_cons]
      exact h
    · cases h

/-- An uploader in a batch, with `rest` the entries that the parser has still to give. -/
structure Stream.Sends (src : Source) (s : Stream) (rest : List Entry) (c : Cursor) : Prop where
  uri : s.uri = src.uri
  disk : s.disk = src.tree.disk
  valid : c.Valid src
  todo : c.todo = s.obj.toList ++ rest
  pos : s.filePos = c.pos
  fd : s.fd = none ∧ c.pos = 0 ∧ s.fileSize = 0 ∨ ∃ e, s.obj = some e ∧ s.fd = some (s.localPath e.path, c.pos)
  count : s.listPos + c.left = s.listSize
  total : s.listSize < 2 ^ 64

/-- The fields of a stream that `xlio_send_file` does not touch before it sends the frame. -/
def SameFrame (s t : Stream) : Prop :=
  ∃ fd obj parser filePos fileSize listPos, t = { s with
    fd := fd, obj := obj, uploadParser := parser, filePos := filePos, fileSize := fileSize, listPos := listPos }

theorem SameFrame.refl (s : Stream) : SameFrame s s := ⟨_, _, _, _, _, _, rfl⟩

theorem SameFrame.trans {s t u : Stream} (h : SameFrame s t) (h' : SameFrame t u) : SameFrame s u := by
  obtain ⟨a, b, c, d, e, f, rfl⟩ := h
  obtain ⟨a', b', c', d', e', f', rfl⟩ := h'
  exact ⟨a', b', c', d', e', f', rfl⟩

/-- What one turn of the loop does to the cursor. -/
structure Turn.Moves (src : Source) (s : Stream) (rest : List Entry) (c : Cursor) (t : Turn) : Prop where
  same : SameFrame s t.stream
  sent : ∃ c', Sent src c t.pieces c' ∧ t.stream.Sends src rest c'
  obj : t.more = true ↔ t.stream.obj = none

theorem add64_eq {a b : Nat} (h : a + b < 2 ^ 64) : add64 a b = a + b := Nat.mod_eq_of_lt h

theorem Source.Holds.lt {e : Entry} (h : src.Holds e) : e.size < 2 ^ 64 := by
  obtain ⟨-, data, hdata, hsize⟩ := h
  cases hp : e.path with
  | nil => simp [hp, Source.content] at hdata
  | cons x q =>
    rw [hp] at hdata
    simp only [Source.content, Node.disk] at hdata
    split at hdata
    · split at hdata
      · rename_i d hd
        cases hdata
        exact hsize ▸ src.sized _ _ hd
      · cases hdata
    · cases hdata

theorem readPart_moves {s : Stream} {e : Entry} {rest : List Entry} {k : Nat} (wpos : Nat)
    (h : s.Sends src rest ⟨e :: rest, k⟩) (hobj : s.obj = some e) (hfd : s.fd = some (s.localPath e.path, k))
    (hsize : s.fileSize = e.size) : (s.readPart e wpos).Moves src s rest ⟨e :: rest, k⟩ := by
  have hle := h.valid.pos_le
  have hholds := h.valid.holds e List.mem_cons_self
  have hlt := hholds.lt
  obtain ⟨-, data, hdata, hdlen⟩ := hholds
  have hpos : s.filePos = k := h.pos
  have hcount := h.count
  have htotal := h.total
  have hfile := content_local h.uri hdata
  rw [Stream.readPart]
  split
  · rename_i hfull
    dsimp only
    set len := min (usable s.frameSize wpos 4) (s.fileSize - s.filePos)
    have hlenle : k + len ≤ e.size := by omega
    have hleft := Cursor.left_after rest hlenle
    have hread : s.readFd len = (data.drop k).take len := by
      simp [Stream.readFd, hfd, Disk.read, h.disk, hfile]
    have hrlen : ((data.drop k).take len).length = len := by
      simp only [List.length_take, List.length_drop]
      omega
    have hnext : Piece.Next src e k ⟨e.path, e.size, s.filePos, some ((data.drop k).take len)⟩ :=
      ⟨rfl, rfl, hpos, ⟨data, hdata, hdlen, by simp [hrlen]⟩, by simpa [hrlen] using hlenle⟩
    have hsent : Sent src ⟨e :: rest, k⟩ [⟨e.path, e.size, s.filePos, some ((data.drop k).take len)⟩]
        (.after e rest (k + len)) := by
      refine .cons hnext ?_
      simpa [hrlen] using Sent.nil _
    have hvalid := h.valid.after hlenle
    have hfp : add64 s.filePos len = k + len := by rw [add64_eq (by omega), hpos]
    have hlp : add64 s.listPos len = s.listPos + len := add64_eq (by omega)
    rw [hread, hfp, hlp, hfd, hsize]
    split
    · rename_i hmore
      have hafter : Cursor.after e rest (k + len) = ⟨e :: rest, k + len⟩ := if_neg (by omega)
      rw [hafter] at hsent hvalid hleft
      refine ⟨⟨_, _, _, _, _, _, rfl⟩, ⟨_, hsent, ?_⟩, by simp [hobj]⟩
      refine ⟨h.uri, h.disk, hvalid, by simp [hobj], rfl, .inr ⟨e, hobj, by simp [hrlen, Stream.localPath]⟩, ?_, h.total⟩
      simp only
      omega
    · have heq : k + len = e.size := by omega
      have hafter : Cursor.after e rest (k + len) = ⟨rest, 0⟩ := if_pos heq
      rw [hafter] at hsent hvalid hleft
      rw [if_pos heq]
      refine ⟨⟨_, _, _, _, _, _, rfl⟩, ⟨_, hsent, ?_⟩, by simp [Stream.closeRead]⟩
      refine ⟨h.uri, h.disk, hvalid, rfl, rfl, .inl ⟨rfl, rfl, rfl⟩, ?_, h.total⟩
      simp only [Stream.closeRead]
      omega
  · have hzero : k = 0 := by omega
    subst hzero
    have hafter : Cursor.after e rest 0 = ⟨rest, 0⟩ := if_pos (by omega)
    have hleft := Cursor.left_after rest (show 0 + 0 ≤ e.size by omega)
    have hvalid := h.valid.after (Nat.zero_le e.size)
    rw [hafter] at hvalid hleft
    rw [if_pos (by omega)]
    refine ⟨⟨_, _, _, _, _, _, rfl⟩, ⟨⟨rest, 0⟩, .cons ?_ ?_, ?_⟩, by simp [Stream.closeRead]⟩
    · exact ⟨rfl, rfl, hpos, ⟨data, hdata, hdlen, by simp⟩, by simp⟩
    · simpa [hafter] using Sent.nil _
    · refine ⟨h.uri, h.disk, hvalid, rfl, rfl, .inl ⟨rfl, rfl, rfl⟩, ?_, h.total⟩
      simp only [Stream.closeRead]
      omega

/-- The handle that reads the first entry is open at the cursor. -/
theorem openRead_sends {s t : Stream} {e : Entry} {rest : List Entry} {k : Nat}
    (h : s.Sends src rest ⟨e :: rest, k⟩) (hobj : s.obj = some e)
    (ht : { s with fileSize := e.size }.openRead e.path = some t) :
    t.Sends src rest ⟨e :: rest, k⟩ ∧ SameFrame s t ∧ t.obj = some e ∧ t.fileSize = e.size ∧
      t.fd = some (t.localPath e.path, k) := by
  rw [Stream.openRead] at ht
  split at ht
  · rename_i f hf
    obtain rfl := Option.some.inj ht
    obtain ⟨hnone, -⟩ | ⟨e', hobj', hfd⟩ := h.fd
    · rw [show s.fd = some f from hf] at hnone
      cases hnone
    · obtain rfl : e' = e := Option.some.inj (hobj'.symm.trans hobj)
      exact ⟨⟨h.uri, h.disk, h.valid, h.todo, h.pos, .inr ⟨e', hobj', hfd⟩, h.count, h.total⟩,
        ⟨_, _, _, _, _, _, rfl⟩, hobj, rfl, hfd⟩
  · rename_i hf
    obtain ⟨d, -, rfl⟩ := Option.map_eq_some_iff.mp ht
    obtain ⟨-, hk, -⟩ | ⟨e', -, hfd⟩ := h.fd
    · obtain rfl : k = 0 := hk
      exact ⟨⟨h.uri, h.disk, h.valid, h.todo, h.pos, .inr ⟨e, hobj, rfl⟩, h.count, h.total⟩,
        ⟨_, _, _, _, _, _, rfl⟩, hobj, rfl, rfl⟩
    · rw [show s.fd = none from hf] at hfd
      cases hfd

theorem sendObj_moves {s : Stream} {rest : List Entry} {c : Cursor} {wpos : Nat} {t : Turn} (h : s.Sends src rest c)
    (ht : s.sendObj wpos = some t) : t.Moves src s rest c := by
  rw [Stream.sendObj] at ht
  split at ht
  · rename_i hobj
    obtain rfl := Option.some.inj ht
    exact ⟨.refl s, ⟨c, .nil c, h⟩, by simp [hobj]⟩
  · rename_i e hobj
    split at ht
    · obtain rfl := Option.some.inj ht
      exact ⟨.refl s, ⟨c, .nil c, h⟩, by simp [hobj]⟩
    · obtain ⟨todo, k⟩ := c
      obtain rfl : todo = e :: rest := by simpa [hobj] using h.todo
      dsimp only at ht
      rw [if_pos (h.valid.holds e List.mem_cons_self).1] at ht
      obtain ⟨u, hu, rfl⟩ := Option.map_eq_some_iff.mp ht
      obtain ⟨hsends, hsame, hobj', hsize, hfd⟩ := openRead_sends h hobj hu
      have hmoves := readPart_moves (wpos + xlineSize + keyed 4 (wordSize e.path) + keyed 4 0 + keyed 4 0 + keyed 3 0)
        hsends hobj' hfd hsize
      exact ⟨hsame.trans hmoves.same, hmoves.sent, hmoves.obj⟩

/-- The next entry of the list is the object of the next turn. -/
theorem Stream.Sends.take {s : Stream} {e : Entry} {rest : List Entry} {c : Cursor} (h : s.Sends src (e :: rest) c)
    (hobj : s.obj = none) : { s with obj := some e }.Sends src rest c := by
  refine ⟨h.uri, h.disk, h.valid, by simpa [hobj] using h.todo, h.pos, ?_, h.count, h.total⟩
  obtain hnone | ⟨e', hobj', -⟩ := h.fd
  · exact .inl hnone
  · rw [hobj] at hobj'
    cases hobj'

/-- What the frame holds takes the cursor to where the stream stands after it. -/
theorem sendLoop_sent {s t : Stream} {rest : List Entry} {c : Cursor} {wpos : Nat} {ps : List Piece}
    (h : s.Sends src rest c) (ht : Stream.sendLoop rest s wpos = some (t, ps)) :
    SameFrame s t ∧ (t.obj = none → t.uploadParser = []) ∧
      ∃ c', Sent src c ps c' ∧ t.Sends src t.uploadParser c' := by
  induction rest generalizing s c wpos t ps with
  | nil =>
    rw [Stream.sendLoop.eq_def] at ht
    dsimp only at ht
    split at ht
    · cases ht
    · rename_i u hu
      obtain ⟨hsame, ⟨c', hsent, hsends⟩, hobj⟩ := sendObj_moves h hu
      split at ht
      · rename_i hmore
        cases ht
        have hnone := hobj.mp hmore
        refine ⟨hsame.trans ⟨_, _, _, _, _, _, rfl⟩, fun _ => rfl, c', hsent, ?_⟩
        refine ⟨hsends.uri, hsends.disk, hsends.valid, by simpa [hnone] using hsends.todo, hsends.pos, ?_, hsends.count,
          hsends.total⟩
        simpa [hnone] using hsends.fd
      · cases ht
        refine ⟨hsame.trans ⟨_, _, _, _, _, _, rfl⟩, fun _ => rfl, c', hsent, ?_⟩
        exact ⟨hsends.uri, hsends.disk, hsends.valid, hsends.todo, hsends.pos, hsends.fd, hsends.count, hsends.total⟩
  | cons e rest ih =>
    rw [Stream.sendLoop.eq_def] at ht
    dsimp only at ht
    split at ht
    · cases ht
    · rename_i u hu
      obtain ⟨hsame, ⟨c', hsent, hsends⟩, hobj⟩ := sendObj_moves h hu
      split at ht
      · rename_i hmore
        obtain ⟨⟨t', ps'⟩, hrest, heq⟩ := Option.map_eq_some_iff.mp ht
        cases heq
        obtain ⟨hsame', hend, c'', hsent', hsends'⟩ := ih (hsends.take (hobj.mp hmore)) hrest
        exact ⟨hsame.trans (.trans ⟨_, _, _, _, _, _, rfl⟩ hsame'), hend, c'', hsent.append hsent', hsends'⟩
      · rename_i hmore
        cases ht
        refine ⟨hsame.trans ⟨_, _, _, _, _, _, rfl⟩, fun hnone => absurd (hobj.mpr hnone) hmore, c', hsent, ?_⟩
        exact ⟨hsends.uri, hsends.disk, hsends.valid, hsends.todo, hsends.pos, hsends.fd, hsends.count, hsends.total⟩

end Wenas.Xlio
