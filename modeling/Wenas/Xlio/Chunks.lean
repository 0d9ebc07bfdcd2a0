import Wenas.Xlio.Handlers

/-!
# Files in pieces

`xlio_send_file` fills one frame with pieces of the files of a list. The pieces of a file are its contents, cut where a
frame was full. A piece is begun only when more than the line of the list's own entry is free, which also holds its
`md5`: the fields of the piece and some data always fit, and no append moves the frame.
-/
namespace Wenas.Xlio

/-- The space for the object of a piece with `path`, `type`, `size` and `pos`. -/
def Entry.fields (e : Entry) : List Nat := [xlineSize, keyed 4 (wordSize e.path), keyed 4 0, keyed 4 0, keyed 3 0]

/-- The space that the appends of one turn ask for. -/
def Stream.objAppends (s : Stream) (wpos : Nat) : List Nat :=
  match s.obj with
  | none => []
  | some e =>
    if usable s.frameSize wpos 3 ≤ e.lineSize then []
    else if e.isFile then
      e.fields ++
        if 0 < e.size then [keyed 4 (min (usable s.frameSize (wpos + e.fields.sum) 4) (e.size - s.filePos))] else []
    else []

/-- The appends of the loop in `xlio_send_file`. -/
def Stream.loopAppends : List Entry → Stream → Nat → List Nat
  | rest, s, wpos =>
    s.objAppends wpos ++
      match s.sendObj wpos with
      | none => []
      | some t =>
        if t.more then
          match rest with
          | [] => []
          | e :: rest => Stream.loopAppends rest { t.stream with obj := some e } t.wpos
        else []

/-- The appends of `xlio_send_file`: `api`, `id` and the head of the list first. -/
def Stream.appends (s : Stream) : List Nat :=
  let head := [keyed 3 0, keyed 2 0, keyed 4 0]
  head ++ Stream.loopAppends s.uploadParser s head.sum

/-- One append after the other finds the space that it asks for, so `__xl_realloc` is not reached. -/
def InPlace (size : Nat) : Nat → List Nat → Prop
  | _, [] => True
  | wpos, n :: ns => n ≤ size - wpos ∧ InPlace size (wpos + n) ns

def Piece.bytes (p : Piece) : List UInt8 := p.data.getD []

/-- Pieces of one file, up to its byte `n`: each has the number of bytes before it. -/
structure Covers (src : Source) (e : Entry) (n : Nat) (ps : List Piece) : Prop where
  entry : ∀ p ∈ ps, p.path = e.path ∧ p.size = e.size
  pos : ∀ i p, ps[i]? = some p → p.pos = ((ps.take i).flatMap Piece.bytes).length
  data : ∃ data, src.content e.path = some data ∧ e.size = data.length ∧ ps.flatMap Piece.bytes = data.take n
  le : n ≤ e.size

/-- The pieces of the files of a list: some files as a whole, then at most one in part. -/
def Pieces (src : Source) (list : List Entry) (ps : List Piece) (todo : List Entry) (pos : Nat) : Prop :=
  ∃ (whole : List (Entry × List Piece)) (last : List Piece), list = whole.map Prod.fst ++ todo ∧
    ps = whole.flatMap Prod.snd ++ last ∧ (∀ f ∈ whole, Covers src f.1 f.1.size f.2) ∧
    (last = [] ∧ pos = 0 ∨ ∃ e rest, todo = e :: rest ∧ pos < e.size ∧ Covers src e pos last)

/-- The pieces in the frames that were sent. -/
def sentPieces (box : List Msg) : List Piece :=
  box.flatMap fun
    | .uploadList ps => ps
    | _ => []

/-- A stream that has stored a `DOWNLOAD_LIST` of files that were listed here, and has sent nothing of it. -/
structure Stream.Begins (src : Source) (s : Stream) (list : List Entry) : Prop where
  uri : s.uri = src.uri
  disk : s.disk = src.tree.disk
  files : ∀ e ∈ list, Listed src e ∧ e.isFile = true
  parser : s.uploadParser = list
  obj : s.obj = none
  fd : s.fd = none
  file : s.filePos = 0 ∧ s.fileSize = 0
  pos : s.listPos = 0
  size : s.listSize = (list.map Entry.size).sum
  small : s.listSize < 2 ^ 64

variable {src : Source} {s : Stream} {e : Entry} {rest : List Entry} {wpos : Nat}

/-! ### Appends in place -/

theorem inPlace_append {size : Nat} (ns ms : List Nat) (wpos : Nat) :
    InPlace size wpos (ns ++ ms) ↔ InPlace size wpos ns ∧ InPlace size (wpos + ns.sum) ms := by
  induction ns generalizing wpos with
  | nil => simp [InPlace]
  | cons n ns ih => simp [InPlace, ih, and_assoc, Nat.add_assoc]

theorem lt_of_usable {size key n : Nat} (h : n < usable size wpos key) : n + (key + 11) < size - wpos := by
  unfold usable xlineSize at h
  dsimp only at h
  split_ifs at h
  · omega
  · exact absurd h (Nat.not_lt_zero n)

theorem usable_room {size key : Nat} (h : key + 11 ≤ size - wpos) :
    usable size wpos key + (key + 11) ≤ size - wpos := by
  unfold usable xlineSize
  dsimp only
  split_ifs <;> omega

theorem usable_pos {size key : Nat} (h : key + 11 < size - wpos) : 0 < usable size wpos key := by
  unfold usable xlineSize
  dsimp only
  split_ifs <;> omega

theorem fields_sum (e : Entry) : e.fields.sum = 68 + wordSize e.path := by
  simp only [Entry.fields, List.sum_cons, List.sum_nil, keyed, xlineSize]
  omega

theorem fields_inPlace {size : Nat} (h : wpos + (68 + wordSize e.path) ≤ size) : InPlace size wpos e.fields := by
  simp only [Entry.fields, InPlace, keyed, xlineSize, and_true]
  omega

/-- What a turn appends stays in the frame: the entry of the list, with its `md5`, would have fit. -/
theorem objAppends_inPlace (s : Stream) (h : wpos ≤ s.frameSize) :
    InPlace s.frameSize wpos (s.objAppends wpos) ∧ wpos + (s.objAppends wpos).sum ≤ s.frameSize := by
  unfold Stream.objAppends
  split
  · exact ⟨trivial, h⟩
  · rename_i e hobj
    split
    · exact ⟨trivial, h⟩
    · rename_i hroom
      have hfree := lt_of_usable (Nat.not_le.mp hroom)
      simp only [Entry.lineSize, keyed, xlineSize] at hfree
      split
      · rw [inPlace_append, List.sum_append, fields_sum]
        have hfields : InPlace s.frameSize wpos e.fields := fields_inPlace (by omega)
        split
        · have hdata : usable s.frameSize (wpos + (68 + wordSize e.path)) 4 + (4 + 11) ≤
              s.frameSize - (wpos + (68 + wordSize e.path)) := usable_room (by omega)
          simp only [InPlace, List.sum_singleton, and_true]
          refine ⟨⟨hfields, ?_⟩, ?_⟩
          · simp only [keyed, xlineSize]
            omega
          · simp only [keyed, xlineSize]
            omega
        · exact ⟨⟨hfields, trivial⟩, by simp only [List.sum_nil]; omega⟩
      · exact ⟨trivial, h⟩

theorem openRead_same {t : Stream} {p : Path} (h : s.openRead p = some t) :
    t.frameSize = s.frameSize ∧ t.fileSize = s.fileSize ∧ t.filePos = s.filePos ∧ t.listPos = s.listPos := by
  unfold Stream.openRead at h
  split at h
  · obtain rfl := Option.some.inj h
    exact ⟨rfl, rfl, rfl, rfl⟩
  · obtain ⟨d, -, rfl⟩ := Option.map_eq_some_iff.mp h
    exact ⟨rfl, rfl, rfl, rfl⟩

theorem readPart_wpos (s : Stream) (e : Entry) (wpos : Nat) : (s.readPart e wpos).wpos = wpos +
    if 0 < s.fileSize then keyed 4 (min (usable s.frameSize wpos 4) (s.fileSize - s.filePos)) else 0 := by
  unfold Stream.readPart
  dsimp only
  split
  · split
    · rfl
    · split <;> rfl
  · split <;> rfl

/-- The turn writes where its appends say. -/
theorem sendObj_wpos {t : Turn} (h : s.sendObj wpos = some t) : t.wpos = wpos + (s.objAppends wpos).sum := by
  unfold Stream.sendObj at h
  unfold Stream.objAppends
  cases hobj : s.obj with
  | none =>
    rw [hobj] at h
    obtain rfl := Option.some.inj h
    rfl
  | some e =>
    rw [hobj] at h
    dsimp only at h ⊢
    split at h
    · rename_i hroom
      obtain rfl := Option.some.inj h
      rw [if_pos hroom]
      rfl
    · rename_i hroom
      rw [if_neg hroom]
      split at h
      · rename_i hfile
        obtain ⟨u, hu, rfl⟩ := Option.map_eq_some_iff.mp h
        obtain ⟨hframe, hsize, hpos, -⟩ := openRead_same hu
        have hplace : wpos + xlineSize + keyed 4 (wordSize e.path) + keyed 4 0 + keyed 4 0 + keyed 3 0 =
            wpos + e.fields.sum := by
          simp only [Entry.fields, List.sum_cons, List.sum_nil]
          omega
        rw [if_pos hfile, List.sum_append, readPart_wpos, hplace, hframe, hsize, hpos, Nat.add_assoc]
        dsimp only
        split <;> simp
      · rename_i hfile
        obtain rfl := Option.some.inj h
        rw [if_neg hfile]
        rfl

theorem sendObj_frameSize {t : Turn} (h : s.sendObj wpos = some t) : t.stream.frameSize = s.frameSize := by
  unfold Stream.sendObj at h
  split at h
  · obtain rfl := Option.some.inj h
    rfl
  · split at h
    · obtain rfl := Option.some.inj h
      rfl
    · dsimp only at h
      split at h
      · obtain ⟨u, hu, rfl⟩ := Option.map_eq_some_iff.mp h
        refine Eq.trans ?_ (openRead_same hu).1
        unfold Stream.readPart
        dsimp only
        split
        · split
          · rfl
          · split <;> rfl
        · split <;> rfl
      · obtain rfl := Option.some.inj h
        rfl

theorem loopAppends_inPlace (rest : List Entry) (s : Stream) (wpos : Nat) (h : wpos ≤ s.frameSize) :
    InPlace s.frameSize wpos (Stream.loopAppends rest s wpos) := by
  induction rest generalizing s wpos with
  | nil =>
    rw [Stream.loopAppends, inPlace_append]
    refine ⟨(objAppends_inPlace s h).1, ?_⟩
    split
    · trivial
    · split <;> trivial
  | cons e rest ih =>
    rw [Stream.loopAppends, inPlace_append]
    obtain ⟨hin, hle⟩ := objAppends_inPlace s h
    refine ⟨hin, ?_⟩
    split
    · trivial
    · rename_i t ht
      split
      · rw [← sendObj_wpos ht] at hle ⊢
        rw [← sendObj_frameSize ht] at hle ⊢
        exact ih { t.stream with obj := some e } t.wpos hle
      · trivial

/-- No append of a call moves the frame. -/
theorem appends_inPlace (s : Stream) (h : keyed 3 0 + keyed 2 0 + keyed 4 0 ≤ s.frameSize) :
    InPlace s.frameSize 0 s.appends := by
  unfold Stream.appends
  rw [inPlace_append]
  simp only [keyed, xlineSize] at h
  refine ⟨?_, loopAppends_inPlace _ s _ ?_⟩
  · simp only [InPlace, keyed, xlineSize, and_true]
    omega
  · simp only [List.sum_cons, List.sum_nil, keyed, xlineSize]
    omega

/-! ### The pieces of a file -/

theorem Covers.nil (h : src.Holds e) : Covers src e 0 [] := by
  obtain ⟨-, data, hdata, hsize⟩ := h
  exact ⟨by simp, by simp, ⟨data, hdata, hsize, by simp⟩, Nat.zero_le _⟩

/-- A piece goes on where the file stands. -/
theorem Covers.snoc {k : Nat} {ps : List Piece} {p : Piece} (h : Covers src e k ps) (hp : p.Next src e k) :
    Covers src e (k + p.bytes.length) (ps ++ [p]) := by
  obtain ⟨data, hdata, hsize, hbytes⟩ := h.data
  obtain ⟨data', hdata', -, hnext⟩ := hp.data
  obtain rfl : data = data' := Option.some.inj (hdata.symm.trans hdata')
  have hle := h.le
  have hlen : (ps.flatMap Piece.bytes).length = k := by
    rw [hbytes, List.length_take]
    omega
  constructor
  · intro q hq
    obtain hq | rfl := by simpa using hq
    · exact h.entry q hq
    · exact ⟨hp.path, hp.size⟩
  · intro i q hq
    rw [List.getElem?_append] at hq
    split at hq
    · rename_i hi
      rw [List.take_append_of_le_length hi.le]
      exact h.pos i q hq
    · rename_i hi
      rw [List.getElem?_singleton] at hq
      split at hq
      · obtain rfl := Option.some.inj hq
        have hi' : i = ps.length := by omega
        rw [hi', List.take_left, hlen, hp.pos]
      · cases hq
  · refine ⟨data, hdata, hsize, ?_⟩
    rw [List.flatMap_append, List.flatMap_singleton, hbytes, show p.bytes = p.data.getD [] from rfl, hnext,
      List.take_add]
    simp
  · exact hp.fits

theorem Pieces.next {list todo : List Entry} {k : Nat} {ps : List Piece} {p : Piece}
    (h : Pieces src list ps (e :: todo) k) (hp : p.Next src e k) :
    Pieces src list (ps ++ [p]) (Cursor.after e todo (k + p.bytes.length)).todo
      (Cursor.after e todo (k + p.bytes.length)).pos := by
  obtain ⟨whole, last, hlist, hps, hwhole, hlast⟩ := h
  have hcovers : Covers src e k last := by
    obtain ⟨rfl, rfl⟩ | ⟨e', rest, heq, -, hc⟩ := hlast
    · obtain ⟨data, hdata, hsize, -⟩ := hp.data
      exact ⟨by simp, by simp, ⟨data, hdata, hsize, by simp⟩, Nat.zero_le _⟩
    · obtain ⟨rfl, -⟩ := List.cons.inj heq
      exact hc
  have hmore := hcovers.snoc hp
  rw [Cursor.after]
  split
  · rename_i hend
    rw [hend] at hmore
    refine ⟨whole ++ [(e, last ++ [p])], [], by simp [hlist], by simp [hps], ?_, .inl ⟨rfl, rfl⟩⟩
    intro f hf
    obtain hf | rfl := by simpa using hf
    · exact hwhole f hf
    · exact hmore
  · rename_i hopen
    have hlt : k + p.bytes.length < e.size := lt_of_le_of_ne hmore.le hopen
    exact ⟨whole, last ++ [p], hlist, by simp [hps], hwhole, .inr ⟨e, todo, rfl, hlt, hmore⟩⟩

/-- What is sent is cut into pieces. -/
theorem Pieces.sent {list : List Entry} {ps qs : List Piece} {a c : Cursor} (h : Pieces src list ps a.todo a.pos)
    (hsent : Sent src a qs c) : Pieces src list (ps ++ qs) c.todo c.pos := by
  induction hsent generalizing ps with
  | nil c => simpa using h
  | cons head _ ih =>
    rw [← List.singleton_append, ← List.append_assoc]
    exact ih (h.next head)

theorem Pieces.flight {list : List Entry} {ps : List Piece} {ms : List Msg} {a c : Cursor}
    (h : Pieces src list ps a.todo a.pos) (hflight : Flight src a ms c) :
    Pieces src list (ps ++ sentPieces ms) c.todo c.pos := by
  induction hflight generalizing ps with
  | nil c => simpa [sentPieces] using h
  | cons left head _ ih =>
    rw [sentPieces, List.flatMap_cons, ← List.append_assoc]
    exact ih (h.sent head)

/-! ### Every call goes on -/

/-- The file of the entry is there to be opened. -/
theorem sendObj_some {c : Cursor} (h : s.Sends src rest c) (wpos : Nat) : ∃ t, s.sendObj wpos = some t := by
  unfold Stream.sendObj
  split
  · exact ⟨_, rfl⟩
  · rename_i e hobj
    split
    · exact ⟨_, rfl⟩
    · have hholds := h.valid.holds e (by simp [h.todo, hobj])
      obtain ⟨hfile, data, hdata, -⟩ := hholds
      have hlocal : s.disk.files (s.localPath e.path) = some data := h.disk ▸ content_local h.uri hdata
      have hopen : ∃ u, { s with fileSize := e.size }.openRead e.path = some u := by
        unfold Stream.openRead
        split
        · exact ⟨_, rfl⟩
        · exact ⟨_, Option.map_eq_some_iff.mpr ⟨data, hlocal, rfl⟩⟩
      obtain ⟨u, hu⟩ := hopen
      dsimp only
      rw [if_pos hfile, hu]
      exact ⟨_, rfl⟩

theorem sendLoop_some {c : Cursor} (h : s.Sends src rest c)
    (wpos : Nat) : ∃ r, Stream.sendLoop rest s wpos = some r := by
  induction rest generalizing s c wpos with
  | nil =>
    obtain ⟨t, ht⟩ := sendObj_some h wpos
    rw [Stream.sendLoop.eq_def]
    dsimp only
    rw [ht]
    dsimp only
    split <;> exact ⟨_, rfl⟩
  | cons e rest ih =>
    obtain ⟨t, ht⟩ := sendObj_some h wpos
    obtain ⟨-, ⟨c', -, hsends⟩, hobj⟩ := sendObj_moves h ht
    rw [Stream.sendLoop.eq_def]
    dsimp only
    rw [ht]
    dsimp only
    split
    · rename_i hmore
      obtain ⟨r, hr⟩ := ih (hsends.take (hobj.mp hmore)) t.wpos
      rw [hr]
      exact ⟨_, rfl⟩
    · exact ⟨_, rfl⟩

/-! ### Every call gets further -/

/-- Bytes and entries that are not sent yet. -/
def Cursor.work (c : Cursor) : Nat := c.left + c.todo.length

theorem after_todo_le (e : Entry) (rest : List Entry) (k : Nat) :
    (Cursor.after e rest k).todo.length ≤ (e :: rest).length := by
  rw [Cursor.after]
  split
  · exact Nat.le_succ _
  · exact le_rfl

theorem Sent.le {a c : Cursor} {ps : List Piece} (h : Sent src a ps c) :
    c.left ≤ a.left ∧ c.todo.length ≤ a.todo.length := by
  induction h with
  | nil c => exact ⟨le_rfl, le_rfl⟩
  | @cons e rest pos p ps c head tail ih =>
    have hleft := Cursor.left_after rest head.fits
    have htodo := after_todo_le e rest (pos + (p.data.getD []).length)
    exact ⟨by omega, ih.2.trans htodo⟩

/-- The stream says where its cursor is. -/
theorem Stream.Sends.unique {a c : Cursor} (h : s.Sends src rest a) (h' : s.Sends src rest c) : a = c := by
  obtain ⟨todo, pos⟩ := a
  obtain ⟨todo', pos'⟩ := c
  obtain rfl : todo = todo' := h.todo.trans h'.todo.symm
  obtain rfl : pos = pos' := h.pos.symm.trans h'.pos
  rfl

/-- With room for some data, bytes are sent or the entry is done. -/
theorem readPart_goes {k : Nat} (h : s.Sends src rest ⟨e :: rest, k⟩) (hsize : s.fileSize = e.size)
    (hroom : 0 < usable s.frameSize wpos 4) :
    s.listPos < (s.readPart e wpos).stream.listPos ∨ (s.readPart e wpos).stream.obj = none := by
  have hpos : s.filePos = k := h.pos
  have hle := h.valid.pos_le
  have hlt : k ≠ 0 → k < e.size := by
    intro hk
    obtain ⟨e', rest', heq, hlt⟩ := h.valid.pos hk
    obtain ⟨rfl, -⟩ := List.cons.inj heq
    exact hlt
  have hleft : e.size - k ≤ Cursor.left ⟨e :: rest, k⟩ := by
    simp only [Cursor.left, List.map_cons, List.sum_cons]
    omega
  have hcount := h.count
  have htotal := h.total
  unfold Stream.readPart
  dsimp only
  split
  · left
    have hsum : add64 s.listPos (min (usable s.frameSize wpos 4) (s.fileSize - s.filePos)) =
        s.listPos + min (usable s.frameSize wpos 4) (s.fileSize - s.filePos) := add64_eq (by omega)
    have hmore : 0 < min (usable s.frameSize wpos 4) (s.fileSize - s.filePos) := by omega
    rw [hsum]
    split
    · exact Nat.lt_add_of_pos_right hmore
    · split
      · exact Nat.lt_add_of_pos_right hmore
      · exact Nat.lt_add_of_pos_right hmore
  · right
    rw [if_pos (by omega)]
    rfl

/-- An entry that fits is begun, with room for some data. -/
theorem sendObj_goes {c : Cursor} {t : Turn} (h : s.Sends src rest c) (hobj : s.obj = some e)
    (hfits : e.lineSize < usable s.frameSize wpos 3) (hmd5 : e.md5 = zeroMd5) (ht : s.sendObj wpos = some t) :
    ∃ c', Sent src c t.pieces c' ∧ t.stream.Sends src rest c' ∧ c'.work < c.work := by
  obtain ⟨hsame, ⟨c', hsent, hsends⟩, -⟩ := sendObj_moves h ht
  refine ⟨c', hsent, hsends, ?_⟩
  obtain ⟨hleft, htodo⟩ := hsent.le
  obtain ⟨todo, k⟩ := c
  obtain rfl : todo = e :: rest := by simpa [hobj] using h.todo
  have hgoes : s.listPos < t.stream.listPos ∨ t.stream.obj = none := by
    unfold Stream.sendObj at ht
    split at ht
    · rename_i hnone
      cases hobj.symm.trans hnone
    rename_i e' hobj'
    obtain rfl : e = e' := Option.some.inj (hobj.symm.trans hobj')
    dsimp only at ht
    rw [if_neg (Nat.not_le.mpr hfits), if_pos (h.valid.holds e List.mem_cons_self).1] at ht
    obtain ⟨u, hu, rfl⟩ := Option.map_eq_some_iff.mp ht
    obtain ⟨husends, -, -, husize, -⟩ := openRead_sends h hobj hu
    obtain ⟨hframe, -, -, hlist⟩ := openRead_same hu
    have hfree := lt_of_usable hfits
    simp only [Entry.lineSize, keyed, xlineSize, hmd5, zeroMd5, List.length_replicate] at hfree
    have hdata : 0 < usable u.frameSize
        (wpos + xlineSize + keyed 4 (wordSize e.path) + keyed 4 0 + keyed 4 0 + keyed 3 0) 4 := by
      refine usable_pos ?_
      simp only [keyed, xlineSize, hframe]
      omega
    exact hlist ▸ readPart_goes husends husize hdata
  unfold Cursor.work
  obtain hmore | hdone := hgoes
  · have hcount := h.count
    have hcount' := hsends.count
    have htotal : t.stream.listSize = s.listSize := by
      obtain ⟨a1, a2, a3, a4, a5, a6, heq⟩ := hsame
      rw [heq]
    omega
  · have hrest : c'.todo = rest := by simpa [hdone] using hsends.todo
    rw [hrest, List.length_cons]
    omega

theorem Stream.Sends.cursor {c : Cursor} (h : s.Sends src rest c) : c = ⟨s.obj.toList ++ rest, s.filePos⟩ := by
  obtain ⟨todo, pos⟩ := c
  obtain rfl : todo = s.obj.toList ++ rest := h.todo
  obtain rfl : s.filePos = pos := h.pos
  rfl

/-- The turns after the first one do not go back. -/
theorem sendLoop_turn {c c' v : Cursor} {t : Stream} {u : Turn} {ps : List Piece} (h : s.Sends src rest c)
    (hu : s.sendObj wpos = some u) (hv : u.stream.Sends src rest v)
    (ht : Stream.sendLoop rest s wpos = some (t, ps)) (hc : t.Sends src t.uploadParser c') : c'.work ≤ v.work := by
  obtain ⟨-, -, hobj⟩ := sendObj_moves h hu
  rw [Stream.sendLoop.eq_def] at ht
  dsimp only at ht
  rw [hu] at ht
  dsimp only at ht
  split at ht
  · rename_i hmore
    have hnone := hobj.mp hmore
    cases rest with
    | nil =>
      cases ht
      rw [hc.cursor, hv.cursor, hnone]
    | cons e rest =>
      obtain ⟨⟨t', ps'⟩, hrest, heq⟩ := Option.map_eq_some_iff.mp ht
      cases heq
      obtain ⟨-, -, c'', hsent, hsends⟩ := sendLoop_sent (hv.take hnone) hrest
      obtain rfl := hc.unique hsends
      exact Nat.add_le_add hsent.le.1 hsent.le.2
  · cases ht
    rw [hc.cursor, hv.cursor]

/-- With an object that fits, the loop gets further. -/
theorem sendLoop_goes {c c' : Cursor} {t : Stream} {ps : List Piece} (h : s.Sends src rest c) (hobj : s.obj = some e)
    (hfits : e.lineSize < usable s.frameSize wpos 3) (hmd5 : e.md5 = zeroMd5)
    (ht : Stream.sendLoop rest s wpos = some (t, ps)) (hc : t.Sends src t.uploadParser c') : c'.work < c.work := by
  obtain ⟨u, hu⟩ := sendObj_some h wpos
  obtain ⟨v, -, hv, hlt⟩ := sendObj_goes h hobj hfits hmd5 hu
  exact (sendLoop_turn h hu hv ht hc).trans_lt hlt

/-- So it does with the first entry of the list. -/
theorem sendLoop_first {c c' : Cursor} {t : Stream} {ps : List Piece} (h : s.Sends src (e :: rest) c)
    (hobj : s.obj = none) (hfits : e.lineSize < usable s.frameSize wpos 3) (hmd5 : e.md5 = zeroMd5)
    (ht : Stream.sendLoop (e :: rest) s wpos = some (t, ps)) (hc : t.Sends src t.uploadParser c') :
    c'.work < c.work := by
  have hturn : s.sendObj wpos = some ⟨s, wpos, [], true⟩ := by
    unfold Stream.sendObj
    split
    · rfl
    · rename_i x hx
      cases hobj.symm.trans hx
  rw [Stream.sendLoop.eq_def] at ht
  dsimp only at ht
  rw [hturn] at ht
  obtain ⟨⟨t', ps'⟩, hrest, heq⟩ := Option.map_eq_some_iff.mp ht
  cases heq
  exact sendLoop_goes (s := { s with obj := some e }) (h.take hobj) rfl hfits hmd5 hrest hc

/-- What the entries left of a list need to be begun in a frame of their own. -/
def Cursor.Fits (c : Cursor) (size : Nat) : Prop :=
  ∀ e ∈ c.todo, e.md5 = zeroMd5 ∧ e.lineSize < usable size (keyed 3 0 + keyed 2 0 + keyed 4 0) 3

theorem Sent.mem {a c : Cursor} {ps : List Piece} (h : Sent src a ps c) : ∀ e ∈ c.todo, e ∈ a.todo := by
  induction h with
  | nil c => exact fun _ he => he
  | cons head _ ih =>
    intro x hx
    have hmem := ih x hx
    rw [Cursor.after] at hmem
    split at hmem
    · exact List.mem_cons_of_mem _ hmem
    · exact hmem

theorem Flight.mem {a c : Cursor} {ms : List Msg} (h : Flight src a ms c) : ∀ e ∈ c.todo, e ∈ a.todo := by
  induction h with
  | nil c => exact fun _ he => he
  | cons left head _ ih => exact fun x hx => head.mem x (ih x hx)

/-- A call goes well, and gets further. -/
theorem sendFile_goes {c : Cursor} (h : s.InBatch src c) (hfits : c.Fits s.frameSize) (hlt : s.listPos < s.listSize) :
    ∃ t ms c', s.sendFile = some t ∧ t.outbox = s.outbox ++ ms ∧ Flight src c ms c' ∧ t.InBatch src c' ∧
      c'.Fits t.frameSize ∧ c'.work < c.work := by
  obtain ⟨⟨v, ps⟩, hv⟩ := sendLoop_some h.sends (keyed 3 0 + keyed 2 0 + keyed 4 0)
  have ht : s.sendFile = some (v.send (.uploadList ps)) := by
    unfold Stream.sendFile
    rw [hv]
    rfl
  obtain ⟨⟨-, hsame⟩, ms, c', hbox, hflight, hin⟩ := sendFile_flight h hlt ht
  refine ⟨_, ms, c', ht, hbox, hflight, hin, ?_, ?_⟩
  · have hframe : (v.send (.uploadList ps)).frameSize = s.frameSize := by
      obtain ⟨a1, a2, a3, a4, a5, a6, a7, a8, a9, heq⟩ := hsame
      rw [heq]
    rw [hframe]
    exact fun e he => hfits e (hflight.mem e he)
  · have hc : v.Sends src v.uploadParser c' := by
      obtain ⟨-, -, c'', -, hsends⟩ := sendLoop_sent h.sends hv
      rw [hin.sends.cursor]
      rwa [hsends.cursor] at hsends
    have hleft : 0 < c.left := by
      have hcount := h.sends.count
      omega
    cases hobj : s.obj with
    | some e =>
      obtain ⟨hmd5, hfit⟩ := hfits e (by simp [h.sends.todo, hobj])
      exact sendLoop_goes h.sends hobj hfit hmd5 hv hc
    | none =>
      cases hparser : s.uploadParser with
      | nil =>
        have htodo : c.todo = [] := by simpa [hobj, hparser] using h.sends.todo
        simp [Cursor.left, htodo] at hleft
      | cons e rest =>
        obtain ⟨hmd5, hfit⟩ := hfits e (by simp [h.sends.todo, hobj, hparser])
        rw [hparser] at hv
        exact sendLoop_first (hparser ▸ h.sends) hobj hfit hmd5 hv hc

theorem sendFrames_goes {c : Cursor} (n : Nat) (h : s.InBatch src c) (hfits : c.Fits s.frameSize) :
    ∃ t ms c', s.sendFrames n = (t, true) ∧ t.outbox = s.outbox ++ ms ∧ Flight src c ms c' ∧ t.InBatch src c' ∧
      c'.Fits t.frameSize := by
  induction n generalizing s c with
  | zero => exact ⟨s, [], c, rfl, by simp, .nil c, h, hfits⟩
  | succ n ih =>
    rw [Stream.sendFrames]
    split
    · rename_i hlt
      obtain ⟨v, ms, a, hv, hbox, hflight, hin, hfits', -⟩ := sendFile_goes h hfits hlt
      obtain ⟨t, ms', c', ht, hbox', hflight', hin', hfits''⟩ := ih hin hfits'
      rw [hv]
      exact ⟨t, ms ++ ms', c', ht, by rw [hbox', hbox, List.append_assoc], hflight.append hflight', hin', hfits''⟩
    · exact ⟨s, [], c, rfl, by simp, .nil c, h, hfits⟩

/-- Some number of frames is enough for all bytes. -/
theorem sendFrames_ends {c : Cursor} (h : s.InBatch src c) (hfits : c.Fits s.frameSize) :
    ∃ n t ms c', s.sendFrames n = (t, true) ∧ t.outbox = s.outbox ++ ms ∧ Flight src c ms c' ∧ t.InBatch src c' ∧
      t.listPos = t.listSize := by
  induction hwork : c.work using Nat.strong_induction_on generalizing s c with
  | _ work ih =>
    by_cases hlt : s.listPos < s.listSize
    · obtain ⟨v, ms, a, hv, hbox, hflight, hin, hfits', hless⟩ := sendFile_goes h hfits hlt
      obtain ⟨n, t, ms', c', ht, hbox', hflight', hin', hend⟩ := ih a.work (hwork ▸ hless) hin hfits' rfl
      refine ⟨n + 1, t, ms ++ ms', c', ?_, by rw [hbox', hbox, List.append_assoc], hflight.append hflight', hin', hend⟩
      rw [Stream.sendFrames, if_pos hlt, hv]
      exact ht
    · have hcount := h.sends.count
      exact ⟨0, s, [], c, rfl, by simp, .nil c, h, by omega⟩

theorem Stream.Begins.inBatch {list : List Entry} (h : s.Begins src list) : s.InBatch src ⟨list, 0⟩ := by
  obtain ⟨hfilePos, hfileSize⟩ := h.file
  refine ⟨⟨h.uri, h.disk, ⟨?_, fun hk => absurd rfl hk⟩, by simp [h.obj, h.parser], hfilePos,
    .inl ⟨h.fd, rfl, hfileSize⟩, ?_, h.small⟩, fun _ => .inr h.pos⟩
  · intro e he
    obtain ⟨hlisted, hfile⟩ := h.files e he
    exact hlisted.holds hfile
  · simp [h.pos, h.size, Cursor.left]

theorem Listed.md5 (h : Listed src e) : e.md5 = zeroMd5 := by
  obtain ⟨p, n, -, rfl⟩ := h
  rfl

/-- A call finds room for the head of the list. -/
theorem Stream.InBatch.in_place {c : Cursor} (h : s.InBatch src c) (hfits : c.Fits s.frameSize)
    (hlt : s.listPos < s.listSize) : InPlace s.frameSize 0 s.appends := by
  obtain ⟨todo, k⟩ := c
  have hcount := h.sends.count
  cases todo with
  | nil =>
    simp only [Cursor.left, List.map_nil, List.sum_nil] at hcount
    omega
  | cons e rest =>
    have hfree := lt_of_usable (hfits e List.mem_cons_self).2
    exact appends_inPlace s (by omega)

/-- With all bytes sent, the entries left have none. -/
theorem Pieces.ended {list : List Entry} {ps : List Piece} {c : Cursor} (h : Pieces src list ps c.todo c.pos)
    (hleft : c.left = 0) :
    ∃ (whole : List (Entry × List Piece)) (todo : List Entry), list = whole.map Prod.fst ++ todo ∧
      ps = whole.flatMap Prod.snd ∧ (∀ f ∈ whole, Covers src f.1 f.1.size f.2) ∧ ∀ e ∈ todo, e.size = 0 := by
  obtain ⟨whole, last, hlist, hps, hwhole, ⟨rfl, hpos⟩ | ⟨e, rest, htodo, hlt, -⟩⟩ := h
  · refine ⟨whole, c.todo, hlist, by simpa using hps, hwhole, ?_⟩
    intro e he
    have hle : e.size ≤ (c.todo.map Entry.size).sum := List.le_sum_of_mem (List.mem_map_of_mem he)
    have hzero : (c.todo.map Entry.size).sum = 0 := by simpa [Cursor.left, hpos] using hleft
    omega
  · simp only [Cursor.left, htodo, List.map_cons, List.sum_cons] at hleft
    omega

/-- The pieces that the frames of a list carry make up its files. Whatever the number of frames, every call that
follows appends in place; some number is enough for all bytes, and then only empty files are left. -/
theorem file_chunks {list : List Entry} (h : s.Begins src list)
    (hfits : ∀ e ∈ list, e.lineSize < usable s.frameSize (keyed 3 0 + keyed 2 0 + keyed 4 0) 3) :
    (∀ n, ∃ t box, s.sendFrames n = (t, true) ∧ t.outbox = s.outbox ++ box ∧
      (∃ todo pos, Pieces src list (sentPieces box) todo pos) ∧
      (t.listPos < t.listSize → InPlace t.frameSize 0 t.appends)) ∧
    ∃ n t box, s.sendFrames n = (t, true) ∧ t.outbox = s.outbox ++ box ∧ t.listPos = t.listSize ∧
      ∃ (whole : List (Entry × List Piece)) (todo : List Entry), list = whole.map Prod.fst ++ todo ∧
        sentPieces box = whole.flatMap Prod.snd ∧ (∀ f ∈ whole, Covers src f.1 f.1.size f.2) ∧
        ∀ e ∈ todo, e.size = 0 := by
  have hin := h.inBatch
  have hfit : Cursor.Fits ⟨list, 0⟩ s.frameSize := fun e he => ⟨(h.files e he).1.md5, hfits e he⟩
  have hnone : Pieces src list [] list 0 := ⟨[], [], by simp, by simp, by simp, .inl ⟨rfl, rfl⟩⟩
  constructor
  · intro n
    obtain ⟨t, box, c, ht, hbox, hflight, hbatch, hfit'⟩ := sendFrames_goes n hin hfit
    exact ⟨t, box, ht, hbox, ⟨c.todo, c.pos, hnone.flight hflight⟩, hbatch.in_place hfit'⟩
  · obtain ⟨n, t, box, c, ht, hbox, hflight, hbatch, hend⟩ := sendFrames_ends hin hfit
    have hcount := hbatch.sends.count
    exact ⟨n, t, box, ht, hbox, hend, (hnone.flight hflight).ended (by omega)⟩

/-- A single file. -/
def singleSource (data : List UInt8) (h : data.length < 2 ^ 64) : Source where
  uri := [97]
  tree := .file data
  distinct := by
    intro p children hp
    cases p with
    | nil => cases hp
    | cons x p => cases hp
  sized := by
    intro p bytes hp
    cases p with
    | nil =>
      cases hp
      exact h
    | cons x p => cases hp

/-- A file of 100 bytes in frames with room for 65 of them. -/
theorem file_chunks_two :
    let src := singleSource (List.replicate 100 7) (by decide)
    let s : Stream := { upload := true, uri := [97], frameSize := 192, disk := src.tree.disk,
                        uploadParser := [src.entry [] src.tree], listSize := 100 }
    ∃ n t box, s.sendFrames n = (t, true) ∧ t.outbox = s.outbox ++ box ∧ t.listPos = t.listSize := by
  intro src s
  have hfits : ∀ e ∈ [src.entry [] src.tree], e.lineSize < usable s.frameSize
      (keyed 3 0 + keyed 2 0 + keyed 4 0) 3 := by
    intro e he
    obtain rfl := List.mem_singleton.mp he
    decide
  have hfiles : ∀ e ∈ [src.entry [] src.tree], Listed src e ∧ e.isFile = true := by
    intro e he
    obtain rfl := List.mem_singleton.mp he
    exact ⟨⟨[], src.tree, rfl, rfl⟩, rfl⟩
  have hbegins : s.Begins src [src.entry [] src.tree] :=
    ⟨rfl, rfl, hfiles, rfl, rfl, rfl, ⟨rfl, rfl⟩, rfl, by decide, by decide⟩
  obtain ⟨-, n, t, box, ht, hbox, hend, -⟩ := file_chunks hbegins hfits
  exact ⟨n, t, box, ht, hbox, hend⟩

end Wenas.Xlio
