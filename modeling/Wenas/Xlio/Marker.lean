import Wenas.Xlio.Chunks

/-!
# The end of a list

`xlio_upload_list` ends a list when as many bytes are sent as the list has, and gives its message back. What is left of
the list then is in `obj` and `upload_parser`: an empty file adds no bytes, and waits there when a frame had no room for
it.
-/
namespace Wenas.Xlio

/-- The states in which the loop of `xlio_send_file` looks at `obj`, each with the `wpos` of the frame. -/
def Stream.turns : List Entry → Stream → Nat → List (Stream × Nat)
  | rest, s, wpos =>
    (s, wpos) ::
      match s.sendObj wpos with
      | none => []
      | some t =>
        if t.more then
          match rest with
          | [] => []
          | e :: rest => Stream.turns rest { t.stream with obj := some e } t.wpos
        else []

/-- The turns of a call of `xlio_send_file`. -/
def Stream.fileTurns (s : Stream) : List (Stream × Nat) :=
  Stream.turns s.uploadParser s (keyed 3 0 + keyed 2 0 + keyed 4 0)

/-- The turns of the calls that `sendFrames` makes. -/
def Stream.framesTurns : Nat → Stream → List (Stream × Nat)
  | 0, _ => []
  | frames + 1, s =>
    if s.listPos < s.listSize then
      s.fileTurns ++
        match s.sendFile with
        | none => []
        | some s => Stream.framesTurns frames s
    else []

/-- The turns of `xlio_recv_frame`. -/
def Stream.recvTurns (s : Stream) : Msg → List (Stream × Nat)
  | .downloadList size (e :: list) =>
    if s.uploadList then []
    else Stream.framesTurns s.readable { s with uploadList := true, listSize := size, uploadParser := e :: list }
  | _ => []

/-- The turns of an iteration with a frame that is back. -/
def Stream.backTurns (s : Stream) : List (Stream × Nat) :=
  match s.out with
  | [] => []
  | _ :: out =>
    let s := { s with out := out, readable := s.readable + 1 }
    match s.recvFrame with
    | some m => s.recvTurns m
    | none => if s.upload = true ∧ s.uploadList = true ∧ s.listPos < s.listSize then s.fileTurns else []

/-- Frames come back while the stream is in use. -/
def Stream.backs : Nat → Stream → Stream
  | 0, s => s
  | n + 1, s => if s.freed then s else Stream.backs n s.back

def Stream.backsTurns : Nat → Stream → List (Stream × Nat)
  | 0, _ => []
  | n + 1, s => if s.freed then [] else s.backTurns ++ Stream.backsTurns n s.back

/-- After a `DOWNLOAD_LIST` and `n` returning frames. -/
def Stream.ordered (s : Stream) (size : Nat) (list : List Entry) (n : Nat) : Stream :=
  Stream.backs n (s.recv (.downloadList size list))

def Stream.orderedTurns (s : Stream) (size : Nat) (list : List Entry) (n : Nat) : List (Stream × Nat) :=
  (if s.readable = 0 then [] else s.recvTurns (.downloadList size list)) ++
    Stream.backsTurns n (s.recv (.downloadList size list))

/-- With all bytes of the list sent, there is room for the entry in `obj`. -/
def Stream.Roomy (s : Stream) (wpos : Nat) : Prop :=
  s.listPos = s.listSize → ∀ e, s.obj = some e → e.lineSize < usable s.frameSize wpos 3

/-- The next frame that is back makes the empty list. -/
structure Stream.Marks (s : Stream) : Prop where
  used : s.freed = false
  upload : s.upload = true
  back : s.out ≠ []
  quiet : s.recvFrame = none
  list : s.uploadList = true
  bytes : s.listPos = s.listSize

/-- Every entry of a list has its pieces, at least one, in the order of the list. -/
def Written (list : List Entry) (ps : List Piece) : Prop :=
  ∃ groups : List (Entry × List Piece), list = groups.map Prod.fst ∧ ps = groups.flatMap Prod.snd ∧
    ∀ f ∈ groups, f.2 ≠ [] ∧ ∀ p ∈ f.2, p.path = f.1.path

/-- A `DOWNLOAD_LIST` of files; `size` is a `uint64_t`. -/
structure OrderOf (size : Nat) (list : List Entry) : Prop where
  files : ∀ e ∈ list, e.isFile = true
  sum : (list.map Entry.size).sum = size
  small : size < 2 ^ 64

/-- An uploader before a `DOWNLOAD_LIST`: the lists before it were ended with room for all their entries. -/
inductive Stream.Between : Stream → Prop
  | start (src : Source) (frameSize : Nat) (response : Bool) : Between (startUploader src frameSize response)
  | reqList {s : Stream} (before : Between s) : Between (s.recv .reqList)
  | back {s : Stream} (before : Between s) (used : s.back.freed = false) : Between s.back
  | list {s : Stream} {size n : Nat} {list : List Entry} (before : Between s) (order : OrderOf size list)
      (bytes : size = 0 → list = []) (roomy : ∀ u ∈ s.orderedTurns size list n, u.1.Roomy u.2)
      (marks : (s.ordered size list n).Marks) : Between (s.ordered size list n).back

/-- How far a list has come: `ps` are its pieces so far, and the entries in `obj` and `rest` are left. -/
structure Stream.Course (list : List Entry) (ps : List Piece) (s : Stream) (rest : List Entry) : Prop where
  files : ∀ e ∈ list, e.isFile = true ∧ e.size < 2 ^ 64
  parts : ∃ (groups : List (Entry × List Piece)) (last : List Piece),
    list = groups.map Prod.fst ++ (s.obj.toList ++ rest) ∧ ps = groups.flatMap Prod.snd ++ last ∧
    (∀ f ∈ groups, f.2 ≠ [] ∧ ∀ p ∈ f.2, p.path = f.1.path) ∧ ∀ p ∈ last, ∃ e, s.obj = some e ∧ p.path = e.path
  count : s.listPos + ((s.obj.toList ++ rest).map Entry.size).sum = s.listSize + s.filePos
  part : s.filePos = 0 ∨ ∃ e, s.obj = some e ∧ s.filePos < e.size
  total : s.listSize < 2 ^ 64

variable {s t : Stream} {list rest : List Entry} {ps : List Piece} {e : Entry} {wpos : Nat}

theorem Stream.Course.listPos_le (h : s.Course list ps rest) : s.listPos ≤ s.listSize := by
  have hcount := h.count
  obtain hzero | ⟨e, hobj, hlt⟩ := h.part
  · omega
  · simp only [hobj, Option.toList_some, List.singleton_append, List.map_cons, List.sum_cons] at hcount
    omega

/-- What a turn does to the course of a list. -/
structure Turn.Goes (list : List Entry) (ps : List Piece) (s : Stream) (rest : List Entry) (wpos : Nat) (t : Turn) :
    Prop where
  same : SameFrame s t.stream
  course : t.stream.Course list (ps ++ t.pieces) rest
  pos : s.listPos ≤ t.stream.listPos
  obj : t.more = true ↔ t.stream.obj = none
  roomy : s.Roomy wpos ↔ t.more = true ∨ t.stream.listPos < t.stream.listSize

/-- A piece of the entry in `obj` is in the frame. -/
theorem Stream.Course.more {fd : Option (Path × Nat)} {p : Piece} {len size : Nat} (h : s.Course list ps rest)
    (hobj : s.obj = some e) (hp : p.path = e.path) (hlt : s.filePos + len < e.size) :
    { s with fd := fd, fileSize := size, filePos := s.filePos + len, listPos := s.listPos + len }.Course list
      (ps ++ [p]) rest := by
  obtain ⟨groups, last, hlist, hps, hgroups, hlast⟩ := h.parts
  have hcount := h.count
  refine ⟨h.files, ⟨groups, last ++ [p], hlist, by simp [hps], hgroups, ?_⟩, ?_, .inr ⟨e, hobj, hlt⟩, h.total⟩
  · intro q hq
    obtain hq | rfl := by simpa using hq
    · exact hlast q hq
    · exact ⟨e, hobj, hp⟩
  · simp only
    omega

/-- The last piece of the entry in `obj` is in the frame. -/
theorem Stream.Course.close {fd : Option (Path × Nat)} {p : Piece} {len : Nat} (h : s.Course list ps rest)
    (hobj : s.obj = some e) (hp : p.path = e.path) (heq : s.filePos + len = e.size) :
    { s with fd := fd, obj := none, fileSize := 0, filePos := 0, listPos := s.listPos + len }.Course list
      (ps ++ [p]) rest := by
  obtain ⟨groups, last, hlist, hps, hgroups, hlast⟩ := h.parts
  have hcount := h.count
  rw [hobj] at hlist
  refine ⟨h.files, ⟨groups ++ [(e, last ++ [p])], [], by simp [hlist], by simp [hps], ?_, by simp⟩, ?_, .inl rfl, h.total⟩
  · intro f hf
    obtain hf | rfl := by simpa using hf
    · exact hgroups f hf
    · refine ⟨by simp, fun q hq => ?_⟩
      obtain hq | rfl := by simpa using hq
      · obtain ⟨e', he', hpath⟩ := hlast q hq
        obtain rfl : e = e' := Option.some.inj (hobj.symm.trans he')
        exact hpath
      · exact hp
  · simp only [hobj, Option.toList_some, List.singleton_append, List.map_cons, List.sum_cons] at hcount
    simp only [Option.toList_none, List.nil_append]
    omega

theorem readPart_course (h : s.Course list ps rest) (hobj : s.obj = some e) (hsize : s.fileSize = e.size) (wpos : Nat) :
    SameFrame s (s.readPart e wpos).stream ∧
      (s.readPart e wpos).stream.Course list (ps ++ (s.readPart e wpos).pieces) rest ∧
      s.listPos ≤ (s.readPart e wpos).stream.listPos ∧
      ((s.readPart e wpos).more = true ↔ (s.readPart e wpos).stream.obj = none) ∧
      ((s.readPart e wpos).more = true ∨ (s.readPart e wpos).stream.listPos < s.listSize) := by
  have hcount := h.count
  have htotal := h.total
  have hle : s.filePos ≤ e.size := by
    obtain hzero | ⟨e', he', hlt⟩ := h.part
    · omega
    · obtain rfl : e = e' := Option.some.inj (hobj.symm.trans he')
      exact hlt.le
  have hsmall : e.size < 2 ^ 64 := by
    obtain ⟨groups, last, hlist, -⟩ := h.parts
    exact (h.files e (by simp [hlist, hobj])).2
  simp only [hobj, Option.toList_some, List.singleton_append, List.map_cons, List.sum_cons] at hcount
  unfold Stream.readPart
  dsimp only
  split
  · rename_i hfull
    set len := min (usable s.frameSize wpos 4) (s.fileSize - s.filePos)
    have hfile : add64 s.filePos len = s.filePos + len := add64_eq (by omega)
    have hpos : add64 s.listPos len = s.listPos + len := add64_eq (by omega)
    rw [hfile, hpos]
    split
    · refine ⟨⟨_, _, _, _, _, _, rfl⟩, h.more hobj rfl (by omega), Nat.le_add_right _ _, by simp [hobj], .inr ?_⟩
      simp only
      omega
    · rw [if_pos (by omega)]
      exact ⟨⟨_, _, _, _, _, _, rfl⟩, h.close hobj rfl (by omega), Nat.le_add_right _ _, by simp [Stream.closeRead],
        .inl rfl⟩
  · have hzero : s.filePos + 0 = e.size := by omega
    rw [if_pos (by omega)]
    exact ⟨⟨_, _, _, _, _, _, rfl⟩, h.close hobj rfl hzero, le_rfl, by simp [Stream.closeRead], .inl rfl⟩

theorem sendObj_course {t : Turn} (h : s.Course list ps rest) (ht : s.sendObj wpos = some t) :
    t.Goes list ps s rest wpos := by
  unfold Stream.sendObj at ht
  split at ht
  · rename_i hobj
    obtain rfl := Option.some.inj ht
    exact ⟨.refl s, by simpa using h, le_rfl, by simp [hobj], by simp [Stream.Roomy, hobj]⟩
  · rename_i e hobj
    have hle := h.listPos_le
    split at ht
    · rename_i hfull
      obtain rfl := Option.some.inj ht
      refine ⟨.refl s, by simpa using h, le_rfl, by simp [hobj], ?_⟩
      have hroomy : s.Roomy wpos ↔ s.listPos ≠ s.listSize := by
        simp only [Stream.Roomy, hobj, Option.some.injEq, forall_eq']
        exact forall_congr' fun _ => iff_false_intro (Nat.not_lt.mpr hfull)
      rw [hroomy]
      simp only [Bool.false_eq_true, false_or]
      omega
    · rename_i hroom
      have hroomy : s.Roomy wpos := by
        intro _ e' he'
        obtain rfl : e = e' := Option.some.inj (hobj.symm.trans he')
        exact Nat.not_le.mp hroom
      have hmem : e ∈ list := by
        obtain ⟨groups, last, hlist, -⟩ := h.parts
        simp [hlist, hobj]
      dsimp only at ht
      rw [if_pos (h.files e hmem).1] at ht
      obtain ⟨u, hu, rfl⟩ := Option.map_eq_some_iff.mp ht
      have hopen : SameFrame s u ∧ u.Course list ps rest ∧ u.obj = some e ∧ u.fileSize = e.size ∧
          u.listPos = s.listPos ∧ u.listSize = s.listSize := by
        unfold Stream.openRead at hu
        split at hu
        · obtain rfl := Option.some.inj hu
          exact ⟨⟨_, _, _, _, _, _, rfl⟩, ⟨h.files, h.parts, h.count, h.part, h.total⟩, hobj, rfl, rfl, rfl⟩
        · obtain ⟨d, -, rfl⟩ := Option.map_eq_some_iff.mp hu
          exact ⟨⟨_, _, _, _, _, _, rfl⟩, ⟨h.files, h.parts, h.count, h.part, h.total⟩, hobj, rfl, rfl, rfl⟩
      obtain ⟨hsame, hcourse, hobj', hsize, hpos, htotal⟩ := hopen
      obtain ⟨hsame', hcourse', hpos', hmore, hroomy'⟩ := readPart_course hcourse hobj' hsize
        (wpos + xlineSize + keyed 4 (wordSize e.path) + keyed 4 0 + keyed 4 0 + keyed 3 0)
      obtain ⟨a1, a2, a3, a4, a5, a6, hread⟩ := id hsame'
      have hread' := congrArg Stream.listSize hread
      refine ⟨hsame.trans hsame', hcourse', by omega, hmore, iff_of_true hroomy (hroomy'.imp_right fun hlt => ?_)⟩
      rw [hread']
      exact hlt

theorem SameFrame.listSize {s t : Stream} (h : SameFrame s t) : t.listSize = s.listSize := by
  obtain ⟨a1, a2, a3, a4, a5, a6, rfl⟩ := h
  rfl

/-- The next entry of the list is the object of the next turn. -/
theorem Stream.Course.take (h : s.Course list ps (e :: rest)) (hobj : s.obj = none) :
    { s with obj := some e }.Course list ps rest := by
  obtain ⟨groups, last, hlist, hps, hgroups, hlast⟩ := h.parts
  have hcount := h.count
  have hfile : s.filePos = 0 := by
    obtain hzero | ⟨e', he', -⟩ := h.part
    · exact hzero
    · cases hobj.symm.trans he'
  rw [hobj] at hlist hcount
  refine ⟨h.files, ⟨groups, last, hlist, hps, hgroups, ?_⟩, hcount, .inl hfile, h.total⟩
  intro p hp
  obtain ⟨e', he', -⟩ := hlast p hp
  cases hobj.symm.trans he'

/-- What a call of `xlio_send_file` does: there was room in every turn, or the entry in `obj` is left behind with all
bytes sent. -/
structure Calls (list : List Entry) (ps : List Piece) (s : Stream) (turns : List (Stream × Nat)) (t : Stream)
    (qs : List Piece) : Prop where
  same : SameFrame s t
  course : t.Course list (ps ++ qs) t.uploadParser
  pos : s.listPos ≤ t.listPos
  ended : t.obj = none → t.uploadParser = []
  roomy : (∀ u ∈ turns, u.1.Roomy u.2) ↔ (t.listPos = t.listSize → t.obj = none)

/-- The loop breaks. -/
theorem Turn.Goes.stop {t : Turn} (h : t.Goes list ps s rest wpos) (hmore : t.more = false) :
    Calls list ps s [(s, wpos)] { t.stream with uploadParser := rest } t.pieces := by
  have hsome : t.stream.obj ≠ none := by simp [← h.obj, hmore]
  have hle := h.course.listPos_le
  refine ⟨h.same.trans ⟨_, _, _, _, _, _, rfl⟩, ?_, h.pos, fun hnone => absurd hnone hsome, ?_⟩
  · exact ⟨h.course.files, h.course.parts, h.course.count, h.course.part, h.course.total⟩
  · have hroomy : s.Roomy wpos ↔ t.stream.listPos < t.stream.listSize := by simpa [hmore] using h.roomy
    simp only [List.forall_mem_singleton, hroomy, hsome, imp_false]
    omega

theorem sendLoop_course {qs : List Piece} (h : s.Course list ps rest)
    (ht : Stream.sendLoop rest s wpos = some (t, qs)) : Calls list ps s (Stream.turns rest s wpos) t qs := by
  induction rest generalizing s ps wpos t qs with
  | nil =>
    rw [Stream.sendLoop.eq_def] at ht
    rw [Stream.turns.eq_def]
    dsimp only at ht ⊢
    cases hv : s.sendObj wpos with
    | none =>
      rw [hv] at ht
      cases ht
    | some v =>
      have hgoes := sendObj_course h hv
      rw [hv] at ht
      dsimp only at ht ⊢
      cases hmore : v.more with
      | false =>
        rw [hmore] at ht
        cases ht
        exact hgoes.stop hmore
      | true =>
        rw [hmore] at ht
        cases ht
        have hnone := hgoes.obj.mp hmore
        refine ⟨hgoes.same.trans ⟨_, _, _, _, _, _, rfl⟩, ?_, hgoes.pos, fun _ => rfl, ?_⟩
        · obtain ⟨hfiles, hparts, hcount, hpart, htotal⟩ := hgoes.course
          rw [hnone] at hparts hcount hpart
          exact ⟨hfiles, hparts, hcount, hpart, htotal⟩
        · simpa using hgoes.roomy.mpr (.inl hmore)
  | cons e rest ih =>
    rw [Stream.sendLoop.eq_def] at ht
    rw [Stream.turns.eq_def]
    dsimp only at ht ⊢
    cases hv : s.sendObj wpos with
    | none =>
      rw [hv] at ht
      cases ht
    | some v =>
      have hgoes := sendObj_course h hv
      rw [hv] at ht
      dsimp only at ht ⊢
      cases hmore : v.more with
      | false =>
        rw [hmore] at ht
        cases ht
        exact hgoes.stop hmore
      | true =>
        rw [hmore] at ht
        obtain ⟨⟨t', qs'⟩, hrest, heq⟩ := Option.map_eq_some_iff.mp ht
        cases heq
        obtain ⟨hsame, hcourse, hpos, hended, hroomy⟩ := ih (hgoes.course.take (hgoes.obj.mp hmore)) hrest
        refine ⟨hgoes.same.trans (.trans ⟨_, _, _, _, _, _, rfl⟩ hsame), by simpa using hcourse, hgoes.pos.trans hpos,
          hended, ?_⟩
        rw [if_pos rfl, List.forall_mem_cons, hroomy]
        exact and_iff_right (hgoes.roomy.mpr (.inl hmore))

/-- An uploader with a list: `ps` are the pieces in its frames, made in `turns`. Only before the first frame is there no
object and still a list. -/
structure Stream.Holding (list : List Entry) (ps : List Piece) (turns : List (Stream × Nat)) (s : Stream) : Prop where
  course : s.Course list ps s.uploadParser
  begun : s.obj = none → s.uploadParser = [] ∨ s.listPos = 0
  unsent : s.listSize = 0 → ps = []
  roomy : (∀ u ∈ turns, u.1.Roomy u.2) ↔ (s.listPos = s.listSize → s.obj = none)

/-- The list is used up exactly when every turn had room. -/
theorem Stream.Holding.used_up {turns : List (Stream × Nat)} (h : s.Holding list ps turns)
    (hend : s.listPos = s.listSize) :
    (s.obj = none ∧ s.uploadParser = [] ∧ Written list ps) ↔
      (s.listSize = 0 → list = []) ∧ ∀ u ∈ turns, u.1.Roomy u.2 := by
  obtain ⟨groups, last, hlist, hps, hgroups, hlast⟩ := h.course.parts
  rw [h.roomy]
  constructor
  · rintro ⟨hobj, -, hwritten⟩
    refine ⟨fun hzero => ?_, fun _ => hobj⟩
    obtain ⟨parts, rfl, hflat, hparts⟩ := hwritten
    rw [h.unsent hzero] at hflat
    cases parts with
    | nil => rfl
    | cons f parts =>
      obtain ⟨hnil, -⟩ := List.append_eq_nil_iff.mp hflat.symm
      exact absurd hnil (hparts f List.mem_cons_self).1
  · rintro ⟨hbytes, hroomy⟩
    have hobj := hroomy hend
    have hparser : s.uploadParser = [] := by
      obtain hnil | hzero := h.begun hobj
      · exact hnil
      · rw [hbytes (by omega)] at hlist
        exact (List.append_eq_nil_iff.mp (List.append_eq_nil_iff.mp hlist.symm).2).2
    have hnone : last = [] := by
      refine List.eq_nil_iff_forall_not_mem.mpr fun p hp => ?_
      obtain ⟨e, he, -⟩ := hlast p hp
      cases hobj.symm.trans he
    exact ⟨hobj, hparser, groups, by simpa [hobj, hparser] using hlist, by simpa [hnone] using hps, hgroups⟩

theorem Stream.Holding.keep {turns : List (Stream × Nat)} {out : List Bool} {readable : Nat} {box : List Msg}
    {freed : Bool} {wait : Option Msg} (h : s.Holding list ps turns) :
    { s with recvFrame := wait, out := out, readable := readable, outbox := box, freed := freed }.Holding list ps
      turns :=
  ⟨⟨h.course.files, h.course.parts, h.course.count, h.course.part, h.course.total⟩, h.begun, h.unsent, h.roomy⟩

theorem sendFile_holding {turns : List (Stream × Nat)} (h : s.Holding list ps turns) (hlt : s.listPos < s.listSize)
    (ht : s.sendFile = some t) :
    SameBatch s t ∧ ∃ qs, t.outbox = s.outbox ++ [.uploadList qs] ∧
      t.Holding list (ps ++ qs) (turns ++ s.fileTurns) := by
  obtain ⟨⟨v, qs⟩, hv, rfl⟩ := Option.map_eq_some_iff.mp ht
  obtain ⟨hsame, hcourse, hpos, hended, hroomy⟩ := sendLoop_course h.course hv
  have hsize := hsame.listSize
  have hold : ∀ u ∈ turns, u.1.Roomy u.2 := h.roomy.mpr fun heq => absurd heq hlt.ne
  have hnew : v.Holding list (ps ++ qs) (turns ++ s.fileTurns) := by
    refine ⟨hcourse, fun hnone => .inl (hended hnone), fun hzero => by omega, ?_⟩
    rw [List.forall_mem_append, and_iff_right hold]
    exact hroomy
  obtain ⟨a1, a2, a3, a4, a5, a6, rfl⟩ := hsame
  exact ⟨⟨by simp [Stream.send, Msg.isRes], _, _, _, _, _, _, _, _, _, rfl⟩, qs, rfl, hnew.keep⟩

theorem sendFrames_holding {turns : List (Stream × Nat)} {n : Nat} (h : s.Holding list ps turns)
    (ht : s.sendFrames n = (t, true)) :
    SameBatch s t ∧ ∃ box, t.outbox = s.outbox ++ box ∧
      t.Holding list (ps ++ sentPieces box) (turns ++ Stream.framesTurns n s) := by
  induction n generalizing s ps turns with
  | zero =>
    cases ht
    exact ⟨.refl _, [], by simp, by simpa [sentPieces, Stream.framesTurns] using h⟩
  | succ n ih =>
    rw [Stream.sendFrames] at ht
    rw [Stream.framesTurns]
    by_cases hlt : s.listPos < s.listSize
    · rw [if_pos hlt] at ht ⊢
      cases hv : s.sendFile with
      | none =>
        rw [hv] at ht
        cases ht
      | some v =>
        rw [hv] at ht
        obtain ⟨hsame, qs, hbox, hholding⟩ := sendFile_holding h hlt hv
        obtain ⟨hsame', box, hbox', hholding'⟩ := ih hholding ht
        refine ⟨hsame.trans hsame', .uploadList qs :: box, by simp [hbox', hbox], ?_⟩
        simpa [sentPieces] using hholding'
    · rw [if_neg hlt] at ht ⊢
      cases ht
      exact ⟨.refl _, [], by simp, by simpa [sentPieces] using h⟩

theorem SameBatch.fields {s t : Stream} (h : SameBatch s t) :
    t.recvFrame = s.recvFrame ∧ t.uploadList = s.uploadList ∧ t.listSize = s.listSize := by
  obtain ⟨-, a1, a2, a3, a4, a5, a6, a7, a8, a9, rfl⟩ := h
  exact ⟨rfl, rfl, rfl⟩

section back

variable {isRes : Bool} {out : List Bool}

/-- The stream with the frame that is back in `buf`. -/
def Stream.took (s : Stream) (out : List Bool) : Stream := { s with out := out, readable := s.readable + 1 }

theorem back_nil (hout : s.out = []) : s.back = s ∧ s.backTurns = [] := by
  rw [Stream.back_eq]
  unfold Stream.backTurns
  rw [hout]
  exact ⟨rfl, rfl⟩

theorem back_none (hout : s.out = isRes :: out) (hnone : s.recvFrame = none) :
    s.back = { if s.upload then settle (s.took out).xlioUploadList else s.took out with
      freed := (if s.upload then settle (s.took out).xlioUploadList else s.took out).freed || isRes } ∧
    s.backTurns = if s.upload = true ∧ s.uploadList = true ∧
      s.listPos < s.listSize then (s.took out).fileTurns else [] := by
  rw [Stream.back_eq]
  unfold Stream.backTurns
  rw [hout]
  dsimp only
  constructor
  · split
    · rename_i m hm
      cases hnone.symm.trans hm
    · rfl
  · split
    · rename_i m hm
      cases hnone.symm.trans hm
    · rfl

theorem back_some {m : Msg} (hout : s.out = isRes :: out) (hm : s.recvFrame = some m) :
    s.back = { settle ((s.took out).xlioRecvFrame m) with
      recvFrame := leftHeld m
      freed := (settle ((s.took out).xlioRecvFrame m)).freed || isRes } ∧
    s.backTurns = (s.took out).recvTurns m := by
  rw [Stream.back_eq]
  unfold Stream.backTurns
  rw [hout]
  dsimp only
  constructor
  · split
    · rename_i m' hm'
      obtain rfl : m = m' := Option.some.inj (hm.symm.trans hm')
      rfl
    · rename_i hnone
      cases hnone.symm.trans hm
  · split
    · rename_i m' hm'
      obtain rfl : m = m' := Option.some.inj (hm.symm.trans hm')
      rfl
    · rename_i hnone
      cases hnone.symm.trans hm

end back

/-- A frame that is back: the stream is freed, the list is ended, or it goes on. -/
theorem back_holding {turns : List (Stream × Nat)} (h : s.Holding list ps turns) (hnone : s.recvFrame = none)
    (hlist : s.uploadList = true) :
    s.back.freed = true ∨ s.back.recvFrame = none ∧ (s.back.uploadList = false ∨
      s.back.uploadList = true ∧ s.back.listSize = s.listSize ∧ ∃ box,
        s.back.outbox = s.outbox ++ box ∧ s.back.Holding list (ps ++ sentPieces box) (turns ++ s.backTurns)) := by
  cases hout : s.out with
  | nil =>
    obtain ⟨hback, hturns⟩ := back_nil hout
    rw [hback, hturns]
    exact .inr ⟨hnone, .inr ⟨hlist, rfl, [], by simp, by simpa [sentPieces] using h⟩⟩
  | cons isRes out =>
    obtain ⟨hback, hturns⟩ := back_none hout hnone
    have htook : (s.took out).Holding list ps turns := h.keep
    rw [hback, hturns]
    split
    · rename_i hup
      rw [Stream.xlioUploadList, if_pos (show (s.took out).uploadList = true from hlist)]
      split
      · rename_i hlt
        rw [if_pos ⟨hup, hlist, hlt⟩]
        split
        · exact .inl rfl
        · rename_i t ht
          obtain ⟨hsame, qs, hbox, hholding⟩ := sendFile_holding htook hlt ht
          obtain ⟨hrecv, hkept, hsize⟩ := hsame.fields
          have hpieces : sentPieces [.uploadList qs] = qs := by simp [sentPieces]
          refine .inr ⟨hrecv.trans hnone, .inr ⟨hkept.trans hlist, hsize, [.uploadList qs], hbox, ?_⟩⟩
          rw [hpieces]
          exact hholding.keep
      · split
        · exact .inl rfl
        · exact .inr ⟨hnone, .inl rfl⟩
    · rename_i hup
      rw [if_neg (fun hall => hup hall.1)]
      refine .inr ⟨hnone, .inr ⟨hlist, rfl, [], by simp [Stream.took], ?_⟩⟩
      rw [show sentPieces [] = [] from rfl, List.append_nil, List.append_nil]
      exact h.keep

theorem backs_freed (n : Nat) (h : s.freed = true) : Stream.backs n s = s ∧ Stream.backsTurns n s = [] := by
  cases n with
  | zero => exact ⟨rfl, rfl⟩
  | succ n =>
    rw [Stream.backs, Stream.backsTurns, if_pos h, if_pos h]
    exact ⟨rfl, rfl⟩

theorem not_marks_freed (h : s.freed = true) : ¬ s.Marks := by
  intro hmarks
  cases h.symm.trans hmarks.used

/-- Without a list a frame that is back changes nothing else. -/
theorem back_idle (hnone : s.recvFrame = none) (hlist : s.uploadList = false) :
    ∃ out readable freed, s.back = { s with out := out, readable := readable, freed := freed } := by
  cases hout : s.out with
  | nil => exact ⟨s.out, s.readable, s.freed, (back_nil hout).1⟩
  | cons isRes out =>
    rw [(back_none hout hnone).1]
    have hidle : (s.took out).xlioUploadList = (s.took out, true) := by
      rw [Stream.xlioUploadList, if_neg (by simp [Stream.took, hlist])]
    rw [hidle]
    split
    · exact ⟨_, _, _, rfl⟩
    · exact ⟨_, _, _, rfl⟩

theorem backs_idle (n : Nat) (hnone : s.recvFrame = none)
    (hlist : s.uploadList = false) : ¬ (Stream.backs n s).Marks := by
  induction n generalizing s with
  | zero =>
    intro hmarks
    cases hlist.symm.trans hmarks.list
  | succ n ih =>
    rw [Stream.backs]
    split
    · rename_i hfreed
      exact not_marks_freed hfreed
    · obtain ⟨out, readable, freed, hback⟩ := back_idle hnone hlist
      rw [hback]
      exact ih hnone hlist

/-- A `DOWNLOAD_LIST` that waited for a frame is taken again with the next one, and fails. -/
theorem backs_stale {size : Nat} (n : Nat) (hm : s.recvFrame = some (.downloadList size (e :: rest)))
    (hlist : s.uploadList = true) : ¬ (Stream.backs n s).Marks := by
  induction n generalizing s with
  | zero =>
    intro hmarks
    cases hm.symm.trans hmarks.quiet
  | succ n ih =>
    rw [Stream.backs]
    split
    · rename_i hfreed
      exact not_marks_freed hfreed
    · cases hout : s.out with
      | nil =>
        rw [(back_nil hout).1]
        exact ih hm hlist
      | cons isRes out =>
        have hfails : (s.took out).xlioRecvFrame (.downloadList size (e :: rest)) = (s.took out, false) := by
          simp [Stream.xlioRecvFrame, Stream.took, hlist]
        have hfreed : s.back.freed = true := by
          rw [(back_some hout hm).1, hfails]
          rfl
        rw [(backs_freed n hfreed).1]
        exact not_marks_freed hfreed

/-- While frames come back the list goes on, up to the frame that ends it. -/
theorem backs_holding {turns : List (Stream × Nat)} (n : Nat) (h : s.Holding list ps turns) (hnone : s.recvFrame = none)
    (hlist : s.uploadList = true) (hmarks : (Stream.backs n s).Marks) :
    (Stream.backs n s).listSize = s.listSize ∧ ∃ box, (Stream.backs n s).outbox = s.outbox ++ box ∧
      (Stream.backs n s).Holding list (ps ++ sentPieces box) (turns ++ Stream.backsTurns n s) := by
  induction n generalizing s ps turns with
  | zero => exact ⟨rfl, [], by simp [Stream.backs], by simpa [sentPieces, Stream.backsTurns, Stream.backs] using h⟩
  | succ n ih =>
    rw [Stream.backs] at hmarks ⊢
    rw [Stream.backsTurns]
    split at hmarks
    · rename_i hfreed
      exact absurd hmarks (not_marks_freed hfreed)
    · rename_i hused
      rw [if_neg hused, if_neg hused]
      obtain hfreed | ⟨hnone', hidle | ⟨hlist', hsize, box, hbox, hholding⟩⟩ := back_holding h hnone hlist
      · rw [(backs_freed n hfreed).1] at hmarks
        exact absurd hmarks (not_marks_freed hfreed)
      · exact absurd hmarks (backs_idle n hnone' hidle)
      · obtain ⟨hsize', box', hbox', hholding'⟩ := ih hholding hnone' hlist' hmarks
        refine ⟨hsize'.trans hsize, box ++ box', by rw [hbox', hbox, List.append_assoc], ?_⟩
        simpa [sentPieces] using hholding'

/-- An uploader without a list, and with nothing left of one. -/
structure Stream.Resting (s : Stream) : Prop where
  list : s.uploadList = false
  obj : s.obj = none
  parser : s.uploadParser = []
  file : s.filePos = 0
  pos : s.listPos = 0

theorem Stream.Resting.begin {size : Nat} (h : s.Resting) (order : OrderOf size list) :
    { s with uploadList := true, listSize := size, uploadParser := list }.Holding list [] [] := by
  refine ⟨⟨fun e he => ⟨order.files e he, ?_⟩, ⟨[], [], by simp [h.obj], by simp, by simp, by simp⟩, ?_, .inl h.file,
    order.small⟩, fun _ => .inr h.pos, fun _ => rfl, by simp [h.obj]⟩
  · have hle : e.size ≤ (list.map Entry.size).sum := List.le_sum_of_mem (List.mem_map_of_mem he)
    have hsum := order.sum
    have hsmall := order.small
    omega
  · simp [h.obj, h.file, h.pos, order.sum]

/-- The `DOWNLOAD_LIST` is taken, and its first frames are sent. -/
theorem recv_list {size : Nat} (h : s.Resting) (order : OrderOf size list)
    (ht : s.xlioRecvFrame (.downloadList size list) = (t, true)) :
    t.recvFrame = s.recvFrame ∧ t.uploadList = true ∧ t.listSize = size ∧ ∃ box, t.outbox = s.outbox ++ box ∧
      t.Holding list (sentPieces box) (s.recvTurns (.downloadList size list)) := by
  have hbegin := h.begin order
  rw [Stream.xlioRecvFrame, if_neg (by simp [h.list])] at ht
  cases list with
  | nil =>
    cases ht
    have hsame : ({ s with uploadList := true, listSize := size, uploadParser := [] } : Stream) =
        { s with uploadList := true, listSize := size } := by rw [← h.parser]
    exact ⟨rfl, rfl, rfl, [], by simp, hsame ▸ hbegin⟩
  | cons e list =>
    obtain ⟨hsame, box, hbox, hholding⟩ := sendFrames_holding hbegin ht
    obtain ⟨hrecv, hkept, hsize⟩ := hsame.fields
    refine ⟨hrecv, hkept, hsize, box, hbox, ?_⟩
    rw [Stream.recvTurns, if_neg (by simp [h.list])]
    exact hholding

/-- A `DOWNLOAD_LIST` that waits for a frame gets to its end only when it is empty. -/
theorem backs_waiting {size : Nat} (n : Nat) (h : s.Resting) (order : OrderOf size list)
    (hm : s.recvFrame = some (.downloadList size list)) (hmarks : (Stream.backs n s).Marks) :
    (Stream.backs n s).listSize = size ∧ ∃ box, (Stream.backs n s).outbox = s.outbox ++ box ∧
      (Stream.backs n s).Holding list (sentPieces box) (Stream.backsTurns n s) := by
  induction n generalizing s with
  | zero => cases hm.symm.trans hmarks.quiet
  | succ n ih =>
    rw [Stream.backs] at hmarks ⊢
    rw [Stream.backsTurns]
    split at hmarks
    · rename_i hfreed
      exact absurd hmarks (not_marks_freed hfreed)
    · rename_i hused
      rw [if_neg hused, if_neg hused]
      cases hout : s.out with
      | nil =>
        obtain ⟨hback, hturns⟩ := back_nil hout
        rw [hback] at hmarks ⊢
        rw [hturns]
        exact ih h hm hmarks
      | cons isRes out =>
        obtain ⟨hback, hturns⟩ := back_some hout hm
        obtain ⟨⟨t, ok⟩, ht⟩ : ∃ r, (s.took out).xlioRecvFrame (.downloadList size list) = r := ⟨_, rfl⟩
        rw [ht] at hback
        cases ok with
        | false =>
          have hfreed : s.back.freed = true := by rw [hback]; rfl
          rw [(backs_freed n hfreed).1] at hmarks
          exact absurd hmarks (not_marks_freed hfreed)
        | true =>
          obtain ⟨-, hkept, hsize, box, hbox, hholding⟩ := recv_list (s := s.took out)
            ⟨h.list, h.obj, h.parser, h.file, h.pos⟩ order ht
          have hkept' : s.back.uploadList = true := by rw [hback]; exact hkept
          cases list with
          | cons e list =>
            have hstale : s.back.recvFrame = some (.downloadList size (e :: list)) := by rw [hback]; rfl
            exact absurd hmarks (backs_stale n hstale hkept')
          | nil =>
            have hnone : s.back.recvFrame = none := by rw [hback]; rfl
            have hsize' : s.back.listSize = size := by rw [hback]; exact hsize
            have hbox' : s.back.outbox = s.outbox ++ box := by rw [hback]; exact hbox
            have hback' : s.back.Holding [] (sentPieces box) s.backTurns := by
              rw [hback, hturns]
              exact hholding.keep
            obtain ⟨hsame, box', hrest, hholding'⟩ := backs_holding n hback' hnone hkept' hmarks
            refine ⟨hsame.trans hsize', box ++ box', by rw [hrest, hbox', List.append_assoc], ?_⟩
            simpa [sentPieces] using hholding'

/-- What was sent of a list when it ends. -/
theorem ordered_holding {size n : Nat} (h : s.Resting) (hwait : s.recvFrame = none ∨ s.readable = 0)
    (order : OrderOf size list) (hmarks : (s.ordered size list n).Marks) :
    (s.ordered size list n).listSize = size ∧ ∃ box, (s.ordered size list n).outbox = s.outbox ++ box ∧
      (s.ordered size list n).Holding list (sentPieces box) (s.orderedTurns size list n) := by
  unfold Stream.ordered Stream.orderedTurns at *
  by_cases hfull : s.readable = 0
  · have hrecv : s.recv (.downloadList size list) = { s with recvFrame := some (.downloadList size list) } := by
      simp [Stream.recv_eq, Msg.isRes, hfull]
    rw [hrecv] at hmarks ⊢
    rw [if_pos hfull, List.nil_append]
    exact backs_waiting n ⟨h.list, h.obj, h.parser, h.file, h.pos⟩ order rfl hmarks
  · have hrecv : s.recv (.downloadList size list) = settle (s.xlioRecvFrame (.downloadList size list)) := by
      simp [Stream.recv_eq, Msg.isRes, hfull]
    obtain ⟨⟨t, ok⟩, ht⟩ : ∃ r, s.xlioRecvFrame (.downloadList size list) = r := ⟨_, rfl⟩
    rw [hrecv, ht] at hmarks ⊢
    rw [if_neg hfull]
    cases ok with
    | false =>
      have hfreed : (settle (t, false)).freed = true := rfl
      rw [(backs_freed n hfreed).1] at hmarks
      exact absurd hmarks (not_marks_freed hfreed)
    | true =>
      obtain ⟨hrecvFrame, hkept, hsize, box, hbox, hholding⟩ := recv_list h order ht
      have hnone : t.recvFrame = none := hrecvFrame.trans (hwait.resolve_right hfull)
      obtain ⟨hsize', box', hbox', hholding'⟩ := backs_holding
        (s := settle (t, true)) n hholding.keep hnone hkept hmarks
      refine ⟨hsize'.trans hsize, box ++ box', ?_, ?_⟩
      · rw [hbox', ← List.append_assoc]
        exact congrArg (· ++ box') hbox
      · simpa [sentPieces] using hholding'

/-! ### Between two lists -/

/-- The fields of a stream that a `REQ_LIST` changes before its answer is sent. -/
def SameAnswer (s t : Stream) : Prop :=
  ∃ sc i size file, t = { s with scanner := sc, item := i, listSize := size, fileSize := file }

theorem scanLoop_same (sc : Scanner) (i : Item) (room : Nat) : SameAnswer s (s.scanLoop sc i room).1 := by
  induction room using Nat.strong_induction_on generalizing s sc i with
  | _ room ih =>
    rw [Stream.scanLoop]
    split
    · exact ⟨_, _, _, _, rfl⟩
    · rename_i hroom
      have hless : room - (s.entry i).lineSize < room := by
        simp only [Entry.lineSize, keyed, xlineSize] at hroom ⊢
        omega
      dsimp only
      split
      · exact ⟨_, _, _, _, rfl⟩
      · rename_i i' sc' _
        obtain ⟨a1, a2, a3, a4, heq⟩ := ih _ hless (s := { s with listSize := add64 s.listSize i.size }) sc' i'
        exact ⟨a1, a2, a3, a4, heq⟩

theorem answer_same (s : Stream) : SameAnswer s s.answer.1 := by
  unfold Stream.answer Stream.scanDir
  split
  · split
    · exact scanLoop_same _ _ _
    · split
      · exact ⟨_, _, _, _, rfl⟩
      · exact scanLoop_same _ _ _
  · split
    · exact ⟨_, _, _, _, rfl⟩
    · exact ⟨_, _, _, _, rfl⟩

/-- No message waits but a `REQ_LIST` for which there is no frame. -/
def Stream.Calm (s : Stream) : Prop := s.recvFrame = none ∨ s.recvFrame = some .reqList ∧ s.readable = 0

theorem Stream.Resting.answered (h : s.Resting) : (settle (s.xlioRecvFrame .reqList)).Resting := by
  obtain ⟨a1, a2, a3, a4, heq⟩ := answer_same s
  have hrecv : settle (s.xlioRecvFrame .reqList) = { s.answer.1.send (.resList s.answer.2) with freed := false } := rfl
  rw [hrecv, heq]
  exact ⟨h.list, h.obj, h.parser, h.file, h.pos⟩

theorem Stream.Resting.back (h : s.Resting) (hcalm : s.Calm) : s.back.Resting ∧ s.back.Calm := by
  obtain hnone | ⟨hm, hfull⟩ := hcalm
  · obtain ⟨out, readable, freed, hback⟩ := back_idle hnone h.list
    rw [hback]
    exact ⟨⟨h.list, h.obj, h.parser, h.file, h.pos⟩, .inl hnone⟩
  · cases hout : s.out with
    | nil =>
      rw [(back_nil hout).1]
      exact ⟨h, .inr ⟨hm, hfull⟩⟩
    | cons isRes out =>
      have htook : (s.took out).Resting := ⟨h.list, h.obj, h.parser, h.file, h.pos⟩
      obtain ⟨hlist, hobj, hparser, hfile, hpos⟩ := htook.answered
      rw [(back_some hout hm).1]
      exact ⟨⟨hlist, hobj, hparser, hfile, hpos⟩, .inl rfl⟩

/-- The frame that ends a list leaves nothing of it, when it is used up. -/
theorem Stream.Marks.resting (hmarks : s.Marks) (hobj : s.obj = none) (hparser : s.uploadParser = [])
    (hfile : s.filePos = 0) : s.back.Resting ∧ s.back.Calm := by
  obtain ⟨isRes, out, hout⟩ := List.exists_cons_of_ne_nil hmarks.back
  have hend : (s.took out).xlioUploadList =
      ({ (s.took out).send (.uploadList []) with uploadList := false, listPos := 0, listSize := 0 }, true) := by
    have hbytes : (s.took out).listPos = (s.took out).listSize := hmarks.bytes
    rw [Stream.xlioUploadList, if_pos (show (s.took out).uploadList = true from hmarks.list), if_neg (by omega),
      if_neg (by simp [hbytes])]
  rw [(back_none hout hmarks.quiet).1, if_pos hmarks.upload, hend]
  exact ⟨⟨rfl, hobj, hparser, hfile, rfl⟩, .inl hmarks.quiet⟩

theorem Stream.Between.resting (h : s.Between) : s.Resting ∧ s.Calm := by
  induction h with
  | start src frameSize response =>
    unfold startUploader
    cases src.tree with
    | dir children => cases response <;> exact ⟨⟨rfl, rfl, rfl, rfl, rfl⟩, .inl rfl⟩
    | file data => cases response <;> exact ⟨⟨rfl, rfl, rfl, rfl, rfl⟩, .inl rfl⟩
  | @reqList s _ ih =>
    obtain ⟨hrest, hcalm⟩ := ih
    rw [Stream.recv_eq]
    rw [if_neg (by simp [Msg.isRes])]
    split
    · rename_i hfull
      exact ⟨⟨hrest.list, hrest.obj, hrest.parser, hrest.file, hrest.pos⟩, .inr ⟨rfl, hfull⟩⟩
    · rename_i hfree
      have hnone : s.recvFrame = none := hcalm.resolve_right fun hfull => hfree hfull.2
      refine ⟨hrest.answered, .inl ?_⟩
      obtain ⟨a1, a2, a3, a4, heq⟩ := answer_same s
      have hkept := congrArg Stream.recvFrame heq
      exact Eq.trans hkept hnone
  | back _ _ ih => exact ih.1.back ih.2
  | list _ order bytes roomy marks ih =>
    obtain ⟨hsize, box, -, hholding⟩ := ordered_holding ih.1 (ih.2.imp_right And.right) order marks
    obtain ⟨hobj, hparser, -⟩ := (hholding.used_up marks.bytes).mpr ⟨hsize.symm ▸ bytes, roomy⟩
    have hfile := hholding.course.part.resolve_right (by
      rintro ⟨e, he, -⟩
      cases hobj.symm.trans he)
    exact marks.resting hobj hparser hfile

/-- When a list is ended, after any number of frames that came back: all its entries were written and nothing is left of
it exactly when it had bytes, or no entries, and no turn with all bytes sent found an entry that its frame had no room
for. -/
theorem marker_last {size n : Nat} (h : s.Between) (order : OrderOf size list)
    (marks : (s.ordered size list n).Marks) :
    ((s.ordered size list n).obj = none ∧ (s.ordered size list n).uploadParser = [] ∧
        Written list (sentPieces ((s.ordered size list n).outbox.drop s.outbox.length))) ↔
      (size = 0 → list = []) ∧ ∀ u ∈ s.orderedTurns size list n, u.1.Roomy u.2 := by
  obtain ⟨hrest, hcalm⟩ := h.resting
  obtain ⟨hsize, box, hbox, hholding⟩ := ordered_holding hrest (hcalm.imp_right And.right) order marks
  rw [hbox, List.drop_left]
  have hused := hholding.used_up marks.bytes
  rw [hsize] at hused
  exact hused

/-- A directory with a file, and an empty one after it. -/
def withEmpty (data : List UInt8) (hdata : data.length < 2 ^ 64) : Source where
  uri := [97]
  tree := .dir [([98], .file data), ([99], .file [])]
  distinct := by
    intro p children hp
    cases p with
    | nil =>
      cases hp
      exact (by decide : ([[98], [99]] : List Name).Nodup)
    | cons x p =>
      obtain ⟨n, hn, hget⟩ := Option.bind_eq_some_iff.mp hp
      rw [List.lookup_cons, List.lookup_cons] at hn
      split at hn
      · cases hn
        cases p <;> cases hget
      · split at hn
        · cases hn
          cases p <;> cases hget
        · cases hn
  sized := by
    intro p bytes hp
    cases p with
    | nil => cases hp
    | cons x p =>
      obtain ⟨n, hn, hget⟩ := Option.bind_eq_some_iff.mp hp
      rw [List.lookup_cons, List.lookup_cons] at hn
      split at hn
      · cases hn
        cases p with
        | nil =>
          obtain rfl : data = bytes := by simpa [Node.get] using hget
          exact hdata
        | cons y p => cases hget
      · split at hn
        · cases hn
          cases p with
          | nil =>
            obtain rfl : [] = bytes := by simpa [Node.get] using hget
            decide
          | cons y p => cases hget
        · cases hn

/-- The file fills a frame of `MSGBUF_SIZE` bytes. -/
def fullSource : Source :=
  withEmpty (List.replicate 1310591 7) (by
    rw [List.length_replicate]
    norm_num)

def fullList : List Entry := [⟨true, [[97], [98]], 1310591, zeroMd5⟩, ⟨true, [[97], [99]], 0, zeroMd5⟩]

theorem fullList_order : OrderOf 1310591 fullList := ⟨by decide, by decide, by decide⟩

/-- One frame has all bytes of the list. -/
theorem fullList_marks : ((startUploader fullSource 1310720 false).ordered 1310591 fullList 0).Marks :=
  ⟨by decide +kernel, by decide +kernel, by decide +kernel, by decide +kernel, by decide +kernel, by decide +kernel⟩

theorem marker_last_full :
    ¬ ∀ u ∈ (startUploader fullSource 1310720 false).orderedTurns 1310591 fullList 0, u.1.Roomy u.2 := by
  intro hroomy
  obtain ⟨hobj, -⟩ := (marker_last (.start fullSource 1310720 false) fullList_order fullList_marks).mpr
    ⟨by decide, hroomy⟩
  revert hobj
  decide +kernel

/-- The list is ended with the empty file in `obj`. -/
theorem marker_early :
    ¬ ∀ (src : Source) (frameSize : Nat) (response : Bool) (size n : Nat) (list : List Entry), OrderOf size list →
      ((startUploader src frameSize response).ordered size list n).Marks →
        ((startUploader src frameSize response).ordered size list n).obj = none ∧
          Written list (sentPieces ((startUploader src frameSize response).ordered size list n).outbox) := by
  intro h
  obtain ⟨hobj, -⟩ := h fullSource 1310720 false 1310591 0 fullList fullList_order fullList_marks
  revert hobj
  decide +kernel

end Wenas.Xlio
