import Wenas.Xlio.Arrive

/-!
# The phases of a transfer

A list is asked for, given, and ordered; its files are sent; an empty list ends them and the next one is asked for.
In each phase every node of the source has arrived, is in the list on hand, or has not been listed.
-/
namespace Wenas.Xlio

variable {src : Source} {u d : Stream}

/-- Uploads on their way, each sent while bytes were left. -/
inductive Flight (src : Source) : Cursor → List Msg → Cursor → Prop
  | nil (c : Cursor) : Flight src c [] c
  | cons {a b c : Cursor} {ps : List Piece} {ms : List Msg} (left : 0 < a.left) (head : Sent src a ps b)
      (tail : Flight src b ms c) : Flight src a (.uploadList ps :: ms) c

theorem Flight.append {a b c : Cursor} {ms ns : List Msg} (h : Flight src a ms b) (h' : Flight src b ns c) :
    Flight src a (ms ++ ns) c := by
  induction h with
  | nil c => exact h'
  | cons left head _ ih => exact .cons left head (ih h')

/-- An uploader with a `DOWNLOAD_LIST`. Only before the first frame of it is there no object and still a list. -/
structure Stream.InBatch (src : Source) (s : Stream) (c : Cursor) : Prop where
  sends : s.Sends src s.uploadParser c
  begun : s.obj = none → s.uploadParser = [] ∨ s.listPos = 0

/-- What sending the frames of a batch leaves as it was. -/
def SameBatch (s t : Stream) : Prop :=
  (true ∈ t.out → true ∈ s.out) ∧ ∃ fd obj parser filePos fileSize listPos readable out outbox, t = { s with
    fd := fd, obj := obj, uploadParser := parser, filePos := filePos, fileSize := fileSize, listPos := listPos,
    readable := readable, out := out, outbox := outbox }

theorem SameBatch.refl (s : Stream) : SameBatch s s := ⟨id, _, _, _, _, _, _, _, _, _, rfl⟩

theorem SameBatch.trans {s t v : Stream} (h : SameBatch s t) (h' : SameBatch t v) : SameBatch s v := by
  obtain ⟨hout, a1, a2, a3, a4, a5, a6, a7, a8, a9, rfl⟩ := h
  obtain ⟨hout', b1, b2, b3, b4, b5, b6, b7, b8, b9, rfl⟩ := h'
  exact ⟨fun hb => hout (hout' hb), b1, b2, b3, b4, b5, b6, b7, b8, b9, rfl⟩

theorem sendFile_flight {s t : Stream} {c : Cursor} (h : s.InBatch src c) (hlt : s.listPos < s.listSize)
    (ht : s.sendFile = some t) :
    SameBatch s t ∧ ∃ ms c', t.outbox = s.outbox ++ ms ∧ Flight src c ms c' ∧ t.InBatch src c' := by
  obtain ⟨⟨v, ps⟩, hv, rfl⟩ := Option.map_eq_some_iff.mp ht
  obtain ⟨hsame, hend, c', hsent, hsends⟩ := sendLoop_sent h.sends hv
  have hleft : 0 < c.left := by
    have hcount := h.sends.count
    omega
  obtain ⟨a1, a2, a3, a4, a5, a6, rfl⟩ := hsame
  refine ⟨⟨by simp [Stream.send, Msg.isRes], _, _, _, _, _, _, _, _, _, rfl⟩, [.uploadList ps], c', rfl, ?_, ?_⟩
  · exact .cons hleft hsent (.nil c')
  · exact ⟨⟨hsends.uri, hsends.disk, hsends.valid, hsends.todo, hsends.pos, hsends.fd, hsends.count, hsends.total⟩,
      fun hnone => .inl (hend hnone)⟩

theorem sendFrames_flight {s t : Stream} {c : Cursor} {frames : Nat} {ok : Bool} (h : s.InBatch src c)
    (ht : s.sendFrames frames = (t, ok)) :
    SameBatch s t ∧ ∃ ms c', t.outbox = s.outbox ++ ms ∧ Flight src c ms c' ∧ t.InBatch src c' := by
  induction frames generalizing s c with
  | zero =>
    cases ht
    exact ⟨.refl _, [], c, by simp, .nil c, h⟩
  | succ frames ih =>
    rw [Stream.sendFrames] at ht
    split at ht
    · rename_i hlt
      split at ht
      · cases ht
        exact ⟨.refl _, [], c, by simp, .nil c, h⟩
      · rename_i v hv
        obtain ⟨hsame, ms, b, hbox, hflight, hin⟩ := sendFile_flight h hlt hv
        obtain ⟨hsame', ms', c', hbox', hflight', hin'⟩ := ih hin ht
        exact ⟨hsame.trans hsame', ms ++ ms', c', by rw [hbox', hbox, List.append_assoc], hflight.append hflight', hin'⟩
    · cases ht
      exact ⟨.refl _, [], c, by simp, .nil c, h⟩

/-- The end of a batch is found with no entry left. -/
theorem Stream.InBatch.finished {s : Stream} {c : Cursor} (h : s.InBatch src c) (hpos : 0 < s.listSize)
    (hend : s.listPos = s.listSize) (hobj : s.obj = none) :
    c = ⟨[], 0⟩ ∧ s.fd = none ∧ s.filePos = 0 ∧ s.fileSize = 0 := by
  obtain ⟨todo, k⟩ := c
  have hparser : s.uploadParser = [] := (h.begun hobj).resolve_right (by omega)
  obtain rfl : todo = [] := by simpa [hobj, hparser] using h.sends.todo
  obtain ⟨hfd, hk, hsize⟩ | ⟨e, he, -⟩ := h.sends.fd
  · obtain rfl : k = 0 := hk
    exact ⟨rfl, hfd, h.sends.pos, hsize⟩
  · rw [hobj] at he
    cases he

/-- What a part of a list adds: the files wanted, their bytes, and the directories. -/
structure Checked (list : List Entry) (s : Stream) (out : List Entry) (r : Stream × List Entry) : Prop where
  out : r.2 = out ++ list.filter s.disk.wants
  same : ∃ dirs : Path → Bool,
    r.1 = { s with disk := ⟨s.disk.files, dirs⟩, listSize := s.listSize + s.disk.wanted list } ∧
      (∀ q, s.disk.dirs q = true → dirs q = true) ∧ ∀ e ∈ list, e.isFile = false → dirs e.path = true

theorem wanted_cons (d : Disk) (e : Entry) (list : List Entry) :
    d.wanted (e :: list) = d.wanted [e] + d.wanted list := by
  simp only [Disk.wanted, List.filter_cons, List.filter_nil]
  split <;> simp

theorem checkEntry_checked {s : Stream} {out : List Entry} {e : Entry} {r : Stream × List Entry}
    (hsmall : s.listSize + s.disk.wanted [e] < 2 ^ 64) (h : checkEntry (s, out) e = (r, true)) :
    Checked [e] s out r := by
  rw [checkEntry] at h
  split at h
  · rename_i hfile
    split at h
    · rename_i hwant
      cases h
      have hsum : s.disk.wanted [e] = e.size := by simp [Disk.wanted, hwant]
      rw [hsum] at hsmall
      exact ⟨by simp [hwant], s.disk.dirs, by simp [hsum, add64_eq hsmall], fun _ hq => hq, by simp [hfile]⟩
    · rename_i hwant
      cases h
      exact ⟨by simp [hwant], s.disk.dirs, by simp [Disk.wanted, hwant], fun _ hq => hq, by simp [hfile]⟩
  · rename_i hdir
    have hwant : s.disk.wants e = false := by simp [Disk.wants, hdir]
    split at h
    · rename_i hthere
      cases h
      exact ⟨by simp [hwant], s.disk.dirs, by simp [Disk.wanted, hwant], fun _ hq => hq, by simpa using fun _ => hthere⟩
    · split at h
      · rename_i disk hmade
        cases h
        simp only [Disk.pathMaker, Option.ite_none_left_eq_some, Option.some.injEq] at hmade
        obtain ⟨-, rfl⟩ := hmade
        refine ⟨by simp [hwant], _, by simp [Disk.wanted, hwant]; rfl, fun q hq => by simp [hq], ?_⟩
        rintro e' he' -
        obtain rfl := List.mem_singleton.mp he'
        simp
      · cases h

theorem Checked.trans {e : Entry} {list : List Entry} {s : Stream} {out : List Entry} {r v : Stream × List Entry}
    (h : Checked [e] s out r) (h' : Checked list r.1 r.2 v) : Checked (e :: list) s out v := by
  obtain ⟨hout, dirs, hr, hkeep, hmade⟩ := h
  obtain ⟨hout', dirs', hv, hkeep', hmade'⟩ := h'
  rw [hr] at hv hkeep' hout'
  have hwants : Disk.wants ⟨s.disk.files, dirs⟩ = s.disk.wants := rfl
  have hwanted : Disk.wanted ⟨s.disk.files, dirs⟩ list = s.disk.wanted list := rfl
  rw [hwants, hout, List.append_assoc, ← List.filter_append] at hout'
  rw [hwanted] at hv
  refine ⟨hout', dirs', ?_, fun q hq => hkeep' q (hkeep q hq), ?_⟩
  · rw [hv, wanted_cons s.disk e list, ← Nat.add_assoc]
  · intro e' he' hdir
    rcases List.mem_cons.mp he' with rfl | he'
    · exact hkeep' _ (hmade e' List.mem_cons_self hdir)
    · exact hmade' e' he' hdir

/-- `xlio_check_list`. -/
theorem each_checked {list out : List Entry} {s : Stream} {r : Stream × List Entry}
    (hsmall : s.listSize + s.disk.wanted list < 2 ^ 64) (h : each checkEntry list (s, out) = (r, true)) :
    Checked list s out r := by
  induction list generalizing s out with
  | nil =>
    cases h
    exact ⟨by simp, s.disk.dirs, by simp [Disk.wanted], fun _ hq => hq, by simp⟩
  | cons e list ih =>
    rw [each] at h
    rw [wanted_cons] at hsmall
    split at h
    · cases h
    · rename_i v hv
      have hone := checkEntry_checked (by omega) hv
      refine hone.trans (ih ?_ h)
      obtain ⟨dirs, hr, -⟩ := hone.same
      rw [hr]
      show s.listSize + s.disk.wanted [e] + s.disk.wanted list < 2 ^ 64
      omega

/-- The node has arrived, or its file is an entry left of the batch. -/
def Coming (src : Source) (d : Disk) (c : Cursor) (p : Path) : Node → Prop
  | .file data => Due src d c (srcName src.uri :: p) data
  | .dir _ => d.dirs (srcName src.uri :: p) = true

/-- An uploader between two batches. -/
structure Stream.Idle (src : Source) (u : Stream) : Prop where
  upload : u.upload = true
  freed : u.freed = false
  out : true ∉ u.out
  outbox : u.outbox = []
  disk : u.disk = src.tree.disk
  frames : src.FitsIn u.frameSize
  scanning : u.Scanning src
  uploadList : u.uploadList = false
  obj : u.obj = none
  fd : u.fd = none
  filePos : u.filePos = 0
  listPos : u.listPos = 0

/-- An uploader with a batch to send. A message that still waits is the `DOWNLOAD_LIST` itself. -/
structure Stream.Busy (src : Source) (u : Stream) (c : Cursor) : Prop where
  upload : u.upload = true
  freed : u.freed = false
  out : true ∉ u.out
  outbox : u.outbox = []
  frames : src.FitsIn u.frameSize
  scanning : u.Scanning src
  uploadList : u.uploadList = true
  listSize : 0 < u.listSize
  stale : ∀ m, u.recvFrame = some m → ∃ size list, m = .downloadList size list
  batch : u.InBatch src c

/-- A downloader that has not closed. -/
structure Stream.Open (src : Source) (d : Stream) (c : Cursor) : Prop where
  upload : d.upload = false
  freed : d.freed = false
  out : true ∉ d.out
  outbox : d.outbox = []
  receives : d.Receives src c

/-- Messages that an uploader has not taken. With a batch the one that waits was taken before. -/
def Stream.queue (u : Stream) (toUp : List Msg) : List Msg := if u.uploadList then toUp else u.recvFrame.toList ++ toUp

/-- The messages to each end, with the one that waits for a frame first, and whether the `RES` is back. -/
inductive Phase (src : Source) (u d : Stream) : List Msg → List Msg → Bool → Prop
  | asked (up : u.Idle src) (ready : u.Ready src) (down : d.Open src ⟨[], 0⟩) (zero : d.listSize = 0)
      (cover : ∀ p n, src.tree.get p = some n → Coming src d.disk ⟨[], 0⟩ p n ∨ u.Waits p n) :
      Phase src u d [.reqList] [] false
  | listed {list : List Entry} (up : u.Idle src) (sized : u.fileSize = 0) (down : d.Open src ⟨[], 0⟩)
      (zero : d.listSize = 0) (valid : ∀ e ∈ list, Listed src e) (last : list = [] → u.scanner = none)
      (cover : ∀ p n, src.tree.get p = some n →
        Coming src d.disk ⟨[], 0⟩ p n ∨ src.entry p n ∈ list ∨ u.Scans p n) :
      Phase src u d [] [.resList list] false
  | ordered {list : List Entry} (up : u.Idle src) (sized : u.fileSize = 0) (down : d.Open src ⟨list, 0⟩)
      (some_ : 0 < d.listSize) (fresh : d.listPos = 0)
      (cover : ∀ p n, src.tree.get p = some n → Coming src d.disk ⟨list, 0⟩ p n ∨ u.Scans p n) :
      Phase src u d [.downloadList d.listSize list] [] false
  | uploading {a c : Cursor} {ms ns : List Msg} (down : d.Open src a) (flight : Flight src a ns c)
      (up : u.freed = true ∨ u.Busy src c ∧ ms = [] ∧
        ∀ p n, src.tree.get p = some n → Coming src d.disk a p n ∨ u.Scans p n) :
      Phase src u d ms ns false
  | ended {a : Cursor} {ms : List Msg} (up : u.Idle src) (sized : u.fileSize = 0) (down : d.Open src a)
      (flight : Flight src a ms ⟨[], 0⟩)
      (cover : ∀ p n, src.tree.get p = some n → Coming src d.disk a p n ∨ u.Scans p n) :
      Phase src u d [] (ms ++ [.uploadList []]) false
  | done {ms : List Msg} {closed : Bool} (complete : Complete src d.disk) (side : d.upload = false)
    (outbox : d.outbox = [])
      (up : u.freed = true ∨ u.uploadList = false ∧ u.outbox = [] ∧ true ∉ u.out ∧ ∀ m ∈ ms, m = .res) :
      Phase src u d ms [] closed
  | lost {ms ns : List Msg} (down : d.freed = true) : Phase src u d ms ns false

end Wenas.Xlio
