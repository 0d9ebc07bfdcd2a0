import Wenas.Xlio.Phases

/-!
# What each handler does to the phase

`xlio_recv_frame` and `xlio_upload_list` take a phase of the transfer to the next one, as long as the transfer keeps
to what the code can count.
-/
namespace Wenas.Xlio

open Wenas.Machine

variable {src : Source} {u d : Stream} {qu qd : List Msg} {closed : Bool}

/-- Frames and the message that waits may change under a stream. -/
def Stream.touch (s : Stream) (readable : Nat) (out : List Bool) (recvFrame : Option Msg) : Stream :=
  { s with readable := readable, out := out, recvFrame := recvFrame }

section touch

variable {k : Nat} {o : List Bool} {r : Option Msg} {c : Cursor}

theorem Stream.Scanning.touch (h : u.Scanning src) : (u.touch k o r).Scanning src := ⟨h.uri, h.sound, h.item⟩

theorem Stream.Receives.touch (h : d.Receives src c) : (d.touch k o r).Receives src c :=
  ⟨h.valid, h.pos, h.count, h.total, h.fd, h.clean⟩

theorem Stream.InBatch.touch (h : u.InBatch src c) : (u.touch k o r).InBatch src c :=
  ⟨⟨h.sends.uri, h.sends.disk, h.sends.valid, h.sends.todo, h.sends.pos, h.sends.fd, h.sends.count, h.sends.total⟩,
    h.begun⟩

theorem Stream.Idle.touch (h : u.Idle src) (ho : true ∈ o → true ∈ u.out) : (u.touch k o r).Idle src :=
  ⟨h.upload, h.freed, fun hb => h.out (ho hb), h.outbox, h.disk, h.frames, h.scanning.touch, h.uploadList, h.obj, h.fd,
    h.filePos, h.listPos⟩

theorem Stream.Busy.touch (h : u.Busy src c) (ho : true ∈ o → true ∈ u.out) : (u.touch k o u.recvFrame).Busy src c :=
  ⟨h.upload, h.freed, fun hb => h.out (ho hb), h.outbox, h.frames, h.scanning.touch, h.uploadList, h.listSize, h.stale,
    h.batch.touch⟩

theorem Stream.Open.touch (h : d.Open src c) (ho : true ∈ o → true ∈ d.out) : (d.touch k o r).Open src c :=
  ⟨h.upload, h.freed, fun hb => h.out (ho hb), h.outbox, h.receives.touch⟩

theorem Phase.touchUp (h : Phase src u d qu qd closed) (ho : true ∈ o → true ∈ u.out)
    (hr : r = u.recvFrame ∨ u.uploadList = false) : Phase src (u.touch k o r) d qu qd closed := by
  cases h with
  | asked up ready down zero cover =>
    exact .asked (up.touch ho) ⟨ready.scanning.touch, ready.single, ready.unsized⟩ down zero cover
  | listed up sized down zero valid last cover => exact .listed (up.touch ho) sized down zero valid last cover
  | ordered up sized down some_ fresh cover => exact .ordered (up.touch ho) sized down some_ fresh cover
  | uploading down flight up =>
    obtain hfreed | ⟨hb, hrest⟩ := up
    · exact .uploading down flight (.inl hfreed)
    · obtain rfl := hr.resolve_right (by simp [hb.uploadList])
      exact .uploading down flight (.inr ⟨hb.touch ho, hrest⟩)
  | ended up sized down flight cover => exact .ended (up.touch ho) sized down flight cover
  | done complete side outbox up =>
    exact .done complete side outbox (up.imp id fun h => ⟨h.1, h.2.1, fun hb => h.2.2.1 (ho hb), h.2.2.2⟩)
  | lost down => exact .lost down

theorem Phase.touchDown (h : Phase src u d qu qd closed) (ho : true ∈ o → true ∈ d.out) :
    Phase src u (d.touch k o r) qu qd closed := by
  cases h with
  | asked up ready down zero cover => exact .asked up ready (down.touch ho) zero cover
  | listed up sized down zero valid last cover => exact .listed up sized (down.touch ho) zero valid last cover
  | ordered up sized down some_ fresh cover =>
    exact .ordered (d := d.touch k o r) up sized (down.touch ho) some_ fresh cover
  | uploading down flight up => exact .uploading (down.touch ho) flight up
  | ended up sized down flight cover => exact .ended up sized (down.touch ho) flight cover
  | done complete side outbox up => exact .done complete side outbox up
  | lost down => exact .lost down

end touch

/-- What a handler leaves, with its messages taken out and another one waiting or none. -/
def Stream.after (s : Stream) (r : Option Msg) : Stream := { s with outbox := [], recvFrame := r }

theorem Phase.reqList {r : Option Msg} (h : Phase src u d (.reqList :: qu) qd closed) (hshort : src.Short)
    (hfree : u.freed = false) :
    Phase src ((settle (u.xlioRecvFrame .reqList)).after r) d qu (qd ++ (settle (u.xlioRecvFrame .reqList)).outbox)
      closed := by
  generalize hq : Msg.reqList :: qu = q at h
  cases h with
  | asked up ready down zero cover =>
    obtain ⟨-, rfl⟩ := List.cons.inj hq
    have ha := answer_answered ready hshort up.frames
    obtain ⟨sc, i, size, hsame⟩ := ha.same
    have hscan := ha.scanning
    rw [hsame] at hscan
    have hbox : (settle (u.xlioRecvFrame .reqList)).outbox = [.resList u.answer.2] := by
      simp [settle, Stream.xlioRecvFrame, Stream.send, hsame, up.outbox]
    have heq : (settle (u.xlioRecvFrame .reqList)).after r =
        { u with scanner := sc, item := i, listSize := size, fileSize := 0, readable := u.readable - 1,
                 out := u.out ++ [false], outbox := [], recvFrame := r, freed := false } := by
      simp [settle, Stream.after, Stream.xlioRecvFrame, Stream.send, Msg.isRes, hsame]
    have hidle : ((settle (u.xlioRecvFrame .reqList)).after r).Idle src := by
      rw [heq]
      exact ⟨up.upload, rfl, by simpa using up.out, rfl, up.disk, up.frames, ⟨hscan.uri, hscan.sound, hscan.item⟩,
        up.uploadList, up.obj, up.fd, up.filePos, up.listPos⟩
    rw [hbox]
    refine .listed hidle (by rw [heq]) down zero ha.listed ha.nil ?_
    intro p n hp
    obtain hc | hw := cover p n hp
    · exact .inl hc
    · exact .inr (ha.all p n hp hw)
  | listed | ordered | ended => cases hq
  | uploading down flight up =>
    obtain hfreed | ⟨-, hnil, -⟩ := up
    · simp [hfree] at hfreed
    · rw [← hq] at hnil
      cases hnil
  | done complete side outbox up =>
    obtain hfreed | ⟨-, -, -, hres⟩ := up
    · simp [hfree] at hfreed
    · cases hres .reqList (by simp [← hq])
  | lost down => exact .lost down

/-- A batch begins where the downloader stands. -/
theorem Stream.Idle.begin {list : List Entry} (up : u.Idle src) (sized : u.fileSize = 0) (down : d.Open src ⟨list, 0⟩)
    (fresh : d.listPos = 0) :
    { u with uploadList := true, listSize := d.listSize, uploadParser := list }.InBatch src ⟨list, 0⟩ := by
  have hcount := down.receives.count
  refine ⟨⟨up.scanning.uri, up.disk, down.receives.valid, by simp [up.obj], up.filePos, .inl ⟨up.fd, rfl, sized⟩, ?_,
    down.receives.total⟩, fun _ => .inr up.listPos⟩
  simp only [up.listPos]
  omega

theorem Phase.downloadList {size : Nat} {list : List Entry} {r : Option Msg}
    (h : Phase src u d (.downloadList size list :: qu) qd closed) (hfree : u.freed = false)
    (hr : ∀ m, r = some m → ∃ size list, m = .downloadList size list) :
    Phase src ((settle (u.xlioRecvFrame (.downloadList size list))).after r) d
      (((settle (u.xlioRecvFrame (.downloadList size list))).after r).queue qu)
      (qd ++ (settle (u.xlioRecvFrame (.downloadList size list))).outbox) closed := by
  generalize hq : Msg.downloadList size list :: qu = q at h
  cases h with
  | asked | listed | ended => cases hq
  | ordered up sized down some_ fresh cover =>
    cases hq
    cases list with
    | nil =>
      have hcount := down.receives.count
      simp only [Cursor.left, List.map_nil, List.sum_nil] at hcount
      omega
    | cons e list =>
      obtain ⟨⟨t, ok⟩, ht⟩ : ∃ v, Stream.sendFrames u.readable
          { u with uploadList := true, listSize := d.listSize, uploadParser := e :: list } = v := ⟨_, rfl⟩
      obtain ⟨⟨hout, hsame⟩, ms, c, hbox, hflight, hin⟩ := sendFrames_flight (up.begin sized down fresh) ht
      have hrecv : u.xlioRecvFrame (.downloadList d.listSize (e :: list)) = (t, ok) := by
        simp only [Stream.xlioRecvFrame, up.uploadList, Bool.false_eq_true, if_false]
        exact ht
      rw [hrecv]
      rw [show (settle (t, ok)).outbox = ms by simpa [settle, up.outbox] using hbox]
      refine .uploading down (by simpa using hflight) ?_
      cases ok with
      | false => exact .inl rfl
      | true =>
        right
        obtain ⟨a1, a2, a3, a4, a5, a6, a7, a8, a9, rfl⟩ := hsame
        refine ⟨⟨up.upload, rfl, fun hb => up.out (hout hb), rfl, up.frames,
          ⟨up.scanning.uri, up.scanning.sound, up.scanning.item⟩, rfl, some_, hr, ?_⟩, rfl, cover⟩
        have hs := hin.sends
        exact ⟨⟨hs.uri, hs.disk, hs.valid, hs.todo, hs.pos, hs.fd, hs.count, hs.total⟩, hin.begun⟩
  | uploading down flight up =>
    obtain hfreed | ⟨-, hnil, -⟩ := up
    · simp [hfree] at hfreed
    · rw [← hq] at hnil
      cases hnil
  | done complete side outbox up =>
    obtain hfreed | ⟨-, -, -, hres⟩ := up
    · simp [hfree] at hfreed
    · cases hres (.downloadList size list) (by simp [← hq])
  | lost down => exact .lost down

/-- The `DOWNLOAD_LIST` that was taken and still waits is taken again, and the check for it fails. -/
theorem Phase.again {r : Option Msg} (h : Phase src u d qu qd closed) (hfree : u.freed = false)
    (hbusy : u.uploadList = true)
    {m : Msg} (hm : u.recvFrame = some m) (ms : List Msg) :
    Phase src ((settle (u.xlioRecvFrame m)).after r) d ms (qd ++ (settle (u.xlioRecvFrame m)).outbox) closed := by
  cases h with
  | asked up | listed up | ordered up | ended up => simp [up.uploadList] at hbusy
  | uploading down flight up =>
    obtain hfreed | ⟨hb, -, -⟩ := up
    · simp [hfree] at hfreed
    · obtain ⟨size, list, rfl⟩ := hb.stale m hm
      have hrecv : u.xlioRecvFrame (.downloadList size list) = (u, false) := by
        simp [Stream.xlioRecvFrame, hb.uploadList]
      rw [hrecv, show (settle (u, false)).outbox = [] from hb.outbox, List.append_nil]
      exact .uploading down flight (.inl rfl)
  | done complete side outbox up =>
    obtain hfreed | ⟨hidle, -⟩ := up
    · simp [hfree] at hfreed
    · simp [hidle] at hbusy
  | lost down => exact .lost down

theorem settle_after {s : Stream} (hfree : s.freed = false) (hbox : s.outbox = []) :
    (settle (s, true)).after s.recvFrame = s := by
  simp only [settle, Stream.after, Bool.not_true, ← hfree, ← hbox]

/-- A stream in use keeps no messages back. -/
theorem Phase.outbox_nil (h : Phase src u d qu qd closed) (hfree : u.freed = false) :
    u.outbox = [] ∨ d.freed = true ∧ closed = false := by
  cases h with
  | asked up | listed up | ordered up | ended up => exact .inl up.outbox
  | uploading down flight up =>
    obtain hfreed | ⟨hb, -⟩ := up
    · simp [hfree] at hfreed
    · exact .inl hb.outbox
  | done complete side outbox up =>
    obtain hfreed | ⟨-, hbox, -⟩ := up
    · simp [hfree] at hfreed
    · exact .inl hbox
  | lost down => exact .inr ⟨down, rfl⟩

/-- The next frame of a batch, or the empty list at the end of it. -/
theorem Stream.Busy.next {a c : Cursor} (hb : u.Busy src c) (down : d.Open src a) (flight : Flight src a qd c)
    (cover : ∀ p n, src.tree.get p = some n → Coming src d.disk a p n ∨ u.Scans p n)
    (hfit : u.listPos = u.listSize → u.obj = none) :
    Phase src ((settle u.xlioUploadList).after none) d [] (qd ++ (settle u.xlioUploadList).outbox) false := by
  have hcount := hb.batch.sends.count
  rw [Stream.xlioUploadList, if_pos hb.uploadList]
  split
  · rename_i hlt
    split
    · rw [show (settle (u, false)).outbox = [] from hb.outbox, List.append_nil]
      exact .uploading down flight (.inl rfl)
    · rename_i t ht
      obtain ⟨⟨hout, hsame⟩, ms, c', hbox, hflight, hin⟩ := sendFile_flight hb.batch hlt ht
      rw [show (settle (t, true)).outbox = ms by simpa [settle, hb.outbox] using hbox]
      refine .uploading down (flight.append hflight) (.inr ⟨?_, rfl, ?_⟩)
      · obtain ⟨a1, a2, a3, a4, a5, a6, a7, a8, a9, rfl⟩ := hsame
        refine ⟨hb.upload, rfl, fun h => hb.out (hout h), rfl, hb.frames,
          ⟨hb.scanning.uri, hb.scanning.sound, hb.scanning.item⟩, hb.uploadList, hb.listSize, by rintro m ⟨⟩, ?_⟩
        have hs := hin.sends
        exact ⟨⟨hs.uri, hs.disk, hs.valid, hs.todo, hs.pos, hs.fd, hs.count, hs.total⟩, hin.begun⟩
      · obtain ⟨a1, a2, a3, a4, a5, a6, a7, a8, a9, rfl⟩ := hsame
        exact cover
  · have heq : u.listPos = u.listSize := by omega
    obtain ⟨rfl, hfd, hpos, hsize⟩ := hb.batch.finished hb.listSize heq (hfit heq)
    rw [if_neg (by simp [heq])]
    have hbox : (settle ({ u.send (.uploadList []) with uploadList := false, listPos := 0, listSize := 0 },
        true)).outbox =
        [.uploadList []] := by simp [settle, Stream.send, hb.outbox]
    rw [hbox]
    refine .ended ?_ hsize down flight cover
    exact ⟨hb.upload, rfl, by simpa [settle, Stream.after, Stream.send, Msg.isRes] using hb.out, rfl,
      hb.batch.sends.disk, hb.frames, ⟨hb.scanning.uri, hb.scanning.sound, hb.scanning.item⟩, rfl, hfit heq,
        hfd, hpos, rfl⟩

/-- A frame of the uploader is back and no message waits. -/
theorem Phase.uploadList (h : Phase src u d qu qd closed) (hfree : u.freed = false) (hwait : u.recvFrame = none)
    (hfit : u.uploadList = true → u.listPos = u.listSize → u.obj = none) :
    Phase src ((settle u.xlioUploadList).after none) d qu (qd ++ (settle u.xlioUploadList).outbox) closed := by
  by_cases hbusy : u.uploadList = true
  · cases h with
    | asked up | listed up | ordered up | ended up => simp [up.uploadList] at hbusy
    | uploading down flight up =>
      obtain hfreed | ⟨hb, rfl, cover⟩ := up
      · simp [hfree] at hfreed
      · exact hb.next down flight cover (hfit hbusy)
    | done complete side outbox up =>
      obtain hfreed | ⟨hidle, -⟩ := up
      · simp [hfree] at hfreed
      · simp [hidle] at hbusy
    | lost down => exact .lost down
  · obtain hbox | ⟨hdown, rfl⟩ := h.outbox_nil hfree
    · have hsame : u.xlioUploadList = (u, true) := by rw [Stream.xlioUploadList, if_neg hbusy]
      rw [hsame, ← hwait, settle_after hfree hbox, show (settle (u, true)).outbox = [] from hbox, List.append_nil]
      exact h
    · exact .lost hdown

theorem Coming.mono {e d : Disk} {a c : Cursor} {p : Path} {n : Node} (h : Coming src d a p n)
    (hdue : ∀ q bytes, Due src d a q bytes → Due src e c q bytes) (hdirs : ∀ q, d.dirs q = true → e.dirs q = true) :
    Coming src e c p n := by
  cases n with
  | file data => exact hdue _ _ h
  | dir children => exact hdirs _ h

theorem complete_of_coming {d : Disk} (h : ∀ p n, src.tree.get p = some n → Coming src d ⟨[], 0⟩ p n) :
    Complete src d := by
  constructor
  · intro p data hp
    obtain ⟨-, hfile | ⟨e, he, -⟩⟩ := h p _ hp
    · exact hfile
    · cases he
  · intro p children hp
    exact h p _ hp

theorem content_of_get {p : Path} {data : List UInt8} (h : src.tree.get p = some (.file data)) :
    src.content (srcName src.uri :: p) = some data := by
  simp [Source.content, Node.disk, h]

theorem Listed.holds {e : Entry} (h : Listed src e) (hfile : e.isFile = true) : src.Holds e := by
  obtain ⟨p, n, hp, rfl⟩ := h
  cases n with
  | file data => exact ⟨rfl, data, content_of_get hp, rfl⟩
  | dir children => cases hfile

/-- A downloader with nothing open has only whole files. -/
theorem Stream.Receives.whole (h : d.Receives src ⟨[], 0⟩) {p : Path} {bytes : List UInt8}
    (hfile : d.disk.files p = some bytes) : src.content p = some bytes := by
  obtain hc | ⟨e, rest, heq, -⟩ := h.clean p bytes hfile
  · exact hc
  · cases heq

/-- What a list names is there, or wanted from the uploader, once the list is checked. -/
theorem Checked.coming {list : List Entry} {r : Stream × List Entry} (h : Checked list d [] r)
    (hrec : d.Receives src ⟨[], 0⟩) {p : Path} {n : Node} (hp : src.tree.get p = some n)
    (hc : Coming src d.disk ⟨[], 0⟩ p n ∨ src.entry p n ∈ list) : Coming src r.1.disk ⟨r.2, 0⟩ p n := by
  obtain ⟨hout, dirs, hr, hkeep, hmade⟩ := h
  rw [hr, hout]
  obtain hc | hmem := hc
  · refine hc.mono ?_ hkeep
    rintro q bytes ⟨hq, hfile | ⟨e, he, -⟩⟩
    · exact ⟨hq, .inl hfile⟩
    · cases he
  · cases n with
    | dir children => exact hmade _ hmem rfl
    | file data =>
      refine ⟨content_of_get hp, ?_⟩
      by_cases hwant : d.disk.wants (src.entry p (.file data)) = true
      · exact .inr ⟨_, by simpa using ⟨hmem, hwant⟩, rfl⟩
      · have hsome : (d.disk.files (srcName src.uri :: p)).isSome = true := by
          by_contra hnone
          apply hwant
          simp only [Disk.wants, Source.entry, Item.of, Bool.true_and, Bool.or_eq_true]
          exact .inl (by simpa using hnone)
        obtain ⟨bytes, hbytes⟩ := Option.isSome_iff_exists.mp hsome
        obtain rfl : bytes = data := Option.some.inj ((hrec.whole hbytes).symm.trans (content_of_get hp))
        exact .inl hbytes

theorem Checked.open {list : List Entry} {t : Stream} {out : List Entry} (h : Checked list d [] (t, out))
    (down : d.Open src ⟨[], 0⟩) (zero : d.listSize = 0) (valid : ∀ e ∈ list, Listed src e)
    (hsmall : d.disk.wanted list < 2 ^ 64) : t.Open src ⟨out, 0⟩ ∧ t.listPos = 0 := by
  obtain ⟨hout, dirs, hr, hkeep, hmade⟩ := h
  obtain rfl : out = list.filter d.disk.wants := by simpa using hout
  subst hr
  have hcount := down.receives.count
  have hpos : d.listPos = 0 := by omega
  refine ⟨⟨down.upload, down.freed, down.out, down.outbox, ?_⟩, hpos⟩
  constructor
  · refine ⟨?_, fun hk => absurd rfl hk⟩
    intro e he
    obtain ⟨hmem, hwant⟩ := List.mem_filter.mp he
    refine (valid e hmem).holds ?_
    simp only [Disk.wants, Bool.and_eq_true] at hwant
    exact hwant.1
  · exact down.receives.pos
  · simp only [hpos, zero, Cursor.left, Disk.wanted]
    omega
  · simp only [zero]
    omega
  · obtain hnone | ⟨e, rest, data, heq, -⟩ := down.receives.fd
    · exact .inl hnone
    · cases heq
  · intro q bytes hfile
    exact .inl (down.receives.whole hfile)

theorem Disk.Counts.lt {disk : Disk} {list : List Entry} (h : disk.Counts list) : disk.wanted list < 2 ^ 64 := by
  obtain hnil | ⟨-, hlt⟩ := h
  · simp [Disk.wanted, hnil]
  · exact hlt

theorem Disk.Counts.nil {disk : Disk} {list : List Entry} (h : disk.Counts list) (hzero : disk.wanted list = 0) :
    list.filter disk.wants = [] := by
  obtain hnil | ⟨hpos, -⟩ := h
  · exact hnil
  · omega

theorem Stream.Idle.ready (up : u.Idle src) (sized : u.fileSize = 0) : u.Ready src :=
  ⟨up.scanning, fun _ hpos => by omega, fun _ => sized⟩

/-- The downloader takes a list that is not the last one. -/
theorem Phase.checked {e : Entry} {list : List Entry} {r : Option Msg} (up : u.Idle src) (sized : u.fileSize = 0)
    (down : d.Open src ⟨[], 0⟩) (zero : d.listSize = 0) (valid : ∀ x ∈ e :: list, Listed src x)
    (cover : ∀ p n, src.tree.get p = some n →
      Coming src d.disk ⟨[], 0⟩ p n ∨ src.entry p n ∈ e :: list ∨ u.Scans p n)
    (hcounts : d.disk.Counts (e :: list)) :
    Phase src u ((settle (d.xlioRecvFrame (.resList (e :: list)))).after r)
      (settle (d.xlioRecvFrame (.resList (e :: list)))).outbox [] false := by
  rw [Stream.xlioRecvFrame, Stream.checkList]
  split
  · exact .lost rfl
  · rename_i res hres
    obtain ⟨t, out⟩ := res
    have hlt := hcounts.lt
    have hchecked := each_checked (by omega) hres
    obtain ⟨hopen, hpos⟩ := hchecked.open down zero valid hlt
    have hcover : ∀ p n, src.tree.get p = some n → Coming src t.disk ⟨out, 0⟩ p n ∨ u.Scans p n := by
      intro p n hp
      obtain hc | hmem | hs := cover p n hp
      · exact .inl (hchecked.coming down.receives hp (.inl hc))
      · exact .inl (hchecked.coming down.receives hp (.inr hmem))
      · exact .inr hs
    have hsize : t.listSize = d.disk.wanted (e :: list) := by
      obtain ⟨dirs, ht, -⟩ := hchecked.same
      rw [show t = _ from ht]
      simp [zero]
    have hrec := hopen.receives
    split
    · rename_i hsome
      rw [show (settle (t.send (.downloadList t.listSize out), true)).outbox = [.downloadList t.listSize out] by
        simp [settle, Stream.send, hopen.outbox]]
      refine .ordered (d := (settle (t.send (.downloadList t.listSize out), true)).after r) up sized ?_ hsome hpos hcover
      refine ⟨hopen.upload, rfl, by simpa [settle, Stream.after, Stream.send, Msg.isRes] using hopen.out, rfl, ?_⟩
      exact ⟨hrec.valid, hrec.pos, hrec.count, hrec.total, hrec.fd, hrec.clean⟩
    · rename_i hnone
      have hzero : d.disk.wanted (e :: list) = 0 := by simp only at hnone; omega
      obtain rfl : out = [] := by simpa [hcounts.nil hzero] using hchecked.out
      rw [show (settle (t.send .reqList, true)).outbox = [.reqList] by simp [settle, Stream.send, hopen.outbox]]
      refine .asked up (up.ready sized) ?_ (hsize.trans hzero) fun p n hp => (hcover p n hp).imp_right .inl
      refine ⟨hopen.upload, rfl, by simpa [settle, Stream.after, Stream.send, Msg.isRes] using hopen.out, rfl, ?_⟩
      exact ⟨hrec.valid, hrec.pos, hrec.count, hrec.total, hrec.fd, hrec.clean⟩

theorem Phase.resList {list : List Entry} {r : Option Msg} (h : Phase src u d qu (.resList list :: qd) closed)
    (hfree : d.freed = false) (hcounts : d.disk.Counts list) :
    Phase src u ((settle (d.xlioRecvFrame (.resList list))).after r)
      (qu ++ (settle (d.xlioRecvFrame (.resList list))).outbox) qd closed := by
  generalize hq : Msg.resList list :: qd = q at h
  cases h with
  | asked | ordered | done => cases hq
  | listed up sized down zero valid last cover =>
    cases hq
    cases list with
    | nil =>
      have hnone : ∀ p n, ¬ u.Scans p n := by
        rintro p n ⟨sc, hsc, -⟩
        simp [last rfl] at hsc
      have hcomplete : Complete src d.disk := by
        refine complete_of_coming fun p n hp => ?_
        obtain hc | hmem | hs := cover p n hp
        · exact hc
        · cases hmem
        · exact absurd hs (hnone p n)
      rw [show (settle (d.xlioRecvFrame (.resList []))).outbox = [.res] by
        simp [settle, Stream.xlioRecvFrame, Stream.send, down.outbox]]
      exact .done hcomplete down.upload rfl (.inr ⟨up.uploadList, up.outbox, up.out, by simp⟩)
    | cons e list => exact Phase.checked up sized down zero valid cover hcounts
  | uploading down flight up =>
    rw [← hq] at flight
    cases flight
  | @ended a ms up sized down flight cover =>
    cases ms with
    | nil => cases hq
    | cons m ms =>
      cases hq
      cases flight
  | lost down => simp [hfree] at down

/-- A frame of the batch: its pieces are written, or the downloader fails. -/
theorem Stream.Open.takes {a b : Cursor} {ps : List Piece} {r : Option Msg} (down : d.Open src a) (hleft : 0 < a.left)
    (hsent : Sent src a ps b) :
    (settle (d.xlioRecvFrame (.uploadList ps))).freed = true ∨
      (settle (d.xlioRecvFrame (.uploadList ps))).outbox = [] ∧
        ((settle (d.xlioRecvFrame (.uploadList ps))).after r).Open src b ∧
        ∀ p n, Coming src d.disk a p n →
          Coming src ((settle (d.xlioRecvFrame (.uploadList ps))).after r).disk b p n := by
  have hcount := down.receives.count
  cases ps with
  | nil =>
    left
    have hne : d.listPos ≠ d.listSize := by omega
    simp [settle, Stream.xlioRecvFrame, Stream.recvFile, hne]
  | cons p ps =>
    obtain ⟨⟨t, ok⟩, ht⟩ : ∃ v, each Stream.recvPiece (p :: ps) d = v := ⟨_, rfl⟩
    rw [show d.xlioRecvFrame (.uploadList (p :: ps)) = (t, ok) from ht]
    cases ok with
    | false => exact .inl rfl
    | true =>
      right
      obtain ⟨hrec, ⟨hdirs, hsame⟩, hdue⟩ := each_receives down.receives hsent ht
      refine ⟨?_, ⟨?_, rfl, ?_, rfl, ⟨hrec.valid, hrec.pos, hrec.count, hrec.total, hrec.fd, hrec.clean⟩⟩, ?_⟩
      · obtain ⟨a1, a2, a3, a4, a5, rfl⟩ := hsame
        exact down.outbox
      · obtain ⟨a1, a2, a3, a4, a5, rfl⟩ := hsame
        exact down.upload
      · obtain ⟨a1, a2, a3, a4, a5, rfl⟩ := hsame
        exact down.out
      · intro q n hc
        exact hc.mono hdue fun q hq => (congrFun hdirs q).trans hq

theorem Phase.pieces {ps : List Piece} {r : Option Msg} (h : Phase src u d qu (.uploadList ps :: qd) closed)
    (hfree : d.freed = false) :
    Phase src u ((settle (d.xlioRecvFrame (.uploadList ps))).after r)
      (qu ++ (settle (d.xlioRecvFrame (.uploadList ps))).outbox) qd closed := by
  generalize hq : Msg.uploadList ps :: qd = q at h
  cases h with
  | asked | listed | ordered | done => cases hq
  | uploading down flight up =>
    rw [← hq] at flight
    cases flight with
    | cons left head tail =>
      obtain hfreed | ⟨hbox, hopen, hcoming⟩ := down.takes (r := r) left head
      · exact .lost hfreed
      · rw [hbox, List.append_nil]
        refine .uploading hopen tail (up.imp id fun h => ⟨h.1, h.2.1, ?_⟩)
        intro p n hp
        exact (h.2.2 p n hp).imp_left (hcoming p n)
  | @ended a ms up sized down flight cover =>
    cases ms with
    | nil =>
      cases hq
      cases flight
      have hcount : d.listPos = d.listSize := down.receives.count
      have hrec := down.receives
      have hrecv : d.xlioRecvFrame (.uploadList []) = ({ d.send .reqList with listPos := 0, listSize := 0 }, true) := by
        simp [Stream.xlioRecvFrame, Stream.recvFile, hcount]
      rw [hrecv, show (settle ({ d.send .reqList with listPos := 0, listSize := 0 }, true)).outbox = [.reqList] by
        simp [settle, Stream.send, down.outbox]]
      refine .asked up (up.ready sized) ?_ rfl fun p n hp => (cover p n hp).imp_right .inl
      refine ⟨down.upload, rfl, by simpa [settle, Stream.after, Stream.send, Msg.isRes] using down.out, rfl, ?_⟩
      exact ⟨hrec.valid, hrec.pos, rfl, by simp [settle, Stream.after], hrec.fd, hrec.clean⟩
    | cons m ms =>
      cases hq
      cases flight with
      | cons left head tail =>
        obtain hfreed | ⟨hbox, hopen, hcoming⟩ := down.takes (r := r) left head
        · exact .lost hfreed
        · rw [hbox, List.append_nil]
          exact .ended up sized hopen tail fun p n hp => (cover p n hp).imp_left (hcoming p n)
  | lost down => simp [hfree] at down

end Wenas.Xlio
