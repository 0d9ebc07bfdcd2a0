import Wenas.Xlio.Handlers
import Wenas.Xlio.Control

/-!
# A transfer that is closed is complete

Each event takes a phase to a phase, as long as no message meets one that waits, the bytes of each list can be
counted, and no entry is left when all bytes are sent.
-/
namespace Wenas.Xlio

open Wenas.Machine

variable {src : Source} {u d : Stream} {qu qd : List Msg} {closed : Bool}

theorem queue_none {s : Stream} {ms : List Msg} (h : s.recvFrame = none) : s.queue ms = ms := by
  simp [Stream.queue, h]

theorem queue_idle {s : Stream} {ms : List Msg} (h : s.uploadList = false) : s.queue ms = s.recvFrame.toList ++ ms := by
  simp [Stream.queue, h]

theorem queue_single {s : Stream} {m m' : Msg} {ms : List Msg} (h : s.uploadList = false)
    (hq : s.queue (m :: ms) = [m']) :
    s.recvFrame = none ∧ m = m' ∧ ms = [] := by
  rw [queue_idle h] at hq
  cases hr : s.recvFrame with
  | none => simpa [hr] using hq
  | some m => simp [hr] at hq

theorem queue_cons_ne {s : Stream} {m : Msg} {ms : List Msg} : s.queue (m :: ms) ≠ [] := by
  rw [Stream.queue]
  split_ifs
  · simp
  · simp

/-- A freed uploader sends nothing more, whatever comes for it. -/
theorem Phase.dropUp (h : Phase src u d qu qd closed) (hfreed : u.freed = true) (ms : List Msg) :
    Phase src u d ms qd closed := by
  cases h with
  | asked up | listed up | ordered up | ended up => simp [up.freed] at hfreed
  | uploading down flight up => exact .uploading down flight (.inl hfreed)
  | done complete side outbox up => exact .done complete side outbox (.inl hfreed)
  | lost down => exact .lost down

/-- With no frame free the message waits, and is the next one as before. -/
theorem Phase.holdUp {m : Msg} (h : Phase src u d [m] qd closed) (hidle : u.uploadList = false) (hbox : u.outbox = []) :
    Phase src ({ u with recvFrame := some m }.after (some m)) d ({ u with recvFrame := some m }.queue [])
      (qd ++ u.outbox) closed := by
  have heq : { u with recvFrame := some m }.after (some m) = u.touch u.readable u.out (some m) := by
    simp only [Stream.after, Stream.touch, ← hbox]
  have hq : { u with recvFrame := some m }.queue [] = [m] := queue_idle hidle
  rw [heq, hq, hbox, List.append_nil]
  exact h.touchUp id (.inr hidle)

/-- A message comes for the uploader: it waits, or `xlio_recv_frame` takes it. -/
theorem Phase.recvUp {m : Msg} {ms : List Msg} (h : Phase src u d (u.queue (m :: ms)) qd closed) (hshort : src.Short)
    (hfree : u.freed = false) :
    Phase src ((u.recv m).after (u.recv m).recvFrame) d ((u.recv m).queue ms) (qd ++ (u.recv m).outbox) closed := by
  have hkeep := xlioRecvFrame_recvFrame u m
  have h' := h
  generalize hq : u.queue (m :: ms) = q at h
  cases h with
  | listed | ended => exact absurd hq queue_cons_ne
  | asked up ready down zero cover =>
    obtain ⟨hnone, rfl, rfl⟩ := queue_single up.uploadList hq
    rw [Stream.recv_eq, if_neg (by simp [Msg.isRes])]
    split_ifs with hread
    · exact (hq ▸ h').holdUp up.uploadList up.outbox
    · have hwait : (settle (u.xlioRecvFrame .reqList)).recvFrame = none := hkeep.trans hnone
      rw [hwait, queue_none hwait]
      exact (hq ▸ h').reqList hshort hfree
  | ordered up sized down some_ fresh cover =>
    obtain ⟨hnone, rfl, rfl⟩ := queue_single up.uploadList hq
    rw [Stream.recv_eq, if_neg (by simp [Msg.isRes])]
    split_ifs with hread
    · exact (hq ▸ h').holdUp up.uploadList up.outbox
    · have hphase := (hq ▸ h').downloadList (r := none) hfree (by rintro m ⟨⟩)
      rw [queue_none rfl] at hphase
      have hwait : (settle (u.xlioRecvFrame _)).recvFrame = none := hkeep.trans hnone
      rw [hwait, queue_none hwait]
      exact hphase
  | uploading down flight up =>
    obtain hfreed | ⟨-, hnil, -⟩ := up
    · simp [hfree] at hfreed
    · exact absurd (hq.trans hnil) queue_cons_ne
  | done complete side outbox up =>
    obtain hfreed | ⟨hidle, hbox, -, hres⟩ := up
    · simp [hfree] at hfreed
    · have hm : m = .res := hres m (by rw [← hq, queue_idle hidle]; simp)
      subst hm
      rw [show u.recv .res = { u with freed := true } from rfl]
      rw [show ({ u with freed := true } : Stream).outbox = [] from hbox, List.append_nil]
      exact .done complete side outbox (.inl rfl)
  | lost down => exact .lost down

theorem Phase.no_res (h : Phase src u d qu qd closed) (hfree : u.freed = false) :
    true ∉ u.out ∨ d.freed = true ∧ closed = false := by
  cases h with
  | asked up | listed up | ordered up | ended up => exact .inl up.out
  | uploading down flight up =>
    obtain hfreed | ⟨hb, -⟩ := up
    · simp [hfree] at hfreed
    · exact .inl hb.out
  | done complete side outbox up =>
    obtain hfreed | ⟨-, -, hout, -⟩ := up
    · simp [hfree] at hfreed
    · exact .inl hout
  | lost down => exact .inr ⟨down, rfl⟩

/-- The message that waits is taken when a frame is back. -/
theorem Phase.wakeUp {m : Msg} {ms : List Msg} (h : Phase src u d (u.queue ms) qd closed) (hshort : src.Short)
    (hfree : u.freed = false) (hm : u.recvFrame = some m) :
    Phase src ((settle (u.xlioRecvFrame m)).after (leftHeld m)) d
      (((settle (u.xlioRecvFrame m)).after (leftHeld m)).queue ms)
      (qd ++ (settle (u.xlioRecvFrame m)).outbox) closed := by
  by_cases hbusy : u.uploadList = true
  · exact h.again hfree hbusy hm _
  · have hidle : u.uploadList = false := by simpa using hbusy
    rw [queue_idle hidle, hm, Option.toList_some, List.singleton_append] at h
    cases m with
    | reqList =>
      rw [queue_none rfl]
      exact h.reqList hshort hfree
    | downloadList size list =>
      refine h.downloadList hfree ?_
      intro m hm
      cases list with
      | nil => cases hm
      | cons e list => exact ⟨size, e :: list, (Option.some.inj hm).symm⟩
    | res =>
      generalize hq : Msg.res :: ms = q at h
      cases h with
      | asked | listed | ordered | ended => cases hq
      | uploading down flight up =>
        obtain hfreed | ⟨-, hnil, -⟩ := up
        · simp [hfree] at hfreed
        · rw [← hq] at hnil
          cases hnil
      | done complete side outbox up =>
        obtain hfreed | ⟨-, hbox, hout, hres⟩ := up
        · simp [hfree] at hfreed
        · rw [show (settle (u.xlioRecvFrame .res)).outbox = [] from hbox, List.append_nil, queue_none rfl]
          exact .done complete side outbox (.inr ⟨hidle, rfl, hout, fun m hm => hres m (by simp [← hq, hm])⟩)
      | lost down => exact .lost down
    | resList list | uploadList list =>
      cases h with
      | uploading down flight up =>
        obtain hfreed | ⟨-, hnil, -⟩ := up
        · simp [hfree] at hfreed
        · cases hnil
      | done complete side outbox up =>
        obtain hfreed | ⟨-, -, -, hres⟩ := up
        · simp [hfree] at hfreed
        · cases hres _ List.mem_cons_self
      | lost down => exact .lost down

theorem after_self {s : Stream} (hbox : s.outbox = []) : s.after s.recvFrame = s := by
  simp only [Stream.after, ← hbox]

/-- The stream with one more frame free. -/
def Stream.resaved (s : Stream) (out : List Bool) : Stream := s.touch (s.readable + 1) out s.recvFrame

theorem back_cons {s : Stream} {out : List Bool} (hout : s.out = false :: out) :
    s.back = match s.recvFrame with
      | some m => { settle ((s.resaved out).xlioRecvFrame m) with recvFrame := leftHeld m }
      | none => if s.upload then settle (s.resaved out).xlioUploadList else s.resaved out := by
  rw [Stream.back_eq, hout]
  dsimp only
  cases hr : s.recvFrame with
  | none =>
    split_ifs
    · simp [Stream.resaved, Stream.touch, hr]
    · simp [Stream.resaved, Stream.touch, hr]
  | some m => simp [Stream.resaved, Stream.touch, hr]

/-- A frame of the uploader is back. -/
theorem Phase.backUp {ms : List Msg} (h : Phase src u d (u.queue ms) qd closed) (hshort : src.Short)
    (hfree : u.freed = false)
    (hfit : u.recvFrame = none → u.uploadList = true → u.listPos = u.listSize → u.obj = none) :
    Phase src (u.back.after u.back.recvFrame) d (u.back.queue ms) (qd ++ u.back.outbox) closed := by
  obtain hout | ⟨hdown, rfl⟩ := h.no_res hfree
  · obtain hbox | ⟨hdown, rfl⟩ := h.outbox_nil hfree
    · cases ho : u.out with
      | nil =>
        have hback : u.back = u := by rw [Stream.back_eq, ho]
        rw [hback, after_self hbox, hbox, List.append_nil]
        exact h
      | cons b out =>
        obtain rfl : b = false := by
          cases b with
          | false => rfl
          | true => simp [ho] at hout
        have hs : Phase src (u.resaved out) d ((u.resaved out).queue ms) qd closed :=
          h.touchUp (fun hb => by simp [ho, hb]) (.inl rfl)
        rw [back_cons ho]
        cases hr : u.recvFrame with
        | some m => exact hs.wakeUp hshort hfree hr
        | none =>
          have hnone : (u.resaved out).recvFrame = none := hr
          rw [queue_none hnone] at hs
          dsimp only
          split_ifs
          · have hwait : (settle (u.resaved out).xlioUploadList).recvFrame = none :=
              (xlioUploadList_recvFrame _).trans hnone
            rw [hwait, queue_none hwait]
            exact hs.uploadList hfree hnone (hfit hr)
          · have hempty : (u.resaved out).outbox = [] := hbox
            rw [after_self hempty, queue_none hnone, hempty, List.append_nil]
            exact hs
    · exact .lost hdown
  · exact .lost hdown

/-- A message for the downloader is a list, or a frame of files. -/
theorem Phase.takes {m : Msg} {r : Option Msg} (h : Phase src u d qu (m :: qd) closed) (hfree : d.freed = false)
    (hcounts : ∀ list, m = .resList list → d.disk.Counts list) :
    m.isRes = false ∧ leftHeld m = none ∧
      Phase src u ((settle (d.xlioRecvFrame m)).after r) (qu ++ (settle (d.xlioRecvFrame m)).outbox) qd closed := by
  cases m with
  | resList list => exact ⟨rfl, rfl, h.resList hfree (hcounts list rfl)⟩
  | uploadList ps => exact ⟨rfl, rfl, h.pieces hfree⟩
  | reqList | downloadList | res =>
    generalize hq : _ :: qd = q at h
    cases h with
    | asked | listed | ordered | done => cases hq
    | uploading down flight up =>
      rw [← hq] at flight
      cases flight
    | @ended a ms up sized down flight cover =>
      cases ms with
      | nil => cases hq
      | cons m ms =>
        cases hq
        cases flight
    | lost down => simp [hfree] at down

theorem Phase.down_outbox (h : Phase src u d qu qd closed) (hfree : d.freed = false) : d.outbox = [] := by
  cases h with
  | asked _ _ down | listed _ _ down | ordered _ _ down | uploading down | ended _ _ down => exact down.outbox
  | done complete side outbox => exact outbox
  | lost down => simp [hfree] at down

/-- A message comes for the downloader, and none waits. -/
theorem Phase.recvDown {m : Msg} (h : Phase src u d qu (d.recvFrame.toList ++ m :: qd) closed) (hfree : d.freed = false)
    (hwait : d.recvFrame = none) (hcounts : ∀ list, m = .resList list → d.disk.Counts list) :
    Phase src u ((d.recv m).after (d.recv m).recvFrame) (qu ++ (d.recv m).outbox)
      ((d.recv m).recvFrame.toList ++ qd) closed := by
  rw [hwait, Option.toList_none, List.nil_append] at h
  have hbox := h.down_outbox hfree
  have hkeep := xlioRecvFrame_recvFrame d m
  obtain ⟨hres, -, htaken⟩ := h.takes (r := none) hfree hcounts
  rw [Stream.recv_eq, if_neg (by simp [hres])]
  split_ifs with hread
  · have heq : { d with recvFrame := some m }.after (some m) = d.touch d.readable d.out (some m) := by
      simp only [Stream.after, Stream.touch, ← hbox]
    rw [heq, hbox, List.append_nil]
    exact h.touchDown id
  · have hnone : (settle (d.xlioRecvFrame m)).recvFrame = none := hkeep.trans hwait
    rw [hnone]
    exact htaken

theorem Phase.down_upload (h : Phase src u d qu qd closed) (hfree : d.freed = false) : d.upload = false := by
  cases h with
  | asked _ _ down | listed _ _ down | ordered _ _ down | uploading down | ended _ _ down => exact down.upload
  | done complete side outbox => exact side
  | lost down => simp [hfree] at down

/-- A frame of the downloader is back. When it is the `RES`, all has arrived before. -/
theorem Phase.backDown (h : Phase src u d qu (d.recvFrame.toList ++ qd) closed) (hfree : d.freed = false)
    (hcounts : ∀ list, d.recvFrame = some (.resList list) → d.disk.Counts list) :
    Phase src u (d.back.after d.back.recvFrame) (qu ++ d.back.outbox) (d.back.recvFrame.toList ++ qd)
      (closed || d.out.head? == some true) := by
  have hbox := h.down_outbox hfree
  cases ho : d.out with
  | nil =>
    have hback : d.back = d := by rw [Stream.back_eq, ho]
    rw [hback, after_self hbox, hbox, List.append_nil]
    simpa using h
  | cons b out =>
    cases b with
    | false =>
      have hs : Phase src u (d.resaved out) qu (d.recvFrame.toList ++ qd) closed :=
        h.touchDown fun hb => by simp [ho, hb]
      have hup := h.down_upload hfree
      rw [back_cons ho, List.head?_cons, show (some false == some true) = false from rfl, Bool.or_false]
      cases hr : d.recvFrame with
      | some m =>
        rw [hr, Option.toList_some, List.singleton_append] at hs
        obtain ⟨-, hleft, htaken⟩ := hs.takes (r := none) hfree fun list hm => hcounts list (by rw [hr, hm])
        dsimp only
        rw [hleft]
        exact htaken
      | none =>
        have hempty : (d.resaved out).outbox = [] := hbox
        have hnone : (d.resaved out).recvFrame = none := hr
        dsimp only
        rw [hup, if_neg Bool.false_ne_true, after_self hempty, hempty, hnone, List.append_nil]
        rw [hr] at hs
        exact hs
    | true =>
      have hres : true ∈ d.out := by simp [ho]
      generalize hq : d.recvFrame.toList ++ qd = q at h
      cases h with
      | asked _ _ down | listed _ _ down | ordered _ _ down | uploading down | ended _ _ down =>
        exact absurd hres down.out
      | done complete side outbox up =>
        obtain ⟨hnone, rfl⟩ := List.append_eq_nil_iff.mp hq
        have hr : d.recvFrame = none := by simpa using hnone
        have hback : d.back = { d.resaved out with freed := true } := by
          rw [Stream.back_eq, ho]
          simp [hr, side, Stream.resaved, Stream.touch]
        rw [hback, show ({ d.resaved out with freed := true } : Stream).outbox = [] from hbox, List.append_nil,
          show ({ d.resaved out with freed := true } : Stream).recvFrame = none from hr]
        exact .done complete side rfl up
      | lost down => simp [hfree] at down

/-- The phase of a transfer. -/
def World.Good (src : Source) (w : World) : Prop :=
  Phase src w.up w.down (w.up.queue w.toUp) (w.down.recvFrame.toList ++ w.toDown) w.closed

theorem queue_append (s : Stream) (ms ns : List Msg) : s.queue (ms ++ ns) = s.queue ms ++ ns := by
  rw [Stream.queue, Stream.queue]
  split_ifs
  · rfl
  · rw [List.append_assoc]

theorem World.Good.setUp {w : World} {s : Stream} {toUp : List Msg}
    (h : Phase src (s.after s.recvFrame) w.down (s.queue toUp) (w.down.recvFrame.toList ++ w.toDown ++ s.outbox) w.closed) :
    ({ w with toUp := toUp }.setUp s).Good src := by
  rw [List.append_assoc] at h
  exact h

theorem World.Good.setDown {w : World} {s : Stream} {toDown : List Msg} {closed : Bool}
    (h : Phase src w.up (s.after s.recvFrame) (w.up.queue w.toUp ++ s.outbox) (s.recvFrame.toList ++ toDown) closed) :
    { { w with toDown := toDown }.setDown s with closed := closed }.Good src := by
  rw [← queue_append] at h
  exact h

/-- Nothing comes for a downloader that was freed in the middle of a transfer. -/
theorem Phase.dropDown {m : Msg} (h : Phase src u d qu (d.recvFrame.toList ++ m :: qd) closed)
    (hfreed : d.freed = true) :
    Phase src u d qu (d.recvFrame.toList ++ qd) closed := by
  generalize hq : d.recvFrame.toList ++ m :: qd = q at h
  cases h with
  | asked _ _ down | listed _ _ down | ordered _ _ down | uploading down | ended _ _ down =>
    simp [down.freed] at hfreed
  | done => simp at hq
  | lost down => exact .lost down

/-- One event. -/
theorem World.Good.step {w : World} {i : Event} (hshort : src.Short) (h : w.Good src) (hfit : Fit w i) :
    (w.step i).Good src := by
  rw [World.Good] at h
  cases i with
  | recvUp =>
    rw [World.step]
    cases hq : w.toUp with
    | nil => exact h
    | cons m rest =>
      rw [hq] at h
      dsimp only
      split_ifs with hfreed
      · exact h.dropUp hfreed _
      · exact World.Good.setUp (h.recvUp hshort (by simpa using hfreed))
  | recvDown =>
    obtain ⟨hwait, hcounts⟩ := hfit
    rw [World.step]
    cases hq : w.toDown with
    | nil => exact h
    | cons m rest =>
      rw [hq] at h
      dsimp only
      split_ifs with hfreed
      · exact h.dropDown hfreed
      · refine World.Good.setDown (h.recvDown (by simpa using hfreed) hwait fun list hm => hcounts list ?_)
        rw [hq, hm]
        rfl
  | backUp =>
    rw [World.step]
    split_ifs with hfreed
    · exact h
    · exact World.Good.setUp (h.backUp hshort (by simpa using hfreed) hfit)
  | backDown =>
    rw [World.step]
    split_ifs with hfreed
    · exact h
    · exact World.Good.setDown (h.backDown (by simpa using hfreed) hfit)

theorem Phase.complete (h : Phase src u d qu qd closed) (hclosed : closed = true) : Complete src d.disk := by
  cases h with
  | asked | listed | ordered | uploading | ended | lost => cases hclosed
  | done complete => exact complete

theorem made_touch {s : Stream} (first : Bool) (hout : s.out = []) :
    ∃ k o, s.made first = s.touch k o s.recvFrame ∧ true ∉ o := by
  cases first with
  | false => exact ⟨s.readable, s.out, rfl, by simp [hout]⟩
  | true => exact ⟨3, [false], rfl, by simp⟩

theorem Stream.Idle.made (h : u.Idle src) (first : Bool) (hout : u.out = []) : (u.made first).Idle src := by
  obtain ⟨k, o, heq, ho⟩ := made_touch first hout
  rw [heq]
  exact h.touch fun hb => absurd hb ho

theorem Stream.Ready.made (h : u.Ready src) (first : Bool) (hout : u.out = []) : (u.made first).Ready src := by
  obtain ⟨k, o, heq, -⟩ := made_touch first hout
  rw [heq]
  exact ⟨h.scanning.touch, h.single, h.unsized⟩

theorem Stream.Waits.made {p : Path} {n : Node} (h : u.Waits p n) (first : Bool) (hout : u.out = []) :
    (u.made first).Waits p n := by
  obtain ⟨k, o, heq, -⟩ := made_touch first hout
  rw [heq]
  exact h

instance (o : Option Msg) (P : List Entry → Prop) [DecidablePred P] :
    Decidable (∀ list, o = some (.resList list) → P list) :=
  match o with
  | some (.resList list) => decidable_of_iff (P list) ⟨fun h _ heq => by cases heq; exact h, fun h => h list rfl⟩
  | some .reqList | some (.downloadList ..) | some (.uploadList _) | some .res | none =>
    .isTrue fun _ heq => by cases heq

instance (d : Disk) (list : List Entry) : Decidable (d.Counts list) := inferInstanceAs (Decidable (_ ∨ _))

instance Fit.decidable (w : World) : ∀ i, Decidable (Fit w i)
  | .recvUp => .isTrue trivial
  | .recvDown => inferInstanceAs (Decidable (_ ∧ ∀ _, _ → _))
  | .backUp => inferInstanceAs (Decidable (_ → _ → _ → _))
  | .backDown => inferInstanceAs (Decidable (∀ _, _ → _))

/-- A directory with a file of two bytes and an empty directory. -/
def sampleTree : Node := .dir [([1], .file [5, 6]), ([2], .dir [])]

end Wenas.Xlio
