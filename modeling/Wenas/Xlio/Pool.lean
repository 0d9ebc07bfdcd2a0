import Wenas.Xlio.Frames

/-!
# The handlers and the frames they take

Each branch of `xlio.c` that takes a frame does so here from the slots, and `none` is a read of an empty slot. A stream
is `Framed` when its slots are a window, and then every handler runs as on the streams of `Stream.lean`.
-/
namespace Wenas.Xlio
open Wenas.Machine

/-- A stream with its slots, and the frames that are at the msger, the oldest first. -/
structure Pool where
  stream : Stream
  buf : Msgbuf
  flight : List Frame

namespace Pool

def take (p : Pool) : Option (Frame × Pool) := p.buf.take.map fun r => (r.1, { p with buf := r.2 })

/-- `xmsger_send` of a frame, which leaves the other fields as `s` has them. -/
def send (p : Pool) (f : Frame) (res : Bool) (s : Stream) : Pool :=
  { p with stream := s, flight := p.flight ++ [{ f with res := res }] }

/-- A failed check with a frame in hand. -/
def clean (p : Pool) (f : Frame) (s : Stream) : Pool × Bool := ({ p with stream := s, buf := p.buf.resave f }, false)

/-- `xlio_send_file`, and the check of what it returns. -/
def sendFile (p : Pool) (f : Frame) : Pool × Bool :=
  match p.stream.sendFile with
  | none => p.clean f p.stream
  | some s => (p.send f false s, true)

/-- `xlio_recv_file`. -/
def recvFile (p : Pool) : List Piece → Option (Pool × Bool)
  | [] =>
    if p.stream.listPos ≠ p.stream.listSize then some (p, false)
    else p.take.map fun (f, p) => (p.send f false { p.stream.send .reqList with listPos := 0, listSize := 0 }, true)
  | q :: list =>
    let r := each Stream.recvPiece (q :: list) p.stream
    some ({ p with stream := r.1 }, r.2)

/-- `xlio_upload_list`. -/
def xlioUploadList (p : Pool) : Option (Pool × Bool) :=
  if p.stream.uploadList then
    if p.stream.listPos < p.stream.listSize then p.take.map fun (f, p) => p.sendFile f
    else if p.stream.listPos ≠ p.stream.listSize then some (p, false)
    else p.take.map fun (f, p) =>
      (p.send f false { p.stream.send (.uploadList []) with uploadList := false, listPos := 0, listSize := 0 }, true)
  else some (p, true)

/-- The loop of the `DOWNLOAD_LIST` branch, with the number of turns that the frames allow. -/
def sendFrames : Nat → Pool → Option (Pool × Bool)
  | 0, p => some (p, true)
  | frames + 1, p =>
    if p.stream.listPos < p.stream.listSize ∧ p.buf.readable ≠ 0 then
      match p.take with
      | none => none
      | some (f, p) =>
        match p.sendFile f with
        | (p, false) => some (p, false)
        | (p, true) => sendFrames frames p
    else some (p, true)

/-- `xlio_recv_frame`. -/
def xlioRecvFrame (p : Pool) : Msg → Option (Pool × Bool)
  | .reqList => p.take.map fun (f, p) =>
    (p.send f false (p.stream.answer.1.send (.resList p.stream.answer.2)), true)
  | .resList [] => p.take.map fun (f, p) => (p.send f true (p.stream.send .res), true)
  | .resList (e :: list) => p.take.map fun (f, p) =>
    match p.stream.checkList (e :: list) with
    | (r, false) => p.clean f r.1
    | (r, true) =>
      if 0 < r.1.listSize then (p.send f false (r.1.send (.downloadList r.1.listSize r.2)), true)
      else (p.send f false (r.1.send .reqList), true)
  | .downloadList size list =>
    if p.stream.uploadList then some (p, false)
    else
      let s := { p.stream with uploadList := true, listSize := size }
      match list with
      | [] => some ({ p with stream := s }, true)
      | _ :: _ => sendFrames p.buf.readable.toNat { p with stream := { s with uploadParser := list } }
  | .uploadList list => p.recvFile list
  | .res => some (p, true)

def settle (r : Pool × Bool) : Pool := { r.1 with stream := Xlio.settle (r.1.stream, r.2) }

/-- `XMSG_FLAG_RECV` in `xlio_loop`. -/
def recv (p : Pool) (m : Msg) : Option Pool :=
  if m.isRes then some { p with stream := { p.stream with freed := true } }
  else if p.buf.readable = 0 then some { p with stream := { p.stream with recvFrame := some m } }
  else (p.xlioRecvFrame m).map settle

def setRecvFrame (m : Option Msg) (p : Pool) : Pool := { p with stream := { p.stream with recvFrame := m } }

/-- What `xlio_loop` does once a frame is back in its slot. -/
def wake (p : Pool) : Option Pool :=
  match p.stream.recvFrame with
  | some m => ((p.xlioRecvFrame m).map settle).map (setRecvFrame (leftHeld m))
  | none => if p.stream.upload then p.xlioUploadList.map settle else some p

def setFreed (freed : Bool) (p : Pool) : Pool := { p with stream := { p.stream with freed := freed } }

/-- `XMSG_FLAG_BACK` in `xlio_loop`, for the oldest frame in flight. -/
def back (p : Pool) : Option Pool :=
  match p.flight with
  | [] => some p
  | f :: flight =>
    let s := { p.stream with out := p.stream.out.tail, readable := p.stream.readable + 1 }
    (wake ⟨s, p.buf.resave f, flight⟩).map fun p => setFreed (p.stream.freed || f.res) p

/-- `xlio_post_download`. -/
def post (p : Pool) : Option Pool :=
  if p.buf.readable = 0 then some p
  else p.take.map fun (f, p) => p.send f false (p.stream.send .reqList)

/-- The stream that `xlio_stream_maker` leaves, and the frame that `xlio_start_downloader` and `xlio_start_uploader`
send when there is to be a response. -/
def start (s : Stream) (response : Bool) : Option Pool :=
  let p : Pool := ⟨{ s with readable := 4, out := [] }, .made, []⟩
  if response then p.take.map fun (f, p) => p.send f false { p.stream with readable := 3, out := [false] } else some p

end Pool

inductive PoolEvent where
  | recv (m : Msg)
  | back
  | post

/-- Messages for a stream that was freed are dropped. -/
def Pool.step (p : Pool) (e : PoolEvent) : Option Pool :=
  if p.stream.freed then some p
  else match e with
  | .recv m => p.recv m
  | .back => p.back
  | .post => p.post

def poolStep (p : Option Pool) (e : PoolEvent) : Option Pool := p.bind (·.step e)

/-- The same events on a stream of `Stream.lean`. -/
def Stream.step (s : Stream) (e : PoolEvent) : Stream :=
  if s.freed then s
  else match e with
  | .recv m => s.recv m
  | .back => s.back
  | .post => if s.readable = 0 then s else s.send .reqList

/-! ### The handlers keep the window -/

namespace Pool

variable {p q : Pool} {f : Frame} {m : Msg}

structure Framed (p : Pool) (ring : List Frame) : Prop where
  window : p.buf.Window p.flight ring
  readable : p.stream.readable = ring.length
  out : p.stream.out = p.flight.map Frame.res

/-- A handler that runs as on the stream alone, and leaves a window unless a check has failed. -/
def Runs (r : Option (Pool × Bool)) (r' : Stream × Bool) : Prop :=
  ∃ q, r = some (q, r'.2) ∧ q.stream = r'.1 ∧ (r'.2 = true → ∃ ring, q.Framed ring)

theorem Framed.congr {ring : List Frame} {s : Stream} (h : p.Framed ring) (hs : s.control = p.stream.control) :
    Framed { p with stream := s } ring where
  window := h.window
  readable := (congrArg Control.readable hs).trans h.readable
  out := (congrArg Control.out hs).trans h.out

theorem Framed.buf_readable {ring : List Frame} (h : p.Framed ring) : p.buf.readable.toNat = p.stream.readable :=
  h.window.readable_eq.trans h.readable.symm

theorem Framed.empty_iff {ring : List Frame} (h : p.Framed ring) : p.buf.readable = 0 ↔ p.stream.readable = 0 := by
  rw [← h.buf_readable, ← UInt8.toNat_inj]
  rfl

/-- A frame that is taken can be sent. -/
theorem Framed.take {ring : List Frame} (h : p.Framed ring) (hpos : 0 < p.stream.readable) :
    ∃ f q, p.take = some (f, q) ∧ q.stream = p.stream ∧
      ∀ res (s : Stream), s.control = p.stream.control.send res → ∃ ring', (q.send f res s).Framed ring' := by
  cases ring with
  | nil => exact absurd (h.readable.symm.trans_gt hpos) (lt_irrefl 0)
  | cons f ring =>
    obtain ⟨b, htake, hwindow⟩ := h.window.take
    have htaken : p.take = some ({ f with id := p.buf.rslot }, { p with buf := b }) := by
      rw [Pool.take, htake]
      rfl
    refine ⟨{ f with id := p.buf.rslot }, { p with buf := b }, htaken, rfl, fun res s hs => ⟨ring, hwindow res, ?_, ?_⟩⟩
    · calc s.readable = p.stream.readable - 1 := congrArg Control.readable hs
        _ = ring.length := by rw [h.readable, List.length_cons, Nat.add_sub_cancel]
    · have hout : s.out = p.stream.out ++ [res] := congrArg Control.out hs
      refine hout.trans ?_
      rw [h.out]
      have happend : (p.flight ++ [{ f with id := p.buf.rslot, res := res }]).map Frame.res =
          p.flight.map Frame.res ++ [res] := List.map_append
      exact happend.symm

theorem runs_stop {s : Stream} (hs : p.stream = s) : Runs (some (p, false)) (s, false) :=
  ⟨p, rfl, hs, fun h => absurd h Bool.false_ne_true⟩

theorem Framed.runs {ring : List Frame} (h : p.Framed ring) : Runs (some (p, true)) (p.stream, true) :=
  ⟨p, rfl, rfl, fun _ => ⟨ring, h⟩⟩

/-- A branch that takes a frame and sends it. -/
theorem Framed.runs_send {ring : List Frame} (h : p.Framed ring) (hpos : 0 < p.stream.readable) (res : Bool)
    (g : Stream → Stream) (hg : (g p.stream).control = p.stream.control.send res) :
    Runs (p.take.map fun r => (r.2.send r.1 res (g r.2.stream), true)) (g p.stream, true) := by
  obtain ⟨f, q, htake, hq, hsend⟩ := h.take hpos
  rw [htake, Option.map_some, hq]
  exact ⟨_, rfl, rfl, fun _ => hsend res _ hg⟩

theorem Framed.runs_sendFile {ring : List Frame} (h : p.Framed ring) (hpos : 0 < p.stream.readable) :
    ∃ f q, p.take = some (f, q) ∧ Runs (some (q.sendFile f)) (match p.stream.sendFile with
      | none => (p.stream, false)
      | some s => (s, true)) := by
  obtain ⟨f, q, htake, hq, hsend⟩ := h.take hpos
  refine ⟨f, q, htake, ?_⟩
  rw [sendFile, hq]
  cases hfile : p.stream.sendFile with
  | none => exact runs_stop rfl
  | some s => exact ⟨_, rfl, rfl, fun _ => hsend false s (sendFile_control hfile)⟩

theorem Framed.runs_recvFile {ring : List Frame} (h : p.Framed ring) (hpos : 0 < p.stream.readable)
    (list : List Piece) :
    Runs (p.recvFile list) (p.stream.recvFile list) := by
  cases list with
  | nil =>
    rw [recvFile, Stream.recvFile]
    split
    · exact runs_stop rfl
    · exact h.runs_send hpos false (fun s => { s.send .reqList with listPos := 0, listSize := 0 }) rfl
  | cons piece list =>
    exact ⟨_, rfl, rfl, fun _ => ⟨ring, h.congr (recvPieces_control p.stream (piece :: list))⟩⟩

theorem Framed.runs_uploadList {ring : List Frame} (h : p.Framed ring) (hpos : 0 < p.stream.readable) :
    Runs p.xlioUploadList p.stream.xlioUploadList := by
  rw [xlioUploadList, Stream.xlioUploadList]
  split
  · split
    · obtain ⟨f, q, htake, hruns⟩ := h.runs_sendFile hpos
      rw [htake]
      exact hruns
    · split
      · exact runs_stop rfl
      · exact h.runs_send hpos false
          (fun s => { s.send (.uploadList []) with uploadList := false, listPos := 0, listSize := 0 }) rfl
  · exact h.runs

theorem Framed.runs_sendFrames {frames : Nat} {ring : List Frame} (h : p.Framed ring)
    (hframes : p.stream.readable = frames) :
    Runs (sendFrames frames p) (p.stream.sendFrames frames) := by
  induction frames generalizing p ring with
  | zero => exact h.runs
  | succ frames ih =>
    have hpos : 0 < p.stream.readable := by rw [hframes]; exact Nat.succ_pos _
    have hfree : p.buf.readable ≠ 0 := fun hzero => Nat.ne_of_gt hpos (h.empty_iff.mp hzero)
    rw [sendFrames, Stream.sendFrames]
    by_cases hlist : p.stream.listPos < p.stream.listSize
    · rw [if_pos ⟨hlist, hfree⟩, if_pos hlist]
      obtain ⟨f, q, htake, r, hsend, hstream, hframed⟩ := h.runs_sendFile hpos
      rw [htake]
      simp only [Option.some.injEq] at hsend
      simp only [hsend]
      cases hfile : p.stream.sendFile with
      | none =>
        rw [hfile] at hstream
        exact runs_stop hstream
      | some s =>
        rw [hfile] at hstream hframed
        obtain ⟨ring', hring'⟩ := hframed rfl
        simp only at hstream ⊢
        rw [← hstream]
        refine ih hring' ?_
        have hcontrol := congrArg Control.readable (sendFile_control hfile)
        rw [hstream]
        refine hcontrol.trans ?_
        rw [show (p.stream.control.send false).readable = p.stream.readable - 1 from rfl, hframes]
        exact Nat.add_sub_cancel ..
    · rw [if_neg fun hboth => hlist hboth.1, if_neg hlist]
      exact h.runs

theorem Framed.runs_recvFrame {ring : List Frame} (h : p.Framed ring) (hpos : 0 < p.stream.readable) (m : Msg) :
    Runs (p.xlioRecvFrame m) (p.stream.xlioRecvFrame m) := by
  cases m with
  | reqList =>
    exact h.runs_send hpos false (fun s => s.answer.1.send (.resList s.answer.2))
      (congrArg (Control.send · false) (answer_control p.stream))
  | resList list =>
    cases list with
    | nil => exact h.runs_send hpos true (fun s => s.send .res) rfl
    | cons e list =>
      obtain ⟨f, q, htake, hq, hsend⟩ := h.take hpos
      have hcheck := checkList_control p.stream (e :: list)
      rw [xlioRecvFrame, Stream.xlioRecvFrame, htake, Option.map_some]
      dsimp only
      rw [hq]
      generalize p.stream.checkList (e :: list) = checked at hcheck ⊢
      obtain ⟨r, ok⟩ := checked
      cases ok with
      | false => exact runs_stop rfl
      | true =>
        dsimp only
        split
        · exact ⟨_, rfl, rfl, fun _ => hsend false _ (congrArg (Control.send · false) hcheck)⟩
        · exact ⟨_, rfl, rfl, fun _ => hsend false _ (congrArg (Control.send · false) hcheck)⟩
  | downloadList size list =>
    rw [xlioRecvFrame, Stream.xlioRecvFrame]
    split
    · exact runs_stop rfl
    · cases list with
      | nil => exact ⟨_, rfl, rfl, fun _ => ⟨ring, h.congr rfl⟩⟩
      | cons e list =>
        rw [h.buf_readable]
        exact (h.congr (s := { p.stream with uploadList := true, listSize := size, uploadParser := e :: list }) rfl).runs_sendFrames
          rfl
  | uploadList list => exact h.runs_recvFile hpos list
  | res => exact h.runs

/-! ### Runs -/

/-- A step that comes to its end as on the stream alone, with a window unless the stream was freed. -/
def Steps (r : Option Pool) (s : Stream) : Prop :=
  ∃ q, r = some q ∧ q.stream = s ∧ (s.freed = false → ∃ ring, q.Framed ring)

theorem Runs.settle {r : Option (Pool × Bool)} {r' : Stream × Bool} (h : Runs r r') :
    Steps (r.map Pool.settle) (Xlio.settle r') := by
  obtain ⟨q, hr, hstream, hframed⟩ := h
  obtain ⟨s, ok⟩ := r'
  rw [hr]
  refine ⟨_, rfl, congrArg (fun s => Xlio.settle (s, ok)) hstream, fun hfree => ?_⟩
  obtain ⟨ring, hring⟩ := hframed (by simpa [Xlio.settle] using hfree)
  exact ⟨ring, hring.congr rfl⟩

theorem Steps.setRecvFrame {r : Option Pool} {s : Stream} (h : Steps r s) (m : Option Msg) :
    Steps (r.map (Pool.setRecvFrame m)) { s with recvFrame := m } := by
  obtain ⟨q, hr, hstream, hframed⟩ := h
  rw [hr, ← hstream]
  refine ⟨_, rfl, rfl, fun hfree => ?_⟩
  obtain ⟨ring, hring⟩ := hframed (hstream ▸ hfree)
  exact ⟨ring, hring.window, hring.readable, hring.out⟩

theorem Steps.setFreed {r : Option Pool} {s : Stream} (h : Steps r s) (res : Bool) :
    Steps (r.map fun p => Pool.setFreed (p.stream.freed || res) p) { s with freed := s.freed || res } := by
  obtain ⟨q, hr, hstream, hframed⟩ := h
  rw [hr, ← hstream]
  refine ⟨_, rfl, rfl, fun hfree => ?_⟩
  obtain ⟨ring, hring⟩ := hframed (by rw [← hstream]; exact (Bool.or_eq_false_iff.mp hfree).1)
  exact ⟨ring, hring.congr rfl⟩

theorem Framed.steps {ring : List Frame} (h : p.Framed ring) : Steps (some p) p.stream :=
  ⟨p, rfl, rfl, fun _ => ⟨ring, h⟩⟩

theorem Framed.recv {ring : List Frame} (h : p.Framed ring) (m : Msg) : Steps (p.recv m) (p.stream.recv m) := by
  rw [Pool.recv, Stream.recv_eq]
  split
  · exact ⟨_, rfl, rfl, fun _ => ⟨ring, h.congr rfl⟩⟩
  · by_cases hzero : p.stream.readable = 0
    · rw [if_pos (h.empty_iff.mpr hzero), if_pos hzero]
      exact ⟨_, rfl, rfl, fun _ => ⟨ring, h.window, h.readable, h.out⟩⟩
    · rw [if_neg fun hempty => hzero (h.empty_iff.mp hempty), if_neg hzero]
      exact (h.runs_recvFrame (Nat.pos_of_ne_zero hzero) m).settle

/-- The branch of `Stream.back` after the frame is counted. -/
def wakeStream (s : Stream) : Stream :=
  match s.recvFrame with
  | some m => { Xlio.settle (s.xlioRecvFrame m) with recvFrame := leftHeld m }
  | none => if s.upload then Xlio.settle s.xlioUploadList else s

theorem Framed.wake {ring : List Frame} (h : p.Framed ring) (hpos : 0 < p.stream.readable) :
    Steps p.wake (wakeStream p.stream) := by
  rw [Pool.wake, wakeStream]
  cases p.stream.recvFrame with
  | none =>
    dsimp only
    split
    · exact (h.runs_uploadList hpos).settle
    · exact h.steps
  | some m => exact (h.runs_recvFrame hpos m).settle.setRecvFrame (leftHeld m)

theorem Framed.back {ring : List Frame} (h : p.Framed ring) : Steps p.back p.stream.back := by
  have hout := h.out
  have hwindow := h.window
  rw [Pool.back]
  cases hflight : p.flight with
  | nil =>
    rw [hflight] at hout
    rw [Stream.back_eq, hout]
    exact h.steps
  | cons f flight =>
    rw [hflight] at hout hwindow
    obtain ⟨-, -, hback⟩ := hwindow.resave
    have hframed : Framed ⟨{ p.stream with out := p.stream.out.tail, readable := p.stream.readable + 1 },
        p.buf.resave f, flight⟩ (ring ++ [f]) := by
      refine ⟨hback, ?_, congrArg List.tail hout⟩
      rw [List.length_append, List.length_singleton]
      exact congrArg (· + 1) h.readable
    have hstream : p.stream.back =
        let s := wakeStream { p.stream with out := p.stream.out.tail, readable := p.stream.readable + 1 }
        { s with freed := s.freed || f.res } := by
      rw [Stream.back_eq, hout]
      rfl
    rw [hstream]
    exact (hframed.wake (Nat.succ_pos _)).setFreed f.res

theorem Framed.post {ring : List Frame} (h : p.Framed ring) :
    Steps p.post (if p.stream.readable = 0 then p.stream else p.stream.send .reqList) := by
  rw [Pool.post]
  by_cases hzero : p.stream.readable = 0
  · rw [if_pos (h.empty_iff.mpr hzero), if_pos hzero]
    exact h.steps
  · rw [if_neg fun hempty => hzero (h.empty_iff.mp hempty), if_neg hzero]
    obtain ⟨f, q, htake, hq, hsend⟩ := h.take (Nat.pos_of_ne_zero hzero)
    rw [htake, Option.map_some, ← hq]
    exact ⟨_, rfl, rfl, fun _ => hsend false _ (by rw [hq]; rfl)⟩

theorem Framed.step {ring : List Frame} (h : p.Framed ring) (e : PoolEvent) : Steps (p.step e) (p.stream.step e) := by
  rw [Pool.step.eq_def, Stream.step.eq_def]
  split
  · exact h.steps
  · cases e with
    | recv m => exact h.recv m
    | back => exact h.back
    | post => exact h.post

end Pool

end Wenas.Xlio
