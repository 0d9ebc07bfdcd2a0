import Wenas.Xlio.Stream

/-!
# What the loop sees of a stream

The handlers change the frames of a stream by sending only, and leave the message that waits to `xlio_loop`.
-/
namespace Wenas.Xlio

/-- The fields that `xlio_loop` looks at. -/
structure Control where
  upload : Bool
  readable : Nat
  out : List Bool
  recvFrame : Option Msg

def Stream.control (s : Stream) : Control := ⟨s.upload, s.readable, s.out, s.recvFrame⟩

/-- A frame that is sent. -/
def Control.send (c : Control) (res : Bool) : Control := { c with readable := c.readable - 1, out := c.out ++ [res] }

theorem each_control {σ α β : Type} {f : σ → α → σ × Bool} {g : σ → β} (h : ∀ s a, g (f s a).1 = g s)
    (as : List α) (s : σ) : g (each f as s).1 = g s := by
  induction as generalizing s with
  | nil => rfl
  | cons a as ih =>
    have ha := h s a
    rw [each]
    split
    · rename_i t ht
      rw [ht] at ha
      exact ha
    · rename_i t ht
      rw [ht] at ha
      exact (ih t).trans ha

theorem readPart_control (s : Stream) (e : Entry) (wpos : Nat) :
    (s.readPart e wpos).stream.control = s.control := by
  simp only [Stream.readPart]
  split_ifs <;> rfl

theorem openRead_control {s t : Stream} {p : Path} (h : s.openRead p = some t) : t.control = s.control := by
  rw [Stream.openRead] at h
  split at h
  · cases h
    rfl
  · obtain ⟨_, -, rfl⟩ := Option.map_eq_some_iff.mp h
    rfl

theorem sendObj_control {s : Stream} {wpos : Nat} {t : Turn} (h : s.sendObj wpos = some t) :
    t.stream.control = s.control := by
  rw [Stream.sendObj] at h
  split at h
  · cases h
    rfl
  · dsimp only at h
    split_ifs at h
    · cases h
      rfl
    · obtain ⟨v, hv, rfl⟩ := Option.map_eq_some_iff.mp h
      rw [readPart_control, openRead_control hv]
      rfl
    · cases h
      rfl

theorem sendLoop_control {s t : Stream} {rest : List Entry} {wpos : Nat} {ps : List Piece}
    (h : Stream.sendLoop rest s wpos = some (t, ps)) : t.control = s.control := by
  induction rest generalizing s wpos ps with
  | nil =>
    rw [Stream.sendLoop.eq_def] at h
    dsimp only at h
    split at h
    · cases h
    · rename_i v hv
      split_ifs at h
      all_goals
        cases h
        exact sendObj_control hv
  | cons e rest ih =>
    rw [Stream.sendLoop.eq_def] at h
    dsimp only at h
    split at h
    · cases h
    · rename_i v hv
      split_ifs at h
      · obtain ⟨⟨t', ps'⟩, hrest, heq⟩ := Option.map_eq_some_iff.mp h
        cases heq
        exact (ih hrest).trans (sendObj_control hv)
      · cases h
        exact sendObj_control hv

theorem openWrite_control (s : Stream) (p : Piece) : (s.openWrite p).1.control = s.control := by
  rw [Stream.openWrite]
  split
  · rfl
  · split_ifs
    all_goals
      split
      all_goals rfl

theorem writePart_control (s : Stream) (bytes : List UInt8) : (s.writePart bytes).control = s.control := by
  simp only [Stream.writePart]
  split_ifs
  all_goals
    split
    all_goals rfl

theorem recvPiece_control (s : Stream) (p : Piece) : (s.recvPiece p).1.control = s.control := by
  have hopen := openWrite_control { s with fileSize := p.size } p
  rw [Stream.recvPiece]
  split
  · rename_i t ht
    rw [ht] at hopen
    exact hopen
  · rename_i t ht
    rw [ht] at hopen
    exact (writePart_control _ _).trans hopen

theorem checkEntry_control (r : Stream × List Entry) (e : Entry) :
    (checkEntry r e).1.1.control = r.1.control := by
  rw [checkEntry]
  split_ifs
  · rfl
  · rfl
  · rfl
  · split
    · rfl
    · rfl

theorem scanLoop_control (s : Stream) (sc : Scanner) (i : Item) (room : Nat) :
    (s.scanLoop sc i room).1.control = s.control := by
  induction room using Nat.strong_induction_on generalizing s sc i with
  | _ room ih =>
    rw [Stream.scanLoop]
    split
    · rfl
    · rename_i hroom
      dsimp only
      split
      · rfl
      · refine (ih _ ?_ _ _ _).trans rfl
        simp only [Entry.lineSize, keyed, xlineSize] at hroom ⊢
        omega

theorem answer_control (s : Stream) : s.answer.1.control = s.control := by
  rw [Stream.answer]
  split
  · rw [Stream.scanDir]
    split
    · exact scanLoop_control _ _ _ _
    · split
      · rfl
      · exact scanLoop_control _ _ _ _
  · split_ifs
    · rfl
    · rfl

theorem checkList_control (s : Stream) (list : List Entry) : (s.checkList list).1.1.control = s.control :=
  each_control (g := fun r => r.1.control) checkEntry_control list (s, [])

theorem recvPieces_control (s : Stream) (list : List Piece) : (each Stream.recvPiece list s).1.control = s.control :=
  each_control (g := Stream.control) recvPiece_control list s

theorem sendFile_control {s t : Stream} (h : s.sendFile = some t) : t.control = s.control.send false := by
  obtain ⟨⟨v, ps⟩, hv, rfl⟩ := Option.map_eq_some_iff.mp h
  exact congrArg (Control.send · false) (sendLoop_control hv)

theorem sendFrames_recvFrame (frames : Nat) (s : Stream) : (s.sendFrames frames).1.recvFrame = s.recvFrame := by
  induction frames generalizing s with
  | zero => rfl
  | succ frames ih =>
    rw [Stream.sendFrames]
    split
    · split
      · rfl
      · rename_i t ht
        exact (ih t).trans (congrArg Control.recvFrame (sendFile_control ht))
    · rfl

theorem xlioRecvFrame_recvFrame (s : Stream) (m : Msg) : (s.xlioRecvFrame m).1.recvFrame = s.recvFrame := by
  cases m with
  | reqList => exact congrArg Control.recvFrame (answer_control s)
  | resList list =>
    cases list with
    | nil => rfl
    | cons e list =>
      have hcheck := congrArg Control.recvFrame (checkList_control s (e :: list))
      rw [Stream.xlioRecvFrame]
      split
      · rename_i r hr
        rw [hr] at hcheck
        exact hcheck
      · rename_i r hr
        rw [hr] at hcheck
        split_ifs
        · exact hcheck
        · exact hcheck
  | downloadList size list =>
    rw [Stream.xlioRecvFrame]
    split_ifs
    · rfl
    · cases list with
      | nil => rfl
      | cons e list => exact sendFrames_recvFrame _ _
  | uploadList list =>
    cases list with
    | nil =>
      rw [Stream.xlioRecvFrame, Stream.recvFile]
      split_ifs
      · rfl
      · rfl
    | cons p list => exact congrArg Control.recvFrame (recvPieces_control s (p :: list))
  | res => rfl

theorem xlioUploadList_recvFrame (s : Stream) : s.xlioUploadList.1.recvFrame = s.recvFrame := by
  rw [Stream.xlioUploadList]
  split_ifs
  · split
    · rfl
    · rename_i t ht
      exact congrArg Control.recvFrame (sendFile_control ht)
  · rfl
  · rfl
  · rfl

end Wenas.Xlio
