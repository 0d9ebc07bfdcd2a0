import Wenas.Lib.Machine
import Wenas.Xlio.Control

/-!
# The messages that `xlio_loop` passes on

A message that finds no frame free is kept in `recv_frame`, which holds one message only, and which still holds a
`DOWNLOAD_LIST` after it was passed.
-/
namespace Wenas.Xlio
open Wenas.Machine

/-- A stream with the messages that have come, those that the turns of the loop have passed to `xlio_recv_frame`, and the
one kept that has not been passed yet. -/
structure Inbox where
  stream : Stream
  arrived : List Msg
  passed : List Msg
  waiting : Option Msg

inductive LoopEvent where
  | recv (m : Msg) (msg : m.isRes = false)
  | back

/-- A message that its turn does not pass has to wait. -/
def Inbox.recv (s : Inbox) (m : Msg) : Inbox where
  stream := (s.stream.onRecv m).1
  arrived := s.arrived ++ [m]
  passed := s.passed ++ (s.stream.onRecv m).2
  waiting := if (s.stream.onRecv m).2.isEmpty then some m else s.waiting

def Inbox.back (s : Inbox) : Inbox where
  stream := s.stream.onBack.1
  arrived := s.arrived
  passed := s.passed ++ s.stream.onBack.2
  waiting := if s.stream.onBack.2.isEmpty then s.waiting else none

/-- Messages for a stream that was freed are dropped. -/
def Inbox.step (s : Inbox) (e : LoopEvent) : Inbox :=
  if s.stream.freed then s
  else match e with
  | .recv m _ => s.recv m
  | .back => s.back

def Inbox.start (s : Stream) : Inbox := ⟨s, [], [], none⟩

/-- A message comes when none is waiting, and a frame comes back when what `recv_frame` holds has not been passed. -/
def InTime (s : Inbox) : LoopEvent → Prop
  | .recv .. => s.waiting = none
  | .back => s.stream.recvFrame = none ∨ s.waiting.isSome

instance (s : Inbox) : (e : LoopEvent) → Decidable (InTime s e)
  | .recv .. => inferInstanceAs (Decidable (s.waiting = none))
  | .back => inferInstanceAs (Decidable (_ ∨ _))

/-- Messages are passed in the order they come, and the one that waits is in `recv_frame`. -/
structure Inbox.InOrder (s : Inbox) : Prop where
  passed : s.passed ++ s.waiting.toList = s.arrived
  kept : ∀ m, s.waiting = some m → s.stream.recvFrame = some m
  busy : s.waiting.isSome → s.stream.readable = 0

theorem onRecv_kept {s : Stream} {m : Msg} (hmsg : m.isRes = false) (hzero : s.readable = 0) :
    s.onRecv m = ({ s with recvFrame := some m }, []) := by
  rw [Stream.onRecv, hmsg, if_neg Bool.false_ne_true, if_pos hzero]

theorem onRecv_passed {s : Stream} {m : Msg} (hmsg : m.isRes = false) (hroom : s.readable ≠ 0) :
    (s.onRecv m).2 = [m] := by
  rw [Stream.onRecv, hmsg, if_neg Bool.false_ne_true, if_neg hroom, Stream.pass]

/-- A frame that comes back has what `recv_frame` holds passed. -/
theorem onBack_passed {s : Stream} (hout : s.out ≠ []) : s.onBack.2 = s.recvFrame.toList := by
  rw [Stream.onBack]
  cases hcases : s.out with
  | nil => exact absurd hcases hout
  | cons isRes out => cases s.recvFrame <;> rfl

theorem onBack_idle {s : Stream} (hout : s.out = []) : s.onBack = (s, []) := by
  rw [Stream.onBack, hout]

namespace Inbox.InOrder

variable {s : Inbox} {m : Msg}

theorem recv (h : s.InOrder) (hmsg : m.isRes = false) (hwait : s.waiting = none) : (s.recv m).InOrder := by
  have hpassed := h.passed
  rw [hwait, Option.toList_none, List.append_nil] at hpassed
  by_cases hzero : s.stream.readable = 0
  · have hkept := onRecv_kept hmsg hzero
    refine ⟨?_, fun m' hm' => ?_, fun _ => ?_⟩
    · simp [Inbox.recv, hkept, hpassed]
    · simp only [Inbox.recv, hkept, List.isEmpty_nil, if_true, Option.some.injEq] at hm'
      rw [← hm', Inbox.recv, hkept]
    · rw [Inbox.recv, hkept]
      exact hzero
  · have hnow := onRecv_passed hmsg hzero
    refine ⟨?_, fun m' hm' => ?_, fun hsome => ?_⟩
    · simp [Inbox.recv, hnow, hwait, hpassed]
    · simp [Inbox.recv, hnow, hwait] at hm'
    · simp [Inbox.recv, hnow, hwait] at hsome

theorem back_passed (h : s.InOrder) (hkeep : s.stream.recvFrame = none ∨ s.waiting.isSome) :
    s.passed ++ s.stream.recvFrame.toList = s.arrived := by
  rw [← h.passed]
  congr 2
  cases hwait : s.waiting with
  | none => exact hkeep.resolve_right (by simp [hwait])
  | some m => exact h.kept m hwait

/-- After a turn that passed what was kept, nothing waits. -/
theorem back_waiting (h : s.InOrder) (hout : s.stream.out ≠ []) : s.back.waiting = none := by
  rw [Inbox.back, onBack_passed hout]
  cases hwait : s.waiting with
  | none => simp
  | some m => simp [h.kept m hwait]

theorem back (h : s.InOrder) (hkeep : s.stream.recvFrame = none ∨ s.waiting.isSome) : s.back.InOrder := by
  by_cases hout : s.stream.out = []
  · have hsame : s.back = s := by simp [Inbox.back, onBack_idle hout]
    rwa [hsame]
  · have hwait := h.back_waiting hout
    refine ⟨?_, fun _ hm => ?_, fun hsome => ?_⟩
    · rw [hwait, Option.toList_none, List.append_nil, Inbox.back, onBack_passed hout]
      exact h.back_passed hkeep
    · rw [hwait] at hm
      cases hm
    · rw [hwait] at hsome
      cases hsome

theorem step {e : LoopEvent} (h : s.InOrder) (htime : InTime s e) : (s.step e).InOrder := by
  rw [Inbox.step.eq_def]
  split
  · exact h
  · cases e with
    | recv m msg => exact h.recv msg htime
    | back => exact h.back htime

end Inbox.InOrder

end Wenas.Xlio
