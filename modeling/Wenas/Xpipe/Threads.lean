import Wenas.Xpipe.Pipe

/-!
# Threads that write to and read from a pipe

`xpipe_write` and `xpipe_read` as step machines over the mutex, its condition variable, the flags
`rblock` and `wblock` and the pipe. One thread reads, any number of threads write. Each place of the
program text where a thread touches something shared is a step of its own; which thread moves, whether
a try-lock of `__xpipe_write` or `__xpipe_read` fails and which waiter a notification wakes is decided
from outside.
-/
namespace Wenas.Xpipe

open Wenas.Machine

inductive Tid where
  | reader
  | writer (n : Nat)
  deriving DecidableEq

inductive Flag where
  | rblock
  | wblock
  deriving DecidableEq

/-- The flag a thread keeps while it is blocked. -/
def Tid.own : Tid → Flag
  | .reader => .rblock
  | .writer _ => .wblock

/-- The flag that tells whether the other side is blocked. -/
def Tid.other : Tid → Flag
  | .reader => .wblock
  | .writer _ => .rblock

/-- Where a thread stands in `xpipe_write` or `xpipe_read`. -/
inductive Pc where
  /-- outside -/
  | idle
  /-- the condition of the loop -/
  | head
  /-- `__xpipe_write` or `__xpipe_read` -/
  | transfer
  /-- `pos != len` -/
  | whole
  /-- `mutex_lock` before blocking -/
  | lock
  /-- `!pipe->breaker` -/
  | intact
  /-- `mutex_notify` before blocking -/
  | notify
  /-- `__atom_lock` of the own flag -/
  | spin
  /-- is the pipe full, or empty -/
  | test
  /-- in `mutex_wait` -/
  | wait
  /-- notified, and not yet back from `mutex_wait` -/
  | woken
  /-- `__atom_unlock` of the own flag -/
  | unflag
  /-- `mutex_unlock` after blocking -/
  | unlock
  /-- `mutex_unlock` of a reader that found the pipe broken -/
  | giveUp
  /-- `__atom_try_lock` of the other flag -/
  | tryFlag
  /-- `__atom_unlock` of the other flag -/
  | dropFlag
  /-- `mutex_lock` before waking the other side -/
  | lockWake
  /-- `mutex_notify` for the other side -/
  | wake
  /-- `mutex_unlock` after waking the other side -/
  | unlockWake
  deriving DecidableEq

/-- A call in progress. `data` are the bytes a writer writes, or those a reader has got so far. -/
structure Thread where
  pc : Pc
  data : List UInt8
  len : UInt64
  pos : UInt64

/-- `moved` records what each `__xpipe_write` and `__xpipe_read` transferred, `written` the data of the
writes whose last byte is in the pipe, `returned` what `xpipe_read` returned. -/
structure System where
  pipe : Pipe
  breaker : Bool
  mutex : Option Tid
  flags : Flag → Bool
  waiters : List Tid
  threads : Tid → Thread
  moved : List (List UInt8)
  written : List (List UInt8)
  returned : List (List UInt8)

def System.create (len : UInt64) (buf : Nat → UInt8) : System :=
  ⟨xpipeCreate len buf, false, none, fun _ => false, [], fun _ => ⟨.idle, [], 0, 0⟩, [], [], []⟩

def System.set (s : System) (t : Tid) (th : Thread) : System := { s with threads := Function.update s.threads t th }

def System.go (s : System) (t : Tid) (pc : Pc) : System := s.set t { s.threads t with pc := pc }

def System.raise (s : System) (f : Flag) (b : Bool) : System := { s with flags := Function.update s.flags f b }

/-- `mutex_notify` wakes one waiter, if there is one. -/
def System.signal (s : System) (pick : Nat) : System :=
  match s.waiters[pick % s.waiters.length]? with
  | none => s
  | some u => { s.go u .woken with waiters := s.waiters.filter (· ≠ u) }

/-- A thread that needs the mutex waits until it is free. -/
def System.acquire (s : System) (t : Tid) (pc : Pc) : System :=
  if s.mutex = none then { s.go t pc with mutex := some t } else s

def System.release (s : System) (t : Tid) (pc : Pc) : System := { s.go t pc with mutex := none }

/-- The call returns. -/
def System.finish (s : System) (t : Tid) : System :=
  match t with
  | .reader => { s.go t .idle with returned := s.returned ++ [(s.threads t).data] }
  | .writer _ => s.go t .idle

/-- The condition under which a thread blocks. -/
def System.blocked (s : System) : Tid → Bool
  | .reader => xpipeReadable s.pipe = 0
  | .writer _ => xpipeWritable s.pipe = 0

/-- The condition of the loop; only `xpipe_write` looks at `breaker` here. -/
def System.continues (s : System) (t : Tid) : Bool :=
  match t with
  | .reader => (s.threads t).pos < (s.threads t).len
  | .writer _ => !s.breaker && (s.threads t).pos < (s.threads t).len

def System.transfer (s : System) (t : Tid) (locked : Bool) : System :=
  let th := s.threads t
  match t with
  | .writer _ =>
    let r := xpipeWriteOnce locked (th.data.drop th.pos.toNat) (th.len - th.pos) s.pipe
    { s.set t { th with pos := th.pos + r.1, pc := .whole } with
      pipe := r.2
      moved := s.moved ++ [(th.data.drop th.pos.toNat).take r.1.toNat]
      written := if th.pos + r.1 = th.len then s.written ++ [th.data] else s.written }
  | .reader =>
    let r := xpipeReadOnce locked (th.len - th.pos) s.pipe
    { s.set t { th with data := th.data ++ r.1, pos := th.pos + UInt64.ofNat r.1.length, pc := .whole } with
      pipe := r.2
      moved := s.moved ++ [r.1] }

/-- Thread `t` moves. A thread that cannot go on stays where it is. -/
def System.step (s : System) (t : Tid) (locked : Bool) (pick : Nat) : System :=
  match (s.threads t).pc with
  | .idle => s
  | .head => if s.continues t then s.go t .transfer else s.finish t
  | .transfer => s.transfer t locked
  | .whole => if (s.threads t).pos ≠ (s.threads t).len then s.go t .lock else s.go t .tryFlag
  | .lock => s.acquire t .intact
  | .intact =>
    if !s.breaker then s.go t .notify
    else
      match t with
      | .reader => s.go t .giveUp
      | .writer _ => s.go t .unlock
  | .notify => (s.signal pick).go t .spin
  | .spin => if s.flags t.own then s else (s.raise t.own true).go t .test
  | .test =>
    if s.blocked t then { s.release t .wait with waiters := s.waiters ++ [t] }
    else s.go t .unflag
  | .wait => s
  | .woken => s.acquire t .unflag
  | .unflag => (s.raise t.own false).go t .unlock
  | .unlock => s.release t .head
  | .giveUp => { s.finish t with mutex := none }
  | .tryFlag => if s.flags t.other then s.go t .lockWake else (s.raise t.other true).go t .dropFlag
  | .dropFlag => (s.raise t.other false).finish t
  | .lockWake => s.acquire t .wake
  | .wake => (s.signal pick).go t .unlockWake
  | .unlockWake => { s.finish t with mutex := none }

/-- `xpipe_break`, between its `mutex_lock` and its `mutex_unlock`. -/
def System.interrupt (s : System) : System :=
  if s.mutex = none then
    { s with
      breaker := true
      waiters := []
      threads := fun t => if t ∈ s.waiters then { s.threads t with pc := .woken } else s.threads t }
  else s

inductive Act where
  /-- an idle thread calls `xpipe_write` -/
  | write (n : Nat) (d : Block)
  /-- the idle reader calls `xpipe_read` -/
  | read (len : UInt64)
  | step (t : Tid) (locked : Bool) (pick : Nat)
  | interrupt

def System.act (s : System) : Act → System
  | .write n d => if (s.threads (.writer n)).pc = .idle then s.set (.writer n) ⟨.head, d.bytes, d.len, 0⟩ else s
  | .read len => if (s.threads .reader).pc = .idle then s.set .reader ⟨.head, [], len, 0⟩ else s
  | .step t locked pick => s.step t locked pick
  | .interrupt => s.interrupt

section

variable (s : System) (t u : Tid) (pc : Pc) (th : Thread)

@[simp] theorem set_threads : (s.set t th).threads u = if u = t then th else s.threads u := Function.update_apply ..

@[simp] theorem go_threads :
    (s.go t pc).threads u = if u = t then { s.threads t with pc := pc } else s.threads u := Function.update_apply ..

@[simp] theorem go_mutex : (s.go t pc).mutex = s.mutex := rfl
@[simp] theorem go_waiters : (s.go t pc).waiters = s.waiters := rfl
@[simp] theorem go_breaker : (s.go t pc).breaker = s.breaker := rfl
@[simp] theorem go_pipe : (s.go t pc).pipe = s.pipe := rfl
@[simp] theorem go_moved : (s.go t pc).moved = s.moved := rfl
@[simp] theorem go_written : (s.go t pc).written = s.written := rfl
@[simp] theorem go_returned : (s.go t pc).returned = s.returned := rfl

@[simp] theorem raise_threads (f : Flag) (b : Bool) : (s.raise f b).threads = s.threads := rfl
@[simp] theorem raise_mutex (f : Flag) (b : Bool) : (s.raise f b).mutex = s.mutex := rfl
@[simp] theorem raise_waiters (f : Flag) (b : Bool) : (s.raise f b).waiters = s.waiters := rfl
@[simp] theorem raise_breaker (f : Flag) (b : Bool) : (s.raise f b).breaker = s.breaker := rfl

/-- A notification moves one thread out of the queue, or does nothing. -/
theorem signal_cases (pick : Nat) :
    s.signal pick = s ∨ ∃ u ∈ s.waiters, s.signal pick =
      { s.go u .woken with waiters := s.waiters.filter (· ≠ u) } := by
  rw [System.signal]
  split
  · exact Or.inl rfl
  · rename_i u hu
    exact Or.inr ⟨u, List.mem_of_getElem? hu, rfl⟩

/-- A thread that does not wait is not woken. -/
theorem signal_self {s : System} {t : Tid} (hqueued : ∀ u ∈ s.waiters, (s.threads u).pc = .wait)
    (hout : (s.threads t).pc ≠ .wait) (pick : Nat) : (s.signal pick).threads t = s.threads t := by
  rcases signal_cases s pick with he | ⟨u, hu, he⟩
  · rw [he]
  · have hne : t ≠ u := by
      intro htu
      subst htu
      exact hout (hqueued t hu)
    rw [he]
    simp [hne]

end

end Wenas.Xpipe
