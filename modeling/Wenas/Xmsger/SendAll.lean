import Wenas.Xmsger.Sides

/-!
# The pass over the send list

`xmsger_send_all` visits each channel once: a pack is sent when its turn has come, and the oldest outstanding pack is
resent when its time is up. What the next turn and the next timeout are away lowers the timer, and `udp_listen` waits so
long for the next datagram.
-/
namespace Wenas.Xmsger

open Wenas.Serial

def xpackPsfDefault : UInt64 := 100000
def xchannelTimedoutLimit : UInt64 := 10
def nanoSeconds : UInt64 := 1000000000

/-- A channel of the send list, and whether its timeout has been reported by `on_message_timedout`. -/
structure Listed where
  chan : Channel
  timedout : Bool

/-- What the outside answers while one channel is visited: the clock at its begin, in `xchannel_send_pack` and before
the timeouts, and whether the datagrams get out. -/
structure Visit where
  now : UInt64
  sent : UInt64
  sentOk : Bool
  later : UInt64
  resentOk : Bool

/-- The time until the next pack may be sent. -/
def Channel.sendDelay (now : UInt64) (c : Channel) : Int64 :=
  if 0 < c.psf then (c.psf - (now - c.sendTs)).toInt64 else (xpackPsfDefault - (now - c.sendTs)).toInt64

/-- The time of the last acknowledgement, or of the last pack if there was none. -/
def Channel.lastTs (c : Channel) : UInt64 := if 0 < c.ackTs then c.ackTs else c.sendTs

/-- The time until the oldest outstanding pack is resent. -/
def Channel.resendDelay (later : UInt64) (c : Channel) : Int64 :=
  ((c.sendbuf.buf c.sendbuf.rslot).timedout - (later - c.lastTs)).toInt64

/-- `if (msger->timer > delay) msger->timer = delay`, the delay converted to an unsigned number. -/
def lower (timer : UInt64) (delay : Int64) : UInt64 := if delay.toUInt64 < timer then delay.toUInt64 else timer

/-- The channel when its turn to send has come. -/
def Channel.pace (v : Visit) (c : Channel) : Channel :=
  if c.sendbuf.readable < c.threshold then xchannelSendPack v.sent v.sentOk c
  else if c.kabuf = 0 then { c with kabuf := v.now }
  else c

/-- The channel in the first half of its visit. -/
def Listed.first (v : Visit) (x : Listed) : Listed :=
  if 0 < x.chan.sendDelay v.now then x else { x with chan := x.chan.pace v }

/-- The last sign of life lies too long ago. -/
def overdue (later last : UInt64) : Bool := nanoSeconds * xchannelTimedoutLimit < later - last

/-- The second half, with the timer, and whether the loop goes on to the next channel. -/
def Listed.second (v : Visit) (timer : UInt64) (x : Listed) : UInt64 × Listed × Bool :=
  if 0 < x.chan.sendbuf.recvable then
    if 0 < x.chan.resendDelay v.later then (lower timer (x.chan.resendDelay v.later), x, true)
    -- the only way out of the loop
    else if overdue v.later x.chan.lastTs then (timer, { x with timedout := true }, false)
    else (timer, { x with chan := xchannelResend v.later v.resentOk x.chan }, true)
  else if x.chan.rpos = x.chan.wpos then
    (timer, if overdue v.later x.chan.recvTs then { x with timedout := true } else x, true)
  else (timer, x, true)

def Listed.visit (v : Visit) (timer : UInt64) (x : Listed) : UInt64 × Listed × Bool :=
  let delay := x.chan.sendDelay v.now
  (x.first v).second v (if 0 < delay then lower timer delay else timer)

/-- The timer and the channels behind a pass. -/
def xmsgerSendAll (timer : UInt64) : List (Visit × Listed) → UInt64 × List Listed
  | [] => (timer, [])
  | (v, x) :: rest =>
    let (timer, x, goes) := x.visit v timer
    if goes then
      let (timer, xs) := xmsgerSendAll timer rest
      (timer, x :: xs)
    else (timer, x :: rest.map Prod.snd)

/-- `struct timeval` -/
structure Timeval where
  tvSec : UInt64
  tvUsec : UInt64
  deriving DecidableEq, Repr

/-- What `udp_listen` asks `select` for. -/
def udpListen (microseconds : UInt64) : Timeval where
  tvSec := microseconds / 1000000
  tvUsec := microseconds &&& 1000000

/-! ### The delays -/

/-- The delays that are computed for one channel. -/
def Listed.delays (v : Visit) (x : Listed) : List Int64 :=
  x.chan.sendDelay v.now ::
    if 0 < (x.first v).chan.sendbuf.recvable then [(x.first v).chan.resendDelay v.later] else []

/-- The loop goes on behind the channel. -/
def Listed.goes (v : Visit) (x : Listed) : Bool := (x.visit v 0).2.2

/-- The delays that are computed for the channels visited. -/
def passDelays : List (Visit × Listed) → List Int64
  | [] => []
  | (v, x) :: rest => x.delays v ++ if x.goes v then passDelays rest else []

/-- That many microseconds, as seconds and a proper fraction. -/
def Timeval.Asks (t : Timeval) (microseconds : UInt64) : Prop :=
  t.tvSec.toNat * 1000000 + t.tvUsec.toNat = microseconds.toNat ∧ t.tvUsec.toNat < 1000000

instance (t : Timeval) (microseconds : UInt64) : Decidable (t.Asks microseconds) := inferInstanceAs (Decidable (_ ∧ _))

/-- The timer when a positive delay has been seen. -/
def noteDelay (timer : UInt64) (delay : Int64) : UInt64 := if 0 < delay then lower timer delay else timer

section

variable {v : Visit} {x : Listed} {timer : UInt64}

/-- Whether the loop goes on, and what becomes of the channel, does not depend on the timer. -/
theorem second_timer (v : Visit) (timer : UInt64) (x : Listed) : (x.second v timer).2 = (x.second v 0).2 := by
  unfold Listed.second
  split
  · split
    · rfl
    · split <;> rfl
  · split <;> rfl

theorem visit_timer (v : Visit) (timer : UInt64) (x : Listed) : (x.visit v timer).2 = (x.visit v 0).2 :=
  (second_timer v _ _).trans (second_timer v _ _).symm

theorem visit_goes : (x.visit v timer).2.2 = x.goes v := congrArg Prod.snd (visit_timer v timer x)

/-- The timer behind a visit. -/
theorem visit_fst (v : Visit) (timer : UInt64) (x : Listed) :
    (x.visit v timer).1 = (x.delays v).foldl noteDelay timer := by
  have hvisit : x.visit v timer = (x.first v).second v (noteDelay timer (x.chan.sendDelay v.now)) := rfl
  unfold Listed.delays
  rw [hvisit, List.foldl_cons]
  generalize noteDelay timer (x.chan.sendDelay v.now) = timer
  unfold Listed.second
  split
  · rw [List.foldl_cons, List.foldl_nil, noteDelay]
    split
    · rfl
    · split <;> rfl
  · split <;> rfl

/-- The timer behind a pass. -/
theorem sendAll_fst (timer : UInt64) (entries : List (Visit × Listed)) :
    (xmsgerSendAll timer entries).1 = (passDelays entries).foldl noteDelay timer := by
  induction entries generalizing timer with
  | nil => rfl
  | cons entry rest ih =>
    obtain ⟨v, x⟩ := entry
    have hvisit := visit_fst v timer x
    have hgoes : (x.visit v timer).2.2 = x.goes v := visit_goes
    rw [xmsgerSendAll, passDelays, List.foldl_append, ← hvisit, ← hgoes]
    by_cases hnext : (x.visit v timer).2.2 = true
    · simp only [hnext, if_true]
      exact ih _
    · simp only [hnext]
      rfl

/-- A positive delay is the same number signed and unsigned. -/
theorem toUInt64_toNat_of_pos {d : Int64} (h : 0 < d) : (d.toUInt64.toNat : Int) = d.toInt := by
  have hpos : 0 < d.toInt := Int64.lt_iff_toInt_lt.mp h
  have hsame : d.toUInt64.toNat = d.toBitVec.toNat := rfl
  have hint : d.toInt = d.toBitVec.toInt := rfl
  rw [hint] at hpos ⊢
  rw [hsame]
  rw [BitVec.toInt_eq_toNat_cond] at hpos ⊢
  split
  · rfl
  · rename_i hlarge
    rw [if_neg hlarge] at hpos
    have hlt := d.toBitVec.isLt
    omega

theorem noteDelay_least {s : Set Int} (h : IsLeast s (timer.toNat : Int)) (d : Int64) :
    IsLeast (s ∪ {z | 0 < d ∧ z = d.toInt}) ((noteDelay timer d).toNat : Int) := by
  unfold noteDelay lower
  split
  · rename_i hpos
    have hsame := toUInt64_toNat_of_pos hpos
    split
    · rename_i hlt
      rw [UInt64.lt_iff_toNat_lt] at hlt
      refine ⟨.inr ⟨hpos, hsame⟩, fun z hz => ?_⟩
      obtain hz | ⟨-, rfl⟩ := hz
      · have hle := h.2 hz
        omega
      · exact hsame.le
    · rename_i hnot
      rw [UInt64.lt_iff_toNat_lt] at hnot
      refine ⟨.inl h.1, fun z hz => ?_⟩
      obtain hz | ⟨-, rfl⟩ := hz
      · exact h.2 hz
      · omega
  · rename_i hnot
    refine ⟨.inl h.1, fun z hz => ?_⟩
    obtain hz | ⟨hpos, -⟩ := hz
    · exact h.2 hz
    · exact absurd hpos hnot

/-- The timer is the least of what it was and of the positive delays. -/
theorem noteDelays_least (delays : List Int64) {s : Set Int} (h : IsLeast s (timer.toNat : Int)) :
    IsLeast (s ∪ {z | ∃ d ∈ delays, 0 < d ∧ z = d.toInt}) ((delays.foldl noteDelay timer).toNat : Int) := by
  induction delays generalizing timer s with
  | nil => simpa using h
  | cons d delays ih =>
    have hnext := ih (noteDelay_least h d)
    have hsame : s ∪ {z | ∃ d' ∈ d :: delays, 0 < d' ∧ z = d'.toInt} =
        s ∪ {z | 0 < d ∧ z = d.toInt} ∪ {z | ∃ d ∈ delays, 0 < d ∧ z = d.toInt} := by
      ext z
      simp [or_assoc]
    rw [List.foldl_cons, hsame]
    exact hnext

end

/-! ### The wait -/

/-- Whole seconds are no trouble, and the rest is asked for when the mask leaves it as it is. -/
theorem listen_asks (microseconds : UInt64) :
    (udpListen microseconds).Asks microseconds ↔ microseconds % 1000000 = microseconds &&& 1000000 := by
  have hdiv := Nat.div_add_mod microseconds.toNat 1000000
  have hmod := Nat.mod_lt microseconds.toNat (Nat.succ_pos 999999)
  have hsec : (udpListen microseconds).tvSec.toNat = microseconds.toNat / 1000000 := by simp [udpListen]
  have hrest : (microseconds % 1000000).toNat = microseconds.toNat % 1000000 := by simp
  rw [Timeval.Asks, hsec, ← UInt64.toNat_inj, hrest]
  simp only [udpListen]
  omega

theorem listen_table : ∀ q < 101, ∀ r < 100, (100 * q + r) % 1000000 = (100 * q + r) &&& 1000000 ↔
    100 * q + r ∈ [0, 64, 512, 576] := by decide +kernel

/-- Up to 10 ms only four waits are as asked for. -/
theorem listen_short {microseconds : UInt64} (h : microseconds.toNat ≤ 10000) :
    (udpListen microseconds).Asks microseconds ↔ microseconds.toNat ∈ [0, 64, 512, 576] := by
  have htable := listen_table (microseconds.toNat / 100)
    (by omega) (microseconds.toNat % 100) (Nat.mod_lt _ (by decide))
  rw [Nat.div_add_mod] at htable
  rw [listen_asks, ← htable, ← UInt64.toNat_inj, UInt64.toNat_mod, UInt64.toNat_and]
  rfl

/-- For every send list, at any clock readings: behind the pass the timer is the least of 10 ms and the positive delays
computed. `udp_listen` asks for that time if and only if it is one of four, and for any other time if and only if the
mask leaves the part below a second as it is. -/
theorem send_wait (entries : List (Visit × Listed)) :
    let timer := (xmsgerSendAll 10000000 entries).1
    IsLeast ({10000000} ∪ {z | ∃ d ∈ passDelays entries, 0 < d ∧ z = d.toInt}) (timer.toNat : Int) ∧
      ((udpListen (timer / 1000)).Asks (timer / 1000) ↔ (timer / 1000).toNat ∈ [0, 64, 512, 576]) ∧
      ∀ microseconds, (udpListen microseconds).Asks microseconds ↔
        microseconds % 1000000 = microseconds &&& 1000000 := by
  intro timer
  have hleast : IsLeast ({10000000} ∪ {z | ∃ d ∈ passDelays entries, 0 < d ∧ z = d.toInt}) (timer.toNat : Int) := by
    have hstart : IsLeast {(10000000 : Int)} ((10000000 : UInt64).toNat : Int) := isLeast_singleton
    have hpass := noteDelays_least (passDelays entries) hstart
    rw [← sendAll_fst] at hpass
    exact hpass
  refine ⟨hleast, listen_short ?_, listen_asks⟩
  have hle : (timer.toNat : Int) ≤ 10000000 := hleast.2 (.inl rfl)
  rw [UInt64.toNat_div]
  simp only [UInt64.reduceToNat]
  omega

/-- With nothing to send the loop asks for 512 us instead of 10 ms. -/
theorem send_wait_idle :
    ¬ (udpListen ((xmsgerSendAll 10000000 []).1 / 1000)).Asks ((xmsgerSendAll 10000000 []).1 / 1000) := by
  decide

end Wenas.Xmsger
