import Wenas.Xmsger.SendAll

/-!
# One channel of the send list and the others

A visit reads and writes its own channel and the timer only, but the loop ends at a channel that is given up: the channels
behind it are left as they are. For them that is the same as a visit only if they have nothing to do.
-/
namespace Wenas.Xmsger

open Wenas.Serial

/-- In the second half of its visit the channel has a pack outstanding past its time, and no sign of life for 10 s. -/
def Listed.GivenUp (v : Visit) (x : Listed) : Prop :=
  let c := (x.first v).chan
  0 < c.sendbuf.recvable ∧ ¬ 0 < c.resendDelay v.later ∧ overdue v.later c.lastTs = true

instance (v : Visit) (x : Listed) : Decidable (x.GivenUp v) := inferInstanceAs (Decidable (_ ∧ _ ∧ _))

/-- No pack is cut ahead, and none can be cut. -/
def Channel.Drained (c : Channel) : Prop :=
  c.sendbuf.sendable = 0 ∧ ¬ (0 < c.sendbuf.writable ∧ 0 < c.msgbuf.sendable)

/-- It is not the channel's turn, or it has nothing to send or no room, which is noted already. -/
def Channel.Paced (v : Visit) (c : Channel) : Prop :=
  0 < c.sendDelay v.now ∨
    if c.sendbuf.readable < c.threshold then c.Drained else c.kabuf ≠ 0 ∨ v.now = 0

/-- Nothing is to be resent, and a timeout is reported already. -/
def Listed.Waits (v : Visit) (x : Listed) : Prop :=
  if 0 < x.chan.sendbuf.recvable then
    0 < x.chan.resendDelay v.later ∨ (overdue v.later x.chan.lastTs = true ∧ x.timedout = true)
  else x.chan.rpos = x.chan.wpos → overdue v.later x.chan.recvTs = true → x.timedout = true

/-- The channel has nothing to do. -/
def Listed.Rests (v : Visit) (x : Listed) : Prop := x.chan.Paced v ∧ x.Waits v

/-- In the pass every channel becomes what it becomes in a pass over it alone. -/
def Undisturbed (timer : UInt64) (entries : List (Visit × Listed)) : Prop :=
  ∀ (i : Nat) (entry : Visit × Listed), entries[i]? = some entry →
    (xmsgerSendAll timer entries).2[i]? = (xmsgerSendAll timer [entry]).2[0]?

section

variable {v : Visit} {x : Listed} {c : Channel} {timer : UInt64}

/-! ### A visit that changes nothing -/

theorem serial_log (c : Channel) : c.log.length ≤ (xchannelSerialMsg c).log.length := by
  unfold xchannelSerialMsg
  split
  · split
    · simp [Channel.emit]
    · split
      · simp [Channel.emit]
      · exact le_rfl
  · exact le_rfl

theorem sendPack_drained (clock : UInt64) (ok : Bool) (h : c.Drained) : xchannelSendPack clock ok c = c := by
  have hserial : serialUnlessReady c = c := by
    rw [serialUnlessReady, if_pos h.1, xchannelSerialMsg, if_neg h.2]
  unfold xchannelSendPack
  rw [hserial]
  simp [h.1]

/-- A pack that goes out is in the log. -/
theorem sendPack_log_of_pos (clock : UInt64) (ok : Bool) (h : 0 < (serialUnlessReady c).sendbuf.sendable) :
    (serialUnlessReady c).log.length < (xchannelSendPack clock ok c).log.length := by
  unfold xchannelSendPack
  simp only [if_pos h]
  split
  · exact lt_of_lt_of_le (by simp [Channel.markSent, Channel.emit, Channel.setPack]) (serial_log _)
  · simp [Channel.emit, Channel.setPack]

theorem serialUnlessReady_log (c : Channel) : c.log.length ≤ (serialUnlessReady c).log.length := by
  unfold serialUnlessReady
  split
  · exact serial_log c
  · exact le_rfl

/-- A channel that is not drained gets a pack out, or runs into a null pointer: the log grows. -/
theorem sendPack_log (clock : UInt64) (ok : Bool) (h : ¬ c.Drained) :
    c.log.length < (xchannelSendPack clock ok c).log.length := by
  by_cases hpos : 0 < (serialUnlessReady c).sendbuf.sendable
  · exact lt_of_le_of_lt (serialUnlessReady_log c) (sendPack_log_of_pos clock ok hpos)
  · have hzero : (serialUnlessReady c).sendbuf.sendable = 0 := by
      apply UInt16.toNat_inj.mp
      have hnot := mt UInt16.lt_iff_toNat_lt.mpr hpos
      simpa using hnot
    have hsame : xchannelSendPack clock ok c = serialUnlessReady c := by
      unfold xchannelSendPack
      simp [hzero]
    rw [hsame]
    unfold serialUnlessReady at hzero ⊢
    by_cases hnone : c.sendbuf.sendable = 0
    · rw [if_pos hnone] at hzero ⊢
      have hcut : 0 < c.sendbuf.writable ∧ 0 < c.msgbuf.sendable := by
        by_contra hcut
        exact h ⟨hnone, hcut⟩
      unfold xchannelSerialMsg at hzero ⊢
      rw [if_pos hcut] at hzero ⊢
      cases hslot : c.msgbuf.buf c.msgbuf.sslot with
      | none => simp [Channel.emit]
      | some i =>
        cases hframe : c.frames[i]? with
        | none => simp [hframe, Channel.emit]
        | some f =>
          -- the pack that was cut is there to be sent
          simp only [hslot, hframe, Ring.sendable, Ring.put_spos] at hzero
          have hone : c.sendbuf.wpos + 1 - c.sendbuf.spos = c.sendbuf.sendable + 1 := by
            rw [Ring.sendable]
            grind
          rw [hone, hnone] at hzero
          exact absurd hzero (by decide)
    · rw [if_neg hnone] at hzero
      exact absurd hzero hnone

theorem resend_log (clock : UInt64) (ok : Bool) (h : 0 < c.sendbuf.recvable) :
    c.log.length < (xchannelResend clock ok c).log.length := by
  unfold xchannelResend
  rw [if_pos h]
  dsimp only
  split <;> simp [Channel.emit, Channel.setPack]

theorem resend_kabuf (clock : UInt64) (ok : Bool) (c : Channel) : (xchannelResend clock ok c).kabuf = c.kabuf := by
  unfold xchannelResend
  split
  · dsimp only
    split <;> rfl
  · rfl

theorem first_paced (h : x.chan.Paced v) : x.first v = x := by
  unfold Listed.first
  split
  · rfl
  · rename_i hdue
    have hturn := (or_iff_right hdue).mp h
    have hpace : x.chan.pace v = x.chan := by
      unfold Channel.pace
      by_cases hopen : x.chan.sendbuf.readable < x.chan.threshold
      · rw [if_pos hopen] at hturn ⊢
        exact sendPack_drained _ _ hturn
      · rw [if_neg hopen] at hturn ⊢
        split
        · rename_i hzero
          have hnow : v.now = x.chan.kabuf := ((or_iff_right (not_not.mpr hzero)).mp hturn).trans hzero.symm
          rw [hnow]
        · rfl
    rw [hpace]

/-- The second half never shortens the log, and keeps the time a pack began to wait. -/
theorem second_log (v : Visit) (timer : UInt64) (x : Listed) :
    x.chan.log.length ≤ (x.second v timer).2.1.chan.log.length ∧ (x.second v timer).2.1.chan.kabuf = x.chan.kabuf := by
  unfold Listed.second
  split
  · rename_i hout
    split
    · exact ⟨le_rfl, rfl⟩
    · split
      · exact ⟨le_rfl, rfl⟩
      · exact ⟨(resend_log _ _ hout).le, resend_kabuf _ _ _⟩
  · split
    · split <;> exact ⟨le_rfl, rfl⟩
    · exact ⟨le_rfl, rfl⟩

theorem second_eq_iff (v : Visit) (timer : UInt64) (x : Listed) : (x.second v timer).2.1 = x ↔ x.Waits v := by
  have hreported : ({ x with timedout := true } : Listed) = x ↔ x.timedout = true := by
    constructor
    · intro h
      exact (congrArg Listed.timedout h).symm
    · intro h
      rw [← h]
  unfold Listed.second Listed.Waits
  split
  · rename_i hout
    split
    · rename_i hearly
      exact iff_of_true rfl (.inl hearly)
    · rename_i hdue
      rw [or_iff_right hdue]
      split
      · rename_i hover
        rw [hreported]
        exact (and_iff_right hover).symm
      · rename_i hover
        refine iff_of_false (fun h => ?_) fun h => hover h.1
        have hgrown := resend_log v.later v.resentOk hout
        have hsame := congrArg (fun y : Listed => y.chan.log.length) h
        simp only at hsame
        omega
  · split
    · rename_i hall
      split
      · rename_i hover
        rw [hreported]
        exact ⟨fun h _ _ => h, fun h => h hall hover⟩
      · rename_i hover
        exact iff_of_true rfl fun _ h => absurd h hover
    · rename_i hall
      exact iff_of_true rfl fun h => absurd h hall

/-- A visit leaves the channel as it is if and only if it has nothing to do. -/
theorem visit_eq_iff (v : Visit) (timer : UInt64) (x : Listed) : (x.visit v timer).2.1 = x ↔ x.Rests v := by
  constructor
  · intro h
    have hpaced : x.chan.Paced v := by
      obtain ⟨hlog, hkabuf⟩ := second_log v (if 0 < x.chan.sendDelay v.now then lower timer (x.chan.sendDelay v.now) else timer)
        (x.first v)
      have hvisit : ((x.first v).second v
        (if 0 < x.chan.sendDelay v.now then lower timer (x.chan.sendDelay v.now) else timer)).2.1 = x := h
      rw [hvisit] at hlog hkabuf
      by_contra hnot
      obtain ⟨hdue, hturn⟩ := not_or.mp hnot
      have hfirst : (x.first v).chan = x.chan.pace v := by rw [Listed.first, if_neg hdue]
      rw [hfirst] at hlog hkabuf
      unfold Channel.pace at hlog hkabuf
      by_cases hopen : x.chan.sendbuf.readable < x.chan.threshold
      · rw [if_pos hopen] at hlog hturn
        have hgrown := sendPack_log v.sent v.sentOk hturn
        omega
      · rw [if_neg hopen] at hkabuf hturn
        obtain ⟨hzero, hnow⟩ := not_or.mp hturn
        rw [not_not] at hzero
        rw [if_pos hzero, hzero] at hkabuf
        exact hnow hkabuf.symm
    refine ⟨hpaced, ?_⟩
    rw [Listed.visit, first_paced hpaced] at h
    exact (second_eq_iff v _ x).mp h
  · rintro ⟨hpaced, hwaits⟩
    rw [Listed.visit, first_paced hpaced]
    exact (second_eq_iff v _ x).mpr hwaits

/-! ### The pass -/

theorem goes_iff (v : Visit) (x : Listed) : x.goes v = true ↔ ¬ x.GivenUp v := by
  unfold Listed.goes Listed.visit Listed.second Listed.GivenUp
  dsimp only
  split
  · rename_i hout
    split
    · rename_i hearly
      simp [hearly]
    · rename_i hdue
      split
      · rename_i hover
        simp [hout, hdue, hover]
      · rename_i hover
        simp [hover]
  · rename_i hout
    split <;> simp [hout]

theorem sendAll_alone (timer : UInt64) (entry : Visit × Listed) :
    (xmsgerSendAll timer [entry]).2 = [(entry.2.visit entry.1 0).2.1] := by
  have hsame := congrArg Prod.fst (visit_timer entry.1 timer entry.2)
  rw [← hsame]
  simp only [xmsgerSendAll]
  split <;> rfl

/-- What becomes of the channel at a place of the list. -/
theorem sendAll_getElem? (timer : UInt64) (entries : List (Visit × Listed)) (i : Nat) {entry : Visit × Listed}
    (h : entries[i]? = some entry) :
    (xmsgerSendAll timer entries).2[i]? =
      if ∀ j < i, ∀ other ∈ entries[j]?, ¬ other.2.GivenUp other.1 then some (entry.2.visit entry.1 0).2.1
      else some entry.2 := by
  induction entries generalizing timer i with
  | nil => simp at h
  | cons first rest ih =>
    obtain ⟨v, x⟩ := first
    have hgoes : (x.visit v timer).2.2 = x.goes v := visit_goes
    have hstate := congrArg Prod.fst (visit_timer v timer x)
    simp only [xmsgerSendAll]
    cases i with
    | zero =>
      obtain rfl : (v, x) = entry := by simpa using h
      rw [if_pos fun j hj => absurd hj (Nat.not_lt_zero j)]
      split <;> simp [hstate]
    | succ i =>
      rw [List.getElem?_cons_succ] at h
      by_cases hup : x.GivenUp v
      · have hstop : x.goes v = false := Bool.eq_false_iff.mpr fun hgo => (goes_iff v x).mp hgo hup
        have hnot : ¬ ∀ j < i + 1, ∀ other ∈ ((v, x) :: rest)[j]?, ¬ other.2.GivenUp other.1 :=
          fun hall => hall 0 (Nat.succ_pos i) (v, x) rfl hup
        rw [hgoes, hstop, if_neg hnot]
        simp [h]
      · rw [hgoes, (goes_iff v x).mpr hup]
        have hrest := ih (x.visit v timer).1 i h
        have hcond : (∀ j < i + 1, ∀ other ∈ ((v, x) :: rest)[j]?, ¬ other.2.GivenUp other.1) ↔
            ∀ j < i, ∀ other ∈ rest[j]?, ¬ other.2.GivenUp other.1 := by
          constructor
          · intro hall j hj
            exact hall (j + 1) (by omega)
          · intro hall j hj
            cases j with
            | zero =>
              rintro other hother
              obtain rfl : (v, x) = other := by simpa using hother
              exact hup
            | succ j => exact hall j (by omega)
        simp only [hcond]
        exact hrest

end

/-- For every send list, at any clock readings: every channel becomes what it becomes in a pass over it alone, if and
only if every channel behind one that is given up has nothing to do. -/
theorem channels_undisturbed (timer : UInt64) (entries : List (Visit × Listed)) :
    Undisturbed timer entries ↔ ∀ (i j : Nat) (entry other : Visit × Listed), j < i → entries[i]? = some entry →
      entries[j]? = some other → other.2.GivenUp other.1 → entry.2.Rests entry.1 := by
  constructor
  · intro h i j entry other hlt hentry hother hup
    have hpass := h i entry hentry
    rw [sendAll_getElem? timer entries i hentry, if_neg fun hall => hall j hlt other hother hup, sendAll_alone] at hpass
    exact (visit_eq_iff entry.1 0 entry.2).mp (by simpa using hpass.symm)
  · intro h i entry hentry
    rw [sendAll_getElem? timer entries i hentry, sendAll_alone]
    split
    · rfl
    · rename_i hsome
      push Not at hsome
      obtain ⟨j, hlt, other, hother, hup⟩ := hsome
      have hrests := (visit_eq_iff entry.1 0 entry.2).mpr (h i j entry other hlt hentry hother hup)
      simp [hrests]

/-- A channel with a pack sent at clock 1 and never acknowledged. -/
def silent : Channel :=
  xchannelSendPack 1 true (xmsgerSend ⟨xpackTypeMsg, [0], one_fits⟩ (xchannelCreate xpackSerialRange 1 0)).1

/-- A channel with a message to send. -/
def waiting : Channel := (xmsgerSend ⟨xpackTypeMsg, [0], one_fits⟩ (xchannelCreate xpackSerialRange 2 0)).1

/-- Eleven seconds later the pass ends at the first channel, and the second one sends nothing. -/
theorem channels_disturbed :
    let v : Visit := ⟨11000000000, 11000000000, true, 11000000000, true⟩
    ¬ Undisturbed 10000000 [(v, ⟨silent, false⟩), (v, ⟨waiting, false⟩)] := by
  intro v h
  have hpass := congrArg (Option.map fun y : Listed => y.chan.log.length) (h 1 (v, ⟨waiting, false⟩) rfl)
  exact absurd hpass (by decide +kernel)

end Wenas.Xmsger
