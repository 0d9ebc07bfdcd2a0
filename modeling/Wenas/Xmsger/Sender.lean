import Wenas.Xmsger.SendRing

/-!
# What the calls of a sender preserve

Every call keeps `SendInv`, whatever acknowledgement arrives and whether or not
the datagrams get out. `Emits` records what a call may add to the log: releases,
and datagrams that are packs of the current window.
-/
namespace Wenas.Xmsger

open Wenas.Serial

/-- A datagram that leaves is pack `n` of the stream, its acknowledgement satisfies `A`. -/
def Leaves (A : Ack → Prop) (ms : List Message) (low high : Nat) (d : Dgram) : Prop :=
  A d.head.ack ∧ ∃ n i m j, low ≤ n ∧ n < high ∧ At ms n i m j ∧ IsFrag d n m j

theorem Leaves.mono {A : Ack → Prop} {ms : List Message} {low high high' : Nat} {d : Dgram}
    (h : Leaves A ms low high d) (hle : high ≤ high') : Leaves A ms low high' d := by
  obtain ⟨hA, n, i, m, j, hl, hh, ha, hf⟩ := h
  exact ⟨hA, n, i, m, j, hl, by omega, ha, hf⟩

/-- What a sender adds to the log. -/
def SendEvent (A : Ack → Prop) (ms : List Message) (low high : Nat) : Event → Prop
  | .sendto d _ => Leaves A ms low high d
  | .release _ => True
  | .toPeer _ _ => True
  | _ => False

/-- The acknowledgement, if there is one, names the position `pos`. -/
def AckAt (pos : UInt16) (a : Ack) : Prop := a.type ≠ 0 → a.pos = pos

/-- Two packs that differ in their timing and acknowledgement only. -/
structure Pack.Same (p q : Pack) : Prop where
  msg : q.msg = p.msg
  body : q.body = p.body
  type : q.head.type = p.head.type
  sn : q.head.sn = p.head.sn
  len : q.head.len = p.head.len
  range : q.head.range = p.head.range

theorem Pack.Same.refl (p : Pack) : p.Same p := ⟨rfl, rfl, rfl, rfl, rfl, rfl⟩

theorem Pack.Same.trans {p q r : Pack} (h : p.Same q) (h' : q.Same r) : p.Same r where
  msg := h'.msg.trans h.msg
  body := h'.body.trans h.body
  type := h'.type.trans h.type
  sn := h'.sn.trans h.sn
  len := h'.len.trans h.len
  range := h'.range.trans h.range

theorem Carries.same {ms : List Message} {n : Nat} {p q : Pack} (h : Carries ms n p) (hs : p.Same q) :
    Carries ms n q := by
  obtain ⟨i, m, j, ha, hm, hf⟩ := h
  exact ⟨i, m, j, ha, hs.msg.trans hm,
    ⟨hs.sn.trans hf.sn, hs.type.trans hf.type, hs.len.trans hf.len, hs.range.trans hf.range, hs.body.trans hf.body⟩⟩

section

variable {k : Nat} {past : List Event} {ms : List Message} {c : Channel} {x : Core} {g : Marks} {A : Ack → Prop}

/-- The invariant reads only the send ring, the message ring, the frames and the releases. -/
theorem SendInv.congr (h : SendInv k past ms x g) {y : Core} (hb : y.sendbuf = x.sendbuf) (hm : y.msgbuf = x.msgbuf)
    (hf : y.frames = x.frames) (hl : y.log.filter Event.isRelease = x.log.filter Event.isRelease) :
    SendInv k past ms y g where
  ring := hb ▸ h.ring
  queue := hm ▸ h.queue
  length := hf ▸ h.length
  frames := hf ▸ h.frames
  cutAt := h.cutAt
  doneAt := h.doneAt
  log := hl ▸ h.log

/-- A slot that is not idle belongs to a pack of the window. -/
theorem SendInv.occupied (h : SendInv k past ms x g) {j : Nat} (hj : j < 2 ^ k) (hts : (x.sendbuf.buf j).ts ≠ 0) :
    ∃ n, g.released ≤ n ∧ n < g.cut ∧ n % 2 ^ k = j := by
  by_contra hn
  push Not at hn
  exact hts (h.ring.free j hj hn)

/-- Overwriting the timing and the acknowledgement of a pack in the window. -/
theorem SendInv.touch (h : SendInv k past ms x g) {n : Nat} (hr : g.released ≤ n) (hw : n < g.cut) {p : Pack}
    (hp : (x.sendbuf.buf (n % 2 ^ k)).Same p) :
    SendInv k past ms { x with sendbuf := x.sendbuf.put (n % 2 ^ k) p } g :=
  { h with ring := h.ring.put hr hw ((h.ring.used n hr hw).same hp) }

theorem SendInv.emit (h : SendInv k past ms x g) {e : Event} (he : e.isRelease = false) :
    SendInv k past ms { x with log := x.log ++ [e] } g :=
  h.congr rfl rfl rfl (by simp [he])

/-- A pack in the window is what leaves when it is sent. -/
theorem SendInv.leaves (h : SendInv k past ms x g) {n : Nat} (hr : g.released ≤ n) (hw : n < g.cut) {p : Pack}
    (hp : (x.sendbuf.buf (n % 2 ^ k)).Same p) (hA : A p.head.ack) :
    Leaves A ms g.released g.cut p.dgram := by
  obtain ⟨i, m, j, ha, -, hf⟩ := (h.ring.used n hr hw).same hp
  exact ⟨hA, n, i, m, j, hr, hw, ha, hf⟩

/-! ### The acknowledgement -/

/-- A position that may be released lies ahead of the oldest pack. -/
theorem SendInv.lt_of_releasable (h : SendInv k past ms c.toCore g) {pos : UInt16} (hp : releasable pos c = true) :
    g.released < g.sent ∧ (pos - c.sendbuf.rpos).toNat ≤ g.sent - g.released ∧ c.sendbuf.rpos ≠ pos := by
  simp only [releasable, Bool.and_eq_true, decide_eq_true_eq, bne_iff_ne] at hp
  obtain ⟨hle, hne⟩ := hp
  rw [UInt16.le_iff_toNat_le, h.ring.recvable] at hle
  have hd := dist_step hne
  exact ⟨by omega, by omega, hne⟩

/-- The condition of the release loop holds for `n` turns and then fails. -/
def ReleaseTurns (pos : UInt16) (c : Channel) (n : Nat) : Prop :=
  (∀ j < n, releasable pos (releaseOne^[j] c) = true) ∧ releasable pos (releaseOne^[n] c) = false

/-- The loop stops by itself after at most as many turns as packs are outstanding, either
at once or with the read position at the acknowledged one. -/
theorem SendInv.release_loop (pos : UInt16) :
    ∀ (fuel : Nat) {c : Channel} {g : Marks}, SendInv k past ms c.toCore g → g.sent - g.released ≤ fuel →
      ∃ n d, n ≤ g.sent - g.released ∧ releaseLoop pos fuel c = releaseOne^[n] c ∧
        SendInv k past ms (releaseOne^[n] c).toCore { g with released := g.released + n, done := d } ∧
        ReleaseTurns pos c n ∧ (n = 0 ∨ pos = sn (g.released + n)) := by
  intro fuel
  induction fuel with
  | zero =>
    intro c g h hfuel
    refine ⟨0, g.done, Nat.zero_le _, rfl, h, ⟨by simp, ?_⟩, Or.inl rfl⟩
    by_contra hp
    have := (h.lt_of_releasable (by simpa using hp)).1
    omega
  | succ fuel ih =>
    intro c g h hfuel
    by_cases hp : releasable pos c = true
    · obtain ⟨hlt, hle, hne⟩ := h.lt_of_releasable hp
      obtain ⟨d, h₁⟩ := h.release hlt
      have hs := h₁.ring.read_le
      obtain ⟨n, d', hn, hloop, h₂, ⟨hgo, hstop⟩, hpos⟩ := ih h₁ (by simp only; omega)
      refine ⟨n + 1, d', ?_, ?_, ?_, ⟨?_, hstop⟩, Or.inr ?_⟩
      · simp only at hn
        omega
      · simp only [releaseLoop, hp, if_true, hloop, Function.iterate_succ, Function.comp_apply]
      · rw [Function.iterate_succ_apply]
        have he : g.released + (n + 1) = g.released + 1 + n := by omega
        rw [he]
        exact h₂
      · intro j hj
        cases j with
        | zero => exact hp
        | succ j => exact hgo j (by omega)
      · rcases hpos with rfl | hpos
        · simp only [Function.iterate_zero, id_eq] at hstop
          have hr := h₁.ring.rpos
          have hd := dist_step hne
          rw [h.ring.rpos] at hd
          by_contra hc
          have hne' : sn (g.released + 1) ≠ pos := fun he => hc he.symm
          have hle' : pos - (releaseOne c).sendbuf.rpos ≤
              (releaseOne c).sendbuf.spos - (releaseOne c).sendbuf.rpos := by
            rw [UInt16.le_iff_toNat_le, h₁.ring.recvable, hr]
            rw [sn_succ] at hd
            rw [h.ring.rpos] at hle
            simp only
            omega
          rw [releasable, hr] at hstop
          rw [hr] at hle'
          rw [decide_eq_true hle', Bool.true_and] at hstop
          exact hne' (bne_eq_false_iff_eq.mp hstop)
        · rw [hpos]
          congr 1
          simp only
          omega
    · refine ⟨0, g.done, Nat.zero_le _, ?_, h, ⟨by simp, by simpa using hp⟩, Or.inl rfl⟩
      simp only [releaseLoop, if_neg hp, Function.iterate_zero, id_eq]

theorem Pack.again_same (p : Pack) (clock : UInt64) (wpos : UInt16) : p.Same (p.again clock wpos) :=
  ⟨rfl, rfl, rfl, rfl, rfl, rfl⟩

theorem Pack.late_same (p : Pack) (clock : UInt64) (wpos : UInt16) : p.Same (p.late clock wpos) :=
  ⟨rfl, rfl, rfl, rfl, rfl, rfl⟩

theorem AckAt.refresh (a : Ack) (wpos : UInt16) : AckAt wpos (a.refresh wpos) := by
  intro h
  by_cases hz : a.type ≠ 0
  · rw [Ack.refresh, if_pos hz]
  · rw [Ack.refresh, if_neg hz] at h
    exact absurd h hz

/-- The early resend goes through the slots up to `sn` and touches only packs of the window. -/
theorem SendInv.fast_turns (e : Env) (sn : UInt16) :
    ∀ (fuel : Nat) (index : UInt16) {c : Channel}, SendInv k past ms c.toCore g →
      SendInv k past ms (fastResend e sn fuel index c).toCore g ∧
        Emits (SendEvent (AckAt c.recvbuf.wpos) ms g.released g.cut) c.log (fastResend e sn fuel index c).log := by
  intro fuel
  induction fuel with
  | zero =>
    intro index c h
    exact ⟨h, Emits.refl⟩
  | succ fuel ih =>
    intro index c h
    by_cases hi : index = sn
    · rw [fastResend, if_pos hi]
      exact ⟨h, Emits.refl⟩
    · rw [fastResend, if_neg hi]
      by_cases hp : (c.sendbuf.buf (slot c.sendbuf.range index)).ts ≠ 0 ∧
          (c.sendbuf.buf (slot c.sendbuf.range index)).head.resend < 2
      · simp only [if_pos hp]
        have hslot : slot c.sendbuf.range index < 2 ^ k := by
          rw [h.ring.range]
          exact slot_lt h.ring.small index
        obtain ⟨n, hr, hw, hn⟩ := h.occupied hslot hp.1
        rw [← hn]
        generalize hpack : (c.sendbuf.buf (n % 2 ^ k)).again (e.resendClock index) c.recvbuf.wpos = pack
        have hsame : (c.sendbuf.buf (n % 2 ^ k)).Same pack := hpack ▸ Pack.again_same _ _ _
        have hack : AckAt c.recvbuf.wpos pack.head.ack := hpack ▸ AckAt.refresh _ _
        have hsent : SendInv k past ms ((c.setPack (n % 2 ^ k) pack).emit (.sendto pack.dgram (e.resendOk index))).toCore g :=
          (h.touch hr hw hsame).emit rfl
        have hem : Emits (SendEvent (AckAt c.recvbuf.wpos) ms g.released g.cut) c.log
            (c.log ++ [.sendto pack.dgram (e.resendOk index)]) :=
          Emits.snoc (h.leaves hr hw hsame hack)
        by_cases hok : e.resendOk index = true
        · rw [if_pos hok]
          refine ⟨?_, hem⟩
          have := (h.touch hr hw (hsame.trans (q := pack) (r := { pack with timedout := Double.scale pack.timedout })
            ⟨rfl, rfl, rfl, rfl, rfl, rfl⟩)).emit (e := .sendto pack.dgram (e.resendOk index)) rfl
          simpa using this
        · rw [if_neg hok]
          obtain ⟨h₁, h₂⟩ := ih (index + 1) hsent
          exact ⟨h₁, hem.trans h₂⟩
      · simp only [if_neg hp]
        exact ih (index + 1) h

theorem SendInv.sample (h : SendInv k past ms c.toCore g) (i : Nat) :
    SendInv k past ms (sampleUnlessDone i c).toCore g ∧ (sampleUnlessDone i c).log = c.log := by
  rw [core_sampleUnlessDone]
  refine ⟨?_, rfl⟩
  have hsame : ∀ j, (c.sendbuf.buf j).Same ((c.sendbuf.put i { c.sendbuf.buf i with ts := 0 }).buf j) := by
    intro j
    by_cases hj : j = i
    · subst hj
      rw [Ring.put_buf_self]
      exact ⟨rfl, rfl, rfl, rfl, rfl, rfl⟩
    · rw [Ring.put_buf_of_ne _ _ hj]
      exact Pack.Same.refl _
  refine { h with ring := h.ring.of_buf _ (fun n _ _ hn => hn.same (hsame _)) ?_ }
  intro j _ _ hj
  by_cases hi : j = i
  · subst hi
    simp
  · simpa [hi] using hj

theorem SendInv.early (h : SendInv k past ms c.toCore g) (e : Env) (sn : UInt16) :
    SendInv k past ms (recvAckEarly e sn c).toCore g ∧
      Emits (SendEvent (AckAt c.recvbuf.wpos) ms g.released g.cut) c.log (recvAckEarly e sn c).log := by
  obtain ⟨h₁, hl₁⟩ := h.sample (slot c.sendbuf.range sn)
  rw [recvAckEarly]
  split
  · obtain ⟨h₂, he₂⟩ := h₁.fast_turns e sn loopFuel (sampleUnlessDone (slot c.sendbuf.range sn) c).sendbuf.rpos
    rw [congrArg Ring.wpos (Apart.sample _).recvbuf, hl₁] at he₂
    exact ⟨h₂, he₂⟩
  · rw [hl₁]
    exact ⟨h₁, Emits.refl⟩

/-- Releasing a pack adds only releases to the log. -/
theorem SendInv.release_log (h : SendInv k past ms c.toCore g) (hlt : g.released < g.sent) :
    Emits (fun e => e.isRelease = true) c.log (releaseOne c).log := by
  obtain ⟨m, j, ha, hmsg, -, hf⟩ := h.next_release hlt
  have hs := core_sampled c
  have hmsg' : ((sampled c).sendbuf.buf c.sendbuf.rslot).msg = some g.done := by
    rw [hs]
    simpa using hmsg
  have hf' : (sampled c).frames[g.done]? = some (frameAt m (g.cut - start ms g.done) j) := by
    rw [hs]
    exact hf
  have hr := core_releaseMsg hmsg' hf'
  rw [hs] at hr
  rw [core_releaseOne, hr]
  split
  · exact ⟨[_, _], rfl, by simp [Event.isRelease]⟩
  · exact ⟨[_], rfl, by simp [Event.isRelease]⟩

theorem SendInv.iterate_log (n : Nat) :
    ∀ {c : Channel} {g : Marks}, SendInv k past ms c.toCore g → n ≤ g.sent - g.released →
      Emits (fun e => e.isRelease = true) c.log (releaseOne^[n] c).log := by
  induction n with
  | zero =>
    intro c g _ _
    exact Emits.refl
  | succ n ih =>
    intro c g h hn
    obtain ⟨d, h₁⟩ := h.release (by omega)
    exact (h.release_log (by omega)).trans (ih h₁ (by simp only; omega))

/-- Any acknowledgement whatever: packs may be released, up to the acknowledged position and
never past what was sent, and packs of the window may be sent again. -/
theorem SendInv.recvAck (h : SendInv k past ms c.toCore g) (e : Env) (ack : Ack) :
    ∃ n d, g.released + n ≤ g.sent ∧ (n = 0 ∨ ack.pos = sn (g.released + n)) ∧
      SendInv k past ms (xchannelRecvAck e ack c).toCore { g with released := g.released + n, done := d } ∧
      Emits (SendEvent (AckAt c.recvbuf.wpos) ms (g.released + n) g.cut) c.log (xchannelRecvAck e ack c).log := by
  have hread := h.ring.read_le
  have hsend := h.ring.send_le
  by_cases hw : 0 < c.sendbuf.recvable ∧ ack.sn - c.sendbuf.rpos ≤ c.sendbuf.spos - c.sendbuf.rpos
  · have hstamp : SendInv k past ms { c with recvTs := e.clock, ackTs := e.clock }.toCore g := h
    have hfuel : g.sent - g.released ≤ loopFuel := by
      have := h.ring.room
      have := h.ring.pow_le
      simp only [loopFuel]
      omega
    obtain ⟨n, d, hn, hloop, h₁, -, hpos⟩ := hstamp.release_loop ack.pos loopFuel hfuel
    have he₁ := hstamp.iterate_log n hn
    have ha₁ := Apart.releaseLoop (c := { c with recvTs := e.clock, ackTs := e.clock }) ack.pos loopFuel
    rw [hloop] at ha₁
    have he₂ : Emits (SendEvent (AckAt c.recvbuf.wpos) ms (g.released + n) g.cut) c.log
        (releaseOne^[n] { c with recvTs := e.clock, ackTs := e.clock }).log := by
      refine he₁.mono ?_
      intro ev hev
      cases ev <;> simp_all [Event.isRelease, SendEvent]
    refine ⟨n, d, by omega, hpos, ?_⟩
    rw [xchannelRecvAck, if_pos hw]
    simp only [hloop]
    by_cases hsn : ack.sn ≠ ack.pos
    · rw [if_pos hsn]
      obtain ⟨h₃, he₃⟩ := h₁.early e ack.sn
      rw [congrArg Ring.wpos ha₁.recvbuf] at he₃
      exact ⟨h₃, he₂.trans he₃⟩
    · rw [if_neg hsn]
      exact ⟨h₁, he₂⟩
  · refine ⟨0, g.done, by omega, Or.inl rfl, ?_⟩
    rw [xchannelRecvAck, if_neg hw]
    exact ⟨h, Emits.refl⟩

/-! ### Sending -/

/-- The timeout resend sends the oldest outstanding pack with a fresh acknowledgement. -/
theorem SendInv.resend (h : SendInv k past ms c.toCore g) (clock : UInt64) (ok : Bool) :
    SendInv k past ms (xchannelResend clock ok c).toCore g ∧
      Emits (SendEvent (AckAt c.recvbuf.wpos) ms g.released g.cut) c.log (xchannelResend clock ok c).log := by
  by_cases hw : 0 < c.sendbuf.recvable
  · have hlt := h.ring.recvable_pos.mp hw
    have hsend := h.ring.send_le
    have hcut : g.released < g.cut := by omega
    rw [xchannelResend, if_pos hw]
    dsimp only
    rw [h.ring.rslot]
    generalize hspack : (c.sendbuf.buf (g.released % 2 ^ k)).late clock c.recvbuf.wpos = spack
    have hsame : (c.sendbuf.buf (g.released % 2 ^ k)).Same spack := hspack ▸ Pack.late_same _ _ _
    have hack : AckAt c.recvbuf.wpos spack.head.ack := hspack ▸ AckAt.refresh _ _
    have hem : Emits (SendEvent (AckAt c.recvbuf.wpos) ms g.released g.cut) c.log
        (c.log ++ [.sendto spack.dgram ok]) :=
      Emits.snoc (h.leaves (Nat.le_refl _) hcut hsame hack)
    split
    · refine ⟨?_, hem⟩
      have := (h.touch (Nat.le_refl _) hcut (hsame.trans (q := spack) (r := { spack with
          timedout := Double.scale spack.timedout
          head := { spack.head with resend := spack.head.resend + 1 } })
          ⟨rfl, rfl, rfl, rfl, rfl, rfl⟩)).emit (e := .sendto spack.dgram ok) rfl
      simpa using this
    · exact ⟨(h.touch (Nat.le_refl _) hcut hsame).emit rfl, hem⟩
  · rw [xchannelResend, if_neg hw]
    exact ⟨h, Emits.refl⟩

theorem Pack.carry_same (p : Pack) (ack : Ack) : p.Same (p.carry ack) := by
  rw [Pack.carry]
  split
  · exact ⟨rfl, rfl, rfl, rfl, rfl, rfl⟩
  · exact Pack.Same.refl p

theorem SendInv.serialUnlessReady (h : SendInv k past ms c.toCore g) :
    (Xmsger.serialUnlessReady c).log = c.log ∧
      ∃ n w, g.cut ≤ n ∧ SendInv k past ms (Xmsger.serialUnlessReady c).toCore { g with cut := n, written := w } := by
  rw [Xmsger.serialUnlessReady]
  split
  · exact h.serial
  · exact ⟨rfl, g.cut, g.written, Nat.le_refl _, h⟩

/-- The pack under the send position goes out, with or without success. -/
theorem SendInv.outgoing (h : SendInv k past ms c.toCore g) (hlt : g.sent < g.cut) (ok : Bool) :
    SendInv k past ms ((c.setPack c.sendbuf.sslot c.outgoing).emit (.sendto c.outgoing.dgram ok)).toCore g := by
  rw [core_emit, core_setPack, h.ring.sslot]
  refine SendInv.emit (h.touch h.ring.read_le hlt ?_) rfl
  rw [Channel.outgoing, h.ring.sslot]
  exact Pack.carry_same _ _

theorem SendInv.markSent (h : SendInv k past ms c.toCore g) (hlt : g.sent < g.cut) (clock : UInt64) :
    SendInv k past ms (c.markSent clock).toCore { g with sent := g.sent + 1 } := by
  have hs := h.ring.sslot
  have hput := h.touch (p := ((c.markSent clock).sendbuf.buf c.sendbuf.sslot)) h.ring.read_le hlt (by
    rw [hs]
    simp [Channel.markSent, hs]
    exact ⟨rfl, rfl, rfl, rfl, rfl, rfl⟩)
  have := hput.ring.send hlt
  refine { h with ring := ?_ }
  simpa [Channel.markSent, hs] using this

/-- Sending a pack: at most one datagram leaves, a pack of the window under the send position. -/
theorem SendInv.sendPack (h : SendInv k past ms c.toCore g) (clock : UInt64) (ok : Bool)
    (hA : 0 < (Xmsger.serialUnlessReady c).sendbuf.sendable → A (Xmsger.serialUnlessReady c).outgoing.head.ack) :
    ∃ s n w, g.cut ≤ n ∧
      SendInv k past ms (xchannelSendPack clock ok c).toCore { g with sent := s, cut := n, written := w } ∧
      Emits (SendEvent A ms g.released n) c.log (xchannelSendPack clock ok c).log := by
  obtain ⟨hlog, n, w, hn, h₁⟩ := h.serialUnlessReady
  rw [xchannelSendPack]
  by_cases hs : 0 < (Xmsger.serialUnlessReady c).sendbuf.sendable
  · have hlt := h₁.ring.sendable_pos.mp hs
    simp only [if_pos hs]
    have h₂ := h₁.outgoing hlt ok
    have hleave : Leaves A ms g.released n (Xmsger.serialUnlessReady c).outgoing.dgram := by
      refine h₁.leaves h₁.ring.read_le hlt ?_ (hA hs)
      rw [Channel.outgoing, h₁.ring.sslot]
      exact Pack.carry_same _ _
    by_cases hok : ok = true
    · rw [if_pos hok]
      have h₃ := h₂.markSent hlt clock
      obtain ⟨hlog₄, n', w', hn', h₄⟩ := h₃.serial
      refine ⟨_, n', w', Nat.le_trans hn hn', h₄, ?_⟩
      rw [hlog₄, ← hlog]
      exact Emits.snoc (hleave.mono hn')
    · rw [if_neg hok]
      refine ⟨g.sent, n, w, hn, h₂, ?_⟩
      rw [← hlog]
      exact Emits.snoc hleave
  · simp only [if_neg hs]
    refine ⟨g.sent, n, w, hn, h₁, ?_⟩
    rw [hlog]
    exact Emits.refl

/-- A pure acknowledgement leaves the rings alone. -/
theorem SendInv.sendAck (h : SendInv k past ms c.toCore g) (ok : Bool) :
    SendInv k past ms (xchannelSendAck ok c).toCore g ∧
      (xchannelSendAck ok c).log = c.log ++ [.sendto ⟨c.ack, []⟩ ok] := by
  have hl : (c.log ++ [Event.sendto ⟨c.ack, []⟩ ok]).filter Event.isRelease = c.log.filter Event.isRelease := by
    simp [Event.isRelease]
  cases ok with
  | true => exact ⟨h.congr rfl rfl rfl hl, rfl⟩
  | false => exact ⟨h.congr rfl rfl rfl hl, rfl⟩

/-- The receiving side in between changes nothing here. -/
theorem SendInv.behind (h : SendInv k past ms x g) {y : Core} (hb : Behind x y) : SendInv k past ms y g := by
  refine h.congr hb.sendbuf hb.msgbuf hb.frames (Emits.filter (hb.log.mono ?_))
  rintro e (he | rfl)
  · cases e <;> simp_all [Event.isRecv, Event.isRelease]
  · rfl

theorem SendInv.recvCarried (h : SendInv k past ms c.toCore g) (e : Env) (d : Dgram) :
    ∃ n i, g.released + n ≤ g.sent ∧ (n = 0 ∨ d.head.ack.type ≠ 0 ∧ d.head.ack.pos = sn (g.released + n)) ∧
      SendInv k past ms (Xmsger.recvCarried e d c).toCore { g with released := g.released + n, done := i } ∧
      Emits (SendEvent (AckAt c.recvbuf.wpos) ms (g.released + n) g.cut) c.log (Xmsger.recvCarried e d c).log := by
  rw [Xmsger.recvCarried]
  split
  · rename_i ht
    obtain ⟨n, i, hn, hpos, h₁, he⟩ := h.recvAck e d.head.ack
    exact ⟨n, i, hn, hpos.imp id (fun hp => ⟨ht, hp⟩), h₁, he⟩
  · exact ⟨0, g.done, h.ring.read_le, Or.inl rfl, h, Emits.refl⟩

/-- A received pack acts on the send side as the acknowledgement it carries, at most. -/
theorem SendInv.recvPack (h : SendInv k past ms c.toCore g) (e : Env) (d : Dgram) :
    ∃ n i, g.released + n ≤ g.sent ∧ (n = 0 ∨ d.head.ack.type ≠ 0 ∧ d.head.ack.pos = sn (g.released + n)) ∧
      SendInv k past ms (xchannelRecvPack e d c).1.toCore { g with released := g.released + n, done := i } ∧
      Emits (fun ev => SendEvent (AckAt c.recvbuf.wpos) ms (g.released + n) g.cut ev ∨ ev.isRecv = true ∨ ev = .fault)
        c.log (xchannelRecvPack e d c).1.log := by
  have hnote := h.behind (Behind.noteType d)
  have hsame : (0 : Nat) = 0 ∨ d.head.ack.type ≠ 0 ∧ d.head.ack.pos = sn (g.released + 0) := Or.inl rfl
  rw [xchannelRecvPack]
  split
  · obtain ⟨n, i, hn, hpos, h₁, he⟩ := hnote.recvCarried e d
    have hb : Behind (Xmsger.recvCarried e d (noteType d c)).toCore (recvInOrder e d (noteType d c)).toCore := by
      refine (Behind.storePack d).trans (Behind.trans ?_ (Behind.advanceLoop loopFuel))
      exact ⟨rfl, rfl, rfl, rfl, rfl, rfl, Emits.refl⟩
    have hb' := hb.trans (Behind.recvMsg e)
    exact ⟨n, i, hn, hpos, h₁.behind hb', (he.mono fun _ => Or.inl).trans (hb'.log.mono fun _ => Or.inr)⟩
  · split
    · rw [recvEarly]
      have hset := hnote.behind (Behind.setAck d.head.sn (noteType d c).recvbuf.wpos)
      split
      · obtain ⟨n, i, hn, hpos, h₁, he⟩ := hset.recvCarried e d
        have hb := (Behind.storePack (c := Xmsger.recvCarried e d
          ((noteType d c).setAck d.head.sn (noteType d c).recvbuf.wpos)) d).trans (Behind.recvMsg e)
        exact ⟨n, i, hn, hpos, h₁.behind hb, (he.mono fun _ => Or.inl).trans (hb.log.mono fun _ => Or.inr)⟩
      · have hb := Behind.recvMsg (c := (noteType d c).setAck d.head.sn (noteType d c).recvbuf.wpos) e
        exact ⟨0, g.done, h.ring.read_le, hsame, hset.behind hb, hb.log.mono fun _ => Or.inr⟩
    · have hb := (Behind.recvAgain (c := noteType d c)).trans (Behind.recvMsg e)
      exact ⟨0, g.done, h.ring.read_le, hsame, hnote.behind hb, hb.log.mono fun _ => Or.inr⟩

end

end Wenas.Xmsger
