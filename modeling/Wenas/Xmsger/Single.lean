import Wenas.Xmsger.LinkStep

/-!
# One pack at a time

What the calls do exactly when every message is a single pack and the ring has two slots:
a pack is sent, received, handed up and released. Then what goes on when a pack lies in a
slot that is not its own, and when an acknowledgement stays in a pack that could not be sent.
-/
namespace Wenas.Xmsger

open Wenas.Serial Wenas.Machine

/-- Every message is a single pack. -/
def Single (ms : List Message) : Prop := ∀ m ∈ ms, packs m = 1

theorem Single.start {ms : List Message} (h : Single ms) {i : Nat} (hi : i ≤ ms.length) : start ms i = i := by
  induction i with
  | zero => simp
  | succ i ih =>
    have hm : ms[i]? = some ms[i] := List.getElem?_eq_getElem (by omega)
    rw [start_succ hm, ih (by omega), h _ (List.getElem_mem _)]

theorem Single.cursor {ms : List Message} (h : Single ms) {n i : Nat} (hc : Cursor ms n i) : i = n := by
  have hi := hc.le
  have hlow := hc.low
  rw [h.start hi] at hlow
  by_cases he : i = ms.length
  · have := hc.stop he
    rw [h.start hi] at this
    omega
  · have hm : ms[i]? = some ms[i] := List.getElem?_eq_getElem (by omega)
    have := hc.high _ hm
    rw [h.start hi, h _ (List.getElem_mem _)] at this
    omega

section

variable {past : List Event} {ms : List Message} {c : Channel} {r w : Nat}

/-- Of messages that are single packs, `w` are cut and sent, and `r` released. -/
def Marks.single (r w : Nat) : Marks := ⟨r, w, w, r, w⟩

/-- The pack that leaves when there is one more message than packs. -/
theorem SendInv.send_next (h : SendInv 1 past ms c.toCore (.single r w)) (hone : Single ms)
    (hlen : ms.length = w + 1) (hroom : w < r + 2) (hlog : c.log = []) (clock : UInt64) :
    ∃ d m, (xchannelSendPack clock true c).log = [.sendto d true] ∧ ms[w]? = some m ∧ IsFrag d w m 0 ∧
      (c.ack.ack.type = 0 → d.head.ack.type = 0) ∧ (xchannelSendPack clock true c).ack.ack.type = 0 ∧
      SendInv 1 past ms (xchannelSendPack clock true c).toCore (.single r (w + 1)) := by
  have hw : (Marks.single r w).written < ms.length := by
    rw [hlen]
    exact Nat.lt_succ_self w
  obtain ⟨m, j, ha, hslot, hf⟩ := h.next_cut hw
  have hready := And.intro (h.ring.writable_pos.mpr hroom) (h.queue.sendable_pos.mpr hw)
  have heq := xchannelSerialMsg_eq hready hslot hf
  obtain ⟨w', h₁⟩ := h.cut hroom hw
  have hw' : w' = w + 1 := hone.cursor h₁.cutAt
  subst hw'
  have hnone : c.sendbuf.sendable = 0 := by
    apply UInt16.toNat_inj.mp
    have := h.ring.sendable
    rw [Ring.sendable, this]
    exact Nat.sub_self w
  have hserial : Xmsger.serialUnlessReady c = xchannelSerialMsg c := by rw [Xmsger.serialUnlessReady, if_pos hnone]
  have hcut : w < w + 1 := Nat.lt_succ_self w
  have hsend : 0 < (xchannelSerialMsg c).sendbuf.sendable := h₁.ring.sendable_pos.mpr hcut
  have h₂ := (h₁.outgoing hcut true).markSent hcut clock
  have hsent : xchannelSendPack clock true c =
      xchannelSerialMsg (((((xchannelSerialMsg c).setPack (xchannelSerialMsg c).sendbuf.sslot
        (xchannelSerialMsg c).outgoing).emit (.sendto (xchannelSerialMsg c).outgoing.dgram true)).markSent clock)) := by
    simp only [xchannelSendPack, hserial, if_pos hsend, if_true]
  have hdone : ∀ c' : Channel, SendInv 1 past ms c'.toCore (.single r (w + 1)) → xchannelSerialMsg c' = c' := by
    intro c' h'
    have hno : ¬ 0 < c'.msgbuf.sendable := by
      rw [h'.queue.sendable_pos, hlen]
      exact Nat.lt_irrefl _
    rw [xchannelSerialMsg, if_neg (fun hr => hno hr.2)]
  rw [hsent, hdone _ h₂]
  have hj : j = 0 := by
    have := ha.lt
    rw [hone m (List.mem_of_getElem? ha.get)] at this
    omega
  subst hj
  refine ⟨(xchannelSerialMsg c).outgoing.dgram, m, ?_, ha.get, ?_, ?_, rfl, h₂⟩
  · show (xchannelSerialMsg c).log ++ _ = _
    rw [heq, hlog]
    rfl
  · obtain ⟨i, m', j', ha', -, hfrag⟩ := (h₁.ring.used w h.ring.read_le hcut).same
      (Pack.carry_same _ (xchannelSerialMsg c).ack.ack)
    obtain ⟨-, rfl, rfl⟩ := ha.unique ha'
    rw [Channel.outgoing, h₁.ring.sslot]
    exact hfrag
  · intro ht
    have hslots : (xchannelSerialMsg c).sendbuf.sslot = c.sendbuf.wslot := by
      rw [h₁.ring.sslot, h.ring.wslot]
      rfl
    have hack : (xchannelSerialMsg c).ack.ack.type = 0 := by
      rw [heq]
      exact ht
    rw [Channel.outgoing, Pack.carry, if_neg (by simpa using hack), hslots, heq]
    show ((c.sendbuf.put c.sendbuf.wslot _).buf c.sendbuf.wslot).head.ack.type = 0
    rw [Ring.put_buf_self]
    rfl

theorem ack_releaseMsg (i : Nat) (c : Channel) : (releaseMsg i c).ack = c.ack := by
  rw [releaseMsg]
  dsimp only
  repeat' split
  all_goals rfl

theorem ack_releaseLoop (pos : UInt16) (fuel : Nat) (c : Channel) : (releaseLoop pos fuel c).ack = c.ack := by
  induction fuel generalizing c with
  | zero => rfl
  | succ fuel ih =>
    rw [releaseLoop]
    split
    · have hs : (sampled c).ack = c.ack := by rw [core_sampled]
      rw [ih, core_releaseOne]
      exact (ack_releaseMsg _ _).trans hs
    · rfl

/-- An acknowledgement of everything before `p` releases exactly that. -/
theorem SendInv.release_to (h : SendInv 1 past ms c.toCore (.single r w)) (hone : Single ms) {p : Nat} (hr : r < p)
    (hp : p ≤ w) (e : Env) {ack : Ack} (hsn : ack.sn = sn p) (hpos : ack.pos = sn p) :
    SendInv 1 past ms (xchannelRecvAck e ack c).toCore (.single p w) ∧ (xchannelRecvAck e ack c).ack = c.ack ∧
      Emits (fun e => e.isRelease = true) c.log (xchannelRecvAck e ack c).log := by
  have hwin : w ≤ r + 2 := h.ring.room
  have hstamp : SendInv 1 past ms { c with recvTs := e.clock, ackTs := e.clock }.toCore (.single r w) := h
  have hrel : 0 < c.sendbuf.recvable := h.ring.recvable_pos.mpr (show r < w by omega)
  have hdist : sn p - c.sendbuf.rpos ≤ c.sendbuf.spos - c.sendbuf.rpos := by
    rw [UInt16.le_iff_toNat_le, h.ring.recvable, h.ring.rpos]
    show (sn p - sn r).toNat ≤ w - r
    rw [dist_forward (by omega) (by omega)]
    omega
  have hne : c.sendbuf.rpos ≠ sn p := by
    rw [h.ring.rpos]
    show sn r ≠ sn p
    rw [Ne, sn_eq_iff (by omega) (by omega)]
    omega
  have heq : xchannelRecvAck e ack c = releaseLoop (sn p) loopFuel { c with recvTs := e.clock, ackTs := e.clock } := by
    rw [xchannelRecvAck, hsn, hpos, if_pos ⟨hrel, hdist⟩]
    simp
  rw [heq]
  obtain ⟨n, d, hn, hloop, hinv, hturns, hor⟩ := hstamp.release_loop (sn p) loopFuel (by
    show w - r ≤ 65536
    omega)
  refine ⟨?_, ack_releaseLoop _ _ _, by rw [hloop]; exact hstamp.iterate_log n hn⟩
  rw [hloop]
  have hn' : n ≤ w - r := hn
  have hrn : r + n = p := by
    rcases hor with rfl | hor
    · have := hturns.2
      simp only [Function.iterate_zero, id_eq, releasable, hdist, decide_true, Bool.true_and] at this
      exact absurd (by simpa using this) hne
    · have hor : sn p = sn (r + n) := hor
      have := congrArg UInt16.toNat hor
      simp only [sn_toNat] at this
      omega
  have hd : d = p := by
    rw [← hrn]
    exact hone.cursor hinv.doneAt
  rw [← hrn] at hd ⊢
  rw [hd] at hinv
  exact hinv

end

/-! ### A receiver with nothing pending -/

/-- The receive ring has two slots, both empty, and no message is under assembly. -/
structure Level (c : Channel) (n : Nat) : Prop where
  range : c.recvbuf.range = sn (2 ^ 1)
  rpos : c.recvbuf.rpos = sn n
  wpos : c.recvbuf.wpos = sn n
  buf : ∀ i, c.recvbuf.buf i = none
  msg : c.msg = none

theorem slot_two (n : Nat) : slot (sn (2 ^ 1)) (sn n) = n % 2 := slot_sn (by decide) n

theorem extend_single {d : Dgram} {n : Nat} {m : Message} (hd : IsFrag d n m 0) (hm : packs m = 1) :
    (RFrame.extend none d).range = 0 ∧ (RFrame.extend none d).content = m.content := by
  have hstart : Partial m 0 none := by simp [Partial]
  obtain ⟨ht, hdata, hr⟩ := hstart.extend (by omega) (by omega) hd
  refine ⟨UInt64.toNat_inj.mp (by rw [hr, hm]; rfl), ?_⟩
  rw [RFrame.content, Message.content, ht, hdata, bytes_of_packs_le m 1 (by omega), List.take_length]

/-- A message of one pack is handed up as soon as the pack is taken out. -/
theorem recvMsgOne_single {c : Channel} {d : Dgram} (hmsg : c.msg = none) (hz : (RFrame.extend none d).range = 0) :
    recvMsgOne d c =
      { c with
        log := c.log ++ [.consume c.recvbuf.rpos d, .fromPeer (RFrame.extend none d)]
        msg := none
        recvbuf := { c.recvbuf.put c.recvbuf.rslot none with rpos := c.recvbuf.rpos + 1 } } := by
  simp only [recvMsgOne, hmsg, hz, if_true, Channel.emit, List.append_assoc, List.cons_append, List.nil_append]

theorem recvMsgLoop_some {c : Channel} {d : Dgram} (hbuf : c.recvbuf.buf c.recvbuf.rslot = some d) (fuel : Nat) :
    recvMsgLoop Env.fine (fuel + 1) c = recvMsgLoop Env.fine fuel (recvMsgOne d c) := by
  rw [recvMsgLoop, hbuf]
  simp [Env.fine]

theorem recvMsgLoop_none {c : Channel} (hbuf : c.recvbuf.buf c.recvbuf.rslot = none) (fuel : Nat) :
    recvMsgLoop Env.fine (fuel + 1) c = (c, true) := by
  rw [recvMsgLoop, hbuf]

/-- One pack in order is stored, consumed and handed up. -/
theorem Level.recv {c : Channel} {n : Nat} (h : Level c n) {d : Dgram} {m : Message} (hd : IsFrag d n m 0)
    (hm : packs m = 1) (hack : d.head.ack.type = 0) :
    ∃ c' f, xchannelRecvPack Env.fine d c = (c', true) ∧ Level c' (n + 1) ∧ c'.sendbuf = c.sendbuf ∧
      c'.ack.type = xpackTypeAck ∧ c'.ack.ack = ⟨m.type, sn (n + 1), sn (n + 1)⟩ ∧
      c'.log = c.log ++ [.store none d, .consume (sn n) d, .fromPeer f] ∧ f.content = m.content := by
  obtain ⟨hz, hcontent⟩ := extend_single hd hm
  have hslot : slot c.recvbuf.range d.head.sn = n % 2 := by rw [h.range, hd.sn, slot_two]
  have hnext : n % 2 ≠ (n + 1) % 2 := by omega
  have hfull : (storeNext d (noteType d c)).recvbuf =
      ⟨sn (2 ^ 1), c.recvbuf.spos, sn n, sn (n + 1), Function.update (fun _ => none) (n % 2) (some d)⟩ := by
    have hb : c.recvbuf.buf = fun _ => none := funext h.buf
    show (⟨c.recvbuf.range, c.recvbuf.spos, c.recvbuf.rpos, c.recvbuf.wpos + 1,
      Function.update c.recvbuf.buf (slot c.recvbuf.range d.head.sn) (some d)⟩ : Ring (Option Dgram)) = _
    rw [hslot, h.range, h.rpos, h.wpos, sn_succ, hb]
  have hadvance : advanceLoop loopFuel (storeNext d (noteType d c)) = storeNext d (noteType d c) := by
    rw [show loopFuel = 65535 + 1 from rfl, advanceLoop, if_neg]
    rintro ⟨hs, -⟩
    rw [Ring.wslot, hfull] at hs
    simp only [slot_two, Function.update_of_ne hnext.symm] at hs
    cases hs
  have hpack : xchannelRecvPack Env.fine d c = xchannelRecvMsg Env.fine (storeNext d (noteType d c)) := by
    have hcarried : recvCarried Env.fine d (noteType d c) = noteType d c := by
      rw [recvCarried, if_neg (by simpa using hack)]
    have hin : d.head.sn = (noteType d c).recvbuf.wpos := by rw [hd.sn]; exact h.wpos.symm
    simp only [xchannelRecvPack, if_pos hin, recvInOrder, hcarried, hadvance]
  have hack' : (storeNext d (noteType d c)).ack.type = xpackTypeAck ∧
      (storeNext d (noteType d c)).ack.ack = ⟨m.type, sn (n + 1), sn (n + 1)⟩ := by
    refine ⟨rfl, ?_⟩
    show (⟨d.head.type, c.recvbuf.wpos + 1, c.recvbuf.wpos + 1⟩ : Ack) = _
    rw [hd.type, h.wpos, sn_succ]
  have hlog : (storeNext d (noteType d c)).log = c.log ++ [.store none d] := by
    show c.log ++ [.store (c.recvbuf.buf (slot c.recvbuf.range d.head.sn)) d] = _
    rw [h.buf]
  have hnone : (storeNext d (noteType d c)).msg = none := h.msg
  have hsend : (storeNext d (noteType d c)).sendbuf = c.sendbuf := rfl
  generalize storeNext d (noteType d c) = c₁ at hfull hpack hack' hlog hnone hsend
  have hread : 0 < c₁.recvbuf.readable := by
    rw [Ring.readable, hfull, UInt16.lt_iff_toNat_lt, dist_forward (by omega) (by omega)]
    simp
  have hbuf : c₁.recvbuf.buf c₁.recvbuf.rslot = some d := by
    rw [Ring.rslot, hfull]
    simp only [slot_two, Function.update_self]
  have hempty : { c₁.recvbuf.put c₁.recvbuf.rslot none with rpos := c₁.recvbuf.rpos + 1 } =
      (⟨sn (2 ^ 1), c.recvbuf.spos, sn (n + 1), sn (n + 1), fun _ => none⟩ : Ring (Option Dgram)) := by
    rw [Ring.rslot, hfull, sn_succ]
    simp only [Ring.put, slot_two, Function.update_idem]
    congr 1
    exact Function.update_eq_self _ _
  let c₂ : Channel :=
    { c₁ with
      recvTs := Env.fine.clock
      log := c₁.log ++ [.consume c₁.recvbuf.rpos d, .fromPeer (RFrame.extend none d)]
      msg := none
      recvbuf := ⟨sn (2 ^ 1), c.recvbuf.spos, sn (n + 1), sn (n + 1), fun _ => none⟩ }
  have hloop : xchannelRecvPack Env.fine d c = (c₂, true) := by
    rw [hpack, xchannelRecvMsg, if_pos hread]
    simp only [hbuf]
    rw [recvMsgLoop_some (c := { c₁ with recvTs := Env.fine.clock }) hbuf,
      recvMsgOne_single (c := { c₁ with recvTs := Env.fine.clock }) hnone hz, hempty]
    exact recvMsgLoop_none (c := c₂) rfl 65535
  refine ⟨c₂, RFrame.extend none d, hloop, ⟨rfl, rfl, rfl, fun _ => rfl, rfl⟩, hsend, hack'.1, hack'.2, ?_, hcontent⟩
  show c₁.log ++ [.consume c₁.recvbuf.rpos d, .fromPeer (RFrame.extend none d)] = _
  rw [hlog, hfull, List.append_assoc]
  rfl

/-! ### A pack in the wrong place -/

/-- The pack three ahead is kept in the slot of the next but one. -/
theorem Level.early {c : Channel} {n : Nat} (h : Level c n) {d : Dgram} {m : Message} (hd : IsFrag d (n + 3) m 0)
    (hack : d.head.ack.type = 0) :
    ∃ c', xchannelRecvPack Env.fine d c = (c', true) ∧ c'.msg = none ∧ c'.log = c.log ++ [.store none d] ∧
      c'.recvbuf =
        ⟨sn (2 ^ 1), c.recvbuf.spos, sn n, sn n, Function.update (fun _ => none) ((n + 1) % 2) (some d)⟩ := by
  have hslot : slot c.recvbuf.range d.head.sn = (n + 1) % 2 := by
    rw [h.range, hd.sn, slot_two]
    omega
  have hne : d.head.sn ≠ (noteType d c).recvbuf.wpos := by
    show d.head.sn ≠ c.recvbuf.wpos
    rw [hd.sn, h.wpos, Ne, eq_comm, sn_eq_iff (by omega) (by omega)]
    omega
  have hlt : d.head.sn - (noteType d c).recvbuf.wpos < (noteType d c).recvbuf.wpos - d.head.sn := by
    show d.head.sn - c.recvbuf.wpos < c.recvbuf.wpos - d.head.sn
    rw [hd.sn, h.wpos, UInt16.lt_iff_toNat_lt, dist_forward (by omega) (by omega), dist_backward (by omega) (by omega)]
    omega
  have hearly : recvEarly Env.fine d (noteType d c) =
      storePack d ((noteType d c).setAck d.head.sn (noteType d c).recvbuf.wpos) := by
    have hnone : (c.recvbuf.buf (slot c.recvbuf.range d.head.sn)).isNone := by rw [h.buf]; rfl
    have hcarried : recvCarried Env.fine d ((noteType d c).setAck d.head.sn (noteType d c).recvbuf.wpos) =
        (noteType d c).setAck d.head.sn (noteType d c).recvbuf.wpos := by
      rw [recvCarried, if_neg (by simpa using hack)]
    rw [recvEarly, hcarried]
    exact if_pos hnone
  have hread : ¬ 0 < c.recvbuf.readable := by
    rw [Ring.readable, h.rpos, h.wpos, UInt16.sub_self]
    decide
  have hbuf : c.recvbuf.buf = fun _ => none := funext h.buf
  refine ⟨{ storePack d ((noteType d c).setAck d.head.sn (noteType d c).recvbuf.wpos) with recvTs := Env.fine.clock },
    ?_, h.msg, ?_, ?_⟩
  · rw [xchannelRecvPack, if_neg hne, if_pos hlt, hearly]
    exact if_neg hread
  · show c.log ++ [.store (c.recvbuf.buf (slot c.recvbuf.range d.head.sn)) d] = _
    rw [h.buf]
  · show (⟨c.recvbuf.range, c.recvbuf.spos, c.recvbuf.rpos, c.recvbuf.wpos,
      Function.update c.recvbuf.buf (slot c.recvbuf.range d.head.sn) (some d)⟩ : Ring (Option Dgram)) = _
    rw [hslot, h.range, h.rpos, h.wpos, hbuf]

/-- The first pack to send acknowledges position 1. -/
structure Stale (b : Ring Pack) : Prop where
  ready : b.sendable = 1
  type : (b.buf b.sslot).head.type = xpackTypeMsg
  sn : (b.buf b.sslot).head.sn = 0
  ack : (b.buf b.sslot).head.ack = ⟨xpackTypeMsg, 1, 1⟩

theorem sentOut_serial (c : Channel) : sentOut (xchannelSerialMsg c).log = sentOut c.log := by
  have hfault : sentOut (c.log ++ [.fault]) = sentOut c.log := by simp [sentOut]
  rw [xchannelSerialMsg]
  repeat' split
  any_goals exact hfault
  all_goals rfl

/-- The pack leaves with the acknowledgement it got when it could not be sent. -/
theorem Stale.leaves {c : Channel} (h : Stale c.sendbuf) (hack : c.ack.ack.type = 0) (hlog : c.log = []) :
    ∃ d, sentOut (xchannelSendPack 1 true c).log = [d] ∧ d.head.type = xpackTypeMsg ∧ d.head.sn = 0 ∧
      d.head.ack = ⟨xpackTypeMsg, 1, 1⟩ := by
  have hserial : serialUnlessReady c = c := by
    rw [serialUnlessReady, if_neg]
    rw [h.ready]
    decide
  have hout : c.outgoing = c.sendbuf.buf c.sendbuf.sslot := by rw [Channel.outgoing, Pack.carry, if_neg (by simpa using hack)]
  have heq : xchannelSendPack 1 true c =
      xchannelSerialMsg (((c.setPack c.sendbuf.sslot c.outgoing).emit (.sendto c.outgoing.dgram true)).markSent 1) := by
    simp [xchannelSendPack, hserial, h.ready]
  refine ⟨c.outgoing.dgram, ?_, ?_, ?_, ?_⟩
  · rw [heq, sentOut_serial]
    show sentOut (c.log ++ [.sendto c.outgoing.dgram true]) = _
    rw [hlog]
    rfl
  · rw [hout]
    exact h.type
  · rw [hout]
    exact h.sn
  · rw [hout]
    exact h.ack

theorem recvMsgLoop_fine (fuel : Nat) (c : Channel) : (recvMsgLoop Env.fine fuel c).2 = true := by
  induction fuel generalizing c with
  | zero => rfl
  | succ fuel ih =>
    rw [recvMsgLoop]
    split
    · rfl
    · rw [if_neg (by simp [Env.fine])]
      exact ih _

theorem recvMsg_fine (c : Channel) : (xchannelRecvMsg Env.fine c).2 = true := by
  rw [xchannelRecvMsg]
  dsimp only
  repeat' split
  · rfl
  · exact recvMsgLoop_fine _ _
  · rfl

end Wenas.Xmsger
