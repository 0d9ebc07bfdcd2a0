import Wenas.Lib.Machine
import Wenas.Xmsger.Sender

/-!
# The send window under arbitrary peers

A peer is a channel with the messages it accepted and everything it has done so
far. Its calls come in any order and with any acknowledgement; the two rings stay
ordered, the release loop ends, and messages are handed back one by one.
-/
namespace Wenas.Xmsger

open Wenas.Serial Wenas.Machine

/-- The calls made on a channel, with the answers of the outside. -/
inductive Call where
  | send : Message → Call
  | serial : Call
  | sendPack : UInt64 → Bool → Call
  | resend : UInt64 → Bool → Call
  | sendAck : Bool → Call
  | recvAck : Env → Ack → Call
  | recvPack : Env → Dgram → Call

/-- The result is false when the message loop gives up, which only a failed allocation does. -/
def Call.run : Call → Channel → Channel × Bool
  | .send m, c => ((xmsgerSend m c).1, true)
  | .serial, c => (xchannelSerialMsg c, true)
  | .sendPack clock ok, c => (xchannelSendPack clock ok c, true)
  | .resend clock ok, c => (xchannelResend clock ok c, true)
  | .sendAck ok, c => (xchannelSendAck ok c, true)
  | .recvAck e ack, c => (xchannelRecvAck e ack c, true)
  | .recvPack e d, c => xchannelRecvPack e d c

/-- The messages `xmsger_send` returns 0 for. -/
def Call.accepts : Call → Channel → List Message
  | .send m, c => if (xmsgerSend m c).2 then [m] else []
  | _, _ => []

/-- A channel with the messages it accepted and all it has done; `up` until its loop ends. -/
structure Peer where
  chan : Channel
  accepted : List Message
  trace : List Event
  up : Bool

def Peer.fresh (serialRange cid : UInt16) (clock : UInt64) : Peer :=
  ⟨xchannelCreate serialRange cid clock, [], [], true⟩

def Channel.quiet (c : Channel) : Channel := { c with log := [] }

/-- Each call starts with an empty log, which then goes to the trace. -/
def Peer.step (p : Peer) (call : Call) : Peer :=
  if p.up then
    let r := call.run p.chan.quiet
    ⟨r.1, p.accepted ++ call.accepts p.chan.quiet, p.trace ++ r.1.log, r.2⟩
  else p

/-- The peer's releases are those of its accepted messages up to the marks `g`. -/
def PeerInv (k : Nat) (p : Peer) (g : Marks) : Prop :=
  SendInv k (p.trace.filter Event.isRelease) p.accepted p.chan.quiet.toCore g

section

variable {k : Nat} {past : List Event} {ms : List Message} {c : Channel} {g : Marks}

/-- What one call may do to the marks. -/
theorem SendInv.call (h : SendInv k past ms c.toCore g) (call : Call) :
    ∃ g', SendInv k past (ms ++ call.accepts c) (call.run c).1.toCore g' := by
  cases call with
  | send m =>
    simp only [Call.accepts, Call.run, xmsgerSend]
    split
    · rename_i hroom
      exact ⟨g, h.push (h.queue.writable_pos.mp hroom) m⟩
    · exact ⟨g, by simpa using h⟩
  | serial =>
    obtain ⟨-, n, w, -, h₁⟩ := h.serial
    exact ⟨_, by simpa [Call.accepts, Call.run] using h₁⟩
  | sendPack clock ok =>
    obtain ⟨s, n, w, -, h₁, -⟩ := h.sendPack (A := fun _ => True) clock ok (fun _ => trivial)
    exact ⟨_, by simpa [Call.accepts, Call.run] using h₁⟩
  | resend clock ok => exact ⟨g, by simpa [Call.accepts, Call.run] using (h.resend clock ok).1⟩
  | sendAck ok => exact ⟨g, by simpa [Call.accepts, Call.run] using (h.sendAck ok).1⟩
  | recvAck e ack =>
    obtain ⟨n, i, -, -, h₁, -⟩ := h.recvAck e ack
    exact ⟨_, by simpa [Call.accepts, Call.run] using h₁⟩
  | recvPack e d =>
    obtain ⟨n, i, -, -, h₁, -⟩ := h.recvPack e d
    exact ⟨_, by simpa [Call.accepts, Call.run] using h₁⟩

/-- Between two calls the log moves into the past. -/
theorem SendInv.commit (h : SendInv k past ms c.toCore g) :
    SendInv k (past ++ c.log.filter Event.isRelease) ms c.quiet.toCore g :=
  { h with log := by simpa [Channel.quiet] using h.log }

end

theorem PeerInv.step {k : Nat} {p : Peer} {g : Marks} (h : PeerInv k p g) (call : Call) :
    ∃ g', PeerInv k (p.step call) g' := by
  rw [Peer.step]
  split
  · obtain ⟨g', h'⟩ := SendInv.call h call
    refine ⟨g', ?_⟩
    rw [PeerInv]
    simpa using h'.commit
  · exact ⟨g, h⟩

/-- After any calls at all, both rings are in order; an acknowledged position is released in at
most as many turns as packs are outstanding; and the releases of the whole run are those of the
accepted messages, in order: all packs of a message, then the message itself out of its own slot,
`done` messages completely and `rest` packs of the next one. -/
theorem send_window {k : Nat} (hk : k ≤ 15) (cid : UInt16) (clock : UInt64) (calls : List Call) :
    let p := run Peer.step (Peer.fresh (sn (2 ^ k)) cid clock) calls
    p.chan.sendbuf.Ordered ∧ p.chan.msgbuf.Ordered ∧
      (∀ pos now, let c := { p.chan.quiet with recvTs := now, ackTs := now }
        ∃ n, n ≤ c.sendbuf.recvable.toNat ∧ ReleaseTurns pos c n ∧ releaseLoop pos loopFuel c = releaseOne^[n] c) ∧
      ∃ done rest, done ≤ p.accepted.length ∧ (done = p.accepted.length → rest = 0) ∧
        (∀ m, p.accepted[done]? = some m → rest < packs m) ∧
        p.chan.sendbuf.rpos = sn (start p.accepted done + rest) ∧
        p.trace.filter Event.isRelease = releaseLog p.accepted done rest := by
  intro p
  have hfresh : ∃ g, PeerInv k (Peer.fresh (sn (2 ^ k)) cid clock) g := ⟨_, SendInv.create hk cid clock⟩
  have hstep : ∀ q call, (∃ g, PeerInv k q g) → ∃ g, PeerInv k (q.step call) g :=
    fun _ call ⟨_, hq⟩ => hq.step call
  obtain ⟨g, h⟩ : ∃ g, PeerInv k p g := invariant hstep calls hfresh
  have hlow := h.doneAt.low
  refine ⟨h.ring.ordered, h.queue.ordered, ?_, g.done, g.released - start p.accepted g.done, h.doneAt.le,
    ?_, ?_, ?_, ?_⟩
  · intro pos now
    have hstamp : SendInv k _ p.accepted { p.chan.quiet with recvTs := now, ackTs := now }.toCore g := h
    have hfuel : g.sent - g.released ≤ loopFuel := by
      have := h.ring.send_le
      have := h.ring.room
      have := h.ring.pow_le
      simp only [loopFuel]
      omega
    obtain ⟨n, d, hn, hloop, -, hturns, -⟩ := hstamp.release_loop pos loopFuel hfuel
    refine ⟨n, ?_, hturns, hloop⟩
    rw [Ring.recvable]
    exact hn.trans (Nat.le_of_eq h.ring.recvable.symm)
  · intro hd
    have := h.doneAt.stop hd
    omega
  · intro m hm
    have := h.doneAt.high m hm
    omega
  · have := h.ring.rpos
    rw [Nat.add_sub_cancel' hlow]
    exact this
  · simpa [Channel.quiet] using h.log

theorem send_window_of_64 :
    6 ≤ 15 ∧ (run Peer.step (Peer.fresh (sn (2 ^ 6)) 0 0)
      [.send ⟨xpackTypeMsg, [], by decide⟩, .sendPack 5 true]).chan.sendbuf.Ordered :=
  ⟨by decide, (send_window (by decide) 0 0 _).1⟩

end Wenas.Xmsger
