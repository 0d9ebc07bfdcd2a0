import Wenas.Xmsger.Window

/-!
# Messages in the message ring

`xmsger_send`, `xmsger_connect` and `xmsger_disconnect` push into the same ring of eight slots.
`xmsger_send` tests for room and `xmsger_connect` pushes into a new ring, but the `RES` branch of
`xmsger_local_recv` writes without looking.
-/
namespace Wenas.Xmsger

open Wenas.Serial Wenas.Machine

/-- What happens to a channel: the calls of the message loop and of `xmsger_send`, and the `RES` branch
of `xmsger_local_recv`. -/
inductive Input where
  | call : Call → Input
  | disconnect : Message → Input

def Peer.take (p : Peer) : Input → Peer
  | .call call => p.step call
  | .disconnect m =>
    if p.up then { p with chan := pushMsg m p.chan.quiet, accepted := p.accepted ++ [m] } else p

/-- The `REQ` branch of `xmsger_local_recv`. -/
def Peer.connect (m : Message) (cid : UInt16) (clock : UInt64) : Peer :=
  ⟨{ pushMsg m (xchannelCreate xpackSerialRange cid clock) with req := some 0 }, [m], [], true⟩

/-- A channel is made for a connection of a peer or for one of our own. -/
inductive Opens : Peer → Prop where
  | accept (k : Nat) (hk : k ≤ 15) (cid : UInt16) (clock : UInt64) : Opens (Peer.fresh (sn (2 ^ k)) cid clock)
  | connect (m : Message) (cid : UInt16) (clock : UInt64) : Opens (Peer.connect m cid clock)

/-- The message ring is not overfull, a message stays in its slot until it is completely acknowledged,
and `xchannel_serial_msg`, alone or inside `xchannel_send_pack`, finds no empty slot. -/
structure Kept (p : Peer) : Prop where
  bounded : p.chan.msgbuf.wpos - p.chan.msgbuf.rpos ≤ p.chan.msgbuf.range
  slots : ∀ i < p.accepted.length, (∀ o, .toPeer i o ∉ p.trace) →
    p.chan.msgbuf.buf (slot p.chan.msgbuf.range (sn i)) = some i
  serial : .fault ∉ (xchannelSerialMsg p.chan.quiet).log
  sending : ∀ clock ok, .fault ∉ (xchannelSendPack clock ok p.chan.quiet).log

/-- A `RES` message finds a free slot. -/
def RoomForRes (p : Peer) : Input → Prop
  | .call _ => True
  | .disconnect _ => p.up = true → 0 < p.chan.msgbuf.writable

theorem mem_releaseLog {ms : List Message} {done i : Nat} (rest : Nat) (hi : i < done) (hd : done ≤ ms.length) :
    .toPeer i (some i) ∈ releaseLog ms done rest := by
  have hlen : i < (ms.take done).length := by
    rw [List.length_take]
    omega
  have hmem : ((ms.take done)[i], i) ∈ (ms.take done).zipIdx := by
    rw [List.mem_zipIdx_iff_getElem?]
    exact List.getElem?_eq_getElem hlen
  refine List.mem_append_left _ (List.mem_flatMap.mpr ⟨_, hmem, ?_⟩)
  simp [messageLog]

theorem PeerInv.kept {k : Nat} {p : Peer} {g : Marks} (h : PeerInv k p g) : Kept p := by
  have hqueue : p.chan.msgbuf.Holds (fun i o => o = some i) (fun o => o = none) 3 g.done g.written p.accepted.length :=
    h.queue
  refine ⟨hqueue.ordered.2, ?_, ?_, ?_⟩
  · intro i hi hnot
    have hdone : g.done ≤ i := by
      by_contra hlt
      have hlog : p.trace.filter Event.isRelease = releaseLog p.accepted g.done
          (g.released - start p.accepted g.done) := by
        simpa [Channel.quiet] using h.log
      have hmem := mem_releaseLog (g.released - start p.accepted g.done) (show i < g.done by omega) h.doneAt.le
      rw [← hlog] at hmem
      exact hnot _ (List.mem_filter.mp hmem).1
    rw [hqueue.range, slot_sn (by decide)]
    exact hqueue.used i hdone hi
  · have hlog := (SendInv.serial h).1
    rw [hlog]
    simp [Channel.quiet]
  · intro clock ok
    obtain ⟨s, n, w, -, -, new, hlog, hnew⟩ := SendInv.sendPack (A := fun _ => True) h clock ok (fun _ => trivial)
    rw [hlog]
    intro hmem
    have hmem' : Event.fault ∈ new := by simpa [Channel.quiet] using hmem
    exact hnew _ hmem'

theorem PeerInv.take {k : Nat} {p : Peer} {g : Marks} (h : PeerInv k p g) {i : Input} (hi : RoomForRes p i) :
    ∃ g', PeerInv k (p.take i) g' := by
  cases i with
  | call call => exact h.step call
  | disconnect m =>
    rw [Peer.take]
    split
    · rename_i hup
      have hroom := (Ring.Holds.writable_pos h.queue).mp (hi hup)
      exact ⟨g, SendInv.push h hroom m⟩
    · exact ⟨g, h⟩

theorem Opens.inv {p : Peer} (h : Opens p) : ∃ k g, PeerInv k p g := by
  cases h with
  | accept k hk cid clock => exact ⟨k, _, SendInv.create hk cid clock⟩
  | connect m cid clock =>
    have hfresh : SendInv 6 [] [] (xchannelCreate xpackSerialRange cid clock).toCore ⟨0, 0, 0, 0, 0⟩ :=
      SendInv.create (by decide) cid clock
    exact ⟨6, _, (hfresh.push (by decide) m).congr rfl rfl rfl rfl⟩

/-- A ring without room is overfull after one more message. -/
theorem PeerInv.overfull {k : Nat} {p : Peer} {g : Marks} (h : PeerInv k p g) (hfull : ¬ 0 < p.chan.msgbuf.writable)
    (hup : p.up = true) (m : Message) : ¬ Kept (p.take (.disconnect m)) := by
  intro hkept
  have hqueue : p.chan.msgbuf.Holds (fun i o => o = some i) (fun o => o = none) 3 g.done g.written p.accepted.length :=
    h.queue
  have hlen : p.accepted.length = g.done + 8 := by
    have hw := hqueue.writable_pos.not.mp hfull
    have hroom := hqueue.room
    omega
  have hbounded := hkept.bounded
  simp only [Peer.take, hup, if_true] at hbounded
  have hle : p.chan.msgbuf.wpos + 1 - p.chan.msgbuf.rpos ≤ p.chan.msgbuf.range := hbounded
  rw [hqueue.wpos, hqueue.rpos, hqueue.range, hlen, UInt16.le_iff_toNat_le, UInt16.toNat_sub, UInt16.toNat_add] at hle
  simp only [sn_toNat, UInt16.toNat_one] at hle
  omega

theorem kept_iff (is : List Input) : ∀ {k : Nat} {p : Peer} {g : Marks}, PeerInv k p g →
    ((∀ j, Kept (run Peer.take p (is.take j))) ↔ Along Peer.take RoomForRes p is) := by
  induction is with
  | nil =>
    intro k p g h
    simpa [Along] using h.kept
  | cons i is ih =>
    intro k p g h
    constructor
    · intro hall
      have hroom : RoomForRes p i := by
        cases i with
        | call => trivial
        | disconnect m =>
          intro hup
          by_contra hfull
          exact h.overfull hfull hup m (hall 1)
      obtain ⟨g', h'⟩ := h.take hroom
      exact ⟨hroom, (ih h').mp (fun j => hall (j + 1))⟩
    · rintro ⟨hroom, hrest⟩ j
      obtain ⟨g', h'⟩ := h.take hroom
      cases j with
      | zero => exact h.kept
      | succ j => exact (ih h').mpr hrest j

/-- Whatever is sent and acknowledged, no message is overwritten exactly if no `RES` message is pushed
into a full ring. -/
theorem messages_kept (p : Peer) (hp : Opens p) (is : List Input) :
    (∀ j, Kept (run Peer.take p (is.take j))) ↔ Along Peer.take RoomForRes p is := by
  obtain ⟨k, g, h⟩ := hp.inv
  exact kept_iff is h

theorem messages_kept_connect :
    Opens (Peer.connect ⟨xpackTypeReq, [], by decide⟩ 0 0) ∧
      Kept (run Peer.take (Peer.connect ⟨xpackTypeReq, [], by decide⟩ 0 0)
        [.call .serial, .disconnect ⟨xpackTypeRes, [], by decide⟩]) :=
  ⟨.connect _ _ _, (messages_kept _ (.connect _ _ _) [.call .serial, .disconnect ⟨xpackTypeRes, [], by decide⟩]).mpr
    ⟨trivial, fun _ => by decide +kernel, trivial⟩ 2⟩

/-- Eight messages wait when the connection is closed. -/
theorem message_overwritten :
    ¬ Kept (run Peer.take (Peer.fresh xpackSerialRange 0 0)
      (List.replicate 8 (.call (.send ⟨xpackTypeMsg, [7], by decide⟩)) ++ [.disconnect ⟨xpackTypeRes, [], by decide⟩])) := by
  intro h
  have hquiet : ∀ o, .toPeer 0 o ∉ (run Peer.take (Peer.fresh xpackSerialRange 0 0)
      (List.replicate 8 (.call (.send ⟨xpackTypeMsg, [7], by decide⟩)) ++
        [.disconnect ⟨xpackTypeRes, [], by decide⟩])).trace := by
    intro o hmem
    cases hmem
  have hslot := h.slots 0 (by decide +kernel) hquiet
  exact absurd hslot (by decide +kernel)

end Wenas.Xmsger
