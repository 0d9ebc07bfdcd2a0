import Wenas.Lib.Slots
import Wenas.Xmsger.Queue
import Wenas.Xmsger.RecvRing

/-!
# What a channel owns

A channel owns the frames it accepted until they go back to the peer, and the packs it keeps until `xchannel_recv_msg`
frees them. Whatever happens, `xchannel_clear` frees the rest: each frame goes back or is freed, and goes once; each pack
is freed once, if no other pack was put over it. On the request of a connection of our own the channel holds a second
reference, which it gives up last.
-/
namespace Wenas.Xmsger

open Wenas.Serial Wenas.Machine

/-- The frames that went back, by their places. -/
def returned (l : List Event) : List Nat :=
  l.filterMap fun
    | .toPeer i _ => some i
    | _ => none

/-- The packs the channel took over. -/
def stored (l : List Event) : List Dgram :=
  l.filterMap fun
    | .store _ d => some d
    | _ => none

/-- The packs that were in a slot when another one was put there. -/
def overwritten (l : List Event) : List Dgram :=
  l.filterMap fun
    | .store old _ => old
    | _ => none

/-- The packs that `xchannel_recv_msg` freed. -/
def freedPacks (l : List Event) : List Dgram :=
  l.filterMap fun
    | .consume _ d => some d
    | _ => none

/-! ### Frames -/

theorem returned_append (l l' : List Event) : returned (l ++ l') = returned l ++ returned l' := by simp [returned]

theorem returned_release (l : List Event) : returned (l.filter Event.isRelease) = returned l := by
  induction l with
  | nil => rfl
  | cons e l ih => cases e <;> simp_all [returned, Event.isRelease, List.filter_cons]

theorem returned_replicate (n i : Nat) : returned (List.replicate n (.release i)) = [] := by
  simp [returned]

theorem returned_releaseLog {ms : List Message} {done : Nat} (hd : done ≤ ms.length) (rest : Nat) :
    returned (releaseLog ms done rest) = List.range done := by
  induction done generalizing rest with
  | zero => simp [releaseLog, returned_replicate]
  | succ done ih =>
    have hlog : releaseLog ms (done + 1) rest =
        releaseLog ms (done + 1) 0 ++ List.replicate rest (.release (done + 1)) := by
      simp [releaseLog]
    have hget := List.getElem?_eq_getElem (show done < ms.length by omega)
    rw [hlog, returned_append, returned_replicate, ← releaseLog_done hget, returned_append, ih (by omega), List.range_succ,
      List.append_nil]
    rfl

theorem range_cut {r n : Nat} (h : r ≤ n) : List.range n = List.range r ++ List.range' r (n - r) := by
  have happend := List.range'_append_1 (s := 0) (m := r) (n := n - r)
  rw [Nat.zero_add, Nat.add_sub_cancel' h] at happend
  rw [List.range_eq_range', List.range_eq_range', happend]

theorem PeerInv.frames {k : Nat} {p : Peer} {g : Marks} (h : PeerInv k p g) :
    (returned p.trace ++ p.chan.msgbuf.items).Perm (List.range p.accepted.length) := by
  have hdone : g.done ≤ p.accepted.length := h.doneAt.le
  have hlog : p.trace.filter Event.isRelease = releaseLog p.accepted g.done (g.released - start p.accepted g.done) := by
    simpa [Channel.quiet] using h.log
  have hqueue : p.chan.msgbuf.Holds (fun i o => o = some i) (fun o => o = none) 3 g.done g.written p.accepted.length :=
    h.queue
  rw [← returned_release, hlog, returned_releaseLog hdone, range_cut hdone]
  exact hqueue.items.append_left _

/-- Every slot index lies in the receive ring. -/
def InSlots (x : Core) : Prop := ∀ n, slot x.recvbuf.range n < x.recvbuf.range.toNat

/-- Between `x` and `y` the packs taken over are those freed, those overwritten and those that came into the ring. -/
structure Trades (x y : Core) : Prop where
  range : y.recvbuf.range = x.recvbuf.range
  log : ∃ new, y.log = x.log ++ new ∧ ∀ d, (stored new).count d + x.recvbuf.items.count d =
    (freedPacks new).count d + (overwritten new).count d + y.recvbuf.items.count d

theorem Trades.refl (x : Core) : Trades x x := ⟨rfl, [], by simp, fun d => by simp [stored, freedPacks, overwritten]⟩

theorem Trades.trans {x y z : Core} (h : Trades x y) (h' : Trades y z) : Trades x z := by
  obtain ⟨l, hl, hcount⟩ := h.log
  obtain ⟨l', hl', hcount'⟩ := h'.log
  refine ⟨h'.range.trans h.range, l ++ l', by rw [hl', hl, List.append_assoc], fun d => ?_⟩
  have hd := hcount d
  have hd' := hcount' d
  simp only [stored, freedPacks, overwritten, List.filterMap_append, List.count_append] at hd hd' ⊢
  omega

/-- A change that leaves the slots and the log alone. -/
theorem Trades.same {x y : Core} (hrange : y.recvbuf.range = x.recvbuf.range) (hbuf : y.recvbuf.buf = x.recvbuf.buf)
    (hlog : y.log = x.log) : Trades x y := by
  refine ⟨hrange, [], by rw [hlog, List.append_nil], fun d => ?_⟩
  rw [Ring.items, Ring.items, hrange, hbuf]
  simp [stored, freedPacks, overwritten]

theorem Trades.apart {x y : Core} (h : Apart x y) : Trades x y := by
  obtain ⟨new, hlog, hnew⟩ := h.log
  have hbuf := h.recvbuf
  refine ⟨by rw [hbuf], new, hlog, fun d => ?_⟩
  have hstored : stored new = [] := List.filterMap_eq_nil_iff.mpr fun e he => by
    have hrecv := hnew e he
    cases e <;> simp_all [Event.isRecv]
  have hfreed : freedPacks new = [] := List.filterMap_eq_nil_iff.mpr fun e he => by
    have hrecv := hnew e he
    cases e <;> simp_all [Event.isRecv]
  have hover : overwritten new = [] := List.filterMap_eq_nil_iff.mpr fun e he => by
    have hrecv := hnew e he
    cases e <;> simp_all [Event.isRecv]
  rw [hstored, hfreed, hover, hbuf]
  simp

section

variable {c : Channel} {d : Dgram} {e : Env}

theorem InSlots.trades {x y : Core} (h : InSlots x) (ht : Trades x y) : InSlots y := by
  intro n
  rw [ht.range]
  exact h n

/-- The pack takes the place of what was in its slot. -/
theorem Trades.storePack (h : InSlots c.toCore) (d : Dgram) : Trades c.toCore (storePack d c).toCore := by
  refine ⟨rfl, [.store (c.recvbuf.buf (slot c.recvbuf.range d.head.sn)) d], rfl, fun d' => ?_⟩
  have hslot := h d.head.sn
  change _ = _ + (c.recvbuf.put (slot c.recvbuf.range d.head.sn) (some d)).items.count d'
  cases hold : c.recvbuf.buf (slot c.recvbuf.range d.head.sn) with
  | none =>
    rw [(Ring.items_fill hslot hold).count_eq]
    simp [stored, freedPacks, overwritten, List.count_cons]
    omega
  | some old =>
    have hempty := (Ring.items_empty hslot hold).count_eq d'
    have hfill := (Ring.items_fill (b := c.recvbuf.put (slot c.recvbuf.range d.head.sn) none) (x := d) hslot
      (Ring.put_buf_self ..)).count_eq d'
    rw [Ring.put_put] at hfill
    rw [hempty, hfill]
    simp [stored, freedPacks, overwritten, List.count_cons]
    omega

theorem Trades.advanceLoop (fuel : Nat) : Trades c.toCore (advanceLoop fuel c).toCore := by
  induction fuel generalizing c with
  | zero => exact Trades.refl _
  | succ fuel ih =>
    rw [Xmsger.advanceLoop]
    split
    · have hrest := ih (c := { c with recvbuf := { c.recvbuf with wpos := c.recvbuf.wpos + 1 } }.setAck
        (c.recvbuf.wpos + 1) (c.recvbuf.wpos + 1))
      refine Trades.trans ?_ hrest
      exact .same rfl rfl rfl
    · exact Trades.refl _

/-- A consumed pack leaves its slot. -/
theorem Trades.recvMsgOne (h : InSlots c.toCore) (hd : c.recvbuf.buf c.recvbuf.rslot = some d) :
    Trades c.toCore (recvMsgOne d c).toCore := by
  obtain ⟨-, hlog, hbuf, -⟩ := recvMsgOne_spec (n := c.recvbuf.rpos.toNat) (c := c) (by simp [sn]) d
  refine ⟨by rw [hbuf]; rfl, _, hlog, fun d' => ?_⟩
  have hslot : c.recvbuf.rslot < c.recvbuf.range.toNat := h c.recvbuf.rpos
  have hempty := (Ring.items_empty hslot hd).count_eq d'
  have hitems : (Xmsger.recvMsgOne d c).recvbuf.items = (c.recvbuf.put c.recvbuf.rslot none).items := by
    rw [hbuf]
    rfl
  rw [hitems, hempty, takenWith]
  split <;> simp [stored, freedPacks, overwritten, List.count_cons] <;> omega

theorem Trades.recvMsgLoop (fuel : Nat) (h : InSlots c.toCore) : Trades c.toCore (recvMsgLoop e fuel c).1.toCore := by
  induction fuel generalizing c with
  | zero => exact Trades.refl _
  | succ fuel ih =>
    rw [Xmsger.recvMsgLoop]
    split
    · exact Trades.refl _
    · next d hd =>
      split
      · exact Trades.refl _
      · have hone := Trades.recvMsgOne h hd
        exact hone.trans (ih (h.trades hone))

theorem Trades.recvMsg (h : InSlots c.toCore) : Trades c.toCore (xchannelRecvMsg e c).1.toCore := by
  rw [xchannelRecvMsg]
  dsimp only
  split
  · split
    · exact Trades.apart (Apart.emit rfl)
    · exact Trades.trans (.same rfl rfl rfl) (Trades.recvMsgLoop (c := { c with recvTs := e.clock }) _ h)
  · exact .same rfl rfl rfl

theorem Trades.recvPack (h : InSlots c.toCore) : Trades c.toCore (xchannelRecvPack e d c).1.toCore := by
  have hnote : Trades c.toCore (noteType d c).toCore := .same rfl rfl rfl
  have hin := h.trades hnote
  rw [xchannelRecvPack]
  suffices hpack : ∀ c' : Channel, Trades (noteType d c).toCore c'.toCore →
      Trades c.toCore (xchannelRecvMsg e c').1.toCore by
    apply hpack
    split
    · have hcarried := Trades.apart (Apart.recvCarried (c := noteType d c) e d)
      have hstore := Trades.storePack (hin.trades hcarried) d
      have hadvance := Trades.advanceLoop (c := storeNext d (recvCarried e d (noteType d c))) loopFuel
      refine (hcarried.trans hstore).trans (Trades.trans ?_ hadvance)
      exact .same rfl rfl rfl
    · split
      · rw [recvEarly]
        split
        · have hset : Trades (noteType d c).toCore ((noteType d c).setAck d.head.sn (noteType d c).recvbuf.wpos).toCore :=
            .same rfl rfl rfl
          have hcarried := Trades.apart
            (Apart.recvCarried (c := (noteType d c).setAck d.head.sn (noteType d c).recvbuf.wpos) e d)
          exact hset.trans (hcarried.trans (Trades.storePack ((hin.trades hset).trades hcarried) d))
        · exact .same rfl rfl rfl
      · exact .same rfl rfl rfl
  intro c' hc'
  exact (hnote.trans hc').trans (Trades.recvMsg (hin.trades hc'))

end

theorem Trades.call {c : Channel} (h : InSlots c.toCore) (call : Call) : Trades c.toCore (call.run c).1.toCore := by
  by_cases hpack : ∃ e d, call = .recvPack e d
  · obtain ⟨e, d, rfl⟩ := hpack
    exact Trades.recvPack h
  · push Not at hpack
    exact Trades.apart (call.apart hpack c).1

/-- The packs taken over so far are accounted for. -/
structure Accounted (p : Peer) : Prop where
  slots : InSlots p.chan.toCore
  count : ∀ d, (stored p.trace).count d =
    (freedPacks p.trace).count d + (overwritten p.trace).count d + p.chan.recvbuf.items.count d

theorem Accounted.take {p : Peer} (h : Accounted p) (i : Input) : Accounted (p.take i) := by
  cases i with
  | disconnect m =>
    rw [Peer.take]
    split
    · exact ⟨h.slots, h.count⟩
    · exact h
  | call call =>
    rw [Peer.take, Peer.step]
    split
    · have htrades := Trades.call (c := p.chan.quiet) h.slots call
      obtain ⟨new, hlog, hcount⟩ := htrades.log
      refine ⟨InSlots.trades (x := p.chan.quiet.toCore) h.slots htrades, fun d => ?_⟩
      have hd := h.count d
      have hd' := hcount d
      have hlog' : (call.run p.chan.quiet).1.log = new := hlog
      have hitems : p.chan.quiet.recvbuf.items = p.chan.recvbuf.items := rfl
      rw [hitems] at hd'
      simp only [hlog', stored, freedPacks, overwritten, List.filterMap_append, List.count_append] at hd hd' ⊢
      omega
    · exact h

theorem Opens.slots {p : Peer} (h : Opens p) : ∃ k, SlotInv k p := by
  cases h with
  | accept k hk cid clock => exact ⟨k, by simp [Peer.fresh], fun _ => ⟨0, RecvInv.create hk cid clock⟩⟩
  | connect m cid clock =>
    have hcreate : RecvInv Numbered 6 0 (xchannelCreate xpackSerialRange cid clock).toCore :=
      RecvInv.create (by decide) cid clock
    exact ⟨6, by simp [Peer.connect], fun _ => ⟨0, hcreate.sorted, hcreate.empty, hcreate.ready.type, hcreate.ready.pos⟩⟩

/-- No early pack that is kept lies a ring or more ahead. -/
def Input.InRing (p : Peer) : Input → Prop
  | .call c => c.InRing p
  | .disconnect _ => True

instance (p : Peer) : DecidablePred (Input.InRing p) := fun i =>
  match i with
  | .call c => inferInstanceAs (Decidable (Call.InRing p c))
  | .disconnect _ => .isTrue trivial

theorem SlotInv.take {k : Nat} (p : Peer) (i : Input) (h : SlotInv k p) (hi : i.InRing p) : SlotInv k (p.take i) := by
  cases i with
  | call call => exact h.step p call hi
  | disconnect m =>
    rw [Peer.take]
    split
    · refine ⟨h.trace, fun hup => ?_⟩
      obtain ⟨n, hn⟩ := h.recv hup
      exact ⟨n, hn.sorted, hn.empty, hn.ready.type, hn.ready.pos⟩
    · exact h

end Wenas.Xmsger
