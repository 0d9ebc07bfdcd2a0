import Wenas.Xmsger.Ledger

/-!
# The byte counters of a channel

`channel->wpos` counts the bytes of the accepted messages and `channel->rpos` the acknowledged ones. Where the two are
equal, the release loop starts the measurement again and `xmsger_send_all` begins to look at the clock. Both wrap at 64
bits and neither is ever set back.
-/
namespace Wenas.Xmsger

open Wenas.Serial Wenas.Machine

/-- `msg->wpos` of all frames. -/
def sizes (fs : List Frame) : Nat := (fs.map fun f => f.wpos.toNat).sum

/-- `msg->rpos` of all frames. -/
def acked (fs : List Frame) : Nat := (fs.map fun f => f.rpos.toNat).sum

/-- What is not acknowledged yet of a frame. -/
def Frame.left (f : Frame) : Nat := f.wpos.toNat - f.rpos.toNat

def Channel.left (c : Channel) (i : Nat) : Nat := (c.frames[i]?).elim 0 Frame.left

/-- The counters of the channel are those of its frames. -/
structure Tallied (c : Channel) : Prop where
  wpos : c.wpos = UInt64.ofNat (sizes c.frames)
  rpos : c.rpos = UInt64.ofNat (acked c.frames)

theorem sum_map_set {α : Type} (f : α → Nat) (b : α) :
    ∀ {l : List α} {i : Nat} {a : α}, l[i]? = some a → ((l.set i b).map f).sum + f a = (l.map f).sum + f b := by
  intro l
  induction l with
  | nil =>
    intro i a h
    cases h
  | cons x l ih =>
    intro i a h
    cases i with
    | zero =>
      have hx : x = a := by simpa using h
      rw [hx, List.set_cons_zero, List.map_cons, List.map_cons, List.sum_cons, List.sum_cons]
      omega
    | succ i =>
      have hrest := ih (i := i) (a := a) (by simpa using h)
      rw [List.set_cons_succ, List.map_cons, List.map_cons, List.sum_cons, List.sum_cons]
      omega

theorem map_set_same {α β : Type} {f : α → β} {l : List α} {i : Nat} {a b : α} (ha : l[i]? = some a) (hb : f b = f a) :
    (l.set i b).map f = l.map f := by
  obtain ⟨hi, rfl⟩ := List.getElem?_eq_some_iff.mp ha
  have hi' : i < (l.map f).length := by simpa using hi
  have hget : (l.map f)[i] = f l[i] := List.getElem_map f
  rw [List.map_set, hb, ← hget, List.set_getElem_self]

/-! ### What neither accepts nor releases -/

/-- From `c` to `c'` nothing was accepted and nothing acknowledged. -/
structure Still (c c' : Channel) : Prop where
  wpos : c'.wpos = c.wpos
  rpos : c'.rpos = c.rpos
  sizes : c'.frames.map Frame.wpos = c.frames.map Frame.wpos
  acked : c'.frames.map Frame.rpos = c.frames.map Frame.rpos

theorem Still.same {c c' : Channel} (hw : c'.wpos = c.wpos) (hr : c'.rpos = c.rpos) (hf : c'.frames = c.frames) :
    Still c c' := ⟨hw, hr, by rw [hf], by rw [hf]⟩

theorem Still.refl (c : Channel) : Still c c := .same rfl rfl rfl

theorem Still.trans {a b c : Channel} (h : Still a b) (h' : Still b c) : Still a c where
  wpos := h'.wpos.trans h.wpos
  rpos := h'.rpos.trans h.rpos
  sizes := h'.sizes.trans h.sizes
  acked := h'.acked.trans h.acked

theorem Tallied.still {c c' : Channel} (h : Tallied c) (hs : Still c c') : Tallied c' := by
  have hsizes : Xmsger.sizes c'.frames = Xmsger.sizes c.frames := by
    have hmap := congrArg (List.map UInt64.toNat) hs.sizes
    rw [List.map_map, List.map_map] at hmap
    exact congrArg List.sum hmap
  have hacked : Xmsger.acked c'.frames = Xmsger.acked c.frames := by
    have hmap := congrArg (List.map UInt64.toNat) hs.acked
    rw [List.map_map, List.map_map] at hmap
    exact congrArg List.sum hmap
  exact ⟨by rw [hs.wpos, hsizes, h.wpos], by rw [hs.rpos, hacked, h.rpos]⟩

section

variable {c : Channel}

theorem Still.sampleRtt (rtt : UInt64) : Still c (sampleRtt rtt c) := by
  rw [Xmsger.sampleRtt]
  dsimp only
  split <;> exact .same rfl rfl rfl

theorem Still.sampleRate (kabuf : UInt64) : Still c (sampleRate kabuf c) := by
  unfold Xmsger.sampleRate
  dsimp only
  repeat' split
  all_goals exact .same rfl rfl rfl

theorem Still.sample (i : Nat) : Still c (sampleUnlessDone i c) := by
  rw [sampleUnlessDone]
  split
  · have hrtt := Still.sampleRtt (c := c) (c.ackTs - (c.sendbuf.buf i).ts)
    have hset : ∀ (c : Channel) (p : Pack), Still c (c.setPack i p) := fun c p => .same rfl rfl rfl
    exact (hrtt.trans (.sampleRate (c.sendbuf.buf i).kabuf)).trans (hset _ _)
  · exact Still.refl c

theorem Still.fastResend (e : Env) (sn : UInt16) (fuel : Nat) (index : UInt16) :
    Still c (fastResend e sn fuel index c) := by
  induction fuel generalizing c index with
  | zero => exact Still.refl c
  | succ fuel ih =>
    rw [Xmsger.fastResend]
    dsimp only
    split
    · exact Still.refl c
    · split
      · split
        · exact .same rfl rfl rfl
        · refine Still.trans ?_ (ih _)
          exact .same rfl rfl rfl
      · exact ih _

theorem Still.early (e : Env) (sn : UInt16) : Still c (recvAckEarly e sn c) := by
  rw [recvAckEarly]
  split
  · have hresend := Still.fastResend (c := sampleUnlessDone (slot c.sendbuf.range sn) c) e sn loopFuel
      (sampleUnlessDone (slot c.sendbuf.range sn) c).sendbuf.rpos
    exact (Still.sample _).trans hresend
  · exact Still.sample _

theorem Still.resend (clock : UInt64) (ok : Bool) : Still c (xchannelResend clock ok c) := by
  rw [xchannelResend]
  dsimp only
  split
  · split <;> exact .same rfl rfl rfl
  · exact Still.refl c

/-- Cutting a pack moves `msg->spos` only. -/
theorem Still.serial : Still c (xchannelSerialMsg c) := by
  rw [xchannelSerialMsg]
  split
  · split
    · exact .same rfl rfl rfl
    · split
      · exact .same rfl rfl rfl
      · next f hf => exact ⟨rfl, rfl, map_set_same hf rfl, map_set_same hf rfl⟩
  · exact Still.refl c

theorem Still.sendPack (clock : UInt64) (ok : Bool) : Still c (xchannelSendPack clock ok c) := by
  have hready : Still c (serialUnlessReady c) := by
    rw [serialUnlessReady]
    split
    · exact Still.serial
    · exact Still.refl c
  refine hready.trans ?_
  rw [xchannelSendPack]
  dsimp only
  generalize serialUnlessReady c = r
  have hout : Still r ((r.setPack r.sendbuf.sslot r.outgoing).emit (.sendto r.outgoing.dgram ok)) := .same rfl rfl rfl
  split
  · split
    · have hmark : ∀ c : Channel, Still c (c.markSent clock) := fun c => .same rfl rfl rfl
      exact hout.trans ((hmark _).trans Still.serial)
    · exact hout
  · exact Still.refl _

theorem Still.advanceLoop (fuel : Nat) : Still c (advanceLoop fuel c) := by
  induction fuel generalizing c with
  | zero => exact Still.refl c
  | succ fuel ih =>
    rw [Xmsger.advanceLoop]
    split
    · refine Still.trans ?_ ih
      exact .same rfl rfl rfl
    · exact Still.refl c

theorem Still.recvMsgLoop (e : Env) (fuel : Nat) : Still c (recvMsgLoop e fuel c).1 := by
  induction fuel generalizing c with
  | zero => exact Still.refl c
  | succ fuel ih =>
    rw [Xmsger.recvMsgLoop]
    split
    · exact Still.refl c
    · next d _ =>
      split
      · exact Still.refl c
      · refine Still.trans ?_ ih
        rw [recvMsgOne]
        dsimp only
        split <;> exact .same rfl rfl rfl

theorem Still.recvMsg (e : Env) : Still c (xchannelRecvMsg e c).1 := by
  rw [xchannelRecvMsg]
  dsimp only
  split
  · split
    · exact .same rfl rfl rfl
    · have hloop := Still.recvMsgLoop (c := { c with recvTs := e.clock }) e (loopFuel + 1)
      refine Still.trans ?_ hloop
      exact .same rfl rfl rfl
  · exact .same rfl rfl rfl

/-! ### Accepting and releasing -/

theorem Tallied.push (h : Tallied c) (m : Message) : Tallied (pushMsg m c) := by
  have hfits := m.fits
  have hsize : (xmsgFixed m).wpos.toNat = m.data.length := by
    change (UInt64.ofNat m.data.length).toNat = m.data.length
    rw [UInt64.toNat_ofNat']
    omega
  constructor
  · change c.wpos + UInt64.ofNat m.data.length = UInt64.ofNat (sizes (c.frames ++ [xmsgFixed m]))
    rw [sizes, List.map_append, List.sum_append, List.map_singleton, List.sum_singleton, hsize, h.wpos]
    exact (UInt64.ofNat_add ..).symm
  · change c.rpos = UInt64.ofNat (acked (c.frames ++ [xmsgFixed m]))
    rw [acked, List.map_append, List.sum_append, List.map_singleton, List.sum_singleton]
    exact h.rpos

theorem releaseMsg_tally {i j : Nat} {f : Frame} (hmsg : (c.sendbuf.buf j).msg = some i) (hf : c.frames[i]? = some f) :
    (releaseMsg j c).wpos = c.wpos ∧ (releaseMsg j c).rpos = c.rpos ∧
      (releaseMsg j c).frames = c.frames.set i { f with rpos := f.rpos + (c.sendbuf.buf j).head.len.toUInt64 } := by
  simp only [releaseMsg, hmsg, hf]
  split <;> exact ⟨rfl, rfl, rfl⟩

theorem sampled_tally : (sampled c).wpos = c.wpos ∧
    (sampled c).rpos = c.rpos + (c.sendbuf.buf c.sendbuf.rslot).head.len.toUInt64 := by
  have hstill := Still.sample (c := c) c.sendbuf.rslot
  have hhead : ((sampleUnlessDone c.sendbuf.rslot c).sendbuf.buf c.sendbuf.rslot).head.len =
      (c.sendbuf.buf c.sendbuf.rslot).head.len := by
    rw [core_sampleUnlessDone]
    simp
  rw [← hstill.wpos, ← hstill.rpos, ← hhead, sampled, idleReset]
  split <;> exact ⟨rfl, rfl⟩

theorem releaseOne_eq (c : Channel) :
    releaseOne c =
      { releaseMsg c.sendbuf.rslot (sampled c) with
        sendbuf :=
          { (releaseMsg c.sendbuf.rslot (sampled c)).sendbuf with
            rpos := (releaseMsg c.sendbuf.rslot (sampled c)).sendbuf.rpos + 1 } } := rfl

/-- The released pack counts for the channel and for its message. -/
theorem Tallied.releaseOne {i : Nat} {f : Frame} (h : Tallied c) (hmsg : (c.sendbuf.buf c.sendbuf.rslot).msg = some i)
    (hf : c.frames[i]? = some f) : Tallied (releaseOne c) := by
  have hcore := core_sampled c
  have hframes : (sampled c).frames = c.frames := by rw [hcore]
  have hpack : (sampled c).sendbuf.buf c.sendbuf.rslot = { c.sendbuf.buf c.sendbuf.rslot with ts := 0 } := by
    rw [hcore]
    exact Ring.put_buf_self ..
  obtain ⟨hwpos, hrpos, hset⟩ := releaseMsg_tally (c := sampled c) (j := c.sendbuf.rslot) (by rw [hpack]; exact hmsg)
    (by rw [hframes]; exact hf)
  rw [sampled_tally.1] at hwpos
  rw [sampled_tally.2] at hrpos
  rw [hframes, hpack] at hset
  dsimp only at hset
  generalize (c.sendbuf.buf c.sendbuf.rslot).head.len.toUInt64 = len at hrpos hset
  have hsizes := sum_map_set (fun f : Frame => f.wpos.toNat) { f with rpos := f.rpos + len } hf
  have hacked := sum_map_set (fun f : Frame => f.rpos.toNat) { f with rpos := f.rpos + len } hf
  rw [releaseOne_eq]
  constructor
  · dsimp only
    rw [hwpos, hset, h.wpos, sizes, sizes]
    exact congrArg UInt64.ofNat (Nat.add_right_cancel hsizes).symm
  · dsimp only
    rw [hrpos, hset, h.rpos]
    apply UInt64.toNat_inj.mp
    simp only [UInt64.toNat_add] at hacked
    simp only [UInt64.toNat_add, UInt64.toNat_ofNat', acked]
    omega

end

section

variable {k : Nat} {past : List Event} {ms : List Message} {c : Channel} {g : Marks}

theorem Tallied.releaseLoop (pos : UInt16) (fuel : Nat) (hinv : SendInv k past ms c.toCore g) (h : Tallied c) :
    Tallied (releaseLoop pos fuel c) := by
  induction fuel generalizing c g with
  | zero => exact h
  | succ fuel ih =>
    rw [Xmsger.releaseLoop]
    split
    · next hpos =>
      have hlt := (hinv.lt_of_releasable hpos).1
      obtain ⟨m, j, -, hmsg, -, hf⟩ := hinv.next_release hlt
      obtain ⟨d, hnext⟩ := hinv.release hlt
      exact ih hnext (h.releaseOne hmsg hf)
    · exact h

theorem Tallied.recvAck (hinv : SendInv k past ms c.toCore g) (h : Tallied c) (e : Env) (ack : Ack) :
    Tallied (xchannelRecvAck e ack c) := by
  rw [xchannelRecvAck]
  dsimp only
  split
  · have hstamp : Tallied { c with recvTs := e.clock, ackTs := e.clock } := ⟨h.wpos, h.rpos⟩
    have hloop := Tallied.releaseLoop (c := { c with recvTs := e.clock, ackTs := e.clock }) ack.pos loopFuel hinv hstamp
    split
    · exact hloop.still (Still.early e ack.sn)
    · exact hloop
  · exact h

theorem Tallied.recvCarried (hinv : SendInv k past ms c.toCore g) (h : Tallied c) (e : Env) (d : Dgram) :
    Tallied (recvCarried e d c) := by
  rw [Xmsger.recvCarried]
  split
  · exact h.recvAck hinv e d.head.ack
  · exact h

theorem Tallied.recvPack (hinv : SendInv k past ms c.toCore g) (h : Tallied c) (e : Env) (d : Dgram) :
    Tallied (xchannelRecvPack e d c).1 := by
  have hstore : ∀ c : Channel, Still c (storePack d c) := fun c => .same rfl rfl rfl
  have hset : ∀ (c : Channel) (sn pos : UInt16), Still c (c.setAck sn pos) := fun c sn pos => .same rfl rfl rfl
  have hnext : ∀ c : Channel, Still c (storeNext d c) := fun c => .same rfl rfl rfl
  have hagain : ∀ c : Channel, Still c (recvAgain c) := fun c => .same rfl rfl rfl
  have hkind : Still c (noteType d c) := .same rfl rfl rfl
  have hnote := h.still hkind
  have hinv' := hinv.behind (Behind.noteType d)
  rw [xchannelRecvPack]
  split
  · have hcarried := hnote.recvCarried hinv' e d
    have hadvance := Still.advanceLoop (c := storeNext d (Xmsger.recvCarried e d (noteType d c))) loopFuel
    exact hcarried.still (((hnext _).trans hadvance).trans (Still.recvMsg (c := recvInOrder e d (noteType d c)) e))
  · split
    · rw [recvEarly]
      have hearly := hnote.still (hset _ d.head.sn (noteType d c).recvbuf.wpos)
      split
      · have hcarried := hearly.recvCarried (hinv'.behind (Behind.setAck ..)) e d
        exact hcarried.still ((hstore _).trans (Still.recvMsg e))
      · exact hearly.still (Still.recvMsg e)
    · exact hnote.still ((hagain _).trans (Still.recvMsg e))

theorem Tallied.call (hinv : SendInv k past ms c.toCore g) (h : Tallied c) (call : Call) : Tallied (call.run c).1 := by
  cases call with
  | send m =>
    rw [Call.run, xmsgerSend]
    split
    · exact h.push m
    · exact h
  | serial => exact h.still Still.serial
  | sendPack clock ok => exact h.still (Still.sendPack clock ok)
  | resend clock ok => exact h.still (Still.resend clock ok)
  | sendAck ok => cases ok <;> exact h.still (.same rfl rfl rfl)
  | recvAck e ack => exact h.recvAck hinv e ack
  | recvPack e d => exact h.recvPack hinv e d

end

theorem Tallied.take {k : Nat} {p : Peer} {g : Marks} (hinv : PeerInv k p g) (h : Tallied p.chan) (i : Input) :
    Tallied (p.take i).chan := by
  have hquiet : Tallied p.chan.quiet := ⟨h.wpos, h.rpos⟩
  cases i with
  | call call =>
    rw [Peer.take, Peer.step]
    split
    · exact hquiet.call hinv call
    · exact h
  | disconnect m =>
    rw [Peer.take]
    split
    · exact hquiet.push m
    · exact h

/-- A frame counts at most the bytes of its message, all of them once the message is done. -/
theorem PeerInv.frame {k : Nat} {p : Peer} {g : Marks} (h : PeerInv k p g) {i : Nat} {f : Frame}
    (hf : p.chan.frames[i]? = some f) : f.rpos.toNat ≤ f.wpos.toNat ∧ (i < g.done → f.left = 0) := by
  have hlen : p.chan.frames.length = p.accepted.length := h.length
  have hlt := (List.getElem?_eq_some_iff.mp hf).1
  have hm := List.getElem?_eq_getElem (show i < p.accepted.length by omega)
  have hat := SendInv.frames h i _ hm
  generalize p.accepted[i] = m at hm hat
  have heq : f = frameAt m (g.cut - start p.accepted i) (g.released - start p.accepted i) :=
    Option.some_inj.mp (hf.symm.trans hat)
  have hfits := m.fits
  have hle := bytes_le m (g.released - start p.accepted i)
  have hr : f.rpos.toNat = bytes m (g.released - start p.accepted i) := by
    rw [heq, frameAt, UInt64.toNat_ofNat']
    omega
  have hw : f.wpos.toNat = m.data.length := by
    rw [heq, wpos_frameAt, UInt64.toNat_ofNat']
    omega
  refine ⟨by omega, fun hdone => ?_⟩
  have hnext := start_mono p.accepted (show i + 1 ≤ g.done by omega)
  have hlow := h.doneAt.low
  rw [start_succ hm] at hnext
  rw [Frame.left, hr, hw, bytes_of_packs_le m _ (by omega), Nat.sub_self]

end Wenas.Xmsger
