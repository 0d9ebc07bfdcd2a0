import Wenas.Xmsger.Channel

/-!
# Acknowledgements and received packs in `xmsger.c`

The two sides of a delivery: `xchannel_recv_ack` empties the send ring and
resends what is missing, `xchannel_recv_pack` sorts packs into the receive ring
and `xchannel_recv_msg` joins them into messages. The loops take a fuel argument
that is never used up: every one of them moves a sixteen-bit position.
-/
namespace Wenas.Xmsger

open Wenas.Serial

def loopFuel : Nat := 65536

/-- A round trip, clipped to twice the estimate, enters the running average. -/
def sampleRtt (rtt : UInt64) (c : Channel) : Channel :=
  let c := { c with rttDuration := c.rttDuration + if c.rtt <<< 1 < rtt then c.rtt <<< 1 else rtt }
  if c.rttCounter < xchannelRttSamplingCounts then
    { c with
      rttCounter := c.rttCounter + 1
      rtt := c.rttDuration / (c.rttCounter + 1).toUInt64 }
  else
    { c with
      rttDuration := c.rttDuration - c.rtt
      rtt := (c.rttDuration - c.rtt) >>> 8 }

/-- The sending rate and the threshold that follow from the acknowledgements counted so far. -/
def setRate (c : Channel) : Channel :=
  let psf := xpackPsfSampling / c.psfCounter
  let threshold := ((c.rtt + psf - 1) / psf + 1).toUInt16
  { c with
    psf := psf
    threshold := if c.recvbuf.range < threshold then c.recvbuf.range else threshold }

/-- The probe of the sending rate: it runs until a rate is found, and again after a pack waited too long. -/
def sampleRate (kabuf : UInt64) (c : Channel) : Channel :=
  if c.psf = 0 then
    if c.psfBegin = 0 then
      { c with psfBegin := c.ackTs, psfCounter := c.psfCounter + 1 }
    else
      let c := { c with psfCounter := c.psfCounter + 1 }
      if xpackPsfSampling ≤ c.ackTs - c.psfBegin then setRate c else c
  else if Double.exceeds kabuf c.rtt then
    { c with psf := 0, psfBegin := 0, psfCounter := 0, threshold := xchannelThresholdInit }
  else c

/-- The acknowledged pack in slot `i` is measured and marked as sampled. -/
def xchannelSampling (i : Nat) (c : Channel) : Channel :=
  let pack := c.sendbuf.buf i
  (sampleRate pack.kabuf (sampleRtt (c.ackTs - pack.ts) c)).setPack i { pack with ts := 0 }

/-- `if (pack->ts != 0) xchannel_sampling(channel, pack)` -/
def sampleUnlessDone (i : Nat) (c : Channel) : Channel :=
  if (c.sendbuf.buf i).ts ≠ 0 then xchannelSampling i c else c

/-- The sender has nothing left to send: the measurement starts again. -/
def idleReset (c : Channel) : Channel :=
  if c.rpos = c.wpos then
    { c with threshold := xchannelThresholdInit, ackTs := 0, rttCounter := 0, psfBegin := 0, psf := 0 }
  else c

/-- The acknowledged bytes are counted for the message; a complete one goes back to its owner. -/
def releaseMsg (i : Nat) (c : Channel) : Channel :=
  let pack := c.sendbuf.buf i
  match pack.msg with
  | none => c.emit .fault
  | some m =>
    match c.frames[m]? with
    | none => c.emit .fault
    | some f =>
      let f := { f with rpos := f.rpos + pack.head.len.toUInt64 }
      let c := { c with frames := c.frames.set m f }.emit (.release m)
      if f.rpos = f.wpos then
        let c := c.emit (.toPeer m (c.msgbuf.buf c.msgbuf.rslot))
        { c.setPack i { pack with msg := none } with
          msgbuf := { c.msgbuf.put c.msgbuf.rslot none with rpos := c.msgbuf.rpos + 1 } }
      else c

/-- One turn of the loop that releases acknowledged packs. -/
def releaseOne (c : Channel) : Channel :=
  let i := c.sendbuf.rslot
  let c := sampleUnlessDone i c
  let c := idleReset { c with rpos := c.rpos + (c.sendbuf.buf i).head.len.toUInt64 }
  let c := releaseMsg i c
  { c with sendbuf := { c.sendbuf with rpos := c.sendbuf.rpos + 1 } }

/-- The acknowledged position lies in the window and ahead of the read position. -/
def releasable (pos : UInt16) (c : Channel) : Bool :=
  pos - c.sendbuf.rpos ≤ c.sendbuf.spos - c.sendbuf.rpos && c.sendbuf.rpos != pos

def releaseLoop (pos : UInt16) : Nat → Channel → Channel
  | 0, c => c
  | fuel + 1, c => if releasable pos c then releaseLoop pos fuel (releaseOne c) else c

/-- A resent pack that carries an acknowledgement gets the position reached by now. -/
def Ack.refresh (a : Ack) (wpos : UInt16) : Ack := if a.type ≠ 0 then { a with pos := wpos } else a

/-- The pack as it is resent before its timeout. -/
def Pack.again (p : Pack) (clock : UInt64) (wpos : UInt16) : Pack :=
  { p with
    kabuf := clock - p.ts
    ts := p.ts + (clock - p.ts)
    head :=
      { p.head with
        resend := p.head.resend + 1
        ack := p.head.ack.refresh wpos } }

/-- Resend the first pack before `sn` that is neither sampled nor resent already. -/
def fastResend (e : Env) (sn : UInt16) : Nat → UInt16 → Channel → Channel
  | 0, _, c => c
  | fuel + 1, index, c =>
    if index = sn then c
    else
      let i := slot c.sendbuf.range index
      let pack := c.sendbuf.buf i
      if pack.ts ≠ 0 ∧ pack.head.resend < 2 then
        let pack := pack.again (e.resendClock index) c.recvbuf.wpos
        let c := (c.setPack i pack).emit (.sendto pack.dgram (e.resendOk index))
        if e.resendOk index then c.setPack i { pack with timedout := Double.scale pack.timedout }
        else fastResend e sn fuel (index + 1) c
      else fastResend e sn fuel (index + 1) c

/-- The part of `xchannel_recv_ack` for an acknowledgement out of order. -/
def recvAckEarly (e : Env) (sn : UInt16) (c : Channel) : Channel :=
  let c := sampleUnlessDone (slot c.sendbuf.range sn) c
  if 3 < sn - c.sendbuf.rpos then fastResend e sn loopFuel c.sendbuf.rpos c else c

def xchannelRecvAck (e : Env) (ack : Ack) (c : Channel) : Channel :=
  if 0 < c.sendbuf.recvable ∧ ack.sn - c.sendbuf.rpos ≤ c.sendbuf.spos - c.sendbuf.rpos then
    let c := { c with recvTs := e.clock, ackTs := e.clock }
    let c := releaseLoop ack.pos loopFuel c
    if ack.sn ≠ ack.pos then recvAckEarly e ack.sn c else c
  else c

/-- The pack as it is resent after its timeout; `resend` counts once it is out. -/
def Pack.late (p : Pack) (clock : UInt64) (wpos : UInt16) : Pack :=
  { p with
    kabuf := clock - p.ts
    ts := clock
    head := { p.head with ack := p.head.ack.refresh wpos } }

/-- The timeout branch of `xmsger_send_all`: the oldest outstanding pack is sent again. -/
def xchannelResend (clock : UInt64) (ok : Bool) (c : Channel) : Channel :=
  if 0 < c.sendbuf.recvable then
    let i := c.sendbuf.rslot
    let spack := (c.sendbuf.buf i).late clock c.recvbuf.wpos
    let c := (c.setPack i spack).emit (.sendto spack.dgram ok)
    if ok then
      { c.setPack i
          { spack with
            timedout := Double.scale spack.timedout
            head := { spack.head with resend := spack.head.resend + 1 } } with
        threshold := if xchannelThresholdMin < c.threshold then c.threshold - 1 else c.threshold }
    else c
  else c

/-- `xl_creator` for the message a pack begins. -/
def RFrame.begin (h : Head) : RFrame :=
  { type := h.type
    range := h.range.toUInt64
    size := h.range.toUInt64 * UInt64.ofNat xbodySize
    wpos := 0
    data := [] }

/-- The body of a pack is written behind what the frame holds, and one pack fewer is missing. -/
def RFrame.join (m : RFrame) (d : Dgram) : RFrame :=
  { m with
    data := m.data ++ d.body.take d.head.len.toNat
    wpos := m.wpos + d.head.len.toUInt64
    range := m.range - 1 }

/-- The message after a pack: a pack outside any message begins a new one. -/
def RFrame.extend (m : Option RFrame) (d : Dgram) : RFrame := (m.getD (RFrame.begin d.head)).join d

/-- One pack is consumed; a complete message is handed up. -/
def recvMsgOne (d : Dgram) (c : Channel) : Channel :=
  let m := RFrame.extend c.msg d
  let c := c.emit (.consume c.recvbuf.rpos d)
  let c := if m.range = 0 then { c.emit (.fromPeer m) with msg := none } else { c with msg := some m }
  { c with recvbuf := { c.recvbuf.put c.recvbuf.rslot none with rpos := c.recvbuf.rpos + 1 } }

/-- The loop of `xchannel_recv_msg`. It fails when a new message gets no memory. -/
def recvMsgLoop (e : Env) : Nat → Channel → Channel × Bool
  | 0, c => (c, true)
  | fuel + 1, c =>
    match c.recvbuf.buf c.recvbuf.rslot with
    | none => (c, true)
    | some d =>
      if c.msg.isNone ∧ e.alloc c.recvbuf.rpos = false then (c, false)
      else recvMsgLoop e fuel (recvMsgOne d c)

def xchannelRecvMsg (e : Env) (c : Channel) : Channel × Bool :=
  let c := { c with recvTs := e.clock }
  if 0 < c.recvbuf.readable then
    match c.recvbuf.buf c.recvbuf.rslot with
    | none => (c.emit .fault, true)
    | some _ => recvMsgLoop e (loopFuel + 1) c
  else (c, true)

/-- The pack is put into its slot and now belongs to the channel. -/
def storePack (d : Dgram) (c : Channel) : Channel :=
  let i := slot c.recvbuf.range d.head.sn
  { c.emit (.store (c.recvbuf.buf i) d) with recvbuf := c.recvbuf.put i (some d) }

/-- The next acknowledgement: the single pack `sn` and everything before `pos`. -/
def Channel.setAck (c : Channel) (sn pos : UInt16) : Channel :=
  { c with ack := { c.ack with ack := { c.ack.ack with sn := sn, pos := pos } } }

/-- Packs that came early now follow without a gap. -/
def advanceLoop : Nat → Channel → Channel
  | 0, c => c
  | fuel + 1, c =>
    if (c.recvbuf.buf c.recvbuf.wslot).isSome ∧ 0 < c.recvbuf.writable then
      let c := { c with recvbuf := { c.recvbuf with wpos := c.recvbuf.wpos + 1 } }
      advanceLoop fuel (c.setAck c.recvbuf.wpos c.recvbuf.wpos)
    else c

/-- A pack that carries an acknowledgement is also one. -/
def recvCarried (e : Env) (d : Dgram) (c : Channel) : Channel :=
  if d.head.ack.type ≠ 0 then xchannelRecvAck e d.head.ack c else c

/-- The next acknowledgement is of the type of the pack. -/
def noteType (d : Dgram) (c : Channel) : Channel :=
  { c with ack := { c.ack with type := xpackTypeAck, ack := { c.ack.ack with type := d.head.type } } }

/-- The pack in order is stored and everything up to it acknowledged. -/
def storeNext (d : Dgram) (c : Channel) : Channel :=
  let c := storePack d c
  let c := { c with recvbuf := { c.recvbuf with wpos := c.recvbuf.wpos + 1 } }
  c.setAck c.recvbuf.wpos c.recvbuf.wpos

/-- The pack is the one expected next. -/
def recvInOrder (e : Env) (d : Dgram) (c : Channel) : Channel :=
  advanceLoop loopFuel (storeNext d (recvCarried e d c))

/-- The pack lies ahead: it is acknowledged alone, and kept when its slot is empty. -/
def recvEarly (e : Env) (d : Dgram) (c : Channel) : Channel :=
  let c := c.setAck d.head.sn c.recvbuf.wpos
  if (c.recvbuf.buf (slot c.recvbuf.range d.head.sn)).isNone then storePack d (recvCarried e d c) else c

/-- The pack has been received before. -/
def recvAgain (c : Channel) : Channel :=
  let c := c.setAck c.recvbuf.wpos c.recvbuf.wpos
  { c with ack := { c.ack with resend := 2 } }

def xchannelRecvPack (e : Env) (d : Dgram) (c : Channel) : Channel × Bool :=
  let c := noteType d c
  xchannelRecvMsg e
    (if d.head.sn = c.recvbuf.wpos then recvInOrder e d c
    else if d.head.sn - c.recvbuf.wpos < c.recvbuf.wpos - d.head.sn then recvEarly e d c
    else recvAgain c)

end Wenas.Xmsger
