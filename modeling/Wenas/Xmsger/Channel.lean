import Wenas.Lib.Ring
import Wenas.Lib.Double

/-!
# The channel of `xmsger.c`

One channel owns three rings: packs waiting for acknowledgement, packs received
ahead of order, and messages waiting to be cut into packs. All ring positions
are sixteen-bit and wrap. Clock readings, the results of `udp_sendto` and of the
allocation of a receive frame are arguments. Every call a function makes to the
outside is appended to `log`, together with the ring events the properties speak
of; nothing reads it back.
-/
namespace Wenas.Xmsger

open Wenas.Serial

def xpackTypeAck : UInt16 := 0x00
def xpackTypeReq : UInt16 := 0x01
def xpackTypeMsg : UInt16 := 0x02
def xpackTypeRes : UInt16 := 0x03

def xheadSize : Nat := 64
def xbodySize : Nat := 1280
def xpackSize : Nat := xheadSize + xbodySize
def xpackSerialRange : UInt16 := 64
def xpackPsfSampling : UInt64 := 10000000
def xmsgBufRange : UInt16 := 8
def xmsgPackRange : Nat := 8192
def xmsgMaxLength : Nat := xbodySize * xmsgPackRange
def xchannelRttSamplingCounts : UInt16 := 256
def xchannelThresholdMin : UInt16 := 8
def xchannelThresholdInit : UInt16 := xpackSerialRange

/-- The acknowledgement part of a pack head: `type` tells whether there is one. -/
structure Ack where
  type : UInt16
  sn : UInt16
  pos : UInt16
  deriving DecidableEq, Repr

/-- `struct xhead`, without the flag and key bytes no channel function reads. -/
structure Head where
  type : UInt16
  sn : UInt16
  resend : UInt16
  ack : Ack
  cid : UInt16
  len : UInt16
  range : UInt16
  deriving DecidableEq, Repr

/-- `calloc` memory read as a head. -/
def Head.zero : Head := ⟨0, 0, 0, ⟨0, 0, 0⟩, 0, 0, 0⟩

/-- A datagram on the wire, and equally a received pack: the head and `len` body bytes. -/
structure Dgram where
  head : Head
  body : List UInt8
  deriving DecidableEq, Repr

/-- What a caller hands to `xmsger_send`. A body lies in memory, so its length is a 64-bit number. -/
structure Message where
  type : UInt16
  data : List UInt8
  fits : data.length < 2 ^ 64
  deriving DecidableEq, Repr

theorem nil_fits : ([] : List UInt8).length < 2 ^ 64 := by decide

theorem one_fits : ([0] : List UInt8).length < 2 ^ 64 := by decide

/-- A frame queued for sending. The frame belongs to the channel until it is handed
back, so each accepted message is an object of its own. -/
structure Frame where
  msg : Message
  range : UInt64
  rpos : UInt64
  spos : UInt64
  deriving DecidableEq, Repr

def Frame.wpos (f : Frame) : UInt64 := UInt64.ofNat f.msg.data.length

/-- A frame under reassembly: `data` are the bytes written so far, `size` the capacity. -/
structure RFrame where
  type : UInt16
  range : UInt64
  size : UInt64
  wpos : UInt64
  data : List UInt8
  deriving DecidableEq, Repr

/-- A slot of the send ring. `msg` is the place of the frame among the accepted ones. -/
structure Pack where
  ts : UInt64
  kabuf : UInt64
  timedout : UInt64
  msg : Option Nat
  head : Head
  body : List UInt8
  deriving DecidableEq, Repr

def Pack.zero : Pack := ⟨0, 0, 0, none, Head.zero, []⟩

def Pack.dgram (p : Pack) : Dgram := ⟨p.head, p.body⟩

/-- Calls to the outside and ring events, in the order they happen. -/
inductive Event where
  | sendto : Dgram → Bool → Event
  /-- a pack of the accepted message left the send window -/
  | release : Nat → Event
  /-- `on_message_to_peer`, and what the message slot held that is cleared with it -/
  | toPeer : Nat → Option Nat → Event
  /-- `on_message_from_peer` -/
  | fromPeer : RFrame → Event
  /-- a pack is stored over the old contents of its slot -/
  | store : Option Dgram → Dgram → Event
  /-- the pack taken out at a read position -/
  | consume : UInt16 → Dgram → Event
  /-- a null pointer is followed -/
  | fault : Event
  deriving DecidableEq, Repr

/-- The part of `struct xchannel` that decides what is sent and delivered. The frames
accepted so far stand in `frames`; the message ring and `req` hold their places. -/
structure Core where
  serialRange : UInt16
  cid : UInt16
  /-- the request of a connection of our own, held until the channel is cleared -/
  req : Option Nat
  msg : Option RFrame
  ack : Head
  msgbuf : Ring (Option Nat)
  recvbuf : Ring (Option Dgram)
  sendbuf : Ring Pack
  frames : List Frame
  log : List Event

/-- `struct xchannel`: the rings, and the clocks, counters and rate estimates. -/
structure Channel extends Core where
  kabuf : UInt64
  threshold : UInt16
  psf : UInt64
  psfBegin : UInt64
  psfCounter : UInt64
  rtt : UInt64
  rttCounter : UInt16
  rttDuration : UInt64
  sendTs : UInt64
  recvTs : UInt64
  ackTs : UInt64
  spos : UInt64
  rpos : UInt64
  wpos : UInt64

def Channel.emit (c : Channel) (e : Event) : Channel := { c with log := c.log ++ [e] }

/-- The slot `i` of the send ring is overwritten. -/
def Channel.setPack (c : Channel) (i : Nat) (p : Pack) : Channel := { c with sendbuf := c.sendbuf.put i p }

/-- What the outside answers during one call: a clock reading, and for the resend
loop a reading and a send result for each sequence number it visits. -/
structure Env where
  clock : UInt64
  resendClock : UInt16 → UInt64
  resendOk : UInt16 → Bool
  alloc : UInt16 → Bool

def xmsgFixed (m : Message) : Frame :=
  let wpos := UInt64.ofNat m.data.length
  let range :=
    if 0 < wpos then
      let range := wpos / UInt64.ofNat xbodySize
      -- a remainder takes one more pack
      if range * UInt64.ofNat xbodySize < wpos then range + 1 else range
    else 1
  ⟨m, range, 0, 0⟩

def xchannelCreate (serialRange cid : UInt16) (clock : UInt64) : Channel where
  serialRange := serialRange
  kabuf := 0
  threshold := xchannelThresholdInit
  psf := 0
  psfBegin := 0
  psfCounter := 0
  rtt := 100000000
  rttCounter := 0
  rttDuration := 0
  sendTs := clock
  recvTs := clock
  ackTs := 0
  cid := cid
  spos := 0
  rpos := 0
  wpos := 0
  req := none
  msg := none
  ack := { Head.zero with cid := cid }
  msgbuf := ⟨xmsgBufRange, 0, 0, 0, fun _ => none⟩
  recvbuf := ⟨serialRange, 0, 0, 0, fun _ => none⟩
  sendbuf := ⟨serialRange, 0, 0, 0, fun _ => Pack.zero⟩
  frames := []
  log := []

/-- The message goes into the ring whether or not there is room; `xmsger_send` tests before. -/
def pushMsg (m : Message) (c : Channel) : Channel :=
  { c with
    wpos := c.wpos + UInt64.ofNat m.data.length
    msgbuf := { c.msgbuf.put c.msgbuf.wslot (some c.frames.length) with wpos := c.msgbuf.wpos + 1 }
    frames := c.frames ++ [xmsgFixed m] }

/-- The result is whether the message was accepted. -/
def xmsgerSend (m : Message) (c : Channel) : Channel × Bool :=
  if 0 < c.msgbuf.writable then (pushMsg m c, true) else (c, false)

/-- The length of the next pack cut from a frame. -/
def Frame.packLen (f : Frame) : UInt16 :=
  if 0 < f.wpos then
    if f.wpos - f.spos < UInt64.ofNat xbodySize then (f.wpos - f.spos).toUInt16
    else UInt16.ofNat xbodySize
  else 0

/-- The frame after the next pack has been cut off. -/
def Frame.cut (f : Frame) : Frame :=
  { f with spos := f.spos + f.packLen.toUInt64, range := f.range - 1 }

/-- The pack cut from frame `f`, written over an old slot that keeps its other fields. -/
def serialPack (c : Channel) (i : Nat) (f : Frame) (old : Pack) : Pack :=
  { old with
    msg := some i
    ts := c.rtt
    head :=
      { old.head with
        type := f.msg.type
        len := f.packLen
        range := f.range.toUInt16
        resend := 0
        -- only the first pack of a connection uses this position
        ack := { old.head.ack with type := 0, pos := c.serialRange }
        cid := c.cid
        sn := c.sendbuf.wpos }
    body := (f.msg.data.drop f.spos.toNat).take f.packLen.toNat }

def xchannelSerialMsg (c : Channel) : Channel :=
  if 0 < c.sendbuf.writable ∧ 0 < c.msgbuf.sendable then
    match c.msgbuf.buf c.msgbuf.sslot with
    | none => c.emit .fault
    | some i =>
      match c.frames[i]? with
      | none => c.emit .fault
      | some f =>
        let pack := serialPack c i f (c.sendbuf.buf c.sendbuf.wslot)
        { c with
          frames := c.frames.set i f.cut
          sendbuf := { c.sendbuf.put c.sendbuf.wslot pack with wpos := c.sendbuf.wpos + 1 }
          -- the whole message is in the send ring
          msgbuf := if f.cut.spos = f.cut.wpos then { c.msgbuf with spos := c.msgbuf.spos + 1 } else c.msgbuf }
  else c

/-- The pending acknowledgement rides on the pack. -/
def Pack.carry (p : Pack) (ack : Ack) : Pack :=
  if ack.type ≠ 0 then { p with head := { p.head with ack := ack } } else p

/-- With nothing left to send, one more pack is cut. -/
def serialUnlessReady (c : Channel) : Channel := if c.sendbuf.sendable = 0 then xchannelSerialMsg c else c

/-- The pack that goes out next. -/
def Channel.outgoing (c : Channel) : Pack := (c.sendbuf.buf c.sendbuf.sslot).carry c.ack.ack

/-- The pack has left: the acknowledgement it carried is done with, and its timer runs. -/
def Channel.markSent (clock : UInt64) (c : Channel) : Channel :=
  let i := c.sendbuf.sslot
  let pack := c.sendbuf.buf i
  let sent :=
    { pack with
      head := { pack.head with resend := 1 }
      ts := clock
      kabuf := if c.kabuf ≠ 0 then clock - c.kabuf else 0
      timedout := Double.scaleTwice c.rtt }
  { c with
    ack := { c.ack with ack := { c.ack.ack with type := 0 } }
    sendbuf := { c.sendbuf.put i sent with spos := c.sendbuf.spos + 1 }
    sendTs := clock
    kabuf := 0
    spos := c.spos + pack.head.len.toUInt64 }

def xchannelSendPack (clock : UInt64) (ok : Bool) (c : Channel) : Channel :=
  let c := serialUnlessReady c
  if 0 < c.sendbuf.sendable then
    let pack := c.outgoing
    let c := (c.setPack c.sendbuf.sslot pack).emit (.sendto pack.dgram ok)
    if ok then xchannelSerialMsg (c.markSent clock) else c
  else c

def xchannelSendAck (ok : Bool) (c : Channel) : Channel :=
  let c := c.emit (.sendto ⟨c.ack, []⟩ ok)
  if ok then { c with ack := { c.ack with ack := { c.ack.ack with type := 0 }, resend := 0 } } else c

/-- The answer to a `RES` pack of a connection this side has no channel for. -/
def xchannelSendFinal (d : Dgram) : Dgram :=
  ⟨{ d.head with
      type := xpackTypeAck
      ack := ⟨xpackTypeRes, d.head.sn + 1, d.head.sn + 1⟩
      len := 0
      range := 1 }, []⟩

end Wenas.Xmsger
