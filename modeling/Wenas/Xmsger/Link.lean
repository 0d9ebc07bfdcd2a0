import Wenas.Xmsger.Assembly

/-!
# Two msgers and the network between them

A connection has a node on each side and a network that keeps every datagram that
got out: it may deliver any of them, any number of times and in any order. A node counts
the packs it has cut and remembers which it has sent, by numbers that do not wrap; the
code knows nothing of these.
-/
namespace Wenas.Xmsger

open Wenas.Serial Wenas.Machine

inductive Side where
  | a
  | b
  deriving DecidableEq, Repr

def Side.other : Side → Side
  | .a => .b
  | .b => .a

@[simp] theorem Side.other_other (x : Side) : x.other.other = x := by cases x <;> rfl

theorem Side.other_ne (x : Side) : x.other ≠ x := by cases x <;> decide

theorem Side.eq_or_other (x z : Side) : z = x ∨ z = x.other := by cases x <;> cases z <;> simp [Side.other]

/-- One msger's end of the connection. The channel is missing before it is made and after it is freed. -/
structure Node where
  chan : Option Channel
  ever : Bool
  up : Bool
  accepted : List Message
  trace : List Event
  cut : Nat
  sent : Finset Nat

def Node.absent : Node := ⟨none, false, true, [], [], 0, ∅⟩

/-- A datagram that got out. `num` is the number of the pack in it, `stamp` how many sequence
numbers either side had sent by then. -/
structure Flight where
  src : Side
  dgram : Dgram
  num : Nat
  stamp : Side → Nat

structure Link where
  node : Side → Node
  net : List Flight

/-- The datagrams that got out. -/
def sentOut (l : List Event) : List Dgram :=
  l.filterMap fun
    | .sendto d true => some d
    | _ => none

theorem mem_sentOut {l : List Event} {d : Dgram} : d ∈ sentOut l ↔ .sendto d true ∈ l := by
  simp only [sentOut, List.mem_filterMap]
  constructor
  · rintro ⟨e, he, hd⟩
    cases e with
    | sendto d' ok =>
      cases ok with
      | true => cases hd; exact he
      | false => cases hd
    | _ => cases hd
  · intro h
    exact ⟨_, h, rfl⟩

/-- The unbounded number behind `sn` for a sender that has cut `cut` packs. -/
def number (cut : Nat) (wpos sn : UInt16) : Nat := cut - (wpos - sn).toNat

/-- The node after its channel `c` has become `r`. -/
def Node.work (nd : Node) (c : Channel) (r : Channel × Bool) (acc : List Message) : Node :=
  let cut := nd.cut + (r.1.sendbuf.wpos - c.sendbuf.wpos).toNat
  let packs := (sentOut r.1.log).filter fun d => d.head.type ≠ xpackTypeAck
  { chan := some r.1
    ever := true
    up := r.2
    accepted := nd.accepted ++ acc
    trace := nd.trace ++ r.1.log
    cut := cut
    sent := nd.sent ∪ (packs.map fun d => number cut r.1.sendbuf.wpos d.head.sn).toFinset }

/-- Side `x` becomes `nd` and sends `out`. -/
def Link.post (s : Link) (x : Side) (nd : Node) (out : List (Dgram × Nat)) : Link :=
  let node := Function.update s.node x nd
  ⟨node, s.net ++ out.map fun d => ⟨x, d.1, d.2, fun z => (node z).sent.card⟩⟩

def Link.work (s : Link) (x : Side) (c : Channel) (r : Channel × Bool) (acc : List Message) : Link :=
  let nd := (s.node x).work c r acc
  s.post x nd ((sentOut r.1.log).map fun d => (d, number nd.cut r.1.sendbuf.wpos d.head.sn))

def Link.call (s : Link) (x : Side) (call : Call) : Link :=
  match (s.node x).chan with
  | none => s
  | some c => if (s.node x).up then s.work x c (call.run c.quiet) (call.accepts c.quiet) else s

/-- The receive branch of `msger_loop`. What it sends in answer is a call of its own. -/
def Link.arrive (s : Link) (x : Side) (e : Env) (d : Dgram) : Link :=
  match (s.node x).chan with
  | some c =>
    if d.head.type = xpackTypeMsg then s.call x (.recvPack e d)
    else if d.head.type = xpackTypeAck then s.call x (.recvAck e d.head.ack)
    else if d.head.type = xpackTypeRes then s.call x (.recvPack e d)
    else if d.head.type = xpackTypeReq then
      -- the same request again, or one with the same range
      if 0 < d.head.resend ∨ d.head.ack.pos = c.recvbuf.range then s.call x (.recvPack e d) else s
    else s
  | none =>
    if (s.node x).up then
      if d.head.type = xpackTypeReq then
        let c := xchannelCreate d.head.ack.pos d.head.cid e.clock
        s.work x c (xchannelRecvPack e d c) []
      else if d.head.type = xpackTypeRes then s.post x (s.node x) [(xchannelSendFinal d, 0)]
      else s
    else s

/-- What callers hand over: any type but the one of pure acknowledgements, and not too long. -/
structure Payload where
  msg : Message
  data : msg.type ≠ xpackTypeAck
  short : msg.data.length ≤ xmsgMaxLength

/-- The calls a side makes of its own accord. -/
inductive Local where
  | send : Payload → Local
  | serial : Local
  | sendPack : UInt64 → Bool → Local
  | resend : UInt64 → Bool → Local
  | sendAck : Bool → Local

def Local.call : Local → Call
  | .send m => .send m.msg
  | .serial => .serial
  | .sendPack clock ok => .sendPack clock ok
  | .resend clock ok => .resend clock ok
  | .sendAck ok => .sendAck ok

/-- The calls on two existing channels, and the datagrams between them. -/
inductive Move where
  | own : Side → Local → Move
  | deliver : Nat → Env → Move

/-- All that happens to a connection: `xmsger_connect`, `xmsger_disconnect` and `xmsger_flush` are
carried out by the msger of their side. -/
inductive Act where
  | move : Move → Act
  | connect : Side → Payload → UInt16 → UInt64 → Act
  | disconnect : Side → Payload → Act
  | flush : Side → Act

def Link.move (s : Link) : Move → Link
  | .own x l => s.call x l.call
  | .deliver i e =>
    match s.net[i]? with
    | none => s
    | some f => s.arrive f.src.other e f.dgram

def Link.step (k : Nat) (s : Link) : Act → Link
  | .move m => s.move m
  | .connect x m cid clock =>
    if (s.node x).ever ∨ (s.node x.other).ever then s
    else
      let c := xchannelCreate (sn (2 ^ k)) cid clock
      s.work x c (pushMsg m.msg c, true) [m.msg]
  | .disconnect x m =>
    match (s.node x).chan with
    | none => s
    | some c => if (s.node x).up then s.work x c (pushMsg m.msg c.quiet, true) [m.msg] else s
  | .flush x =>
    if (s.node x).up then s.post x { s.node x with chan := none } [] else s

/-- Nothing has happened yet. -/
def Link.idle : Link := ⟨fun _ => Node.absent, []⟩

/-- Both channels of the connection have just been made. -/
def Link.open (k : Nat) (cid : UInt16) (clock : UInt64) : Link :=
  ⟨fun _ => { Node.absent with chan := some (xchannelCreate (sn (2 ^ k)) cid clock), ever := true }, []⟩

/-- The pack to be sent next carries an acknowledgement from an attempt that failed, and there is no newer one. -/
def Channel.CarriesOld (c : Channel) : Prop :=
  0 < (serialUnlessReady c).sendbuf.sendable ∧ c.ack.ack.type = 0 ∧
    ((serialUnlessReady c).sendbuf.buf (serialUnlessReady c).sendbuf.sslot).head.ack.type ≠ 0

instance (c : Channel) : Decidable c.CarriesOld := inferInstanceAs (Decidable (_ ∧ _ ∧ _))

/-- Either side has sent fewer than `2 ^ 15 - range` sequence numbers since the datagram got out. -/
def Flight.Fresh (k : Nat) (s : Link) (f : Flight) : Prop :=
  ∀ z, (s.node z).sent.card < f.stamp z + (2 ^ 15 - 2 ^ k)

instance (k : Nat) (s : Link) (f : Flight) : Decidable (f.Fresh k s) :=
  decidable_of_iff ((s.node .a).sent.card < f.stamp .a + (2 ^ 15 - 2 ^ k) ∧
    (s.node .b).sent.card < f.stamp .b + (2 ^ 15 - 2 ^ k))
    ⟨fun h z => match z with | .a => h.1 | .b => h.2, fun h => ⟨h .a, h .b⟩⟩

/-- The network does not deliver datagrams that are too old. -/
def Move.Timely (k : Nat) (s : Link) : Move → Prop
  | .own _ _ => True
  | .deliver i _ => ∀ f ∈ s.net[i]?, f.Fresh k s

/-- A pack is sent with an acknowledgement left over from an attempt that failed. -/
def Move.SendsOld (s : Link) : Move → Prop
  | .own x (.sendPack _ _) => ∃ c ∈ (s.node x).chan, c.quiet.CarriesOld
  | _ => False

/-- Where there is no channel, a request makes the first one, with the range of the connection, and
only a `RES` pack that was consumed here is answered. -/
def Move.Known (k : Nat) (s : Link) : Move → Prop
  | .own _ _ => True
  | .deliver i _ => ∀ f ∈ s.net[i]?, (s.node f.src.other).chan = none →
    (f.dgram.head.type = xpackTypeReq → (s.node f.src.other).ever = false ∧ f.dgram.head.ack.pos = sn (2 ^ k)) ∧
    (f.dgram.head.type = xpackTypeRes → f.num < consumed (s.node f.src.other).trace)

/-- What must not happen: an old datagram, an old acknowledgement, an answer for packs never
consumed, a second channel, or a message pushed into a full ring. -/
def Act.Good (k : Nat) (s : Link) : Act → Prop
  | .move m => m.Timely k s ∧ ¬ m.SendsOld s ∧ m.Known k s
  | .disconnect x _ => ∀ c ∈ (s.node x).chan, 0 < c.msgbuf.writable
  | .connect _ _ _ _ => True
  | .flush _ => True

instance (k : Nat) (s : Link) : DecidablePred (Move.Timely k s)
  | .own _ _ => .isTrue trivial
  | .deliver i _ => inferInstanceAs (Decidable (∀ f ∈ s.net[i]?, f.Fresh k s))

instance (s : Link) : DecidablePred (Move.SendsOld s)
  | .own x (.sendPack _ _) => inferInstanceAs (Decidable (∃ c ∈ (s.node x).chan, c.quiet.CarriesOld))
  | .own _ (.send _) => .isFalse id
  | .own _ .serial => .isFalse id
  | .own _ (.resend _ _) => .isFalse id
  | .own _ (.sendAck _) => .isFalse id
  | .deliver _ _ => .isFalse id

instance (k : Nat) (s : Link) : DecidablePred (Move.Known k s)
  | .own _ _ => .isTrue trivial
  | .deliver i _ => inferInstanceAs (Decidable (∀ f ∈ s.net[i]?, _ → _ ∧ _))

instance (k : Nat) (s : Link) : DecidablePred (Act.Good k s)
  | .move m => inferInstanceAs (Decidable (m.Timely k s ∧ ¬ m.SendsOld s ∧ m.Known k s))
  | .disconnect x _ => inferInstanceAs (Decidable (∀ c ∈ (s.node x).chan, 0 < c.msgbuf.writable))
  | .connect _ _ _ _ => .isTrue trivial
  | .flush _ => .isTrue trivial

end Wenas.Xmsger
