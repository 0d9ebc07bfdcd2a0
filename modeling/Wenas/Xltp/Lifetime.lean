import Wenas.Lib.Machine
import Wenas.Xltp.Frames

/-!
# The lifetime of a channel

Three threads share a channel. The msger thread reports messages and timeouts to `xltp_loop`
through the msg pipe, `xltp_loop` hands what belongs to a stream on to `xlio_loop` through the
io pipe, and both of them ask the msger thread, through its local socket, to free the channel.
A channel and a stream have a number for their address, which is never used again.
-/
namespace Wenas.Xltp

open Wenas.Xmsger Wenas.Machine

inductive Flag where
  | recv
  | back
  | timedout
  /-- `xlio_post_download` -/
  | download
  /-- `xlio_post_close` of a stream -/
  | close : Nat → Flag
  deriving DecidableEq, Repr

/-- A frame in a pipe, as far as the loops read it. -/
structure Note where
  flag : Flag
  type : UInt16
  channel : Nat
  deriving DecidableEq, Repr

/-- What the local socket carries. -/
inductive Request where
  | disconnect : Nat → Request
  | flush : Nat → Request
  deriving DecidableEq, Repr

structure World where
  /-- the channels that are not freed -/
  live : List Nat
  /-- the number of the next channel -/
  next : Nat
  /-- every channel a `FLUSH` has freed, in order -/
  frees : List Nat
  timedout : Nat → Bool
  ctx : Nat → Option Nat
  /-- the channel of a stream -/
  owner : Nat → Nat
  /-- the number of the next stream -/
  streams : Nat
  msgPipe : List Note
  ioPipe : List Note
  requests : List Request
  /-- the channel of every message a loop has handled, and whether it was still there -/
  handled : List (Nat × Bool)

def World.init : World where
  live := []
  next := 0
  frees := []
  timedout _ := false
  ctx _ := none
  owner _ := 0
  streams := 0
  msgPipe := []
  ioPipe := []
  requests := []
  handled := []

/-- How the calls of one turn of `xltp_loop` end. -/
structure Turn where
  calls : Outcome
  /-- the channel behind a stream pointer that was never set, if there is one -/
  unset : Option Nat
  /-- `udp_local_send` for a stream that is freed -/
  drop : Bool
  /-- the message of `xlio_stream_close` is made and gets into the pipe -/
  close : Bool

/-- How the calls of one turn of `xlio_loop` end. -/
structure IoTurn where
  /-- neither the frame nor the list of files makes the stream fail -/
  good : Bool
  /-- `udp_local_send` for a stream that is freed -/
  drop : Bool

namespace World

variable (w : World)

def request (r : Request) (ok : Bool) : World := if ok then { w with requests := w.requests ++ [r] } else w

def xmsgerFlush (c : Nat) (ok : Bool) : World := w.request (.flush c) ok

def xltpSendRes (c : Nat) (ok : Bool) : World := w.request (.disconnect c) ok

def post (n : Note) : World := { w with ioPipe := w.ioPipe ++ [n] }

def xlioStreamFree (k : Nat) (ok : Bool) : World :=
  { w with ctx := Function.update w.ctx (w.owner k) none }.xmsgerFlush (w.owner k) ok

/-- `xlio_stream_free` through a pointer that was never set: on whatever stream lies behind it. -/
def xlioStreamFreeUnset (t : Turn) : World :=
  match t.unset with
  | none => w
  | some c => { w with ctx := Function.update w.ctx c none }.xmsgerFlush c t.drop

/-- A stream is made and becomes the context of the channel. -/
def attach (c : Nat) : World :=
  { w with
    ctx := Function.update w.ctx c (some w.streams)
    owner := Function.update w.owner w.streams c
    streams := w.streams + 1 }

/-- Both starters give up without a stream, or with one that is freed again. Without the path or the uri they free
a stream that they have not made. -/
def xlioStartDownloader (t : Turn) (c : Nat) (response : Bool) : Bool × World :=
  if t.calls.word then
    if t.calls.maker = none then
      if (response → t.calls.send) ∧ t.calls.pipe then (true, (w.attach c).post ⟨.download, xpackTypeMsg, c⟩)
      else (false, (w.attach c).xlioStreamFree w.streams t.drop)
    else (false, w)
  else (false, w.xlioStreamFreeUnset t)

def xlioStartUploader (t : Turn) (c : Nat) (response : Bool) : Bool × World :=
  if t.calls.word then
    if t.calls.maker = none then
      if response → t.calls.send then (true, w.attach c)
      else (false, (w.attach c).xlioStreamFree w.streams t.drop)
    else (false, w)
  else (false, w.xlioStreamFreeUnset t)

/-- The failure label of `api_put` and `api_get`. -/
def orRefuse (t : Turn) (c : Nat) (r : Bool × World) : World :=
  if r.1 then r.2 else r.2.xltpSendRes c t.calls.disconnect

def xltpRecvReq (t : Turn) (c : Nat) : World :=
  match t.calls.api with
  | none => w
  | some .echo =>
    if t.calls.ip ≠ .failed ∧ t.calls.port ≠ .failed then w.xltpSendRes c t.calls.disconnect else w
  | some .boot =>
    if t.calls.ip ≠ .failed ∧ t.calls.port ≠ .failed ∧ t.calls.uuid ≠ .failed ∧ t.calls.code ≠ .failed then
      w.xltpSendRes c t.calls.disconnect
    else w
  | some .put => orRefuse t c (w.xlioStartDownloader t c true)
  | some .get => orRefuse t c (w.xlioStartUploader t c true)

def xltpRecvMsg (t : Turn) (c : Nat) : World :=
  match t.calls.callback with
  | none => w
  | some .echo => w
  | some .boot => w
  | some .put => if t.calls.stored then (w.xlioStartUploader t c false).2 else w
  | some .get => if t.calls.stored then (w.xlioStartDownloader t c false).2 else w

def xltpRecvRes (t : Turn) (c : Nat) : World :=
  (if t.calls.filled then w.xltpRecvMsg t c else w).xmsgerFlush c t.calls.flush

/-- `xlio_stream_write` and `xlio_stream_resave` -/
def forward (n : Note) (f : Flag) (ok : Bool) : World := if ok then w.post { n with flag := f } else w

def xltpRecv (t : Turn) (n : Note) : World :=
  match w.ctx n.channel with
  | some _ => w.forward n .recv t.calls.write
  | none =>
    if n.type = xpackTypeReq then w.xltpRecvReq t n.channel
    else if n.type = xpackTypeMsg then w.xltpRecvMsg t n.channel
    else if n.type = xpackTypeRes then w.xltpRecvRes t n.channel
    else w

def xltpBack (t : Turn) (n : Note) : World :=
  match w.ctx n.channel with
  | some _ => w.forward n .back t.calls.write
  | none => if n.type = xpackTypeRes then w.xmsgerFlush n.channel t.calls.flush else w

def xlioStreamClose (t : Turn) (k : Nat) : World :=
  if t.close then w.post ⟨.close k, 0, w.owner k⟩ else w.xlioStreamFree k t.drop

def xltpTimedout (t : Turn) (n : Note) : World :=
  match w.ctx n.channel with
  | some k => w.xlioStreamClose t k
  | none => w.xmsgerFlush n.channel t.calls.flush

/-- The loops read the channel of every message they take out of a pipe. -/
def touch (c : Nat) : World := { w with handled := w.handled ++ [(c, decide (c ∈ w.live))] }

/-- One turn of `xltp_loop`. -/
def xltpLoop (t : Turn) : World :=
  match w.msgPipe with
  | [] => w
  | n :: rest =>
    match n.flag with
    | .recv => ({ w with msgPipe := rest }.touch n.channel).xltpRecv t n
    | .back => ({ w with msgPipe := rest }.touch n.channel).xltpBack t n
    | .timedout => ({ w with msgPipe := rest }.touch n.channel).xltpTimedout t n
    | _ => { w with msgPipe := rest }.touch n.channel

def xlioRecv (t : IoTurn) (n : Note) (k : Nat) : World :=
  if n.type = xpackTypeMsg then if t.good then w else w.xlioStreamFree k t.drop
  else if n.type = xpackTypeRes then w.xlioStreamFree k t.drop
  else w

/-- A stream that has failed is not freed again when the message was the last one. -/
def xlioBack (t : IoTurn) (n : Note) (k : Nat) : World :=
  if t.good ∧ n.type ≠ xpackTypeRes then w else w.xlioStreamFree k t.drop

/-- One turn of `xlio_loop`. -/
def xlioLoop (t : IoTurn) : World :=
  match w.ioPipe with
  | [] => w
  | n :: rest =>
    let w := { w with ioPipe := rest }.touch n.channel
    match w.ctx n.channel with
    | none => w
    | some k =>
      match n.flag with
      | .recv => w.xlioRecv t n k
      | .back => w.xlioBack t n k
      | .timedout => w
      | .download => w
      | .close k => w.xlioStreamFree k t.drop

/-- `xmsger_local_recv`: whatever the state of the channel, a `FLUSH` frees it. -/
def xmsgerLocalRecv : World :=
  match w.requests with
  | [] => w
  | .disconnect _ :: rest => { w with requests := rest }
  | .flush c :: rest =>
    { w with
      requests := rest
      live := w.live.filter (· ≠ c)
      frees := w.frees ++ [c] }

/-- `xchannel_create`, by a `REQ` from the peer or from this side. -/
def xchannelCreate : World := { w with live := w.live ++ [w.next], next := w.next + 1 }

/-- `on_message_from_peer` and `on_message_to_peer`. The msger has no other channels than the live ones. -/
def report (f : Flag) (type : UInt16) (c : Nat) : World :=
  if c ∈ w.live then { w with msgPipe := w.msgPipe ++ [⟨f, type, c⟩] } else w

/-- A channel is reported only once by `xmsger_send_all`. -/
def xmsgerSendAll (c : Nat) : World :=
  if w.timedout c then w
  else if c ∈ w.live then { w with timedout := Function.update w.timedout c true }.report .timedout 0 c else w

end World

/-- A step of one of the three threads. -/
inductive Act where
  | create
  | fromPeer (type : UInt16) (channel : Nat)
  | toPeer (type : UInt16) (channel : Nat)
  | timeout (channel : Nat)
  | localRecv
  | xltp (turn : Turn)
  | io (turn : IoTurn)

def World.step (w : World) : Act → World
  | .create => w.xchannelCreate
  | .fromPeer type c => w.report .recv type c
  | .toPeer type c => w.report .back type c
  | .timeout c => w.xmsgerSendAll c
  | .localRecv => w.xmsgerLocalRecv
  | .xltp t => w.xltpLoop t
  | .io t => w.xlioLoop t

/-- Nothing else is on its way to a channel: no message in a pipe names it, no second `FLUSH` waits. -/
def World.Idle (w : World) (c : Nat) (rest : List Request) : Prop :=
  (∀ n ∈ w.msgPipe, n.channel ≠ c) ∧ (∀ n ∈ w.ioPipe, n.channel ≠ c) ∧ .flush c ∉ rest

instance (w : World) (c : Nat) (rest : List Request) : Decidable (w.Idle c rest) :=
  inferInstanceAs (Decidable (_ ∧ _))

def World.IdleFirst (w : World) : List Request → Prop
  | .flush c :: rest => w.Idle c rest
  | .disconnect _ :: _ => True
  | [] => True

instance (w : World) : (l : List Request) → Decidable (w.IdleFirst l)
  | .flush c :: rest => inferInstanceAs (Decidable (w.Idle c rest))
  | .disconnect _ :: _ => .isTrue trivial
  | [] => .isTrue trivial

/-- A message or a response goes to a callback that starts a stream. -/
def Turn.CallsBack (t : Turn) : Prop :=
  t.calls.stored = true ∧ (t.calls.callback = some .put ∨ t.calls.callback = some .get)

instance (t : Turn) : Decidable t.CallsBack := inferInstanceAs (Decidable (_ ∧ _))

/-- A frame of this type goes to a handler that starts a stream. -/
def Turn.Starts (t : Turn) (type : UInt16) : Prop :=
  type = xpackTypeReq ∧ (t.calls.api = some .put ∨ t.calls.api = some .get) ∨
    type = xpackTypeMsg ∧ t.CallsBack ∨
    type = xpackTypeRes ∧ t.calls.filled = true ∧ t.CallsBack

instance (t : Turn) (type : UInt16) : Decidable (t.Starts type) := inferInstanceAs (Decidable (_ ∨ _))

/-- The frame has the path or the uri that a starter looks for. -/
def Turn.Named (t : Turn) (w : World) : List Note → Prop
  | [] => True
  | n :: _ => n.flag = .recv → w.ctx n.channel = none → t.Starts n.type → t.calls.word = true

instance (t : Turn) (w : World) : (l : List Note) → Decidable (t.Named w l)
  | [] => .isTrue trivial
  | n :: _ =>
    inferInstanceAs (Decidable (n.flag = .recv → w.ctx n.channel = none → t.Starts n.type → t.calls.word = true))

/-- The channel of a `FLUSH` that is carried out is idle, and no starter lacks the word it looks for. -/
def Act.Settled (w : World) : Act → Prop
  | .localRecv => w.IdleFirst w.requests
  | .xltp t => t.Named w w.msgPipe
  | _ => True

instance (w : World) : (a : Act) → Decidable (a.Settled w)
  | .localRecv => inferInstanceAs (Decidable (w.IdleFirst w.requests))
  | .xltp t => inferInstanceAs (Decidable (t.Named w w.msgPipe))
  | .create | .fromPeer _ _ | .toPeer _ _ | .timeout _ | .io _ => .isTrue trivial

/-- Every channel is freed once, and every message was handled while its channel was there. -/
def World.Safe (w : World) : Prop := w.frees.Nodup ∧ ∀ h ∈ w.handled, h.2 = true

instance (w : World) : Decidable w.Safe := inferInstanceAs (Decidable (_ ∧ _))

/-! ### What is on its way names a channel that is there -/

structure World.Sound (w : World) : Prop where
  msgs : ∀ n ∈ w.msgPipe, n.channel ∈ w.live
  notes : ∀ n ∈ w.ioPipe, n.channel ∈ w.live
  flushes : ∀ c, .flush c ∈ w.requests → c ∈ w.live
  streams : ∀ c k, w.ctx c = some k → k < w.streams ∧ w.owner k = c
  closes : ∀ n ∈ w.ioPipe, ∀ k, n.flag = .close k → k < w.streams ∧ w.owner k = n.channel
  made : ∀ c ∈ w.live, c < w.next
  gone : ∀ c ∈ w.frees, c < w.next ∧ c ∉ w.live
  safe : w.Safe

/-- What a loop does with a message leaves the channels as they are. -/
def World.Within (l : List Nat) (w : World) : Prop := w.Sound ∧ w.live = l

section

variable {l : List Nat} {w : World} {c : Nat}

theorem World.Within.request (h : w.Within l) {r : Request} (hr : ∀ d, r = .flush d → d ∈ l) (ok : Bool) :
    (w.request r ok).Within l := by
  cases ok with
  | false => exact h
  | true =>
    obtain ⟨h, rfl⟩ := h
    refine ⟨{ h with flushes := ?_ }, rfl⟩
    intro d hd
    simp only [World.request, if_true, List.mem_append, List.mem_singleton] at hd
    rcases hd with hd | hd
    · exact h.flushes d hd
    · exact hr d hd.symm

theorem World.Within.xmsgerFlush (h : w.Within l) (hc : c ∈ l) (ok : Bool) : (w.xmsgerFlush c ok).Within l := by
  apply h.request
  intro d hd
  cases hd
  exact hc

theorem World.Within.xltpSendRes (h : w.Within l) (ok : Bool) : (w.xltpSendRes c ok).Within l := by
  apply h.request
  intro d hd
  cases hd

theorem World.Within.post (h : w.Within l) {n : Note} (hn : n.channel ∈ l)
    (hk : ∀ k, n.flag = .close k → k < w.streams ∧ w.owner k = n.channel) : (w.post n).Within l := by
  obtain ⟨h, rfl⟩ := h
  refine ⟨{ h with notes := ?_, closes := ?_ }, rfl⟩
  · intro m hm
    rcases List.mem_append.mp hm with hm | hm
    · exact h.notes m hm
    · rw [List.mem_singleton.mp hm]
      exact hn
  · intro m hm
    rcases List.mem_append.mp hm with hm | hm
    · exact h.closes m hm
    · rw [List.mem_singleton.mp hm]
      exact hk

theorem World.Within.xlioStreamFree (h : w.Within l) {k : Nat} (hk : w.owner k ∈ l) (ok : Bool) :
    (w.xlioStreamFree k ok).Within l := by
  have hstreams : ∀ d j, Function.update w.ctx (w.owner k) none d = some j → j < w.streams ∧ w.owner j = d := by
    intro d j hd
    by_cases hdk : d = w.owner k
    · simp [hdk] at hd
    · exact h.1.streams d j (by simpa [hdk] using hd)
  have hcut : World.Within l { w with ctx := Function.update w.ctx (w.owner k) none } :=
    ⟨{ h.1 with streams := hstreams }, h.2⟩
  exact hcut.xmsgerFlush hk ok

theorem World.Within.attach (h : w.Within l) : (w.attach c).Within l := by
  obtain ⟨h, rfl⟩ := h
  refine ⟨{ h with streams := ?_, closes := ?_ }, rfl⟩
  · intro d k hd
    by_cases hdc : d = c
    · subst hdc
      have hk : w.streams = k := by simpa [World.attach] using hd
      subst hk
      simp [World.attach]
    · have hold := h.streams d k (by simpa [World.attach, hdc] using hd)
      have hne : k ≠ w.streams := by omega
      simpa [World.attach, hne] using ⟨hold.1.le, hold.2⟩
  · intro n hn k hk
    have hold := h.closes n hn k hk
    have hne : k ≠ w.streams := by omega
    simpa [World.attach, hne] using ⟨hold.1.le, hold.2⟩

theorem World.Within.dropped (h : w.Within l) (hc : c ∈ l) (ok : Bool) :
    ((w.attach c).xlioStreamFree w.streams ok).Within l :=
  h.attach.xlioStreamFree (by simpa [World.attach] using hc) ok

theorem World.Within.xlioStartDownloader (h : w.Within l) (hc : c ∈ l) {t : Turn} (hw : t.calls.word = true)
    (response : Bool) : (w.xlioStartDownloader t c response).2.Within l := by
  unfold World.xlioStartDownloader
  rw [if_pos hw]
  split
  · split
    · exact h.attach.post hc (by simp)
    · exact h.dropped hc t.drop
  · exact h

theorem World.Within.xlioStartUploader (h : w.Within l) (hc : c ∈ l) {t : Turn} (hw : t.calls.word = true)
    (response : Bool) : (w.xlioStartUploader t c response).2.Within l := by
  unfold World.xlioStartUploader
  rw [if_pos hw]
  split
  · split
    · exact h.attach
    · exact h.dropped hc t.drop
  · exact h

theorem World.Within.orRefuse {r : Bool × World} (h : r.2.Within l) (t : Turn) : (World.orRefuse t c r).Within l := by
  unfold World.orRefuse
  split
  · exact h
  · exact h.xltpSendRes _

theorem World.Within.xltpRecvReq (h : w.Within l) (hc : c ∈ l) {t : Turn}
    (hw : t.calls.api = some .put ∨ t.calls.api = some .get → t.calls.word = true) : (w.xltpRecvReq t c).Within l := by
  unfold World.xltpRecvReq
  cases ha : t.calls.api with
  | none => exact h
  | some a =>
    cases a with
    | echo =>
      simp only
      split
      · exact h.xltpSendRes _
      · exact h
    | boot =>
      simp only
      split
      · exact h.xltpSendRes _
      · exact h
    | put => exact (h.xlioStartDownloader hc (hw (Or.inl ha)) true).orRefuse t
    | get => exact (h.xlioStartUploader hc (hw (Or.inr ha)) true).orRefuse t

theorem World.Within.xltpRecvMsg (h : w.Within l) (hc : c ∈ l) {t : Turn} (hw : t.CallsBack → t.calls.word = true) :
    (w.xltpRecvMsg t c).Within l := by
  unfold World.xltpRecvMsg
  cases hb : t.calls.callback with
  | none => exact h
  | some a =>
    cases a with
    | echo => exact h
    | boot => exact h
    | put =>
      simp only
      split
      · rename_i hs
        exact h.xlioStartUploader hc (hw ⟨hs, Or.inl hb⟩) false
      · exact h
    | get =>
      simp only
      split
      · rename_i hs
        exact h.xlioStartDownloader hc (hw ⟨hs, Or.inr hb⟩) false
      · exact h

theorem World.Within.xltpRecvRes (h : w.Within l) (hc : c ∈ l) {t : Turn}
    (hw : t.calls.filled = true → t.CallsBack → t.calls.word = true) : (w.xltpRecvRes t c).Within l := by
  unfold World.xltpRecvRes
  refine World.Within.xmsgerFlush ?_ hc _
  split
  · rename_i hf
    exact h.xltpRecvMsg hc (hw hf)
  · exact h

theorem World.Within.forward (h : w.Within l) {n : Note} (hn : n.channel ∈ l) {f : Flag} (hf : ∀ k, f ≠ .close k)
    (ok : Bool) : (w.forward n f ok).Within l := by
  unfold World.forward
  split
  · exact h.post hn fun k hk => absurd hk (hf k)
  · exact h

theorem World.Within.xltpRecv (h : w.Within l) {n : Note} (hn : n.channel ∈ l) {t : Turn}
    (hw : w.ctx n.channel = none → t.Starts n.type → t.calls.word = true) : (w.xltpRecv t n).Within l := by
  unfold World.xltpRecv
  cases hx : w.ctx n.channel with
  | some k => exact h.forward hn (by simp) _
  | none =>
    have hword := hw hx
    simp only
    split
    · rename_i htype
      exact h.xltpRecvReq hn fun ha => hword (Or.inl ⟨htype, ha⟩)
    · split
      · rename_i htype
        exact h.xltpRecvMsg hn fun hb => hword (Or.inr (Or.inl ⟨htype, hb⟩))
      · split
        · rename_i htype
          exact h.xltpRecvRes hn fun hf hb => hword (Or.inr (Or.inr ⟨htype, hf, hb⟩))
        · exact h

theorem World.Within.xltpBack (h : w.Within l) {n : Note} (hn : n.channel ∈ l)
    (t : Turn) : (w.xltpBack t n).Within l := by
  unfold World.xltpBack
  cases w.ctx n.channel with
  | some k => exact h.forward hn (by simp) _
  | none =>
    simp only
    split
    · exact h.xmsgerFlush hn _
    · exact h

theorem World.Within.xltpTimedout (h : w.Within l) {n : Note} (hn : n.channel ∈ l) (t : Turn) :
    (w.xltpTimedout t n).Within l := by
  unfold World.xltpTimedout
  cases hk : w.ctx n.channel with
  | none => exact h.xmsgerFlush hn _
  | some k =>
    obtain ⟨hlt, howner⟩ := h.1.streams _ _ hk
    have hlive : w.owner k ∈ l := howner ▸ hn
    simp only [World.xlioStreamClose]
    split
    · apply h.post hlive
      intro j hj
      cases hj
      exact ⟨hlt, rfl⟩
    · exact h.xlioStreamFree hlive _

theorem World.Within.touch (h : w.Within l) (hc : c ∈ l) : (w.touch c).Within l := by
  obtain ⟨h, rfl⟩ := h
  refine ⟨{ h with safe := ⟨h.safe.1, ?_⟩ }, rfl⟩
  intro p hp
  rcases List.mem_append.mp hp with hp | hp
  · exact h.safe.2 p hp
  · rw [List.mem_singleton.mp hp]
    simpa using hc

theorem World.Within.xlioLoop_recv (h : w.Within l) {k : Nat} (hk : w.owner k ∈ l) (t : IoTurn) (n : Note) :
    (w.xlioRecv t n k).Within l := by
  unfold World.xlioRecv
  split
  · split
    · exact h
    · exact h.xlioStreamFree hk _
  · split
    · exact h.xlioStreamFree hk _
    · exact h

theorem World.Within.xlioLoop_back (h : w.Within l) {k : Nat} (hk : w.owner k ∈ l) (t : IoTurn) (n : Note) :
    (w.xlioBack t n k).Within l := by
  unfold World.xlioBack
  split
  · exact h
  · exact h.xlioStreamFree hk _

end

/-! ### Every step -/

namespace World.Sound

variable {w : World}

theorem init : World.init.Sound := by
  constructor <;> simp [World.init, World.Safe]

/-- A turn takes the first message out of its pipe and reads the channel. -/
theorem take_msg (h : w.Sound) {n : Note} {rest : List Note} (hp : w.msgPipe = n :: rest) :
    ({ w with msgPipe := rest }.touch n.channel).Within w.live ∧ n.channel ∈ w.live := by
  have hn : n.channel ∈ w.live := h.msgs n (hp ▸ List.mem_cons_self)
  have hrest : ∀ m ∈ rest, m.channel ∈ w.live := fun m hm => h.msgs m (hp ▸ List.mem_cons_of_mem _ hm)
  have hw : World.Within w.live { w with msgPipe := rest } := ⟨{ h with msgs := hrest }, rfl⟩
  exact ⟨hw.touch hn, hn⟩

theorem take_note (h : w.Sound) {n : Note} {rest : List Note} (hp : w.ioPipe = n :: rest) :
    ({ w with ioPipe := rest }.touch n.channel).Within w.live ∧ n.channel ∈ w.live := by
  have hn : n.channel ∈ w.live := h.notes n (hp ▸ List.mem_cons_self)
  have hmem : ∀ m ∈ rest, m ∈ w.ioPipe := fun m hm => hp ▸ List.mem_cons_of_mem _ hm
  have hw : World.Within w.live { w with ioPipe := rest } :=
    ⟨{ h with notes := fun m hm => h.notes m (hmem m hm), closes := fun m hm => h.closes m (hmem m hm) }, rfl⟩
  exact ⟨hw.touch hn, hn⟩

theorem xltpLoop (h : w.Sound) {t : Turn} (ht : t.Named w w.msgPipe) : (w.xltpLoop t).Sound := by
  unfold World.xltpLoop
  cases hp : w.msgPipe with
  | nil => exact h
  | cons n rest =>
    obtain ⟨hw, hn⟩ := h.take_msg hp
    rw [hp] at ht
    cases hf : n.flag with
    | recv => simpa [hf] using (hw.xltpRecv hn (ht hf)).1
    | back => simpa [hf] using (hw.xltpBack hn t).1
    | timedout => simpa [hf] using (hw.xltpTimedout hn t).1
    | download => simpa [hf] using hw.1
    | close k => simpa [hf] using hw.1

theorem xlioLoop (h : w.Sound) (t : IoTurn) : (w.xlioLoop t).Sound := by
  unfold World.xlioLoop
  cases hp : w.ioPipe with
  | nil => exact h
  | cons n rest =>
    obtain ⟨hw, hn⟩ := h.take_note hp
    simp only
    cases hk : ({ w with ioPipe := rest }.touch n.channel).ctx n.channel with
    | none => exact hw.1
    | some k =>
      have howner : w.owner k ∈ w.live := (h.streams _ _ hk).2 ▸ hn
      cases hf : n.flag with
      | recv => exact (hw.xlioLoop_recv howner t n).1
      | back => exact (hw.xlioLoop_back howner t n).1
      | timedout => exact hw.1
      | download => exact hw.1
      | close j =>
        have hj : w.owner j ∈ w.live := (h.closes n (hp ▸ List.mem_cons_self) j hf).2 ▸ hn
        exact (hw.xlioStreamFree hj t.drop).1

/-- A `FLUSH` of an idle channel leaves nothing behind that names it. -/
theorem xmsgerLocalRecv (h : w.Sound) (hs : Act.Settled w .localRecv) : w.xmsgerLocalRecv.Sound := by
  unfold World.xmsgerLocalRecv
  cases hr : w.requests with
  | nil => exact h
  | cons r rest =>
    have hrest : ∀ d, Request.flush d ∈ rest → d ∈ w.live := fun d hd =>
      h.flushes d (hr ▸ List.mem_cons_of_mem _ hd)
    cases r with
    | disconnect c => exact { h with flushes := hrest }
    | flush c =>
      have hc : c ∈ w.live := h.flushes c (hr ▸ List.mem_cons_self)
      rw [Act.Settled, hr] at hs
      obtain ⟨hmsgs, hnotes, hflush⟩ := hs
      have hstay : ∀ d ∈ w.live, d ≠ c → d ∈ w.live.filter (· ≠ c) := by
        intro d hd hne
        simpa using ⟨hd, hne⟩
      have hsub : ∀ d, d ∈ w.live.filter (· ≠ c) → d ∈ w.live := fun d hd => List.mem_of_mem_filter hd
      exact
        { msgs := fun n hn => hstay _ (h.msgs n hn) (hmsgs n hn)
          notes := fun n hn => hstay _ (h.notes n hn) (hnotes n hn)
          flushes := fun d hd => hstay d (hrest d hd) fun he => hflush (he ▸ hd)
          streams := h.streams
          closes := h.closes
          made := fun d hd => h.made d (hsub d hd)
          gone := by
            intro d hd
            rcases List.mem_append.mp hd with hd | hd
            · exact ⟨(h.gone d hd).1, fun hm => (h.gone d hd).2 (hsub d hm)⟩
            · rw [List.mem_singleton.mp hd]
              exact ⟨h.made c hc, by simp⟩
          safe := by
            refine ⟨?_, h.safe.2⟩
            have hnew : c ∉ w.frees := fun hf => (h.gone c hf).2 hc
            exact List.nodup_append.mpr ⟨h.safe.1, List.nodup_singleton c, by
              intro d hd e he hde
              rw [List.mem_singleton.mp he] at hde
              exact hnew (hde ▸ hd)⟩ }

theorem xchannelCreate (h : w.Sound) : w.xchannelCreate.Sound := by
  have hgrow : ∀ d ∈ w.live, d ∈ w.live ++ [w.next] := fun d hd => List.mem_append_left _ hd
  exact
    { msgs := fun n hn => hgrow _ (h.msgs n hn)
      notes := fun n hn => hgrow _ (h.notes n hn)
      flushes := fun d hd => hgrow d (h.flushes d hd)
      streams := h.streams
      closes := h.closes
      made := by
        intro d hd
        rcases List.mem_append.mp hd with hd | hd
        · exact Nat.lt_succ_of_lt (h.made d hd)
        · rw [List.mem_singleton.mp hd]
          exact Nat.lt_succ_self _
      gone := by
        intro d hd
        obtain ⟨hlt, hgone⟩ := h.gone d hd
        refine ⟨Nat.lt_succ_of_lt hlt, ?_⟩
        intro hm
        rcases List.mem_append.mp hm with hm | hm
        · exact hgone hm
        · exact hlt.ne (List.mem_singleton.mp hm)
      safe := h.safe }

theorem report (h : w.Sound) (f : Flag) (type : UInt16) (c : Nat) : (w.report f type c).Sound := by
  unfold World.report
  split
  · rename_i hc
    refine { h with msgs := ?_ }
    intro n hn
    rcases List.mem_append.mp hn with hn | hn
    · exact h.msgs n hn
    · rw [List.mem_singleton.mp hn]
      exact hc
  · exact h

theorem xmsgerSendAll (h : w.Sound) (c : Nat) : (w.xmsgerSendAll c).Sound := by
  have hmark : World.Sound { w with timedout := Function.update w.timedout c true } := { h with }
  unfold World.xmsgerSendAll
  split
  · exact h
  · split
    · exact hmark.report .timedout 0 c
    · exact h

theorem step (h : w.Sound) {a : Act} (ha : a.Settled w) : (w.step a).Sound := by
  cases a with
  | create => exact h.xchannelCreate
  | fromPeer type c => exact h.report .recv type c
  | toPeer type c => exact h.report .back type c
  | timeout c => exact h.xmsgerSendAll c
  | localRecv => exact h.xmsgerLocalRecv ha
  | xltp t => exact h.xltpLoop ha
  | io t => exact h.xlioLoop t

end World.Sound

/-- In every run that frees only idle channels and starts no stream without its path or uri, no channel is freed twice
and no message is handled after its channel is gone. -/
theorem channel_lifetime (as : List Act) (h : Along World.step (fun w a => a.Settled w) World.init as) :
    (run World.step World.init as).Safe := by
  have hsound : (run World.step World.init as).Sound :=
    h.invariant (fun _ _ hw ha => hw.step ha) World.Sound.init
  exact hsound.safe

/-- Every call succeeds, and no handler is found. -/
def Turn.fine : Turn where
  calls :=
    { stream := false
      write := true
      api := none
      callback := none
      stored := false
      filled := false
      ip := .ok
      port := .ok
      uuid := .ok
      obj := .ok
      code := .ok
      test := true
      word := true
      maker := none
      status := .ok
      send := true
      pipe := true
      disconnect := true
      flush := true }
  unset := none
  drop := true
  close := true

/-- The response of the peer ends a channel. -/
def farewell : List Act := [.create, .fromPeer xpackTypeRes 0, .xltp .fine, .localRecv]

theorem channel_lifetime_farewell :
    Along World.step (fun w a => a.Settled w) World.init farewell ∧ (run World.step World.init farewell).frees = [0] ∧
      (run World.step World.init farewell).Safe := by
  have h : Along World.step (fun w a => a.Settled w) World.init farewell := by decide
  exact ⟨h, by decide, channel_lifetime farewell h⟩

/-- A timeout is reported while the response still waits in the pipe: `xltp_recv_res` and `xltp_timedout`
both ask for the channel to be freed. -/
def crossing : List Act :=
  [.create, .fromPeer xpackTypeRes 0, .timeout 0, .xltp .fine, .xltp .fine, .localRecv, .localRecv]

theorem channel_freed_twice : ¬ (run World.step World.init crossing).Safe := by decide

/-- A `put` without its path, when the pointer that was not set still names the stream of a channel that is gone. -/
def Turn.pathless : Turn := { Turn.fine with
  calls := { Turn.fine.calls with api := some .put, word := false }
  unset := some 0 }

-- nothing else is on its way to the channel that is freed again
example : ¬ (run World.step World.init
    (farewell ++ [.create, .fromPeer xpackTypeReq 1, .xltp .pathless, .localRecv])).Safe := by decide

end Wenas.Xltp
