import Wenas.Xmsger.Channel

/-!
# Frames on the receive path of `xltp.c`

A received frame goes from `xltp_recv` through a dispatcher to a handler, and some handlers
start a stream. Every function is followed with the pointers it holds: a frame that has been
moved by a reallocation is a new frame, and whoever still has the old pointer has a dead one.
How each call to the outside ends is an argument. The log keeps every release, clearing and
hand-over of a frame together with whether the frame was alive.
-/
namespace Wenas.Xltp

open Wenas.Xmsger

/-- The frames of one call: the received one, the request of its channel, the frame stored in that
request, the test frame, the buffers of a new stream, and what a reallocation makes of these. -/
inductive Frame where
  | received
  | request
  | kept
  | test
  | buf : Fin 4 → Frame
  | moved : Frame → Frame
  deriving DecidableEq, Repr

inductive Op where
  | free : Frame → Bool → Op
  | clear : Frame → Bool → Op
  | queue : Frame → Bool → Op
  | pipe : Frame → Op
  /-- a pointer without a value, or a null pointer, is followed -/
  | fault : Op
  deriving DecidableEq, Repr

structure Refs where
  count : Frame → Nat
  log : List Op

/-- How an `xl_add_` call ends: in place, with the frame moved, or without memory. -/
inductive Add where
  | ok
  | moved
  | failed
  deriving DecidableEq, Repr

inductive Api where
  | echo
  | boot
  | put
  | get
  deriving DecidableEq, Repr

/-- How the calls made on the way end. -/
structure Outcome where
  /-- the channel has a stream -/
  stream : Bool
  /-- `xpipe_write` in `xlio_stream_write` -/
  write : Bool
  /-- the handler found under the word `api` -/
  api : Option Api
  /-- the callback of the channel's request -/
  callback : Option Api
  /-- the request has a frame stored in it -/
  stored : Bool
  /-- the received frame is not empty -/
  filled : Bool
  ip : Add
  port : Add
  uuid : Add
  obj : Add
  code : Add
  /-- `xl_test` gets its memory -/
  test : Bool
  /-- `xl_find_word` finds the path or the uri -/
  word : Bool
  /-- `xlio_stream_maker` gives up with so many buffers made -/
  maker : Option (Fin 4)
  status : Add
  /-- `xmsger_send` -/
  send : Bool
  /-- `xpipe_write` in `xlio_start_downloader` -/
  pipe : Bool
  /-- `udp_local_send` in `xmsger_disconnect` -/
  disconnect : Bool
  /-- `xmsger_flush` in `xltp_recv_res` -/
  flush : Bool

/-- A call changes the references and returns a value. -/
def M (α : Type) : Type := Refs → α × Refs

instance : Monad M where
  pure a := fun s => (a, s)
  bind x g := fun s => g (x s).1 (x s).2

def M.run {α : Type} (x : M α) (s : Refs) : α × Refs := x s

def note (op : Op) : M Unit := fun s => ((), { s with log := s.log ++ [op] })

def countOf (f : Frame) : M Nat := fun s => (s.count f, s)

def setCount (f : Frame) (n : Nat) : M Unit := fun s => ((), { s with count := Function.update s.count f n })

def alive (f : Frame) : M Bool := do return decide (0 < (← countOf f))

def xlCreator (f : Frame) : M Unit := setCount f 1

/-- The pointer is cleared only when the last reference is given up. -/
def xlFree : Option Frame → M (Option Frame)
  | none => return none
  | some f => do
    note (.free f (← alive f))
    let n ← countOf f
    setCount f (n - 1)
    return if n = 1 then none else some f

def xlClear (f : Frame) : M Unit := do note (.clear f (← alive f))

/-- Any of the `xl_add_` functions, with the pointer it leaves. -/
def xlAdd (f : Frame) : Add → M (Frame × Bool)
  | .ok => return (f, true)
  | .moved => do
    setCount (.moved f) (← countOf f)
    setCount f 0
    return (.moved f, true)
  | .failed => return (f, false)

/-- `xmsger_send` and `xmsger_disconnect`: the frame is handed over when the call succeeds. -/
def xmsgerQueue (f : Frame) (ok : Bool) : M Unit := do if ok then note (.queue f (← alive f))

def xltpSendRes (o : Outcome) (f : Frame) : M Unit := xmsgerQueue f o.disconnect

/-- The buffers a stream still has. -/
def xlioStreamFree : List (Fin 4) → M Unit
  | [] => return ()
  | i :: is => do
    let _ ← xlFree (some (.buf i))
    xlioStreamFree is

def makeBufs : List (Fin 4) → M Unit
  | [] => return ()
  | i :: is => do
    xlCreator (.buf i)
    makeBufs is

/-- The first buffer already fails. -/
def noneMade : Fin 4 := 0

/-- The buffers are made one by one; after a failure the ones made so far are released. -/
def xlioStreamMaker (o : Outcome) : M (Option (List (Fin 4))) := do
  match o.maker with
  | none =>
    makeBufs [0, 1, 2, 3]
    return some [0, 1, 2, 3]
  | some n =>
    makeBufs ((List.finRange 4).take n)
    xlioStreamFree ((List.finRange 4).take n)
    return none

/-- The answer to a request goes out in the first buffer, which then no longer belongs to the stream. -/
def sendStatus (o : Outcome) : M Bool := do
  let (f, _) ← xlAdd (.buf 0) o.status
  xmsgerQueue f o.send
  return o.send

def xlioStartDownloader (o : Outcome) (req : Frame) (response : Bool) : M Bool := do
  if o.word then
    match ← xlioStreamMaker o with
    | none => return false
    | some bufs =>
      if response then
        if ← sendStatus o then
          if o.pipe then
            note (.pipe req)
            return true
          else
            xlioStreamFree bufs.tail
            return false
        else
          xlioStreamFree bufs.tail
          return false
      else if o.pipe then
        note (.pipe req)
        return true
      else
        xlioStreamFree bufs
        return false
  else
    -- the stream pointer has not been set
    note .fault
    return false

def xlioStartUploader (o : Outcome) (req : Frame) (response : Bool) : M Bool := do
  if o.word then
    match ← xlioStreamMaker o with
    | none =>
      let _ ← xlFree (some req)
      return false
    | some bufs =>
      if response then
        if ← sendStatus o then
          let _ ← xlFree (some req)
          return true
        else
          xlioStreamFree bufs.tail
          let _ ← xlFree (some req)
          return false
      else
        let _ ← xlFree (some req)
        return true
  else
    note .fault
    let _ ← xlFree (some req)
    return false

/-- The rest of `api_echo` after the address: none of its calls is checked. -/
def echoAnswer (o : Outcome) (msg : Frame) : M Bool := do
  let test : Option Frame ← if o.test then do xlCreator .test; pure (some .test) else do note .fault; pure none
  let (msg, _) ← xlAdd msg o.obj
  let _ ← xlFree test
  let (msg, _) ← xlAdd msg o.code
  xltpSendRes o msg
  return true

def apiEcho (o : Outcome) (msg : Frame) : M Bool := do
  xlClear msg
  let (msg, ok) ← xlAdd msg o.ip
  if !ok then return false
  let (msg, ok) ← xlAdd msg o.port
  if !ok then return false
  echoAnswer o msg

def apiBoot (o : Outcome) (msg : Frame) : M Bool := do
  xlClear msg
  let (msg, ok) ← xlAdd msg o.ip
  if !ok then let _ ← xlFree (some msg); return false
  let (msg, ok) ← xlAdd msg o.port
  if !ok then let _ ← xlFree (some msg); return false
  let (msg, ok) ← xlAdd msg o.uuid
  if !ok then let _ ← xlFree (some msg); return false
  let (msg, ok) ← xlAdd msg o.code
  if !ok then let _ ← xlFree (some msg); return false
  xltpSendRes o msg
  return true

/-- The failure label of `api_put` and `api_get`. -/
def refuse (o : Outcome) (req : Frame) : M Bool := do
  xlClear req
  let (req, _) ← xlAdd req o.code
  xltpSendRes o req
  return false

def apiPut (o : Outcome) (req : Frame) : M Bool := do
  if ← xlioStartDownloader o req true then return true else refuse o req

def apiGet (o : Outcome) (req : Frame) : M Bool := do
  if ← xlioStartUploader o req true then return true else refuse o req

/-- `res_echo` and `res_boot` -/
def resPrint (res : Frame) : M Bool := do
  let _ ← xlFree (some res)
  return true

def resEcho : Frame → M Bool := resPrint

def resBoot : Frame → M Bool := resPrint

/-- `res_put` and `res_get` start a stream with the frame stored in the request. -/
def resStream (start : Frame → M Bool) (o : Outcome) (res : Frame) : M Bool := do
  if o.stored then
    if ← start .kept then
      let _ ← xlFree (some res)
      return true
    else
      let _ ← xlFree (some res)
      let _ ← xlFree (some .request)
      let _ ← xlFree (some .kept)
      return false
  else
    let _ ← xlFree (some res)
    let _ ← xlFree (some .request)
    return false

def resPut (o : Outcome) (res : Frame) : M Bool := resStream (xlioStartUploader o · false) o res

def resGet (o : Outcome) (res : Frame) : M Bool := resStream (xlioStartDownloader o · false) o res

def xltpRecvReq (o : Outcome) (msg : Frame) : M Bool :=
  match o.api with
  | none => return false
  | some .echo => apiEcho o msg
  | some .boot => apiBoot o msg
  | some .put => apiPut o msg
  | some .get => apiGet o msg

def xltpRecvMsg (o : Outcome) (msg : Frame) : M Bool :=
  match o.callback with
  | none => return false
  | some .echo => resEcho msg
  | some .boot => resBoot msg
  | some .put => resPut o msg
  | some .get => resGet o msg

def xltpRecvRes (o : Outcome) (msg : Frame) : M Bool := do
  let done ← if o.filled then xltpRecvMsg o msg else pure false
  if o.flush then
    let _ ← xlFree (if done then none else some msg)
    return true
  else return false

def xltpRecv (o : Outcome) (type : UInt16) : M Bool := do
  let ok ←
    if o.stream then do
      if o.write then note (.pipe .received)
      pure o.write
    else if type = xpackTypeReq then xltpRecvReq o .received
    else if type = xpackTypeMsg then xltpRecvMsg o .received
    else if type = xpackTypeRes then xltpRecvRes o .received
    else pure true
  if ok then return true
  else
    let _ ← xlFree (some .received)
    return false

/-- One reference on the received frame, `held` on the request and `kept` on the frame stored in it. -/
def Refs.start (held kept : Nat) : Refs where
  count
    | .received => 1
    | .request => held
    | .kept => kept
    | _ => 0
  log := []

def Op.live : Op → Bool
  | .free _ live => live
  | .clear _ live => live
  | .queue _ live => live
  | .pipe _ => true
  | .fault => false

def freed (l : List Op) : List Frame :=
  l.filterMap fun
    | .free f _ => some f
    | _ => none

def queued (l : List Op) : List Frame :=
  l.filterMap fun
    | .queue f _ => some f
    | _ => none

/-- Nothing dead is released, cleared or queued, no wild pointer is followed, which may lead to any frame, and nothing
queued is released. -/
def Owned (l : List Op) : Prop := (∀ op ∈ l, op.live = true) ∧ ∀ f ∈ queued l, f ∉ freed l

instance (l : List Op) : Decidable (Owned l) := inferInstanceAs (Decidable (_ ∧ _))

end Wenas.Xltp
