import Wenas.Xlio.Tree

/-!
# The stream of `xlio.c`

`xlio_recv_frame` and what it calls, for both ends. A frame is the value that `xline.h` reads back from it; its
length is counted where the code looks at it.
-/
namespace Wenas.Xlio

/-- An object of a `RES_LIST` or a `DOWNLOAD_LIST`. -/
structure Entry where
  isFile : Bool
  path : Path
  size : Nat
  md5 : List UInt8

/-- An object of an `UPLOAD_LIST`; an empty file has no `data`. -/
structure Piece where
  path : Path
  size : Nat
  pos : Nat
  data : Option (List UInt8)

inductive Msg where
  | reqList
  | resList (list : List Entry)
  | downloadList (size : Nat) (list : List Entry)
  | uploadList (list : List Piece)
  | res

def Msg.isRes : Msg → Bool
  | .res => true
  | _ => false

/-- `xlio_stream_t`. `readable` counts the frames in `buf`, `out` the frames at the msger (true for a `RES`), and
`outbox` is what they carried; `recvFrame` is the message that waits for a frame. -/
structure Stream where
  upload : Bool
  uri : Name
  frameSize : Nat
  disk : Disk
  fd : Option (Path × Nat) := none
  obj : Option Entry := none
  uploadList : Bool := false
  uploadParser : List Entry := []
  recvFrame : Option Msg := none
  filePos : Nat := 0
  fileSize : Nat := 0
  listPos : Nat := 0
  listSize : Nat := 0
  scanner : Option Scanner := none
  item : Option Item := none
  readable : Nat := 4
  out : List Bool := []
  outbox : List Msg := []
  freed : Bool := false

/-- Addition in `uint64_t`. -/
def add64 (a b : Nat) : Nat := (a + b) % 2 ^ 64

def srcNameLen (uri : Name) : Nat := (uri.reverse.takeWhile (· != 47)).length

def srcName (uri : Name) : Name := uri.drop (uri.length - srcNameLen uri)

def xlineSize : Nat := 9

/-- Bytes of a line with a key of `key` bytes and a body of `body` bytes after the head. -/
def keyed (key body : Nat) : Nat := key + 2 + xlineSize + body

/-- `__xl_sizeof_body` of the word that holds a path. -/
def wordSize (p : Path) : Nat := slashed p - 1 + 1

/-- `__xl_sizeof_line` of an entry: `type`, `path`, `size` and `md5`. -/
def Entry.lineSize (e : Entry) : Nat :=
  xlineSize + keyed 4 0 + keyed 4 (wordSize e.path) + keyed 4 0 + keyed 3 e.md5.length

/-- `xl_usable` for a key of `key` bytes in a frame written up to `wpos`. -/
def usable (size wpos key : Nat) : Nat :=
  let headlen := key + 2 + xlineSize
  if size - wpos > headlen then size - wpos - headlen else 0

/-- `xlio_take_frame`, and `xmsger_send` of the frame. -/
def Stream.send (s : Stream) (m : Msg) : Stream :=
  { s with readable := s.readable - 1, out := s.out ++ [m.isRes], outbox := s.outbox ++ [m] }

/-- The path below `uri` of a listed file: the uri itself when the name is no longer than the last name of it. -/
def Stream.localPath (s : Stream) (p : Path) : Path :=
  if wordSize p = srcNameLen s.uri + 1 then [] else p.tail

/-- What the body of the loop in `xlio_send_file` leaves: the stream, `wpos`, the objects added, and whether the
loop goes on. -/
structure Turn where
  stream : Stream
  wpos : Nat
  pieces : List Piece
  more : Bool

def Stream.openRead (s : Stream) (p : Path) : Option Stream :=
  match s.fd with
  | some _ => some s
  | none => ((s.disk.files (s.localPath p)).map fun _ => { s with fd := some (s.localPath p, 0) })

def Stream.closeRead (s : Stream) : Stream := { s with fd := none, filePos := 0, fileSize := 0, obj := none }

/-- `fs_file_read` on `stream->fd`. -/
def Stream.readFd (s : Stream) (len : Nat) : List UInt8 :=
  match s.fd with
  | some f => s.disk.read f.1 f.2 len
  | none => []

/-- The part of the loop body for a file whose handle is open, in a frame written up to `wpos` after `pos`. -/
def Stream.readPart (s : Stream) (e : Entry) (wpos : Nat) : Turn :=
  let pos := s.filePos
  if 0 < s.fileSize then
    let len := min (usable s.frameSize wpos 4) (s.fileSize - s.filePos)
    let data := s.readFd len
    let s := { s with
      fd := s.fd.map fun f => (f.1, f.2 + data.length)
      filePos := add64 s.filePos len
      listPos := add64 s.listPos len }
    let piece : Piece := ⟨e.path, e.size, pos, some data⟩
    if s.filePos < s.fileSize then ⟨s, wpos + keyed 4 len, [piece], false⟩
    else if s.filePos = s.fileSize then ⟨s.closeRead, wpos + keyed 4 len, [piece], true⟩
    else ⟨s, wpos + keyed 4 len, [piece], true⟩
  else
    let piece : Piece := ⟨e.path, e.size, pos, none⟩
    if s.filePos = s.fileSize then ⟨s.closeRead, wpos, [piece], true⟩ else ⟨s, wpos, [piece], true⟩

/-- One turn of the loop in `xlio_send_file`; `none` is a failed check. -/
def Stream.sendObj (s : Stream) (wpos : Nat) : Option Turn :=
  match s.obj with
  | none => some ⟨s, wpos, [], true⟩
  | some e =>
    if usable s.frameSize wpos 3 ≤ e.lineSize then some ⟨s, wpos, [], false⟩
    else
      let s := { s with fileSize := e.size }
      if e.isFile then
        (s.openRead e.path).map fun s =>
          s.readPart e (wpos + xlineSize + keyed 4 (wordSize e.path) + keyed 4 0 + keyed 4 0 + keyed 3 0)
      else some ⟨s, wpos, [], true⟩

/-- The loop of `xlio_send_file` with the entries that `upload_parser` has still to give. -/
def Stream.sendLoop : List Entry → Stream → Nat → Option (Stream × List Piece)
  | rest, s, wpos =>
    match s.sendObj wpos with
    | none => none
    | some t =>
      if t.more then
        match rest with
        | [] => some ({ t.stream with obj := none, uploadParser := [] }, t.pieces)
        | e :: rest =>
          (Stream.sendLoop rest { t.stream with obj := some e } t.wpos).map fun r => (r.1, t.pieces ++ r.2)
      else some ({ t.stream with uploadParser := rest }, t.pieces)

/-- `xlio_send_file`; the frame holds `api`, `id` and the head of the list before the first object. -/
def Stream.sendFile (s : Stream) : Option Stream :=
  (Stream.sendLoop s.uploadParser s (keyed 3 0 + keyed 2 0 + keyed 4 0)).map fun r => r.1.send (.uploadList r.2)

/-- A loop whose body can fail: what was done before stays. -/
def each {σ α : Type} (f : σ → α → σ × Bool) : List α → σ → σ × Bool
  | [], s => (s, true)
  | a :: as, s => match f s a with
    | (s, false) => (s, false)
    | (s, true) => each f as s

/-- The file of a piece is opened where the last piece left it, or made. A file opened with
`XAPI_FS_FLAG_WRITE` has offset 0, which is not the `pos` it was opened for. -/
def Stream.openWrite (s : Stream) (p : Piece) : Stream × Bool :=
  match s.fd with
  | some f => (s, p.pos = f.2)
  | none =>
    if p.pos = 0 then
      match s.disk.create p.path with
      | some d => ({ s with disk := d, fd := some (p.path, 0) }, true)
      | none => (s, false)
    else
      match s.disk.append p.path with
      | some d => ({ s with disk := d, fd := some (p.path, 0) }, false)
      | none => (s, false)

/-- The bytes of a piece go to the open file, which is closed with its last byte. -/
def Stream.writePart (s : Stream) (data : List UInt8) : Stream :=
  let s := match s.fd with
    | some f => { s with
        disk := s.disk.write f.1 f.2 data
        fd := some (f.1, f.2 + data.length)
        filePos := add64 s.filePos data.length
        listPos := add64 s.listPos data.length }
    | none => s
  if s.filePos = s.fileSize then { s with fd := none, filePos := 0, fileSize := 0 } else s

/-- The body of the loop in `xlio_recv_file`. -/
def Stream.recvPiece (s : Stream) (p : Piece) : Stream × Bool :=
  match { s with fileSize := p.size }.openWrite p with
  | (s, false) => (s, false)
  | (s, true) => (s.writePart (p.data.getD []), true)

/-- `xlio_recv_file`. -/
def Stream.recvFile (s : Stream) (list : List Piece) : Stream × Bool :=
  match list with
  | [] =>
    if s.listPos ≠ s.listSize then (s, false)
    else ({ s.send .reqList with listPos := 0, listSize := 0 }, true)
  | p :: list => each Stream.recvPiece (p :: list) s

/-- `xlio_upload_list`. -/
def Stream.xlioUploadList (s : Stream) : Stream × Bool :=
  if s.uploadList then
    if s.listPos < s.listSize then
      match s.sendFile with
      | none => (s, false)
      | some s => (s, true)
    else if s.listPos ≠ s.listSize then (s, false)
    else ({ s.send (.uploadList []) with uploadList := false, listPos := 0, listSize := 0 }, true)
  else (s, true)

def zeroMd5 : List UInt8 := List.replicate 64 0

/-- An absent file is wanted, and one that is there when the `md5` of the entry is not all zero. -/
def Disk.wants (d : Disk) (e : Entry) : Bool :=
  e.isFile && ((d.files e.path).isNone || e.md5 != zeroMd5)

/-- The body of the loop in `xlio_check_list`: the stream and the list written so far. -/
def checkEntry (r : Stream × List Entry) (e : Entry) : (Stream × List Entry) × Bool :=
  if e.isFile then
    if r.1.disk.wants e then (({ r.1 with listSize := add64 r.1.listSize e.size }, r.2 ++ [e]), true) else (r, true)
  else if r.1.disk.dirs e.path then (r, true)
  else match r.1.disk.pathMaker e.path with
    | some d => (({ r.1 with disk := d }, r.2), true)
    | none => (r, false)

/-- `xlio_check_list`. -/
def Stream.checkList (s : Stream) (list : List Entry) : (Stream × List Entry) × Bool :=
  each checkEntry list (s, [])

/-- The entry that `xlio_scan_dir` makes of an item. -/
def Stream.entry (s : Stream) (i : Item) : Entry := ⟨i.isFile, srcName s.uri :: i.path, i.size, zeroMd5⟩

/-- The loop of `xlio_scan_dir` in a frame with `room` bytes left. An item that does not fit stays for the next
frame; after the last one the scanner is closed. -/
def Stream.scanLoop (s : Stream) (sc : Scanner) (i : Item) (room : Nat) : Stream × List Entry :=
  if h : room < (s.entry i).lineSize then ({ s with scanner := some sc, item := some i }, [])
  else
    have : room - (s.entry i).lineSize < room := by
      simp only [Entry.lineSize, keyed, xlineSize] at h ⊢
      omega
    let s' := { s with listSize := add64 s.listSize i.size }
    match traverserNext s.uri.length sc with
    | (none, _) => ({ s' with scanner := none, item := none }, [s.entry i])
    | (some i', sc') =>
      let r := Stream.scanLoop s' sc' i' (room - (s.entry i).lineSize)
      (r.1, s.entry i :: r.2)
  termination_by room

/-- Bytes of `api`, `size` and the head of the list. -/
def listHead : Nat := keyed 3 0 + keyed 4 0 + keyed 4 0

/-- `xlio_scan_dir`; before the first frame there is no item yet. -/
def Stream.scanDir (s : Stream) (sc : Scanner) : Stream × List Entry :=
  match s.item with
  | some i => s.scanLoop sc i (s.frameSize - listHead)
  | none =>
    match traverserNext s.uri.length sc with
    | (none, _) => ({ s with scanner := none, item := none }, [])
    | (some i, sc') => s.scanLoop sc' i (s.frameSize - listHead)

/-- The list that answers a `REQ_LIST`: the next part of the scan, the single file, or nothing. -/
def Stream.answer (s : Stream) : Stream × List Entry :=
  match s.scanner with
  | some sc => s.scanDir sc
  | none =>
    if 0 < s.fileSize then ({ s with fileSize := 0 }, [⟨true, [srcName s.uri], s.fileSize, zeroMd5⟩])
    else (s, [])

/-- The loop of the `DOWNLOAD_LIST` branch, with the number of frames that are left. -/
def Stream.sendFrames : Nat → Stream → Stream × Bool
  | 0, s => (s, true)
  | frames + 1, s =>
    if s.listPos < s.listSize then
      match s.sendFile with
      | none => (s, false)
      | some s => Stream.sendFrames frames s
    else (s, true)

/-- `xlio_recv_frame`. -/
def Stream.xlioRecvFrame (s : Stream) : Msg → Stream × Bool
  | .reqList => (s.answer.1.send (.resList s.answer.2), true)
  | .resList [] => (s.send .res, true)
  | .resList (e :: list) =>
    match s.checkList (e :: list) with
    | (r, false) => (r.1, false)
    | (r, true) =>
      if 0 < r.1.listSize then (r.1.send (.downloadList r.1.listSize r.2), true)
      else (r.1.send .reqList, true)
  | .downloadList size list =>
    if s.uploadList then (s, false)
    else
      let s := { s with uploadList := true, listSize := size }
      match list with
      | [] => (s, true)
      | _ :: _ => Stream.sendFrames s.readable { s with uploadParser := list }
  | .uploadList list => s.recvFile list
  | .res => (s, true)

/-- The stream is freed when a check has failed. -/
def settle (r : Stream × Bool) : Stream := { r.1 with freed := !r.2 }

/-- A call of `xlio_recv_frame` in `xlio_loop`, with the message noted. -/
def Stream.pass (s : Stream) (m : Msg) : Stream × List Msg := (settle (s.xlioRecvFrame m), [m])

/-- `XMSG_FLAG_RECV` in `xlio_loop`, and the messages passed. With no frame free the message is kept, over any that was
kept before. -/
def Stream.onRecv (s : Stream) (m : Msg) : Stream × List Msg :=
  if m.isRes then ({ s with freed := true }, [])
  else if s.readable = 0 then ({ s with recvFrame := some m }, [])
  else s.pass m

def Stream.recv (s : Stream) (m : Msg) : Stream := (s.onRecv m).1

/-- `xl_free` clears the pointer only when nothing else holds the message: a `DOWNLOAD_LIST` is held as
`upload_list`. -/
def leftHeld : Msg → Option Msg
  | .downloadList size (e :: list) => some (.downloadList size (e :: list))
  | _ => none

/-- `XMSG_FLAG_BACK` in `xlio_loop`, and the messages passed: the oldest frame is back. -/
def Stream.onBack (s : Stream) : Stream × List Msg :=
  match s.out with
  | [] => (s, [])
  | isRes :: out =>
    let s := { s with out := out, readable := s.readable + 1 }
    let r := match s.recvFrame with
      | some m => ({ (s.pass m).1 with recvFrame := leftHeld m }, (s.pass m).2)
      | none => (if s.upload then settle s.xlioUploadList else s, [])
    ({ r.1 with freed := r.1.freed || isRes }, r.2)

def Stream.back (s : Stream) : Stream := s.onBack.1

theorem Stream.recv_eq (s : Stream) (m : Msg) : s.recv m =
    if m.isRes then { s with freed := true }
    else if s.readable = 0 then { s with recvFrame := some m }
    else settle (s.xlioRecvFrame m) := by
  rw [recv, onRecv]
  split
  · rfl
  · split <;> rfl

theorem Stream.back_eq (s : Stream) : s.back =
    match s.out with
    | [] => s
    | isRes :: out =>
      let s := { s with out := out, readable := s.readable + 1 }
      let s := match s.recvFrame with
        | some m =>
          let r := settle (s.xlioRecvFrame m)
          { r with recvFrame := leftHeld m }
        | none => if s.upload then settle s.xlioUploadList else s
      { s with freed := s.freed || isRes } := by
  rw [back, onBack]
  cases s.out with
  | nil => rfl
  | cons isRes out => cases s.recvFrame <;> rfl

end Wenas.Xlio
