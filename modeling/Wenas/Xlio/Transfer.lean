import Wenas.Xlio.Stream
import Wenas.Lib.Machine

/-!
# An uploader and a downloader

Messages arrive once and in order on each way; the frames of a stream come back in the order they were sent, at any
time.
-/
namespace Wenas.Xlio

open Wenas.Machine

/-- What is to be sent. Names in one directory differ, and `st_size` has 64 bits. -/
structure Source where
  uri : Name
  tree : Node
  distinct : ∀ p children, tree.get p = some (.dir children) → (children.map Prod.fst).Nodup
  sized : ∀ p data, tree.get p = some (.file data) → data.length < 2 ^ 64

/-- A stream that has sent the frame `{"status": 200}` or not. -/
def Stream.made (s : Stream) (response : Bool) : Stream :=
  if response then { s with readable := 3, out := [false] } else s

/-- `xlio_start_uploader`. -/
def startUploader (src : Source) (frameSize : Nat) (response : Bool) : Stream :=
  match src.tree with
  | .dir children =>
    Stream.made { upload := true, uri := src.uri, frameSize := frameSize, disk := src.tree.disk,
                  scanner := some (traverserInit children) } response
  | .file data =>
    Stream.made { upload := true, uri := src.uri, frameSize := frameSize, disk := src.tree.disk,
                  fileSize := data.length } response

/-- `xlio_start_downloader` and `xlio_post_download`. -/
def startDownloader (uri : Name) (frameSize : Nat) (response : Bool) : Stream :=
  (Stream.made { upload := false, uri := uri, frameSize := frameSize, disk := .empty } response).send .reqList

/-- `closed` says that the `RES` frame of the downloader is back. -/
structure World where
  up : Stream
  down : Stream
  toUp : List Msg
  toDown : List Msg
  closed : Bool

def World.start (src : Source) (uri : Name) (frameSize : Nat) (upFirst downFirst : Bool) : World where
  up := startUploader src frameSize upFirst
  down := { startDownloader uri frameSize downFirst with outbox := [] }
  toUp := (startDownloader uri frameSize downFirst).outbox
  toDown := []
  closed := false

inductive Event where
  | recvUp
  | recvDown
  | backUp
  | backDown

def World.setUp (w : World) (s : Stream) : World :=
  { w with up := { s with outbox := [] }, toDown := w.toDown ++ s.outbox }

def World.setDown (w : World) (s : Stream) : World :=
  { w with down := { s with outbox := [] }, toUp := w.toUp ++ s.outbox }

/-- A message or a frame for a stream that was freed is dropped. -/
def World.step (w : World) : Event → World
  | .recvUp =>
    match w.toUp with
    | [] => w
    | m :: rest => if w.up.freed then { w with toUp := rest } else { w with toUp := rest }.setUp (w.up.recv m)
  | .recvDown =>
    match w.toDown with
    | [] => w
    | m :: rest =>
      if w.down.freed then { w with toDown := rest } else { w with toDown := rest }.setDown (w.down.recv m)
  | .backUp => if w.up.freed then w else w.setUp w.up.back
  | .backDown =>
    if w.down.freed then w
    else { w.setDown w.down.back with closed := w.closed || w.down.out.head? == some true }

/-- Every file with its contents and every directory of the source is below the uri of the downloader, under the
last name of the uri of the uploader. -/
def Complete (src : Source) (d : Disk) : Prop :=
  (∀ p data, src.tree.get p = some (.file data) → d.files (srcName src.uri :: p) = some data) ∧
    ∀ p children, src.tree.get p = some (.dir children) → d.dirs (srcName src.uri :: p) = true

/-- Bytes in the files that `xlio_check_list` will ask for. -/
def Disk.wanted (d : Disk) (list : List Entry) : Nat := ((list.filter d.wants).map (·.size)).sum

/-- The list asks for no file, or for some bytes, and these can be counted. -/
def Disk.Counts (d : Disk) (list : List Entry) : Prop :=
  list.filter d.wants = [] ∨ 0 < d.wanted list ∧ d.wanted list < 2 ^ 64

/-- No message meets one that waits for a frame; a `RES_LIST` counts; and when all bytes of a `DOWNLOAD_LIST` are
sent no entry of it is left. -/
def Fit (w : World) : Event → Prop
  | .recvUp => True
  | .recvDown =>
    w.down.recvFrame = none ∧ ∀ list, w.toDown.head? = some (.resList list) → w.down.disk.Counts list
  | .backUp =>
    w.up.recvFrame = none → w.up.uploadList = true → w.up.listPos = w.up.listSize → w.up.obj = none
  | .backDown => ∀ list, w.down.recvFrame = some (.resList list) → w.down.disk.Counts list

end Wenas.Xlio
