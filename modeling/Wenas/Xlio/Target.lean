import Mathlib
import Wenas.Lib.Machine
import Wenas.Lib.Places

/-!
# Where a downloader writes

The paths that `xlio_check_list` and `xlio_recv_file` assemble from the names and the declared lengths of a message, and
the calls they make with them. What the calls return is up to the disk.
-/
namespace Wenas.Xlio.Target
open Wenas.Machine Wenas.Places

abbrev Bytes := List UInt8

/-- `PATH_MAX`. -/
def pathMax : Nat := 4096

/-! ### Places -/

/-- `.` and an empty component stay, `..` goes up. -/
def move : Bytes → Move Bytes
  | [] => .stay
  | [46] => .stay
  | [46, 46] => .up
  | x => .down x

def moves (path : Bytes) : List (Move Bytes) := (path.splitOn 47).map move

/-- Where a path leads; one that begins with `/` starts at the root. -/
def resolve (path : Bytes) : Place Bytes := Place.walk ⟨path.head? == some 47, 0, []⟩ (moves path)

/-- A location in the directory, or the directory itself. -/
def Inside (uri path : Bytes) : Prop := Place.Below (resolve uri) (resolve path)

instance (uri path : Bytes) : Decidable (Inside uri path) := inferInstanceAs (Decidable (Place.Below ..))

/-- The uri itself, or the uri with a `/` and a rest whose `..` components either do not lead above the uri or are
followed by the names that lead back. -/
def Stays (uri path : Bytes) : Prop :=
  path = uri ∨ uri ++ [47] <+: path ∧ Place.Returns (resolve uri) (Place.relative (moves (path.drop (uri.length + 1))))

instance (uri path : Bytes) : Decidable (Stays uri path) := inferInstanceAs (Decidable (_ ∨ _ ∧ _))

theorem moves_append (uri rest : Bytes) : moves (uri ++ 47 :: rest) = moves uri ++ moves rest := by
  rw [moves, moves, moves, ← List.map_append, List.splitOn_eq_splitOnP, List.splitOn_eq_splitOnP,
    List.splitOn_eq_splitOnP, List.splitOnP_append_cons uri rest (by decide)]

theorem resolve_append {uri : Bytes} (huri : uri ≠ []) (rest : Bytes) :
    resolve (uri ++ 47 :: rest) = (resolve uri).walk (moves rest) := by
  rw [resolve, moves_append, Place.walk_append, resolve]
  cases uri with
  | nil => exact absurd rfl huri
  | cons b uri => rfl

/-- A path that begins with the uri and a `/` is inside if and only if the rest leads back to the uri. -/
theorem inside_append {uri : Bytes} (huri : uri ≠ []) (rest : Bytes) :
    Inside uri (uri ++ 47 :: rest) ↔ Place.Returns (resolve uri) (Place.relative (moves rest)) := by
  rw [Inside, resolve_append huri, Place.below_walk]

theorem Stays.inside {uri path : Bytes} (huri : uri ≠ []) (h : Stays uri path) : Inside uri path := by
  obtain rfl | ⟨⟨rest, rfl⟩, hreturns⟩ := h
  · exact Place.below_refl
  · rw [List.append_assoc, List.singleton_append, inside_append huri]
    rwa [show uri.length + 1 = (uri ++ [47]).length by simp, List.drop_left] at hreturns

/-! ### The calls -/

/-- What the disk answers while an object is handled. -/
structure Disk where
  dirExist : Bytes → Bool
  mkdir : Bytes → Bool
  opens : Bool
  tell : UInt64
  writes : Bool

/-- An object of a `RES_LIST`, an object of an `UPLOAD_LIST`, or one that lacks a field. `body` is the declared length
of the name. -/
inductive Object where
  | entry (isFile : Bool) (name : Bytes) (body : UInt64) (disk : Disk)
  | piece (name : Bytes) (body : UInt64) (size pos : UInt64) (data : UInt64) (disk : Disk)
  | malformed

/-- The stream of a downloader. `touched` has the paths that were created, opened and written; `none` is one that the
code does not determine. -/
structure Download where
  uri : Bytes
  fd : Option (Option Bytes) := none
  filePos : UInt64 := 0
  fileSize : UInt64 := 0
  freed : Bool := false
  touched : List (Option Bytes) := []

/-- `snprintf` of the uri, a `/` and the name to an array of `uri_len + 1` and the declared length, as an `int`. An
array of no length gets nothing. -/
def fullPath (uri name : Bytes) (body : UInt64) : Option Bytes :=
  let len : Int := (UInt64.ofNat (uri.length + 1) + body).toUInt32.toInt32.toInt
  if len ≤ 0 then none else some ((uri ++ 47 :: name).take (len.toNat - 1))

/-- The directories before each `/` of a path but a first one. -/
def parents (path : Bytes) : List Bytes :=
  ((List.range path.length).filter fun i => 0 < i ∧ path[i]? = some 47).map path.take

/-- The path in `buf`, which loses a `/` at its end, and its last byte if there is no room for it. -/
def buffered (path : Bytes) : Bytes :=
  if path.length < pathMax then (if path.getLast? = some 47 then path.dropLast else path) else path.take (pathMax - 1)

/-- The loop of `__fs_path_maker`: what it makes, and whether all calls succeed. -/
def makeParents (disk : Disk) : List Bytes → List Bytes × Bool
  | [] => ([], true)
  | q :: qs =>
    if disk.dirExist q then makeParents disk qs
    else if disk.mkdir q then (q :: (makeParents disk qs).1, (makeParents disk qs).2)
    else ([q], false)

/-- `__fs_path_maker`. With a path that is longer than `buf` it writes outside of it. -/
def pathMaker (disk : Disk) (path : Bytes) : List (Option Bytes) × Bool :=
  if path = [] then ([], false)
  else if disk.dirExist path then ([], true)
  else if pathMax < path.length then ([none], false)
  else
    let made := makeParents disk (parents (buffered path))
    if made.2 then ((made.1 ++ [buffered path]).map some, disk.mkdir (buffered path)) else (made.1.map some, false)

def Download.touch (s : Download) (paths : List (Option Bytes)) : Download := { s with touched := s.touched ++ paths }

/-- The body of the loop in `xlio_check_list`. -/
def Download.checkEntry (s : Download) (isFile : Bool) (name : Bytes) (body : UInt64) (disk : Disk) : Download :=
  if isFile then s
  else match fullPath s.uri name body with
  | none => { s.touch [none] with freed := true }
  | some path =>
    if disk.dirExist path then s
    else { s.touch (pathMaker disk path).1 with freed := !(pathMaker disk path).2 }

/-- The file of a piece is opened unless one is open, and `pos` is where it stands. -/
def Download.openFile (s : Download) (name : Bytes) (body : UInt64) (pos : UInt64) (disk : Disk) : Download :=
  match s.fd with
  | some _ => { s with freed := pos ≠ disk.tell }
  | none =>
    let path := fullPath s.uri name body
    if disk.opens then { s.touch [path] with fd := some path, freed := pos ≠ 0 ∧ pos ≠ disk.tell }
    else { s.touch [path] with freed := true }

/-- The bytes of a piece go to the open file, which is closed with its last byte. -/
def Download.writeFile (s : Download) (data : UInt64) (disk : Disk) : Download :=
  let s := if 0 < data then
      if disk.writes then { s.touch s.fd.toList with filePos := s.filePos + data }
      else { s.touch s.fd.toList with freed := true }
    else s
  if s.freed then s
  else if s.filePos = s.fileSize then { s with fd := none, filePos := 0, fileSize := 0 } else s

/-- The body of the loop in `xlio_recv_file`. -/
def Download.recvPiece (s : Download) (name : Bytes) (body size pos data : UInt64) (disk : Disk) : Download :=
  let s := { s with fileSize := size }.openFile name body pos disk
  if s.freed then s else s.writeFile data disk

def Download.object (s : Download) (o : Object) : Download :=
  if s.freed then s
  else match o with
  | .entry isFile name body disk => s.checkEntry isFile name body disk
  | .piece name body size pos data disk => s.recvPiece name body size pos data disk
  | .malformed => { s with freed := true }

/-- A message is the list of its objects; after a failed check the stream takes no more. -/
def Download.message (s : Download) (objects : List Object) : Download := run Download.object s objects

/-! ### Where the calls lead -/

/-- What `__fs_path_maker` has to make stays below the uri. -/
def MakesBelow (disk : Disk) (uri path : Bytes) : Prop :=
  disk.dirExist path ∨ path.length ≤ pathMax ∧ Stays uri (buffered path) ∧
    ∀ q ∈ parents (buffered path), disk.dirExist q = false → Stays uri q

instance (disk : Disk) (uri path : Bytes) : Decidable (MakesBelow disk uri path) := inferInstanceAs (Decidable (_ ∨ _))

/-- A directory that is not there and a file that is opened stay below the uri. -/
def Safe (s : Download) : Object → Prop
  | .entry isFile name body disk => isFile ∨ ∃ path ∈ fullPath s.uri name body, MakesBelow disk s.uri path
  | .piece name body .. => s.fd.isSome ∨ ∃ path ∈ fullPath s.uri name body, Stays s.uri path
  | .malformed => True

instance (s : Download) : (o : Object) → Decidable (Safe s o)
  | .entry .. => inferInstanceAs (Decidable (_ ∨ _))
  | .piece .. => inferInstanceAs (Decidable (_ ∨ _))
  | .malformed => .isTrue trivial

def Known (uri : Bytes) (path : Option Bytes) : Prop := ∃ q, path = some q ∧ Inside uri q

/-- All that was touched is inside, and so is the open file. -/
structure Contained (uri : Bytes) (s : Download) : Prop where
  same : s.uri = uri
  touched : ∀ path ∈ s.touched, Known uri path
  fd : ∀ path ∈ s.fd, Known uri path

theorem mem_makeParents {disk : Disk} {qs : List Bytes} {q : Bytes} (h : q ∈ (makeParents disk qs).1) :
    q ∈ qs ∧ disk.dirExist q = false := by
  induction qs with
  | nil => exact absurd h List.not_mem_nil
  | cons p qs ih =>
    rw [makeParents] at h
    split at h
    · exact ⟨List.mem_cons_of_mem p (ih h).1, (ih h).2⟩
    · rename_i hexist
      have hp : disk.dirExist p = false := Bool.eq_false_iff.mpr hexist
      split at h
      · obtain rfl | h := List.mem_cons.mp h
        · exact ⟨List.mem_cons_self, hp⟩
        · exact ⟨List.mem_cons_of_mem p (ih h).1, (ih h).2⟩
      · rw [List.mem_singleton.mp h]
        exact ⟨List.mem_cons_self, hp⟩

theorem mem_pathMaker {disk : Disk} {uri path : Bytes} (huri : uri ≠ []) (hbelow : MakesBelow disk uri path)
    {p : Option Bytes} (hp : p ∈ (pathMaker disk path).1) : Known uri p := by
  rw [pathMaker] at hp
  split at hp
  · exact absurd hp List.not_mem_nil
  · split at hp
    · exact absurd hp List.not_mem_nil
    · rename_i hexist
      obtain ⟨hlen, hlast, hparents⟩ := hbelow.resolve_left hexist
      rw [if_neg (Nat.not_lt.mpr hlen)] at hp
      have hknown : ∀ q ∈ (makeParents disk (parents (buffered path))).1, Known uri (some q) := by
        intro q hq
        obtain ⟨hmem, hq⟩ := mem_makeParents hq
        exact ⟨q, rfl, (hparents q hmem hq).inside huri⟩
      dsimp only at hp
      split at hp
      · obtain ⟨q, hq, rfl⟩ := List.mem_map.mp hp
        obtain hq | hq := List.mem_append.mp hq
        · exact hknown q hq
        · rw [List.mem_singleton.mp hq]
          exact ⟨_, rfl, hlast.inside huri⟩
      · obtain ⟨q, hq, rfl⟩ := List.mem_map.mp hp
        exact hknown q hq

namespace Contained

variable {uri : Bytes} {s : Download}

theorem touch (h : Contained uri s) {paths : List (Option Bytes)} (hpaths : ∀ path ∈ paths, Known uri path) :
    Contained uri (s.touch paths) where
  same := h.same
  touched path hpath := (List.mem_append.mp hpath).elim (h.touched path) (hpaths path)
  fd := h.fd

theorem checkEntry (huri : uri ≠ []) (h : Contained uri s) {isFile : Bool} {name : Bytes} {body : UInt64} {disk : Disk}
    (hsafe : Safe s (.entry isFile name body disk)) : Contained uri (s.checkEntry isFile name body disk) := by
  rw [Download.checkEntry]
  split
  · exact h
  · rename_i hfile
    obtain ⟨path, hpath, hbelow⟩ := hsafe.resolve_left hfile
    rw [Option.mem_def.mp hpath]
    dsimp only
    split
    · exact h
    · rw [h.same] at hbelow
      have htouch := h.touch fun p hp => mem_pathMaker huri hbelow hp
      exact ⟨htouch.same, htouch.touched, htouch.fd⟩

theorem openFile (huri : uri ≠ []) (h : Contained uri s) {name : Bytes} {body size pos : UInt64} {disk : Disk}
    (hsafe : s.fd.isSome ∨ ∃ path ∈ fullPath s.uri name body, Stays s.uri path) :
    Contained uri ({ s with fileSize := size }.openFile name body pos disk) := by
  rw [Download.openFile]
  cases hfd : s.fd with
  | some fd => exact ⟨h.same, h.touched, fun p hp => h.fd p (by rw [hfd]; exact hp)⟩
  | none =>
    obtain ⟨path, hpath, hstays⟩ := hsafe.resolve_left (by simp [hfd])
    rw [h.same] at hstays
    have hknown : Known uri (some path) := ⟨path, rfl, hstays.inside huri⟩
    have htouch : Contained uri (s.touch [some path]) := h.touch fun p hp => by rwa [List.mem_singleton.mp hp]
    dsimp only
    rw [Option.mem_def.mp hpath]
    split
    · exact ⟨h.same, htouch.touched, fun p hp => by cases hp; exact hknown⟩
    · exact ⟨h.same, htouch.touched, by rw [← hfd]; exact h.fd⟩

theorem writeFile (h : Contained uri s) (data : UInt64) (disk : Disk) : Contained uri (s.writeFile data disk) := by
  have htouch : Contained uri (s.touch s.fd.toList) := h.touch fun p hp => h.fd p (Option.mem_toList.mp hp)
  have hclose : ∀ t : Download, Contained uri t → Contained uri
      (if t.freed then t
      else if t.filePos = t.fileSize then { t with fd := none, filePos := 0, fileSize := 0 } else t) := by
    intro t ht
    split
    · exact ht
    · split
      · exact ⟨ht.same, ht.touched, fun p hp => by cases hp⟩
      · exact ht
  refine hclose _ ?_
  split
  · split
    · exact ⟨htouch.same, htouch.touched, htouch.fd⟩
    · exact ⟨htouch.same, htouch.touched, htouch.fd⟩
  · exact h

theorem recvPiece (huri : uri ≠ []) (h : Contained uri s) {name : Bytes} {body size pos data : UInt64} {disk : Disk}
    (hsafe : Safe s (.piece name body size pos data disk)) :
    Contained uri (s.recvPiece name body size pos data disk) := by
  have hopen : Contained uri ({ s with fileSize := size }.openFile name body pos disk) := h.openFile huri hsafe
  rw [Download.recvPiece]
  split
  · exact hopen
  · exact hopen.writeFile data disk

theorem object (huri : uri ≠ []) {o : Object} (h : Contained uri s)
    (hsafe : Safe s o) : Contained uri (s.object o) := by
  rw [Download.object.eq_def]
  split
  · exact h
  · cases o with
    | entry isFile name body disk => exact h.checkEntry huri hsafe
    | piece name body size pos data disk => exact h.recvPiece huri hsafe
    | malformed => exact ⟨h.same, h.touched, h.fd⟩

theorem message (huri : uri ≠ []) {objects : List Object} (h : Contained uri s)
    (hsafe : Along Download.object Safe s objects) : Contained uri (s.message objects) := by
  have hstep : ∀ s o, Contained uri s → Safe s o → Contained uri (s.object o) := fun _ _ h hsafe => h.object huri hsafe
  exact Along.invariant hstep hsafe h

end Contained

/-- With safe objects all that a downloader creates, opens and writes is inside its uri. -/
theorem written_inside (uri : Bytes) (huri : uri ≠ []) (messages : List (List Object))
    (hrun : Along Download.message (fun s objects => Along Download.object Safe s objects) { uri := uri } messages) :
    ∀ path ∈ (run Download.message { uri := uri } messages).touched, ∃ q, path = some q ∧ Inside uri q := by
  have hstep : ∀ s objects, Contained uri s → Along Download.object Safe s objects →
      Contained uri (s.message objects) :=
    fun _ _ h hsafe => h.message huri hsafe
  have hstart : Contained uri { uri := uri } := ⟨rfl, fun _ hp => absurd hp List.not_mem_nil, fun _ hp => by cases hp⟩
  exact (Along.invariant hstep hrun hstart).touched

/-- A disk with the directory "/d" on which all calls succeed. -/
def emptyDisk : Disk := ⟨fun q => q = [47, 100], fun _ => true, true, 0, true⟩

/-- The directory "a" and the file "a/f" below "/d". -/
theorem written_inside_sample :
    (run Download.message { uri := [47, 100] }
      [[.entry false [97] 2 emptyDisk], [.piece [97, 47, 102] 4 1 0 1 emptyDisk]]).touched.all
      (fun path => path.any fun q => decide (Inside [47, 100] q)) = true := by
  refine List.all_eq_true.mpr fun path hpath => ?_
  obtain ⟨q, rfl, hinside⟩ := written_inside [47, 100] (by decide) _ (by decide +kernel) path hpath
  exact decide_eq_true hinside

/-- The names "../x" in a `RES_LIST` and in an `UPLOAD_LIST` make a directory and a file beside "/d". -/
theorem written_outside :
    ∃ messages : List (List Object), ¬ ∀ path ∈ (run Download.message { uri := [47, 100] } messages).touched,
      ∃ q, path = some q ∧ Inside [47, 100] q := by
  refine ⟨[[.entry false [46, 46, 47, 120] 5 emptyDisk], [.piece [46, 46, 47, 121] 5 1 0 1 emptyDisk]],
    fun hinside => ?_⟩
  obtain ⟨q, hq, hbelow⟩ := hinside (some [47, 100, 47, 46, 46, 47, 121]) (by decide +kernel)
  cases hq
  exact absurd hbelow (by decide +kernel)

end Wenas.Xlio.Target
