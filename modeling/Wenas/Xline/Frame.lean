import Wenas.Xline.Parser

/-!
# Frames and the calls that build them

`xline.h`: a frame is a structure whose last field is the header of the line, with the body of the line right behind it.
The calls append to the body, at `wpos`, and move the frame to a larger block when the rest of the block is too small.
Offsets are those of the parser: the body starts at 0 and the header at `-9`.
-/
namespace Wenas.Xline

/-- `sizeof(xframe_t)`. -/
def sizeofFrame : UInt64 := 176

/-- Bytes somewhere in memory. No address space has room for `2 ^ 60` of them. -/
structure Block where
  bytes : List UInt8
  short : bytes.length < 2 ^ 60

/-- A C string in memory. -/
structure Text extends CString where
  short : chars.length < 2 ^ 60

/-- What `malloc` does in one call: it gives the bytes of a block, or fails. -/
structure Malloc where
  give : UInt64 → Option Mem
  limit : ∀ n m, give n = some m → n.toNat < 2 ^ 60

def Mem.write (m : Mem) (a : UInt64) (bs : List UInt8) : Mem :=
  fun x => if (x - a).toNat < bs.length then bs.getD (x - a).toNat 0 else m x

/-- What the calls use of `xframe_t`. `room` is the number of bytes that are allocated for the body, and `inside` tells
whether every byte written to the body so far is one of them. -/
structure Frame where
  size : UInt64
  rpos : UInt64
  wpos : UInt64
  key : UInt64
  mem : Mem
  room : Nat
  inside : Bool

/-- The bytes behind the structure in a block of `n` bytes. -/
def roomOf (n : UInt64) : Nat := n.toNat - sizeofFrame.toNat

/-- `xl_creator`. The header is not written. -/
def xlCreator (malloc : Malloc) (size : UInt64) : Option Frame := do
  let m ← malloc.give (sizeofFrame + size)
  return { size := size, rpos := 0, wpos := 0, key := 0, mem := m, room := roomOf (sizeofFrame + size), inside := true }

namespace Frame

/-- Bytes are written to the body. -/
def put (f : Frame) (a : UInt64) (bs : List UInt8) : Frame :=
  { f with mem := f.mem.write a bs, inside := f.inside && (bs.isEmpty || decide (a.toNat + bs.length ≤ f.room)) }

/-- Bytes are written at `wpos`, which is moved behind them. -/
def append (f : Frame) (bs : List UInt8) : Frame := { f.put f.wpos bs with wpos := f.wpos + UInt64.ofNat bs.length }

/-- `frame->line = __xl_n2b(frame->wpos, type)`. -/
def setLine (le : Bool) (type : UInt8) (f : Frame) : Frame :=
  { f with mem := f.mem.write frameLine (n2b le f.wpos type) }

/-- `__xl_realloc`: the new size is stored in the old frame before the new block is asked for. -/
def realloc (malloc : Malloc) (newlen : UInt64) (f : Frame) : Bool × Frame :=
  let f := { f with size := f.size * 2 + newlen }
  match malloc.give (sizeofFrame + f.size) with
  | none => (false, f)
  | some m =>
    (true, { f with
      mem := fun a => if a < f.wpos ∨ frameLine ≤ a then f.mem a else m a
      room := roomOf (sizeofFrame + f.size)
      inside := f.inside && decide (f.wpos.toNat ≤ roomOf (sizeofFrame + f.size)) })

/-- The test that stands in front of `__xl_realloc`. -/
def reserve (malloc : Malloc) (newlen : UInt64) (f : Frame) : Bool × Frame :=
  if f.size - f.wpos < newlen then f.realloc malloc newlen else (true, f)

/-- `__xl_fill_key`. -/
def fillKey (f : Frame) (key : Text) : Frame :=
  let klen := UInt64.ofNat key.chars.length
  let klen := if klen > 64 then 64 else klen
  let f := { f with key := f.wpos }
  let f := f.put f.key [klen.toUInt8 + 1]
  let f := f.put (f.key + 1) (key.chars.take klen.toNat)
  let f := f.put (f.key + (f.mem f.key).toUInt64) [0]
  { f with wpos := f.wpos + ((f.mem f.key).toUInt64 + 1) }

/-- The frame of every call that adds an entry: space, the key, the line and the header of the frame. -/
def add (le : Bool) (malloc : Malloc) (key : Text) (newlen : UInt64) (line : Frame → Frame) (f : Frame) :
    Option UInt64 × Frame :=
  match f.reserve malloc newlen with
  | (false, f) => (none, f)
  | (true, f) =>
    let f := (line (f.fillKey key)).setLine le xlineTypeObj
    (some f.wpos, f)

end Frame

/-! ### What is added -/

/-- A line somewhere in memory. -/
structure Source where
  mem : Mem
  line : UInt64

namespace Source

variable (le : Bool) (s : Source)

def size : UInt64 := (sizeofLine le s.line).val s.mem

def bytes : List UInt8 := (List.range (s.size le).toNat).map fun i => s.mem (s.line + UInt64.ofNat i)

end Source

def Text.len (s : Text) : UInt64 := UInt64.ofNat s.chars.length

def Block.len (b : Block) : UInt64 := UInt64.ofNat b.bytes.length

/-- The space for a key and a header. -/
def headLen (key : Text) : UInt64 := key.len + 2 + xlineSize

section

variable (le : Bool) (malloc : Malloc) (f : Frame) (key : Text)

def xlAddWord (word : Text) : Option UInt64 × Frame :=
  let wordlen := word.len + 1
  f.add le malloc key (headLen key + wordlen) fun f =>
    (f.append (n2b le wordlen xlineTypeStr)).append (word.chars ++ [0])

/-- From `NULL` nothing is copied: `str` is then what the block held before. -/
def xlAddStr (str : Block) : Option UInt64 × Frame :=
  f.add le malloc key (headLen key + str.len) fun f => (f.append (n2b le str.len xlineTypeStr)).append str.bytes

/-- From `NULL` nothing is copied: `bin` is then what the block held before. -/
def xlAddBin (bin : Block) : Option UInt64 × Frame :=
  f.add le malloc key (headLen key + bin.len) fun f => (f.append (n2b le bin.len xlineTypeBin)).append bin.bytes

def xlAddObj (xd : Source) : Option UInt64 × Frame :=
  f.add le malloc key (headLen key + xd.size le) fun f => f.append (xd.bytes le)

def xlAddNumber (type : UInt8) (n : UInt64) : Option UInt64 × Frame :=
  f.add le malloc key (headLen key) fun f => f.append (n2b le n type)

def xlAddInt (i64 : UInt64) : Option UInt64 × Frame := xlAddNumber le malloc f key xlineTypeInt i64

def xlAddUint (u64 : UInt64) : Option UInt64 × Frame := xlAddNumber le malloc f key xlineTypeUint u64

/-- A real is its bits. -/
def xlAddFloat (f64 : UInt64) : Option UInt64 × Frame := xlAddNumber le malloc f key xlineTypeReal f64

def xlAddPtr (ptr : UInt64) : Option UInt64 × Frame := xlAddNumber le malloc f key xlineTypeUint ptr

def xlListAppend (xl : Source) : Option UInt64 × Frame :=
  match f.reserve malloc (xl.size le) with
  | (false, f) => (none, f)
  | (true, f) =>
    let f := f.append (xl.bytes le)
    (some f.wpos, f)

def xlListAdd (xl : Source) : Option UInt64 × Frame :=
  match f.reserve malloc (xl.size le) with
  | (false, f) => (none, f)
  | (true, f) =>
    let f := (f.append (xl.bytes le)).setLine le xlineTypeList
    (some f.wpos, f)

/-- The space that `xl_obj_begin` asks for. -/
def beginLen : Option Text → UInt64
  | some key => headLen key
  | none => xlineSize

/-- `xl_obj_begin`, with or without a key. -/
def xlObjBegin (key : Option Text) : Option UInt64 × Frame :=
  match f.reserve malloc (beginLen key) with
  | (false, f) => (none, f)
  | (true, f) =>
    let f := match key with
      | some key => f.fillKey key
      | none => f
    let f := { f with wpos := f.wpos + xlineSize }
    (some (f.wpos - xlineSize), f)

def xlListBegin (key : Option Text) : Option UInt64 × Frame := xlObjBegin malloc f key

/-- `xl_obj_end`; `none` is `XEOF`. -/
def xlObjEnd (pos : Option UInt64) : Frame :=
  match pos with
  | none => f
  | some pos => f.put pos (n2b le (f.wpos - pos - xlineSize) xlineTypeObj)

def xlListEnd (pos : Option UInt64) : Frame :=
  match pos with
  | none => f
  | some pos => (f.put pos (n2b le (f.wpos - pos - xlineSize) xlineTypeList)).setLine le xlineTypeObj

def xlFixed : Frame := f.setLine le xlineTypeObj

def xlClear : Frame := { f with wpos := 0, rpos := 0 }

end

/-! ### Calls that append -/

/-- The calls that may move the frame. -/
inductive Append where
  | objBegin (key : Option Text)
  | word (key word : Text)
  | str (key : Text) (str : Block)
  | bin (key : Text) (bin : Block)
  | obj (key : Text) (xd : Source)
  | int (key : Text) (i64 : UInt64)
  | uint (key : Text) (u64 : UInt64)
  | float (key : Text) (f64 : UInt64)
  | ptr (key : Text) (ptr : UInt64)
  | listAppend (xl : Source)
  | listAdd (xl : Source)

namespace Append

def run (le : Bool) (malloc : Malloc) (f : Frame) : Append → Option UInt64 × Frame
  | .objBegin key => xlObjBegin malloc f key
  | .word key w => xlAddWord le malloc f key w
  | .str key s => xlAddStr le malloc f key s
  | .bin key b => xlAddBin le malloc f key b
  | .obj key xd => xlAddObj le malloc f key xd
  | .int key i64 => xlAddInt le malloc f key i64
  | .uint key u64 => xlAddUint le malloc f key u64
  | .float key f64 => xlAddFloat le malloc f key f64
  | .ptr key p => xlAddPtr le malloc f key p
  | .listAppend xl => xlListAppend le malloc f xl
  | .listAdd xl => xlListAdd le malloc f xl

/-- The space that the call asks for. -/
def newlen (le : Bool) : Append → UInt64
  | .objBegin key => beginLen key
  | .word key w => headLen key + (w.len + 1)
  | .str key s => headLen key + s.len
  | .bin key b => headLen key + b.len
  | .obj key xd => headLen key + xd.size le
  | .int key _ => headLen key
  | .uint key _ => headLen key
  | .float key _ => headLen key
  | .ptr key _ => headLen key
  | .listAppend xl => xl.size le
  | .listAdd xl => xl.size le

/-- A call that gets no space comes back at once. -/
theorem run_of_reserve {le : Bool} {malloc : Malloc} {f f' : Frame} {c : Append}
    (h : f.reserve malloc (c.newlen le) = (false, f')) : c.run le malloc f = (none, f') := by
  cases c <;> simp only [newlen] at h <;>
    simp only [run, xlObjBegin, xlAddWord, xlAddStr, xlAddBin, xlAddObj, xlAddInt, xlAddUint, xlAddFloat, xlAddPtr,
      xlAddNumber, xlListAppend, xlListAdd, Frame.add, h]

end Append

end Wenas.Xline
