import Mathlib

/-!
# A page of `xmalloc.c`

`malloc_page`, `free_pointer`, `malloc`, `calloc` and `aligned_alloc` on the memory of a page. Memory is a word of 64 bits at every address
that is a multiple of 8; a pointer is an address, and pointer arithmetic is that of `size_t`.
-/
namespace Wenas.Xmalloc

/-- Built with `UNWIND_BACKTRACE` or not. -/
class Build where
  traced : Bool

/-- The build without traces. -/
abbrev untraced : Build := ⟨false⟩

def backtraceSize [Build] : Nat := if Build.traced then 8 * 16 else 0

def freePointerSize [Build] : Nat := backtraceSize + 8 * 4

def workPointerSize [Build] : Nat := backtraceSize + 8 * 2

/-- The fields of `struct xpointer` that the allocator uses. -/
inductive Field where
  | flag
  | size
  | prev
  | next
  deriving DecidableEq

def Field.offset [Build] : Field → Nat
  | .flag => 0
  | .size => 8
  | .prev => 8 * 2 + backtraceSize
  | .next => 8 * 3 + backtraceSize

abbrev Mem := Nat → Nat

def Mem.get [Build] (m : Mem) (p : Nat) (f : Field) : Nat := m (p + f.offset)

def Mem.put [Build] (m : Mem) (p : Nat) (f : Field) (v : Nat) : Mem := Function.update m (p + f.offset) v

def wrap (n : Nat) : Nat := n % 2 ^ 64

/-- `a - b` in `size_t`. -/
def sub64 (a b : Nat) : Nat := wrap (a + (2 ^ 64 - b))

/-- `__req2align`. -/
def req2align [Build] (req : Nat) : Nat :=
  if wrap (req + workPointerSize) < freePointerSize then freePointerSize
  else wrap (req + workPointerSize + 7) / 8 * 8

section

variable [Build] (m : Mem) (p : Nat)

def nextPointer : Nat := wrap (p + m.get p .size)

def prevPointer : Nat := sub64 p (m.get p .flag)

/-- `__mergeable`: the block before `p` is free. -/
def mergeable : Bool := m.get p .flag % 2 == 0

end

/-- `xmalloc_page_t` without the lock and the recycle pool, with the memory. -/
structure Page where
  pool : Nat
  id : Nat
  size : Nat
  startAddress : Nat
  ptr : Nat
  head : Nat
  end_ : Nat
  mem : Mem

/-- `((pool->id << 11) | (page->id << 1) | __inuse)`. -/
def inuseFlag (pool id : Nat) : Nat := pool <<< 11 ||| id <<< 1 ||| 1

def Page.tag (pg : Page) : Nat := inuseFlag pg.pool pg.id

def pageAlignedMask : Nat := 4096 - 1

/-- The size that `malloc_page` rounds a request to. -/
def pageBytes [Build] (pageSize : Nat) : Nat :=
  wrap (pageSize + freePointerSize * 4 + pageAlignedMask) / 4096 * 4096

/-- `malloc_page`, with the aligned address that `mmap` gave in the end. -/
def mallocPage [Build] (pool id pageSize startAddress : Nat) (mem : Mem) : Page :=
  let size := pageBytes pageSize
  let head := startAddress
  let m := mem.put head .flag (inuseFlag pool id)
  let m := m.put head .size freePointerSize
  let ptr := nextPointer m head
  let m := m.put ptr .flag (inuseFlag pool id)
  let m := m.put ptr .size (sub64 size (freePointerSize * 2))
  let end_ := nextPointer m ptr
  let m := m.put end_ .flag (m.get ptr .size)
  let m := m.put end_ .size freePointerSize
  let m := m.put head .prev 0
  let m := m.put head .next end_
  let m := m.put end_ .prev head
  let m := m.put end_ .next 0
  ⟨pool, id, size, startAddress, ptr, head, end_, m⟩

/-- `ptr->next->prev = ptr->prev; ptr->prev->next = ptr->next`. -/
def takeOut [Build] (m : Mem) (ptr : Nat) : Mem :=
  let m := m.put (m.get ptr .next) .prev (m.get ptr .prev)
  m.put (m.get ptr .prev) .next (m.get ptr .next)

/-- `__next_pointer(ptr)` leaves the queue and becomes a part of `ptr`. -/
def mergeNext [Build] (m : Mem) (ptr : Nat) : Mem :=
  let q := nextPointer m ptr
  let m := m.put (m.get q .prev) .next (m.get q .next)
  let m := m.put (m.get q .next) .prev (m.get q .prev)
  m.put ptr .size (wrap (m.get ptr .size + m.get (nextPointer m ptr) .size))

/-- `__prev_pointer(ptr)->size += ptr->size`. -/
def growPrev [Build] (m : Mem) (ptr : Nat) : Mem :=
  m.put (prevPointer m ptr) .size (wrap (m.get (prevPointer m ptr) .size + m.get ptr .size))

/-- `ptr` is put between `a` and `c`, in the order of the writes at both ends of the queue. -/
def putIn [Build] (m : Mem) (ptr a c : Nat) : Mem :=
  let m := m.put ptr .next c
  let m := m.put ptr .prev a
  let m := m.put (m.get ptr .next) .prev ptr
  m.put (m.get ptr .prev) .next ptr

/-- `__next_pointer(ptr)->flag = ptr->size`. -/
def markNext [Build] (m : Mem) (ptr : Nat) : Mem := m.put (nextPointer m ptr) .flag (m.get ptr .size)

/-- With a free block before it `ptr` becomes a part of that one, which leaves the queue; away from the current block
the new size is marked at once. -/
def mergeBefore [Build] (marked : Bool) (m : Mem) (ptr : Nat) : Mem × Nat :=
  if mergeable m ptr then
    let m := growPrev m ptr
    let ptr := prevPointer m ptr
    let m := if marked then markNext m ptr else m
    (takeOut m ptr, ptr)
  else (m, ptr)

def mergeAfter [Build] (m : Mem) (ptr : Nat) : Mem :=
  if mergeable m (nextPointer m (nextPointer m ptr)) then mergeNext m ptr else m

/-- The block at `ptr` goes to the front of the queue unless the first one there is larger. -/
def Page.enqueue [Build] (pg : Page) (m : Mem) (ptr : Nat) : Page :=
  let first := m.get pg.head .next
  if m.get first .size ≤ m.get ptr .size then { pg with mem := putIn m ptr pg.head first }
  else { pg with mem := putIn m ptr (m.get pg.end_ .prev) pg.end_ }

/-- `free_pointer`: the block before the current one, the block behind it, or any other. -/
def Page.freePointer [Build] (pg : Page) (ptr : Nat) : Page :=
  let m := pg.mem
  if nextPointer m ptr = pg.ptr then
    let r := mergeBefore false m ptr
    let m := r.1.put r.2 .size (wrap (r.1.get r.2 .size + r.1.get pg.ptr .size))
    { pg with mem := markNext m r.2, ptr := r.2 }
  else if nextPointer m pg.ptr = ptr then
    let m := mergeAfter m ptr
    let m := m.put pg.ptr .size (wrap (m.get pg.ptr .size + m.get ptr .size))
    { pg with mem := markNext m pg.ptr }
  else
    let r := mergeBefore true m ptr
    let m := mergeAfter r.1 r.2
    pg.enqueue (markNext m r.2) r.2

/-- The current block is put at the end of the queue and the first one of the queue is taken. -/
def Page.exchange [Build] (pg : Page) : Page :=
  let m := putIn pg.mem pg.ptr (pg.mem.get pg.end_ .prev) pg.end_
  let m := markNext m pg.ptr
  let ptr := m.get pg.head .next
  let m := m.put pg.head .next (m.get (m.get pg.head .next) .next)
  let m := m.put (m.get pg.head .next) .prev pg.head
  { pg with mem := m, ptr := ptr }

/-- A block of `size` bytes is cut off the front of the current one. -/
def Page.split [Build] (pg : Page) (size : Nat) : Page × Nat :=
  let ptr := wrap (pg.ptr + size)
  let m := pg.mem.put ptr .flag pg.tag
  let m := m.put ptr .size (sub64 (m.get pg.ptr .size) size)
  let m := markNext m ptr
  let m := m.put ptr .prev pg.ptr
  let cut := m.get ptr .prev
  ({ pg with mem := m.put cut .size size, ptr := ptr }, wrap (cut + workPointerSize))

/-- `malloc` when it has locked this page: `none` goes on to the next page. -/
def Page.malloc [Build] (pg : Page) (n : Nat) : Page × Option Nat :=
  let size := req2align n
  let reserved := wrap (size + freePointerSize)
  if pg.mem.get pg.ptr .size < reserved then
    if reserved < pg.mem.get (pg.mem.get pg.head .next) .size then
      let r := pg.exchange.split size
      (r.1, some r.2)
    else (pg, none)
  else
    let r := pg.split size
    (r.1, some r.2)

/-- `free`, with the page that the flag behind the block names. -/
def Page.free [Build] (pg : Page) (address : Nat) : Page := pg.freePointer (sub64 address workPointerSize)

/-- The loops of `calloc`: the words, and the bytes of the last one. -/
def clear (m : Mem) (address size : Nat) : Mem :=
  let m := (List.range (size >>> 3)).foldl (fun m i => Function.update m (address + 8 * i) 0) m
  let last := address + 8 * (size >>> 3)
  if size % 8 = 0 then m else Function.update m last (m last / 256 ^ (size % 8) * 256 ^ (size % 8))

def Page.calloc [Build] (pg : Page) (number size : Nat) : Page × Option Nat :=
  let size := wrap (size * number)
  match pg.malloc size with
  | (pg, none) => (pg, none)
  | (pg, some address) => ({ pg with mem := clear pg.mem address size }, some address)

/-- `address & ~(alignment - 1)`. -/
def maskOff (address alignment : Nat) : Nat := address &&& (2 ^ 64 - 1 - sub64 alignment 1)

/-- The end of `aligned_alloc`: the block is cut at the aligned address and its front is freed. -/
def Page.carve [Build] (pg : Page) (address alignment : Nat) : Page × Nat :=
  let aligned := maskOff (wrap (address + alignment + freePointerSize)) alignment
  let alignedPointer := sub64 aligned workPointerSize
  let pointer := sub64 address workPointerSize
  let freeSize := sub64 alignedPointer pointer
  let m := pg.mem.put alignedPointer .size (sub64 (pg.mem.get pointer .size) freeSize)
  let m := m.put alignedPointer .flag (m.get (nextPointer m pointer) .flag)
  let m := m.put pointer .size freeSize
  ({ pg with mem := m }.free address, aligned)

def Page.alignedAlloc [Build] (pg : Page) (alignment size : Nat) : Page × Option Nat :=
  if alignment = 8 then pg.malloc size
  else if size = 0 ∨ alignment = 0 ∨ alignment &&& (8 - 1) ≠ 0 ∨ alignment &&& sub64 alignment 1 ≠ 0 then (pg, none)
  else
    match pg.malloc (wrap (size + alignment + freePointerSize)) with
    | (pg, none) => (pg, none)
    | (pg, some address) =>
      if maskOff address alignment = address then (pg, some address)
      else
        let r := pg.carve address alignment
        (r.1, some r.2)

/-- `mm->page_size`. -/
def mmPageSize : Nat := 0x1000000

/-- The end of `malloc`: a page of its own for the request, with its first block cut off. -/
def mallocOnNewPage [Build] (pool id n startAddress : Nat) (mem : Mem) : Page × Nat :=
  (mallocPage pool id (wrap (mmPageSize + req2align n)) startAddress mem).split (req2align n)

end Wenas.Xmalloc
