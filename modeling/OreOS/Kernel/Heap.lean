import OreOS.Kernel.Pmm

/-!
# The kernel heap (`kernel/heap.c`)

Blocks are a header of 32 bytes and a payload; the headers are linked into a
list from `heap_head` on. The model works on byte memory, so a header is only
what its bytes say. `pmm_alloc_pages` is left to its contract: a call of
`kmalloc` is given the address it returns (`grant`). A walk over more headers
than there are addresses never ends (`Halt.hang`).
-/

namespace OreOS.Kernel

open OreOS.Lib (Word Byte Mem)

def sizeofHeapBlock : Word := 32
def heapMagic : Word := 0x484541504f52454

/-- `align_up`. -/
def alignUpTo (value align : Word) : Word :=
  (value + align - 1) &&& ~~~(align - 1)

/-- A header, as its bytes say. -/
@[ext]
structure HeapBlock where
  magic : Word
  size : Word
  free : BitVec 32
  next : Word
  deriving DecidableEq

def blockAt (m : Mem) (b : Word) : HeapBlock :=
  { magic := m.load64 b, size := m.load64 (b + 8), free := m.load32 (b + 16)
    next := m.load64 (b + 24) }

structure Heap where
  mem : Mem
  head : Word := 0

/-- The bound on the rounds of a walk along `next`. -/
def heapRounds : Nat := 2 ^ 64 + 1

/-- `magic`, `size` and `free` of a new free block. -/
def writeBlock (m : Mem) (b size : Word) : Mem :=
  ((m.store64 b heapMagic).store64 (b + 8) size).store32 (b + 16) 1

/-- The loop of `request_block` that looks for the end of the list. -/
def findTail : Nat → Mem → Word → Except Halt Word
  | 0, _, _ => .error .hang
  | n + 1, m, tail =>
    if (blockAt m tail).next = 0 then return tail else findTail n m (blockAt m tail).next

/-- `total` of `request_block`: the bytes of the pages asked for. -/
def requestTotal (size : Word) : Word :=
  alignUpTo (sizeofHeapBlock + size) 4096

/-- The number of pages asked for. -/
def requestPages (size : Word) : BitVec 32 :=
  (requestTotal size / 4096).setWidth 32

def requestBlock (h : Heap) (size grant : Word) : Except Halt (Word × Heap) := do
  let block := grant
  if block = 0 then return (0, h)
  else
    let m := h.mem.clear block ((requestPages size).toNat * 4096)
    let m := writeBlock m block (requestTotal size - sizeofHeapBlock)
    let m := m.store64 (block + 24) 0
    if h.head = 0 then return (block, { mem := m, head := block })
    else
      let tail ← findTail heapRounds m h.head
      return (block, { h with mem := m.store64 (tail + 24) block })

def splitBlock (m : Mem) (block size : Word) : Mem :=
  let remaining := (blockAt m block).size - size
  if remaining ≤ sizeofHeapBlock + 32 then m
  else
    let next := block + sizeofHeapBlock + size
    let m := writeBlock m next (remaining - sizeofHeapBlock)
    let m := m.store64 (next + 24) (blockAt m block).next
    let m := m.store64 (block + 8) size
    m.store64 (block + 24) next

/-- The loop of `kmalloc`: the first free block that is large enough, or
null. -/
def findFit (size : Word) : Nat → Mem → Word → Except Halt Word
  | 0, _, _ => .error .hang
  | n + 1, m, block =>
    if block = 0 then return 0
    else if (blockAt m block).magic = heapMagic ∧ (blockAt m block).free ≠ 0 ∧
        size ≤ (blockAt m block).size then return block
    else findFit size n m (blockAt m block).next

/-- What `kmalloc` does with the block it has found. -/
def takeBlock (h : Heap) (block size : Word) : Word × Heap :=
  (block + sizeofHeapBlock, { h with mem := (splitBlock h.mem block size).store32 (block + 16) 0 })

def kmalloc (h : Heap) (size grant : Word) : Except Halt (Word × Heap) := do
  if size = 0 then return (0, h)
  else
    let size := alignUpTo size 16
    let found ← findFit size heapRounds h.mem h.head
    if found ≠ 0 then return takeBlock h found size
    else
      let (block, h) ← requestBlock h size grant
      if block = 0 then return (0, h) else return takeBlock h block size

def kzalloc (h : Heap) (size grant : Word) : Except Halt (Word × Heap) := do
  let (ptr, h) ← kmalloc h size grant
  if ptr = 0 then return (ptr, h)
  else return (ptr, { h with mem := h.mem.clear ptr size.toNat })

/-- The loop of `kfree` that joins neighbours. -/
def coalesce : Nat → Mem → Word → Except Halt Mem
  | 0, _, _ => .error .hang
  | n + 1, m, cur =>
    if cur = 0 ∨ (blockAt m cur).next = 0 then return m
    else
      let next := (blockAt m cur).next
      if (blockAt m cur).free ≠ 0 ∧ (blockAt m next).free ≠ 0 ∧
          cur + sizeofHeapBlock + (blockAt m cur).size = next then
        let m := m.store64 (cur + 8)
          ((blockAt m cur).size + (sizeofHeapBlock + (blockAt m next).size))
        let m := m.store64 (cur + 24) (blockAt m (blockAt m cur).next).next
        coalesce n m (blockAt m cur).next
      else coalesce n m next

def kfree (h : Heap) (ptr : Word) : Except Halt Heap := do
  if ptr = 0 then return h
  else
    let block := ptr - sizeofHeapBlock
    if (blockAt h.mem block).magic ≠ heapMagic then .error (.panic "heap: invalid free")
    else
      let m ← coalesce heapRounds (h.mem.store32 (block + 16) 1) h.head
      return { h with mem := m }

/-! ## Clients -/

/-- A live allocation: its pointer and the size that was asked for. -/
structure Grant where
  ptr : Word
  size : Word

/-- A run of pages obtained from the PMM. -/
structure PageRun where
  base : Nat
  bytes : Nat

/-- The heap, the runs it has obtained and the allocations that are live. -/
structure HeapState where
  heap : Heap
  runs : List PageRun := []
  live : List Grant := []

inductive HeapCall
  | kmalloc (size grant : Word)
  | kzalloc (size grant : Word)
  | kfree (ptr : Word)
  /-- A client writes in its own payload. -/
  | write (addr : Word) (bytes : List Byte)

/-- The run that a call of `kmalloc` obtains, if it comes to `request_block`. -/
def obtained (h : Heap) (size grant : Word) : List PageRun :=
  if size ≠ 0 ∧ grant ≠ 0 ∧
      (findFit (alignUpTo size 16) heapRounds h.mem h.head).toOption = some 0 then
    [⟨grant.toNat, (requestPages (alignUpTo size 16)).toNat * 4096⟩]
  else []

/-- The allocation that a call returns. -/
def granted (ptr size : Word) : List Grant :=
  if ptr = 0 then [] else [⟨ptr, size⟩]

/-- What `kmalloc` or `kzalloc` has done, on the record. -/
def HeapState.allocated (s : HeapState) (size grant : Word) (result : Except Halt (Word × Heap)) :
    Option HeapState :=
  match result with
  | .error _ => none
  | .ok (ptr, h) =>
    some
      { heap := h, runs := s.runs ++ obtained s.heap size grant
        live := s.live ++ granted ptr size }

def HeapState.step (s : HeapState) : HeapCall → Option HeapState
  | .kmalloc size grant => s.allocated size grant (Kernel.kmalloc s.heap size grant)
  | .kzalloc size grant => s.allocated size grant (Kernel.kzalloc s.heap size grant)
  | .kfree ptr =>
    match Kernel.kfree s.heap ptr with
    | .error _ => none
    | .ok h => some { s with heap := h, live := s.live.filter (·.ptr ≠ ptr) }
  | .write addr bytes =>
    some { s with heap := { s.heap with mem := s.heap.mem.write addr bytes } }

/-- The contract of `pmm_alloc_pages`: null, or a run of pages apart from those
obtained before. -/
def FreshRun (runs : List PageRun) (grant size : Word) : Prop :=
  grant = 0 ∨
    grant.toNat % 4096 = 0 ∧ grant.toNat + (requestPages (alignUpTo size 16)).toNat * 4096 ≤ 2 ^ 64 ∧
      ∀ r ∈ runs, r.base + r.bytes ≤ grant.toNat ∨
        grant.toNat + (requestPages (alignUpTo size 16)).toNat * 4096 ≤ r.base

instance (runs : List PageRun) (grant size : Word) : Decidable (FreshRun runs grant size) :=
  inferInstanceAs (Decidable (_ ∨ _))

/-- What clients keep to: sizes up to 2^32, frees of live pointers, and writes
in the bytes they asked for. -/
def HeapState.Allowed (s : HeapState) : HeapCall → Prop
  | .kmalloc size grant => size.toNat ≤ 2 ^ 32 ∧ FreshRun s.runs grant size
  | .kzalloc size grant => size.toNat ≤ 2 ^ 32 ∧ FreshRun s.runs grant size
  | .kfree ptr => ptr = 0 ∨ ∃ a ∈ s.live, a.ptr = ptr
  | .write addr bytes => ∃ a ∈ s.live, (addr - a.ptr).toNat + bytes.length ≤ a.size.toNat

instance HeapState.decidableAllowed (s : HeapState) : (c : HeapCall) → Decidable (s.Allowed c)
  | .kmalloc _ _ => inferInstanceAs (Decidable (_ ∧ _))
  | .kzalloc _ _ => inferInstanceAs (Decidable (_ ∧ _))
  | .kfree ptr => inferInstanceAs (Decidable (ptr = 0 ∨ ∃ a ∈ s.live, a.ptr = ptr))
  | .write addr bytes =>
    inferInstanceAs (Decidable (∃ a ∈ s.live, (addr - a.ptr).toNat + bytes.length ≤ a.size.toNat))

/-! ## Sizes -/

/-- The bytes of the pages that hold a header and a payload of `size` bytes. -/
def requestBytes (size : Nat) : Nat := (size + 32 + 4095) / 4096 * 4096

/-- The size can be rounded up to 16, and its pages can be counted in 32 bits, or
else the count comes out as zero, for which the PMM returns null. -/
def Measured (size : Word) : Prop :=
  size.toNat ≤ 2 ^ 64 - 16 ∧
    (requestBytes ((size.toNat + 15) / 16 * 16) < 2 ^ 44 ∨
      requestBytes ((size.toNat + 15) / 16 * 16) % 2 ^ 44 = 0)

instance (size : Word) : Decidable (Measured size) := inferInstanceAs (Decidable (_ ∧ _))

/-- The contract of `pmm_alloc_pages` with the count that `kmalloc` passes: as
above, and null for a count of zero. -/
def Grants (runs : List PageRun) (grant size : Word) : Prop :=
  FreshRun runs grant size ∧ (requestPages (alignUpTo size 16) = 0 → grant = 0)

instance (runs : List PageRun) (grant size : Word) : Decidable (Grants runs grant size) :=
  inferInstanceAs (Decidable (_ ∧ _))

/-- What clients may do if every measured size is theirs to ask for. -/
def HeapState.Permitted (s : HeapState) : HeapCall → Prop
  | .kmalloc size grant => Measured size ∧ Grants s.runs grant size
  | .kzalloc size grant => Measured size ∧ Grants s.runs grant size
  | .kfree ptr => ptr = 0 ∨ ∃ a ∈ s.live, a.ptr = ptr
  | .write addr bytes => ∃ a ∈ s.live, (addr - a.ptr).toNat + bytes.length ≤ a.size.toNat

instance HeapState.decidablePermitted (s : HeapState) : (c : HeapCall) → Decidable (s.Permitted c)
  | .kmalloc _ _ => inferInstanceAs (Decidable (_ ∧ _))
  | .kzalloc _ _ => inferInstanceAs (Decidable (_ ∧ _))
  | .kfree ptr => inferInstanceAs (Decidable (ptr = 0 ∨ ∃ a ∈ s.live, a.ptr = ptr))
  | .write addr bytes =>
    inferInstanceAs (Decidable (∃ a ∈ s.live, (addr - a.ptr).toNat + bytes.length ≤ a.size.toNat))

end OreOS.Kernel
