import Mathlib.Data.Fin.Basic
import OreOS.Lib.Radix
import OreOS.Kernel.Vmm

/-!
# Page tables as a radix tree

A frame is a page-aligned address, and memory read through frames is a table
of 512 entries for each of them (`entries`). On this view a store to a table
cell and the clearing of a frame are the updates of `OreOS.Lib.Radix`, exactly,
because aligned pages do not overlap.

`nextTable` then has four outcomes, one lemma each: follow a child, find none,
link the next frame of the pool, or panic.
-/

namespace OreOS.Kernel

open OreOS.Lib (Word Mem Exec)
open OreOS.Lib.Radix (setEntry fill)

/-- A page-aligned address. -/
abbrev Frame := { f : Word // Mem.Aligned f }

/-- Memory as page tables. -/
def entries (m : Mem) (f : Frame) (i : Fin 512) : Word :=
  m.load64 (cell f i)

theorem aligned_mask (e : Word) : Mem.Aligned (e &&& pteAddrMask) := by
  unfold Mem.Aligned pteAddrMask
  rw [BitVec.toNat_and, show 4096 = 2 ^ 12 from rfl, Nat.and_mod_two_pow]
  simp

/-- The present bit. -/
def present (e : Word) : Bool :=
  e &&& vmmPresent ≠ 0

/-- The table an entry names. -/
def child (e : Word) : Option Frame :=
  if present e then some ⟨e &&& pteAddrMask, aligned_mask e⟩ else none

/-! ## Stores and clears -/

/-- Entries do not overlap. -/
theorem cell_apart {f g : Frame} {i j : Fin 512} (h : g ≠ f ∨ j ≠ i) {k : Nat} (hk : k < 8) :
    8 ≤ (cell g j + BitVec.ofNat 64 k - cell f i).toNat := by
  obtain ⟨f, hf⟩ := f
  obtain ⟨g, hg⟩ := g
  obtain ⟨i, hi⟩ := i
  obtain ⟨j, hj⟩ := j
  have h' : g ≠ f ∨ j ≠ i := by simpa using h
  unfold cell Mem.Aligned at *
  dsimp only
  bv_omega

theorem cell_outside {f g : Frame} (h : g ≠ f) (j : Fin 512) {k : Nat} (hk : k < 8) :
    4096 ≤ (cell g j + BitVec.ofNat 64 k - f.val).toNat := by
  obtain ⟨f, hf⟩ := f
  obtain ⟨g, hg⟩ := g
  obtain ⟨j, hj⟩ := j
  have h' : g ≠ f := by simpa using h
  unfold cell Mem.Aligned at *
  dsimp only
  bv_omega

/-- A store to an entry sets that entry alone. -/
theorem entries_store (m : Mem) (f : Frame) (i : Fin 512) (v : Word) :
    entries (m.store64 (cell f i) v) = setEntry (entries m) f i v := by
  funext g j
  rw [setEntry]
  split
  next h =>
    obtain ⟨rfl, rfl⟩ := h
    exact Mem.load64_store64 m _ v
  next h =>
    refine Mem.load64_write_outside fun k hk => ?_
    rw [Mem.length_leBytes]
    exact cell_apart (not_and_or.mp h) hk

theorem entries_write_cell (s : Machine) (f : Frame) (i : Fin 512) (v : Word) :
    entries (s.write (cell f i) (Mem.leBytes 8 v)).mem = setEntry (entries s.mem) f i v :=
  entries_store s.mem f i v

/-- A cleared page is a table without entries. -/
theorem entries_clear (m : Mem) (f : Frame) : entries (m.clear f 4096) = fill (entries m) f 0 := by
  funext g j
  rw [fill]
  split
  next h =>
    subst h
    exact Mem.load64_clear (by omega) (by omega)
  next h =>
    refine Mem.load64_write_outside fun k hk => ?_
    rw [List.length_replicate]
    exact cell_outside h j hk

theorem entries_write_page (s : Machine) (f : Frame) :
    entries (s.write f (List.replicate 4096 0)).mem = fill (entries s.mem) f 0 :=
  entries_clear s.mem f

/-! ## Computations -/

theorem load_apply (a : Word) (s : Machine) : load a s = (.ok (s.mem.load64 a), s) := rfl

theorem load_cell (f : Frame) (i : Fin 512) (s : Machine) :
    load (cell f i) s = (.ok (entries s.mem f i), s) := rfl

theorem store_apply (a v : Word) (s : Machine) :
    store a v s = (.ok (), s.write a (Mem.leBytes 8 v)) := rfl

theorem memZero_apply (a : Word) (n : Nat) (s : Machine) :
    memZero a n s = (.ok (), s.write a (List.replicate n 0)) := rfl

/-! ## `next_table` -/

/-- The entry that links a table. -/
def linkEntry (table flags : Word) : Word :=
  (table &&& pteAddrMask) ||| vmmPresent ||| vmmWrite ||| flags

theorem present_eq_getLsbD (e : Word) : present e = e.getLsbD 0 := by
  have h : e &&& vmmPresent = (BitVec.ofBool (e.getLsbD 0)).setWidth 64 :=
    BitVec.and_one_eq_setWidth_ofBool_getLsbD
  rw [present, h]
  cases e.getLsbD 0 <;> rfl

theorem present_linkEntry (g flags : Word) : present (linkEntry g flags) = true := by
  simp [present_eq_getLsbD, linkEntry, vmmPresent]

/-- The address in a link is that of the table. -/
theorem mask_linkEntry {g flags : Word} (hg : g &&& pteAddrMask = g)
    (hf : flags &&& pteAddrMask = 0) : linkEntry g flags &&& pteAddrMask = g := by
  rw [linkEntry, hg, BitVec.and_or_distrib_right, BitVec.and_or_distrib_right,
    BitVec.and_or_distrib_right, hf, hg]
  simp [vmmPresent, vmmWrite, pteAddrMask]

variable {s : Machine} {f g : Frame} {i : Fin 512} {create : Bool} {flags : Word}

theorem present_of_child {e : Word} (h : child e = some g) :
    present e = true ∧ e &&& pteAddrMask = g := by
  unfold child at h
  split at h
  next hp => exact ⟨hp, congrArg Subtype.val (Option.some.inj h)⟩
  next => cases h

theorem absent_of_child {e : Word} (h : child e = none) : e &&& vmmPresent = 0 := by
  unfold child at h
  split at h
  next => cases h
  next hp => simpa [present] using hp

/-- `next_table` follows a present entry. -/
theorem nextTable_child (h : child (entries s.mem f i) = some g) :
    nextTable f i create flags s = (.ok (ptr g), s) := by
  obtain ⟨hp, hg⟩ := present_of_child h
  unfold nextTable
  rw [Exec.bind_ok (load_cell f i s), if_neg (by simpa [present] using hp),
    Exec.bind_ok (load_cell f i s), hg]
  rfl

/-- Without `create` an absent entry ends the walk. -/
theorem nextTable_none (h : child (entries s.mem f i) = none) :
    nextTable f i false flags s = (.ok none, s) := by
  unfold nextTable
  rw [Exec.bind_ok (load_cell f i s), if_pos (absent_of_child h)]
  rfl

/-- A frame of the pool as the allocator promises it: a page, not the null
page, below 2^52. -/
structure Allocatable (page : Word) : Prop where
  ne : page ≠ 0
  mask : page &&& pteAddrMask = page

instance (page : Word) : Decidable (Allocatable page) :=
  decidable_of_iff (page ≠ 0 ∧ page &&& pteAddrMask = page)
    ⟨fun h => ⟨h.1, h.2⟩, fun h => ⟨h.1, h.2⟩⟩

/-- The machine after `pmm_alloc_page` gave `page` out. -/
def handedOut (s : Machine) (page : Word) (pool : List Word) : Machine :=
  ({ s with pool := pool } : Machine).write page (List.replicate 4096 0)

/-- The machine after `new_table` gave `page` out. -/
def cleared (s : Machine) (page : Word) (pool : List Word) : Machine :=
  (handedOut s page pool).write page (List.replicate 4096 0)

/-- The machine after `new_table` gave `page` out and it was linked. -/
def linked (s : Machine) (f : Frame) (i : Fin 512) (page flags : Word) (pool : List Word) :
    Machine :=
  (cleared s page pool).write (cell f i) (Mem.leBytes 8 (linkEntry page flags))

theorem pmmAllocPage_cons {page : Word} {pool : List Word} (hpool : s.pool = page :: pool) :
    pmmAllocPage s = (.ok (some page), handedOut s page pool) := by
  rw [pmmAllocPage, Exec.bind_ok (Exec.get_apply s)]
  simp only [hpool]
  rfl

theorem pmmAllocPage_nil (hpool : s.pool = []) : pmmAllocPage s = (.ok none, s) := by
  rw [pmmAllocPage, Exec.bind_ok (Exec.get_apply s)]
  simp only [hpool]
  rfl

/-- A new table is a cleared page of the pool. -/
theorem newTable_apply {page : Word} {pool : List Word} (hpool : s.pool = page :: pool) :
    newTable s = (.ok page, cleared s page pool) := by
  rw [newTable, Exec.bind_ok (pmmAllocPage_cons hpool)]
  rfl

theorem newTable_panic (hpool : s.pool = []) :
    newTable s = (.error "VMM: no page table memory", s) := by
  rw [newTable, Exec.bind_ok (pmmAllocPage_nil hpool)]
  rfl

/-- With `create` an absent entry becomes a link to a new table. -/
theorem nextTable_link {page : Word} {pool : List Word} (h : child (entries s.mem f i) = none)
    (hpool : s.pool = page :: pool) (hpage : Allocatable page) (hflags : flags &&& pteAddrMask = 0) :
    nextTable f i true flags s = (.ok (some page), linked s f i page flags pool) := by
  unfold nextTable
  rw [Exec.bind_ok (load_cell f i s), if_pos (absent_of_child h), if_pos rfl,
    Exec.bind_ok (newTable_apply hpool), Exec.bind_ok (store_apply _ _ _),
    Exec.bind_ok (load_apply _ _)]
  have hload : (linked s f i page flags pool).mem.load64 (cell f i) = linkEntry page flags :=
    Mem.load64_store64 _ _ _
  change (Except.ok (ptr ((linked s f i page flags pool).mem.load64 (cell f i) &&& pteAddrMask)),
    _) = _
  rw [hload, mask_linkEntry hpage.mask hflags, ptr, if_neg hpage.ne]
  rfl

/-- Without memory for it the kernel panics. -/
theorem nextTable_panic (h : child (entries s.mem f i) = none) (hpool : s.pool = []) :
    nextTable f i true flags s = (.error "VMM: no page table memory", s) := by
  unfold nextTable
  rw [Exec.bind_ok (load_cell f i s), if_pos (absent_of_child h), if_pos rfl,
    Exec.bind_error (newTable_panic hpool)]

end OreOS.Kernel
