import OreOS.Laws.Kernel.Handles

/-!
# One file behind two paths

A read from the initramfs is a copy. A read from the disk computes sectors around
the bytes, reads them into a buffer of the heap and copies from there. With a heap
and a device that do not fail the two agree (`readDiskFile_eq`), except that a read
of no bytes from the start of a sector asks the heap for no bytes, which it refuses.
-/

namespace OreOS.Kernel

open OreOS.Lib (Word Byte)

variable {env : ReadEnv} {dev : BlockDevice} {entry : OreFsEntry} {offset bufferSize n : Word}

/-- The heap refuses a request of no bytes, as `kmalloc` does, and meets all others; the
device reads all blocks that it has. -/
structure ReadEnv.Serves (env : ReadEnv) (dev : BlockDevice) : Prop where
  kmalloc_zero : env.kmalloc 0 = none
  kmalloc : ∀ size, size ≠ 0 → env.kmalloc size ≠ none
  read : ∀ (lba : Word) (blocks : BitVec 32), blocks ≠ 0 →
    lba.toNat + blocks.toNat ≤ dev.blockCount.toNat →
    blockRootRead (some dev) env.fails lba blocks ≠ none

/-- The file lies inside the device. -/
def OreFsEntry.Inside (entry : OreFsEntry) (dev : BlockDevice) : Prop :=
  entry.offset.toNat + entry.size.toNat ≤ dev.blockCount.toNat * 512

instance (entry : OreFsEntry) (dev : BlockDevice) : Decidable (entry.Inside dev) :=
  inferInstanceAs (Decidable (_ ≤ _))

/-- How many bytes a read from `offset` copies. -/
def readCount (size offset bufferSize : Word) : Word :=
  if size - offset < bufferSize then size - offset else bufferSize

theorem toNat_readCount {size : Word} (h : offset < size) :
    (readCount size offset bufferSize).toNat = min (size.toNat - offset.toNat) bufferSize.toNat := by
  have hsub : (size - offset).toNat = size.toNat - offset.toNat :=
    BitVec.toNat_sub_of_le (BitVec.le_of_lt h)
  unfold readCount
  split
  next hlt =>
    have hlt := BitVec.lt_def.mp hlt
    omega
  next hge =>
    have hge := Nat.le_of_not_lt fun hlt => hge (BitVec.lt_def.mpr hlt)
    omega

theorem sectors_inside (hinside : entry.Inside dev) (hoffset : offset < entry.size)
    (hn : offset.toNat + n.toNat ≤ entry.size.toNat) :
    ((entry.offset + offset) / 512).toNat +
        (((entry.offset + offset) % 512 + n + 511) / 512).toNat ≤ dev.blockCount.toNat ∧
      ((((entry.offset + offset) % 512 + n + 511) / 512) = 0 ↔
        (entry.offset + offset) % 512 = 0 ∧ n = 0) := by
  have hlt := BitVec.lt_def.mp hoffset
  unfold OreFsEntry.Inside at hinside
  have hsum : (entry.offset + offset).toNat = entry.offset.toNat + offset.toNat := by bv_omega
  have hmod : ((entry.offset + offset) % 512).toNat = (entry.offset.toNat + offset.toNat) % 512 := by
    rw [BitVec.toNat_umod, hsum]
    rfl
  have hdiv : ((entry.offset + offset) / 512).toNat = (entry.offset.toNat + offset.toNat) / 512 := by
    rw [BitVec.toNat_udiv, hsum]
    rfl
  have hsectors : (((entry.offset + offset) % 512 + n + 511) / 512).toNat =
      ((entry.offset.toNat + offset.toNat) % 512 + n.toNat + 511) / 512 := by
    rw [BitVec.toNat_udiv, BitVec.toNat_add, BitVec.toNat_add, hmod,
      show (511 : Word).toNat = 511 from rfl, show (512 : Word).toNat = 512 from rfl]
    omega
  refine ⟨by omega, ?_⟩
  rw [← BitVec.toNat_inj, ← BitVec.toNat_inj, ← BitVec.toNat_inj (x := n), hsectors, hmod]
  have h0 : (0 : Word).toNat = 0 := rfl
  omega

theorem readDiskFile_eq (henv : env.Serves dev) (hinside : entry.Inside dev)
    (hoffset : offset < entry.size) :
    readDiskFile (some dev) env entry offset bufferSize =
      if (entry.offset + offset) % 512 = 0 ∧ bufferSize = 0 then (-1, [])
      else
        let n := readCount entry.size offset bufferSize
        (n.toInt, (List.range n.toNat).map fun i =>
          (diskContents dev entry).byte (offset + BitVec.ofNat 64 i)) := by
  have hlt := BitVec.lt_def.mp hoffset
  have hcount := dev.blockCount.isLt
  have hdev : entry.offset.toNat + entry.size.toNat ≤ dev.blockCount.toNat * 512 := hinside
  have hnum : (readCount entry.size offset bufferSize).toNat = _ := toNat_readCount hoffset
  obtain ⟨hend, hzero⟩ := sectors_inside (n := readCount entry.size offset bufferSize) hinside hoffset
    (by omega)
  have hempty : readCount entry.size offset bufferSize = 0 ↔ bufferSize = 0 := by bv_omega
  rw [hempty] at hzero
  unfold readDiskFile
  rw [if_neg (BitVec.not_le.mpr hoffset)]
  dsimp only
  rw [show (if entry.size - offset < bufferSize then entry.size - offset else bufferSize) =
    readCount entry.size offset bufferSize from rfl]
  generalize readCount entry.size offset bufferSize = n at hnum hend hzero ⊢
  by_cases hnone : (entry.offset + offset) % 512 = 0 ∧ bufferSize = 0
  · rw [if_pos hnone, hzero.mpr hnone, show (0 : Word) * 512 = 0 from rfl, henv.kmalloc_zero]
  · rw [if_neg hnone]
    have hne := fun h => hnone (hzero.mp h)
    generalize hsectors : ((entry.offset + offset) % 512 + n + 511) / 512 = sectors at hend hne ⊢
    have hpos : sectors.toNat ≠ 0 := fun h => hne (BitVec.eq_of_toNat_eq h)
    have hbytes : (sectors * 512).toNat = sectors.toNat * 512 := by
      rw [BitVec.toNat_mul, show (512 : Word).toNat = 512 from rfl]
      omega
    have hblocks : (sectors.setWidth 32).toNat = sectors.toNat := by
      rw [BitVec.toNat_setWidth, Nat.mod_eq_of_lt (by omega)]
    have hptr := henv.kmalloc (sectors * 512) fun h => by bv_omega
    have htmp := henv.read ((entry.offset + offset) / 512) (sectors.setWidth 32)
      (fun h => by bv_omega) (by omega)
    obtain ⟨ptr, hptr⟩ := Option.ne_none_iff_exists'.mp hptr
    obtain ⟨tmp, htmp⟩ := Option.ne_none_iff_exists'.mp htmp
    rw [hptr, htmp]
    dsimp only
    rw [← hsectors] at htmp
    rw [copied_eq (by omega) (by rw [hsectors]; omega) htmp]

/-- Reads of one file behind two paths agree, except for a read of no bytes from the
start of a sector. -/
theorem backends_agree_iff {v : Vfs} {ramPath orefsPath rel : List Byte} {file : InitramfsFile}
    (hmounted : v.mounted = true) (hram : v.onDisk ramPath = none)
    (hfile : initramfsLookupRaw v ramPath = some file) (hdisk : v.onDisk orefsPath = some rel)
    (hentry : diskLookup v rel = some entry) (htype : entry.type = Vfs.oreVfsFile)
    (hinside : entry.Inside dev) (hsize : entry.size = file.size)
    (hbytes : ∀ i < file.size, file.data i = dev.bytes (entry.offset + i).toNat)
    (henv : env.Serves dev) (offset bufferSize : Word) :
    v.readFileAt (some dev) env ramPath offset bufferSize =
        v.readFileAt (some dev) env orefsPath offset bufferSize ↔
      ¬ (bufferSize = 0 ∧ offset < entry.size ∧ (entry.offset + offset) % 512 = 0) := by
  have hramread : v.readFileAt (some dev) env ramPath offset bufferSize =
      readInitramfsFile file offset bufferSize := by
    unfold Vfs.readFileAt
    rw [if_neg (by rw [hmounted]; decide), hram]
    dsimp only
    rw [hfile]
  have hdiskread : v.readFileAt (some dev) env orefsPath offset bufferSize =
      readDiskFile (some dev) env entry offset bufferSize := by
    unfold Vfs.readFileAt
    rw [if_neg (by rw [hmounted]; decide), hdisk]
    dsimp only
    rw [hentry]
    exact if_neg (not_not.mpr htype)
  rw [hramread, hdiskread]
  by_cases hoffset : offset < entry.size
  · have hram : readInitramfsFile file offset bufferSize =
        let n := readCount entry.size offset bufferSize
        (n.toInt, (List.range n.toNat).map fun i =>
          (diskContents dev entry).byte (offset + BitVec.ofNat 64 i)) := by
      unfold readInitramfsFile
      rw [← hsize, if_neg (BitVec.not_le.mpr hoffset)]
      refine Prod.ext rfl (List.map_congr_left fun i hi => ?_)
      refine hbytes _ (BitVec.lt_def.mpr ?_)
      have hi : i < (readCount entry.size offset bufferSize).toNat := List.mem_range.mp hi
      rw [toNat_readCount hoffset] at hi
      have hlt := entry.size.isLt
      rw [← hsize, BitVec.toNat_add, BitVec.toNat_ofNat]
      omega
    rw [hram, readDiskFile_eq henv hinside hoffset]
    by_cases hnone : (entry.offset + offset) % 512 = 0 ∧ bufferSize = 0
    · rw [if_pos hnone]
      refine iff_of_false (fun h => ?_) fun h => h ⟨hnone.2, hoffset, hnone.1⟩
      have hzero : readCount entry.size offset bufferSize = 0 := by
        have hnum : (readCount entry.size offset bufferSize).toNat = _ := toNat_readCount hoffset
        rw [hnone.2, show (0 : Word).toNat = 0 from rfl, Nat.min_zero] at hnum
        rw [hnone.2]
        exact BitVec.eq_of_toNat_eq hnum
      have hfirst := congrArg Prod.fst h
      dsimp only at hfirst
      rw [hzero] at hfirst
      cases hfirst
    · rw [if_neg hnone]
      exact iff_of_true rfl fun h => hnone ⟨h.2.2, h.1⟩
  · have hle := BitVec.not_lt.mp hoffset
    unfold readInitramfsFile readDiskFile
    rw [if_pos (hsize ▸ hle), if_pos hle]
    exact iff_of_true rfl fun h => hoffset h.2.1

/-- Three bytes, in the archive under `a` and in the second sector of the disk under `b`. -/
def twoCopies : Vfs where
  mounted := true
  diskMounted := true
  files := [{ name := [0x61], data := fun i => BitVec.ofNat 8 i.toNat, size := 3, type := 1 }]
  diskEntries := [{ name := [0x62], offset := 512, size := 3, type := 1 }]

def twoSectors : BlockDevice where
  isAta := false
  blockCount := 2
  bytes i := BitVec.ofNat 8 i

def easyEnv : ReadEnv where
  kmalloc size := if size = 0 then none else some 0x1000
  held _ := 0
  fails := false

theorem serves_easyEnv : easyEnv.Serves twoSectors where
  kmalloc_zero := rfl
  kmalloc size hsize := by
    show (if size = 0 then none else some (0x1000 : Word)) ≠ none
    rw [if_neg hsize]
    exact Option.some_ne_none _
  read lba blocks hblocks hinside := by
    have hle : lba.toNat + blocks.toNat ≤ 2 := hinside
    unfold blockRootRead
    dsimp only
    rw [if_neg, if_neg hblocks, if_neg (fun h => Bool.false_ne_true h.1),
      if_neg (show ¬ easyEnv.fails = true from Bool.false_ne_true)]
    · exact Option.some_ne_none _
    · refine BitVec.not_lt.mpr (BitVec.le_def.mpr ?_)
      rw [BitVec.toNat_add, BitVec.toNat_setWidth]
      show _ ≤ 2
      omega

theorem backends_agree_twoCopies :
    twoCopies.readFileAt (some twoSectors) easyEnv [slash, 0x61] 1 8 =
      twoCopies.readFileAt (some twoSectors) easyEnv (slash :: diskName ++ [slash, 0x62]) 1 8 := by
  have hrel : twoCopies.onDisk (slash :: diskName ++ [slash, 0x62]) = some [0x62] := rfl
  refine (backends_agree_iff rfl rfl rfl hrel rfl rfl (by decide) rfl (fun i hi => ?_)
    serves_easyEnv 1 8).mpr (by decide)
  show BitVec.ofNat 8 i.toNat = BitVec.ofNat 8 (512 + i).toNat
  apply BitVec.eq_of_toNat_eq
  rw [BitVec.toNat_ofNat, BitVec.toNat_ofNat, BitVec.toNat_add, show (512 : Word).toNat = 512 from rfl]
  omega

theorem empty_read_differs :
    twoCopies.readFileAt (some twoSectors) easyEnv [slash, 0x61] 0 0 = (0, []) ∧
      twoCopies.readFileAt (some twoSectors) easyEnv (slash :: diskName ++ [slash, 0x62]) 0 0 =
        (-1, []) := by
  decide

end OreOS.Kernel
