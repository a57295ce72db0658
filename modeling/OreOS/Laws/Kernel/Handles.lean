import OreOS.Kernel.Handles
import OreOS.Laws.Kernel.Vfs

/-!
# Handles over runs

A handle is open in the table exactly if it was opened and not closed since, and
its offset is what its reads have returned (`Tracked`). A read that returns
something goes through the sector arithmetic of `vfs_read_file_at`
(`readDiskFile_spec`), which gives the bytes of the file at the offset.
-/

namespace OreOS.Kernel

open OreOS.Lib (Word Byte Mem Run)

/-! ## Reading -/

variable {v : Vfs} {root : Option BlockDevice} {env : ReadEnv} {path : List Byte}
  {offset bufferSize : Word}

/-- The bytes that a read delivers are those of the file. -/
def Delivers (contents : FileContents) (offset : Word) (result : Int) (bytes : List Byte) : Prop :=
  offset.toNat + result.toNat ≤ contents.size.toNat ∧
    bytes = (List.range result.toNat).map fun i => contents.byte (offset + BitVec.ofNat 64 i)

theorem readCount_spec (bufferSize : Word) {size : Word} (hoffset : ¬ offset ≥ size) :
    let n := if size - offset < bufferSize then size - offset else bufferSize
    offset.toNat + n.toNat ≤ size.toNat ∧ n ≤ bufferSize := by
  have hsub : (size - offset).toNat = size.toNat - offset.toNat := by
    rw [BitVec.toNat_sub_of_le (by bv_omega)]
  dsimp only
  split
  next hlt => exact ⟨by bv_omega, by bv_omega⟩
  next hge => exact ⟨by bv_omega, by bv_omega⟩

theorem blockRootRead_spec {dev : BlockDevice} {fails : Bool} {lba : Word} {blocks : BitVec 32}
    {tmp : List Byte} (hlba : lba.toNat < 2 ^ 63)
    (hread : blockRootRead (some dev) fails lba blocks = some tmp) :
    lba.toNat + blocks.toNat ≤ dev.blockCount.toNat ∧
      ∀ i < blocks.toNat * 512, tmp[i]? = some (dev.bytes (lba.toNat * 512 + i)) := by
  unfold blockRootRead at hread
  dsimp only at hread
  split at hread
  next => cases hread
  next hcount =>
    split at hread
    next => cases hread
    next =>
      split at hread
      next => cases hread
      next =>
        split at hread
        next => cases hread
        next =>
          cases hread
          refine ⟨?_, fun i hi => ?_⟩
          · have hblocks := blocks.isLt
            have hdev := dev.blockCount.isLt
            have hsum : (lba + blocks.setWidth 64).toNat = lba.toNat + blocks.toNat := by bv_omega
            have hle := Nat.le_of_not_lt (fun hlt => hcount (BitVec.lt_def.mpr hlt))
            rwa [hsum, BitVec.toNat_setWidth, Nat.mod_eq_of_lt (by omega)] at hle
          · rw [List.getElem?_map, List.getElem?_range hi]
            rfl

theorem sectors_spec (diskOffset : Word) {n : Word} (hn : n.toNat ≤ 2 ^ 47) :
    (diskOffset / 512).toNat * 512 + (diskOffset % 512).toNat = diskOffset.toNat ∧
      ((diskOffset % 512 + n + 511) / 512).toNat ≤ 2 ^ 39 ∧
      (diskOffset % 512).toNat + n.toNat ≤ ((diskOffset % 512 + n + 511) / 512).toNat * 512 := by
  have hmod : (diskOffset % 512).toNat = diskOffset.toNat % 512 := BitVec.toNat_umod
  have hdiv : (diskOffset / 512).toNat = diskOffset.toNat / 512 := BitVec.toNat_udiv
  have hsum : (diskOffset % 512 + n + 511).toNat = diskOffset.toNat % 512 + n.toNat + 511 := by
    rw [BitVec.toNat_add, BitVec.toNat_add, hmod]
    have : (511 : Word).toNat = 511 := rfl
    omega
  have hsectors : ((diskOffset % 512 + n + 511) / 512).toNat =
      (diskOffset.toNat % 512 + n.toNat + 511) / 512 := by
    rw [BitVec.toNat_udiv, hsum]
    rfl
  rw [hmod, hdiv, hsectors]
  omega

/-- The bytes of a file on the disk. -/
def diskContents (dev : BlockDevice) (entry : OreFsEntry) : FileContents :=
  { size := entry.size, byte := fun i => dev.bytes (entry.offset + i).toNat }

/-- The bytes that a read copies out of the sectors it has read. -/
theorem copied_eq {dev : BlockDevice} {entry : OreFsEntry} {fails : Bool} {n : Word}
    {tmp : List Byte} {held : Nat → Byte} (hn : n.toNat ≤ 2 ^ 47)
    (hsectors : (((entry.offset + offset) % 512 + n + 511) / 512).toNat < 2 ^ 32)
    (hread : blockRootRead (some dev) fails ((entry.offset + offset) / 512)
      ((((entry.offset + offset) % 512 + n + 511) / 512).setWidth 32) = some tmp) :
    ((List.range n.toNat).map fun i =>
        (tmp[((entry.offset + offset) % 512).toNat + i]?).getD
          (held (((entry.offset + offset) % 512).toNat + i))) =
      (List.range n.toNat).map fun i =>
        (diskContents dev entry).byte (offset + BitVec.ofNat 64 i) := by
  obtain ⟨hsplit, -, hcover⟩ := sectors_spec (entry.offset + offset) hn
  have hlba : ((entry.offset + offset) / 512).toNat < 2 ^ 63 := by omega
  obtain ⟨hinside, htmp⟩ := blockRootRead_spec hlba hread
  have hblocks : ((((entry.offset + offset) % 512 + n + 511) / 512).setWidth 32).toNat =
      (((entry.offset + offset) % 512 + n + 511) / 512).toNat := by
    rw [BitVec.toNat_setWidth, Nat.mod_eq_of_lt hsectors]
  rw [hblocks] at hinside htmp
  refine List.map_congr_left fun i hi => ?_
  rw [List.mem_range] at hi
  rw [htmp _ (by omega), Option.getD_some]
  -- The device has fewer than 2^32 blocks, so addresses in it do not wrap.
  have haddr : (entry.offset + (offset + BitVec.ofNat 64 i)).toNat =
      (entry.offset + offset).toNat + i := by bv_omega
  show _ = dev.bytes (entry.offset + (offset + BitVec.ofNat 64 i)).toNat
  rw [haddr]
  congr 1
  omega

theorem toInt_of_le {n : Word} (hn : n.toNat ≤ 2 ^ 47) : n.toInt = n.toNat :=
  BitVec.toInt_eq_toNat_of_lt (by omega)

theorem readDiskFile_delivers {entry : OreFsEntry} (henv : env.InKernel)
    (hsize : bufferSize.toNat ≤ 2 ^ 47)
    (hpos : 0 < (readDiskFile root env entry offset bufferSize).1) :
    ∃ dev, root = some dev ∧
      Delivers (diskContents dev entry) offset
        (readDiskFile root env entry offset bufferSize).1
        (readDiskFile root env entry offset bufferSize).2 := by
  unfold readDiskFile at hpos ⊢
  split at hpos
  next => exact absurd hpos (Int.lt_irrefl 0)
  next hoffset =>
    rw [if_neg hoffset]
    obtain ⟨hle, hn⟩ := readCount_spec bufferSize hoffset
    dsimp only at hpos hle hn ⊢
    generalize (if entry.size - offset < bufferSize then entry.size - offset else bufferSize) = n
      at hpos hle hn ⊢
    have hn' : n.toNat ≤ 2 ^ 47 := Nat.le_trans (BitVec.le_def.mp hn) hsize
    split at hpos
    next => cases hpos
    next ptr hptr =>
      split at hpos
      next => cases hpos
      next tmp htmp =>
        obtain ⟨-, hbound, -⟩ := sectors_spec (entry.offset + offset) hn'
        have hsectors : (((entry.offset + offset) % 512 + n + 511) / 512).toNat < 2 ^ 32 := by
          have hkernel := henv _ _ hptr
          have hbase : userBase.toNat = 2 ^ 39 := rfl
          rw [BitVec.toNat_mul, show (512 : Word).toNat = 512 from rfl,
            Nat.mod_eq_of_lt (by omega)] at hkernel
          omega
        cases root with
        | none => cases htmp
        | some dev =>
          rw [toInt_of_le hn']
          exact ⟨dev, rfl, hle, copied_eq hn' hsectors htmp⟩

theorem readInitramfsFile_delivers {file : InitramfsFile} (hsize : bufferSize.toNat ≤ 2 ^ 47) :
    (readInitramfsFile file offset bufferSize).1 = 0 ∨
      Delivers { size := file.size, byte := file.data } offset
        (readInitramfsFile file offset bufferSize).1
        (readInitramfsFile file offset bufferSize).2 := by
  unfold readInitramfsFile
  split
  next => exact .inl rfl
  next hoffset =>
    right
    obtain ⟨hle, hn⟩ := readCount_spec bufferSize hoffset
    dsimp only at hle hn ⊢
    generalize (if file.size - offset < bufferSize then file.size - offset else bufferSize) = n
      at hle hn ⊢
    have hn' : n.toNat ≤ 2 ^ 47 := Nat.le_trans (BitVec.le_def.mp hn) hsize
    rw [Delivers, toInt_of_le hn', Int.toNat_natCast]
    exact ⟨hle, rfl⟩

/-- A read that returns something delivers what the file holds. -/
theorem Vfs.readFileAt_delivers (henv : env.InKernel) (hsize : bufferSize.toNat ≤ 2 ^ 47)
    (hpos : 0 < (v.readFileAt root env path offset bufferSize).1) :
    ∃ contents, v.contents root path = some contents ∧
      Delivers contents offset (v.readFileAt root env path offset bufferSize).1
        (v.readFileAt root env path offset bufferSize).2 := by
  unfold Vfs.readFileAt at hpos ⊢
  unfold Vfs.contents
  split at hpos
  next => cases hpos
  next hmounted =>
    rw [if_neg hmounted]
    cases hdisk : v.onDisk path with
    | some rel =>
      simp only [hdisk] at hpos ⊢
      cases hentry : diskLookup v rel with
      | none =>
        simp only [hentry] at hpos
        cases hpos
      | some entry =>
        simp only [hentry] at hpos ⊢
        split at hpos
        next => cases hpos
        next htype =>
          rw [if_neg htype]
          obtain ⟨dev, rfl, hdelivers⟩ := readDiskFile_delivers henv hsize hpos
          exact ⟨_, rfl, hdelivers⟩
    | none =>
      simp only [hdisk] at hpos ⊢
      cases hfile : initramfsLookupRaw v path with
      | none =>
        simp only [hfile] at hpos
        cases hpos
      | some file =>
        simp only [hfile] at hpos ⊢
        refine ⟨_, rfl, (readInitramfsFile_delivers hsize).resolve_left fun hzero => ?_⟩
        rw [hzero] at hpos
        exact absurd hpos (Int.lt_irrefl 0)

/-! ## The calls -/

variable {cr3 : Word} {m : Machine} {handles : Handles} {a1 a2 a3 : Word}

theorem length_le_of_userRangeOk {ptr len : Word} (h : userRangeOk cr3 m ptr len = true) :
    len.toNat ≤ 2 ^ 47 := by
  unfold userRangeOk at h
  split at h
  next => cases h
  next hptr =>
    split at h
    next => cases h
    next hlen =>
      rw [not_or, not_or] at hptr
      have hlimit : userLimit.toNat = 2 ^ 47 := rfl
      have hlt : ptr.toNat < userLimit.toNat := Nat.lt_of_not_le hptr.2.2
      have hle : len.toNat ≤ (userLimit - ptr).toNat := Nat.le_of_not_lt hlen
      rw [BitVec.toNat_sub_of_le (BitVec.le_def.mpr (Nat.le_of_lt hlt))] at hle
      omega

theorem strlenFrom_error {ptr : Word} {n i : Nat} {err : Int}
    (h : strlenFrom cr3 m ptr n i = .error err) : err ≤ 0 := by
  induction n generalizing i with
  | zero =>
    cases h
    decide
  | succ n ih =>
    unfold strlenFrom at h
    split at h
    next =>
      cases h
      decide
    next =>
      split at h
      next => cases h
      next => exact ih h

theorem strlenFrom_ok {ptr : Word} {n i len : Nat} (h : strlenFrom cr3 m ptr n i = .ok len) :
    len < i + n := by
  induction n generalizing i with
  | zero => cases h
  | succ n ih =>
    unfold strlenFrom at h
    split at h
    next => cases h
    next =>
      split at h
      next =>
        cases h
        omega
      next =>
        have := ih h
        omega

theorem copyUserString_cases (cr3 : Word) (m : Machine) (ptr : Word) (max : Nat) :
    (∃ err, copyUserString cr3 m ptr max = .error err ∧ err ≤ 0) ∨
      ∃ bytes, copyUserString cr3 m ptr max = .ok bytes ∧ bytes.length ≤ max := by
  unfold copyUserString strlenUser
  cases hlen : strlenFrom cr3 m ptr max 0 with
  | error err => exact .inl ⟨err, rfl, strlenFrom_error hlen⟩
  | ok len =>
    have hmax := strlenFrom_ok hlen
    show (∃ err, copyFromUser cr3 m ptr (BitVec.ofNat 64 (len + 1)) = .error err ∧ err ≤ 0) ∨
      ∃ bytes, copyFromUser cr3 m ptr (BitVec.ofNat 64 (len + 1)) = .ok bytes ∧ bytes.length ≤ max
    unfold copyFromUser
    split
    next => exact .inr ⟨[], rfl, Nat.zero_le _⟩
    next =>
      split
      next => exact .inl ⟨_, rfl, by decide⟩
      next =>
        refine .inr ⟨_, rfl, ?_⟩
        rw [List.length_map, List.length_range, BitVec.toNat_ofNat]
        exact Nat.le_trans (Nat.mod_le _ _) (by omega)

theorem userPath_cases (cr3 : Word) (m : Machine) (ptr : Word) :
    (∃ err, userPath cr3 m ptr = .error err ∧ err ≤ 0) ∨
      ∃ path, userPath cr3 m ptr = .ok path ∧ path.length ≤ 127 := by
  unfold userPath
  rcases copyUserString_cases cr3 m ptr 127 with ⟨err, herr, hle⟩ | ⟨bytes, hbytes, hle⟩
  · exact .inl ⟨err, by rw [herr]; rfl, hle⟩
  · refine .inr ⟨bytes.takeWhile (· ≠ 0), by rw [hbytes]; rfl, ?_⟩
    exact Nat.le_trans (List.takeWhile_prefix _).length_le hle

theorem sysOpen_cases (v : Vfs) (cr3 : Word) (m : Machine) (handles : Handles) (a1 : Word) :
    (∃ err, sysOpen v cr3 m handles a1 = { result := err, handles := handles } ∧ err ≤ 0) ∨
      ∃ path st i, userPath cr3 m a1 = .ok path ∧ v.stat path = some st ∧ 0 < i ∧
        (handles i).type = 0 ∧
        sysOpen v cr3 m handles a1 =
          { result := i
            handles := Function.update handles i { type := st.type, offset := 0, path := path } } := by
  unfold sysOpen
  rcases userPath_cases cr3 m a1 with ⟨err, herr, hle⟩ | ⟨path, hpath, hlen⟩
  · rw [herr]
    exact .inl ⟨err, rfl, hle⟩
  · rw [hpath]
    dsimp only
    cases hst : v.stat path with
    | none => exact .inl ⟨_, rfl, by decide⟩
    | some st =>
      dsimp only
      cases hfind : (List.range' 1 (oreMaxHandles - 1)).find? fun i => (handles i).type = 0 with
      | none => exact .inl ⟨_, rfl, by decide⟩
      | some i =>
        have hmem := List.mem_of_find?_eq_some hfind
        have hfree := List.find?_some hfind
        rw [decide_eq_true_eq] at hfree
        rw [List.mem_range'_1] at hmem
        have hcopy : copyString path 128 = path := List.take_of_length_le hlen
        dsimp only
        rw [hcopy]
        exact .inr ⟨path, st, i, rfl, hst, hmem.1, hfree, rfl⟩

/-- `ORE_SYS_FILE_READ` returns nothing, or delivers bytes of the file and moves the
offset. -/
theorem sysFileRead_cases (henv : env.InKernel) {r : FileReply} {h : Handle}
    (hh : handles a1.toNat = h) (hr : sysFileRead v root env cr3 m handles a1 a2 a3 = r) :
    r.result ≤ 0 ∧ r.handles = handles ∨
      0 < r.result ∧ h.type ≠ 0 ∧
        r.handles = Function.update handles a1.toNat
          { h with offset := h.offset + BitVec.ofInt 64 r.result } ∧
        ∃ contents, v.contents root h.path = some contents ∧
          Delivers contents h.offset r.result r.delivered := by
  subst hh hr
  unfold sysFileRead
  split
  next => exact .inl ⟨show -oreEbadf ≤ 0 by decide, rfl⟩
  next hhandle =>
    rw [not_or, not_not] at hhandle
    split
    next => exact .inl ⟨show -oreEfault ≤ 0 by decide, rfl⟩
    next hrange =>
      have hsize := length_le_of_userRangeOk (eq_true_of_ne_false hrange)
      dsimp only
      by_cases hpos : 0 < (v.readFileAt root env (handles a1.toNat).path
          (handles a1.toNat).offset a3).1
      · right
        rw [if_pos hpos]
        refine ⟨hpos, ?_, rfl, v.readFileAt_delivers henv hsize hpos⟩
        rw [hhandle.2]
        decide
      · left
        rw [if_neg hpos]
        exact ⟨Int.not_lt.mp hpos, rfl⟩

theorem sysClose_cases (handles : Handles) (a1 : Word) :
    sysClose handles a1 = { result := -oreEbadf, handles := handles } ∨
      sysClose handles a1 = { result := 0, handles := Function.update handles a1.toNat {} } := by
  unfold sysClose
  split
  · exact .inl rfl
  · exact .inr rfl

/-! ## Runs -/

/-- Every stored file is one by its type. -/
def Vfs.OnlyFiles (v : Vfs) : Prop :=
  (∀ file ∈ v.files, file.type = Vfs.oreVfsFile) ∧
    ∀ entry ∈ v.diskEntries, entry.type = Vfs.oreVfsFile

theorem Vfs.OnlyFiles.stat_type (h : v.OnlyFiles) {st : OreVfsStat} (hst : v.stat path = some st) :
    st.type ≠ 0 := by
  rcases (Vfs.stat_cases hst).2 with htype | ⟨file, hfile, htype⟩ | ⟨entry, hentry, htype⟩
  · rw [htype]
    decide
  · rw [htype, h.1 file hfile]
    decide
  · rw [htype, h.2 entry hentry]
    decide

/-- The account of a handle is right: it is open if the table has it, with the path
of its OPEN and the offset that its reads have come to. -/
def Handle.Tracked (h : Handle) : Option Opened → Prop
  | none => h.type = 0
  | some o => h.type ≠ 0 ∧ h.offset.toNat = o.read ∧ h.path = o.path

namespace FileState

variable {s s' : FileState} {e : FileEvent}

def Tracked (s : FileState) : Prop :=
  ∀ p i, (s.handles p i).Tracked (s.opened p i)

theorem tracked_read {h : Handle} {o : Option Opened} {contents : FileContents} {n : Int}
    {bytes : List Byte} (ht : h.Tracked o) (htype : h.type ≠ 0) (hn : 0 < n)
    (hdelivers : Delivers contents h.offset n bytes) :
    Handle.Tracked { h with offset := h.offset + BitVec.ofInt 64 n }
      (o.map fun o => { o with read := o.read + n.toNat }) := by
  cases o with
  | none => exact absurd ht htype
  | some o =>
    obtain ⟨-, hoffset, hpath⟩ := ht
    refine ⟨htype, ?_, hpath⟩
    obtain ⟨k, rfl⟩ := Int.eq_ofNat_of_zero_le (Int.le_of_lt hn)
    have hle := hdelivers.1
    have hsize := contents.size.isLt
    rw [Int.toNat_natCast] at hle ⊢
    rw [BitVec.ofInt_natCast, BitVec.toNat_add, BitVec.toNat_ofNat, Nat.mod_eq_of_lt (a := k) (by omega),
      Nat.mod_eq_of_lt (by omega), hoffset]

theorem tracked_call (hv : v.OnlyFiles) (ht : s.Tracked) (he : e.Allowed) {r : FileReply}
    (hr : s.reply v root e = r) (i : Nat) :
    (r.handles i).Tracked (account (s.opened e.process) e r.result i) := by
  have hold := ht e.process
  unfold reply at hr
  unfold account
  cases hcall : e.call with
  | «open» a1 =>
    simp only [hcall] at hr
    rcases sysOpen_cases v e.cr3 e.memory (s.handles e.process) a1 with
      ⟨err, hreply, herr⟩ | ⟨path, st, j, hpath, hst, hj, hfree, hreply⟩
    · obtain rfl := hreply.symm.trans hr
      dsimp only
      cases userPath e.cr3 e.memory a1 with
      | ok path =>
        dsimp only
        rw [if_neg (Int.not_lt.mpr herr)]
        exact hold i
      | error => exact hold i
    · obtain rfl := hreply.symm.trans hr
      dsimp only
      rw [hpath]
      dsimp only
      rw [if_pos (by omega), Int.toNat_natCast]
      by_cases hij : i = j
      · subst hij
        rw [Function.update_self, Function.update_self]
        exact ⟨hv.stat_type hst, rfl, rfl⟩
      · rw [Function.update_of_ne hij, Function.update_of_ne hij]
        exact hold i
  | fileRead a1 a2 a3 env =>
    have henv : env.InKernel := by
      unfold FileEvent.Allowed at he
      rwa [hcall] at he
    simp only [hcall] at hr
    dsimp only
    rcases sysFileRead_cases henv rfl hr with
      ⟨hle, hsame⟩ | ⟨hpos, htype, hhandles, contents, -, hdelivers⟩
    · rw [hsame, if_neg (Int.not_lt.mpr hle)]
      exact hold i
    · rw [hhandles, if_pos hpos]
      by_cases hi : i = a1.toNat
      · subst hi
        rw [Function.update_self, Function.update_self]
        exact tracked_read (hold _) htype hpos hdelivers
      · rw [Function.update_of_ne hi, Function.update_of_ne hi]
        exact hold i
  | close a1 =>
    simp only [hcall] at hr
    rcases sysClose_cases (s.handles e.process) a1 with hreply | hreply
    · obtain rfl := hreply.symm.trans hr
      exact hold i
    · obtain rfl := hreply.symm.trans hr
      dsimp only
      rw [if_pos rfl]
      by_cases hi : i = a1.toNat
      · subst hi
        rw [Function.update_self, Function.update_self]
        rfl
      · rw [Function.update_of_ne hi, Function.update_of_ne hi]
        exact hold i

theorem tracked_step (hv : v.OnlyFiles) (ht : s.Tracked) (he : e.Allowed)
    (hstep : s.step v root e = some s') : s'.Tracked := by
  cases hstep
  intro p i
  by_cases hp : p = e.process
  · subst hp
    simp only [Function.update_self]
    exact tracked_call hv ht he rfl i
  · simp only [Function.update_of_ne hp]
    exact ht p i

theorem tracked_run (hv : v.OnlyFiles) (hrun : Run (step v root) (fun _ e => e.Allowed) {} s) :
    s.Tracked := by
  have hstart : Tracked {} := by
    intro p i
    rfl
  exact hrun.invariant hstart fun _ _ _ ht he hstep => tracked_step hv ht he hstep

theorem reply_frame {j : Nat} (he : e.Allowed)
    (hj : e.handle (s.reply v root e).result ≠ some j) :
    (s.reply v root e).handles j = s.handles e.process j := by
  unfold reply FileEvent.handle at *
  cases hcall : e.call with
  | «open» a1 =>
    simp only [hcall] at hj ⊢
    rcases sysOpen_cases v e.cr3 e.memory (s.handles e.process) a1 with
      ⟨err, hreply, -⟩ | ⟨path, st, i, -, -, hi, -, hreply⟩
    · rw [hreply]
    · rw [hreply] at hj ⊢
      dsimp only at hj ⊢
      rw [if_pos (by omega), Int.toNat_natCast] at hj
      exact Function.update_of_ne (fun heq => hj (congrArg some heq.symm)) ..
  | fileRead a1 a2 a3 env =>
    have henv : env.InKernel := by
      unfold FileEvent.Allowed at he
      rwa [hcall] at he
    simp only [hcall] at hj ⊢
    have hne : j ≠ a1.toNat := fun heq => hj (congrArg some heq.symm)
    generalize hr : sysFileRead v root env e.cr3 e.memory (s.handles e.process) a1 a2 a3 = r
    rcases sysFileRead_cases henv rfl hr with ⟨-, hsame⟩ | ⟨-, -, hhandles, -⟩
    · rw [hsame]
    · rw [hhandles, Function.update_of_ne hne]
  | close a1 =>
    simp only [hcall] at hj ⊢
    have hne : j ≠ a1.toNat := fun heq => hj (congrArg some heq.symm)
    rcases sysClose_cases (s.handles e.process) a1 with hreply | hreply
    · rw [hreply]
    · rw [hreply]
      exact Function.update_of_ne hne ..

/-- OPEN returns handles that are not open, offsets are what reads have returned,
reads deliver the bytes of the file that was opened, and a call changes no other
handle. -/
theorem handles_sound {v : Vfs} {root : Option BlockDevice} {s : FileState} {e : FileEvent}
    (hv : v.OnlyFiles) (hrun : Run (step v root) (fun _ e => e.Allowed) {} s) (he : e.Allowed) :
    (∀ p i o, s.opened p i = some o → (s.handles p i).offset.toNat = o.read) ∧
    (∀ a1, e.call = .open a1 → 0 < (s.reply v root e).result →
      s.opened e.process (s.reply v root e).result.toNat = none) ∧
    (∀ a1 a2 a3 env, e.call = .fileRead a1 a2 a3 env → 0 < (s.reply v root e).result →
      ∃ o contents, s.opened e.process a1.toNat = some o ∧ v.contents root o.path = some contents ∧
        Delivers contents (s.handles e.process a1.toNat).offset (s.reply v root e).result
          (s.reply v root e).delivered) ∧
    ∀ s', s.step v root e = some s' → ∀ p j,
      ¬ (p = e.process ∧ e.handle (s.reply v root e).result = some j) →
      s'.handles p j = s.handles p j := by
  have ht := tracked_run hv hrun
  refine ⟨fun p i o ho => ?_, fun a1 hcall hpos => ?_, fun a1 a2 a3 env hcall hpos => ?_,
    fun s' hstep p j hj => ?_⟩
  · have := ht p i
    rw [ho] at this
    exact this.2.1
  · generalize hr : s.reply v root e = r at hpos ⊢
    simp only [reply, hcall] at hr
    rcases sysOpen_cases v e.cr3 e.memory (s.handles e.process) a1 with
      ⟨err, hreply, herr⟩ | ⟨path, st, i, -, -, -, hfree, hreply⟩
    · obtain rfl := hreply.symm.trans hr
      exact absurd hpos (Int.not_lt.mpr herr)
    · obtain rfl := hreply.symm.trans hr
      have := ht e.process i
      rw [Int.toNat_natCast]
      cases ho : s.opened e.process i with
      | none => rfl
      | some o =>
        rw [ho] at this
        exact absurd hfree this.1
  · generalize hr : s.reply v root e = r at hpos ⊢
    simp only [reply, hcall] at hr
    have henv : env.InKernel := by
      unfold FileEvent.Allowed at he
      rwa [hcall] at he
    rcases sysFileRead_cases henv rfl hr with
      ⟨hle, -⟩ | ⟨-, htype, -, contents, hcontents, hdelivers⟩
    · exact absurd hpos (Int.not_lt.mpr hle)
    · have := ht e.process a1.toNat
      cases ho : s.opened e.process a1.toNat with
      | none =>
        rw [ho] at this
        exact absurd this htype
      | some o =>
        rw [ho] at this
        exact ⟨o, contents, rfl, this.2.2 ▸ hcontents, hdelivers⟩
  · cases hstep
    by_cases hp : p = e.process
    · subst hp
      simp only [Function.update_self]
      exact reply_frame he fun hcon => hj ⟨rfl, hcon⟩
    · simp only [Function.update_of_ne hp]

/-- A page of the caller at `USER_BASE`, with the path `/init` in it. -/
def callerMemory : Machine where
  mem := Mem.write (Mem.store64 (Mem.store64 (Mem.store64 (Mem.store64 (fun _ => 0)
    0x1008 0x2007) 0x2000 0x3007) 0x3000 0x4007) 0x4000 0x5007)
    0x5000 [slash, 0x69, 0x6e, 0x69, 0x74]
  pool := []

def openInit : FileEvent where
  process := 1
  cr3 := 0x1000
  memory := callerMemory
  call := .open 0x8000000000

/-- Three bytes of a file of the initramfs, without the heap. -/
def readInit : FileEvent where
  process := 1
  cr3 := 0x1000
  memory := callerMemory
  call := .fileRead 1 0x8000000800 3 { kmalloc := fun _ => none, held := fun _ => 0, fails := false }

theorem handles_sound_readInit :
    ∃ s, step Vfs.twoMounts none {} openInit = some s ∧
      (s.reply Vfs.twoMounts none readInit).result = 3 ∧
      ∃ o contents, s.opened 1 1 = some o ∧ Vfs.twoMounts.contents none o.path = some contents ∧
        Delivers contents (s.handles 1 1).offset (s.reply Vfs.twoMounts none readInit).result
          (s.reply Vfs.twoMounts none readInit).delivered := by
  have hresult : (step Vfs.twoMounts none {} openInit).map
      (fun s => (s.reply Vfs.twoMounts none readInit).result) = some 3 := by decide +kernel
  obtain ⟨s, hs, hread⟩ := Option.map_eq_some_iff.mp hresult
  have hopen : openInit.Allowed := trivial
  have hrun : Run (step Vfs.twoMounts none) (fun _ e => e.Allowed) {} s := .snoc .refl hopen hs
  have hall : readInit.Allowed := fun _ _ hptr => by cases hptr
  refine ⟨s, hs, hread, ?_⟩
  exact (handles_sound ⟨by decide, by decide⟩ hrun hall).2.2.1 1 0x8000000800 3 _ rfl
    (by rw [hread]; decide)

end FileState

end OreOS.Kernel
