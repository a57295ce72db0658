import OreOS.Kernel.Initramfs
import OreOS.Laws.Kernel.Handles
import OreOS.Laws.Kernel.Look

/-!
# What `initramfs_init` registers

`Archive.headers` are the positions that the walk over the archive gets to, as
numbers: offsets do not wrap. The registered files are those of the first 64
headers of files (`initramfsInit_eq`). The loop looks at the position of a
header and at nothing else, so a size may point behind the end of the archive
and a name may have no NUL (`archive_enclosed_iff`).
-/

namespace OreOS.Kernel

open OreOS.Lib (Word Byte Mem)
open Initramfs

variable {a : Archive} {mem : Mem} {n off : Nat} {files : List File}

/-! ## Octal numbers -/

theorem parseOctal_succ (mem : Mem) (s : Word) (n : Nat) :
    parseOctal mem s (n + 1) =
      if mem (s + BitVec.ofNat 64 n) ≥ 0x30 ∧ mem (s + BitVec.ofNat 64 n) ≤ 0x37 then
        (parseOctal mem s n <<< 3) + (mem (s + BitVec.ofNat 64 n) - 0x30).setWidth 64
      else parseOctal mem s n := by
  rw [parseOctal, List.range_succ, List.foldl_append]
  rfl

theorem toNat_octalDigit {c : Byte} (h : c ≥ 0x30 ∧ c ≤ 0x37) :
    (c - 0x30).toNat = c.toNat - 48 ∧ c.toNat - 48 < 8 := by bv_omega

theorem toNat_shift_add_digit {v : Word} {c : Byte} (hv : v.toNat < 2 ^ 60) (hc : c.toNat < 8) :
    ((v <<< 3) + c.setWidth 64).toNat = 8 * v.toNat + c.toNat := by bv_omega

theorem parseOctal_lt (mem : Mem) (s : Word) (hn : n ≤ 20) : (parseOctal mem s n).toNat < 8 ^ n := by
  induction n with
  | zero => exact Nat.one_pos
  | succ n ih =>
    have hlt := ih (by omega)
    have hpow : 8 ^ n ≤ 2 ^ 57 := by
      rw [show (2 : Nat) ^ 57 = 8 ^ 19 by decide]
      exact Nat.pow_le_pow_right (by decide) (by omega)
    rw [parseOctal_succ, Nat.pow_succ]
    split
    next hc =>
      obtain ⟨hdigit, hsmall⟩ := toNat_octalDigit hc
      rw [toNat_shift_add_digit (by omega) (by omega)]
      omega
    next => omega

/-! ## Headers -/

namespace Archive

def byte (a : Archive) (i : Nat) : Byte :=
  a.mem (a.base + BitVec.ofNat 64 i)

/-- The size in the header at `off`. -/
def sizeAt (a : Archive) (off : Nat) : Word :=
  parseOctal a.mem (a.base + BitVec.ofNat 64 off + 124) 12

/-- The header behind the record of the header at `off`. -/
def nextHeader (a : Archive) (off : Nat) : Nat :=
  off + 512 + ((a.sizeAt off).toNat + 511) / 512 * 512

/-- There is a header at `off`. -/
def HasHeader (a : Archive) (off : Nat) : Prop :=
  off + 512 ≤ a.size.toNat ∧ blockEmpty a.mem (a.base + BitVec.ofNat 64 off) = false

instance (a : Archive) (off : Nat) : Decidable (a.HasHeader off) :=
  inferInstanceAs (Decidable (_ ∧ _))

/-- The headers from the one at `off` on. -/
def headersFrom (a : Archive) : Nat → Nat → List Nat
  | 0, _ => []
  | n + 1, off => if a.HasHeader off then off :: a.headersFrom n (a.nextHeader off) else []

def headers (a : Archive) : List Nat :=
  a.headersFrom (a.size.toNat / 512 + 1) 0

/-- The header at `off` is the header of a file with a name. -/
def IsFile (a : Archive) (off : Nat) : Prop :=
  a.byte off ≠ 0 ∧ a.byte (off + 156) ≠ 0x35

instance (a : Archive) : DecidablePred a.IsFile :=
  fun _ => inferInstanceAs (Decidable (_ ∧ _))

/-- The headers of the files that there is room for. -/
def fileHeaders (a : Archive) : List Nat :=
  (a.headers.filter a.IsFile).take maxFiles

/-- The file of the header at `off`. -/
def fileAt (a : Archive) (off : Nat) : File where
  name := a.base + BitVec.ofNat 64 off
  data := a.base + BitVec.ofNat 64 (off + 512)
  size := a.sizeAt off
  type := 1

theorem sizeAt_lt (a : Archive) (off : Nat) : (a.sizeAt off).toNat < 2 ^ 36 :=
  parseOctal_lt _ _ (by decide)

theorem hasHeader_of_mem {o : Nat} (h : o ∈ a.headersFrom n off) : a.HasHeader o := by
  induction n generalizing off with
  | zero => cases h
  | succ n ih =>
    rw [headersFrom] at h
    split at h
    next hheader =>
      rcases List.mem_cons.mp h with rfl | hrest
      · exact hheader
      · exact ih hrest
    next => cases h

end Archive

open Archive

theorem ofNat_nextHeader (a : Archive) (off : Nat) :
    BitVec.ofNat 64 off + tarBlock + (a.sizeAt off + tarBlock - 1) / tarBlock * tarBlock =
      BitVec.ofNat 64 (a.nextHeader off) := by
  have hlt := a.sizeAt_lt off
  have hround : a.sizeAt off + tarBlock - 1 = BitVec.ofNat 64 ((a.sizeAt off).toNat + 511) := by
    apply BitVec.eq_of_toNat_eq
    rw [BitVec.toNat_sub, BitVec.toNat_add, BitVec.toNat_ofNat,
      show tarBlock.toNat = 512 from rfl, show (1 : Word).toNat = 1 from rfl]
    omega
  have hdiv : BitVec.ofNat 64 ((a.sizeAt off).toNat + 511) / tarBlock =
      BitVec.ofNat 64 (((a.sizeAt off).toNat + 511) / 512) := by
    apply BitVec.eq_of_toNat_eq
    rw [BitVec.toNat_udiv, BitVec.toNat_ofNat, BitVec.toNat_ofNat,
      show tarBlock.toNat = 512 from rfl]
    omega
  rw [hround, hdiv, nextHeader, BitVec.ofNat_add, BitVec.ofNat_add, BitVec.ofNat_mul]
  rfl

theorem scan_succ (n : Nat) {off : Nat} (hoff : off < 2 ^ 63 + 2 ^ 37) (files : List File) :
    scan a (n + 1) (BitVec.ofNat 64 off) files =
      if a.HasHeader off ∧ files.length < maxFiles then
        scan a n (BitVec.ofNat 64 (a.nextHeader off))
          (if a.IsFile off then files ++ [a.fileAt off] else files)
      else files := by
  have hguard : BitVec.ofNat 64 off + tarBlock ≤ a.size ↔ off + 512 ≤ a.size.toNat := by
    rw [BitVec.le_def, BitVec.toNat_add, BitVec.toNat_ofNat, show tarBlock.toNat = 512 from rfl]
    omega
  have hadd (k : Nat) : a.base + BitVec.ofNat 64 off + BitVec.ofNat 64 k =
      a.base + BitVec.ofNat 64 (off + k) := by
    rw [BitVec.add_assoc, BitVec.ofNat_add]
  rw [scan]
  dsimp only
  by_cases hloop : BitVec.ofNat 64 off + tarBlock ≤ a.size ∧ files.length < maxFiles
  · rw [if_pos hloop]
    cases hempty : blockEmpty a.mem (a.base + BitVec.ofNat 64 off) with
    | true =>
      rw [if_pos rfl, if_neg]
      rintro ⟨⟨-, hnonempty⟩, -⟩
      rw [hempty] at hnonempty
      cases hnonempty
    | false =>
      have hheader : a.HasHeader off ∧ files.length < maxFiles :=
        ⟨⟨hguard.mp hloop.1, hempty⟩, hloop.2⟩
      have hfile : a.mem (a.base + BitVec.ofNat 64 off) ≠ 0 ∧
          a.mem (a.base + BitVec.ofNat 64 off + 156) ≠ 0x35 ↔ a.IsFile off := by
        unfold IsFile byte
        rw [← hadd]
        exact Iff.rfl
      rw [if_neg Bool.false_ne_true, if_pos hheader, ← ofNat_nextHeader, fileAt, ← hadd]
      simp only [hfile, ← BitVec.add_assoc]
      rfl
  · rw [if_neg hloop, if_neg]
    exact fun h => hloop ⟨hguard.mpr h.1.1, h.2⟩

theorem nextHeader_lt (h : a.HasHeader off) : a.nextHeader off < 2 ^ 63 + 2 ^ 37 := by
  have hsize := a.inside
  have hend := h.1
  have hlt := a.sizeAt_lt off
  rw [nextHeader]
  omega

theorem scan_eq (n : Nat) {off : Nat} (hoff : off < 2 ^ 63 + 2 ^ 37) (files : List File) :
    scan a n (BitVec.ofNat 64 off) files =
      files ++ (((a.headersFrom n off).filter a.IsFile).take (maxFiles - files.length)).map a.fileAt := by
  induction n generalizing off files with
  | zero => simp [scan, headersFrom]
  | succ n ih =>
    rw [scan_succ n hoff, headersFrom]
    by_cases hheader : a.HasHeader off
    · by_cases hroom : files.length < maxFiles
      · rw [if_pos ⟨hheader, hroom⟩, if_pos hheader, ih (nextHeader_lt hheader)]
        by_cases hfile : a.IsFile off
        · rw [if_pos hfile, List.filter_cons_of_pos (by simpa using hfile),
            show maxFiles - files.length = maxFiles - (files.length + 1) + 1 by omega,
            List.take_succ_cons, List.map_cons, List.append_assoc, List.length_append]
          rfl
        · rw [if_neg hfile, List.filter_cons_of_neg (by simpa using hfile)]
      · rw [if_neg fun h => hroom h.2, Nat.sub_eq_zero_of_le (Nat.le_of_not_lt hroom)]
        simp
    · rw [if_neg fun h => hheader h.1, if_neg hheader]
      simp

theorem initramfsInit_eq (hbase : a.base ≠ 0) : initramfsInit a = a.fileHeaders.map a.fileAt := by
  unfold initramfsInit
  split
  next h =>
    have hsize := h.resolve_left hbase
    have hnone : a.headers = [] := by
      rw [headers, headersFrom, if_neg]
      rintro ⟨hend, -⟩
      rw [hsize] at hend
      exact absurd hend (by decide)
    rw [fileHeaders, hnone]
    rfl
  next =>
    have hscan := @scan_eq a (a.size.toNat / 512 + 1) 0 (by decide) []
    rw [List.nil_append] at hscan
    exact hscan

/-! ## Inside the archive -/

namespace Archive

theorem add_at (a : Archive) (i j : Nat) :
    a.base + BitVec.ofNat 64 i + BitVec.ofNat 64 j = a.base + BitVec.ofNat 64 (i + j) := by
  rw [BitVec.add_assoc, BitVec.ofNat_add]

theorem contains_at_iff (hoff : off ≤ a.size.toNat) :
    a.Contains (a.base + BitVec.ofNat 64 off) n ↔ off + n ≤ a.size.toNat := by
  have hinside := a.inside
  have haddr {i : Nat} (hi : i ≤ a.size.toNat) :
      (a.base + BitVec.ofNat 64 i).toNat = a.base.toNat + i := by bv_omega
  constructor
  · intro h
    by_contra hlt
    -- the first byte behind the archive
    have hend := (h (a.size.toNat - off) (by omega)).2
    rw [add_at, haddr (by omega)] at hend
    omega
  · intro h k hk
    rw [add_at, haddr (by omega)]
    omega

/-- The record of the header at `off` ends in the archive, and so does the name. -/
def IsWhole (a : Archive) (off : Nat) : Prop :=
  off + 512 + (a.sizeAt off).toNat ≤ a.size.toNat ∧
    ∃ k, off + k < a.size.toNat ∧ a.byte (off + k) = 0

theorem encloses_fileAt_iff (h : a.HasHeader off) : a.Encloses (a.fileAt off) ↔ a.IsWhole off := by
  have hend := h.1
  have hname {k : Nat} := contains_at_iff (a := a) (n := k) (show off ≤ a.size.toNat by omega)
  have hdata := contains_at_iff (n := (a.sizeAt off).toNat) hend
  unfold Encloses IsWhole
  constructor
  · rintro ⟨-, ⟨k, hzero, hk⟩, hcontents⟩
    have hlt := hname.mp hk
    change a.mem (a.base + BitVec.ofNat 64 off + BitVec.ofNat 64 k) = 0 at hzero
    rw [add_at] at hzero
    exact ⟨hdata.mp hcontents, k, by omega, hzero⟩
  · rintro ⟨hcontents, k, hk, hzero⟩
    refine ⟨hname.mpr hend, ⟨k, ?_, hname.mpr (by omega)⟩, hdata.mpr hcontents⟩
    change a.mem (a.base + BitVec.ofNat 64 off + BitVec.ofNat 64 k) = 0
    rw [add_at]
    exact hzero

end Archive

/-! ## What a read reads -/

namespace Look

variable {α β : Type} {P : Word → Nat → Prop}

theorem strEq_within {s : Word} {k : Nat} (p : List Byte)
    (hzero : mem (s + BitVec.ofNat 64 k) = 0) (h : ∀ i ≤ k, P (s + BitVec.ofNat 64 i) 1) :
    Within P (strEq mem s p) fun _ => True := by
  induction p generalizing s k with
  | nil =>
    have hfirst := h 0 (Nat.zero_le k)
    rw [BitVec.add_zero] at hfirst
    exact (Within.read (fun _ => rfl) hfirst).bind fun _ _ => .pure trivial
  | cons b bs ih =>
    have hfirst := h 0 (Nat.zero_le k)
    rw [BitVec.add_zero] at hfirst
    refine (Within.read (fun _ => rfl) hfirst).bind ?_
    rintro c rfl
    split
    next hc =>
      -- the byte at `s` is not the NUL, which is therefore among the bytes that follow
      cases k with
      | zero =>
        rw [BitVec.add_zero] at hzero
        exact absurd hzero hc.1
      | succ k =>
        have hstep (i : Nat) : s + 1 + BitVec.ofNat 64 i = s + BitVec.ofNat 64 (i + 1) := by
          bv_omega
        refine ih (by rw [hstep]; exact hzero) fun i hi => ?_
        rw [hstep]
        exact h (i + 1) (by omega)
    next => exact .pure trivial

theorem findFile_within {p : List Byte}
    (h : ∀ file ∈ files, Within P (strEq mem file.name p) fun _ => True) :
    Within P (findFile mem p files) fun found => ∀ file, found = some file → file ∈ files := by
  induction files with
  | nil =>
    refine .pure ?_
    rintro _ ⟨⟩
  | cons file files ih =>
    refine (h file List.mem_cons_self).bind fun eq _ => ?_
    split
    next =>
      refine .pure ?_
      rintro _ ⟨⟩
      exact List.mem_cons_self
    next =>
      intro reads hreads
      obtain ⟨hreads', hfound⟩ := ih (fun f hf => h f (List.mem_cons_of_mem _ hf)) reads hreads
      exact ⟨hreads', fun f hf => List.mem_cons_of_mem _ (hfound f hf)⟩

theorem readFileAt_within (h : ∀ file ∈ files, a.Encloses file) (path : List Byte)
    (offset bufferSize : Word) :
    Within a.Contains (readFileAt a.mem files path offset bufferSize) fun _ => True := by
  have hnames : ∀ file ∈ files,
      Within a.Contains (strEq a.mem file.name (stripSlash path)) fun _ => True := by
    intro file hfile
    obtain ⟨-, ⟨k, hzero, hname⟩, -⟩ := h file hfile
    refine strEq_within _ hzero fun i hi j hj => ?_
    obtain rfl : j = 0 := by omega
    rw [BitVec.add_zero]
    exact hname i (by omega)
  refine (findFile_within hnames).bind fun found hfound => ?_
  cases found with
  | none => exact .pure trivial
  | some file =>
    dsimp only
    split
    next => exact .pure trivial
    next hoffset =>
      obtain ⟨-, -, hdata⟩ := h file (hfound file rfl)
      obtain ⟨hle, -⟩ := readCount_spec bufferSize hoffset
      refine (Within.read (fun _ => rfl) ?_).bind fun _ _ => .pure trivial
      intro k hk
      have hat := hdata (offset.toNat + k) (by omega)
      rwa [BitVec.ofNat_add, BitVec.ofNat_toNat, BitVec.setWidth_eq, ← BitVec.add_assoc] at hat

end Look

/-- Which archives keep the registered files, and the reads of files, inside. -/
theorem archive_enclosed_iff {a : Archive} (hbase : a.base ≠ 0) :
    ((∀ file ∈ initramfsInit a, a.Encloses file) ∧
      ∀ path offset bufferSize, ∀ r ∈ initramfsReads a path offset bufferSize,
        a.Contains r.1 r.2) ↔
      ∀ off ∈ a.fileHeaders, a.IsWhole off := by
  have hfiles : (∀ file ∈ initramfsInit a, a.Encloses file) ↔
      ∀ off ∈ a.fileHeaders, a.IsWhole off := by
    rw [initramfsInit_eq hbase, List.forall_mem_map]
    refine forall₂_congr fun off hoff => encloses_fileAt_iff ?_
    exact hasHeader_of_mem (List.mem_of_mem_filter (List.mem_of_mem_take hoff))
  rw [← hfiles]
  refine and_iff_left_of_imp fun h path offset bufferSize => ?_
  exact (Look.readFileAt_within h path offset bufferSize [] (by simp)).1

/-- The header of a file `a` of one byte, and zeros behind it. -/
def oneByteFile (x : Word) : Byte :=
  let i := (x - 0x100000).toNat
  if i = 0 then 0x61
  else if i = 134 then 0x31
  else if 124 ≤ i ∧ i < 134 ∨ i = 156 then 0x30
  else 0

def wholeArchive : Archive where
  mem := oneByteFile
  base := 0x100000
  size := 1024
  inside := by decide

/-- An archive that ends with the header. -/
def cutArchive : Archive where
  mem := oneByteFile
  base := 0x100000
  size := 512
  inside := by decide

theorem archive_enclosed_wholeArchive :
    wholeArchive.fileHeaders = [0] ∧
      ∀ path offset bufferSize, ∀ r ∈ initramfsReads wholeArchive path offset bufferSize,
        wholeArchive.Contains r.1 r.2 := by
  have hheaders : wholeArchive.fileHeaders = [0] := by decide +kernel
  refine ⟨hheaders, ((archive_enclosed_iff (a := wholeArchive) (by decide)).mpr fun off hoff => ?_).2⟩
  rw [hheaders, List.mem_singleton] at hoff
  subst hoff
  exact ⟨by decide +kernel, 1, by decide, by decide +kernel⟩

theorem cutArchive_escapes :
    initramfsInit cutArchive = [⟨0x100000, 0x100200, 1, 1⟩] ∧
      (0x100200, 1) ∈ initramfsReads cutArchive [slash, 0x61] 0 1 ∧
      ¬ cutArchive.Contains 0x100200 1 := by
  refine ⟨by decide +kernel, by decide +kernel, fun h => ?_⟩
  exact absurd (h 0 (by decide)).2 (by decide)

/-! ## Names and contents -/

/-- The string at `p`. -/
def IsString (mem : Mem) : Word → List Byte → Prop
  | p, [] => mem p = 0
  | p, b :: s => mem p = b ∧ b ≠ 0 ∧ IsString mem (p + 1) s

/-- The file of `OreOS.Kernel.Vfs` that an entry of `files` stands for. -/
def Initramfs.File.Shows (mem : Mem) (file : Initramfs.File) (f : InitramfsFile) : Prop :=
  IsString mem file.name f.name ∧ f.data = (fun i => mem (file.data + i)) ∧ f.size = file.size ∧
    f.type = file.type

theorem Look.strEq_eq {p : Word} {s : List Byte} (h : IsString mem p s) {path : List Byte}
    (hpath : 0 ∉ path) (reads : Reads) :
    (Look.strEq mem p path reads).1 = Kernel.strEq s path := by
  induction path generalizing p s reads with
  | nil =>
    cases s with
    | nil => exact decide_eq_true h
    | cons b s => exact decide_eq_false (h.1 ▸ h.2.1)
  | cons c path ih =>
    obtain ⟨hc, hpath⟩ := not_or.mp (mt List.mem_cons.mpr hpath)
    have hstep : Look.strEq mem p (c :: path) reads =
        (if mem p ≠ 0 ∧ c ≠ 0 ∧ mem p = c then Look.strEq mem (p + 1) path
          else pure (decide (mem p = c))) ((p, 1) :: reads) := rfl
    rw [hstep]
    cases s with
    | nil =>
      rw [if_neg fun hif => hif.1 h, show mem p = 0 from h]
      exact decide_eq_false hc
    | cons b s =>
      obtain ⟨rfl, hb, hs⟩ := h
      by_cases heq : mem p = c
      · rw [if_pos ⟨hb, heq ▸ hb, heq⟩, ih hs hpath, Kernel.strEq, beq_iff_eq.mpr heq, Bool.true_and]
      · rw [if_neg fun hif => heq hif.2.2, Kernel.strEq, beq_eq_false_iff_ne.mpr heq, Bool.false_and]
        exact decide_eq_false heq

/-- The two lookups find the same file. -/
theorem Look.findFile_eq {vfiles : List InitramfsFile}
    (h : List.Forall₂ (Initramfs.File.Shows mem) files vfiles) {path : List Byte}
    (hpath : 0 ∉ path) (reads : Reads) :
    Option.Rel (Initramfs.File.Shows mem) (Look.findFile mem path files reads).1
      (vfiles.find? fun f => Kernel.strEq f.name path) := by
  induction h generalizing reads with
  | nil => exact .none
  | @cons file f files vfiles hfile _ ih =>
    have hstep : Look.findFile mem path (file :: files) reads =
        (if (Look.strEq mem file.name path reads).1 then pure (some file)
          else Look.findFile mem path files) (Look.strEq mem file.name path reads).2 := rfl
    rw [hstep, Look.strEq_eq hfile.1 hpath, List.find?_cons]
    cases Kernel.strEq f.name path with
    | true => exact .some hfile
    | false => exact ih _

/-- What `vfs_read_file_at` answers with the reads on record is what it answers on the files as
names and contents. -/
theorem Look.readFileAt_eq {v : Vfs} {path : List Byte} (hmounted : v.mounted = true)
    (hdisk : v.onDisk path = none) (hpath : 0 ∉ path)
    (hfiles : List.Forall₂ (Initramfs.File.Shows mem) files v.files) (root : Option BlockDevice)
    (env : ReadEnv) (offset bufferSize : Word) (reads : Reads) :
    (Look.readFileAt mem files path offset bufferSize reads).1 =
      v.readFileAt root env path offset bufferSize := by
  have hslash : 0 ∉ stripSlash path := by
    unfold stripSlash
    split
    · exact fun h => hpath (List.mem_of_mem_tail h)
    · exact hpath
  have hfound := findFile_eq hfiles hslash reads
  rw [Vfs.readFileAt, if_neg (by rw [hmounted]; decide), hdisk]
  dsimp only [Look.readFileAt, bind, StateT.bind, Look.initramfsLookupRaw, Kernel.initramfsLookupRaw]
  generalize findFile mem (stripSlash path) files reads = looked at hfound
  obtain ⟨found, reads'⟩ := looked
  generalize v.files.find? _ = vfound at hfound ⊢
  cases hfound with
  | none => rfl
  | @some file f hfile =>
    obtain ⟨-, hdata, hsize, -⟩ := hfile
    dsimp only
    rw [readInitramfsFile, hdata, hsize]
    split
    next => rfl
    next =>
      simp only [← BitVec.add_assoc]
      rfl

theorem exists_isString {p : Word} (n : Nat) (h : mem (p + BitVec.ofNat 64 n) = 0) :
    ∃ s, IsString mem p s := by
  induction n generalizing p with
  | zero => exact ⟨[], by rwa [BitVec.add_zero] at h⟩
  | succ n ih =>
    by_cases hp : mem p = 0
    · exact ⟨[], hp⟩
    · obtain ⟨s, hs⟩ := ih (p := p + 1) (by rwa [BitVec.ofNat_add, BitVec.add_comm (BitVec.ofNat 64 n),
        ← BitVec.add_assoc] at h)
      exact ⟨mem p :: s, rfl, hp, hs⟩

/-- Files that are inside the archive have names and contents. -/
theorem exists_shown (h : ∀ file ∈ files, a.Encloses file) :
    ∃ vfiles, List.Forall₂ (Initramfs.File.Shows a.mem) files vfiles := by
  induction files with
  | nil => exact ⟨[], .nil⟩
  | cons file files ih =>
    obtain ⟨hfile, hrest⟩ := List.forall_mem_cons.mp h
    obtain ⟨-, ⟨n, hzero, -⟩, -⟩ := hfile
    obtain ⟨name, hname⟩ := exists_isString n hzero
    obtain ⟨vfiles, hall⟩ := ih hrest
    exact ⟨⟨name, fun i => a.mem (file.data + i), file.size, file.type⟩ :: vfiles,
      .cons ⟨hname, rfl, rfl, rfl⟩ hall⟩

end OreOS.Kernel
