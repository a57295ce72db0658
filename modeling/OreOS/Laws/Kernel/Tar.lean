import OreOS.Lib.Buffer
import OreOS.Laws.Kernel.Initramfs

/-!
# Archives of files

A tar archive is a sequence of records, each a header of 512 bytes and contents
that are filled up to blocks of 512, and ends with a block of zeros. `Tar files bytes`
says that `bytes` is such an archive of `files`, with directories anywhere between
them; the bytes of a header that `initramfs_init` does not look at are free.

From the header of a record the walk gets to the next one, so it sees the files of
the archive in their order (`fileHeaders_tar`).
-/

namespace OreOS.Kernel

open OreOS.Lib (Word Byte Mem Buf)
open OreOS.Lib.Buf (Holds)
open Initramfs Archive

/-! ## The format -/

/-- `n` octal digits of a number, the highest first. -/
def octalDigits : Nat → Nat → List Byte
  | 0, _ => []
  | n + 1, v => octalDigits n (v / 8) ++ [BitVec.ofNat 8 (48 + v % 8)]

/-- The field for a size: eleven digits and a NUL. -/
def sizeField (size : Nat) : List Byte :=
  octalDigits 11 size ++ [0]

/-- A header, as far as its size and its type are concerned. -/
structure IsHeader (hdr : List Byte) (size : Nat) : Prop where
  length : hdr.length = 512
  size : sizeField size <+: hdr.drop 124

/-- The header of a directory. -/
structure IsDirHeader (hdr : List Byte) : Prop extends IsHeader hdr 0 where
  typeflag : hdr[156]? = some 0x35

/-- The header of a file. -/
structure IsFileHeader (hdr name : List Byte) (size : Nat) : Prop extends IsHeader hdr size where
  name : name ++ [0] <+: hdr
  typeflag : hdr[156]? ≠ some 0x35

/-- A file that a record can hold. -/
structure TarFile where
  name : List Byte
  content : List Byte
  name_pos : 1 ≤ name.length
  name_le : name.length ≤ 99
  name_ne : ∀ b ∈ name, b ≠ 0
  size_lt : content.length < 8 ^ 11

/-- The archives of a list of files. -/
inductive Tar : List TarFile → List Byte → Prop
  | stop (rest : List Byte) : Tar [] (List.replicate 512 0 ++ rest)
  | dir {hdr bytes : List Byte} {files : List TarFile} (hhdr : IsDirHeader hdr)
      (htar : Tar files bytes) : Tar files (hdr ++ bytes)
  | file {hdr padding bytes : List Byte} {file : TarFile} {files : List TarFile}
      (hhdr : IsFileHeader hdr file.name file.content.length)
      (hpadding : file.content.length + padding.length = (file.content.length + 511) / 512 * 512)
      (htar : Tar files bytes) : Tar (file :: files) (hdr ++ (file.content ++ (padding ++ bytes)))

/-- The entry of `files` gives the file back. -/
structure Recovers (mem : Mem) (file : TarFile) (entry : File) : Prop where
  name : IsString mem entry.name file.name
  size : entry.size.toNat = file.content.length
  content : ∀ i, (h : i < file.content.length) →
    mem (entry.data + BitVec.ofNat 64 i) = file.content[i]

/-! ## Headers in memory -/

variable {a : Archive} {off : Nat} {hdr bytes : List Byte}

theorem length_octalDigits (n v : Nat) : (octalDigits n v).length = n := by
  induction n generalizing v with
  | zero => rfl
  | succ n ih => rw [octalDigits, List.length_append, ih]; rfl

theorem parseOctal_octalDigits {s n v : Nat} (hn : n ≤ 20) (hv : v < 8 ^ n)
    (h : Holds a.byte s (octalDigits n v)) :
    (parseOctal a.mem (a.base + BitVec.ofNat 64 s) n).toNat = v := by
  induction n generalizing v with
  | zero =>
    rw [Nat.pow_zero, Nat.lt_one_iff] at hv
    rw [hv]
    rfl
  | succ n ih =>
    obtain ⟨hhigh, hlow⟩ := OreOS.Lib.Buf.holds_append.mp h
    rw [length_octalDigits] at hlow
    have hdigit : a.mem (a.base + BitVec.ofNat 64 s + BitVec.ofNat 64 n) =
        BitVec.ofNat 8 (48 + v % 8) := by
      rw [add_at]
      exact hlow 0 Nat.one_pos
    have hv8 : v / 8 < 8 ^ n := by omega
    have hrest := ih (by omega) hv8 hhigh
    have hpow : 8 ^ n ≤ 2 ^ 57 := by
      rw [show (2 : Nat) ^ 57 = 8 ^ 19 by decide]
      exact Nat.pow_le_pow_right (by decide) (by omega)
    have hbyte : (BitVec.ofNat 8 (48 + v % 8)).toNat = 48 + v % 8 := by bv_omega
    have hoctal : BitVec.ofNat 8 (48 + v % 8) ≥ 0x30 ∧ BitVec.ofNat 8 (48 + v % 8) ≤ 0x37 := by
      bv_omega
    obtain ⟨hval, -⟩ := toNat_octalDigit hoctal
    rw [parseOctal_succ, hdigit, if_pos hoctal, toNat_shift_add_digit (by omega) (by omega), hrest, hval]
    omega

theorem holds_of_isStart {b : Buf} {s : Nat} {p bs : List Byte} (hp : p <+: bs) (h : Holds b s bs) :
    Holds b s p := by
  obtain ⟨rest, rfl⟩ := hp
  exact (OreOS.Lib.Buf.holds_append.mp h).1

theorem holds_drop {b : Buf} {s k : Nat} {bs : List Byte} (hk : k ≤ bs.length) (h : Holds b s bs) :
    Holds b (s + k) (bs.drop k) := by
  rw [← List.take_append_drop k bs] at h
  have hdrop := (OreOS.Lib.Buf.holds_append.mp h).2
  rwa [List.length_take, Nat.min_eq_left hk] at hdrop

theorem sizeAt_of_header {size : Nat} (hhdr : IsHeader hdr size) (hsize : size < 8 ^ 11)
    (h : Holds a.byte off hdr) : (a.sizeAt off).toNat = size := by
  have hfield := holds_of_isStart hhdr.size (holds_drop (k := 124) (by rw [hhdr.length]; decide) h)
  obtain ⟨hdigits, hnul⟩ := OreOS.Lib.Buf.holds_append.mp hfield
  have hbyte : a.mem (a.base + BitVec.ofNat 64 (off + 124) + BitVec.ofNat 64 11) = 0 := by
    rw [add_at]
    have hlast := hnul 0 Nat.one_pos
    rwa [length_octalDigits] at hlast
  have haddr : a.base + BitVec.ofNat 64 off + 124 = a.base + BitVec.ofNat 64 (off + 124) :=
    add_at a off 124
  rw [sizeAt, haddr, parseOctal_succ, hbyte, if_neg (by decide)]
  exact parseOctal_octalDigits (by decide) hsize hdigits

theorem nextHeader_of_header {size : Nat} (hhdr : IsHeader hdr size) (hsize : size < 8 ^ 11)
    (h : Holds a.byte off hdr) :
    a.nextHeader off = off + hdr.length + (size + 511) / 512 * 512 := by
  rw [nextHeader, sizeAt_of_header hhdr hsize h, hhdr.length]

theorem blockEmpty_eq_false {k : Nat} (hk : k < 512) (h : a.byte (off + k) ≠ 0) :
    blockEmpty a.mem (a.base + BitVec.ofNat 64 off) = false := by
  rw [blockEmpty, List.all_eq_false]
  refine ⟨k, List.mem_range.mpr hk, ?_⟩
  rw [add_at]
  exact fun heq => h (beq_iff_eq.mp heq)

theorem blockEmpty_of_zeros {rest : List Byte} (h : Holds a.byte off (List.replicate 512 0 ++ rest)) :
    blockEmpty a.mem (a.base + BitVec.ofNat 64 off) = true := by
  have hzeros := (OreOS.Lib.Buf.holds_append.mp h).1
  rw [blockEmpty, List.all_eq_true]
  intro k hk
  rw [add_at]
  have hbyte := hzeros k (by rw [List.length_replicate]; exact List.mem_range.mp hk)
  rw [List.getElem_replicate] at hbyte
  exact beq_iff_eq.mpr hbyte

theorem isString_of_holds {name : List Byte} (hname : ∀ b ∈ name, b ≠ 0)
    (h : Holds a.byte off (name ++ [0])) :
    IsString a.mem (a.base + BitVec.ofNat 64 off) name := by
  induction name generalizing off with
  | nil => exact h 0 Nat.one_pos
  | cons b name ih =>
    rw [List.forall_mem_cons] at hname
    have hall : Holds a.byte off ([b] ++ (name ++ [0])) := h
    have hrest := (OreOS.Lib.Buf.holds_append.mp hall).2
    refine ⟨h 0 (Nat.succ_pos _), hname.1, ?_⟩
    have hnext := ih hname.2 hrest
    rwa [← add_at] at hnext

/-! ## Walking over an archive -/

/-- The header of a file is registered as that file. -/
theorem recovers_fileAt {file : TarFile} {padding : List Byte}
    (hhdr : IsFileHeader hdr file.name file.content.length)
    (h : Holds a.byte off (hdr ++ (file.content ++ padding))) :
    Recovers a.mem file (a.fileAt off) := by
  obtain ⟨hholds, hrest⟩ := OreOS.Lib.Buf.holds_append.mp h
  obtain ⟨hcontent, -⟩ := OreOS.Lib.Buf.holds_append.mp hrest
  refine ⟨isString_of_holds file.name_ne (holds_of_isStart hhdr.name hholds),
    sizeAt_of_header hhdr.toIsHeader file.size_lt hholds, fun i hi => ?_⟩
  rw [hhdr.length] at hcontent
  show a.mem (a.base + BitVec.ofNat 64 (off + 512) + BitVec.ofNat 64 i) = _
  rw [add_at]
  exact hcontent i hi

theorem byte_of_holds {k : Nat} (h : Holds a.byte off hdr) (hk : k < hdr.length) :
    hdr[k]? = some (a.byte (off + k)) := by
  rw [List.getElem?_eq_getElem hk, h k hk]

/-- The files of an archive, in their order, are the files of the headers. -/
theorem fileHeaders_tar {files : List TarFile} (htar : Tar files bytes) {n : Nat}
    (h : Holds a.byte off bytes) (hend : off + bytes.length = a.size.toNat)
    (hn : bytes.length < n * 512) :
    List.Forall₂ (Recovers a.mem) files (((a.headersFrom n off).filter a.IsFile).map a.fileAt) := by
  induction htar generalizing n off with
  | stop rest =>
    have hnone : a.headersFrom n off = [] := by
      cases n with
      | zero => rfl
      | succ n =>
        rw [headersFrom, if_neg]
        rintro ⟨-, hempty⟩
        rw [blockEmpty_of_zeros h] at hempty
        cases hempty
    rw [hnone]
    exact .nil
  | @dir hdr bytes files hhdr htar ih =>
    obtain ⟨hholds, hrest⟩ := OreOS.Lib.Buf.holds_append.mp h
    have hlen := hhdr.length
    rw [List.length_append] at hend hn
    have htype : a.byte (off + 156) = 0x35 := by
      have hbyte := byte_of_holds (k := 156) hholds (by omega)
      rw [hhdr.typeflag] at hbyte
      exact (Option.some.inj hbyte).symm
    have hheader : a.HasHeader off :=
      ⟨by omega, blockEmpty_eq_false (k := 156) (by decide) (by rw [htype]; decide)⟩
    obtain ⟨n, rfl⟩ : ∃ m, n = m + 1 := ⟨n - 1, by omega⟩
    rw [headersFrom, if_pos hheader, List.filter_cons_of_neg (by simp [IsFile, htype]),
      nextHeader_of_header hhdr.toIsHeader (by decide) hholds]
    exact ih hrest (by omega) (by omega)
  | @file hdr padding bytes file files hhdr hpadding htar ih =>
    obtain ⟨hholds, hrest⟩ := OreOS.Lib.Buf.holds_append.mp h
    obtain ⟨-, hbehind⟩ := OreOS.Lib.Buf.holds_append.mp hrest
    obtain ⟨-, hbytes⟩ := OreOS.Lib.Buf.holds_append.mp hbehind
    have hlen := hhdr.length
    simp only [List.length_append] at hend hn
    have hfile : a.IsFile off := by
      constructor
      · have hname := holds_of_isStart hhdr.name hholds
        have hfirst := (OreOS.Lib.Buf.holds_append.mp hname).1 0 file.name_pos
        change a.byte off = _ at hfirst
        rw [hfirst]
        exact file.name_ne _ (List.getElem_mem _)
      · intro htype
        have hbyte := byte_of_holds (k := 156) hholds (by omega)
        rw [htype] at hbyte
        exact hhdr.typeflag hbyte
    have hheader : a.HasHeader off := ⟨by omega, blockEmpty_eq_false (k := 0) (by decide) hfile.1⟩
    obtain ⟨n, rfl⟩ : ∃ m, n = m + 1 := ⟨n - 1, by omega⟩
    rw [headersFrom, if_pos hheader, List.filter_cons_of_pos (by simpa using hfile), List.map_cons,
      nextHeader_of_header hhdr.toIsHeader file.size_lt hholds, ← hpadding, ← Nat.add_assoc]
    exact .cons (recovers_fileAt hhdr h) (ih hbytes (by omega) (by omega))

/-- `initramfs_init` recovers the files of an archive. -/
theorem initramfsInit_tar {files : List TarFile} (htar : Tar files bytes) (hfiles : files.length ≤ 64)
    {a : Archive} (hbase : a.base ≠ 0) (hsize : a.size.toNat = bytes.length)
    (hbytes : ∀ i, (h : i < bytes.length) → a.mem (a.base + BitVec.ofNat 64 i) = bytes[i]) :
    List.Forall₂ (Recovers a.mem) files (initramfsInit a) := by
  have hholds : Holds a.byte 0 bytes := by
    intro i hi
    rw [Nat.zero_add]
    exact hbytes i hi
  have hall := fileHeaders_tar (n := a.size.toNat / 512 + 1) htar hholds (by omega) (by omega)
  have hcount := hall.length_eq
  rw [List.length_map] at hcount
  rw [initramfsInit_eq hbase, fileHeaders,
    List.take_of_length_le (by rw [headers, ← hcount]; exact hfiles)]
  exact hall

/-- A header of a name of one byte. -/
def smallHeader (name : Byte) (size : Nat) (typeflag : Byte) : List Byte :=
  [name] ++ List.replicate 123 0 ++ sizeField size ++ List.replicate 20 0 ++ [typeflag] ++
    List.replicate 355 0

def smallFile : TarFile where
  name := [0x61]
  content := [0x78, 0x0a]
  name_pos := by decide
  name_le := by decide
  name_ne := by decide
  size_lt := by decide

/-- A directory `d` and a file `a`. -/
def smallTar : List Byte :=
  smallHeader 0x64 0 0x35 ++
    (smallHeader 0x61 2 0x30 ++
      (smallFile.content ++ (List.replicate 510 0 ++ (List.replicate 512 0 ++ []))))

theorem isHeader_smallHeader (name : Byte) (size : Nat) (typeflag : Byte) :
    IsHeader (smallHeader name size typeflag) size ∧
      (smallHeader name size typeflag)[156]? = some typeflag := by
  have hlen := length_octalDigits 11 size
  refine ⟨⟨?_, ?_⟩, ?_⟩
  · simp [smallHeader, sizeField, hlen, -List.reduceReplicate]
  · simp [smallHeader, -List.reduceReplicate]
  · simp [smallHeader, sizeField, hlen, -List.reduceReplicate]

theorem tar_smallTar : Tar [smallFile] smallTar := by
  obtain ⟨hdir, hdirtype⟩ := isHeader_smallHeader 0x64 0 0x35
  obtain ⟨hfile, hfiletype⟩ := isHeader_smallHeader 0x61 2 0x30
  refine .dir ⟨hdir, hdirtype⟩ (.file ⟨hfile, ?_, ?_⟩ ?_ (.stop []))
  · exact ⟨List.replicate 122 0 ++ sizeField 2 ++ List.replicate 20 0 ++ [0x30] ++
      List.replicate 355 0, rfl⟩
  · rw [hfiletype]
    decide
  · rw [List.length_replicate]
    rfl

theorem length_smallTar : smallTar.length = 2048 := by
  simp [smallTar, (isHeader_smallHeader _ _ _).1.length, smallFile, -List.reduceReplicate]

def smallArchive : Archive where
  mem := Mem.write (fun _ => 0) 0x100000 smallTar
  base := 0x100000
  size := 2048
  inside := by decide

theorem initramfsInit_smallTar :
    ∃ entry, initramfsInit smallArchive = [entry] ∧ Recovers smallArchive.mem smallFile entry := by
  have hbytes (i : Nat) (hi : i < smallTar.length) :
      smallArchive.mem (0x100000 + BitVec.ofNat 64 i) = smallTar[i] := by
    have hlt : i < 2 ^ 64 := by
      rw [length_smallTar] at hi
      omega
    show (smallTar[(0x100000 + BitVec.ofNat 64 i - 0x100000 : Word).toNat]?).getD 0 = _
    rw [Mem.toNat_add_ofNat_sub _ hlt, List.getElem?_eq_getElem hi, Option.getD_some]
  have hall := initramfsInit_tar (a := smallArchive) tar_smallTar (by decide) (by decide)
    length_smallTar.symm hbytes
  generalize initramfsInit smallArchive = entries at hall ⊢
  cases hall with
  | cons hfile hrest =>
    cases hrest with
    | nil => exact ⟨_, rfl, hfile⟩

end OreOS.Kernel
