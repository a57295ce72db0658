import OreOS.Kernel.Acpi
import OreOS.Laws.Kernel.Look

/-!
# What `parse_madt` finds

Entries are named by where they begin in the table (`MadtTable.Entries`): the walk
goes from an entry to the one behind it as long as they are well-formed. What the walk
does at an entry is `enter`, and it reads only the entry. The numbers and the
addresses are below 2^63, so that the comparisons of pointers are those of offsets.
-/

namespace OreOS.Kernel

open OreOS.Lib (Word Byte Mem)
open Acpi

/-- A MADT in memory. Boot maps the lower half of the addresses. -/
structure MadtTable where
  mem : Mem
  base : Word
  inside : base.toNat + (mem.load32 (base + 4)).toNat ≤ 2 ^ 63

namespace MadtTable

variable (t : MadtTable)

/-- `header.length`. -/
def length : Nat := (t.mem.load32 (t.base + 4)).toNat

/-- The address of an offset. -/
def addr (off : Nat) : Word := t.base + BitVec.ofNat 64 off

/-- The sum of all bytes. -/
def sum : Byte := ((List.range t.length).map fun i => t.mem (t.addr i)).foldr (· + ·) 0

/-- The bytes of an access are in the table. -/
def Contains (a : Word) (n : Nat) : Prop :=
  t.base.toNat ≤ a.toNat ∧ a.toNat + n ≤ t.base.toNat + t.length

/-! ## Entries -/

def type (off : Nat) : Byte := t.mem (t.addr off)

def len (off : Nat) : Nat := (t.mem (t.addr (off + 1))).toNat

/-- The entry at `off` has a length that is neither below 2 nor past the end. -/
def WellFormed (off : Nat) : Prop :=
  off + 2 ≤ t.length ∧ 2 ≤ t.len off ∧ off + t.len off ≤ t.length

instance (off : Nat) : Decidable (t.WellFormed off) :=
  inferInstanceAs (Decidable (_ ∧ _ ∧ _))

/-- An enabled processor. -/
def IsCpu (off : Nat) : Bool :=
  t.type off = 0 ∧ 8 ≤ t.len off ∧ t.mem.load32 (t.addr (off + 4)) &&& 1 ≠ 0

def apicId (off : Nat) : Byte := t.mem (t.addr (off + 3))

/-- Another address of the controllers. -/
def IsOverride (off : Nat) : Bool :=
  t.type off = 5 ∧ 12 ≤ t.len off

def override (off : Nat) : Word := t.mem.load64 (t.addr (off + 4))

/-- The entries from an offset on, up to the first that is not well-formed. -/
inductive Entries : Nat → List Nat → Prop
  | stop {off : Nat} (h : ¬ t.WellFormed off) : Entries off []
  | entry {off : Nat} {offs : List Nat} (h : t.WellFormed off)
      (hrest : Entries (off + t.len off) offs) : Entries off (off :: offs)

/-- What the walk does at an entry. -/
def enter (cpus : Cpus) (off : Nat) : Cpus :=
  if t.IsCpu off then
    if cpus.apicIds.length < maxCpus then { cpus with apicIds := cpus.apicIds ++ [t.apicId off] }
    else cpus
  else if t.IsOverride off then { cpus with lapicBase := t.override off }
  else cpus

variable {t} {off n : Nat}

/-! ## Addresses -/

theorem length_lt : t.length < 2 ^ 32 :=
  (t.mem.load32 (t.base + 4)).isLt

theorem toNat_addr (h : off < 2 ^ 33) : (t.addr off).toNat = t.base.toNat + off := by
  have hinside : t.base.toNat + t.length ≤ 2 ^ 63 := t.inside
  rw [addr, BitVec.toNat_add, BitVec.toNat_ofNat]
  omega

theorem addr_add (off k : Nat) : t.addr (off + k) = t.addr off + BitVec.ofNat 64 k := by
  rw [addr, addr, BitVec.ofNat_add, ← BitVec.add_assoc]

theorem contains_addr (h : off + n ≤ t.length) : t.Contains (t.addr off) n := by
  have hlt : t.length < 2 ^ 32 := length_lt
  rw [Contains, toNat_addr (by omega)]
  omega

theorem contains_addr_add (k : Nat) (h : off + k + n ≤ t.length) :
    t.Contains (t.addr off + BitVec.ofNat 64 k) n := by
  rw [← addr_add]
  exact contains_addr h

/-! ## The sum -/

open Look (Within)

theorem checksumLoop_within {i : Nat} (h : i + n ≤ t.length) (sum : Byte) :
    Within t.Contains (Look.checksumLoop t.mem t.base n i sum)
      (· = sum + ((List.range' i n).map fun i => t.mem (t.addr i)).foldr (· + ·) 0) := by
  induction n generalizing i sum with
  | zero => exact .pure (BitVec.add_zero sum).symm
  | succ n ih =>
    refine (Look.within_byte (contains_addr (by omega))).bind_eq ?_
    rw [List.range'_succ, List.map_cons, List.foldr_cons, ← BitVec.add_assoc]
    exact ih (by omega) _

theorem checksum_within :
    Within t.Contains (Look.checksum t.mem t.base (t.mem.load32 (t.base + 4))) (· = t.sum) := by
  have hsum : t.sum = 0 + ((List.range' 0 t.length).map fun i => t.mem (t.addr i)).foldr (· + ·) 0 := by
    rw [sum, List.range_eq_range']
    exact (BitVec.zero_add _).symm
  rw [hsum]
  exact checksumLoop_within (Nat.le_of_eq (Nat.zero_add t.length)) 0

/-! ## The walk -/

theorem len_eq (t : MadtTable) (off : Nat) : t.len off = (t.mem (t.addr off + 1)).toNat := by
  rw [len, addr_add]
  rfl

theorem addr_two_le_iff (h : off ≤ t.length) :
    t.addr off + 2 ≤ t.addr t.length ↔ off + 2 ≤ t.length := by
  have hlength : t.length < 2 ^ 32 := length_lt
  have htwo : t.addr off + 2 = t.addr (off + 2) := (addr_add off 2).symm
  rw [BitVec.le_def, htwo, toNat_addr (by omega), toNat_addr (by omega)]
  omega

theorem addr_next (off : Nat) :
    t.addr off + (t.mem (t.addr off + 1)).setWidth 64 = t.addr (off + t.len off) := by
  rw [addr_add, len_eq, BitVec.ofNat_toNat]

theorem length_check_iff (h : off ≤ t.length) :
    (t.mem (t.addr off + 1) < 2 ∨
        t.addr off + (t.mem (t.addr off + 1)).setWidth 64 > t.addr t.length) ↔
      t.len off < 2 ∨ t.length < off + t.len off := by
  have hlength : t.length < 2 ^ 32 := length_lt
  have hbyte : t.len off < 2 ^ 8 := (t.mem (t.addr (off + 1))).isLt
  rw [addr_next, gt_iff_lt, BitVec.lt_def, BitVec.lt_def, toNat_addr (by omega),
    toNat_addr (by omega), ← len_eq, Nat.add_lt_add_iff_left]
  rfl

theorem parseEntry_within (h : t.WellFormed off) (cpus : Cpus) :
    Within t.Contains
      (Look.parseEntry t.mem (t.addr off) (t.mem (t.addr off)) (t.mem (t.addr off + 1)) cpus)
      (· = t.enter cpus off) := by
  obtain ⟨-, -, hend⟩ := h
  have hlen := t.len_eq off
  unfold Look.parseEntry enter
  by_cases hcpu : t.mem (t.addr off) = 0 ∧ t.mem (t.addr off + 1) ≥ 8
  · have height : 8 ≤ t.len off := by bv_omega
    have hcpuIff : t.IsCpu off = true ↔ t.mem.load32 (t.addr off + 4) &&& 1 ≠ 0 := by
      rw [IsCpu, decide_eq_true_iff, addr_add]
      exact ⟨fun h => h.2.2, fun h => ⟨hcpu.1, height, h⟩⟩
    have hover : t.IsOverride off = false := by
      rw [IsOverride, decide_eq_false_iff_not]
      rintro ⟨htype, -⟩
      exact absurd (hcpu.1.symm.trans htype) (by decide)
    rw [if_pos hcpu]
    have hid : t.Contains (t.addr off + 3) 1 := contains_addr_add 3 (by omega)
    have hflags : t.Contains (t.addr off + 4) 4 := contains_addr_add 4 (by omega)
    refine (Look.within_byte hid).bind_eq ?_
    refine (Look.within_word32 hflags).bind_eq ?_
    by_cases hflag : t.mem.load32 (t.addr off + 4) &&& 1 ≠ 0
    · rw [if_pos (hcpuIff.mpr hflag)]
      by_cases hroom : cpus.apicIds.length < maxCpus
      · rw [if_pos ⟨hflag, hroom⟩, if_pos hroom, apicId, addr_add]
        exact .pure rfl
      · rw [if_neg fun h => hroom h.2, if_neg hroom]
        exact .pure rfl
    · rw [if_neg fun h => hflag h.1, if_neg fun h => hflag (hcpuIff.mp h), hover]
      exact .pure rfl
  · have hnone : t.IsCpu off = false := by
      rw [IsCpu, decide_eq_false_iff_not]
      rintro ⟨htype, height, -⟩
      exact hcpu ⟨htype, BitVec.le_def.mpr (hlen ▸ height)⟩
    have hover : t.IsOverride off = true ↔
        t.mem (t.addr off) = 5 ∧ t.mem (t.addr off + 1) ≥ 12 := by
      rw [IsOverride, decide_eq_true_iff, hlen]
      exact and_congr_right fun _ => (BitVec.le_def (x := (12 : Byte))).symm
    rw [if_neg hcpu, hnone, if_neg Bool.false_ne_true]
    by_cases hoverride : t.mem (t.addr off) = 5 ∧ t.mem (t.addr off + 1) ≥ 12
    · have htwelve : 12 ≤ t.len off := by bv_omega
      rw [if_pos hoverride, if_pos (hover.mpr hoverride)]
      have hbase : t.Contains (t.addr off + 4) 8 := contains_addr_add 4 (by omega)
      refine (Look.within_word64 hbase).bind_eq ?_
      rw [override, addr_add]
      exact .pure rfl
    · rw [if_neg hoverride, if_neg fun h => hoverride (hover.mp h)]
      exact .pure rfl

theorem parseEntries_within {offs : List Nat} (h : t.Entries off offs) (hoff : off ≤ t.length)
    (hrounds : offs.length < n) (cpus : Cpus) :
    Within t.Contains (Look.parseEntries t.mem (t.addr t.length) n (t.addr off) cpus)
      (· = some (offs.foldl t.enter cpus)) := by
  induction h generalizing n cpus with
  | @stop off h =>
    obtain ⟨n, rfl⟩ : ∃ m, n = m + 1 := ⟨n - 1, by omega⟩
    unfold Look.parseEntries
    by_cases hfirst : off + 2 ≤ t.length
    · rw [if_pos ((addr_two_le_iff hoff).mpr hfirst)]
      have hsecond : t.Contains (t.addr off + 1) 1 := contains_addr_add 1 (by omega)
      refine (Look.within_byte (contains_addr (by omega))).bind_eq ?_
      refine (Look.within_byte hsecond).bind_eq ?_
      rw [if_pos ((length_check_iff hoff).mpr ?_)]
      · exact .pure rfl
      · unfold WellFormed at h
        omega
    · rw [if_neg fun h => hfirst ((addr_two_le_iff hoff).mp h)]
      exact .pure rfl
  | @entry off offs h _ ih =>
    obtain ⟨n, rfl⟩ : ∃ m, n = m + 1 := ⟨n - 1, by omega⟩
    obtain ⟨hfirst, hlow, hend⟩ := h
    unfold Look.parseEntries
    rw [if_pos ((addr_two_le_iff hoff).mpr hfirst)]
    have hsecond : t.Contains (t.addr off + 1) 1 := contains_addr_add 1 (by omega)
    refine (Look.within_byte (contains_addr (by omega))).bind_eq ?_
    refine (Look.within_byte hsecond).bind_eq ?_
    rw [if_neg fun h => by have := (length_check_iff hoff).mp h; omega]
    refine (parseEntry_within ⟨hfirst, hlow, hend⟩ cpus).bind_eq ?_
    rw [addr_next]
    exact ih hend (Nat.lt_of_succ_lt_succ hrounds) _

/-- The walk ends: every entry takes two bytes at least. -/
theorem exists_entries (t : MadtTable) (off : Nat) :
    ∃ offs, t.Entries off offs ∧ 2 * offs.length ≤ t.length - off := by
  by_cases hform : t.WellFormed off
  · obtain ⟨hfirst, hlow, hend⟩ := hform
    obtain ⟨offs, hrest, hlength⟩ := exists_entries t (off + t.len off)
    refine ⟨off :: offs, .entry ⟨hfirst, hlow, hend⟩ hrest, ?_⟩
    rw [List.length_cons]
    omega
  · exact ⟨[], .stop hform, Nat.zero_le _⟩
termination_by t.length - off

/-! ## What is entered -/

theorem apicIds_foldl (offs : List Nat) {cpus : Cpus} (h : cpus.apicIds.length ≤ maxCpus) :
    (offs.foldl t.enter cpus).apicIds =
      (cpus.apicIds ++ (offs.filter t.IsCpu).map t.apicId).take maxCpus := by
  induction offs generalizing cpus with
  | nil => rw [List.filter_nil, List.map_nil, List.append_nil, List.take_of_length_le h, List.foldl_nil]
  | cons off offs ih =>
    rw [List.foldl_cons]
    by_cases hcpu : t.IsCpu off = true
    · by_cases hroom : cpus.apicIds.length < maxCpus
      · have henter : t.enter cpus off = { cpus with apicIds := cpus.apicIds ++ [t.apicId off] } := by
          rw [enter, if_pos hcpu, if_pos hroom]
        rw [henter, ih (by rw [List.length_append]; exact hroom), List.filter_cons_of_pos hcpu,
          List.map_cons, List.append_assoc]
        rfl
      · have henter : t.enter cpus off = cpus := by rw [enter, if_pos hcpu, if_neg hroom]
        have hfull : cpus.apicIds.length = maxCpus := by omega
        rw [henter, ih h, ← hfull, List.take_left, List.take_left]
    · have henter : (t.enter cpus off).apicIds = cpus.apicIds := by
        rw [enter, if_neg hcpu]
        split <;> rfl
      rw [ih (by rw [henter]; exact h), henter, List.filter_cons_of_neg hcpu]

theorem lapicBase_foldl (offs : List Nat) (cpus : Cpus) :
    (offs.foldl t.enter cpus).lapicBase =
      ((offs.filter t.IsOverride).getLast?.map t.override).getD cpus.lapicBase := by
  induction offs generalizing cpus with
  | nil => rfl
  | cons off offs ih =>
    rw [List.foldl_cons, ih]
    by_cases hover : t.IsOverride off = true
    · have hcpu : ¬ t.IsCpu off = true := by
        rw [IsCpu, IsOverride, decide_eq_true_iff] at *
        rintro ⟨htype, -⟩
        exact absurd (htype.symm.trans hover.1) (by decide)
      have henter : (t.enter cpus off).lapicBase = t.override off := by
        rw [enter, if_neg hcpu, if_pos hover]
      rw [henter, List.filter_cons_of_pos hover, List.getLast?_cons]
      cases (offs.filter t.IsOverride).getLast? <;> rfl
    · have henter : (t.enter cpus off).lapicBase = cpus.lapicBase := by
        rw [enter]
        split
        next => split <;> rfl
        next => rfl
      rw [henter, List.filter_cons_of_neg hover]

/-- A MADT with a good sum: `parse_madt` ends, reads only the table, and has the
processors and the address of the controllers. -/
theorem parseMadt_table (t : MadtTable) (hlength : sizeofMadt.toNat ≤ t.length) (hsum : t.sum = 0)
    (hrounds : t.length < 2 * n) (base : Word) :
    ∃ offs reads, t.Entries sizeofMadt.toNat offs ∧
      Look.parseMadt t.mem n t.base ⟨[], base⟩ [] =
        (some ⟨((offs.filter t.IsCpu).map t.apicId).take maxCpus,
          ((offs.filter t.IsOverride).getLast?.map t.override).getD
            ((t.mem.load32 (t.base + 36)).setWidth 64)⟩, reads) ∧
      ∀ r ∈ reads, t.Contains r.1 r.2 := by
  have hsize : sizeofMadt.toNat = 44 := rfl
  obtain ⟨offs, hentries, hshort⟩ := exists_entries t sizeofMadt.toNat
  have hheader : t.Contains (t.base + 4) 4 := contains_addr (show 4 + 4 ≤ t.length by omega)
  have haddr : t.Contains (t.base + 36) 4 := contains_addr (show 36 + 4 ≤ t.length by omega)
  have hstop : t.base + (t.mem.load32 (t.base + 4)).setWidth 64 = t.addr t.length := by
    rw [addr, length, BitVec.ofNat_toNat]
  have hwithin : Within t.Contains (Look.parseMadt t.mem n t.base ⟨[], base⟩)
      (· = some (offs.foldl t.enter ⟨[], (t.mem.load32 (t.base + 36)).setWidth 64⟩)) := by
    unfold Look.parseMadt
    refine (Look.within_word32 hheader).bind_eq ?_
    refine checksum_within.bind_eq ?_
    rw [if_neg (not_not_intro hsum)]
    refine (Look.within_word32 haddr).bind_eq ?_
    refine (Look.within_word32 hheader).bind_eq ?_
    have hfew : offs.length < n := by omega
    rw [hstop]
    exact parseEntries_within hentries hlength hfew _
  obtain ⟨hreads, hanswer⟩ := hwithin [] fun r hr => absurd hr List.not_mem_nil
  refine ⟨offs, _, hentries, Prod.ext (hanswer.trans ?_) rfl, hreads⟩
  have hids : (offs.foldl t.enter ⟨[], (t.mem.load32 (t.base + 36)).setWidth 64⟩).apicIds = _ :=
    apicIds_foldl offs (Nat.zero_le _)
  have hbase : (offs.foldl t.enter ⟨[], (t.mem.load32 (t.base + 36)).setWidth 64⟩).lapicBase = _ :=
    lapicBase_foldl offs _
  rw [List.nil_append] at hids
  rw [← hids, ← hbase]

end MadtTable

/-- A table with one processor, number 7. -/
def oneCpu : MadtTable where
  mem a := ([0x41, 0x50, 0x49, 0x43, 52, 0, 0, 0, 1, 192] ++ List.replicate 26 0 ++
    [0, 0, 0xe0, 0xfe, 0, 0, 0, 0] ++ [0, 8, 0, 7, 1, 0, 0, 0]).getD (a - 0x1000).toNat 0
  base := 0x1000
  inside := by decide

theorem parseMadt_oneCpu :
    ∃ reads, Look.parseMadt oneCpu.mem 30 oneCpu.base ⟨[], 0⟩ [] = (some ⟨[7], 0xfee00000⟩, reads) ∧
      ∀ r ∈ reads, oneCpu.Contains r.1 r.2 := by
  obtain ⟨offs, reads, hentries, hrun, hreads⟩ :=
    oneCpu.parseMadt_table (n := 30) (by decide) (by decide) (by decide) 0
  refine ⟨reads, hrun.trans ?_, hreads⟩
  cases hentries with
  | stop h => exact absurd (by decide) h
  | entry _ hrest =>
    cases hrest with
    | stop _ => rfl
    | entry h _ => exact absurd h (by decide)

end OreOS.Kernel
