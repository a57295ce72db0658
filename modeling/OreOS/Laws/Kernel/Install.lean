import OreOS.Kernel.Okmod
import OreOS.Laws.Kernel.Boot
import OreOS.Laws.Kernel.Phys

/-!
# Installing a module

What `okmod_load_one` has done when it calls a module's `init`: the module is in
pages of its own, and these pages carry the flags of two protections
(`prepareModule_apply`). The second one starts in the page in which the text
ends, so it takes that page back from the first.

The copies return exactly if the sizes of the header add up without wrapping
(`OreKModHeader.Adds`).
-/

namespace OreOS.Kernel

open OreOS.Lib (Word Byte Mem Exec)

/-! ## Protection -/

/-- The entry carries the flags. -/
def Flagged (flags : Word) (s : Machine) (r : Frame) (a : Word) : Prop :=
  ∃ e, pte s r a = some (pteValue (e &&& pteAddrMask) flags)

section Protect

variable {r : Frame} {s : Machine} {flags a : Word}

theorem flagged_of_entryFlags (h : (pte s r a).map entryFlags = some (flags ||| vmmPresent)) :
    Flagged flags s r a := by
  obtain ⟨e, he, hflags⟩ := Option.map_eq_some_iff.mp h
  exact ⟨e, he.trans (congrArg some (eq_pteValue hflags))⟩

theorem Flagged.writable (h : Flagged flags s r a) (hflags : flags &&& vmmWrite ≠ 0) :
    Writable s r a := by
  obtain ⟨e, he⟩ := h
  exact ⟨_, he, write_pteValue hflags⟩

theorem Flagged.not_writable (h : Flagged vmmPresent s r a) : ¬ Writable s r a := by
  obtain ⟨e, he⟩ := h
  rintro ⟨e', he', hwrite⟩
  rw [he] at he'
  cases he'
  rw [and_write_ne_zero] at hwrite
  have hmask : pteAddrMask.getLsbD 1 = false := by decide
  have hpresent : vmmPresent.getLsbD 1 = false := by decide
  simp only [pteValue, BitVec.getLsbD_or, BitVec.getLsbD_and, hmask, hpresent] at hwrite
  simp at hwrite

end Protect

/-! ## Sizes -/

namespace OreKModHeader

variable {hdr : OreKModHeader} {size : Word}

/-- The sizes of text, data and bss add up in 64 bits. -/
def Adds (hdr : OreKModHeader) : Prop :=
  hdr.textSize.toNat + hdr.dataSize.toNat + hdr.bssSize.toNat < 2 ^ 64

instance (hdr : OreKModHeader) : Decidable hdr.Adds :=
  inferInstanceAs (Decidable (_ < _))

theorem Adds.total_toNat (h : hdr.Adds) :
    hdr.total.toNat = hdr.textSize.toNat + hdr.dataSize.toNat + hdr.bssSize.toNat := by
  unfold Adds at h
  rw [total, BitVec.toNat_add, BitVec.toNat_add]
  omega

theorem Fits.total_le (h : hdr.Fits size) : hdr.total.toNat ≤ 131072 := h.2.2.2

theorem Fits.text_pos (h : hdr.Fits size) : 0 < hdr.textSize.toNat := by
  have hne := h.1
  rw [Ne, ← BitVec.toNat_inj] at hne
  exact Nat.pos_of_ne_zero hne

theorem pages_toNat (h : hdr.Fits size) : hdr.pages.toNat = (hdr.total.toNat + 4095) / 4096 := by
  have hlimit := h.total_le
  have hsum : (hdr.total + 4096 - 1).toNat = hdr.total.toNat + 4095 := by bv_omega
  rw [pages, BitVec.toNat_setWidth, BitVec.toNat_udiv, hsum, show (4096 : Word).toNat = 4096 from rfl]
  omega

theorem bytes_toNat (hdr : OreKModHeader) : hdr.bytes.toNat = hdr.pages.toNat * 4096 := by
  rw [bytes, BitVec.toNat_mul, BitVec.toNat_setWidth, show (4096 : Word).toNat = 4096 from rfl]
  omega

end OreKModHeader

/-! ## Computations -/

section Compute

variable {s s' : OkState}

theorem onTables_apply {α : Type} (x : Kern α) (s : OkState) :
    onTables x s = ((s.phys.run x).1, { s with phys := (s.phys.run x).2 }) := by
  rw [onTables, Exec.bind_ok (Exec.get_apply s), Exec.bind_ok (Exec.set_apply s _)]
  cases (s.phys.run x).1 with
  | error message => rfl
  | ok a => rfl

theorem onTables_phys {α : Type} {x : Kern α} {res : Except String α}
    (h : onTables x s = (res, s')) : ∃ p, s' = { s with phys := p } := by
  rw [onTables_apply] at h
  exact ⟨_, (congrArg Prod.snd h).symm⟩

theorem fillMem_apply {dst n : Word} {byte : Nat → Byte} (h : dst.toNat + n.toNat ≤ 2 ^ 47) :
    fillMem dst n byte s = (.ok (), { s with
      phys := { s.phys with mem := s.phys.mem.write dst ((List.range n.toNat).map byte) } }) := by
  rw [fillMem, if_pos h]
  rfl

theorem fillMem_ok {dst n : Word} {byte : Nat → Byte}
    (hrun : fillMem dst n byte s = (.ok (), s')) :
    dst.toNat + n.toNat ≤ 2 ^ 47 ∧ ∃ p, s' = { s with phys := p } := by
  unfold fillMem at hrun
  split at hrun
  next hle =>
    cases hrun
    exact ⟨hle, _, rfl⟩
  next => cases hrun

section Place

variable {file : Mem} {hdr : OreKModHeader} {size : Word} {start : Nat}

/-- The copies of a module whose sizes add up go into its own pages. -/
theorem placeModule_apply (hfits : hdr.Fits size) (hadds : hdr.Adds)
    (hstart : start + hdr.pages.toNat ≤ 2 ^ 35) :
    ∃ m, placeModule (pageAddr start) file hdr s =
        (.ok (), { s with phys := { s.phys with mem := m } }) ∧
      ChangesRun start hdr.pages.toNat s.phys.mem m := by
  have hmem := @toNat_pageAddr start (by omega)
  have htotal := hadds.total_toNat
  have hpages := OreKModHeader.pages_toNat hfits
  have hbytes := hdr.bytes_toNat
  have hdata : (pageAddr start + hdr.textSize).toNat =
      start * 4096 + hdr.textSize.toNat := by bv_omega
  have hbss : (pageAddr start + hdr.textSize + hdr.dataSize).toNat =
      start * 4096 + hdr.textSize.toNat + hdr.dataSize.toNat := by bv_omega
  refine ⟨_, (Exec.bind_ok (fillMem_apply ?_)).trans ((Exec.bind_ok (fillMem_apply ?_)).trans
    ((Exec.bind_ok (fillMem_apply ?_)).trans (fillMem_apply ?_))),
    (((changesRun_write ?_ ?_ ?_).trans (changesRun_write ?_ ?_ ?_)).trans
      (changesRun_write ?_ ?_ ?_)).trans (changesRun_write ?_ ?_ ?_)⟩
  all_goals
    try rw [List.length_map, List.length_range]
    omega

theorem placeModule_ok {mem : Word} (hrun : placeModule mem file hdr s = (.ok (), s')) :
    hdr.Adds ∧ mem.toNat + hdr.textSize.toNat ≤ 2 ^ 47 ∧ ∃ p, s' = { s with phys := p } := by
  obtain ⟨_, s₁, h₁, hrun⟩ := Exec.bind_eq_ok hrun
  obtain ⟨_, s₂, h₂, hrun⟩ := Exec.bind_eq_ok hrun
  obtain ⟨_, s₃, h₃, h₄⟩ := Exec.bind_eq_ok hrun
  obtain ⟨hle₁, p₁, rfl⟩ := fillMem_ok h₁
  obtain ⟨hle₂, p₂, rfl⟩ := fillMem_ok h₂
  obtain ⟨hle₃, p₃, rfl⟩ := fillMem_ok h₃
  obtain ⟨hle₄, p₄, rfl⟩ := fillMem_ok h₄
  refine ⟨?_, hle₂, p₄, rfl⟩
  unfold OreKModHeader.Adds
  omega

end Place

end Compute

/-! ## Installing -/

theorem run_same_pool {α : Type} {s : Phys} {x : Kern α}
    (h : (x s.machine).2.pool = s.machine.pool) : (s.run x).2.pmm = s.pmm := by
  rw [machine_pool] at h
  dsimp only [Phys.run]
  rw [h, Nat.sub_self]
  rfl

/-- The tables are the kernel's only. -/
abbrev NoUsers : Frame → Prop := fun _ => False

theorem onTables_protect {k : Frame} {s : OkState} (virt size flags : Word) (first last : Nat)
    (h : Good k s.phys.machine) (hflags : flags &&& pteAddrMask = 0) (hlast : last ≤ 2 ^ 35)
    (hlow : virt.toNat / 4096 = first) (hhigh : (virt.toNat + size.toNat + 4095) / 4096 = last)
    (hall : ∀ q, first ≤ q → q < last → (pte s.phys.machine k (pageAddr q)).isSome) :
    ∃ p, onTables (protectInRoot k virt size flags) s = (.ok 0, { s with phys := p }) ∧
      p.pmm = s.phys.pmm ∧ Good k p.machine ∧
      (∀ q, first ≤ q → q < last → Flagged flags p.machine k (pageAddr q)) ∧
      (∀ q, q < 2 ^ 35 → ¬ (first ≤ q ∧ q < last) →
        pte p.machine k (pageAddr q) = pte s.phys.machine k (pageAddr q)) ∧
      ∀ q, NotTable k NoUsers s.phys.machine q → pageAddr q ∉ freeFrames s.phys.pmm →
        NotTable k NoUsers p.machine q := by
  obtain ⟨hdown, hcount⟩ := range_pageAddr (by omega) hlow hhigh
  obtain ⟨res, m, hrun, hedits, hpool, hres, -, hother, hgiven⟩ := protectPages_spec flags
    (rangePages virt size) h (alignDown virt) (topPages_true _ _)
  have hthere : ∀ j < rangePages virt size,
      (pte s.phys.machine k (roundAddr (alignDown virt) j)).isSome := fun j hj => by
    rw [hdown, roundAddr_pageAddr]
    exact hall (first + j) (by omega) (by omega)
  obtain rfl : res = 0 := hres hflags hthere
  have hin : ∀ q, first ≤ q → q < last →
      ¬ OutsidePages (alignDown virt) (rangePages virt size) (pageAddr q) := by
    intro q hq hq'
    rw [hdown, outsidePages_pageAddr (by omega) (by omega)]
    omega
  rcases hphys : s.phys.run (protectInRoot k virt size flags) with ⟨res, p⟩
  obtain ⟨m', hm', hmachine⟩ := Phys.run_eq hphys
  cases hrun.symm.trans hm'
  have hpmm := run_same_pool (s := s.phys) (x := protectInRoot k virt size flags)
    (by rw [show protectInRoot k virt size flags s.phys.machine = (.ok 0, m) from hrun]; exact hpool)
  rw [hphys] at hpmm
  have hresult : p.machine = { m with trace := [] } := hmachine (by rw [hpool])
  refine ⟨p, ?_, hpmm, ?_, ?_, ?_, ?_⟩
  · rw [onTables_apply, hphys]
  · rw [hresult]
    exact (h.edits hedits).congr rfl rfl
  · intro q hq hq'
    rw [hresult]
    exact flagged_of_entryFlags (hgiven hflags hthere (pageAddr q) (hin q hq hq'))
  · intro q hq hout
    rw [hresult]
    refine hother (pageAddr q) ?_
    rw [hdown, outsidePages_pageAddr (by omega) (by omega)]
    omega
  · intro q hnot hfree g hg r hr
    rw [hresult]
    rintro ⟨path, hpath, hwalk⟩
    obtain rfl := hr.resolve_right id
    rcases h.tables_of_edits hedits ⟨path, hpath, hwalk⟩ with hold | hmem
    · exact hnot g hg r (.inl rfl) hold
    · rw [machine_pool, hg] at hmem
      exact hfree hmem

theorem Flagged.isSome {flags : Word} {m : Machine} {r : Frame} {a : Word}
    (h : Flagged flags m r a) : (pte m r a).isSome := by
  obtain ⟨e, he⟩ := h
  rw [he]
  rfl

theorem flagged_congr {flags : Word} {m m' : Machine} {r : Frame} {a : Word}
    (h : pte m' r a = pte m r a) : Flagged flags m' r a ↔ Flagged flags m r a := by
  rw [Flagged, Flagged, h]

theorem writable_congr {m m' : Machine} {r : Frame} {a : Word} (h : pte m' r a = pte m r a) :
    Writable m' r a ↔ Writable m r a := by
  rw [Writable, Writable, h]

theorem protectData_ok {k mem : Word} {hdr : OreKModHeader} {s s' : OkState}
    (hrun : protectData k mem hdr s = (.ok (), s')) : ∃ p, s' = { s with phys := p } := by
  unfold protectData at hrun
  split at hrun
  next =>
    obtain ⟨_, s₁, hprotect, hrun⟩ := Exec.bind_eq_ok hrun
    cases hrun
    exact onTables_phys hprotect
  next =>
    cases hrun
    exact ⟨_, rfl⟩

/-- The flags of the module's page `i`: the whole pages of its text can only be
read and executed, the others only be read and written. -/
def OreKModHeader.pageFlags (hdr : OreKModHeader) (i : Nat) : Word :=
  if i < hdr.textSize.toNat / 4096 then vmmPresent else vmmPresent ||| vmmWrite ||| vmmNx

/-- A module in the pages from `start` on, under its two protections. -/
structure Installed (k : Frame) (hdr : OreKModHeader) (s p : Phys) (start : Nat) : Prop where
  low : firstPage ≤ start
  high : start + hdr.pages.toNat ≤ s.pmm.totalPageCount.toNat
  clear : ∀ q, start ≤ q → q < start + hdr.pages.toNat → s.pmm.bitmap q = false
  good : Good k p.machine
  total : p.pmm.totalPageCount = s.pmm.totalPageCount
  taken : ∀ q, p.pmm.bitmap q = true ↔
    s.pmm.bitmap q = true ∨ start ≤ q ∧ q < start + hdr.pages.toNat
  notTable : ∀ q, NotTable k NoUsers s.machine q → pageAddr q ∉ freeFrames p.pmm →
    NotTable k NoUsers p.machine q
  others : ∀ q, q < s.pmm.totalPageCount.toNat → ¬ (start ≤ q ∧ q < start + hdr.pages.toNat) →
    pte p.machine k (pageAddr q) = pte s.machine k (pageAddr q)
  flagged : ∀ i, i < hdr.pages.toNat →
    Flagged (hdr.pageFlags i) p.machine k (pageAddr (start + i))

section Install

variable {k : Frame} {s : OkState} {hdr : OreKModHeader} {size : Word} {start : Nat}

theorem protect_installed (s₂ : OkState) (hfits : hdr.Fits size) (hadds : hdr.Adds)
    (hram : s₂.phys.pmm.totalPageCount.toNat ≤ 2 ^ 35)
    (hhigh : start + hdr.pages.toNat ≤ s₂.phys.pmm.totalPageCount.toNat)
    (h : Good k s₂.phys.machine)
    (hpresent : ∀ q, start ≤ q → q < start + hdr.pages.toNat →
      (pte s₂.phys.machine k (pageAddr q)).isSome) :
    ∃ p₃ p, onTables (protectInRoot k (pageAddr start) hdr.textSize vmmPresent) s₂ =
        (.ok 0, { s₂ with phys := p₃ }) ∧
      protectData k (pageAddr start) hdr { s₂ with phys := p₃ } =
        (.ok (), { s₂ with phys := p }) ∧
      p.pmm = s₂.phys.pmm ∧ Good k p.machine ∧
      (∀ q, q < 2 ^ 35 → ¬ (start ≤ q ∧ q < start + hdr.pages.toNat) →
        pte p.machine k (pageAddr q) = pte s₂.phys.machine k (pageAddr q)) ∧
      (∀ i, i < hdr.pages.toNat →
        Flagged (hdr.pageFlags i) p.machine k (pageAddr (start + i))) ∧
      ∀ q, NotTable k NoUsers s₂.phys.machine q → pageAddr q ∉ freeFrames s₂.phys.pmm →
        NotTable k NoUsers p.machine q := by
  have htotal := hadds.total_toNat
  have hpages := OreKModHeader.pages_toNat hfits
  have hbytes := hdr.bytes_toNat
  have hmem := @toNat_pageAddr start (by omega)
  obtain ⟨p₃, hrun₃, hpmm₃, hgood₃, hflag₃, hsame₃, hnot₃⟩ := onTables_protect (pageAddr start)
    hdr.textSize vmmPresent start (start + (hdr.textSize.toNat + 4095) / 4096) h (by decide)
    (by omega) (by omega) (by omega) (fun q hq hq' => hpresent q hq (by omega))
  by_cases hgt : hdr.textSize.toNat < hdr.bytes.toNat
  · have hdata : (pageAddr start + hdr.textSize).toNat = start * 4096 + hdr.textSize.toNat := by
      bv_omega
    have hrest : (hdr.bytes - hdr.textSize).toNat =
        hdr.pages.toNat * 4096 - hdr.textSize.toNat := by
      rw [BitVec.toNat_sub_of_le (BitVec.le_def.mpr hgt.le), hbytes]
    obtain ⟨p, hrun, hpmm, hgood, hflag, hsame, hnot⟩ := onTables_protect
      (s := { s₂ with phys := p₃ }) (pageAddr start + hdr.textSize) (hdr.bytes - hdr.textSize)
      (vmmPresent ||| vmmWrite ||| vmmNx) (start + hdr.textSize.toNat / 4096)
      (start + hdr.pages.toNat) hgood₃ (by decide) (by omega) (by omega) (by omega)
      (fun q hq hq' => by
        by_cases htext : q < start + (hdr.textSize.toNat + 4095) / 4096
        · exact (hflag₃ q (by omega) htext).isSome
        · rw [hsame₃ q (by omega) (by omega)]
          exact hpresent q (by omega) hq')
    refine ⟨p₃, p, hrun₃, ?_, hpmm.trans hpmm₃, hgood, fun q hq hout => ?_, fun i hi => ?_,
      fun q hq hfree => ?_⟩
    · have hdo : hdr.bytes > hdr.textSize := hgt
      rw [protectData, if_pos hdo, Exec.bind_ok hrun]
      rfl
    · rw [hsame q hq (by omega), hsame₃ q hq (by omega)]
    · unfold OreKModHeader.pageFlags
      split
      next htext =>
        rw [flagged_congr (hsame (start + i) (by omega) (by omega))]
        exact hflag₃ (start + i) (by omega) (by omega)
      next htext => exact hflag (start + i) (by omega) (by omega)
    · exact hnot q (hnot₃ q hq hfree) (by rwa [hpmm₃])
  · refine ⟨p₃, p₃, hrun₃, ?_, hpmm₃, hgood₃, fun q hq hout => hsame₃ q hq (by omega),
      fun i hi => ?_, hnot₃⟩
    · have hdo : ¬ hdr.bytes > hdr.textSize := hgt
      rw [protectData, if_neg hdo]
      rfl
    · rw [OreKModHeader.pageFlags, if_pos (by omega)]
      exact hflag₃ (start + i) (by omega) (by omega)

theorem prepareModule_none {k : Word} (file : Mem)
    (h : s.phys.allocPages hdr.pages = (none, s.phys)) :
    prepareModule k file hdr s = (.ok none, s) := by
  have halloc : allocModule hdr.pages s = (.ok (s.phys.allocPages hdr.pages).1,
      { s with phys := (s.phys.allocPages hdr.pages).2 }) := rfl
  rw [prepareModule, Exec.bind_ok halloc, h]
  rfl

/-- `okmod_load_one` from `pmm_alloc_pages` up to the call of `init`, for sizes
that add up. -/
theorem prepareModule_apply (file : Mem) (hfits : hdr.Fits size) (hadds : hdr.Adds)
    (hram : s.phys.pmm.totalPageCount.toNat ≤ 2 ^ 35) (h : Good k s.phys.machine)
    (hclear : ∀ q, q < s.phys.pmm.totalPageCount.toNat → s.phys.pmm.bitmap q = false →
      (pte s.phys.machine k (pageAddr q)).isSome) :
    (s.phys.allocPages hdr.pages).1 = none ∧ prepareModule k file hdr s = (.ok none, s) ∨
    ∃ start p, (s.phys.allocPages hdr.pages).1 = some (pageAddr start) ∧
      Installed k hdr s.phys p start ∧
      prepareModule k file hdr s = (.ok (some (pageAddr start)), { s with phys := p }) := by
  rcases allocPages_cases s.phys hdr.pages with hnone |
    ⟨start, p₁, hsome, hpos, hlow, hhigh, hrunClear, hmem₁, htotal₁, htaken₁⟩
  · exact .inl ⟨by rw [hnone], prepareModule_none file hnone⟩
  have halloc : allocModule hdr.pages s = (.ok (s.phys.allocPages hdr.pages).1,
      { s with phys := (s.phys.allocPages hdr.pages).2 }) := rfl
  rw [prepareModule, Exec.bind_ok halloc, hsome]
  obtain ⟨m, hplace, hchange⟩ := @placeModule_apply { s with phys := p₁ } file _ _ start
    hfits hadds (by omega)
  -- Allocation and copies together change nothing but the pages of the run.
  have hmem := @toNat_pageAddr start (by omega)
  have hcleared : ChangesRun start hdr.pages.toNat s.phys.mem p₁.mem := by
    rw [hmem₁]
    exact changesRun_write (by omega) (by omega) (by rw [List.length_replicate]; omega)
  have hiso := isolated_kernel h
  have hfree : ∀ q, start ≤ q → q < start + hdr.pages.toNat →
      NotTable k NoUsers s.phys.machine q := fun q hq hq' =>
    hiso.notTable_of_clear (by omega) (by omega) (hrunClear q hq hq')
  have hstill : ∀ q, firstPage ≤ q → q < p₁.pmm.totalPageCount.toNat →
      p₁.pmm.bitmap q = false → NotTable k NoUsers s.phys.machine q := by
    intro q hq hq' hbit
    rw [htotal₁] at hq'
    refine hiso.notTable_of_clear hq hq' (Bool.eq_false_iff.mpr fun hset => ?_)
    rw [(htaken₁ q).mpr (.inl hset)] at hbit
    cases hbit
  have haddr : p₁.pmm.Addressable := by
    unfold Pmm.Addressable
    rw [htotal₁]
    omega
  obtain ⟨⟨hiso₂, -, hpte₂⟩, hnot₂⟩ := @Isolated.changesRun _ _ _ { p₁ with mem := m } _ _ hiso
    (hcleared.trans hchange) hfree haddr hstill
  have hpresent : ∀ q, start ≤ q → q < start + hdr.pages.toNat →
      (pte (Phys.machine { p₁ with mem := m }) k (pageAddr q)).isSome := by
    intro q hq hq'
    rw [hpte₂ k (.inl rfl)]
    exact hclear q (by omega) (hrunClear q hq hq')
  obtain ⟨p₃, p, hrun₃, hrun₄, hpmm₄, hgood₄, hsame₄, hflag₄, hnot₄⟩ := protect_installed
    { s with phys := { p₁ with mem := m } } hfits hadds
    (by change p₁.pmm.totalPageCount.toNat ≤ _; rw [htotal₁]; exact hram)
    (by change _ ≤ p₁.pmm.totalPageCount.toNat; rw [htotal₁]; exact hhigh) hiso₂.kernel hpresent
  refine .inr ⟨start, p, rfl, ⟨hlow, hhigh, hrunClear, hgood₄, ?_, ?_, ?_, ?_, hflag₄⟩, ?_⟩
  · rw [hpmm₄, htotal₁]
  · intro q
    rw [hpmm₄]
    exact htaken₁ q
  · intro q hq hnotFree
    exact hnot₄ q (hnot₂ q hq) (by rwa [← hpmm₄])
  · intro q hq hout
    rw [hsame₄ q (by omega) hout, hpte₂ k (.inl rfl)]
  · dsimp only
    rw [Exec.bind_ok hplace, Exec.bind_ok hrun₃, if_neg (by decide), Exec.bind_ok hrun₄]
    rfl

end Install

/-- The modules that are loaded stay as they are. -/
structure SameBelow (s s' : OkState) : Prop where
  count : s'.loadedModules = s.loadedModules
  commands : s'.moduleCommands = s.moduleCommands
  table : ∀ i < s.loadedModules, s'.moduleTable i = s.moduleTable i

section Below

variable {s s' s'' : OkState}

theorem SameBelow.trans (h : SameBelow s s') (h' : SameBelow s' s'') : SameBelow s s'' :=
  ⟨h'.count.trans h.count, h'.commands.trans h.commands,
    fun i hi => (h'.table i (h.count ▸ hi)).trans (h.table i hi)⟩

theorem sameBelow_phys (s : OkState) (p : Phys) : SameBelow s { s with phys := p } :=
  ⟨rfl, rfl, fun _ _ => rfl⟩

theorem updateSlot_ok {f : OreModuleInfo → OreModuleInfo} {res : Except String Unit}
    (h : updateSlot f s = (res, s')) :
    s' = { s with
      moduleTable := Function.update s.moduleTable s.loadedModules
        (f (s.moduleTable s.loadedModules)) } ∧ SameBelow s s' := by
  cases h
  exact ⟨rfl, rfl, rfl, fun i hi => Function.update_of_ne hi.ne _ _⟩

/-- What holds after `okmod_load_one` has come to the call of `init`, or given
up. -/
theorem prepareModule_ok {k : Word} {file : Mem} {hdr : OreKModHeader} {res : Option Word}
    (hrun : prepareModule k file hdr s = (.ok res, s')) :
    ((s.phys.allocPages hdr.pages).1.isSome → hdr.Adds) ∧ SameBelow s s' ∧
      ∀ mem, res = some mem →
        mem.toNat + hdr.textSize.toNat ≤ 2 ^ 47 ∧ ∃ p, s' = { s with phys := p } := by
  obtain ⟨found, s₁, halloc, hrun⟩ := Exec.bind_eq_ok hrun
  cases halloc
  cases hfound : (s.phys.allocPages hdr.pages).1 with
  | none =>
    rw [hfound] at hrun
    cases hrun
    exact ⟨nofun, sameBelow_phys _ _, nofun⟩
  | some page =>
    rw [hfound] at hrun
    obtain ⟨_, s₂, hplace, hrun⟩ := Exec.bind_eq_ok hrun
    obtain ⟨hadds, hlow, p₂, rfl⟩ := placeModule_ok hplace
    obtain ⟨_, s₃, hprotect, hrun⟩ := Exec.bind_eq_ok hrun
    obtain ⟨p₃, rfl⟩ := onTables_phys hprotect
    refine ⟨fun _ => hadds, ?_⟩
    split at hrun
    next =>
      obtain ⟨_, s₄, hslot, hrun⟩ := Exec.bind_eq_ok hrun
      cases hrun
      have hsame := (updateSlot_ok hslot).2
      exact ⟨(sameBelow_phys s p₃).trans (hsame.trans (sameBelow_phys s₄ _)), nofun⟩
    next =>
      obtain ⟨_, s₄, hdata, hrun⟩ := Exec.bind_eq_ok hrun
      cases hrun
      obtain ⟨p, rfl⟩ := protectData_ok hdata
      exact ⟨sameBelow_phys _ _, fun mem hmem => by cases hmem; exact ⟨hlow, p, rfl⟩⟩

end Below

/-! ## Loading up to `init` -/

/-- The header of a module that is accepted and gets its memory. -/
def initialisedModule (services : Services) (path : List Byte) (s : OkState) :
    Option OreKModHeader :=
  if s.loadedModules ≥ okmodMaxModules then none
  else
    match readModule services path with
    | none => none
    | some (file, size) =>
      let hdr := oreKModHeader file
      if hdr.Known ∧ hdr.Fits size ∧ (s.phys.allocPages hdr.pages).1.isSome then some hdr else none

section Load

variable {k : Frame} {s : OkState} {services : Services} {path : List Byte}

/-- `okmod_load_one` up to the call of `init`: it gives up and leaves memory as
it is, or the module is installed, or the sizes wrap and it does not come
back. -/
theorem loadToInit_cases (hram : s.phys.pmm.totalPageCount.toNat ≤ 2 ^ 35)
    (h : Good k s.phys.machine)
    (hclear : ∀ q, q < s.phys.pmm.totalPageCount.toNat → s.phys.pmm.bitmap q = false →
      (pte s.phys.machine k (pageAddr q)).isSome) :
    (initialisedModule services path s = none ∧
      ∃ s', loadToInit services k path s = (.ok none, s') ∧ s'.phys = s.phys) ∨
    ∃ hdr size, initialisedModule services path s = some hdr ∧ hdr.Fits size ∧
      ((hdr.Adds ∧ ∃ start p s', Installed k hdr s.phys p start ∧
          loadToInit services k path s = (.ok (some (pageAddr start, hdr)), s') ∧ s'.phys = p) ∨
        (¬ hdr.Adds ∧ ∃ message s', loadToInit services k path s = (.error message, s'))) := by
  have hget : (get : Okmod OkState) s = (.ok s, s) := rfl
  unfold initialisedModule
  rw [loadToInit, Exec.bind_ok hget]
  by_cases hfull : s.loadedModules ≥ okmodMaxModules
  · rw [if_pos hfull, if_pos hfull]
    exact .inl ⟨rfl, s, rfl, rfl⟩
  rw [if_neg hfull, if_neg hfull]
  cases hread : readModule services path with
  | none => exact .inl ⟨rfl, s, rfl, rfl⟩
  | some read =>
    obtain ⟨file, size⟩ := read
    dsimp only
    obtain ⟨s₁, hslot, hphys⟩ : ∃ s₁, updateSlot (fun _ => newSlot path (oreKModHeader file)) s =
        (.ok (), s₁) ∧ s₁.phys = s.phys := ⟨_, rfl, rfl⟩
    rw [Exec.bind_ok hslot]
    by_cases hknown : (oreKModHeader file).Known ∧ (oreKModHeader file).Fits size
    case neg =>
      rw [if_neg hknown, if_neg fun hcon => hknown ⟨hcon.1, hcon.2.1⟩]
      exact .inl ⟨rfl, _, rfl, hphys⟩
    rw [if_pos hknown]
    rcases allocPages_cases s.phys (oreKModHeader file).pages with hnone | ⟨start, p₁, hsome, -⟩
    · have hrun := prepareModule_none (k := k) (s := s₁) file (hphys ▸ hnone)
      rw [hnone, if_neg fun hcon => Bool.false_ne_true hcon.2.2, Exec.bind_ok hrun]
      exact .inl ⟨rfl, s₁, rfl, hphys⟩
    rw [if_pos ⟨hknown.1, hknown.2, by rw [hsome]; rfl⟩]
    refine .inr ⟨_, size, rfl, hknown.2, ?_⟩
    by_cases hadds : (oreKModHeader file).Adds
    · left
      rcases prepareModule_apply (s := s₁) file hknown.2 hadds (hphys ▸ hram) (hphys ▸ h)
        (hphys ▸ hclear) with ⟨hnone, -⟩ | ⟨start, p, -, hinstalled, hrun⟩
      · rw [hphys, hsome] at hnone
        cases hnone
      · rw [hphys] at hinstalled
        rw [Exec.bind_ok hrun]
        exact ⟨hadds, start, p, _, hinstalled, rfl, rfl⟩
    · right
      refine ⟨hadds, ?_⟩
      rcases hrun : prepareModule k file (oreKModHeader file) s₁ with ⟨message | res, s₂⟩
      · exact ⟨message, s₂, Exec.bind_error hrun⟩
      · exact absurd ((prepareModule_ok hrun).1 (by rw [hphys, hsome]; rfl)) hadds

end Load

/-! ## Small modules -/

/-- The bytes of a header with the given sizes, then zeros. -/
def moduleFile (textSize dataSize bssSize : Word) : Mem := fun a =>
  let bytes := Mem.leBytes 8 oreKmodMagic ++ Mem.leBytes 4 oreKmodVersion ++
    Mem.leBytes 4 (120 : BitVec 32) ++ Mem.leBytes 4 oreKernelAbiVersion ++
    Mem.leBytes 4 (0 : BitVec 32) ++ Mem.leBytes 8 (0 : Word) ++ Mem.leBytes 8 textSize ++
    Mem.leBytes 8 dataSize ++ Mem.leBytes 8 bssSize
  (bytes[a.toNat]?).getD 0

/-- A file system with one file. -/
def oneFile (file : Mem) (size : Word) : Services where
  stat _ := some { type := oreVfsFile, size := size }
  kmalloc _ := some fun _ => 0
  readFile _ _ _ := (size.toInt, file)
  settle := id

theorem readModule_oneFile {file : Mem} {size : Word} (path : List Byte)
    (hlow : ¬ size < sizeofOreKModHeader) (hhigh : ¬ size > okmodMaxSize) :
    readModule (oneFile file size) path = some (file, size) := by
  simp only [readModule, oneFile, hlow, hhigh, ne_eq, not_true_eq_false, or_self, if_false]

theorem oneFile_initialised {file : Mem} {size : Word} {s : Phys} (path : List Byte)
    (hlow : ¬ size < sizeofOreKModHeader) (hhigh : ¬ size > okmodMaxSize)
    (hok : (oreKModHeader file).Known ∧ (oreKModHeader file).Fits size)
    (hpages : (oreKModHeader file).pages = 1) (hfree : freeFrames s.pmm ≠ []) :
    initialisedModule (oneFile file size) path { phys := s } = some (oreKModHeader file) := by
  obtain ⟨start, p, halloc⟩ := allocPages_one hfree
  rw [initialisedModule, if_neg (show ¬ 0 ≥ okmodMaxModules by decide),
    readModule_oneFile path hlow hhigh]
  dsimp only
  rw [hpages, halloc]
  exact if_pos ⟨hok.1, hok.2, rfl⟩

end OreOS.Kernel
