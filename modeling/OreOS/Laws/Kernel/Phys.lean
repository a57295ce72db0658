import OreOS.Laws.Kernel.Ledger
import OreOS.Laws.Kernel.Isolation

/-!
# The bitmap and the pages of the machine

The list of free frames follows the bitmap: an allocation of one page takes its
first element (`freeFrames_alloc`), so a computation of the page-table code that
takes the first `n` frames of the list has taken them in the bitmap as well
(`run_machine`).
-/

namespace OreOS.Kernel

open OreOS.Lib (Word Byte Mem Exec Bits)

/-! ## Free frames -/

variable {page : Nat}

theorem toNat_pageAddr (h : page < 2 ^ 52) : (pageAddr page).toNat = page * 4096 := by
  rw [pageAddr, BitVec.toNat_mul, BitVec.toNat_ofNat, show (4096 : Word).toNat = 4096 from rfl]
  omega

theorem pageNumber_pageAddr (h : page < 2 ^ 52) : pageNumber (pageAddr page) = page := by
  rw [pageNumber, toNat_pageAddr h]
  omega

theorem roundAddr_pageAddr (start j : Nat) :
    roundAddr (pageAddr start) j = pageAddr (start + j) := by
  have hpage : (4096 : Word).toNat = 4096 := rfl
  apply BitVec.eq_of_toNat_eq
  simp only [roundAddr, pageAddr, BitVec.toNat_add, BitVec.toNat_mul, BitVec.toNat_ofNat, hpage]
  omega

variable {q : Nat}

theorem pageOf_pageAddr (h : q < 2 ^ 36) : pageOf (pageAddr q) = q := by
  rw [pageOf, toNat_pageAddr (by omega)]
  omega

variable {start n : Nat}

theorem outsidePages_pageAddr (hn : start + n ≤ 2 ^ 36) (hq : q < 2 ^ 36) :
    OutsidePages (pageAddr start) n (pageAddr q) ↔ ¬ (start ≤ q ∧ q < start + n) := by
  constructor
  · rintro hout ⟨hlow, hhigh⟩
    refine hout (q - start) (by omega) ?_
    rw [roundAddr_pageAddr, show start + (q - start) = q by omega]
  · intro hout j hj heq
    rw [roundAddr_pageAddr, pageOf_pageAddr hq, pageOf_pageAddr (by omega)] at heq
    omega

variable {a : Word}

theorem pageAddr_of_toNat (h : a.toNat = q * 4096) : a = pageAddr q := by
  apply BitVec.eq_of_toNat_eq
  rw [h, toNat_pageAddr (by omega)]

theorem range_pageAddr {virt size : Word} {first last : Nat} (hlast : last ≤ 2 ^ 36)
    (hlow : virt.toNat / 4096 = first) (hhigh : (virt.toNat + size.toNat + 4095) / 4096 = last) :
    alignDown virt = pageAddr first ∧ rangePages virt size = last - first := by
  have hvirt := toNat_alignDown virt
  have hsum : (virt + size).toNat = virt.toNat + size.toNat := by bv_omega
  have hup := toNat_alignUp (a := virt + size) (by omega)
  refine ⟨pageAddr_of_toNat (by rw [hvirt, hlow]), ?_⟩
  rw [rangePages, pageCount, hvirt, hup, hsum, hlow, hhigh]
  omega

theorem runPages_pageAddr {count : BitVec 32} (h : start < 2 ^ 52) :
    q ∈ runPages (pageAddr start) count ↔ start ≤ q ∧ q < start + count.toNat := by
  rw [pageAddr, runPages_ofNat h, List.mem_range'_1]

variable {pmm : Pmm}

theorem mem_clearPages :
    page ∈ clearPages pmm ↔
      firstPage ≤ page ∧ page < pmm.totalPageCount.toNat ∧ pmm.bitmap page = false := by
  simp only [clearPages, List.mem_filter, List.mem_range'_1, Bool.not_eq_true']
  constructor
  · rintro ⟨⟨hlow, hhigh⟩, hbit⟩
    exact ⟨hlow, by omega, hbit⟩
  · rintro ⟨hlow, hhigh, hbit⟩
    exact ⟨⟨hlow, by omega⟩, hbit⟩

theorem nodup_clearPages (pmm : Pmm) : (clearPages pmm).Nodup :=
  (List.nodup_range' ..).filter _

theorem mem_freeFrames :
    a ∈ freeFrames pmm ↔ ∃ page, firstPage ≤ page ∧ page < pmm.totalPageCount.toNat ∧
      pmm.bitmap page = false ∧ a = pageAddr page := by
  rw [freeFrames, List.mem_map]
  constructor
  · rintro ⟨page, hpage, rfl⟩
    obtain ⟨hlow, hhigh, hbit⟩ := mem_clearPages.mp hpage
    exact ⟨page, hlow, hhigh, hbit, rfl⟩
  · rintro ⟨page, hlow, hhigh, hbit, rfl⟩
    exact ⟨page, mem_clearPages.mpr ⟨hlow, hhigh, hbit⟩, rfl⟩

/-- Pages have addresses below 2^52, the size of a physical address. -/
def Pmm.Addressable (pmm : Pmm) : Prop :=
  pmm.totalPageCount.toNat ≤ 2 ^ 40

theorem nodup_freeFrames (h : pmm.Addressable) : (freeFrames pmm).Nodup := by
  unfold Pmm.Addressable at h
  refine List.Nodup.map_on (fun x hx y hy heq => ?_) (nodup_clearPages pmm)
  rw [mem_clearPages] at hx hy
  rw [← @pageNumber_pageAddr x (by omega), heq, pageNumber_pageAddr (by omega)]

theorem allocatable_pageAddr (hlow : 0 < page) (hhigh : page < 2 ^ 40) :
    Allocatable (pageAddr page) := by
  have hnat := @toNat_pageAddr page (by omega)
  refine ⟨fun hzero => ?_, mask_eq_self ?_ (by omega)⟩
  · rw [hzero] at hnat
    change 0 = _ at hnat
    omega
  · rw [Mem.Aligned, hnat]
    omega

theorem allocatable_freeFrames (h : pmm.Addressable) (ha : a ∈ freeFrames pmm) : Allocatable a := by
  obtain ⟨page, hlow, hhigh, -, rfl⟩ := mem_freeFrames.mp ha
  unfold Pmm.Addressable at h
  unfold firstPage at hlow
  exact allocatable_pageAddr (by omega) (by omega)

/-! ## Taking frames -/

theorem findRun_one (bitmap : Bits) (rounds page startPage : Nat) :
    findRun bitmap 1 rounds page 0 startPage =
      ((List.range' page rounds).filter fun page => !bitmap page).head? := by
  induction rounds generalizing page startPage with
  | zero => rfl
  | succ rounds ih =>
    rw [findRun, List.range'_succ, List.filter_cons]
    cases bitmap page with
    | true => simpa using ih (page + 1) startPage
    | false => simp

/-- The allocation of one page takes the first clear one. -/
theorem clearPages_alloc (pmm : Pmm) :
    clearPages (pmmAllocPages 1 pmm).2 = (clearPages pmm).tail := by
  have hfind : findRun pmm.bitmap 1 (pmm.totalPageCount.toNat - firstPage) firstPage 0 0 =
      (clearPages pmm).head? := findRun_one ..
  have hnodup := nodup_clearPages pmm
  rw [pmmAllocPages, if_neg (by decide), show (1 : BitVec 32).toNat = 1 from rfl, hfind]
  cases hpages : clearPages pmm with
  | nil => exact hpages
  | cons page pages =>
    rw [hpages, List.nodup_cons] at hnodup
    have hsplit : clearPages { pmm with bitmap := pmm.bitmap.setAll [page] } =
        (clearPages pmm).filter fun q => decide (q ≠ page) := by
      rw [clearPages, clearPages, List.filter_filter]
      refine List.filter_congr fun q _ => ?_
      dsimp only
      rw [Bits.setAll_apply]
      simp [Bool.not_or, Bool.and_comm]
    refine hsplit.trans ?_
    rw [hpages, List.filter_cons_of_neg (by simp), List.tail_cons]
    refine List.filter_eq_self.mpr fun q hq => decide_eq_true ?_
    rintro rfl
    exact hnodup.1 hq

variable {s : Phys}

theorem allocPages_one (h : freeFrames s.pmm ≠ []) :
    ∃ start p, s.allocPages 1 = (some (pageAddr start), p) := by
  have hfind : findRun s.pmm.bitmap 1 (s.pmm.totalPageCount.toNat - firstPage) firstPage 0 0 =
      (clearPages s.pmm).head? := findRun_one ..
  cases hpages : clearPages s.pmm with
  | nil => exact absurd (by rw [freeFrames, hpages]; rfl) h
  | cons page pages =>
    rw [hpages] at hfind
    rw [Phys.allocPages, pmmAllocPages, if_neg (by decide),
      show (1 : BitVec 32).toNat = 1 from rfl, hfind]
    exact ⟨page, _, rfl⟩

theorem freeFrames_alloc (pmm : Pmm) :
    freeFrames (pmmAllocPages 1 pmm).2 = (freeFrames pmm).tail := by
  rw [freeFrames, freeFrames, clearPages_alloc, List.map_tail]

theorem freeFrames_take (n : Nat) (pmm : Pmm) :
    freeFrames (takeFrames n pmm) = (freeFrames pmm).drop n := by
  induction n generalizing pmm with
  | zero => rfl
  | succ n ih => rw [takeFrames, ih, freeFrames_alloc, List.drop_tail]

theorem takeFrames_total (n : Nat) (pmm : Pmm) :
    (takeFrames n pmm).totalPageCount = pmm.totalPageCount := by
  induction n generalizing pmm with
  | zero => rfl
  | succ n ih =>
    rw [takeFrames, ih]
    rcases pmmAllocPages_cases 1 pmm with hnone | ⟨start, -, -, -, -, hsome⟩
    · rw [hnone]
    · rw [hsome]

theorem takeFrames_taken (n : Nat) (h : pmm.bitmap q = true) :
    (takeFrames n pmm).bitmap q = true := by
  induction n generalizing pmm with
  | zero => exact h
  | succ n ih =>
    refine ih ?_
    rcases pmmAllocPages_cases 1 pmm with hnone | ⟨start, -, -, -, -, hsome⟩
    · rw [hnone]
      exact h
    · rw [hsome]
      change pmm.bitmap.setAll _ q = true
      rw [Bits.setAll_apply, h, Bool.true_or]

@[simp] theorem machine_pool (s : Phys) : s.machine.pool = freeFrames s.pmm := by
  rw [Phys.machine]

theorem run_machine {α : Type} {x : Kern α} (h : (x s.machine).2.pool <:+ s.machine.pool) :
    (s.run x).2.machine = { (x s.machine).2 with trace := [] } := by
  have hpool : freeFrames (s.run x).2.pmm = (x s.machine).2.pool := by
    rw [machine_pool] at h
    dsimp only [Phys.run]
    rw [freeFrames_take]
    exact (List.suffix_iff_eq_drop.mp h).symm
  have hmachine : (s.run x).2.machine =
      { mem := (x s.machine).2.mem, pool := freeFrames (s.run x).2.pmm } := rfl
  rw [hmachine, hpool]

theorem Phys.run_eq {α : Type} {s' : Phys} {x : Kern α} {res : Except String α}
    (h : s.run x = (res, s')) :
    ∃ m, x s.machine = (res, m) ∧
      (m.pool <:+ s.machine.pool → s'.machine = { m with trace := [] }) := by
  obtain ⟨hres, hs⟩ := Prod.ext_iff.mp h
  refine ⟨(x s.machine).2, Prod.ext hres rfl, fun hsuffix => ?_⟩
  rw [← run_machine hsuffix]
  exact congrArg Phys.machine hs.symm

variable {s' : Machine}

theorem Good.congr {r : Frame} {s : Machine} (h : Good r s) (hmem : s'.mem = s.mem)
    (hpool : s'.pool = s.pool) : Good r s' := by
  obtain ⟨mem, pool, trace⟩ := s
  cases hmem
  cases hpool
  exact ⟨h.tree, h.null, h.nodup, h.alloc, h.fresh⟩

/-! ## Writable pages -/

/-- The address is mapped, present and writable. -/
def Writable (s : Machine) (r : Frame) (a : Word) : Prop :=
  ∃ e, pte s r a = some e ∧ e &&& vmmWrite ≠ 0

theorem and_write_ne_zero (e : Word) : e &&& vmmWrite ≠ 0 ↔ e.getLsbD 1 = true := by
  rw [show vmmWrite = BitVec.twoPow 64 1 from rfl, BitVec.and_twoPow]
  cases e.getLsbD 1 <;> decide

theorem write_pteValue {phys flags : Word} (h : flags &&& vmmWrite ≠ 0) :
    pteValue phys flags &&& vmmWrite ≠ 0 := by
  rw [and_write_ne_zero] at h ⊢
  have hnx : vmmNx.getLsbD 1 = false := by decide
  simp only [pteValue, BitVec.getLsbD_or, BitVec.getLsbD_and, BitVec.getLsbD_not, h, hnx]
  simp

section Map

variable {r : Frame} {s s' : Machine} {flags : Word}

variable {a : Word}

theorem present_of_pte {e : Word} (h : pte s r a = some e) : present e = true := by
  obtain ⟨f, -, hf⟩ := Option.bind_eq_some_iff.mp h
  split at hf
  next hpresent =>
    cases hf
    exact hpresent
  next => cases hf

/-- The loop of `map_in_root` with a writable mapping: what was writable stays
so, and the pages of the range are. -/
theorem mapPages_writable (hflags : flags &&& vmmWrite ≠ 0) (n : Nat) {s : Machine}
    (h : Good r s) (addr phys : Word) {res : Int}
    (hrun : mapPages r flags n addr phys s = (.ok res, s')) :
    res = 0 ∧ Edits r (fun _ => True) s s' ∧
      ∀ a, Writable s r a ∨ ¬ OutsidePages addr n a → Writable s' r a := by
  rcases mapPages_spec flags n h addr phys (topPages_true addr n) with
    ⟨t, hspec, hedits, -, hmapped, hother⟩ | ⟨t, hspec, -⟩
  case inr => cases hspec.symm.trans hrun
  cases hspec.symm.trans hrun
  refine ⟨rfl, hedits, fun a ha => ?_⟩
  by_cases hout : OutsidePages addr n a
  · obtain ⟨e, he, hwrite⟩ := ha.resolve_right (not_not.mpr hout)
    exact ⟨e, (hother a hout).trans he, hwrite⟩
  · obtain ⟨k, -, -, hpte⟩ := hmapped a hout
    exact ⟨_, hpte, write_pteValue hflags⟩

/-- An address of a range is in one of its pages, also at the top of
memory. -/
theorem not_outside_of_mem {virt size : Word} (ha : InRange virt size a) :
    ¬ OutsidePages (alignDown virt) (rangePages virt size) a := by
  have hdown := toNat_alignDown virt
  have hdown' := toNat_alignDown (virt + size + 4096 - 1)
  have hlow : (alignDown virt).toNat ≤ a.toNat := ha.1
  have hhigh : a.toNat < (alignUp (virt + size)).toNat := ha.2
  have hmod : (alignUp (virt + size)).toNat % 4096 = 0 := by
    change (alignDown (virt + size + 4096 - 1)).toNat % 4096 = 0
    omega
  intro hout
  refine hout ((a.toNat - (alignDown virt).toNat) / 4096) ?_ ?_
  · rw [rangePages, pageCount]
    omega
  · have hround : (roundAddr (alignDown virt) ((a.toNat - (alignDown virt).toNat) / 4096)).toNat =
        (alignDown virt).toNat + 4096 * ((a.toNat - (alignDown virt).toNat) / 4096) := by bv_omega
    rw [pageOf, pageOf, hround]
    omega

/-- A computation that, when it returns, has mapped the ranges writable and
has left what was writable so. -/
def MapsRanges (r : Frame) (x : Kern Unit) (ranges : List (Word × Word)) : Prop :=
  ∀ s s', Good r s → x s = (.ok (), s') → Edits r (fun _ => True) s s' ∧
    ∀ a, (Writable s r a ∨ ∃ range ∈ ranges, InRange range.1 range.2 a) → Writable s' r a

theorem mapsRanges_skip : MapsRanges r (pure ()) [] := by
  rintro s s' - ⟨⟩
  exact ⟨.refl, fun a ha => ha.elim id nofun⟩

theorem MapsRanges.seq {x y : Kern Unit} {ranges ranges' : List (Word × Word)}
    (hx : MapsRanges r x ranges) (hy : MapsRanges r y ranges') :
    MapsRanges r (x >>= fun _ => y) (ranges ++ ranges') := by
  intro s s' h hrun
  rcases hfirst : x s with ⟨_ | _, s₁⟩
  · rw [Exec.bind_error hfirst] at hrun
    cases hrun
  rw [Exec.bind_ok hfirst] at hrun
  obtain ⟨hedits, hwritable⟩ := hx s s₁ h hfirst
  obtain ⟨hedits', hwritable'⟩ := hy s₁ s' (h.edits hedits) hrun
  refine ⟨hedits.trans hedits', fun a ha => hwritable' a ?_⟩
  rcases ha with hold | ⟨range, hmem, hin⟩
  · exact .inl (hwritable a (.inl hold))
  · rcases List.mem_append.mp hmem with hmem | hmem
    · exact .inl (hwritable a (.inr ⟨range, hmem, hin⟩))
    · exact .inr ⟨range, hmem, hin⟩

theorem mapOrPanic_maps {base size : Word} {message : String} (hflags : flags &&& vmmWrite ≠ 0) :
    MapsRanges r (mapOrPanic r base size flags message) [(base, size)] := by
  intro s s' h hrun
  unfold mapOrPanic at hrun
  rcases hmap : mapInRoot r base base size flags s with ⟨_ | res, s₁⟩
  · rw [Exec.bind_error hmap] at hrun
    cases hrun
  rw [Exec.bind_ok hmap] at hrun
  obtain ⟨rfl, hedits, hwritable⟩ := mapPages_writable hflags _ h _ _ hmap
  cases hrun
  refine ⟨hedits, fun a ha => hwritable a (ha.imp_right ?_)⟩
  rintro ⟨range, hmem, hin⟩
  cases List.mem_singleton.mp hmem
  exact not_outside_of_mem hin

end Map

/-! ## `vmm_init` -/

/-- The address is in a range that `vmm_init` maps. -/
def MappedAtBoot (boot : BootInfo) (totalPages lapicBase a : Word) : Prop :=
  ∃ range ∈ vmmRanges boot totalPages lapicBase, InRange range.1 range.2 a

variable {k : Word}

theorem good_newTable {s : Machine} (hnodup : s.pool.Nodup)
    (halloc : ∀ page ∈ s.pool, Allocatable page) (hrun : newTable s = (.ok k, s')) :
    ∃ hk : Mem.Aligned k, Good ⟨k, hk⟩ s' ∧ s'.pool <:+ s.pool := by
  cases hpool : s.pool with
  | nil =>
    rw [newTable_panic hpool] at hrun
    cases hrun
  | cons page pool =>
    rw [newTable_apply hpool] at hrun
    cases hrun
    rw [hpool] at hnodup halloc
    have hpage := halloc k (by simp)
    refine ⟨hpage.aligned, good_of_empty ?_ (fun i => ?_) (List.nodup_cons.mp hnodup).2
      (fun q hq => halloc q (List.mem_cons_of_mem _ hq)) (List.nodup_cons.mp hnodup).1,
      List.suffix_cons ..⟩
    · exact fun heq => hpage.ne (congrArg Subtype.val heq)
    · rw [entries_cleared s hpage]
      exact OreOS.Lib.Radix.fill_self 0

variable {boot : BootInfo} {lapicBase : Word}

theorem mapKernel_maps {totalPages : Word} {r : Frame} :
    MapsRanges r (mapKernel r boot totalPages lapicBase) (vmmRanges boot totalPages lapicBase) := by
  have hram : MapsRanges r
      (mapOrPanic r 0 (totalPages * 4096) vmmWrite "VMM: identity map failed")
      [(0, totalPages * 4096)] := mapOrPanic_maps (by decide)
  have hfb : MapsRanges r (mapFramebuffer r boot.framebuffer)
      (if hasFramebuffer boot.framebuffer then
        [(boot.framebuffer.base, framebufferSize boot.framebuffer)] else []) := by
    unfold mapFramebuffer
    split
    · exact mapOrPanic_maps (by decide)
    · exact mapsRanges_skip
  have hlapic : MapsRanges r (mapLapic r lapicBase)
      (if lapicBase ≠ 0 then [(lapicBase, 4096)] else []) := by
    unfold mapLapic
    split
    · exact mapOrPanic_maps (by decide)
    · exact mapsRanges_skip
  exact hram.seq (hfb.seq hlapic)

/-- What `vmm_init` leaves: a tree of tables in which its ranges are present and
writable. -/
theorem vmmInit_spec {totalPages : Word} {s : Machine} (hnodup : s.pool.Nodup)
    (halloc : ∀ page ∈ s.pool, Allocatable page)
    (hrun : vmmInit boot totalPages lapicBase s = (.ok k, s')) :
    ∃ hk : Mem.Aligned k, Good ⟨k, hk⟩ s' ∧ s'.pool <:+ s.pool ∧
      ∀ a, MappedAtBoot boot totalPages lapicBase a → Writable s' ⟨k, hk⟩ a := by
  unfold vmmInit at hrun
  rcases hroot : newTable s with ⟨_ | root, s₁⟩
  · rw [Exec.bind_error hroot] at hrun
    cases hrun
  rw [Exec.bind_ok hroot] at hrun
  rcases hmaps : mapKernel root boot totalPages lapicBase s₁ with ⟨_ | _, s₂⟩
  · rw [Exec.bind_error hmaps] at hrun
    cases hrun
  rw [Exec.bind_ok hmaps] at hrun
  cases hrun
  obtain ⟨hk, hgood, hsuffix⟩ := good_newTable hnodup halloc hroot
  obtain ⟨hedits, hwritable⟩ := mapKernel_maps (r := ⟨k, hk⟩) s₁ s' hgood hmaps
  exact ⟨hk, hgood.edits hedits, hedits.pool.trans hsuffix, fun a ha => hwritable a (.inr ha)⟩

theorem Phys.vmmInit_spec {s' : Phys} (h : s.pmm.Addressable)
    (hrun : s.run (vmmInit boot s.pmm.totalPageCount lapicBase) = (.ok k, s')) :
    ∃ hk : Mem.Aligned k, Good ⟨k, hk⟩ s'.machine ∧
      ∀ a, MappedAtBoot boot s.pmm.totalPageCount lapicBase a → Writable s'.machine ⟨k, hk⟩ a := by
  obtain ⟨m, hmachine, hresult⟩ := Phys.run_eq hrun
  obtain ⟨hk, hgood, hsuffix, hwritable⟩ := Kernel.vmmInit_spec
    (by rw [machine_pool]; exact nodup_freeFrames h)
    (fun page hpage => allocatable_freeFrames h (by rwa [machine_pool] at hpage)) hmachine
  rw [hresult hsuffix]
  exact ⟨hk, hgood.congr rfl rfl, hwritable⟩

/-! ## Runs of pages -/

variable {m : Mem}

/-- Stores inside a run of pages do not reach the entries of a frame outside
it. -/
theorem entries_write_run {f : Frame} {bs : List Byte} (hn : start + n ≤ 2 ^ 52)
    (hf : ∀ q, start ≤ q → q < start + n → f.val ≠ pageAddr q) (ha : start * 4096 ≤ a.toNat)
    (hlen : a.toNat + bs.length ≤ (start + n) * 4096) (i : Fin 512) :
    entries (m.write a bs) f i = entries m f i := by
  obtain ⟨f, hfa⟩ := f
  obtain ⟨i, hi⟩ := i
  have hpage : f.toNat / 4096 < start ∨ start + n ≤ f.toNat / 4096 := by
    by_contra hcon
    refine hf (f.toNat / 4096) (by omega) (by omega) (BitVec.eq_of_toNat_eq ?_)
    rw [toNat_pageAddr (by omega)]
    unfold Mem.Aligned at hfa
    dsimp only
    omega
  refine Mem.load64_write_outside fun j hj => ?_
  unfold Mem.Aligned at hfa
  have hcell : (cell f ⟨i, hi⟩ + BitVec.ofNat 64 j).toNat = f.toNat + 8 * i + j := by
    unfold cell
    bv_omega
  rw [BitVec.toNat_sub, hcell]
  omega

theorem freePage_total (pmm : Pmm) (page : Nat) :
    (freePage pmm page).totalPageCount = pmm.totalPageCount := by
  unfold freePage
  split <;> rfl

theorem freePage_taken_iff (pmm : Pmm) (page q : Nat) :
    (freePage pmm page).bitmap q = true ↔
      pmm.bitmap q = true ∧ ¬ (q = page ∧ q < pmm.totalPageCount.toNat) := by
  unfold freePage
  split
  next h =>
    change Bits.clear pmm.bitmap page q = true ↔ _
    rw [Bits.clear_apply, Bool.and_eq_true, decide_eq_true_iff]
    refine and_congr_right fun _ => not_congr ⟨?_, And.left⟩
    rintro rfl
    exact ⟨rfl, h.1⟩
  next h =>
    refine (and_iff_left_of_imp ?_).symm
    rintro hbit ⟨rfl, hq⟩
    exact h ⟨hq, hbit⟩

theorem foldl_freePage_taken_iff (pages : List Nat) (pmm : Pmm) :
    (pages.foldl freePage pmm).totalPageCount = pmm.totalPageCount ∧
      ∀ q, (pages.foldl freePage pmm).bitmap q = true ↔
        pmm.bitmap q = true ∧ ¬ (q ∈ pages ∧ q < pmm.totalPageCount.toNat) := by
  induction pages generalizing pmm with
  | nil => exact ⟨rfl, fun q => by simp⟩
  | cons page pages ih =>
    obtain ⟨htotal, hbits⟩ := ih (freePage pmm page)
    refine ⟨htotal.trans (freePage_total pmm page), fun q => ?_⟩
    rw [List.foldl_cons, hbits q, freePage_taken_iff, freePage_total, List.mem_cons]
    tauto

theorem pmmFreePages_taken_iff (ptr : Word) (count : BitVec 32) (pmm : Pmm) :
    (pmmFreePages ptr count pmm).totalPageCount = pmm.totalPageCount ∧
      ∀ q, (pmmFreePages ptr count pmm).bitmap q = true ↔
        pmm.bitmap q = true ∧
          ¬ (ptr ≠ 0 ∧ q ∈ runPages ptr count ∧ q < pmm.totalPageCount.toNat) := by
  unfold pmmFreePages
  split
  next h =>
    refine ⟨rfl, fun q => (and_iff_left ?_).symm⟩
    rintro ⟨hptr, hq, -⟩
    rw [h.resolve_left hptr] at hq
    exact absurd hq List.not_mem_nil
  next h =>
    obtain ⟨htotal, hbits⟩ := foldl_freePage_taken_iff (runPages ptr count) pmm
    refine ⟨htotal, fun q => (hbits q).trans (and_congr_right fun _ => not_congr ?_)⟩
    exact (and_iff_right fun hptr => h (.inl hptr)).symm

theorem allocPages_cases (s : Phys) (count : BitVec 32) :
    s.allocPages count = (none, s) ∨
    ∃ start s', s.allocPages count = (some (pageAddr start), s') ∧ 0 < count.toNat ∧
      firstPage ≤ start ∧ start + count.toNat ≤ s.pmm.totalPageCount.toNat ∧
      (∀ q, start ≤ q → q < start + count.toNat → s.pmm.bitmap q = false) ∧
      s'.mem = s.mem.write (pageAddr start) (List.replicate (count.toNat * 4096) 0) ∧
      s'.pmm.totalPageCount = s.pmm.totalPageCount ∧
      ∀ q, s'.pmm.bitmap q = true ↔
        s.pmm.bitmap q = true ∨ start ≤ q ∧ q < start + count.toNat := by
  unfold Phys.allocPages
  rcases pmmAllocPages_cases count s.pmm with hnone | ⟨start, hpos, hlow, hhigh, hclear, hrun⟩
  · rw [hnone]
    exact .inl rfl
  · rw [hrun]
    refine .inr ⟨start, _, rfl, hpos, hlow, hhigh, fun q hq hq' => ?_, rfl, rfl, fun q => ?_⟩
    · exact hclear q (List.mem_range'_1.mpr ⟨hq, hq'⟩)
    · dsimp only
      rw [Bits.setAll_apply, Bool.or_eq_true, decide_eq_true_iff, List.mem_range'_1]

/-- Memory that differs at most in the pages of a run, as page tables see
it. -/
def ChangesRun (start n : Nat) (m m' : Mem) : Prop :=
  ∀ f : Frame, (∀ q, start ≤ q → q < start + n → f.val ≠ pageAddr q) →
    ∀ i, entries m' f i = entries m f i

theorem ChangesRun.refl (start n : Nat) (m : Mem) : ChangesRun start n m m :=
  fun _ _ _ => rfl

theorem ChangesRun.trans {m' m'' : Mem} (h : ChangesRun start n m m')
    (h' : ChangesRun start n m' m'') : ChangesRun start n m m'' :=
  fun f hf i => (h' f hf i).trans (h f hf i)

theorem changesRun_write {bs : List Byte} (hn : start + n ≤ 2 ^ 52) (ha : start * 4096 ≤ a.toNat)
    (hlen : a.toNat + bs.length ≤ (start + n) * 4096) : ChangesRun start n m (m.write a bs) :=
  fun _ hf i => entries_write_run hn hf ha hlen i

section Frames

variable {k : Frame} {users : Frame → Prop} {s s' : Phys}

/-- No root has a table in the page. -/
def NotTable (k : Frame) (users : Frame → Prop) (m : Machine) (q : Nat) : Prop :=
  ∀ g : Frame, g.val = pageAddr q → ∀ r, r = k ∨ users r → ¬ Tables m r g

theorem Isolated.notTable_of_clear (h : Isolated k users s.machine) {q : Nat}
    (hlow : firstPage ≤ q) (hhigh : q < s.pmm.totalPageCount.toNat)
    (hbit : s.pmm.bitmap q = false) : NotTable k users s.machine q := by
  rintro g hg r hr ⟨p, hp, hwalk⟩
  refine (h.good hr).fresh g ?_ p hp hwalk
  rw [machine_pool, mem_freeFrames]
  exact ⟨q, hlow, hhigh, hbit, hg⟩

/-- Memory and bitmap change, but no table and no page of a table. -/
theorem Isolated.changesRun {start n : Nat} (h : Isolated k users s.machine)
    (hmem : ChangesRun start n s.mem s'.mem)
    (hrun : ∀ q, start ≤ q → q < start + n → NotTable k users s.machine q)
    (haddr : s'.pmm.Addressable)
    (hclear : ∀ q, firstPage ≤ q → q < s'.pmm.totalPageCount.toNat → s'.pmm.bitmap q = false →
      NotTable k users s.machine q) :
    Reframed k users s.machine s'.machine ∧
      ∀ q, NotTable k users s.machine q → NotTable k users s'.machine q := by
  have hreframed := @Isolated.reframe _ _ _ s'.machine h
    (by rw [machine_pool]; exact nodup_freeFrames haddr)
    (fun page hpage => allocatable_freeFrames haddr (by rwa [machine_pool] at hpage))
    (fun g hg r hr htable => by
      rw [machine_pool, mem_freeFrames] at hg
      obtain ⟨q, hlow, hhigh, hbit, hq⟩ := hg
      exact hclear q hlow hhigh hbit g hq r hr htable)
    (fun r hr f hf i => by
      exact hmem f (fun q hlow hhigh hq => hrun q hlow hhigh f hq r hr hf) i)
  refine ⟨hreframed, fun q hq g hg r hr => ?_⟩
  rintro ⟨p, hp, hw⟩
  exact hq g hg r hr ⟨p, hp, (hreframed.walk r hr p hp).symm.trans hw⟩

end Frames

/-! ## A small machine -/

/-- 288 pages, of which those below the bitmap's and its own are taken. -/
def smallPmm : Pmm :=
  { bitmap := fun page => page < 257
    bitmapAddr := 0x100000
    bitmapBytes := 4096
    maxPhys := 0x120000
    totalPageCount := 288
    freePageCount := 31
    reservedPageCount := 257
    usedPageCount := 0 }

def smallPhys : Phys :=
  { mem := fun _ => 0, pmm := smallPmm }

/-- A machine with RAM, no framebuffer and the local APIC at its usual
place. -/
def headlessBoot : BootInfo :=
  { address := 0x8000, kernelBase := 0x200000, kernelSize := 0x1000, initramfsBase := 0
    initramfsSize := 0, memoryMap := [] }

theorem smallPhys_addressable : smallPhys.pmm.Addressable := by
  unfold Pmm.Addressable
  decide

section Small

variable {r : Frame} {s : Machine} {base size : Word}

theorem mapOrPanic_returns (flags : Word) (message : String) (h : Good r s)
    (hcard : (tablesFor (alignDown base) (rangePages base size)).card ≤ 3)
    (hpool : 3 ≤ s.pool.length) :
    ∃ s', mapOrPanic r base size flags message s = (.ok (), s') ∧ Good r s' ∧
      s.pool.length ≤ s'.pool.length + 3 := by
  have hmissing : missing s r _ ≤ 3 := (Finset.card_filter_le _ _).trans hcard
  rcases mapPages_spec flags (rangePages base size) h (alignDown base) (alignDown base)
    (topPages_true _ _) with ⟨s', hrun, hedits, ht, -⟩ | ⟨-, -, -, hshort⟩
  · have hframes := ht.frames
    refine ⟨s', ?_, h.edits hedits, by omega⟩
    have hmap : mapInRoot r base base size flags s = (.ok 0, s') := hrun
    rw [mapOrPanic, Exec.bind_ok hmap]
    rfl
  · omega

theorem mapKernel_returns (boot : BootInfo) (h : Good r s)
    (hfb : (tablesFor (alignDown boot.framebuffer.base)
      (rangePages boot.framebuffer.base (framebufferSize boot.framebuffer))).card ≤ 3)
    (hpool : 9 ≤ s.pool.length) :
    ∃ s', mapKernel r boot 288 0xfee00000 s = (.ok (), s') ∧
      s.pool.length ≤ s'.pool.length + 9 := by
  obtain ⟨s₁, hram, h₁, hlen₁⟩ := mapOrPanic_returns vmmWrite "VMM: identity map failed" h
    (show (tablesFor (alignDown 0) (rangePages 0 (288 * 4096))).card ≤ 3 by decide +kernel) (by omega)
  have hframebuffer : ∃ s₂, mapFramebuffer r boot.framebuffer s₁ = (.ok (), s₂) ∧ Good r s₂ ∧
      s₁.pool.length ≤ s₂.pool.length + 3 := by
    unfold mapFramebuffer
    split
    · exact mapOrPanic_returns _ _ h₁ hfb (by omega)
    · exact ⟨s₁, rfl, h₁, Nat.le_add_right _ _⟩
  obtain ⟨s₂, hfbrun, h₂, hlen₂⟩ := hframebuffer
  obtain ⟨s₃, hlapic, -, hlen₃⟩ := mapOrPanic_returns (vmmWrite ||| vmmNx)
    "VMM: LAPIC map failed" h₂
    (show (tablesFor (alignDown 0xfee00000) (rangePages 0xfee00000 4096)).card ≤ 3 by decide)
    (by omega)
  refine ⟨s₃, ?_, by omega⟩
  rw [mapKernel, Exec.bind_ok hram, Exec.bind_ok hfbrun, mapLapic, if_pos (by decide)]
  exact hlapic

/-- `vmm_init` returns on the small machine, with a framebuffer of few tables. -/
theorem small_vmmInit (boot : BootInfo)
    (hfb : (tablesFor (alignDown boot.framebuffer.base)
      (rangePages boot.framebuffer.base (framebufferSize boot.framebuffer))).card ≤ 3) :
    ∃ k s₁, smallPhys.run (vmmInit boot smallPhys.pmm.totalPageCount 0xfee00000) = (.ok k, s₁) ∧
      freeFrames s₁.pmm ≠ [] := by
  have hlength : smallPhys.machine.pool.length = 31 := by
    decide
  have hnodup : smallPhys.machine.pool.Nodup := by
    rw [machine_pool]
    exact nodup_freeFrames smallPhys_addressable
  have halloc : ∀ q ∈ smallPhys.machine.pool, Allocatable q := fun q hq =>
    allocatable_freeFrames smallPhys_addressable (by rwa [machine_pool] at hq)
  have hpos : 0 < smallPhys.machine.pool.length := by omega
  obtain ⟨page, pool, hpool⟩ := List.exists_cons_of_length_pos hpos
  have hroot := newTable_apply hpool
  obtain ⟨hk, hgood, -⟩ := good_newTable hnodup halloc hroot
  have hlen : (cleared smallPhys.machine page pool).pool.length = 30 := by
    have hcons := congrArg List.length hpool
    rw [List.length_cons] at hcons
    change pool.length = 30
    omega
  obtain ⟨m, hmaps, hleft⟩ := mapKernel_returns (r := ⟨page, hk⟩) boot hgood hfb (by omega)
  have hinit : vmmInit boot smallPhys.pmm.totalPageCount 0xfee00000 smallPhys.machine =
      (.ok page, m) := by
    rw [vmmInit, Exec.bind_ok hroot]
    exact (Exec.bind_ok hmaps).trans rfl
  obtain ⟨-, -, hsuffix, -⟩ := Kernel.vmmInit_spec hnodup halloc hinit
  rcases hrun : smallPhys.run (vmmInit boot smallPhys.pmm.totalPageCount 0xfee00000) with ⟨res, s₁⟩
  obtain ⟨m', hm', hmachine⟩ := Phys.run_eq hrun
  cases hinit.symm.trans hm'
  refine ⟨page, s₁, rfl, fun hnil => ?_⟩
  have hempty := congrArg Machine.pool (hmachine hsuffix)
  rw [machine_pool, hnil] at hempty
  rw [← hempty] at hleft
  simp only [List.length_nil] at hleft
  omega

end Small

end OreOS.Kernel
