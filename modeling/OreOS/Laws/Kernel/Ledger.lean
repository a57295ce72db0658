import OreOS.Laws.Kernel.Pmm
import OreOS.Lib.Run

/-!
# The page allocator keeps its books

After `pmm_init` allocations and frees only move pages between the clear bits
and the clients. `Ledger.Inv` says where each page is, in terms of the pages of
all live allocations together; it is kept by a call that frees live pages only,
and the accounts (`Ledger.Accounted`) are read off it.
-/

namespace OreOS.Kernel

open OreOS.Lib (Word Mem Bits Run)

/-- The books of the allocator: live allocations are apart and on pages that
may be handed out, and the counters count what they are named for. -/
structure Ledger.Accounted (boot : BootInfo) (s : Ledger) : Prop where
  nodup : ∀ pages ∈ s.live, pages.Nodup
  disjoint : s.live.Pairwise List.Disjoint
  pages : ∀ pages ∈ s.live, ∀ page ∈ pages, PageOk boot s.pmm page
  free : s.pmm.freePageCount.toNat = (s.pmm.bitmap.free s.pmm.totalPageCount.toNat).card
  used : s.pmm.usedPageCount.toNat = (s.live.map List.length).sum
  sum : s.pmm.freePageCount.toNat + s.pmm.usedPageCount.toNat + s.pmm.reservedPageCount.toNat =
    s.pmm.totalPageCount.toNat

/-! ## Where the pages are -/

structure Ledger.Inv (boot : BootInfo) (s : Ledger) : Prop where
  counted : Counted s.pmm
  small : s.pmm.totalPageCount.toNat ≤ 2 ^ 52
  used : s.pmm.usedPageCount.toNat = s.live.flatten.length
  nodup : s.live.flatten.Nodup
  taken : ∀ q ∈ s.live.flatten, s.pmm.bitmap q = true ∧ PageOk boot s.pmm q
  clear : ∀ q, q < s.pmm.totalPageCount.toNat → s.pmm.bitmap q = false → PageOk boot s.pmm q

variable {boot : BootInfo}

theorem PageOk.congr {s s' : Pmm} {q : Nat} (h : PageOk boot s q)
    (htotal : s'.totalPageCount = s.totalPageCount) (haddr : s'.bitmapAddr = s.bitmapAddr)
    (hbytes : s'.bitmapBytes = s.bitmapBytes) : PageOk boot s' q :=
  ⟨h.low, htotal ▸ h.total, h.usable, h.kernel, by rw [haddr, hbytes]; exact h.bitmap, h.initramfs,
    h.bootInfo⟩

theorem Ready.inv {s : Pmm} (h : Ready boot s) : Ledger.Inv boot { pmm := s } where
  counted := h.counted
  small := h.small
  used := by rw [h.unused]; rfl
  nodup := List.nodup_nil
  taken := by simp
  clear := h.clear

variable {s : Ledger}

theorem Ledger.Inv.accounted (h : s.Inv boot) : s.Accounted boot where
  nodup := (List.nodup_flatten.mp h.nodup).1
  disjoint := (List.nodup_flatten.mp h.nodup).2
  pages := fun pages hpages q hq => (h.taken q (List.mem_flatten.mpr ⟨pages, hpages, hq⟩)).2
  free := h.counted.free
  used := by rw [h.used, List.length_flatten]
  sum := h.counted.sum

/-! ## Allocation -/

/-- The run that is found is clear, and inside the pages searched. The run that
has been counted so far begins at `startPage` and ends before `page`. -/
theorem findRun_spec {bitmap : Bits} {count first rounds page run startPage found : Nat}
    (hrun : run < count) (hfirst : first ≤ page)
    (hclear : run ≠ 0 → first ≤ startPage ∧ startPage + run = page ∧
      ∀ q, startPage ≤ q → q < page → bitmap q = false)
    (h : findRun bitmap count rounds page run startPage = some found) :
    first ≤ found ∧ found + count ≤ page + rounds ∧
      ∀ q, found ≤ q → q < found + count → bitmap q = false := by
  induction rounds generalizing page run startPage with
  | zero => cases h
  | succ rounds ih =>
    rw [findRun] at h
    split at h
    next =>
      obtain ⟨hlow, hhigh, hbits⟩ :=
        ih (by omega) (by omega) (fun hne => absurd rfl hne) h
      exact ⟨hlow, by omega, hbits⟩
    next hbit =>
      dsimp only at h
      -- Either way the run now begins where it began, or here, and has this page.
      have hnow : first ≤ (if run = 0 then page else startPage) ∧
          (if run = 0 then page else startPage) + (run + 1) = page + 1 ∧
          ∀ q, (if run = 0 then page else startPage) ≤ q → q < page + 1 → bitmap q = false := by
        split
        next hzero =>
          refine ⟨hfirst, by omega, fun q hq hq' => ?_⟩
          rw [show q = page by omega]
          exact Bool.eq_false_iff.mpr hbit
        next hne =>
          obtain ⟨hlow, hlen, hbits⟩ := hclear hne
          refine ⟨hlow, by omega, fun q hq hq' => ?_⟩
          rcases Nat.lt_succ_iff_lt_or_eq.mp hq' with hlt | rfl
          · exact hbits q hq hlt
          · exact Bool.eq_false_iff.mpr hbit
      split at h
      next hfull =>
        cases h
        obtain ⟨hlow, hlen, hbits⟩ := hnow
        exact ⟨hlow, by omega, fun q hq hq' => hbits q hq (by omega)⟩
      next =>
        obtain ⟨hlow, hhigh, hbits⟩ := ih (by omega) (by omega) (fun _ => hnow) h
        exact ⟨hlow, by omega, hbits⟩

/-- What `pmm_alloc_pages` can do: nothing, or take a run of clear bits. -/
theorem pmmAllocPages_cases (count : BitVec 32) (s : Pmm) :
    pmmAllocPages count s = (none, s) ∨
    ∃ start, 0 < count.toNat ∧ firstPage ≤ start ∧
      start + count.toNat ≤ s.totalPageCount.toNat ∧
      (∀ q ∈ List.range' start count.toNat, s.bitmap q = false) ∧
      pmmAllocPages count s = (some (BitVec.ofNat 64 start * 4096),
        { s with
          bitmap := s.bitmap.setAll (List.range' start count.toNat)
          freePageCount := s.freePageCount - count.setWidth 64
          usedPageCount := s.usedPageCount + count.setWidth 64 }) := by
  by_cases hzero : count = 0
  · exact .inl (by rw [pmmAllocPages, if_pos hzero])
  have hpos : 0 < count.toNat := by bv_omega
  rw [pmmAllocPages, if_neg hzero]
  cases hfind : findRun s.bitmap count.toNat (s.totalPageCount.toNat - firstPage) firstPage 0 0 with
  | none => exact .inl rfl
  | some start =>
    obtain ⟨hlow, hhigh, hbits⟩ :=
      findRun_spec hpos (le_refl firstPage) (fun hne => absurd rfl hne) hfind
    refine .inr ⟨start, hpos, hlow, by omega, fun q hq => ?_, rfl⟩
    rw [List.mem_range'_1] at hq
    exact hbits q hq.1 hq.2

variable {count : BitVec 32}

theorem runPages_ofNat {start : Nat} (h : start < 2 ^ 52) :
    runPages (BitVec.ofNat 64 start * 4096) count = List.range' start count.toNat := by
  rw [runPages]
  congr 1
  rw [pageNumber, BitVec.toNat_mul, BitVec.toNat_ofNat, show (4096 : Word).toNat = 4096 from rfl]
  omega

variable {s' : Ledger}

theorem Ledger.Inv.alloc (h : s.Inv boot) (hstep : s.step (.alloc count) = some s') :
    s'.Inv boot := by
  rw [Ledger.step] at hstep
  obtain hnone | ⟨start, hpos, hlow, hhigh, hbits, hsome⟩ := pmmAllocPages_cases count s.pmm
  · rw [hnone] at hstep
    cases hstep
    exact h
  rw [hsome] at hstep
  cases hstep
  have hsmall := h.small
  rw [runPages_ofNat (by omega)]
  have hlt : ∀ q ∈ List.range' start count.toNat, q < s.pmm.totalPageCount.toNat := by
    intro q hq
    rw [List.mem_range'_1] at hq
    omega
  have hnew : ∀ q ∈ List.range' start count.toNat, q ∉ s.live.flatten := by
    intro q hq hmem
    have := (h.taken q hmem).1
    rw [hbits q hq] at this
    cases this
  have hcard := Bits.card_free_setAll (List.nodup_range' (s := start) (n := count.toNat))
    fun q hq => ⟨hlt q hq, hbits q hq⟩
  rw [List.length_range'] at hcard
  have hfree := h.counted.free
  have hsum := h.counted.sum
  have hused := h.used
  have hwidth : (count.setWidth 64).toNat = count.toNat := by bv_omega
  have hdec : (s.pmm.freePageCount - count.setWidth 64).toNat =
      s.pmm.freePageCount.toNat - count.toNat := by
    bv_omega
  have hinc : (s.pmm.usedPageCount + count.setWidth 64).toNat =
      s.pmm.usedPageCount.toNat + count.toNat := by
    bv_omega
  refine ⟨⟨?_, ?_⟩, hsmall, ?_, ?_, ?_, ?_⟩
  · change (s.pmm.freePageCount - count.setWidth 64).toNat = _
    rw [hdec]
    change _ = (Bits.free (s.pmm.bitmap.setAll _) s.pmm.totalPageCount.toNat).card
    omega
  · change (s.pmm.freePageCount - count.setWidth 64).toNat +
      (s.pmm.usedPageCount + count.setWidth 64).toNat + s.pmm.reservedPageCount.toNat =
      s.pmm.totalPageCount.toNat
    omega
  · change (s.pmm.usedPageCount + count.setWidth 64).toNat = _
    rw [hinc, hused, List.flatten_append, List.length_append]
    simp
  · rw [List.flatten_append, List.flatten_singleton, List.nodup_append']
    exact ⟨h.nodup, List.nodup_range', fun q hq hq' => hnew q hq' hq⟩
  · intro q hq
    rw [List.flatten_append, List.flatten_singleton, List.mem_append] at hq
    change s.pmm.bitmap.setAll (List.range' start count.toNat) q = true ∧ _
    rw [Bits.setAll_apply]
    rcases hq with hq | hq
    · obtain ⟨hbit, hok⟩ := h.taken q hq
      exact ⟨by rw [hbit]; rfl, hok.congr rfl rfl rfl⟩
    · exact ⟨by simp only [hq, decide_true, Bool.or_true],
        (h.clear q (hlt q hq) (hbits q hq)).congr rfl rfl rfl⟩
  · intro q hq hclear
    change s.pmm.bitmap.setAll (List.range' start count.toNat) q = false at hclear
    rw [Bits.setAll_apply, Bool.or_eq_false_iff] at hclear
    exact (h.clear q hq hclear.1).congr rfl rfl rfl

/-! ## Frees -/

theorem freePage_taken {s : Pmm} {q : Nat} (h : Counted s) (hq : q < s.totalPageCount.toNat)
    (hbit : s.bitmap q = true) (hused : 0 < s.usedPageCount.toNat) :
    Counted (freePage s q) ∧ (freePage s q).bitmap = s.bitmap.clear q ∧
      (freePage s q).usedPageCount.toNat + 1 = s.usedPageCount.toNat ∧
      (freePage s q).totalPageCount = s.totalPageCount ∧
      (freePage s q).bitmapAddr = s.bitmapAddr ∧ (freePage s q).bitmapBytes = s.bitmapBytes := by
  have hne : s.usedPageCount ≠ 0 := by bv_omega
  have hcard := Bits.card_free_clear hq hbit
  have hfree := h.free
  have hsum := h.sum
  have hinc : (s.freePageCount + 1).toNat = s.freePageCount.toNat + 1 := by bv_omega
  have hdec : (s.usedPageCount - 1).toNat = s.usedPageCount.toNat - 1 := by bv_omega
  rw [freePage, if_pos ⟨hq, hbit⟩, if_pos hne]
  refine ⟨⟨?_, ?_⟩, rfl, ?_, rfl, rfl, rfl⟩
  · change (s.freePageCount + 1).toNat = (Bits.free (s.bitmap.clear q) s.totalPageCount.toNat).card
    omega
  · change (s.freePageCount + 1).toNat + (s.usedPageCount - 1).toNat + s.reservedPageCount.toNat =
      s.totalPageCount.toNat
    omega
  · change (s.usedPageCount - 1).toNat + 1 = s.usedPageCount.toNat
    omega

theorem foldl_freePage {pages : List Nat} {s : Pmm} (h : Counted s) (hnodup : pages.Nodup)
    (hset : ∀ q ∈ pages, q < s.totalPageCount.toNat ∧ s.bitmap q = true)
    (hused : pages.length ≤ s.usedPageCount.toNat) :
    Counted (pages.foldl freePage s) ∧
      (∀ q, (pages.foldl freePage s).bitmap q = (s.bitmap q && decide (q ∉ pages))) ∧
      (pages.foldl freePage s).usedPageCount.toNat + pages.length = s.usedPageCount.toNat ∧
      (pages.foldl freePage s).totalPageCount = s.totalPageCount ∧
      (pages.foldl freePage s).bitmapAddr = s.bitmapAddr ∧
      (pages.foldl freePage s).bitmapBytes = s.bitmapBytes := by
  induction pages generalizing s with
  | nil => exact ⟨h, fun q => by simp, rfl, rfl, rfl, rfl⟩
  | cons page pages ih =>
    obtain ⟨hnew, hrest⟩ := List.nodup_cons.mp hnodup
    rw [List.length_cons] at hused
    have hhead := hset page (by simp)
    obtain ⟨hcounted, hbitmap, hdec, htotal, haddr, hbytes⟩ :=
      freePage_taken h hhead.1 hhead.2 (by omega)
    have hset' : ∀ q ∈ pages, q < (freePage s page).totalPageCount.toNat ∧
        (freePage s page).bitmap q = true := by
      intro q hq
      have hold := hset q (List.mem_cons_of_mem _ hq)
      have hne : q ≠ page := fun heq => hnew (heq ▸ hq)
      rw [htotal, hbitmap]
      exact ⟨hold.1, by simp [hold.2, hne]⟩
    obtain ⟨hcounted', hbits', hused', htotal', haddr', hbytes'⟩ :=
      ih hcounted hrest hset' (by omega)
    refine ⟨hcounted', fun q => ?_, ?_, htotal'.trans htotal, haddr'.trans haddr,
      hbytes'.trans hbytes⟩
    · rw [List.foldl_cons, hbits' q, hbitmap, Bits.clear_apply, Bool.and_assoc]
      congr 1
      simp [not_or]
    · rw [List.foldl_cons, List.length_cons]
      omega

theorem length_filter_notMem {L ps : List Nat} (hL : L.Nodup) (hps : ps.Nodup)
    (hsub : ∀ q ∈ ps, q ∈ L) : (L.filter (· ∉ ps)).length + ps.length = L.length := by
  have hperm : (L.filter (· ∈ ps)).Perm ps := by
    rw [List.perm_ext_iff_of_nodup (hL.filter _) hps]
    intro q
    rw [List.mem_filter, decide_eq_true_eq]
    exact ⟨fun h => h.2, fun h => ⟨hsub q h, h⟩⟩
  have hsplit := List.length_eq_length_filter_add (l := L) (fun q => decide (q ∈ ps))
  rw [hperm.length_eq] at hsplit
  have hneg : L.filter (fun q => decide (q ∉ ps)) = L.filter (fun q => !decide (q ∈ ps)) := by
    simp
  rw [hneg]
  omega

theorem Ledger.Inv.free {ptr : Word} (h : s.Inv boot) (hok : s.FreesLive (.free ptr count))
    (hstep : s.step (.free ptr count) = some s') : s'.Inv boot := by
  rw [Ledger.step] at hstep
  cases hstep
  by_cases hnull : ptr = 0
  · rw [if_pos hnull, pmmFreePages, if_pos (.inl hnull)]
    exact h
  have hlive : ∀ q ∈ runPages ptr count, q ∈ s.live.flatten := hok.resolve_left hnull
  have hfold : pmmFreePages ptr count s.pmm = (runPages ptr count).foldl freePage s.pmm := by
    rw [pmmFreePages]
    split
    next hzero =>
      rw [runPages, hzero.resolve_left hnull]
      rfl
    next => rfl
  have hnodup : (runPages ptr count).Nodup := List.nodup_range'
  have hlen := length_filter_notMem h.nodup hnodup hlive
  have hused := h.used
  have hset : ∀ q ∈ runPages ptr count, q < s.pmm.totalPageCount.toNat ∧
      s.pmm.bitmap q = true := by
    intro q hq
    obtain ⟨hbit, hpage⟩ := h.taken q (hlive q hq)
    exact ⟨hpage.total, hbit⟩
  obtain ⟨hcounted, hbits, hcount, htotal, haddr, hbytes⟩ :=
    foldl_freePage h.counted hnodup hset (by omega)
  have hflat : (s.live.map fun pages => pages.filter (· ∉ runPages ptr count)).flatten =
      s.live.flatten.filter (· ∉ runPages ptr count) := by
    rw [List.filter_flatten]
  rw [if_neg hnull, hfold]
  refine ⟨hcounted, htotal ▸ h.small, ?_, ?_, ?_, ?_⟩
  · rw [hflat]
    dsimp only
    omega
  · rw [hflat]
    exact h.nodup.filter _
  · intro q hq
    rw [hflat, List.mem_filter, decide_eq_true_eq] at hq
    obtain ⟨hbit, hpage⟩ := h.taken q hq.1
    exact ⟨by rw [hbits q, hbit]; simp [hq.2], hpage.congr htotal haddr hbytes⟩
  · intro q hq hclear
    dsimp only at hq hclear
    rw [htotal] at hq
    rw [hbits q, Bool.and_eq_false_iff, decide_eq_false_iff_not, not_not] at hclear
    rcases hclear with hclear | hfreed
    · exact (h.clear q hq hclear).congr htotal haddr hbytes
    · exact (h.taken q (hlive q hfreed)).2.congr htotal haddr hbytes

/-! ## Runs -/

theorem Ledger.Inv.step {c : PmmCall} (h : s.Inv boot) (hok : s.FreesLive c)
    (hstep : s.step c = some s') : s'.Inv boot := by
  cases c with
  | alloc count => exact h.alloc hstep
  | free ptr count => exact h.free hok hstep

/-- After `pmm_init` on a sound memory map, the books are right in every state
that allocations and frees of live pages can reach. -/
theorem ledger_accounted {mem : Mem} {boot : BootInfo} {s₀ : Pmm} {s : Ledger}
    (hstored : boot.Stored mem) (hmap : boot.MapSound) (hbounded : boot.Bounded)
    (hinit : pmmInit mem boot.address = .ok s₀)
    (hrun : Run Ledger.step Ledger.FreesLive { pmm := s₀ } s) : s.Accounted boot := by
  refine Ledger.Inv.accounted (Run.invariant ?_ ?_ hrun)
  · exact (pmmInit_ready hstored hmap hbounded hinit).inv
  · intro t c u ht hok hstep
    exact ht.step hok hstep

/-! ## A small machine, and one with the boot information in usable memory -/

theorem Ledger.step_alloc {p : Word} (h : (pmmAllocPages count s.pmm).1 = some p) :
    s.step (.alloc count) =
      some { pmm := (pmmAllocPages count s.pmm).2, live := s.live ++ [runPages p count] } := by
  rw [Ledger.step]
  generalize pmmAllocPages count s.pmm = result at h
  obtain ⟨p', pmm⟩ := result
  cases h
  rfl

/-- The words of the boot information, as far as they are used. -/
def BootInfo.words (boot : BootInfo) : List Word :=
  [0x4f524542494e464f, 0, boot.kernelBase, boot.kernelSize, boot.initramfsBase, boot.initramfsSize,
    boot.framebuffer.base, boot.framebuffer.height ++ boot.framebuffer.width,
    boot.framebuffer.pixelsPerScanline.setWidth 64, BitVec.ofNat 64 boot.memoryMap.length, 40] ++
    boot.memoryMap.flatMap fun d => [d.type, d.physicalStart, 0, d.numberOfPages, 0]

/-- Memory that has nothing but the boot information. -/
def BootInfo.memory (boot : BootInfo) : Mem := fun x =>
  (boot.words[(x - boot.address).toNat / 8]?.getD 0).extractLsb'
    (8 * ((x - boot.address).toNat % 8)) 8

/-- Four usable pages from the first megabyte on. -/
def smallBoot : BootInfo :=
  { address := 0x1000, kernelBase := 0x100000, kernelSize := 0x1000, initramfsBase := 0
    initramfsSize := 0, memoryMap := [⟨7, 0x100000, 4⟩] }

theorem outside_of_le {d : OreMemoryDescriptor} {base size : Word}
    (h : base.toNat + size.toNat ≤ d.physicalStart.toNat) :
    ∀ x, ByteOf base size x → ¬ d.Contains x.toNat := by
  intro x hx hcon
  have := d.physicalStart.isLt
  unfold ByteOf at hx
  unfold OreMemoryDescriptor.Contains at hcon
  bv_omega

theorem ledger_accounted_small : ∃ s₀ : Pmm, ∃ s : Ledger,
    pmmInit smallBoot.memory smallBoot.address = .ok s₀ ∧ s.live = [[258]] ∧
      s.Accounted smallBoot := by
  have hptr : (pmmInit smallBoot.memory smallBoot.address).toOption.map
      (fun s => (pmmAllocPages 1 s).1) = some (some 0x102000) := by
    decide +kernel
  cases hinit : pmmInit smallBoot.memory smallBoot.address with
  | error e =>
    rw [hinit] at hptr
    cases hptr
  | ok s₀ =>
    rw [hinit] at hptr
    have hptr' : (pmmAllocPages 1 s₀).1 = some 0x102000 := by simpa [Except.toOption] using hptr
    refine ⟨s₀, ⟨(pmmAllocPages 1 s₀).2, [runPages 0x102000 1]⟩, rfl,
      show [runPages 0x102000 1] = [[258]] by decide, ?_⟩
    refine ledger_accounted ⟨rfl, by decide⟩ ⟨by decide, by decide, by decide⟩
      ⟨by decide, by decide, by decide, ?_⟩ hinit
      (.snoc .refl (e := .alloc 1) trivial (Ledger.step_alloc hptr'))
    exact List.forall_mem_singleton.mpr fun _ => outside_of_le (by decide)

/-- The boot information begins 32 bytes before the end of a usable page, the first one behind
the kernel. -/
def overlaidBoot : BootInfo :=
  { address := 0x101fe0, kernelBase := 0x100000, kernelSize := 0x1000, initramfsBase := 0
    initramfsSize := 0, memoryMap := [⟨7, 0x100000, 16⟩] }

/-- The bitmap is put over the place and the size of the kernel, so that the kernel is not
reserved, and the first allocation is the page of the kernel. -/
theorem overlaidBoot_unaccounted : overlaidBoot.Stored overlaidBoot.memory ∧ overlaidBoot.MapSound ∧
    ∃ s₀ : Pmm, ∃ s : Ledger, pmmInit overlaidBoot.memory overlaidBoot.address = .ok s₀ ∧
      Run Ledger.step Ledger.FreesLive { pmm := s₀ } s ∧ ¬ s.Accounted overlaidBoot := by
  refine ⟨⟨rfl, by decide⟩, ⟨by decide, by decide, by decide⟩, ?_⟩
  have hfacts : (pmmInit overlaidBoot.memory overlaidBoot.address).toOption.map
      (fun s => (pmmAllocPages 1 s).1) = some (some 0x100000) := by
    decide +kernel
  cases hinit : pmmInit overlaidBoot.memory overlaidBoot.address with
  | error e =>
    rw [hinit] at hfacts
    cases hfacts
  | ok s₀ =>
    rw [hinit] at hfacts
    have hptr : (pmmAllocPages 1 s₀).1 = some 0x100000 := by simpa [Except.toOption] using hfacts
    refine ⟨s₀, ⟨(pmmAllocPages 1 s₀).2, [runPages 0x100000 1]⟩, rfl,
      .snoc .refl (e := .alloc 1) trivial (Ledger.step_alloc hptr), fun h => ?_⟩
    have hpage := h.pages (runPages 0x100000 1) (by simp) 256 (by decide)
    exact hpage.kernel ⟨0x100000, rfl, by decide⟩

end OreOS.Kernel
