import OreOS.Laws.Kernel.Ledger

/-!
# The bitmap after `pmm_init`, page by page

The allocator only needs that a clear bit is a page it may hand out. Here the
converse is added: no usable page is lost to the roundings of the reservations,
and the bitmap itself is put into usable memory that nothing else occupies. That
holds up to addresses that no processor has, where sums in 64 bits wrap, and up to
a kernel of no bytes in the middle of a page, for which a page is reserved.
-/

namespace OreOS.Kernel

open OreOS.Lib (Word Mem)

/-- Usable memory ends at or below 2^63, the kernel is not empty or begins with a
page and ends at least a page below the top of the address space, and the
initramfs and the boot information are not in usable memory. -/
structure BootInfo.Placed (boot : BootInfo) : Prop where
  usable : ∀ d ∈ boot.memoryMap, usableDescriptor d = true →
    d.physicalStart.toNat + d.numberOfPages.toNat * 4096 ≤ 2 ^ 63
  kernel : boot.kernelBase.toNat + boot.kernelSize.toNat ≤ 2 ^ 64 - 4096
  nonempty : boot.kernelSize ≠ 0 ∨ boot.kernelBase.toNat % 4096 = 0
  initramfs : boot.Outside boot.initramfsBase boot.initramfsSize
  bootInfo : boot.Outside boot.address sizeofBootInfo

/-- The page is in usable memory, not below 1 MiB, and nothing is in it. -/
structure Vacant (boot : BootInfo) (s : Pmm) (page : Nat) : Prop where
  usable : ∃ d ∈ boot.memoryMap, d.type = 7 ∧ d.physicalStart.toNat ≤ page * 4096 ∧
    page * 4096 + 4096 ≤ d.physicalStart.toNat + d.numberOfPages.toNat * 4096
  low : 0x100000 ≤ page * 4096
  bitmap : ¬ Meets page s.bitmapAddr s.bitmapBytes
  kernel : ¬ Meets page boot.kernelBase boot.kernelSize
  initramfs : ¬ Meets page boot.initramfsBase boot.initramfsSize
  bootInfo : ¬ Meets page boot.address sizeofBootInfo

/-- The bitmap is in one usable descriptor, not below 1 MiB, and meets nothing. -/
structure BitmapPlaced (boot : BootInfo) (s : Pmm) : Prop where
  usable : ∃ d ∈ boot.memoryMap, d.type = 7 ∧ d.physicalStart.toNat ≤ s.bitmapAddr.toNat ∧
    s.bitmapAddr.toNat + s.bitmapBytes.toNat ≤
      d.physicalStart.toNat + d.numberOfPages.toNat * 4096
  low : 0x100000 ≤ s.bitmapAddr.toNat
  kernel : ∀ x, ByteOf s.bitmapAddr s.bitmapBytes x →
    ¬ ByteOf boot.kernelBase boot.kernelSize x
  initramfs : ∀ x, ByteOf s.bitmapAddr s.bitmapBytes x →
    ¬ ByteOf boot.initramfsBase boot.initramfsSize x
  bootInfo : ∀ x, ByteOf s.bitmapAddr s.bitmapBytes x → ¬ ByteOf boot.address sizeofBootInfo x

/-! ## Reservations -/

/-- A reservation covers no page that its range does not meet, unless the range is
empty and begins inside a page. Where the end wraps, it covers less. -/
theorem Covered.meets {q : Nat} {base size : Word} (h : Covered base (base + size) q)
    (hne : size ≠ 0 ∨ base.toNat % 4096 = 0) : Meets q base size := by
  obtain ⟨hlow, hhigh⟩ := h
  have hup : (alignUp (base + size)).toNat = (base + size + 4096 - 1).toNat / 4096 * 4096 :=
    toNat_alignDown _
  rw [hup] at hhigh
  by_cases hzero : size = 0
  · have haligned := hne.resolve_left (not_not.mpr hzero)
    rw [hzero, show base + 0 = base from BitVec.add_zero base] at hhigh
    exfalso
    bv_omega
  have hpos : 0 < size.toNat := by bv_omega
  rcases Nat.eq_or_lt_of_le hlow with heq | hlt
  · refine ⟨base, heq, ?_⟩
    rw [BitVec.sub_self]
    exact hpos
  · refine ⟨BitVec.ofNat 64 (q * 4096), ?_, ?_⟩
    · rw [pageNumber, BitVec.toNat_ofNat]
      bv_omega
    · bv_omega

theorem Initialised.clear_iff {boot : BootInfo} {s : Pmm} (h : Initialised boot s)
    (hmap : boot.MapSound) (hplaced : boot.Placed) {q : Nat} (hq : q < s.totalPageCount.toNat) :
    s.bitmap q = false ↔ Vacant boot s q := by
  obtain ⟨e, he, hstorage⟩ := h.storage
  have hend := hstorage.stop.trans (hplaced.usable e he hstorage.usable)
  rw [h.clear q hq]
  constructor
  · rintro ⟨⟨d, hd, hud, hqd⟩, hspared⟩
    obtain ⟨hstart, hstop⟩ := (mem_descriptorPages (hmap.aligned d hd)).mp hqd
    refine ⟨⟨d, hd, by simpa [usableDescriptor] using hud, hstart, hstop⟩, ?_, ?_, ?_,
      not_meets_of_outside hstart hstop (hplaced.initramfs d hd hud),
      not_meets_of_outside hstart hstop (hplaced.bootInfo d hd hud)⟩
    · by_contra hlt
      refine hspared.low ⟨by simp, ?_⟩
      rw [show (alignUp lowReservedEnd).toNat = 0x100000 by decide]
      omega
    · exact fun hmeets => hspared.bitmap (hmeets.covered (by omega))
    · exact fun hmeets => hspared.kernel (hmeets.covered hplaced.kernel)
  · intro hvacant
    obtain ⟨d, hd, htype, hin⟩ := hvacant.usable
    have hlow := hvacant.low
    have hfixed : ∀ stop : Word, (alignUp stop).toNat ≤ 0x100000 → ∀ start,
        ¬ Covered start stop q := by
      intro stop hstop start hcovered
      have := hcovered.2
      omega
    refine ⟨⟨d, hd, by simpa [usableDescriptor] using htype,
      (mem_descriptorPages (hmap.aligned d hd)).mpr hin⟩, hfixed _ (by decide) _,
      hfixed _ (by decide) _, ?_, ?_, ?_, ?_⟩
    · exact fun hcovered => hvacant.bitmap (hcovered.meets (.inr hstorage.aligned))
    · exact fun hcovered => hvacant.kernel (hcovered.meets hplaced.nonempty)
    · exact fun _ hsize hcovered => hvacant.initramfs (hcovered.meets (.inl hsize))
    · exact fun hcovered => hvacant.bootInfo (hcovered.meets (.inl (by decide)))

theorem Initialised.bitmapPlaced {boot : BootInfo} {s : Pmm} (h : Initialised boot s)
    (hplaced : boot.Placed) : BitmapPlaced boot s := by
  obtain ⟨d, hd, hstorage⟩ := h.storage
  have hend := hplaced.usable d hd hstorage.usable
  have hstart := hstorage.start
  have hstop := hstorage.stop
  have hcontains : ∀ x, ByteOf s.bitmapAddr s.bitmapBytes x → d.Contains x.toNat := by
    intro x hx
    unfold ByteOf at hx
    unfold OreMemoryDescriptor.Contains
    bv_omega
  refine ⟨⟨d, hd, by simpa [usableDescriptor] using hstorage.usable, hstart, hstop⟩, hstorage.low,
    fun x hx hcon => ?_, fun x hx hcon => hplaced.initramfs d hd hstorage.usable x hcon (hcontains x hx),
    fun x hx hcon => hplaced.bootInfo d hd hstorage.usable x hcon (hcontains x hx)⟩
  have hkernel := hplaced.kernel
  have hapart := hstorage.kernel
  rw [rangesOverlap, Bool.and_eq_false_iff, decide_eq_false_iff_not, decide_eq_false_iff_not,
    BitVec.lt_def, BitVec.lt_def] at hapart
  unfold ByteOf at hx hcon
  bv_omega

/-- `pmm_init` on a sound memory map returns, if it does not panic; then the clear
bits are the vacant pages, and the bitmap is where nothing else is. -/
theorem pmmInit_exact {mem : Mem} {boot : BootInfo} (hstored : boot.Stored mem)
    (hmap : boot.MapSound) (hplaced : boot.Placed)
    (hnopanic : ∀ message, pmmInit mem boot.address ≠ .error (.panic message)) :
    ∃ s, pmmInit mem boot.address = .ok s ∧
      (∀ page < s.totalPageCount.toNat, s.bitmap page = false ↔ Vacant boot s page) ∧
      BitmapPlaced boot s := by
  rcases pmmInit_cases hstored hmap hplaced.bootInfo hplaced.usable with
    ⟨message, hpanic⟩ | ⟨s, hok, hs⟩
  · exact absurd hpanic (hnopanic message)
  · exact ⟨s, hok, fun page hpage => hs.clear_iff hmap hplaced hpage, hs.bitmapPlaced hplaced⟩

/-- Of the four pages of usable memory the first has the kernel and the second the
bitmap. -/
theorem pmmInit_exact_small :
    ∃ s, pmmInit smallBoot.memory smallBoot.address = .ok s ∧
      (∀ page < s.totalPageCount.toNat, s.bitmap page = false ↔ Vacant smallBoot s page) ∧
      BitmapPlaced smallBoot s ∧ s.bitmapAddr = 0x101000 ∧
      (List.range 4).map (fun i => s.bitmap (256 + i)) = [true, true, false, false] := by
  have hfacts : (pmmInit smallBoot.memory smallBoot.address).toOption.map (fun s =>
      (s.bitmapAddr, (List.range 4).map fun i => s.bitmap (256 + i))) =
      some (0x101000, [true, true, false, false]) := by
    decide +kernel
  have hplaced : smallBoot.Placed := by
    refine ⟨by decide, by decide, by decide, ?_, ?_⟩
    · exact List.forall_mem_singleton.mpr fun _ => outside_of_le (by decide)
    · exact List.forall_mem_singleton.mpr fun _ => outside_of_le (by decide)
  have hnopanic : ∀ message,
      pmmInit smallBoot.memory smallBoot.address ≠ .error (.panic message) := by
    intro message hpanic
    rw [hpanic] at hfacts
    cases hfacts
  obtain ⟨s, hok, hclear, hbitmap⟩ :=
    pmmInit_exact ⟨rfl, by decide⟩ ⟨by decide, by decide, by decide⟩ hplaced hnopanic
  rw [hok] at hfacts
  obtain ⟨haddr, hbits⟩ := Prod.mk.inj (Option.some.inj hfacts)
  exact ⟨s, hok, hclear, hbitmap, haddr, hbits⟩

/-- A kernel of no bytes in the middle of the first of four usable pages. -/
def emptyKernelBoot : BootInfo :=
  { address := 0x1000, kernelBase := 0x200800, kernelSize := 0, initramfsBase := 0
    initramfsSize := 0, memoryMap := [⟨7, 0x200000, 4⟩] }

/-- The page is reserved although nothing is in it. -/
theorem emptyKernel_page_taken :
    emptyKernelBoot.Stored emptyKernelBoot.memory ∧ emptyKernelBoot.MapSound ∧
    emptyKernelBoot.Outside emptyKernelBoot.initramfsBase emptyKernelBoot.initramfsSize ∧
    emptyKernelBoot.Outside emptyKernelBoot.address sizeofBootInfo ∧
    ∃ s, pmmInit emptyKernelBoot.memory emptyKernelBoot.address = .ok s ∧
      512 < s.totalPageCount.toNat ∧ Vacant emptyKernelBoot s 512 ∧ s.bitmap 512 = true := by
  have hinitramfs : emptyKernelBoot.Outside emptyKernelBoot.initramfsBase
      emptyKernelBoot.initramfsSize :=
    List.forall_mem_singleton.mpr fun _ => outside_of_le (by decide)
  have hboot : emptyKernelBoot.Outside emptyKernelBoot.address sizeofBootInfo :=
    List.forall_mem_singleton.mpr fun _ => outside_of_le (by decide)
  refine ⟨⟨rfl, by decide⟩, ⟨by decide, by decide, by decide⟩, hinitramfs, hboot, ?_⟩
  have hfacts : (pmmInit emptyKernelBoot.memory emptyKernelBoot.address).toOption.map (fun s =>
      (s.totalPageCount, s.bitmapAddr, s.bitmapBytes, s.bitmap 512)) =
      some (516, 0x201000, 0x1000, true) := by
    decide +kernel
  cases hinit : pmmInit emptyKernelBoot.memory emptyKernelBoot.address with
  | error e =>
    rw [hinit] at hfacts
    cases hfacts
  | ok s =>
    rw [hinit] at hfacts
    obtain ⟨htotal, haddr, hbytes, htaken⟩ : s.totalPageCount = 516 ∧ s.bitmapAddr = 0x201000 ∧
        s.bitmapBytes = 0x1000 ∧ s.bitmap 512 = true := by
      simpa [Except.toOption] using hfacts
    have hempty : ∀ base, ¬ Meets 512 base 0 := by
      rintro base ⟨x, -, hx⟩
      exact Nat.not_lt_zero _ hx
    refine ⟨s, rfl, by rw [htotal]; decide, ⟨⟨⟨7, 0x200000, 4⟩, by decide⟩, by decide, ?_,
      hempty _, hempty _, ?_⟩, htaken⟩
    · rw [haddr, hbytes]
      rintro ⟨x, hpage, hx⟩
      unfold pageNumber at hpage
      bv_omega
    · exact not_meets_of_outside (by decide) (by decide)
        (hboot ⟨7, 0x200000, 4⟩ (by decide) (by decide))

end OreOS.Kernel
