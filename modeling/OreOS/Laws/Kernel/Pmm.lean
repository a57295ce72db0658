import OreOS.Kernel.Pmm
import OreOS.Laws.Kernel.Translate

/-!
# What `pmm_init` builds

The counters agree with the bitmap (`Counted`) from the moment the bitmap is
built, because every round of every loop moves one bit and one unit. What the
bitmap says after `pmm_init` is that a clear bit is a page that may be handed
out (`PageOk`): `enterDescriptors` clears exactly the pages of usable
descriptors, and each reservation sets the pages of its range. The loops only
change bits of the bitmap (`SameLayout`), so boot information outside of usable
memory is read as it was.
-/

namespace OreOS.Kernel

open OreOS.Lib (Word Byte Mem Bits except_bind_ok)

/-! ## What is assumed and what is shown -/

/-- A memory map of page-aligned, pairwise disjoint descriptors that do not
wrap. -/
structure BootInfo.MapSound (boot : BootInfo) : Prop where
  aligned : ∀ d ∈ boot.memoryMap, d.physicalStart.toNat % 4096 = 0
  nowrap : ∀ d ∈ boot.memoryMap,
    d.physicalStart.toNat + d.numberOfPages.toNat * 4096 < 2 ^ 64
  disjoint : boot.memoryMap.Pairwise fun d e =>
    d.physicalStart.toNat + d.numberOfPages.toNat * 4096 ≤ e.physicalStart.toNat ∨
      e.physicalStart.toNat + e.numberOfPages.toNat * 4096 ≤ d.physicalStart.toNat

/-- The boot information is in memory at its address, and its memory map fits into the array. -/
structure BootInfo.Stored (boot : BootInfo) (mem : Mem) : Prop where
  read : bootInfo mem boot.address = boot
  entries : boot.memoryMap.length ≤ memmapMax

/-- The byte is one of the `size` bytes at `base`. -/
def ByteOf (base size x : Word) : Prop := (x - base).toNat < size.toNat

/-- The byte is in the memory that the descriptor describes. -/
def OreMemoryDescriptor.Contains (d : OreMemoryDescriptor) (x : Nat) : Prop :=
  d.physicalStart.toNat ≤ x ∧ x < d.physicalStart.toNat + d.numberOfPages.toNat * 4096

/-- No byte of the range is in usable memory. -/
def BootInfo.Outside (boot : BootInfo) (base size : Word) : Prop :=
  ∀ d ∈ boot.memoryMap, usableDescriptor d = true → ∀ x, ByteOf base size x → ¬ d.Contains x.toNat

/-- Usable memory ends at or below 2^63 and does not have the boot information in it, and the
kernel and the initramfs end at least a page below the top of the address space. -/
structure BootInfo.Bounded (boot : BootInfo) : Prop where
  usable : ∀ d ∈ boot.memoryMap, usableDescriptor d = true →
    d.physicalStart.toNat + d.numberOfPages.toNat * 4096 ≤ 2 ^ 63
  kernel : boot.kernelBase.toNat + boot.kernelSize.toNat ≤ 2 ^ 64 - 4096
  initramfs : boot.initramfsBase.toNat + boot.initramfsSize.toNat ≤ 2 ^ 64 - 4096
  bootInfo : boot.Outside boot.address sizeofBootInfo

/-- A byte of the page is in the range of `size` bytes at `base`. -/
def Meets (page : Nat) (base size : Word) : Prop :=
  ∃ x : Word, pageNumber x = page ∧ (x - base).toNat < size.toNat

/-- A page that may be handed out. -/
structure PageOk (boot : BootInfo) (s : Pmm) (page : Nat) : Prop where
  low : 0x100000 ≤ page * 4096
  total : page < s.totalPageCount.toNat
  usable : ∃ d ∈ boot.memoryMap, d.type = 7 ∧ d.physicalStart.toNat ≤ page * 4096 ∧
    page * 4096 + 4096 ≤ d.physicalStart.toNat + d.numberOfPages.toNat * 4096
  kernel : ¬ Meets page boot.kernelBase boot.kernelSize
  bitmap : ¬ Meets page s.bitmapAddr s.bitmapBytes
  initramfs : boot.initramfsBase ≠ 0 → ¬ Meets page boot.initramfsBase boot.initramfsSize
  bootInfo : ¬ Meets page boot.address sizeofBootInfo

/-! ## The bitmap in memory -/

/-- The byte that has the bit of a page. -/
theorem Pmm.memory_page (s : Pmm) (mem : Mem) (page : Word) :
    s.memory mem (s.bitmapAddr + page / 8) = s.bitmap.byte (page.toNat / 8) := by
  have hoff : (s.bitmapAddr + page / 8 - s.bitmapAddr).toNat = page.toNat / 8 := by
    rw [BitVec.add_comm, BitVec.add_sub_cancel, BitVec.toNat_udiv]
    rfl
  rw [Pmm.memory, hoff, if_pos (by omega)]

/-- A store to the byte of a page is a change of the bits in the byte. -/
theorem Pmm.memory_write (s : Pmm) (mem : Mem) (page : Word) {b : Bits} {v : Byte}
    (hbyte : ∀ i, b.byte i = if i = page.toNat / 8 then v else s.bitmap.byte i) :
    Pmm.memory { s with bitmap := b } mem =
      (s.memory mem).write (s.bitmapAddr + page / 8) [v] := by
  funext x
  by_cases hx : x = s.bitmapAddr + page / 8
  · have hsame := Pmm.memory_page { s with bitmap := b } mem page
    rw [hx, Mem.write_inside (by simp), hsame, hbyte, if_pos rfl]
    simp
  · have hdiv : (page / 8).toNat = page.toNat / 8 := BitVec.toNat_udiv ..
    generalize page / 8 = i at hx hdiv ⊢
    have hoff : (x - s.bitmapAddr).toNat ≠ page.toNat / 8 := fun heq => hx (by bv_omega)
    have hne : [v].length ≤ (x - (s.bitmapAddr + i)).toNat := by
      rw [List.length_singleton]
      bv_omega
    rw [Mem.write_outside hne, Pmm.memory, Pmm.memory]
    dsimp only
    rw [hbyte, if_neg hoff]

/-- To set a bit of the bitmap is `bitmap_set` in memory. -/
theorem Pmm.memory_set (s : Pmm) (mem : Mem) (page : Word) :
    Pmm.memory { s with bitmap := s.bitmap.set page.toNat } mem =
      bitmapSet (s.memory mem) s.bitmapAddr page := by
  rw [bitmapSet, Pmm.memory_page]
  refine s.memory_write mem page fun i => ?_
  rw [Bits.byte_set]
  split
  next h => rw [h]
  next => rfl

/-- To clear one is `bitmap_clear`. -/
theorem Pmm.memory_clear (s : Pmm) (mem : Mem) (page : Word) :
    Pmm.memory { s with bitmap := s.bitmap.clear page.toNat } mem =
      bitmapClear (s.memory mem) s.bitmapAddr page := by
  rw [bitmapClear, Pmm.memory_page]
  refine s.memory_write mem page fun i => ?_
  rw [Bits.byte_clear]
  split
  next h => rw [h]
  next => rfl

/-- And to read one is `bitmap_test`. -/
theorem bitmapTest_memory (s : Pmm) (mem : Mem) (page : Word) :
    bitmapTest (s.memory mem) s.bitmapAddr page = s.bitmap page.toNat := by
  rw [bitmapTest, Pmm.memory_page, Bool.eq_iff_iff, decide_eq_true_eq, Bits.byte_test]

/-! ## Page loops -/

variable {cond : Word → Bool} {addrs : List Word}

theorem pagesWhile_ok {n : Nat} {start : Word} (h : pagesWhile cond n start = .ok addrs) :
    ∃ k, addrs = (List.range k).map (fun i => start + BitVec.ofNat 64 (4096 * i)) ∧
      (∀ i < k, cond (start + BitVec.ofNat 64 (4096 * i)) = true) ∧
      cond (start + BitVec.ofNat 64 (4096 * k)) = false := by
  induction n generalizing start addrs with
  | zero => cases h
  | succ n ih =>
    rw [pagesWhile] at h
    split at h
    next hcond =>
      obtain ⟨rest, hrest, heq⟩ := except_bind_ok h
      cases heq
      obtain ⟨k, rfl, hin, hout⟩ := ih hrest
      have hshift : ∀ i : Nat, start + 4096 + BitVec.ofNat 64 (4096 * i) =
          start + BitVec.ofNat 64 (4096 * (i + 1)) := by bv_omega
      refine ⟨k + 1, ?_, ?_, ?_⟩
      · rw [List.range_succ_eq_map, List.map_cons, List.map_map]
        simp only [Function.comp_def, Nat.succ_eq_add_one, ← hshift]
        simp
      · intro i hi
        cases i with
        | zero => simpa using hcond
        | succ i => exact hshift i ▸ hin i (by omega)
      · exact hshift k ▸ hout
    next hcond =>
      cases h
      refine ⟨0, rfl, fun i hi => absurd hi (Nat.not_lt_zero i), ?_⟩
      simpa using hcond

theorem pagesWhile_pages {n bound : Nat} {start : Word} (h : pagesWhile cond n start = .ok addrs)
    (hlt : bound < 2 ^ 64) (hstart : start.toNat ≤ bound)
    (hbound : ∀ a : Word, a.toNat ≤ bound → cond a = true → a.toNat + 4096 ≤ bound) :
    ∃ k, addrs.map pageNumber = List.range' (pageNumber start) k ∧
      (∀ i < k, ∃ a : Word, a.toNat = start.toNat + 4096 * i ∧ a.toNat ≤ bound ∧
        cond a = true) ∧
      ∃ a : Word, a.toNat = start.toNat + 4096 * k ∧ a.toNat ≤ bound ∧ cond a = false := by
  obtain ⟨k, rfl, hin, hout⟩ := pagesWhile_ok h
  have hnat : ∀ i ≤ k, (start + BitVec.ofNat 64 (4096 * i)).toNat = start.toNat + 4096 * i ∧
      start.toNat + 4096 * i ≤ bound := by
    intro i
    induction i with
    | zero => exact fun _ => ⟨by simp, hstart⟩
    | succ i ih =>
      intro hi
      obtain ⟨hprev, hle⟩ := ih (by omega)
      have hnext := hbound _ (hprev ▸ hle) (hin i (by omega))
      rw [hprev, Nat.add_assoc, ← Nat.mul_succ] at hnext
      refine ⟨?_, hnext⟩
      rw [BitVec.toNat_add, BitVec.toNat_ofNat]
      omega
  refine ⟨k, ?_, fun i hi => ?_, ?_⟩
  · rw [List.map_map, List.range'_eq_map_range]
    refine List.map_congr_left fun i hi => ?_
    have := (hnat i (List.mem_range.mp hi).le).1
    simp only [Function.comp, pageNumber, this]
    omega
  · obtain ⟨heq, hle⟩ := hnat i hi.le
    exact ⟨_, heq, heq ▸ hle, hin i hi⟩
  · obtain ⟨heq, hle⟩ := hnat k le_rfl
    exact ⟨_, heq, heq ▸ hle, hout⟩

theorem pagesWhile_returns {bound : Nat} (n : Nat) (start : Word) (hlt : bound < 2 ^ 64)
    (hstart : start.toNat ≤ bound)
    (hbound : ∀ a : Word, a.toNat ≤ bound → cond a = true → a.toNat + 4096 ≤ bound)
    (hn : bound - start.toNat < 4096 * n) : ∃ addrs, pagesWhile cond n start = .ok addrs := by
  induction n generalizing start with
  | zero => omega
  | succ n ih =>
    rw [pagesWhile]
    split
    next hcond =>
      have hle := hbound start hstart hcond
      have hnext : (start + 4096).toNat = start.toNat + 4096 := by bv_omega
      obtain ⟨rest, hrest⟩ := ih (start + 4096) (by omega) (by omega)
      exact ⟨start :: rest, by rw [hrest]; rfl⟩
    next => exact ⟨[], rfl⟩

/-! ## Counters -/

/-- The counters agree with the bitmap. -/
structure Counted (s : Pmm) : Prop where
  free : s.freePageCount.toNat = (s.bitmap.free s.totalPageCount.toNat).card
  sum : s.freePageCount.toNat + s.usedPageCount.toNat + s.reservedPageCount.toNat =
    s.totalPageCount.toNat

/-- What initialisation fixes before it enters the first page. -/
structure SameLayout (s s' : Pmm) : Prop where
  total : s'.totalPageCount = s.totalPageCount
  maxPhys : s'.maxPhys = s.maxPhys
  bitmapAddr : s'.bitmapAddr = s.bitmapAddr
  bitmapBytes : s'.bitmapBytes = s.bitmapBytes
  used : s'.usedPageCount = s.usedPageCount
  above : ∀ q, s.totalPageCount.toNat ≤ q → s'.bitmap q = s.bitmap q

theorem SameLayout.refl (s : Pmm) : SameLayout s s := ⟨rfl, rfl, rfl, rfl, rfl, fun _ _ => rfl⟩

variable {s : Pmm}

theorem SameLayout.trans {t u : Pmm} (h : SameLayout s t) (h' : SameLayout t u) : SameLayout s u :=
  ⟨h'.1.trans h.1, h'.2.trans h.2, h'.3.trans h.3, h'.4.trans h.4, h'.5.trans h.5,
    fun q hq => (h'.6 q (h.1 ▸ hq)).trans (h.6 q hq)⟩

theorem Counted.enterPage {addr : Word} (h : Counted s) (hused : s.usedPageCount = 0)
    (hbit : s.bitmap (pageNumber addr) = true) (hlt : pageNumber addr < s.totalPageCount.toNat) :
    Counted (enterPage s addr) := by
  have hcard := Bits.card_free_clear hlt hbit
  have hle := Bits.card_free_le (b := s.bitmap.clear (pageNumber addr)) (n := s.totalPageCount.toNat)
  have hfree := h.free
  have hsum := h.sum
  have hused' : s.usedPageCount.toNat = 0 := by rw [hused]; rfl
  have hinc : (s.freePageCount + 1).toNat = s.freePageCount.toNat + 1 := by bv_omega
  have hdec : (s.reservedPageCount - 1).toNat = s.reservedPageCount.toNat - 1 := by bv_omega
  refine ⟨?_, ?_⟩
  · change (s.freePageCount + 1).toNat = _
    rw [hinc, hfree]
    exact hcard.symm
  · change (s.freePageCount + 1).toNat + s.usedPageCount.toNat + (s.reservedPageCount - 1).toNat = _
    change _ = s.totalPageCount.toNat
    omega

theorem Counted.reservePage {addr : Word} (h : Counted s)
    (hlt : pageNumber addr < s.totalPageCount.toNat) : Counted (reservePage s addr) := by
  unfold Kernel.reservePage
  split
  next => exact h
  next hbit =>
    have hcard := Bits.card_free_set hlt (Bool.eq_false_iff.mpr hbit)
    have hfree := h.free
    have hsum := h.sum
    have hne : s.freePageCount ≠ 0 := by bv_omega
    have hdec : (s.freePageCount - 1).toNat = s.freePageCount.toNat - 1 := by bv_omega
    have hinc : (s.reservedPageCount + 1).toNat = s.reservedPageCount.toNat + 1 := by bv_omega
    rw [if_pos hne]
    refine ⟨?_, ?_⟩
    · change (s.freePageCount - 1).toNat = (Bits.free (s.bitmap.set _) s.totalPageCount.toNat).card
      omega
    · change (s.freePageCount - 1).toNat + s.usedPageCount.toNat + (s.reservedPageCount + 1).toNat =
        s.totalPageCount.toNat
      omega

theorem reservePage_bitmap (s : Pmm) (addr : Word) (q : Nat) :
    (reservePage s addr).bitmap q = (s.bitmap q || decide (q = pageNumber addr)) := by
  unfold Kernel.reservePage
  split
  next hbit =>
    by_cases hq : q = pageNumber addr
    · subst hq
      rw [hbit]
      rfl
    · simp [hq]
  next => exact Bits.set_apply

theorem SameLayout.reservePage {addr : Word} (hlt : pageNumber addr < s.totalPageCount.toNat) :
    SameLayout s (reservePage s addr) := by
  have habove : ∀ q, s.totalPageCount.toNat ≤ q →
      (Kernel.reservePage s addr).bitmap q = s.bitmap q := by
    intro q hq
    rw [reservePage_bitmap, decide_eq_false (by omega), Bool.or_false]
  unfold Kernel.reservePage at habove ⊢
  split at habove
  next hbit =>
    rw [if_pos hbit]
    exact .refl s
  next hbit =>
    rw [if_neg hbit]
    exact ⟨rfl, rfl, rfl, rfl, rfl, habove⟩

/-! ## Entering the usable pages -/

/-- The pages of a descriptor. -/
def descriptorPages (d : OreMemoryDescriptor) : List Nat :=
  List.range' (pageNumber d.physicalStart) d.numberOfPages.toNat

theorem foldl_enterPage (h : Counted s) (hused : s.usedPageCount = 0)
    (hnodup : (addrs.map pageNumber).Nodup)
    (hset : ∀ q ∈ addrs.map pageNumber, s.bitmap q = true ∧ q < s.totalPageCount.toNat) :
    Counted (addrs.foldl enterPage s) ∧ SameLayout s (addrs.foldl enterPage s) ∧
      ∀ q, (addrs.foldl enterPage s).bitmap q = (s.bitmap q && decide (q ∉ addrs.map pageNumber)) := by
  induction addrs generalizing s with
  | nil => exact ⟨h, .refl s, fun q => by simp⟩
  | cons addr addrs ih =>
    obtain ⟨hnew, hrest⟩ := List.nodup_cons.mp hnodup
    have hhead := hset (pageNumber addr) (by simp)
    have habove : ∀ q, s.totalPageCount.toNat ≤ q →
        s.bitmap.clear (pageNumber addr) q = s.bitmap q := by
      intro q hq
      rw [Bits.clear_apply, decide_eq_true (by omega), Bool.and_true]
    have hsame : SameLayout s (enterPage s addr) := ⟨rfl, rfl, rfl, rfl, rfl, habove⟩
    have hset' : ∀ q ∈ addrs.map pageNumber, (enterPage s addr).bitmap q = true ∧
        q < (enterPage s addr).totalPageCount.toNat := by
      intro q hq
      have hold := hset q (List.mem_cons_of_mem _ hq)
      have hne : q ≠ pageNumber addr := fun heq => hnew (heq ▸ hq)
      refine ⟨?_, hold.2⟩
      change s.bitmap.clear (pageNumber addr) q = true
      simp [hold.1, hne]
    obtain ⟨hcounted, hlayout, hbits⟩ :=
      ih (h.enterPage hused hhead.1 hhead.2) hused hrest hset'
    refine ⟨hcounted, hsame.trans hlayout, fun q => ?_⟩
    rw [List.foldl_cons, hbits q]
    change (s.bitmap.clear (pageNumber addr) q && _) = _
    rw [Bits.clear_apply, Bool.and_assoc]
    congr 1
    simp [not_or]

variable {d : OreMemoryDescriptor}

theorem descriptor_pages (haligned : d.physicalStart.toNat % 4096 = 0)
    (hend : d.physicalStart.toNat + d.numberOfPages.toNat * 4096 ≤ 2 ^ 63) :
    ∃ addrs, pagesWhile (fun addr => addr + 4096 ≤ alignDown (descriptorEnd d)) pageRounds
      (alignUp d.physicalStart) = .ok addrs ∧ addrs.map pageNumber = descriptorPages d := by
  have hstart : (alignUp d.physicalStart).toNat = d.physicalStart.toNat := by
    rw [toNat_alignUp (by omega)]
    omega
  have hstop : (alignDown (descriptorEnd d)).toNat =
      d.physicalStart.toNat + d.numberOfPages.toNat * 4096 := by
    have hmul : (d.numberOfPages * 4096).toNat = d.numberOfPages.toNat * 4096 := by bv_omega
    have hsum : (descriptorEnd d).toNat =
        d.physicalStart.toNat + d.numberOfPages.toNat * 4096 := by
      rw [descriptorEnd, BitVec.toNat_add, hmul]
      exact Nat.mod_eq_of_lt (by omega)
    rw [toNat_alignDown, hsum]
    omega
  have hcond : ∀ a : Word, a.toNat ≤ d.physicalStart.toNat + d.numberOfPages.toNat * 4096 →
      (decide (a + 4096 ≤ alignDown (descriptorEnd d)) = true ↔
        a.toNat + 4096 ≤ d.physicalStart.toNat + d.numberOfPages.toNat * 4096) := by
    intro a ha
    have hsum : (a + 4096).toNat = a.toNat + 4096 := by bv_omega
    rw [decide_eq_true_eq, BitVec.le_def, hsum, hstop]
  obtain ⟨addrs, h⟩ := pagesWhile_returns pageRounds (alignUp d.physicalStart)
    (by omega) (by omega) (fun a ha hc => (hcond a ha).mp hc) (by unfold pageRounds; omega)
  refine ⟨addrs, h, ?_⟩
  obtain ⟨k, hpages, hin, a, hk, hle, hout⟩ :=
    pagesWhile_pages h (by omega)
      (by omega) fun a ha hc => (hcond a ha).mp hc
  have hcount : k = d.numberOfPages.toNat := by
    have hstopped := mt (hcond a hle).mpr (Bool.eq_false_iff.mp hout)
    rcases Nat.eq_zero_or_pos k with rfl | hpos
    · omega
    · omega
  rw [hpages, hcount, descriptorPages, pageNumber, hstart, pageNumber]

theorem mem_descriptorPages {q : Nat} (haligned : d.physicalStart.toNat % 4096 = 0) :
    q ∈ descriptorPages d ↔ d.physicalStart.toNat ≤ q * 4096 ∧
      q * 4096 + 4096 ≤ d.physicalStart.toNat + d.numberOfPages.toNat * 4096 := by
  rw [descriptorPages, List.mem_range'_1, pageNumber]
  omega

/-- The clear bits are the pages of the usable descriptors of the list. -/
structure Entered (ds : List OreMemoryDescriptor) (s : Pmm) : Prop where
  counted : Counted s
  unused : s.usedPageCount = 0
  clear : ∀ q, q < s.totalPageCount.toNat →
    (s.bitmap q = false ↔ ∃ d ∈ ds, usableDescriptor d = true ∧ q ∈ descriptorPages d)

variable {ds : List OreMemoryDescriptor}

theorem Entered.snoc (h : Entered ds s) (hd : usableDescriptor d = false) :
    Entered (ds ++ [d]) s := by
  refine ⟨h.counted, h.unused, fun q hq => ?_⟩
  rw [h.clear q hq]
  simp [or_and_right, exists_or, hd]

theorem Entered.enterDescriptor (h : Entered ds s) (hd : usableDescriptor d = true)
    (haligned : d.physicalStart.toNat % 4096 = 0)
    (hend : d.physicalStart.toNat + d.numberOfPages.toNat * 4096 ≤ 2 ^ 63)
    (htotal : d.physicalStart.toNat + d.numberOfPages.toNat * 4096 ≤
      s.totalPageCount.toNat * 4096)
    (hapart : ∀ e ∈ ds, usableDescriptor e = true → List.Disjoint (descriptorPages e)
      (descriptorPages d)) :
    ∃ s', enterDescriptor s d = .ok s' ∧ Entered (ds ++ [d]) s' ∧ SameLayout s s' := by
  obtain ⟨addrs, hloop, hpages⟩ := descriptor_pages haligned hend
  have hset : ∀ q ∈ addrs.map pageNumber,
      s.bitmap q = true ∧ q < s.totalPageCount.toNat := by
    intro q hq
    rw [hpages] at hq
    have hlt : q < s.totalPageCount.toNat := by
      have := ((mem_descriptorPages haligned).mp hq).2
      omega
    refine ⟨?_, hlt⟩
    rw [← Bool.not_eq_false, h.clear q hlt]
    rintro ⟨e, he, hue, hqe⟩
    exact hapart e he hue hqe hq
  have hnodup : (addrs.map pageNumber).Nodup := by
    rw [hpages]
    exact List.nodup_range'
  obtain ⟨hcounted, hlayout, hbits⟩ := foldl_enterPage h.counted h.unused hnodup hset
  refine ⟨addrs.foldl enterPage s, by rw [Kernel.enterDescriptor, hloop]; rfl,
    ⟨hcounted, hlayout.used.trans h.unused, fun q hq => ?_⟩, hlayout⟩
  rw [hbits q, Bool.and_eq_false_iff, h.clear q (hlayout.total ▸ hq), hpages]
  simp only [decide_eq_false_iff_not, not_not, List.mem_append, List.mem_singleton,
    or_and_right, exists_or, exists_eq_left, hd, true_and]

theorem descriptorPages_disjoint {e : OreMemoryDescriptor} (hd : d.physicalStart.toNat % 4096 = 0)
    (he : e.physicalStart.toNat % 4096 = 0)
    (h : d.physicalStart.toNat + d.numberOfPages.toNat * 4096 ≤ e.physicalStart.toNat ∨
      e.physicalStart.toNat + e.numberOfPages.toNat * 4096 ≤ d.physicalStart.toNat) :
    List.Disjoint (descriptorPages d) (descriptorPages e) := by
  intro q hqd hqe
  have hqd' := (mem_descriptorPages hd).mp hqd
  have hqe' := (mem_descriptorPages he).mp hqe
  omega

variable {mem : Mem} {address : Word}

/-- The loop over the memory map, when it reads the same map in every round, enters the pages of
the usable descriptors. -/
theorem enterDescriptors_entered {before : List OreMemoryDescriptor} (n : Nat) (h : Entered before s)
    (hreads : ∀ u, SameLayout s u → (bootInfo (u.memory mem) address).memoryMap = before ++ ds)
    (hn : ds.length < n)
    (haligned : ∀ d ∈ before ++ ds, d.physicalStart.toNat % 4096 = 0)
    (hapart : (before ++ ds).Pairwise fun d e =>
      d.physicalStart.toNat + d.numberOfPages.toNat * 4096 ≤ e.physicalStart.toNat ∨
        e.physicalStart.toNat + e.numberOfPages.toNat * 4096 ≤ d.physicalStart.toNat)
    (hend : ∀ d ∈ ds, usableDescriptor d = true →
      d.physicalStart.toNat + d.numberOfPages.toNat * 4096 ≤ 2 ^ 63)
    (htotal : ∀ d ∈ ds, usableDescriptor d = true →
      d.physicalStart.toNat + d.numberOfPages.toNat * 4096 ≤ s.totalPageCount.toNat * 4096) :
    ∃ s', enterDescriptors mem address n before.length s = .ok s' ∧ Entered (before ++ ds) s' ∧
      SameLayout s s' := by
  obtain ⟨n, rfl⟩ := Nat.exists_eq_add_one_of_ne_zero (Nat.ne_zero_of_lt hn)
  induction ds generalizing before s n with
  | nil =>
    rw [enterDescriptors, hreads s (.refl s), List.append_nil, List.getElem?_eq_none le_rfl]
    exact ⟨s, rfl, h, .refl _⟩
  | cons d ds ih =>
    have hassoc : before ++ d :: ds = (before ++ [d]) ++ ds := by simp
    have hnext : (before ++ [d]).length = before.length + 1 := by simp
    obtain ⟨n, rfl⟩ : ∃ k, n = k + 1 :=
      Nat.exists_eq_add_one_of_ne_zero (Nat.ne_zero_of_lt (Nat.lt_of_succ_lt_succ hn))
    rw [enterDescriptors, hreads s (.refl s), List.getElem?_append_right le_rfl, Nat.sub_self]
    rw [hassoc] at hreads haligned hapart ⊢
    dsimp only [List.getElem?_cons_zero]
    split
    next hd =>
      have hbefore : ∀ e ∈ before, usableDescriptor e = true →
          List.Disjoint (descriptorPages e) (descriptorPages d) := by
        intro e he _
        refine descriptorPages_disjoint (haligned e (by simp [he])) (haligned d (by simp)) ?_
        exact (List.pairwise_append.mp (List.pairwise_append.mp hapart).1).2.2 e he d (by simp)
      obtain ⟨t, hone, hentered, hlayout⟩ := h.enterDescriptor hd (haligned d (by simp))
        (hend d (by simp) hd) (htotal d (by simp) hd) hbefore
      obtain ⟨s', hrest, hentered', hlayout'⟩ := ih hentered
        (fun u hu => hreads u (hlayout.trans hu)) haligned hapart
        (fun e he => hend e (List.mem_cons_of_mem _ he))
        (fun e he => hlayout.total ▸ htotal e (List.mem_cons_of_mem _ he)) n
        (Nat.lt_of_succ_lt_succ hn)
      refine ⟨s', ?_, hentered', hlayout.trans hlayout'⟩
      rw [hone, ← hnext]
      exact hrest
    next hd =>
      rw [← hnext]
      exact ih (h.snoc (Bool.eq_false_iff.mpr hd)) hreads haligned hapart
        (fun e he => hend e (List.mem_cons_of_mem _ he))
        (fun e he => htotal e (List.mem_cons_of_mem _ he)) n (Nat.lt_of_succ_lt_succ hn)

/-! ## The top of memory and the storage of the bitmap -/

theorem descriptorEnd_toNat (h : d.physicalStart.toNat + d.numberOfPages.toNat * 4096 < 2 ^ 64) :
    (descriptorEnd d).toNat = d.physicalStart.toNat + d.numberOfPages.toNat * 4096 := by
  have hmul : (d.numberOfPages * 4096).toNat = d.numberOfPages.toNat * 4096 := by bv_omega
  rw [descriptorEnd, BitVec.toNat_add, hmul]
  exact Nat.mod_eq_of_lt (by omega)

/-- The top of memory is above every usable descriptor, and it is where one of
them ends. -/
theorem findMaxPhys_spec (ds : List OreMemoryDescriptor) (m : Word) :
    m ≤ findMaxPhys m ds ∧
      (∀ d ∈ ds, usableDescriptor d = true → descriptorEnd d ≤ findMaxPhys m ds) ∧
      (findMaxPhys m ds = m ∨
        ∃ d ∈ ds, usableDescriptor d = true ∧ findMaxPhys m ds = descriptorEnd d) := by
  induction ds generalizing m with
  | nil => exact ⟨BitVec.le_refl m, by simp, .inl rfl⟩
  | cons d ds ih =>
    rw [findMaxPhys]
    split
    next hd =>
      rw [Bool.and_eq_true, decide_eq_true_eq] at hd
      obtain ⟨hle, hall, htop⟩ := ih (descriptorEnd d)
      refine ⟨BitVec.le_trans (BitVec.le_of_lt hd.2) hle, ?_, ?_⟩
      · intro e he hue
        rcases List.mem_cons.mp he with rfl | he
        · exact hle
        · exact hall e he hue
      · rcases htop with heq | ⟨e, he, hue, heq⟩
        · exact .inr ⟨d, by simp, hd.1, heq⟩
        · exact .inr ⟨e, List.mem_cons_of_mem _ he, hue, heq⟩
    next hd =>
      obtain ⟨hle, hall, htop⟩ := ih m
      refine ⟨hle, ?_, ?_⟩
      · intro e he hue
        rcases List.mem_cons.mp he with rfl | he
        · rw [Bool.and_eq_true, decide_eq_true_eq] at hd
          have : ¬ descriptorEnd e > m := fun hgt => hd ⟨hue, hgt⟩
          exact BitVec.le_trans (BitVec.not_lt.mp this) hle
        · exact hall e he hue
      · rcases htop with heq | ⟨e, he, hue, heq⟩
        · exact .inl heq
        · exact .inr ⟨e, List.mem_cons_of_mem _ he, hue, heq⟩

/-- The search for a place comes to its end; a place that is found is at or above
where it began, ends before `stop`, in the naturals, and is off the kernel. -/
theorem searchStorage_spec (boot : BootInfo) {bytes stop : Word} (n : Nat) (addr : Word)
    (hstop : stop.toNat ≤ 2 ^ 63) (hbytes : bytes.toNat ≤ 2 ^ 62) (haddr : addr.toNat ≤ 2 ^ 63 + 4096)
    (hn : 2 ^ 63 + 4096 < addr.toNat + 4096 * n) :
    searchStorage boot bytes stop n addr = .ok none ∨
      ∃ found, searchStorage boot bytes stop n addr = .ok (some found) ∧
        addr.toNat ≤ found.toNat ∧ found.toNat % 4096 = addr.toNat % 4096 ∧
        found.toNat + bytes.toNat ≤ stop.toNat ∧
        rangesOverlap found (found + bytes) boot.kernelBase (boot.kernelBase + boot.kernelSize) =
          false := by
  induction n generalizing addr with
  | zero => omega
  | succ n ih =>
    have hsum : (addr + bytes).toNat = addr.toNat + bytes.toNat := by bv_omega
    rw [searchStorage]
    split
    next hle =>
      rw [BitVec.le_def, hsum] at hle
      split
      next =>
        have hnext : (addr + 4096).toNat = addr.toNat + 4096 := by bv_omega
        rcases ih (addr + 4096) (by omega) (by omega) with
          hnone | ⟨found, hfound, hlow, hmod, hrest⟩
        · exact .inl hnone
        · exact .inr ⟨found, hfound, by omega, by omega, hrest⟩
      next hoff => exact .inr ⟨addr, rfl, Nat.le_refl _, rfl, hle, Bool.eq_false_iff.mpr hoff⟩
    next => exact .inl rfl

/-- Where `find_bitmap_storage` puts the bitmap, if it does not panic. -/
structure Storage (boot : BootInfo) (bytes addr : Word) (d : OreMemoryDescriptor) : Prop where
  usable : usableDescriptor d = true
  aligned : addr.toNat % 4096 = 0
  low : 0x100000 ≤ addr.toNat
  start : d.physicalStart.toNat ≤ addr.toNat
  stop : addr.toNat + bytes.toNat ≤ d.physicalStart.toNat + d.numberOfPages.toNat * 4096
  kernel : rangesOverlap addr (addr + bytes) boot.kernelBase (boot.kernelBase + boot.kernelSize) =
    false

theorem findBitmapStorage_cases (boot : BootInfo) {bytes : Word}
    (hround : alignUp bytes / 4096 * 4096 = bytes) (hbytes : bytes.toNat ≤ 2 ^ 62)
    (hend : ∀ d ∈ ds, usableDescriptor d = true →
      d.physicalStart.toNat + d.numberOfPages.toNat * 4096 ≤ 2 ^ 63) :
    findBitmapStorage boot bytes ds = .error (.panic "PMM: no room for bitmap") ∨
      ∃ addr, findBitmapStorage boot bytes ds = .ok addr ∧ ∃ d ∈ ds, Storage boot bytes addr d := by
  induction ds with
  | nil => exact .inl rfl
  | cons d ds ih =>
    have hrest := ih fun e he => hend e (List.mem_cons_of_mem _ he)
    have hcons : (∃ addr, findBitmapStorage boot bytes ds = .ok addr ∧
        ∃ e ∈ ds, Storage boot bytes addr e) → ∃ addr, findBitmapStorage boot bytes ds = .ok addr ∧
          ∃ e ∈ d :: ds, Storage boot bytes addr e := by
      rintro ⟨addr, hfound, e, he, hstorage⟩
      exact ⟨addr, hfound, e, List.mem_cons_of_mem _ he, hstorage⟩
    rw [findBitmapStorage, hround]
    split
    next hd =>
      have htop := hend d (by simp) hd
      have hdown : (alignDown (descriptorEnd d)).toNat ≤
          d.physicalStart.toNat + d.numberOfPages.toNat * 4096 := by
        rw [toNat_alignDown, descriptorEnd_toNat (by omega)]
        omega
      have hup := toNat_alignUp (a := d.physicalStart) (by omega)
      have hstart : (storageStart d).toNat ≤ 2 ^ 63 + 4096 ∧ (storageStart d).toNat % 4096 = 0 ∧
          0x100000 ≤ (storageStart d).toNat ∧ d.physicalStart.toNat ≤ (storageStart d).toNat := by
        unfold storageStart
        split
        next hlow =>
          rw [BitVec.lt_def, hup, show lowReservedEnd.toNat = 0x100000 from rfl] at hlow
          rw [show lowReservedEnd.toNat = 0x100000 from rfl]
          omega
        next hlow =>
          rw [BitVec.lt_def, hup, show lowReservedEnd.toNat = 0x100000 from rfl] at hlow
          omega
      rcases searchStorage_spec boot pageRounds _ (hdown.trans htop) hbytes hstart.1
        (by unfold pageRounds; omega) with hnone | ⟨found, hfound, hlow, hmod, hstop, hoff⟩
      · rw [hnone]
        exact hrest.imp id hcons
      · rw [hfound]
        exact .inr ⟨found, rfl, d, by simp, hd, hmod.trans hstart.2.1, hstart.2.2.1.trans hlow,
          hstart.2.2.2.trans hlow, hstop.trans hdown, hoff⟩
    next => exact hrest.imp id hcons

/-- Above the bound the sum wraps: 2^49 bytes are put into one page below the top. -/
example : findBitmapStorage
    { address := 0x1000, kernelBase := 0x100000, kernelSize := 0, initramfsBase := 0
      initramfsSize := 0, memoryMap := [⟨7, 0xffffffffffffd000, 1⟩] }
    0x2000000000000 [⟨7, 0xffffffffffffd000, 1⟩] = .ok 0xffffffffffffd000 := by
  rfl

/-! ## Reservations -/

theorem foldl_reservePage (h : Counted s)
    (hlt : ∀ q ∈ addrs.map pageNumber, q < s.totalPageCount.toNat) :
    Counted (addrs.foldl reservePage s) ∧ SameLayout s (addrs.foldl reservePage s) ∧
      ∀ q, (addrs.foldl reservePage s).bitmap q =
        (s.bitmap q || decide (q ∈ addrs.map pageNumber)) := by
  induction addrs generalizing s with
  | nil => exact ⟨h, .refl s, fun q => by simp⟩
  | cons addr addrs ih =>
    have hsame := SameLayout.reservePage (hlt (pageNumber addr) (by simp))
    obtain ⟨hcounted, hlayout, hbits⟩ := ih (h.reservePage (hlt _ (by simp)))
      fun q hq => hsame.total ▸ hlt q (List.mem_cons_of_mem _ hq)
    refine ⟨hcounted, hsame.trans hlayout, fun q => ?_⟩
    rw [List.foldl_cons, hbits q, reservePage_bitmap, Bool.or_assoc]
    congr 1
    simp

/-- A page is in the rounded range that a reservation covers. -/
def Covered (start stop : Word) (q : Nat) : Prop :=
  start.toNat / 4096 ≤ q ∧ q * 4096 < (alignUp stop).toNat

theorem reserveRange_spec (start stop : Word) (h : Counted s) (hmax : s.maxPhys.toNat ≤ 2 ^ 63)
    (htotal : s.maxPhys.toNat = s.totalPageCount.toNat * 4096) :
    ∃ s', reserveRange start stop s = .ok s' ∧ Counted s' ∧ SameLayout s s' ∧
      ∀ q, q < s.totalPageCount.toNat →
        (s'.bitmap q = false ↔ s.bitmap q = false ∧ ¬ Covered start stop q) := by
  have hdown := toNat_alignDown start
  have hcond : ∀ a : Word, (decide (a < alignUp stop) && decide (a < s.maxPhys)) = true ↔
      a.toNat < (alignUp stop).toNat ∧ a.toNat < s.maxPhys.toNat := by
    intro a
    rw [Bool.and_eq_true, decide_eq_true_eq, decide_eq_true_eq, BitVec.lt_def, BitVec.lt_def]
  have hbound : ∀ a : Word, a.toNat ≤ 2 ^ 64 - 4096 →
      (decide (a < alignUp stop) && decide (a < s.maxPhys)) = true →
        a.toNat + 4096 ≤ 2 ^ 64 - 4096 := by
    intro a _ hc
    have := (hcond a).mp hc
    omega
  obtain ⟨addrs, hloop⟩ := pagesWhile_returns pageRounds (alignDown start)
    (show 2 ^ 64 - 4096 < 2 ^ 64 by decide) (by omega) hbound (by unfold pageRounds; omega)
  obtain ⟨k, hpages, hin, a, hk, -, hout⟩ :=
    pagesWhile_pages hloop (show 2 ^ 64 - 4096 < 2 ^ 64 by decide) (by omega) hbound
  have hfirst : pageNumber (alignDown start) = start.toNat / 4096 := by
    rw [pageNumber, hdown]
    omega
  rw [hfirst] at hpages
  have hvisited : ∀ q ∈ addrs.map pageNumber,
      q < s.totalPageCount.toNat ∧ Covered start stop q := by
    intro q hq
    rw [hpages, List.mem_range'_1] at hq
    obtain ⟨a', ha', -, hin'⟩ := hin (q - start.toNat / 4096) (by omega)
    have := (hcond a').mp hin'
    unfold Covered
    omega
  obtain ⟨hcounted, hlayout, hbits⟩ := foldl_reservePage h fun q hq => (hvisited q hq).1
  refine ⟨addrs.foldl reservePage s, by rw [reserveRange, hloop]; rfl, hcounted, hlayout,
    fun q hq => ?_⟩
  rw [hbits q, Bool.or_eq_false_iff, decide_eq_false_iff_not]
  refine and_congr_right fun _ => not_congr ⟨fun hmem => (hvisited q hmem).2, fun hcovered => ?_⟩
  rw [hpages, List.mem_range'_1]
  refine ⟨hcovered.1, ?_⟩
  -- The loop stops at the end of the range or of memory, and this page is before both.
  by_contra hge
  have hstopped := mt (hcond a).mpr (Bool.eq_false_iff.mp hout)
  have := hcovered.2
  omega

/-- The reservations, when they read the same boot information all along, set the bits of the
pages that their ranges cover. -/
theorem reserveRanges_spec {boot : BootInfo} (ranges : List (BootInfo → Option (Word × Word)))
    (hreads : ∀ u, SameLayout s u → bootInfo (u.memory mem) address = boot) (h : Counted s)
    (hmax : s.maxPhys.toNat ≤ 2 ^ 63) (htotal : s.maxPhys.toNat = s.totalPageCount.toNat * 4096) :
    ∃ s', reserveRanges mem address s ranges = .ok s' ∧ Counted s' ∧ SameLayout s s' ∧
      ∀ q, q < s.totalPageCount.toNat → (s'.bitmap q = false ↔
        s.bitmap q = false ∧ ∀ range ∈ ranges, ∀ r, range boot = some r → ¬ Covered r.1 r.2 q) := by
  induction ranges generalizing s with
  | nil => exact ⟨s, rfl, h, .refl _, fun q _ => by simp⟩
  | cons range ranges ih =>
    rw [reserveRanges, hreads s (.refl s)]
    split
    next hnone =>
      obtain ⟨s', hrest, hcounted, hlayout, hbits⟩ := ih hreads h hmax htotal
      refine ⟨s', hrest, hcounted, hlayout, fun q hq => ?_⟩
      rw [hbits q hq, List.forall_mem_cons]
      simp [hnone]
    next start stop hsome =>
      obtain ⟨t, hone, hcounted, hlayout, hbits⟩ := reserveRange_spec start stop h hmax htotal
      obtain ⟨s', hrest, hcounted', hlayout', hbits'⟩ := ih
        (fun u hu => hreads u (hlayout.trans hu)) hcounted (hlayout.maxPhys ▸ hmax)
        (by rw [hlayout.maxPhys, hlayout.total, htotal])
      refine ⟨s', ?_, hcounted', hlayout.trans hlayout', fun q hq => ?_⟩
      · rw [hone]
        exact hrest
      · rw [hbits' q (hlayout.total ▸ hq), hbits q hq, List.forall_mem_cons, and_assoc]
        simp [hsome]

/-- A reservation covers the pages that its range meets. -/
theorem Meets.covered {q : Nat} {base size : Word} (h : Meets q base size)
    (hend : base.toNat + size.toNat ≤ 2 ^ 64 - 4096) : Covered base (base + size) q := by
  obtain ⟨x, rfl, hx⟩ := h
  have hsum : (base + size).toNat = base.toNat + size.toNat := by bv_omega
  have hin : base.toNat ≤ x.toNat ∧ x.toNat < base.toNat + size.toNat := by bv_omega
  rw [Covered, toNat_alignUp (by omega), hsum, pageNumber]
  omega

/-- A page of a descriptor meets no range outside of the descriptor. -/
theorem not_meets_of_outside {d : OreMemoryDescriptor} {q : Nat} {base size : Word}
    (hstart : d.physicalStart.toNat ≤ q * 4096)
    (hstop : q * 4096 + 4096 ≤ d.physicalStart.toNat + d.numberOfPages.toNat * 4096)
    (houtside : ∀ x, ByteOf base size x → ¬ d.Contains x.toNat) : ¬ Meets q base size := by
  rintro ⟨x, rfl, hx⟩
  refine houtside x hx ⟨?_, ?_⟩
  · unfold pageNumber at hstart
    omega
  · unfold pageNumber at hstop
    omega

/-! ## Initialisation -/

/-- No reservation covers the page. -/
structure Spared (boot : BootInfo) (s : Pmm) (q : Nat) : Prop where
  low : ¬ Covered 0 lowReservedEnd q
  trampoline : ¬ Covered trampolineStart trampolineEnd q
  bitmap : ¬ Covered s.bitmapAddr (s.bitmapAddr + s.bitmapBytes) q
  kernel : ¬ Covered boot.kernelBase (boot.kernelBase + boot.kernelSize) q
  initramfs : boot.initramfsBase ≠ 0 → boot.initramfsSize ≠ 0 →
    ¬ Covered boot.initramfsBase (boot.initramfsBase + boot.initramfsSize) q
  bootInfo : ¬ Covered boot.address (boot.address + sizeofBootInfo) q

theorem spared_iff {boot : BootInfo} {q : Nat} :
    (∀ range ∈ reservedRanges s.bitmapAddr s.bitmapBytes, ∀ r, range boot = some r →
      ¬ Covered r.1 r.2 q) ↔ Spared boot s q := by
  simp only [reservedRanges, List.forall_mem_cons, Option.some.injEq, forall_eq',
    Option.ite_none_right_eq_some, and_imp, List.not_mem_nil, false_imp_iff, implies_true, and_true]
  exact ⟨fun ⟨low, trampoline, bitmap, kernel, initramfs, bootInfo⟩ =>
      ⟨low, trampoline, bitmap, kernel, fun hb hs => initramfs _ hb hs rfl, bootInfo⟩,
    fun ⟨low, trampoline, bitmap, kernel, initramfs, bootInfo⟩ =>
      ⟨low, trampoline, bitmap, kernel, fun r hb hs hr => hr ▸ initramfs hb hs, bootInfo⟩⟩

/-- What `pmm_init` leaves behind: the clear bits are the pages of usable
descriptors that no reservation covers. -/
structure Initialised (boot : BootInfo) (s : Pmm) : Prop where
  counted : Counted s
  unused : s.usedPageCount = 0
  small : s.totalPageCount.toNat ≤ 2 ^ 51
  clear : ∀ q, q < s.totalPageCount.toNat → (s.bitmap q = false ↔
    (∃ d ∈ boot.memoryMap, usableDescriptor d = true ∧ q ∈ descriptorPages d) ∧ Spared boot s q)
  storage : ∃ d ∈ boot.memoryMap, Storage boot s.bitmapBytes s.bitmapAddr d

/-- The bitmap is a whole number of pages, not a large one, and has a bit for every page. -/
theorem bitmapBytes_spec (total : Word) (h : total.toNat ≤ 2 ^ 52) :
    alignUp (alignUp ((total + 7) / 8)) / 4096 * 4096 = alignUp ((total + 7) / 8) ∧
      (alignUp ((total + 7) / 8)).toNat ≤ 2 ^ 62 ∧
      total.toNat ≤ 8 * (alignUp ((total + 7) / 8)).toNat := by
  have hsum : (total + 7).toNat = total.toNat + 7 := by bv_omega
  have hdiv : ((total + 7) / 8).toNat = (total.toNat + 7) / 8 := by
    rw [BitVec.toNat_udiv, hsum]
    rfl
  have hup := toNat_alignUp (a := (total + 7) / 8) (by omega)
  have hup' := toNat_alignUp (a := alignUp ((total + 7) / 8)) (by omega)
  refine ⟨?_, by omega, by omega⟩
  apply BitVec.eq_of_toNat_eq
  rw [BitVec.toNat_mul, BitVec.toNat_udiv, hup', show (4096 : Word).toNat = 4096 from rfl]
  omega

theorem blankPmm_entered (mem : Mem) (addr maxPhys : Word) {bytes total : Word}
    (hbits : total.toNat ≤ 8 * bytes.toNat) :
    Entered [] (blankPmm mem addr bytes maxPhys total) := by
  have hset : ∀ q < total.toNat, (blankPmm mem addr bytes maxPhys total).bitmap q = true := by
    intro q hq
    change (decide (q / 8 < bytes.toNat) || memoryBits mem addr q) = true
    rw [decide_eq_true (by omega), Bool.true_or]
  refine ⟨⟨?_, ?_⟩, rfl, fun q hq => ?_⟩
  · change 0 = (Bits.free _ total.toNat).card
    rw [eq_comm, Finset.card_eq_zero, Bits.free, Finset.filter_eq_empty_iff]
    intro q hq
    rw [hset q (Finset.mem_range.mp hq)]
    decide
  · simp [blankPmm]
  · simp [hset q hq]

/-- Outside the bitmap memory is as it was. -/
theorem SameLayout.memory_outside {u : Pmm} {addr bytes maxPhys total x : Word}
    (h : SameLayout (blankPmm mem addr bytes maxPhys total) u)
    (hbits : total.toNat ≤ 8 * bytes.toNat) (hx : bytes.toNat ≤ (x - addr).toNat) :
    u.memory mem x = mem x := by
  rw [Pmm.memory, h.bitmapAddr]
  change (if (x - addr).toNat < 2 ^ 61 then u.bitmap.byte (x - addr).toNat else mem x) = mem x
  split
  next =>
    refine Bits.byte_eq fun k hk => ?_
    rw [h.above _ (show total.toNat ≤ _ by omega)]
    change (decide ((8 * (x - addr).toNat + k) / 8 < bytes.toNat) || memoryBits mem addr _) = _
    rw [decide_eq_false (by omega), Bool.false_or, memoryBits,
      show (8 * (x - addr).toNat + k) / 8 = (x - addr).toNat by omega,
      show (8 * (x - addr).toNat + k) % 8 = k by omega, BitVec.ofNat_toNat, BitVec.setWidth_eq,
      BitVec.add_comm, BitVec.sub_add_cancel]
  next => rfl

/-- The boot information is its bytes. -/
theorem bootInfo_congr {mem' : Mem}
    (hentries : (bootInfo mem address).memoryMap.length ≤ memmapMax)
    (h : ∀ x, ByteOf address sizeofBootInfo x → mem' x = mem x) :
    bootInfo mem' address = bootInfo mem address := by
  have hbyte : ∀ j i : Nat, j + i < 10456 → mem' (address + BitVec.ofNat 64 j + BitVec.ofNat 64 i) =
      mem (address + BitVec.ofNat 64 j + BitVec.ofNat 64 i) := by
    intro j i hji
    rw [BitVec.add_assoc, ← BitVec.ofNat_add]
    refine h _ ?_
    rw [ByteOf, Mem.toNat_add_ofNat_sub address (by omega)]
    exact hji
  have h64 : ∀ k, k + 8 ≤ 10456 →
      mem'.load64 (address + BitVec.ofNat 64 k) = mem.load64 (address + BitVec.ofNat 64 k) :=
    fun k hk => Mem.load64_congr fun i hi => hbyte k i (by omega)
  have h32 : ∀ k, k + 4 ≤ 10456 →
      mem'.load32 (address + BitVec.ofNat 64 k) = mem.load32 (address + BitVec.ofNat 64 k) :=
    fun k hk => Mem.load32_congr fun i hi => hbyte k i (by omega)
  have hentry : ∀ i < 256, memoryMapEntry mem' address i = memoryMapEntry mem address i := by
    intro i hi
    have hfield : ∀ k ≤ 32, mem'.load64 (address + BitVec.ofNat 64 (88 + 40 * i) +
        BitVec.ofNat 64 k) = mem.load64 (address + BitVec.ofNat 64 (88 + 40 * i) +
          BitVec.ofNat 64 k) := by
      intro k hk
      rw [BitVec.add_assoc, ← BitVec.ofNat_add]
      exact h64 _ (by omega)
    simp only [memoryMapEntry, OreMemoryDescriptor.mk.injEq]
    exact ⟨h64 _ (by omega), hfield 8 (by decide), hfield 24 (by decide)⟩
  have hcount : (mem.load64 (address + 72)).toNat ≤ memmapMax := by simpa [bootInfo] using hentries
  simp only [bootInfo, BootInfo.mk.injEq, OreFramebuffer.mk.injEq, true_and]
  refine ⟨h64 16 (by decide), h64 24 (by decide), h64 32 (by decide), h64 40 (by decide),
    ⟨h64 48 (by decide), h32 56 (by decide), h32 60 (by decide), h32 64 (by decide)⟩, ?_⟩
  rw [show mem'.load64 (address + 72) = _ from h64 72 (by decide)]
  refine List.map_congr_left fun i hi => hentry i ?_
  exact Nat.lt_of_lt_of_le (List.mem_range.mp hi) hcount

/-- `pmm_init` panics, or it returns. -/
theorem pmmInit_cases {boot : BootInfo} (hstored : boot.Stored mem) (hmap : boot.MapSound)
    (houtside : boot.Outside boot.address sizeofBootInfo)
    (husable : ∀ d ∈ boot.memoryMap, usableDescriptor d = true →
      d.physicalStart.toNat + d.numberOfPages.toNat * 4096 ≤ 2 ^ 63) :
    (∃ message, pmmInit mem boot.address = .error (.panic message)) ∨
      ∃ s, pmmInit mem boot.address = .ok s ∧ Initialised boot s := by
  unfold pmmInit
  rw [hstored.read]
  dsimp only
  obtain ⟨-, hall, htop⟩ := findMaxPhys_spec boot.memoryMap 0
  generalize hmaxPhys : findMaxPhys 0 boot.memoryMap = maxPhys at hall htop ⊢
  split
  next => exact .inl ⟨_, rfl⟩
  next hne =>
    obtain ⟨top, htopmem, htopusable, rfl⟩ := htop.resolve_left hne
    have htopend := husable top htopmem htopusable
    have htoptoNat := descriptorEnd_toNat (hmap.nowrap top htopmem)
    have htopaligned := hmap.aligned top htopmem
    have htotal : (alignUp (descriptorEnd top) / 4096).toNat * 4096 = (descriptorEnd top).toNat := by
      rw [BitVec.toNat_udiv, toNat_alignUp (by omega), show (4096 : Word).toNat = 4096 from rfl]
      omega
    obtain ⟨hround, hbytes, hbits⟩ :=
      bitmapBytes_spec (alignUp (descriptorEnd top) / 4096) (by omega)
    generalize alignUp (descriptorEnd top) / 4096 = total at htotal hround hbytes hbits ⊢
    generalize alignUp ((total + 7) / 8) = bytes at hround hbytes hbits ⊢
    rcases findBitmapStorage_cases boot hround hbytes husable with
      hpanic | ⟨addr, hplace, d, hd, hstorage⟩
    · rw [hpanic]
      exact .inl ⟨_, rfl⟩
    have hstop := hstorage.stop.trans (husable d hd hstorage.usable)
    have hreads : ∀ u, SameLayout (blankPmm mem addr bytes (descriptorEnd top) total) u →
        bootInfo (u.memory mem) boot.address = boot := by
      intro u hu
      rw [bootInfo_congr (by rw [hstored.read]; exact hstored.entries), hstored.read]
      intro x hx
      refine hu.memory_outside hbits (Nat.not_lt.mp fun hin => ?_)
      refine houtside d hd hstorage.usable x hx ?_
      have hstart := hstorage.start
      have hend := hstorage.stop
      unfold OreMemoryDescriptor.Contains
      bv_omega
    have hbelow : ∀ d ∈ boot.memoryMap, usableDescriptor d = true →
        d.physicalStart.toNat + d.numberOfPages.toNat * 4096 ≤ total.toNat * 4096 := by
      intro d hd hud
      have := BitVec.le_def.mp (hall d hd hud)
      rw [descriptorEnd_toNat (hmap.nowrap d hd)] at this
      omega
    obtain ⟨t, henter, hentered, hlayout⟩ :=
      @enterDescriptors_entered _ _ _ _ [] entryRounds
        (blankPmm_entered mem addr (descriptorEnd top) hbits)
        (fun u hu => by rw [hreads u hu]; rfl)
        (Nat.lt_of_le_of_lt hstored.entries (by decide)) hmap.aligned hmap.disjoint husable hbelow
    rw [List.length_nil] at henter
    rw [List.nil_append] at hentered
    have hmax : t.maxPhys = descriptorEnd top := hlayout.maxPhys
    have htotal' : t.totalPageCount = total := hlayout.total
    obtain ⟨s, hreserve, hcounted, hlayout', hclear⟩ :=
      reserveRanges_spec (reservedRanges addr bytes) (fun u hu => hreads u (hlayout.trans hu))
        hentered.counted (by rw [hmax]; omega) (by rw [hmax, htotal', htotal])
    have haddr : s.bitmapAddr = addr := hlayout'.bitmapAddr.trans hlayout.bitmapAddr
    have hbytesEq : s.bitmapBytes = bytes := hlayout'.bitmapBytes.trans hlayout.bitmapBytes
    have hok {α β : Type} (a : α) (f : α → Except Halt β) : (Except.ok a >>= f) = f a := rfl
    refine .inr ⟨s, ?_, hcounted, hlayout'.used.trans hentered.unused, ?_, fun q hq => ?_, ?_⟩
    · rw [hplace]
      rw [hok, if_neg (by omega), henter, hok]
      exact hreserve
    · rw [hlayout'.total, htotal']
      omega
    · rw [← spared_iff, haddr, hbytesEq, hclear q (hlayout'.total ▸ hq),
        hentered.clear q (hlayout'.total ▸ hq)]
    · rw [haddr, hbytesEq]
      exact ⟨d, hd, hstorage⟩

/-- The same for the pages: a clear bit is a page that may be handed out. -/
structure Ready (boot : BootInfo) (s : Pmm) : Prop where
  counted : Counted s
  unused : s.usedPageCount = 0
  small : s.totalPageCount.toNat ≤ 2 ^ 52
  clear : ∀ q, q < s.totalPageCount.toNat → s.bitmap q = false → PageOk boot s q

theorem pmmInit_ready {boot : BootInfo} (hstored : boot.Stored mem) (hmap : boot.MapSound)
    (hbounded : boot.Bounded) (h : pmmInit mem boot.address = .ok s) : Ready boot s := by
  obtain ⟨s', hinit, hs⟩ : ∃ s', pmmInit mem boot.address = .ok s' ∧ Initialised boot s' := by
    rcases pmmInit_cases hstored hmap hbounded.bootInfo hbounded.usable with ⟨message, hpanic⟩ | hok
    · rw [h] at hpanic
      cases hpanic
    · exact hok
  obtain rfl : s = s' := Except.ok.inj (h.symm.trans hinit)
  have hsmall := hs.small
  refine ⟨hs.counted, hs.unused, by omega, fun q hq hclear => ?_⟩
  obtain ⟨⟨d, hd, hud, hqd⟩, hspared⟩ := (hs.clear q hq).mp hclear
  have hin := (mem_descriptorPages (hmap.aligned d hd)).mp hqd
  refine ⟨?_, hq, ⟨d, hd, ?_, hin⟩, ?_, ?_, ?_, ?_⟩
  · by_contra hlt
    refine hspared.low ⟨by simp, ?_⟩
    rw [show (alignUp lowReservedEnd).toNat = 0x100000 by decide]
    omega
  · simpa [usableDescriptor] using hud
  · exact fun hmeets => hspared.kernel (hmeets.covered hbounded.kernel)
  · obtain ⟨e, he, hplace⟩ := hs.storage
    have hend := hplace.stop.trans (hbounded.usable e he hplace.usable)
    exact fun hmeets => hspared.bitmap (hmeets.covered (by omega))
  · intro hbase hmeets
    have hsize : boot.initramfsSize ≠ 0 := by
      intro hzero
      obtain ⟨x, -, hx⟩ := hmeets
      rw [hzero] at hx
      exact Nat.not_lt_zero _ hx
    exact hspared.initramfs hbase hsize (hmeets.covered hbounded.initramfs)
  · exact not_meets_of_outside hin.1 hin.2 (hbounded.bootInfo d hd hud)

end OreOS.Kernel
