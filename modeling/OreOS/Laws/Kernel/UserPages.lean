import Mathlib.Order.Interval.Finset.Nat
import OreOS.Laws.Kernel.Phys

/-!
# Pages of a process

Physical memory while pages are mapped into a process's root and unmapped from
it. `OwnChange k users r s s'` is what such a change leaves alone: pages that
are taken stay taken and stay outside all tables, and no root but `r` has
another lookup than before. It composes, and three things are instances of it:
any computation that edits the tables of `r` below its private indices, a run
of pages taken and cleared, and the two together (`mapRun_cases`).
-/

namespace OreOS.Kernel

open OreOS.Lib (Word Mem Bits)

/-! ## Free runs -/

/-- There is a run of `n` free pages. -/
def FreeRun (pmm : Pmm) (n : Nat) : Prop :=
  ∃ start, firstPage ≤ start ∧ start + n ≤ pmm.totalPageCount.toNat ∧
    ∀ q, start ≤ q → q < start + n → pmm.bitmap q = false

theorem FreeRun.mono {pmm : Pmm} {m n : Nat} (h : FreeRun pmm n) (hle : m ≤ n) :
    FreeRun pmm m := by
  obtain ⟨start, hlow, hhigh, hclear⟩ := h
  exact ⟨start, hlow, by omega, fun q hq hq' => hclear q hq (by omega)⟩

/-- A search that ends without a run has none before it, the pages counted so far
included. -/
theorem findRun_complete {bitmap : Bits} {count rounds page run startPage start : Nat}
    (hrun : run < count) (hstart : page ≤ start + run) (hend : start + count ≤ page + rounds)
    (hclear : ∀ q, start ≤ q → q < start + count → bitmap q = false) :
    findRun bitmap count rounds page run startPage ≠ none := by
  induction rounds generalizing page run startPage with
  | zero => omega
  | succ rounds ih =>
    rw [findRun]
    split
    next hbit =>
      -- a page that is taken is in no free run, so the run begins behind it
      refine ih (by omega) ?_ (by omega)
      by_contra hcon
      rw [hclear page (by omega) (by omega)] at hbit
      cases hbit
    next =>
      dsimp only
      split
      · exact Option.some_ne_none _
      · exact ih (by omega) (by omega) (by omega)

/-- The run that is found is the lowest one. What has been counted so far does not
begin behind the run at `start`. -/
theorem findRun_least {bitmap : Bits} {count rounds page run startPage start found : Nat}
    (hrun : run < count) (hzero : run = 0 → page ≤ start)
    (hcounted : run ≠ 0 → startPage + run = page ∧ startPage ≤ start)
    (hclear : ∀ q, start ≤ q → q < start + count → bitmap q = false)
    (h : findRun bitmap count rounds page run startPage = some found) : found ≤ start := by
  induction rounds generalizing page run startPage with
  | zero => cases h
  | succ rounds ih =>
    rw [findRun] at h
    split at h
    next hbit =>
      refine ih (by omega) (fun _ => ?_) (fun hne => absurd rfl hne) h
      by_contra hcon
      rw [hclear page (by omega) (by omega)] at hbit
      cases hbit
    next =>
      dsimp only at h
      have hbegin : (if run = 0 then page else startPage) ≤ start ∧
          (if run = 0 then page else startPage) + (run + 1) = page + 1 := by
        split <;> omega
      split at h
      · cases h
        exact hbegin.1
      · exact ih (by omega) (by omega) (fun _ => hbegin.symm) h

/-- `pmm_alloc_pages` returns null exactly if there is no run of free pages. Otherwise
it takes the lowest one and no other page. The number of pages is the quotient of a
64-bit number, so that the address of the run does not wrap. -/
theorem pmmAllocPages_lowest (s : Pmm) (count : BitVec 32) (hcount : 1 ≤ count.toNat) :
    ((pmmAllocPages count s).1 = none ↔ ¬ FreeRun s count.toNat) ∧
    ((pmmAllocPages count s).1 = none → (pmmAllocPages count s).2 = s) ∧
    ∀ ptr, (pmmAllocPages count s).1 = some ptr → ∃ start, ptr = pageAddr start ∧
      (s.totalPageCount.toNat ≤ 2 ^ 52 → ptr ≠ 0 ∧ ptr.toNat = start * 4096) ∧
      IsLeast {start | firstPage ≤ start ∧ start + count.toNat ≤ s.totalPageCount.toNat ∧
        ∀ q, start ≤ q → q < start + count.toNat → s.bitmap q = false} start ∧
      ∀ q, (pmmAllocPages count s).2.bitmap q =
        (s.bitmap q || decide (start ≤ q ∧ q < start + count.toNat)) := by
  have hne : count ≠ 0 := by bv_omega
  rw [pmmAllocPages, if_neg hne]
  cases hfind : findRun s.bitmap count.toNat (s.totalPageCount.toNat - firstPage) firstPage 0 0 with
  | none =>
    refine ⟨iff_of_true rfl ?_, fun _ => rfl, fun _ hsome => by cases hsome⟩
    rintro ⟨start, hlow, hhigh, hclear⟩
    exact findRun_complete hcount hlow (by omega) hclear hfind
  | some found =>
    obtain ⟨hlow, hhigh, hclear⟩ :=
      findRun_spec hcount (le_refl firstPage) (fun hne => absurd rfl hne) hfind
    have hend : found + count.toNat ≤ s.totalPageCount.toNat := by omega
    refine ⟨iff_of_false (Option.some_ne_none _) (not_not_intro ⟨found, hlow, hend, hclear⟩),
      fun hnone => absurd hnone (Option.some_ne_none _), ?_⟩
    rintro ptr ⟨⟩
    refine ⟨found, rfl, fun htotal => ?_, ⟨⟨hlow, hend, hclear⟩, ?_⟩, fun q => ?_⟩
    · have hnat := @toNat_pageAddr found (by omega)
      refine ⟨fun hnull => ?_, hnat⟩
      rw [pageAddr, hnull] at hnat
      unfold firstPage at hlow
      simp at hnat
      omega
    · rintro start ⟨hlow', hhigh', hclear'⟩
      exact findRun_least hcount (fun _ => hlow') (fun hne => absurd rfl hne) hclear' hfind
    · change s.bitmap.setAll (List.range' found count.toNat) q = _
      rw [Bits.setAll_apply, decide_eq_decide.mpr List.mem_range'_1]

/-- Pages 256, 258 and 259 are free. -/
def holedPmm : Pmm :=
  { bitmap := fun page => page < 256 || page == 257
    bitmapAddr := 0x100000
    bitmapBytes := 4096
    maxPhys := 0x104000
    totalPageCount := 260
    freePageCount := 3
    reservedPageCount := 257
    usedPageCount := 0 }

theorem pmmAllocPages_lowest_holed : (pmmAllocPages 2 holedPmm).1 ≠ none := by
  intro hnone
  refine (pmmAllocPages_lowest holedPmm 2 (by decide)).1.mp hnone
    ⟨258, by decide, by decide, fun q hq hq' => ?_⟩
  simp [holedPmm]
  omega

/-- An allocation that fails has found no run. -/
theorem allocPages_of_freeRun {s : Phys} {count : BitVec 32} (hpos : 0 < count.toNat)
    (h : FreeRun s.pmm count.toNat) : (s.allocPages count).1 ≠ none := by
  obtain ⟨start, hlow, hhigh, hclear⟩ := h
  have hfind : findRun s.pmm.bitmap count.toNat (s.pmm.totalPageCount.toNat - firstPage)
      firstPage 0 0 ≠ none := findRun_complete hpos hlow (by omega) hclear
  have hcount : count ≠ 0 := by bv_omega
  obtain ⟨found, hfound⟩ := Option.ne_none_iff_exists'.mp hfind
  rw [Phys.allocPages, pmmAllocPages, if_neg hcount, hfound]
  exact Option.some_ne_none _

theorem length_freeFrames_taken {pmm pmm' : Pmm} {start n : Nat} (hlow : firstPage ≤ start)
    (hhigh : start + n ≤ pmm.totalPageCount.toNat)
    (hclear : ∀ q, start ≤ q → q < start + n → pmm.bitmap q = false)
    (htotal : pmm'.totalPageCount = pmm.totalPageCount)
    (htaken : ∀ q, pmm'.bitmap q = true ↔ pmm.bitmap q = true ∨ start ≤ q ∧ q < start + n) :
    (freeFrames pmm').length + n = (freeFrames pmm).length := by
  have hcard : ∀ pmm : Pmm, (freeFrames pmm).length = (clearPages pmm).toFinset.card := fun pmm => by
    rw [List.toFinset_card_of_nodup (nodup_clearPages pmm), freeFrames, List.length_map]
  have hunion : (clearPages pmm).toFinset =
      (clearPages pmm').toFinset ∪ Finset.Ico start (start + n) := by
    ext q
    simp only [Finset.mem_union, List.mem_toFinset, mem_clearPages, Finset.mem_Ico, htotal,
      ← Bool.not_eq_true, htaken]
    constructor
    · rintro ⟨hq, hq', hbit⟩
      by_cases hin : start ≤ q ∧ q < start + n
      · exact .inr hin
      · exact .inl ⟨hq, hq', fun hcon => hcon.elim hbit hin⟩
    · rintro (⟨hq, hq', hbit⟩ | ⟨hq, hq'⟩)
      · exact ⟨hq, hq', fun hset => hbit (.inl hset)⟩
      · exact ⟨by omega, by omega, by rw [hclear q hq hq']; exact Bool.false_ne_true⟩
  have hdisjoint : Disjoint (clearPages pmm').toFinset (Finset.Ico start (start + n)) := by
    rw [Finset.disjoint_left]
    intro q hq hin
    rw [List.mem_toFinset, mem_clearPages] at hq
    rw [Finset.mem_Ico] at hin
    have hset := (htaken q).mpr (.inr hin)
    rw [hq.2.2] at hset
    cases hset
  rw [hcard, hcard, hunion, Finset.card_union_of_disjoint hdisjoint, Nat.card_Ico]
  omega

/-! ## Changes below one root -/

section Own

variable {k r : Frame} {users : Frame → Prop}

/-- A table after edits of `r` was one before, or was in the pool. -/
theorem Isolated.tables_of_edits {s s' : Machine} (h : Isolated k users s) (hr : users r)
    (hs : Edits r Private s s') {r' f : Frame} (hr' : r' = k ∨ users r') (hf : Tables s' r' f) :
    Tables s r' f ∨ f.val ∈ s.pool := by
  by_cases hne : r' = r
  · subst hne
    exact (h.user r' hr).tables_of_edits hs hf
  · left
    induction hs with
    | refl => exact hf
    | tail hedits hstep ih =>
      have hiso := (h.edits hr hedits).1
      have hwithin := OwnEdit.within hstep (hiso.user r hr)
      obtain ⟨q, hq, hwalk⟩ := hf
      exact ih ⟨q, hq, (hiso.walk_other hr hwithin hr' hne hq).symm.trans hwalk⟩

/-- What a change below the root `r` leaves alone. -/
structure OwnChange (k : Frame) (users : Frame → Prop) (r : Frame) (s s' : Phys) : Prop where
  isolated : Isolated k users s'.machine
  total : s'.pmm.totalPageCount = s.pmm.totalPageCount
  taken : ∀ q, s.pmm.bitmap q = true → s'.pmm.bitmap q = true
  apart : ∀ q, q < s.pmm.totalPageCount.toNat → s.pmm.bitmap q = true →
    NotTable k users s.machine q → NotTable k users s'.machine q
  other : ∀ r', r' = k ∨ users r' → r' ≠ r → ∀ a, pte s'.machine r' a = pte s.machine r' a

theorem OwnChange.trans {s s' s'' : Phys} (h : OwnChange k users r s s')
    (h' : OwnChange k users r s' s'') : OwnChange k users r s s'' where
  isolated := h'.isolated
  total := h'.total.trans h.total
  taken q hq := h'.taken q (h.taken q hq)
  apart q hlt hq hnot := h'.apart q (h.total ▸ hlt) (h.taken q hq) (h.apart q hlt hq hnot)
  other r' hr' hne a := (h'.other r' hr' hne a).trans (h.other r' hr' hne a)

theorem OwnChange.addressable {s s' : Phys} (h : OwnChange k users r s s')
    (haddr : s.pmm.Addressable) : s'.pmm.Addressable := by
  unfold Pmm.Addressable
  rw [h.total]
  exact haddr

/-- A computation that edits the tables of `r` below its private indices. -/
theorem ownChange_run {α : Type} {s : Phys} {x : Kern α} {res : Except String α} {m : Machine}
    (hiso : Isolated k users s.machine) (haddr : s.pmm.Addressable) (hr : users r)
    (hx : x s.machine = (res, m)) (hedits : Edits r Private s.machine m) :
    ∃ s', s.run x = (res, s') ∧ OwnChange k users r s s' ∧
      ∀ a, pte s'.machine r a = pte m r a := by
  have hmachine : (s.run x).2.machine = { m with trace := [] } := by
    rw [run_machine (by rw [hx]; exact hedits.pool), hx]
  obtain ⟨hiso', hother, -⟩ := hiso.edits hr hedits
  have hresult := (@Isolated.frame _ _ _ { m with trace := [] } hiso' (List.suffix_refl _)
    fun _ _ _ _ _ => rfl).isolated
  refine ⟨(s.run x).2, Prod.ext (by rw [Phys.run, hx]) rfl, ?_, fun a => by rw [hmachine]; rfl⟩
  refine ⟨hmachine ▸ hresult, takeFrames_total _ _, fun q hq => takeFrames_taken _ hq,
    fun q hlt hq hnot g hg r' hr' htable => ?_, fun r' hr' hne a => ?_⟩
  · rw [hmachine] at htable
    -- the tables that are new were in the pool, and there no page is taken
    rcases hiso.tables_of_edits hr hedits hr' htable with hold | hpool
    · exact hnot g hg r' hr' hold
    · rw [machine_pool, mem_freeFrames] at hpool
      obtain ⟨page, -, hpage, hbit, heq⟩ := hpool
      unfold Pmm.Addressable at haddr
      have hnumber := congrArg pageNumber (hg.symm.trans heq)
      rw [pageNumber_pageAddr (by omega), pageNumber_pageAddr (by omega)] at hnumber
      rw [← hnumber, hq] at hbit
      cases hbit
  · rw [hmachine]
    exact hother r' hr' hne a

/-- A run of pages taken and written. -/
theorem ownChange_take {s s' : Phys} {start n : Nat} (hiso : Isolated k users s.machine)
    (haddr : s.pmm.Addressable) (hlow : firstPage ≤ start)
    (hhigh : start + n ≤ s.pmm.totalPageCount.toNat)
    (hclear : ∀ q, start ≤ q → q < start + n → s.pmm.bitmap q = false)
    (hmem : ChangesRun start n s.mem s'.mem)
    (htotal : s'.pmm.totalPageCount = s.pmm.totalPageCount)
    (htaken : ∀ q, s'.pmm.bitmap q = true ↔ s.pmm.bitmap q = true ∨ start ≤ q ∧ q < start + n) :
    OwnChange k users r s s' ∧
      (∀ q, start ≤ q → q < start + n → NotTable k users s'.machine q) ∧
      (∀ r', r' = k ∨ users r' → ∀ p : List (Fin 512), p.length ≤ 3 →
        tableWalk s'.machine r' p = tableWalk s.machine r' p) ∧
      ∀ r', r' = k ∨ users r' → ∀ a, pte s'.machine r' a = pte s.machine r' a := by
  have hfree : ∀ q, start ≤ q → q < start + n → NotTable k users s.machine q := fun q hq hq' =>
    hiso.notTable_of_clear (by omega) (by omega) (hclear q hq hq')
  have hstill : ∀ q, firstPage ≤ q → q < s'.pmm.totalPageCount.toNat →
      s'.pmm.bitmap q = false → NotTable k users s.machine q := by
    intro q hq hq' hbit
    rw [htotal] at hq'
    refine hiso.notTable_of_clear hq hq' (Bool.eq_false_iff.mpr fun hset => ?_)
    rw [(htaken q).mpr (.inl hset)] at hbit
    cases hbit
  have haddr' : s'.pmm.Addressable := by
    unfold Pmm.Addressable
    rw [htotal]
    exact haddr
  obtain ⟨⟨hiso', hwalk, hpte⟩, hnot⟩ := hiso.changesRun hmem hfree haddr' hstill
  refine ⟨⟨hiso', htotal, fun q hq => (htaken q).mpr (.inl hq), fun q _ _ => hnot q,
    fun r' hr' _ => hpte r' hr'⟩, fun q hq hq' => hnot q (hfree q hq hq'), hwalk, hpte⟩

/-- Pages that are in no table go back to the allocator. -/
theorem isolated_freePages {s : Phys} {start : Nat} {count : BitVec 32}
    (hiso : Isolated k users s.machine) (haddr : s.pmm.Addressable) (hlow : 0 < start)
    (hhigh : start + count.toNat ≤ s.pmm.totalPageCount.toNat)
    (hnot : ∀ q, start ≤ q → q < start + count.toNat → NotTable k users s.machine q) :
    Isolated k users (s.freePages (pageAddr start) count).machine ∧
      (s.freePages (pageAddr start) count).pmm.totalPageCount = s.pmm.totalPageCount ∧
      (∀ q, (s.freePages (pageAddr start) count).pmm.bitmap q = true ↔
        s.pmm.bitmap q = true ∧ ¬ (start ≤ q ∧ q < start + count.toNat)) ∧
      (∀ q, NotTable k users s.machine q →
        NotTable k users (s.freePages (pageAddr start) count).machine q) ∧
      ∀ r', r' = k ∨ users r' → ∀ a,
        pte (s.freePages (pageAddr start) count).machine r' a = pte s.machine r' a := by
  unfold Pmm.Addressable at haddr
  obtain ⟨htotal, htaken⟩ := pmmFreePages_taken_iff (pageAddr start) count s.pmm
  have hptr : pageAddr start ≠ 0 := by
    intro heq
    have hnat := congrArg BitVec.toNat heq
    rw [toNat_pageAddr (by omega), show (0 : Word).toNat = 0 from rfl] at hnat
    omega
  have hbits : ∀ q, (s.freePages (pageAddr start) count).pmm.bitmap q = true ↔
      s.pmm.bitmap q = true ∧ ¬ (start ≤ q ∧ q < start + count.toNat) := by
    intro q
    refine (htaken q).trans (and_congr_right fun _ => not_congr ?_)
    rw [runPages_pageAddr (by omega)]
    exact ⟨fun h => h.2.1, fun h => ⟨hptr, h, by omega⟩⟩
  obtain ⟨⟨hiso', -, hpte⟩, hkeep⟩ := @Isolated.changesRun _ _ _
    (s.freePages (pageAddr start) count) 0 0 hiso (ChangesRun.refl 0 0 s.mem)
    (fun q _ hq => by omega) (by
      unfold Pmm.Addressable
      exact htotal ▸ haddr)
    (fun q hq hlt hbit => by
      by_cases hin : start ≤ q ∧ q < start + count.toNat
      · exact hnot q hin.1 hin.2
      · refine hiso.notTable_of_clear hq (htotal ▸ hlt) (Bool.eq_false_iff.mpr fun hset => ?_)
        rw [(hbits q).mpr ⟨hset, hin⟩] at hbit
        cases hbit)
  exact ⟨hiso', htotal, hbits, hkeep, hpte⟩

/-! ## Pages mapped and unmapped -/

theorem range_wholePages {page : Nat} {size : Word} {n : Nat} (hpage : page + n ≤ 2 ^ 35)
    (hsize : size.toNat = n * 4096) :
    alignDown (pageAddr page) = pageAddr page ∧
      pageCount (pageAddr page) (alignUp (pageAddr page + size)) = n := by
  have hnat := @toNat_pageAddr page (by omega)
  obtain ⟨hdown, hrange⟩ := @range_pageAddr (pageAddr page) size page (page + n) (by omega)
    (by omega) (by omega)
  rw [rangePages, hdown] at hrange
  exact ⟨hdown, by omega⟩

theorem topPages_wholePages {page n : Nat} (hlow : 2 ^ 27 ≤ page) (hhigh : page + n ≤ 2 ^ 35) :
    TopPages Private (pageAddr page) n := by
  intro j hj
  rw [roundAddr_pageAddr, Private, tableIndex_val, toNat_pageAddr (by omega)]
  omega

theorem distinctPages_wholePages {page n : Nat} (hhigh : page + n ≤ 2 ^ 35) :
    DistinctPages (pageAddr page) n := by
  intro i hi j hj heq
  rw [roundAddr_pageAddr, roundAddr_pageAddr, pageOf_pageAddr (by omega),
    pageOf_pageAddr (by omega)] at heq
  omega

/-- From `s` to `s'` the run of `n` pages from `start` on has been taken and
mapped at `page` in the root `r`. -/
structure MapsRun (k : Frame) (users : Frame → Prop) (r : Frame) (flags : Word)
    (start page n : Nat) (s s' : Phys) : Prop where
  change : OwnChange k users r s s'
  low : firstPage ≤ start
  high : start + n ≤ s.pmm.totalPageCount.toNat
  clear : ∀ q, start ≤ q → q < start + n → s.pmm.bitmap q = false
  taken : ∀ q, start ≤ q → q < start + n → s'.pmm.bitmap q = true
  apart : ∀ q, start ≤ q → q < start + n → NotTable k users s'.machine q
  mapped : ∀ j < n, pte s'.machine r (pageAddr (page + j)) =
    some (pteValue (pageAddr (start + j)) flags)
  outside : ∀ q < 2 ^ 36, ¬ (page ≤ q ∧ q < page + n) →
    pte s'.machine r (pageAddr q) = pte s.machine r (pageAddr q)

/-- `pmm_alloc_pages`, the clearing of the pages and `vmm_map_in` one after the
other: there is no run, or there are too few frames for the tables, or the run is
mapped. -/
theorem mapRun_cases {s : Phys} {count : Word} {page : Nat} (flags : Word)
    (hiso : Isolated k users s.machine) (haddr : s.pmm.Addressable) (hr : users r)
    (hpos : 0 < count.toNat) (hcount : count.toNat ≤ 1024) (hlow : 2 ^ 27 ≤ page)
    (hhigh : page + count.toNat ≤ 2 ^ 35) :
    (s.allocPages (count.setWidth 32) = (none, s) ∧ ¬ FreeRun s.pmm count.toNat) ∨
    ∃ start p, s.allocPages (count.setWidth 32) = (some (pageAddr start), p) ∧
      ((∃ s', Phys.run { p with mem := p.mem.clear (pageAddr start) (count * 4096).toNat }
          (mapInRoot r (pageAddr page) (pageAddr start) (count * 4096) flags) = (.ok 0, s') ∧
        MapsRun k users r flags start page count.toNat s s' ∧
        count.toNat + missing s.machine r (tablesFor (pageAddr page) count.toNat) ≤
          (freeFrames s.pmm).length) ∨
      ∃ s', Phys.run { p with mem := p.mem.clear (pageAddr start) (count * 4096).toNat }
          (mapInRoot r (pageAddr page) (pageAddr start) (count * 4096) flags) =
            (.error "VMM: no page table memory", s') ∧
        (freeFrames s.pmm).length <
          count.toNat + missing s.machine r (tablesFor (pageAddr page) count.toNat)) := by
  have hsize : (count * 4096).toNat = count.toNat * 4096 := by bv_omega
  have hwidth : (count.setWidth 32).toNat = count.toNat := by bv_omega
  rcases allocPages_cases s (count.setWidth 32) with hnone |
    ⟨start, p, hsome, -, hstart, hend, hclear, hmem, htotal, htaken⟩
  · refine .inl ⟨hnone, fun hfree => ?_⟩
    exact allocPages_of_freeRun (by omega) (hwidth ▸ hfree) (by rw [hnone])
  rw [hwidth] at hend hclear hmem htaken
  refine .inr ⟨start, p, hsome, ?_⟩
  rw [hsize]
  have hram : s.pmm.totalPageCount.toNat ≤ 2 ^ 40 := haddr
  have hnat := @toNat_pageAddr start (by omega)
  -- taken and cleared
  have hzero : ChangesRun start count.toNat s.mem
      (p.mem.clear (pageAddr start) (count.toNat * 4096)) := by
    rw [hmem]
    exact (changesRun_write (by omega) (by omega) (by rw [List.length_replicate]; omega)).trans
      (changesRun_write (by omega) (by omega) (by rw [List.length_replicate]; omega))
  obtain ⟨htake, hnot, hwalk, hpte⟩ := @ownChange_take k r users s
    { p with mem := p.mem.clear (pageAddr start) (count.toNat * 4096) } start count.toNat hiso haddr
    hstart hend hclear hzero htotal htaken
  have hfree := length_freeFrames_taken hstart hend hclear htotal htaken
  have hmissing : missing (Phys.machine
      { p with mem := p.mem.clear (pageAddr start) (count.toNat * 4096) }) r
      (tablesFor (pageAddr page) count.toNat) =
      missing s.machine r (tablesFor (pageAddr page) count.toNat) := by
    unfold missing
    refine congrArg Finset.card (Finset.filter_congr fun q hq => ?_)
    rw [hwalk r (.inr hr) q (length_of_mem_tablesFor hq)]
  -- mapped
  obtain ⟨hdown, hrange⟩ := range_wholePages hhigh hsize
  have hdown' : alignDown (pageAddr start) = pageAddr start := by
    refine pageAddr_of_toNat ?_
    rw [toNat_alignDown, hnat]
    omega
  have hmap : mapInRoot r (pageAddr page) (pageAddr start) (count * 4096) flags =
      mapPages r flags count.toNat (pageAddr page) (pageAddr start) := by
    rw [mapInRoot, hdown, hdown', hrange]
  rw [hmap]
  have hgood := htake.isolated.user r hr
  rcases mapPages_spec flags count.toNat hgood (pageAddr page) (pageAddr start)
    (topPages_wholePages hlow hhigh) with
    ⟨m, hrun, hedits, ht, hmapped, hother⟩ | ⟨m, hrun, -, hshort⟩
  case inr =>
    rw [hmissing, machine_pool] at hshort
    refine .inr ⟨_, Prod.ext (by rw [Phys.run, hrun]) rfl, ?_⟩
    change (freeFrames p.pmm).length < _ at hshort
    omega
  have henough := ht.frames
  rw [hmissing, machine_pool] at henough
  change (freeFrames p.pmm).length = _ at henough
  obtain ⟨s', hs', hchange, hsame⟩ := ownChange_run htake.isolated
    (htake.addressable haddr) hr hrun hedits
  refine .inl ⟨s', hs', ⟨htake.trans hchange, hstart, hend, hclear, fun q hq hq' => ?_,
    fun q hq hq' => ?_, fun j hj => ?_, fun q hq hout => ?_⟩, by omega⟩
  · exact hchange.taken q ((htaken q).mpr (.inr ⟨hq, hq'⟩))
  · refine hchange.apart q ?_ ((htaken q).mpr (.inr ⟨hq, hq'⟩)) (hnot q hq hq')
    change q < p.pmm.totalPageCount.toNat
    rw [htotal]
    omega
  · rw [hsame, (distinctPages_wholePages hhigh).of_round hj (by rw [roundAddr_pageAddr]) (hmapped _),
      roundAddr_pageAddr, mask_eq_self ?_ ?_]
    · rw [Mem.Aligned, toNat_pageAddr (by omega)]
      omega
    · rw [toNat_pageAddr (by omega)]
      omega
  · rw [hsame, hother _ ((outsidePages_pageAddr (by omega) hq).mpr hout), hpte r (.inr hr)]

/-- `vmm_unmap_in` on whole pages. -/
theorem unmapRun {s : Phys} {size : Word} {page n : Nat} (hiso : Isolated k users s.machine)
    (haddr : s.pmm.Addressable) (hr : users r) (hsize : size.toNat = n * 4096)
    (hlow : 2 ^ 27 ≤ page) (hhigh : page + n ≤ 2 ^ 35) :
    ∃ s', s.run (unmapInRoot r (pageAddr page) size) = (.ok (), s') ∧
      OwnChange k users r s s' ∧
      ∀ q < 2 ^ 36, ¬ (page ≤ q ∧ q < page + n) →
        pte s'.machine r (pageAddr q) = pte s.machine r (pageAddr q) := by
  obtain ⟨hdown, hrange⟩ := range_wholePages hhigh hsize
  have hunmap : unmapInRoot r (pageAddr page) size = unmapPages r n (pageAddr page) := by
    rw [unmapInRoot, hdown, hrange]
  rw [hunmap]
  obtain ⟨m, hrun, hedits, -, hother⟩ := unmapPages_spec n (hiso.user r hr) (pageAddr page)
    (topPages_wholePages hlow hhigh)
  obtain ⟨s', hs', hchange, hsame⟩ := ownChange_run hiso haddr hr hrun hedits
  refine ⟨s', hs', hchange, fun q hq hout => ?_⟩
  rw [hsame, hother _ ((outsidePages_pageAddr (by omega) hq).mpr hout)]

end Own

end OreOS.Kernel
