import OreOS.Laws.Kernel.Install

/-!
# Module pages that stay read-only

`okmod_load_one` makes the text pages of a module read-only. If `init` then
fails, the pages go back to the allocator as they are, and a later
`pmm_alloc_pages` clears them through a mapping that is not writable. The free
pages stay writable exactly as long as no module with a whole page of text fails
(`free_pages_writable_iff`).
-/

namespace OreOS.Kernel

open OreOS.Lib (Word Byte Mem Exec Run)

/-! ## What must hold -/

/-- The page tables of `root` have the address present and writable. -/
def MappedWritable (m : Machine) (root a : Word) : Prop :=
  ∃ f, vmmFlags root a m = (.ok f, m) ∧ f &&& vmmPresent ≠ 0 ∧ f &&& vmmWrite ≠ 0

theorem mappedWritable_iff {k : Frame} {m : Machine} (h : Good k m) (a : Word) :
    MappedWritable m k a ↔ Writable m k a := by
  have hwrite : ∀ e : Word, entryFlags e &&& vmmWrite = e &&& vmmWrite := fun e => by
    rw [entryFlags, BitVec.and_assoc, show ~~~pteAddrMask &&& vmmWrite = vmmWrite by decide]
  have hpresent : ∀ e : Word, entryFlags e &&& vmmPresent = e &&& vmmPresent := fun e => by
    rw [entryFlags, BitVec.and_assoc, show ~~~pteAddrMask &&& vmmPresent = vmmPresent by decide]
  rw [MappedWritable, vmmFlags_eq h.null]
  constructor
  · rintro ⟨f, hf, -, hw⟩
    cases hpte : pte m k a with
    | none =>
      rw [hpte] at hf
      cases hf
      exact absurd rfl hw
    | some e =>
      rw [hpte] at hf
      cases hf
      rw [Option.elim_some, hwrite] at hw
      exact ⟨e, hpte, hw⟩
  · rintro ⟨e, he, hw⟩
    have hbit := present_of_pte he
    rw [he]
    refine ⟨_, rfl, ?_, ?_⟩
    · rw [Option.elim_some, hpresent]
      simpa [present] using hbit
    · rw [Option.elim_some, hwrite]
      exact hw

/-- Every page whose bit is clear is present and writable for the kernel. -/
def OkSystem.FreeWritable (s : OkSystem) : Prop :=
  ∀ page, page < s.ok.phys.pmm.totalPageCount.toNat → s.ok.phys.pmm.bitmap page = false →
    MappedWritable s.ok.phys.machine s.kernelPml4 (pageAddr page)

/-- The call does not end in a failed `init` of a module with a whole page of
text. -/
def OkSystem.KeepsText (s : OkSystem) : OkCall → Prop
  | .load services path rc =>
    ∀ hdr ∈ initialisedModule services path s.ok, hdr.textSize < 4096 ∨ 0 ≤ rc.toInt
  | _ => True

/-! ## The invariant -/

/-- The kernel's tables, apart from the free pages and from those that clients
hold. -/
structure OkTables (k : Frame) (s : OkSystem) : Prop where
  root : s.kernelPml4 = k
  ram : s.ok.phys.pmm.totalPageCount.toNat ≤ 2 ^ 35
  good : Good k s.ok.phys.machine
  live : ∀ q ∈ s.live, q < s.ok.phys.pmm.totalPageCount.toNat ∧
    s.ok.phys.pmm.bitmap q = true ∧ NotTable k NoUsers s.ok.phys.machine q

/-- What holds in the kernel's tables of every page that is free or that a client
holds. -/
structure OkInv (φ : Option Word → Prop) (k : Frame) (s : OkSystem) : Prop extends OkTables k s where
  pages : ∀ q, q < s.ok.phys.pmm.totalPageCount.toNat →
    s.ok.phys.pmm.bitmap q = false ∨ q ∈ s.live → φ (pte s.ok.phys.machine k (pageAddr q))

/-- The entry is there and writable. -/
def IsWritable (entry : Option Word) : Prop :=
  ∃ e, entry = some e ∧ e &&& vmmWrite ≠ 0

theorem IsWritable.isSome {entry : Option Word} (h : IsWritable entry) : entry.isSome := by
  obtain ⟨e, rfl, -⟩ := h
  rfl

section Steps

variable {φ : Option Word → Prop} {k : Frame} {s t : OkSystem}

theorem OkTables.freeWritable_iff (h : OkTables k s) :
    s.FreeWritable ↔ ∀ q, q < s.ok.phys.pmm.totalPageCount.toNat →
      s.ok.phys.pmm.bitmap q = false → Writable s.ok.phys.machine k (pageAddr q) := by
  unfold OkSystem.FreeWritable
  rw [h.root]
  exact forall_congr' fun q => forall_congr' fun _ => forall_congr' fun _ =>
    mappedWritable_iff h.good _

theorem OkInv.freeWritable (h : OkInv IsWritable k s) : s.FreeWritable :=
  h.freeWritable_iff.mpr fun q hq hbit => h.pages q hq (.inl hbit)

theorem not_free_of_taken {p : Phys} {q : Nat} (haddr : p.pmm.Addressable) (hq : q < 2 ^ 40)
    (hbit : p.pmm.bitmap q = true) : pageAddr q ∉ freeFrames p.pmm := by
  rw [mem_freeFrames]
  rintro ⟨q', -, hq', hbit', heq⟩
  unfold Pmm.Addressable at haddr
  have hsame := congrArg pageNumber heq
  rw [pageNumber_pageAddr (by omega), pageNumber_pageAddr (by omega)] at hsame
  rw [hsame, hbit'] at hbit
  cases hbit

theorem OkInv.alloc {count : BitVec 32} (h : OkInv φ k s) (hstep : s.step (.alloc count) = some t) :
    OkInv φ k t := by
  have hram := h.ram
  unfold OkSystem.step at hstep
  dsimp only at hstep
  rcases allocPages_cases s.ok.phys count with hnone |
    ⟨start, p, hsome, hpos, hlow, hhigh, hclear, hmem, htotal, htaken⟩
  · rw [hnone] at hstep
    cases hstep
    exact h
  rw [hsome] at hstep
  cases hstep
  have hiso := isolated_kernel h.good
  have hmem₁ := @toNat_pageAddr start (by omega)
  have hstart : ∀ q, q ∈ runPages (pageAddr start) count ↔ start ≤ q ∧ q < start + count.toNat :=
    fun q => runPages_pageAddr (by omega)
  have hfree : ∀ q, start ≤ q → q < start + count.toNat →
      NotTable k NoUsers s.ok.phys.machine q := fun q hq hq' =>
    hiso.notTable_of_clear (by omega) (by omega) (hclear q hq hq')
  have hunset : ∀ q, p.pmm.bitmap q = false → s.ok.phys.pmm.bitmap q = false := fun q hbit =>
    Bool.eq_false_iff.mpr fun hset => by
      rw [(htaken q).mpr (.inl hset)] at hbit
      cases hbit
  obtain ⟨⟨hiso', -, hpte⟩, hnot⟩ := @Isolated.changesRun _ _ _ p start count.toNat hiso
    (by rw [hmem]; exact changesRun_write (by omega) (by omega) (by rw [List.length_replicate]; omega))
    hfree (by unfold Pmm.Addressable; rw [htotal]; omega)
    (fun q hq hq' hbit => hiso.notTable_of_clear hq (htotal ▸ hq') (hunset q hbit))
  refine ⟨⟨h.root, htotal ▸ h.ram, hiso'.kernel, fun q hq => ?_⟩, fun q hq hcase => ?_⟩
  · rcases List.mem_append.mp hq with hold | hnew
    · obtain ⟨hlt, hbit, htable⟩ := h.live q hold
      exact ⟨htotal ▸ hlt, (htaken q).mpr (.inl hbit), hnot q htable⟩
    · obtain ⟨hq₁, hq₂⟩ := (hstart q).mp hnew
      refine ⟨?_, (htaken q).mpr (.inr ⟨hq₁, hq₂⟩), hnot q (hfree q hq₁ hq₂)⟩
      rw [htotal]
      omega
  · rw [htotal] at hq
    rw [hpte k (.inl rfl)]
    refine h.pages q hq ?_
    rcases hcase with hbit | hmem
    · exact .inl (hunset q hbit)
    · rcases List.mem_append.mp hmem with hold | hnew
      · exact .inr hold
      · obtain ⟨hq₁, hq₂⟩ := (hstart q).mp hnew
        exact .inl (hclear q hq₁ hq₂)

theorem good_freePages {p : Phys} {ptr : Word} {count : BitVec 32} (h : Good k p.machine)
    (hram : p.pmm.totalPageCount.toNat ≤ 2 ^ 35)
    (hnot : ptr ≠ 0 → ∀ q ∈ runPages ptr count, NotTable k NoUsers p.machine q) :
    Good k (p.freePages ptr count).machine ∧
      (∀ q, NotTable k NoUsers p.machine q →
        NotTable k NoUsers (p.freePages ptr count).machine q) ∧
      ∀ a, pte (p.freePages ptr count).machine k a = pte p.machine k a := by
  obtain ⟨htotal, htaken⟩ := pmmFreePages_taken_iff ptr count p.pmm
  have hiso := isolated_kernel h
  obtain ⟨⟨hiso', -, hpte⟩, hkeep⟩ := @Isolated.changesRun _ _ _ (p.freePages ptr count) 0 0 hiso
    (ChangesRun.refl 0 0 p.mem) (fun q _ hq => by omega)
    (by
      change (pmmFreePages ptr count p.pmm).totalPageCount.toNat ≤ 2 ^ 40
      rw [htotal]
      omega)
    (fun q hlow hq hbit => by
      change q < (pmmFreePages ptr count p.pmm).totalPageCount.toNat at hq
      change (pmmFreePages ptr count p.pmm).bitmap q = false at hbit
      rw [htotal] at hq
      by_cases hold : p.pmm.bitmap q = true
      · have hfreed : ptr ≠ 0 ∧ q ∈ runPages ptr count ∧ q < p.pmm.totalPageCount.toNat := by
          by_contra hcon
          rw [(htaken q).mpr ⟨hold, hcon⟩] at hbit
          cases hbit
        exact hnot hfreed.1 q hfreed.2.1
      · exact hiso.notTable_of_clear hlow hq (Bool.eq_false_iff.mpr hold))
  exact ⟨hiso'.kernel, hkeep, hpte k (.inl rfl)⟩

theorem OkInv.free {ptr : Word} {count : BitVec 32} (h : OkInv φ k s)
    (hlive : s.FreesLive (.free ptr count)) (hstep : s.step (.free ptr count) = some t) :
    OkInv φ k t := by
  cases hstep
  have hmine : ptr ≠ 0 → ∀ q ∈ runPages ptr count, q ∈ s.live := fun hptr => hlive.resolve_left hptr
  obtain ⟨htotal, htaken⟩ := pmmFreePages_taken_iff ptr count s.ok.phys.pmm
  obtain ⟨hgood, hkeep, hpte⟩ := good_freePages h.good h.ram fun hptr q hq =>
    (h.live q (hmine hptr q hq)).2.2
  have hstill : ∀ q, q ∈ (if ptr = 0 then s.live else s.live.filter (· ∉ runPages ptr count)) →
      q ∈ s.live ∧ ¬ (ptr ≠ 0 ∧ q ∈ runPages ptr count) := by
    intro q hq
    split at hq
    next hptr => exact ⟨hq, fun hcon => hcon.1 hptr⟩
    next hptr =>
      obtain ⟨hq, hnot⟩ := List.mem_filter.mp hq
      exact ⟨hq, fun hcon => of_decide_eq_true hnot hcon.2⟩
  refine ⟨⟨h.root, htotal ▸ h.ram, hgood, fun q hq => ?_⟩, fun q hq hcase => ?_⟩
  · obtain ⟨hold, hnot⟩ := hstill q hq
    obtain ⟨hlt, hbit, htable⟩ := h.live q hold
    exact ⟨htotal ▸ hlt, (htaken q).mpr ⟨hbit, fun hcon => hnot ⟨hcon.1, hcon.2.1⟩⟩,
      hkeep q htable⟩
  · change q < (pmmFreePages ptr count s.ok.phys.pmm).totalPageCount.toNat at hq
    rw [htotal] at hq
    rw [hpte]
    refine h.pages q hq ?_
    rcases hcase with hbit | hmem
    · by_cases hold : s.ok.phys.pmm.bitmap q = true
      · have hfreed : ptr ≠ 0 ∧ q ∈ runPages ptr count := by
          by_contra hcon
          have hset := (htaken q).mpr ⟨hold, fun hcon' => hcon ⟨hcon'.1, hcon'.2.1⟩⟩
          change (pmmFreePages ptr count s.ok.phys.pmm).bitmap q = false at hbit
          rw [hset] at hbit
          cases hbit
        exact .inr (hmine hfreed.1 q hfreed.2)
      · exact .inl (Bool.eq_false_iff.mpr hold)
    · exact .inr (hstill q hmem).1

theorem recordInit_apply (mem : Word) (hdr : OreKModHeader) (rc : BitVec 32) (s : OkState) :
    ∃ t, recordInit mem hdr rc s = (.ok (), t) ∧ t.phys = s.phys ∧
      t.loadedModules = s.loadedModules ∧
      (∀ i, i ≠ s.loadedModules →
        t.moduleTable i = s.moduleTable i ∧ t.moduleCommands i = s.moduleCommands i) ∧
      t.moduleTable s.loadedModules =
        { s.moduleTable s.loadedModules with
          initRc := rc
          textBase := mem
          textSize := hdr.textSize
          dataSize := hdr.dataSize
          hasCommand := (s.moduleTable s.loadedModules).hasCommand || hasCommandEntry hdr } ∧
      (hasCommandEntry hdr = true → t.moduleCommands s.loadedModules = mem + hdr.commandEntry) := by
  unfold recordInit
  split
  next h =>
    exact ⟨_, rfl, rfl, rfl,
      fun i hi => ⟨Function.update_of_ne hi _ _, Function.update_of_ne hi _ _⟩,
      Function.update_self .., fun _ => Function.update_self ..⟩
  next h =>
    exact ⟨_, rfl, rfl, rfl, fun i hi => ⟨Function.update_of_ne hi _ _, rfl⟩,
      Function.update_self .., fun hcon => absurd hcon h⟩

/-- The end of `okmod_load_one`: the slot is given up, or it becomes the last of
those that are loaded. -/
theorem finishModule_apply (mem : Word) (hdr : OreKModHeader) (rc : BitVec 32) (s : OkState) :
    ∃ res t, finishModule mem hdr rc s = (.ok res, t) ∧
      (t.phys = if rc.toInt < 0 then s.phys.freePages mem hdr.pages else s.phys) ∧
      t.moduleCommands = s.moduleCommands ∧
      (t.loadedModules = if rc.toInt < 0 then s.loadedModules else s.loadedModules + 1) ∧
      (∀ i, i ≠ s.loadedModules → t.moduleTable i = s.moduleTable i) ∧
      t.moduleTable s.loadedModules =
        { s.moduleTable s.loadedModules with state := if rc.toInt < 0 then 4 else 3 } := by
  unfold finishModule
  split
  next h =>
    exact ⟨_, _, rfl, rfl, rfl, rfl, fun i hi => Function.update_of_ne hi _ _,
      Function.update_self ..⟩
  next h =>
    exact ⟨_, _, rfl, rfl, rfl, rfl, fun i hi => Function.update_of_ne hi _ _,
      Function.update_self ..⟩

/-- What `okmod_load_one` does to memory; with sizes that wrap it does not
return. -/
theorem okmodLoadOne_cases {services : Services} {path : List Byte} {rc : BitVec 32}
    (h : OkInv φ k s) (hφ : ∀ entry, φ entry → entry.isSome) :
    (∃ hdr message ok, initialisedModule services path s.ok = some hdr ∧ ¬ hdr.Adds ∧
      okmodLoadOne services s.kernelPml4 path rc s.ok = (.error message, ok)) ∨
    ∃ res ok, okmodLoadOne services s.kernelPml4 path rc s.ok = (.ok res, ok) ∧
      (initialisedModule services path s.ok = none ∧ ok.phys = s.ok.phys ∨
        ∃ hdr start p, initialisedModule services path s.ok = some hdr ∧
          0 < hdr.pages.toNat ∧ Installed k hdr s.ok.phys p start ∧
          ok.phys = if rc.toInt < 0 then p.freePages (pageAddr start) hdr.pages else p) := by
  rw [h.root, okmodLoadOne]
  rcases @loadToInit_cases _ _ services path h.ram h.good
      (fun q hq hbit => hφ _ (h.pages q hq (.inl hbit))) with
    ⟨hnone, s', hload, hphys⟩ | ⟨hdr, size, hsome, hfits, hcase⟩
  · right
    rw [Exec.bind_ok hload]
    exact ⟨-1, s', rfl, .inl ⟨hnone, hphys⟩⟩
  rcases hcase with ⟨hadds, start, p, s', hinstalled, hload, rfl⟩ | ⟨hwraps, message, s', hload⟩
  · right
    obtain ⟨t, hrecord, ht, -⟩ := recordInit_apply (pageAddr start) hdr rc s'
    obtain ⟨res, ok, hfinish, hok, -⟩ := finishModule_apply (pageAddr start) hdr rc t
    rw [Exec.bind_ok hload]
    dsimp only
    rw [Exec.bind_ok hrecord, hfinish]
    refine ⟨res, ok, rfl, .inr ⟨hdr, start, s'.phys, hsome, ?_, hinstalled, ht ▸ hok⟩⟩
    have hpages := OreKModHeader.pages_toNat hfits
    have htext := hfits.text_pos
    have htotal := hadds.total_toNat
    omega
  · left
    rw [Exec.bind_error hload]
    exact ⟨hdr, message, s', hsome, hwraps, rfl⟩

theorem OkInv.samePhys (h : OkInv φ k s) {ok : OkState} (hsame : ok.phys = s.ok.phys) :
    OkInv φ k { s with ok := ok } :=
  ⟨⟨h.root, hsame ▸ h.ram, hsame ▸ h.good, hsame ▸ h.live⟩, hsame ▸ h.pages⟩

section Load

variable {hdr : OreKModHeader} {start : Nat} {p : Phys}

theorem Installed.live_apart (h : OkInv φ k s) (hi : Installed k hdr s.ok.phys p start) {q : Nat}
    (hq : q ∈ s.live) : ¬ (start ≤ q ∧ q < start + hdr.pages.toNat) := by
  rintro ⟨hlow, hhigh⟩
  have hbit := (h.live q hq).2.1
  rw [hi.clear q hlow hhigh] at hbit
  cases hbit

theorem Installed.addressable (h : OkInv φ k s) (hi : Installed k hdr s.ok.phys p start) :
    p.pmm.totalPageCount.toNat ≤ 2 ^ 35 :=
  hi.total ▸ h.ram

theorem Installed.live (h : OkInv φ k s) (hi : Installed k hdr s.ok.phys p start) :
    ∀ q ∈ s.live, q < p.pmm.totalPageCount.toNat ∧ p.pmm.bitmap q = true ∧
      NotTable k NoUsers p.machine q := by
  intro q hq
  obtain ⟨hlt, hbit, htable⟩ := h.live q hq
  have hram := h.ram
  have htaken := (hi.taken q).mpr (.inl hbit)
  refine ⟨hi.total ▸ hlt, htaken, hi.notTable q htable (not_free_of_taken ?_ (by omega) htaken)⟩
  unfold Pmm.Addressable
  have := hi.addressable h
  omega

/-- A page of the module is writable if the text ends before it. -/
theorem Installed.writable_iff (hi : Installed k hdr s.ok.phys p start) {q : Nat} (hlow : start ≤ q)
    (hhigh : q < start + hdr.pages.toNat) :
    Writable p.machine k (pageAddr q) ↔ start + hdr.textSize.toNat / 4096 ≤ q := by
  have hflag := hi.flagged (q - start) (by omega)
  rw [show start + (q - start) = q by omega, OreKModHeader.pageFlags] at hflag
  split at hflag
  next htext => exact iff_of_false hflag.not_writable (by omega)
  next htext => exact iff_of_true (hflag.writable (by decide)) (by omega)

theorem Installed.stays (h : OkInv φ k s) (hi : Installed k hdr s.ok.phys p start) {ok : OkState}
    (hok : ok.phys = p) : OkInv φ k { s with ok := ok } := by
  subst hok
  have hram := hi.addressable h
  have hlive := hi.live h
  refine ⟨⟨h.root, hram, hi.good, hlive⟩, fun q hq hcase => ?_⟩
  rw [hi.total] at hq
  have hold : (s.ok.phys.pmm.bitmap q = false ∨ q ∈ s.live) ∧
      ¬ (start ≤ q ∧ q < start + hdr.pages.toNat) := by
    rcases hcase with hbit | hlive
    · have hnot := mt (hi.taken q).mpr (Bool.eq_false_iff.mp hbit)
      rw [not_or] at hnot
      exact ⟨.inl (Bool.eq_false_iff.mpr hnot.1), hnot.2⟩
    · exact ⟨.inr hlive, hi.live_apart h hlive⟩
  rw [hi.others q hq hold.2]
  exact h.pages q hq hold.1

/-- A module whose pages go back: the bitmap is what it was, and the pages are
writable except those of its text. -/
theorem Installed.goes (h : OkInv φ k s) (hi : Installed k hdr s.ok.phys p start) {ok : OkState}
    (hok : ok.phys = p.freePages (pageAddr start) hdr.pages) :
    OkTables k { s with ok := ok } ∧
      ok.phys.pmm.totalPageCount = s.ok.phys.pmm.totalPageCount ∧
      (∀ q, ok.phys.pmm.bitmap q = true ↔ s.ok.phys.pmm.bitmap q = true) ∧
      ∀ a, pte ok.phys.machine k a = pte p.machine k a := by
  have hram := h.ram
  have hhigh := hi.high
  have hlow := hi.low
  have hptr : pageAddr start ≠ 0 := by
    unfold firstPage at hlow
    exact (allocatable_pageAddr (by omega) (by omega)).ne
  have hrun : ∀ q, q ∈ runPages (pageAddr start) hdr.pages ↔
      start ≤ q ∧ q < start + hdr.pages.toNat := fun q => runPages_pageAddr (by omega)
  obtain ⟨htotal, htaken⟩ := pmmFreePages_taken_iff (pageAddr start) hdr.pages p.pmm
  have haddr : p.pmm.Addressable := by
    unfold Pmm.Addressable
    have := hi.addressable h
    omega
  obtain ⟨hgood, hkeep, hpte⟩ := @good_freePages _ _ (pageAddr start) hdr.pages
    hi.good (hi.addressable h) fun _ q hq => by
      obtain ⟨hq₁, hq₂⟩ := (hrun q).mp hq
      refine hi.notTable q ((isolated_kernel h.good).notTable_of_clear (by omega) (by omega)
        (hi.clear q hq₁ hq₂)) (not_free_of_taken haddr (by omega) ((hi.taken q).mpr (.inr ⟨hq₁, hq₂⟩)))
  have hbits : ∀ q, (pmmFreePages (pageAddr start) hdr.pages p.pmm).bitmap q = true ↔
      s.ok.phys.pmm.bitmap q = true := by
    intro q
    rw [htaken q, hi.taken q, hrun q, hi.total]
    constructor
    · rintro ⟨hold | hin, hnot⟩
      · exact hold
      · exact absurd ⟨hptr, hin, by omega⟩ hnot
    · intro hbit
      refine ⟨.inl hbit, fun hcon => ?_⟩
      rw [hi.clear q hcon.2.1.1 hcon.2.1.2] at hbit
      cases hbit
  have htotal' : ok.phys.pmm.totalPageCount = s.ok.phys.pmm.totalPageCount := by
    rw [hok]
    exact htotal.trans hi.total
  refine ⟨⟨h.root, ?_, hok ▸ hgood, fun q hq => ?_⟩, htotal', fun q => by rw [hok]; exact hbits q,
    fun a => by rw [hok]; exact hpte a⟩
  · rw [htotal']
    exact hram
  · obtain ⟨hlt, hbit, htable⟩ := hi.live h q hq
    rw [hok]
    exact ⟨htotal ▸ hlt, (hbits q).mpr (h.live q hq).2.1, hkeep q htable⟩

end Load

/-- A load keeps the free pages writable exactly if it is not one of those. -/
theorem OkInv.load {services : Services} {path : List Byte} {rc : BitVec 32}
    (h : OkInv IsWritable k s) (hstep : s.step (.load services path rc) = some t) :
    (t.FreeWritable ↔ s.KeepsText (.load services path rc)) ∧
      (s.KeepsText (.load services path rc) → OkInv IsWritable k t) := by
  have hcases := @okmodLoadOne_cases _ _ _ services path rc h
    fun _ => IsWritable.isSome
  unfold OkSystem.step at hstep
  dsimp only at hstep
  rcases hcases with ⟨-, message, ok, -, -, hrun⟩ | ⟨res, ok, hrun, hcase⟩
  · rw [hrun] at hstep
    cases hstep
  rw [hrun] at hstep
  cases hstep
  unfold OkSystem.KeepsText
  dsimp only
  rcases hcase with ⟨hnone, hsame⟩ | ⟨hdr, start, p, hsome, hpos, hi, hend⟩
  · have hinv := h.samePhys hsame
    rw [hnone]
    exact ⟨iff_of_true hinv.freeWritable nofun, fun _ => hinv⟩
  · have hkeeps : (∀ hdr' ∈ some hdr, hdr'.textSize < 4096 ∨ 0 ≤ rc.toInt) ↔
        hdr.textSize < 4096 ∨ 0 ≤ rc.toInt :=
      ⟨fun hall => hall hdr rfl, fun hcase hdr' heq => by cases heq; exact hcase⟩
    rw [hsome, hkeeps]
    by_cases hrc : rc.toInt < 0
    case neg =>
      rw [if_neg hrc] at hend
      have hinv := hi.stays h hend
      exact ⟨iff_of_true hinv.freeWritable (.inr (by omega)), fun _ => hinv⟩
    rw [if_pos hrc] at hend
    obtain ⟨htables, htotal, hbits, hpte⟩ := hi.goes h hend
    have hhigh := hi.high
    -- A page of the module is writable if the text ends before it, the others as before.
    have hpages : (∀ q, q < ok.phys.pmm.totalPageCount.toNat → ok.phys.pmm.bitmap q = false →
        Writable ok.phys.machine k (pageAddr q)) ↔ hdr.textSize < 4096 := by
      constructor
      · intro hall
        have hfirst := hall start (by rw [htotal]; omega) (Bool.eq_false_iff.mpr fun hset => by
          rw [hbits, hi.clear start (Nat.le_refl _) (by omega)] at hset
          cases hset)
        rw [writable_congr (hpte _), hi.writable_iff (Nat.le_refl _) (by omega)] at hfirst
        change hdr.textSize.toNat < 4096
        omega
      · intro htext q hq hbit
        have hsmall : hdr.textSize.toNat < 4096 := htext
        rw [htotal] at hq
        have hold : s.ok.phys.pmm.bitmap q = false :=
          Bool.eq_false_iff.mpr fun hset => by
            rw [(hbits q).mpr hset] at hbit
            cases hbit
        rw [writable_congr (hpte _)]
        by_cases hin : start ≤ q ∧ q < start + hdr.pages.toNat
        · rw [hi.writable_iff hin.1 hin.2]
          omega
        · exact (writable_congr (hi.others q hq hin)).mpr (h.pages q hq (.inl hold))
    refine ⟨?_, fun hcase => ⟨htables, fun q hq hqcase => ?_⟩⟩
    · rw [htables.freeWritable_iff]
      exact hpages.trans ⟨.inl, fun hcase => hcase.resolve_right (by omega)⟩
    · rcases hqcase with hbit | hlive
      · exact hpages.mpr (hcase.resolve_right (by omega)) q hq hbit
      · rw [hpte, hi.others q (h.live q hlive).1 (hi.live_apart h hlive)]
        exact h.pages q (h.live q hlive).1 (.inr hlive)

theorem OkInv.step {call : OkCall} (h : OkInv IsWritable k s) (hlive : s.FreesLive call)
    (hstep : s.step call = some t) :
    (t.FreeWritable ↔ s.KeepsText call) ∧ (s.KeepsText call → OkInv IsWritable k t) := by
  cases call with
  | load services path rc => exact h.load hstep
  | alloc count =>
    have hinv := h.alloc hstep
    exact ⟨iff_of_true hinv.freeWritable trivial, fun _ => hinv⟩
  | free ptr count =>
    have hinv := h.free hlive hstep
    exact ⟨iff_of_true hinv.freeWritable trivial, fun _ => hinv⟩

end Steps

theorem inRange_ram {total : Word} {q : Nat} (hram : total.toNat ≤ 2 ^ 35) (hq : q < total.toNat) :
    InRange 0 (total * 4096) (pageAddr q) := by
  have hpage := @toNat_pageAddr q (by omega)
  have hsize : (0 + total * 4096).toNat = total.toNat * 4096 := by bv_omega
  have hup := toNat_alignUp (a := 0 + total * 4096) (by omega)
  have hdown : (alignDown 0).toNat = 0 := rfl
  constructor
  · change (alignDown 0).toNat ≤ _
    omega
  · change _ < (alignUp (0 + total * 4096)).toNat
    omega

theorem okInv_start {boot : BootInfo} {lapicBase kernel : Word} {s₀ s₁ : Phys}
    (hram : s₀.pmm.totalPageCount.toNat ≤ 2 ^ 35)
    (hinit : s₀.run (vmmInit boot s₀.pmm.totalPageCount lapicBase) = (.ok kernel, s₁)) :
    ∃ hk : Mem.Aligned kernel,
      OkInv IsWritable ⟨kernel, hk⟩ { kernelPml4 := kernel, ok := { phys := s₁ } } := by
  obtain ⟨hk, hgood, hwritable⟩ := Phys.vmmInit_spec
    (by unfold Pmm.Addressable; omega) hinit
  have htotal : s₁.pmm.totalPageCount = s₀.pmm.totalPageCount := by
    rw [show s₁ = (s₀.run (vmmInit boot s₀.pmm.totalPageCount lapicBase)).2 by rw [hinit]]
    exact takeFrames_total ..
  refine ⟨hk, ⟨rfl, ?_, hgood, nofun⟩, fun q hq hcase => ?_⟩
  · rw [htotal]
    exact hram
  · rw [htotal] at hq
    exact hwritable _ ⟨_, List.mem_cons_self, inRange_ram hram hq⟩

/-- In every run of loads, allocations and frees in which no module with a whole
page of text has failed, the free pages are present and writable for the kernel,
and the next call keeps them so exactly if it is not such a failure. -/
theorem free_pages_writable_iff {boot : BootInfo} {lapicBase kernel : Word} {s₀ s₁ : Phys}
    {s t : OkSystem} {call : OkCall} (hram : s₀.pmm.totalPageCount.toNat ≤ 2 ^ 35)
    (hinit : s₀.run (vmmInit boot s₀.pmm.totalPageCount lapicBase) = (.ok kernel, s₁))
    (hrun : Run OkSystem.step (fun s call => s.FreesLive call ∧ s.KeepsText call)
      { kernelPml4 := kernel, ok := { phys := s₁ } } s)
    (hlive : s.FreesLive call) (hstep : s.step call = some t) :
    s.FreeWritable ∧ (t.FreeWritable ↔ s.KeepsText call) := by
  obtain ⟨hk, hstart⟩ := okInv_start hram hinit
  have h : OkInv IsWritable ⟨kernel, hk⟩ s := hrun.invariant hstart fun _ _ _ h hok hs =>
    (h.step hok.1 hs).2 hok.2
  exact ⟨h.freeWritable, (h.step hlive hstep).1⟩

/-! ## A module with a page of text -/

/-- One page of text, nothing else. -/
def pageModule : Services := oneFile (moduleFile 4096 0 0) 4216

theorem pageModule_initialised {s : Phys} (h : freeFrames s.pmm ≠ []) (path : List Byte) :
    initialisedModule pageModule path { phys := s } = some (oreKModHeader (moduleFile 4096 0 0)) :=
  oneFile_initialised path (by decide) (by decide) (by decide) (by decide) h

/-- The load of the module returns, whatever its `init` returns. -/
theorem pageModule_step {k : Frame} {s : Phys} (rc : BitVec 32) (path : List Byte)
    (h : OkInv IsWritable k { kernelPml4 := k, ok := { phys := s } }) (hfree : freeFrames s.pmm ≠ []) :
    ∃ t, OkSystem.step { kernelPml4 := k, ok := { phys := s } } (.load pageModule path rc) =
      some t := by
  have hinit := pageModule_initialised hfree path
  have hadds : (oreKModHeader (moduleFile 4096 0 0)).Adds := by decide
  unfold OkSystem.step
  dsimp only
  rcases @okmodLoadOne_cases _ _ _ pageModule path rc h
      (fun _ => IsWritable.isSome) with
    ⟨hdr, message, ok, hsome, hwraps, -⟩ | ⟨res, ok, hrun, -⟩
  · rw [hinit] at hsome
    cases hsome
    exact absurd hadds hwraps
  · rw [hrun]
    exact ⟨_, rfl⟩

theorem free_pages_writable_pageModule :
    ∃ kernel s₁ t, smallPhys.run
        (vmmInit headlessBoot smallPhys.pmm.totalPageCount 0xfee00000) = (.ok kernel, s₁) ∧
      OkSystem.step { kernelPml4 := kernel, ok := { phys := s₁ } } (.load pageModule [] 0) = some t ∧
      t.FreeWritable := by
  obtain ⟨kernel, s₁, hinit, hleft⟩ := small_vmmInit headlessBoot (by decide)
  have hram : smallPhys.pmm.totalPageCount.toNat ≤ 2 ^ 35 := by decide
  obtain ⟨hk, hstart⟩ := okInv_start hram hinit
  obtain ⟨t, hstep⟩ := pageModule_step 0 [] hstart hleft
  have hlive : OkSystem.FreesLive { kernelPml4 := kernel, ok := { phys := s₁ } }
      (.load pageModule [] 0) := trivial
  refine ⟨kernel, s₁, t, hinit, hstep, ?_⟩
  exact (free_pages_writable_iff hram hinit .refl hlive hstep).2.mpr fun _ _ => .inr (by decide)

/-- The module fails, and its page is free and cannot be written. -/
theorem failed_module_not_writable :
    ∃ kernel s₁ t, smallPhys.run
        (vmmInit headlessBoot smallPhys.pmm.totalPageCount 0xfee00000) = (.ok kernel, s₁) ∧
      OkSystem.step { kernelPml4 := kernel, ok := { phys := s₁ } } (.load pageModule [] (-1)) =
        some t ∧
      ¬ t.FreeWritable := by
  obtain ⟨kernel, s₁, hinit, hleft⟩ := small_vmmInit headlessBoot (by decide)
  obtain ⟨hk, hstart⟩ := okInv_start (by decide) hinit
  obtain ⟨t, hstep⟩ := pageModule_step (-1) [] hstart hleft
  refine ⟨kernel, s₁, t, hinit, hstep, fun hwritable => ?_⟩
  have hkeeps := (hstart.load hstep).1.mp hwritable _ (pageModule_initialised hleft [])
  exact absurd hkeeps (by decide)

end OreOS.Kernel
