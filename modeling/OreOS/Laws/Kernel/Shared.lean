import OreOS.Laws.Kernel.Phys

/-!
# What every process shares with the kernel

A process root has the kernel's entries outside the indices 1..255, so a
mapping of `vmm_init` is in it exactly if it lies outside the user half
(`kernel_map_shared_iff`). RAM, the framebuffer and the local APIC have the
addresses that the firmware gave them. A framebuffer above 512 GiB is mapped
for the kernel and for no process (`high_framebuffer_not_shared`).
-/

namespace OreOS.Kernel

open OreOS.Lib (Word Run)
open OreOS.Lib.Radix (walk find)

/-- The address has the same translation and the same flags in both roots. -/
def Alike (s : Machine) (r r' a : Word) : Prop :=
  ∃ v f, vmmVirtToPhysIn r a s = (.ok v, s) ∧ vmmVirtToPhysIn r' a s = (.ok v, s) ∧
    vmmFlags r a s = (.ok f, s) ∧ vmmFlags r' a s = (.ok f, s)

variable {k r : Frame} {users : Frame → Prop} {s : Machine} {a : Word}

theorem alike_of_pte (h : Good k s) (h' : Good r s) (hpte : pte s r a = pte s k a) :
    Alike s k r a :=
  ⟨_, _, vmmVirtToPhysIn_eq h.null a, hpte ▸ vmmVirtToPhysIn_eq h'.null a, vmmFlags_eq h.null a,
    hpte ▸ vmmFlags_eq h'.null a⟩

theorem entryFlags_ne_zero {e : Word} (h : present e = true) : entryFlags e ≠ 0 := by
  intro hzero
  have hbit := congrArg (BitVec.getLsbD · 0) hzero
  rw [present_eq_getLsbD] at h
  simp only [entryFlags, BitVec.getLsbD_and, h] at hbit
  exact absurd hbit (by decide)

/-- Only mapped addresses are like mapped ones. -/
theorem not_alike_of_pte {e : Word} (h : Good k s) (h' : Good r s) (he : pte s k a = some e)
    (hnone : pte s r a = none) : ¬ Alike s k r a := by
  rintro ⟨v, f, -, -, hf, hf'⟩
  rw [vmmFlags_eq h.null, he] at hf
  rw [vmmFlags_eq h'.null, hnone] at hf'
  cases hf
  exact entryFlags_ne_zero (present_of_pte he) (Except.ok.inj (Prod.mk.inj hf').1).symm

theorem RootCreated.pte_private {g : Frame} {s' : Machine} (h : RootCreated k g s s')
    (ha : ¬ OutsideUser a) : pte s' g a = none := by
  have hentry : entries s'.mem g (tableIndex a 39) = 0 := by
    rw [h.entry, if_pos rfl, if_pos (private_iff.mpr ha)]
  have hwalk : walk child (entries s'.mem) g (tablePath a) = none := by
    rw [tablePath, OreOS.Lib.Radix.walk_cons, hentry]
    rfl
  rw [pte, leafEntry, find, hwalk]
  rfl

theorem spaces_start (h : Good k s) : Spaces.Ok k ⟨s, k, []⟩ :=
  ⟨rfl, nofun, h, nofun, nofun, nofun, nofun⟩

/-- The next process does not see what the kernel has in the user half. -/
theorem create_not_alike (h : Good k s) (ha : Writable s k a) (hprivate : ¬ OutsideUser a)
    (hpool : s.pool ≠ []) :
    ∃ c root, Spaces.step ⟨s, k, []⟩ .create = some c ∧ root ∈ c.roots ∧
      ¬ Alike c.machine k root a := by
  have hstart := spaces_start h
  obtain ⟨page, pool, hcons⟩ := List.exists_cons_of_ne_nil hpool
  obtain ⟨s', hrun, -⟩ := h.vmmCreateUserPml4 hcons
  obtain ⟨haligned, hcreated⟩ := hstart.isolated.vmmCreateUserPml4 hrun
  have hproper : Spaces.Proper ⟨s, k, []⟩ .create := trivial
  have hstep : Spaces.step ⟨s, k, []⟩ .create = some ⟨s', k, [page]⟩ := by
    simp only [Spaces.step, Spaces.run, hrun]
  obtain ⟨hok, hsame⟩ := hstart.step hproper hstep
  obtain ⟨e, he, -⟩ := ha
  have he' : pte s' k a = some e := (hsame k (.inl rfl) a (.inl (by simp [SpaceCall.root]))).trans he
  have hpage : page ∈ [page] := List.mem_cons_self
  have huser : Good ⟨page, haligned⟩ s' := hok.isolated.user ⟨page, haligned⟩ hpage
  have hkernel : Good k s' := hok.isolated.kernel
  exact ⟨_, page, hstep, hpage,
    not_alike_of_pte (r := ⟨page, haligned⟩) hkernel huser he' (hcreated.pte_private hprivate)⟩

/-- Writable addresses of the kernel look the same in every process root
exactly if they are outside the user half. -/
theorem shared_iff {mapped : Word → Prop} (h : Good k s)
    (hmapped : ∀ a, mapped a → Writable s k a) (hpool : s.pool ≠ []) :
    (∀ c : Spaces, Run Spaces.step Spaces.Proper ⟨s, k, []⟩ c →
      ∀ root ∈ c.roots, ∀ a, mapped a → Alike c.machine k root a) ↔
      ∀ a, mapped a → OutsideUser a := by
  constructor
  · intro halike a ha
    by_contra hprivate
    obtain ⟨c, root, hstep, hroot, hnot⟩ := create_not_alike h (hmapped a ha) hprivate hpool
    have hproper : Spaces.Proper ⟨s, k, []⟩ .create := trivial
    exact hnot (halike c (.snoc .refl hproper hstep) root hroot a ha)
  · intro houtside c hrun root hroot a ha
    have hok : c.Ok k :=
      hrun.invariant (spaces_start h) fun _ _ _ h hok hs => (h.step hok hs).1
    have huser := hok.isolated.user ⟨root, hok.aligned root hroot⟩ hroot
    have hprivate : ¬ Private (tableIndex a 39) := fun hp => private_iff.mp hp (houtside a ha)
    have hpte := hok.isolated.pte_shared (r := ⟨root, hok.aligned root hroot⟩) hroot hprivate
    exact alike_of_pte (r := ⟨root, hok.aligned root hroot⟩) hok.isolated.kernel huser hpte

/-- What `vmm_init` maps looks the same in every process root, whatever calls
are made, exactly if it lies outside the user half. -/
theorem kernel_map_shared_iff {boot : BootInfo} {lapicBase kernel : Word} {s₀ s₁ : Phys}
    (haddr : s₀.pmm.Addressable)
    (hinit : s₀.run (vmmInit boot s₀.pmm.totalPageCount lapicBase) = (.ok kernel, s₁))
    (hleft : freeFrames s₁.pmm ≠ []) :
    (∀ c : Spaces, Run Spaces.step Spaces.Proper ⟨s₁.machine, kernel, []⟩ c →
      ∀ root ∈ c.roots, ∀ a, MappedAtBoot boot s₀.pmm.totalPageCount lapicBase a →
        Alike c.machine kernel root a) ↔
      ∀ a, MappedAtBoot boot s₀.pmm.totalPageCount lapicBase a → OutsideUser a := by
  obtain ⟨hk, hgood, hwritable⟩ := Phys.vmmInit_spec haddr hinit
  rw [← machine_pool] at hleft
  exact shared_iff (k := ⟨kernel, hk⟩) hgood hwritable hleft

/-- The machine without a framebuffer, given one of a page at 512 GiB. -/
def highBoot : BootInfo :=
  { headlessBoot with
    framebuffer := { base := 0x8000000000, width := 16, height := 16, pixelsPerScanline := 16 } }

theorem headless_outside (a : Word) (h : MappedAtBoot headlessBoot 288 0xfee00000 a) :
    OutsideUser a := by
  obtain ⟨range, hmem, hin⟩ := h
  have hranges : vmmRanges headlessBoot 288 0xfee00000 =
      [(0, 288 * 4096), (0xfee00000, 4096)] := by decide
  rw [hranges] at hmem
  have hlow : a < 0xfee01000 := by
    rcases List.mem_cons.mp hmem with rfl | hmem
    · exact BitVec.lt_trans hin.2 (by decide)
    · cases List.mem_singleton.mp hmem
      exact hin.2
  have hnat : a.toNat < 0xfee01000 := hlow
  unfold OutsideUser
  rw [userBase_toNat]
  omega

theorem kernel_map_shared_headless :
    ∃ kernel s₁, smallPhys.run
        (vmmInit headlessBoot smallPhys.pmm.totalPageCount 0xfee00000) = (.ok kernel, s₁) ∧
      freeFrames s₁.pmm ≠ [] ∧
      ∀ c : Spaces, Run Spaces.step Spaces.Proper ⟨s₁.machine, kernel, []⟩ c →
        ∀ root ∈ c.roots, Alike c.machine kernel root 0xfee00000 := by
  obtain ⟨kernel, s₁, hinit, hleft⟩ := small_vmmInit headlessBoot (by decide)
  refine ⟨kernel, s₁, hinit, hleft, fun c hrun root hroot => ?_⟩
  have hmapped : MappedAtBoot headlessBoot smallPhys.pmm.totalPageCount 0xfee00000 0xfee00000 :=
    ⟨(0xfee00000, 4096), by decide, by decide⟩
  exact (kernel_map_shared_iff smallPhys_addressable hinit hleft).mpr headless_outside c hrun root
    hroot _ hmapped

/-- The framebuffer at 512 GiB is mapped for the kernel and missing in a process
root. -/
theorem high_framebuffer_not_shared :
    ∃ kernel s₁ c root, smallPhys.run
        (vmmInit highBoot smallPhys.pmm.totalPageCount 0xfee00000) = (.ok kernel, s₁) ∧
      Spaces.step ⟨s₁.machine, kernel, []⟩ .create = some c ∧ root ∈ c.roots ∧
      MappedAtBoot highBoot smallPhys.pmm.totalPageCount 0xfee00000 0x8000000000 ∧
      ¬ Alike c.machine kernel root 0x8000000000 := by
  obtain ⟨kernel, s₁, hinit, hleft⟩ := small_vmmInit highBoot (by decide)
  obtain ⟨hk, hgood, hwritable⟩ := Phys.vmmInit_spec smallPhys_addressable hinit
  have hmapped : MappedAtBoot highBoot smallPhys.pmm.totalPageCount 0xfee00000 0x8000000000 :=
    ⟨(0x8000000000, 1024), by decide, by decide⟩
  rw [← machine_pool] at hleft
  obtain ⟨c, root, hstep, hroot, hnot⟩ := create_not_alike (k := ⟨kernel, hk⟩) hgood
    (hwritable _ hmapped) (by decide) hleft
  exact ⟨kernel, s₁, c, root, hinit, hstep, hroot, hmapped, hnot⟩

end OreOS.Kernel
