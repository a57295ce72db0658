import OreOS.Laws.Kernel.Contents

/-!
# Machines to load into

States of the system that a loader may meet, built with the kernel's own
operations: an empty kernel root over a pool of frames, the same with a page or
a table of the kernel's own mapped in, and a fresh process over either. The
frames of the pool are given by their distance, so that what follows a frame in
memory can be another frame of the pool or not.
-/

namespace OreOS.Kernel

open OreOS.Lib (Word Mem)

/-- `n` frames, `step` bytes apart. -/
def framePool (step n : Nat) : List Word :=
  (List.range n).map fun i => BitVec.ofNat 64 (0x10000 + step * i)

/-- Cleared memory and a pool. -/
def bootMachine (step n : Nat) : Machine :=
  { mem := fun _ => 0, pool := framePool step n }

theorem aligned_bootRoot : Mem.Aligned 0x1000 := by decide

/-- The root of the kernel in those machines. -/
def bootRoot : Frame :=
  ⟨0x1000, aligned_bootRoot⟩

/-- A frame that is in no pool. -/
def otherFrame : Frame :=
  ⟨0x3000, by decide⟩

theorem length_boot (step n : Nat) : (bootMachine step n).pool.length = n := by
  simp [bootMachine, framePool]

theorem entries_boot (step n : Nat) (f : Frame) (i : Fin 512) :
    entries (bootMachine step n).mem f i = 0 := by
  rw [entries]
  exact Mem.load64_of_bytes fun _ _ => BitVec.extractLsb'_zero.symm

section Pool

variable {step n : Nat} (hstep : step % 4096 = 0) (hpos : 0 < step)
  (hlimit : 0x10000 + step * n ≤ 2 ^ 52)
include hstep hpos hlimit

theorem mem_boot {page : Word} (h : page ∈ (bootMachine step n).pool) :
    0x10000 ≤ page.toNat ∧ page.toNat < 2 ^ 52 ∧ page.toNat % step = 0x10000 % step ∧
      page.toNat % 4096 = 0 := by
  obtain ⟨i, hi, rfl⟩ := List.mem_map.mp h
  rw [List.mem_range] at hi
  have hle : step * i + step ≤ step * n := by
    calc step * i + step = step * (i + 1) := by rw [Nat.mul_succ]
      _ ≤ step * n := Nat.mul_le_mul_left step hi
  have hnat : (BitVec.ofNat 64 (0x10000 + step * i)).toNat = 0x10000 + step * i := by bv_omega
  rw [hnat]
  refine ⟨by omega, by omega, Nat.add_mul_mod_self_left _ _ _, ?_⟩
  obtain ⟨c, rfl⟩ := Nat.dvd_of_mod_eq_zero hstep
  rw [Nat.mul_assoc]
  omega

theorem allocatable_boot {page : Word} (h : page ∈ (bootMachine step n).pool) :
    Allocatable page := by
  obtain ⟨hlow, hhigh, -, haligned⟩ := mem_boot hstep hpos hlimit h
  refine ⟨?_, mask_eq_self haligned hhigh⟩
  rintro rfl
  exact absurd hlow (by decide)

omit hstep in
theorem nodup_boot : (bootMachine step n).pool.Nodup := by
  refine List.Nodup.map_on ?_ List.nodup_range
  intro i hi j hj heq
  rw [List.mem_range] at hi hj
  have hbound : ∀ m < n, 0x10000 + step * m < 2 ^ 64 := fun m hm => by
    have : step * m ≤ step * n := Nat.mul_le_mul_left step hm.le
    omega
  have hnat := congrArg BitVec.toNat heq
  rw [BitVec.toNat_ofNat, BitVec.toNat_ofNat, Nat.mod_eq_of_lt (hbound i hi),
    Nat.mod_eq_of_lt (hbound j hj)] at hnat
  exact Nat.eq_of_mul_eq_mul_left hpos (by omega)

theorem not_mem_boot {page : Word} (h : page.toNat < 0x10000) :
    page ∉ (bootMachine step n).pool := by
  intro hmem
  have := (mem_boot hstep hpos hlimit hmem).1
  omega

theorem good_boot : Good bootRoot (bootMachine step n) := by
  refine good_of_empty (by decide) (fun i => ?_) (nodup_boot hpos hlimit)
    (fun page hpage => allocatable_boot hstep hpos hlimit hpage)
    (not_mem_boot hstep hpos hlimit (by decide))
  exact entries_boot step n bootRoot i

end Pool

/-! ## A fresh process -/

variable {k : Frame} {s : Machine}

theorem isolated_kernel (h : Good k s) : Isolated k (fun _ => False) s :=
  ⟨h, fun _ hr => hr.elim, fun _ hr => hr.elim, fun _ hr => hr.elim, id⟩

/-- Over any kernel root with a frame left there is a fresh process. -/
theorem exists_freshProcess (h : Good k s) (hpool : s.pool ≠ []) :
    ∃ (g : Frame) (s' : Machine), FreshProcess k (fun r => r = g ∨ False) g s' ∧
      s.pool = g.val :: s'.pool ∧
      (∀ a, ¬ Private (tableIndex a 39) → pte s' g a = pte s k a) ∧
      (∀ f, Tables s k f → ∀ i, entries s'.mem f i = entries s.mem f i) := by
  cases hcons : s.pool with
  | nil => exact absurd hcons hpool
  | cons page pool =>
    have hiso := isolated_kernel h
    have hmem : page ∈ s.pool := by
      rw [hcons]
      exact List.mem_cons_self
    have hpage := h.alloc page hmem
    obtain ⟨s', hrun, hpool'⟩ := h.vmmCreateUserPml4 hcons
    obtain ⟨_, hcreated⟩ := hiso.vmmCreateUserPml4 hrun
    obtain ⟨hiso', hsame⟩ := hiso.create hcreated
    refine ⟨⟨page, hpage.aligned⟩, s', ⟨fun _ => False, s, hiso, hrun, rfl⟩, ?_, ?_, ?_⟩
    · rw [hpool']
    · intro a ha
      rw [hiso'.pte_shared (.inl rfl) ha, hsame k (.inl rfl)]
    · rintro f ⟨q, hq, hf⟩ i
      rw [hcreated.entry, if_neg]
      rintro rfl
      exact h.fresh _ hmem q hq hf

theorem exists_kernelTable (h : Good k s) (i : Fin 512) (hvacant : child (entries s.mem k i) = none)
    (hpool : s.pool ≠ []) :
    ∃ (s' : Machine) (f : Frame), Good k s' ∧ tableWalk s' k [i] = some f ∧
      (∀ j, entries s'.mem f j = 0) ∧ s.pool = f.val :: s'.pool := by
  cases hcons : s.pool with
  | nil => exact absurd hcons hpool
  | cons page pool =>
    have hpage := h.alloc page (by rw [hcons]; exact List.mem_cons_self)
    have hstep : LinkStep k (fun _ => True) s (linked s k i page 0 pool) :=
      ⟨[], k, i, page, 0, fun _ _ => trivial, by decide, rfl, hvacant, rfl, hcons, rfl⟩
    have hne : (⟨page, hpage.aligned⟩ : Frame) ≠ k := fun heq =>
      h.fresh ⟨page, hpage.aligned⟩ (by rw [hcons]; exact List.mem_cons_self) [] (by simp)
        (congrArg some heq.symm)
    refine ⟨_, ⟨page, hpage.aligned⟩, h.linkStep hstep, ?_, fun j => ?_, rfl⟩
    · rw [tableWalk, entries_linked s k i hpage, OreOS.Lib.Radix.walk_cons,
        OreOS.Lib.Radix.setEntry_self, child_linkEntry hpage rfl]
      rfl
    · rw [entries_linked s k i hpage, OreOS.Lib.Radix.setEntry, if_neg fun heq => hne heq.1,
        OreOS.Lib.Radix.fill, if_pos rfl]

theorem exists_kernelPage (h : Good k s) (a : Word) (hpool : 3 ≤ s.pool.length) {f : Word}
    (hf : f &&& pteAddrMask = f) :
    ∃ s' e, Good k s' ∧ pte s' k a = some e ∧ e &&& pteAddrMask = f ∧ s'.pool <:+ s.pool ∧
      s.pool.length ≤ s'.pool.length + 3 := by
  have hmissing := missing_tablesFor_le s k a 1
  rcases mapPages_spec 0 1 h a f (topPages_true a 1) with
    ⟨s', -, hedits, ht, hmapped, -⟩ | ⟨-, -, -, hshort⟩
  case inr => omega
  have hframes := ht.frames
  obtain ⟨j, hj, -, hpte⟩ := hmapped a fun hout => hout 0 Nat.one_pos (by rw [roundAddr_zero])
  obtain rfl : j = 0 := by omega
  rw [roundAddr_zero, hf] at hpte
  refine ⟨s', _, h.edits hedits, hpte, ?_, hedits.pool, by omega⟩
  rw [mask_pteValue (by decide), hf]

end OreOS.Kernel
