import OreOS.Kernel.UserAlloc
import OreOS.Laws.Kernel.Boot
import OreOS.Laws.Kernel.UserPages

/-!
# The allocations of user programs

The calls keep five things in step: the table of allocations of each process,
the address of its next one, its count of pages, its page tables and the bitmap.
`Sound` is about one process's table alone; `Backed` ties one allocation to
memory. No page is in two allocations. Addresses are never used twice, so the
window is used up after 1024 pages (`userAllocPages_succeeds_iff`).
-/

namespace OreOS.Kernel

open OreOS.Lib (Word Mem Run)

/-! ## One process's table -/

namespace UserAllocation

/-- The physical pages of an allocation. -/
def Owns (a : UserAllocation) (q : Nat) : Prop :=
  pageNumber a.phys ≤ q ∧ q < pageNumber a.phys + a.pages.toNat

/-- The first address behind an allocation. -/
def virtEnd (a : UserAllocation) : Nat :=
  a.virt.toNat + 4096 * a.pages.toNat

/-- The pages that count for the process's total. -/
def held (a : UserAllocation) : Nat :=
  if a.used then a.pages.toNat else 0

end UserAllocation

/-- The pages of the allocations that are used. -/
def heldPages (allocs : Nat → UserAllocation) : Nat :=
  (Finset.range maxUserAllocs).sum fun i => (allocs i).held

theorem heldPages_update {allocs : Nat → UserAllocation} {slot : Nat} (hslot : slot < maxUserAllocs)
    (a : UserAllocation) :
    heldPages (Function.update allocs slot a) + (allocs slot).held =
      heldPages allocs + a.held := by
  have hmem : slot ∈ Finset.range maxUserAllocs := Finset.mem_range.mpr hslot
  have hrest : ((Finset.range maxUserAllocs).erase slot).sum
        (fun i => (Function.update allocs slot a i).held) =
      ((Finset.range maxUserAllocs).erase slot).sum fun i => (allocs i).held := by
    refine Finset.sum_congr rfl fun i hi => ?_
    rw [Function.update_of_ne (Finset.ne_of_mem_erase hi)]
  unfold heldPages
  rw [← Finset.add_sum_erase _ _ hmem, ← Finset.add_sum_erase _ (fun i => (allocs i).held) hmem,
    hrest, Function.update_self]
  omega

namespace AllocProcess

variable {proc : AllocProcess} {slot : Nat} {va phys ptr count : Word}

/-- The table, the next address and the total agree. -/
structure Sound (proc : AllocProcess) : Prop where
  low : userAllocBase.toNat ≤ proc.userAllocNext.toNat
  high : proc.userAllocNext.toNat ≤ userAllocLimit.toNat
  aligned : Mem.Aligned proc.userAllocNext
  placed : ∀ i < maxUserAllocs, (proc.userAllocs i).used = true →
    userAllocBase.toNat ≤ (proc.userAllocs i).virt.toNat ∧
      (proc.userAllocs i).virtEnd ≤ proc.userAllocNext.toNat ∧
      Mem.Aligned (proc.userAllocs i).virt ∧ 0 < (proc.userAllocs i).pages.toNat
  disjoint : ∀ i < maxUserAllocs, ∀ j < maxUserAllocs, i ≠ j → (proc.userAllocs i).used = true →
    (proc.userAllocs j).used = true →
      (proc.userAllocs i).virtEnd ≤ (proc.userAllocs j).virt.toNat ∨
        (proc.userAllocs j).virtEnd ≤ (proc.userAllocs i).virt.toNat
  total : proc.userAllocPagesTotal.toNat = heldPages proc.userAllocs
  quota : proc.userAllocPagesTotal.toNat ≤ 1024

theorem userAllocBase_toNat : userAllocBase.toNat = 167772160 * 4096 := by decide

theorem userAllocLimit_toNat : userAllocLimit.toNat = 167773184 * 4096 := by decide

theorem sound_create (root : Word) : (create root).Sound where
  low := Nat.le_refl _
  high := show (0xa000000000 : Word).toNat ≤ userAllocLimit.toNat by decide
  aligned := show Mem.Aligned 0xa000000000 by decide
  placed _ _ hused := by cases hused
  disjoint _ _ _ _ _ hused := by cases hused
  total := by simp [heldPages, create, UserAllocation.held]
  quota := Nat.zero_le _

/-- An allocation goes where the last one ended. -/
theorem Sound.allocVa (h : proc.Sound) : proc.allocVa = proc.userAllocNext := by
  have hlow := h.low
  have haligned := h.aligned
  unfold Mem.Aligned at haligned
  have hup : (proc.userAllocNext + 4095) &&& ~~~4095 = proc.userAllocNext := by
    have hsum : proc.userAllocNext + 4095 = proc.userAllocNext + 4096 - 1 := by bv_omega
    have hnat := toNat_alignUp (a := proc.userAllocNext) (by omega)
    refine BitVec.eq_of_toNat_eq ?_
    rw [hsum]
    exact hnat.trans (by omega)
  have hge : ¬ proc.userAllocNext < userAllocBase := fun hlt => by bv_omega
  rw [AllocProcess.allocVa, hup, if_neg hge]

theorem freeSlot_eq_some (h : proc.freeSlot = some slot) :
    slot < maxUserAllocs ∧ (proc.userAllocs slot).used = false := by
  have hmem := List.mem_of_find?_eq_some h
  have hfree := List.find?_some h
  exact ⟨List.mem_range.mp hmem, by simpa using hfree⟩

theorem findAlloc_eq_some (h : proc.findAlloc ptr count = some slot) :
    slot < maxUserAllocs ∧ (proc.userAllocs slot).used = true := by
  have hmem := List.mem_of_find?_eq_some h
  have hfound := List.find?_some h
  rw [Bool.and_eq_true, Bool.and_eq_true] at hfound
  exact ⟨List.mem_range.mp hmem, hfound.1.1⟩

theorem freeSlot_of_unused (h : ∀ i < maxUserAllocs, (proc.userAllocs i).used = false) :
    proc.freeSlot = some 0 := by
  rw [freeSlot, show List.range maxUserAllocs = 0 :: List.range' 1 63 from rfl,
    List.find?_cons_of_pos]
  rw [h 0 (by decide)]
  rfl

theorem Sound.total_of_unused (hproc : proc.Sound)
    (h : ∀ i < maxUserAllocs, (proc.userAllocs i).used = false) :
    proc.userAllocPagesTotal.toNat = 0 := by
  rw [hproc.total, heldPages]
  refine Finset.sum_eq_zero fun i hi => if_neg ?_
  rw [h i (Finset.mem_range.mp hi)]
  exact Bool.false_ne_true

theorem Sound.record (h : proc.Sound) (hslot : slot < maxUserAllocs)
    (hfree : (proc.userAllocs slot).used = false) (hpos : 0 < count.toNat)
    (hquota : proc.userAllocPagesTotal.toNat + count.toNat ≤ 1024)
    (hroom : proc.userAllocNext.toNat + 4096 * count.toNat ≤ userAllocLimit.toNat) :
    (proc.record slot proc.userAllocNext phys count).Sound := by
  have hlow := h.low
  have haligned := h.aligned
  unfold Mem.Aligned at haligned
  have hwidth : (count.setWidth 32).toNat = count.toNat := by bv_omega
  have hnext : (proc.userAllocNext + count * 4096).toNat =
      proc.userAllocNext.toNat + 4096 * count.toNat := by bv_omega
  have htotal : (proc.userAllocPagesTotal + count).toNat =
      proc.userAllocPagesTotal.toNat + count.toNat := by bv_omega
  -- The new allocation is behind all others.
  have hend : ∀ i < maxUserAllocs, (proc.userAllocs i).used = true →
      (proc.userAllocs i).virtEnd ≤ proc.userAllocNext.toNat := fun i hi hused =>
    (h.placed i hi hused).2.1
  refine ⟨?_, ?_, ?_, fun i hi hused => ?_, fun i hi j hj hne husedi husedj => ?_, ?_, ?_⟩
  all_goals simp only [AllocProcess.record] at *
  · omega
  · omega
  · unfold Mem.Aligned
    omega
  · by_cases hi' : i = slot
    · subst hi'
      rw [Function.update_self] at hused ⊢
      simp only [UserAllocation.virtEnd, hwidth]
      exact ⟨hlow, by omega, h.aligned, hpos⟩
    · rw [Function.update_of_ne hi'] at hused ⊢
      obtain ⟨hbase, hbelow, hpages⟩ := h.placed i hi hused
      exact ⟨hbase, by omega, hpages⟩
  · by_cases hi' : i = slot
    · subst hi'
      rw [Function.update_of_ne (Ne.symm hne)] at husedj ⊢
      rw [Function.update_self]
      exact .inr (hend j hj husedj)
    · rw [Function.update_of_ne hi'] at husedi ⊢
      by_cases hj' : j = slot
      · subst hj'
        rw [Function.update_self]
        exact .inl (hend i hi husedi)
      · rw [Function.update_of_ne hj'] at husedj ⊢
        exact h.disjoint i hi j hj hne husedi husedj
  · have hheld := @heldPages_update proc.userAllocs slot hslot
      { virt := proc.userAllocNext, phys := phys, pages := count.setWidth 32, used := true }
    simp only [UserAllocation.held, hfree, Bool.false_eq_true, if_false, if_true, hwidth] at hheld
    rw [htotal, h.total]
    omega
  · omega

theorem Sound.erase (h : proc.Sound) (hslot : slot < maxUserAllocs)
    (hused : (proc.userAllocs slot).used = true) : (proc.erase slot).Sound := by
  have hheld := @heldPages_update proc.userAllocs slot hslot {}
  have hzero : UserAllocation.held {} = 0 := rfl
  have hpages : (proc.userAllocs slot).held = (proc.userAllocs slot).pages.toNat := if_pos hused
  have htotal := h.total
  have hquota := h.quota
  have hsub : (proc.userAllocPagesTotal - (proc.userAllocs slot).pages.setWidth 64).toNat =
      proc.userAllocPagesTotal.toNat - (proc.userAllocs slot).pages.toNat := by bv_omega
  -- A slot that is used now is another one.
  have hother : ∀ i, (Function.update proc.userAllocs slot {} i).used = true → i ≠ slot := by
    rintro i hi rfl
    rw [Function.update_self] at hi
    cases hi
  refine ⟨h.low, h.high, h.aligned, fun i hi hi' => ?_, fun i hi j hj hne hi' hj' => ?_, ?_, ?_⟩
  all_goals simp only [AllocProcess.erase] at *
  · have hslot' := hother i hi'
    rw [Function.update_of_ne hslot'] at hi' ⊢
    exact h.placed i hi hi'
  · have hsloti := hother i hi'
    have hslotj := hother j hj'
    rw [Function.update_of_ne hsloti] at hi' ⊢
    rw [Function.update_of_ne hslotj] at hj' ⊢
    exact h.disjoint i hi j hj hne hi' hj'
  · omega
  · omega

end AllocProcess

/-! ## All processes -/

/-- The flags of an allocation's pages. -/
abbrev userAllocFlags : Word :=
  vmmUser ||| vmmWrite ||| vmmNx

/-- The processes that may call have roots of their own, and the kernel's is not
among them. -/
structure ProcessRoots (users : Frame → Prop) (live : Nat → Prop) (root : Nat → Frame) : Prop where
  user : ∀ pid, live pid → users (root pid)
  own : ∀ pid pid', live pid → live pid' → root pid = root pid' → pid = pid'
  kernel : ¬ live 0

theorem ProcessRoots.ne_zero {users : Frame → Prop} {live : Nat → Prop} {root : Nat → Frame}
    (h : ProcessRoots users live root) {pid : Nat} (hlive : live pid) : pid ≠ 0 :=
  fun hpid => h.kernel (hpid ▸ hlive)

namespace UserAllocs

/-- A slot of a process's table. -/
def slot (s : UserAllocs) (pid i : Nat) : UserAllocation :=
  (s.processes pid).userAllocs i

/-- The slot holds an allocation of one of the processes. -/
def Used (live : Nat → Prop) (s : UserAllocs) (pid i : Nat) : Prop :=
  live pid ∧ i < maxUserAllocs ∧ (s.slot pid i).used = true

end UserAllocs

/-- The run of an allocation is taken, is in no table, and is mapped at the
allocation's addresses in the root `r`. -/
structure Backed (k : Frame) (users : Frame → Prop) (r : Frame) (p : Phys) (a : UserAllocation) :
    Prop where
  phys : a.phys = pageAddr (pageNumber a.phys)
  low : firstPage ≤ pageNumber a.phys
  high : pageNumber a.phys + a.pages.toNat ≤ p.pmm.totalPageCount.toNat
  taken : ∀ q, a.Owns q → p.pmm.bitmap q = true
  apart : ∀ q, a.Owns q → NotTable k users p.machine q
  mapped : ∀ j < a.pages.toNat, pte p.machine r (pageAddr (pageNumber a.virt + j)) =
    some (pteValue (pageAddr (pageNumber a.phys + j)) userAllocFlags)

/-- The invariant of the calls. -/
structure UserAllocs.Inv (k : Frame) (users : Frame → Prop) (live : Nat → Prop) (root : Nat → Frame)
    (s : UserAllocs) : Prop where
  isolated : Isolated k users s.phys.machine
  addressable : s.phys.pmm.Addressable
  roots : ∀ pid, live pid → (s.processes pid).pml4Phys = (root pid).val
  sound : ∀ pid, live pid → (s.processes pid).Sound
  backed : ∀ pid i, s.Used live pid i → Backed k users (root pid) s.phys (s.slot pid i)
  single : ∀ pid i pid' i', s.Used live pid i → s.Used live pid' i' → ∀ q,
    (s.slot pid i).Owns q → (s.slot pid' i').Owns q → pid = pid' ∧ i = i'

section Steps

variable {k : Frame} {users : Frame → Prop} {live : Nat → Prop} {root : Nat → Frame}
  {s : UserAllocs} {p p' : Phys} {pid slot : Nat} {count : Word}

theorem Backed.change {r r' : Frame} {a : UserAllocation} (h : Backed k users r p a)
    (hchange : OwnChange k users r' p p')
    (hsame : ∀ j < a.pages.toNat, pte p'.machine r (pageAddr (pageNumber a.virt + j)) =
      pte p.machine r (pageAddr (pageNumber a.virt + j))) : Backed k users r p' a where
  phys := h.phys
  low := h.low
  high := hchange.total ▸ h.high
  taken q hq := hchange.taken q (h.taken q hq)
  apart q hq := by
    have hhigh := h.high
    exact hchange.apart q (by unfold UserAllocation.Owns at hq; omega) (h.taken q hq) (h.apart q hq)
  mapped j hj := (hsame j hj).trans (h.mapped j hj)

theorem AllocProcess.Sound.next {proc : AllocProcess} (h : proc.Sound) :
    proc.userAllocNext = pageAddr (pageNumber proc.userAllocNext) ∧
      2 ^ 27 ≤ pageNumber proc.userAllocNext ∧
      proc.userAllocNext.toNat = 4096 * pageNumber proc.userAllocNext := by
  have hlow := h.low
  have haligned := h.aligned
  rw [AllocProcess.userAllocBase_toNat] at hlow
  unfold Mem.Aligned at haligned
  unfold pageNumber
  exact ⟨pageAddr_of_toNat (by omega), by omega, by omega⟩

namespace UserAllocs

theorem processes_setProcess_self (proc : AllocProcess) :
    (s.setProcess pid proc).processes pid = proc :=
  Function.update_self ..

theorem processes_setProcess_of_ne {pid' : Nat} (h : pid' ≠ pid) (proc : AllocProcess) :
    (s.setProcess pid proc).processes pid' = s.processes pid' :=
  Function.update_of_ne h ..

theorem slot_setProcess_self (proc : AllocProcess) (i : Nat) :
    (s.setProcess pid proc).slot pid i = proc.userAllocs i := by
  rw [UserAllocs.slot, processes_setProcess_self]

theorem slot_setProcess_of_ne {pid' : Nat} (h : pid' ≠ pid) (proc : AllocProcess) (i : Nat) :
    (s.setProcess pid proc).slot pid' i = s.slot pid' i := by
  rw [UserAllocs.slot, processes_setProcess_of_ne h, UserAllocs.slot]

theorem forall_setProcess (P : Nat → AllocProcess → Prop) {proc : AllocProcess}
    (h : ∀ pid', live pid' → P pid' (s.processes pid')) (hproc : P pid proc) (pid' : Nat)
    (hlive : live pid') : P pid' ((s.setProcess pid proc).processes pid') := by
  by_cases hpid : pid' = pid
  · subst hpid
    rwa [processes_setProcess_self]
  · rw [processes_setProcess_of_ne hpid]
    exact h pid' hlive

/-- A slot that is used after one was written is that one, or was used. -/
theorem used_setProcess {proc : AllocProcess} {a : UserAllocation}
    (hproc : proc.userAllocs = Function.update (s.processes pid).userAllocs slot a) {pid' i : Nat}
    (h : Used live ({ s with phys := p }.setProcess pid proc) pid' i) :
    (pid' = pid ∧ i = slot ∧ ({ s with phys := p }.setProcess pid proc).slot pid' i = a) ∨
      ((pid' = pid → i ≠ slot) ∧ s.Used live pid' i ∧
        ({ s with phys := p }.setProcess pid proc).slot pid' i = s.slot pid' i) := by
  obtain ⟨hlive, hi, hused⟩ := h
  by_cases hpid : pid' = pid
  · subst hpid
    rw [slot_setProcess_self, hproc] at hused ⊢
    by_cases hslot : i = slot
    · subst hslot
      exact .inl ⟨rfl, rfl, Function.update_self ..⟩
    · rw [Function.update_of_ne hslot] at hused ⊢
      exact .inr ⟨fun _ => hslot, ⟨hlive, hi, hused⟩, rfl⟩
  · rw [slot_setProcess_of_ne hpid] at hused ⊢
    exact .inr ⟨fun heq => absurd heq hpid, ⟨hlive, hi, hused⟩, rfl⟩

/-- A slot that is used after a free is another one, and was used. -/
theorem used_erase {pid' i : Nat}
    (h : Used live ({ s with phys := p }.setProcess pid ((s.processes pid).erase slot)) pid' i) :
    (pid' = pid → i ≠ slot) ∧ s.Used live pid' i ∧
      ({ s with phys := p }.setProcess pid ((s.processes pid).erase slot)).slot pid' i =
        s.slot pid' i := by
  rcases used_setProcess rfl h with ⟨-, -, hnew⟩ | hold
  · have hused := h.2.2
    rw [hnew] at hused
    cases hused
  · exact hold

theorem Inv.pages (h : s.Inv k users live root) {i : Nat} (hused : s.Used live pid i) :
    (s.slot pid i).virt = pageAddr (pageNumber (s.slot pid i).virt) ∧
      2 ^ 27 ≤ pageNumber (s.slot pid i).virt ∧
      pageNumber (s.slot pid i).virt + (s.slot pid i).pages.toNat ≤
        pageNumber (s.processes pid).userAllocNext ∧
      pageNumber (s.processes pid).userAllocNext ≤ 2 ^ 35 ∧
      (s.slot pid i).virt.toNat = 4096 * pageNumber (s.slot pid i).virt := by
  obtain ⟨hlive, hi, hbit⟩ := hused
  obtain ⟨hbase, hend, haligned, -⟩ := (h.sound pid hlive).placed i hi hbit
  change userAllocBase.toNat ≤ (s.slot pid i).virt.toNat at hbase
  change (s.slot pid i).virt.toNat + 4096 * (s.slot pid i).pages.toNat ≤ _ at hend
  change (s.slot pid i).virt.toNat % 4096 = 0 at haligned
  have hhigh := (h.sound pid hlive).high
  rw [AllocProcess.userAllocBase_toNat] at hbase
  rw [AllocProcess.userAllocLimit_toNat] at hhigh
  unfold pageNumber
  exact ⟨pageAddr_of_toNat (by omega), by omega, by omega, by omega, by omega⟩

theorem Inv.apart (h : s.Inv k users live root) {i j : Nat} (hi : s.Used live pid i)
    (hj : s.Used live pid j) (hne : i ≠ j) :
    pageNumber (s.slot pid i).virt + (s.slot pid i).pages.toNat ≤ pageNumber (s.slot pid j).virt ∨
      pageNumber (s.slot pid j).virt + (s.slot pid j).pages.toNat ≤
        pageNumber (s.slot pid i).virt := by
  have hapart := (h.sound pid hi.1).disjoint i hi.2.1 j hj.2.1 hne hi.2.2 hj.2.2
  change (s.slot pid i).virt.toNat + 4096 * (s.slot pid i).pages.toNat ≤ (s.slot pid j).virt.toNat ∨
    (s.slot pid j).virt.toNat + 4096 * (s.slot pid j).pages.toNat ≤ (s.slot pid i).virt.toNat
    at hapart
  rw [(h.pages hi).2.2.2.2, (h.pages hj).2.2.2.2] at hapart
  omega

section

variable (h : s.Inv k users live root) (hroots : ProcessRoots users live root)
include h hroots

/-- Lookups of one process's allocation are not those of another root, or of
other pages of its own. -/
theorem Inv.lookup_other (hlive : live pid) {page n : Nat}
    (hchange : OwnChange k users (root pid) s.phys p)
    (hout : ∀ q < 2 ^ 36, ¬ (page ≤ q ∧ q < page + n) →
      pte p.machine (root pid) (pageAddr q) = pte s.phys.machine (root pid) (pageAddr q))
    {pid' i : Nat} (hused : s.Used live pid' i)
    (hapart : pid' = pid → pageNumber (s.slot pid' i).virt + (s.slot pid' i).pages.toNat ≤ page ∨
      page + n ≤ pageNumber (s.slot pid' i).virt) :
    ∀ j < (s.slot pid' i).pages.toNat,
      pte p.machine (root pid') (pageAddr (pageNumber (s.slot pid' i).virt + j)) =
        pte s.phys.machine (root pid') (pageAddr (pageNumber (s.slot pid' i).virt + j)) := by
  obtain ⟨-, -, hend, hlimit, -⟩ := h.pages hused
  intro j hj
  by_cases hpid : pid' = pid
  · subst hpid
    exact hout _ (by omega) (by omega)
  · refine hchange.other _ (.inr (hroots.user pid' hused.1)) (fun heq => hpid ?_) _
    exact hroots.own pid' pid hused.1 hlive heq

theorem Inv.record (hlive : live pid) (hslot : slot < maxUserAllocs)
    (hfree : (s.slot pid slot).used = false) (hpos : 0 < count.toNat)
    (hquota : (s.processes pid).userAllocPagesTotal.toNat + count.toNat ≤ 1024)
    (hroom : (s.processes pid).userAllocNext.toNat + 4096 * count.toNat ≤ userAllocLimit.toNat)
    {start : Nat} (hmap : MapsRun k users (root pid) userAllocFlags start
      (pageNumber (s.processes pid).userAllocNext) count.toNat s.phys p) :
    ({ s with phys := p }.setProcess pid ((s.processes pid).record slot
      (s.processes pid).userAllocNext (pageAddr start) count)).Inv k users live root := by
  have hram : s.phys.pmm.totalPageCount.toNat ≤ 2 ^ 40 := h.addressable
  have hwidth : (count.setWidth 32).toNat = count.toNat := by bv_omega
  have hhigh := hmap.high
  have hnumber : pageNumber (pageAddr start) = start := pageNumber_pageAddr (by omega)
  have howns : ∀ q, UserAllocation.Owns
      { virt := (s.processes pid).userAllocNext, phys := pageAddr start,
        pages := count.setWidth 32, used := true } q ↔ start ≤ q ∧ q < start + count.toNat := by
    intro q
    rw [UserAllocation.Owns, hnumber, hwidth]
  have hnotBoth : ∀ pid' i, s.Used live pid' i → ∀ q, (s.slot pid' i).Owns q →
      ¬ (start ≤ q ∧ q < start + count.toNat) := by
    rintro pid' i hused q hq ⟨hq₁, hq₂⟩
    have hset := (h.backed pid' i hused).taken q hq
    rw [hmap.clear q hq₁ hq₂] at hset
    cases hset
  refine ⟨hmap.change.isolated, hmap.change.addressable h.addressable,
    forall_setProcess (fun pid proc => proc.pml4Phys = (root pid).val) h.roots (h.roots pid hlive),
    forall_setProcess (fun _ => AllocProcess.Sound) h.sound
      ((h.sound pid hlive).record hslot hfree hpos hquota hroom),
    fun pid' i hused => ?_, fun pid₁ i₁ pid₂ i₂ hused₁ hused₂ q hq₁ hq₂ => ?_⟩
  · rcases used_setProcess rfl hused with ⟨rfl, rfl, hnew⟩ | ⟨-, hold, hsame⟩
    · rw [hnew]
      refine ⟨by rw [hnumber], by rw [hnumber]; exact hmap.low, ?_, fun q hq => ?_, fun q hq => ?_,
        fun j hj => ?_⟩
      · change pageNumber (pageAddr start) + (count.setWidth 32).toNat ≤
          p.pmm.totalPageCount.toNat
        rw [hnumber, hwidth, hmap.change.total]
        exact hhigh
      · exact hmap.taken q ((howns q).mp hq).1 ((howns q).mp hq).2
      · exact hmap.apart q ((howns q).mp hq).1 ((howns q).mp hq).2
      · rw [hnumber]
        exact hmap.mapped j (hwidth ▸ hj)
    · rw [hsame]
      refine (h.backed pid' i hold).change hmap.change ?_
      refine h.lookup_other hroots hlive hmap.change hmap.outside hold ?_
      rintro rfl
      exact .inl (h.pages hold).2.2.1
  · rcases used_setProcess rfl hused₁ with ⟨rfl, rfl, hnew₁⟩ | ⟨-, hold₁, hsame₁⟩
    · rcases used_setProcess rfl hused₂ with ⟨rfl, rfl, -⟩ | ⟨-, hold₂, hsame₂⟩
      · exact ⟨rfl, rfl⟩
      · rw [hnew₁, howns] at hq₁
        rw [hsame₂] at hq₂
        exact absurd hq₁ (hnotBoth pid₂ i₂ hold₂ q hq₂)
    · rw [hsame₁] at hq₁
      rcases used_setProcess rfl hused₂ with ⟨rfl, rfl, hnew₂⟩ | ⟨-, hold₂, hsame₂⟩
      · rw [hnew₂, howns] at hq₂
        exact absurd hq₂ (hnotBoth pid₁ i₁ hold₁ q hq₁)
      · rw [hsame₂] at hq₂
        exact h.single pid₁ i₁ pid₂ i₂ hold₁ hold₂ q hq₁ hq₂

theorem Inv.erase (hfreed : s.Used live pid slot) :
    ∃ p, s.phys.run (unmapInRoot (s.processes pid).pml4Phys (s.slot pid slot).virt
        ((s.slot pid slot).pages.setWidth 64 * 4096)) = (.ok (), p) ∧
      FreeRun (p.freePages (s.slot pid slot).phys (s.slot pid slot).pages).pmm
        (s.slot pid slot).pages.toNat ∧
      ({ s with phys := p.freePages (s.slot pid slot).phys (s.slot pid slot).pages }.setProcess pid
        ((s.processes pid).erase slot)).Inv k users live root := by
  obtain ⟨hvirt, hlow, hend, hlimit, -⟩ := h.pages hfreed
  have hback := h.backed pid slot hfreed
  obtain ⟨hlive, hslot, hbit⟩ := hfreed
  have hsize : ((s.slot pid slot).pages.setWidth 64 * 4096).toNat =
      (s.slot pid slot).pages.toNat * 4096 := by bv_omega
  obtain ⟨p, hrun, hchange, hout⟩ := unmapRun h.isolated h.addressable (hroots.user pid hlive)
    hsize hlow (by omega)
  rw [← hvirt, ← h.roots pid hlive] at hrun
  refine ⟨p, hrun, ?_⟩
  have hhigh := hback.high
  have hfirst := hback.low
  unfold firstPage at hfirst
  rw [← hchange.total] at hhigh
  -- The run is in no table, so it may go back.
  obtain ⟨hiso, htotal, hbits, hnot, hpte⟩ := isolated_freePages hchange.isolated
    (hchange.addressable h.addressable) (by omega) hhigh
    (fun q hq hq' => hchange.apart q (by rw [← hchange.total]; omega)
      (hback.taken q ⟨hq, hq'⟩) (hback.apart q ⟨hq, hq'⟩))
  rw [← hback.phys] at hiso htotal hbits hnot hpte
  refine ⟨⟨pageNumber (s.slot pid slot).phys, hback.low, by rw [htotal]; exact hhigh,
    fun q hq hq' => Bool.eq_false_iff.mpr fun hset => ((hbits q).mp hset).2 ⟨hq, hq'⟩⟩, ?_⟩
  refine ⟨hiso, ?_,
    forall_setProcess (fun pid proc => proc.pml4Phys = (root pid).val) h.roots (h.roots pid hlive),
    forall_setProcess (fun _ => AllocProcess.Sound) h.sound ((h.sound pid hlive).erase hslot hbit),
    fun pid' i hused => ?_,
    fun pid₁ i₁ pid₂ i₂ hused₁ hused₂ q hq₁ hq₂ => ?_⟩
  · have haddr := hchange.addressable h.addressable
    unfold Pmm.Addressable at haddr ⊢
    rw [← htotal] at haddr
    exact haddr
  · obtain ⟨hne, hold, hsame⟩ := used_erase hused
    rw [hsame]
    have hkept := (h.backed pid' i hold).change hchange
      (h.lookup_other hroots hlive hchange hout hold ?_)
    · refine ⟨hkept.phys, hkept.low, ?_, fun q hq => ?_, fun q hq => hnot q (hkept.apart q hq),
        fun j hj => ?_⟩
      · have hend' := hkept.high
        rw [← htotal] at hend'
        exact hend'
      · refine (hbits q).mpr ⟨hkept.taken q hq, fun hin => ?_⟩
        obtain ⟨hpid, hi⟩ := h.single pid' i pid slot hold ⟨hlive, hslot, hbit⟩ q hq hin
        exact hne hpid hi
      · rw [← hkept.mapped j hj]
        exact hpte _ (.inr (hroots.user pid' hold.1)) _
    · rintro rfl
      exact h.apart hold ⟨hlive, hslot, hbit⟩ (hne rfl)
  · obtain ⟨-, hold₁, hsame₁⟩ := used_erase hused₁
    obtain ⟨-, hold₂, hsame₂⟩ := used_erase hused₂
    rw [hsame₁] at hq₁
    rw [hsame₂] at hq₂
    exact h.single pid₁ i₁ pid₂ i₂ hold₁ hold₂ q hq₁ hq₂

end

/-! ## The calls -/

section

variable (h : s.Inv k users live root) (hroots : ProcessRoots users live root) (hlive : live pid)
  (hpos : 0 < count.toNat) (hcount : count.toNat ≤ 1024)
include h hroots hlive hpos hcount

/-- `user_alloc_pages_sys` once a slot is free and the window has room. -/
theorem Inv.takePages_cases
    (hroom : (s.processes pid).userAllocNext.toNat + 4096 * count.toNat ≤ userAllocLimit.toNat) :
    (s.takePages pid slot (s.processes pid).userAllocNext count = .ok (-oreEnomem, s) ∧
      ¬ FreeRun s.phys.pmm count.toNat) ∨
    (s.takePages pid slot (s.processes pid).userAllocNext count =
        .error "VMM: no page table memory" ∧
      (freeFrames s.phys.pmm).length < count.toNat + missing s.phys.machine (root pid)
        (tablesFor (s.processes pid).userAllocNext count.toNat)) ∨
    ∃ start p, s.takePages pid slot (s.processes pid).userAllocNext count =
        .ok ((s.processes pid).userAllocNext.toInt, { s with phys := p }.setProcess pid
          ((s.processes pid).record slot (s.processes pid).userAllocNext (pageAddr start) count)) ∧
      MapsRun k users (root pid) userAllocFlags start
        (pageNumber (s.processes pid).userAllocNext) count.toNat s.phys p ∧
      count.toNat + missing s.phys.machine (root pid)
        (tablesFor (s.processes pid).userAllocNext count.toNat) ≤
          (freeFrames s.phys.pmm).length := by
  obtain ⟨hnext, hlow, hnat⟩ := (h.sound pid hlive).next
  rw [AllocProcess.userAllocLimit_toNat] at hroom
  rw [takePages, h.roots pid hlive]
  rcases mapRun_cases userAllocFlags h.isolated h.addressable (hroots.user pid hlive) hpos hcount
    hlow (by omega) with ⟨hnone, hfree⟩ | ⟨start, p, hsome, hmap⟩
  · rw [hnone]
    exact .inl ⟨rfl, hfree⟩
  rw [← hnext] at hmap
  rw [hsome]
  dsimp only
  rcases hmap with ⟨p', hrun, hmaps, henough⟩ | ⟨p', hrun, hfew⟩
  · rw [hrun]
    exact .inr (.inr ⟨start, p', rfl, hmaps, henough⟩)
  · rw [hrun]
    exact .inr (.inl ⟨rfl, hfew⟩)

/-- What `user_alloc_pages_sys` checks before it takes pages. -/
theorem Inv.userAllocPagesSys_eq
    (hquota : (s.processes pid).userAllocPagesTotal.toNat + count.toNat ≤ 1024)
    (hslot : (s.processes pid).freeSlot = some slot) :
    s.userAllocPagesSys (some pid) count =
      if (s.processes pid).userAllocNext.toNat + 4096 * count.toNat ≤ userAllocLimit.toNat then
        s.takePages pid slot (s.processes pid).userAllocNext count
      else .ok (-oreEnomem, s) := by
  have hpid := hroots.ne_zero hlive
  have hbounds : ¬ (count = 0 ∨ 1024 < count) := by bv_omega
  have htotal : ¬ 1024 < (s.processes pid).userAllocPagesTotal + count := by bv_omega
  have hwindow : (s.processes pid).userAllocNext + count * 4096 < (s.processes pid).userAllocNext ∨
      userAllocLimit < (s.processes pid).userAllocNext + count * 4096 ↔
      ¬ (s.processes pid).userAllocNext.toNat + 4096 * count.toNat ≤ userAllocLimit.toNat := by
    bv_omega
  rw [userAllocPagesSys]
  rw [if_neg hpid, if_neg hbounds, if_neg htotal, hslot]
  dsimp only
  rw [(h.sound pid hlive).allocVa, if_congr hwindow rfl rfl, ite_not]

end

theorem Inv.next_nonneg (h : s.Inv k users live root) (hlive : live pid) :
    0 ≤ (s.processes pid).userAllocNext.toInt := by
  have hhigh := (h.sound pid hlive).high
  rw [AllocProcess.userAllocLimit_toNat] at hhigh
  rw [BitVec.toInt_eq_toNat_of_lt (by omega)]
  exact Int.natCast_nonneg _

/-- What a call does: it panics, or returns an error and has changed nothing, or
succeeds and keeps the invariant. -/
inductive CallResult (k : Frame) (users : Frame → Prop) (live : Nat → Prop) (root : Nat → Frame)
    (s : UserAllocs) : Except String (Int × UserAllocs) → Prop
  | panic (message : String) : CallResult k users live root s (.error message)
  | refused (err : Int) (h : err < 0) : CallResult k users live root s (.ok (err, s))
  | done (res : Int) (s' : UserAllocs) (h : 0 ≤ res) (hinv : s'.Inv k users live root) :
    CallResult k users live root s (.ok (res, s'))

section

variable (h : s.Inv k users live root) (hroots : ProcessRoots users live root) (hlive : live pid)
include h hroots hlive

theorem Inv.alloc (count : Word) :
    CallResult k users live root s (s.userAllocPagesSys (some pid) count) := by
  have hpid := hroots.ne_zero hlive
  by_cases hbounds : count = 0 ∨ 1024 < count
  · simp only [userAllocPagesSys, if_neg hpid, if_pos hbounds]
    exact .refused _ (by decide)
  by_cases hquota : 1024 < (s.processes pid).userAllocPagesTotal + count
  · simp only [userAllocPagesSys, if_neg hpid, if_neg hbounds, if_pos hquota]
    exact .refused _ (by decide)
  cases hslot : (s.processes pid).freeSlot with
  | none =>
    simp only [userAllocPagesSys, if_neg hpid, if_neg hbounds, if_neg hquota, hslot]
    exact .refused _ (by decide)
  | some slot =>
    obtain ⟨hlt, hfree⟩ := AllocProcess.freeSlot_eq_some hslot
    have htotal := (h.sound pid hlive).quota
    have hpos : 0 < count.toNat := by bv_omega
    have hcount : count.toNat ≤ 1024 := by bv_omega
    have hsum : (s.processes pid).userAllocPagesTotal.toNat + count.toNat ≤ 1024 := by bv_omega
    rw [h.userAllocPagesSys_eq hroots hlive hpos hcount hsum hslot]
    split
    next hroom =>
      rcases @Inv.takePages_cases _ _ _ _ _ _ slot _ h hroots hlive hpos hcount hroom with
        ⟨hrun, -⟩ | ⟨hrun, -⟩ | ⟨start, p, hrun, hmap, -⟩
      · rw [hrun]
        exact .refused _ (by decide)
      · rw [hrun]
        exact .panic _
      · rw [hrun]
        exact .done _ _ (h.next_nonneg hlive)
          (h.record hroots hlive hlt hfree hpos hsum hroom hmap)
    next => exact .refused _ (by decide)

theorem Inv.userFreePagesSys_eq {ptr : Word} (hptr : ptr ≠ 0) (hcount : count ≠ 0)
    (hfound : (s.processes pid).findAlloc ptr count = some slot) :
    ∃ p, s.userFreePagesSys (some pid) ptr count =
        .ok (0, { s with phys := p }.setProcess pid ((s.processes pid).erase slot)) ∧
      FreeRun p.pmm (s.slot pid slot).pages.toNat ∧
      ({ s with phys := p }.setProcess pid ((s.processes pid).erase slot)).Inv
        k users live root := by
  have hpid := hroots.ne_zero hlive
  obtain ⟨hlt, hused⟩ := AllocProcess.findAlloc_eq_some hfound
  obtain ⟨p, hrun, hfree, hinv⟩ := h.erase hroots ⟨hlive, hlt, hused⟩
  refine ⟨_, ?_, hfree, hinv⟩
  unfold UserAllocs.slot at hrun ⊢
  rw [userFreePagesSys]
  rw [if_neg (by rintro (hcon | hcon | hcon) <;> contradiction), hfound]
  dsimp only
  rw [hrun]

theorem Inv.free (ptr count : Word) :
    CallResult k users live root s (s.userFreePagesSys (some pid) ptr count) := by
  by_cases hbad : pid = 0 ∨ ptr = 0 ∨ count = 0
  · simp only [userFreePagesSys, if_pos hbad]
    exact .refused _ (by decide)
  cases hfound : (s.processes pid).findAlloc ptr count with
  | none =>
    simp only [userFreePagesSys, if_neg hbad, hfound]
    exact .refused _ (by decide)
  | some slot =>
    obtain ⟨p, hcall, -, hinv⟩ := h.userFreePagesSys_eq hroots hlive
      (fun hptr => hbad (.inr (.inl hptr))) (fun hcount => hbad (.inr (.inr hcount))) hfound
    rw [hcall]
    exact .done _ _ (Int.le_refl 0) hinv

end

end UserAllocs

/-- The process that is current is the kernel's or one of the live ones. -/
def UserAllocCall.By (live : Nat → Prop) (call : UserAllocCall) : Prop :=
  ∀ pid, call.current = some pid → pid = 0 ∨ live pid

theorem UserAllocs.Inv.run (h : s.Inv k users live root) (hroots : ProcessRoots users live root)
    {call : UserAllocCall} (hby : call.By live) :
    UserAllocs.CallResult k users live root s (call.run s) := by
  cases call with
  | alloc current count =>
    cases current with
    | none => exact .refused _ (by decide)
    | some pid =>
      rcases hby pid rfl with rfl | hlive
      · exact .refused _ (by decide)
      · exact h.alloc hroots hlive count
  | free current ptr count =>
    cases current with
    | none => exact .refused _ (by decide)
    | some pid =>
      rcases hby pid rfl with rfl | hlive
      · exact .refused _ (by decide)
      · exact h.free hroots hlive ptr count

namespace UserAllocs

/-! ## Every run -/

/-- The processes are as `process_create_user` left them. -/
structure Started (k : Frame) (users : Frame → Prop) (live : Nat → Prop) (root : Nat → Frame)
    (s : UserAllocs) : Prop where
  isolated : Isolated k users s.phys.machine
  addressable : s.phys.pmm.Addressable
  fresh : ∀ pid, live pid → s.processes pid = .create (root pid).val

theorem Started.inv (h : s.Started k users live root) : s.Inv k users live root := by
  have hunused : ∀ pid i, ¬ s.Used live pid i := by
    rintro pid i ⟨hlive, -, hused⟩
    rw [UserAllocs.slot, h.fresh pid hlive] at hused
    cases hused
  refine ⟨h.isolated, h.addressable, fun pid hlive => ?_, fun pid hlive => ?_,
    fun pid i hused => absurd hused (hunused pid i),
    fun pid i _ _ hused => absurd hused (hunused pid i)⟩
  · rw [h.fresh pid hlive]
    rfl
  · rw [h.fresh pid hlive]
    exact AllocProcess.sound_create _

theorem Inv.step {s' : UserAllocs} {call : UserAllocCall} (h : s.Inv k users live root)
    (hroots : ProcessRoots users live root) (hby : call.By live) (hstep : s.step call = some s') :
    s'.Inv k users live root := by
  have hresult := h.run hroots hby
  rw [UserAllocs.step] at hstep
  generalize call.run s = res at hresult hstep
  cases hresult with
  | panic => cases hstep
  | refused err herr =>
    cases hstep
    exact h
  | done res s₁ hres hinv =>
    cases hstep
    exact hinv

/-- What the calls keep in step: the tables, the addresses, the totals, the page
tables and the physical pages. -/
structure Consistent (live : Nat → Prop) (s : UserAllocs) : Prop where
  window : ∀ pid i, s.Used live pid i →
    userAllocBase.toNat ≤ (s.slot pid i).virt.toNat ∧
      (s.slot pid i).virtEnd ≤ userAllocLimit.toNat ∧
      (s.slot pid i).virtEnd ≤ (s.processes pid).userAllocNext.toNat
  disjoint : ∀ pid i j, s.Used live pid i → s.Used live pid j → i ≠ j →
    (s.slot pid i).virtEnd ≤ (s.slot pid j).virt.toNat ∨
      (s.slot pid j).virtEnd ≤ (s.slot pid i).virt.toNat
  total : ∀ pid, live pid →
    (s.processes pid).userAllocPagesTotal.toNat = heldPages (s.processes pid).userAllocs ∧
      (s.processes pid).userAllocPagesTotal.toNat ≤ 1024
  mapped : ∀ pid i, s.Used live pid i → ∀ j < (s.slot pid i).pages.toNat,
    vmmVirtToPhysIn (s.processes pid).pml4Phys
        ((s.slot pid i).virt + BitVec.ofNat 64 (4096 * j)) s.phys.machine =
      (.ok ((s.slot pid i).phys + BitVec.ofNat 64 (4096 * j)), s.phys.machine)
  single : ∀ pid i pid' i', s.Used live pid i → s.Used live pid' i' → ∀ q,
    (s.slot pid i).Owns q → (s.slot pid' i').Owns q → pid = pid' ∧ i = i'

theorem Inv.consistent (h : s.Inv k users live root) (hroots : ProcessRoots users live root) :
    s.Consistent live where
  window pid i hused := by
    obtain ⟨hbase, hend, -⟩ := (h.sound pid hused.1).placed i hused.2.1 hused.2.2
    exact ⟨hbase, hend.trans (h.sound pid hused.1).high, hend⟩
  disjoint pid i j hi hj hne :=
    (h.sound pid hi.1).disjoint i hi.2.1 j hj.2.1 hne hi.2.2 hj.2.2
  total pid hlive := ⟨(h.sound pid hlive).total, (h.sound pid hlive).quota⟩
  mapped pid i hused j hj := by
    have hback := h.backed pid i hused
    have hram : s.phys.pmm.totalPageCount.toNat ≤ 2 ^ 40 := h.addressable
    have hhigh := hback.high
    obtain ⟨hvirt, -⟩ := h.pages hused
    have haddr : (s.slot pid i).virt + BitVec.ofNat 64 (4096 * j) =
        pageAddr (pageNumber (s.slot pid i).virt + j) := by
      rw [← roundAddr_pageAddr, ← hvirt]
    have hphys : (s.slot pid i).phys + BitVec.ofNat 64 (4096 * j) =
        pageAddr (pageNumber (s.slot pid i).phys + j) := by
      rw [← roundAddr_pageAddr, ← hback.phys]
    have hnat := @toNat_pageAddr (pageNumber (s.slot pid i).phys + j) (by omega)
    have hmask : pageAddr (pageNumber (s.slot pid i).phys + j) &&& pteAddrMask =
        pageAddr (pageNumber (s.slot pid i).phys + j) :=
      mask_eq_self (by unfold Mem.Aligned; omega) (by omega)
    have hoffset : pageAddr (pageNumber (s.slot pid i).virt + j) &&& 0xfff = 0 := by
      refine BitVec.eq_of_toNat_eq ?_
      rw [toNat_offset, pageAddr, BitVec.toNat_mul, show (4096 : Word).toNat = 4096 from rfl,
        show (0 : Word).toNat = 0 from rfl]
      omega
    rw [h.roots pid hused.1, vmmVirtToPhysIn_eq (h.isolated.user _ (hroots.user pid hused.1)).null,
      haddr, hphys, hback.mapped j hj, Option.elim_some, translation,
      mask_pteValue (by decide), hmask, hoffset]
    exact congrArg (fun w => (Except.ok w, s.phys.machine)) BitVec.or_zero
  single := h.single

/-- Through any interleaving of the two calls by any processes the allocations
stay consistent, and a call that returns an error changes nothing. -/
theorem user_allocs_consistent {s₀ : UserAllocs} (hroots : ProcessRoots users live root)
    (hstart : s₀.Started k users live root)
    (hrun : Run UserAllocs.step (fun _ call => call.By live) s₀ s) :
    s.Consistent live ∧ ∀ call : UserAllocCall, call.By live → ∀ err s',
      call.run s = .ok (err, s') → err < 0 → s' = s := by
  have h : s.Inv k users live root :=
    hrun.invariant hstart.inv fun _ _ _ h hby hstep => h.step hroots hby hstep
  refine ⟨h.consistent hroots, fun call hby err s' hcall herr => ?_⟩
  have hresult := h.run hroots hby
  rw [hcall] at hresult
  cases hresult with
  | refused => rfl
  | done _ _ hres => omega

end UserAllocs

/-- The call returns, and not an error. -/
def UserAllocCall.Succeeds (s : UserAllocs) (call : UserAllocCall) : Prop :=
  ∃ res s', call.run s = .ok (res, s') ∧ 0 ≤ res

namespace UserAllocs

/-- In every state that successful calls reach, a process with no allocation can
have a run of the allocator exactly if the rest of its window is large enough and
there is a frame besides for each page table that is missing there. -/
theorem userAllocPages_succeeds_iff {s₀ : UserAllocs} (hroots : ProcessRoots users live root)
    (hstart : s₀.Started k users live root)
    (hrun : Run UserAllocs.step (fun s call => call.By live ∧ call.Succeeds s) s₀ s)
    (hlive : live pid) (hnone : ∀ i < maxUserAllocs, (s.slot pid i).used = false)
    (hpos : 1 ≤ count.toNat) (hcount : count.toNat ≤ 1024)
    (hfree : FreeRun s.phys.pmm count.toNat) :
    (UserAllocCall.alloc (some pid) count).Succeeds s ↔
      (s.processes pid).userAllocNext.toNat + 4096 * count.toNat ≤ userAllocLimit.toNat ∧
      count.toNat + missing s.phys.machine (root pid)
        (tablesFor (s.processes pid).userAllocNext count.toNat) ≤
          (freeFrames s.phys.pmm).length := by
  have h : s.Inv k users live root :=
    hrun.invariant hstart.inv fun _ _ _ h hok hstep => h.step hroots hok.1 hstep
  have htotal := (h.sound pid hlive).total_of_unused hnone
  have hslot := AllocProcess.freeSlot_of_unused hnone
  unfold UserAllocCall.Succeeds
  rw [UserAllocCall.run, h.userAllocPagesSys_eq hroots hlive hpos hcount (by omega) hslot]
  split
  next hroom =>
    rw [and_iff_right hroom]
    rcases @Inv.takePages_cases _ _ _ _ _ _ 0 _ h hroots hlive hpos hcount hroom with
      ⟨-, hno⟩ | ⟨hrun, hfew⟩ | ⟨start, p, hrun, -, henough⟩
    · exact absurd hfree hno
    · rw [hrun]
      refine iff_of_false ?_ (by omega)
      rintro ⟨_, _, hcon, -⟩
      cases hcon
    · exact iff_of_true ⟨_, _, hrun, h.next_nonneg hlive⟩ henough
  next hroom =>
    refine iff_of_false ?_ fun hcon => hroom hcon.1
    rintro ⟨res, s', hcall, hres⟩
    cases hcall
    exact absurd hres (by decide)

end UserAllocs

end Steps

/-! ## A machine with one process -/

/-- 2048 pages, of which those below 257 are taken. -/
def widePmm : Pmm :=
  { bitmap := fun page => page < 257
    bitmapAddr := 0x100000
    bitmapBytes := 4096
    maxPhys := 0x800000
    totalPageCount := 2048
    freePageCount := 1791
    reservedPageCount := 257
    usedPageCount := 0 }

/-- The root of the process, in one of the pages that are taken. -/
def wideRoot : Frame :=
  ⟨0x2000, by decide⟩

/-- Cleared memory and one process, number 1. -/
def wideStart : UserAllocs :=
  { phys := { mem := fun _ => 0, pmm := widePmm }
    processes := fun _ => .create wideRoot.val }

theorem tables_of_cleared {s : Machine} {r f : Frame} (hempty : ∀ i, entries s.mem r i = 0)
    (h : Tables s r f) : f = r := by
  obtain ⟨q, -, hq⟩ := h
  cases q with
  | nil => exact (Option.some.inj hq).symm
  | cons i q =>
    rw [tableWalk, OreOS.Lib.Radix.walk_cons, hempty i] at hq
    cases hq

theorem wide_entries (f : Frame) (i : Fin 512) : entries wideStart.phys.machine.mem f i = 0 := by
  exact Mem.load64_of_bytes fun _ _ => BitVec.extractLsb'_zero.symm

theorem wide_addressable : wideStart.phys.pmm.Addressable := by
  unfold Pmm.Addressable
  decide

theorem wide_good {r : Frame} (hr : r ≠ nullFrame) (hlow : r.val.toNat < 0x100000) :
    Good r wideStart.phys.machine := by
  refine good_of_empty hr (wide_entries r) ?_ (fun page hpage => ?_) fun hmem => ?_
  · rw [machine_pool]
    exact nodup_freeFrames wide_addressable
  · exact allocatable_freeFrames wide_addressable hpage
  · rw [machine_pool, mem_freeFrames] at hmem
    obtain ⟨page, hfirst, hlast, -, heq⟩ := hmem
    change page < 2048 at hlast
    unfold firstPage at hfirst
    have hnat := congrArg BitVec.toNat heq
    rw [toNat_pageAddr (by omega)] at hnat
    omega

theorem wide_started :
    ProcessRoots (· = wideRoot) (· = 1) (fun _ => wideRoot) ∧
      wideStart.Started bootRoot (· = wideRoot) (· = 1) fun _ => wideRoot := by
  refine ⟨⟨fun _ _ => rfl, fun pid pid' hpid hpid' _ => hpid.trans hpid'.symm, by decide⟩,
    ⟨?_, wide_addressable, fun _ _ => rfl⟩⟩
  refine ⟨wide_good (by decide) (by decide), ?_, ?_, ?_, by decide⟩
  · rintro r rfl
    exact wide_good (by decide) (by decide)
  · rintro r rfl i -
    rw [wide_entries, wide_entries]
  · rintro r rfl f hmine r' hr' hne htable
    rw [tables_of_cleared (wide_entries _) hmine.tables] at htable
    exact hne (tables_of_cleared (wide_entries _) htable).symm

theorem wide_freeRun {n : Nat} (h : n ≤ 1024) : FreeRun wideStart.phys.pmm n := by
  refine ⟨257, by decide, ?_, fun q hq _ => ?_⟩
  · change 257 + n ≤ 2048
    omega
  · change decide (q < 257) = false
    rw [decide_eq_false_iff_not]
    omega

theorem wide_frames : (freeFrames wideStart.phys.pmm).length = 1791 := by
  have hpages : (clearPages widePmm).toFinset = Finset.Ico 257 2048 := by
    ext q
    rw [List.mem_toFinset, mem_clearPages, Finset.mem_Ico]
    change firstPage ≤ q ∧ q < 2048 ∧ decide (q < 257) = false ↔ _
    rw [decide_eq_false_iff_not, firstPage]
    omega
  change ((clearPages widePmm).map pageAddr).length = 1791
  rw [List.length_map, ← List.toFinset_card_of_nodup (nodup_clearPages widePmm), hpages,
    Nat.card_Ico]

/-- The window has room, and there are frames for its pages and its tables. -/
theorem wide_room {count : Word} (hcount : count.toNat ≤ 1024) :
    userAllocBase.toNat + 4096 * count.toNat ≤ userAllocLimit.toNat ∧
      count.toNat + missing wideStart.phys.machine wideRoot (tablesFor userAllocBase count.toNat) ≤
        (freeFrames wideStart.phys.pmm).length := by
  -- the window lies in the tables of its first and of its last page
  have hpath : ∀ j < 1024, tablePath (roundAddr userAllocBase j) = tablePath userAllocBase ∨
      tablePath (roundAddr userAllocBase j) = tablePath (userAllocLimit - 4096) := by
    intro j hj
    have hbase := AllocProcess.userAllocBase_toNat
    have hlast : (userAllocLimit - 4096).toNat = 0xa0003ff000 := by decide
    have hnat : (roundAddr userAllocBase j).toNat = userAllocBase.toNat + 4096 * j := by bv_omega
    simp only [tablePath, List.cons.injEq, Fin.ext_iff, tableIndex_val, hnat, hlast, hbase, and_true]
    omega
  have htables : ∀ j < 1024, tablesTo (roundAddr userAllocBase j) ⊆
      tablesTo userAllocBase ∪ tablesTo (userAllocLimit - 4096) := by
    intro j hj
    rcases hpath j hj with h | h
    · rw [tablesTo_of_path h]
      exact Finset.subset_union_left
    · rw [tablesTo_of_path h]
      exact Finset.subset_union_right
  have hsub : tablesFor userAllocBase count.toNat ⊆ _ :=
    Finset.biUnion_subset.mpr fun j hj => htables j ((Finset.mem_range.mp hj).trans_le hcount)
  have hmissing := (missing_mono wideStart.phys.machine wideRoot hsub).trans
    ((Finset.card_filter_le _ _).trans (show _ ≤ 4 by decide))
  rw [AllocProcess.userAllocBase_toNat, AllocProcess.userAllocLimit_toNat, wide_frames]
  omega

theorem wide_alloc {count : Word} (hpos : 0 < count.toNat) (hcount : count.toNat ≤ 1024) :
    ∃ start p, wideStart.userAllocPagesSys (some 1) count =
        .ok (userAllocBase.toInt, { wideStart with phys := p }.setProcess 1
          ((wideStart.processes 1).record 0 userAllocBase (pageAddr start) count)) := by
  obtain ⟨hroots, hstart⟩ := wide_started
  obtain ⟨hroom, henough⟩ := wide_room hcount
  have hnext : (wideStart.processes 1).userAllocNext = userAllocBase := rfl
  have htotal : (wideStart.processes 1).userAllocPagesTotal.toNat = 0 := rfl
  have hcall := hstart.inv.userAllocPagesSys_eq hroots (rfl : 1 = 1) hpos hcount (by omega)
    (show (wideStart.processes 1).freeSlot = some 0 from rfl)
  rw [hnext, if_pos hroom] at hcall
  rcases @UserAllocs.Inv.takePages_cases _ _ _ _ _ 1 0 count hstart.inv hroots rfl hpos hcount
    hroom with ⟨-, hno⟩ | ⟨-, hfew⟩ | ⟨start, p, hrun, -⟩
  · exact absurd (wide_freeRun hcount) hno
  · exact absurd henough (Nat.not_le.mpr hfew)
  · exact ⟨start, p, hcall.trans hrun⟩

theorem wide_by {call : UserAllocCall} (h : call.current = some 1) : call.By (· = 1) := by
  intro pid hpid
  rw [h] at hpid
  exact .inr (Option.some.inj hpid).symm

/-- After an allocation of the whole window. -/
theorem user_allocs_consistent_wide :
    ∃ s, wideStart.step (.alloc (some 1) 1024) = some s ∧ (s.slot 1 0).used = true ∧
      s.Consistent (· = 1) := by
  obtain ⟨hroots, hstart⟩ := wide_started
  obtain ⟨start, p, halloc⟩ := @wide_alloc 1024 (by decide) (by decide)
  have hstep : wideStart.step (.alloc (some 1) 1024) = some ({ wideStart with phys := p }.setProcess
      1 ((wideStart.processes 1).record 0 userAllocBase (pageAddr start) 1024)) := by
    rw [UserAllocs.step, UserAllocCall.run, halloc]
  refine ⟨_, hstep, ?_, ?_⟩
  · rfl
  · exact (UserAllocs.user_allocs_consistent hroots hstart
      (.snoc .refl (wide_by rfl) hstep)).1

/-- The first page of the window. -/
theorem userAllocPages_succeeds_wide : (UserAllocCall.alloc (some 1) 1).Succeeds wideStart := by
  obtain ⟨hroots, hstart⟩ := wide_started
  exact (UserAllocs.userAllocPages_succeeds_iff hroots hstart .refl rfl (fun _ _ => rfl) (by decide)
    (by decide) (wide_freeRun (by decide))).mpr (wide_room (by decide))

/-- A process takes the whole window and gives it back. No allocation is left and
pages are free, but the next call fails. -/
theorem userAllocPages_window_used_up :
    ProcessRoots (· = wideRoot) (· = 1) (fun _ => wideRoot) ∧
      wideStart.Started bootRoot (· = wideRoot) (· = 1) (fun _ => wideRoot) ∧
      ∃ s : UserAllocs,
        Run UserAllocs.step (fun s call => call.By (· = 1) ∧ call.Succeeds s) wideStart s ∧
        (∀ i < maxUserAllocs, (s.slot 1 i).used = false) ∧ FreeRun s.phys.pmm 1 ∧
        s.userAllocPagesSys (some 1) 1 = .ok (-oreEnomem, s) := by
  obtain ⟨hroots, hstart⟩ := wide_started
  refine ⟨hroots, hstart, ?_⟩
  -- the allocation
  obtain ⟨start, p, halloc⟩ := @wide_alloc 1024 (by decide) (by decide)
  generalize hs : UserAllocs.setProcess _ 1 _ = s₁ at halloc
  have hstep₁ : UserAllocs.step wideStart (.alloc (some 1) 1024) = some s₁ := by
    rw [UserAllocs.step, UserAllocCall.run, halloc]
  have hinv₁ := hstart.inv.step hroots (wide_by rfl) hstep₁
  have hproc₁ : s₁.processes 1 =
      (wideStart.processes 1).record 0 userAllocBase (pageAddr start) 1024 := by
    rw [← hs, UserAllocs.processes_setProcess_self]
  -- the free
  have hfound : (s₁.processes 1).findAlloc userAllocBase 1024 = some 0 := by
    rw [hproc₁]
    rfl
  obtain ⟨p₂, hfreed, hrun, hinv₂⟩ := hinv₁.userFreePagesSys_eq hroots (rfl : 1 = 1) (by decide)
    (by decide) hfound
  generalize hs₂ : UserAllocs.setProcess _ 1 _ = s₂ at hfreed hinv₂
  have hstep₂ : UserAllocs.step s₁ (.free (some 1) userAllocBase 1024) = some s₂ := by
    rw [UserAllocs.step, UserAllocCall.run, hfreed]
  have hproc₂ : s₂.processes 1 = AllocProcess.erase
      ((wideStart.processes 1).record 0 userAllocBase (pageAddr start) 1024) 0 := by
    rw [← hs₂, UserAllocs.processes_setProcess_self, hproc₁]
  have hunused : ∀ i < maxUserAllocs, (s₂.slot 1 i).used = false := by
    intro i _
    rw [UserAllocs.slot, hproc₂]
    by_cases hi : i = 0
    · subst hi
      rfl
    · have hkeep : (AllocProcess.erase
          ((wideStart.processes 1).record 0 userAllocBase (pageAddr start) 1024) 0).userAllocs i =
          (wideStart.processes 1).userAllocs i :=
        (Function.update_of_ne hi ..).trans (Function.update_of_ne hi ..)
      rw [hkeep]
      rfl
  have hdone₁ : (UserAllocCall.alloc (some 1) 1024).Succeeds wideStart :=
    ⟨_, s₁, halloc, by decide⟩
  have hdone₂ : (UserAllocCall.free (some 1) userAllocBase 1024).Succeeds s₁ :=
    ⟨_, s₂, hfreed, Int.le_refl 0⟩
  refine ⟨s₂, .snoc (.snoc .refl ⟨wide_by rfl, hdone₁⟩ hstep₁) ⟨wide_by rfl, hdone₂⟩ hstep₂,
    hunused, ?_, ?_⟩
  · have hpages : (s₁.slot 1 0).pages.toNat = 1024 := by
      rw [UserAllocs.slot, hproc₁]
      rfl
    rw [hpages] at hrun
    rw [← hs₂]
    exact hrun.mono (by decide)
  · have hnext : (s₂.processes 1).userAllocNext = userAllocLimit := by
      rw [hproc₂]
      rfl
    have htotal := (hinv₂.sound 1 rfl).total_of_unused hunused
    rw [hinv₂.userAllocPagesSys_eq hroots rfl (by decide) (by decide)
      (by rw [htotal]; decide) (AllocProcess.freeSlot_of_unused hunused),
      if_neg (by rw [hnext]; decide)]

end OreOS.Kernel
