import OreOS.Kernel.UserMemory
import OreOS.Laws.Kernel.Spawn
import OreOS.Laws.Kernel.Handles

/-!
# What `user_range_ok` is worth

Every page of a range holds one of the bytes that `user_range_ok` samples
(`sampled`), so the answer is about every byte (`userRangeOk_iff_mapped`). But
it only asks whether a page is there, and the kernel stores to pages that a
program may only read and to pages that are not the program's:
`userWrite_guarded_iff` has the pages on which the writing calls do what they
should.
-/

namespace OreOS.Kernel

open OreOS.Lib (Word Byte Mem Buf Exec)

variable {cr3 virt : Word} {s : Machine}

/-! ## The page tables as the kernel reads them -/

/-- What `next_table` answers when it creates nothing. -/
def tableAt (m : Mem) (table : Word) (i : Fin 512) : Option Word :=
  if m.load64 (cell table i) &&& vmmPresent = 0 then none
  else ptr (m.load64 (cell table i) &&& pteAddrMask)

/-- The present entry of a page. A table at physical address 0 is none, as
`pte_for_root` has it. -/
def pageEntry (cr3 : Word) (s : Machine) (virt : Word) : Option Word := do
  let pdpt ← tableAt s.mem cr3 (tableIndex virt 39)
  let pd ← tableAt s.mem pdpt (tableIndex virt 30)
  let pt ← tableAt s.mem pd (tableIndex virt 21)
  if s.mem.load64 (cell pt (tableIndex virt 12)) &&& vmmPresent = 0 then none
  else some (s.mem.load64 (cell pt (tableIndex virt 12)))

/-- The byte address is mapped. -/
def Mapped (cr3 : Word) (s : Machine) (virt : Word) : Prop :=
  (pageEntry cr3 s virt).isSome

theorem nextTable_tableAt (table : Word) (i : Fin 512) (flags : Word) (s : Machine) :
    nextTable table i false flags s = (.ok (tableAt s.mem table i), s) := by
  unfold nextTable tableAt
  rw [Exec.bind_ok (load_apply _ s)]
  split
  · rfl
  · rfl

/-- Every reader of the tables answers by the page's entry. -/
theorem read_pageEntry (cr3 virt : Word) (s : Machine) (answer : Word → Word) :
    (do
      match ← pteForRoot cr3 virt false 0 with
      | none => return 0
      | some pte =>
        if (← load pte) &&& vmmPresent = 0 then return 0
        else return answer (← load pte) : Kern Word) s =
      (.ok ((pageEntry cr3 s virt).elim 0 answer), s) := by
  have hpte : pteForRoot cr3 virt false 0 s =
      (.ok (do
        let pdpt ← tableAt s.mem cr3 (tableIndex virt 39)
        let pd ← tableAt s.mem pdpt (tableIndex virt 30)
        let pt ← tableAt s.mem pd (tableIndex virt 21)
        return cell pt (tableIndex virt 12)), s) := by
    unfold pteForRoot
    rw [Exec.bind_ok (nextTable_tableAt _ _ _ s)]
    cases tableAt s.mem cr3 (tableIndex virt 39) with
    | none => rfl
    | some pdpt =>
      dsimp only
      rw [Exec.bind_ok (nextTable_tableAt _ _ _ s)]
      cases h : tableAt s.mem pdpt (tableIndex virt 30) with
      | none => simp [h]
      | some pd =>
        dsimp only
        rw [Exec.bind_ok (nextTable_tableAt _ _ _ s)]
        cases h' : tableAt s.mem pd (tableIndex virt 21) with
        | none => simp [h, h']
        | some pt => simp [h, h']
  rw [Exec.bind_ok hpte, pageEntry]
  cases tableAt s.mem cr3 (tableIndex virt 39) with
  | none => rfl
  | some pdpt =>
    simp only [Option.bind_eq_bind, Option.bind_some]
    cases tableAt s.mem pdpt (tableIndex virt 30) with
    | none => rfl
    | some pd =>
      simp only [Option.bind_some]
      cases tableAt s.mem pd (tableIndex virt 21) with
      | none => rfl
      | some pt =>
        simp only [Option.bind_some]
        dsimp only [Option.pure_def]
        rw [Exec.bind_ok (load_apply _ s)]
        split
        · rfl
        · rfl

theorem vmmVirtToPhys_eq (cr3 : Word) (s : Machine) (virt : Word) :
    vmmVirtToPhys cr3 s virt = (pageEntry cr3 s virt).elim 0 (translation virt) := by
  rw [vmmVirtToPhys, show vmmVirtToPhysIn cr3 virt s = _ from
    read_pageEntry cr3 virt s (translation virt)]

theorem pageEntry_congr {a b : Word} (h : pageOf a = pageOf b) :
    pageEntry cr3 s a = pageEntry cr3 s b := by
  obtain ⟨hpath, hleaf⟩ := indices_eq_iff.mpr h
  simp only [tablePath, List.cons.injEq, and_true] at hpath
  simp only [leafIndex] at hleaf
  rw [pageEntry, pageEntry, hpath.1, hpath.2.1, hpath.2.2, hleaf]

theorem mapped_of_translates (h : vmmVirtToPhys cr3 s virt ≠ 0) : Mapped cr3 s virt := by
  rw [vmmVirtToPhys_eq] at h
  rw [Mapped]
  cases hentry : pageEntry cr3 s virt with
  | none =>
    rw [hentry] at h
    exact absurd rfl h
  | some e => rfl

theorem translates_of_mapped (h : Mapped cr3 s virt)
    (hzero : ∀ e, pageEntry cr3 s virt = some e → e &&& pteAddrMask ≠ 0) :
    vmmVirtToPhys cr3 s virt ≠ 0 := by
  obtain ⟨e, he⟩ := Option.isSome_iff_exists.mp h
  rw [vmmVirtToPhys_eq, he]
  intro h0
  have hsum := toNat_translation virt e
  rw [show translation virt e = 0 from h0] at hsum
  have h0' : (0 : Word).toNat = 0 := rfl
  refine hzero e he (BitVec.eq_of_toNat_eq ?_)
  omega

/-! ## The range check -/

/-- Every page of a range has a sample: a multiple of the page size from the start
on, or the last byte. -/
theorem sampled {first size a : Nat} (hfirst : first ≤ a) (hlast : a < first + size) :
    (∃ k, 4096 * k < size ∧ (first + 4096 * k) / 4096 = a / 4096) ∨
      (first + size - 1) / 4096 = a / 4096 := by
  -- the last sample at or below the address is at `k`; the next one may be past the range
  by_cases hsame : (first + 4096 * ((a - first) / 4096)) / 4096 = a / 4096
  · exact .inl ⟨_, by omega, hsame⟩
  · by_cases hnext : 4096 * ((a - first) / 4096 + 1) < size
    · exact .inl ⟨_, hnext, by omega⟩
    · exact .inr (by omega)

theorem userRangeOk_eq_true_iff {ptr len : Word} :
    userRangeOk cr3 s ptr len = true ↔
      userBase.toNat ≤ ptr.toNat ∧ ptr.toNat < userLimit.toNat ∧
        ptr.toNat + len.toNat ≤ userLimit.toNat ∧
        (∀ k, 4096 * k < len.toNat →
          vmmVirtToPhys cr3 s (ptr + BitVec.ofNat 64 (4096 * k)) ≠ 0) ∧
        (len ≠ 0 → vmmVirtToPhys cr3 s (ptr + len - 1) ≠ 0) := by
  have hbase : userBase.toNat = 2 ^ 39 := rfl
  have hlimit : userLimit.toNat = 2 ^ 47 := rfl
  have hzero : (0 : Word).toNat = 0 := rfl
  by_cases hptr : ptr = 0 ∨ ptr < userBase ∨ ptr ≥ userLimit
  · rw [userRangeOk, if_pos hptr]
    refine ⟨fun h => absurd h Bool.false_ne_true, fun h => ?_⟩
    rcases hptr with rfl | hlow | hhigh
    · omega
    · exact absurd hlow (Nat.not_lt.mpr h.1)
    · exact absurd hhigh (Nat.not_le.mpr h.2.1)
  · rw [userRangeOk, if_neg hptr]
    rw [not_or, not_or] at hptr
    have hlow : userBase.toNat ≤ ptr.toNat := Nat.le_of_not_lt hptr.2.1
    have hhigh : ptr.toNat < userLimit.toNat := Nat.lt_of_not_le hptr.2.2
    have hrest : (userLimit - ptr).toNat = userLimit.toNat - ptr.toNat :=
      BitVec.toNat_sub_of_le (Nat.le_of_lt hhigh)
    by_cases hlen : len > userLimit - ptr
    · rw [if_pos hlen]
      have hlen' : (userLimit - ptr).toNat < len.toNat := hlen
      refine ⟨fun h => absurd h Bool.false_ne_true, fun h => ?_⟩
      omega
    · rw [if_neg hlen]
      have hlen' : len.toNat ≤ (userLimit - ptr).toNat := Nat.le_of_not_lt hlen
      simp only [Bool.and_eq_true, List.all_eq_true, List.mem_range, decide_eq_true_eq,
        Bool.or_eq_true]
      constructor
      · rintro ⟨hsamples, hend⟩
        refine ⟨hlow, hhigh, by omega, fun k hk => hsamples k (by omega), fun hne => ?_⟩
        exact hend.resolve_left hne
      · rintro ⟨-, -, -, hsamples, hend⟩
        refine ⟨fun k hk => hsamples k (by omega), ?_⟩
        by_cases hne : len = 0
        · exact .inl hne
        · exact .inr (hend hne)

theorem mapped_of_userRangeOk {ptr len a : Word} (h : userRangeOk cr3 s ptr len = true)
    (hfirst : ptr.toNat ≤ a.toNat) (hlast : a.toNat < ptr.toNat + len.toNat) :
    userBase ≤ a ∧ a < userLimit ∧ Mapped cr3 s a := by
  obtain ⟨hlow, hhigh, hlen, hsamples, hend⟩ := userRangeOk_eq_true_iff.mp h
  refine ⟨Nat.le_trans hlow hfirst, Nat.lt_of_lt_of_le hlast hlen, ?_⟩
  have hlimit : userLimit.toNat = 2 ^ 47 := rfl
  rcases sampled hfirst hlast with ⟨k, hk, hpage⟩ | hpage
  · have hsum : (ptr + BitVec.ofNat 64 (4096 * k)).toNat = ptr.toNat + 4096 * k := by bv_omega
    have hmapped := mapped_of_translates (hsamples k hk)
    rwa [Mapped, pageEntry_congr (b := a) (by rw [pageOf, pageOf, hsum, hpage])] at hmapped
  · have hne : len ≠ 0 := by bv_omega
    have hsum : (ptr + len - 1).toNat = ptr.toNat + len.toNat - 1 := by bv_omega
    have hmapped := mapped_of_translates (hend hne)
    rwa [Mapped, pageEntry_congr (b := a) (by rw [pageOf, pageOf, hsum, hpage])] at hmapped

/-! ## Copies -/

variable {cpu : Cpu}

/-- Every address that was accessed has the property. -/
def Caller.Within (P : Word → Prop) (c : Caller) : Prop :=
  ∀ a ∈ c.touched, P a

theorem offset_succ (virt : Word) (i : Nat) :
    virt + 1 + BitVec.ofNat 64 i = virt + BitVec.ofNat 64 (i + 1) := by bv_omega

section Within

variable {P : Word → Prop}

theorem keeps_touch (h : P virt) : Exec.Keeps (Caller.Within P) (Cpu.touch virt) :=
  fun _ hc => List.forall_mem_cons.mpr ⟨h, hc⟩

theorem keeps_loadUser (h : P virt) : Exec.Keeps (Caller.Within P) (cpu.loadUser virt) := by
  refine .bind (keeps_touch h) fun s => ?_
  exact .ite (fun _ => .pure _) fun _ => .throw _

theorem keeps_storeUser (h : P virt) (b : Byte) :
    Exec.Keeps (Caller.Within P) (cpu.storeUser virt b) := by
  refine .bind (keeps_touch h) fun s => ?_
  exact .ite (fun _ _ hc => hc) fun _ => .throw _

theorem keeps_loadBytes {n : Nat} {virt : Word} (h : ∀ i < n, P (virt + BitVec.ofNat 64 i)) :
    Exec.Keeps (Caller.Within P) (cpu.loadBytes n virt) := by
  induction n generalizing virt with
  | zero => exact .pure _
  | succ n ih =>
    refine .bind (keeps_loadUser (by simpa using h 0 (Nat.succ_pos n))) fun b => ?_
    refine .bind (ih fun i hi => ?_) fun bs => .pure _
    rw [offset_succ]
    exact h (i + 1) (Nat.succ_lt_succ hi)

theorem keeps_storeBytes {bs : List Byte} {virt : Word}
    (h : ∀ i < bs.length, P (virt + BitVec.ofNat 64 i)) :
    Exec.Keeps (Caller.Within P) (cpu.storeBytes bs virt) := by
  induction bs generalizing virt with
  | nil => exact .pure _
  | cons b bs ih =>
    refine .bind (keeps_storeUser (by simpa using h 0 (Nat.succ_pos _)) b) fun _ => ?_
    refine ih fun i hi => ?_
    rw [offset_succ]
    exact h (i + 1) (Nat.succ_lt_succ hi)

end Within

theorem mapped_offset {ptr len : Word} (h : userRangeOk cr3 s ptr len = true) {i : Nat}
    (hi : i < len.toNat) :
    let a := ptr + BitVec.ofNat 64 i
    userBase ≤ a ∧ a < userLimit ∧ Mapped cr3 s a := by
  have hlen := (userRangeOk_eq_true_iff.mp h).2.2.1
  have hlimit : userLimit.toNat = 2 ^ 47 := rfl
  have hsum : (ptr + BitVec.ofNat 64 i).toNat = ptr.toNat + i := by bv_omega
  exact mapped_of_userRangeOk h (by omega) (by omega)

/-- The copies look at the range first. -/
theorem within_checked {α : Type} {ptr len : Word} {x y : α} {copy : UserKern α}
    (h : userRangeOk cpu.cr3 s ptr len = true → Exec.Keeps (Caller.Within fun a =>
      userBase ≤ a ∧ a < userLimit ∧ Mapped cpu.cr3 s a) copy) :
    ((((if len = 0 then return x
      else if userRangeOk cpu.cr3 s ptr len = false then return y
      else copy) : UserKern α) ⟨s, []⟩).2).Within fun a =>
        userBase ≤ a ∧ a < userLimit ∧ Mapped cpu.cr3 s a := by
  have hnone : Caller.Within (fun a => userBase ≤ a ∧ a < userLimit ∧ Mapped cpu.cr3 s a)
      ⟨s, []⟩ := List.forall_mem_nil _
  split
  · exact hnone
  · split
    · exact hnone
    next hrange => exact h (by simpa using hrange) _ hnone

theorem within_copyFromUser (src len : Word) :
    ((cpu.copyFromUser src len ⟨s, []⟩).2).Within fun a =>
      userBase ≤ a ∧ a < userLimit ∧ Mapped cpu.cr3 s a :=
  within_checked fun hrange =>
    .bind (keeps_loadBytes fun _ hi => mapped_offset hrange hi) fun _ => .pure _

theorem within_copyToUser (dst : Word) (src : Buf) (len : Word) :
    ((cpu.copyToUser dst src len ⟨s, []⟩).2).Within fun a =>
      userBase ≤ a ∧ a < userLimit ∧ Mapped cpu.cr3 s a := by
  refine within_checked fun hrange => .bind (keeps_storeBytes fun i hi => ?_) fun _ => .pure _
  rw [structBytes, List.length_map, List.length_range] at hi
  exact mapped_offset hrange hi

/-- In page tables that map no user page to physical address 0, the range check
accepts exactly the ranges of user addresses that are mapped byte for byte; the
copies access nothing else. -/
theorem userRangeOk_iff_mapped (cpu : Cpu) (s : Machine)
    (hzero : ∀ a e, userBase ≤ a → a < userLimit → pageEntry cpu.cr3 s a = some e →
      e &&& pteAddrMask ≠ 0) :
    (∀ ptr len : Word, userRangeOk cpu.cr3 s ptr len = true ↔
      userBase ≤ ptr ∧ ptr < userLimit ∧ ptr.toNat + len.toNat ≤ userLimit.toNat ∧
        ∀ a : Word, ptr.toNat ≤ a.toNat → a.toNat < ptr.toNat + len.toNat →
          Mapped cpu.cr3 s a) ∧
    (∀ src len : Word, ∀ a ∈ (cpu.copyFromUser src len ⟨s, []⟩).2.touched,
      userBase ≤ a ∧ a < userLimit ∧ Mapped cpu.cr3 s a) ∧
    (∀ (dst : Word) (src : Buf) (len : Word),
      ∀ a ∈ (cpu.copyToUser dst src len ⟨s, []⟩).2.touched,
        userBase ≤ a ∧ a < userLimit ∧ Mapped cpu.cr3 s a) := by
  refine ⟨fun ptr len => ⟨fun h => ?_, fun h => ?_⟩, within_copyFromUser, within_copyToUser⟩
  · obtain ⟨hlow, hhigh, hlen, -⟩ := userRangeOk_eq_true_iff.mp h
    exact ⟨hlow, hhigh, hlen, fun a hfirst hlast => (mapped_of_userRangeOk h hfirst hlast).2.2⟩
  · obtain ⟨hlow, hhigh, hlen, hmapped⟩ := h
    have hlimit : userLimit.toNat = 2 ^ 47 := rfl
    have htranslates : ∀ a : Word, ptr.toNat ≤ a.toNat → a.toNat < ptr.toNat + len.toNat →
        vmmVirtToPhys cpu.cr3 s a ≠ 0 := fun a hfirst hlast =>
      translates_of_mapped (hmapped a hfirst hlast) fun e =>
        hzero a e (Nat.le_trans hlow hfirst) (Nat.lt_of_lt_of_le hlast hlen)
    refine userRangeOk_eq_true_iff.mpr ⟨hlow, hhigh, hlen, fun k hk => ?_, fun hne => ?_⟩
    · have hsum : (ptr + BitVec.ofNat 64 (4096 * k)).toNat = ptr.toNat + 4096 * k := by bv_omega
      exact htranslates _ (by omega) (by omega)
    · have hpos : 0 < len.toNat := Nat.pos_of_ne_zero fun h0 => hne (BitVec.eq_of_toNat_eq h0)
      have hsum : (ptr + len - 1).toNat = ptr.toNat + len.toNat - 1 := by bv_omega
      exact htranslates _ (by omega) (by omega)

/-- In this memory every table entry is that of the user page at 0x1000, so that the table
there is the table below itself on every level and all addresses are mapped to one page. -/
def selfMapped : Machine where
  mem x := if x.toNat % 8 = 0 then 0x07 else if x.toNat % 8 = 1 then 0x10 else 0
  pool := []

theorem load64_selfMapped : ∀ i, selfMapped.mem.load64 (cell 0x1000 i) = 0x1007 := by
  decide +kernel

theorem pageEntry_selfMapped (a : Word) : pageEntry 0x1000 selfMapped a = some 0x1007 := by
  have htable : ∀ i, tableAt selfMapped.mem 0x1000 i = some 0x1000 := fun i => by
    rw [tableAt, load64_selfMapped]
    rfl
  simp only [pageEntry, htable, load64_selfMapped, Option.bind_eq_bind, Option.bind_some]
  rfl

theorem userRangeOk_iff_mapped_selfMapped :
    Mapped 0x1000 selfMapped userBase ∧ userRangeOk 0x1000 selfMapped userBase 4096 = true := by
  have hmapped : ∀ a, Mapped 0x1000 selfMapped a := fun a => by
    rw [Mapped, pageEntry_selfMapped]
    rfl
  have hspec := (userRangeOk_iff_mapped ⟨0x1000, false⟩ selfMapped fun a e _ _ he => by
    rw [← Option.some.inj ((pageEntry_selfMapped a).symm.trans he)]
    decide).1 userBase 4096
  exact ⟨hmapped _, hspec.mpr ⟨by decide, by decide, by decide, fun a _ _ => hmapped a⟩⟩

/-! ## Writes -/

/-- Every page of the destination is mapped for the user and for writing. -/
def UserWrite.Writable (w : UserWrite) (cr3 : Word) (s : Machine) : Prop :=
  ∀ i < w.len.toNat, userWritable cr3 s (w.dst + BitVec.ofNat 64 i) = true

/-- A write is for writable pages only; otherwise the answer is `-ORE_EFAULT` and
memory is as it was. -/
def UserWrite.Guarded (w : UserWrite) (cpu : Cpu) (s : Machine) : Prop :=
  w.Writable cpu.cr3 s ∨
    ∃ touched, w.run cpu ⟨s, []⟩ = (.ok (-oreEfault), ⟨s, touched⟩)

theorem answer_eq {x : UserKern Unit} {r q : Int} {c c' : Caller}
    (h : (x >>= fun _ => (return r : UserKern Int)) c = (.ok q, c')) : q = r := by
  obtain ⟨_, _, _, hret⟩ := Exec.bind_eq_ok h
  cases hret
  rfl

theorem Vfs.neg_one_le_readFileAt (v : Vfs) (root : Option BlockDevice) (env : ReadEnv)
    (path : List Byte) (offset : Word) {bufferSize : Word} (hsize : bufferSize.toNat ≤ 2 ^ 47) :
    -1 ≤ (v.readFileAt root env path offset bufferSize).1 := by
  have hcount : ∀ {size n : Word}, ¬ offset ≥ size →
      n = (if size - offset < bufferSize then size - offset else bufferSize) → -1 ≤ n.toInt := by
    intro size n hoffset hn
    have hle : n ≤ bufferSize := hn ▸ (readCount_spec bufferSize hoffset).2
    rw [toInt_of_le (Nat.le_trans (BitVec.le_def.mp hle) hsize)]
    omega
  unfold Vfs.readFileAt
  split
  · exact Int.le_refl _
  · split
    · split
      · exact Int.le_refl _
      · split
        · exact Int.le_refl _
        · unfold readDiskFile
          split
          · decide
          next hoffset =>
            dsimp only
            split
            · exact Int.le_refl _
            · split
              · exact Int.le_refl _
              · exact hcount hoffset rfl
    · split
      · exact Int.le_refl _
      · unfold readInitramfsFile
        split
        · decide
        next hoffset => exact hcount hoffset rfl

/-- A writing call answers `-ORE_EFAULT` only for a destination that the range check
refuses. -/
theorem UserWrite.refused_of_efault {w : UserWrite} {c : Caller}
    (h : w.run cpu ⟨s, []⟩ = (.ok (-oreEfault), c)) :
    w.Reaches ∧ userRangeOk cpu.cr3 s w.dst w.len = false := by
  cases w with
  | copyToUser dst src len =>
    simp only [UserWrite.run, Cpu.copyToUser] at h
    rw [Exec.bind_ok (Exec.get_apply _)] at h
    dsimp only at h
    split at h
    next => cases h
    next =>
      split at h
      next hrange => exact ⟨trivial, hrange⟩
      next => exact absurd (answer_eq h) (by decide)
  | read key a1 a2 a3 =>
    simp only [UserWrite.run, Cpu.sysRead] at h
    rw [Exec.bind_ok (Exec.get_apply _)] at h
    dsimp only at h
    split at h
    next => cases h
    next hfd =>
      split at h
      next hrange => exact ⟨not_not.mp hfd, hrange⟩
      next =>
        split at h
        next => cases h
        next => exact absurd (answer_eq h) (by decide)
  | fileRead v root env handles a1 a2 a3 =>
    simp only [UserWrite.run, Cpu.sysFileRead] at h
    rw [Exec.bind_ok (Exec.get_apply _)] at h
    have hresult := answer_eq h
    unfold OreOS.Kernel.sysFileRead at hresult
    split at hresult
    next => cases hresult
    next hhandle =>
      rw [not_or] at hhandle
      cases hrange : userRangeOk cpu.cr3 s a2 a3 with
      | false => exact ⟨⟨Nat.lt_of_not_le hhandle.1, not_not.mp hhandle.2⟩, hrange⟩
      | true =>
        rw [hrange, if_neg (by decide)] at hresult
        have hlow := Vfs.neg_one_le_readFileAt v root env (handles a1.toNat).path
          (handles a1.toNat).offset (length_le_of_userRangeOk hrange)
        dsimp only at hresult
        rw [← hresult] at hlow
        exact absurd hlow (by decide)
  | args proc a1 a2 =>
    simp only [UserWrite.run, Cpu.sysArgs] at h
    rw [Exec.bind_ok (Exec.get_apply _)] at h
    cases proc with
    | none => cases h
    | some proc =>
      dsimp only at h
      split at h
      next hrange => exact ⟨rfl, hrange⟩
      next =>
        have hcount := answer_eq h
        have hefault : -oreEfault < 0 := by decide
        omega

/-- A destination that the range check refuses is left alone. -/
theorem UserWrite.efault_of_refused {w : UserWrite} (hreach : w.Reaches)
    (hrange : userRangeOk cpu.cr3 s w.dst w.len = false) (hlen : w.len ≠ 0) :
    w.run cpu ⟨s, []⟩ = (.ok (-oreEfault), ⟨s, []⟩) := by
  cases w with
  | copyToUser dst src len =>
    simp only [UserWrite.run, Cpu.copyToUser]
    rw [Exec.bind_ok (Exec.get_apply _)]
    exact (congrFun ((if_neg hlen).trans (if_pos hrange)) _)
  | read key a1 a2 a3 =>
    simp only [UserWrite.run, Cpu.sysRead]
    rw [Exec.bind_ok (Exec.get_apply _)]
    exact (congrFun ((if_neg (not_not.mpr hreach)).trans (if_pos hrange)) _)
  | fileRead v root env handles a1 a2 a3 =>
    simp only [UserWrite.run, Cpu.sysFileRead]
    rw [Exec.bind_ok (Exec.get_apply _)]
    have hhandle : ¬ (a1.toNat ≥ oreMaxHandles ∨ (handles a1.toNat).type ≠ Vfs.oreVfsFile) :=
      not_or.mpr ⟨Nat.not_le.mpr hreach.1, not_not.mpr hreach.2⟩
    have hreply : OreOS.Kernel.sysFileRead v root env cpu.cr3 s handles a1 a2 a3 =
        { result := -oreEfault, handles := handles } :=
      (if_neg hhandle).trans (if_pos hrange)
    rw [hreply]
    rfl
  | args proc a1 a2 =>
    simp only [UserWrite.run, Cpu.sysArgs]
    rw [Exec.bind_ok (Exec.get_apply _)]
    cases proc with
    | none => cases hreach
    | some proc => exact (congrFun (if_pos hrange) _)

/-- The writing calls keep to writable pages exactly where the destination is
writable anyway, or the call comes to the range check and the check refuses. -/
theorem userWrite_guarded_iff (w : UserWrite) (cpu : Cpu) (s : Machine) :
    w.Guarded cpu s ↔
      w.Writable cpu.cr3 s ∨ (w.Reaches ∧ userRangeOk cpu.cr3 s w.dst w.len = false) := by
  constructor
  · rintro (hwritable | ⟨touched, hrun⟩)
    · exact .inl hwritable
    · exact .inr (UserWrite.refused_of_efault hrun)
  · rintro (hwritable | ⟨hreach, hrange⟩)
    · exact .inl hwritable
    · by_cases hlen : w.len = 0
      · refine .inl fun i hi => absurd hi ?_
        rw [hlen]
        exact Nat.not_lt_zero i
      · exact .inr ⟨[], UserWrite.efault_of_refused hreach hrange hlen⟩

/-- Page tables at 0x1000, 0x2000, 0x3000 and 0x4000 with one user page, the first, for reading
only. -/
def onePage : Machine where
  mem :=
    let m : Mem := fun _ => 0
    let m := m.store64 (cell 0x1000 (tableIndex userBase 39)) 0x2007
    let m := m.store64 (cell 0x2000 (tableIndex userBase 30)) 0x3007
    let m := m.store64 (cell 0x3000 (tableIndex userBase 21)) 0x4007
    m.store64 (cell 0x4000 (tableIndex userBase 12)) 0x5005
  pool := []

/-- A byte for a page that the program may only read. With write protection off the
byte is stored; with write protection on the kernel panics. -/
theorem copyToUser_readOnly :
    (∀ wp, ¬ (UserWrite.copyToUser userBase (fun _ => 0x41) 1).Guarded ⟨0x1000, wp⟩
      onePage) ∧
    userWritable 0x1000 onePage userBase = false ∧
    (UserWrite.copyToUser userBase (fun _ => 0x41) 1).run ⟨0x1000, false⟩ ⟨onePage, []⟩ =
      (.ok 0, ⟨onePage.write 0x5000 [0x41], [userBase]⟩) ∧
    (UserWrite.copyToUser userBase (fun _ => 0x41) 1).run ⟨0x1000, true⟩ ⟨onePage, []⟩ =
      (.error unhandledException, ⟨onePage, [userBase]⟩) := by
  have hrange : userRangeOk 0x1000 onePage userBase 1 = true := by decide +kernel
  have hflags : userWritable 0x1000 onePage userBase = false := by decide +kernel
  refine ⟨fun wp h => ?_, hflags, ?_, ?_⟩
  · rcases h with hwritable | ⟨touched, hrun⟩
    · have hfirst := hwritable 0 (by decide)
      rw [BitVec.add_zero] at hfirst
      exact absurd (hflags.symm.trans hfirst) (by decide)
    · have hrefused := (UserWrite.refused_of_efault hrun).2
      exact absurd (hrange.symm.trans hrefused) (by decide)
  · rfl
  · rfl

end OreOS.Kernel
