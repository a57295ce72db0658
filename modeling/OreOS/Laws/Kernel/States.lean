import OreOS.Laws.Kernel.Moves

/-!
# Process states along a run

Every state the machine reaches from `user_init_spawn` has a board that meets
`Board.Inv`; an EXITED process is left alone by every later event; and as long
as the callers' instruction and stack pointers are not null, every BLOCKED
process can be returned to.
-/

namespace OreOS.Kernel

open OreOS.Lib (Word Byte Run runList)
open Syscall (LoadedImage)

variable {t t' : ProcTable} {e : Event} {ok : ProcTable → Event → Prop}

/-- The event comes from a user context with an instruction and a stack
pointer. -/
def Event.HasContext : Event → Prop
  | .tick _ => True
  | .call ctx _ => ctx.rip ≠ 0 ∧ ctx.rsp ≠ 0

instance (e : Event) : Decidable e.HasContext :=
  match e with
  | .tick _ => inferInstanceAs (Decidable True)
  | .call _ _ => inferInstanceAs (Decidable (_ ∧ _))

theorem userInitSpawn_running {kernelPml4 pml4 : Word} {path : List Byte} {image : LoadedImage} :
    ∀ i < (userInitSpawn kernelPml4 pml4 path image).count,
      ((userInitSpawn kernelPml4 pml4 path image).procs i).state = .running := by
  rintro (_ | _ | i) hi
  · rfl
  · rfl
  · exact absurd (show i + 2 < 2 from hi) (by omega)

theorem inv_step (h : t.board.Inv) (hs : step t e = some t') : t'.board.Inv := by
  obtain ⟨b, h1, h2⟩ := step_moves h hs
  exact h2.inv (h1.inv h)

theorem count_le_step (h : t.board.Inv) (hs : step t e = some t') : t.count ≤ t'.count := by
  obtain ⟨b, h1, h2⟩ := step_moves h hs
  exact h1.count_le.trans h2.count_le

theorem inv_run {s : ProcTable} (h : s.board.Inv) (hrun : Run step ok s t) : t.board.Inv :=
  hrun.invariant (P := fun u => u.board.Inv) h fun _ _ _ ht _ hs => inv_step ht hs

theorem exited_step (h : t.board.Inv) (hs : step t e = some t') {i : Nat} (hi : i < t.count)
    (hx : (t.procs i).state = .exited) :
    i < t'.count ∧ (t'.procs i).state = .exited ∧ t'.current ≠ i := by
  obtain ⟨b, h1, h2⟩ := step_moves h hs
  have hib : i < b.count := Nat.lt_of_lt_of_le hi h1.count_le
  obtain ⟨hx, -⟩ := h1.exited h hi hx
  obtain ⟨hx, hc⟩ := h2.exited (h1.inv h) hib hx
  exact ⟨Nat.lt_of_lt_of_le hib h2.count_le, hx, hc⟩

theorem exited_run (h : t.board.Inv) {i : Nat} (hi : i < t.count)
    (hx : (t.procs i).state = .exited) (hrun : Run step ok t t') :
    (t'.procs i).state = .exited ∧ t'.current ≠ i := by
  have hc : t.current ≠ i := by
    rintro rfl
    rw [h.current_running] at hx
    cases hx
  have hinv := by
    refine hrun.invariant (P := fun u =>
      u.board.Inv ∧ i < u.count ∧ (u.procs i).state = .exited ∧ u.current ≠ i) ⟨h, hi, hx, hc⟩ ?_
    rintro u e v ⟨hu, hiu, hxu, -⟩ - hs
    exact ⟨inv_step hu hs, exited_step hu hs hiu hxu⟩
  exact hinv.2.2

theorem pending_step (h : t.board.Inv) (hok : e.HasContext) (hs : step t e = some t')
    (hb : ∀ i < t.count, (t.procs i).state = .blocked → (t.procs i).Pending) :
    ∀ i < t'.count, (t'.procs i).state = .blocked → (t'.procs i).Pending := by
  have hreturns : ∀ r, e.returns r → r.1 ≠ 0 ∧ r.2 ≠ 0 := by
    intro r hr
    cases e with
    | tick frame => exact hr.elim
    | call ctx request =>
      obtain rfl : r = (ctx.rip, ctx.rsp) := hr
      exact hok
  obtain ⟨b, h1, h2⟩ := step_moves h hs
  exact h2.pending hreturns (h1.pending hreturns hb)

theorem processFind_slot (h : t.board.Inv) {pid : Nat} (hlt : pid < t.count) :
    processFind t pid = some pid := by
  cases hf : processFind t pid with
  | none =>
    have := processFind_none hf h.pid
    omega
  | some i =>
    obtain ⟨hi, hpid⟩ := processFind_spec hf
    rw [← hpid]
    exact congrArg some (h.pid i hi).symm

/-- The states of the processes in every state a run from `user_init_spawn`
reaches: the current process is the one user process that is RUNNING, EXITED
is final, and a BLOCKED process has a return context and waits for a process
that has not exited. -/
theorem process_states {kernelPml4 pml4 : Word} {path : List Byte} {image : LoadedImage}
    (hrun : Run step (fun _ e => e.HasContext) (userInitSpawn kernelPml4 pml4 path image) t) :
    (t.current < t.count ∧ 1 ≤ (t.procs t.current).pid ∧
      ∀ i < t.count, 1 ≤ (t.procs i).pid → ((t.procs i).state = .running ↔ i = t.current)) ∧
    (∀ i < t.count, (t.procs i).state = .exited →
      ∀ t', Run step (fun _ e => e.HasContext) t t' →
        (t'.procs i).state = .exited ∧ t'.current ≠ i) ∧
    ∀ i < t.count, (t.procs i).state = .blocked →
      (t.procs i).waitReturnRip ≠ 0 ∧ (t.procs i).waitReturnRsp ≠ 0 ∧
      ∃ c, processFind t (t.procs i).waitingForPid = some c ∧ (t.procs c).state ≠ .exited := by
  have hinit := inv_userInitSpawn kernelPml4 pml4 path image
  have hinv := inv_run hinit hrun
  have hpend := by
    refine hrun.invariant (P := fun u => u.board.Inv ∧
      ∀ i < u.count, (u.procs i).state = .blocked → (u.procs i).Pending)
      ⟨hinit, fun i hi hb => ?_⟩ ?_
    · rw [userInitSpawn_running i hi] at hb
      cases hb
    · rintro u e v ⟨hu, hbu⟩ hok hs
      exact ⟨inv_step hu hs, pending_step hu hok hs hbu⟩
  refine ⟨⟨hinv.current_lt, ?_, fun i hi h1 => ?_⟩, fun i hi hx t' hrun' => ?_, fun i hi hb => ?_⟩
  · rw [hinv.current_pid]
    exact hinv.current_pos
  · rw [show (t.procs i).pid = i from hinv.pid i hi] at h1
    exact hinv.running i h1 hi
  · exact exited_run hinv hi hx hrun'
  · obtain ⟨-, hw, -, hx⟩ := hinv.blocked i hi hb
    exact ⟨(hpend.2 i hi hb).1, (hpend.2 i hi hb).2, _, processFind_slot hinv hw, hx⟩

/-- The first process spawns a child and waits for it: in the state this run
ends in it is BLOCKED on the child, which runs. -/
def spawnAndWait : List Event :=
  let ctx : UserCtx := { rip := 0x8000000100, rsp := 0x8000100000 }
  [.call ctx (.spawn (.created [] 0x3000 [] (.ok ⟨0x8000000000, 0x8000100000, 1⟩))),
   .call ctx (.wait 2)]

theorem process_states_spawnAndWait :
    ∃ t, Run step (fun _ e => e.HasContext)
        (userInitSpawn 0x1000 0x2000 [] ⟨0x8000000000, 0x8000100000, 1⟩) t ∧
      t.count = 3 ∧ t.current = 2 ∧ (t.procs 1).state = .blocked ∧
      ∃ c, processFind t (t.procs 1).waitingForPid = some c ∧ (t.procs c).state ≠ .exited := by
  have hlist : runList step (fun _ e => e.HasContext)
      (userInitSpawn 0x1000 0x2000 [] ⟨0x8000000000, 0x8000100000, 1⟩) spawnAndWait = some _ := rfl
  have hrun := Run.ofList hlist
  exact ⟨_, hrun, rfl, rfl, rfl, ((process_states hrun).2.2 1 (by decide) rfl).2.2⟩

/-! ## Whose turn it is

`next_ready_process` scans the slots from 1 on in a circle, beginning after the excluded
process. `turn` is the place of a slot in that circle. The slot of scan step `k` is the one
whose turn is `k`, so every slot is looked at once and the scan finds the READY process of
the first turn. -/

variable {t : ProcTable} {n e j k q : Nat}

/-- How many slots of `1, ..., n - 1` come before slot `j` in the circle that begins
after slot `e`. -/
def turn (n e j : Nat) : Nat :=
  (j + (n - 1) - (e + 1)) % (n - 1)

theorem turn_of_lt (hj : j < n) (h : e < j) : turn n e j = j - (e + 1) := by
  have hsplit : j + (n - 1) - (e + 1) = j - (e + 1) + (n - 1) := by omega
  rw [turn, hsplit, Nat.add_mod_right]
  exact Nat.mod_eq_of_lt (by omega)

theorem turn_of_le (he : e < n) (hj : 1 ≤ j) (h : j ≤ e) :
    turn n e j = j + (n - 1) - (e + 1) :=
  Nat.mod_eq_of_lt (by omega)

theorem turn_lt (hj : 1 ≤ j) (hn : j < n) : turn n e j < n - 1 :=
  Nat.mod_lt _ (by omega)

theorem scanSlot_eq (hn : n ≤ 2 ^ 31) (he : e < n) (hk : k < n - 1) :
    scanSlot n e k = if e + 1 + k < n then e + 1 + k else e + 1 + k - (n - 1) := by
  unfold scanSlot
  rw [Nat.mod_eq_of_lt (by omega)]
  dsimp only
  split <;> split <;> split <;> omega

theorem turn_scanSlot (hn : n ≤ 2 ^ 31) (he : e < n) (hk : k < n - 1) :
    turn n e (scanSlot n e k) = k := by
  rw [scanSlot_eq hn he hk]
  split
  next h =>
    rw [turn_of_lt h (by omega)]
    omega
  next h =>
    rw [turn_of_le he (by omega) (by omega)]
    omega

theorem scanSlot_turn (hn : n ≤ 2 ^ 31) (he : e < n) (hj : 1 ≤ j) (hjn : j < n) :
    scanSlot n e (turn n e j) = j := by
  rw [scanSlot_eq hn he (turn_lt hj hjn)]
  by_cases h : e < j
  · rw [turn_of_lt hjn h]
    split <;> omega
  · rw [turn_of_le he hj (by omega)]
    split <;> omega

/-- A READY user process other than the excluded one. -/
def ProcTable.Eligible (t : ProcTable) (e j : Nat) : Prop :=
  1 ≤ j ∧ j < t.count ∧ j ≠ e ∧ (t.procs j).state = .ready

instance (t : ProcTable) (e j : Nat) : Decidable (t.Eligible e j) :=
  inferInstanceAs (Decidable (_ ∧ _))

theorem wanted_iff (hpid : ∀ i < t.count, (t.procs i).pid = i) (hj : 1 ≤ j) (hjn : j < t.count) :
    ((t.procs j).pid != e && (t.procs j).state == .ready) = true ↔ t.Eligible e j := by
  rw [hpid j hjn, Bool.and_eq_true, bne_iff_ne, beq_iff_eq]
  exact ⟨fun h => ⟨hj, hjn, h⟩, fun h => h.2.2⟩

theorem nextReadyProcess_eq_some (hcount : t.count ≤ 2 ^ 31)
    (hpid : ∀ i < t.count, (t.procs i).pid = i) (he : e < t.count) :
    nextReadyProcess t e = some q ↔
      t.Eligible e q ∧ ∀ j, t.Eligible e j → j ≠ q → turn t.count e q < turn t.count e j := by
  have hslot : ∀ k < t.count - 1, 1 ≤ scanSlot t.count e k ∧ scanSlot t.count e k < t.count := by
    intro k hk
    rw [scanSlot_eq hcount he hk]
    split <;> omega
  have hscan : nextReadyProcess t e = some q ↔ ∃ k < t.count - 1, scanSlot t.count e k = q ∧
      t.Eligible e q ∧ ∀ i < k, ¬ t.Eligible e (scanSlot t.count e i) := by
    unfold nextReadyProcess
    split
    next hle =>
      constructor
      · intro h
        cases h
      · rintro ⟨k, hk, -⟩
        omega
    next hgt =>
      rw [List.find?_map, Option.map_eq_some_iff]
      simp only [List.find?_range_eq_some, Function.comp_apply, List.mem_range]
      constructor
      · rintro ⟨k, ⟨hwanted, hk, hfirst⟩, rfl⟩
        refine ⟨k, hk, rfl, (wanted_iff hpid (hslot k hk).1 (hslot k hk).2).mp hwanted, ?_⟩
        intro i hi heligible
        have hi' := hslot i (by omega)
        have hnot := hfirst i hi
        rw [(wanted_iff hpid hi'.1 hi'.2).mpr heligible] at hnot
        cases hnot
      · rintro ⟨k, hk, rfl, heligible, hfirst⟩
        refine ⟨k, ⟨(wanted_iff hpid (hslot k hk).1 (hslot k hk).2).mpr heligible, hk, ?_⟩, rfl⟩
        intro i hi
        have hi' := hslot i (by omega)
        rw [Bool.not_eq_true', Bool.eq_false_iff]
        exact fun h => hfirst i hi ((wanted_iff hpid hi'.1 hi'.2).mp h)
  rw [hscan]
  constructor
  · rintro ⟨k, hk, rfl, heligible, hfirst⟩
    refine ⟨heligible, fun j hj hne => ?_⟩
    rw [turn_scanSlot hcount he hk]
    by_contra hlt
    have hslotj := scanSlot_turn hcount he hj.1 hj.2.1
    -- The turn of `j` is not after step `k`, and it is not step `k` either.
    have hbefore : turn t.count e j < k := by
      refine Nat.lt_of_le_of_ne (Nat.le_of_not_lt hlt) ?_
      rintro rfl
      exact hne hslotj.symm
    exact hfirst _ hbefore (by rwa [hslotj])
  · rintro ⟨heligible, hfirst⟩
    have hslotq := scanSlot_turn hcount he heligible.1 heligible.2.1
    have hturn := turn_lt (e := e) heligible.1 heligible.2.1
    refine ⟨turn t.count e q, hturn, hslotq, heligible, fun i hi hj => ?_⟩
    have hturni := turn_scanSlot hcount he (Nat.lt_trans hi hturn)
    have hne : scanSlot t.count e i ≠ q := by
      rintro rfl
      omega
    have hlt := hfirst _ hj hne
    omega

/-- The scan passes every slot, so it misses no process. -/
theorem nextReadyProcess_ne_none (hcount : t.count ≤ 2 ^ 31)
    (hpid : ∀ i < t.count, (t.procs i).pid = i) (he : e < t.count) (h : t.Eligible e q) :
    nextReadyProcess t e ≠ none := by
  have hslot := scanSlot_turn hcount he h.1 h.2.1
  have hmem : q ∈ (List.range (t.count - 1)).map (scanSlot t.count e) :=
    List.mem_map.mpr ⟨_, List.mem_range.mpr (turn_lt h.1 h.2.1), hslot⟩
  have hwanted := (wanted_iff hpid h.1 h.2.1).mpr h
  unfold nextReadyProcess
  rw [if_neg (by have := h.1; have := h.2.1; omega)]
  intro hnone
  exact List.find?_eq_none.mp hnone q hmem hwanted

/-- What `next_ready_process` finds, in both of its copies. -/
theorem nextReadyProcess_first (t : ProcTable) (e : Nat) :
    Syscall.nextReadyProcess t e = nextReadyProcess t e ∧
      (t.count ≤ maxProcesses → (∀ i < t.count, (t.procs i).pid = i) → e < t.count →
        ((nextReadyProcess t e).isSome = true ↔ ∃ q, t.Eligible e q) ∧
        ∀ q, nextReadyProcess t e = some q →
          t.Eligible e q ∧ ∀ j, t.Eligible e j → j ≠ q → turn t.count e q < turn t.count e j) := by
  refine ⟨nextReadyProcess_eq t e, fun hcount hpid he => ?_⟩
  have hsmall : t.count ≤ 2 ^ 31 := Nat.le_trans hcount (by decide)
  refine ⟨?_, fun q hq => (nextReadyProcess_eq_some hsmall hpid he).mp hq⟩
  rw [Option.isSome_iff_exists]
  constructor
  · rintro ⟨q, hq⟩
    exact ⟨q, ((nextReadyProcess_eq_some hsmall hpid he).mp hq).1⟩
  · rintro ⟨q, hq⟩
    exact Option.ne_none_iff_exists'.mp (nextReadyProcess_ne_none hsmall hpid he hq)

/-- Five slots, of which 1 and 3 are READY and 3 is excluded: the scan wraps round to 1. -/
def wrappingTable : ProcTable where
  procs i := { pid := i, state := if i = 1 ∨ i = 3 then .ready else .blocked }
  count := 5
  current := 3
  cr3 := 0

theorem nextReadyProcess_first_wrapping :
    nextReadyProcess wrappingTable 3 = some 1 ∧ turn 5 3 1 = 1 ∧
      ∀ j, wrappingTable.Eligible 3 j → j ≠ 1 → turn 5 3 1 < turn 5 3 j :=
  ⟨rfl, rfl, (((nextReadyProcess_first wrappingTable 3).2 (by decide) (fun _ _ => rfl)
    (by decide)).2 1 rfl).2⟩

end OreOS.Kernel
