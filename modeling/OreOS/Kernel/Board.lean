import OreOS.Kernel.Schedule

/-!
# The scheduling board

What the scheduler is for, without registers, names and address spaces:
processes with their states, parents and pending waits, and one that runs.
`Move` lists everything that can happen to a board, and every move keeps
`Board.Inv`. The source never states its last clause, that a BLOCKED process
waits for a child of its own that has not exited: it is what makes EXIT find
every waiter.
-/

namespace OreOS.Kernel

open OreOS.Lib (Word)
open Function (update)

@[ext]
structure Board where
  pid : Nat → Nat
  state : Nat → ProcState
  parent : Nat → Nat
  waitingFor : Nat → Nat
  /-- The context WAIT left to return to; `(0, 0)` when nothing is pending. -/
  ret : Nat → Word × Word
  count : Nat
  current : Nat

/-- The board of a process table. -/
def ProcTable.board (t : ProcTable) : Board where
  pid i := (t.procs i).pid
  state i := (t.procs i).state
  parent i := (t.procs i).parentPid
  waitingFor i := (t.procs i).waitingForPid
  ret i := ((t.procs i).waitReturnRip, (t.procs i).waitReturnRsp)
  count := t.count
  current := t.current

namespace Board

/-- The current process goes to state `s` and `q` runs. -/
def handOver (b : Board) (s : ProcState) (q : Nat) : Board :=
  { b with
    state := update (update b.state b.current s) q .running
    current := q }

/-- A new READY process in the next slot. -/
def create (b : Board) (parent : Nat) : Board :=
  { pid := update b.pid b.count b.count
    state := update b.state b.count .ready
    parent := update b.parent b.count parent
    waitingFor := update b.waitingFor b.count 0
    ret := update b.ret b.count (0, 0)
    count := b.count + 1
    current := b.current }

/-- The current process waits for `q`, which runs. -/
def waitOn (b : Board) (q : Nat) (r : Word × Word) : Board :=
  { b.handOver .blocked q with
    waitingFor := update b.waitingFor b.current q
    ret := update b.ret b.current r }

/-- The current process exits into the pending return of `m`. -/
def exitInto (b : Board) (m : Nat) : Board :=
  { b.handOver .exited m with
    waitingFor := update b.waitingFor m 0
    ret := update b.ret m (0, 0) }

/-- The blocked parent `m` becomes READY without a return context. -/
def wake (b : Board) (m : Nat) : Board :=
  { b with
    state := update b.state m .ready
    waitingFor := update b.waitingFor m 0 }

/-- A user process that may be given the processor. -/
structure Ready (b : Board) (q : Nat) : Prop where
  pos : 1 ≤ q
  lt : q < b.count
  ready : b.state q = .ready

/-- Both halves of the return context are set, which is what EXIT tests. -/
def Pending (b : Board) (i : Nat) : Prop :=
  (b.ret i).1 ≠ 0 ∧ (b.ret i).2 ≠ 0

/-- Everything that can happen to a board; `returns` are the contexts a
process may leave to return to. -/
inductive Move (returns : Word × Word → Prop) (b : Board) : Board → Prop
  | stay : Move returns b b
  | preempt {q : Nat} (hq : b.Ready q) : Move returns b (b.handOver .ready q)
  | wait {q : Nat} {r : Word × Word} (hr : returns r) (hq : b.Ready q)
      (hp : b.parent q = b.current) : Move returns b (b.waitOn q r)
  | spawn (parent : Nat) : Move returns b (b.create parent)
  | exitNext {q : Nat} (hq : b.Ready q)
      (hp : ∀ m < b.count, b.parent b.current = m → b.state m = .blocked →
        b.waitingFor m ≠ b.current) :
      Move returns b (b.handOver .exited q)
  | exitResume {m : Nat} (hm : b.parent b.current = m) (h0 : m ≠ 0) (hlt : m < b.count)
      (hp : b.Pending m) : Move returns b (b.exitInto m)
  | exitWake {m q : Nat} (hm : b.parent b.current = m) (hlt : m < b.count)
      (hnp : ¬ b.Pending m) (hw : b.state m = .blocked) (hq : (b.wake m).Ready q) :
      Move returns b ((b.wake m).handOver .exited q)

/-- The invariant of the board. -/
structure Inv (b : Board) : Prop where
  current_pos : 1 ≤ b.current
  current_lt : b.current < b.count
  pid : ∀ i < b.count, b.pid i = i
  running : ∀ i, 1 ≤ i → i < b.count → (b.state i = .running ↔ i = b.current)
  kernel : b.state 0 = .running
  root : b.parent 0 = 0
  used : ∀ i < b.count, b.state i ≠ .unused
  pending : ∀ i < b.count, b.Pending i → b.state i = .blocked
  blocked : ∀ i < b.count, b.state i = .blocked →
    1 ≤ b.waitingFor i ∧ b.waitingFor i < b.count ∧ b.parent (b.waitingFor i) = i ∧
      b.state (b.waitingFor i) ≠ .exited

/-! ## Handing over -/

@[simp] theorem handOver_state_self (b : Board) (s : ProcState) (q : Nat) :
    (b.handOver s q).state q = .running := by
  simp [handOver]

theorem handOver_state_current {b : Board} {q : Nat} (s : ProcState) (hq : b.current ≠ q) :
    (b.handOver s q).state b.current = s := by
  simp [handOver, Function.update_of_ne hq]

theorem handOver_state_of_ne {b : Board} {q i : Nat} (s : ProcState) (hq : i ≠ q)
    (hc : i ≠ b.current) : (b.handOver s q).state i = b.state i := by
  simp [handOver, Function.update_of_ne hq, Function.update_of_ne hc]

/-- A process that is neither RUNNING nor in the state handed to the old
current process had its state before the hand-over too. -/
theorem handOver_state_inv {b : Board} {q i : Nat} {s x : ProcState}
    (h : (b.handOver s q).state i = x) (hr : x ≠ .running) (hs : x ≠ s) :
    b.state i = x ∧ i ≠ q ∧ i ≠ b.current := by
  by_cases hq : i = q
  · subst hq
    rw [handOver_state_self] at h
    exact absurd h.symm hr
  · by_cases hc : i = b.current
    · subst hc
      rw [handOver_state_current s hq] at h
      exact absurd h.symm hs
    · rw [handOver_state_of_ne s hq hc] at h
      exact ⟨h, hq, hc⟩

section

variable {b : Board} (h : b.Inv)
include h

/-- A hand-over to a user process other than the current one, which stops
running, keeps the clauses that speak of states alone. -/
theorem handOver_running {s : ProcState} {q : Nat} (hs : s ≠ .running) :
    ∀ i, 1 ≤ i → i < b.count → ((b.handOver s q).state i = .running ↔ i = q) := by
  intro i h1 hi
  by_cases hq : i = q
  · subst hq
    simp
  · by_cases hc : i = b.current
    · subst hc
      simp only [handOver_state_current s hq, hs, hq]
    · simp only [handOver_state_of_ne s hq hc, h.running i h1 hi, hc, hq]

theorem handOver_kernel (s : ProcState) (q : Nat) : (b.handOver s q).state 0 = .running := by
  have hpos := h.current_pos
  by_cases hq : 0 = q
  · subst hq
    simp
  · rw [handOver_state_of_ne s hq (by omega)]
    exact h.kernel

theorem handOver_used {s : ProcState} {q : Nat} (hs : s ≠ .unused) :
    ∀ i < b.count, (b.handOver s q).state i ≠ .unused := by
  intro i hi hu
  exact h.used i hi (handOver_state_inv hu (by decide) hs.symm).1

/-- The current process is RUNNING, so it has no pending return. -/
theorem Inv.pending_ne_current {i : Nat} (hi : i < b.count) (hp : b.Pending i) : i ≠ b.current := by
  rintro rfl
  have hrun := (h.running _ h.current_pos h.current_lt).mpr rfl
  rw [h.pending _ hi hp] at hrun
  cases hrun

/-- Handing over to a READY process leaves a process with a pending return
BLOCKED. -/
theorem handOver_pending {q i : Nat} (hq : b.Ready q) (s : ProcState) (hi : i < b.count)
    (hp : b.Pending i) : (b.handOver s q).state i = .blocked := by
  have hb := h.pending i hi hp
  have hne : i ≠ q := by
    rintro rfl
    rw [hq.ready] at hb
    cases hb
  rw [handOver_state_of_ne _ hne (h.pending_ne_current hi hp)]
  exact hb

end

/-! ## Every move keeps the invariant -/

section

variable {b : Board} (h : b.Inv)
include h

/-- The current process gives way to a READY one, and is not BLOCKED. If it exits, nobody may
wait for it. -/
theorem inv_handOver {st : ProcState} {q : Nat} (hq : b.Ready q) (hrunning : st ≠ .running)
    (hused : st ≠ .unused) (hblocked : st ≠ .blocked)
    (hwait : ∀ i < b.count, b.state i = .blocked →
      (b.handOver st q).state (b.waitingFor i) ≠ .exited) : (b.handOver st q).Inv where
  current_pos := hq.pos
  current_lt := hq.lt
  pid := h.pid
  running := handOver_running h hrunning
  kernel := handOver_kernel h _ _
  root := h.root
  used := handOver_used h hused
  pending _ hi hp := handOver_pending h hq _ hi hp
  blocked := by
    intro i hi hb
    obtain ⟨hb, -, -⟩ := handOver_state_inv hb (by decide) hblocked.symm
    obtain ⟨h1, h2, h3, -⟩ := h.blocked i hi hb
    exact ⟨h1, h2, h3, hwait i hi hb⟩

/-- Preemption: nothing becomes BLOCKED or EXITED. -/
theorem inv_preempt {q : Nat} (hq : b.Ready q) : (b.handOver .ready q).Inv := by
  refine inv_handOver h hq (by decide) (by decide) (by decide) fun i hi hb hx => ?_
  exact (h.blocked i hi hb).2.2.2 (handOver_state_inv hx (by decide) (by decide)).1

/-- A wait: the caller is BLOCKED on the child that now runs. -/
theorem inv_wait {q : Nat} (r : Word × Word) (hq : b.Ready q) (hp : b.parent q = b.current) :
    (b.waitOn q r).Inv where
  current_pos := hq.pos
  current_lt := hq.lt
  pid := h.pid
  running := handOver_running h (by decide)
  kernel := handOver_kernel h _ _
  root := h.root
  used := handOver_used h (by decide)
  pending := by
    intro i hi hpend
    have hne : b.current ≠ q := by
      rintro hcq
      have hrun := (h.running _ h.current_pos h.current_lt).mpr rfl
      rw [hcq, hq.ready] at hrun
      cases hrun
    by_cases hc : i = b.current
    · subst hc
      exact handOver_state_current _ hne
    · have hpend' : b.Pending i := by
        simpa [Pending, waitOn, Function.update_of_ne hc] using hpend
      exact handOver_pending h hq _ hi hpend'
  blocked := by
    intro i hi hb
    by_cases hc : i = b.current
    · subst hc
      have hw : (b.waitOn q r).waitingFor b.current = q := by simp [waitOn]
      rw [hw]
      refine ⟨hq.pos, hq.lt, hp, ?_⟩
      show (b.handOver .blocked q).state q ≠ .exited
      simp
    · have hw : (b.waitOn q r).waitingFor i = b.waitingFor i := by
        simp [waitOn, Function.update_of_ne hc]
      have hb' : b.state i = .blocked := by
        have hiq : i ≠ q := by
          rintro rfl
          change (b.handOver .blocked i).state i = .blocked at hb
          simp at hb
        change (b.handOver .blocked q).state i = .blocked at hb
        rwa [handOver_state_of_ne _ hiq hc] at hb
      obtain ⟨h1, h2, h3, h4⟩ := h.blocked i hi hb'
      rw [hw]
      refine ⟨h1, h2, h3, fun hx => h4 ?_⟩
      exact (handOver_state_inv hx (by decide) (by decide)).1

/-- A creation: the new slot is READY and nothing waits for it or in it. -/
theorem inv_create (parent : Nat) : (b.create parent).Inv where
  current_pos := h.current_pos
  current_lt := Nat.lt_succ_of_lt h.current_lt
  pid := by
    intro i hi
    by_cases hc : i = b.count
    · simp [create, hc]
    · simpa [create, Function.update_of_ne hc] using h.pid i (by simp [create] at hi; omega)
  running := by
    intro i h1 hi
    by_cases hc : i = b.count
    · have := h.current_lt
      simp [create, hc]
      omega
    · simpa [create, Function.update_of_ne hc] using h.running i h1 (by simp [create] at hi; omega)
  kernel := by
    have := h.current_lt
    simpa [create, Function.update_of_ne (show 0 ≠ b.count by omega)] using h.kernel
  root := by
    have := h.current_lt
    simpa [create, Function.update_of_ne (show 0 ≠ b.count by omega)] using h.root
  used := by
    intro i hi
    by_cases hc : i = b.count
    · simp [create, hc]
    · simpa [create, Function.update_of_ne hc] using h.used i (by simp [create] at hi; omega)
  pending := by
    intro i hi hp
    by_cases hc : i = b.count
    · simp [Pending, create, hc] at hp
    · simp only [Pending, create, Function.update_of_ne hc] at hp ⊢
      exact h.pending i (by simp [create] at hi; omega) hp
  blocked := by
    intro i hi hb
    by_cases hc : i = b.count
    · simp [create, hc] at hb
    · simp only [create, Function.update_of_ne hc] at hb hi ⊢
      obtain ⟨h1, h2, h3, h4⟩ := h.blocked i (by omega) hb
      have hw : b.waitingFor i ≠ b.count := by omega
      rw [Function.update_of_ne hw, Function.update_of_ne hw]
      exact ⟨h1, by omega, h3, h4⟩

/-- An exit into the next READY process, when no parent waits for the one
that exits. -/
theorem inv_exitNext {q : Nat} (hq : b.Ready q)
    (hp : ∀ m < b.count, b.parent b.current = m → b.state m = .blocked →
      b.waitingFor m ≠ b.current) : (b.handOver .exited q).Inv := by
  refine inv_handOver h hq (by decide) (by decide) (by decide) fun i hi hb hx => ?_
  obtain ⟨-, -, h3, h4⟩ := h.blocked i hi hb
  -- the only process that could have become EXITED is the current one, and nobody waits for it
  have hw : b.waitingFor i ≠ b.current := by
    intro heq
    exact hp i hi (heq ▸ h3) hb heq
  by_cases hwq : b.waitingFor i = q
  · rw [hwq, handOver_state_self] at hx
    cases hx
  · rw [handOver_state_of_ne _ hwq hw] at hx
    exact h4 hx

/-- An exit into the parent's pending return: the waiter runs with its wait
cleared, whichever child it was waiting for. -/
theorem inv_exitInto {m : Nat} (hm : b.parent b.current = m) (h0 : m ≠ 0) (hlt : m < b.count) :
    (b.exitInto m).Inv where
  current_pos := Nat.one_le_iff_ne_zero.mpr h0
  current_lt := hlt
  pid := h.pid
  running := handOver_running h (by decide)
  kernel := handOver_kernel h _ _
  root := h.root
  used := handOver_used h (by decide)
  pending := by
    intro i hi hpend
    by_cases him : i = m
    · simp [Pending, exitInto, him] at hpend
    · have hpend' : b.Pending i := by
        simpa [Pending, exitInto, Function.update_of_ne him] using hpend
      show (b.handOver .exited m).state i = .blocked
      rw [handOver_state_of_ne _ him (h.pending_ne_current hi hpend')]
      exact h.pending i hi hpend'
  blocked := by
    intro i hi hb
    obtain ⟨hb, him, -⟩ := handOver_state_inv hb (by decide) (by decide)
    have hw : (b.exitInto m).waitingFor i = b.waitingFor i := by
      simp [exitInto, Function.update_of_ne him]
    obtain ⟨h1, h2, h3, h4⟩ := h.blocked i hi hb
    rw [hw]
    refine ⟨h1, h2, h3, fun hx => ?_⟩
    change (b.handOver .exited m).state (b.waitingFor i) = .exited at hx
    -- a waiter for the current process is its parent, and that one is `m`
    have hwc : b.waitingFor i ≠ b.current := by
      intro heq
      rw [heq, hm] at h3
      exact him h3.symm
    by_cases hwm : b.waitingFor i = m
    · rw [hwm, handOver_state_self] at hx
      cases hx
    · rw [handOver_state_of_ne _ hwm hwc] at hx
      exact h4 hx

/-- Waking a BLOCKED process without a return context makes it READY. -/
theorem inv_wake {m : Nat} (hnp : ¬ b.Pending m) (hw : b.state m = .blocked) : (b.wake m).Inv where
  current_pos := h.current_pos
  current_lt := h.current_lt
  pid := h.pid
  running := by
    intro i h1 hi
    by_cases him : i = m
    · subst him
      have hne : i ≠ b.current := by
        intro heq
        have hrun := (h.running i h1 hi).mpr heq
        rw [hw] at hrun
        cases hrun
      simp [wake, hne]
    · simpa [wake, Function.update_of_ne him] using h.running i h1 hi
  kernel := by
    have h0 : 0 ≠ m := by
      rintro rfl
      rw [h.kernel] at hw
      cases hw
    simpa [wake, Function.update_of_ne h0] using h.kernel
  root := h.root
  used := by
    intro i hi
    by_cases him : i = m
    · simp [wake, him]
    · simpa [wake, Function.update_of_ne him] using h.used i hi
  pending := by
    intro i hi hp
    by_cases him : i = m
    · subst him
      exact absurd hp hnp
    · simpa [wake, Function.update_of_ne him] using h.pending i hi hp
  blocked := by
    intro i hi hb
    by_cases him : i = m
    · simp [wake, him] at hb
    · simp only [wake, Function.update_of_ne him] at hb ⊢
      obtain ⟨h1, h2, h3, h4⟩ := h.blocked i hi hb
      refine ⟨h1, h2, h3, fun hx => ?_⟩
      by_cases hwm : b.waitingFor i = m
      · simp [hwm] at hx
      · rw [Function.update_of_ne hwm] at hx
        exact h4 hx

end

section

variable {returns : Word × Word → Prop} {b b' : Board} (h : b.Inv) (move : Move returns b b')
include h move

/-- Every move keeps the invariant. -/
theorem Move.inv : b'.Inv := by
  cases move with
  | stay => exact h
  | preempt hq => exact inv_preempt h hq
  | @wait q r hr hq hp => exact inv_wait h r hq hp
  | spawn parent => exact inv_create h parent
  | exitNext hq hp => exact inv_exitNext h hq hp
  | exitResume hm h0 hlt => exact inv_exitInto h hm h0 hlt
  | @exitWake m q hm hlt hnp hw hq =>
    refine inv_exitNext (inv_wake h hnp hw) hq ?_
    intro m' _ hm' hb
    -- the woken parent is READY, so it is not the BLOCKED one
    have : m' = m := by
      rw [← hm', ← hm]
      rfl
    subst this
    simp [wake] at hb

/-- An EXITED process stays EXITED, and no move makes it current. -/
theorem Move.exited {i : Nat} (hi : i < b.count) (hx : b.state i = .exited) :
    b'.state i = .exited ∧ b'.current ≠ i := by
  have hc : i ≠ b.current := by
    rintro rfl
    have hrun := (h.running _ h.current_pos h.current_lt).mpr rfl
    rw [hx] at hrun
    cases hrun
  have away : ∀ {s : ProcState} {q : Nat}, i ≠ q →
      (b.handOver s q).state i = .exited ∧ q ≠ i := by
    intro s q hq
    exact ⟨by rw [handOver_state_of_ne s hq hc]; exact hx, hq.symm⟩
  have ready_ne : ∀ {q : Nat}, b.Ready q → i ≠ q := by
    rintro q hq rfl
    rw [hq.ready] at hx
    cases hx
  have blocked_ne : ∀ {m : Nat}, b.state m = .blocked → i ≠ m := by
    rintro m hm rfl
    rw [hm] at hx
    cases hx
  cases move with
  | stay => exact ⟨hx, hc.symm⟩
  | preempt hq => exact away (ready_ne hq)
  | wait hr hq hp => exact away (ready_ne hq)
  | spawn parent =>
    refine ⟨?_, hc.symm⟩
    simpa [create, Function.update_of_ne (show i ≠ b.count by omega)] using hx
  | exitNext hq hp => exact away (ready_ne hq)
  | exitResume hm h0 hlt hp => exact away (blocked_ne (h.pending _ hlt hp))
  | @exitWake m q hm hlt hnp hw hq =>
    have him := blocked_ne hw
    have hxw : (b.wake m).state i = .exited := by
      simpa [wake, Function.update_of_ne him] using hx
    have hiq : i ≠ q := by
      rintro rfl
      rw [hq.ready] at hxw
      cases hxw
    have hstay := handOver_state_of_ne (b := b.wake m) .exited hiq hc
    exact ⟨hstay.trans hxw, hiq.symm⟩

end

/-- No process leaves the board. -/
theorem Move.count_le {returns : Word × Word → Prop} {b b' : Board} (move : Move returns b b') :
    b.count ≤ b'.count := by
  cases move with
  | spawn parent => exact Nat.le_succ _
  | _ => exact Nat.le_refl _

/-- When every context left to return to has both halves set, every BLOCKED
process can be returned to. -/
theorem Move.pending {returns : Word × Word → Prop} {b b' : Board}
    (hreturns : ∀ r, returns r → r.1 ≠ 0 ∧ r.2 ≠ 0)
    (hb : ∀ i < b.count, b.state i = .blocked → b.Pending i) (move : Move returns b b') :
    ∀ i < b'.count, b'.state i = .blocked → b'.Pending i := by
  intro i hi hblk
  cases move with
  | stay => exact hb i hi hblk
  | preempt hq => exact hb i hi (handOver_state_inv hblk (by decide) (by decide)).1
  | @wait q r hr hq hp =>
    by_cases hic : i = b.current
    · simpa [Pending, waitOn, hic] using hreturns r hr
    · have hold : b.Pending i := by
        refine hb i hi ?_
        by_cases hiq : i = q
        · subst hiq
          simp [waitOn] at hblk
        · change (b.handOver .blocked q).state i = .blocked at hblk
          rwa [handOver_state_of_ne _ hiq hic] at hblk
      simpa [Pending, waitOn, Function.update_of_ne hic] using hold
  | spawn parent =>
    by_cases hic : i = b.count
    · simp [create, hic] at hblk
    · have hlt : i < b.count := by
        have : i < b.count + 1 := hi
        omega
      simp only [create, Function.update_of_ne hic] at hblk
      simpa [Pending, create, Function.update_of_ne hic] using hb i hlt hblk
  | exitNext hq hp => exact hb i hi (handOver_state_inv hblk (by decide) (by decide)).1
  | @exitResume m hm h0 hlt hp =>
    obtain ⟨hblk, him, -⟩ := handOver_state_inv hblk (by decide) (by decide)
    simpa [Pending, exitInto, Function.update_of_ne him] using hb i hi hblk
  | @exitWake m q hm hlt hnp hw hq => exact absurd (hb m hlt hw) hnp

end Board

end OreOS.Kernel
