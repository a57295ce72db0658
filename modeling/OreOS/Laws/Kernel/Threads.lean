import OreOS.Laws.Kernel.RunQueue

/-!
# Kernel threads, over runs

Between operations the run queues are right, the thread that executes is in
none, and every other has the stack pointer that it was left with (`Sound`,
`run_queue_sound`). A tick that finds no thread to switch to returns to the one
it interrupted, whatever state that is in (`tick_runs_running_iff`).
-/

namespace OreOS.Kernel

open OreOS.Lib (Word Links Run runList)

namespace Scheduler

variable {s s' s'' : Scheduler} {r x : ThreadRef} {cpu : Nat} {out out' : ThreadRef → Prop}

/-! ## Switching -/

/-- A thread that loses the CPU, without its link. -/
def left (sp : Word) (t : Thread) : Thread :=
  if t.id = 0 then t
  else { t with savedSp := sp, state := if t.state = .running then .runnable else t.state }

theorem modifyThread_congr {f g : Thread → Thread} (h : f (s.threads r) = g (s.threads r)) :
    s.modifyThread r f = s.modifyThread r g := by
  rw [modifyThread, modifyThread, h]

theorem modifyThread_eq_self {f : Thread → Thread} (h : f (s.threads r) = s.threads r) :
    s.modifyThread r f = s := by
  rw [modifyThread, h, Function.update_eq_self]

variable {c : ThreadRef}

/-- The thread that runs is saved, and enqueued if it can go on. -/
theorem Queued.saveCurrent (h : Queued s out) (hcount : s.threadCount ≤ maxThreads)
    (hc : (s.sched 0).current = some c) (hid : (s.threads c).id ≠ 0 → Created s c)
    (hcpu : (s.threads c).cpuId = 0) (hout : (s.threads c).state = .running → ¬ out c) (sp : Word) :
    ∃ s', s.saveCurrent 0 sp = some s' ∧ Relinked (s.modifyThread c (left sp)) s' ∧
      Queued s' out := by
  simp only [Scheduler.saveCurrent, hc]
  split
  next hrunning =>
    have hleft : s.modifyThread c (left sp) =
        s.modifyThread c (fun t => { t with savedSp := sp, state := .runnable }) := by
      refine modifyThread_congr ?_
      rw [left, if_neg hrunning.2, if_pos hrunning.1]
    rw [hleft]
    refine h.makeRunnable hcount (hid hrunning.2) ?_ (hout hrunning.1) _ ⟨hcpu, rfl⟩
    rw [hrunning.1]
    nofun
  next hrunning =>
    split
    next hnonzero =>
      have hleft : s.modifyThread c (left sp) =
          s.modifyThread c (fun t => { t with savedSp := sp }) := by
        refine modifyThread_congr ?_
        rw [left, if_neg hnonzero, if_neg fun hstate => hrunning ⟨hstate, hnonzero⟩]
      rw [hleft]
      exact ⟨_, rfl, .refl _, h.modify_data _ ⟨rfl, rfl, rfl⟩⟩
    next hzero =>
      have hleft : s.modifyThread c (left sp) = s :=
        modifyThread_eq_self (if_pos (not_not.mp hzero))
      rw [hleft]
      exact ⟨s, rfl, .refl s, h⟩

theorem Relinked.left (h : Relinked s s') (sp : Word) :
    Relinked (s.modifyThread r (Scheduler.left sp)) (s'.modifyThread r (Scheduler.left sp)) := by
  refine h.modifyThread _ fun t t' heq => ?_
  obtain ⟨id, state, cpuId, savedSp, stackBase, stackTop, switches, wakeTick, next⟩ := t
  simp only [unlinked, Thread.mk.injEq] at heq
  obtain ⟨rfl, rfl, rfl, rfl, rfl, rfl, rfl, rfl, hnext⟩ := heq
  unfold Scheduler.left unlinked
  split
  · rw [hnext]
  · grind

theorem Relinked.switchTo (h : Relinked s s') (cpu : Nat) (r : ThreadRef) :
    Relinked (s.switchTo cpu r) (s'.switchTo cpu r) := by
  have hthread : Relinked
      (s.modifyThread r fun t => { t with state := .running, switches := t.switches + 1 })
      (s'.modifyThread r fun t => { t with state := .running, switches := t.switches + 1 }) := by
    refine h.modifyThread _ fun t t' heq => ?_
    simp only [unlinked, Thread.mk.injEq] at heq ⊢
    grind
  refine ⟨hthread.threads, fun cpu' => ?_, hthread.count, hthread.ticks, hthread.waiters⟩
  unfold Scheduler.switchTo
  by_cases hne : cpu' = cpu
  · subst hne
    rw [modifyCpu_self, modifyCpu_self]
    have heq := hthread.cpus cpu'
    simp only [unqueued, SchedulerCpu.mk.injEq] at heq ⊢
    grind
  · rw [modifyCpu_of_ne hne, modifyCpu_of_ne hne]
    exact hthread.cpus cpu'

/-- The thread that is taken runs. -/
theorem Queued.switchTo (h : Queued s (fun x => out x ∨ x = r)) (cpu : Nat) :
    Queued (s.switchTo cpu r) out := by
  have hnot : ∀ cpu, ¬ Waiting s (fun x => out x ∨ x = r) cpu r := fun _ hw => hw.2.2.2 (.inr rfl)
  have hrunning : Queued
      (s.modifyThread r fun t => { t with state := .running, switches := t.switches + 1 }) out := by
    have hmodified := h.modify hnot fun t => { t with state := .running, switches := t.switches + 1 }
    refine Queued.settle (r := r) (Queued.settle (r := r) hmodified ?_) ?_ <;>
    · rw [modifyThread_self]
      nofun
  refine hrunning.transfer (fun cpu' => ?_) (fun _ _ _ => rfl) (fun _ _ => Iff.rfl)
  unfold Scheduler.switchTo
  by_cases hne : cpu' = cpu
  · rw [hne, modifyCpu_self]
  · rw [modifyCpu_of_ne hne]

/-! ## The invariant -/

/-- What is known of the thread that has the CPU. -/
structure Executes (s : Scheduler) (c : ThreadRef) : Prop where
  state : (s.threads c).state ≠ .runnable
  cpu : (s.threads c).cpuId = 0
  known : Created s c ∨ c = .bootstrap 0

/-- Between operations: the run queues are right, the thread that executes is in
none, and the others have the stack pointer they were left with. -/
structure Sound (s : Scheduler) (lastSp : ThreadRef → Word) : Prop where
  count : s.threadCount ≤ maxThreads
  started : (s.sched 0).started = true
  ids : ∀ r, (s.threads r).id ≠ 0 ↔ Created s r
  idle : ∀ r, ¬ Created s r → (s.threads r).state = .runnable ∨ (s.threads r).state = .running
  current : ∃ c, (s.sched 0).current = some c ∧ Executes s c
  saved : ∀ r, Created s r → (s.sched 0).current ≠ some r → (s.threads r).savedSp = lastSp r
  queued : Queued s (fun _ => False)

variable {lastSp : ThreadRef → Word}

section

variable (h : Sound s lastSp)
include h

theorem Sound.executes (hc : (s.sched 0).current = some c) : Executes s c := by
  obtain ⟨c', hc', hexec⟩ := h.current
  obtain rfl : c = c' := Option.some.inj (hc.symm.trans hc')
  exact hexec

/-- The running thread may change all but its name and CPU. -/
theorem Sound.modifyCurrent (hc : (s.sched 0).current = some c) (hid : (s.threads c).id ≠ 0)
    (f : Thread → Thread)
    (hf : (f (s.threads c)).id = (s.threads c).id ∧ (f (s.threads c)).cpuId = (s.threads c).cpuId ∧
      (f (s.threads c)).state ≠ .runnable) : Sound (s.modifyThread c f) lastSp := by
  have hexec := h.executes hc
  have hcreated := (h.ids c).mp hid
  refine ⟨h.count, h.started, fun r => ?_, fun r hr => ?_, ⟨c, hc, ?_, ?_, hexec.known⟩,
    fun r hr hne => ?_, ?_⟩
  · by_cases hrc : r = c
    · rw [hrc, modifyThread_self, hf.1]
      exact h.ids c
    · rw [modifyThread_of_ne hrc]
      exact h.ids r
  · have hrc : r ≠ c := by
      rintro rfl
      exact hr hcreated
    rw [modifyThread_of_ne hrc]
    exact h.idle r hr
  · rw [modifyThread_self]
    exact hf.2.2
  · rw [modifyThread_self, hf.2.1]
    exact hexec.cpu
  · have hrc : r ≠ c := by
      rintro rfl
      exact hne hc
    rw [modifyThread_of_ne hrc]
    exact h.saved r hr hne
  · refine (h.queued.modify (fun cpu hw => hexec.state hw.2.2.1) f).settle ?_
    rw [modifyThread_self]
    exact hf.2.2

theorem Sound.sleep (ticks : Word) : Sound (s.threadSleep ticks) lastSp := by
  obtain ⟨c, hc, -⟩ := h.current
  simp only [threadSleep, hc]
  split
  next => exact h
  next hid => exact h.modifyCurrent hc hid _ ⟨rfl, rfl, nofun⟩

theorem Sound.exit : Sound s.threadExit lastSp := by
  obtain ⟨c, hc, -⟩ := h.current
  simp only [threadExit, hc]
  split
  next => exact h
  next hid => exact h.modifyCurrent hc hid _ ⟨rfl, rfl, nofun⟩

theorem Sound.frame (waitQueues : Nat → Option ThreadRef) (ticks : Word) :
    Sound { s with waitQueues := waitQueues, timerTicks := ticks } lastSp := by
  obtain ⟨c, hc, hexec⟩ := h.current
  exact ⟨h.count, h.started, h.ids, h.idle, ⟨c, hc, hexec.state, hexec.cpu, hexec.known⟩, h.saved,
    h.queued⟩

theorem Sound.block (queue : Option Nat) : Sound (s.threadBlock queue) lastSp := by
  obtain ⟨c, hc, -⟩ := h.current
  cases queue with
  | none => exact h
  | some queue =>
    simp only [threadBlock, hc]
    split
    next => exact h
    next hid =>
      exact (h.modifyCurrent hc hid (fun t => { t with state := .blocked, next := s.waitQueues queue })
        ⟨rfl, rfl, nofun⟩).frame _ s.timerTicks

end

/-- The invariant is about the links only through `Queued`. -/
theorem Sound.relink (h : Relinked s s') (hq : Queued s' (fun _ => False))
    (count : s.threadCount ≤ maxThreads) (started : (s.sched 0).started = true)
    (ids : ∀ r, (s.threads r).id ≠ 0 ↔ Created s r)
    (idle : ∀ r, ¬ Created s r → (s.threads r).state = .runnable ∨ (s.threads r).state = .running)
    (current : ∃ c, (s.sched 0).current = some c ∧ Executes s c)
    (saved : ∀ r, Created s r → (s.sched 0).current ≠ some r → (s.threads r).savedSp = lastSp r) :
    Sound s' lastSp := by
  refine ⟨h.count ▸ count, h.started 0 ▸ started, fun r => ?_, fun r => ?_, ?_, fun r => ?_, hq⟩
  · rw [h.id, h.created]
    exact ids r
  · rw [h.created, h.state]
    exact idle r
  · obtain ⟨c, hc, hexec⟩ := current
    exact ⟨c, h.current 0 ▸ hc, h.state c ▸ hexec.state, h.cpuId c ▸ hexec.cpu,
      hexec.known.imp_left h.created.mpr⟩
  · rw [h.created, h.current, h.savedSp]
    exact saved r

/-- `thread_unblock` of another thread returns and keeps the invariant. -/
theorem Sound.unblock (h : Sound s lastSp) {thread : Option ThreadRef}
    (hother : thread = none ∨ thread ≠ (s.sched 0).current) :
    ∃ s', s.threadUnblock thread = some s' ∧ Sound s' lastSp := by
  cases thread with
  | none => exact ⟨s, rfl, h⟩
  | some r =>
    have hne : (s.sched 0).current ≠ some r := (hother.resolve_left nofun).symm
    unfold threadUnblock
    dsimp only
    split
    next => exact ⟨s, rfl, h⟩
    next hstate =>
      rw [not_or] at hstate
      have hcreated : Created s r := by
        by_contra hnot
        rcases h.idle r hnot with hidle | hidle
        · exact hstate.1 hidle
        · exact hstate.2 hidle
      obtain ⟨s', henqueue, hs', hq⟩ := h.queued.makeRunnable h.count hcreated hstate.1 not_false
        (fun t => { t with state := .runnable }) ⟨rfl, rfl⟩
      refine ⟨s', henqueue, Sound.relink hs' hq h.count h.started (fun x => ?_) (fun x hx => ?_)
        ?_ (fun x hx hxc => ?_)⟩
      · by_cases hxr : x = r
        · rw [hxr, modifyThread_self]
          exact h.ids r
        · rw [modifyThread_of_ne hxr]
          exact h.ids x
      · have hxr : x ≠ r := by
          rintro rfl
          exact hx hcreated
        rw [modifyThread_of_ne hxr]
        exact h.idle x hx
      · obtain ⟨c, hc, hexec⟩ := h.current
        have hcr : c ≠ r := by
          rintro rfl
          exact hne hc
        refine ⟨c, hc, ?_, ?_, hexec.known⟩
        · rw [modifyThread_of_ne hcr]
          exact hexec.state
        · rw [modifyThread_of_ne hcr]
          exact hexec.cpu
      · by_cases hxr : x = r
        · rw [hxr, modifyThread_self]
          exact h.saved r hcreated hne
        · rw [modifyThread_of_ne hxr]
          exact h.saved x hx hxc

theorem created_succ {n : Nat} (hn : s.threadCount = n) (hn' : s'.threadCount = n + 1) :
    Created s' x ↔ Created s x ∨ x = .slot n := by
  subst hn
  unfold Created
  rw [hn']
  constructor
  · rintro ⟨i, hi, rfl⟩
    rcases Nat.lt_succ_iff_lt_or_eq.mp hi with hlt | rfl
    · exact .inl ⟨i, hlt, rfl⟩
    · exact .inr rfl
  · rintro (⟨i, hi, rfl⟩ | rfl)
    · exact ⟨i, Nat.lt_succ_of_lt hi, rfl⟩
    · exact ⟨_, Nat.lt_succ_self _, rfl⟩

theorem not_created_count : ¬ Created s (.slot s.threadCount) := by
  rintro ⟨i, hi, heq⟩
  cases heq
  exact Nat.lt_irrefl _ hi

theorem Queued.add (h : Queued s (fun _ => False)) (f : Thread → Thread) :
    Queued { s.modifyThread (.slot s.threadCount) f with threadCount := s.threadCount + 1 }
      (fun x => False ∨ x = .slot s.threadCount) := by
  have hnew : ∀ cpu, ¬ Waiting s (fun _ => False) cpu (.slot s.threadCount) :=
    fun _ hw => not_created_count hw.1
  refine (h.modify hnew f).transfer (fun _ => rfl) (fun _ _ _ => rfl) (fun cpu x => ?_)
  unfold Waiting
  rw [created_succ (s := s.modifyThread (.slot s.threadCount) f) rfl rfl]
  constructor
  · rintro ⟨hx, hcpu, hstate, hout⟩
    exact ⟨hx.resolve_right fun heq => hout (.inr heq), hcpu, hstate, hout⟩
  · rintro ⟨hx, hcpu, hstate, hout⟩
    exact ⟨.inl hx, hcpu, hstate, hout⟩

/-- `thread_create` makes no thread, or one more with the stack pointer of its
new stack. -/
theorem Sound.create (h : Sound s lastSp) (fn : Word) (cpu : Nat) (stack : Option Word) :
    s.threadCreate fn cpu stack = some (-1, s) ∨
    ∃ base s', stack = some base ∧
      s.threadCreate fn cpu stack = some (Int.ofNat s'.threadCount, s') ∧
      s'.threadCount = s.threadCount + 1 ∧
      Sound s' (Function.update lastSp (.slot s.threadCount)
        (initialSp (base + threadStackPages * 4096))) := by
  unfold threadCreate
  split
  next => exact .inl rfl
  next =>
    split
    next => exact .inl rfl
    next hroom =>
      cases stack with
      | none => exact .inl rfl
      | some base =>
        right
        dsimp only
        generalize hsp : initialSp (base + threadStackPages * 4096) = sp
        generalize hs₁ : ({ s.modifyThread (.slot s.threadCount) (fun t : Thread => { t with
          id := s.threadCount + 1
          state := .runnable
          cpuId := cpu
          stackBase := base
          stackTop := base + threadStackPages * 4096
          switches := 0
          wakeTick := 0
          savedSp := sp }) with threadCount := s.threadCount + 1 } : Scheduler) = s₁
        have hq₁ : Queued s₁ (fun x => False ∨ x = .slot s.threadCount) := by
          rw [← hs₁]
          exact h.queued.add _
        have hcount₁ : s₁.threadCount = s.threadCount + 1 := by rw [← hs₁]
        have hsched₁ : s₁.sched = s.sched := by rw [← hs₁, modifyThread_sched]
        have hcreated₁ : ∀ {x}, Created s₁ x ↔ Created s x ∨ x = .slot s.threadCount :=
          created_succ rfl hcount₁
        have hnew : (s₁.threads (.slot s.threadCount)).id ≠ 0 ∧
            (s₁.threads (.slot s.threadCount)).state = .runnable ∧
            (s₁.threads (.slot s.threadCount)).cpuId = cpu ∧
            (s₁.threads (.slot s.threadCount)).savedSp = sp := by
          rw [← hs₁, modifyThread_self]
          exact ⟨Nat.succ_ne_zero _, rfl, rfl, rfl⟩
        have hold : ∀ {x}, x ≠ .slot s.threadCount → s₁.threads x = s.threads x := by
          intro x hx
          subst hs₁
          dsimp only
          exact modifyThread_of_ne hx _
        have hroom₁ : s₁.threadCount ≤ maxThreads := by omega
        obtain ⟨s₂, henqueue, hs₂, hq₂⟩ := hq₁.enqueue hroom₁ (hcreated₁.mpr (.inr rfl))
          hnew.2.2.1 hnew.2.1 (.inr rfl)
        refine ⟨base, s₂, rfl, by rw [henqueue]; rfl, hs₂.count.trans hcount₁,
          Sound.relink hs₂ (hq₂.congr fun cpu x => ?_) hroom₁ (by rw [hsched₁]; exact h.started)
            (fun x => ?_) (fun x hx => ?_) ?_ (fun x hx hxc => ?_)⟩
        · refine and_congr_right fun _ => and_congr_right fun _ => and_congr_right fun _ => ?_
          exact not_congr ⟨False.elim, fun hx => hx.1.elim id hx.2⟩
        · by_cases hx : x = .slot s.threadCount
          · rw [hx]
            exact iff_of_true hnew.1 (hcreated₁.mpr (.inr rfl))
          · rw [hold hx, h.ids, hcreated₁, or_iff_left hx]
        · rw [hcreated₁, not_or] at hx
          rw [hold hx.2]
          exact h.idle x hx.1
        · obtain ⟨c, hc, hexec⟩ := h.current
          have hne : c ≠ .slot s.threadCount := by
            rintro rfl
            exact hexec.known.elim not_created_count nofun
          refine ⟨c, by rw [hsched₁]; exact hc, ?_, ?_, hexec.known.imp_left (hcreated₁.mpr ∘ .inl)⟩
          · rw [hold hne]
            exact hexec.state
          · rw [hold hne]
            exact hexec.cpu
        · rw [hsched₁] at hxc
          by_cases hne : x = .slot s.threadCount
          · rw [hne, Function.update_self, hnew.2.2.2, hsp]
          · rw [hold hne, Function.update_of_ne hne]
            exact h.saved x ((hcreated₁.mp hx).resolve_right hne) hxc

/-! ## The tick -/

/-- A tick returns to the thread that it interrupted, with nothing to switch to,
or switches to a thread that waits. -/
theorem Sound.tick_cases (h : Sound s lastSp) (hc : (s.sched 0).current = some c) (sp : Word) :
    ∃ t, s.step (.tick sp) = some t ∧ Queued t (fun _ => False) ∧
      ((∀ r, ¬ Waiting s.awake (fun _ => False) 0 r) ∧ Relinked s.awake t ∨
      ∃ r, Waiting s.awake (fun _ => False) 0 r ∧
        Relinked ((s.awake.modifyThread c (left sp)).switchTo 0 r) t) := by
  obtain ⟨s₁, hwake, hs₁, hq₁⟩ := h.queued.wakeSleepers h.count
  have hstarted : (s.timerInterrupt.sched 0).started = true := h.started
  have htick : s.step (.tick sp) = (schedulerTick 0 sp s.timerInterrupt).map Prod.snd := rfl
  rw [schedulerTick, if_neg (by rw [hstarted]; decide), hwake, Option.bind_some] at htick
  rcases hq₁.dequeue 0 with ⟨hnone, hempty⟩ | ⟨r, s₂, hsome, hwaits, hs₂, hq₂⟩
  · refine ⟨s₁, by rw [htick, hnone]; rfl, hq₁, .inl ⟨fun r hr => hempty r ?_, hs₁⟩⟩
    exact hs₁.waiting.mpr hr
  · have hall := hs₁.trans hs₂
    have hcurrent : (s₂.sched 0).current = some c := by
      rw [hall.current, (awake_frame s).1]
      exact hc
    have hcreated : (s₂.threads c).id ≠ 0 → Created s₂ c := by
      rw [hall.id, hall.created, (awake_data s c).1, created_awake]
      exact (h.ids c).mp
    have hcpu : (s₂.threads c).cpuId = 0 := by
      rw [hall.cpuId, (awake_data s c).2.1]
      exact (h.executes hc).cpu
    -- The thread that was taken out is runnable, so it is not one that is running.
    have hother : (s₂.threads c).state = .running → ¬ (False ∨ c = r) := by
      rintro hrunning (hfalse | rfl)
      · exact hfalse
      · rw [hs₂.state, hwaits.2.2.1] at hrunning
        cases hrunning
    have hcount : s₂.threadCount ≤ maxThreads := by
      rw [hall.count, (awake_frame s).2.1]
      exact h.count
    obtain ⟨s₃, hsave, hs₃, hq₃⟩ := hq₂.saveCurrent hcount hcurrent hcreated hcpu hother sp
    refine ⟨s₃.switchTo 0 r, ?_, hq₃.switchTo 0, .inr ⟨r, ?_, ?_⟩⟩
    · simp only [htick, hsome, hsave, Option.map_some]
    · exact hs₁.waiting.mp hwaits
    · exact ((hall.left sp).trans hs₃).switchTo 0 r

theorem left_data (sp : Word) (t : Thread) :
    (left sp t).id = t.id ∧ (left sp t).cpuId = t.cpuId ∧
      (t.id ≠ 0 → (left sp t).savedSp = sp) ∧ (t.id = 0 → left sp t = t) := by
  unfold left
  split
  next hid => exact ⟨rfl, rfl, fun hne => absurd hid hne, fun _ => rfl⟩
  next hid => exact ⟨rfl, rfl, fun _ => rfl, fun hzero => absurd hzero hid⟩

theorem switched_self (s : Scheduler) (sp : Word) (c r : ThreadRef) :
    let t := ((s.awake.modifyThread c (left sp)).switchTo 0 r).threads r
    t.state = .running ∧ t.id = (s.threads r).id ∧ t.cpuId = (s.threads r).cpuId := by
  have hdata := awake_data s r
  unfold switchTo
  rw [modifyCpu_threads, modifyThread_self]
  by_cases hrc : r = c
  · subst hrc
    have hleft := left_data sp (s.awake.threads r)
    rw [modifyThread_self]
    exact ⟨rfl, hleft.1.trans hdata.1, hleft.2.1.trans hdata.2.1⟩
  · rw [modifyThread_of_ne hrc]
    exact ⟨rfl, hdata.1, hdata.2.1⟩

theorem switched_from {sp : Word} (hne : c ≠ r) :
    ((s.awake.modifyThread c (left sp)).switchTo 0 r).threads c = left sp (s.awake.threads c) := by
  rw [switchTo, modifyCpu_threads, modifyThread_of_ne hne, modifyThread_self]

theorem switched_of_ne {sp : Word} (hxr : x ≠ r) (hxc : x ≠ c) :
    ((s.awake.modifyThread c (left sp)).switchTo 0 r).threads x = s.awake.threads x := by
  rw [switchTo, modifyCpu_threads, modifyThread_of_ne hxr, modifyThread_of_ne hxc]

section

variable (h : Sound s lastSp) (hc : (s.sched 0).current = some c)
include h hc

/-- A tick with an empty queue: the same thread goes on. -/
theorem Sound.stay (hempty : ∀ r, ¬ Waiting s.awake (fun _ => False) 0 r)
    (hs : Relinked s.awake s') (hq : Queued s' (fun _ => False)) (sp : Word) :
    Sound s' (Function.update lastSp c sp) := by
  obtain ⟨hsched, hcount, -⟩ := awake_frame s
  have hexec := h.executes hc
  refine .relink hs hq (hcount ▸ h.count) (hsched ▸ h.started) (fun x => ?_) (fun x hx => ?_)
    ⟨c, hsched ▸ hc, fun hstate => ?_, ?_, ?_⟩ (fun x hx hxc => ?_)
  · rw [(awake_data s x).1, created_awake]
    exact h.ids x
  · rw [created_awake] at hx
    rw [awake_threads, if_neg fun hcon => hx hcon.1]
    exact h.idle x hx
  · -- It would have been woken, and would wait.
    rw [awake_threads] at hstate
    split at hstate
    next hwakes => exact hempty c (waiting_awake.mpr ⟨hwakes.1, hexec.cpu, .inr hwakes.2⟩)
    next => exact hexec.state hstate
  · rw [(awake_data s c).2.1]
    exact hexec.cpu
  · exact hexec.known.imp_left created_awake.mpr
  · have hne : x ≠ c := by
      rintro rfl
      exact hxc (hsched ▸ hc)
    rw [Function.update_of_ne hne, (awake_data s x).2.2]
    rw [hsched] at hxc
    exact h.saved x (created_awake.mp hx) hxc

/-- A tick with a thread in the queue: that one runs. -/
theorem Sound.switch (sp : Word) (hr : Waiting s.awake (fun _ => False) 0 r)
    (hs : Relinked ((s.awake.modifyThread c (left sp)).switchTo 0 r) s')
    (hq : Queued s' (fun _ => False)) : Sound s' (Function.update lastSp c sp) := by
  obtain ⟨hsched, hcount, -⟩ := awake_frame s
  have hself := switched_self s sp c r
  obtain ⟨hrcreated, hrcpu, -⟩ := waiting_awake.mp hr
  have hcreated : ∀ {x}, Created ((s.awake.modifyThread c (left sp)).switchTo 0 r) x ↔ Created s x :=
    created_awake
  have hcurrent : (((s.awake.modifyThread c (left sp)).switchTo 0 r).sched 0).current = some r := by
    rw [switchTo, modifyCpu_self]
  have hid : ∀ x, (((s.awake.modifyThread c (left sp)).switchTo 0 r).threads x).id =
      (s.threads x).id := by
    intro x
    by_cases hxr : x = r
    · rw [hxr]
      exact hself.2.1
    · by_cases hxc : x = c
      · subst hxc
        rw [switched_from hxr, (left_data sp _).1, (awake_data s x).1]
      · rw [switched_of_ne hxr hxc, (awake_data s x).1]
  refine .relink hs hq (show s.awake.threadCount ≤ _ from hcount ▸ h.count) ?_ (fun x => ?_)
    (fun x hx => ?_) ⟨r, hcurrent, ?_, ?_, ?_⟩ (fun x hx hxc => ?_)
  · rw [switchTo, modifyCpu_self, modifyThread_sched, modifyThread_sched, hsched]
    exact h.started
  · rw [hid, hcreated]
    exact h.ids x
  · rw [hcreated] at hx
    have hxr : x ≠ r := by
      rintro rfl
      exact hx hrcreated
    have hawake : s.awake.threads x = s.threads x := by
      rw [awake_threads, if_neg fun hcon => hx hcon.1]
    have hzero : (s.threads x).id = 0 := not_not.mp (mt (h.ids x).mp hx)
    have hsame : ((s.awake.modifyThread c (left sp)).switchTo 0 r).threads x = s.threads x := by
      by_cases hxc : x = c
      · subst hxc
        rw [switched_from hxr, hawake, (left_data sp _).2.2.2 hzero]
      · rw [switched_of_ne hxr hxc, hawake]
    rw [hsame]
    exact h.idle x hx
  · rw [hself.1]
    nofun
  · rw [hself.2.2]
    exact hrcpu
  · exact .inl (hcreated.mpr hrcreated)
  · rw [hcreated] at hx
    have hxr : x ≠ r := by
      rintro rfl
      exact hxc hcurrent
    by_cases hxc' : x = c
    · subst hxc'
      have hnonzero : (s.awake.threads x).id ≠ 0 := by
        rw [(awake_data s x).1]
        exact (h.ids x).mpr hx
      rw [switched_from hxr, (left_data sp _).2.2.1 hnonzero, Function.update_self]
    · rw [switched_of_ne hxr hxc', (awake_data s x).2.2, Function.update_of_ne hxc']
      refine h.saved x hx fun hcon => hxc' ?_
      exact Option.some.inj (hcon.symm.trans hc)

/-- A tick keeps the invariant and records the stack pointer. -/
theorem Sound.tick (sp : Word) :
    ∃ t, s.step (.tick sp) = some t ∧ Sound t (Function.update lastSp c sp) := by
  obtain ⟨t, htick, hq, ⟨hempty, hs⟩ | ⟨r, hr, hs⟩⟩ := h.tick_cases hc sp
  · exact ⟨t, htick, h.stay hc hempty hs hq sp⟩
  · exact ⟨t, htick, h.switch hc sp hr hs hq⟩

end

/-! ## Runs -/

theorem sound_start : Sound start (fun _ => 0) := by
  have hnone : ∀ r, ¬ Created start r := by
    rintro r ⟨i, hi, -⟩
    exact Nat.not_lt_zero i hi
  have hboot : start.threads (.bootstrap 0) = { state := .running } := rfl
  have hrest : ∀ r, r ≠ .bootstrap 0 → start.threads r = {} := by
    intro r hr
    simp only [start, Function.update_of_ne hr]
  refine ⟨Nat.zero_le _, rfl, fun r => iff_of_false ?_ (hnone r), fun r _ => ?_,
    ⟨.bootstrap 0, rfl, ?_, ?_, .inr rfl⟩, fun r hr => absurd hr (hnone r), fun cpu => ?_⟩
  · by_cases hr : r = .bootstrap 0
    · rw [hr, hboot]
      exact fun hne => hne rfl
    · rw [hrest r hr]
      exact fun hne => hne rfl
  · by_cases hr : r = .bootstrap 0
    · rw [hr, hboot]
      exact .inr rfl
    · rw [hrest r hr]
      exact .inl rfl
  · nofun
  · rw [hboot]
  · refine ⟨[], ?_, List.nodup_nil, fun r => iff_of_false List.not_mem_nil fun hw => hnone r hw.1⟩
    show (start.sched cpu).runQueue = none
    by_cases hcpu : cpu = 0
    · rw [hcpu]
      rfl
    · simp only [start, Function.update_of_ne hcpu]

end Scheduler

namespace Watched

open Scheduler

/-- Each event keeps the invariant. -/
theorem sound_step {w : Watched} (h : Sound w.sys w.lastSp) {e : ThreadEvent}
    (hothers : w.sys.OnOthers e) : ∃ w', w.step e = some w' ∧ Sound w'.sys w'.lastSp := by
  have hstep : ∀ {s}, w.sys.step e = some s → w.step e = some ⟨s, w.note s e⟩ := by
    intro s hs
    rw [step, hs, Option.map_some]
  cases e with
  | create fn cpu stack =>
    rcases h.create fn cpu stack with hfail | ⟨base, s, rfl, hcreate, hcount, hsound⟩
    · have hs : w.sys.step (.create fn cpu stack) = some w.sys := by
        rw [Scheduler.step, hfail, Option.map_some]
      refine ⟨_, hstep hs, ?_⟩
      cases stack with
      | none => exact h
      | some base => rwa [note, if_pos rfl]
    · have hs : w.sys.step (.create fn cpu (some base)) = some s := by
        rw [Scheduler.step, hcreate, Option.map_some]
      refine ⟨_, hstep hs, ?_⟩
      rwa [note, if_neg (by omega)]
  | sleep ticks => exact ⟨_, hstep rfl, h.sleep ticks⟩
  | block queue => exact ⟨_, hstep rfl, h.block queue⟩
  | unblock thread =>
    obtain ⟨s, hs, hsound⟩ := h.unblock hothers
    exact ⟨_, hstep hs, hsound⟩
  | exit => exact ⟨_, hstep rfl, h.exit⟩
  | timer => exact ⟨_, hstep rfl, h.frame _ _⟩
  | tick sp =>
    obtain ⟨c, hc, -⟩ := h.current
    obtain ⟨s, hs, hsound⟩ := h.tick hc sp
    refine ⟨_, hstep hs, ?_⟩
    simpa only [note, hc] using hsound

theorem sound_run {w : Watched} (hrun : Run step (fun w e => w.sys.OnOthers e) start w) :
    Sound w.sys w.lastSp := by
  refine hrun.invariant (P := fun w => Sound w.sys w.lastSp) sound_start fun w e w' h hok hstep => ?_
  obtain ⟨w'', hstep', hsound⟩ := sound_step h hok
  obtain rfl : w' = w'' := Option.some.inj (hstep.symm.trans hstep')
  exact hsound

/-- A run queue is a list of the runnable threads of its CPU, each once, with the
stack pointer of its creation or of the last tick that interrupted it; so the walk
of `enqueue_thread` ends and every operation returns. -/
theorem run_queue_sound {w : Watched} (hrun : Run step (fun w e => w.sys.OnOthers e) start w) :
    (∀ cpu, ∃ l, Links w.sys.next (w.sys.sched cpu).runQueue l ∧ l.Nodup ∧
      ∀ r, (r ∈ l ↔ w.sys.Created r ∧ (w.sys.threads r).cpuId = cpu ∧
          (w.sys.threads r).state = .runnable) ∧
        (r ∈ l → (w.sys.threads r).savedSp = w.lastSp r)) ∧
    ∀ e, w.sys.OnOthers e → (w.sys.step e).isSome := by
  have h := sound_run hrun
  refine ⟨fun cpu => ?_, fun e he => ?_⟩
  · obtain ⟨l, hlinks, hnodup, hmem⟩ := h.queued cpu
    refine ⟨l, hlinks, hnodup, fun r => ⟨?_, fun hr => ?_⟩⟩
    · rw [hmem, Waiting, and_iff_left not_false]
    · obtain ⟨hcreated, -, hstate, -⟩ := (hmem r).mp hr
      exact h.saved r hcreated fun hc => (h.executes hc).state hstate
  · obtain ⟨w', hstep, -⟩ := sound_step h he
    obtain ⟨s, hs, -⟩ := Option.map_eq_some_iff.mp hstep
    rw [hs]
    rfl

/-- Two threads are created; the first runs, sleeps and is woken. -/
def twoThreads : List ThreadEvent :=
  [.create 0x1000 0 (some 0x200000), .tick 8, .create 0x1000 0 (some 0x300000), .sleep 2,
    .tick 0x203000, .timer, .tick 0x303000]

theorem run_queue_sound_twoThreads :
    ∃ w, runList step (fun w e => w.sys.OnOthers e) start twoThreads = some w ∧
      w.lastSp (.slot 1) = 0x303000 ∧
      ∃ l, Links w.sys.next (w.sys.sched 0).runQueue l ∧ l.Nodup ∧
        ∀ r, (r ∈ l ↔ w.sys.Created r ∧ (w.sys.threads r).cpuId = 0 ∧
            (w.sys.threads r).state = .runnable) ∧
          (r ∈ l → (w.sys.threads r).savedSp = w.lastSp r) := by
  have hsp : (runList step (fun w e => w.sys.OnOthers e) start twoThreads).map
      (fun w => w.lastSp (.slot 1)) = some 0x303000 := by decide
  obtain ⟨w, hw, hlast⟩ := Option.map_eq_some_iff.mp hsp
  exact ⟨w, hw, hlast, (run_queue_sound (.ofList hw)).1 0⟩

end Watched

namespace Scheduler

variable {s s' : Scheduler} {r c : ThreadRef} {lastSp : ThreadRef → Word}

/-! ## Who runs after a tick -/

/-- The thread that goes on after the tick from `s` to `t` is one that may: RUNNING,
not blocked or dead before, and not asleep unless its time has come. -/
def RightThread (s t : Scheduler) : Prop :=
  ∃ c, (t.sched 0).current = some c ∧ (t.threads c).state = .running ∧
    (s.threads c).state ≠ .blocked ∧ (s.threads c).state ≠ .dead ∧
    ((s.threads c).state = .sleeping → (s.threads c).wakeTick ≤ t.timerTicks)

/-- A tick in this state has a thread to go on with: the one that executes is
RUNNING, or there is one in the queue, or one whose time comes. -/
def FindsThread (s : Scheduler) : Prop :=
  (∃ c, (s.sched 0).current = some c ∧ (s.threads c).state = .running) ∨
    (s.sched 0).runQueue ≠ none ∨
    ∃ i < s.threadCount, Wakes 0 (s.timerTicks + 1) (s.threads (.slot i))

/-- The queue is empty exactly if no thread waits. -/
theorem Sound.runQueue_ne_none (h : Sound s lastSp) :
    (s.sched 0).runQueue ≠ none ↔ ∃ r, Waiting s (fun _ => False) 0 r := by
  obtain ⟨l, hlinks, -, hmem⟩ := h.queued 0
  rw [hlinks.head_eq]
  cases l with
  | nil => exact iff_of_false (fun h => h rfl) fun ⟨r, hr⟩ => List.not_mem_nil ((hmem r).mpr hr)
  | cons r l => exact iff_of_true nofun ⟨r, (hmem r).mp List.mem_cons_self⟩

theorem Sound.waiting_awake_iff (h : Sound s lastSp) :
    (∃ r, Waiting s.awake (fun _ => False) 0 r) ↔
      (s.sched 0).runQueue ≠ none ∨
        ∃ i < s.threadCount, Wakes 0 (s.timerTicks + 1) (s.threads (.slot i)) := by
  rw [h.runQueue_ne_none]
  constructor
  · rintro ⟨r, hr⟩
    obtain ⟨hcreated, hcpu, hstate | hwakes⟩ := waiting_awake.mp hr
    · exact .inl ⟨r, hcreated, hcpu, hstate, not_false⟩
    · obtain ⟨i, hi, rfl⟩ := hcreated
      exact .inr ⟨i, hi, hwakes⟩
  · rintro (⟨r, hcreated, hcpu, hstate, -⟩ | ⟨i, hi, hwakes⟩)
    · exact ⟨r, waiting_awake.mpr ⟨hcreated, hcpu, .inl hstate⟩⟩
    · exact ⟨.slot i, waiting_awake.mpr ⟨⟨i, hi, rfl⟩, hwakes.1, .inr hwakes⟩⟩

/-- A tick with nothing to switch to goes on with the same thread, in the state it
is in. -/
theorem rightThread_stay (hc : (s.sched 0).current = some c) (hs : Relinked s.awake s') :
    RightThread s s' ↔ (s.threads c).state = .running := by
  have hcurrent : (s'.sched 0).current = some c := by
    rw [hs.current, (awake_frame s).1]
    exact hc
  have hstate : (s'.threads c).state = .running ↔ (s.threads c).state = .running := by
    rw [hs.state, awake_threads]
    split
    next hwakes => exact iff_of_false nofun (by rw [hwakes.2.2.1]; nofun)
    next => exact Iff.rfl
  constructor
  · rintro ⟨c', hc', hrunning, -⟩
    obtain rfl : c = c' := Option.some.inj (hcurrent.symm.trans hc')
    exact hstate.mp hrunning
  · intro hrunning
    refine ⟨c, hcurrent, hstate.mpr hrunning, ?_⟩
    rw [hrunning]
    exact ⟨nofun, nofun, nofun⟩

theorem rightThread_switch {sp : Word} (hr : Waiting s.awake (fun _ => False) 0 r)
    (hs : Relinked ((s.awake.modifyThread c (left sp)).switchTo 0 r) s') : RightThread s s' := by
  have hticks : s'.timerTicks = s.timerTicks + 1 := hs.ticks.trans (awake_frame s).2.2.1
  refine ⟨r, ?_, ?_, ?_⟩
  · rw [hs.current, switchTo, modifyCpu_self]
  · rw [hs.state]
    exact (switched_self s sp c r).1
  · obtain ⟨-, -, hrunnable | hwakes⟩ := waiting_awake.mp hr
    · rw [hrunnable]
      exact ⟨nofun, nofun, nofun⟩
    · rw [hwakes.2.1, hticks]
      exact ⟨nofun, nofun, fun _ => hwakes.2.2⟩

theorem sound_run {s : Scheduler} (hrun : Run step OnOthers start s) : ∃ lastSp, Sound s lastSp := by
  refine hrun.invariant (P := fun s => ∃ lastSp, Sound s lastSp) ⟨_, sound_start⟩ ?_
  rintro s e t ⟨lastSp, h⟩ hok hstep
  obtain ⟨w, hw, hsound⟩ := Watched.sound_step (w := ⟨s, lastSp⟩) h hok
  rw [Watched.step, hstep] at hw
  cases hw
  exact ⟨_, hsound⟩

/-- After a tick a right thread executes, exactly if the tick found one to go on
with. -/
theorem tick_runs_running_iff {s t : Scheduler} {sp : Word} (hrun : Run step OnOthers start s)
    (htick : s.step (.tick sp) = some t) : RightThread s t ↔ FindsThread s := by
  obtain ⟨lastSp, h⟩ := sound_run hrun
  obtain ⟨c, hc, -⟩ := h.current
  obtain ⟨t', htick', -, hcases⟩ := h.tick_cases hc sp
  obtain rfl : t = t' := Option.some.inj (htick.symm.trans htick')
  rw [FindsThread, ← h.waiting_awake_iff]
  rcases hcases with ⟨hempty, hs⟩ | ⟨r, hr, hs⟩
  · rw [rightThread_stay hc hs, or_iff_left fun ⟨r, hr⟩ => hempty r hr]
    exact ⟨fun hrunning => ⟨c, hc, hrunning⟩,
      fun ⟨c', hc', hrunning⟩ => Option.some.inj (hc.symm.trans hc') ▸ hrunning⟩
  · exact iff_of_true (rightThread_switch hr hs) (.inr ⟨r, hr⟩)

/-- A thread is created, is switched to and calls `thread_sleep(5)`. -/
def soleSleeper : List ThreadEvent :=
  [.create 0x1000 0 (some 0x200000), .tick 8, .sleep 5]

/-- With another thread in the queue the tick finds that one. -/
theorem tick_runs_running_twoThreads :
    ∃ s t, runList step OnOthers start [.create 0x1000 0 (some 0x200000), .tick 8,
        .create 0x1000 0 (some 0x300000), .sleep 5] = some s ∧
      s.step (.tick 0x203000) = some t ∧ RightThread s t := by
  have htick : (runList step OnOthers start [.create 0x1000 0 (some 0x200000), .tick 8,
      .create 0x1000 0 (some 0x300000), .sleep 5]).map
        (fun s => ((s.step (.tick 0x203000)).isSome, (s.sched 0).runQueue)) =
      some (true, some (.slot 1)) := by decide
  obtain ⟨s, hs, heq⟩ := Option.map_eq_some_iff.mp htick
  obtain ⟨hsome, hqueue⟩ := Prod.mk.injEq .. ▸ heq
  obtain ⟨t, ht⟩ := Option.isSome_iff_exists.mp hsome
  refine ⟨s, t, hs, ht, (tick_runs_running_iff (.ofList hs) ht).mpr (.inr (.inl ?_))⟩
  rw [hqueue]
  nofun

/-- The only thread sleeps, and executes after the next tick. -/
theorem sole_sleeper_executes :
    ∃ s t, Run step OnOthers start s ∧ s.step (.tick 0x203000) = some t ∧
      (t.sched 0).current = some (.slot 0) ∧ (t.threads (.slot 0)).state = .sleeping ∧
      t.timerTicks < (t.threads (.slot 0)).wakeTick := by
  have hrun : (runList step OnOthers start soleSleeper).bind
      (fun s => (s.step (.tick 0x203000)).map fun t => ((t.sched 0).current,
        (t.threads (.slot 0)).state, decide (t.timerTicks < (t.threads (.slot 0)).wakeTick))) =
      some (some (.slot 0), .sleeping, true) := by decide
  obtain ⟨s, hs, hbind⟩ := Option.bind_eq_some_iff.mp hrun
  obtain ⟨t, ht, heq⟩ := Option.map_eq_some_iff.mp hbind
  simp only [Prod.mk.injEq, decide_eq_true_eq] at heq
  exact ⟨s, t, .ofList hs, ht, heq⟩

end Scheduler

end OreOS.Kernel
