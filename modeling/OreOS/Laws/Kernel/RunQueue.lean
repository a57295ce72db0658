import OreOS.Kernel.Threads
import Mathlib.Data.List.Nodup
import Mathlib.Data.List.Perm.Subperm

/-!
# Run queues

A run queue holds exactly the runnable threads of its CPU, each once. Inside an
operation a thread can have its new state and not be linked yet: `Queued s out`
sets such threads apart, and enqueueing and dequeueing move threads in and out
of `out`. What the operations do to the data of the threads is seen without the
queues (`Relinked`).
-/

namespace OreOS.Kernel

open OreOS.Lib (Word Links)

namespace Scheduler

variable {s s' s'' : Scheduler} {r x : ThreadRef} {cpu : Nat} {out out' : ThreadRef → Prop}

/-! ## Updates -/

@[simp] theorem modifyThread_self (s : Scheduler) (r : ThreadRef) (f : Thread → Thread) :
    (s.modifyThread r f).threads r = f (s.threads r) :=
  Function.update_self ..

theorem modifyThread_of_ne (h : x ≠ r) (f : Thread → Thread) :
    (s.modifyThread r f).threads x = s.threads x :=
  Function.update_of_ne h _ _

@[simp] theorem modifyThread_sched (s : Scheduler) (r : ThreadRef) (f : Thread → Thread) :
    (s.modifyThread r f).sched = s.sched := rfl

@[simp] theorem modifyThread_count (s : Scheduler) (r : ThreadRef) (f : Thread → Thread) :
    (s.modifyThread r f).threadCount = s.threadCount := rfl

@[simp] theorem modifyCpu_self (s : Scheduler) (cpu : Nat) (f : SchedulerCpu → SchedulerCpu) :
    (s.modifyCpu cpu f).sched cpu = f (s.sched cpu) :=
  Function.update_self ..

theorem modifyCpu_of_ne {cpu' : Nat} (h : cpu' ≠ cpu) (f : SchedulerCpu → SchedulerCpu) :
    (s.modifyCpu cpu f).sched cpu' = s.sched cpu' :=
  Function.update_of_ne h _ _

@[simp] theorem modifyCpu_threads (s : Scheduler) (cpu : Nat) (f : SchedulerCpu → SchedulerCpu) :
    (s.modifyCpu cpu f).threads = s.threads := rfl

/-- `&threads[i]` for a thread that has been created. -/
def Created (s : Scheduler) (r : ThreadRef) : Prop :=
  ∃ i < s.threadCount, r = .slot i

instance (s : Scheduler) (r : ThreadRef) : Decidable (Created s r) :=
  inferInstanceAs (Decidable (∃ i < s.threadCount, r = .slot i))

/-- A thread without its link in a run queue. The link of a BLOCKED thread is one of a
wait queue. -/
def unlinked (t : Thread) : Thread :=
  { t with next := if t.state = .blocked then t.next else none }

/-- A CPU without its queue. -/
def unqueued (c : SchedulerCpu) : SchedulerCpu := { c with runQueue := none }

/-- The same but for run queues and their links. -/
structure Relinked (s s' : Scheduler) : Prop where
  threads : ∀ r, unlinked (s'.threads r) = unlinked (s.threads r)
  cpus : ∀ cpu, unqueued (s'.sched cpu) = unqueued (s.sched cpu)
  count : s'.threadCount = s.threadCount
  ticks : s'.timerTicks = s.timerTicks
  waiters : s'.waitQueues = s.waitQueues

theorem unlinked_next {t : Thread} (h : t.state ≠ .blocked) (next : Option ThreadRef) :
    unlinked { t with next := next } = unlinked t := by
  simp only [unlinked, if_neg h]

namespace Relinked

theorem refl (s : Scheduler) : Relinked s s := ⟨fun _ => rfl, fun _ => rfl, rfl, rfl, rfl⟩

theorem trans (h : Relinked s s') (h' : Relinked s' s'') : Relinked s s'' :=
  ⟨fun r => (h'.threads r).trans (h.threads r), fun cpu => (h'.cpus cpu).trans (h.cpus cpu),
    h'.count.trans h.count, h'.ticks.trans h.ticks, h'.waiters.trans h.waiters⟩

variable (h : Relinked s s')
include h

theorem state (r : ThreadRef) : (s'.threads r).state = (s.threads r).state := by
  simpa only [unlinked] using congrArg Thread.state (h.threads r)

theorem id (r : ThreadRef) : (s'.threads r).id = (s.threads r).id := by
  simpa only [unlinked] using congrArg Thread.id (h.threads r)

theorem cpuId (r : ThreadRef) : (s'.threads r).cpuId = (s.threads r).cpuId := by
  simpa only [unlinked] using congrArg Thread.cpuId (h.threads r)

theorem savedSp (r : ThreadRef) : (s'.threads r).savedSp = (s.threads r).savedSp := by
  simpa only [unlinked] using congrArg Thread.savedSp (h.threads r)

theorem wakeTick (r : ThreadRef) : (s'.threads r).wakeTick = (s.threads r).wakeTick := by
  simpa only [unlinked] using congrArg Thread.wakeTick (h.threads r)

theorem current (cpu : Nat) : (s'.sched cpu).current = (s.sched cpu).current := by
  simpa only [unqueued] using congrArg SchedulerCpu.current (h.cpus cpu)

theorem started (cpu : Nat) : (s'.sched cpu).started = (s.sched cpu).started := by
  simpa only [unqueued] using congrArg SchedulerCpu.started (h.cpus cpu)

theorem created : Created s' r ↔ Created s r := by
  rw [Created, Created, h.count]

end Relinked

/-! ## Queues -/

/-- The threads of the CPU's run queue are its runnable ones, those in `out`
excepted. -/
def Waiting (s : Scheduler) (out : ThreadRef → Prop) (cpu : Nat) (r : ThreadRef) : Prop :=
  Created s r ∧ (s.threads r).cpuId = cpu ∧ (s.threads r).state = .runnable ∧ ¬ out r

/-- Each run queue is a list of distinct threads, and they are the right ones. -/
def Queued (s : Scheduler) (out : ThreadRef → Prop) : Prop :=
  ∀ cpu, ∃ l, Links s.next (s.sched cpu).runQueue l ∧ l.Nodup ∧ ∀ r, r ∈ l ↔ Waiting s out cpu r

theorem Queued.congr (h : Queued s out) (hw : ∀ cpu r, Waiting s out' cpu r ↔ Waiting s out cpu r) :
    Queued s out' := by
  intro cpu
  obtain ⟨l, hlinks, hnodup, hmem⟩ := h cpu
  exact ⟨l, hlinks, hnodup, fun r => (hmem r).trans (hw cpu r).symm⟩

/-- What touches no waiting thread keeps the queues. -/
theorem Queued.transfer (h : Queued s out) (hcpu : ∀ cpu, (s'.sched cpu).runQueue = (s.sched cpu).runQueue)
    (hnext : ∀ cpu r, Waiting s out cpu r → s'.next r = s.next r)
    (hw : ∀ cpu r, Waiting s' out' cpu r ↔ Waiting s out cpu r) : Queued s' out' := by
  intro cpu
  obtain ⟨l, hlinks, hnodup, hmem⟩ := h cpu
  refine ⟨l, ?_, hnodup, fun r => (hmem r).trans (hw cpu r).symm⟩
  rw [hcpu]
  exact hlinks.congr fun r hr => hnext cpu r ((hmem r).mp hr)

/-- A thread that does not wait may change. -/
theorem Queued.modify (h : Queued s out) (hr : ∀ cpu, ¬ Waiting s out cpu r) (f : Thread → Thread) :
    Queued (s.modifyThread r f) (fun x => out x ∨ x = r) := by
  refine h.transfer (fun _ => rfl) (fun cpu x hx => ?_) (fun cpu x => ?_)
  · have hne : x ≠ r := by
      rintro rfl
      exact hr cpu hx
    rw [next, modifyThread_of_ne hne, next]
  · by_cases hne : x = r
    · subst hne
      exact iff_of_false (fun hw => hw.2.2.2 (.inr rfl)) (hr cpu)
    · unfold Waiting
      dsimp only
      rw [modifyThread_of_ne hne, or_iff_left hne]
      exact Iff.rfl

/-- So may the data of any thread. -/
theorem Queued.modify_data (h : Queued s out) (f : Thread → Thread)
    (hf : (f (s.threads r)).next = (s.threads r).next ∧
      (f (s.threads r)).cpuId = (s.threads r).cpuId ∧
      (f (s.threads r)).state = (s.threads r).state) : Queued (s.modifyThread r f) out := by
  have hsame : ∀ x, ((s.modifyThread r f).threads x).next = (s.threads x).next ∧
      ((s.modifyThread r f).threads x).cpuId = (s.threads x).cpuId ∧
      ((s.modifyThread r f).threads x).state = (s.threads x).state := by
    intro x
    by_cases hne : x = r
    · subst hne
      rw [modifyThread_self]
      exact hf
    · rw [modifyThread_of_ne hne]
      exact ⟨rfl, rfl, rfl⟩
  refine h.transfer (fun _ => rfl) (fun _ x _ => (hsame x).1) (fun cpu x => ?_)
  unfold Waiting
  rw [(hsame x).2.1, (hsame x).2.2]
  exact Iff.rfl

/-- A thread that is not runnable needs no exception. -/
theorem Queued.settle (h : Queued s (fun x => out x ∨ x = r))
    (hr : (s.threads r).state ≠ .runnable) : Queued s out := by
  refine h.congr fun cpu x => ?_
  unfold Waiting
  refine and_congr_right fun _ => and_congr_right fun _ => and_congr_right fun hstate => ?_
  refine not_congr (or_iff_left ?_).symm
  rintro rfl
  exact hr hstate

/-- A list of different threads is no longer than the table. -/
theorem length_le_count {l : List ThreadRef} (hnodup : l.Nodup) (hl : ∀ r ∈ l, Created s r) :
    l.length ≤ s.threadCount := by
  have hsubset : l ⊆ (List.range s.threadCount).map .slot := by
    intro r hr
    obtain ⟨i, hi, rfl⟩ := hl r hr
    exact List.mem_map_of_mem (List.mem_range.mpr hi)
  have hle := (List.Nodup.subperm hnodup hsubset).length_le
  rwa [List.length_map, List.length_range] at hle

theorem Relinked.waiting (h : Relinked s s') :
    Waiting s' out cpu r ↔ Waiting s out cpu r := by
  rw [Waiting, Waiting, h.created, h.cpuId, h.state]

/-- A thread at the end of its queue is in it. -/
theorem Queued.append {l : List ThreadRef} (h : Queued s out) (hs : Relinked s s')
    (hr : Created s r) (hcpu : (s.threads r).cpuId = cpu)
    (hstate : (s.threads r).state = .runnable) (hout : out r) (hnodup : l.Nodup)
    (hmem : ∀ x, x ∈ l ↔ Waiting s out cpu x)
    (happend : Links s'.next (s'.sched cpu).runQueue (l ++ [r]))
    (hothers : ∀ cpu', cpu' ≠ cpu → (s'.sched cpu').runQueue = (s.sched cpu').runQueue ∧
      ∀ x, Waiting s out cpu' x → s'.next x = s.next x) :
    Queued s' (fun x => out x ∧ x ≠ r) := by
  have hsame : ∀ cpu' x, x ≠ r →
      (Waiting s' (fun x => out x ∧ x ≠ r) cpu' x ↔ Waiting s out cpu' x) := by
    intro cpu' x hne
    rw [hs.waiting, Waiting, Waiting, and_iff_left hne]
  intro cpu'
  by_cases heq : cpu' = cpu
  · subst heq
    have hrl : r ∉ l := fun hr => ((hmem r).mp hr).2.2.2 hout
    refine ⟨l ++ [r], happend, ?_, fun x => ?_⟩
    · exact List.nodup_append.mpr ⟨hnodup, List.nodup_singleton r, fun x hx y hy hxy => by
        rw [List.mem_singleton.mp hy] at hxy
        exact hrl (hxy ▸ hx)⟩
    · rw [List.mem_append, List.mem_singleton, hmem]
      by_cases hne : x = r
      · subst hne
        refine iff_of_true (.inr rfl) ?_
        rw [hs.waiting]
        exact ⟨hr, hcpu, hstate, fun hcon => hcon.2 rfl⟩
      · rw [or_iff_left hne, hsame cpu' x hne]
  · obtain ⟨hqueue, hnext⟩ := hothers cpu' heq
    obtain ⟨l', hlinks, hnodup', hmem'⟩ := h cpu'
    refine ⟨l', ?_, hnodup', fun x => ?_⟩
    · rw [hqueue]
      exact hlinks.congr fun x hx => hnext x ((hmem' x).mp hx)
    · rw [hmem']
      by_cases hne : x = r
      · subst hne
        refine iff_of_false (fun hw => hw.2.2.2 hout) fun hw => heq ?_
        rw [← hcpu, ← hw.2.1, hs.cpuId]
      · rw [hsame cpu' x hne]

/-- `enqueue_thread` returns, and the thread is then in its queue. -/
theorem Queued.enqueue (h : Queued s out) (hcount : s.threadCount ≤ maxThreads) (hr : Created s r)
    (hcpu : (s.threads r).cpuId = cpu) (hstate : (s.threads r).state = .runnable) (hout : out r) :
    ∃ s', enqueueThread cpu r s = some s' ∧ Relinked s s' ∧ Queued s' (fun x => out x ∧ x ≠ r) := by
  -- The thread is in no queue, so it can lose its link.
  generalize hs₁ : s.modifyThread r (fun t => { t with next := none }) = s₁
  have hne_of : ∀ {cpu' x}, Waiting s out cpu' x → x ≠ r := fun hw hxr => hw.2.2.2 (hxr ▸ hout)
  have hnext : ∀ {cpu' x}, Waiting s out cpu' x → s₁.next x = s.next x := by
    intro cpu' x hw
    rw [← hs₁, next, modifyThread_of_ne (hne_of hw), next]
  have hnone : s₁.next r = none := by rw [← hs₁, next, modifyThread_self]
  have hsched : s₁.sched = s.sched := by rw [← hs₁, modifyThread_sched]
  have hrelinked : Relinked s s₁ := by
    subst hs₁
    refine ⟨fun x => ?_, fun _ => rfl, rfl, rfl, rfl⟩
    by_cases hne : x = r
    · rw [hne, modifyThread_self]
      exact unlinked_next (by rw [hstate]; nofun) _
    · rw [modifyThread_of_ne hne]
  obtain ⟨l, hlinks, hnodup, hmem⟩ := h cpu
  have hlength : l.length ≤ walkLimit := by
    have hle := length_le_count hnodup fun x hx => ((hmem x).mp hx).1
    unfold maxThreads at hcount
    unfold walkLimit maxThreads oreMaxCpus
    omega
  have hlinks₁ : Links s₁.next (s.sched cpu).runQueue l :=
    hlinks.congr fun x hx => hnext ((hmem x).mp hx)
  unfold enqueueThread
  rw [hs₁]
  dsimp only
  rw [hsched]
  cases hhead : (s.sched cpu).runQueue with
  | none =>
    have hs' : Relinked s (s₁.modifyCpu cpu fun c => { c with runQueue := some r }) := by
      refine hrelinked.trans ⟨fun _ => rfl, fun cpu' => ?_, rfl, rfl, rfl⟩
      by_cases hne : cpu' = cpu
      · rw [hne, modifyCpu_self]
        rfl
      · rw [modifyCpu_of_ne hne]
    refine ⟨_, rfl, hs', h.append hs' hr hcpu hstate hout hnodup hmem ?_
      fun cpu' hne => ⟨?_, fun x => hnext⟩⟩
    · rw [hhead] at hlinks
      rw [List.head?_eq_none_iff.mp hlinks.head_eq.symm, modifyCpu_self]
      exact ⟨rfl, hnone⟩
    · rw [modifyCpu_of_ne hne, hsched]
  | some head =>
    rw [hhead] at hlinks₁
    obtain ⟨tail, hlast, htail⟩ := hlinks₁.lastLink_eq hlength
    have htailWaits := (hmem tail).mp (List.mem_of_getLast? htail)
    have hs' : Relinked s (s₁.modifyThread tail fun t => { t with next := some r }) := by
      refine hrelinked.trans ⟨fun x => ?_, fun _ => rfl, rfl, rfl, rfl⟩
      by_cases hne : x = tail
      · rw [hne, modifyThread_self]
        refine unlinked_next ?_ _
        rw [hrelinked.state, htailWaits.2.2.1]
        nofun
      · rw [modifyThread_of_ne hne]
    have hnext' : (s₁.modifyThread tail fun t => { t with next := some r }).next =
        Function.update s₁.next tail (some r) := by
      funext x
      by_cases hne : x = tail
      · rw [hne, next, modifyThread_self, Function.update_self]
      · rw [next, modifyThread_of_ne hne, Function.update_of_ne hne, next]
    dsimp only
    rw [hlast]
    refine ⟨_, rfl, hs', h.append hs' hr hcpu hstate hout hnodup hmem ?_
      fun cpu' hne => ⟨by rw [modifyThread_sched, hsched], fun x hx => ?_⟩⟩
    · rw [hnext', modifyThread_sched, hsched, hhead]
      exact hlinks₁.snoc htail hnodup (fun hrl => hne_of ((hmem r).mp hrl) rfl) hnone
    · have hxt : x ≠ tail := by
        rintro rfl
        exact hne (hx.2.1.symm.trans htailWaits.2.1)
      rw [hnext', Function.update_of_ne hxt, hnext hx]

/-- A thread made runnable is enqueued, and the walk to the tail ends. -/
theorem Queued.makeRunnable (h : Queued s out) (hcount : s.threadCount ≤ maxThreads)
    (hr : Created s r) (hstate : (s.threads r).state ≠ .runnable) (hout : ¬ out r)
    (f : Thread → Thread)
    (hf : (f (s.threads r)).cpuId = cpu ∧ (f (s.threads r)).state = .runnable) :
    ∃ s', enqueueThread cpu r (s.modifyThread r f) = some s' ∧
      Relinked (s.modifyThread r f) s' ∧ Queued s' out := by
  have hnot : ∀ cpu, ¬ Waiting s out cpu r := fun _ hw => hstate hw.2.2.1
  have hcpu : ((s.modifyThread r f).threads r).cpuId = cpu := by
    rw [modifyThread_self]
    exact hf.1
  obtain ⟨s', henqueue, hs', hq⟩ := (h.modify hnot f).enqueue hcount hr hcpu
    (by rw [modifyThread_self]; exact hf.2) (.inr rfl)
  refine ⟨s', henqueue, hs', hq.congr fun cpu' x => ?_⟩
  unfold Waiting
  refine and_congr_right fun _ => and_congr_right fun _ => and_congr_right fun _ => not_congr ?_
  constructor
  · exact fun hx => ⟨.inl hx, fun hxr => hout (hxr ▸ hx)⟩
  · exact fun hx => hx.1.resolve_right hx.2

/-- `dequeue_thread` finds nothing, or takes a runnable thread out. -/
theorem Queued.dequeue (h : Queued s out) (cpu : Nat) :
    (s.dequeueThread cpu = (none, s) ∧ ∀ r, ¬ Waiting s out cpu r) ∨
    ∃ r s', s.dequeueThread cpu = (some r, s') ∧ Waiting s out cpu r ∧ Relinked s s' ∧
      Queued s' (fun x => out x ∨ x = r) := by
  obtain ⟨l, hlinks, hnodup, hmem⟩ := h cpu
  unfold dequeueThread
  cases l with
  | nil =>
    left
    rw [show (s.sched cpu).runQueue = none from hlinks]
    exact ⟨rfl, fun r hw => absurd ((hmem r).mpr hw) List.not_mem_nil⟩
  | cons r l =>
    right
    obtain ⟨hhead, hrest⟩ := hlinks
    rw [List.nodup_cons] at hnodup
    have hw := (hmem r).mp List.mem_cons_self
    rw [hhead]
    dsimp only
    generalize hs' : (s.modifyCpu cpu fun c => { c with runQueue := s.next r }).modifyThread r
      (fun t => { t with next := none }) = s'
    have hne_next : ∀ x, x ≠ r → s'.next x = s.next x := by
      intro x hne
      rw [← hs', next, modifyThread_of_ne hne, modifyCpu_threads, next]
    have hs : Relinked s s' := by
      subst hs'
      refine ⟨fun x => ?_, fun cpu' => ?_, rfl, rfl, rfl⟩
      · by_cases hne : x = r
        · rw [hne, modifyThread_self]
          exact unlinked_next (by rw [modifyCpu_threads, hw.2.2.1]; nofun) _
        · rw [modifyThread_of_ne hne]
          rfl
      · by_cases hne : cpu' = cpu
        · rw [hne, modifyThread_sched, modifyCpu_self]
          rfl
        · rw [modifyThread_sched, modifyCpu_of_ne hne]
    have hwaits : ∀ cpu' x,
        Waiting s' (fun x => out x ∨ x = r) cpu' x ↔ Waiting s out cpu' x ∧ x ≠ r := by
      intro cpu' x
      rw [hs.waiting, Waiting, Waiting, not_or]
      exact ⟨fun h => ⟨⟨h.1, h.2.1, h.2.2.1, h.2.2.2.1⟩, h.2.2.2.2⟩,
        fun h => ⟨h.1.1, h.1.2.1, h.1.2.2.1, h.1.2.2.2, h.2⟩⟩
    refine ⟨r, s', rfl, hw, hs, fun cpu' => ?_⟩
    by_cases heq : cpu' = cpu
    · subst heq
      have hqueue : (s'.sched cpu').runQueue = s.next r := by
        rw [← hs', modifyThread_sched, modifyCpu_self]
      have hne_of : ∀ x ∈ l, x ≠ r := fun x hx hxr => hnodup.1 (hxr ▸ hx)
      refine ⟨l, ?_, hnodup.2, fun x => ?_⟩
      · rw [hqueue]
        exact hrest.congr fun x hx => hne_next x (hne_of x hx)
      · rw [hwaits, ← hmem, List.mem_cons]
        exact ⟨fun hx => ⟨.inr hx, hne_of x hx⟩, fun hx => hx.1.resolve_left hx.2⟩
    · obtain ⟨l', hlinks', hnodup', hmem'⟩ := h cpu'
      have hne_of : ∀ x, Waiting s out cpu' x → x ≠ r := by
        rintro x hx rfl
        exact heq (hx.2.1.symm.trans hw.2.1)
      have hqueue : (s'.sched cpu').runQueue = (s.sched cpu').runQueue := by
        rw [← hs', modifyThread_sched, modifyCpu_of_ne heq]
      refine ⟨l', ?_, hnodup', fun x => ?_⟩
      · rw [hqueue]
        exact hlinks'.congr fun x hx => hne_next x (hne_of x ((hmem' x).mp hx))
      · rw [hwaits, hmem']
        exact ⟨fun hx => ⟨hx, hne_of x hx⟩, And.left⟩

/-! ## Waking -/

/-- The threads before index `n` that are due have been woken, and not been
linked. -/
def woken (s : Scheduler) (cpu : Nat) (now : Word) : Nat → Scheduler
  | 0 => s
  | n + 1 =>
    if Wakes cpu now (s.threads (.slot n)) then
      (s.woken cpu now n).modifyThread (.slot n) fun t => { t with state := .runnable }
    else s.woken cpu now n

/-- What the loop over the sleepers does to one thread. -/
theorem woken_threads (s : Scheduler) (cpu : Nat) (now : Word) (n : Nat) (r : ThreadRef) :
    (s.woken cpu now n).threads r =
      if (∃ i < n, r = .slot i) ∧ Wakes cpu now (s.threads r) then
        { s.threads r with state := .runnable }
      else s.threads r := by
  induction n with
  | zero => exact (if_neg fun ⟨⟨_, hi, _⟩, _⟩ => Nat.not_lt_zero _ hi).symm
  | succ n ih =>
    have hlt : r ≠ .slot n → ((∃ i < n + 1, r = .slot i) ↔ ∃ i < n, r = .slot i) := by
      intro hne
      refine exists_congr fun i => and_congr_left fun hi => ?_
      rw [Nat.lt_succ_iff_lt_or_eq, or_iff_left]
      rintro rfl
      exact hne hi
    unfold woken
    by_cases hr : r = .slot n
    · subst hr
      have hout : ¬ ∃ i < n, ThreadRef.slot n = .slot i := by
        rintro ⟨i, hi, heq⟩
        cases heq
        exact Nat.lt_irrefl _ hi
      rw [if_neg fun h => hout h.1] at ih
      split
      next hw => rw [modifyThread_self, ih, if_pos ⟨⟨n, Nat.lt_succ_self n, rfl⟩, hw⟩]
      next hw => rw [ih, if_neg fun h => hw h.2]
    · simp only [hlt hr, ← ih]
      split
      next => rw [modifyThread_of_ne hr]
      next => rfl

theorem woken_frame (s : Scheduler) (cpu : Nat) (now : Word) (n : Nat) :
    (s.woken cpu now n).sched = s.sched ∧ (s.woken cpu now n).threadCount = s.threadCount ∧
      (s.woken cpu now n).timerTicks = s.timerTicks ∧
      (s.woken cpu now n).waitQueues = s.waitQueues := by
  induction n with
  | zero => exact ⟨rfl, rfl, rfl, rfl⟩
  | succ n ih =>
    unfold woken
    split
    · exact ih
    · exact ih

theorem Relinked.modifyThread (h : Relinked s s') (f : Thread → Thread)
    (hf : ∀ t t', unlinked t = unlinked t' → unlinked (f t) = unlinked (f t')) :
    Relinked (s.modifyThread r f) (s'.modifyThread r f) := by
  refine ⟨fun x => ?_, h.cpus, h.count, h.ticks, h.waiters⟩
  by_cases hne : x = r
  · rw [hne, modifyThread_self, modifyThread_self]
    exact hf _ _ (h.threads r)
  · rw [modifyThread_of_ne hne, modifyThread_of_ne hne]
    exact h.threads x

theorem Relinked.wakes (h : Relinked s s') {now : Word} :
    Wakes cpu now (s'.threads r) ↔ Wakes cpu now (s.threads r) := by
  rw [Wakes, Wakes, h.cpuId, h.state, h.wakeTick]

/-- The timer wakes the sleepers that are due, one after the other. -/
theorem Queued.wakeThreads (h : Queued s (fun _ => False)) (hcount : s.threadCount ≤ maxThreads)
    (now : Word) {n : Nat} (hn : n ≤ s.threadCount) :
    ∃ s', (List.range n).foldlM (wakeThread cpu now) s = some s' ∧
      Relinked (s.woken cpu now n) s' ∧ Queued s' (fun _ => False) := by
  induction n with
  | zero => exact ⟨s, rfl, .refl s, h⟩
  | succ n ih =>
    obtain ⟨s₁, hfold, hs₁, hq₁⟩ := ih (Nat.le_of_succ_le hn)
    obtain ⟨-, hcount₁, -⟩ := woken_frame s cpu now n
    have hthread : (s.woken cpu now n).threads (.slot n) = s.threads (.slot n) := by
      rw [woken_threads, if_neg]
      rintro ⟨⟨i, hi, heq⟩, -⟩
      cases heq
      exact Nat.lt_irrefl _ hi
    have hwakes : Wakes cpu now (s₁.threads (.slot n)) ↔ Wakes cpu now (s.threads (.slot n)) := by
      rw [hs₁.wakes, hthread]
    rw [List.range_succ, List.foldlM_append, hfold]
    simp only [List.foldlM_cons, List.foldlM_nil, Option.bind_eq_bind, Option.bind_some, woken,
      wakeThread, hwakes]
    split
    next hw =>
      have hw₁ := hwakes.mpr hw
      have hcreated : Created s₁ (.slot n) := ⟨n, by rw [hs₁.count, hcount₁]; omega, rfl⟩
      have hsleeps : (s₁.threads (.slot n)).state ≠ .runnable := by
        rw [hw₁.2.1]
        decide
      obtain ⟨s₂, henqueue, hs₂, hq₂⟩ := hq₁.makeRunnable
        (by rw [hs₁.count, hcount₁]; exact hcount) hcreated hsleeps not_false
        (fun t => { t with state := .runnable }) ⟨hw₁.1, rfl⟩
      rw [henqueue]
      refine ⟨s₂, rfl, (hs₁.modifyThread _ fun t t' heq => ?_).trans hs₂, hq₂⟩
      simp only [unlinked, Thread.mk.injEq] at heq ⊢
      grind
    next => exact ⟨s₁, rfl, hs₁, hq₁⟩

/-- The threads as a tick finds them. -/
def awake (s : Scheduler) : Scheduler :=
  s.timerInterrupt.woken 0 (s.timerTicks + 1) s.threadCount

theorem awake_threads (s : Scheduler) (r : ThreadRef) :
    s.awake.threads r =
      if Created s r ∧ Wakes 0 (s.timerTicks + 1) (s.threads r) then
        { s.threads r with state := .runnable }
      else s.threads r :=
  woken_threads s.timerInterrupt 0 (s.timerTicks + 1) s.threadCount r

theorem awake_frame (s : Scheduler) :
    s.awake.sched = s.sched ∧ s.awake.threadCount = s.threadCount ∧
      s.awake.timerTicks = s.timerTicks + 1 ∧ s.awake.waitQueues = s.waitQueues :=
  woken_frame s.timerInterrupt 0 (s.timerTicks + 1) s.threadCount

theorem awake_data (s : Scheduler) (r : ThreadRef) :
    (s.awake.threads r).id = (s.threads r).id ∧ (s.awake.threads r).cpuId = (s.threads r).cpuId ∧
      (s.awake.threads r).savedSp = (s.threads r).savedSp := by
  rw [awake_threads]
  split
  · exact ⟨rfl, rfl, rfl⟩
  · exact ⟨rfl, rfl, rfl⟩

theorem created_awake : Created s.awake r ↔ Created s r := by
  rw [Created, Created, (awake_frame s).2.1]

/-- After waking, the threads to switch to are those that were runnable or due. -/
theorem waiting_awake :
    Waiting s.awake (fun _ => False) 0 r ↔ Created s r ∧ (s.threads r).cpuId = 0 ∧
      ((s.threads r).state = .runnable ∨ Wakes 0 (s.timerTicks + 1) (s.threads r)) := by
  rw [Waiting, created_awake, (awake_data s r).2.1, and_iff_left not_false, awake_threads]
  refine and_congr_right fun hcreated => and_congr_right fun _ => ?_
  split
  next hwakes => exact iff_of_true rfl (.inr hwakes.2)
  next hwakes => rw [or_iff_left fun hw => hwakes ⟨hcreated, hw⟩]

/-- `wake_sleepers` after a timer interrupt. -/
theorem Queued.wakeSleepers (h : Queued s (fun _ => False)) (hcount : s.threadCount ≤ maxThreads) :
    ∃ s', s.timerInterrupt.wakeSleepers 0 = some s' ∧ Relinked s.awake s' ∧
      Queued s' (fun _ => False) :=
  wakeThreads (s := s.timerInterrupt) h hcount (s.timerTicks + 1) (Nat.le_refl _)

end Scheduler

end OreOS.Kernel
