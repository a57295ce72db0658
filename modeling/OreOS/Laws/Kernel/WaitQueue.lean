import OreOS.Laws.Kernel.Threads

/-!
# Wait queues

`thread_unblock` does not take the thread out of its wait queue: it clears the link of the
thread, which is the link of the wait queue, and appends the thread to a run queue. The
thread can still be reached from the head, and those behind it cannot be any more. So a
wait queue is intact exactly as long as no thread of it is unblocked
(`wait_queue_intact_iff`).
-/

namespace OreOS.Kernel

open OreOS.Lib (Word Links Reaches Run runList)

namespace Scheduler

variable {s t : Scheduler} {queue : Nat} {l : List ThreadRef} {lastSp : ThreadRef → Word}

/-- The threads that are blocked on a queue, in the order of the links. -/
structure WaitsOn (s : Scheduler) (queue : Nat) (l : List ThreadRef) : Prop where
  links : Links s.next (s.waitQueues queue) l
  nodup : l.Nodup
  blocked : ∀ r ∈ l, (s.threads r).state = .blocked

section Block

variable {c : ThreadRef} (hc : (s.sched 0).current = some c) (hid : (s.threads c).id ≠ 0)
include hc hid

/-- `thread_block` puts the thread in front of those that wait. -/
theorem WaitsOn.block (h : WaitsOn s queue l) (hstate : (s.threads c).state ≠ .blocked) :
    WaitsOn (s.threadBlock (some queue)) queue (c :: l) := by
  have hnot : c ∉ l := fun hmem => hstate (h.blocked c hmem)
  have hothers : ∀ r ∈ l, (s.threadBlock (some queue)).threads r = s.threads r := by
    intro r hr
    have hne : r ≠ c := fun heq => hnot (heq ▸ hr)
    simp only [threadBlock, hc, if_neg hid, modifyThread_of_ne hne]
  refine ⟨⟨?_, ?_⟩, List.nodup_cons.mpr ⟨hnot, h.nodup⟩, List.forall_mem_cons.mpr ⟨?_, ?_⟩⟩
  · simp [threadBlock, hc, hid]
  · have hlink : (s.threadBlock (some queue)).next c = s.waitQueues queue := by
      simp [threadBlock, hc, hid, next]
    rw [hlink]
    exact h.links.congr fun r hr => congrArg Thread.next (hothers r hr)
  · simp [threadBlock, hc, hid]
  · exact fun r hr => by rw [hothers r hr, h.blocked r hr]

/-- A BLOCKED thread goes on if no other can run. When it blocks again at the head of the queue,
it is linked to itself and those behind it are lost. -/
theorem next_block_again (hhead : s.waitQueues queue = some c) :
    (s.threadBlock (some queue)).next c = some c := by
  simp [threadBlock, hc, hid, next, hhead]

end Block

/-- A BLOCKED thread keeps its state and its link. -/
theorem Relinked.blocked (h : Relinked s t) {r : ThreadRef}
    (hr : (s.threads r).state = .blocked) :
    (t.threads r).state = .blocked ∧ t.next r = s.next r := by
  have hstate := (h.state r).trans hr
  have hnext := congrArg Thread.next (h.threads r)
  simp only [unlinked, hr, hstate, if_true] at hnext
  exact ⟨hstate, hnext⟩

theorem Sound.tick_blocked (h : Sound s lastSp) {sp : Word} (hstep : s.step (.tick sp) = some t) :
    t.waitQueues = s.waitQueues ∧ ∀ r, (s.threads r).state = .blocked →
      (t.threads r).state = .blocked ∧ t.next r = s.next r := by
  have hawake : ∀ r, (s.threads r).state = .blocked → s.awake.threads r = s.threads r := by
    intro r hr
    rw [awake_threads, if_neg]
    rintro ⟨-, -, hsleeps, -⟩
    rw [hr] at hsleeps
    cases hsleeps
  obtain ⟨c, hc, -⟩ := h.current
  obtain ⟨t', htick, -, hcases⟩ := h.tick_cases hc sp
  obtain rfl : t = t' := Option.some.inj (hstep.symm.trans htick)
  rcases hcases with ⟨-, hs⟩ | ⟨r, hr, hs⟩
  · refine ⟨hs.waiters.trans (awake_frame s).2.2.2, fun x hx => ?_⟩
    have hkept := hs.blocked (by rw [hawake x hx, hx])
    exact ⟨hkept.1, hkept.2.trans (congrArg Thread.next (hawake x hx))⟩
  · refine ⟨hs.waiters.trans (awake_frame s).2.2.2, fun x hx => ?_⟩
    have hxr : x ≠ r := by
      rintro rfl
      have hrunnable := hr.2.2.1
      rw [hawake x hx, hx] at hrunnable
      cases hrunnable
    -- the thread that loses the CPU may be BLOCKED itself
    have hsame : (((s.awake.modifyThread c (left sp)).switchTo 0 r).threads x).state = .blocked ∧
        ((s.awake.modifyThread c (left sp)).switchTo 0 r).next x = s.next x := by
      rw [next, switchTo, modifyCpu_threads, modifyThread_of_ne hxr]
      by_cases hxc : x = c
      · rw [hxc, modifyThread_self, ← hxc, hawake x hx, left]
        split
        · exact ⟨hx, rfl⟩
        · exact ⟨by rw [hx]; rfl, rfl⟩
      · rw [modifyThread_of_ne hxc, hawake x hx]
        exact ⟨hx, rfl⟩
    have hkept := hs.blocked hsame.1
    exact ⟨hkept.1, hkept.2.trans hsame.2⟩

/-- A thread of the queue that is unblocked can still be reached from its head. -/
theorem WaitsOn.unblock (h : WaitsOn s queue l) (hsound : Sound s lastSp) {r : ThreadRef}
    (hr : r ∈ l) (hstep : s.step (.unblock (some r)) = some t) :
    Reaches t.next (t.waitQueues queue) r := by
  have hblocked := h.blocked r hr
  have hcreated : Created s r := by
    by_contra hnot
    rcases hsound.idle r hnot with hidle | hidle <;> · rw [hblocked] at hidle; cases hidle
  obtain ⟨s', henqueue, hs, -⟩ := hsound.queued.makeRunnable hsound.count hcreated
    (by rw [hblocked]; decide) not_false (fun t => { t with state := .runnable }) ⟨rfl, rfl⟩
  have hstep' : s.step (.unblock (some r)) = some s' := by
    rw [step, threadUnblock, hblocked, if_neg (by decide)]
    exact henqueue
  obtain rfl : t = s' := Option.some.inj (hstep.symm.trans hstep')
  obtain ⟨l₁, l₂, rfl⟩ := List.append_of_mem hr
  rw [hs.waiters]
  refine h.links.reaches fun x hx => ?_
  have hne : x ≠ r := by
    rintro rfl
    exact (List.nodup_append.mp h.nodup).2.2 x hx x List.mem_cons_self rfl
  have hxb := h.blocked x (List.mem_append_left _ hx)
  have hkept := (hs.blocked (r := x) (by rw [modifyThread_of_ne hne, hxb])).2
  exact hkept.trans (congrArg Thread.next (modifyThread_of_ne hne _))

/-! ## Wake-ups and ticks -/

/-- Threads of the queue are unblocked, and ticks come. -/
def Wakeup (l : List ThreadRef) : ThreadEvent → Prop
  | .unblock (some r) => r ∈ l
  | .tick _ | .timer => True
  | _ => False

/-- After the events a thread of the queue can be reached from its head if it is still
BLOCKED, and cannot be if it was unblocked. -/
def Intact (queue : Nat) (l : List ThreadRef) (events : List ThreadEvent) (t : Scheduler) : Prop :=
  ∀ r ∈ l, ((t.threads r).state = .blocked → Reaches t.next (t.waitQueues queue) r) ∧
    (.unblock (some r) ∈ events → ¬ Reaches t.next (t.waitQueues queue) r)

theorem WaitsOn.intact (h : WaitsOn s queue l) : Intact queue l [] s := by
  refine fun r hr => ⟨fun _ => ?_, fun hmem => absurd hmem List.not_mem_nil⟩
  obtain ⟨l₁, l₂, rfl⟩ := List.append_of_mem hr
  exact h.links.reaches fun _ _ => rfl

theorem WaitsOn.quiet (h : WaitsOn s queue l) (hsound : Sound s lastSp) {e : ThreadEvent}
    (he : e = .timer ∨ ∃ sp, e = .tick sp) (hstep : s.step e = some t) : WaitsOn t queue l := by
  rcases he with rfl | ⟨sp, rfl⟩
  · cases hstep
    exact ⟨h.links, h.nodup, h.blocked⟩
  · obtain ⟨hqueues, hkept⟩ := hsound.tick_blocked hstep
    refine ⟨?_, h.nodup, fun r hr => (hkept r (h.blocked r hr)).1⟩
    rw [hqueues]
    exact h.links.congr fun r hr => (hkept r (h.blocked r hr)).2

/-- Threads wait on a queue, and are unblocked in any order, with ticks in between: the
queue is intact all the time exactly if none of them is unblocked. -/
theorem wait_queue_intact_iff (hrun : Run step OnOthers start s) (h : WaitsOn s queue l)
    {events : List ThreadEvent} (hevents : ∀ e ∈ events, Wakeup l e)
    (hlist : runList step OnOthers s events = some t) :
    (∀ before t, before <+: events → runList step OnOthers s before = some t →
        Intact queue l before t) ↔ ∀ r ∈ l, .unblock (some r) ∉ events := by
  induction events generalizing s with
  | nil =>
    refine iff_of_true (fun before t hbefore ht => ?_) fun _ _ => List.not_mem_nil
    obtain rfl := List.prefix_nil.mp hbefore
    cases ht
    exact h.intact
  | cons e events ih =>
    obtain ⟨lastSp, hsound⟩ := sound_run hrun
    rw [runList] at hlist
    split at hlist
    next hok =>
      obtain ⟨s₁, hstep, hrest⟩ := Option.bind_eq_some_iff.mp hlist
      have hcons : ∀ before, runList step OnOthers s (e :: before) =
          runList step OnOthers s₁ before := by
        intro before
        rw [runList, if_pos hok, hstep, Option.bind_some]
      have hwake := hevents e List.mem_cons_self
      by_cases hquiet : e = .timer ∨ ∃ sp, e = .tick sp
      · have hmem : ∀ {r events'}, .unblock (some r) ∈ e :: events' ↔ .unblock (some r) ∈ events' := by
          intro r events'
          rw [List.mem_cons, or_iff_right]
          rintro rfl
          rcases hquiet with hquiet | ⟨sp, hquiet⟩ <;> cases hquiet
        rw [forall₂_congr fun r _ => not_congr hmem, ← ih (hrun.snoc hok hstep)
          (h.quiet hsound hquiet hstep) (fun e' he' => hevents e' (List.mem_cons_of_mem e he')) hrest]
        constructor
        · intro hall before t hbefore ht
          have hintact := hall (e :: before) t (List.prefix_cons_inj e |>.mpr hbefore)
            ((hcons before).trans ht)
          exact fun r hr => ⟨(hintact r hr).1, fun hr' => (hintact r hr).2 (hmem.mpr hr')⟩
        · intro hall before t hbefore ht
          cases before with
          | nil =>
            cases ht
            exact h.intact
          | cons e' before =>
            obtain ⟨rfl, htail⟩ := List.cons_prefix_cons.mp hbefore
            have hintact := hall before t htail ((hcons before).symm.trans ht)
            exact fun r hr => ⟨(hintact r hr).1, fun hr' => (hintact r hr).2 (hmem.mp hr')⟩
      · obtain ⟨r, rfl, hr⟩ : ∃ r, e = .unblock (some r) ∧ r ∈ l := by
          cases e with
          | unblock thread =>
            cases thread with
            | none => exact hwake.elim
            | some r => exact ⟨r, rfl, hwake⟩
          | tick sp => exact absurd (.inr ⟨sp, rfl⟩) hquiet
          | timer => exact absurd (.inl rfl) hquiet
          | _ => exact hwake.elim
        refine iff_of_false (fun hall => ?_) fun hnone => hnone r hr List.mem_cons_self
        have hintact := hall [.unblock (some r)] s₁ ⟨events, rfl⟩ ((hcons []).trans rfl)
        exact (hintact r hr).2 List.mem_cons_self (h.unblock hsound hr hstep)
    next => cases hlist

/-- Three threads are created; the first two run and block on queue 0. -/
def twoWaiters : List ThreadEvent :=
  [.create 0x1000 0 (some 0x200000), .create 0x1000 0 (some 0x300000),
    .create 0x1000 0 (some 0x400000), .tick 8, .block (some 0), .tick 8, .block (some 0), .tick 8]

theorem twoWaiters_waitsOn :
    ∃ s, runList step OnOthers start twoWaiters = some s ∧ WaitsOn s 0 [.slot 1, .slot 0] ∧
      (∃ t, runList step OnOthers s [.tick 8] = some t) ∧
      ∃ t, s.step (.unblock (some (.slot 1))) = some t ∧ t.waitQueues 0 = some (.slot 1) ∧
        t.next (.slot 1) = none ∧ (t.threads (.slot 0)).state = .blocked := by
  have hrun : (runList step OnOthers start twoWaiters).map (fun s =>
      (s.waitQueues 0, s.next (.slot 1), s.next (.slot 0), (s.threads (.slot 1)).state,
        (s.threads (.slot 0)).state, (runList step OnOthers s [.tick 8]).isSome,
        (s.step (.unblock (some (.slot 1)))).map fun t =>
          (t.waitQueues 0, t.next (.slot 1), (t.threads (.slot 0)).state))) =
      some (some (.slot 1), some (.slot 0), none, .blocked, .blocked, true,
        some (some (.slot 1), none, .blocked)) := by rfl
  obtain ⟨s, hs, heq⟩ := Option.map_eq_some_iff.mp hrun
  simp only [Prod.mk.injEq] at heq
  obtain ⟨hhead, hnext₁, hnext₀, hstate₁, hstate₀, htick, hunblock⟩ := heq
  obtain ⟨t, ht, heq⟩ := Option.map_eq_some_iff.mp hunblock
  simp only [Prod.mk.injEq] at heq
  refine ⟨s, hs, ⟨⟨hhead, hnext₁, hnext₀⟩, by decide, ?_⟩, Option.isSome_iff_exists.mp htick, t, ht,
    heq⟩
  exact List.forall_mem_cons.mpr ⟨hstate₁, List.forall_mem_singleton.mpr hstate₀⟩

theorem wait_queue_intact_twoWaiters :
    ∃ s t, runList step OnOthers start twoWaiters = some s ∧
      runList step OnOthers s [.tick 8] = some t ∧ Intact 0 [.slot 1, .slot 0] [.tick 8] t := by
  obtain ⟨s, hs, hwaits, ⟨t, ht⟩, -⟩ := twoWaiters_waitsOn
  refine ⟨s, t, hs, ht, (wait_queue_intact_iff (.ofList hs) hwaits ?_ ht).mpr ?_ _ t List.prefix_rfl ht⟩
  · exact List.forall_mem_singleton.mpr trivial
  · simp

/-- The last of two threads that wait is unblocked. It can be reached from the head, and
the other one, which is still BLOCKED, cannot. -/
theorem unblock_loses_waiter :
    ∃ s t, runList step OnOthers start twoWaiters = some s ∧ WaitsOn s 0 [.slot 1, .slot 0] ∧
      s.step (.unblock (some (.slot 1))) = some t ∧
      Reaches t.next (t.waitQueues 0) (.slot 1) ∧ (t.threads (.slot 0)).state = .blocked ∧
      ¬ Reaches t.next (t.waitQueues 0) (.slot 0) := by
  obtain ⟨s, hs, hwaits, -, t, ht, hhead, hnext, hstate⟩ := twoWaiters_waitsOn
  refine ⟨s, t, hs, hwaits, ht, by rw [hhead]; exact .here _, hstate, ?_⟩
  rw [hhead]
  rintro (_ | ⟨hrest⟩)
  rw [hnext] at hrest
  cases hrest

end Scheduler

end OreOS.Kernel
