import OreOS.Kernel.Spinlock
import OreOS.Lib.Run

/-!
# Calls under a lock come one after the other

Only the exchange that finds the lock free leads into a critical section, so one CPU at most
is in one, and what it still has to do is fixed by the data it found (`Serial`). So the calls
that are through have done what they do one after the other.
-/

namespace OreOS.Kernel

open OreOS.Lib (Word Run runList)
open Function (update)

variable {ι κ π σ ρ : Type} {sec : Section κ π σ ρ} {call : κ → σ → ρ × σ} {d₀ : σ}

/-- The calls of the log, one after the other, with the answers of the log. -/
inductive Replays (call : κ → σ → ρ × σ) (d₀ : σ) : List (κ × ρ) → σ → Prop
  | nil : Replays call d₀ [] d₀
  | snoc {log : List (κ × ρ)} {d : σ} (h : Replays call d₀ log d) (c : κ) :
      Replays call d₀ (log ++ [(c, (call c d).1)]) (call c d).2

/-- A CPU alone does in a section what the call does; `rest` is what is still to come. -/
structure Section.Does (sec : Section κ π σ ρ) (call : κ → σ → ρ × σ) where
  rest : π → σ → ρ × σ
  enter : ∀ c d, rest (sec.enter c) d = call c d
  next : ∀ pc d, rest pc d = (sec.next pc d).elim (fun p => rest p.1 p.2) fun a => (a, d)

def LockPc.section : LockPc κ π → Option (κ × π)
  | .inside c pc => some (c, pc)
  | _ => none

namespace Locked

def sections (s : Locked ι κ π σ ρ) : ι → Option (κ × π) := LockPc.section ∘ s.pc

variable [DecidableEq ι] {does : sec.Does call} {s t : Locked ι κ π σ ρ}

/-- Nobody is in a section and the data are those of the log; or one CPU is, and the rest of
its section will be what its call does to the data of the log. -/
inductive Serial (does : sec.Does call) (d₀ : σ) (s : Locked ι κ π σ ρ) : Prop
  | free (log : Replays call d₀ s.log s.data) (value : s.value = false)
      (nobody : s.sections = fun _ => none)
  | held (d : σ) (cpu : ι) (c : κ) (pc : π) (log : Replays call d₀ s.log d)
      (value : s.value = true) (only : s.sections = update (fun _ => none) cpu (some (c, pc)))
      (rest : does.rest pc s.data = call c d)

theorem sections_goto (s : Locked ι κ π σ ρ) (cpu : ι) (pc : LockPc κ π) :
    (s.goto cpu pc).sections = update s.sections cpu pc.section :=
  Function.comp_update ..

theorem Serial.goto (h : s.Serial does d₀) {cpu : ι} (hold : (s.pc cpu).section = none)
    {pc : LockPc κ π} (hnew : pc.section = none) : (s.goto cpu pc).Serial does d₀ := by
  have hsame : (s.goto cpu pc).sections = s.sections := by
    rw [sections_goto, hnew, ← hold]
    exact Function.update_eq_self ..
  cases h with
  | free log value nobody => exact .free log value (hsame.trans nobody)
  | held d i c pc log value only rest => exact .held d i c pc log value (hsame.trans only) rest

theorem Serial.step (h : s.Serial does d₀) {e : ι × Option κ} (hstep : s.step sec e = some t) :
    t.Serial does d₀ := by
  obtain ⟨cpu, request⟩ := e
  unfold Locked.step at hstep
  dsimp only at hstep
  split at hstep
  next hpc =>
    cases hstep
    exact h.goto (by rw [hpc]; rfl) rfl
  next c hpc =>
    split at hstep
    · cases hstep
      exact h.goto (by rw [hpc]; rfl) rfl
    next hfree =>
      cases hstep
      cases h with
      | free log value nobody =>
        refine .held _ cpu c _ log rfl ?_ (does.enter c s.data)
        rw [← nobody]
        exact sections_goto ..
      | held _ _ _ _ _ value => exact absurd value hfree
  next hpc =>
    cases hstep
    refine h.goto (by rw [hpc]; rfl) ?_
    split <;> rfl
  next c pc hpc =>
    have hin : s.sections cpu = some (c, pc) := congrArg LockPc.section hpc
    cases h with
    | free log value nobody =>
      rw [nobody] at hin
      cases hin
    | held d i c' pc' log value only hrest =>
      obtain rfl : cpu = i := by
        by_contra hne
        rw [only, Function.update_of_ne hne] at hin
        cases hin
      rw [only, Function.update_self] at hin
      cases hin
      have hgoto : ∀ p : LockPc κ π,
          (s.goto cpu p).sections = update (fun _ => none) cpu p.section := by
        intro p
        rw [sections_goto, only, Function.update_idem]
      -- what is still to come is the same after the step
      rw [does.next] at hrest
      split at hstep
      next hnext =>
        cases hstep
        rw [hnext] at hrest
        exact .held _ _ _ _ log value (hgoto _) hrest
      next hnext =>
        cases hstep
        rw [hnext] at hrest
        have hlog := log.snoc c
        rw [← hrest] at hlog
        exact .free hlog rfl ((hgoto _).trans (Function.update_eq_self ..))
  next => cases hstep

/-- However the steps of any number of CPUs are interleaved, two of them are never in critical
sections, the calls that are through have answered as they do one after the other, and
whenever the lock is free the data are what they leave. -/
theorem spinlock_serialises (does : sec.Does call)
    (hrun : Run (Locked.step sec) (fun _ _ => True) { data := d₀ } s) :
    (∀ i j, s.sections i ≠ none → s.sections j ≠ none → i = j) ∧
      ∃ d, Replays call d₀ s.log d ∧ (s.value = false → s.data = d) := by
  have hserial : s.Serial does d₀ :=
    hrun.invariant (P := fun s => s.Serial does d₀) (.free .nil rfl rfl)
      fun _ _ _ h _ hstep => h.step hstep
  cases hserial with
  | free log value nobody => exact ⟨fun i _ hi => absurd (congrFun nobody i) hi, _, log, fun _ => rfl⟩
  | held d cpu c pc log value only =>
    have honly : ∀ i, s.sections i ≠ none → i = cpu := by
      intro i hi
      by_contra hne
      exact hi (by rw [only, Function.update_of_ne hne])
    refine ⟨fun i j hi hj => (honly i hi).trans (honly j hj).symm, d, log, fun hfree => ?_⟩
    cases value.symm.trans hfree

/-- Between lock and unlock `pmm_free_pages` does one round after the other. -/
def pmmFree_does : pmmFreeSection.Does fun call s => ((), pmmFreePages call.1.1 call.1.2 s) where
  rest pages s := ((), pages.foldl freePage s)
  enter call _ := by
    rw [pmmFreePages, if_neg call.2]
    rfl
  next pages _ := by cases pages <;> rfl

/-- Two CPUs free a page each; the second finds the lock taken and has to wait. -/
theorem spinlock_serialises_frees : ∃ (pmm : Pmm) (s : Locked Bool _ _ Pmm Unit),
    Run (Locked.step pmmFreeSection) (fun _ _ => True) { data := pmm } s ∧ s.log.length = 2 ∧
      Replays (fun call s => ((), pmmFreePages call.1.1 call.1.2 s)) pmm s.log s.data := by
  have hfinal : (runList (Locked.step pmmFreeSection) (fun _ _ => True)
      { data := blankPmm (fun _ => 0xff) 0 0 0 258 } ([(true, some ⟨(0x100000, 1), by decide⟩),
        (false, some ⟨(0x101000, 1), by decide⟩), (true, none), (false, none)] ++
        List.replicate 2 (true, none) ++ List.replicate 4 (false, none))).map
          (fun s => (s.value, s.log.length)) = some (false, 2) := by rfl
  obtain ⟨s, hlist, heq⟩ := Option.map_eq_some_iff.mp hfinal
  obtain ⟨hfree, hlog⟩ := Prod.mk.inj heq
  obtain ⟨-, d, hreplays, hdata⟩ := spinlock_serialises pmmFree_does (.ofList hlist)
  exact ⟨_, s, .ofList hlist, hlog, hdata hfree ▸ hreplays⟩

end Locked

end OreOS.Kernel
