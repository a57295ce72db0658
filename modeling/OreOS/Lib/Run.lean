/-!
# Guarded runs of a partial step function

A machine is a step function `σ → ε → Option σ`. `Run step ok s t` is a run from
`s` to `t` all of whose steps meet `ok` in the state they start from; it carries
no event list, since safety is about the states a run passes through. A concrete
run is computed by `runList` and turned into one by `Run.ofList`.
-/

namespace OreOS.Lib

variable {σ ε : Type}

/-- A run from `s` whose every step meets `ok` in the state before it. -/
inductive Run (step : σ → ε → Option σ) (ok : σ → ε → Prop) (s : σ) : σ → Prop
  | refl : Run step ok s s
  | snoc {t u : σ} {e : ε} : Run step ok s t → ok t e → step t e = some u → Run step ok s u

namespace Run

variable {step : σ → ε → Option σ} {ok ok' : σ → ε → Prop} {s t u : σ}

theorem trans (h : Run step ok s t) (h' : Run step ok t u) : Run step ok s u := by
  induction h' with
  | refl => exact h
  | snoc _ hok hstep ih => exact .snoc ih hok hstep

/-- A run whose steps meet a stronger guard is a run of the weaker one. -/
theorem mono (himp : ∀ s e, ok s e → ok' s e) (h : Run step ok s t) : Run step ok' s t := by
  induction h with
  | refl => exact .refl
  | snoc _ hok hstep ih => exact .snoc ih (himp _ _ hok) hstep

/-- THE INVARIANT RULE: what holds at the start and survives every guarded
step holds in every state the run reaches. -/
theorem invariant {P : σ → Prop} (h0 : P s)
    (hstep : ∀ t e u, P t → ok t e → step t e = some u → P u)
    (h : Run step ok s t) : P t := by
  induction h with
  | refl => exact h0
  | snoc _ hok hs ih => exact hstep _ _ _ ih hok hs

end Run

/-- Execute a list of events, stopping where the machine stops or where a
step does not meet the (decidable) guard. -/
def runList (step : σ → ε → Option σ) (ok : σ → ε → Prop) [∀ s e, Decidable (ok s e)] :
    σ → List ε → Option σ
  | s, [] => some s
  | s, e :: es => if ok s e then (step s e).bind (fun t => runList step ok t es) else none

/-- A successful execution is a run. -/
theorem Run.ofList {step : σ → ε → Option σ} {ok : σ → ε → Prop}
    [∀ s e, Decidable (ok s e)] {s t : σ} {es : List ε}
    (h : runList step ok s es = some t) : Run step ok s t := by
  induction es generalizing s with
  | nil =>
    cases h
    exact .refl
  | cons e es ih =>
    unfold runList at h
    split at h
    next hok =>
      obtain ⟨u, hu, hrest⟩ := Option.bind_eq_some_iff.mp h
      exact (Run.snoc .refl hok hu).trans (ih hrest)
    next => cases h

end OreOS.Lib
