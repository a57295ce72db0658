import Mathlib.Data.List.Infix

/-!
# Computations with a state that survives failure

`Exec ε σ α` runs on a state and ends with an answer or with an error, and in
both cases with a state: what was written before the failure stays written.

`Keeps I x` is the rule for a property that must hold however the computation
ends. It composes along `bind` without a word about what the parts answer.
-/

namespace OreOS.Lib

theorem except_bind_ok {ε α β : Type} {x : Except ε α} {f : α → Except ε β} {b : β}
    (h : (x >>= f) = .ok b) : ∃ a, x = .ok a ∧ f a = .ok b := by
  cases x with
  | error e => cases h
  | ok a => exact ⟨a, rfl, h⟩

abbrev Exec (ε σ : Type) := ExceptT ε (StateM σ)

namespace Exec

variable {ε σ α β : Type} {x : Exec ε σ α} {f : α → Exec ε σ β} {s s' : σ}

@[simp] theorem pure_apply (a : α) (s : σ) : (pure a : Exec ε σ α) s = (.ok a, s) := rfl

theorem get_apply (s : σ) : (get : Exec ε σ σ) s = (.ok s, s) := rfl

theorem set_apply (s s' : σ) : (set s' : Exec ε σ PUnit) s = (.ok ⟨⟩, s') := rfl

variable {a : α}

theorem bind_ok (h : x s = (.ok a, s')) : (x >>= f) s = f a s' := by
  simp only [bind, ExceptT.bind, ExceptT.mk, StateT.bind]
  rw [h]
  rfl

theorem bind_error {e : ε} (h : x s = (.error e, s')) : (x >>= f) s = (.error e, s') := by
  simp only [bind, ExceptT.bind, ExceptT.mk, StateT.bind]
  rw [h]
  rfl

theorem bind_eq_ok {b : β} (h : (x >>= f) s = (.ok b, s')) :
    ∃ a s₁, x s = (.ok a, s₁) ∧ f a s₁ = (.ok b, s') := by
  rcases hrun : x s with ⟨_ | a, s₁⟩
  · rw [bind_error hrun] at h
    cases h
  · rw [bind_ok hrun] at h
    exact ⟨a, s₁, rfl, h⟩

theorem tryCatch_apply (x : Exec ε σ α) (handle : ε → Exec ε σ α) (s : σ) :
    (MonadExcept.tryCatch x handle) s =
      match (x s).1 with
      | .ok a => (.ok a, (x s).2)
      | .error e => handle e (x s).2 := by
  simp only [MonadExcept.tryCatch, tryCatchThe, MonadExceptOf.tryCatch, ExceptT.tryCatch, ExceptT.mk]
  change (match x s with
    | (r, s') =>
      (match r with
      | .ok a => Pure.pure (.ok a)
      | .error e => handle e : StateM σ (Except ε α)) s') = _
  rcases x s with ⟨_ | a, s'⟩ <;> rfl

variable {handle : ε → Exec ε σ α}

theorem tryCatch_ok (h : x s = (.ok a, s')) : (MonadExcept.tryCatch x handle) s = (.ok a, s') := by
  rw [tryCatch_apply, h]

theorem tryCatch_error {e : ε} (h : x s = (.error e, s')) :
    (MonadExcept.tryCatch x handle) s = handle e s' := by
  rw [tryCatch_apply, h]

/-! ## What holds however it ends -/

/-- `I` holds after the computation, whatever its outcome. -/
def Keeps (I : σ → Prop) (x : Exec ε σ α) : Prop :=
  ∀ s, I s → I (x s).2

variable {I : σ → Prop}

theorem Keeps.pure (a : α) : Keeps I (Pure.pure a : Exec ε σ α) :=
  fun _ h => h

theorem Keeps.throw (e : ε) : Keeps I (MonadExcept.throw e : Exec ε σ α) :=
  fun _ h => h

/-- What holds after the first part holds after both, if the second keeps
it. -/
theorem after_bind (hx : I (x s).2) (hf : ∀ a, Keeps I (f a)) : I ((x >>= f) s).2 := by
  rcases hrun : x s with ⟨_ | a, s'⟩
  · rw [bind_error hrun]
    rwa [hrun] at hx
  · rw [bind_ok hrun]
    rw [hrun] at hx
    exact hf a s' hx

theorem Keeps.bind (hx : Keeps I x) (hf : ∀ a, Keeps I (f a)) : Keeps I (x >>= f) :=
  fun s h => after_bind (hx s h) hf

theorem Keeps.get_bind {f : σ → Exec ε σ β} (h : ∀ s, I s → I (f s s).2) :
    Keeps I (get >>= f) :=
  h

theorem Keeps.tryCatch (hx : Keeps I x) (hh : ∀ e, Keeps I (handle e)) :
    Keeps I (MonadExcept.tryCatch x handle) := by
  intro s h
  have hs := hx s h
  rcases hrun : x s with ⟨e | a, s'⟩
  · rw [tryCatch_error hrun]
    rw [hrun] at hs
    exact hh e s' hs
  · rw [tryCatch_ok hrun]
    rwa [hrun] at hs

variable {p : Prop}

theorem Keeps.ite [Decidable p] {y : Exec ε σ α} (hx : p → Keeps I x) (hy : ¬ p → Keeps I y) :
    Keeps I (if p then x else y) := by
  split
  next h => exact hx h
  next h => exact hy h

/-- `I` holds after the computation, whatever its outcome, and `Q` when it
answers. -/
def Leaves (I : σ → Prop) (Q : α → σ → Prop) (x : Exec ε σ α) : Prop :=
  ∀ s, I s → I (x s).2 ∧ ∀ a s', x s = (.ok a, s') → Q a s'

variable {Q : α → σ → Prop} {R : β → σ → Prop}

theorem Leaves.pure (h : ∀ s, I s → Q a s) : Leaves I Q (Pure.pure a : Exec ε σ α) :=
  fun s hs => ⟨hs, fun _ _ heq => by cases heq; exact h s hs⟩

theorem Leaves.bind_keeps (hx : Leaves I Q x) (hf : ∀ a, Keeps (fun s => I s ∧ Q a s) (f a)) :
    Keeps I (x >>= f) := by
  intro s h
  obtain ⟨hI, hQ⟩ := hx s h
  rcases hrun : x s with ⟨_ | a, s'⟩
  · rw [bind_error hrun]
    rwa [hrun] at hI
  · rw [bind_ok hrun]
    rw [hrun] at hI
    exact (hf a s' ⟨hI, hQ a s' hrun⟩).1

theorem Leaves.bind (hx : Leaves I Q x) (hf : ∀ a, Leaves (fun s => I s ∧ Q a s) R (f a)) :
    Leaves I R (x >>= f) := by
  refine fun s h => ⟨hx.bind_keeps (fun a s h => ⟨((hf a) s h).1.1, ((hf a) s h).1.2⟩) s h, ?_⟩
  intro b s' hrun
  obtain ⟨a, s₁, h₁, h₂⟩ := bind_eq_ok hrun
  obtain ⟨hI, hQ⟩ := hx s h
  rw [h₁] at hI
  exact ((hf a) s₁ ⟨hI, hQ a s₁ h₁⟩).2 b s' h₂

theorem Keeps.bind_leaves (hx : Keeps I x) (hf : ∀ a, Leaves I R (f a)) :
    Leaves I R (x >>= f) := by
  refine fun s h => ⟨hx.bind (fun a s h => ((hf a) s h).1) s h, fun b s' hrun => ?_⟩
  obtain ⟨a, s₁, h₁, h₂⟩ := bind_eq_ok hrun
  have hI := hx s h
  rw [h₁] at hI
  exact ((hf a) s₁ hI).2 b s' h₂

/-! ## What it answers -/

/-- An answer of the computation meets `P`. -/
def Answers (P : α → Prop) (x : Exec ε σ α) : Prop :=
  ∀ s a s', x s = (.ok a, s') → P a

variable {P : α → Prop} {S : β → Prop}

theorem Answers.pure (h : P a) : Answers P (Pure.pure a : Exec ε σ α) := by
  rintro s _ s' ⟨⟩
  exact h

theorem Answers.throw (e : ε) : Answers P (MonadExcept.throw e : Exec ε σ α) := by
  rintro s _ s' ⟨⟩

theorem Answers.bind (hx : Answers P x) (hf : ∀ a, P a → Answers S (f a)) :
    Answers S (x >>= f) := by
  intro s b s' h
  obtain ⟨a, s₁, h₁, h₂⟩ := bind_eq_ok h
  exact hf a (hx s a s₁ h₁) s₁ b s' h₂

theorem Answers.after (hf : ∀ a, Answers S (f a)) : Answers S (x >>= f) :=
  Answers.bind (P := fun _ => True) (fun _ _ _ _ => trivial) fun a _ => hf a

theorem Answers.ite [Decidable p] {y : Exec ε σ α} (hx : Answers P x) (hy : Answers P y) :
    Answers P (if p then x else y) := by
  split
  · exact hx
  · exact hy

/-! ## Answers alone

Two computations that answer alike can fail in different ways, as long as both
fail. -/

/-- What a computation answers and the state it leaves, if it answers. -/
def answer (x : Exec ε σ α) (s : σ) : Option (α × σ) :=
  match x s with
  | (.ok a, s') => some (a, s')
  | (.error _, _) => none

theorem answer_eq_some : answer x s = some (a, s') ↔ x s = (.ok a, s') := by
  unfold answer
  rcases x s with ⟨_ | b, s₁⟩
  · constructor <;> rintro ⟨⟩
  · constructor
    · rintro ⟨⟩
      rfl
    · rintro ⟨⟩
      rfl

@[simp] theorem answer_pure (a : α) (s : σ) : answer (Pure.pure a : Exec ε σ α) s = some (a, s) :=
  rfl

@[simp] theorem answer_throw (e : ε) (s : σ) :
    answer (MonadExcept.throw e : Exec ε σ α) s = none :=
  rfl

@[simp] theorem answer_bind (x : Exec ε σ α) (f : α → Exec ε σ β) (s : σ) :
    answer (x >>= f) s = (answer x s).bind fun r => answer (f r.1) r.2 := by
  unfold answer
  rcases hrun : x s with ⟨_ | a, s₁⟩
  · rw [bind_error hrun]
    rfl
  · rw [bind_ok hrun]
    rfl

@[simp] theorem answer_map (f : α → β) (x : Exec ε σ α) (s : σ) :
    answer (f <$> x) s = (answer x s).map fun r => (f r.1, r.2) := by
  rw [map_eq_pure_bind, answer_bind, Option.map_eq_bind]
  rfl

@[simp] theorem answer_get (s : σ) : answer (get : Exec ε σ σ) s = some (s, s) :=
  rfl

@[simp] theorem answer_modify (f : σ → σ) (s : σ) :
    answer (modify f : Exec ε σ PUnit) s = some (⟨⟩, f s) :=
  rfl

theorem answer_ite [Decidable p] (x y : Exec ε σ α) (s : σ) :
    answer (if p then x else y) s = if p then answer x s else answer y s := by
  split <;> rfl

/-- A handler that only fails changes nothing. -/
theorem answer_tryCatch (h : ∀ e s, answer (handle e) s = none) :
    answer (MonadExcept.tryCatch x handle) s = answer x s := by
  rcases hrun : x s with ⟨e | a, s₁⟩
  · rw [answer, tryCatch_error hrun]
    have hnone : answer x s = none := by rw [answer, hrun]
    rw [hnone]
    exact h e s₁
  · rw [answer, tryCatch_ok hrun, answer, hrun]

end Exec

end OreOS.Lib
