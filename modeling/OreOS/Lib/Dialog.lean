import Mathlib.Logic.Relation

/-!
# Programs that talk to a device, under interference

A `Dialog` is a program whose only effects are requests. Between two requests
the surroundings act on the device as well, any number of times. `Meets answer
env p post s` says that the program `p`, begun at `s`, returns only results that
meet `post`. It is proved request by request from assertions that the
surroundings keep (`meets_ask`), and composes along `bind`.
-/

namespace OreOS.Lib

/-- A program that asks requests `q` and gets answers in `A q`. -/
inductive Dialog (Q : Type) (A : Q → Type) (α : Type) : Type
  | ret (a : α)
  | ask (q : Q) (k : A q → Dialog Q A α)

namespace Dialog

variable {Q : Type} {A : Q → Type} {α β σ : Type}

def bind : Dialog Q A α → (α → Dialog Q A β) → Dialog Q A β
  | ret a, f => f a
  | ask q k, f => ask q fun a => (k a).bind f

instance : Monad (Dialog Q A) where
  pure := ret
  bind := bind

/-- One request. -/
def request (q : Q) : Dialog Q A (A q) := ask q ret

/-- The program alone with the device. -/
def exec (answer : (q : Q) → σ → A q × σ) : Dialog Q A α → σ → α × σ
  | ret a, s => (a, s)
  | ask q k, s => (k (answer q s).1).exec answer (answer q s).2

/-- The results of the program meet `post`, whatever the surroundings do. -/
def Meets (answer : (q : Q) → σ → A q × σ) (env : σ → σ → Prop) :
    Dialog Q A α → (α → σ → Prop) → σ → Prop
  | ret a, post, s => ∀ t, Relation.ReflTransGen env s t → post a t
  | ask q k, post, s => ∀ t, Relation.ReflTransGen env s t →
      (k (answer q t).1).Meets answer env post (answer q t).2

/-- The surroundings keep the assertion. -/
def Stable (env : σ → σ → Prop) (p : σ → Prop) : Prop := ∀ ⦃s t⦄, env s t → p s → p t

theorem Stable.run {env : σ → σ → Prop} {p : σ → Prop} (h : Stable env p) {s t : σ}
    (hrun : Relation.ReflTransGen env s t) (hs : p s) : p t := by
  induction hrun with
  | refl => exact hs
  | tail _ hstep ih => exact h hstep ih

variable {answer : (q : Q) → σ → A q × σ} {env : σ → σ → Prop} {s t : σ}

@[simp] theorem pure_eq (a : α) : (pure a : Dialog Q A α) = ret a := rfl

@[simp] theorem ret_bind (a : α) (f : α → Dialog Q A β) : (ret a >>= f) = f a := rfl

@[simp] theorem ask_bind (q : Q) (k : A q → Dialog Q A α) (f : α → Dialog Q A β) :
    (ask q k >>= f) = ask q fun a => k a >>= f := rfl

@[simp] theorem request_bind (q : Q) (f : A q → Dialog Q A β) : (request q >>= f) = ask q f := rfl

theorem bind_ret (p : Dialog Q A α) : (p >>= ret) = p := by
  induction p with
  | ret a => rfl
  | ask q k ih => exact congrArg (ask q) (funext ih)

theorem exec_bind (p : Dialog Q A α) (f : α → Dialog Q A β) (s : σ) :
    (p >>= f).exec answer s = (f (p.exec answer s).1).exec answer (p.exec answer s).2 := by
  induction p generalizing s with
  | ret a => rfl
  | ask q k ih => exact ih (answer q s).1 (answer q s).2

/-- Every request the program can ask is a good one, as long as the answers are
such as may come. -/
def All (may : (q : Q) → A q → Prop) (good : Q → Prop) : Dialog Q A α → Prop
  | ret _ => True
  | ask q k => good q ∧ ∀ a, may q a → (k a).All may good

section All

variable {may : (q : Q) → A q → Prop} {good : Q → Prop} {P : σ → Prop}

variable {p : Dialog Q A α}

theorem All.bind {f : α → Dialog Q A β} (hp : p.All may good) (hf : ∀ a, (f a).All may good) :
    (p >>= f).All may good := by
  induction p with
  | ret a => exact hf a
  | ask q k ih => exact ⟨hp.1, fun a ha => ih a (hp.2 a ha)⟩

theorem All.mono {may' : (q : Q) → A q → Prop} {good' : Q → Prop} (hp : p.All may good)
    (hmay : ∀ q a, may' q a → may q a) (hgood : ∀ q, good q → good' q) : p.All may' good' := by
  induction p with
  | ret a => exact trivial
  | ask q k ih => exact ⟨hgood q hp.1, fun a ha => ih a (hp.2 a (hmay q a ha))⟩

/-- What every good request keeps, the program keeps. -/
theorem All.exec (hp : p.All may good) (hmay : ∀ q s, P s → may q (answer q s).1)
    (hkeep : ∀ q, good q → ∀ s, P s → P (answer q s).2) (h : P s) : P (p.exec answer s).2 := by
  induction p generalizing s with
  | ret a => exact h
  | ask q k ih => exact ih _ (hp.2 _ (hmay q s h)) (hkeep q hp.1 s h)

end All

variable {p : Dialog Q A α} {post : α → σ → Prop}

/-- A step of the surroundings before the next request changes nothing. -/
theorem Meets.interfere (h : p.Meets answer env post s) (hstep : env s t) :
    p.Meets answer env post t := by
  cases p with
  | ret a => exact fun u hu => h u (hu.head hstep)
  | ask q k => exact fun u hu => h u (hu.head hstep)

theorem Meets.ask {q : Q} {k : A q → Dialog Q A α} (h : (Dialog.ask q k).Meets answer env post s) :
    (k (answer q s).1).Meets answer env post (answer q s).2 :=
  h s .refl

theorem Meets.ret {a : α} (h : (Dialog.ret a : Dialog Q A α).Meets answer env post s) : post a s :=
  h s .refl

/-- The surroundings may also do nothing. -/
theorem Meets.exec (h : p.Meets answer env post s) :
    post (p.exec answer s).1 (p.exec answer s).2 := by
  induction p generalizing s with
  | ret a => exact h.ret
  | ask q k ih => exact ih _ h.ask

theorem meets_ret {a : α} (hstable : Stable env (post a)) (h : post a s) :
    (Dialog.ret a : Dialog Q A α).Meets answer env post s :=
  fun _ hrun => hstable.run hrun h

/-- THE REQUEST RULE: an assertion that the surroundings keep holds when the
request is answered. -/
theorem meets_ask {q : Q} {k : A q → Dialog Q A α} {pre : σ → Prop} (hstable : Stable env pre)
    (h : pre s) (hnext : ∀ t, pre t → (k (answer q t).1).Meets answer env post (answer q t).2) :
    (Dialog.ask q k).Meets answer env post s :=
  fun t hrun => hnext t (hstable.run hrun h)

theorem Meets.mono {post' : α → σ → Prop} (h : p.Meets answer env post s)
    (himp : ∀ a t, post a t → post' a t) : p.Meets answer env post' s := by
  induction p generalizing s with
  | ret a => exact fun t hrun => himp a t (h t hrun)
  | ask q k ih => exact fun t hrun => ih _ (h t hrun)

theorem Meets.bind {f : α → Dialog Q A β} {post : β → σ → Prop}
    (h : p.Meets answer env (fun a t => (f a).Meets answer env post t) s) :
    (p >>= f).Meets answer env post s := by
  induction p generalizing s with
  | ret a => exact h s .refl
  | ask q k ih => exact fun t hrun => ih _ (h t hrun)

/-- THE INVARIANT RULE for programs all of whose requests are good ones. -/
theorem All.meets {may : (q : Q) → A q → Prop} {good : Q → Prop} {P : σ → Prop}
    (hp : p.All may good) (hstable : Stable env P) (hmay : ∀ q s, P s → may q (answer q s).1)
    (hkeep : ∀ q, good q → ∀ s, P s → P (answer q s).2) (h : P s) :
    p.Meets answer env (fun _ t => P t) s := by
  induction p generalizing s with
  | ret a => exact meets_ret hstable h
  | ask q k ih =>
    exact meets_ask hstable h fun t ht => ih _ (hp.2 _ (hmay q t ht)) (hkeep q hp.1 t ht)

-- From here on only the rules are used.
attribute [irreducible] Meets

end Dialog

end OreOS.Lib
