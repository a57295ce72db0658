import Mathlib.Algebra.Order.Ring.Int

/-!
# Signed arithmetic of C

The result of a signed operation that leaves the range of `int` is not defined. A program
is written once, over the operations (`Arith`), and then read in two ways: with operations
that fail outside of the range (`checked`), and with those of the machine (`wrapping`).
-/

namespace OreOS.Lib

/-- The signed operations, in a monad. -/
structure Arith (m : Type → Type) where
  add : Int → Int → m Int
  sub : Int → Int → m Int
  mul : Int → Int → m Int
  div : Int → Int → m Int
  neg : Int → m Int

/-- The range of `int`. -/
def Fits (x : Int) : Prop := -2 ^ 31 ≤ x ∧ x < 2 ^ 31

instance (x : Int) : Decidable (Fits x) := inferInstanceAs (Decidable (_ ∧ _))

namespace Arith

def inRange (x : Int) : Option Int := if Fits x then some x else none

def checked : Arith Option where
  add a b := inRange (a + b)
  sub a b := inRange (a - b)
  mul a b := inRange (a * b)
  div a b := if b = 0 then none else inRange (a.tdiv b)
  neg a := inRange (-a)

def wrapping : Arith Id where
  add a b := (a + b).bmod (2 ^ 32)
  sub a b := (a - b).bmod (2 ^ 32)
  mul a b := (a * b).bmod (2 ^ 32)
  div a b := (a.tdiv b).bmod (2 ^ 32)
  neg a := (-a).bmod (2 ^ 32)

end Arith

/-- A loop that gathers what its body gives. -/
def gather {m : Type → Type} [Monad m] {α β : Type} (f : α → m (List β)) : List α → m (List β)
  | [] => pure []
  | x :: l => do
    let here ← f x
    let rest ← gather f l
    return here ++ rest

theorem gather_run {α β : Type} (f : α → Id (List β)) (l : List α) :
    (gather f l).run = l.flatMap fun x => (f x).run := by
  induction l with
  | nil => rfl
  | cons x l ih =>
    change (f x).run ++ (gather f l).run = _
    rw [ih, List.flatMap_cons]

/-! ## Results -/

/-- There is a result, and it is as said. -/
def Yields {α : Type} (x : Option α) (P : α → Prop) : Prop := ∃ v, x = some v ∧ P v

section

variable {α β : Type} {x y : Option α} {f : α → Option β} {P : α → Prop} {Q : β → Prop} {a b : Int}

theorem Yields.mono {P' : α → Prop} (h : Yields x P) (himp : ∀ v, P v → P' v) : Yields x P' :=
  let ⟨v, hv, hP⟩ := h
  ⟨v, hv, himp v hP⟩

theorem yields_true_iff : (Yields x fun _ => True) ↔ x.isSome := by
  simp only [Yields, and_true, Option.isSome_iff_exists]

/-! A program has a result as said if and only if its operations stay in range and what it
returns is as said. -/

theorem yields_pure_iff {v : α} : Yields (pure v) P ↔ P v :=
  ⟨fun ⟨_, hv, h⟩ => Option.some.inj hv ▸ h, fun h => ⟨v, rfl, h⟩⟩

theorem yields_bind_iff : Yields (x >>= f) Q ↔ Yields x fun v => Yields (f v) Q := by
  cases x with
  | none => exact ⟨fun ⟨_, hw, _⟩ => (nomatch hw), fun ⟨_, hv, _⟩ => (nomatch hv)⟩
  | some v => exact ⟨fun h => ⟨v, rfl, h⟩, fun ⟨_, hv, h⟩ => Option.some.inj hv ▸ h⟩

theorem yields_ite_iff {c : Prop} [Decidable c] :
    Yields (if c then x else y) P ↔ (c → Yields x P) ∧ (¬ c → Yields y P) := by
  split
  next h => exact ⟨fun hx => ⟨fun _ => hx, fun hc => absurd h hc⟩, fun hx => hx.1 h⟩
  next h => exact ⟨fun hy => ⟨fun hc => absurd hc h, fun _ => hy⟩, fun hy => hy.2 h⟩

theorem yields_inRange_iff {P : Int → Prop} : Yields (Arith.inRange a) P ↔ Fits a ∧ P a := by
  rw [Arith.inRange, yields_ite_iff]
  refine ⟨fun h => ?_, fun h => ⟨fun _ => yields_pure_iff.mpr h.2, fun hfits => absurd h.1 hfits⟩⟩
  by_cases hfits : Fits a
  · exact ⟨hfits, yields_pure_iff.mp (h.1 hfits)⟩
  · obtain ⟨_, hv, _⟩ := h.2 hfits
    cases hv

theorem yields_gather_iff {f : α → Option (List β)} {l : List α} :
    (Yields (gather f l) fun _ => True) ↔ ∀ x ∈ l, Yields (f x) fun _ => True := by
  induction l with
  | nil => exact ⟨fun _ x hx => absurd hx List.not_mem_nil, fun _ => ⟨[], rfl, trivial⟩⟩
  | cons x l ih =>
    rw [gather, yields_bind_iff, List.forall_mem_cons, ← ih]
    simp only [yields_bind_iff, yields_pure_iff]
    exact ⟨fun ⟨v, hv, h⟩ => ⟨⟨v, hv, trivial⟩, h⟩, fun ⟨⟨v, hv, _⟩, h⟩ => ⟨v, hv, h⟩⟩

end

namespace Arith

theorem checked_add (a b : Int) : checked.add a b = inRange (a + b) := (rfl)

theorem checked_sub (a b : Int) : checked.sub a b = inRange (a - b) := (rfl)

theorem checked_mul (a b : Int) : checked.mul a b = inRange (a * b) := (rfl)

theorem checked_neg (a : Int) : checked.neg a = inRange (-a) := (rfl)

theorem checked_div {b : Int} (hb : b ≠ 0) (a : Int) : checked.div a b = inRange (a.tdiv b) :=
  if_neg hb

/-- What is used of a quotient: its sign and its size. -/
theorem tdiv_bounds (a : Int) {b : Int} (hb : 0 < b) :
    (0 ≤ a → 0 ≤ a.tdiv b) ∧ (a ≤ 0 → a.tdiv b ≤ 0) ∧ b * (a.tdiv b).natAbs ≤ a.natAbs := by
  refine ⟨fun h => Int.tdiv_nonneg h (Int.le_of_lt hb), fun h => ?_, ?_⟩
  · have hminus : 0 ≤ (-a).tdiv b := Int.tdiv_nonneg (by omega) (Int.le_of_lt hb)
    rw [Int.neg_tdiv] at hminus
    omega
  · rw [Int.natAbs_tdiv, ← Int.natAbs_of_nonneg (Int.le_of_lt hb), ← Int.natCast_mul]
    exact Int.ofNat_le.mpr (Nat.mul_div_le a.natAbs b.natAbs)

end Arith

end OreOS.Lib
