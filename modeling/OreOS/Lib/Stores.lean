import Mathlib.Logic.Function.Basic

/-!
# Stores in order

A list of stores to the places of a memory. What a place holds afterwards is the last
store to it (`applyStores_apply`), so a list can be reordered and repeated in parts as long as
the last stores stay the same.
-/

namespace OreOS.Lib

variable {α β γ : Type} [DecidableEq α]

/-- The memory after the stores. -/
def applyStores (mem : α → β) (stores : List (α × β)) : α → β :=
  stores.foldl (fun mem p => Function.update mem p.1 p.2) mem

/-- The last value stored at a place. -/
def lastAt (i : α) : List (α × β) → Option β
  | [] => none
  | p :: stores => (lastAt i stores).or (if p.1 = i then some p.2 else none)

theorem applyStores_apply (mem : α → β) (stores : List (α × β)) (i : α) :
    applyStores mem stores i = (lastAt i stores).getD (mem i) := by
  induction stores generalizing mem with
  | nil => rfl
  | cons p stores ih =>
    change applyStores (Function.update mem p.1 p.2) stores i = _
    rw [ih, lastAt]
    cases lastAt i stores with
    | some v => rfl
    | none =>
      by_cases h : p.1 = i
      · subst h
        rw [if_pos rfl, Function.update_self]
        rfl
      · rw [if_neg h, Function.update_of_ne (Ne.symm h)]
        rfl

/-- Memories are the same if the last stores are. -/
theorem applyStores_congr (mem : α → β) {stores stores' : List (α × β)}
    (h : ∀ i, lastAt i stores = lastAt i stores') :
    applyStores mem stores = applyStores mem stores' := by
  funext i
  rw [applyStores_apply, applyStores_apply, h i]

theorem lastAt_append (i : α) (stores stores' : List (α × β)) :
    lastAt i (stores ++ stores') = (lastAt i stores').or (lastAt i stores) := by
  induction stores with
  | nil => exact (Option.or_none).symm
  | cons p stores ih => rw [List.cons_append, lastAt, ih, lastAt, Option.or_assoc]

theorem lastAt_eq_none {i : α} {stores : List (α × β)} (h : ∀ p ∈ stores, p.1 ≠ i) :
    lastAt i stores = none := by
  induction stores with
  | nil => rfl
  | cons p stores ih =>
    rw [lastAt, ih fun q hq => h q (List.mem_cons_of_mem p hq), if_neg (h p List.mem_cons_self)]
    rfl

theorem lastAt_flatMap_none {i : α} {f : γ → List (α × β)} {l : List γ}
    (h : ∀ x ∈ l, lastAt i (f x) = none) : lastAt i (l.flatMap f) = none := by
  induction l with
  | nil => rfl
  | cons x l ih =>
    rw [List.flatMap_cons, lastAt_append, ih fun y hy => h y (List.mem_cons_of_mem x hy),
      h x List.mem_cons_self]
    rfl

/-- Parts that store the same or nothing, in any order and any number, store the same. -/
theorem lastAt_flatMap_same {i : α} {v : Option β} {f : γ → List (α × β)} {l : List γ}
    (h : ∀ x ∈ l, lastAt i (f x) = none ∨ lastAt i (f x) = v) (hsome : ∃ x ∈ l, lastAt i (f x) = v) :
    lastAt i (l.flatMap f) = v := by
  induction l with
  | nil =>
    obtain ⟨x, hx, -⟩ := hsome
    exact absurd hx List.not_mem_nil
  | cons x l ih =>
    rw [List.flatMap_cons, lastAt_append]
    have hl : ∀ y ∈ l, lastAt i (f y) = none ∨ lastAt i (f y) = v :=
      fun y hy => h y (List.mem_cons_of_mem x hy)
    by_cases hrest : ∃ y ∈ l, lastAt i (f y) = v
    · rw [ih hl hrest]
      rcases h x List.mem_cons_self with hx | hx
      · rw [hx, Option.or_none]
      · rw [hx, Option.or_self]
    · have hnone : lastAt i (l.flatMap f) = none :=
        lastAt_flatMap_none fun y hy => (hl y hy).resolve_right fun hy' => hrest ⟨y, hy, hy'⟩
      obtain ⟨y, hy, hyv⟩ := hsome
      rcases List.mem_cons.mp hy with rfl | hy
      · rw [hnone, hyv, Option.none_or]
      · exact absurd ⟨y, hy, hyv⟩ hrest

end OreOS.Lib
