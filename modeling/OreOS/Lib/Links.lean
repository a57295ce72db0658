import Mathlib.Data.List.Basic

/-!
# Lists by links

A list whose elements carry a link to the next one, as `next : ι → Option ι`.
`Links next head l` says that following the links from `head` goes through the
elements of `l` and ends there. The same links serve for any number of lists, and
what happens to a link outside of a list does not concern it.
-/

namespace OreOS.Lib

variable {ι : Type}

/-- The links from `head` on go through `l`. -/
def Links (next : ι → Option ι) : Option ι → List ι → Prop
  | head, [] => head = none
  | head, a :: l => head = some a ∧ Links next (next a) l

/-- Follow the links from `a` to the last element; `none` when `fuel` elements are
not enough. -/
def lastLink (next : ι → Option ι) : Nat → ι → Option ι
  | 0, _ => none
  | fuel + 1, a =>
    match next a with
    | none => some a
    | some b => lastLink next fuel b

/-- The element is on the way of the links from `head` on. -/
inductive Reaches (next : ι → Option ι) : Option ι → ι → Prop
  | here (a : ι) : Reaches next (some a) a
  | there {a b : ι} (h : Reaches next (next a) b) : Reaches next (some a) b

namespace Links

variable {next next' : ι → Option ι} {head : Option ι} {l : List ι} {a b : ι}

theorem head_eq (h : Links next head l) : head = l.head? := by
  cases l with
  | nil => exact h
  | cons a l => exact h.1

/-- Links outside of the list do not matter. -/
theorem congr (h : Links next head l) (hsame : ∀ a ∈ l, next' a = next a) : Links next' head l := by
  induction l generalizing head with
  | nil => exact h
  | cons a l ih =>
    refine ⟨h.1, ?_⟩
    rw [hsame a List.mem_cons_self]
    exact ih h.2 fun b hb => hsame b (List.mem_cons_of_mem a hb)

/-- An element is reached if the links before it are those of the list. -/
theorem reaches {l' : List ι} (h : Links next head (l ++ a :: l')) (hsame : ∀ b ∈ l, next' b = next b) :
    Reaches next' head a := by
  induction l generalizing head with
  | nil =>
    rw [h.1]
    exact .here a
  | cons b l ih =>
    rw [h.1]
    refine .there ?_
    rw [hsame b List.mem_cons_self]
    exact ih h.2 fun c hc => hsame c (List.mem_cons_of_mem b hc)

theorem lastLink_eq (h : Links next (some a) l) {fuel : Nat} (hfuel : l.length ≤ fuel) :
    ∃ tail, lastLink next fuel a = some tail ∧ l.getLast? = some tail := by
  induction l generalizing a fuel with
  | nil => cases h
  | cons b l ih =>
    obtain ⟨hhead, hrest⟩ := h
    obtain rfl : a = b := Option.some.inj hhead
    cases fuel with
    | zero => cases hfuel
    | succ fuel =>
      cases hnext : next a with
      | none =>
        rw [hnext] at hrest
        have hnil : l = [] := List.head?_eq_none_iff.mp hrest.head_eq.symm
        exact ⟨a, by rw [lastLink, hnext], by rw [hnil]; rfl⟩
      | some b =>
        rw [hnext] at hrest
        obtain ⟨tail, hlast, htail⟩ := ih hrest (Nat.le_of_succ_le_succ hfuel)
        refine ⟨tail, by rw [lastLink, hnext]; exact hlast, ?_⟩
        rw [List.getLast?_cons, htail]
        rfl

theorem snoc [DecidableEq ι] (h : Links next head l) (hlast : l.getLast? = some b)
    (hnodup : l.Nodup) (hnew : a ∉ l) (hend : next a = none) :
    Links (Function.update next b (some a)) head (l ++ [a]) := by
  induction l generalizing head with
  | nil => cases hlast
  | cons c l ih =>
    rw [List.nodup_cons] at hnodup
    refine ⟨h.1, ?_⟩
    have hne : a ≠ b := by
      rintro rfl
      exact hnew (List.mem_of_getLast? hlast)
    rw [List.getLast?_cons] at hlast
    cases hrest : l.getLast? with
    | none =>
      have hnil : l = [] := List.getLast?_eq_none_iff.mp hrest
      rw [hrest] at hlast
      obtain rfl : c = b := Option.some.inj hlast
      subst hnil
      refine ⟨Function.update_self .., ?_⟩
      rw [Links, Function.update_of_ne hne, hend]
    | some d =>
      rw [hrest] at hlast
      obtain rfl : d = b := Option.some.inj hlast
      have hcb : c ≠ d := by
        rintro rfl
        exact hnodup.1 (List.mem_of_getLast? hrest)
      rw [Function.update_of_ne hcb]
      exact ih h.2 hrest hnodup.2 fun hmem => hnew (List.mem_cons_of_mem c hmem)

end Links

end OreOS.Lib
