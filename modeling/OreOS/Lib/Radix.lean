import Mathlib.Data.List.Basic

/-!
# Radix trees in memory

Tables are frames of entries, and a walk follows a path of indices from a root
through the child tables: `child` decodes an entry, `present` tells a leaf entry
that maps something. In a `Tree` different paths lead to different frames. Then
writing a leaf entry changes no walk and no other lookup (`walk_set_leaf`,
`find_set_leaf`), and linking a cleared fresh table changes no lookup at all
(`find_link`).
-/

namespace OreOS.Lib.Radix

variable {F I E : Type}

/-- Follow a path of indices from the table `f`. -/
def walk (child : E → Option F) (μ : F → I → E) (f : F) : List I → Option F
  | [] => some f
  | i :: p => (child (μ f i)).bind fun g => walk child μ g p

/-- The leaf entry behind a path, when it is present. -/
def find (child : E → Option F) (present : E → Bool) (μ : F → I → E) (r : F) (p : List I) (i : I) :
    Option E :=
  (walk child μ r p).bind fun f => if present (μ f i) then some (μ f i) else none

variable {child : E → Option F} {present : E → Bool} {μ μ' : F → I → E} {f g r r' : F}
  {p q : List I} {i j : I} {n : Nat}

@[simp] theorem walk_nil : walk child μ f [] = some f := rfl

theorem walk_cons : walk child μ f (i :: p) = (child (μ f i)).bind fun g => walk child μ g p := rfl

theorem walk_append : walk child μ f (p ++ q) = (walk child μ f p).bind (walk child μ · q) := by
  induction p generalizing f with
  | nil => rfl
  | cons i p ih =>
    rw [List.cons_append, walk_cons, walk_cons]
    cases child (μ f i) with
    | none => rfl
    | some g => exact ih

theorem walk_snoc (h : walk child μ r p = some f) :
    walk child μ r (p ++ [i]) = child (μ f i) := by
  rw [walk_append, h]
  show walk child μ f [i] = _
  rw [walk_cons]
  cases child (μ f i) <;> rfl

theorem walk_congr
    (h : ∀ q i q', p = q ++ i :: q' → ∀ g, walk child μ f q = some g → μ' g i = μ g i) :
    walk child μ' f p = walk child μ f p := by
  induction p generalizing f with
  | nil => rfl
  | cons i p ih =>
    rw [walk_cons, walk_cons, h [] i p rfl f rfl]
    cases hc : child (μ f i) with
    | none => rfl
    | some g =>
      refine ih fun q j q' hq k hk => h (i :: q) j q' (by rw [hq]; rfl) k ?_
      rw [walk_cons, hc]
      exact hk

theorem find_congr
    (h : ∀ q j q', p ++ [i] = q ++ j :: q' → ∀ g, walk child μ f q = some g → μ' g j = μ g j) :
    find child present μ' f p i = find child present μ f p i := by
  have hw : walk child μ' f p = walk child μ f p :=
    walk_congr fun q j q' hq => h q j (q' ++ [i]) (by rw [hq]; simp)
  rw [find, find, hw]
  cases hg : walk child μ f p with
  | none => rfl
  | some g =>
    dsimp only [Option.bind_some]
    rw [h p i [] rfl g hg]

/-- Up to depth `n` different paths lead to different frames. -/
def Tree (child : E → Option F) (μ : F → I → E) (r : F) (n : Nat) : Prop :=
  ∀ p q f, p.length ≤ n → q.length ≤ n → walk child μ r p = some f → walk child μ r q = some f →
    p = q

variable [DecidableEq F]

/-- Fill a table with one entry. -/
def fill (μ : F → I → E) (f : F) (e : E) : F → I → E :=
  fun g j => if g = f then e else μ g j

theorem fill_self (e : E) : fill μ f e f j = e := by
  simp [fill]

theorem fill_of_ne {e : E} (h : g ≠ f) : fill μ f e g j = μ g j := by
  rw [fill, if_neg h]

variable [DecidableEq I]

/-- Write one entry. -/
def setEntry (μ : F → I → E) (f : F) (i : I) (e : E) : F → I → E :=
  fun g j => if g = f ∧ j = i then e else μ g j

theorem setEntry_self (e : E) : setEntry μ f i e f i = e := by
  simp [setEntry]

theorem setEntry_of_ne {e : E} (h : g ≠ f ∨ j ≠ i) : setEntry μ f i e g j = μ g j := by
  rw [setEntry, if_neg]
  rintro ⟨rfl, rfl⟩
  cases h with
  | inl h => exact h rfl
  | inr h => exact h rfl

/-! ## Writing a leaf -/

section Leaf

variable {e : E}

section

variable (ht : Tree child μ r n) (hp : p.length = n) (hf : walk child μ r p = some f)
include ht hp hf

/-- No walk reads the tables at depth `n`. -/
theorem walk_set_leaf (hq : q.length ≤ n) :
    walk child (setEntry μ f i e) r q = walk child μ r q := by
  refine walk_congr fun q₁ j q₂ hq' g hg => setEntry_of_ne (.inl ?_)
  rintro rfl
  have hlen : q₁.length < q.length := by
    rw [hq']
    simp
  have := ht q₁ p g (by omega) (by omega) hg hf
  subst this
  omega

theorem tree_set_leaf : Tree child (setEntry μ f i e) r n := by
  intro p' q' g hp' hq' hg hg'
  rw [walk_set_leaf ht hp hf hp'] at hg
  rw [walk_set_leaf ht hp hf hq'] at hg'
  exact ht p' q' g hp' hq' hg hg'

/-- The write is what the lookup of its own leaf finds. -/
theorem find_set_leaf_self :
    find child present (setEntry μ f i e) r p i = if present e then some e else none := by
  rw [find, walk_set_leaf ht hp hf (Nat.le_of_eq hp), hf, Option.bind_some, setEntry_self]

/-- The lookups of other leaves do not notice. -/
theorem find_set_leaf_of_ne (hq : q.length = n) (hne : q ≠ p ∨ j ≠ i) :
    find child present (setEntry μ f i e) r q j = find child present μ r q j := by
  rw [find, find, walk_set_leaf ht hp hf (Nat.le_of_eq hq)]
  cases hg : walk child μ r q with
  | none => rfl
  | some g =>
    dsimp only [Option.bind_some]
    rw [setEntry_of_ne]
    rcases hne with hne | hne
    · left
      rintro rfl
      exact hne (ht q p g (Nat.le_of_eq hq) (Nat.le_of_eq hp) hg hf)
    · exact .inr hne

end

end Leaf

/-! ## Linking a fresh table -/

/-- No path up to depth `n` leads to the frame. -/
def Fresh (child : E → Option F) (μ : F → I → E) (r : F) (n : Nat) (g : F) : Prop :=
  ∀ q, q.length ≤ n → walk child μ r q ≠ some g

/-- The table `g`, cleared to `e₀`, is linked under index `i` of the table `f`
at path `p`, which had no child there. -/
structure Link (child : E → Option F) (present : E → Bool) (μ : F → I → E) (r : F) (n : Nat)
    (p : List I) (f : F) (i : I) (g : F) (e e₀ : E) : Prop where
  tree : Tree child μ r n
  depth : p.length < n
  parent : walk child μ r p = some f
  vacant : child (μ f i) = none
  fresh : Fresh child μ r n g
  names : child e = some g
  empty : child e₀ = none
  absent : present e₀ = false

namespace Link

variable {e e₀ : E} (h : Link child present μ r n p f i g e e₀)
include h

omit [DecidableEq F] [DecidableEq I] in
theorem ne : f ≠ g := by
  rintro rfl
  exact h.fresh p (Nat.le_of_lt h.depth) h.parent

/-- An entry that a walk away from the new table reads is not touched. -/
theorem entry (hq : q.length ≤ n) (hw : walk child μ r q = some r') (hne : q ≠ p ∨ j ≠ i) :
    setEntry (fill μ g e₀) f i e r' j = μ r' j := by
  have hg : r' ≠ g := by
    rintro rfl
    exact h.fresh q hq hw
  rw [setEntry_of_ne, fill_of_ne hg]
  rcases hne with hne | hne
  · left
    rintro rfl
    exact hne (h.tree q p r' hq (Nat.le_of_lt h.depth) hw h.parent)
  · exact .inr hne

/-- The link adds the path of the new table to the walks and no other. -/
theorem walk_link (hq : q.length ≤ n) :
    walk child (setEntry (fill μ g e₀) f i e) r q =
      if q = p ++ [i] then some g else walk child μ r q := by
  -- a walk that does not go through the new entry reads what was there
  have away : ∀ q : List I, q.length ≤ n → (∀ q', q ≠ p ++ i :: q') →
      walk child (setEntry (fill μ g e₀) f i e) r q = walk child μ r q := by
    intro q hq hno
    refine walk_congr fun q₁ j q₂ hsplit k hk => h.entry ?_ hk ?_
    · rw [hsplit] at hq
      simp at hq
      omega
    · by_contra hcon
      simp only [not_or, not_not] at hcon
      obtain ⟨rfl, rfl⟩ := hcon
      exact hno q₂ hsplit
  by_cases hthrough : ∃ q', q = p ++ i :: q'
  · obtain ⟨q', rfl⟩ := hthrough
    have hp := away p (Nat.le_of_lt h.depth) fun q' hq' => by
      have := congrArg List.length hq'
      simp at this
    rw [walk_append, hp, h.parent, Option.bind_some, walk_cons, setEntry_self, h.names,
      Option.bind_some]
    cases q' with
    | nil => simp
    | cons j q' =>
      rw [if_neg (by simp), walk_append, h.parent, Option.bind_some, walk_cons, walk_cons,
        setEntry_of_ne (.inl h.ne.symm), fill_self, h.empty, h.vacant]
      rfl
  · rw [away q hq fun q' hq' => hthrough ⟨q', hq'⟩, if_neg]
    rintro rfl
    exact hthrough ⟨[], rfl⟩

theorem tree_link : Tree child (setEntry (fill μ g e₀) f i e) r n := by
  intro p' q' k hp' hq' hk hk'
  rw [h.walk_link hp'] at hk
  rw [h.walk_link hq'] at hk'
  split at hk
  next hpi =>
    split at hk'
    next hqi => rw [hpi, hqi]
    next =>
      cases hk
      exact absurd hk' (h.fresh q' hq')
  next =>
    split at hk'
    next =>
      cases hk'
      exact absurd hk (h.fresh p' hp')
    next => exact h.tree p' q' k hp' hq' hk hk'

/-- No lookup notices a link. -/
theorem find_link (hq : q.length = n) :
    find child present (setEntry (fill μ g e₀) f i e) r q j = find child present μ r q j := by
  rw [find, find, h.walk_link (Nat.le_of_eq hq)]
  split
  next hqi =>
    rw [hqi, walk_snoc h.parent, h.vacant, Option.bind_some, setEntry_of_ne (.inl h.ne.symm),
      fill_self, h.absent]
    rfl
  next =>
    cases hk : walk child μ r q with
    | none => rfl
    | some k =>
      dsimp only [Option.bind_some]
      rw [h.entry (Nat.le_of_eq hq) hk (.inl fun hqp => by have := h.depth; subst hqp; omega)]

end Link

end OreOS.Lib.Radix
