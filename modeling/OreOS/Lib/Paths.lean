import Mathlib.Data.List.DropRight

/-!
# Paths

A path is a list with separators. It is canonical if no component is empty, which
is to say that none of it is: no separator at its ends and no two in a row. A path
with a separator splits at its last one into the path of its parent and a last
component.
-/

namespace OreOS.Lib

variable {α : Type} [DecidableEq α] {sep : α} {p q r : List α}

/-- No component is empty. -/
def Canonical (sep : α) (p : List α) : Prop :=
  [] ∉ p.splitOn sep

instance (sep : α) (p : List α) : Decidable (Canonical sep p) :=
  inferInstanceAs (Decidable (_ ∉ _))

theorem sep_notMem_splitOn : ∀ c ∈ p.splitOn sep, sep ∉ c := by
  induction p with
  | nil => simp
  | cons x p ih =>
    rw [List.splitOn_cons_eq_if_modifyHead]
    split
    next =>
      refine List.forall_mem_cons.mpr ⟨List.not_mem_nil, ih⟩
    next hx =>
      cases hp : p.splitOn sep with
      | nil => simp
      | cons c cs =>
        rw [hp] at ih
        obtain ⟨hc, hcs⟩ := List.forall_mem_cons.mp ih
        refine List.forall_mem_cons.mpr ⟨?_, hcs⟩
        rw [List.mem_cons, not_or]
        exact ⟨fun heq => hx (beq_iff_eq.mpr heq.symm), hc⟩

/-- The components of `p`, and then more. -/
def Above (sep : α) (p q : List α) : Prop :=
  p ++ [sep] <+: q

instance (sep : α) (p q : List α) : Decidable (Above sep p q) :=
  inferInstanceAs (Decidable (_ <+: _))

/-- What is behind the last separator. -/
def lastPart (sep : α) (p : List α) : List α :=
  p.rtakeWhile (· ≠ sep)

/-- What is before the last separator. -/
def parentPart (sep : α) (p : List α) : List α :=
  (p.rdropWhile (· ≠ sep)).dropLast

theorem canonical_append : Canonical sep (p ++ sep :: q) ↔ Canonical sep p ∧ Canonical sep q := by
  rw [Canonical, List.splitOn_append_cons_self, List.mem_append, not_or]
  rfl

theorem not_canonical_nil : ¬ Canonical sep ([] : List α) := by
  intro h
  exact h List.mem_cons_self

theorem Canonical.ne_nil (h : Canonical sep p) : p ≠ [] := by
  rintro rfl
  exact not_canonical_nil h

theorem Canonical.not_sep_cons : ¬ Canonical sep (sep :: p) := by
  intro h
  rw [← List.nil_append (sep :: p), canonical_append] at h
  exact not_canonical_nil h.1

theorem Canonical.not_append_sep : ¬ Canonical sep (p ++ [sep]) := by
  rw [canonical_append]
  exact fun h => not_canonical_nil h.2

theorem Canonical.getLast?_ne (h : Canonical sep p) : p.getLast? ≠ some sep := by
  intro hlast
  rw [← List.dropLast_append_getLast? sep hlast] at h
  exact not_append_sep h

omit [DecidableEq α] in
theorem above_iff : Above sep p q ↔ ∃ r, q = p ++ sep :: r := by
  constructor
  · rintro ⟨r, rfl⟩
    exact ⟨r, (List.append_cons p sep r).symm⟩
  · rintro ⟨r, rfl⟩
    exact ⟨r, (List.append_cons p sep r).symm⟩

omit [DecidableEq α] in
theorem Above.trans (h : Above sep p q) (h' : Above sep q r) : Above sep p r := by
  obtain ⟨x, rfl⟩ := above_iff.mp h
  obtain ⟨y, rfl⟩ := above_iff.mp h'
  exact above_iff.mpr ⟨x ++ sep :: y, by rw [List.append_assoc, List.cons_append]⟩

theorem ne_sep_of_not_mem (hr : sep ∉ r) : ∀ x ∈ r, decide (x ≠ sep) = true := by
  intro x hx
  rw [decide_eq_true_eq]
  rintro rfl
  exact hr hx

theorem takeWhile_append_sep (hp : sep ∉ p) : (p ++ sep :: q).takeWhile (· ≠ sep) = p := by
  rw [List.takeWhile_append_of_pos (ne_sep_of_not_mem hp), List.takeWhile_cons_of_neg (by simp),
    List.append_nil]

theorem takeWhile_of_not_mem (hp : sep ∉ p) : p.takeWhile (· ≠ sep) = p :=
  List.takeWhile_eq_self_iff.mpr (ne_sep_of_not_mem hp)

theorem lastPart_append (hr : sep ∉ r) : lastPart sep (p ++ sep :: r) = r := by
  have hall := ne_sep_of_not_mem fun h => hr (List.mem_reverse.mp h)
  rw [lastPart, List.rtakeWhile, List.reverse_append, List.reverse_cons, List.append_assoc,
    List.takeWhile_append_of_pos hall, List.singleton_append,
    List.takeWhile_cons_of_neg (by simp), List.append_nil, List.reverse_reverse]

theorem parentPart_append (hr : sep ∉ r) : parentPart sep (p ++ sep :: r) = p := by
  have hall := ne_sep_of_not_mem fun h => hr (List.mem_reverse.mp h)
  rw [parentPart, List.rdropWhile, List.reverse_append, List.reverse_cons, List.append_assoc,
    List.dropWhile_append_of_pos hall, List.singleton_append,
    List.dropWhile_cons_of_neg (by simp), List.reverse_cons, List.reverse_reverse,
    List.dropLast_concat]

/-- A list with the separator splits at its last one. -/
theorem exists_last (h : sep ∈ p) : ∃ q r, p = q ++ sep :: r ∧ sep ∉ r := by
  induction p with
  | nil => cases h
  | cons x p ih =>
    by_cases hp : sep ∈ p
    · obtain ⟨q, r, rfl, hr⟩ := ih hp
      exact ⟨x :: q, r, rfl, hr⟩
    · obtain rfl := (List.mem_cons.mp h).resolve_right hp
      exact ⟨[], p, rfl, hp⟩

/-- The first component of a list, and whether more follows. -/
theorem takeWhile_first (sep : α) (p : List α) :
    sep ∉ p.takeWhile (· ≠ sep) ∧ (p.takeWhile (· ≠ sep) = p ∨
      ∃ r, p = p.takeWhile (· ≠ sep) ++ sep :: r) := by
  induction p with
  | nil => exact ⟨List.not_mem_nil, .inl rfl⟩
  | cons x p ih =>
    by_cases hx : x = sep
    · subst hx
      rw [List.takeWhile_cons_of_neg (by simp)]
      exact ⟨List.not_mem_nil, .inr ⟨p, rfl⟩⟩
    · rw [List.takeWhile_cons_of_pos (by simpa using hx)]
      refine ⟨?_, ?_⟩
      · rw [List.mem_cons, not_or]
        exact ⟨Ne.symm hx, ih.1⟩
      · rcases ih.2 with heq | ⟨r, hr⟩
        · exact .inl (congrArg _ heq)
        · exact .inr ⟨r, congrArg (x :: ·) hr⟩

end OreOS.Lib
