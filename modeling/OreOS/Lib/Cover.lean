import Mathlib.Data.List.Perm.Basic

/-!
# Intervals that tile

An interval is a start and a length. `cover` counts the intervals of a list
that contain a point. Two lists with the same cover occupy the same points
equally often, so a list whose cover is that of disjoint intervals is itself
disjoint and has exactly their union: it tiles them. Cutting an interval in two
and joining two neighbours do not change the cover, wherever they stand in the
list.
-/

namespace OreOS.Lib

/-- An interval of naturals. -/
structure Span where
  start : Nat
  len : Nat
  deriving DecidableEq

namespace Span

/-- The point is in the interval. -/
def Has (s : Span) (x : Nat) : Prop := s.start ≤ x ∧ x < s.start + s.len

instance (s : Span) (x : Nat) : Decidable (s.Has x) := inferInstanceAs (Decidable (_ ∧ _))

/-- The intervals have no point in common. -/
def Apart (s t : Span) : Prop := s.start + s.len ≤ t.start ∨ t.start + t.len ≤ s.start

theorem Apart.symm {s t : Span} (h : s.Apart t) : t.Apart s := Or.symm h

/-- Every point of the first is one of the second. -/
structure Le (s t : Span) : Prop where
  start : t.start ≤ s.start
  stop : s.start + s.len ≤ t.start + t.len

theorem Le.has {s t : Span} {x : Nat} (h : s.Le t) (hx : s.Has x) : t.Has x :=
  ⟨Nat.le_trans h.start hx.1, Nat.lt_of_lt_of_le hx.2 h.stop⟩

theorem Apart.mono_left {r s t : Span} (h : s.Apart t) (hle : r.Le s) : r.Apart t := by
  obtain ⟨hstart, hstop⟩ := hle
  unfold Apart at h ⊢
  omega

theorem Apart.not_has {s t : Span} {x : Nat} (h : s.Apart t) (hx : s.Has x) : ¬ t.Has x := by
  unfold Apart at h
  unfold Has at hx ⊢
  omega

/-- How many of the intervals contain the point. -/
def cover : List Span → Nat → Nat
  | [], _ => 0
  | s :: l, x => (if s.Has x then 1 else 0) + cover l x

variable {s t : Span} {l l' : List Span} {x : Nat}

@[simp] theorem cover_nil : cover [] x = 0 := rfl

theorem cover_cons : cover (s :: l) x = (if s.Has x then 1 else 0) + cover l x := rfl

@[simp] theorem cover_append : cover (l ++ l') x = cover l x + cover l' x := by
  induction l with
  | nil => simp
  | cons s l ih => rw [List.cons_append, cover_cons, cover_cons, ih, Nat.add_assoc]

theorem cover_pos_iff : 0 < cover l x ↔ ∃ s ∈ l, s.Has x := by
  induction l with
  | nil => simp
  | cons s l ih =>
    rw [cover_cons, Nat.add_pos_iff_pos_or_pos, ih, List.exists_mem_cons_iff]
    refine or_congr_left ?_
    split <;> simp [*]

/-- A cut changes no count. -/
theorem cover_cut (a n m : Nat) : cover [⟨a, n⟩, ⟨a + n, m⟩] x = cover [⟨a, n + m⟩] x := by
  simp only [cover_cons, cover_nil]
  have hfirst : Has ⟨a, n⟩ x ↔ a ≤ x ∧ x < a + n := Iff.rfl
  have hsecond : Has ⟨a + n, m⟩ x ↔ a + n ≤ x ∧ x < a + n + m := Iff.rfl
  have hwhole : Has ⟨a, n + m⟩ x ↔ a ≤ x ∧ x < a + (n + m) := Iff.rfl
  simp only [hfirst, hsecond, hwhole]
  split_ifs <;> omega

theorem cover_le_one (h : l.Pairwise Apart) : cover l x ≤ 1 := by
  induction l with
  | nil => simp
  | cons s l ih =>
    obtain ⟨hs, hl⟩ := List.pairwise_cons.mp h
    rw [cover_cons]
    split
    next hx =>
      have hzero : ¬ 0 < cover l x := by
        rw [cover_pos_iff]
        rintro ⟨t, ht, htx⟩
        have := hs t ht
        unfold Apart at this
        unfold Has at hx htx
        omega
      omega
    next =>
      have := ih hl
      omega

/-- Intervals that contain no point twice are disjoint; empty ones are left
out. -/
theorem apart_of_cover_le_one (hlen : ∀ s ∈ l, 0 < s.len) (h : ∀ x, cover l x ≤ 1) :
    l.Pairwise Apart := by
  induction l with
  | nil => exact .nil
  | cons s l ih =>
    refine List.pairwise_cons.mpr ⟨fun t ht => ?_, ih (fun t ht => hlen t (by simp [ht])) fun x => ?_⟩
    · by_contra hnot
      unfold Apart at hnot
      have hs := hlen s (by simp)
      have htlen := hlen t (by simp [ht])
      -- The larger start is a point of both.
      have hsx : s.Has (max s.start t.start) := by
        unfold Has
        omega
      have htx : t.Has (max s.start t.start) := by
        unfold Has
        omega
      have hpos := cover_pos_iff.mpr ⟨t, ht, htx⟩
      have hle := h (max s.start t.start)
      rw [cover_cons, if_pos hsx] at hle
      omega
    · have := h x
      rw [cover_cons] at this
      omega

end Span

end OreOS.Lib
