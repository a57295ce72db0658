import Mathlib.Algebra.Order.BigOperators.Group.Finset

/-!
# Bitmaps

A bitmap is a bit at every index; a set bit means that the index is taken. The
indices below a bound whose bit is clear are a finite set (`free`), and what
setting and clearing do to the bitmap is what `erase` and `insert` do to it.
An allocator that counts its clear bits counts this set. In memory eight bits are
a byte (`byte`), and a bit is set or cleared in its byte.
-/

namespace OreOS.Lib

abbrev Bits := Nat → Bool

namespace Bits

def set (b : Bits) (p : Nat) : Bits := Function.update b p true

def clear (b : Bits) (p : Nat) : Bits := Function.update b p false

/-- The indices below `n` whose bit is clear. -/
def free (b : Bits) (n : Nat) : Finset Nat :=
  (Finset.range n).filter fun p => b p = false

variable {b : Bits} {n p q : Nat}

theorem mem_free : p ∈ free b n ↔ p < n ∧ b p = false := by
  simp [free]

@[simp] theorem set_apply : set b p q = (b q || decide (q = p)) := by
  unfold set
  by_cases h : q = p
  · subst h
    simp
  · simp [h]

@[simp] theorem clear_apply : clear b p q = (b q && decide (q ≠ p)) := by
  unfold clear
  by_cases h : q = p
  · subst h
    simp
  · simp [h]

theorem free_set : free (set b p) n = (free b n).erase p := by
  ext q
  simp only [mem_free, set_apply, Finset.mem_erase, Bool.or_eq_false_iff, decide_eq_false_iff_not]
  tauto

theorem free_clear (h : p < n) : free (clear b p) n = insert p (free b n) := by
  ext q
  simp only [mem_free, clear_apply, Finset.mem_insert, Bool.and_eq_false_iff,
    decide_eq_false_iff_not, not_not]
  constructor
  · rintro ⟨hq, hb | rfl⟩
    · exact .inr ⟨hq, hb⟩
    · exact .inl rfl
  · rintro (rfl | ⟨hq, hb⟩)
    · exact ⟨h, .inr rfl⟩
    · exact ⟨hq, .inl hb⟩

theorem card_free_set (h : p < n) (hb : b p = false) :
    (free (set b p) n).card + 1 = (free b n).card := by
  rw [free_set]
  exact Finset.card_erase_add_one (mem_free.mpr ⟨h, hb⟩)

theorem card_free_clear (h : p < n) (hb : b p = true) :
    (free (clear b p) n).card = (free b n).card + 1 := by
  rw [free_clear h]
  refine Finset.card_insert_of_notMem fun hmem => ?_
  rw [(mem_free.mp hmem).2] at hb
  cases hb

theorem card_free_le : (free b n).card ≤ n := by
  calc (free b n).card ≤ (Finset.range n).card := Finset.card_filter_le _ _
    _ = n := Finset.card_range n

/-! ## Bytes -/

/-- Byte `i`: the bit of `p` is bit `p % 8` of byte `p / 8`. -/
def byte (b : Bits) (i : Nat) : BitVec 8 :=
  (BitVec.ofBoolListLE ((List.range 8).map fun k => b (8 * i + k))).setWidth 8

variable {i : Nat}

theorem getLsbD_byte {k : Nat} (hk : k < 8) : (b.byte i).getLsbD k = b (8 * i + k) := by
  rw [byte, BitVec.getLsbD_setWidth, BitVec.getLsbD_ofBoolListLE]
  simp [hk]

/-- A byte is known by its eight bits. -/
theorem byte_eq {v : BitVec 8} (h : ∀ k < 8, b (8 * i + k) = v.getLsbD k) : b.byte i = v := by
  refine BitVec.eq_of_getLsbD_eq fun k hk => ?_
  rw [getLsbD_byte hk, h k hk]

/-- The mask of a bit in its byte. -/
theorem getLsbD_twoPow_mod {k : Nat} (_ : k < 8) :
    (BitVec.twoPow 8 (p % 8)).getLsbD k = decide (8 * (p / 8) + k = p) := by
  rw [BitVec.getLsbD_twoPow, decide_eq_true (Nat.mod_lt _ (by decide)), Bool.true_and,
    decide_eq_decide]
  omega

/-- To set a bit is to set it in its byte. -/
theorem byte_set (b : Bits) (p i : Nat) : (b.set p).byte i =
    if i = p / 8 then b.byte i ||| BitVec.twoPow 8 (p % 8) else b.byte i := by
  refine byte_eq fun k hk => ?_
  rw [set_apply]
  split
  next h => rw [BitVec.getLsbD_or, getLsbD_byte hk, getLsbD_twoPow_mod hk, h]
  next h => rw [getLsbD_byte hk, decide_eq_false (by omega), Bool.or_false]

/-- To clear a bit is to clear it in its byte. -/
theorem byte_clear (b : Bits) (p i : Nat) : (b.clear p).byte i =
    if i = p / 8 then b.byte i &&& ~~~BitVec.twoPow 8 (p % 8) else b.byte i := by
  refine byte_eq fun k hk => ?_
  rw [clear_apply]
  split
  next h =>
    rw [BitVec.getLsbD_and, BitVec.getLsbD_not, getLsbD_byte hk, getLsbD_twoPow_mod hk, h]
    simp [hk]
  next h => rw [getLsbD_byte hk, decide_eq_true (by omega), Bool.and_true]

/-- To test a bit is to test it in its byte. -/
theorem byte_test (b : Bits) (p : Nat) :
    b.byte (p / 8) &&& BitVec.twoPow 8 (p % 8) ≠ 0 ↔ b p = true := by
  have hmod : p % 8 < 8 := Nat.mod_lt _ (by decide)
  rw [BitVec.and_twoPow, getLsbD_byte hmod, Nat.div_add_mod]
  split
  next h =>
    refine iff_of_true (fun hzero => ?_) h
    simpa [hmod] using congrArg (fun v => v.getLsbD (p % 8)) hzero
  next h => simp [h]

/-! ## Several bits -/

def setAll (b : Bits) (ps : List Nat) : Bits := ps.foldl set b

theorem setAll_apply (ps : List Nat) (b : Bits) (q : Nat) :
    setAll b ps q = (b q || decide (q ∈ ps)) := by
  induction ps generalizing b with
  | nil => simp [setAll]
  | cons p ps ih =>
    rw [show setAll b (p :: ps) = setAll (set b p) ps from rfl, ih, set_apply, Bool.or_assoc]
    congr 1
    simp

theorem card_free_setAll {ps : List Nat} (hnodup : ps.Nodup)
    (hclear : ∀ p ∈ ps, p < n ∧ b p = false) :
    (free (setAll b ps) n).card + ps.length = (free b n).card := by
  induction ps generalizing b with
  | nil => rfl
  | cons p ps ih =>
    obtain ⟨hp, hps⟩ := List.nodup_cons.mp hnodup
    have hhead := hclear p (by simp)
    have htail : ∀ q ∈ ps, q < n ∧ set b p q = false := by
      intro q hq
      have hne : q ≠ p := fun heq => hp (heq ▸ hq)
      have hold := hclear q (List.mem_cons_of_mem _ hq)
      exact ⟨hold.1, by simp [hold.2, hne]⟩
    have hrest := ih hps htail
    have hone := card_free_set hhead.1 hhead.2
    rw [show setAll b (p :: ps) = setAll (set b p) ps from rfl, List.length_cons]
    omega

end Bits

end OreOS.Lib
