import Mathlib.Data.List.Basic
import OreOS.Lib.Word

/-!
# Byte buffers

A buffer is a byte at every index. Bytes are put over it from an index on:
appending is putting at the end, patching is putting further down, and both
leave alone what they do not cover.
-/

namespace OreOS.Lib

abbrev Buf := Nat → Byte

namespace Buf

/-- Lay `bs` over the buffer from index `a` on. -/
def put (b : Buf) (a : Nat) (bs : List Byte) : Buf := fun i =>
  if a ≤ i then (bs[i - a]?).getD (b i) else b i

/-- The bytes from index `a` on are `bs`. -/
def Holds (b : Buf) (a : Nat) (bs : List Byte) : Prop :=
  ∀ i, (h : i < bs.length) → b (a + i) = bs[i]

instance (b : Buf) (a : Nat) (bs : List Byte) : Decidable (Holds b a bs) :=
  inferInstanceAs (Decidable (∀ i, (h : i < bs.length) → b (a + i) = bs[i]))

variable {b b' : Buf} {a i : Nat} {bs cs : List Byte}

theorem put_below (h : i < a) : b.put a bs i = b i :=
  if_neg (Nat.not_le.mpr h)

theorem put_above (h : a + bs.length ≤ i) : b.put a bs i = b i := by
  rw [put]
  split
  · rw [List.getElem?_eq_none (by omega), Option.getD_none]
  · rfl

theorem holds_put (b : Buf) (a : Nat) (bs : List Byte) : Holds (b.put a bs) a bs := by
  intro i hi
  rw [put, if_pos (Nat.le_add_right a i), Nat.add_sub_cancel_left, List.getElem?_eq_getElem hi,
    Option.getD_some]

theorem put_nil (b : Buf) (a : Nat) : b.put a [] = b :=
  funext fun i => by rw [put, List.getElem?_nil, Option.getD_none, ite_self]

theorem put_append (b : Buf) (a : Nat) (bs cs : List Byte) :
    b.put a (bs ++ cs) = (b.put a bs).put (a + bs.length) cs := by
  funext i
  by_cases hbelow : i < a
  · rw [put_below hbelow, put_below (by omega), put_below hbelow]
  · by_cases hin : i < a + bs.length
    · rw [put_below hin, put, put, if_pos (by omega), if_pos (by omega),
        List.getElem?_append_left (by omega)]
    · rw [put, put, if_pos (by omega), if_pos (by omega),
        List.getElem?_append_right (by omega), Nat.sub_sub, put_above (by omega)]

theorem Holds.congr (h : Holds b a bs) (heq : ∀ i, a ≤ i → i < a + bs.length → b' i = b i) :
    Holds b' a bs := fun i hi => by
  rw [heq (a + i) (by omega) (by omega), h i hi]

theorem holds_append : Holds b a (bs ++ cs) ↔ Holds b a bs ∧ Holds b (a + bs.length) cs := by
  constructor
  · intro h
    refine ⟨fun i hi => ?_, fun i hi => ?_⟩
    · rw [h i (by rw [List.length_append]; omega), List.getElem_append_left hi]
    · rw [Nat.add_assoc, h (bs.length + i) (by rw [List.length_append]; omega),
        List.getElem_append_right (Nat.le_add_right _ _)]
      simp
  · rintro ⟨h₁, h₂⟩ i hi
    rw [List.getElem_append]
    split
    next hlt => exact h₁ i hlt
    next hge =>
      have := h₂ (i - bs.length) (by rw [List.length_append] at hi; omega)
      rw [← this]
      congr 1
      omega

/-- Lay several runs of bytes over the buffer, one after the other. -/
def putAll (b : Buf) (runs : List (Nat × List Byte)) : Buf :=
  runs.foldl (fun b run => b.put run.1 run.2) b

theorem putAll_append (b : Buf) (runs runs' : List (Nat × List Byte)) :
    b.putAll (runs ++ runs') = (b.putAll runs).putAll runs' :=
  List.foldl_append

theorem putAll_outside {runs : List (Nat × List Byte)}
    (h : ∀ run ∈ runs, i < run.1 ∨ run.1 + run.2.length ≤ i) : b.putAll runs i = b i := by
  induction runs generalizing b with
  | nil => rfl
  | cons run runs ih =>
    have hrun : b.put run.1 run.2 i = b i := by
      rcases h run List.mem_cons_self with hbelow | habove
      · exact put_below hbelow
      · exact put_above habove
    exact (ih fun r hr => h r (List.mem_cons_of_mem _ hr)).trans hrun

/-- A run stays when nothing is laid over it. -/
theorem Holds.putAll {runs : List (Nat × List Byte)} (hb : Holds b a bs)
    (h : ∀ run ∈ runs, a + bs.length ≤ run.1 ∨ run.1 + run.2.length ≤ a) :
    Holds (b.putAll runs) a bs :=
  hb.congr fun i hi hi' => putAll_outside fun run hrun => by
    rcases h run hrun with hbelow | habove
    · exact .inl (by omega)
    · exact .inr (by omega)

/-- A run is there at the end when no later one is laid over it. -/
theorem holds_putAll (b : Buf) (runs runs' : List (Nat × List Byte)) (a : Nat) (bs : List Byte)
    (h : ∀ run ∈ runs', a + bs.length ≤ run.1 ∨ run.1 + run.2.length ≤ a) :
    Holds (b.putAll (runs ++ (a, bs) :: runs')) a bs := by
  rw [putAll_append]
  exact (holds_put (b.putAll runs) a bs).putAll h

theorem Holds.unique (h : Holds b a bs) (h' : Holds b a cs) (hlen : bs.length = cs.length) :
    bs = cs :=
  List.ext_getElem hlen fun i hi hi' => (h i hi).symm.trans (h' i hi')

end Buf

end OreOS.Lib
