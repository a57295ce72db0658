import Mathlib.Algebra.Order.BigOperators.Group.Finset
import OreOS.Laws.Kernel.Edits

/-!
# The frames that mapping takes

`map_in_root` takes a frame of the pool for each table that is missing on the
way to a page of its range, and panics when the pool is empty before it is done.
The tables of a range are a finite set of paths, and the loop takes as many
frames as there are paths of that set without a table (`missing`). The count
composes because a link adds one path to the walks and removes none.
-/

namespace OreOS.Kernel

open OreOS.Lib (Word Exec)

variable {r : Frame} {top : Fin 512 → Prop} {s s' s'' : Machine} {P Q : Finset (List (Fin 512))}

/-- The paths of the tables below the root that lead to an address. -/
def tablesTo (virt : Word) : Finset (List (Fin 512)) :=
  {[tableIndex virt 39], [tableIndex virt 39, tableIndex virt 30],
    [tableIndex virt 39, tableIndex virt 30, tableIndex virt 21]}

theorem tablesTo_of_path {a b : Word} (h : tablePath a = tablePath b) : tablesTo a = tablesTo b := by
  simp only [tablePath, List.cons.injEq, and_true] at h
  rw [tablesTo, h.1, h.2.1, h.2.2]
  rfl

/-- The number of paths without a table. -/
def missing (s : Machine) (r : Frame) (P : Finset (List (Fin 512))) : Nat :=
  (P.filter fun q => tableWalk s r q = none).card

theorem length_of_mem_tablesTo {virt : Word} {q : List (Fin 512)} (h : q ∈ tablesTo virt) :
    q.length ≤ 3 := by
  simp only [tablesTo, Finset.mem_insert, Finset.mem_singleton] at h
  rcases h with rfl | rfl | rfl <;> simp

/-- The tables of `P` that were missing, and no others, are there, and each has
taken a frame. -/
structure Takes (r : Frame) (P : Finset (List (Fin 512))) (s s' : Machine) : Prop where
  absent : ∀ q, q.length ≤ 3 → (tableWalk s' r q = none ↔ tableWalk s r q = none ∧ q ∉ P)
  frames : s.pool.length = s'.pool.length + missing s r P

/-- What is missing of a union: what is missing of the first part, and of the
second after the first is there. -/
theorem Takes.missing_union (h : Takes r P s s') (hQ : ∀ q ∈ Q, q.length ≤ 3) :
    missing s r (P ∪ Q) = missing s r P + missing s' r Q := by
  unfold missing
  rw [← Finset.card_union_of_disjoint]
  · congr 1
    ext q
    simp only [Finset.mem_filter, Finset.mem_union]
    constructor
    · rintro ⟨hq, hnone⟩
      by_cases hP : q ∈ P
      · exact .inl ⟨hP, hnone⟩
      · have hmem := hq.resolve_left hP
        exact .inr ⟨hmem, (h.absent q (hQ q hmem)).mpr ⟨hnone, hP⟩⟩
    · rintro (⟨hP, hnone⟩ | ⟨hmem, hnone⟩)
      · exact ⟨.inl hP, hnone⟩
      · exact ⟨.inr hmem, ((h.absent q (hQ q hmem)).mp hnone).1⟩
  · rw [Finset.disjoint_left]
    intro q hq hq'
    rw [Finset.mem_filter] at hq hq'
    exact ((h.absent q (hQ q hq'.1)).mp hq'.2).2 hq.1

theorem Takes.trans (h : Takes r P s s') (h' : Takes r Q s' s'') (hQ : ∀ q ∈ Q, q.length ≤ 3) :
    Takes r (P ∪ Q) s s'' := by
  refine ⟨fun q hq => ?_, ?_⟩
  · rw [h'.absent q hq, h.absent q hq, Finset.mem_union]
    tauto
  · rw [h.missing_union hQ, h.frames, h'.frames]
    omega

theorem missing_mono (s : Machine) (r : Frame) (h : P ⊆ Q) : missing s r P ≤ missing s r Q :=
  Finset.card_le_card (Finset.filter_subset_filter _ h)

theorem Takes.short (h : Takes r P s s') (hQ : ∀ q ∈ Q, q.length ≤ 3)
    (hshort : s'.pool.length < missing s' r Q) : s.pool.length < missing s r (P ∪ Q) := by
  rw [h.missing_union hQ, h.frames]
  omega

/-! ## The walk that creates -/

/-- One level down: the table is there, or takes a frame, or there is none. -/
theorem nextTable_creates (h : Good r s) {p : List (Fin 512)} {f : Frame} {i : Fin 512}
    {flags : Word} (hp : p.length < 3) (hf : tableWalk s r p = some f)
    (htop : ∀ a ∈ (p ++ [i]).head?, top a) (hflags : flags &&& pteAddrMask = 0) :
    (∃ g s', nextTable f i true flags s = (.ok (some g.val), s') ∧ Links r top s s' ∧
      tableWalk s' r (p ++ [i]) = some g ∧ Takes r {p ++ [i]} s s') ∨
    (nextTable f i true flags s = (.error "VMM: no page table memory", s) ∧
      s.pool.length < missing s r {p ++ [i]}) := by
  have hwalk : tableWalk s r (p ++ [i]) = child (entries s.mem f i) := OreOS.Lib.Radix.walk_snoc hf
  have hmissing : missing s r {p ++ [i]} = if child (entries s.mem f i) = none then 1 else 0 := by
    rw [missing, Finset.filter_singleton, hwalk]
    split <;> rfl
  cases hc : child (entries s.mem f i) with
  | some g =>
    rw [hc] at hwalk hmissing
    have hnull : g ≠ nullFrame := by
      rintro rfl
      exact h.null _ (by simp; omega) hwalk
    refine .inl ⟨g, s, by rw [nextTable_child hc, ptr_frame hnull], .refl, hwalk,
      fun q hq => ?_, ?_⟩
    · refine (and_iff_left_of_imp fun hnone hq' => ?_).symm
      rw [Finset.mem_singleton.mp hq', hwalk] at hnone
      cases hnone
    · rw [hmissing]
      rfl
  | none =>
    rw [hc, if_pos rfl] at hmissing
    cases hpool : s.pool with
    | nil => exact .inr ⟨nextTable_panic hc hpool, by rw [hmissing]; exact Nat.one_pos⟩
    | cons page pool =>
      have hpage := h.alloc page (by rw [hpool]; exact List.mem_cons_self)
      have hlink := h.link hp hf hc hflags hpool hpage
      have hstep : LinkStep r top s (linked s f i page flags pool) :=
        ⟨p, f, i, page, flags, htop, hp, hf, hc, hflags, hpool, rfl⟩
      have hlinked : ∀ q : List (Fin 512), q.length ≤ 3 →
          tableWalk (linked s f i page flags pool) r q =
            if q = p ++ [i] then some ⟨page, hpage.aligned⟩ else tableWalk s r q := by
        intro q hq
        rw [tableWalk, entries_linked s f i hpage, hlink.walk_link hq]
      refine .inl ⟨⟨page, hpage.aligned⟩, _, nextTable_link hc hpool hpage hflags, .single hstep,
        ?_, fun q hq => ?_, ?_⟩
      · rw [hlinked _ (by simp; omega), if_pos rfl]
      · rw [hlinked q hq, Finset.mem_singleton]
        split
        next heq => simp [heq]
        next hne => exact (and_iff_left hne).symm
      · rw [hmissing, hpool]
        rfl

/-- The page-table walk that creates what is missing, with the frames it takes. -/
theorem pteForRoot_creates (h : Good r s) {virt flags : Word} (htop : top (tableIndex virt 39))
    (hflags : flags &&& pteAddrMask = 0) :
    (∃ pt s', pteForRoot r virt true flags s = (.ok (some (cell pt.val (leafIndex virt))), s') ∧
      Links r top s s' ∧ tableWalk s' r (tablePath virt) = some pt ∧ Takes r (tablesTo virt) s s') ∨
    (∃ s', pteForRoot r virt true flags s = (.error "VMM: no page table memory", s') ∧
      Links r top s s' ∧ s.pool.length < missing s r (tablesTo virt)) := by
  have htop' : ∀ p : List (Fin 512), ∀ i, (∃ q, p ++ [i] = tableIndex virt 39 :: q) →
      ∀ a ∈ (p ++ [i]).head?, top a := by
    rintro p i ⟨q, hq⟩ a ha
    rw [hq] at ha
    cases ha
    exact htop
  have hone : ∀ p : List (Fin 512), p.length ≤ 3 → ∀ q ∈ ({p} : Finset _), q.length ≤ 3 :=
    fun p hp q hq => Finset.mem_singleton.mp hq ▸ hp
  have hsplit : tablesTo virt = {[tableIndex virt 39]} ∪
      {[tableIndex virt 39, tableIndex virt 30]} ∪
        {[tableIndex virt 39, tableIndex virt 30, tableIndex virt 21]} := by
    ext q
    simp only [tablesTo, Finset.mem_insert, Finset.mem_union, Finset.mem_singleton, or_assoc]
  unfold pteForRoot
  rw [hsplit]
  rcases nextTable_creates h (p := []) (by decide) rfl (htop' _ _ ⟨[], rfl⟩) hflags with
    ⟨pdpt, s₁, h₁, hl₁, hw₁, ht₁⟩ | ⟨h₁, hshort⟩
  case inr =>
    refine .inr ⟨s, Exec.bind_error h₁, .refl, Nat.lt_of_lt_of_le hshort ?_⟩
    exact missing_mono s r (Finset.subset_union_left.trans Finset.subset_union_left)
  have g₁ := h.links hl₁
  rw [Exec.bind_ok h₁]
  rcases nextTable_creates g₁ (p := [tableIndex virt 39]) (by simp) hw₁
      (htop' _ _ ⟨[_], rfl⟩) hflags with ⟨pd, s₂, h₂, hl₂, hw₂, ht₂⟩ | ⟨h₂, hshort⟩
  case inr =>
    exact .inr ⟨s₁, Exec.bind_error h₂, hl₁, Nat.lt_of_lt_of_le (ht₁.short (hone _ (by simp)) hshort)
      (missing_mono s r Finset.subset_union_left)⟩
  have g₂ := g₁.links hl₂
  have ht₁₂ := ht₁.trans ht₂ (hone _ (by simp))
  dsimp only
  rw [Exec.bind_ok h₂]
  rcases nextTable_creates g₂ (p := [tableIndex virt 39, tableIndex virt 30]) (by simp) hw₂
      (htop' _ _ ⟨[_, _], rfl⟩) hflags with ⟨pt, s₃, h₃, hl₃, hw₃, ht₃⟩ | ⟨h₃, hshort⟩
  case inr =>
    exact .inr ⟨s₂, Exec.bind_error h₃, hl₁.trans hl₂, ht₁₂.short (hone _ (by simp)) hshort⟩
  dsimp only
  rw [Exec.bind_ok h₃]
  exact .inl ⟨pt, s₃, rfl, (hl₁.trans hl₂).trans hl₃, hw₃, ht₁₂.trans ht₃ (hone _ (by simp))⟩

end OreOS.Kernel
