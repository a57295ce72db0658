import OreOS.Laws.Kernel.TableFrames

/-!
# Mapping, protecting and unmapping

The loops of `vmm.c` over the entries of one root. `pte s r a` is the present
leaf entry of an address, from which both the translation and the flags are
read; it depends on the page number in the low 48 bits of the address and on
nothing else. Each loop is a sequence of edits (`Edits`), writes the entries of
its own pages and leaves the entries of all others.
-/

namespace OreOS.Kernel

open OreOS.Lib (Word Mem Exec)
open OreOS.Lib.Radix (walk find Fresh walk_set_leaf find_set_leaf_self find_set_leaf_of_ne)
open Relation (ReflTransGen)

variable {r : Frame} {top : Fin 512 → Prop} {s s' : Machine} {flags : Word}

/-! ## Pages -/

/-- The page number that the table indices of an address encode. -/
def pageOf (a : Word) : Nat :=
  a.toNat / 4096 % 2 ^ 36

theorem tableIndex_val (a : Word) (k : Nat) : (tableIndex a k).val = a.toNat / 2 ^ k % 512 := by
  rw [tableIndex, Fin.val_ofNat, BitVec.toNat_ushiftRight, Nat.shiftRight_eq_div_pow]

theorem indices_eq_iff {a b : Word} :
    tablePath a = tablePath b ∧ leafIndex a = leafIndex b ↔ pageOf a = pageOf b := by
  simp only [tablePath, leafIndex, List.cons.injEq, and_true, Fin.ext_iff, tableIndex_val, pageOf]
  omega

/-- The present leaf entry of an address. -/
def pte (s : Machine) (r : Frame) (a : Word) : Option Word :=
  leafEntry s r (tablePath a) (leafIndex a)

theorem pte_congr {a b : Word} (h : pageOf a = pageOf b) : pte s r a = pte s r b := by
  obtain ⟨hp, hi⟩ := indices_eq_iff.mpr h
  rw [pte, pte, hp, hi]

/-! ## Reading -/

/-- What `vmm_virt_to_phys_in` makes of an entry. -/
def translation (a e : Word) : Word :=
  (e &&& pteAddrMask) ||| (a &&& 0xfff)

/-- What `vmm_flags` makes of an entry. -/
def entryFlags (e : Word) : Word :=
  e &&& ~~~pteAddrMask

section

variable (hnull : Fresh child (entries s.mem) r 3 nullFrame) (a : Word)
include hnull a

/-- A read through `pte_for_root` reads the present leaf entry, or answers
zero. -/
theorem read_pte (answer : Word → Word) :
    (do
      match ← pteForRoot r a false 0 with
      | none => return 0
      | some pte =>
        if (← load pte) &&& vmmPresent = 0 then return 0
        else return answer (← load pte) : Kern Word) s =
      (.ok ((pte s r a).elim 0 answer), s) := by
  rw [Exec.bind_ok (pteForRoot_looks hnull a)]
  simp only [tableWalk, pte, leafEntry, find]
  cases walk child (entries s.mem) r (tablePath a) with
  | none => rfl
  | some pt =>
    dsimp only [Option.map_some, Option.bind_some]
    rw [Exec.bind_ok (load_cell pt _ s)]
    by_cases hp : present (entries s.mem pt (leafIndex a)) = true
    · rw [if_pos hp, if_neg (by simpa [present] using hp), Exec.bind_ok (load_cell pt _ s)]
      rfl
    · rw [if_neg hp, if_pos (by simpa [present] using hp)]
      rfl

theorem vmmVirtToPhysIn_eq :
    vmmVirtToPhysIn r a s = (.ok ((pte s r a).elim 0 (translation a)), s) :=
  read_pte hnull a (translation a)

theorem vmmFlags_eq : vmmFlags r a s = (.ok ((pte s r a).elim 0 entryFlags), s) :=
  read_pte hnull a entryFlags

end

/-! ## Edits -/

/-- Links and leaf writes, one after the other. -/
abbrev Edits (r : Frame) (top : Fin 512 → Prop) : Machine → Machine → Prop :=
  ReflTransGen fun s s' => LinkStep r top s s' ∨ LeafStep r top s s'

theorem Links.edits (h : Links r top s s') : Edits r top s s' :=
  ReflTransGen.mono (fun _ _ => Or.inl) _ _ h

theorem Good.edits (h : Good r s) (hs : Edits r top s s') : Good r s' := by
  induction hs with
  | refl => exact h
  | tail _ hstep ih => exact hstep.elim ih.linkStep ih.leafStep

theorem Edits.pool (hs : Edits r top s s') : s'.pool <:+ s.pool := by
  induction hs with
  | refl => exact List.suffix_refl _
  | tail _ hstep ih =>
    refine List.IsSuffix.trans ?_ ih
    rcases hstep with ⟨_, _, _, page, _, _, _, _, _, _, hpool, _⟩ | ⟨_, _, _, _, _, _, _, rfl⟩
    · rw [hpool]
      exact List.suffix_cons page _
    · exact List.suffix_refl _

/-- The machine after a leaf write. -/
def writeLeaf (s : Machine) (pt : Frame) (i : Fin 512) (v : Word) : Machine :=
  s.write (cell pt i) (Mem.leBytes 8 v)

theorem writeLeaf_step {pt : Frame} {virt : Word} (v : Word) (htop : top (tableIndex virt 39))
    (hpt : tableWalk s r (tablePath virt) = some pt) :
    LeafStep r top s (writeLeaf s pt (leafIndex virt) v) := by
  refine ⟨tablePath virt, pt, leafIndex virt, v, fun a ha => ?_, rfl, hpt, rfl⟩
  cases ha
  exact htop

section

variable (h : Good r s) {pt : Frame} {virt a v : Word}
  (hpt : tableWalk s r (tablePath virt) = some pt)
include h hpt

theorem pte_writeLeaf_self (ha : pageOf a = pageOf virt) :
    pte (writeLeaf s pt (leafIndex virt) v) r a = if present v then some v else none := by
  rw [pte_congr ha, pte, leafEntry, writeLeaf, entries_write_cell]
  exact find_set_leaf_self h.tree rfl hpt

theorem pte_writeLeaf_of_ne (ha : pageOf a ≠ pageOf virt) :
    pte (writeLeaf s pt (leafIndex virt) v) r a = pte s r a := by
  rw [pte, pte, leafEntry, writeLeaf, entries_write_cell]
  refine find_set_leaf_of_ne h.tree rfl hpt rfl ?_
  rw [← not_and_or]
  exact fun heq => ha (indices_eq_iff.mp heq)

end

theorem pte_links (h : Good r s) (hs : Links r top s s') (a : Word) : pte s' r a = pte s r a :=
  h.leafEntry_links hs rfl _

/-! ## Mapping -/

theorem user_mask (flags : Word) : flags &&& vmmUser &&& pteAddrMask = 0 := by
  rw [BitVec.and_assoc]
  simp [vmmUser, pteAddrMask]

theorem present_pteValue (phys flags : Word) : present (pteValue phys flags) = true := by
  simp [present_eq_getLsbD, pteValue, vmmPresent]

/-- The address of round `k`. -/
abbrev roundAddr (addr : Word) (k : Nat) : Word :=
  addr + BitVec.ofNat 64 (4096 * k)

theorem roundAddr_succ (addr : Word) (k : Nat) :
    roundAddr (addr + 4096) k = roundAddr addr (k + 1) := by bv_omega

@[simp] theorem roundAddr_zero (addr : Word) : roundAddr addr 0 = addr :=
  BitVec.add_zero addr

/-- The pages of a loop are different pages. -/
def DistinctPages (addr : Word) (n : Nat) : Prop :=
  ∀ j < n, ∀ k < n, pageOf (roundAddr addr j) = pageOf (roundAddr addr k) → j = k

/-- The page of `a` is not among those of a loop. -/
def OutsidePages (addr : Word) (n : Nat) (a : Word) : Prop :=
  ∀ k < n, pageOf a ≠ pageOf (roundAddr addr k)

theorem OutsidePages.head {addr a : Word} {n : Nat} (h : OutsidePages addr (n + 1) a) :
    pageOf a ≠ pageOf addr := by
  simpa using h 0 (Nat.succ_pos n)

theorem OutsidePages.tail {addr a : Word} {n : Nat} (h : OutsidePages addr (n + 1) a) :
    OutsidePages (addr + 4096) n a := by
  intro k hk
  rw [roundAddr_succ]
  exact h (k + 1) (by omega)

theorem OutsidePages.cons {addr a : Word} {n : Nat} (h : OutsidePages (addr + 4096) n a)
    (hne : pageOf a ≠ pageOf addr) : OutsidePages addr (n + 1) a := by
  intro k hk
  cases k with
  | zero => rwa [roundAddr_zero]
  | succ k =>
    rw [← roundAddr_succ]
    exact h k (by omega)

/-- In a loop over different pages, what one of the rounds did to a page is what its own round
did. -/
theorem DistinctPages.of_round {P : Nat → Prop} {addr a : Word} {n k : Nat}
    (hd : DistinctPages addr n) (hk : k < n) (ha : pageOf a = pageOf (roundAddr addr k))
    (h : ¬ OutsidePages addr n a → ∃ j < n, pageOf a = pageOf (roundAddr addr j) ∧ P j) : P k := by
  obtain ⟨j, hj, haj, hP⟩ := h fun hout => hout k hk ha
  rwa [hd k hk j hj (ha.symm.trans haj)]

/-- The first index of every page of a loop meets `top`. -/
def TopPages (top : Fin 512 → Prop) (addr : Word) (n : Nat) : Prop :=
  ∀ k < n, top (tableIndex (roundAddr addr k) 39)

theorem TopPages.head {addr : Word} {n : Nat} (h : TopPages top addr (n + 1)) :
    top (tableIndex addr 39) := by
  simpa using h 0 (Nat.succ_pos n)

theorem TopPages.tail {addr : Word} {n : Nat} (h : TopPages top addr (n + 1)) :
    TopPages top (addr + 4096) n := by
  intro k hk
  rw [roundAddr_succ]
  exact h (k + 1) (by omega)

theorem topPages_true (addr : Word) (n : Nat) : TopPages (fun _ => True) addr n :=
  fun _ _ => trivial

/-- The paths of the tables that lead to the pages of a loop. -/
def tablesFor (addr : Word) (n : Nat) : Finset (List (Fin 512)) :=
  (Finset.range n).biUnion fun j => tablesTo (roundAddr addr j)

theorem length_of_mem_tablesFor {addr : Word} {n : Nat} {q : List (Fin 512)}
    (h : q ∈ tablesFor addr n) : q.length ≤ 3 := by
  obtain ⟨j, -, hj⟩ := Finset.mem_biUnion.mp h
  exact length_of_mem_tablesTo hj

theorem tablesFor_succ (addr : Word) (n : Nat) :
    tablesFor addr (n + 1) = tablesTo addr ∪ tablesFor (addr + 4096) n := by
  ext q
  simp only [tablesFor, Finset.mem_union, Finset.mem_biUnion, Finset.mem_range, roundAddr_succ]
  constructor
  · rintro ⟨j, hj, hq⟩
    cases j with
    | zero => exact .inl (by rwa [roundAddr_zero] at hq)
    | succ j => exact .inr ⟨j, by omega, hq⟩
  · rintro (hq | ⟨j, hj, hq⟩)
    · exact ⟨0, Nat.succ_pos n, by rwa [roundAddr_zero]⟩
    · exact ⟨j + 1, by omega, hq⟩

/-- Each page has three tables at most. -/
theorem missing_tablesFor_le (s : Machine) (r : Frame) (addr : Word) (n : Nat) :
    missing s r (tablesFor addr n) ≤ 3 * n := by
  refine (Finset.card_filter_le _ _).trans ((Finset.card_biUnion_le_card_mul _ _ 3 ?_).trans ?_)
  · exact fun j _ => Finset.card_le_three
  · rw [Finset.card_range, Nat.mul_comm]

theorem Takes.leaf (h : Takes r P s s') (hgood : Good r s') {virt : Word} {pt : Frame} (v : Word)
    (hpt : tableWalk s' r (tablePath virt) = some pt) :
    Takes r P s (writeLeaf s' pt (leafIndex virt) v) := by
  refine ⟨fun q hq => ?_, h.frames⟩
  rw [← h.absent q hq, tableWalk, writeLeaf, entries_write_cell,
    walk_set_leaf hgood.tree rfl hpt hq]

/-- The loop of `map_in_root`: it takes as many frames as tables are missing and finishes, unless
there are fewer; it leaves in each page of its range the entry of the frame it maps there, and
leaves the others alone. -/
theorem mapPages_spec (flags : Word) (n : Nat) {s : Machine} (h : Good r s) (addr phys : Word)
    (htop : TopPages top addr n) :
    (∃ s', mapPages r flags n addr phys s = (.ok 0, s') ∧ Edits r top s s' ∧
      Takes r (tablesFor addr n) s s' ∧
      (∀ a, ¬ OutsidePages addr n a → ∃ k < n, pageOf a = pageOf (roundAddr addr k) ∧
        pte s' r a = some (pteValue (roundAddr phys k &&& pteAddrMask) flags)) ∧
      (∀ a, OutsidePages addr n a → pte s' r a = pte s r a)) ∨
    (∃ s', mapPages r flags n addr phys s = (.error "VMM: no page table memory", s') ∧
      Edits r top s s' ∧ s.pool.length < missing s r (tablesFor addr n)) := by
  induction n generalizing s addr phys with
  | zero =>
    exact .inl ⟨s, rfl, .refl, ⟨fun q _ => by simp [tablesFor], by simp [missing, tablesFor]⟩,
      fun _ ha => absurd (fun _ hk => absurd hk (Nat.not_lt_zero _)) ha, fun _ _ => rfl⟩
  | succ n ih =>
    rw [tablesFor_succ]
    unfold mapPages
    rcases pteForRoot_creates h htop.head (user_mask flags) with
      ⟨pt, s₁, h₁, hlinks, hpt, ht₁⟩ | ⟨s₁, h₁, hlinks, hshort⟩
    case inr =>
      exact .inr ⟨s₁, Exec.bind_error h₁, hlinks.edits,
        Nat.lt_of_lt_of_le hshort (missing_mono s r Finset.subset_union_left)⟩
    rw [Exec.bind_ok h₁]
    dsimp only
    rw [Exec.bind_ok (store_apply _ _ _)]
    have g₁ := h.links hlinks
    have hleaf := writeLeaf_step (pteValue (phys &&& pteAddrMask) flags) htop.head hpt
    have ht := ht₁.leaf g₁ (pteValue (phys &&& pteAddrMask) flags) hpt
    rcases ih (g₁.leafStep hleaf) (addr + 4096) (phys + 4096) htop.tail with
      ⟨s', h', hedits, ht', hmapped, hother⟩ | ⟨s', h', hedits, hshort⟩
    case inr =>
      exact .inr ⟨s', h', (hlinks.edits.tail (.inr hleaf)).trans hedits,
        ht.short (fun q => length_of_mem_tablesFor) hshort⟩
    refine .inl ⟨s', h', (hlinks.edits.tail (.inr hleaf)).trans hedits,
      ht.trans ht' fun q => length_of_mem_tablesFor, ?_, ?_⟩
    · intro a ha
      by_cases hrest : OutsidePages (addr + 4096) n a
      · have hpage : pageOf a = pageOf addr := by_contra fun hne => ha (hrest.cons hne)
        refine ⟨0, Nat.succ_pos n, by rwa [roundAddr_zero], ?_⟩
        rw [hother a hrest, pte_writeLeaf_self g₁ hpt hpage, if_pos (present_pteValue _ _),
          roundAddr_zero]
      · obtain ⟨k, hk, hpage, hpte⟩ := hmapped a hrest
        exact ⟨k + 1, by omega, by rwa [← roundAddr_succ], by rw [hpte, roundAddr_succ]⟩
    · intro a ha
      rw [hother a ha.tail, pte_writeLeaf_of_ne g₁ hpt ha.head, pte_links h hlinks]

/-! ## Protecting -/

theorem mask_pteValue {phys flags : Word} (hf : flags &&& pteAddrMask = 0) :
    pteValue phys flags &&& pteAddrMask = phys &&& pteAddrMask := by
  have hpart : ∀ x : Word, flags &&& x &&& pteAddrMask = 0 := fun x => by
    rw [BitVec.and_assoc, BitVec.and_comm x, ← BitVec.and_assoc, hf]
    simp
  have hone : vmmPresent &&& pteAddrMask = 0 := by decide
  rw [pteValue, BitVec.and_or_distrib_right, BitVec.and_or_distrib_right,
    BitVec.and_or_distrib_right, hpart, hpart, hone]
  simp

theorem and_not_or_and (x y : Word) : (x &&& ~~~y) ||| (x &&& y) = x := by
  ext i
  cases hx : x[i] <;> cases hy : y[i] <;> simp [hx, hy]

theorem pteValue_eq (phys flags : Word) : pteValue phys flags = phys ||| (flags ||| vmmPresent) := by
  rw [pteValue, BitVec.or_assoc, BitVec.or_assoc, BitVec.or_comm vmmPresent,
    ← BitVec.or_assoc _ _ vmmPresent, and_not_or_and]

/-- An entry is its frame and its flags. -/
theorem eq_pteValue {e flags : Word} (h : entryFlags e = flags ||| vmmPresent) :
    e = pteValue (e &&& pteAddrMask) flags := by
  rw [pteValue_eq, ← h, entryFlags, BitVec.or_comm, and_not_or_and]

theorem entryFlags_pteValue {phys flags : Word} (hphys : phys &&& pteAddrMask = phys)
    (hf : flags &&& pteAddrMask = 0) : entryFlags (pteValue phys flags) = flags ||| vmmPresent := by
  have hframe : phys &&& ~~~pteAddrMask = 0 := by
    rw [← hphys, BitVec.and_assoc]
    simp
  have hkeep : flags &&& ~~~pteAddrMask = flags := by
    have hsplit := and_not_or_and flags pteAddrMask
    rw [hf] at hsplit
    simpa using hsplit
  have hpresent : vmmPresent &&& ~~~pteAddrMask = vmmPresent := by decide
  rw [entryFlags, pteValue_eq, BitVec.and_or_distrib_right, BitVec.and_or_distrib_right, hframe, hkeep,
    hpresent]
  simp

theorem pte_of_walk {virt : Word} {found : Option Frame}
    (hpt : tableWalk s r (tablePath virt) = found) :
    pte s r virt = found.bind fun pt =>
      if present (entries s.mem pt (leafIndex virt)) then some (entries s.mem pt (leafIndex virt))
      else none := by
  have hpt' : walk child (entries s.mem) r (tablePath virt) = found := hpt
  rw [pte, leafEntry, find, hpt']

/-- The loop of `protect_in_root`: it always returns, with 0 when every page of
its range is there, keeps the frame of every entry, gives the entries of its
range their flags and leaves the others alone. -/
theorem protectPages_spec (flags : Word) (n : Nat) {s : Machine} (h : Good r s) (addr : Word)
    (htop : TopPages top addr n) :
    ∃ res s', protectPages r flags n addr s = (.ok res, s') ∧ Edits r top s s' ∧
      s'.pool = s.pool ∧
      (flags &&& pteAddrMask = 0 → (∀ k < n, (pte s r (roundAddr addr k)).isSome) → res = 0) ∧
      (flags &&& pteAddrMask = 0 →
        ∀ a, (pte s' r a).map (· &&& pteAddrMask) = (pte s r a).map (· &&& pteAddrMask)) ∧
      (∀ a, OutsidePages addr n a → pte s' r a = pte s r a) ∧
      (flags &&& pteAddrMask = 0 → (∀ k < n, (pte s r (roundAddr addr k)).isSome) →
        ∀ a, ¬ OutsidePages addr n a → (pte s' r a).map entryFlags = some (flags ||| vmmPresent)) := by
  induction n generalizing s addr with
  | zero =>
    exact ⟨0, s, rfl, .refl, rfl, fun _ _ => rfl, fun _ _ => rfl, fun _ _ => rfl, fun _ _ a ha =>
      absurd (fun _ hj => absurd hj (Nat.not_lt_zero _)) ha⟩
  | succ n ih =>
    unfold protectPages
    rw [Exec.bind_ok (pteForRoot_looks h.null addr)]
    -- a missing page stops the loop, against the assumption that none is missing
    have hmissing : pte s r addr = none →
        ¬ ∀ k < n + 1, (pte s r (roundAddr addr k)).isSome := by
      intro hnone hall
      have hsome := hall 0 (Nat.succ_pos n)
      rw [roundAddr_zero, hnone] at hsome
      cases hsome
    cases hpt : tableWalk s r (tablePath addr) with
    | none =>
      have hnone : pte s r addr = none := pte_of_walk hpt
      exact ⟨-1, s, rfl, .refl, rfl, fun _ hall => absurd hall (hmissing hnone), fun _ _ => rfl,
        fun _ _ => rfl, fun _ hall => absurd hall (hmissing hnone)⟩
    | some pt =>
      dsimp only [Option.map_some]
      rw [Exec.bind_ok (load_cell pt _ s)]
      by_cases hp : present (entries s.mem pt (leafIndex addr)) = true
      case neg =>
        rw [if_pos (by simpa [present] using hp)]
        have hnone : pte s r addr = none := (pte_of_walk hpt).trans (if_neg hp)
        exact ⟨-1, s, rfl, .refl, rfl, fun _ hall => absurd hall (hmissing hnone), fun _ _ => rfl,
          fun _ _ => rfl, fun _ hall => absurd hall (hmissing hnone)⟩
      rw [if_neg (by simpa [present] using hp), Exec.bind_ok (load_cell pt _ s),
        Exec.bind_ok (store_apply _ _ _)]
      have hold : pte s r addr = some (entries s.mem pt (leafIndex addr)) :=
        (pte_of_walk hpt).trans (if_pos hp)
      set e := entries s.mem pt (leafIndex addr)
      have hleaf := writeLeaf_step (pteValue (e &&& pteAddrMask) flags) htop.head hpt
      obtain ⟨res, s', h', hedits, hpool, hres, hkeep, hother, hgiven⟩ :=
        ih (h.leafStep hleaf) (addr + 4096) htop.tail
      have hround : flags &&& pteAddrMask = 0 → ∀ a,
          (pte (writeLeaf s pt (leafIndex addr) (pteValue (e &&& pteAddrMask) flags)) r a).map
            (· &&& pteAddrMask) = (pte s r a).map (· &&& pteAddrMask) := by
        intro hflags a
        by_cases ha : pageOf a = pageOf addr
        · rw [pte_writeLeaf_self h hpt ha, if_pos (present_pteValue _ _), pte_congr ha, hold]
          simp only [Option.map_some, mask_pteValue hflags, BitVec.and_assoc, BitVec.and_self]
        · rw [pte_writeLeaf_of_ne h hpt ha]
      have hthere : flags &&& pteAddrMask = 0 →
          (∀ k < n + 1, (pte s r (roundAddr addr k)).isSome) →
          ∀ k < n, (pte (writeLeaf s pt (leafIndex addr) (pteValue (e &&& pteAddrMask) flags)) r
            (roundAddr (addr + 4096) k)).isSome := by
        intro hflags hall k hk
        rw [← Option.isSome_map, hround hflags, Option.isSome_map, roundAddr_succ]
        exact hall (k + 1) (by omega)
      refine ⟨res, s', h', (ReflTransGen.single (.inr hleaf)).trans hedits, hpool, ?_, ?_, ?_, ?_⟩
      · exact fun hflags hall => hres hflags (hthere hflags hall)
      · intro hflags a
        rw [hkeep hflags a, hround hflags a]
      · intro a ha
        rw [hother a ha.tail, pte_writeLeaf_of_ne h hpt ha.head]
      · intro hflags hall a ha
        by_cases htail : OutsidePages (addr + 4096) n a
        · have hpage : pageOf a = pageOf addr := by_contra fun hne => ha (htail.cons hne)
          have hmask : e &&& pteAddrMask &&& pteAddrMask = e &&& pteAddrMask := by
            rw [BitVec.and_assoc, BitVec.and_self]
          rw [hother a htail, pte_writeLeaf_self h hpt hpage, if_pos (present_pteValue _ _),
            Option.map_some, entryFlags_pteValue hmask hflags]
        · exact hgiven hflags (hthere hflags hall) a htail

/-! ## Unmapping -/

/-- The loop of `unmap_in_root`: it always returns, leaves nothing present in
its range and leaves the entries outside alone. -/
theorem unmapPages_spec (n : Nat) {s : Machine} (h : Good r s) (addr : Word)
    (htop : TopPages top addr n) :
    ∃ s', unmapPages r n addr s = (.ok (), s') ∧ Edits r top s s' ∧
      (∀ a, ¬ OutsidePages addr n a → pte s' r a = none) ∧
      ∀ a, OutsidePages addr n a → pte s' r a = pte s r a := by
  -- a page is cleared by its own round and never comes back
  suffices hsuff : ∃ s', unmapPages r n addr s = (.ok (), s') ∧ Edits r top s s' ∧
      (∀ a, pte s r a = none → pte s' r a = none) ∧
      (∀ a, ¬ OutsidePages addr n a → pte s' r a = none) ∧
      ∀ a, OutsidePages addr n a → pte s' r a = pte s r a by
    obtain ⟨s', h', hedits, -, hin, hout⟩ := hsuff
    exact ⟨s', h', hedits, hin, hout⟩
  induction n generalizing s addr with
  | zero => exact ⟨s, rfl, .refl, fun _ => id, fun a ha => absurd (fun _ hk => by omega) ha,
      fun _ _ => rfl⟩
  | succ n ih =>
    have hcases : ∀ a, ¬ OutsidePages addr (n + 1) a →
        pageOf a = pageOf addr ∨ ¬ OutsidePages (addr + 4096) n a :=
      fun a ha => or_iff_not_imp_left.mpr fun hne htail => ha (htail.cons hne)
    unfold unmapPages
    rw [Exec.bind_ok (pteForRoot_looks h.null addr)]
    cases hpt : tableWalk s r (tablePath addr) with
    | none =>
      obtain ⟨s', h', hedits, hnone, hin, hout⟩ := ih h (addr + 4096) htop.tail
      refine ⟨s', h', hedits, hnone, fun a ha => ?_, fun a ha => hout a ha.tail⟩
      rcases hcases a ha with heq | hin'
      · exact hnone a ((pte_congr heq).trans (pte_of_walk hpt))
      · exact hin a hin'
    | some pt =>
      dsimp only [Option.map_some]
      rw [Exec.bind_ok (store_apply _ _ _)]
      have hleaf := writeLeaf_step 0 htop.head hpt
      obtain ⟨s', h', hedits, hnone, hin, hout⟩ := ih (h.leafStep hleaf) (addr + 4096) htop.tail
      have hzero : ∀ a, pageOf a = pageOf addr →
          pte (writeLeaf s pt (leafIndex addr) 0) r a = none :=
        fun a ha => pte_writeLeaf_self h hpt ha
      refine ⟨s', h', (ReflTransGen.single (.inr hleaf)).trans hedits, fun a ha => hnone a ?_,
        fun a ha => ?_, fun a ha => ?_⟩
      · by_cases heq : pageOf a = pageOf addr
        · exact hzero a heq
        · rw [pte_writeLeaf_of_ne h hpt heq, ha]
      · rcases hcases a ha with heq | hin'
        · exact hnone a (hzero a heq)
        · exact hin a hin'
      · rw [hout a ha.tail, pte_writeLeaf_of_ne h hpt ha.head]

end OreOS.Kernel
