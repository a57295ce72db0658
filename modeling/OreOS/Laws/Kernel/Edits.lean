import OreOS.Laws.Kernel.Tables

/-!
# What the mapper does to the tables

Everything `vmm.c` writes into a root's tables is one of two edits: a fresh
frame of the pool linked where an entry was vacant (`LinkStep`), or a leaf entry
written at depth three (`LeafStep`). An invariant is proved once for each edit
and not once for each loop. `Good` is the invariant of one root: its tables are
a tree without a null table, and no frame of the pool is in it.
-/

namespace OreOS.Kernel

open OreOS.Lib (Word Mem Exec)
open OreOS.Lib.Radix (walk find Tree Fresh Link setEntry fill walk_set_leaf tree_set_leaf)
open Relation (ReflTransGen)

/-- The frame at address 0, which a table pointer must not name. -/
def nullFrame : Frame :=
  ⟨0, rfl⟩

theorem Allocatable.aligned {page : Word} (h : Allocatable page) : Mem.Aligned page :=
  h.mask ▸ aligned_mask page

/-- The walk through the page tables of a machine. -/
abbrev tableWalk (s : Machine) (r : Frame) (p : List (Fin 512)) : Option Frame :=
  walk child (entries s.mem) r p

/-- The leaf entry behind a path, when it is present. -/
abbrev leafEntry (s : Machine) (r : Frame) (p : List (Fin 512)) (i : Fin 512) : Option Word :=
  find child present (entries s.mem) r p i

/-- A root whose tables are a tree, apart from the frames still to be handed
out. -/
structure Good (r : Frame) (s : Machine) : Prop where
  tree : Tree child (entries s.mem) r 3
  null : Fresh child (entries s.mem) r 3 nullFrame
  nodup : s.pool.Nodup
  alloc : ∀ page ∈ s.pool, Allocatable page
  fresh : ∀ g : Frame, g.val ∈ s.pool → Fresh child (entries s.mem) r 3 g

/-- A table of the pool is linked at a vacant entry. -/
def LinkStep (r : Frame) (top : Fin 512 → Prop) (s s' : Machine) : Prop :=
  ∃ (p : List (Fin 512)) (f : Frame) (i : Fin 512) (page flags : Word),
    (∀ a ∈ (p ++ [i]).head?, top a) ∧ p.length < 3 ∧ tableWalk s r p = some f ∧
    child (entries s.mem f i) = none ∧ flags &&& pteAddrMask = 0 ∧
    s.pool = page :: s'.pool ∧ s' = linked s f i page flags s'.pool

/-- A leaf entry is written. -/
def LeafStep (r : Frame) (top : Fin 512 → Prop) (s s' : Machine) : Prop :=
  ∃ (p : List (Fin 512)) (f : Frame) (i : Fin 512) (v : Word),
    (∀ a ∈ p.head?, top a) ∧ p.length = 3 ∧ tableWalk s r p = some f ∧
    s' = s.write (cell f i) (Mem.leBytes 8 v)

variable {r : Frame} {top : Fin 512 → Prop} {s s' : Machine}

theorem entries_cleared (s : Machine) {page : Word} {pool : List Word}
    (hpage : Allocatable page) :
    entries (cleared s page pool).mem = fill (entries s.mem) ⟨page, hpage.aligned⟩ 0 := by
  have hclear : ∀ s : Machine, entries (s.write page (List.replicate 4096 0)).mem =
      fill (entries s.mem) ⟨page, hpage.aligned⟩ 0 :=
    fun s => entries_write_page s ⟨page, hpage.aligned⟩
  rw [cleared, handedOut, hclear, hclear]
  funext g j
  simp only [fill]
  split <;> rfl

theorem entries_linked (s : Machine) (f : Frame) (i : Fin 512) {page flags : Word}
    {pool : List Word} (hpage : Allocatable page) :
    entries (linked s f i page flags pool).mem =
      setEntry (fill (entries s.mem) ⟨page, hpage.aligned⟩ 0) f i (linkEntry page flags) := by
  rw [linked, entries_write_cell, entries_cleared s hpage]

theorem child_linkEntry {page flags : Word} (hpage : Allocatable page)
    (hflags : flags &&& pteAddrMask = 0) :
    child (linkEntry page flags) = some ⟨page, hpage.aligned⟩ := by
  rw [child, if_pos (present_linkEntry page flags)]
  exact congrArg some (Subtype.ext (mask_linkEntry hpage.mask hflags))

theorem Good.link (h : Good r s) {p : List (Fin 512)} {f : Frame} {i : Fin 512}
    {page flags : Word} {pool : List Word} (hp : p.length < 3) (hf : tableWalk s r p = some f)
    (hv : child (entries s.mem f i) = none) (hflags : flags &&& pteAddrMask = 0)
    (hpool : s.pool = page :: pool) (hpage : Allocatable page) :
    Link child present (entries s.mem) r 3 p f i ⟨page, hpage.aligned⟩ (linkEntry page flags) 0 where
  tree := h.tree
  depth := hp
  parent := hf
  vacant := hv
  fresh := h.fresh _ (by rw [hpool]; exact List.mem_cons_self)
  names := child_linkEntry hpage hflags
  empty := rfl
  absent := rfl

theorem Good.linkStep (h : Good r s) (hs : LinkStep r top s s') : Good r s' := by
  obtain ⟨p, f, i, page, flags, -, hp, hf, hv, hflags, hpool, hmem⟩ := hs
  have hpage := h.alloc page (by rw [hpool]; exact List.mem_cons_self)
  have hlink := h.link hp hf hv hflags hpool hpage
  have hnodup := h.nodup
  rw [hpool, List.nodup_cons] at hnodup
  have hent : entries s'.mem = _ := hmem ▸ entries_linked s f i hpage
  -- the only new table is the page the link took from the pool
  have hfresh : ∀ g : Frame, g.val ≠ page → Fresh child (entries s.mem) r 3 g →
      Fresh child (entries s'.mem) r 3 g := by
    intro g hne hg q hq
    rw [hent, hlink.walk_link hq]
    split
    · rintro ⟨⟩
      exact hne rfl
    · exact hg q hq
  have hmono : ∀ q ∈ s'.pool, q ∈ s.pool := fun q hq => by
    rw [hpool]
    exact List.mem_cons_of_mem _ hq
  refine ⟨?_, ?_, hnodup.2, fun q hq => h.alloc q (hmono q hq), fun g hg => ?_⟩
  · rw [hent]
    exact hlink.tree_link
  · exact hfresh nullFrame (Ne.symm hpage.ne) h.null
  · exact hfresh g (fun heq => hnodup.1 (heq ▸ hg)) (h.fresh g (hmono _ hg))

/-- No lookup notices a link. -/
theorem Good.leafEntry_linkStep (h : Good r s) (hs : LinkStep r top s s') {q : List (Fin 512)}
    (hq : q.length = 3) (j : Fin 512) : leafEntry s' r q j = leafEntry s r q j := by
  obtain ⟨p, f, i, page, flags, -, hp, hf, hv, hflags, hpool, hmem⟩ := hs
  have hpage := h.alloc page (by rw [hpool]; exact List.mem_cons_self)
  rw [leafEntry, hmem, entries_linked s f i hpage]
  exact (h.link hp hf hv hflags hpool hpage).find_link hq

theorem Good.leafStep (h : Good r s) (hs : LeafStep r top s s') : Good r s' := by
  obtain ⟨p, f, i, v, -, hp, hf, rfl⟩ := hs
  have hent := entries_write_cell s f i v
  have hwalk : ∀ q : List (Fin 512), q.length ≤ 3 →
      walk child (entries (s.write (cell f i) (Mem.leBytes 8 v)).mem) r q =
        walk child (entries s.mem) r q := by
    intro q hq
    rw [hent]
    exact walk_set_leaf h.tree hp hf hq
  refine ⟨?_, fun q hq => ?_, h.nodup, h.alloc, fun g hg q hq => ?_⟩
  · rw [hent]
    exact tree_set_leaf h.tree hp hf
  · rw [hwalk q hq]
    exact h.null q hq
  · rw [hwalk q hq]
    exact h.fresh g hg q hq

/-- Links one after the other. -/
abbrev Links (r : Frame) (top : Fin 512 → Prop) : Machine → Machine → Prop :=
  ReflTransGen (LinkStep r top)

theorem Good.links (h : Good r s) (hs : Links r top s s') : Good r s' := by
  induction hs with
  | refl => exact h
  | tail _ hstep ih => exact ih.linkStep hstep

theorem Good.leafEntry_links (h : Good r s) (hs : Links r top s s') {q : List (Fin 512)}
    (hq : q.length = 3) (j : Fin 512) : leafEntry s' r q j = leafEntry s r q j := by
  induction hs with
  | refl => rfl
  | tail hsteps hstep ih => exact ((h.links hsteps).leafEntry_linkStep hstep hq j).trans ih

/-! ## `pte_for_root` -/

/-- The indices of the three tables above the last. -/
def tablePath (virt : Word) : List (Fin 512) :=
  [tableIndex virt 39, tableIndex virt 30, tableIndex virt 21]

/-- The index in the last table. -/
abbrev leafIndex (virt : Word) : Fin 512 :=
  tableIndex virt 12

theorem ptr_frame {g : Frame} (h : g ≠ nullFrame) : ptr g = some g.val := by
  rw [ptr, if_neg]
  intro hg
  exact h (Subtype.ext hg)

theorem pteForRoot_looks (hnull : Fresh child (entries s.mem) r 3 nullFrame) (virt : Word) :
    pteForRoot r virt false 0 s =
      (.ok ((tableWalk s r (tablePath virt)).map fun pt => cell pt.val (leafIndex virt)), s) := by
  have descend : ∀ {p : List (Fin 512)} {f : Frame} {i : Fin 512}, p.length < 3 →
      tableWalk s r p = some f →
      nextTable f i false 0 s = (.ok ((tableWalk s r (p ++ [i])).map Subtype.val), s) := by
    intro p f i hp hf
    rw [tableWalk, OreOS.Lib.Radix.walk_snoc hf]
    cases hc : child (entries s.mem f i) with
    | none => exact nextTable_none hc
    | some g =>
      have hg : g ≠ nullFrame := by
        rintro rfl
        exact hnull (p ++ [i]) (by simp; omega) ((OreOS.Lib.Radix.walk_snoc hf).trans hc)
      rw [nextTable_child hc, ptr_frame hg]
      rfl
  have stop : ∀ p q : List (Fin 512), tableWalk s r p = none → p ++ q = tablePath virt →
      tableWalk s r (tablePath virt) = none := by
    intro p q (hp : walk child (entries s.mem) r p = none) hq
    rw [← hq, tableWalk, OreOS.Lib.Radix.walk_append, hp]
    rfl
  unfold pteForRoot
  rw [Exec.bind_ok (descend (p := []) (by simp) rfl)]
  cases h₁ : tableWalk s r ([] ++ [tableIndex virt 39]) with
  | none =>
    rw [stop _ _ h₁ rfl]
    rfl
  | some pdpt =>
    dsimp only [Option.map_some]
    rw [Exec.bind_ok (descend (by simp) h₁)]
    cases h₂ : tableWalk s r ([] ++ [tableIndex virt 39] ++ [tableIndex virt 30]) with
    | none =>
      rw [stop _ _ h₂ rfl]
      rfl
    | some pd =>
      dsimp only [Option.map_some]
      rw [Exec.bind_ok (descend (by simp) h₂)]
      change _ = (Except.ok (Option.map _ (tableWalk s r
        ([] ++ [tableIndex virt 39] ++ [tableIndex virt 30] ++ [tableIndex virt 21]))), s)
      cases tableWalk s r ([] ++ [tableIndex virt 39] ++ [tableIndex virt 30] ++ [tableIndex virt 21])
      <;> rfl

end OreOS.Kernel
