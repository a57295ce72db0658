import OreOS.Lib.Run
import OreOS.Laws.Kernel.Translate

/-!
# Address spaces do not reach into each other

A process root carries the kernel's entries outside the indices 1..255 and
tables of its own below them. The tables of its own, and the root itself, are
in no other root's tables (`Isolated.mine`); everything else it can reach, the
kernel root reaches by the same path. An edit below one of the indices 1..255
writes only what is the process's own, or a frame of the pool that nobody has
yet, so no other walk reads what it writes.
-/

namespace OreOS.Kernel

open OreOS.Lib (Word Mem Exec Run)
open OreOS.Lib.Radix (walk_congr find_congr)

variable {k r r' : Frame} {users : Frame → Prop} {s s' : Machine}

/-- The indices under which a process has tables of its own. -/
def Private (i : Fin 512) : Prop :=
  1 ≤ i.val ∧ i.val < 256

instance (i : Fin 512) : Decidable (Private i) :=
  inferInstanceAs (Decidable (_ ∧ _))

/-- The frame is among the tables of the root. -/
def Tables (s : Machine) (r f : Frame) : Prop :=
  ∃ q : List (Fin 512), q.length ≤ 3 ∧ tableWalk s r q = some f

/-- The frame is the root or a table below one of its private indices. -/
def Mine (s : Machine) (r f : Frame) : Prop :=
  ∃ q : List (Fin 512), q.length ≤ 3 ∧ (∀ i ∈ q.head?, Private i) ∧ tableWalk s r q = some f

theorem Mine.tables {f : Frame} (h : Mine s r f) : Tables s r f :=
  let ⟨q, hq, _, hw⟩ := h
  ⟨q, hq, hw⟩

theorem tables_root (s : Machine) (r : Frame) : Tables s r r :=
  ⟨[], by simp, rfl⟩

/-- The invariant of the kernel root and the process roots. -/
structure Isolated (k : Frame) (users : Frame → Prop) (s : Machine) : Prop where
  kernel : Good k s
  user : ∀ r, users r → Good r s
  shared : ∀ r, users r → ∀ i, ¬ Private i → entries s.mem r i = entries s.mem k i
  mine : ∀ r, users r → ∀ f, Mine s r f → ∀ r', r' = k ∨ users r' → r' ≠ r → ¬ Tables s r' f
  proper : ¬ users k

theorem Isolated.good (h : Isolated k users s) (hr : r = k ∨ users r) : Good r s :=
  hr.elim (· ▸ h.kernel) (h.user r)

/-- A process's paths outside its private indices are the kernel's. -/
theorem Isolated.walk_shared (h : Isolated k users s) (hr : users r) {i : Fin 512}
    (hi : ¬ Private i) (q : List (Fin 512)) :
    tableWalk s r (i :: q) = tableWalk s k (i :: q) := by
  rw [tableWalk, tableWalk, OreOS.Lib.Radix.walk_cons, OreOS.Lib.Radix.walk_cons, h.shared r hr i hi]

/-- Outside the user half a process sees what the kernel sees. -/
theorem Isolated.pte_shared (h : Isolated k users s) (hr : users r) {a : Word}
    (ha : ¬ Private (tableIndex a 39)) : pte s r a = pte s k a := by
  have hwalk : tableWalk s r (tablePath a) = tableWalk s k (tablePath a) := h.walk_shared hr ha _
  simp only [tableWalk] at hwalk
  rw [pte, pte, leafEntry, leafEntry, OreOS.Lib.Radix.find, OreOS.Lib.Radix.find, hwalk]

theorem Good.walk_of_edit {top : Fin 512 → Prop} (h : Good r s)
    (hs : LinkStep r top s s' ∨ LeafStep r top s s') {q : List (Fin 512)} {f : Frame}
    (hq : q.length ≤ 3) (hf : tableWalk s' r q = some f) :
    tableWalk s r q = some f ∨ f.val ∈ s.pool := by
  rcases hs with ⟨p, f', i, page, flags, -, hp, hf', hv, hflags, hpool, hmem⟩ |
    ⟨p, f', i, v, -, hp, hf', rfl⟩
  · have hmem_pool : page ∈ s.pool := by
      rw [hpool]
      exact List.mem_cons_self
    have hpage := h.alloc page hmem_pool
    rw [tableWalk, hmem, entries_linked s f' i hpage,
      (h.link hp hf' hv hflags hpool hpage).walk_link hq] at hf
    split at hf
    · cases hf
      exact .inr hmem_pool
    · exact .inl hf
  · left
    rwa [tableWalk, entries_write_cell, OreOS.Lib.Radix.walk_set_leaf h.tree hp hf' hq] at hf

theorem Good.tables_of_edits {top : Fin 512 → Prop} (h : Good r s) (hs : Edits r top s s')
    {f : Frame} (hf : Tables s' r f) : Tables s r f ∨ f.val ∈ s.pool := by
  induction hs with
  | refl => exact .inl hf
  | tail hedits hstep ih =>
    obtain ⟨q, hq, hwalk⟩ := hf
    rcases (h.edits hedits).walk_of_edit hstep hq hwalk with hold | hpool
    · exact ih ⟨q, hq, hold⟩
    · exact .inr ((Edits.pool hedits).subset hpool)

/-- What an edit of `r` below its private indices may write: its own tables,
its root at a private index, and frames of the pool. -/
def Within (r : Frame) (s s' : Machine) : Prop :=
  ∀ f i, entries s'.mem f i ≠ entries s.mem f i →
    (Mine s r f ∧ (f = r → Private i)) ∨ f.val ∈ s.pool

/-- A link or a leaf write of `r` below its private indices. -/
def OwnEdit (r : Frame) (s s' : Machine) : Prop :=
  LinkStep r Private s s' ∨ LeafStep r Private s s'

theorem OwnEdit.good (hs : OwnEdit r s s') (h : Good r s) : Good r s' :=
  hs.elim h.linkStep h.leafStep

theorem OwnEdit.pool (hs : OwnEdit r s s') : s'.pool <:+ s.pool := by
  rcases hs with ⟨p, f, i, page, flags, -, -, -, -, -, hpool, -⟩ | ⟨p, f, i, v, -, -, -, rfl⟩
  · rw [hpool]
    exact List.suffix_cons page s'.pool
  · exact List.suffix_refl _

theorem OwnEdit.within (hs : OwnEdit r s s') (h : Good r s) : Within r s s' := by
  rcases hs with ⟨p, f, i, page, flags, htop, hp, hf, hv, hflags, hpool, hmem⟩ |
    ⟨p, f, i, v, htop, hp, hf, rfl⟩
  · have hmem_pool : page ∈ s.pool := by
      rw [hpool]
      exact List.mem_cons_self
    intro g j hne
    rw [hmem, entries_linked s f i (h.alloc page hmem_pool)] at hne
    by_cases hcell : g = f ∧ j = i
    · obtain ⟨rfl, rfl⟩ := hcell
      refine .inl ⟨⟨p, by omega, ?_, hf⟩, ?_⟩
      · intro a ha
        cases p with
        | nil => cases ha
        | cons b p => exact htop a ha
      · rintro rfl
        -- the root is at the empty path only
        have := h.tree p [] g (by omega) (by simp) hf rfl
        subst this
        exact htop j rfl
    · right
      by_contra hout
      refine hne ?_
      rw [OreOS.Lib.Radix.setEntry_of_ne (not_and_or.mp hcell), OreOS.Lib.Radix.fill_of_ne]
      rintro rfl
      exact hout hmem_pool
  · intro g j hne
    rw [entries_write_cell] at hne
    by_cases hcell : g = f ∧ j = i
    · obtain ⟨rfl, rfl⟩ := hcell
      refine .inl ⟨⟨p, by omega, htop, hf⟩, ?_⟩
      rintro rfl
      have := h.tree p [] g (by omega) (by simp) hf rfl
      subst this
      cases hp
    · exact absurd (OreOS.Lib.Radix.setEntry_of_ne (not_and_or.mp hcell)) hne

theorem Good.of_walk (h : Good r s) (hpool : s'.pool <:+ s.pool)
    (hwalk : ∀ q : List (Fin 512), q.length ≤ 3 → tableWalk s' r q = tableWalk s r q) :
    Good r s' where
  tree p q f hp hq hpf hqf :=
    h.tree p q f hp hq ((hwalk p hp).symm.trans hpf) ((hwalk q hq).symm.trans hqf)
  null q hq hw := h.null q hq ((hwalk q hq).symm.trans hw)
  nodup := h.nodup.sublist hpool.sublist
  alloc page hpage := h.alloc page (hpool.subset hpage)
  fresh g hg q hq hw := h.fresh g (hpool.subset hg) q hq ((hwalk q hq).symm.trans hw)

section

variable (hent : ∀ f, Tables s r f → ∀ i, entries s'.mem f i = entries s.mem f i)
include hent

/-- A walk reads only the tables of its root. -/
theorem walk_of_tables {q : List (Fin 512)} (hq : q.length ≤ 3) :
    tableWalk s' r q = tableWalk s r q := by
  refine walk_congr fun q₁ i q₂ hsplit f hf => hent f ⟨q₁, ?_, hf⟩ i
  rw [hsplit] at hq
  simp at hq
  omega

/-- So does a lookup. -/
theorem pte_of_tables (a : Word) : pte s' r a = pte s r a := by
  refine find_congr fun q i q' hsplit f hf => hent f ⟨q, ?_, hf⟩ i
  have hlen := congrArg List.length hsplit
  simp [tablePath] at hlen
  omega

end

/-- The roots are isolated as they were, and no walk and no lookup has changed. -/
structure Reframed (k : Frame) (users : Frame → Prop) (s s' : Machine) : Prop where
  isolated : Isolated k users s'
  walk : ∀ r, r = k ∨ users r → ∀ q : List (Fin 512), q.length ≤ 3 →
    tableWalk s' r q = tableWalk s r q
  pte : ∀ r, r = k ∨ users r → ∀ a, pte s' r a = pte s r a

/-- What is written outside all tables changes no walk and no lookup, and the
pool may become any other set of frames outside them. -/
theorem Isolated.reframe (h : Isolated k users s) (hnodup : s'.pool.Nodup)
    (halloc : ∀ page ∈ s'.pool, Allocatable page)
    (hfresh : ∀ g : Frame, g.val ∈ s'.pool → ∀ r, r = k ∨ users r → ¬ Tables s r g)
    (hent : ∀ r, r = k ∨ users r → ∀ f, Tables s r f → ∀ i,
      entries s'.mem f i = entries s.mem f i) : Reframed k users s s' := by
  have hwalk : ∀ r, r = k ∨ users r → ∀ q : List (Fin 512), q.length ≤ 3 →
      tableWalk s' r q = tableWalk s r q := fun r hr q hq => walk_of_tables (hent r hr) hq
  have hgood : ∀ r, r = k ∨ users r → Good r s' := fun r hr =>
    { tree := fun p q f hp hq hpf hqf => (h.good hr).tree p q f hp hq
        ((hwalk r hr p hp).symm.trans hpf) ((hwalk r hr q hq).symm.trans hqf)
      null := fun q hq hw => (h.good hr).null q hq ((hwalk r hr q hq).symm.trans hw)
      nodup := hnodup
      alloc := halloc
      fresh := fun g hg q hq hw =>
        hfresh g hg r hr ⟨q, hq, (hwalk r hr q hq).symm.trans hw⟩ }
  refine ⟨⟨hgood k (.inl rfl), fun r hr => hgood r (.inr hr), fun r hr i hi => ?_, ?_, h.proper⟩,
    hwalk, fun r hr => pte_of_tables (hent r hr)⟩
  · rw [hent r (.inr hr) r (tables_root s r), hent k (.inl rfl) k (tables_root s k),
      h.shared r hr i hi]
  · rintro r hr f ⟨q, hq, hhead, hf⟩ r' hr' hne ⟨q', hq', hf'⟩
    rw [hwalk r (.inr hr) q hq] at hf
    rw [hwalk r' hr' q' hq'] at hf'
    exact h.mine r hr f ⟨q, hq, hhead, hf⟩ r' hr' hne ⟨q', hq', hf'⟩

theorem Isolated.frame (h : Isolated k users s) (hpool : s'.pool <:+ s.pool)
    (hent : ∀ r, r = k ∨ users r → ∀ f, Tables s r f → ∀ i,
      entries s'.mem f i = entries s.mem f i) : Reframed k users s s' := by
  refine h.reframe (h.kernel.nodup.sublist hpool.sublist)
    (fun page hpage => h.kernel.alloc page (hpool.subset hpage)) ?_ hent
  rintro g hg r hr ⟨q, hq, hw⟩
  exact (h.good hr).fresh g (hpool.subset hg) q hq hw

/-! ## No other walk notices -/

section

variable (h : Isolated k users s) (hr : users r) (hw : Within r s s') (hr' : r' = k ∨ users r')
  (hne : r' ≠ r)
include h hr hw hr' hne

/-- An entry that a walk of another root reads is not written. -/
theorem Isolated.entry_other {f : Frame} (hf : Tables s r' f) (i : Fin 512) :
    entries s'.mem f i = entries s.mem f i := by
  by_contra hcon
  rcases hw f i hcon with ⟨hmine, -⟩ | hpool
  · exact h.mine r hr f hmine r' hr' hne hf
  · obtain ⟨q, hq, hf⟩ := hf
    exact (h.good hr').fresh f hpool q hq hf

theorem Isolated.walk_other {q : List (Fin 512)} (hq : q.length ≤ 3) :
    tableWalk s' r' q = tableWalk s r' q :=
  walk_of_tables (fun _ hf => h.entry_other hr hw hr' hne hf) hq

/-- The lookups of every other root stay as they are. -/
theorem Isolated.pte_other (a : Word) : pte s' r' a = pte s r' a :=
  pte_of_tables (fun _ hf => h.entry_other hr hw hr' hne hf) a

end

section

variable (h : Isolated k users s) (hr : users r)
include h hr

theorem Isolated.pte_own (hw : Within r s s') {a : Word} (ha : ¬ Private (tableIndex a 39)) :
    pte s' r a = pte s r a := by
  refine find_congr fun q i q' hsplit f hf => ?_
  by_contra hcon
  have hlen := congrArg List.length hsplit
  simp [tablePath] at hlen
  have hpool : f.val ∉ s.pool := fun hpool => (h.user r hr).fresh f hpool q (by omega) hf
  obtain ⟨hmine, hroot⟩ := (hw f i hcon).resolve_right hpool
  cases q with
  | nil =>
    cases hf
    simp only [tablePath, List.cons_append, List.nil_append, List.cons.injEq] at hsplit
    exact ha (hsplit.1 ▸ hroot rfl)
  | cons j q =>
    simp only [tablePath, List.cons_append, List.cons.injEq] at hsplit
    obtain ⟨rfl, -⟩ := hsplit
    have hk : k ≠ r := fun heq => h.proper (heq ▸ hr)
    refine h.mine r hr f hmine k (.inl rfl) hk ⟨_, ?_, (h.walk_shared hr ha q).symm.trans hf⟩
    simp
    simp at hlen
    omega

/-- The invariant survives an edit of a process root below its private
indices. -/
theorem Isolated.edit (hs : OwnEdit r s s') : Isolated k users s' := by
  have hgood := h.user r hr
  have hw := hs.within hgood
  have hother : ∀ r', r' = k ∨ users r' → r' ≠ r → ∀ q : List (Fin 512), q.length ≤ 3 →
      tableWalk s' r' q = tableWalk s r' q := fun r' hr' hne q hq => h.walk_other hr hw hr' hne hq
  have hkr : k ≠ r := fun heq => h.proper (heq ▸ hr)
  -- a table of any root was one before, or was in the pool
  have htables : ∀ r', r' = k ∨ users r' → ∀ q : List (Fin 512), q.length ≤ 3 → ∀ f,
      tableWalk s' r' q = some f → tableWalk s r' q = some f ∨ f.val ∈ s.pool := by
    intro r' hr' q hq f hf
    by_cases hne : r' = r
    · subst hne
      exact hgood.walk_of_edit hs hq hf
    · rw [hother r' hr' hne q hq] at hf
      exact .inl hf
  have hfresh : ∀ r', r' = k ∨ users r' → ∀ f : Frame, f.val ∈ s.pool → ¬ Tables s r' f := by
    rintro r' hr' f hf ⟨q, hq, hw⟩
    exact (h.good hr').fresh f hf q hq hw
  refine ⟨h.kernel.of_walk hs.pool (hother k (.inl rfl) hkr), fun r' hr' => ?_,
    fun r' hr' i hi => ?_, fun r₁ hr₁ f hmine r₂ hr₂ hne htab => ?_, h.proper⟩
  · by_cases hne : r' = r
    · exact hne ▸ hs.good hgood
    · exact (h.user r' hr').of_walk hs.pool (hother r' (.inr hr') hne)
  · have hkentry := h.entry_other hr hw (.inl rfl) hkr (tables_root s k) i
    have hentry : entries s'.mem r' i = entries s.mem r' i := by
      by_cases hne : r' = r
      · subst hne
        by_contra hcon
        rcases hw r' i hcon with ⟨-, hroot⟩ | hpool
        · exact hi (hroot rfl)
        · exact hgood.fresh r' hpool [] (by simp) rfl
      · exact h.entry_other hr hw (.inr hr') hne (tables_root s r') i
    rw [hentry, hkentry]
    exact h.shared r' hr' i hi
  · obtain ⟨q₁, hq₁, hhead, hf₁⟩ := hmine
    obtain ⟨q₂, hq₂, hf₂⟩ := htab
    rcases htables r₁ (.inr hr₁) q₁ hq₁ f hf₁ with hold₁ | hpool
    · rcases htables r₂ hr₂ q₂ hq₂ f hf₂ with hold₂ | hpool
      · exact h.mine r₁ hr₁ f ⟨q₁, hq₁, hhead, hold₁⟩ r₂ hr₂ hne ⟨q₂, hq₂, hold₂⟩
      · exact hfresh r₁ (.inr hr₁) f hpool ⟨q₁, hq₁, hold₁⟩
    · -- a fresh frame was linked under `r₁`, so `r₁` is the edited root and `r₂` is not
      by_cases hr₁r : r₁ = r
      · subst hr₁r
        rw [hother r₂ hr₂ hne q₂ hq₂] at hf₂
        exact hfresh r₂ hr₂ f hpool ⟨q₂, hq₂, hf₂⟩
      · rw [hother r₁ (.inr hr₁) hr₁r q₁ hq₁] at hf₁
        exact hfresh r₁ (.inr hr₁) f hpool ⟨q₁, hq₁, hf₁⟩

/-- What a run of edits of `r` below its private indices does to lookups. -/
theorem Isolated.edits (hs : Edits r Private s s') :
    Isolated k users s' ∧
      (∀ r', r' = k ∨ users r' → r' ≠ r → ∀ a, pte s' r' a = pte s r' a) ∧
      ∀ a, ¬ Private (tableIndex a 39) → pte s' r a = pte s r a := by
  induction hs with
  | refl => exact ⟨h, fun _ _ _ _ => rfl, fun _ _ => rfl⟩
  | tail _ hstep ih =>
    obtain ⟨hiso, hother, hown⟩ := ih
    have hstep' : OwnEdit r _ _ := hstep
    have hw := hstep'.within (hiso.user r hr)
    refine ⟨hiso.edit hr hstep', fun r' hr' hne a => ?_, fun a ha => ?_⟩
    · rw [hiso.pte_other hr hw hr' hne a, hother r' hr' hne a]
    · rw [hiso.pte_own hr hw ha, hown a ha]

end

/-! ## A new root -/

/-- Of the root `g`, the entries at the indices `is` have become those of `v`. -/
def Filled (g : Frame) (v : Fin 512 → Word) (is : List (Fin 512)) (s s' : Machine) : Prop :=
  ∀ f i, (f = g ∧ i ∈ is → entries s'.mem f i = v i) ∧
    (¬ (f = g ∧ i ∈ is) → entries s'.mem f i = entries s.mem f i)

theorem Filled.cons {g : Frame} {v : Fin 512 → Word} {is : List (Fin 512)} {j : Fin 512}
    (h : Filled g v is (s.write (cell g j) (Mem.leBytes 8 (v j))) s') :
    Filled g v (j :: is) s s' := by
  intro f i
  obtain ⟨hin, hout⟩ := h f i
  rw [entries_write_cell] at hout
  constructor
  · rintro ⟨rfl, hmem⟩
    by_cases hi : i ∈ is
    · exact hin ⟨rfl, hi⟩
    · obtain rfl := (List.mem_cons.mp hmem).resolve_right hi
      rw [hout fun hboth => hi hboth.2, OreOS.Lib.Radix.setEntry_self]
  · intro hnot
    rw [hout fun hboth => hnot ⟨hboth.1, List.mem_cons_of_mem _ hboth.2⟩]
    refine OreOS.Lib.Radix.setEntry_of_ne ?_
    by_contra hboth
    rw [not_or, not_not, not_not] at hboth
    exact hnot ⟨hboth.1, hboth.2 ▸ List.mem_cons_self⟩

theorem copyEntries_apply {g : Frame} (hgk : g ≠ k) (is : List (Fin 512)) (s : Machine) :
    ∃ s', copyEntries g k is s = (.ok (), s') ∧ s'.pool = s.pool ∧
      Filled g (entries s.mem k) is s s' := by
  induction is generalizing s with
  | nil => exact ⟨s, rfl, rfl, fun f i => by simp⟩
  | cons j is ih =>
    obtain ⟨s', hrun, hpool, hfilled⟩ :=
      ih (s.write (cell g j) (Mem.leBytes 8 (entries s.mem k j)))
    have hsame : entries (s.write (cell g j) (Mem.leBytes 8 (entries s.mem k j))).mem k =
        entries s.mem k := by
      rw [entries_write_cell]
      exact funext fun i => OreOS.Lib.Radix.setEntry_of_ne (.inl hgk.symm)
    rw [hsame] at hfilled
    exact ⟨s', hrun, hpool, hfilled.cons⟩

theorem clearEntries_apply (g : Frame) (is : List (Fin 512)) (s : Machine) :
    ∃ s', clearEntries g is s = (.ok (), s') ∧ s'.pool = s.pool ∧ Filled g (fun _ => 0) is s s' := by
  induction is generalizing s with
  | nil => exact ⟨s, rfl, rfl, fun f i => by simp⟩
  | cons j is ih =>
    obtain ⟨s', hrun, hpool, hfilled⟩ := ih (s.write (cell g j) (Mem.leBytes 8 0))
    exact ⟨s', hrun, hpool, hfilled.cons⟩

theorem mem_userIndices {i : Fin 512} : i ∈ userIndices ↔ Private i := by
  simp [userIndices, Private]

/-- `vmm_create_user_pml4` fills the next frame of the pool with the kernel's
entries outside the private indices. -/
theorem vmmCreateUserPml4_apply {page : Word} {pool : List Word} (hpool : s.pool = page :: pool)
    (hpage : Allocatable page) (hne : (⟨page, hpage.aligned⟩ : Frame) ≠ k) :
    ∃ s', vmmCreateUserPml4 k s = (.ok page, s') ∧ s'.pool = pool ∧
      ∀ f i, entries s'.mem f i =
        if f = ⟨page, hpage.aligned⟩ then if Private i then 0 else entries s.mem k i
        else entries s.mem f i := by
  rw [vmmCreateUserPml4, Exec.bind_ok (newTable_apply hpool)]
  obtain ⟨s₁, h₁, hp₁, he₁⟩ := copyEntries_apply hne (List.finRange 512)
    (cleared s page pool)
  obtain ⟨s₂, h₂, hp₂, he₂⟩ := clearEntries_apply ⟨page, hpage.aligned⟩ userIndices s₁
  rw [Exec.bind_ok h₁, Exec.bind_ok h₂]
  refine ⟨s₂, rfl, hp₂.trans hp₁, fun f i => ?_⟩
  obtain ⟨hin₁, hout₁⟩ := he₁ f i
  obtain ⟨hin₂, hout₂⟩ := he₂ f i
  rw [entries_cleared s hpage] at hin₁ hout₁
  by_cases hf : f = ⟨page, hpage.aligned⟩
  · rw [if_pos hf]
    by_cases hi : Private i
    · rw [if_pos hi, hin₂ ⟨hf, mem_userIndices.mpr hi⟩]
    · rw [if_neg hi, hout₂ fun hboth => hi (mem_userIndices.mp hboth.2),
        hin₁ ⟨hf, List.mem_finRange i⟩]
      exact OreOS.Lib.Radix.fill_of_ne hne.symm
  · rw [if_neg hf, hout₂ fun hboth => hf hboth.1, hout₁ fun hboth => hf hboth.1]
    exact OreOS.Lib.Radix.fill_of_ne hf

section Create

variable {g : Frame}

/-- `g` has become a root that carries the kernel's entries. -/
structure RootCreated (k g : Frame) (s s' : Machine) : Prop where
  pool : s.pool = g.val :: s'.pool
  entry : ∀ f i, entries s'.mem f i =
    if f = g then if Private i then 0 else entries s.mem k i else entries s.mem f i

theorem Isolated.create (h : Isolated k users s) (hc : RootCreated k g s s') :
    Isolated k (fun r => r = g ∨ users r) s' ∧
      ∀ r, r = k ∨ users r → ∀ a, pte s' r a = pte s r a := by
  have hgpool : g.val ∈ s.pool := by
    rw [hc.pool]
    exact List.mem_cons_self
  have hnodup := h.kernel.nodup
  rw [hc.pool, List.nodup_cons] at hnodup
  have hsuffix : s'.pool <:+ s.pool := by
    rw [hc.pool]
    exact List.suffix_cons _ _
  have hunlinked : ∀ r, r = k ∨ users r → ¬ Tables s r g := by
    rintro r hr ⟨q, hq, hw⟩
    exact (h.good hr).fresh g hgpool q hq hw
  have hentry : ∀ f i, f ≠ g → entries s'.mem f i = entries s.mem f i := fun f i hf => by
    rw [hc.entry, if_neg hf]
  -- the new root is in nobody's tables, so nobody's walk reads it
  obtain ⟨hiso, hwalk, hpte⟩ := h.frame hsuffix fun r hr f hf i =>
    hentry f i fun heq => hunlinked r hr (heq ▸ hf)
  have hgfresh : ∀ r, r = k ∨ users r → ¬ Tables s' r g := by
    rintro r hr ⟨q, hq, hw⟩
    exact hunlinked r hr ⟨q, hq, (hwalk r hr q hq).symm.trans hw⟩
  have hkg : k ≠ g := by
    rintro rfl
    exact hgfresh k (.inl rfl) (tables_root s' k)
  have hown : ∀ i, ¬ Private i → entries s'.mem g i = entries s'.mem k i := fun i hi => by
    rw [hc.entry, if_pos rfl, if_neg hi, hentry k i hkg]
  have hnew : ∀ i q f, tableWalk s' g (i :: q) = some f →
      ¬ Private i ∧ tableWalk s' k (i :: q) = some f := by
    intro i q f hf
    by_cases hi : Private i
    · rw [tableWalk, OreOS.Lib.Radix.walk_cons, hc.entry, if_pos rfl, if_pos hi] at hf
      cases hf
    · refine ⟨hi, ?_⟩
      rw [tableWalk, OreOS.Lib.Radix.walk_cons, hown i hi] at hf
      exact hf
  have hgood : Good g s' := by
    refine ⟨fun p q f hp hq hpf hqf => ?_, fun q hq hw => ?_, hnodup.2, hiso.kernel.alloc,
      fun f hf q hq hw => ?_⟩
    · have hself : ∀ i q, (i :: q : List (Fin 512)).length ≤ 3 →
          tableWalk s' g (i :: q) ≠ some g := fun i q hq hw =>
        hgfresh k (.inl rfl) ⟨_, hq, (hnew i q g hw).2⟩
      cases p with
      | nil =>
        cases hpf
        cases q with
        | nil => rfl
        | cons j q => exact absurd hqf (hself j q hq)
      | cons i p =>
        cases q with
        | nil =>
          cases hqf
          exact absurd hpf (hself i p hp)
        | cons j q => exact hiso.kernel.tree _ _ f hp hq (hnew i p f hpf).2 (hnew j q f hqf).2
    · cases q with
      | nil =>
        cases hw
        exact (h.kernel.alloc _ hgpool).ne rfl
      | cons i q => exact hiso.kernel.null _ hq (hnew i q _ hw).2
    · cases q with
      | nil =>
        cases hw
        exact hnodup.1 hf
      | cons i q => exact hiso.kernel.fresh f hf _ hq (hnew i q _ hw).2
  refine ⟨⟨hiso.kernel, ?_, ?_, ?_, ?_⟩, hpte⟩
  · rintro r (rfl | hr)
    · exact hgood
    · exact hiso.user r hr
  · rintro r (rfl | hr) i hi
    · exact hown i hi
    · exact hiso.shared r hr i hi
  · rintro r₁ hr₁ f hmine r₂ hr₂ hne htab
    have hold₂ : r₂ ≠ g → r₂ = k ∨ users r₂ := fun hne₂ =>
      hr₂.elim .inl fun h => h.elim (absurd · hne₂) .inr
    rcases hr₁ with rfl | hr₁
    · obtain ⟨q₁, hq₁, hhead, hf₁⟩ := hmine
      have hfg : f = r₁ := by
        cases q₁ with
        | nil => exact (Option.some.inj hf₁).symm
        | cons i q => exact absurd (hhead i rfl) (hnew i q f hf₁).1
      exact hgfresh r₂ (hold₂ hne) (hfg ▸ htab)
    · by_cases hr₂g : r₂ = g
      · subst hr₂g
        obtain ⟨q₂, hq₂, hf₂⟩ := htab
        cases q₂ with
        | nil =>
          cases hf₂
          exact hgfresh r₁ (.inr hr₁) hmine.tables
        | cons i q =>
          exact hiso.mine r₁ hr₁ f hmine k (.inl rfl) (fun heq => h.proper (heq ▸ hr₁))
            ⟨_, hq₂, (hnew i q f hf₂).2⟩
      · exact hiso.mine r₁ hr₁ f hmine r₂ (hold₂ hr₂g) hne htab
  · rintro (heq | hk)
    · exact hkg heq
    · exact h.proper hk

/-- `vmm_create_user_pml4`, when it returns: a new process root. -/
theorem Isolated.vmmCreateUserPml4 {root : Word} (h : Isolated k users s)
    (hrun : vmmCreateUserPml4 k s = (.ok root, s')) :
    ∃ hroot : Mem.Aligned root, RootCreated k ⟨root, hroot⟩ s s' := by
  cases hpool : s.pool with
  | nil =>
    rw [Kernel.vmmCreateUserPml4, Exec.bind_error (newTable_panic hpool)] at hrun
    cases hrun
  | cons page pool =>
    have hmem : page ∈ s.pool := by
      rw [hpool]
      exact List.mem_cons_self
    have hpage := h.kernel.alloc page hmem
    have hne : (⟨page, hpage.aligned⟩ : Frame) ≠ k := fun heq =>
      h.kernel.fresh k (heq ▸ hmem) [] (by simp) rfl
    obtain ⟨s₁, hspec, hpool₁, hentry⟩ := vmmCreateUserPml4_apply hpool hpage hne
    cases hspec.symm.trans hrun
    exact ⟨hpage.aligned, by rw [hpool, hpool₁], hentry⟩

/-- A frame of the pool is enough for a new root. -/
theorem Good.vmmCreateUserPml4 (h : Good k s) {page : Word} {pool : List Word}
    (hpool : s.pool = page :: pool) : ∃ s', vmmCreateUserPml4 k s = (.ok page, s') ∧ s'.pool = pool := by
  have hmem : page ∈ s.pool := by
    rw [hpool]
    exact List.mem_cons_self
  have hpage := h.alloc page hmem
  have hne : (⟨page, hpage.aligned⟩ : Frame) ≠ k := fun heq =>
    h.fresh k (heq ▸ hmem) [] (by simp) rfl
  obtain ⟨s', hrun, hpool', -⟩ := vmmCreateUserPml4_apply hpool hpage hne
  exact ⟨s', hrun, hpool'⟩

end Create

/-! ## Runs -/

/-- The 48 address bits lie outside `[USER_BASE, USER_LIMIT)`. -/
def OutsideUser (a : Word) : Prop :=
  a.toNat % 2 ^ 48 < userBase.toNat ∨ userLimit.toNat ≤ a.toNat % 2 ^ 48

instance (a : Word) : Decidable (OutsideUser a) :=
  inferInstanceAs (Decidable (_ ∨ _))

theorem userBase_toNat : userBase.toNat = 2 ^ 39 := rfl

theorem userLimit_toNat : userLimit.toNat = 2 ^ 47 := rfl

/-- The private indices are those of the user half. -/
theorem private_iff {a : Word} : Private (tableIndex a 39) ↔ ¬ OutsideUser a := by
  rw [Private, OutsideUser, tableIndex_val, userBase_toNat, userLimit_toNat]
  omega

theorem topPages_user {virt size : Word} (h : Spaces.UserRange virt size) :
    TopPages Private (alignDown virt) (rangePages virt size) := by
  obtain ⟨hbase, hlimit⟩ := h
  rw [userBase_toNat] at hbase
  rw [userLimit_toNat] at hlimit
  have hrange : virt.toNat + size.toNat ≤ 2 ^ 48 := by omega
  intro i hi
  have hround := toNat_roundAddr hrange hi
  have hend := toNat_rangeEnd hrange
  have hdown := toNat_alignDown virt
  have hsum : (virt + size).toNat = virt.toNat + size.toNat := by bv_omega
  have hup := toNat_alignUp (a := virt + size) (by omega)
  rw [Private, tableIndex_val, hround]
  omega

instance (virt size : Word) : Decidable (Spaces.UserRange virt size) :=
  inferInstanceAs (Decidable (_ ∧ _))

namespace Spaces

variable {c c' : Spaces} {call : SpaceCall}

/-- The roots are page aligned and isolated. -/
structure Ok (k : Frame) (c : Spaces) : Prop where
  kernel : c.kernel = k.val
  aligned : ∀ root ∈ c.roots, Mem.Aligned root
  isolated : Isolated k (fun r => r.val ∈ c.roots) c.machine

/-- The lookups that a call must not change are the same after it. -/
def Undisturbed (c : Spaces) (call : SpaceCall) (c' : Spaces) : Prop :=
  ∀ r : Frame, r.val = c.kernel ∨ r.val ∈ c.roots → ∀ a,
    call.root ≠ some r.val ∨ OutsideUser a → pte c'.machine r a = pte c.machine r a

theorem run_eq_some {α : Type} {x : Kern α} {next : α → Machine → Spaces}
    (h : c.run x next = some c') : ∃ a s, x c.machine = (.ok a, s) ∧ c' = next a s := by
  unfold run at h
  split at h
  next a s hx => exact ⟨a, s, hx, (Option.some.inj h).symm⟩
  next => cases h

theorem Ok.edits (h : c.Ok k) {root : Word} (hroot : root ∈ c.roots) {s' : Machine}
    (hs : Edits ⟨root, h.aligned root hroot⟩ Private c.machine s') :
    Ok k { c with machine := s' } ∧
      ∀ r : Frame, r.val = c.kernel ∨ r.val ∈ c.roots → ∀ a,
        some root ≠ some r.val ∨ OutsideUser a → pte s' r a = pte c.machine r a := by
  obtain ⟨hiso, hother, hown⟩ := h.isolated.edits (r := ⟨root, h.aligned root hroot⟩) hroot hs
  refine ⟨⟨h.kernel, h.aligned, hiso⟩, fun r hr a hra => ?_⟩
  by_cases hne : r = ⟨root, h.aligned root hroot⟩
  · subst hne
    refine hown a ?_
    rw [private_iff, not_not]
    exact hra.resolve_left (not_not.mpr rfl)
  · refine hother r ?_ hne a
    rw [h.kernel] at hr
    exact hr.imp_left Subtype.ext

theorem Ok.create (h : c.Ok k) {root : Word} {s' : Machine}
    (hrun : vmmCreateUserPml4 c.kernel c.machine = (.ok root, s')) :
    Ok k { c with machine := s', roots := root :: c.roots } ∧
      c.Undisturbed .create { c with machine := s', roots := root :: c.roots } := by
  rw [h.kernel] at hrun
  obtain ⟨hroot, hcreated⟩ := h.isolated.vmmCreateUserPml4 hrun
  obtain ⟨hiso, hsame⟩ := h.isolated.create hcreated
  have husers : (fun r : Frame => r.val ∈ root :: c.roots) =
      fun r => r = ⟨root, hroot⟩ ∨ r.val ∈ c.roots := by
    funext r
    rw [List.mem_cons, Subtype.ext_iff]
  refine ⟨⟨h.kernel, ?_, by rw [husers]; exact hiso⟩, fun r hr a _ => hsame r ?_ a⟩
  · intro w hw
    rcases List.mem_cons.mp hw with rfl | hw
    · exact hroot
    · exact h.aligned w hw
  · rw [h.kernel] at hr
    exact hr.imp_left Subtype.ext

theorem Ok.step (h : c.Ok k) (hok : c.Proper call) (hs : c.step call = some c') :
    c'.Ok k ∧ c.Undisturbed call c' := by
  cases call with
  | create =>
    obtain ⟨root, s', hrun, rfl⟩ := run_eq_some hs
    exact h.create hrun
  | map root virt phys size flags =>
    obtain ⟨res, s', hrun, rfl⟩ := run_eq_some hs
    obtain ⟨hroot, hrange⟩ := hok
    have hgood := h.isolated.user ⟨root, h.aligned root hroot⟩ hroot
    rcases mapPages_spec flags _ hgood (alignDown virt) (alignDown phys)
      (topPages_user hrange) with ⟨s₁, hspec, hedits, -⟩ | ⟨s₁, hspec, -⟩
    · cases hspec.symm.trans hrun
      exact h.edits hroot hedits
    · cases hspec.symm.trans hrun
  | protect root virt size flags =>
    obtain ⟨res, s', hrun, rfl⟩ := run_eq_some hs
    obtain ⟨hroot, hrange⟩ := hok
    have hgood := h.isolated.user ⟨root, h.aligned root hroot⟩ hroot
    obtain ⟨res₁, s₁, hspec, hedits, -⟩ := protectPages_spec flags _ hgood
      (alignDown virt) (topPages_user hrange)
    cases hspec.symm.trans hrun
    exact h.edits hroot hedits
  | unmap root virt size =>
    obtain ⟨res, s', hrun, rfl⟩ := run_eq_some hs
    obtain ⟨hroot, hrange⟩ := hok
    have hgood := h.isolated.user ⟨root, h.aligned root hroot⟩ hroot
    obtain ⟨s₁, hspec, hedits, -, -⟩ := unmapPages_spec _ hgood (alignDown virt)
      (topPages_user hrange)
    cases hspec.symm.trans hrun
    exact h.edits hroot hedits

theorem roots_subset (hs : c.step call = some c') : c.roots ⊆ c'.roots := by
  cases call with
  | create =>
    obtain ⟨root, s', -, rfl⟩ := run_eq_some hs
    exact List.subset_cons_self root c.roots
  | _ =>
    obtain ⟨res, s', -, rfl⟩ := run_eq_some hs
    exact List.Subset.refl _

/-- From a kernel root whose tables are a tree, in every run of proper calls,
each call changes no translation and no flags in any other root, and nothing
outside the user half in its own. -/
theorem calls_isolated {c₀ : Spaces} (hk : c₀.kernel = k.val) (hroots : c₀.roots = [])
    (hboot : Good k c₀.machine) (hrun : Run Spaces.step Proper c₀ c) (hok : c.Proper call)
    (hs : c.step call = some c') (r : Frame) (hr : r.val = c.kernel ∨ r.val ∈ c.roots) (a : Word)
    (ha : call.root ≠ some r.val ∨ OutsideUser a) : SameTranslation r c.machine c'.machine a := by
  have hstart : c₀.Ok k := by
    refine ⟨hk, fun w hw => ?_, hboot, ?_, ?_, ?_, ?_⟩ <;> simp_all
  have h : c.Ok k := hrun.invariant hstart fun _ _ _ h hok hs => (h.step hok hs).1
  obtain ⟨h', hsame⟩ := h.step hok hs
  have hroot : r = k ∨ r.val ∈ c.roots := by
    rw [h.kernel] at hr
    exact hr.imp_left Subtype.ext
  have hroot' : r = k ∨ r.val ∈ c'.roots := hroot.imp_right fun hw => roots_subset hs hw
  exact sameTranslation_of_pte (h.isolated.good hroot).null (h'.isolated.good hroot').null
    (hsame r hr a ha)

/-- A process root over a blank kernel root, and a page mapped in it: the
kernel root does not see the page. -/
theorem calls_isolated_blank :
    ∃ c c', Run Spaces.step Proper ⟨blank, 0x1000, []⟩ c ∧
      c.step (.map 0x2000 0x8000000000 0x9000 4096 (vmmUser ||| vmmWrite)) = some c' ∧
      SameTranslation blankRoot c.machine c'.machine 0x8000000000 := by
  obtain ⟨s₁, hcreate, hpool, -⟩ := vmmCreateUserPml4_apply (s := blank) (k := blankRoot) rfl
    (good_blank.alloc 0x2000 (by decide)) (by decide)
  have hstep₁ : step ⟨blank, 0x1000, []⟩ .create = some ⟨s₁, 0x1000, [0x2000]⟩ := by
    have hcreate' : vmmCreateUserPml4 0x1000 blank = (.ok 0x2000, s₁) := hcreate
    simp only [step, run, hcreate']
  have hrun : Run Spaces.step Proper ⟨blank, 0x1000, []⟩ ⟨s₁, 0x1000, [0x2000]⟩ :=
    .snoc (e := .create) .refl trivial hstep₁
  have hstart : Ok blankRoot ⟨blank, 0x1000, []⟩ := by
    refine ⟨rfl, nofun, good_blank, nofun, nofun, nofun, nofun⟩
  have hgood := (hstart.create hcreate).1.isolated.user ⟨0x2000, by decide⟩
    List.mem_cons_self
  have hrange : (0x8000000000 : Word).toNat + (4096 : Word).toNat ≤ 2 ^ 48 := by decide
  have hphys : (alignDown 0x9000).toNat + 4096 * rangePages 0x8000000000 4096 ≤ 2 ^ 52 := by decide
  have hflags : VmmBits (vmmUser ||| vmmWrite) := by decide
  obtain ⟨s₂, hmap, -⟩ := mapInRoot_spec hgood hrange hphys hflags
    (by show _ ≤ s₁.pool.length; rw [hpool]; decide)
  have hstep₂ : step ⟨s₁, 0x1000, [0x2000]⟩
      (.map 0x2000 0x8000000000 0x9000 4096 (vmmUser ||| vmmWrite)) =
        some ⟨s₂, 0x1000, [0x2000]⟩ := by
    have hmap' : mapInRoot 0x2000 0x8000000000 0x9000 4096 (vmmUser ||| vmmWrite) s₁ =
      (.ok 0, s₂) := hmap
    simp only [step, run, hmap']
  refine ⟨_, _, hrun, hstep₂, ?_⟩
  have hproper : Proper ⟨s₁, 0x1000, [0x2000]⟩
      (.map 0x2000 0x8000000000 0x9000 4096 (vmmUser ||| vmmWrite)) :=
    ⟨List.mem_cons_self, by decide⟩
  exact calls_isolated (k := blankRoot) rfl rfl good_blank hrun hproper hstep₂ blankRoot
    (.inl rfl) _ (.inl (by decide))

end Spaces

end OreOS.Kernel
