import OreOS.Laws.Kernel.Isolation

/-!
# Footprints

The trace of a machine says where its stores went. A process under construction
owns its root and the frames that were handed out since. `Owner` says that every
store since then went to a frame the process owns, that the tables it edits are
its own and that nobody else's lookups have changed.
-/

namespace OreOS.Kernel

open OreOS.Lib (Word Byte Mem Exec)
open OreOS.Lib.Radix (walk_congr)

/-! ## The trace -/

/-- The byte is one of those a store wrote. -/
def Touches (w : Word × Nat) (y : Word) : Prop :=
  (y - w.1).toNat < w.2

instance (w : Word × Nat) (y : Word) : Decidable (Touches w y) :=
  inferInstanceAs (Decidable (_ < _))

/-- A property of machines that stores and the allocator keep. -/
structure Stable (I : Machine → Prop) : Prop where
  write : ∀ s a bs, I s → I (s.write a bs)
  pool : ∀ s pool, I s → I { s with pool := pool }

theorem stable_trace (tr : List (Word × Nat)) : Stable fun s => tr <:+ s.trace where
  write s a bs h := h.trans (List.suffix_cons (a, bs.length) s.trace)
  pool _ _ h := h

/-- The bytes that no store since `s₀` touched are as they were. -/
def Traced (s₀ s : Machine) : Prop :=
  ∃ new, s.trace = new ++ s₀.trace ∧ ∀ y, (∀ w ∈ new, ¬ Touches w y) → s.mem y = s₀.mem y

theorem stable_traced (s₀ : Machine) : Stable (Traced s₀) where
  write s a bs := by
    rintro ⟨new, htrace, hmem⟩
    refine ⟨(a, bs.length) :: new, congrArg _ htrace, fun y hy => ?_⟩
    obtain ⟨hlast, hbefore⟩ := List.forall_mem_cons.mp hy
    rw [← hmem y hbefore]
    exact Mem.write_outside (Nat.le_of_not_lt hlast)
  pool _ _ h := h

theorem Traced.refl (s : Machine) : Traced s s :=
  ⟨[], rfl, fun _ _ => rfl⟩

theorem keeps_load {I : Machine → Prop} (a : Word) : Exec.Keeps I (load a) :=
  fun _ h => h

namespace Stable

variable {I : Machine → Prop} (hI : Stable I)
include hI

theorem store (a v : Word) : Exec.Keeps I (store a v) :=
  fun s h => hI.write s _ _ h

theorem memZero (a : Word) (n : Nat) : Exec.Keeps I (memZero a n) :=
  fun s h => hI.write s _ _ h

theorem pmmAllocPage : Exec.Keeps I pmmAllocPage := by
  intro s h
  cases hpool : s.pool with
  | nil =>
    rw [pmmAllocPage_nil hpool]
    exact h
  | cons page pool =>
    rw [pmmAllocPage_cons hpool]
    exact hI.write _ _ _ (hI.pool s pool h)

theorem newTable : Exec.Keeps I newTable := by
  refine hI.pmmAllocPage.bind fun page => ?_
  cases page with
  | none => exact .throw _
  | some page => exact (hI.memZero page 4096).bind fun _ => .pure _

theorem nextTable (table : Word) (i : Fin 512) (create : Bool) (flags : Word) :
    Exec.Keeps I (nextTable table i create flags) := by
  refine (keeps_load _).bind fun e => .ite (fun _ => .ite (fun _ => ?_) fun _ => .pure _) fun _ => ?_
  · exact hI.newTable.bind fun c => (hI.store _ _).bind fun _ => (keeps_load _).bind fun _ => .pure _
  · exact (keeps_load _).bind fun _ => .pure _

theorem pteForRoot (root virt : Word) (create : Bool) (flags : Word) :
    Exec.Keeps I (pteForRoot root virt create flags) := by
  refine (hI.nextTable _ _ _ _).bind fun pdpt => ?_
  cases pdpt with
  | none => exact .pure _
  | some pdpt =>
    refine (hI.nextTable _ _ _ _).bind fun pd => ?_
    cases pd with
    | none => exact .pure _
    | some pd =>
      refine (hI.nextTable _ _ _ _).bind fun pt => ?_
      cases pt with
      | none => exact .pure _
      | some pt => exact .pure _

theorem mapPages (root flags : Word) (n : Nat) (addr phys : Word) :
    Exec.Keeps I (mapPages root flags n addr phys) := by
  induction n generalizing addr phys with
  | zero => exact .pure _
  | succ n ih =>
    refine (hI.pteForRoot _ _ _ _).bind fun pte => ?_
    cases pte with
    | none => exact .pure _
    | some pte => exact (hI.store _ _).bind fun _ => ih _ _

theorem protectPages (root flags : Word) (n : Nat) (addr : Word) :
    Exec.Keeps I (protectPages root flags n addr) := by
  induction n generalizing addr with
  | zero => exact .pure _
  | succ n ih =>
    refine (hI.pteForRoot _ _ _ _).bind fun pte => ?_
    cases pte with
    | none => exact .pure _
    | some pte =>
      refine (keeps_load _).bind fun _ => .ite (fun _ => .pure _) fun _ => ?_
      exact (keeps_load _).bind fun _ => (hI.store _ _).bind fun _ => ih _

theorem vmmVirtToPhysIn (root virt : Word) : Exec.Keeps I (vmmVirtToPhysIn root virt) := by
  refine (hI.pteForRoot _ _ _ _).bind fun pte => ?_
  cases pte with
  | none => exact .pure _
  | some pte =>
    refine (keeps_load _).bind fun _ => .ite (fun _ => .pure _) fun _ => ?_
    exact (keeps_load _).bind fun _ => .pure _

end Stable

/-! ## What a process owns -/

section Owner

variable {k g : Frame} {users : Frame → Prop} {s₀ s s' : Machine}

/-- The frame is the process's root, or was handed out since `s₀`. -/
def Own (g : Frame) (s₀ s : Machine) (f : Frame) : Prop :=
  f = g ∨ f.val ∈ s₀.pool ∧ f.val ∉ s.pool

/-- Every byte stored since `s₀` is in a frame the process owns. -/
def WritesOwn (g : Frame) (s₀ s : Machine) : Prop :=
  ∃ new, s.trace = new ++ s₀.trace ∧
    ∀ w ∈ new, ∀ y, Touches w y → ∃ f, Own g s₀ s f ∧ Mem.InPage f.val y

/-- Memory outside the frames the process owns is as it was. -/
theorem WritesOwn.mem_eq (h : WritesOwn g s₀ s) (htraced : Traced s₀ s) {y : Word}
    (hy : ∀ f, Own g s₀ s f → ¬ Mem.InPage f.val y) : s.mem y = s₀.mem y := by
  obtain ⟨new, htrace, hown⟩ := h
  obtain ⟨new', htrace', hmem⟩ := htraced
  obtain rfl := List.append_cancel_right (htrace'.symm.trans htrace)
  refine hmem y fun w hw htouch => ?_
  obtain ⟨f, hf, hin⟩ := hown w hw y htouch
  exact hy f hf hin

theorem WritesOwn.step (h : WritesOwn g s₀ s) {w : Word × Nat} {s' : Machine}
    (htrace : s'.trace = w :: s.trace) (hpool : s'.pool <:+ s.pool)
    (hw : ∀ y, Touches w y → ∃ f, Own g s₀ s' f ∧ Mem.InPage f.val y) : WritesOwn g s₀ s' := by
  obtain ⟨new, hnew, hown⟩ := h
  refine ⟨w :: new, by rw [htrace, hnew]; rfl, fun w' hw' y hy => ?_⟩
  rcases List.mem_cons.mp hw' with rfl | hw'
  · exact hw y hy
  · obtain ⟨f, hf, hpage⟩ := hown w' hw' y hy
    exact ⟨f, hf.imp_right fun hf => ⟨hf.1, fun hin => hf.2 (hpool.subset hin)⟩, hpage⟩

variable {y : Word}

/-- One store on the trace that is nobody's of the process is enough. -/
theorem not_writesOwn {w : Word × Nat} (h : w :: s.trace <:+ s'.trace)
    (hbefore : s₀.trace <:+ s.trace) (hy : Touches w y)
    (hno : ∀ f : Frame, f = g ∨ f.val ∈ s₀.pool → ¬ Mem.InPage f.val y) : ¬ WritesOwn g s₀ s' := by
  rintro ⟨new, hnew, hown⟩
  obtain ⟨later, hlater⟩ := h
  obtain ⟨earlier, hearlier⟩ := hbefore
  have hsplit : new = later ++ w :: earlier := by
    refine List.append_left_injective s₀.trace ?_
    simp only [← hnew, ← hlater, ← hearlier, List.append_assoc, List.cons_append]
  obtain ⟨f, hf, hpage⟩ := hown w (by rw [hsplit]; simp) y hy
  exact hno f (hf.imp_right And.left) hpage

/-- The process `g` under construction since `s₀`. -/
structure Owner (k : Frame) (users : Frame → Prop) (g : Frame) (s₀ s : Machine) : Prop where
  user : users g
  alloc : ∀ page ∈ s₀.pool, Allocatable page
  isolated : Isolated k users s
  pool : s.pool <:+ s₀.pool
  tables : ∀ f, Mine s g f → f = g ∨ f.val ∈ s₀.pool
  kernel : ∀ f, Tables s₀ k f → ∀ i, entries s.mem f i = entries s₀.mem f i
  others : ∀ r, r = k ∨ users r → ∀ a, r ≠ g ∨ ¬ Private (tableIndex a 39) →
    pte s r a = pte s₀ r a
  writes : WritesOwn g s₀ s

/-- A frame the process owns that is no table of anybody: what its pages may
be. -/
def Data (k : Frame) (users : Frame → Prop) (s₀ s : Machine) (page : Word) : Prop :=
  page ∈ s₀.pool ∧ page ∉ s.pool ∧ ∀ r, r = k ∨ users r → ∀ f, Tables s r f → f.val ≠ page

theorem Owner.trace (h : Owner k users g s₀ s) : s₀.trace <:+ s.trace :=
  let ⟨new, hnew, _⟩ := h.writes
  ⟨new, hnew.symm⟩

theorem Owner.walk_kernel (h : Owner k users g s₀ s) {q : List (Fin 512)} (hq : q.length ≤ 3) :
    tableWalk s k q = tableWalk s₀ k q := by
  refine walk_congr fun q₁ i q₂ hsplit f hf => h.kernel f ⟨q₁, ?_, hf⟩ i
  rw [hsplit] at hq
  simp at hq
  omega

variable {f : Frame}

theorem Owner.tables_kernel (h : Owner k users g s₀ s) (hf : Tables s₀ k f) : Tables s k f :=
  let ⟨q, hq, hw⟩ := hf
  ⟨q, hq, (h.walk_kernel hq).trans hw⟩

theorem Owner.own_mine (h : Owner k users g s₀ s) (hf : Mine s g f) : Own g s₀ s f := by
  refine (h.tables f hf).imp_right fun hpool => ⟨hpool, fun hin => ?_⟩
  obtain ⟨q, hq, -, hw⟩ := hf
  exact (h.isolated.user g h.user).fresh f hin q hq hw

theorem inPage_of_cell {i : Fin 512} (h : Touches (cell f i, 8) y) : Mem.InPage f.val y := by
  obtain ⟨f, hf⟩ := f
  obtain ⟨i, hi⟩ := i
  unfold Touches cell Mem.InPage Mem.Aligned at *
  dsimp only at *
  bv_omega

variable {page : Word} {pool : List Word}

theorem WritesOwn.handedOut (h : WritesOwn g s₀ s) (hnodup : s.pool.Nodup)
    (hpool : s.pool = page :: pool) (haligned : Mem.Aligned page) (hpage : page ∈ s₀.pool) :
    WritesOwn g s₀ (handedOut s page pool) := by
  rw [hpool, List.nodup_cons] at hnodup
  refine h.step rfl ?_ fun y hy => ⟨⟨page, haligned⟩, .inr ⟨hpage, hnodup.1⟩, ?_⟩
  · rw [hpool]
    exact List.suffix_cons page pool
  · rw [Touches, List.length_replicate] at hy
    exact hy

variable {a : Word} {bs : List Byte}

theorem WritesOwn.write (h : WritesOwn g s₀ s) (hf : Own g s₀ s f)
    (hin : ∀ y, Touches (a, bs.length) y → Mem.InPage f.val y) : WritesOwn g s₀ (s.write a bs) :=
  h.step rfl (List.suffix_refl _) fun y hy => ⟨f, hf, hin y hy⟩

theorem touches_page (h : Touches (page, (List.replicate 4096 (0 : Byte)).length) y) :
    Mem.InPage page y := by
  rwa [Touches, List.length_replicate] at h

theorem touches_cell {i : Fin 512} {v : Word} (h : Touches (cell f i, (Mem.leBytes 8 v).length) y) :
    Mem.InPage f.val y := by
  rw [Mem.length_leBytes] at h
  exact inPage_of_cell h

/-- The table an edit below a private index writes is the process's own. -/
theorem mine_of_walk {p : List (Fin 512)} (hp : p.length ≤ 3) (htop : ∀ i ∈ p.head?, Private i)
    (hf : tableWalk s g p = some f) : Mine s g f :=
  ⟨p, hp, htop, hf⟩

/-- An edit below a private index stores into frames of the process. -/
theorem Owner.writes_edit (h : Owner k users g s₀ s) (hs : OwnEdit g s s') :
    WritesOwn g s₀ s' := by
  have hgood := h.isolated.user g h.user
  rcases hs with ⟨p, f, i, page, flags, htop, hp, hf, hv, hflags, hpool, hmem⟩ |
    ⟨p, f, i, v, htop, hp, hf, rfl⟩
  · have hmine : Mine s g f := by
      refine mine_of_walk (by omega) (fun a ha => ?_) hf
      cases p with
      | nil => cases ha
      | cons b p => exact htop a ha
    have hpage : page ∈ s.pool := by
      rw [hpool]
      exact List.mem_cons_self
    have haligned := (hgood.alloc page hpage).aligned
    have hnodup := hgood.nodup
    rw [hpool, List.nodup_cons] at hnodup
    have hout : WritesOwn g s₀ (handedOut s page s'.pool) :=
      h.writes.handedOut hgood.nodup hpool haligned (h.pool.subset hpage)
    have hclear : WritesOwn g s₀ (cleared s page s'.pool) :=
      hout.write (f := ⟨page, haligned⟩) (.inr ⟨h.pool.subset hpage, hnodup.1⟩)
        fun y hy => touches_page hy
    rw [hmem]
    refine hclear.write (f := f) ?_ fun y hy => touches_cell hy
    refine (h.own_mine hmine).imp_right fun hown => ⟨hown.1, fun hin => hown.2 ?_⟩
    rw [hpool]
    exact List.mem_cons_of_mem _ hin
  · exact h.writes.write (h.own_mine (mine_of_walk (by omega) htop hf)) fun y hy =>
      touches_cell hy

/-- A process under construction stays one through an edit below a private
index. -/
theorem Owner.edit (h : Owner k users g s₀ s) (hs : OwnEdit g s s') :
    Owner k users g s₀ s' := by
  have hgood := h.isolated.user g h.user
  have hw := hs.within hgood
  have hkg : k ≠ g := fun heq => h.isolated.proper (heq ▸ h.user)
  refine ⟨h.user, h.alloc, h.isolated.edit h.user hs, hs.pool.trans h.pool, ?_, fun f hf i => ?_, ?_,
    h.writes_edit hs⟩
  · rintro f ⟨q, hq, hhead, hf⟩
    rcases hgood.walk_of_edit hs hq hf with hold | hpool
    · exact h.tables f ⟨q, hq, hhead, hold⟩
    · exact .inr (h.pool.subset hpool)
  · rw [h.isolated.entry_other h.user hw (.inl rfl) hkg (h.tables_kernel hf) i, h.kernel f hf i]
  · intro r hr a ha
    rw [← h.others r hr a ha]
    by_cases hne : r = g
    · subst hne
      exact h.isolated.pte_own h.user hw (ha.resolve_left (not_not.mpr rfl))
    · exact h.isolated.pte_other h.user hw hr hne a

theorem Data.edit (hd : Data k users s₀ s page) (h : Owner k users g s₀ s) (hs : OwnEdit g s s') :
    Data k users s₀ s' page := by
  obtain ⟨hin, hout, htab⟩ := hd
  refine ⟨hin, fun hmem => hout (hs.pool.subset hmem), ?_⟩
  rintro r hr f ⟨q, hq, hf⟩ rfl
  by_cases hne : r = g
  · subst hne
    rcases (h.isolated.user r h.user).walk_of_edit hs hq hf with hold | hpool
    · exact htab r hr f ⟨q, hq, hold⟩ rfl
    · exact hout hpool
  · rw [h.isolated.walk_other h.user (hs.within (h.isolated.user g h.user)) hr hne hq] at hf
    exact htab r hr f ⟨q, hq, hf⟩ rfl

theorem Owner.edits (h : Owner k users g s₀ s) (hs : Edits g Private s s') :
    Owner k users g s₀ s' ∧ ∀ page, Data k users s₀ s page → Data k users s₀ s' page := by
  induction hs with
  | refl => exact ⟨h, fun _ => id⟩
  | tail _ hstep ih =>
    have hstep' : OwnEdit g _ _ := hstep
    exact ⟨ih.1.edit hstep', fun page hd => (ih.2 page hd).edit ih.1 hstep'⟩

/-- What a store into another page leaves alone. -/
theorem mem_write_of_page {page' : Word} (haligned : Mem.Aligned page)
    (haligned' : Mem.Aligned page') (hin : ∀ y, Touches (a, bs.length) y → Mem.InPage page' y)
    (hne : page ≠ page') (hy : Mem.InPage page y) : (s.write a bs).mem y = s.mem y :=
  Mem.write_outside (Nat.le_of_not_lt fun hlt =>
    hne (Mem.InPage.unique haligned haligned' hy (hin y hlt)))

theorem Data.aligned (hd : Data k users s₀ s page) (h : Owner k users g s₀ s) : Mem.Aligned page :=
  (h.alloc page hd.1).aligned

theorem mem_handedOut (hy : Mem.InPage page y) : (handedOut s page pool).mem y = 0 := by
  have hlt : (y - page).toNat < (List.replicate 4096 (0 : Byte)).length := by
    rw [List.length_replicate]
    exact hy
  exact (Mem.write_inside hlt).trans (List.getElem_replicate _)

theorem Data.mem_edit (hd : Data k users s₀ s page) (h : Owner k users g s₀ s)
    (hs : OwnEdit g s s') (hy : Mem.InPage page y) : s'.mem y = s.mem y := by
  have haligned := hd.aligned h
  rcases hs with ⟨p, f, i, page', flags, -, hp, hf, -, -, hpool, hmem⟩ |
    ⟨p, f, i, v, -, hp, hf, rfl⟩
  · have hin : page' ∈ s.pool := by
      rw [hpool]
      exact List.mem_cons_self
    have haligned' := ((h.isolated.user g h.user).alloc page' hin).aligned
    have hne : page ≠ page' := fun heq => hd.2.1 (heq ▸ hin)
    have htable : page ≠ f.val := (hd.2.2 g (.inr h.user) f ⟨p, by omega, hf⟩).symm
    rw [hmem, linked, mem_write_of_page haligned f.property (fun y hy => touches_cell hy) htable hy,
      cleared, mem_write_of_page haligned haligned' (fun y hy => touches_page hy) hne hy, handedOut]
    exact mem_write_of_page (s := { s with pool := s'.pool }) haligned haligned'
      (fun y hy => touches_page hy) hne hy
  · have htable : page ≠ f.val := (hd.2.2 g (.inr h.user) f ⟨p, by omega, hf⟩).symm
    exact mem_write_of_page haligned f.property (fun y hy => touches_cell hy) htable hy

theorem Data.mem_edits (hd : Data k users s₀ s page) (h : Owner k users g s₀ s)
    (hs : Edits g Private s s') (hy : Mem.InPage page y) : s'.mem y = s.mem y := by
  induction hs with
  | refl => rfl
  | tail hedits hstep ih =>
    obtain ⟨howner, hdata⟩ := h.edits hedits
    exact ((hdata page hd).mem_edit howner hstep hy).trans ih

/-! ## Stores outside the tables -/

theorem entries_write_of_page (haligned : Mem.Aligned page)
    (hin : ∀ y, Touches (a, bs.length) y → Mem.InPage page y) (hf : f.val ≠ page) (i : Fin 512) :
    entries (s.write a bs).mem f i = entries s.mem f i := by
  refine Mem.load64_write_outside fun j hj => Nat.le_of_not_lt fun hlt => hf ?_
  refine Mem.InPage.unique f.property haligned ?_ (hin _ hlt)
  refine inPage_of_cell (i := i) ?_
  rw [Touches, Mem.toNat_add_ofNat_sub _ (by omega)]
  exact hj

/-- What changes outside the tables of all roots, and shortens the pool, leaves
a process under construction as it is. -/
theorem Owner.frame (h : Owner k users g s₀ s) (hpool : s'.pool <:+ s.pool)
    (hent : ∀ r, r = k ∨ users r → ∀ f, Tables s r f → ∀ i,
      entries s'.mem f i = entries s.mem f i)
    (hwrites : WritesOwn g s₀ s') :
    Owner k users g s₀ s' ∧ (∀ r, r = k ∨ users r → ∀ a, pte s' r a = pte s r a) ∧
      ∀ page, Data k users s₀ s page → Data k users s₀ s' page := by
  obtain ⟨hiso, hwalk, hpte⟩ := h.isolated.frame hpool hent
  refine ⟨⟨h.user, h.alloc, hiso, hpool.trans h.pool, ?_, fun f hf i => ?_, fun r hr a ha => ?_,
    hwrites⟩, hpte, ?_⟩
  · rintro f ⟨q, hq, hhead, hf⟩
    rw [hwalk g (.inr h.user) q hq] at hf
    exact h.tables f ⟨q, hq, hhead, hf⟩
  · rw [hent k (.inl rfl) f (h.tables_kernel hf) i, h.kernel f hf i]
  · rw [hpte r hr a, h.others r hr a ha]
  · rintro page ⟨hin, hout, htab⟩
    refine ⟨hin, fun hmem => hout (hpool.subset hmem), ?_⟩
    rintro r hr f ⟨q, hq, hf⟩
    rw [hwalk r hr q hq] at hf
    exact htab r hr f ⟨q, hq, hf⟩

theorem Owner.write (h : Owner k users g s₀ s) (hd : Data k users s₀ s page)
    (hin : ∀ y, Touches (a, bs.length) y → Mem.InPage page y) (haligned : Mem.Aligned page) :
    Owner k users g s₀ (s.write a bs) ∧
      (∀ r, r = k ∨ users r → ∀ a', pte (s.write a bs) r a' = pte s r a') ∧
      ∀ page, Data k users s₀ s page → Data k users s₀ (s.write a bs) page := by
  refine h.frame (List.suffix_refl _) (fun r hr f hf i => ?_) ?_
  · exact entries_write_of_page haligned hin (hd.2.2 r hr f hf) i
  · exact h.writes.write (f := ⟨page, haligned⟩) (.inr ⟨hd.1, hd.2.1⟩) hin

theorem Owner.handedOut (h : Owner k users g s₀ s) (hpool : s.pool = page :: pool) :
    Owner k users g s₀ (handedOut s page pool) ∧
      (∀ r, r = k ∨ users r → ∀ a, pte (Kernel.handedOut s page pool) r a = pte s r a) ∧
      (∀ page', Data k users s₀ s page' → Data k users s₀ (Kernel.handedOut s page pool) page') ∧
      Data k users s₀ (Kernel.handedOut s page pool) page := by
  have hmem : page ∈ s.pool := by
    rw [hpool]
    exact List.mem_cons_self
  have haligned := (h.isolated.kernel.alloc page hmem).aligned
  have hsuffix : (Kernel.handedOut s page pool).pool <:+ s.pool := by
    rw [hpool]
    exact List.suffix_cons page pool
  have hfresh : ∀ r, r = k ∨ users r → ∀ f, Tables s r f → f.val ≠ page := by
    rintro r hr f ⟨q, hq, hf⟩ rfl
    exact (h.isolated.good hr).fresh f hmem q hq hf
  have hent : ∀ r, r = k ∨ users r → ∀ f, Tables s r f → ∀ i,
      entries (Kernel.handedOut s page pool).mem f i = entries s.mem f i := fun r hr f hf i =>
    entries_write_of_page (s := { s with pool := pool }) haligned (fun y hy => touches_page hy)
      (hfresh r hr f hf) i
  have hnodup := h.isolated.kernel.nodup
  obtain ⟨howner, hpte, hdata⟩ := h.frame hsuffix hent
    (h.writes.handedOut hnodup hpool haligned (h.pool.subset hmem))
  refine ⟨howner, hpte, hdata, h.pool.subset hmem, ?_, ?_⟩
  · rw [hpool, List.nodup_cons] at hnodup
    exact hnodup.1
  · rintro r hr f ⟨q, hq, hf⟩
    obtain ⟨-, hwalk, -⟩ := h.isolated.frame hsuffix hent
    rw [hwalk r hr q hq] at hf
    exact hfresh r hr f ⟨q, hq, hf⟩

end Owner

end OreOS.Kernel
