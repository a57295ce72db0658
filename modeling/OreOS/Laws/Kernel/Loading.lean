import OreOS.Kernel.Loader
import OreOS.Laws.Kernel.Footprint

/-!
# The steps of the loaders

`Loading M` is the state of a loader's work: the process owns what was written
(`Owner`), the pages of its user half that are mapped are those of `M`, and the
frames behind them are data frames. A step either answers 0 or stops the loader,
with an error code or in a panic (`Outcome`); in the user half it keeps
`Loading` in the first case and ownership in the second.
-/

namespace OreOS.Kernel

open OreOS.Lib (Word Byte Mem Exec)

/-! ## Outcomes -/

/-- The computation answers 0 with `G`, or it stops, with a negative code or in
a panic, with `B`. -/
def Outcome (x : Kern Int) (s : Machine) (G B : Machine → Prop) : Prop :=
  (∃ s', x s = (.ok 0, s') ∧ G s') ∨
    ∃ res s', x s = (res, s') ∧ (∀ err, res = .ok err → err < 0) ∧ B s'

section Outcome

variable {x y : Kern Int} {s : Machine} {G G' B B' : Machine → Prop}

theorem Outcome.mono (h : Outcome x s G B) (hG : ∀ s', G s' → G' s') (hB : ∀ s', B s' → B' s') :
    Outcome x s G' B' :=
  h.imp (fun ⟨s', hrun, hg⟩ => ⟨s', hrun, hG s' hg⟩)
    fun ⟨res, s', hrun, hneg, hb⟩ => ⟨res, s', hrun, hneg, hB s' hb⟩

theorem Outcome.after (h : Outcome x s G B) (hG : ∀ s', G s' → B s') : B (x s).2 := by
  rcases h with ⟨s', hrun, hg⟩ | ⟨res, s', hrun, -, hb⟩
  · rw [hrun]
    exact hG s' hg
  · rw [hrun]
    exact hb

theorem Outcome.answers (h : Outcome x s G B) (hB : ∀ s', ¬ B s') :
    ∃ s', x s = (.ok 0, s') ∧ G s' :=
  h.resolve_right fun ⟨_, s', _, _, hb⟩ => hB s' hb

theorem orReturn_zero {s' : Machine} (h : x s = (.ok 0, s')) : orReturn x y s = y s' := by
  rw [orReturn, Exec.bind_ok h, if_neg (Int.lt_irrefl 0)]

theorem orFail_zero {code : Int} {s' : Machine} (h : x s = (.ok 0, s')) :
    orFail code x y s = y s' := by
  rw [orFail, Exec.bind_ok h, if_neg (Int.lt_irrefl 0)]

theorem orReturn_inv {s' : Machine} (h : orReturn x y s = (.ok 0, s')) :
    ∃ s₁, (∀ z, orReturn x z s = z s₁) ∧ y s₁ = (.ok 0, s') := by
  rcases hrun : x s with ⟨e | err, s₁⟩
  · rw [orReturn, Exec.bind_error hrun] at h
    cases h
  · have hz : ∀ z, orReturn x z s = (if err < 0 then pure err else z : Kern Int) s₁ := fun z => by
      rw [orReturn, Exec.bind_ok hrun]
    by_cases herr : err < 0
    · rw [hz, if_pos herr] at h
      cases h
      exact absurd herr (Int.lt_irrefl 0)
    · refine ⟨s₁, fun z => by rw [hz, if_neg herr], ?_⟩
      rwa [hz, if_neg herr] at h

theorem Outcome.orReturn (hx : Outcome x s G B) (hy : ∀ s', G s' → Outcome y s' G' B) :
    Outcome (orReturn x y) s G' B := by
  rcases hx with ⟨s', hrun, hg⟩ | ⟨res, s', hrun, hneg, hb⟩
  · rw [Outcome, orReturn_zero hrun]
    exact hy s' hg
  · cases res with
    | error e => exact .inr ⟨.error e, s', Exec.bind_error hrun, nofun, hb⟩
    | ok err =>
      refine .inr ⟨.ok err, s', ?_, hneg, hb⟩
      rw [Kernel.orReturn, Exec.bind_ok hrun, if_pos (hneg err rfl)]
      rfl

/-- A loader answers `r` when its work is done, and an error otherwise. -/
theorem Outcome.loads {α : Type} {short : Prop} (h : Outcome x s G fun _ => short) (r : α) :
    (∃ s', (do let err ← x; if err < 0 then return .error err else return .ok r :
        Kern (Except Int α)) s = (.ok (.ok r), s') ∧ G s') ∨
    (∀ r' s', (do let err ← x; if err < 0 then return .error err else return .ok r :
        Kern (Except Int α)) s ≠ (.ok (.ok r'), s')) ∧ short := by
  rcases h with ⟨s', hrun, hg⟩ | ⟨res, s', hrun, hneg, hshort⟩
  · refine .inl ⟨s', ?_, hg⟩
    rw [Exec.bind_ok hrun, if_neg (Int.lt_irrefl 0)]
    rfl
  · refine .inr ⟨fun r' s'' heq => ?_, hshort⟩
    cases res with
    | error e =>
      rw [Exec.bind_error hrun] at heq
      cases heq
    | ok err =>
      rw [Exec.bind_ok hrun, if_pos (hneg err rfl)] at heq
      cases heq

end Outcome

namespace Stable

variable {I : Machine → Prop} (hI : Stable I)
include hI

omit hI in
theorem orReturn {x y : Kern Int} (hx : Exec.Keeps I x) (hy : Exec.Keeps I y) :
    Exec.Keeps I (orReturn x y) :=
  hx.bind fun _ => .ite (fun _ => .pure _) fun _ => hy

omit hI in
theorem orFail {code : Int} {x y : Kern Int} (hx : Exec.Keeps I x) (hy : Exec.Keeps I y) :
    Exec.Keeps I (orFail code x y) :=
  hx.bind fun _ => .ite (fun _ => .pure _) fun _ => hy

theorem mapFrame (root flags : Word) (clear : Bool) (noMemory refused : Int) (va : Word) :
    Exec.Keeps I (mapFrame root flags clear noMemory refused va) := by
  refine hI.pmmAllocPage.bind fun page => ?_
  cases page with
  | none => exact .pure _
  | some page =>
    refine Exec.Keeps.bind (.ite (fun _ => hI.memZero _ _) fun _ => .pure _) fun _ => ?_
    exact orFail (hI.mapPages _ _ _ _ _) (.pure _)

theorem ensurePages (root flags : Word) (clear : Bool) (noMemory refused : Int) (n : Nat)
    (va : Word) : Exec.Keeps I (ensurePages root flags clear noMemory refused n va) := by
  induction n generalizing va with
  | zero => exact .pure _
  | succ n ih =>
    exact (hI.vmmVirtToPhysIn _ _).bind fun _ =>
      .ite (fun _ => orReturn (hI.mapFrame _ _ _ _ _ _) (ih _)) fun _ => ih _

theorem stackPages (root : Word) (clear : Bool) (noMemory refused : Int) (n : Nat) (va : Word) :
    Exec.Keeps I (stackPages root clear noMemory refused n va) := by
  induction n generalizing va with
  | zero => exact .pure _
  | succ n ih => exact orReturn (hI.mapFrame _ _ _ _ _ _) (ih _)

theorem putBytes (root : Word) (refused : Int) (src : Mem) (n : Nat) (va off : Word) :
    Exec.Keeps I (putBytes root refused src n va off) := by
  induction n generalizing va off with
  | zero => exact .pure _
  | succ n ih =>
    refine (hI.vmmVirtToPhysIn _ _).bind fun _ => .ite (fun _ => .pure _) fun _ => ?_
    exact Exec.Keeps.bind (fun s h => hI.write s _ _ h) fun _ => ih _ _

end Stable

/-! ## The state of the work -/

/-- A process of which there is nothing yet but the root. -/
def FreshProcess (k : Frame) (users : Frame → Prop) (g : Frame) (s : Machine) : Prop :=
  ∃ (others : Frame → Prop) (before : Machine), Isolated k others before ∧
    vmmCreateUserPml4 k before = (.ok g.val, s) ∧ users = fun r => r = g ∨ others r

/-- A process under construction since `s₀` with the pages of `M` mapped. -/
structure Loading (k : Frame) (users : Frame → Prop) (g : Frame) (s₀ : Machine) (M : Nat → Prop)
    (s : Machine) : Prop where
  owner : Owner k users g s₀ s
  mapped : ∀ a, Private (tableIndex a 39) → ((pte s g a).isSome ↔ M (pageOf a))
  frames : ∀ a e, Private (tableIndex a 39) → pte s g a = some e →
    Data k users s₀ s (e &&& pteAddrMask)
  apart : ∀ a b e e', Private (tableIndex a 39) → Private (tableIndex b 39) →
    pte s g a = some e → pte s g b = some e' → e &&& pteAddrMask = e' &&& pteAddrMask →
    pageOf a = pageOf b

variable {k g : Frame} {users : Frame → Prop} {s₀ s s' : Machine} {M : Nat → Prop}

theorem FreshProcess.user (h : FreshProcess k users g s) : users g := by
  obtain ⟨others, before, -, -, rfl⟩ := h
  exact .inl rfl

theorem FreshProcess.loading (h : FreshProcess k users g s) :
    Loading k users g s (fun _ => False) s := by
  obtain ⟨others, before, hiso, hrun, rfl⟩ := h
  obtain ⟨hroot, hcreated⟩ := hiso.vmmCreateUserPml4 hrun
  obtain ⟨hiso', -⟩ := hiso.create hcreated
  have hempty : ∀ a, Private (tableIndex a 39) → pte s g a = none := by
    intro a ha
    have hentry : entries s.mem g (tableIndex a 39) = 0 := by
      rw [hcreated.entry, if_pos rfl, if_pos ha]
    rw [pte, leafEntry, OreOS.Lib.Radix.find, tablePath, OreOS.Lib.Radix.walk_cons, hentry]
    rfl
  refine ⟨⟨.inl rfl, hiso'.kernel.alloc, hiso', List.suffix_refl _, ?_, fun _ _ _ => rfl,
    fun _ _ _ _ => rfl, [], rfl, fun _ hw => absurd hw List.not_mem_nil⟩,
    fun a ha => ?_, fun a e ha he => ?_, fun a b e e' ha _ he => ?_⟩
  · rintro f ⟨q, hq, hhead, hf⟩
    cases q with
    | nil => exact .inl (Option.some.inj hf).symm
    | cons i q =>
      have hentry : entries s.mem g i = 0 := by
        rw [hcreated.entry, if_pos rfl, if_pos (hhead i rfl)]
      rw [tableWalk, OreOS.Lib.Radix.walk_cons, hentry] at hf
      cases hf
  · simp [hempty a ha]
  · rw [hempty a ha] at he
    cases he
  · rw [hempty a ha] at he
    cases he

/-- A loader's view of its own pages is not changed by a step that keeps
ownership, data frames and lookups. -/
theorem Loading.of_owner (h : Loading k users g s₀ M s) (howner : Owner k users g s₀ s')
    (hpte : ∀ a, pte s' g a = pte s g a)
    (hdata : ∀ page, Data k users s₀ s page → Data k users s₀ s' page) :
    Loading k users g s₀ M s' := by
  refine ⟨howner, fun a ha => ?_, fun a e ha he => ?_, fun a b e e' ha hb he he' => ?_⟩
  · rw [hpte a]
    exact h.mapped a ha
  · rw [hpte a] at he
    exact hdata _ (h.frames a e ha he)
  · rw [hpte] at he he'
    exact h.apart a b e e' ha hb he he'

/-! ## Pages -/

variable {va : Word}

theorem pageCount_one (hva : Mem.Aligned va) (hp : Private (tableIndex va 39)) :
    alignDown va = va ∧ pageCount (alignDown va) (alignUp (va + 4096)) = 1 := by
  rw [Private, tableIndex_val] at hp
  unfold Mem.Aligned at hva
  have hdown := toNat_alignDown va
  have hsum : (va + 4096).toNat = va.toNat + 4096 := by bv_omega
  have hup := toNat_alignUp (a := va + 4096) (by omega)
  refine ⟨BitVec.eq_of_toNat_eq (by omega), ?_⟩
  rw [pageCount]
  omega

variable {a : Word}

theorem alignDown_of_aligned (h : Mem.Aligned a) : alignDown a = a := by
  apply BitVec.eq_of_toNat_eq
  rw [toNat_alignDown]
  unfold Mem.Aligned at h
  omega

/-- The page of `va` has got a frame of its own, blank, and nothing else about
the process has changed. -/
structure FrameMapped (k : Frame) (users : Frame → Prop) (g : Frame) (s₀ : Machine)
    (flags va : Word) (page : Word) (s s' : Machine) : Prop where
  owner : Owner k users g s₀ s'
  alloc : Allocatable page
  taken : page ∈ s.pool
  fresh : Data k users s₀ s' page
  kept : ∀ page', Data k users s₀ s page' → Data k users s₀ s' page'
  self : ∀ a, pageOf a = pageOf va → pte s' g a = some (pteValue page flags)
  rest : ∀ a, pageOf a ≠ pageOf va → pte s' g a = pte s g a
  blank : ∀ y, Mem.InPage page y → s'.mem y = 0
  mem : ∀ page', Data k users s₀ s page' → ∀ y, Mem.InPage page' y → s'.mem y = s.mem y

/-- The frame is handed out, and cleared once more or not. -/
theorem clearFrame_spec (h : Owner k users g s₀ s) (clear : Bool) {page : Word} {pool : List Word}
    (hpool : s.pool = page :: pool) :
    ∃ s', clearFrame clear page (handedOut s page pool) = (.ok (), s') ∧ s'.pool = pool ∧
      Owner k users g s₀ s' ∧ (∀ a, pte s' g a = pte s g a) ∧ Data k users s₀ s' page ∧
      (∀ page', Data k users s₀ s page' → Data k users s₀ s' page') ∧
      (∀ y, Mem.InPage page y → s'.mem y = 0) ∧
      ∀ page', Data k users s₀ s page' → ∀ y, Mem.InPage page' y → s'.mem y = s.mem y := by
  have hin : page ∈ s.pool := by
    rw [hpool]
    exact List.mem_cons_self
  have haligned := (h.isolated.kernel.alloc page hin).aligned
  obtain ⟨ho₁, hpte₁, hd₁, hpage⟩ := h.handedOut hpool
  have hblank : ∀ y, Mem.InPage page y → (handedOut s page pool).mem y = 0 :=
    fun _ => mem_handedOut
  have hmem : ∀ page', Data k users s₀ s page' → ∀ y, Mem.InPage page' y →
      (handedOut s page pool).mem y = s.mem y := fun page' hd y hy =>
    mem_write_of_page (s := { s with pool := pool }) (hd.aligned h) haligned
      (fun y hy => touches_page hy) (fun heq => hd.2.1 (heq ▸ hin)) hy
  cases clear with
  | false => exact ⟨_, rfl, rfl, ho₁, hpte₁ g (.inr h.user), hpage, hd₁, hblank, hmem⟩
  | true =>
    obtain ⟨ho₂, hpte₂, hd₂⟩ := ho₁.write hpage (fun y hy => touches_page hy) haligned
    refine ⟨_, memZero_apply _ _ _, rfl, ho₂, fun a => ?_, hd₂ _ hpage,
      fun page' hd => hd₂ _ (hd₁ _ hd), fun y hy => ?_, fun page' hd y hy => ?_⟩
    · rw [hpte₂ g (.inr h.user), hpte₁ g (.inr h.user)]
    · exact @mem_handedOut (handedOut s page pool) _ _ pool hy
    · rw [mem_write_of_page (hd.aligned h) haligned (fun y hy => touches_page hy)
        (fun heq => hd.2.1 (heq ▸ hin)) hy, hmem page' hd y hy]

variable {flags : Word} {clear : Bool} {noMemory refused : Int}

/-- One page gets a frame, for which four frames of the pool are enough. -/
theorem mapFrame_spec (h : Owner k users g s₀ s) (hva : Mem.Aligned va)
    (hp : Private (tableIndex va 39)) (hneg : noMemory < 0) :
    Outcome (mapFrame g flags clear noMemory refused va) s
      (fun s' => (∃ page, FrameMapped k users g s₀ flags va page s s') ∧
        s.pool.length ≤ s'.pool.length + 4)
      (fun s' => Owner k users g s₀ s' ∧ s.pool.length < 4) := by
  cases hpool : s.pool with
  | nil =>
    refine .inr ⟨.ok noMemory, s, ?_, fun _ he => by cases he; exact hneg, h, by simp⟩
    rw [mapFrame, Exec.bind_ok (pmmAllocPage_nil hpool)]
    rfl
  | cons page pool =>
    have hin : page ∈ s.pool := by
      rw [hpool]
      exact List.mem_cons_self
    have halloc := h.isolated.kernel.alloc page hin
    obtain ⟨s₂, hrun₂, hlen₂, ho₂, hpte₂, hpage₂, hd₂, hblank₂, hmem₂⟩ :=
      clearFrame_spec h clear hpool
    have hmap : mapInRoot g va page 4096 flags = mapPages g flags 1 va page := by
      obtain ⟨hdown, hcount⟩ := pageCount_one hva hp
      rw [mapInRoot, hcount, hdown, alignDown_of_aligned halloc.aligned]
    have hrun : mapFrame g flags clear noMemory refused va s =
        orFail refused (mapPages g flags 1 va page) (return 0) s₂ := by
      rw [mapFrame, Exec.bind_ok (pmmAllocPage_cons hpool)]
      dsimp only
      rw [Exec.bind_ok hrun₂, hmap]
    have htop : TopPages Private va 1 := by
      intro j hj
      obtain rfl : j = 0 := by omega
      rwa [roundAddr_zero]
    have hmissing := missing_tablesFor_le s₂ g va 1
    rcases mapPages_spec flags 1 (ho₂.isolated.user g ho₂.user) va page htop with
      ⟨s', hres, hedits, ht, hmapped, hother⟩ | ⟨s', hres, hedits, hlen⟩
    · obtain ⟨ho', hd'⟩ := ho₂.edits hedits
      have hself : ∀ a, pageOf a = pageOf va → pte s' g a = some (pteValue page flags) := by
        intro a ha
        obtain ⟨j, hj, -, hpte⟩ := hmapped a fun hout => hout 0 Nat.one_pos (by rwa [roundAddr_zero])
        obtain rfl : j = 0 := by omega
        rwa [roundAddr_zero, halloc.mask] at hpte
      have hrest : ∀ a, pageOf a ≠ pageOf va → pte s' g a = pte s g a := by
        intro a ha
        rw [hother a, hpte₂]
        intro j hj
        obtain rfl : j = 0 := by omega
        rwa [roundAddr_zero]
      refine .inl ⟨s', ?_, ⟨page, ho', halloc, hin, hd' _ hpage₂, fun page' hd => hd' _ (hd₂ _ hd),
        hself, hrest, fun y hy => ?_, fun page' hd y hy => ?_⟩, ?_⟩
      · rw [hrun, orFail_zero hres]
        rfl
      · rw [hpage₂.mem_edits ho₂ hedits hy, hblank₂ y hy]
      · rw [(hd₂ _ hd).mem_edits ho₂ hedits hy, hmem₂ _ hd y hy]
      · have hlen := ht.frames
        rw [hlen₂] at hlen
        simp only [List.length_cons]
        omega
    · refine .inr ⟨.error "VMM: no page table memory", s', ?_, nofun, (ho₂.edits hedits).1, ?_⟩
      · rw [hrun, orFail, Exec.bind_error hres]
      · rw [hlen₂] at hlen
        simp only [List.length_cons]
        omega

theorem FrameMapped.frame {page : Word} (hf : FrameMapped k users g s₀ flags va page s s')
    (hflags : flags &&& pteAddrMask = 0) : pteValue page flags &&& pteAddrMask = page := by
  rw [mask_pteValue hflags, hf.alloc.mask]

theorem FrameMapped.loading {page : Word} (hf : FrameMapped k users g s₀ flags va page s s')
    (h : Loading k users g s₀ M s) (hflags : flags &&& pteAddrMask = 0) :
    Loading k users g s₀ (fun p => p = pageOf va ∨ M p) s' := by
  -- the new frame was in the pool, so it was not behind a page before
  have hnew : ∀ a e, Private (tableIndex a 39) → pageOf a ≠ pageOf va → pte s' g a = some e →
      e &&& pteAddrMask ≠ page := by
    intro a e ha hne he heq
    rw [hf.rest a hne] at he
    exact (h.frames a e ha he).2.1 (heq ▸ hf.taken)
  refine ⟨hf.owner, fun a ha => ?_, fun a e ha he => ?_, fun a b e e' ha hb he he' heq => ?_⟩
  · by_cases heq : pageOf a = pageOf va
    · simp [hf.self a heq, heq]
    · simp [hf.rest a heq, heq, h.mapped a ha]
  · by_cases heq : pageOf a = pageOf va
    · rw [hf.self a heq] at he
      cases he
      rw [hf.frame hflags]
      exact hf.fresh
    · rw [hf.rest a heq] at he
      exact hf.kept _ (h.frames a e ha he)
  · by_cases hva : pageOf a = pageOf va
    · rw [hf.self a hva] at he
      cases he
      by_contra hne
      exact hnew b e' hb (fun hvb => hne (hva.trans hvb.symm)) he' (heq.symm.trans (hf.frame hflags))
    · by_cases hvb : pageOf b = pageOf va
      · rw [hf.self b hvb] at he'
        cases he'
        exact absurd (heq.trans (hf.frame hflags)) (hnew a e ha hva he)
      · rw [hf.rest a hva] at he
        rw [hf.rest b hvb] at he'
        exact h.apart a b e e' ha hb he he' heq

/-! ## Loops over pages -/

/-- The pages of `n` rounds from `va` on. -/
def RoundPages (va : Word) (n : Nat) (p : Nat) : Prop :=
  ∃ j < n, p = pageOf (roundAddr va j)

variable {n p : Nat}

theorem toNat_round {j : Nat} (h : va.toNat + 4096 * j < 2 ^ 64) :
    (roundAddr va j).toNat = va.toNat + 4096 * j := by bv_omega

theorem roundPages_iff (hend : va.toNat + 4096 * n ≤ 2 ^ 48) :
    RoundPages va n p ↔ va.toNat / 4096 ≤ p ∧ p < va.toNat / 4096 + n := by
  have hpage : ∀ j < n, pageOf (roundAddr va j) = va.toNat / 4096 + j := fun j hj => by
    rw [pageOf, toNat_round (by omega)]
    omega
  constructor
  · rintro ⟨j, hj, rfl⟩
    rw [hpage j hj]
    omega
  · rintro ⟨hlow, hhigh⟩
    exact ⟨p - va.toNat / 4096, by omega, by rw [hpage _ (by omega)]; omega⟩

theorem Loading.congr {M' : Nat → Prop} (h : Loading k users g s₀ M s) (hM : ∀ p, M p ↔ M' p) :
    Loading k users g s₀ M' s :=
  ⟨h.owner, fun a ha => (h.mapped a ha).trans (hM _), h.frames, h.apart⟩

theorem aligned_add (h : Mem.Aligned va) : Mem.Aligned (va + 4096) := by
  unfold Mem.Aligned at *
  bv_omega

variable {e : Word}

theorem Data.translation_ne (h : Data k users s₀ s (e &&& pteAddrMask))
    (halloc : ∀ page ∈ s₀.pool, Allocatable page) : translation a e ≠ 0 := by
  intro hzero
  have hsum := toNat_translation a e
  rw [hzero] at hsum
  refine (halloc _ h.1).ne (BitVec.eq_of_toNat_eq ?_)
  simp at hsum ⊢
  omega

theorem private_congr {b : Word} (h : pageOf a = pageOf b) :
    Private (tableIndex a 39) ↔ Private (tableIndex b 39) := by
  have hpath := (indices_eq_iff.mpr h).1
  simp only [tablePath, List.cons.injEq] at hpath
  rw [hpath.1]

theorem Loading.translates (h : Loading k users g s₀ M s) (hp : Private (tableIndex va 39)) :
    ∃ phys, vmmVirtToPhysIn g va s = (.ok phys, s) ∧ (phys = 0 ↔ ¬ M (pageOf va)) ∧
      (phys ≠ 0 → ∃ e, pte s g va = some e ∧ phys = translation va e) := by
  refine ⟨_, vmmVirtToPhysIn_eq (h.owner.isolated.user g h.owner.user).null va, ?_⟩
  rw [← h.mapped va hp]
  cases hpte : pte s g va with
  | none => simp
  | some e =>
    have hne := (h.frames va e hp hpte).translation_ne (a := va) h.owner.alloc
    exact ⟨⟨fun hzero => absurd hzero hne, fun hsome => absurd rfl hsome⟩, fun _ => ⟨e, rfl, rfl⟩⟩

/-- The loop over pages can be cut in two. -/
theorem ensurePages_add {root : Word} (m n : Nat) {s s' : Machine}
    (h : ensurePages root flags clear noMemory refused m va s = (.ok 0, s')) :
    ensurePages root flags clear noMemory refused (m + n) va s =
      ensurePages root flags clear noMemory refused n (roundAddr va m) s' := by
  induction m generalizing s va with
  | zero =>
    cases h
    rw [Nat.zero_add, roundAddr_zero]
  | succ m ih =>
    rw [Nat.succ_add, ← roundAddr_succ, ensurePages]
    rw [ensurePages] at h
    rcases hrun : vmmVirtToPhysIn root va s with ⟨e | phys, s₁⟩
    · rw [Exec.bind_error hrun] at h
      cases h
    rw [Exec.bind_ok hrun] at h ⊢
    split at h
    next hphys =>
      rw [if_pos hphys]
      obtain ⟨s₂, hfirst, hrest⟩ := orReturn_inv h
      rw [hfirst]
      exact ih hrest
    next hphys =>
      rw [if_neg hphys]
      exact ih h

theorem topPages_stack : TopPages Private (stackTop - 8 * 4096) 8 := by
  unfold TopPages
  decide

/-! ## Bytes -/

theorem inPage_translation {y : Word} (hn : a.toNat % 4096 + n ≤ 4096)
    (h : Touches (translation a e, n) y) : Mem.InPage (e &&& pteAddrMask) y := by
  have hsum := toNat_translation a e
  unfold Touches Mem.InPage at *
  bv_omega

/-- A store through the translation of a mapped address of the user half, inside
its page. -/
theorem Loading.write (h : Loading k users g s₀ M s) (hp : Private (tableIndex va 39))
    (hpte : pte s g va = some e) (bs : List Byte) (hfit : va.toNat % 4096 + bs.length ≤ 4096) :
    Loading k users g s₀ M (s.write (translation va e) bs) := by
  have hd := h.frames va e hp hpte
  obtain ⟨ho, hpte', hd'⟩ := h.owner.write hd (fun y hy => inPage_translation hfit hy)
    (aligned_mask e)
  exact h.of_owner ho (hpte' g (.inr h.owner.user)) hd'

/-- The loop over bytes can be cut in two. -/
theorem putBytes_add {root : Word} (hneg : refused < 0) {src : Mem} (m n : Nat) {s s' : Machine}
    {off : Word} (h : putBytes root refused src m va off s = (.ok 0, s')) :
    putBytes root refused src (m + n) va off s =
      putBytes root refused src n (va + BitVec.ofNat 64 m) (off + BitVec.ofNat 64 m) s' := by
  induction m generalizing s va off with
  | zero =>
    cases h
    rw [Nat.zero_add, BitVec.add_zero, BitVec.add_zero]
  | succ m ih =>
    have hnext : ∀ a : Word, a + BitVec.ofNat 64 (m + 1) = a + 1 + BitVec.ofNat 64 m := fun a => by
      bv_omega
    rw [Nat.succ_add, hnext, hnext, putBytes]
    rw [putBytes] at h
    rcases hrun : vmmVirtToPhysIn root va s with ⟨e | phys, s₁⟩
    · rw [Exec.bind_error hrun] at h
      cases h
    rw [Exec.bind_ok hrun] at h ⊢
    split at h
    next =>
      cases h
      exact absurd hneg (Int.lt_irrefl 0)
    next hphys =>
      rw [if_neg hphys]
      exact ih h

end OreOS.Kernel
