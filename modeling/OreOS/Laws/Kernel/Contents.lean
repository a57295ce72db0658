import OreOS.Lib.Space
import OreOS.Laws.Kernel.Loading

/-!
# What a loader builds

The address space of a process under construction, as the process will see it:
a `Space` of page numbers with the flags of their entries, and of bytes. A
machine shows the space when the process's tables and frames hold it (`Shows`);
the frames behind two pages are distinct, so a store into one page is seen in
that page only.

Each loop of the loaders does to the machine what the operation of the same
purpose does to the space.
-/

namespace OreOS.Kernel

open OreOS.Lib (Word Byte Mem Exec Space)

/-- Pages and bytes by their numbers, flags as the entries hold them. -/
abbrev UserSpace :=
  Space Nat Nat Word Byte

/-- Nothing is mapped. -/
def emptySpace : UserSpace where
  flags _ := none
  bytes _ := 0

/-- The number of a byte: what translation looks at. -/
def spot (a : Word) : Nat :=
  a.toNat % 2 ^ 48

/-- The page of a byte. -/
def pageAt (n : Nat) : Nat :=
  n / 4096

theorem spot_succ {a : Word} (h : spot a + 1 < 2 ^ 48) : spot (a + 1) = spot a + 1 := by
  unfold spot at *
  bv_omega

theorem pageAt_spot (a : Word) : pageAt (spot a) = pageOf a := by
  unfold pageAt spot pageOf
  omega

/-- The flags of the entry of an address. -/
def mappedFlags (s : Machine) (g : Frame) (a : Word) : Option Word :=
  (pte s g a).map entryFlags

/-- The byte that a mapped address holds. -/
def mappedByte (s : Machine) (g : Frame) (a : Word) : Option Byte :=
  (pte s g a).map fun e => s.mem (translation a e)

/-- The process under construction holds the space. -/
structure Shows (k : Frame) (users : Frame → Prop) (g : Frame) (s₀ : Machine) (v : UserSpace)
    (s : Machine) : Prop where
  loading : Loading k users g s₀ v.Mapped s
  flags : ∀ a e, Private (tableIndex a 39) → pte s g a = some e →
    v.flags (pageOf a) = some (entryFlags e)
  bytes : ∀ a e, Private (tableIndex a 39) → pte s g a = some e →
    s.mem (translation a e) = v.bytes (spot a)

variable {k g : Frame} {users : Frame → Prop} {s₀ s s' : Machine} {v : UserSpace} {M : Nat → Prop}

theorem Shows.mappedFlags_eq (h : Shows k users g s₀ v s) {a : Word}
    (ha : Private (tableIndex a 39)) : mappedFlags s g a = v.flags (pageOf a) := by
  have hmapped : (pte s g a).isSome ↔ (v.flags (pageOf a)).isSome := h.loading.mapped a ha
  rw [mappedFlags]
  cases he : pte s g a with
  | none =>
    rw [he] at hmapped
    cases hv : v.flags (pageOf a) with
    | none => rfl
    | some f =>
      rw [hv] at hmapped
      exact absurd (hmapped.mpr rfl) (by simp)
  | some e => exact (h.flags a e ha he).symm

theorem Shows.mappedByte_eq (h : Shows k users g s₀ v s) {a : Word}
    (ha : Private (tableIndex a 39)) :
    mappedByte s g a = if v.Mapped (pageOf a) then some (v.bytes (spot a)) else none := by
  have hmapped := h.loading.mapped a ha
  rw [mappedByte]
  cases he : pte s g a with
  | none =>
    rw [he] at hmapped
    rw [if_neg fun hm => absurd (hmapped.mpr hm) (by simp)]
    rfl
  | some e =>
    rw [he] at hmapped
    rw [if_pos (hmapped.mp rfl), Option.map_some, h.bytes a e ha he]

theorem FreshProcess.shows (h : FreshProcess k users g s) : Shows k users g s emptySpace s := by
  have hload := h.loading.congr (fun p => show False ↔ emptySpace.Mapped p by
    simp [emptySpace, Space.Mapped])
  have hnone : ∀ a, Private (tableIndex a 39) → pte s g a = none := fun a ha => by
    have := h.loading.mapped a ha
    simpa using this
  refine ⟨hload, fun a e ha he => ?_, fun a e ha he => ?_⟩
  all_goals
    rw [hnone a ha] at he
    cases he

/-- Whatever is mapped, the machine shows some space: the one that is read off its tables and
frames. -/
theorem Loading.exists_shows (h : Loading k users g s₀ M s) :
    ∃ v : UserSpace, (∀ p, v.Mapped p ↔ M p) ∧ Shows k users g s₀ v s := by
  classical
  let v : UserSpace :=
    { flags := fun p =>
        if M p then some (entryFlags ((pte s g (BitVec.ofNat 64 (4096 * p))).getD 0)) else none
      bytes := fun n =>
        s.mem (translation (BitVec.ofNat 64 n) ((pte s g (BitVec.ofNat 64 n)).getD 0)) }
  have hv : ∀ p, v.Mapped p ↔ M p := fun p => by
    by_cases hp : M p <;> simp [v, Space.Mapped, hp]
  refine ⟨v, hv, h.congr fun p => (hv p).symm, fun a e ha he => ?_, fun a e ha he => ?_⟩
  · have hmapped := (h.mapped a ha).mp (by rw [he]; rfl)
    have hpage : pageOf (BitVec.ofNat 64 (4096 * pageOf a)) = pageOf a := by
      unfold pageOf
      rw [BitVec.toNat_ofNat]
      omega
    rw [← pte_congr hpage] at he
    simp only [v, if_pos hmapped, he, Option.getD_some]
  · have hpage : pageOf (BitVec.ofNat 64 (spot a)) = pageOf a := by
      unfold pageOf spot
      rw [BitVec.toNat_ofNat]
      omega
    have htrans : translation (BitVec.ofNat 64 (spot a)) e = translation a e := by
      apply BitVec.eq_of_toNat_eq
      rw [toNat_translation, toNat_translation, BitVec.toNat_ofNat, spot]
      omega
    rw [← pte_congr hpage] at he
    simp only [v, he, Option.getD_some, htrans]

theorem inPage_self (a e : Word) : Mem.InPage (e &&& pteAddrMask) (translation a e) :=
  inPage_translation (a := a) (n := 1) (by omega) (by simp [Touches])

theorem translation_congr {a e e' : Word} (h : e &&& pteAddrMask = e' &&& pteAddrMask) :
    translation a e = translation a e' := by
  rw [translation, translation, h]

/-! ## Pages -/

theorem FrameMapped.shows {flags va page : Word}
    (hf : FrameMapped k users g s₀ flags va page s s') (h : Shows k users g s₀ v s)
    (hflags : flags &&& pteAddrMask = 0) :
    Shows k users g s₀ (v.map pageAt 0 (flags ||| vmmPresent) (pageOf va)) s' := by
  refine ⟨(hf.loading h.loading hflags).congr fun p => Space.mapped_map.symm, ?_, ?_⟩
  · intro a e ha he
    by_cases hva : pageOf a = pageOf va
    · rw [hf.self a hva] at he
      cases he
      rw [entryFlags_pteValue hf.alloc.mask hflags, hva]
      exact Function.update_self ..
    · rw [hf.rest a hva] at he
      exact (Function.update_of_ne hva ..).trans (h.flags a e ha he)
  · intro a e ha he
    by_cases hva : pageOf a = pageOf va
    · rw [hf.self a hva] at he
      cases he
      have hin := inPage_self a (pteValue page flags)
      rw [hf.frame hflags] at hin
      exact (hf.blank _ hin).trans (if_pos ((pageAt_spot a).trans hva)).symm
    · rw [hf.rest a hva] at he
      rw [Space.bytes_map (by rwa [pageAt_spot]), ← h.bytes a e ha he]
      exact hf.mem _ (h.loading.frames a e ha he) _ (inPage_self a e)

/-- The pages of `n` rounds from `va` on, in their order. -/
def rounds (va : Word) (n : Nat) : List Nat :=
  (List.range n).map fun j => pageOf (roundAddr va j)

theorem rounds_succ (va : Word) (n : Nat) :
    rounds va (n + 1) = pageOf va :: rounds (va + 4096) n := by
  rw [rounds, List.range_succ_eq_map, List.map_cons, List.map_map, roundAddr_zero, rounds]
  refine congrArg _ (List.map_congr_left fun j _ => ?_)
  rw [Function.comp_apply, Nat.succ_eq_add_one, roundAddr_succ]

theorem mem_rounds {va : Word} {n p : Nat} :
    p ∈ rounds va n ↔ RoundPages va n p := by
  simp [rounds, RoundPages, eq_comm]

/-- A page and then the others, with at most four frames for each: itself and its tables. -/
theorem Shows.mapFrame {flags va : Word} {clear : Bool} {noMemory refused : Int} {n : Nat}
    {rest : Kern Int} {w : UserSpace} (h : Shows k users g s₀ v s) (hva : Mem.Aligned va)
    (hprivate : Private (tableIndex va 39)) (hflags : flags &&& pteAddrMask = 0)
    (hneg : noMemory < 0)
    (hrest : ∀ s', Shows k users g s₀ (v.map pageAt 0 (flags ||| vmmPresent) (pageOf va)) s' →
      Outcome rest s' (fun s'' => Shows k users g s₀ w s'' ∧ s'.pool.length ≤ s''.pool.length + 4 * n)
        (fun s'' => Owner k users g s₀ s'' ∧ s'.pool.length < 4 * n)) :
    Outcome (orReturn (mapFrame g flags clear noMemory refused va) rest) s
      (fun s' => Shows k users g s₀ w s' ∧ s.pool.length ≤ s'.pool.length + 4 * (n + 1))
      (fun s' => Owner k users g s₀ s' ∧ s.pool.length < 4 * (n + 1)) := by
  refine Outcome.orReturn ((mapFrame_spec h.loading.owner hva hprivate hneg).mono (fun _ => id)
    fun _ hb => ⟨hb.1, by omega⟩) ?_
  rintro s' ⟨⟨page, hf⟩, hlen⟩
  refine (hrest s' (hf.shows h hflags)).mono ?_ fun _ hb => ⟨hb.1, by omega⟩
  exact fun s'' hs => ⟨hs.1, by have := hs.2; omega⟩

/-- What the loaders do when a page translates or not. -/
theorem ensurePages_shows (n : Nat) {s : Machine} {v : UserSpace} (h : Shows k users g s₀ v s)
    {flags va : Word} (clear : Bool) {noMemory : Int} (refused : Int) (hva : Mem.Aligned va)
    (htop : TopPages Private va n) (hflags : flags &&& pteAddrMask = 0) (hneg : noMemory < 0) :
    Outcome (ensurePages g flags clear noMemory refused n va) s
      (fun s' => Shows k users g s₀
        ((rounds va n).foldl (Space.ensure pageAt 0 (flags ||| vmmPresent)) v) s' ∧
        s.pool.length ≤ s'.pool.length + 4 * n)
      (fun s' => Owner k users g s₀ s' ∧ s.pool.length < 4 * n) := by
  induction n generalizing s v va with
  | zero => exact .inl ⟨s, rfl, h, Nat.le_refl _⟩
  | succ n ih =>
    obtain ⟨phys, hrun, hzero, -⟩ := h.loading.translates htop.head
    have hbody : ensurePages g flags clear noMemory refused (n + 1) va s =
        (if phys = 0 then orReturn (mapFrame g flags clear noMemory refused va)
          (ensurePages g flags clear noMemory refused n (va + 4096))
        else ensurePages g flags clear noMemory refused n (va + 4096)) s := by
      rw [ensurePages, Exec.bind_ok hrun]
    rw [Outcome, hbody, rounds_succ, List.foldl_cons]
    by_cases hphys : phys = 0
    · rw [if_pos hphys, Space.ensure, if_neg (hzero.mp hphys)]
      exact h.mapFrame hva htop.head hflags hneg fun s' hs => ih hs (aligned_add hva) htop.tail
    · rw [if_neg hphys, Space.ensure, if_pos (not_not.mp (mt hzero.mpr hphys))]
      refine (ih h (aligned_add hva) htop.tail).mono ?_ fun _ hb => ⟨hb.1, by omega⟩
      exact fun s' hs => ⟨hs.1, by have := hs.2; omega⟩

/-- The flags of a page of the stack. -/
def stackFlags : Word :=
  vmmUser ||| vmmWrite ||| vmmNx ||| vmmPresent

theorem stackPages_shows (n : Nat) {s : Machine} {v : UserSpace} (h : Shows k users g s₀ v s)
    {va : Word} {clear : Bool} {noMemory refused : Int} (hva : Mem.Aligned va)
    (htop : TopPages Private va n) (hneg : noMemory < 0) :
    Outcome (stackPages g clear noMemory refused n va) s
      (fun s' => Shows k users g s₀ ((rounds va n).foldl (Space.map pageAt 0 stackFlags) v) s' ∧
        s.pool.length ≤ s'.pool.length + 4 * n)
      (fun s' => Owner k users g s₀ s' ∧ s.pool.length < 4 * n) := by
  induction n generalizing s v va with
  | zero => exact .inl ⟨s, rfl, h, Nat.le_refl _⟩
  | succ n ih =>
    rw [rounds_succ, List.foldl_cons]
    exact h.mapFrame hva htop.head (by decide) hneg fun s' hs => ih hs (aligned_add hva) htop.tail

/-- The first page of the stack. -/
def stackBase : Word :=
  stackTop - 8 * 4096

/-- The eight pages of the stack. -/
def withStack (v : UserSpace) : UserSpace :=
  (rounds stackBase 8).foldl (Space.map pageAt 0 stackFlags) v

section

variable {va flags : Word} {clear : Bool} {noMemory refused : Int}

theorem mapStack_shows (h : Shows k users g s₀ v s) (hneg : noMemory < 0) :
    Outcome (mapStack g clear noMemory refused) s
      (fun s' => Shows k users g s₀ (withStack v) s' ∧ s.pool.length ≤ s'.pool.length + 32)
      (fun s' => Owner k users g s₀ s' ∧ s.pool.length < 32) :=
  stackPages_shows 8 h (by decide) topPages_stack hneg

/-! The same for a process of which only the mapped pages are known. -/

theorem ensurePages_outcome (n : Nat) (h : Loading k users g s₀ M s) (hva : Mem.Aligned va)
    (htop : TopPages Private va n) (hflags : flags &&& pteAddrMask = 0) (hneg : noMemory < 0) :
    Outcome (ensurePages g flags clear noMemory refused n va) s
      (fun s' => Loading k users g s₀ (fun p => RoundPages va n p ∨ M p) s' ∧
        s.pool.length ≤ s'.pool.length + 4 * n)
      (fun s' => Owner k users g s₀ s' ∧ s.pool.length < 4 * n) := by
  obtain ⟨v, hM, hv⟩ := h.exists_shows
  refine (ensurePages_shows n hv clear refused hva htop hflags hneg).mono
    (fun s' hs => ⟨hs.1.loading.congr fun p => ?_, hs.2⟩) fun _ => id
  rw [Space.mapped_ensures, mem_rounds, hM]

theorem mapStack_outcome (h : Loading k users g s₀ M s) (hneg : noMemory < 0) :
    Outcome (mapStack g clear noMemory refused) s
      (fun s' => ∃ M', Loading k users g s₀ M' s') (fun s' => Owner k users g s₀ s') := by
  obtain ⟨v, -, hv⟩ := h.exists_shows
  exact (mapStack_shows hv hneg).mono (fun _ hs => ⟨_, hs.1.loading⟩) fun _ => And.left

end

/-! ## Bytes -/

/-- `n` bytes from `lo` on. -/
def block (lo n : Nat) (b : Nat → Byte) (x : Nat) : Option Byte :=
  if lo ≤ x ∧ x < lo + n then some (b (x - lo)) else none

theorem put_block_zero (lo : Nat) (b : Nat → Byte) : v.put (block lo 0 b) = v := by
  have hnone : ∀ x, block lo 0 b x = none := fun x => if_neg (by omega)
  simp only [Space.put, hnone, Option.getD_none]

theorem put_block_succ (lo n : Nat) (b : Nat → Byte) :
    (v.put (block lo 1 b)).put (block (lo + 1) n fun i => b (i + 1)) = v.put (block lo (n + 1) b) := by
  rw [Space.put_put]
  congr 1
  funext x
  unfold block
  by_cases hfirst : x = lo
  · subst hfirst
    rw [if_neg (by omega), if_pos (by omega), if_pos (by omega), Option.none_or]
  · by_cases hin : lo + 1 ≤ x ∧ x < lo + 1 + n
    · have hsub : x - (lo + 1) + 1 = x - lo := by omega
      rw [if_pos hin, if_pos (by omega : lo ≤ x ∧ x < lo + (n + 1)), Option.some_or, ← hsub]
    · rw [if_neg hin, if_neg (by omega), if_neg (by omega), Option.none_or]

theorem block_one (lo : Nat) (b : Nat → Byte) : block lo 1 b = block lo 1 fun _ => b 0 := by
  funext x
  unfold block
  split
  next hx =>
    obtain rfl : x = lo := by omega
    rw [Nat.sub_self]
  next => rfl

/-- Two addresses that translate to the same byte are the same to translation. -/
theorem Shows.translation_inj (h : Shows k users g s₀ v s) {a b e e' : Word}
    (ha : Private (tableIndex a 39)) (hb : Private (tableIndex b 39)) (he : pte s g a = some e)
    (he' : pte s g b = some e') (heq : translation a e = translation b e') : spot a = spot b := by
  have hframe : e &&& pteAddrMask = e' &&& pteAddrMask :=
    Mem.InPage.unique (aligned_mask e) (aligned_mask e') (inPage_self a e)
      (heq ▸ inPage_self b e')
  have hpage := h.loading.apart a b e e' ha hb he he' hframe
  have hoff := congrArg BitVec.toNat heq
  rw [toNat_translation, toNat_translation, hframe] at hoff
  unfold pageOf at hpage
  unfold spot
  omega

/-- A byte stored at a mapped address. -/
theorem Shows.write (h : Shows k users g s₀ v s) {va e : Word} (hp : Private (tableIndex va 39))
    (hpte : pte s g va = some e) (b : Byte) :
    Shows k users g s₀ (v.put (block (spot va) 1 fun _ => b)) (s.write (translation va e) [b]) := by
  have hd := h.loading.frames va e hp hpte
  obtain ⟨-, hsame, -⟩ := @Owner.write _ _ _ _ _ _ _ [b] h.loading.owner hd
    (fun y hy => inPage_translation (n := 1) (by omega) hy) (aligned_mask e)
  have hpte' : ∀ a, pte (s.write (translation va e) [b]) g a = pte s g a :=
    hsame g (.inr h.loading.owner.user)
  refine ⟨h.loading.write hp hpte [b] (by simp; omega), ?_, ?_⟩
  · intro a e₁ ha he₁
    rw [hpte'] at he₁
    exact h.flags a e₁ ha he₁
  · intro a e₁ ha he₁
    rw [hpte'] at he₁
    by_cases hspot : spot a = spot va
    · have hpage : pageOf a = pageOf va := by rw [← pageAt_spot, hspot, pageAt_spot]
      rw [pte_congr hpage, hpte] at he₁
      cases he₁
      have htrans : translation a e = translation va e := by
        apply BitVec.eq_of_toNat_eq
        rw [toNat_translation, toNat_translation]
        unfold spot at hspot
        omega
      have hb : block (spot va) 1 (fun _ => b) (spot a) = some b := if_pos (by omega)
      have hhere : (s.write (translation va e) [b]).mem (translation va e) = b := by
        simp [Machine.write, Mem.write]
      rw [htrans, hhere, Space.bytes_put, hb, Option.getD_some]
    · have hb : block (spot va) 1 (fun _ => b) (spot a) = none := if_neg (by omega)
      have hne : translation a e₁ ≠ translation va e := fun heq =>
        hspot (h.translation_inj ha hp he₁ hpte heq)
      have hout : (s.write (translation va e) [b]).mem (translation a e₁) =
          s.mem (translation a e₁) := by
        refine Mem.write_outside ?_
        rw [List.length_singleton, Nat.one_le_iff_ne_zero]
        intro hzero
        exact hne (by bv_omega)
      rw [hout, h.bytes a e₁ ha he₁, Space.bytes_put, hb, Option.getD_none]

theorem putBytes_shows (n : Nat) {s : Machine} {v : UserSpace} (h : Shows k users g s₀ v s)
    (refused : Int) (src : Mem) (va off : Word)
    (hin : ∀ i < n, Private (tableIndex (va + BitVec.ofNat 64 i) 39) ∧
      v.Mapped (pageOf (va + BitVec.ofNat 64 i))) :
    ∃ s', putBytes g refused src n va off s = (.ok 0, s') ∧
      Shows k users g s₀ (v.put (block (spot va) n fun i => src (off + BitVec.ofNat 64 i))) s' ∧
      s'.pool = s.pool := by
  induction n generalizing s v va off with
  | zero => exact ⟨s, rfl, by rwa [put_block_zero], rfl⟩
  | succ n ih =>
    obtain ⟨hp, hm⟩ := hin 0 (Nat.succ_pos n)
    rw [BitVec.add_zero] at hp hm
    obtain ⟨phys, hrun, hzero, hsome⟩ := h.loading.translates hp
    have hphys : phys ≠ 0 := fun h0 => hzero.mp h0 hm
    obtain ⟨e, hpte, rfl⟩ := hsome hphys
    have hwrite := h.write hp hpte (src off)
    have hinner : ∀ i < n, Private (tableIndex (va + 1 + BitVec.ofNat 64 i) 39) ∧
        (v.put (block (spot va) 1 fun _ => src off)).Mapped
          (pageOf (va + 1 + BitVec.ofNat 64 i)) := by
      intro i hi
      have hnext := hin (i + 1) (by omega)
      rwa [Nat.add_comm i 1, BitVec.ofNat_add, ← BitVec.add_assoc] at hnext
    have hfirst : block (spot va) 1 (fun i => src (off + BitVec.ofNat 64 i)) =
        block (spot va) 1 fun _ => src off := by
      rw [block_one, BitVec.add_zero]
    have hnext : (fun i => src (off + BitVec.ofNat 64 (i + 1))) =
        fun i => src (off + 1 + BitVec.ofNat 64 i) := by
      funext i
      rw [Nat.add_comm i 1, BitVec.ofNat_add, ← BitVec.add_assoc]
      rfl
    have hspot : spot (va + 1) = spot va + 1 := by
      rw [Private, tableIndex_val] at hp
      refine spot_succ ?_
      unfold spot
      omega
    obtain ⟨s', hrun', h', hpool⟩ := ih hwrite (va + 1) (off + 1) hinner
    refine ⟨s', ?_, ?_, hpool⟩
    · rw [putBytes, Exec.bind_ok hrun, if_neg hphys]
      exact hrun'
    · rw [← put_block_succ, hfirst, hnext]
      rwa [hspot] at h'

theorem putBytes_mapped (n : Nat) (h : Loading k users g s₀ M s) (refused : Int) (src : Mem)
    (va off : Word) (hin : ∀ i < n, Private (tableIndex (va + BitVec.ofNat 64 i) 39) ∧
      M (pageOf (va + BitVec.ofNat 64 i))) :
    ∃ s', putBytes g refused src n va off s = (.ok 0, s') ∧ Loading k users g s₀ M s' ∧
      s'.pool = s.pool := by
  obtain ⟨v, hM, hv⟩ := h.exists_shows
  obtain ⟨s', hrun, h', hpool⟩ := putBytes_shows n hv refused src va off fun i hi =>
    (hin i hi).imp_right (hM _).mpr
  exact ⟨s', hrun, h'.loading.congr hM, hpool⟩

/-! ## Protection -/

theorem protectPages_shows (flags : Word) (n : Nat) (h : Shows k users g s₀ v s) {va : Word}
    (htop : TopPages Private va n) (hflags : flags &&& pteAddrMask = 0)
    (hin : ∀ p ∈ rounds va n, v.Mapped p) :
    ∃ s', protectPages g flags n va s = (.ok 0, s') ∧
      Shows k users g s₀ ((rounds va n).foldl (Space.protect (flags ||| vmmPresent)) v) s' ∧
      s'.pool = s.pool := by
  have howner := h.loading.owner
  obtain ⟨res, s', hrun, hedits, hpool, hres, hkeep, hother, hgiven⟩ :=
    protectPages_spec flags n (howner.isolated.user g howner.user) va htop
  have hthere : ∀ j < n, (pte s g (roundAddr va j)).isSome := fun j hj =>
    (h.loading.mapped _ (htop j hj)).mpr (hin _ (mem_rounds.mpr ⟨j, hj, rfl⟩))
  obtain rfl : res = 0 := hres hflags hthere
  obtain ⟨ho, hd⟩ := howner.edits hedits
  -- every entry is over the frame it was over
  have hold : ∀ a e', pte s' g a = some e' →
      ∃ e, pte s g a = some e ∧ e &&& pteAddrMask = e' &&& pteAddrMask := fun a e' he' => by
    have hmask := hkeep hflags a
    rw [he', Option.map_some] at hmask
    exact Option.map_eq_some_iff.mp hmask.symm
  have hmapped : ∀ p, ((rounds va n).foldl (Space.protect (flags ||| vmmPresent)) v).Mapped p ↔
      v.Mapped p := fun p => by
    rw [Space.mapped_protects]
    exact ⟨fun hp => hp.elim (hin p) id, .inr⟩
  have hmem : ∀ a e e', Private (tableIndex a 39) → pte s g a = some e →
      e &&& pteAddrMask = e' &&& pteAddrMask → s'.mem (translation a e') = v.bytes (spot a) := by
    intro a e e' ha he heq
    rw [← translation_congr heq, ← h.bytes a e ha he]
    exact (h.loading.frames a e ha he).mem_edits howner hedits (inPage_self a e)
  refine ⟨s', hrun, ⟨⟨ho, fun a ha => ?_, fun a e' ha he' => ?_, ?_⟩, ?_, ?_⟩, hpool⟩
  · rw [hmapped, ← h.loading.mapped a ha, ← Option.isSome_map, hkeep hflags a, Option.isSome_map]
  · obtain ⟨e, he, heq⟩ := hold a e' he'
    exact heq ▸ hd _ (h.loading.frames a e ha he)
  · intro a b e₁' e₂' ha hb he₁' he₂' heq
    obtain ⟨e₁, he₁, heq₁⟩ := hold a e₁' he₁'
    obtain ⟨e₂, he₂, heq₂⟩ := hold b e₂' he₂'
    exact h.loading.apart a b e₁ e₂ ha hb he₁ he₂ (heq₁.trans (heq.trans heq₂.symm))
  · intro a e' ha he'
    rw [Space.flags_protects]
    split
    next hmem =>
      obtain ⟨j, hj, hpage⟩ := mem_rounds.mp hmem
      have hflag := hgiven hflags hthere a fun hout => hout j hj hpage
      rw [he', Option.map_some] at hflag
      exact hflag.symm
    next hnot =>
      rw [hother a fun j hj hpage => hnot (mem_rounds.mpr ⟨j, hj, hpage⟩)] at he'
      exact h.flags a e' ha he'
  · intro a e' ha he'
    obtain ⟨e, he, heq⟩ := hold a e' he'
    rw [Space.bytes_protects]
    exact hmem a e e' ha he heq

end OreOS.Kernel
