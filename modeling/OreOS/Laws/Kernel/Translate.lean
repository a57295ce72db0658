import Mathlib.Data.BitVec
import OreOS.Laws.Kernel.Mapping

/-!
# What mapping does to translations

`map_in_root`, `unmap_in_root` and `protect_in_root` in terms of what
`vmm_virt_to_phys_in` and `vmm_flags` answer afterwards. An entry has room for
frames below 2^52. The range is rounded to pages of `virt`, so it can reach one
frame past `phys + size`, and `phys + size < 2^52` is not enough (`map_wraps`).
-/

namespace OreOS.Kernel

open OreOS.Lib (Word Mem)
open OreOS.Lib.Radix (walk Fresh)

variable {r : Frame} {s s' : Machine} {virt phys size flags a : Word}

/-! ## Aligned addresses -/

theorem and_add_and_not (x y : Word) : (x &&& ~~~y) + (x &&& y) = x := by
  rw [BitVec.add_eq_or_of_and_eq_zero]
  · ext i
    cases hx : x[i] <;> cases hy : y[i] <;> simp [hx, hy]
  · ext i
    cases hx : x[i] <;> cases hy : y[i] <;> simp [hx, hy]

theorem toNat_offset (a : Word) : (a &&& 0xfff).toNat = a.toNat % 4096 := by
  rw [BitVec.toNat_and]
  exact Nat.and_two_pow_sub_one_eq_mod a.toNat 12

theorem toNat_alignDown (a : Word) : (alignDown a).toNat = a.toNat / 4096 * 4096 := by
  have hsum : alignDown a + (a &&& 0xfff) = a := and_add_and_not a 0xfff
  have hlow := toNat_offset a
  have hle : (alignDown a).toNat ≤ a.toNat := by bv_omega
  bv_omega

theorem toNat_alignUp (h : a.toNat ≤ 2 ^ 64 - 4096) :
    (alignUp a).toNat = (a.toNat + 4095) / 4096 * 4096 := by
  have hsum : (a + 4096 - 1).toNat = a.toNat + 4095 := by bv_omega
  have hdown := toNat_alignDown (a + 4096 - 1)
  rw [hsum] at hdown
  exact hdown

theorem mask_eq_self (haligned : Mem.Aligned a) (hlt : a.toNat < 2 ^ 52) : a &&& pteAddrMask = a := by
  have hmask : pteAddrMask = (2 ^ 52 - 1) &&& ~~~0xfff := by decide
  have hlow : a &&& (2 ^ 52 - 1) = a := by
    apply BitVec.eq_of_toNat_eq
    rw [BitVec.toNat_and]
    exact (Nat.and_two_pow_sub_one_eq_mod a.toNat 52).trans (Nat.mod_eq_of_lt hlt)
  rw [hmask, ← BitVec.and_assoc, hlow]
  apply BitVec.eq_of_toNat_eq
  have hdown := toNat_alignDown a
  rw [alignDown] at hdown
  rw [hdown]
  unfold Mem.Aligned at haligned
  omega

theorem toNat_translation (a e : Word) :
    (translation a e).toNat = (e &&& pteAddrMask).toNat + a.toNat % 4096 := by
  have hdisj : (e &&& pteAddrMask) &&& (a &&& 0xfff) = 0 := by
    rw [BitVec.and_assoc, BitVec.and_comm a, ← BitVec.and_assoc pteAddrMask]
    simp [pteAddrMask]
  rw [translation, ← BitVec.add_eq_or_of_and_eq_zero _ _ hdisj]
  have hmask := aligned_mask e
  have hoff := toNat_offset a
  unfold Mem.Aligned at hmask
  bv_omega

/-! ## Page ranges -/

/-- The address is in the pages that a call with `virt` and `size` covers. -/
def InRange (virt size a : Word) : Prop :=
  alignDown virt ≤ a ∧ a < alignUp (virt + size)

instance (virt size a : Word) : Decidable (InRange virt size a) :=
  inferInstanceAs (Decidable (_ ∧ _))

/-- The number of pages of the range. -/
abbrev rangePages (virt size : Word) : Nat :=
  pageCount (alignDown virt) (alignUp (virt + size))

section Range

variable (hrange : virt.toNat + size.toNat ≤ 2 ^ 48)
include hrange

theorem toNat_rangeEnd :
    (alignUp (virt + size)).toNat = (alignDown virt).toNat + 4096 * rangePages virt size ∧
      (alignUp (virt + size)).toNat ≤ 2 ^ 48 := by
  have hsum : (virt + size).toNat = virt.toNat + size.toNat := by bv_omega
  have hup := toNat_alignUp (a := virt + size) (by omega)
  have hdown := toNat_alignDown virt
  rw [hsum] at hup
  rw [rangePages, pageCount]
  omega

theorem toNat_roundAddr {k : Nat} (hk : k < rangePages virt size) :
    (roundAddr (alignDown virt) k).toNat = (alignDown virt).toNat + 4096 * k := by
  have := toNat_rangeEnd hrange
  rw [roundAddr, BitVec.toNat_add, BitVec.toNat_ofNat]
  omega

theorem distinctPages_range : DistinctPages (alignDown virt) (rangePages virt size) := by
  intro j hj k hk heq
  have hend := toNat_rangeEnd hrange
  have hdown := toNat_alignDown virt
  rw [pageOf, pageOf, toNat_roundAddr hrange hj, toNat_roundAddr hrange hk] at heq
  omega

theorem round_of_inRange (ha : InRange virt size a) :
    ∃ k < rangePages virt size, pageOf a = pageOf (roundAddr (alignDown virt) k) ∧
      a.toNat = (alignDown virt).toNat + 4096 * k + a.toNat % 4096 := by
  have hend := toNat_rangeEnd hrange
  have hdown := toNat_alignDown virt
  have h1 : (alignDown virt).toNat ≤ a.toNat := ha.1
  have h2 : a.toNat < (alignUp (virt + size)).toNat := ha.2
  have hk : (a.toNat - (alignDown virt).toNat) / 4096 < rangePages virt size := by omega
  refine ⟨(a.toNat - (alignDown virt).toNat) / 4096, hk, ?_, by omega⟩
  rw [pageOf, pageOf, toNat_roundAddr hrange hk]
  omega

/-- A 48-bit address outside the range is in no page of it. -/
theorem outside_of_not_inRange (ha48 : a.toNat < 2 ^ 48) (ha : ¬ InRange virt size a) :
    OutsidePages (alignDown virt) (rangePages virt size) a := by
  intro k hk heq
  apply ha
  have hend := toNat_rangeEnd hrange
  have hdown := toNat_alignDown virt
  rw [pageOf, pageOf, toNat_roundAddr hrange hk] at heq
  constructor
  · show (alignDown virt).toNat ≤ a.toNat
    omega
  · show a.toNat < (alignUp (virt + size)).toNat
    omega

theorem not_outside_of_inRange (ha : InRange virt size a) :
    ¬ OutsidePages (alignDown virt) (rangePages virt size) a := by
  obtain ⟨k, hk, hpage, -⟩ := round_of_inRange hrange ha
  exact fun hout => hout k hk hpage

end Range

/-! ## Translations -/

/-- The address translates alike, with the same flags, in both machines. -/
def SameTranslation (r : Frame) (s s' : Machine) (a : Word) : Prop :=
  ∃ v f, vmmVirtToPhysIn r a s = (.ok v, s) ∧ vmmVirtToPhysIn r a s' = (.ok v, s') ∧
    vmmFlags r a s = (.ok f, s) ∧ vmmFlags r a s' = (.ok f, s')

theorem sameTranslation_of_pte (h : Fresh child (entries s.mem) r 3 nullFrame)
    (h' : Fresh child (entries s'.mem) r 3 nullFrame) (hpte : pte s' r a = pte s r a) :
    SameTranslation r s s' a :=
  ⟨_, _, vmmVirtToPhysIn_eq h a, hpte ▸ vmmVirtToPhysIn_eq h' a, vmmFlags_eq h a,
    hpte ▸ vmmFlags_eq h' a⟩

/-- The flags are made of the `VMM_*` bits. -/
def VmmBits (flags : Word) : Prop :=
  flags &&& ~~~(vmmPresent ||| vmmWrite ||| vmmUser ||| vmmNx) = 0

instance (flags : Word) : Decidable (VmmBits flags) :=
  inferInstanceAs (Decidable (_ = _))

theorem VmmBits.mask (h : VmmBits flags) : flags &&& pteAddrMask = 0 := by
  have hsub : pteAddrMask = ~~~(vmmPresent ||| vmmWrite ||| vmmUser ||| vmmNx) &&& pteAddrMask := by
    decide
  rw [hsub, ← BitVec.and_assoc, h]
  simp

theorem translation_mapped (hrange : virt.toNat + size.toNat ≤ 2 ^ 48)
    (hphys : (alignDown phys).toNat + 4096 * rangePages virt size ≤ 2 ^ 52)
    (hflags : flags &&& pteAddrMask = 0) {k : Nat} (hk : k < rangePages virt size)
    (ha : a.toNat = (alignDown virt).toNat + 4096 * k + a.toNat % 4096) :
    translation a (pteValue (roundAddr (alignDown phys) k &&& pteAddrMask) flags) =
      alignDown phys + (a - alignDown virt) := by
  have hdown := toNat_alignDown phys
  have hframe : (roundAddr (alignDown phys) k).toNat = (alignDown phys).toNat + 4096 * k := by
    bv_omega
  have hmask : roundAddr (alignDown phys) k &&& pteAddrMask = roundAddr (alignDown phys) k := by
    apply mask_eq_self
    · unfold Mem.Aligned
      omega
    · omega
  apply BitVec.eq_of_toNat_eq
  rw [toNat_translation, mask_pteValue hflags, hmask, hmask, hframe]
  have hend := toNat_rangeEnd hrange
  bv_omega

/-- `map_in_root` on a root whose tables are a tree, with frames left in the
pool: the pages of the range are mapped in order to the frames from `phys` on,
every other address keeps its translation and flags, and the tables are a tree
again. -/
theorem mapInRoot_spec (h : Good r s) (hrange : virt.toNat + size.toNat ≤ 2 ^ 48)
    (hphys : (alignDown phys).toNat + 4096 * rangePages virt size ≤ 2 ^ 52)
    (hflags : VmmBits flags) (hpool : 3 * rangePages virt size ≤ s.pool.length) :
    ∃ s', mapInRoot r virt phys size flags s = (.ok 0, s') ∧ Good r s' ∧
      (∀ a, InRange virt size a →
        vmmVirtToPhysIn r a s' = (.ok (alignDown phys + (a - alignDown virt)), s')) ∧
      ∀ a, a.toNat < 2 ^ 48 → ¬ InRange virt size a → SameTranslation r s s' a := by
  have hspec := mapPages_spec flags (rangePages virt size) h (alignDown virt) (alignDown phys)
    (topPages_true _ _)
  have hmissing := missing_tablesFor_le s r (alignDown virt) (rangePages virt size)
  rcases hspec with ⟨s', hrun, hedits, -, hmapped, hother⟩ | ⟨-, -, -, hshort⟩
  case inr => omega
  have h' := h.edits hedits
  refine ⟨s', hrun, h', fun a ha => ?_, fun a ha48 ha => ?_⟩
  · obtain ⟨k, hk, hpage, hoff⟩ := round_of_inRange hrange ha
    rw [vmmVirtToPhysIn_eq h'.null, (distinctPages_range hrange).of_round hk hpage (hmapped a),
      Option.elim_some, translation_mapped hrange hphys hflags.mask hk hoff]
  · exact sameTranslation_of_pte h.null h'.null
      (hother a (outside_of_not_inRange hrange ha48 ha))

theorem unmapInRoot_spec (h : Good r s) (hrange : virt.toNat + size.toNat ≤ 2 ^ 48) :
    ∃ s', unmapInRoot r virt size s = (.ok (), s') ∧ Good r s' ∧
      (∀ a, InRange virt size a → vmmVirtToPhysIn r a s' = (.ok 0, s')) ∧
      ∀ a, a.toNat < 2 ^ 48 → ¬ InRange virt size a → SameTranslation r s s' a := by
  obtain ⟨s', hrun, hedits, hin, hout⟩ := unmapPages_spec (rangePages virt size) h
    (alignDown virt) (topPages_true _ _)
  have h' := h.edits hedits
  refine ⟨s', hrun, h', fun a ha => ?_, fun a ha48 ha => ?_⟩
  · rw [vmmVirtToPhysIn_eq h'.null, hin a (not_outside_of_inRange hrange ha)]
    rfl
  · exact sameTranslation_of_pte h.null h'.null
      (hout a (outside_of_not_inRange hrange ha48 ha))

theorem protectInRoot_spec (h : Good r s) (virt size : Word) (hflags : VmmBits flags) :
    ∃ res s', protectInRoot r virt size flags s = (.ok res, s') ∧ Good r s' ∧
      ∀ a, ∃ v, vmmVirtToPhysIn r a s = (.ok v, s) ∧ vmmVirtToPhysIn r a s' = (.ok v, s') := by
  obtain ⟨res, s', hrun, hedits, -, -, hkeep, -⟩ := protectPages_spec flags
    (rangePages virt size) h (alignDown virt) (topPages_true _ _)
  have h' := h.edits hedits
  refine ⟨res, s', hrun, h', fun a => ⟨_, vmmVirtToPhysIn_eq h.null a, ?_⟩⟩
  rw [vmmVirtToPhysIn_eq h'.null]
  -- the translation reads the frame bits only
  have hread : ∀ o : Option Word, o.elim 0 (translation a) =
      (o.map (· &&& pteAddrMask)).elim 0 fun e => e ||| (a &&& 0xfff) := by
    rintro (_ | e) <;> rfl
  rw [hread, hread, hkeep hflags.mask a]

/-- The three operations on a root whose tables are a tree of distinct frames,
with fresh frames in the pool. -/
theorem mapping_translations (h : Good r s) (hrange : virt.toNat + size.toNat ≤ 2 ^ 48)
    (hflags : VmmBits flags) :
    ((alignDown phys).toNat + 4096 * rangePages virt size ≤ 2 ^ 52 →
      3 * rangePages virt size ≤ s.pool.length →
      ∃ s', mapInRoot r virt phys size flags s = (.ok 0, s') ∧ Good r s' ∧
        (∀ a, InRange virt size a →
          vmmVirtToPhysIn r a s' = (.ok (alignDown phys + (a - alignDown virt)), s')) ∧
        ∀ a, a.toNat < 2 ^ 48 → ¬ InRange virt size a → SameTranslation r s s' a) ∧
    (∃ s', unmapInRoot r virt size s = (.ok (), s') ∧
      (∀ a, InRange virt size a → vmmVirtToPhysIn r a s' = (.ok 0, s')) ∧
      ∀ a, a.toNat < 2 ^ 48 → ¬ InRange virt size a → SameTranslation r s s' a) ∧
    ∃ res s', protectInRoot r virt size flags s = (.ok res, s') ∧
      ∀ a, ∃ v, vmmVirtToPhysIn r a s = (.ok v, s) ∧ vmmVirtToPhysIn r a s' = (.ok v, s') := by
  refine ⟨fun hphys hpool => mapInRoot_spec h hrange hphys hflags hpool, ?_, ?_⟩
  · obtain ⟨s', hrun, -, hin, hout⟩ := unmapInRoot_spec h hrange
    exact ⟨s', hrun, hin, hout⟩
  · obtain ⟨res, s', hrun, -, hkeep⟩ := protectInRoot_spec h virt size hflags
    exact ⟨res, s', hrun, hkeep⟩

/-! ## An empty root -/

theorem good_of_empty (hr : r ≠ nullFrame) (hempty : ∀ i, entries s.mem r i = 0)
    (hnodup : s.pool.Nodup) (halloc : ∀ page ∈ s.pool, Allocatable page)
    (hpool : r.val ∉ s.pool) : Good r s := by
  have hwalk : ∀ p f, walk child (entries s.mem) r p = some f → p = [] ∧ f = r := by
    intro p f hp
    cases p with
    | nil => exact ⟨rfl, (Option.some.inj hp).symm⟩
    | cons i p =>
      rw [OreOS.Lib.Radix.walk_cons, hempty i] at hp
      cases hp
  refine ⟨fun p q f _ _ hp hq => ?_, fun q _ hq => ?_, hnodup, halloc, fun g hg q _ hq => ?_⟩
  · rw [(hwalk p f hp).1, (hwalk q f hq).1]
  · exact hr (hwalk q _ hq).2.symm
  · exact hpool ((hwalk q _ hq).2 ▸ hg)

/-- Cleared memory with six frames to hand out. -/
def blank : Machine :=
  { mem := fun _ => 0, pool := [0x2000, 0x3000, 0x4000, 0x5000, 0x6000, 0x7000] }

def blankRoot : Frame :=
  ⟨0x1000, by decide⟩

theorem good_blank : Good blankRoot blank := by
  refine good_of_empty (by decide) (fun i => ?_) (by decide) (fun page hpage => ?_) (by decide)
  · rw [entries]
    exact Mem.load64_of_bytes fun _ _ => BitVec.extractLsb'_zero.symm
  · simp only [blank, List.mem_cons, List.not_mem_nil, or_false] at hpage
    rcases hpage with rfl | rfl | rfl | rfl | rfl | rfl <;> decide

/-- One user page mapped in an empty root. -/
theorem mapping_translations_blank :
    ∃ s', mapInRoot blankRoot 0x8000000000 0x9000 4096 (vmmUser ||| vmmWrite) blank = (.ok 0, s') ∧
      vmmVirtToPhysIn blankRoot 0x8000000123 s' = (.ok 0x9123, s') := by
  have hrange : (0x8000000000 : Word).toNat + (4096 : Word).toNat ≤ 2 ^ 48 := by decide
  have hphys : (alignDown 0x9000).toNat + 4096 * rangePages 0x8000000000 4096 ≤ 2 ^ 52 := by decide
  have hflags : VmmBits (vmmUser ||| vmmWrite) := by decide
  obtain ⟨s', hrun, -, hin, -⟩ :=
    (mapping_translations good_blank hrange hflags).1 hphys (by decide)
  exact ⟨s', hrun, hin 0x8000000123 (by decide)⟩

/-- Two bytes from the last three below 2^52, mapped across a page end: the
second page of the range would need the frame at 2^52, and gets frame 0. -/
theorem map_wraps :
    ∃ (r : Frame) (s s' : Machine) (virt phys size flags a : Word), Good r s ∧
      virt.toNat + size.toNat ≤ 2 ^ 48 ∧ phys.toNat + size.toNat < 2 ^ 52 ∧ VmmBits flags ∧
      3 * rangePages virt size ≤ s.pool.length ∧
      mapInRoot r virt phys size flags s = (.ok 0, s') ∧ InRange virt size a ∧
      vmmVirtToPhysIn r a s' = (.ok 0, s') ∧ alignDown phys + (a - alignDown virt) = 2 ^ 52 := by
  rcases mapPages_spec 0 2 good_blank (alignDown 4095) (alignDown (2 ^ 52 - 3))
    (topPages_true _ _) with
    ⟨s', hrun, hedits, -, hmapped, -⟩ | ⟨-, -, -, hshort⟩
  case inr => exact absurd (hshort.trans_le (missing_tablesFor_le ..)) (by decide)
  refine ⟨blankRoot, blank, s', 4095, 2 ^ 52 - 3, 2, 0, 4096, good_blank, by decide, by decide,
    by decide, by decide, hrun, by decide, ?_, by decide⟩
  have hd : DistinctPages (alignDown 4095) 2 := by
    unfold DistinctPages
    decide
  rw [vmmVirtToPhysIn_eq (good_blank.edits hedits).null,
    hd.of_round (show 1 < 2 by decide) (show pageOf 4096 = _ by decide) (hmapped 4096)]
  rfl

/-- `map_in_root` returns exactly if the pool has a frame for every table that is missing on
the way to the pages of the range. -/
theorem mapInRoot_returns_iff (h : Good r s) (virt phys size flags : Word) :
    (∃ s', mapInRoot r virt phys size flags s = (.ok 0, s')) ↔
      missing s r (tablesFor (alignDown virt) (pageCount (alignDown virt) (alignUp (virt + size)))) ≤
        s.pool.length := by
  unfold mapInRoot
  rcases mapPages_spec flags _ h (alignDown virt) (alignDown phys) (topPages_true _ _) with
    ⟨s', hrun, -, ht, -⟩ | ⟨s', hrun, -, hshort⟩
  · exact iff_of_true ⟨s', hrun⟩ (by rw [ht.frames]; omega)
  · refine iff_of_false ?_ (by omega)
    rintro ⟨s'', hrun'⟩
    cases hrun.symm.trans hrun'

theorem mapInRoot_returns_blank :
    ∃ s', mapInRoot blankRoot 0x8000000000 0x9000 4096 vmmUser blank = (.ok 0, s') := by
  refine (mapInRoot_returns_iff good_blank ..).mpr ((Finset.card_filter_le ..).trans ?_)
  decide

end OreOS.Kernel
