import OreOS.Laws.Kernel.Boot

/-!
# What loading an OreImage writes

A relocation says where to store, in 64 bits, and the loader only asks whether
the place translates. So does whatever the kernel has mapped outside the user
half, and a store near the end of a page runs into the frame that follows in
memory. Under `SafeRelocs`, and only under it, loading into a fresh process
stores nothing outside the frames of that process, in every state of the system.
-/

namespace OreOS.Kernel

open OreOS.Lib (Word Byte Mem Exec Space)

/-! ## Relocations -/

namespace OreImageReloc

variable (r : OreImageReloc) (dataBase : Word)

/-- The bytes a relocation stores, unless it is turned down: the target, or the
displacement if that fits 32 bits. -/
def bytes : Option (List Byte) :=
  if r.type = oreImageRelocAbs64 then some (Mem.leBytes 8 (r.target dataBase))
  else if r.type = oreImageRelocPc32 then
    if (r.disp dataBase).toInt < -2 ^ 31 ∨ (r.disp dataBase).toInt > 2 ^ 31 - 1 then none
    else some (Mem.leBytes 4 ((r.disp dataBase).setWidth 32))
  else none

theorem length_bytes {bs : List Byte} (h : r.bytes dataBase = some bs) : 0 < bs.length := by
  unfold bytes at h
  split at h
  · cases h
    simp
  · split at h
    · split at h
      · cases h
      · cases h
        simp
    · cases h

end OreImageReloc

theorem applyReloc_eq {root dataBase phys : Word} {r : OreImageReloc} {s : Machine}
    (hrun : vmmVirtToPhysIn root (r.place dataBase) s = (.ok phys, s)) :
    applyReloc root dataBase r s =
      match r.bytes dataBase with
      | none => (.ok (-oreEinval), s)
      | some bs => if phys = 0 then (.ok (-oreEinval), s) else (.ok 0, s.write phys bs) := by
  rw [applyReloc, Exec.bind_ok hrun]
  unfold OreImageReloc.bytes
  by_cases hphys : phys = 0
  · rw [if_pos hphys]
    split <;> simp [hphys]
  · rw [if_neg hphys]
    by_cases habs : r.type = oreImageRelocAbs64
    · rw [if_pos habs, if_pos habs]
      dsimp only
      rw [if_neg hphys]
      rfl
    · rw [if_neg habs, if_neg habs]
      by_cases hpc : r.type = oreImageRelocPc32
      · rw [if_pos hpc, if_pos hpc]
        split
        · rfl
        · rfl
      · rw [if_neg hpc, if_neg hpc]
        rfl

theorem applyReloc_store {g : Frame} {dataBase e : Word} {r : OreImageReloc} {s : Machine}
    {bs : List Byte} (h : Good g s) (hbytes : r.bytes dataBase = some bs)
    (hpte : pte s g (r.place dataBase) = some e) (hne : translation (r.place dataBase) e ≠ 0) :
    applyReloc g dataBase r s = (.ok 0, s.write (translation (r.place dataBase) e) bs) := by
  have hrun := vmmVirtToPhysIn_eq h.null (r.place dataBase)
  rw [hpte, Option.elim_some] at hrun
  rw [applyReloc_eq hrun, hbytes]
  exact if_neg hne

/-! ## The pages of an image -/

namespace OreImageHeader

variable (hdr : OreImageHeader)

/-- The address, in its 48 bits, is in the pages of text and data. -/
def InImage (a : Word) : Prop :=
  userBase.toNat ≤ a.toNat % 2 ^ 48 ∧
    a.toNat % 2 ^ 48 < (hdr.dataBase + alignUp hdr.dataSpan).toNat

instance (a : Word) : Decidable (hdr.InImage a) :=
  inferInstanceAs (Decidable (_ ∧ _))

/-- Up to the first relocation that is turned down, places are in the image's
pages and stores end in the page where they begin. A place in the user half
outside the image does not translate, so it is turned down as well. -/
def SafeRelocs : List OreImageReloc → Prop
  | [] => True
  | r :: rs =>
    match r.bytes hdr.dataBase with
    | none => True
    | some bs =>
      ¬ OutsideUser (r.place hdr.dataBase) ∧
        (hdr.InImage (r.place hdr.dataBase) →
          (r.place hdr.dataBase).toNat % 4096 + bs.length ≤ 4096 ∧ SafeRelocs rs)

instance decidableSafeRelocs : (rs : List OreImageReloc) → Decidable (hdr.SafeRelocs rs)
  | [] => .isTrue trivial
  | r :: rs =>
    have := decidableSafeRelocs rs
    match h : r.bytes hdr.dataBase with
    | none => .isTrue (by rw [SafeRelocs, h]; trivial)
    | some bs =>
      decidable_of_iff (¬ OutsideUser (r.place hdr.dataBase) ∧
        (hdr.InImage (r.place hdr.dataBase) →
          (r.place hdr.dataBase).toNat % 4096 + bs.length ≤ 4096 ∧ hdr.SafeRelocs rs))
        (by rw [SafeRelocs, h])

/-! ## Their number -/

def textPages : Nat :=
  (hdr.textSize.toNat + 4095) / 4096

def dataPages : Nat :=
  (hdr.dataSpan.toNat + 4095) / 4096

/-- The pages of text and data, one after the other from `USER_BASE` on. -/
def ImagePage (p : Nat) : Prop :=
  2 ^ 27 ≤ p ∧ p < 2 ^ 27 + hdr.textPages + hdr.dataPages

variable {hdr} {len : Word} (h : hdr.Accepted len)
include h

theorem Accepted.textPages_le : 1 ≤ hdr.textPages ∧ hdr.textPages ≤ 64 := by
  obtain ⟨-, -, -, -, -, hne, hle, -⟩ := h
  have hle' : hdr.textSize.toNat ≤ 2 ^ 18 := hle
  have hne' : hdr.textSize.toNat ≠ 0 := fun h0 => hne (BitVec.eq_of_toNat_eq h0)
  rw [textPages]
  omega

theorem Accepted.dataSpan_le : 1 ≤ hdr.dataSpan.toNat ∧ hdr.dataSpan.toNat ≤ 2 ^ 19 := by
  obtain ⟨-, -, -, -, -, -, -, hdata, hbss, -⟩ := h
  unfold dataSpan
  split
  next hne =>
    bv_omega
  next => decide

theorem Accepted.dataPages_le : 1 ≤ hdr.dataPages ∧ hdr.dataPages ≤ 128 := by
  have := h.dataSpan_le
  rw [dataPages]
  omega

theorem Accepted.toNat_dataBase : hdr.dataBase.toNat = 2 ^ 39 + 4096 * hdr.textPages := by
  have hpages := h.textPages_le
  rw [textPages] at *
  have hsum : (userBase + hdr.textSize).toNat = 2 ^ 39 + hdr.textSize.toNat := by
    rw [BitVec.toNat_add, userBase_toNat]
    omega
  rw [dataBase, toNat_alignUp (by omega), hsum]
  omega

theorem Accepted.aligned_dataBase : Mem.Aligned hdr.dataBase := by
  rw [Mem.Aligned, h.toNat_dataBase]
  omega

theorem Accepted.imageEnd :
    (hdr.dataBase + alignUp hdr.dataSpan).toNat =
      2 ^ 39 + 4096 * hdr.textPages + 4096 * hdr.dataPages := by
  have htext := h.textPages_le
  have hspan := h.dataSpan_le
  rw [BitVec.toNat_add, toNat_alignUp (by omega), h.toNat_dataBase]
  rw [dataPages] at *
  omega

theorem Accepted.text_rounds :
    alignDown userBase = userBase ∧
      pageCount (alignDown userBase) (alignUp (userBase + hdr.textSize)) = hdr.textPages := by
  have hdown : alignDown userBase = userBase := by decide
  refine ⟨hdown, ?_⟩
  have hbase := h.toNat_dataBase
  rw [dataBase] at hbase
  rw [hdown, pageCount, hbase, userBase_toNat]
  omega

theorem Accepted.data_rounds :
    alignDown hdr.dataBase = hdr.dataBase ∧
      pageCount (alignDown hdr.dataBase) (alignUp (hdr.dataBase + hdr.dataSpan)) =
        hdr.dataPages := by
  have htext := h.textPages_le
  have hspan := h.dataSpan_le
  have hbase := h.toNat_dataBase
  have hdown := alignDown_of_aligned h.aligned_dataBase
  have hsum : (hdr.dataBase + hdr.dataSpan).toNat = hdr.dataBase.toNat + hdr.dataSpan.toNat := by
    bv_omega
  refine ⟨hdown, ?_⟩
  rw [hdown, pageCount, toNat_alignUp (by omega), hsum, hbase, dataPages]
  omega

theorem Accepted.roundPages_text {p : Nat} :
    RoundPages userBase hdr.textPages p ↔ 2 ^ 27 ≤ p ∧ p < 2 ^ 27 + hdr.textPages := by
  have htext := h.textPages_le
  have hbase : (2 ^ 39 / 4096 : Nat) = 2 ^ 27 := by decide
  rw [roundPages_iff (by rw [userBase_toNat]; omega), userBase_toNat, hbase]

theorem Accepted.roundPages_data {p : Nat} :
    RoundPages hdr.dataBase hdr.dataPages p ↔
      2 ^ 27 + hdr.textPages ≤ p ∧ p < 2 ^ 27 + hdr.textPages + hdr.dataPages := by
  have htext := h.textPages_le
  have hdata := h.dataPages_le
  have hbase := h.toNat_dataBase
  rw [roundPages_iff (by omega), hbase]
  omega

/-- The image's pages are in the user half. -/
theorem Accepted.private_of_imagePage {a : Word} (ha : hdr.ImagePage (pageOf a)) :
    Private (tableIndex a 39) := by
  have htext := h.textPages_le
  have hdata := h.dataPages_le
  obtain ⟨hlow, hhigh⟩ := ha
  rw [pageOf] at hlow hhigh
  rw [Private, tableIndex_val]
  omega

theorem Accepted.inImage_iff {a : Word} : hdr.InImage a ↔ hdr.ImagePage (pageOf a) := by
  rw [InImage, h.imageEnd, userBase_toNat, ImagePage, pageOf]
  omega

theorem Accepted.topPages_text : TopPages Private userBase hdr.textPages := fun j hj =>
  h.private_of_imagePage (by
    have := (h.roundPages_text (p := pageOf (roundAddr userBase j))).mp ⟨j, hj, rfl⟩
    unfold ImagePage
    omega)

theorem Accepted.topPages_data : TopPages Private hdr.dataBase hdr.dataPages := fun j hj =>
  h.private_of_imagePage (by
    have := (h.roundPages_data (p := pageOf (roundAddr hdr.dataBase j))).mp ⟨j, hj, rfl⟩
    unfold ImagePage
    omega)

theorem Accepted.text_bytes {i : Nat} (hi : i < hdr.textSize.toNat) :
    hdr.ImagePage (pageOf (userBase + BitVec.ofNat 64 i)) := by
  have htext := h.textPages_le
  rw [textPages] at htext
  have hsum : (userBase + BitVec.ofNat 64 i).toNat = 2 ^ 39 + i := by
    rw [BitVec.toNat_add, userBase_toNat, BitVec.toNat_ofNat]
    omega
  rw [ImagePage, pageOf, hsum, textPages]
  omega

theorem Accepted.data_bytes {i : Nat} (hi : i < hdr.dataSize.toNat) :
    hdr.ImagePage (pageOf (hdr.dataBase + BitVec.ofNat 64 i)) := by
  have htext := h.textPages_le
  have hspan := h.dataSpan_le
  have hbase := h.toNat_dataBase
  have hsize : hdr.dataSize.toNat ≤ hdr.dataSpan.toNat := by
    obtain ⟨-, -, -, -, -, -, -, hdata, hbss, -⟩ := h
    have hsum : (hdr.dataSize + hdr.bssSize).toNat = hdr.dataSize.toNat + hdr.bssSize.toNat := by
      bv_omega
    unfold dataSpan
    split
    next => omega
    next hzero =>
      rw [not_not] at hzero
      rw [hzero] at hsum
      simp at hsum ⊢
      omega
  have hsum : (hdr.dataBase + BitVec.ofNat 64 i).toNat = hdr.dataBase.toNat + i := by bv_omega
  rw [ImagePage, pageOf, hsum, hbase, dataPages]
  omega

/-- The rounds of the final protection are the same as those that mapped the
pages. -/
theorem Accepted.protect_rounds :
    pageCount (alignDown userBase) (alignUp (userBase + alignUp hdr.textSize)) = hdr.textPages ∧
      pageCount (alignDown hdr.dataBase) (alignUp (hdr.dataBase + alignUp hdr.dataSpan)) =
        hdr.dataPages := by
  have hend := h.imageEnd
  have hbase := h.toNat_dataBase
  have hup : (alignUp hdr.textSize).toNat = 4096 * hdr.textPages := by
    obtain ⟨-, -, -, -, -, -, hle, -⟩ := h
    have hle' : hdr.textSize.toNat ≤ 2 ^ 18 := hle
    rw [toNat_alignUp (by omega), textPages, Nat.mul_comm]
  have hsum : (userBase + alignUp hdr.textSize).toNat = 2 ^ 39 + 4096 * hdr.textPages := by
    rw [BitVec.toNat_add, userBase_toNat, hup]
    omega
  constructor
  · rw [h.text_rounds.1, pageCount, toNat_alignUp (by omega), hsum, userBase_toNat]
    omega
  · rw [h.data_rounds.1, pageCount, toNat_alignUp (by omega), hend, hbase]
    omega

end OreImageHeader

/-! ## Pages and bytes -/

/-- The pages of text and data, blank. -/
def orePages (hdr : OreImageHeader) : UserSpace :=
  (rounds hdr.dataBase hdr.dataPages).foldl
    (Space.ensure pageAt 0 (vmmUser ||| vmmNx ||| vmmWrite ||| vmmPresent)) <|
  (rounds userBase hdr.textPages).foldl
    (Space.ensure pageAt 0 (vmmUser ||| vmmWrite ||| vmmPresent)) emptySpace

/-- Text and data, before they are protected. -/
def oreLayout (image : Mem) : UserSpace :=
  let hdr := oreImageHeader image
  ((orePages hdr).put (block (spot userBase) hdr.textSize.toNat
    fun i => image (hdr.textOff + BitVec.ofNat 64 i))).put
    (block (spot hdr.dataBase) hdr.dataSize.toNat
      fun i => image (hdr.dataOff + BitVec.ofNat 64 i))

theorem mapped_orePages {hdr : OreImageHeader} {len : Word} (hacc : hdr.Accepted len) {p : Nat} :
    (orePages hdr).Mapped p ↔ hdr.ImagePage p := by
  have hempty : ¬ emptySpace.Mapped p := by simp [emptySpace, Space.Mapped]
  rw [orePages, Space.mapped_ensures, Space.mapped_ensures, mem_rounds, mem_rounds,
    hacc.roundPages_text, hacc.roundPages_data, OreImageHeader.ImagePage]
  constructor
  · rintro (hp | hp | hp)
    · omega
    · omega
    · exact absurd hp hempty
  · intro hp
    omega

/-! ## The parts of the loader -/

section Load

variable {k g : Frame} {users : Frame → Prop} {s₀ s : Machine} {image : Mem} {len : Word}

theorem oreImagePages_shows (hacc : (oreImageHeader image).Accepted len)
    (h : Shows k users g s₀ emptySpace s) :
    Outcome (oreImagePages g image) s
      (fun s' => Shows k users g s₀ (oreLayout image) s' ∧
        s.pool.length ≤ s'.pool.length +
          4 * ((oreImageHeader image).textPages + (oreImageHeader image).dataPages))
      (fun s' => Owner k users g s₀ s' ∧ s.pool.length <
        4 * ((oreImageHeader image).textPages + (oreImageHeader image).dataPages)) := by
  unfold oreImagePages oreLayout
  generalize hhdr : oreImageHeader image = hdr at *
  dsimp only
  refine Outcome.orReturn ?_ ?_ (G := fun s' => Shows k users g s₀
    ((rounds userBase hdr.textPages).foldl
      (Space.ensure pageAt 0 (vmmUser ||| vmmWrite ||| vmmPresent)) emptySpace) s' ∧
      s.pool.length ≤ s'.pool.length + 4 * hdr.textPages)
  · rw [mapZeroedUserPages, hacc.text_rounds.2, hacc.text_rounds.1]
    exact (ensurePages_shows hdr.textPages h true (-oreEinval) (by decide) hacc.topPages_text
      (by decide) (by decide)).mono (fun _ => id) fun _ hb => ⟨hb.1, by omega⟩
  rintro s₁ ⟨h₁, hlen₁⟩
  refine Outcome.orReturn ?_ ?_ (G := fun s' => Shows k users g s₀ (orePages hdr) s' ∧
    s.pool.length ≤ s'.pool.length + 4 * (hdr.textPages + hdr.dataPages))
  · rw [mapZeroedUserPages, hacc.data_rounds.2, hacc.data_rounds.1]
    exact (ensurePages_shows hdr.dataPages h₁ true (-oreEinval) hacc.aligned_dataBase
      hacc.topPages_data (by decide) (by decide)).mono
      (fun s' hs => ⟨hs.1, by have := hs.2; omega⟩) fun _ hb => ⟨hb.1, by omega⟩
  rintro s₂ ⟨h₂, hlen₂⟩
  have hpage : ∀ {a : Word}, hdr.ImagePage (pageOf a) →
      Private (tableIndex a 39) ∧ (orePages hdr).Mapped (pageOf a) := fun ha =>
    ⟨hacc.private_of_imagePage ha, (mapped_orePages hacc).mpr ha⟩
  obtain ⟨s₃, hrun₃, h₃, hpool₃⟩ := putBytes_shows hdr.textSize.toNat h₂ (-oreEinval) image
    userBase hdr.textOff fun i hi => hpage (hacc.text_bytes hi)
  obtain ⟨s₄, hrun₄, h₄, hpool₄⟩ := putBytes_shows hdr.dataSize.toNat h₃ (-oreEinval) image
    hdr.dataBase hdr.dataOff fun i hi => hpage (hacc.data_bytes hi)
  rw [Outcome, orReturn_zero (show copyToUserPhys g userBase image hdr.textOff hdr.textSize s₂ = _
    from hrun₃)]
  left
  by_cases hdata : hdr.dataSize = 0
  · have hzero : hdr.dataSize.toNat = 0 := congrArg BitVec.toNat hdata
    rw [if_neg (not_not.mpr hdata), hzero, put_block_zero]
    exact ⟨s₃, rfl, h₃, by rw [hpool₃]; exact hlen₂⟩
  · rw [if_pos hdata]
    exact ⟨s₄, hrun₄, h₄, by rw [hpool₄, hpool₃]; exact hlen₂⟩

theorem oreImageFinish_shows {hdr : OreImageHeader} {v : UserSpace} (hacc : hdr.Accepted len)
    (hmapped : ∀ p, hdr.ImagePage p → v.Mapped p) (h : Shows k users g s₀ v s) :
    Outcome (oreImageFinish g hdr) s
      (Shows k users g s₀ (withStack ((rounds hdr.dataBase hdr.dataPages).foldl
        (Space.protect stackFlags) ((rounds userBase hdr.textPages).foldl
          (Space.protect (vmmUser ||| vmmPresent)) v))))
      (fun s' => Owner k users g s₀ s' ∧ s.pool.length < 32) := by
  have hrounds := hacc.protect_rounds
  have htext : ∀ p ∈ rounds userBase hdr.textPages, v.Mapped p := fun p hp => by
    have := hacc.roundPages_text.mp (mem_rounds.mp hp)
    exact hmapped p ⟨this.1, by omega⟩
  have hdata : ∀ p ∈ rounds hdr.dataBase hdr.dataPages, v.Mapped p := fun p hp => by
    have := hacc.roundPages_data.mp (mem_rounds.mp hp)
    exact hmapped p ⟨by omega, this.2⟩
  obtain ⟨s₁, hrun₁, h₁, hpool₁⟩ := protectPages_shows vmmUser hdr.textPages h hacc.topPages_text
    (by decide) htext
  obtain ⟨s₂, hrun₂, h₂, hpool₂⟩ := protectPages_shows (vmmUser ||| vmmWrite ||| vmmNx)
    hdr.dataPages h₁ hacc.topPages_data (by decide) fun p hp =>
      (Space.mapped_protects _).mpr (.inr (hdata p hp))
  have hfirst : protectInRoot g userBase (alignUp hdr.textSize) vmmUser s = (.ok 0, s₁) := by
    rw [protectInRoot, hrounds.1, hacc.text_rounds.1]
    exact hrun₁
  have hsecond : protectInRoot g hdr.dataBase (alignUp hdr.dataSpan)
      (vmmUser ||| vmmWrite ||| vmmNx) s₁ = (.ok 0, s₂) := by
    rw [protectInRoot, hrounds.2, hacc.data_rounds.1]
    exact hrun₂
  have hrun : oreImageFinish g hdr s = mapStack g true (-oreEnomem) (-oreEinval) s₂ :=
    (orFail_zero hfirst).trans (orFail_zero hsecond)
  rw [Outcome, hrun]
  refine (mapStack_shows h₂ (by decide)).mono (fun _ => And.left) ?_
  intro _ hshort
  rwa [hpool₂, hpool₁] at hshort

theorem oreImagePages_outcome (hacc : (oreImageHeader image).Accepted len)
    (hfresh : FreshProcess k users g s) :
    Outcome (oreImagePages g image) s
      (fun s' => Loading k users g s (oreImageHeader image).ImagePage s')
      (fun s' => Owner k users g s s' ∧ s.pool.length < 768) := by
  have htext := hacc.textPages_le
  have hdata := hacc.dataPages_le
  exact (oreImagePages_shows hacc hfresh.shows).mono
    (fun _ hs => hs.1.loading.congr fun _ => mapped_orePages hacc) fun _ hb => ⟨hb.1, by omega⟩

theorem oreImageFinish_outcome {hdr : OreImageHeader} (hacc : hdr.Accepted len)
    (h : Loading k users g s₀ hdr.ImagePage s) :
    Outcome (oreImageFinish g hdr) s (fun s' => ∃ M, Loading k users g s₀ M s')
      (fun s' => Owner k users g s₀ s') := by
  obtain ⟨v, hv, hshows⟩ := h.exists_shows
  exact (oreImageFinish_shows hacc (fun p => (hv p).mpr) hshows).mono
    (fun _ hs => ⟨_, hs.loading⟩) fun _ => And.left

/-- Every byte stored between `s` and `s'` is in a frame that backs a page of
the image in `s`. -/
def StoresInImage (hdr : OreImageHeader) (g : Frame) (s s' : Machine) : Prop :=
  ∃ new, s'.trace = new ++ s.trace ∧ ∀ w ∈ new, ∀ y, Touches w y →
    ∃ a e, hdr.InImage a ∧ pte s g a = some e ∧ Mem.InPage (e &&& pteAddrMask) y

theorem StoresInImage.refl (hdr : OreImageHeader) (g : Frame) (s : Machine) :
    StoresInImage hdr g s s :=
  ⟨[], rfl, nofun⟩

/-- Safe relocations store into the image's pages. -/
theorem applyRelocs_outcome {hdr : OreImageHeader} (hacc : hdr.Accepted len)
    (rs : List OreImageReloc) {s : Machine} (h : Loading k users g s₀ hdr.ImagePage s)
    (hsafe : hdr.SafeRelocs rs) :
    Outcome (applyRelocs g hdr.dataBase rs) s
      (fun s' => Loading k users g s₀ hdr.ImagePage s' ∧ StoresInImage hdr g s s')
      (fun s' => Owner k users g s₀ s' ∧ StoresInImage hdr g s s') := by
  induction rs generalizing s with
  | nil => exact .inl ⟨s, rfl, h, .refl hdr g s⟩
  | cons r rs ih =>
    have hrun := vmmVirtToPhysIn_eq (h.owner.isolated.user g h.owner.user).null
      (r.place hdr.dataBase)
    have hstep := applyReloc_eq hrun
    -- a relocation that is turned down ends the loop with nothing stored
    have hstop : applyReloc g hdr.dataBase r s = (.ok (-oreEinval), s) →
        Outcome (applyRelocs g hdr.dataBase (r :: rs)) s
          (fun s' => Loading k users g s₀ hdr.ImagePage s' ∧ StoresInImage hdr g s s')
          (fun s' => Owner k users g s₀ s' ∧ StoresInImage hdr g s s') := fun hr =>
      Outcome.orReturn (G := fun _ => False) (.inr ⟨.ok (-oreEinval), s, hr,
        fun _ he => by cases he; decide, h.owner, .refl hdr g s⟩) fun _ hf => hf.elim
    rw [OreImageHeader.SafeRelocs] at hsafe
    cases hbytes : r.bytes hdr.dataBase with
    | none =>
      rw [hbytes] at hstep
      exact hstop hstep
    | some bs =>
      rw [hbytes] at hstep hsafe
      obtain ⟨huser, hfit⟩ := hsafe
      have hp := private_iff.mpr huser
      dsimp only at hstep
      cases hpte : pte s g (r.place hdr.dataBase) with
      | none =>
        rw [hpte, Option.elim_none, if_pos rfl] at hstep
        exact hstop hstep
      | some e =>
        have himage := (h.mapped _ hp).mp (by rw [hpte]; rfl)
        obtain ⟨hfit, hrest⟩ := hfit (hacc.inImage_iff.mpr himage)
        have hne := (h.frames _ e hp hpte).translation_ne (a := r.place hdr.dataBase) h.owner.alloc
        have hstep := applyReloc_store (h.owner.isolated.user g h.owner.user) hbytes hpte hne
        have hwrite := h.write hp hpte bs hfit
        obtain ⟨-, hsame, -⟩ := h.owner.write (h.frames _ e hp hpte)
          (fun y hy => inPage_translation hfit hy) (aligned_mask e)
        rw [Outcome, applyRelocs, orReturn_zero hstep]
        -- the page tables are as before, so the later stores are in the same pages
        have hstores : ∀ s', StoresInImage hdr g (s.write (translation (r.place hdr.dataBase) e) bs) s' →
            StoresInImage hdr g s s' := by
          rintro s' ⟨new, htrace, hnew⟩
          refine ⟨new ++ [(translation (r.place hdr.dataBase) e, bs.length)], ?_, fun w hw y hy => ?_⟩
          · rw [htrace, List.append_assoc]
            rfl
          · rcases List.mem_append.mp hw with hw | hw
            · obtain ⟨a, e', ha, hpte', hpage⟩ := hnew w hw y hy
              rw [hsame g (.inr h.owner.user)] at hpte'
              exact ⟨a, e', ha, hpte', hpage⟩
            · rw [List.mem_singleton] at hw
              subst hw
              exact ⟨_, e, hacc.inImage_iff.mpr himage, hpte, inPage_translation hfit hy⟩
        exact (ih hwrite hrest).mono (fun s' hs => ⟨hs.1, hstores s' hs.2⟩)
          fun s' hs => ⟨hs.1, hstores s' hs.2⟩

/-- Loading a safe image into a fresh process. -/
theorem loadOreImage_owner (h : FreshProcess k users g s)
    (hsafe : (oreImageHeader image).Accepted len →
      (oreImageHeader image).SafeRelocs (oreImageRelocs image)) :
    Owner k users g s (loadOreImageIntoProcess g image len s).2 := by
  by_cases hacc : (oreImageHeader image).Accepted len
  case neg =>
    rw [loadOreImageIntoProcess, if_neg hacc]
    exact h.loading.owner
  have hparts : Outcome (orReturn (oreImagePages g image) <|
      orReturn (applyRelocs g (oreImageHeader image).dataBase (oreImageRelocs image))
        (oreImageFinish g (oreImageHeader image))) s
      (fun s' => ∃ M, Loading k users g s M s') (fun s' => Owner k users g s s') := by
    refine Outcome.orReturn ((oreImagePages_outcome hacc h).mono (fun _ => id) fun _ => And.left)
      fun s₁ h₁ => ?_
    refine Outcome.orReturn ((applyRelocs_outcome hacc _ h₁ (hsafe hacc)).mono (fun _ => And.left)
      fun _ => And.left) fun s₂ h₂ => oreImageFinish_outcome hacc h₂
  have hfinal := hparts.after fun s' ⟨M, hs'⟩ => hs'.owner
  rw [loadOreImageIntoProcess, if_pos hacc]
  exact Exec.after_bind hfinal fun _ => .ite (fun _ => .pure _) fun _ => .pure _

/-! ## Unsafe images -/

theorem stable_applyRelocs {I : Machine → Prop} (hI : Stable I) (root dataBase : Word)
    (rs : List OreImageReloc) : Exec.Keeps I (applyRelocs root dataBase rs) := by
  induction rs with
  | nil => exact .pure _
  | cons r rs ih =>
    refine Stable.orReturn ((hI.vmmVirtToPhysIn _ _).bind fun _ => .ite (fun _ => .pure _) fun _ =>
      .ite (fun _ => ?_) fun _ => .ite (fun _ => .ite (fun _ => .pure _) fun _ => ?_) fun _ =>
        .pure _) ih
    · exact (hI.store _ _).bind fun _ => .pure _
    · exact Exec.Keeps.bind (fun s h => hI.write s _ _ h) fun _ => .pure _

theorem stable_oreImageFinish {I : Machine → Prop} (hI : Stable I) (root : Word)
    (hdr : OreImageHeader) : Exec.Keeps I (oreImageFinish root hdr) :=
  Stable.orFail (hI.protectPages _ _ _ _) <|
    Stable.orFail (hI.protectPages _ _ _ _) (hI.stackPages _ _ _ _ _ _)

/-- The relocation stores inside a page of the image. -/
def OreImageHeader.Settled (hdr : OreImageHeader) (r : OreImageReloc) : Prop :=
  ∃ bs, r.bytes hdr.dataBase = some bs ∧ hdr.InImage (r.place hdr.dataBase) ∧
    (r.place hdr.dataBase).toNat % 4096 + bs.length ≤ 4096

/-- Unsafe relocations: after some that store inside the image there is one
that goes through the kernel's half, or over the end of its page. -/
theorem OreImageHeader.unsafe_split {hdr : OreImageHeader} {rs : List OreImageReloc}
    (h : ¬ hdr.SafeRelocs rs) :
    ∃ pre r post bs, rs = pre ++ r :: post ∧ (∀ x ∈ pre, hdr.Settled x) ∧
      r.bytes hdr.dataBase = some bs ∧
      (OutsideUser (r.place hdr.dataBase) ∨ hdr.InImage (r.place hdr.dataBase) ∧
        4096 < (r.place hdr.dataBase).toNat % 4096 + bs.length) := by
  induction rs with
  | nil => exact absurd trivial h
  | cons r rs ih =>
    rw [SafeRelocs] at h
    cases hbytes : r.bytes hdr.dataBase with
    | none =>
      rw [hbytes] at h
      exact absurd trivial h
    | some bs =>
      rw [hbytes] at h
      by_cases hout : OutsideUser (r.place hdr.dataBase)
      · exact ⟨[], r, rs, bs, rfl, nofun, hbytes, .inl hout⟩
      · simp only [hout, not_false_eq_true, true_and, Classical.not_imp] at h
        obtain ⟨hin, h⟩ := h
        by_cases hfit : (r.place hdr.dataBase).toNat % 4096 + bs.length ≤ 4096
        · obtain ⟨pre, r', post, bs', rfl, hpre, hr'⟩ := ih fun hsafe => h ⟨hfit, hsafe⟩
          refine ⟨r :: pre, r', post, bs', rfl, fun x hx => ?_, hr'⟩
          rcases List.mem_cons.mp hx with rfl | hx
          · exact ⟨bs, hbytes, hin, hfit⟩
          · exact hpre x hx
        · exact ⟨[], r, rs, bs, rfl, nofun, hbytes, .inr ⟨hin, by omega⟩⟩

theorem applyRelocs_settled {hdr : OreImageHeader} (hacc : hdr.Accepted len)
    (pre rest : List OreImageReloc) (hpre : ∀ x ∈ pre, hdr.Settled x) {s : Machine}
    (h : Loading k users g s₀ hdr.ImagePage s) :
    ∃ s', applyRelocs g hdr.dataBase (pre ++ rest) s = applyRelocs g hdr.dataBase rest s' ∧
      Loading k users g s₀ hdr.ImagePage s' := by
  induction pre generalizing s with
  | nil => exact ⟨s, rfl, h⟩
  | cons r pre ih =>
    obtain ⟨bs, hbytes, hin, hfit⟩ := hpre r List.mem_cons_self
    have himage := hacc.inImage_iff.mp hin
    have hp := hacc.private_of_imagePage himage
    obtain ⟨e, hpte⟩ := Option.isSome_iff_exists.mp ((h.mapped _ hp).mpr himage)
    have hne := (h.frames _ e hp hpte).translation_ne (a := r.place hdr.dataBase) h.owner.alloc
    have hstep := applyReloc_store (h.owner.isolated.user g h.owner.user) hbytes hpte hne
    obtain ⟨s', hrest, h'⟩ := ih (fun x hx => hpre x (List.mem_cons_of_mem _ hx))
      (h.write hp hpte bs hfit)
    refine ⟨s', ?_, h'⟩
    rw [List.cons_append, applyRelocs, orReturn_zero hstep, hrest]

/-- A relocation that is reached and whose place translates is on the trace of
the whole load. -/
theorem loadOreImage_stores (hacc : (oreImageHeader image).Accepted len)
    {pre post : List OreImageReloc} {r : OreImageReloc}
    (hrelocs : oreImageRelocs image = pre ++ r :: post)
    (hpre : ∀ x ∈ pre, (oreImageHeader image).Settled x) {bs : List Byte}
    (hbytes : r.bytes (oreImageHeader image).dataBase = some bs)
    (hfresh : FreshProcess k users g s) (hpool : 768 ≤ s.pool.length) :
    ∃ s', Loading k users g s (oreImageHeader image).ImagePage s' ∧
      ∀ e, pte s' g (r.place (oreImageHeader image).dataBase) = some e →
        translation (r.place (oreImageHeader image).dataBase) e ≠ 0 →
        (translation (r.place (oreImageHeader image).dataBase) e, bs.length) :: s'.trace <:+
          (loadOreImageIntoProcess g image len s).2.trace := by
  obtain ⟨s₁, hpages, h₁⟩ := (oreImagePages_outcome hacc hfresh).answers
    fun s' hb => by have := hb.2; omega
  obtain ⟨s₂, hrest, h₂⟩ := applyRelocs_settled hacc pre (r :: post) hpre h₁
  refine ⟨s₂, h₂, fun e hpte hne => ?_⟩
  have hstep := applyReloc_store (h₂.owner.isolated.user g h₂.owner.user) hbytes hpte hne
  have hwritten : (s₂.write (translation (r.place (oreImageHeader image).dataBase) e) bs).trace =
      (translation (r.place (oreImageHeader image).dataBase) e, bs.length) :: s₂.trace := rfl
  generalize (translation (r.place (oreImageHeader image).dataBase) e, bs.length) :: s₂.trace = tr
    at hwritten ⊢
  -- everything after the store only adds to the trace
  have hI := stable_trace tr
  have hlater : tr <:+
      (applyRelocs g (oreImageHeader image).dataBase (oreImageRelocs image) s₁).2.trace := by
    rw [hrelocs, hrest, applyRelocs, orReturn_zero hstep]
    exact stable_applyRelocs hI _ _ _ _ (by rw [hwritten])
  rw [loadOreImageIntoProcess, if_pos hacc]
  refine Exec.after_bind (I := fun s : Machine => tr <:+ s.trace) ?_ fun _ =>
    .ite (fun _ => .pure _) fun _ => .pure _
  rw [orReturn_zero hpages]
  exact Exec.after_bind (I := fun s : Machine => tr <:+ s.trace) hlater fun _ =>
    .ite (fun _ => .pure _) fun _ => stable_oreImageFinish hI _ _

end Load

/-- What loading an image into a process must keep to: every byte it stores is
in a frame that was handed out during the call, or in the process's root; and
its relocations store into the pages of text and data. -/
def OreImageConfined (image : Mem) (len : Word) (g : Frame) (s : Machine) : Prop :=
  WritesOwn g s (loadOreImageIntoProcess g image len s).2 ∧
    ((oreImageHeader image).Accepted len → ∀ s₁, oreImagePages g image s = (.ok 0, s₁) →
      StoresInImage (oreImageHeader image) g s₁
        (applyRelocs g (oreImageHeader image).dataBase (oreImageRelocs image) s₁).2)

theorem stable_loadOreImage {I : Machine → Prop} (hI : Stable I) (root : Word) (image : Mem)
    (len : Word) : Exec.Keeps I (loadOreImageIntoProcess root image len) := by
  refine .ite (fun _ => Exec.Keeps.bind (Stable.orReturn ?_ (Stable.orReturn
    (stable_applyRelocs hI _ _ _) (stable_oreImageFinish hI _ _))) fun _ =>
      .ite (fun _ => .pure _) fun _ => .pure _) fun _ => .pure _
  exact Stable.orReturn (hI.ensurePages _ _ _ _ _ _ _) <|
    Stable.orReturn (hI.ensurePages _ _ _ _ _ _ _) <|
    Stable.orReturn (hI.putBytes _ _ _ _ _ _) <| .ite (fun _ => hI.putBytes _ _ _ _ _ _) fun _ =>
      .pure _

/-- All other memory is then as it was. -/
theorem OreImageConfined.mem_eq {image : Mem} {len y : Word} {g : Frame} {s : Machine}
    (h : OreImageConfined image len g s)
    (hy : ∀ f, Own g s (loadOreImageIntoProcess g image len s).2 f → ¬ Mem.InPage f.val y) :
    (loadOreImageIntoProcess g image len s).2.mem y = s.mem y :=
  h.1.mem_eq (stable_loadOreImage (stable_traced s) _ _ _ _ (.refl s)) hy

/-- An unsafe image goes astray in some fresh process. -/
theorem exists_unconfined {image : Mem} {len : Word} (hacc : (oreImageHeader image).Accepted len)
    (hnotSafe : ¬ (oreImageHeader image).SafeRelocs (oreImageRelocs image)) :
    ∃ k users g s, FreshProcess k users g s ∧
      ¬ WritesOwn g s (loadOreImageIntoProcess g image len s).2 := by
  obtain ⟨pre, r, post, bs, hrelocs, hpre, hbytes, hbad⟩ := OreImageHeader.unsafe_split hnotSafe
  have hlen := r.length_bytes _ hbytes
  generalize hplace : r.place (oreImageHeader image).dataBase = place at *
  have hboot : Good bootRoot (bootMachine 8192 1024) :=
    good_boot (by decide) (by decide) (by decide)
  have hsize := length_boot 8192 1024
  have hframes : ∀ {page : Word}, page ∈ (bootMachine 8192 1024).pool →
      0x10000 ≤ page.toNat ∧ page.toNat % 8192 = 0 := fun {page} hpage => by
    obtain ⟨hlow, -, hmod, -⟩ := mem_boot (by decide) (by decide) (by decide) hpage
    exact ⟨hlow, hmod⟩
  rcases hbad with hout | ⟨hin, hcross⟩
  · -- the kernel has mapped the place to a frame of its own
    obtain ⟨s₁, e, h₁, hpte₁, he, hsuffix, hlen₁⟩ :=
      exists_kernelPage hboot place (by omega) (f := otherFrame.val) (by decide)
    obtain ⟨g, s, hfresh, hpool, hshared, -⟩ := exists_freshProcess h₁ (by
      intro hnil
      rw [hnil, hsize] at hlen₁
      simp at hlen₁)
    have hnp : ¬ Private (tableIndex place 39) := fun hp => private_iff.mp hp hout
    have hlen₂ := congrArg List.length hpool
    rw [List.length_cons] at hlen₂
    obtain ⟨s', h', hstores⟩ := loadOreImage_stores hacc hrelocs hpre hbytes hfresh
      (by omega)
    rw [hplace] at hstores
    have hpte : pte s' g place = some e := by
      rw [h'.owner.others g (.inr h'.owner.user) place (.inr hnp), hshared place hnp, hpte₁]
    have htrans := toNat_translation place e
    rw [he, show otherFrame.val.toNat = 0x3000 from rfl] at htrans
    have hne : translation place e ≠ 0 := by bv_omega
    refine ⟨_, _, g, s, hfresh, not_writesOwn (hstores e hpte hne) h'.owner.trace
      (y := translation place e) ?_ fun f hf hpage => ?_⟩
    · rw [Touches]
      simpa using hlen
    · have hmem : f.val ∈ (bootMachine 8192 1024).pool := by
        refine hsuffix.subset ?_
        rw [hpool]
        exact List.mem_cons.mpr (hf.imp_left (congrArg Subtype.val))
      have hlow := (hframes hmem).1
      unfold Mem.InPage Mem.Aligned at *
      bv_omega
  · -- the frames of the pool are apart, so what follows one of them is foreign
    obtain ⟨g, s, hfresh, hpool, -, -⟩ := exists_freshProcess hboot (by
      intro hnil
      rw [hnil] at hsize
      cases hsize)
    have hlen₂ := congrArg List.length hpool
    rw [hsize, List.length_cons] at hlen₂
    obtain ⟨s', h', hstores⟩ := loadOreImage_stores hacc hrelocs hpre hbytes hfresh
      (by omega)
    rw [hplace] at hstores
    have himage := hacc.inImage_iff.mp hin
    have hp := hacc.private_of_imagePage himage
    obtain ⟨e, hpte⟩ := Option.isSome_iff_exists.mp ((h'.mapped _ hp).mpr himage)
    have hdata := h'.frames _ e hp hpte
    have hne := hdata.translation_ne (a := place) h'.owner.alloc
    have htrans := toNat_translation place e
    have hmod : (e &&& pteAddrMask).toNat % 8192 = 0 := by
      refine (hframes ?_).2
      rw [hpool]
      exact List.mem_cons_of_mem _ hdata.1
    refine ⟨_, _, g, s, hfresh, not_writesOwn (hstores e hpte hne) h'.owner.trace
      (y := (e &&& pteAddrMask) + 4096) ?_ fun f hf hpage => ?_⟩
    · unfold Touches
      bv_omega
    · have hmem : f.val ∈ (bootMachine 8192 1024).pool := by
        rw [hpool]
        exact List.mem_cons.mpr (hf.imp_left (congrArg Subtype.val))
      have hmod' := (hframes hmem).2
      unfold Mem.InPage Mem.Aligned at *
      bv_omega

/-- Loading an image into a fresh process keeps to the frames of the process,
in every state of the system, exactly when the image is refused or its
relocations are safe. -/
theorem oreImage_confined_iff (image : Mem) (len : Word) :
    (∀ k users g s, FreshProcess k users g s → OreImageConfined image len g s) ↔
      ((oreImageHeader image).Accepted len →
        (oreImageHeader image).SafeRelocs (oreImageRelocs image)) := by
  constructor
  · intro hconfined hacc
    by_contra hnotSafe
    obtain ⟨k, users, g, s, hfresh, hnot⟩ := exists_unconfined hacc hnotSafe
    exact hnot (hconfined k users g s hfresh).1
  · intro hsafe k users g s hfresh
    refine ⟨(loadOreImage_owner hfresh hsafe).writes, fun hacc s₁ hpages => ?_⟩
    rcases oreImagePages_outcome hacc hfresh with ⟨s', hrun, h'⟩ | ⟨res, s', hrun, hneg, -⟩
    · cases hrun.symm.trans hpages
      exact ((applyRelocs_outcome hacc _ h' (hsafe hacc)).mono (fun _ => And.right)
        fun _ => And.right).after fun _ => id
    · cases hrun.symm.trans hpages
      exact absurd (hneg 0 rfl) (by decide)

/-- One byte of text and one relocation, which stores the address of the text
at 0x9000: that is `USER_BASE` plus the offset 2^64 - USER_BASE + 0x9000. -/
def strayImage : Mem := fun a =>
  (Mem.leBytes 8 oreImageMagic ++ Mem.leBytes 4 oreImageVersion ++ Mem.leBytes 4 (56 : BitVec 32) ++
    Mem.leBytes 8 (0 : Word) ++ Mem.leBytes 8 (1 : Word) ++ Mem.leBytes 8 (0 : Word) ++
    Mem.leBytes 8 (0 : Word) ++ Mem.leBytes 8 (1 : Word) ++
    Mem.leBytes 8 (0x9000 - userBase) ++ Mem.leBytes 8 (0 : Word) ++
    Mem.leBytes 4 oreImageRelocAbs64 ++ Mem.leBytes 4 (0 : BitVec 32) ++ [0xc3]).getD a.toNat 0

/-- The relocation of `strayImage` stores through the kernel's half of the
address space, in a kernel that has a page mapped at 0x9000. -/
theorem strayImage_unconfined :
    ∃ k users g s, FreshProcess k users g s ∧ ¬ OreImageConfined strayImage 81 g s := by
  have hacc : (oreImageHeader strayImage).Accepted 81 := by decide +kernel
  obtain ⟨k, users, g, s, hfresh, hnot⟩ := exists_unconfined hacc (by decide +kernel)
  exact ⟨k, users, g, s, hfresh, fun h => hnot h.1⟩

end OreOS.Kernel
