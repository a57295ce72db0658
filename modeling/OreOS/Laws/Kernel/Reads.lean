import OreOS.Kernel.Reads

/-!
# Where the ELF probe reads

`elf_validate` lets a program header table pass if `e_phoff + e_phentsize *
e_phnum` is at most the size of the image, but the sum may wrap and
`e_phentsize` may be too small; so may the check of a segment.
`elf_reads_inside_iff` says which images keep the probe inside. `Look.Needs size
x v C` says that `x` answers `v` and reads inside the image exactly under `C`.
-/

namespace OreOS.Kernel

open OreOS.Lib (Word Byte Mem)

/-! ## Reads -/

/-- Every read is inside the image. -/
def Reads.Safe (size : Word) (reads : Reads) : Prop :=
  ∀ r ∈ reads, InImage size r.1 r.2

variable {size : Word}

theorem inImage_iff {off : Word} {n : Nat} (hpos : 0 < n) :
    InImage size off n ↔ off.toNat + n ≤ size.toNat := by
  have hoff := off.isLt
  have hsize := size.isLt
  have hat : ∀ k, off.toNat + k < 2 ^ 64 → (off + BitVec.ofNat 64 k).toNat = off.toNat + k := by
    bv_omega
  constructor
  · intro h
    -- the last byte of the read, or the last byte of the address space if the read runs over it
    by_cases hwrap : off.toNat + n ≤ 2 ^ 64
    · have hlast := h (n - 1) (by omega)
      rw [hat (n - 1) (by omega)] at hlast
      omega
    · have htop := h (2 ^ 64 - 1 - off.toNat) (by omega)
      rw [hat (2 ^ 64 - 1 - off.toNat) (by omega)] at htop
      omega
  · intro h k hk
    rw [hat k (by omega)]
    omega

namespace Look

variable {α β : Type} {size : Word}

/-- The answer of a computation, and the condition for its reads to be inside. -/
def Needs (size : Word) (x : Look α) (v : α) (C : Prop) : Prop :=
  ∀ reads, (x reads).1 = v ∧ (Reads.Safe size (x reads).2 ↔ Reads.Safe size reads ∧ C)

theorem Needs.pure (a : α) : Needs size (Pure.pure a : Look α) a True :=
  fun _ => ⟨rfl, (and_iff_left trivial).symm⟩

variable {x : Look α} {v : α} {C D : Prop}

theorem Needs.bind {f : α → Look β} {w : β} (hx : Needs size x v C) (hf : Needs size (f v) w D) :
    Needs size (x >>= f) w (C ∧ D) := by
  intro reads
  obtain ⟨hv, hC⟩ := hx reads
  obtain ⟨hw, hD⟩ := hf (x reads).2
  have hrun : (x >>= f) reads = f v (x reads).2 := by
    rw [← hv]
    rfl
  rw [hrun]
  exact ⟨hw, by rw [hD, hC, and_assoc]⟩

theorem Needs.congr {w : α} (h : Needs size x v C) (hvw : v = w) (hCD : C ↔ D) : Needs size x w D :=
  fun reads => ⟨hvw ▸ (h reads).1, by rw [(h reads).2, hCD]⟩

theorem Needs.map (h : Needs size x v C) (f : α → β) :
    Needs size (x >>= fun a => Pure.pure (f a)) (f v) C :=
  (h.bind (.pure (f v))).congr rfl (and_iff_left trivial)

theorem Needs.map₂ {γ : Type} {y : Look β} {w : β} (hx : Needs size x v C) (hy : Needs size y w D)
    (f : α → β → γ) :
    Needs size (x >>= fun a => y >>= fun b => Pure.pure (f a b)) (f v w) (C ∧ D) :=
  hx.bind (hy.map (f v))

theorem Needs.ite {p : Prop} [Decidable p] {y : Look α} {a b : α} {E : Prop}
    (hx : p → Needs size x a D) (hy : ¬ p → Needs size y b E) :
    Needs size (if p then x else y) (if p then a else b) ((p → D) ∧ (¬ p → E)) := by
  by_cases hp : p
  · rw [if_pos hp, if_pos hp]
    exact (hx hp).congr rfl (by simp [hp])
  · rw [if_neg hp, if_neg hp]
    exact (hy hp).congr rfl (by simp [hp])

theorem Needs.or {a b : Look Bool} {v w : Bool} (ha : Needs size a v C) (hb : Needs size b w D) :
    Needs size (Look.or a b) (v || w) (C ∧ (v = false → D)) := by
  refine ha.bind ?_
  cases v with
  | true => exact (Needs.pure true).congr rfl (by simp)
  | false => exact hb.congr rfl (by simp)

theorem Needs.branch {c : Look Bool} {v : Bool} {p : Prop} [Decidable p] {y : Look α} {a b : α}
    {E : Prop} (hc : Needs size c v C) (hv : v = true ↔ p) (hx : p → Needs size x a D)
    (hy : ¬ p → Needs size y b E) :
    Needs size (c >>= fun b => if b = true then x else y) (if p then a else b)
      (C ∧ (p → D) ∧ (¬ p → E)) := by
  refine hc.bind ?_
  simp only [hv]
  exact .ite hx hy

variable (image : Mem)

theorem needs_read {off : Word} {n : Nat} (h : ∀ reads, x reads = (v, (off, n) :: reads)) :
    Needs size x v (InImage size off n) := by
  intro reads
  rw [h]
  exact ⟨rfl, by rw [Reads.Safe, List.forall_mem_cons, and_comm]; rfl⟩

theorem needs_byte (off : Word) : Needs size (byte image off) (image off) (InImage size off 1) :=
  needs_read fun _ => rfl

theorem needs_word16 (off : Word) :
    Needs size (word16 image off) (image.load16 off) (InImage size off 2) :=
  needs_read fun _ => rfl

theorem needs_word32 (off : Word) :
    Needs size (word32 image off) (image.load32 off) (InImage size off 4) :=
  needs_read fun _ => rfl

theorem needs_word64 (off : Word) :
    Needs size (word64 image off) (image.load64 off) (InImage size off 8) :=
  needs_read fun _ => rfl

/-! ## The header -/

section Header

variable (h64 : 64 ≤ size.toNat)
include h64

theorem Needs.header {x : Look α} {v : α} {off : Word} {n : Nat}
    (h : Needs size x v (InImage size off n)) (hpos : 0 < n) (hoff : off.toNat + n ≤ 64) :
    Needs size x v True :=
  h.congr rfl (iff_true_intro ((inImage_iff hpos).mpr (by omega)))

theorem needs_identNe (i : Word) (hi : i.toNat < 64) (v : Byte) :
    Needs size (identNe image i v) (decide (image i ≠ v)) True :=
  ((needs_byte image i).header h64 Nat.one_pos hi).map fun b => decide (b ≠ v)

theorem needs_half_ne (off : Word) (hoff : off.toNat + 2 ≤ 64) (v : BitVec 16) :
    Needs size (do return decide ((← word16 image off) ≠ v)) (decide (image.load16 off ≠ v)) True :=
  ((needs_word16 image off).header h64 Nat.two_pos hoff).map fun w => decide (w ≠ v)

end Header

/-- `elf_validate` reads what it has checked to be there. -/
theorem needs_elfValidate :
    Needs size (elfValidate image size) (Kernel.elfValidate image size) True := by
  unfold elfValidate Kernel.elfValidate
  by_cases hsize : size < 64
  · rw [if_pos hsize, if_pos hsize]
    exact .pure _
  · rw [if_neg hsize, if_neg hsize]
    have h64 : 64 ≤ size.toNat := Nat.le_of_not_lt hsize
    have hmagic := (needs_identNe image h64 0 (by decide) 0x7f).or
      ((needs_identNe image h64 1 (by decide) 0x45).or
        ((needs_identNe image h64 2 (by decide) 0x4c).or
          (needs_identNe image h64 3 (by decide) 0x46)))
    have hclass := (needs_identNe image h64 4 (by decide) 2).or
      (needs_identNe image h64 5 (by decide) 1)
    have htype := (needs_half_ne image h64 16 (by decide) etExec).or
      (needs_half_ne image h64 18 (by decide) emX8664)
    have hphoff := (needs_word64 image 32).header h64 (by decide) (by decide)
    have hphentsize := (needs_word16 image 54).header h64 (by decide) (by decide)
    have hphnum := (needs_word16 image 56).header h64 (by decide) (by decide)
    refine (hmagic.branch (by simp) (fun _ => .pure _) fun _ =>
      hclass.branch (by simp) (fun _ => .pure _) fun _ =>
      htype.branch (by simp) (fun _ => .pure _) fun _ =>
      hphoff.bind (hphentsize.bind (hphnum.bind (.ite (fun _ => .pure _) fun _ => .pure _)))).congr
        rfl ?_
    simp

end Look

/-! ## The program headers -/

/-- What the loop looks at in the program header at `ph` is inside the image:
`p_type`; in a `PT_LOAD` header `p_memsz`; if that is not zero `p_offset` and
`p_filesz`; and the rest if the header is accepted. -/
def HeaderInside (image : Mem) (size ph : Word) (accepted : Prop) : Prop :=
  InImage size ph 4 ∧ (image.load32 ph = ptLoad →
    InImage size (ph + 40) 8 ∧ (image.load64 (ph + 40) ≠ 0 →
      InImage size (ph + 8) 8 ∧ InImage size (ph + 32) 8 ∧
        (accepted → InImage size (ph + 16) 8 ∧ InImage size (ph + 4) 4)))

/-- Of a table of `n` program headers, those that the loop comes to are inside, as far
as it looks at them. The loop comes to a header if it passes the ones before it. -/
def HeadersInside (image : Mem) (size phentsize : Word) (n : Nat) (ph : Word)
    (found : List UserElfSegmentInfo) : Prop :=
  ∀ i < n, (probeHeaders image size phentsize i ph found).isSome →
    HeaderInside image size (ph + BitVec.ofNat 64 i * phentsize)
      (probeHeaders image size phentsize (i + 1) ph found).isSome

section Headers

variable {image : Mem} {size phentsize : Word}

theorem header_succ (ph : Word) (i : Nat) : ph + BitVec.ofNat 64 (i + 1) * phentsize =
    ph + phentsize + BitVec.ofNat 64 i * phentsize := by
  have hone : BitVec.ofNat 64 1 * phentsize = phentsize := BitVec.one_mul phentsize
  rw [BitVec.ofNat_add, BitVec.add_mul, hone, BitVec.add_comm _ phentsize, BitVec.add_assoc]

theorem header_zero (ph : Word) : ph + BitVec.ofNat 64 0 * phentsize = ph := by
  rw [BitVec.zero_mul, BitVec.add_zero]

variable {n : Nat} {ph : Word} {found : List UserElfSegmentInfo}

theorem headersInside_succ :
    HeadersInside image size phentsize (n + 1) ph found ↔
      HeaderInside image size ph (probeHeaders image size phentsize 1 ph found).isSome ∧
        ∀ i < n, (probeHeaders image size phentsize (i + 1) ph found).isSome →
          HeaderInside image size (ph + phentsize + BitVec.ofNat 64 i * phentsize)
            (probeHeaders image size phentsize (i + 2) ph found).isSome := by
  constructor
  · intro h
    refine ⟨?_, fun i hi hpass => header_succ ph i ▸ h (i + 1) (Nat.succ_lt_succ hi) hpass⟩
    have hfirst := h 0 (Nat.succ_pos n) rfl
    rwa [header_zero] at hfirst
  · rintro ⟨hfirst, hrest⟩ i hi hpass
    cases i with
    | zero =>
      rw [header_zero]
      exact hfirst
    | succ i =>
      rw [header_succ]
      exact hrest i (Nat.lt_of_succ_lt_succ hi) hpass

theorem headersInside_of_passed {found' : List UserElfSegmentInfo}
    (h : ∀ i, probeHeaders image size phentsize (i + 1) ph found =
      probeHeaders image size phentsize i (ph + phentsize) found') :
    HeadersInside image size phentsize (n + 1) ph found ↔
      HeaderInside image size ph True ∧
        HeadersInside image size phentsize n (ph + phentsize) found' := by
  rw [headersInside_succ]
  simp only [h]
  have hpassed : ((probeHeaders image size phentsize 0 (ph + phentsize) found').isSome = true) =
      True := eq_true rfl
  rw [hpassed]
  rfl

theorem headersInside_of_refused
    (h : ∀ i, probeHeaders image size phentsize (i + 1) ph found = none) :
    HeadersInside image size phentsize (n + 1) ph found ↔ HeaderInside image size ph False := by
  rw [headersInside_succ]
  simp [h]

theorem headerInside_of_load {accepted : Prop} (hload : image.load32 ph = ptLoad)
    (hmem : image.load64 (ph + 40) ≠ 0) :
    HeaderInside image size ph accepted ↔
      InImage size ph 4 ∧ InImage size (ph + 40) 8 ∧ InImage size (ph + 8) 8 ∧
        InImage size (ph + 32) 8 ∧
        (accepted → InImage size (ph + 16) 8 ∧ InImage size (ph + 4) 4) := by
  rw [HeaderInside, imp_iff_right hload, imp_iff_right hmem]

/-- In an image that ends 48 bytes below the top, the type is inside, and in a `PT_LOAD` header
the first 48 bytes. -/
theorem headerInside_iff {accepted : Prop} (hsize : size.toNat ≤ 2 ^ 64 - 48) :
    HeaderInside image size ph accepted ↔
      ph.toNat + 4 ≤ size.toNat ∧ (image.load32 ph = ptLoad → ph.toNat + 48 ≤ size.toNat) := by
  have h4 : ∀ off : Word, InImage size off 4 ↔ _ := fun _ => inImage_iff (by decide)
  have h8 : ∀ off : Word, InImage size off 8 ↔ _ := fun _ => inImage_iff (by decide)
  rw [HeaderInside, h4, h4]
  simp only [h8]
  refine and_congr_right fun htype => imp_congr_right fun _ => ?_
  have hmemsz : (ph + 40).toNat = ph.toNat + 40 := by bv_omega
  rw [hmemsz]
  refine ⟨fun h => h.1, fun h => ⟨h, fun _ => ⟨?_, ?_, fun _ => ⟨?_, ?_⟩⟩⟩⟩
  all_goals bv_omega

open Look in
theorem needs_probeHeaders (h64 : 64 ≤ size.toNat)
    (hphentsize : phentsize = (image.load16 54).setWidth 64) (n : Nat) (ph : Word)
    (found : List UserElfSegmentInfo) :
    Needs size (Look.probeHeaders image size n ph found)
      (probeHeaders image size phentsize n ph found)
      (HeadersInside image size phentsize n ph found) := by
  subst hphentsize
  have hnum := (needs_word16 image 56).header h64 (by decide) (by decide)
  induction n generalizing ph found with
  | zero =>
    refine (hnum.map fun _ => some found).congr rfl ?_
    exact (iff_true_intro fun i hi => absurd hi (Nat.not_lt_zero i)).symm
  | succ n ih =>
    have hoff := (needs_word64 image 32).header h64 (by decide) (by decide)
    have hent := (needs_word16 image 54).header h64 (by decide) (by decide)
    have hskip := ((needs_word32 image ph : Needs size _ _ _).map fun t => decide (t ≠ ptLoad)).or
      ((needs_word64 image (ph + 40)).map fun m => decide (m = 0))
    have hrefuse := ((needs_word64 image (ph + 8) : Needs size _ _ _).map₂
      (needs_word64 image (ph + 32)) fun a b => decide (a + b > size)).or
      ((needs_word64 image (ph + 32)).map₂ (needs_word64 image (ph + 40)) fun a b => decide (a > b))
    rw [Look.probeHeaders]
    refine (hnum.bind (hoff.bind (hent.bind (hskip.branch
      (p := image.load32 ph ≠ ptLoad ∨ (elfSegment image ph).memSize = 0) (by simp [elfSegment])
      (fun _ => ih (ph + (image.load16 54).setWidth 64) found) fun _ => hrefuse.branch
      (p := (elfSegment image ph).fileOffset + (elfSegment image ph).fileSize > size ∨
        (elfSegment image ph).fileSize > (elfSegment image ph).memSize) (by simp [elfSegment])
      (fun _ => .pure none) fun _ => .ite (fun _ => .pure none) fun _ =>
        (needs_word64 image (ph + 16)).bind ((needs_word64 image (ph + 8)).bind
          ((needs_word64 image (ph + 40)).bind ((needs_word64 image (ph + 32)).bind
            ((needs_word32 image (ph + 4)).bind
              (ih (ph + (image.load16 54).setWidth 64) (found ++ [elfSegment image ph])))))))))).congr
      rfl ?_
    rw [decide_eq_false_iff_not, decide_eq_false_iff_not, not_not]
    by_cases hskipped : image.load32 ph ≠ ptLoad ∨ (elfSegment image ph).memSize = 0
    · rw [headersInside_of_passed fun i => if_pos hskipped]
      simp only [hskipped, true_imp_iff, not_true_eq_false, false_imp_iff, true_and, and_true]
      refine and_congr_left fun _ => and_congr_right fun _ => imp_congr_right fun hload => ?_
      have hzero : image.load64 (ph + 40) = 0 := hskipped.resolve_left (not_not.mpr hload)
      exact (and_iff_left fun hne => absurd hzero hne).symm
    · have hload : image.load32 ph = ptLoad := not_not.mp (not_or.mp hskipped).1
      have hmem : image.load64 (ph + 40) ≠ 0 := (not_or.mp hskipped).2
      -- a field that is read again asks for nothing new
      have hread {a b c d e : Prop} : (a ∧ b) ∧ (c ∧ d) ∧ (e → d ∧ b) ↔ a ∧ b ∧ c ∧ d :=
        ⟨fun ⟨⟨ha, hb⟩, hcd, _⟩ => ⟨ha, hb, hcd⟩,
          fun ⟨ha, hb, hcd⟩ => ⟨⟨ha, hb⟩, hcd, fun _ => ⟨hcd.2, hb⟩⟩⟩
      by_cases hrefused : (elfSegment image ph).fileOffset + (elfSegment image ph).fileSize > size ∨
          (elfSegment image ph).fileSize > (elfSegment image ph).memSize
      · rw [headersInside_of_refused fun i => (if_neg hskipped).trans (if_pos hrefused),
          headerInside_of_load hload hmem]
        simp only [hskipped, hrefused, not_false_eq_true, true_imp_iff, not_true_eq_false,
          false_imp_iff, true_and, and_true, imp_iff_right hload]
        exact hread
      · by_cases hfull : found.length ≥ 8
        · rw [headersInside_of_refused fun i =>
            (if_neg hskipped).trans ((if_neg hrefused).trans (if_pos hfull)),
            headerInside_of_load hload hmem]
          simp only [hskipped, hrefused, hfull, not_false_eq_true, true_imp_iff,
            not_true_eq_false, false_imp_iff, true_and, and_true, imp_iff_right hload]
          exact hread
        · rw [headersInside_of_passed fun i =>
            (if_neg hskipped).trans ((if_neg hrefused).trans (if_neg hfull)),
            headerInside_of_load hload hmem]
          simp only [hskipped, hrefused, hfull, not_false_eq_true, true_imp_iff,
            false_imp_iff, true_and, imp_iff_right hload]
          constructor
          · rintro ⟨⟨htype, hsize⟩, ⟨hfields, -⟩, hvaddr, -, -, -, hflags, hrest⟩
            exact ⟨⟨htype, hsize, hfields.1, hfields.2, hvaddr, hflags⟩, hrest⟩
          · rintro ⟨⟨htype, hsize, hoffset, hfile, hvaddr, hflags⟩, hrest⟩
            exact ⟨⟨htype, hsize⟩, ⟨⟨hoffset, hfile⟩, fun _ => ⟨hfile, hsize⟩⟩, hvaddr, hoffset,
              hsize, hfile, hflags, hrest⟩

end Headers

/-! ## The segments -/

/-- A header with something to load. -/
def Loadable (image : Mem) (ph : Word) : Prop :=
  image.load32 ph = ptLoad ∧ image.load64 (ph + 40) ≠ 0

/-- The end of the segment in the file is a 64-bit word. -/
def UserElfSegmentInfo.EndsInFile (seg : UserElfSegmentInfo) : Prop :=
  seg.fileSize = 0 ∨ seg.fileOffset.toNat + seg.fileSize.toNat < 2 ^ 64

/-- A segment that passes the check of its end lies inside unless the end wraps. -/
theorem inImage_segment {seg : UserElfSegmentInfo} (h : seg.fileOffset + seg.fileSize ≤ size) :
    InImage size seg.fileOffset seg.fileSize.toNat ↔ seg.EndsInFile := by
  have hsize := size.isLt
  by_cases hzero : seg.fileSize = 0
  · refine iff_of_true (fun k hk => ?_) (.inl hzero)
    rw [hzero] at hk
    exact absurd hk (Nat.not_lt_zero k)
  · have hpos : 0 < seg.fileSize.toNat :=
      Nat.pos_of_ne_zero fun h0 => hzero (BitVec.eq_of_toNat_eq h0)
    have hle : (seg.fileOffset.toNat + seg.fileSize.toNat) % 2 ^ 64 ≤ size.toNat := by bv_omega
    rw [inImage_iff hpos]
    constructor
    · intro hin
      exact .inr (by omega)
    · intro hend
      have := hend.resolve_left hzero
      omega

/-- The segments of a table that is accepted are its headers with something to load. -/
theorem segments_inImage_iff {image : Mem} {phentsize : Word} (n : Nat) {ph : Word}
    {found segments : List UserElfSegmentInfo}
    (h : probeHeaders image size phentsize n ph found = some segments) :
    (∀ seg ∈ segments, InImage size seg.fileOffset seg.fileSize.toNat) ↔
      (∀ seg ∈ found, InImage size seg.fileOffset seg.fileSize.toNat) ∧
        ∀ i < n, Loadable image (ph + BitVec.ofNat 64 i * phentsize) →
          (elfSegment image (ph + BitVec.ofNat 64 i * phentsize)).EndsInFile := by
  induction n generalizing ph found with
  | zero =>
    cases h
    exact (and_iff_left fun i hi => absurd hi (Nat.not_lt_zero i)).symm
  | succ n ih =>
    have hsplit : (∀ i < n + 1, Loadable image (ph + BitVec.ofNat 64 i * phentsize) →
          (elfSegment image (ph + BitVec.ofNat 64 i * phentsize)).EndsInFile) ↔
        (Loadable image ph → (elfSegment image ph).EndsInFile) ∧
          ∀ i < n, Loadable image (ph + phentsize + BitVec.ofNat 64 i * phentsize) →
            (elfSegment image (ph + phentsize + BitVec.ofNat 64 i * phentsize)).EndsInFile := by
      rw [Nat.forall_lt_succ_left]
      simp only [header_zero, header_succ]
    rw [hsplit]
    rw [probeHeaders] at h
    split at h
    next hskip =>
      have hnot : ¬ Loadable image ph := fun hload =>
        hskip.elim (fun hne => hne hload.1) fun h0 => hload.2 h0
      rw [ih h, and_congr_right_iff]
      intro _
      rw [and_iff_right fun hload => absurd hload hnot]
    next hload =>
      have hload' : Loadable image ph := ⟨not_not.mp (not_or.mp hload).1, (not_or.mp hload).2⟩
      split at h
      next => cases h
      next hsize =>
        split at h
        next => cases h
        next =>
          have hend : (elfSegment image ph).fileOffset + (elfSegment image ph).fileSize ≤ size :=
            BitVec.not_lt.mp (not_or.mp hsize).1
          rw [ih h, List.forall_mem_append, List.forall_mem_singleton, inImage_segment hend,
            imp_iff_right hload', and_assoc]

/-! ## The probe -/

open Look in
theorem needs_elfProbeUserImage (image : Mem) (size : Word) :
    Needs size (Look.elfProbeUserImage image size) (elfProbeUserImage image size)
      (0 ≤ elfValidate image size → HeadersInside image size ((image.load16 54).setWidth 64)
        (image.load16 56).toNat (image.load64 32) []) := by
  have h64 : ¬ elfValidate image size < 0 → 64 ≤ size.toNat := by
    intro hvalid
    by_contra hlt
    have hsize : size < 64 := Nat.lt_of_not_le hlt
    rw [elfValidate, if_pos hsize] at hvalid
    exact hvalid (by decide)
  by_cases hvalid : elfValidate image size < 0
  · have hstop : Needs size (Look.elfProbeUserImage image size) none (True ∧ True) := by
      refine (needs_elfValidate image).bind ?_
      rw [if_pos hvalid]
      exact .pure none
    refine hstop.congr (by rw [elfProbeUserImage, if_pos hvalid]) ?_
    simp [Int.not_le.mpr hvalid]
  have hentry := (needs_word64 image 24).header (h64 hvalid) (by decide) (by decide)
  have hheaders := @needs_probeHeaders image size _ (h64 hvalid) rfl (image.load16 56).toNat
    (image.load64 32) []
  -- after the headers nothing is read
  suffices hprobe : Needs size (Look.elfProbeUserImage image size) (elfProbeUserImage image size)
      (True ∧ True ∧ HeadersInside image size ((image.load16 54).setWidth 64)
        (image.load16 56).toNat (image.load64 32) [] ∧ True) from
    hprobe.congr rfl (by simp [Int.not_lt.mp hvalid])
  refine (needs_elfValidate image).bind ?_
  rw [if_neg hvalid, elfProbeUserImage, if_neg hvalid]
  refine hentry.bind ?_
  cases hsegments : probeHeaders image size ((image.load16 54).setWidth 64) (image.load16 56).toNat
      (image.load64 32) [] with
  | none =>
    rw [hsegments] at hheaders
    exact hheaders.bind (.pure none)
  | some segments =>
    rw [hsegments] at hheaders
    refine hheaders.bind ?_
    exact (Needs.ite (fun _ => .pure _) fun _ => .pure _).congr rfl (by simp)

/-- The probe, and whoever loads the segments that it reports, keep to the image
exactly if the headers that the loop comes to are inside, and no segment of an image
that is accepted has an end that wraps. -/
theorem elf_reads_inside_iff (image : Mem) (size : Word) :
    ((∀ r ∈ elfReads image size, InImage size r.1 r.2) ∧
      ∀ info, elfProbeUserImage image size = some info →
        ∀ seg ∈ info.segments, InImage size seg.fileOffset seg.fileSize.toNat) ↔
    (0 ≤ elfValidate image size →
      HeadersInside image size ((image.load16 54).setWidth 64) (image.load16 56).toNat
        (image.load64 32) []) ∧
    ((elfProbeUserImage image size).isSome → ∀ i < (image.load16 56).toNat,
      let ph := image.load64 32 + BitVec.ofNat 64 i * (image.load16 54).setWidth 64
      Loadable image ph → (elfSegment image ph).EndsInFile) := by
  have hreads : (∀ r ∈ elfReads image size, InImage size r.1 r.2) ↔ _ :=
    ((needs_elfProbeUserImage image size) []).2
  have hnone : Reads.Safe size [] := List.forall_mem_nil _
  rw [hreads, and_iff_right hnone]
  refine and_congr_right fun _ => ?_
  cases hprobe : elfProbeUserImage image size with
  | none => exact iff_of_true (by simp) (by simp)
  | some info =>
    have hheaders : probeHeaders image size ((image.load16 54).setWidth 64)
        (image.load16 56).toNat (image.load64 32) [] = some info.segments := by
      unfold elfProbeUserImage at hprobe
      split at hprobe
      next => cases hprobe
      next =>
        split at hprobe
        next => cases hprobe
        next segments hsegments =>
          split at hprobe
          next => cases hprobe
          next =>
            cases hprobe
            exact hsegments
    have hsegments := segments_inImage_iff _ hheaders
    rw [and_iff_right (List.forall_mem_nil _)] at hsegments
    constructor
    · intro h _
      exact hsegments.mp (h info rfl)
    · intro h info' hinfo
      cases hinfo
      exact hsegments.mpr (h rfl)

/-- An ELF header with the given program header table, and what follows it. -/
def elfImage (phoff : Word) (phentsize phnum : BitVec 16) (rest : List Byte) : Mem := fun a =>
  ([0x7f, 0x45, 0x4c, 0x46, 2, 1] ++ List.replicate 10 0 ++ Mem.leBytes 2 etExec ++
    Mem.leBytes 2 emX8664 ++ List.replicate 12 0 ++ Mem.leBytes 8 phoff ++
    List.replicate 14 0 ++ Mem.leBytes 2 phentsize ++ Mem.leBytes 2 phnum ++
    List.replicate 6 0 ++ rest).getD a.toNat 0

/-- A segment of one byte at the last offset there is. -/
def lastByteElf : Mem :=
  elfImage 64 56 1 (Mem.leBytes 4 ptLoad ++ List.replicate 4 0 ++ Mem.leBytes 8 (-1 : Word) ++
    List.replicate 16 0 ++ Mem.leBytes 8 (1 : Word) ++ Mem.leBytes 8 (1 : Word))

/-- A table of headers of one byte each, at the last byte of the image, is read beyond
the image; so is a segment whose end wraps. -/
theorem elf_reads_outside :
    (63, 4) ∈ elfReads (elfImage 63 1 1 []) 64 ∧ ¬ InImage 64 63 4 ∧
      ∃ info, elfProbeUserImage lastByteElf 120 = some info ∧
        ∃ seg ∈ info.segments, ¬ InImage 120 seg.fileOffset seg.fileSize.toNat := by
  refine ⟨by decide +kernel, fun h => absurd (h 3 (by decide)) (by decide), ?_⟩
  have hprobe : elfProbeUserImage lastByteElf 120 = some ⟨0, 120, [⟨0, -1, 1, 1, 0⟩]⟩ := by
    decide +kernel
  exact ⟨_, hprobe, _, List.mem_singleton_self _, fun h => absurd (h 0 (by decide)) (by decide)⟩

end OreOS.Kernel
