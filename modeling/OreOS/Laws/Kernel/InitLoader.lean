import OreOS.Laws.Kernel.ElfImage

/-!
# The two loaders of ELF images

The loader of the first process lays out all segments before it protects any;
the loader of `syscall.c` protects each segment before it turns to the next. A
segment is a part of the space they build, so the order makes no difference
(`Space.seal_late`): for segments in the user's area both build the same space,
and where the segments do not overlap every byte of it is the one the image has
for it.
-/

namespace OreOS.Kernel

open OreOS.Lib (Word Byte Mem Exec Space)

/-! ## Computations that finish or panic -/

/-- The computation answers `a` with `G`, or it panics, and then `short`. -/
def Finishes {α : Type} (x : Kern α) (s : Machine) (a : α) (G : Machine → Prop) (short : Prop) :
    Prop :=
  (∃ s', x s = (.ok a, s') ∧ G s') ∨ (∃ e s', x s = (.error e, s')) ∧ short

section Finishes

variable {α β : Type} {s : Machine} {G G' : Machine → Prop} {short : Prop}

theorem Finishes.bind {x : Kern α} {f : α → Kern β} {a : α} {b : β}
    (hx : Finishes x s a G short) (hf : ∀ s', G s' → Finishes (f a) s' b G' short) :
    Finishes (x >>= f) s b G' short := by
  rcases hx with ⟨s', hrun, hg⟩ | ⟨⟨e, s', hrun⟩, hshort⟩
  · rw [Finishes, Exec.bind_ok hrun]
    exact hf s' hg
  · exact .inr ⟨⟨e, s', Exec.bind_error hrun⟩, hshort⟩

theorem Finishes.mono {x : Kern α} {a : α} {short' : Prop} (h : Finishes x s a G short)
    (hG : ∀ s', G s' → G' s') (hshort : short → short') : Finishes x s a G' short' :=
  h.imp (fun ⟨s', hrun, hg⟩ => ⟨s', hrun, hG s' hg⟩) (And.imp_right hshort)

theorem Outcome.orPanic {x : Kern Int} (h : Outcome x s G fun _ => short) (text : Int → String) :
    Finishes (orPanic text x) s () G short := by
  rcases h with ⟨s', hrun, hg⟩ | ⟨res, s', hrun, hneg, hshort⟩
  · refine .inl ⟨s', ?_, hg⟩
    rw [Kernel.orPanic, Exec.bind_ok hrun, if_neg (Int.lt_irrefl 0)]
    rfl
  · refine .inr ⟨?_, hshort⟩
    cases res with
    | error e => exact ⟨e, s', Exec.bind_error hrun⟩
    | ok err =>
      refine ⟨text err, s', ?_⟩
      rw [Kernel.orPanic, Exec.bind_ok hrun, if_pos (hneg err rfl)]
      rfl

theorem Finishes.of_ok {x : Kern α} {a a' : α} {s' : Machine} (h : Finishes x s a G short)
    (hrun : x s = (.ok a', s')) : a' = a ∧ G s' := by
  rcases h with ⟨s₁, hrun₁, hg⟩ | ⟨⟨e, s₁, hrun₁⟩, -⟩
  · rw [hrun₁] at hrun
    cases hrun
    exact ⟨rfl, hg⟩
  · rw [hrun₁] at hrun
    cases hrun

end Finishes

/-! ## Segments as parts of a space -/

namespace UserElfSegmentInfo

/-- The segment is in the user's area, below the stack. -/
def InUserArea (seg : UserElfSegmentInfo) : Prop :=
  userBase ≤ seg.vaddr ∧ seg.vaddr.toNat + seg.memSize.toNat ≤ stackBase.toNat

instance (seg : UserElfSegmentInfo) : Decidable seg.InUserArea :=
  inferInstanceAs (Decidable (_ ∧ _))

/-- No address is in both segments. -/
def Apart (seg seg' : UserElfSegmentInfo) : Prop :=
  seg.vaddr.toNat + seg.memSize.toNat ≤ seg'.vaddr.toNat ∨
    seg'.vaddr.toNat + seg'.memSize.toNat ≤ seg.vaddr.toNat

/-- The byte of the image, or of the memory after it, that a segment has at an
offset. -/
def byteAt (image : Mem) (seg : UserElfSegmentInfo) (off : Nat) : Byte :=
  if off < seg.fileSize.toNat then image (seg.fileOffset + BitVec.ofNat 64 off) else 0

/-- What the first pass remembers of the segment. -/
def loaded (seg : UserElfSegmentInfo) : LoadedSegment where
  start := seg.start
  size := alignUp (seg.vaddr + seg.memSize) - seg.start
  flags := flagsForElfSegment seg.flags

variable {seg : UserElfSegmentInfo}

theorem InUserArea.not_wraps (h : seg.InUserArea) : ¬ seg.Wraps := by
  have hlimit : stackBase.toNat < 2 ^ 47 := by decide
  have := h.2
  unfold Wraps
  omega

theorem InUserArea.spot_eq (h : seg.InUserArea) : spot seg.vaddr = seg.vaddr.toNat := by
  have hlimit : stackBase.toNat < 2 ^ 47 := by decide
  have := h.2
  unfold spot
  omega

/-- The rounds of a segment in the user's area are the pages from its first to
its last. -/
theorem InUserArea.toNat_round (h : seg.InUserArea) {j : Nat} (hj : j < seg.pages) :
    (roundAddr seg.start j).toNat = seg.vaddr.toNat / 4096 * 4096 + 4096 * j ∧
      seg.vaddr.toNat / 4096 * 4096 + 4096 * j < stackBase.toNat := by
  have hlimit : stackBase.toNat = 0x8fffff8000 := by decide
  have hend := h.2
  have hsum : (seg.vaddr + seg.memSize).toNat = seg.vaddr.toNat + seg.memSize.toNat := by bv_omega
  have hstart : seg.start.toNat = seg.vaddr.toNat / 4096 * 4096 := toNat_alignDown seg.vaddr
  rw [pages, pageCount, toNat_alignUp (by omega), hsum, hstart] at hj
  rw [Kernel.toNat_round (by omega), hstart]
  omega

theorem InUserArea.topPages (h : seg.InUserArea) : TopPages Private seg.start seg.pages := by
  intro j hj
  obtain ⟨hround, hlt⟩ := h.toNat_round hj
  have hlimit : stackBase.toNat = 0x8fffff8000 := by decide
  have hbase : userBase.toNat ≤ seg.vaddr.toNat := h.1
  rw [userBase_toNat] at hbase
  rw [Private, tableIndex_val, hround]
  omega

theorem part_bytes (image : Mem) {off : Nat} (hoff : off < seg.memSize.toNat) :
    (seg.part image).bytes (spot seg.vaddr + off) = some (seg.byteAt image off) := by
  unfold part byteAt block
  dsimp only
  by_cases hin : off < seg.fileSize.toNat
  · rw [if_pos (by omega), if_pos hin, Nat.add_sub_cancel_left, Option.some_or]
  · rw [if_neg (by omega), if_pos (by omega), if_neg hin, Option.none_or]

theorem part_bytes_range (image : Mem) (hprobed : seg.Probed) {x : Nat}
    (hx : (seg.part image).bytes x ≠ none) :
    spot seg.vaddr ≤ x ∧ x < spot seg.vaddr + seg.memSize.toNat := by
  have hfile : seg.fileSize.toNat ≤ seg.memSize.toNat := hprobed.2
  by_contra hout
  refine hx ?_
  unfold part block
  dsimp only
  rw [if_neg (by omega), if_neg hout, Option.none_or]

theorem InUserArea.covered (h : seg.InUserArea) (image : Mem) (hprobed : seg.Probed) :
    (seg.part image).Covered pageAt := by
  intro x hx
  obtain ⟨hlow, hhigh⟩ := part_bytes_range image hprobed hx
  have hlimit : stackBase.toNat < 2 ^ 47 := by decide
  have hend := h.2
  have hspot := h.spot_eq
  obtain ⟨-, hpage⟩ := byte_page h.not_wraps h.topPages (i := x - spot seg.vaddr) (by omega)
  have hx' : spot (seg.vaddr + BitVec.ofNat 64 (x - spot seg.vaddr)) = x := by
    rw [spot, BitVec.toNat_add, BitVec.toNat_ofNat]
    omega
  rwa [← pageAt_spot, hx'] at hpage

theorem Apart.part {seg' : UserElfSegmentInfo} (hapart : seg.Apart seg') (image : Mem)
    (h : seg.InUserArea) (h' : seg'.InUserArea) (hprobed : seg.Probed) (hprobed' : seg'.Probed) :
    (seg.part image).Apart (seg'.part image) := by
  intro x
  by_contra hboth
  rw [not_or] at hboth
  have hin := part_bytes_range image hprobed hboth.1
  have hin' := part_bytes_range image hprobed' hboth.2
  have hspot := h.spot_eq
  have hspot' := h'.spot_eq
  unfold Apart at hapart
  omega

end UserElfSegmentInfo

/-! ## Whole images -/

section Load

variable {k g : Frame} {users : Frame → Prop} {s₀ s : Machine} {v : UserSpace} {image : Mem}
  {seg : UserElfSegmentInfo}

/-- Rounds of the page loops over all segments. -/
def pagesOf (segs : List UserElfSegmentInfo) : Nat :=
  (segs.map (·.pages)).sum

/-- Frames that are enough for the segments and the stack. -/
def framesFor (segs : List UserElfSegmentInfo) : Nat :=
  4 * pagesOf segs + 32

theorem pagesOf_cons (seg : UserElfSegmentInfo) (segs : List UserElfSegmentInfo) :
    pagesOf (seg :: segs) = seg.pages + pagesOf segs :=
  List.sum_cons

theorem loadSegments_shows (segs : List UserElfSegmentInfo) {s : Machine} {v : UserSpace}
    (hsegs : ∀ seg ∈ segs, seg.Probed ∧ seg.InUserArea) (h : Shows k users g s₀ v s) :
    Outcome (loadSegments g image segs) s
      (fun s' => Shows k users g s₀
        (withStack ((segs.map (·.part image)).foldl loadPart v)) s')
      (fun _ => s.pool.length < framesFor segs) := by
  induction segs generalizing s v with
  | nil => exact (mapStack_shows h (by decide)).mono (fun _ => And.left) fun _ => And.right
  | cons seg segs ih =>
    obtain ⟨hprobed, hin⟩ := hsegs seg List.mem_cons_self
    have hsum := pagesOf_cons seg segs
    unfold framesFor at *
    rcases loadSegment_shows image hprobed hin.not_wraps hin.topPages h with
      ⟨s', hrun, h', hlen⟩ | ⟨res, s', hrun, hneg, -, hlen⟩
    · rw [Outcome, loadSegments, hrun]
      exact (ih (fun seg' hs => hsegs seg' (List.mem_cons_of_mem _ hs)) h').mono (fun _ => id)
        fun _ hshort => by omega
    · exact .inr ⟨res, s', hrun _, hneg, by omega⟩

theorem loadUserImage_shows (image : Mem) {info : UserElfInfo}
    (hsegs : ∀ seg ∈ info.segments, seg.Probed ∧ seg.InUserArea) (h : Shows k users g s₀ v s) :
    (∃ s', loadUserImageIntoProcess g image info s =
        (.ok (.ok ⟨info.entry, stackTop - 16, info.segments.length⟩), s') ∧
      Shows k users g s₀ (withStack ((info.segments.map (·.part image)).foldl loadPart v)) s') ∨
    (∀ r s', loadUserImageIntoProcess g image info s ≠ (.ok (.ok r), s')) ∧
      s.pool.length < framesFor info.segments :=
  (loadSegments_shows info.segments hsegs h).loads _

/-! ## The loader of the first process -/

theorem flagsForSegment_eq (pFlags : BitVec 32) :
    flagsForSegment pFlags = flagsForElfSegment (pFlags.setWidth 64) := by
  have hsame : pFlags &&& 2 = 0 ↔ pFlags.setWidth 64 &&& 2 = (0 : Word) := by
    rw [← BitVec.toNat_inj, ← BitVec.toNat_inj, BitVec.toNat_and, BitVec.toNat_and,
      BitVec.toNat_setWidth, Nat.mod_eq_of_lt (by have := pFlags.isLt; omega)]
    rfl
  unfold flagsForSegment flagsForElfSegment
  simp only [ne_eq, hsame]

theorem mapSegment_finishes {ph : Word} (hseg : elfSegment image ph = seg) (hprobed : seg.Probed)
    (hin : seg.InUserArea) (h : Shows k users g s₀ v s) :
    Finishes (mapSegment g image ph) s seg.loaded
      (fun s' => Shows k users g s₀ (layoutSegment v (seg.part image)) s' ∧
        s.pool.length ≤ s'.pool.length + 4 * seg.pages)
      (s.pool.length < 4 * seg.pages) := by
  subst hseg
  have hflags := flagsForSegment_eq (image.load32 (ph + 4))
  rcases layout_runs image hprobed hin.not_wraps hin.topPages h (-2) with
    ⟨s₁, s₂, s₃, hrun₁, hrun₂, hrun₃, h₃, hlen⟩ | ⟨res, s₁, hrun₁, hneg, -, hlen⟩
  · refine ((Outcome.orPanic (G := (· = s₁)) (.inl ⟨s₁, hrun₁, rfl⟩) _).bind ?_)
    rintro _ rfl
    refine ((Outcome.orPanic (G := (· = s₂)) (.inl ⟨s₂, hrun₂, rfl⟩) _).bind ?_)
    rintro _ rfl
    refine ((Outcome.orPanic (G := (· = s₃)) (.inl ⟨s₃, hrun₃, rfl⟩) _).bind ?_)
    rintro s' rfl
    refine .inl ⟨s', ?_, h₃, hlen⟩
    rw [hflags]
    rfl
  · exact (Outcome.orPanic (G := fun _ => False) (.inr ⟨res, s₁, hrun₁, hneg, hlen⟩) _).bind
      fun _ hf => hf.elim

theorem probeHeaders_extends {size phentsize : Word} (n : Nat) {ph : Word}
    {found segments : List UserElfSegmentInfo}
    (h : probeHeaders image size phentsize n ph found = some segments) :
    ∃ more, segments = found ++ more := by
  induction n generalizing ph found with
  | zero =>
    cases h
    exact ⟨[], (List.append_nil _).symm⟩
  | succ n ih =>
    rw [probeHeaders] at h
    split at h
    next => exact ih h
    next =>
      split at h
      next => cases h
      next =>
        split at h
        next => cases h
        next =>
          obtain ⟨more, rfl⟩ := ih h
          exact ⟨_, List.append_assoc ..⟩

/-- The loop over the program headers lays out the segments that the probe
finds from there on. -/
theorem mapSegments_finishes {size phentsize : Word} (n : Nat) {ph : Word}
    {found more : List UserElfSegmentInfo} (done : List LoadedSegment) {s : Machine}
    {v : UserSpace}
    (hprobe : probeHeaders image size phentsize n ph found = some (found ++ more))
    (hmore : ∀ seg ∈ more, seg.Probed ∧ seg.InUserArea) (hroom : done.length + more.length ≤ 16)
    (h : Shows k users g s₀ v s) :
    Finishes (mapSegments g image phentsize n ph done) s (done ++ more.map (·.loaded))
      (fun s' => Shows k users g s₀ ((more.map (·.part image)).foldl layoutSegment v) s' ∧
        s.pool.length ≤ s'.pool.length + 4 * pagesOf more)
      (s.pool.length < 4 * pagesOf more) := by
  induction n generalizing ph found more done s v with
  | zero =>
    have hnil : more = [] := by
      rw [probeHeaders, Option.some.injEq] at hprobe
      exact List.append_right_eq_self.mp hprobe.symm
    subst hnil
    exact .inl ⟨s, by simp [mapSegments], h, Nat.le_refl _⟩
  | succ n ih =>
    rw [probeHeaders] at hprobe
    rw [mapSegments]
    split at hprobe
    next hskip =>
      have hno : ¬ (image.load32 ph = ptLoad ∧ image.load64 (ph + 40) ≠ 0) := fun hload =>
        hskip.elim (fun hne => hne hload.1) hload.2
      rw [if_neg hno]
      exact ih done hprobe hmore hroom h
    next hload =>
      have hyes : image.load32 ph = ptLoad ∧ image.load64 (ph + 40) ≠ 0 := by
        rwa [not_or, not_not] at hload
      rw [if_pos hyes]
      split at hprobe
      next => cases hprobe
      next =>
        split at hprobe
        next => cases hprobe
        next =>
          obtain ⟨more', hsplit⟩ := probeHeaders_extends n hprobe
          rw [List.append_assoc, List.append_cancel_left_eq] at hsplit
          subst hsplit
          rw [← List.append_assoc] at hprobe
          obtain ⟨hprobed, hin⟩ := hmore _ List.mem_cons_self
          have hsum := pagesOf_cons (elfSegment image ph) more'
          rw [List.singleton_append] at hroom ⊢
          rw [List.length_cons] at hroom
          rw [if_neg (by omega)]
          refine Finishes.bind ((mapSegment_finishes rfl hprobed hin h).mono (fun _ => id)
            fun _ => by omega) ?_
          rintro s₁ ⟨h₁, hlen₁⟩
          have hanswer : done ++ (elfSegment image ph :: more').map (·.loaded) =
              (done ++ [(elfSegment image ph).loaded]) ++ more'.map (·.loaded) := by simp
          rw [hanswer]
          refine (ih (done ++ [(elfSegment image ph).loaded]) hprobe
            (fun seg hs => hmore seg (List.mem_cons_of_mem _ hs)) ?_ h₁).mono ?_ fun _ => by omega
          · rw [List.length_append, List.length_singleton]
            omega
          · exact fun s₂ hs => ⟨hs.1, by have := hs.2; omega⟩

theorem protectSegments_finishes (segs : List UserElfSegmentInfo) {s : Machine} {v : UserSpace}
    (hsegs : ∀ seg ∈ segs, seg.InUserArea) (h : Shows k users g s₀ v s)
    (hmapped : ∀ seg ∈ segs, ∀ p ∈ (seg.part image).pages, v.Mapped p) (short : Prop) :
    Finishes (protectSegments g (segs.map (·.loaded))) s ()
      (fun s' => Shows k users g s₀ ((segs.map (·.part image)).foldl Space.sealPart v) s' ∧
        s'.pool = s.pool) short := by
  induction segs generalizing s v with
  | nil => exact .inl ⟨s, rfl, h, rfl⟩
  | cons seg segs ih =>
    obtain ⟨s₁, hrun, h₁, hpool⟩ := protect_runs image (hsegs seg List.mem_cons_self).topPages h
      (hmapped seg List.mem_cons_self)
    refine (Outcome.orPanic (G := (· = s₁)) (.inl ⟨s₁, hrun, rfl⟩) _).bind ?_
    rintro _ rfl
    refine (ih (fun seg' hs => hsegs seg' (List.mem_cons_of_mem _ hs)) h₁ ?_).mono ?_ id
    · intro seg' hs p hp
      exact (Space.mapped_protects _).mpr (.inr (hmapped seg' (List.mem_cons_of_mem _ hs) p hp))
    · exact fun s₂ hs => ⟨hs.1, hs.2.trans hpool⟩

theorem mapUserStack_finishes (h : Shows k users g s₀ v s) :
    Finishes (mapUserStack g) s (stackTop - 16) (fun s' => Shows k users g s₀ (withStack v) s')
      (s.pool.length < 32) := by
  have hstack : Outcome (mapStack g false (-1) (-2)) s
      (fun s' => Shows k users g s₀ (withStack v) s') fun _ => s.pool.length < 32 :=
    (mapStack_shows h (by decide)).mono (fun _ => And.left) fun _ => And.right
  exact (hstack.orPanic _).bind fun s' h' => .inl ⟨s', rfl, h'⟩

/-- What the probe accepts passes the weaker check. -/
theorem validElf_of_probe {size : Word} {info : UserElfInfo}
    (h : elfProbeUserImage image size = some info) : validElf image size = true := by
  unfold elfProbeUserImage at h
  split at h
  next => cases h
  next hvalid =>
    unfold elfValidate at hvalid
    split at hvalid
    next => exact absurd hvalid (by decide)
    next hsize =>
      split at hvalid
      next => exact absurd hvalid (by decide)
      next hmagic =>
        split at hvalid
        next => exact absurd hvalid (by decide)
        next hclass =>
          split at hvalid
          next => exact absurd hvalid (by decide)
          next htype =>
            split at hvalid
            next => exact absurd hvalid (by decide)
            next hheaders =>
              simp only [not_or, not_not] at hmagic hclass htype
              have hsize' := BitVec.not_lt.mp hsize
              have hheaders' := BitVec.not_lt.mp hheaders
              obtain ⟨h0, h1, h2, h3⟩ := hmagic
              simp only [validElf, Bool.and_eq_true, beq_iff_eq, decide_eq_true_eq]
              exact ⟨⟨⟨⟨⟨⟨⟨hsize', h0⟩, h1⟩, h2⟩, h3⟩, hclass.1⟩, htype.2⟩, hheaders'⟩

theorem mapped_layouts (parts : List (Space.Part Nat Nat Word Byte)) {v : UserSpace} {p : Nat} :
    (∃ part ∈ parts, p ∈ part.pages) ∨ v.Mapped p → (parts.foldl layoutSegment v).Mapped p := by
  induction parts generalizing v with
  | nil => simp
  | cons part parts ih =>
    rintro (⟨part', hmem, hp⟩ | hm)
    · rcases List.mem_cons.mp hmem with rfl | hmem
      · exact ih (.inr (mapped_layoutSegment.mpr (.inl hp)))
      · exact ih (.inl ⟨part', hmem, hp⟩)
    · exact ih (.inr (mapped_layoutSegment.mpr (.inr hm)))

theorem userInitLoad_finishes {size : Word} {info : UserElfInfo}
    (hprobe : elfProbeUserImage image size = some info)
    (hin : ∀ seg ∈ info.segments, seg.InUserArea) (h : Shows k users g s₀ v s) :
    Finishes (userInitLoad g image size) s ⟨info.entry, stackTop - 16, info.segments.length⟩
      (fun s' => Shows k users g s₀
        (withStack ((info.segments.map (·.part image)).foldl loadPart v)) s')
      (s.pool.length < framesFor info.segments) := by
  obtain ⟨hprobed, hlen⟩ := elfProbe_probed hprobe
  have hheaders : probeHeaders image size ((image.load16 54).setWidth 64) (image.load16 56).toNat
      (image.load64 32) [] = some ([] ++ info.segments) := by
    unfold elfProbeUserImage at hprobe
    split at hprobe
    next => cases hprobe
    next =>
      split at hprobe
      next => cases hprobe
      next segments hsegs =>
        split at hprobe
        next => cases hprobe
        next =>
          cases hprobe
          exact hsegs
  rw [Finishes, userInitLoad, if_pos (validElf_of_probe hprobe), hprobe]
  unfold framesFor
  refine Finishes.bind ((mapSegments_finishes _ [] hheaders
    (fun seg hs => ⟨hprobed seg hs, hin seg hs⟩) (by simp; omega) h).mono (fun _ => id)
    fun _ => by omega) ?_
  rintro s₁ ⟨h₁, hlen₁⟩
  refine Finishes.bind (protectSegments_finishes info.segments hin h₁ (fun seg hs p hp =>
    mapped_layouts _ (.inl ⟨_, List.mem_map.mpr ⟨seg, hs, rfl⟩, hp⟩)) _) ?_
  rintro s₂ ⟨h₂, hpool₂⟩
  have hlate := Space.seal_late pageAt 0 layoutFlags
    (info.segments.map (·.part image)) v
  change Shows k users g s₀ (List.foldl Space.sealPart (List.foldl
    (Space.layout pageAt 0 layoutFlags) v _) _) s₂ at h₂
  rw [hlate] at h₂
  refine Finishes.bind ((mapUserStack_finishes h₂).mono (fun _ => id) fun _ => by
    rw [hpool₂] at *
    omega) fun s₃ h₃ => ?_
  exact .inl ⟨s₃, rfl, h₃⟩

end Load

/-! ## Agreement -/

/-- The user half of the process is the same in both machines: the same pages
are mapped, with the same flags and the same bytes. -/
def SameUserSpace (g : Frame) (s s' : Machine) : Prop :=
  ∀ a, ¬ OutsideUser a → mappedFlags s g a = mappedFlags s' g a ∧ mappedByte s g a = mappedByte s' g a

theorem Shows.same {k g : Frame} {users : Frame → Prop} {s₀ s s' : Machine} {v : UserSpace}
    (h : Shows k users g s₀ v s) (h' : Shows k users g s₀ v s') : SameUserSpace g s s' := by
  intro a ha
  have hp := private_iff.mpr ha
  rw [h.mappedFlags_eq hp, h'.mappedFlags_eq hp, h.mappedByte_eq hp, h'.mappedByte_eq hp]
  exact ⟨rfl, rfl⟩

/-- Segments that do not overlap are in the space as the image has them. -/
theorem Shows.segment_byte {k g : Frame} {users : Frame → Prop} {s₀ s : Machine} {v : UserSpace}
    {image : Mem} {segs : List UserElfSegmentInfo}
    (h : Shows k users g s₀ (withStack ((segs.map (·.part image)).foldl loadPart v)) s)
    (hsegs : ∀ seg ∈ segs, seg.Probed ∧ seg.InUserArea)
    (hapart : segs.Pairwise UserElfSegmentInfo.Apart) {seg : UserElfSegmentInfo} (hseg : seg ∈ segs)
    {off : Nat} (hoff : off < seg.memSize.toNat) :
    mappedByte s g (seg.vaddr + BitVec.ofNat 64 off) = some (seg.byteAt image off) := by
  obtain ⟨hprobed, hin⟩ := hsegs seg hseg
  obtain ⟨hp, hpage⟩ := UserElfSegmentInfo.byte_page hin.not_wraps hin.topPages hoff
  have hlimit : stackBase.toNat = 0x8fffff8000 := by decide
  have hend := hin.2
  have hspot : spot (seg.vaddr + BitVec.ofNat 64 off) = spot seg.vaddr + off := by
    rw [hin.spot_eq, spot, BitVec.toNat_add, BitVec.toNat_ofNat]
    omega
  have hmem : seg.part image ∈ segs.map (·.part image) := List.mem_map.mpr ⟨seg, hseg, rfl⟩
  have hparts : (segs.map (·.part image)).Pairwise Space.Part.Apart := by
    rw [List.pairwise_map]
    exact hapart.imp_of_mem fun ha hb hab => hab.part image (hsegs _ ha).2 (hsegs _ hb).2
      (hsegs _ ha).1 (hsegs _ hb).1
  have hcovered : ∀ part ∈ segs.map (·.part image), part.Covered pageAt := by
    intro part hpart
    obtain ⟨seg', hseg', rfl⟩ := List.mem_map.mp hpart
    exact (hsegs seg' hseg').2.covered image (hsegs seg' hseg').1
  -- the stack is above the segments
  have hstack : pageAt (spot seg.vaddr + off) ∉ rounds stackBase 8 := by
    intro hin'
    obtain ⟨j, hj, heq⟩ := mem_rounds.mp hin'
    rw [pageOf, toNat_round (by omega), hin.spot_eq, pageAt] at heq
    omega
  rw [h.mappedByte_eq hp, if_pos, hspot, withStack, Space.bytes_maps _ hstack]
  · exact congrArg some (Space.bytes_loads hparts hcovered hmem
      (UserElfSegmentInfo.part_bytes image hoff))
  · exact (Space.mapped_maps _).mpr (.inr (Space.mapped_loads.mpr (.inl ⟨_, hmem, hpage⟩)))

/-- For an image that the probe accepts, with its segments in the user's area
below the stack, the two loaders build the same user address space in a fresh
process, and both get there when there are frames enough. Where the segments do
not overlap, every byte of a segment is the byte of the file, or zero after the
end of the file. -/
theorem loaders_agree {image : Mem} {size : Word} {info : UserElfInfo} {k g : Frame}
    {users : Frame → Prop} {s : Machine} (hprobe : elfProbeUserImage image size = some info)
    (hin : ∀ seg ∈ info.segments, seg.InUserArea) (hfresh : FreshProcess k users g s) :
    (framesFor info.segments ≤ s.pool.length →
      (∃ r s', userInitLoad g image size s = (.ok r, s')) ∧
      ∃ r s', loadUserImageIntoProcess g image info s = (.ok (.ok r), s')) ∧
    ∀ r₁ s₁ r₂ s₂, userInitLoad g image size s = (.ok r₁, s₁) →
      loadUserImageIntoProcess g image info s = (.ok (.ok r₂), s₂) →
      r₁ = r₂ ∧ SameUserSpace g s₁ s₂ ∧
      (info.segments.Pairwise UserElfSegmentInfo.Apart → ∀ seg ∈ info.segments,
        ∀ off < seg.memSize.toNat, mappedByte s₁ g (seg.vaddr + BitVec.ofNat 64 off) =
          some (if off < seg.fileSize.toNat then image (seg.fileOffset + BitVec.ofNat 64 off)
            else 0)) := by
  have hsegs : ∀ seg ∈ info.segments, seg.Probed ∧ seg.InUserArea := fun seg hs =>
    ⟨(elfProbe_probed hprobe).1 seg hs, hin seg hs⟩
  have hinit := userInitLoad_finishes hprobe hin hfresh.shows
  have hspawn := loadUserImage_shows image hsegs hfresh.shows
  refine ⟨fun hpool => ⟨?_, ?_⟩, fun r₁ s₁ r₂ s₂ hrun₁ hrun₂ => ?_⟩
  · rcases hinit with ⟨s', hrun, -⟩ | ⟨-, hshort⟩
    · exact ⟨_, s', hrun⟩
    · omega
  · rcases hspawn with ⟨s', hrun, -⟩ | ⟨-, hshort⟩
    · exact ⟨_, s', hrun⟩
    · omega
  · obtain ⟨rfl, h₁⟩ := hinit.of_ok hrun₁
    rcases hspawn with ⟨s', hrun, h₂⟩ | ⟨hnot, -⟩
    · rw [hrun] at hrun₂
      cases hrun₂
      exact ⟨rfl, h₁.same h₂, fun hapart seg hseg off hoff =>
        h₁.segment_byte hsegs hapart hseg hoff⟩
    · exact absurd hrun₂ (hnot r₂ s₂)

/-- Two segments that share a page: eight bytes of which four are in the file,
and four bytes of another after them. -/
def sharedPageElf : Mem := fun a =>
  ([0x7f, 0x45, 0x4c, 0x46, 2, 1] ++ List.replicate 10 0 ++ Mem.leBytes 2 etExec ++
    Mem.leBytes 2 emX8664 ++ List.replicate 12 0 ++ Mem.leBytes 8 (64 : Word) ++
    List.replicate 14 0 ++ Mem.leBytes 2 (56 : BitVec 16) ++ Mem.leBytes 2 (2 : BitVec 16) ++
    List.replicate 6 0 ++
    Mem.leBytes 4 ptLoad ++ Mem.leBytes 4 (5 : BitVec 32) ++ Mem.leBytes 8 (0 : Word) ++
    Mem.leBytes 8 userBase ++ List.replicate 8 0 ++ Mem.leBytes 8 (4 : Word) ++
    Mem.leBytes 8 (8 : Word) ++ List.replicate 8 0 ++
    Mem.leBytes 4 ptLoad ++ Mem.leBytes 4 (6 : BitVec 32) ++ Mem.leBytes 8 (0 : Word) ++
    Mem.leBytes 8 (userBase + 8) ++ List.replicate 8 0 ++ Mem.leBytes 8 (4 : Word) ++
    Mem.leBytes 8 (4 : Word) ++ List.replicate 8 0).getD a.toNat 0

def sharedPageInfo : UserElfInfo where
  entry := 0
  imageSize := 176
  segments := [⟨userBase, 0, 8, 4, 5⟩, ⟨userBase + 8, 0, 4, 4, 6⟩]

theorem loaders_agree_sharedPage :
    ∃ k users g s r s₁ s₂, FreshProcess k users g s ∧
      userInitLoad g sharedPageElf 176 s = (.ok r, s₁) ∧
      loadUserImageIntoProcess g sharedPageElf sharedPageInfo s = (.ok (.ok r), s₂) ∧
      SameUserSpace g s₁ s₂ ∧ mappedByte s₁ g (userBase + 1) = some 0x45 ∧
      mappedByte s₁ g (userBase + 5) = some 0 := by
  have hboot : Good bootRoot (bootMachine 4096 64) := good_boot (by decide) (by decide) (by decide)
  obtain ⟨g, s, hfresh, hpool, -, -⟩ := exists_freshProcess hboot (by decide)
  have hlen : s.pool.length = 63 := by
    have := congrArg List.length hpool
    rw [length_boot, List.length_cons] at this
    omega
  have hprobe : elfProbeUserImage sharedPageElf 176 = some sharedPageInfo := by decide +kernel
  have hin : ∀ seg ∈ sharedPageInfo.segments, seg.InUserArea := by decide
  obtain ⟨hboth, hagree⟩ := loaders_agree hprobe hin hfresh
  obtain ⟨⟨r₁, s₁, hrun₁⟩, r₂, s₂, hrun₂⟩ := hboth (by rw [hlen]; decide)
  obtain ⟨rfl, hsame, hbytes⟩ := hagree r₁ s₁ r₂ s₂ hrun₁ hrun₂
  have hapart : sharedPageInfo.segments.Pairwise UserElfSegmentInfo.Apart := by
    simp [sharedPageInfo, UserElfSegmentInfo.Apart]
    decide
  have hfirst := hbytes hapart _ List.mem_cons_self
  refine ⟨_, _, g, s, r₁, s₁, s₂, hfresh, hrun₁, hrun₂, hsame, ?_, ?_⟩
  · refine (hfirst 1 (by decide)).trans ?_
    decide +kernel
  · refine (hfirst 5 (by decide)).trans ?_
    decide +kernel

end OreOS.Kernel
