import OreOS.Laws.Kernel.Boot

/-!
# What loading an ELF image writes

The probe does not look at where a segment goes. A page of a segment in the
kernel's half of the address space either translates already, and the bytes go
to a frame of the kernel, or it is mapped in tables that the process shares with
the kernel. `SafeSegments` is the condition on the segments under which, and
only under which, loading into a fresh process stores nothing outside the frames
of that process, in every state of the system.
-/

namespace OreOS.Kernel

open OreOS.Lib (Word Byte Mem Exec Space)

/-! ## Segments -/

namespace UserElfSegmentInfo

variable (seg : UserElfSegmentInfo)

def start : Word :=
  alignDown seg.vaddr

/-- The rounds of the page loop. -/
def pages : Nat :=
  pageCount seg.start (alignUp (seg.vaddr + seg.memSize))

/-- The end, rounded up to a page, runs over the top. -/
def Wraps : Prop :=
  2 ^ 64 - 4096 < seg.vaddr.toNat + seg.memSize.toNat

instance : Decidable seg.Wraps :=
  inferInstanceAs (Decidable (_ < _))

/-- What the probe makes sure of. -/
def Probed : Prop :=
  seg.memSize ≠ 0 ∧ seg.fileSize ≤ seg.memSize

/-- The pages mapped when the page loop is through, given those before. -/
def mapped (M : Nat → Prop) (p : Nat) : Prop :=
  RoundPages seg.start seg.pages p ∨ M p

end UserElfSegmentInfo

/-- The segments keep to the user half, given the pages mapped before them. -/
def SafeSegments (M : Nat → Prop) : List UserElfSegmentInfo → Prop
  | [] => True
  | seg :: segs =>
    (∀ j < seg.pages, ¬ OutsideUser (roundAddr seg.start j)) ∧
      if seg.Wraps then
        ∃ j, (∀ i < j, ¬ OutsideUser (roundAddr seg.start i) ∧
            seg.mapped M (pageOf (roundAddr seg.start i))) ∧
          ¬ OutsideUser (roundAddr seg.start j) ∧ ¬ seg.mapped M (pageOf (roundAddr seg.start j))
      else SafeSegments (seg.mapped M) segs

variable {image : Mem}

theorem probeHeaders_probed {size phentsize : Word} (n : Nat) {ph : Word}
    {found segments : List UserElfSegmentInfo}
    (h : probeHeaders image size phentsize n ph found = some segments)
    (hfound : ∀ seg ∈ found, seg.Probed) (hlen : found.length ≤ 8) :
    (∀ seg ∈ segments, seg.Probed) ∧ segments.length ≤ 8 := by
  induction n generalizing ph found with
  | zero =>
    cases h
    exact ⟨hfound, hlen⟩
  | succ n ih =>
    rw [probeHeaders] at h
    split at h
    next => exact ih h hfound hlen
    next hload =>
      split at h
      next => cases h
      next hsize =>
        split at h
        next => cases h
        next hroom =>
          refine ih h (fun seg hseg => ?_) (by simp; omega)
          rcases List.mem_append.mp hseg with hseg | hseg
          · exact hfound seg hseg
          · rw [List.mem_singleton] at hseg
            subst hseg
            rw [not_or] at hload hsize
            exact ⟨hload.2, BitVec.not_lt.mp hsize.2⟩

variable {info : UserElfInfo}

/-- What the probe says of the segments it accepts. -/
theorem elfProbe_probed {size : Word} (h : elfProbeUserImage image size = some info) :
    (∀ seg ∈ info.segments, seg.Probed) ∧ info.segments.length ≤ 8 := by
  unfold elfProbeUserImage at h
  split at h
  next => cases h
  next =>
    split at h
    next => cases h
    next segments hsegs =>
      split at h
      next => cases h
      next =>
        cases h
        exact probeHeaders_probed _ hsegs nofun (by simp)

/-! ## Pages and bytes of a segment -/

theorem pageOf_byte (v : Word) (i : Nat) :
    pageOf (v + BitVec.ofNat 64 i) =
      pageOf (roundAddr (alignDown v) ((v.toNat % 4096 + i) / 4096)) := by
  rw [pageOf, pageOf, roundAddr, BitVec.toNat_add, BitVec.toNat_add, BitVec.toNat_ofNat,
    BitVec.toNat_ofNat, toNat_alignDown]
  omega

/-- Consecutive pages of the user half end below the top of the address
space. -/
theorem user_rounds_below {va : Word} {n : Nat} (hva : Mem.Aligned va)
    (htop : TopPages Private va n) (hn : 0 < n) :
    va.toNat + 4096 * n ≤ 2 ^ 64 - 2 ^ 47 ∧ n ≤ 255 * 2 ^ 27 := by
  unfold Mem.Aligned at hva
  have hstart := htop 0 hn
  rw [roundAddr_zero, Private, tableIndex_val] at hstart
  -- the page after the user half that `va` is in is not among the rounds
  by_contra hcon
  have hj : (2 ^ 47 - va.toNat % 2 ^ 47) / 4096 < n := by omega
  have hbad := htop _ hj
  rw [Private, tableIndex_val, toNat_round (by omega)] at hbad
  omega

namespace UserElfSegmentInfo

variable {seg : UserElfSegmentInfo}

theorem aligned_start (seg : UserElfSegmentInfo) : Mem.Aligned seg.start := by
  rw [Mem.Aligned, start, toNat_alignDown]
  omega

variable {i : Nat}

/-- The page loop covers the bytes of a segment that does not run over the
top. -/
theorem byte_round (hwraps : ¬ seg.Wraps) (hi : i < seg.memSize.toNat) :
    (seg.vaddr.toNat % 4096 + i) / 4096 < seg.pages := by
  unfold Wraps at hwraps
  have hsum : (seg.vaddr + seg.memSize).toNat = seg.vaddr.toNat + seg.memSize.toNat := by bv_omega
  rw [pages, pageCount, toNat_alignUp (by omega), hsum, start, toNat_alignDown]
  omega

/-- The last protection covers the pages of the loop. -/
theorem protect_rounds (seg : UserElfSegmentInfo) :
    alignDown seg.start = seg.start ∧
      pageCount (alignDown seg.start) (alignUp (seg.start +
        (alignUp (seg.vaddr + seg.memSize) - seg.start))) = seg.pages := by
  have hdown := alignDown_of_aligned seg.aligned_start
  have hsum : seg.start + (alignUp (seg.vaddr + seg.memSize) - seg.start) =
      alignUp (seg.vaddr + seg.memSize) := by
    rw [BitVec.add_comm, BitVec.sub_add_cancel]
  have hup : alignUp (alignUp (seg.vaddr + seg.memSize)) = alignUp (seg.vaddr + seg.memSize) := by
    have hal : (alignUp (seg.vaddr + seg.memSize)).toNat % 4096 = 0 := by
      rw [alignUp]
      have := toNat_alignDown (seg.vaddr + seg.memSize + 4096 - 1)
      rw [alignDown] at this
      omega
    apply BitVec.eq_of_toNat_eq
    rw [toNat_alignUp (by omega)]
    omega
  exact ⟨hdown, by rw [hdown, hsum, hup]; rfl⟩

/-- The bytes before page `j`. -/
def bytesBefore (seg : UserElfSegmentInfo) (j : Nat) : Nat :=
  4096 * j - seg.vaddr.toNat % 4096

variable {j : Nat}

theorem round_of_before (hi : i < seg.bytesBefore j) : (seg.vaddr.toNat % 4096 + i) / 4096 < j := by
  unfold bytesBefore at hi
  omega

theorem round_bytesBefore (seg : UserElfSegmentInfo) (j : Nat) :
    (seg.vaddr.toNat % 4096 + seg.bytesBefore j) / 4096 = j := by
  unfold bytesBefore
  omega

theorem pageOf_bytesBefore (seg : UserElfSegmentInfo) (j : Nat) :
    pageOf (seg.vaddr + BitVec.ofNat 64 (seg.bytesBefore j)) = pageOf (roundAddr seg.start j) := by
  rw [pageOf_byte, seg.round_bytesBefore]
  rfl

theorem bytes_mapped (seg : UserElfSegmentInfo) {M : Nat → Prop}
    (hbefore : ∀ i < j, Private (tableIndex (roundAddr seg.start i) 39) ∧
      M (pageOf (roundAddr seg.start i))) (hi : i < seg.bytesBefore j) :
    Private (tableIndex (seg.vaddr + BitVec.ofNat 64 i) 39) ∧
      M (pageOf (seg.vaddr + BitVec.ofNat 64 i)) := by
  obtain ⟨hp, hm⟩ := hbefore _ (round_of_before hi)
  have hpage := pageOf_byte seg.vaddr i
  rw [hpage]
  exact ⟨(private_congr hpage).mpr hp, hm⟩

/-- A segment that runs over the top has bytes in the page after consecutive
pages of the user half. -/
theorem bytesBefore_lt (hwraps : seg.Wraps) (hprobed : seg.Probed)
    (htop : TopPages Private seg.start j) : seg.bytesBefore j < seg.memSize.toNat := by
  unfold Wraps at hwraps
  have hne : seg.memSize.toNat ≠ 0 := fun h0 => hprobed.1 (BitVec.eq_of_toNat_eq h0)
  have hstart : seg.start.toNat = seg.vaddr.toNat / 4096 * 4096 := toNat_alignDown seg.vaddr
  unfold bytesBefore
  rcases Nat.eq_zero_or_pos j with rfl | hj
  · omega
  · have := (user_rounds_below seg.aligned_start htop hj).1
    omega

end UserElfSegmentInfo

/-! ## Segments as parts of a space -/

namespace UserElfSegmentInfo

/-- What the segment adds to a space: zeros, and the bytes of the file over
them. -/
def part (image : Mem) (seg : UserElfSegmentInfo) : Space.Part Nat Nat Word Byte where
  pages := rounds seg.start seg.pages
  bytes x :=
    (block (spot seg.vaddr) seg.fileSize.toNat
      (fun i => image (seg.fileOffset + BitVec.ofNat 64 i)) x).or
      (block (spot seg.vaddr) seg.memSize.toNat (fun _ => 0) x)
  flags := flagsForElfSegment seg.flags ||| vmmPresent

/-- The bytes of a segment are in the user half, in its pages. -/
theorem byte_page {seg : UserElfSegmentInfo} (hwraps : ¬ seg.Wraps)
    (htop : TopPages Private seg.start seg.pages) {i : Nat} (hi : i < seg.memSize.toNat) :
    Private (tableIndex (seg.vaddr + BitVec.ofNat 64 i) 39) ∧
      pageOf (seg.vaddr + BitVec.ofNat 64 i) ∈ rounds seg.start seg.pages := by
  have hround := byte_round hwraps hi
  have hpage := pageOf_byte seg.vaddr i
  exact ⟨(private_congr hpage).mpr (htop _ hround), mem_rounds.mpr ⟨_, hround, hpage⟩⟩

end UserElfSegmentInfo

/-- The flags of a page while the segments are laid out. -/
def layoutFlags : Word :=
  vmmUser ||| vmmWrite ||| vmmPresent

/-- The pages of a segment, then its bytes. -/
def layoutSegment (v : UserSpace) (part : Space.Part Nat Nat Word Byte) : UserSpace :=
  v.layout pageAt 0 layoutFlags part

/-- A segment laid out and protected. -/
def loadPart (v : UserSpace) (part : Space.Part Nat Nat Word Byte) : UserSpace :=
  v.load pageAt 0 layoutFlags part

/-! ## Safe segments -/

section Load

variable {k g : Frame} {users : Frame → Prop} {s₀ s : Machine} {M : Nat → Prop} {v : UserSpace}
  {image : Mem} {seg : UserElfSegmentInfo} {rest : Kern Int}

variable {va : Word} {n : Nat}

theorem topPages_of_user (h : ∀ j < n, ¬ OutsideUser (roundAddr va j)) : TopPages Private va n :=
  fun j hj => private_iff.mpr (h j hj)

theorem flags_mask (phFlags : Word) : flagsForElfSegment phFlags &&& pteAddrMask = 0 := by
  unfold flagsForElfSegment
  split <;> decide

/-- Rounds of the page loop of a segment in the user half. -/
theorem segmentPages_outcome (htop : TopPages Private seg.start n) (h : Loading k users g s₀ M s) :
    Outcome (ensurePages g (vmmUser ||| vmmWrite) false (-1) (-1) n seg.start) s
      (fun s' => Loading k users g s₀ (fun p => RoundPages seg.start n p ∨ M p) s' ∧
        s.pool.length ≤ s'.pool.length + 4 * n)
      (fun s' => Owner k users g s₀ s' ∧ s.pool.length < 4 * n) :=
  ensurePages_outcome _ h seg.aligned_start htop (by decide) (by decide)

/-- The three loops over a segment, which the loaders have in common. -/
theorem layout_runs (image : Mem) (hprobed : seg.Probed) (hwraps : ¬ seg.Wraps)
    (htop : TopPages Private seg.start seg.pages) (h : Shows k users g s₀ v s) (refused : Int) :
    (∃ s₁ s₂ s₃,
      ensurePages g (vmmUser ||| vmmWrite) false (-1) refused seg.pages seg.start s = (.ok 0, s₁) ∧
      putBytes g (-1) (fun _ => 0) seg.memSize.toNat seg.vaddr 0 s₁ = (.ok 0, s₂) ∧
      putBytes g (-1) image seg.fileSize.toNat seg.vaddr seg.fileOffset s₂ = (.ok 0, s₃) ∧
      Shows k users g s₀ (layoutSegment v (seg.part image)) s₃ ∧
      s.pool.length ≤ s₃.pool.length + 4 * seg.pages) ∨
    ∃ res s₁,
      ensurePages g (vmmUser ||| vmmWrite) false (-1) refused seg.pages seg.start s = (res, s₁) ∧
      (∀ err, res = .ok err → err < 0) ∧ Owner k users g s₀ s₁ ∧ s.pool.length < 4 * seg.pages := by
  have hfile : seg.fileSize.toNat ≤ seg.memSize.toNat := hprobed.2
  rcases ensurePages_shows seg.pages h false refused seg.aligned_start htop
    (by decide : (vmmUser ||| vmmWrite) &&& pteAddrMask = 0)
    (by decide : (-1 : Int) < 0) with ⟨s₁, hrun₁, h₁, hlen⟩ | hstop
  · left
    have hpages : ∀ i < seg.memSize.toNat,
        Private (tableIndex (seg.vaddr + BitVec.ofNat 64 i) 39) ∧
        ((rounds seg.start seg.pages).foldl (Space.ensure pageAt 0 layoutFlags) v).Mapped
          (pageOf (seg.vaddr + BitVec.ofNat 64 i)) := fun i hi =>
      (UserElfSegmentInfo.byte_page hwraps htop hi).imp_right fun hmem => (Space.mapped_ensures _).mpr (.inl hmem)
    obtain ⟨s₂, hrun₂, h₂, hpool₂⟩ := putBytes_shows seg.memSize.toNat h₁ (-1) (fun _ => 0)
      seg.vaddr 0 hpages
    obtain ⟨s₃, hrun₃, h₃, hpool₃⟩ := putBytes_shows seg.fileSize.toNat h₂ (-1) image seg.vaddr
      seg.fileOffset fun i hi => hpages i (by omega)
    rw [Space.put_put] at h₃
    exact ⟨s₁, s₂, s₃, hrun₁, hrun₂, hrun₃, h₃, by rw [hpool₃, hpool₂]; exact hlen⟩
  · exact .inr hstop

theorem protect_runs (image : Mem) (htop : TopPages Private seg.start seg.pages)
    (h : Shows k users g s₀ v s)
    (hmapped : ∀ p ∈ (seg.part image).pages, v.Mapped p) :
    ∃ s', protectInRoot g seg.start (alignUp (seg.vaddr + seg.memSize) - seg.start)
        (flagsForElfSegment seg.flags) s = (.ok 0, s') ∧
      Shows k users g s₀ (v.sealPart (seg.part image)) s' ∧ s'.pool = s.pool := by
  obtain ⟨s', hrun, h', hpool⟩ := protectPages_shows (flagsForElfSegment seg.flags) seg.pages h
    htop (flags_mask _) hmapped
  refine ⟨s', ?_, h', hpool⟩
  rw [protectInRoot, seg.protect_rounds.2, seg.protect_rounds.1, hrun]

theorem mapped_layoutSegment {part : Space.Part Nat Nat Word Byte} {p : Nat} :
    (layoutSegment v part).Mapped p ↔ p ∈ part.pages ∨ v.Mapped p :=
  Space.mapped_layout

/-- A segment that does not run over the top, in the user half: the loader gets
through to the rest, or its page loop stops it. -/
theorem loadSegment_shows (image : Mem) (hprobed : seg.Probed) (hwraps : ¬ seg.Wraps)
    (htop : TopPages Private seg.start seg.pages) (h : Shows k users g s₀ v s) :
    (∃ s', (∀ rest, loadSegment g image seg rest s = rest s') ∧
      Shows k users g s₀ (loadPart v (seg.part image)) s' ∧
      s.pool.length ≤ s'.pool.length + 4 * seg.pages) ∨
    ∃ res s', (∀ rest, loadSegment g image seg rest s = (res, s')) ∧
      (∀ err, res = .ok err → err < 0) ∧ Owner k users g s₀ s' ∧
      s.pool.length < 4 * seg.pages := by
  rcases layout_runs image hprobed hwraps htop h (-1) with
    ⟨s₁, s₂, s₃, hrun₁, hrun₂, hrun₃, h₃, hlen⟩ | ⟨res, s₁, hrun₁, hneg, ho, hlen⟩
  · obtain ⟨s₄, hrun₄, h₄, hpool⟩ := protect_runs image htop h₃ fun p hp =>
      mapped_layoutSegment.mpr (.inl hp)
    refine .inl ⟨s₄, fun rest => ?_, h₄, by rw [hpool]; exact hlen⟩
    exact (orReturn_zero hrun₁).trans <| (orReturn_zero hrun₂).trans <|
      (orReturn_zero hrun₃).trans (orFail_zero hrun₄)
  · refine .inr ⟨res, s₁, fun rest => ?_, hneg, ho, hlen⟩
    cases res with
    | error e => exact Exec.bind_error hrun₁
    | ok err =>
      refine (Exec.bind_ok hrun₁).trans ?_
      rw [if_pos (hneg err rfl)]
      rfl

theorem loadSegment_cases (image : Mem) (hprobed : seg.Probed) (hwraps : ¬ seg.Wraps)
    (htop : TopPages Private seg.start seg.pages) (h : Loading k users g s₀ M s) :
    (∃ s', (∀ rest, loadSegment g image seg rest s = rest s') ∧
      Loading k users g s₀ (seg.mapped M) s' ∧
      s.pool.length ≤ s'.pool.length + 4 * seg.pages) ∨
    ∃ res s', (∀ rest, loadSegment g image seg rest s = (res, s')) ∧
      (∀ err, res = .ok err → err < 0) ∧ Owner k users g s₀ s' ∧
      s.pool.length < 4 * seg.pages := by
  obtain ⟨v, hM, hv⟩ := h.exists_shows
  refine (loadSegment_shows image hprobed hwraps htop hv).imp_left fun ⟨s', hrun, h', hlen⟩ =>
    ⟨s', hrun, h'.loading.congr fun p => ?_, hlen⟩
  rw [loadPart, Space.mapped_load, hM]
  exact or_congr_left mem_rounds

variable {j : Nat}

/-- A segment that runs over the top and whose bytes come to an unmapped page
of the user half: the loader gives up there. -/
theorem loadSegment_wraps (hprobed : seg.Probed) (hwraps : seg.Wraps)
    (htop : TopPages Private seg.start seg.pages) (h : Loading k users g s₀ M s)
    (hbefore : ∀ i < j, Private (tableIndex (roundAddr seg.start i) 39) ∧
      seg.mapped M (pageOf (roundAddr seg.start i)))
    (hprivate : Private (tableIndex (roundAddr seg.start j) 39))
    (hunmapped : ¬ seg.mapped M (pageOf (roundAddr seg.start j))) :
    Outcome (loadSegment g image seg rest) s (fun _ => False)
      (fun s' => Owner k users g s₀ s') := by
  refine Outcome.orReturn ((segmentPages_outcome htop h).mono (fun _ => id) fun _ => And.left)
    fun s₁ h₁ => ?_
  have hlt := UserElfSegmentInfo.bytesBefore_lt hwraps hprobed fun i hi => (hbefore i hi).1
  obtain ⟨s₂, hrun, h₂, -⟩ := putBytes_mapped (seg.bytesBefore j) h₁.1 (-1) (fun _ => 0) seg.vaddr 0
    fun _ => seg.bytes_mapped hbefore
  have hpage := seg.pageOf_bytesBefore j
  obtain ⟨phys, htrans, hzero, -⟩ := h₂.translates ((private_congr hpage).mpr hprivate)
  have hphys : phys = 0 := hzero.mpr (by rw [hpage]; exact hunmapped)
  refine Outcome.orReturn (G := fun _ => False) (.inr ⟨.ok (-1), s₂, ?_, ?_, h₂.owner⟩)
    fun _ hf => hf.elim
  · have hsplit : seg.memSize.toNat =
        seg.bytesBefore j + ((seg.memSize.toNat - seg.bytesBefore j - 1) + 1) := by omega
    rw [hsplit, putBytes_add (by decide) _ _ hrun, putBytes, Exec.bind_ok htrans, if_pos hphys]
    rfl
  · intro err he
    cases he
    decide

/-- Safe segments keep to the frames of the process. -/
theorem loadSegments_outcome (segs : List UserElfSegmentInfo) {s : Machine} {M : Nat → Prop}
    (hprobed : ∀ seg ∈ segs, seg.Probed) (h : Loading k users g s₀ M s)
    (hsafe : SafeSegments M segs) :
    Outcome (loadSegments g image segs) s (fun s' => ∃ M', Loading k users g s₀ M' s')
      (fun s' => Owner k users g s₀ s') := by
  induction segs generalizing s M with
  | nil => exact mapStack_outcome h (by decide)
  | cons seg segs ih =>
    obtain ⟨htop, hsafe⟩ := hsafe
    have htop := topPages_of_user htop
    have hseg := hprobed seg List.mem_cons_self
    split at hsafe
    next hwraps =>
      obtain ⟨j, hbefore, huser, hunmapped⟩ := hsafe
      exact (loadSegment_wraps hseg hwraps htop h
        (fun i hi => ⟨private_iff.mpr (hbefore i hi).1, (hbefore i hi).2⟩)
        (private_iff.mpr huser) hunmapped).mono (fun _ hf => hf.elim) fun _ => id
    next hwraps =>
      rcases loadSegment_cases image hseg hwraps htop h with
        ⟨s', hrun, h', -⟩ | ⟨res, s', hrun, hneg, ho, -⟩
      · rw [Outcome, loadSegments, hrun]
        exact ih (fun seg hs => hprobed seg (List.mem_cons_of_mem _ hs)) h' hsafe
      · exact .inr ⟨res, s', hrun _, hneg, ho⟩

/-! ## Unsafe segments -/

/-- Some store of the computation is in the frame. -/
def Strays (f : Frame) (s₀ : Machine) (x : Kern Int) (s : Machine) : Prop :=
  ∃ (s' : Machine) (w : Word × Nat) (y : Word), w :: s'.trace <:+ (x s).2.trace ∧
    s₀.trace <:+ s'.trace ∧ Touches w y ∧ Mem.InPage f.val y

section Strays

variable {f : Frame} {x y : Kern Int}

theorem Strays.orReturn_left (h : Strays f s₀ x s)
    (hy : ∀ {I : Machine → Prop}, Stable I → Exec.Keeps I y) : Strays f s₀ (orReturn x y) s := by
  obtain ⟨s', w, a, htrace, hbefore, htouch, hpage⟩ := h
  refine ⟨s', w, a, ?_, hbefore, htouch, hpage⟩
  exact Exec.after_bind (I := fun s : Machine => w :: s'.trace <:+ s.trace) htrace fun _ =>
    .ite (fun _ => .pure _) fun _ => hy (stable_trace _)

theorem Strays.orReturn_right {s₁ : Machine} (hx : x s = (.ok 0, s₁)) (h : Strays f s₀ y s₁) :
    Strays f s₀ (orReturn x y) s := by
  rw [Strays, orReturn_zero hx]
  exact h

end Strays

theorem stable_loadSegment {I : Machine → Prop} (hI : Stable I) (root : Word) (image : Mem)
    (seg : UserElfSegmentInfo) {rest : Kern Int} (hrest : Exec.Keeps I rest) :
    Exec.Keeps I (loadSegment root image seg rest) :=
  Stable.orReturn (hI.ensurePages _ _ _ _ _ _ _) <|
    Stable.orReturn (hI.putBytes _ _ _ _ _ _) <|
      Stable.orReturn (hI.putBytes _ _ _ _ _ _) <| Stable.orFail (hI.protectPages _ _ _ _) hrest

theorem stable_loadSegments {I : Machine → Prop} (hI : Stable I) (root : Word) (image : Mem)
    (segs : List UserElfSegmentInfo) : Exec.Keeps I (loadSegments root image segs) := by
  induction segs with
  | nil => exact hI.stackPages _ _ _ _ _ _
  | cons seg segs ih => exact stable_loadSegment hI root image seg ih

/-- The kernel has an empty table over the address. -/
def KernelTable (k : Frame) (s : Machine) (q : Word) (f : Frame) : Prop :=
  tableWalk s k [tableIndex q 39] = some f ∧ ∀ i, entries s.mem f i = 0

/-- The kernel has the page of the address mapped to a frame. -/
def KernelPage (k : Frame) (s : Machine) (q : Word) (f : Frame) : Prop :=
  ∃ e, pte s k q = some e ∧ e &&& pteAddrMask = f.val ∧ f.val ≠ 0

variable {f : Frame}

theorem Owner.kernelTable (h : Owner k users g s₀ s) {q : Word} (hq : ¬ Private (tableIndex q 39))
    (hf : KernelTable k s₀ q f) :
    child (entries s.mem g (tableIndex q 39)) = some f ∧ ∀ i, entries s.mem f i = 0 := by
  obtain ⟨hwalk, hzero⟩ := hf
  constructor
  · rw [h.isolated.shared g h.user _ hq, h.kernel k (tables_root s₀ k)]
    rw [tableWalk, OreOS.Lib.Radix.walk_cons] at hwalk
    cases hc : child (entries s₀.mem k (tableIndex q 39)) with
    | none =>
      rw [hc] at hwalk
      cases hwalk
    | some f' =>
      rw [hc] at hwalk
      exact congrArg some (Option.some.inj hwalk)
  · intro i
    rw [h.kernel f ⟨_, by simp, hwalk⟩, hzero]

theorem touches_self {a : Word} (hn : 0 < n) : Touches (a, n) a := by
  rw [Touches, BitVec.sub_self]
  exact hn

/-- The page loop links a table of its own into the kernel's. -/
theorem ensurePages_strays (h : Owner k users g s₀ s) (flags : Word) (noMemory refused : Int)
    (n : Nat) (hva : Mem.Aligned va) (hend : va.toNat + 8192 ≤ 2 ^ 64)
    (hq : ¬ Private (tableIndex va 39)) (hf : KernelTable k s₀ va f) (hpool : 2 ≤ s.pool.length) :
    Strays f s₀ (ensurePages g flags false noMemory refused (n + 1) va) s := by
  obtain ⟨page, page', pool, hcons⟩ : ∃ page page' pool, s.pool = page :: page' :: pool := by
    match hs : s.pool with
    | [] => simp [hs] at hpool
    | [_] => simp [hs] at hpool
    | page :: page' :: pool => exact ⟨page, page', pool, rfl⟩
  -- the page does not translate, so it is given a frame
  have habsent : vmmVirtToPhysIn g va s = (.ok 0, s) := by
    obtain ⟨hchild, hzero⟩ := h.kernelTable hq hf
    have hpte : pte s g va = none := by
      rw [pte, leafEntry, OreOS.Lib.Radix.find, tablePath, OreOS.Lib.Radix.walk_cons, hchild]
      simp only [Option.bind_some]
      rw [OreOS.Lib.Radix.walk_cons, hzero]
      rfl
    rw [vmmVirtToPhysIn_eq (h.isolated.user g h.user).null, hpte]
    rfl
  obtain ⟨ho, -⟩ := h.handedOut hcons
  obtain ⟨hchild, hzero⟩ := ho.kernelTable hq hf
  have hgood := ho.isolated.user g ho.user
  have hnull : f ≠ nullFrame := by
    rintro rfl
    refine hgood.null [tableIndex va 39] (by simp) ?_
    rw [OreOS.Lib.Radix.walk_cons, hchild]
    rfl
  have hfirst : nextTable g (tableIndex va 39) true (flags &&& vmmUser)
      (handedOut s page (page' :: pool)) = (.ok (some f.val), handedOut s page (page' :: pool)) := by
    rw [nextTable_child hchild, ptr_frame hnull]
  have hsecond := nextTable_link (s := handedOut s page (page' :: pool)) (f := f)
    (i := tableIndex va 30) (by rw [hzero]; rfl) rfl
    (hgood.alloc page' (List.mem_cons_self ..)) (user_mask flags)
  refine ⟨cleared (handedOut s page (page' :: pool)) page' pool, (cell f (tableIndex va 30), 8),
    cell f (tableIndex va 30), ?_, ?_, ?_, inPage_of_cell (i := tableIndex va 30) ?_⟩
  · generalize htr : (cell f (tableIndex va 30), 8) ::
      (cleared (handedOut s page (page' :: pool)) page' pool).trace = tr
    have hI := stable_trace tr
    rw [ensurePages, Exec.bind_ok habsent, if_pos rfl]
    refine Exec.after_bind (I := fun s : Machine => tr <:+ s.trace) ?_ fun _ =>
      .ite (fun _ => .pure _) fun _ => hI.ensurePages _ _ _ _ _ _ _
    rw [mapFrame, Exec.bind_ok (pmmAllocPage_cons hcons)]
    dsimp only
    rw [Exec.bind_ok (show clearFrame false page _ = (.ok (), _) from rfl)]
    refine Exec.after_bind (I := fun s : Machine => tr <:+ s.trace) ?_ fun _ =>
      .ite (fun _ => .pure _) fun _ => .pure _
    have hcount : pageCount (alignDown va) (alignUp (va + 4096)) = 1 := by
      unfold Mem.Aligned at hva
      have hdown := toNat_alignDown va
      have hsum : (va + 4096).toNat = va.toNat + 4096 := by bv_omega
      have hup := toNat_alignUp (a := va + 4096) (by omega)
      rw [pageCount]
      omega
    rw [mapInRoot, hcount, alignDown_of_aligned hva, mapPages]
    refine Exec.after_bind (I := fun s : Machine => tr <:+ s.trace) ?_ fun pte => ?_
    · rw [pteForRoot, Exec.bind_ok hfirst]
      refine Exec.after_bind (I := fun s : Machine => tr <:+ s.trace) ?_ fun pd => ?_
      · rw [hsecond, ← htr]
        exact List.suffix_refl _
      · cases pd with
        | none => exact .pure _
        | some pd =>
          refine (hI.nextTable _ _ _ _).bind fun pt => ?_
          cases pt with
          | none => exact .pure _
          | some pt => exact .pure _
    · cases pte with
      | none => exact .pure _
      | some pte => exact (hI.store _ _).bind fun _ => .pure _
  · exact ho.trace.trans ((List.suffix_cons _ _).trans (List.suffix_cons _ _))
  · exact touches_self (by decide)
  · exact touches_self (by decide)

/-- A byte goes to a frame of the kernel. -/
theorem putBytes_strays (h : Owner k users g s₀ s) (refused : Int) (src : Mem) (n : Nat)
    (off : Word) (hq : ¬ Private (tableIndex va 39)) (hf : KernelPage k s₀ va f) :
    Strays f s₀ (putBytes g refused src (n + 1) va off) s := by
  obtain ⟨e, hpte, he, hne⟩ := hf
  have hkg : k ≠ g := fun heq => h.isolated.proper (heq ▸ h.user)
  have hpte' : pte s g va = some e := by
    rw [h.isolated.pte_shared h.user hq, h.others k (.inl rfl) va (.inl hkg), hpte]
  have hrun := vmmVirtToPhysIn_eq (h.isolated.user g h.user).null va
  rw [hpte', Option.elim_some] at hrun
  have hphys : translation va e ≠ 0 := by
    intro h0
    have hsum := toNat_translation va e
    rw [h0, he] at hsum
    refine hne (BitVec.eq_of_toNat_eq ?_)
    simp at hsum ⊢
    omega
  refine ⟨s, (translation va e, 1), translation va e, ?_, h.trace, ?_, ?_⟩
  · rw [putBytes, Exec.bind_ok hrun, if_neg hphys]
    exact (stable_trace _).putBytes _ _ _ _ _ _ _ (List.suffix_refl _)
  · exact touches_self (by decide)
  · rw [← he]
    exact inPage_translation (n := 1) (by omega) (touches_self (by decide))

/-- No segment of the user half takes more frames than this. -/
def segmentFrames : Nat :=
  4 * (255 * 2 ^ 27)

/-- In every state with frames enough that has the kernel's `P` at the address,
the loader stores into that frame. -/
def StraysOver (P : Frame → Machine → Word → Frame → Prop) (q : Word) (M : Nat → Prop)
    (segs : List UserElfSegmentInfo) : Prop :=
  ∀ (image : Mem) (k : Frame) (users : Frame → Prop) (g : Frame) (s₀ s : Machine) (f : Frame),
    Loading k users g s₀ M s → P k s₀ q f → segmentFrames * segs.length + 2 ≤ s.pool.length →
    Strays f s₀ (loadSegments g image segs) s

theorem frames_le (hva : Mem.Aligned va) (htop : TopPages Private va n) :
    4 * n ≤ segmentFrames := by
  rcases Nat.eq_zero_or_pos n with rfl | hn
  · exact Nat.zero_le _
  · exact Nat.mul_le_mul_left 4 (user_rounds_below hva htop hn).2

variable {segs : List UserElfSegmentInfo}

theorem StraysOver.cons {P : Frame → Machine → Word → Frame → Prop} {q : Word}
    (hprobed : seg.Probed) (hwraps : ¬ seg.Wraps) (htop : TopPages Private seg.start seg.pages)
    (h : StraysOver P q (seg.mapped M) segs) : StraysOver P q M (seg :: segs) := by
  intro image k users g s₀ s f hload hf hpool
  have hframes := frames_le seg.aligned_start htop
  rw [List.length_cons, Nat.mul_succ] at hpool
  rcases loadSegment_cases image hprobed hwraps htop hload with
    ⟨s', hrun, hload', hlen⟩ | ⟨-, -, -, -, -, hlen⟩
  · obtain ⟨s'', w, y, hstray⟩ := h image k users g s₀ s' f hload' hf (by omega)
    refine ⟨s'', w, y, ?_⟩
    rw [loadSegments, hrun]
    exact hstray
  · omega

/-- The page loop comes to a page outside the user half: it links a table into
the kernel's. -/
theorem straysOver_round (hj : j < seg.pages) (hbefore : TopPages Private seg.start j)
    (hout : OutsideUser (roundAddr seg.start j)) :
    StraysOver KernelTable (roundAddr seg.start j) M (seg :: segs) := by
  intro image k users g s₀ s f hload hf hpool
  have hframes := frames_le seg.aligned_start hbefore
  rw [List.length_cons, Nat.mul_succ] at hpool
  obtain ⟨s₁, hrun, hload₁, hlen⟩ := (segmentPages_outcome hbefore hload).answers
    fun s' hb => by have := hb.2; omega
  have hend : seg.start.toNat + 4096 * j + 8192 ≤ 2 ^ 64 := by
    have hal := seg.aligned_start
    unfold Mem.Aligned at hal
    rw [UserElfSegmentInfo.pages, pageCount] at hj
    omega
  have hround : (roundAddr seg.start j).toNat = seg.start.toNat + 4096 * j :=
    toNat_round (by omega)
  have haligned : Mem.Aligned (roundAddr seg.start j) := by
    have := seg.aligned_start
    unfold Mem.Aligned at this ⊢
    omega
  refine Strays.orReturn_left ?_ fun hI => ?_
  · obtain ⟨s', w, y, htrace, hmore⟩ := ensurePages_strays hload₁.owner (vmmUser ||| vmmWrite) (-1)
      (-1) (seg.pages - j - 1) haligned (by omega) (fun hp => private_iff.mp hp hout) hf (by omega)
    refine ⟨s', w, y, ?_, hmore⟩
    have hsplit : seg.pages = j + (seg.pages - j - 1 + 1) := by omega
    have hsum := ensurePages_add j (seg.pages - j - 1 + 1) hrun
    rw [← hsplit] at hsum
    exact hsum ▸ htrace
  · exact Stable.orReturn (hI.putBytes _ _ _ _ _ _) <| Stable.orReturn (hI.putBytes _ _ _ _ _ _) <|
      Stable.orFail (hI.protectPages _ _ _ _) (stable_loadSegments hI _ _ _)

/-- The bytes come to a page outside the user half: they go to the kernel's
frame. -/
theorem straysOver_byte (hprobed : seg.Probed) (hwraps : seg.Wraps)
    (htop : TopPages Private seg.start seg.pages)
    (hbefore : ∀ i < j, Private (tableIndex (roundAddr seg.start i) 39) ∧
      seg.mapped M (pageOf (roundAddr seg.start i))) (hout : OutsideUser (roundAddr seg.start j)) :
    StraysOver KernelPage (seg.vaddr + BitVec.ofNat 64 (seg.bytesBefore j)) M (seg :: segs) := by
  intro image k users g s₀ s f hload hf hpool
  have hframes := frames_le seg.aligned_start htop
  rw [List.length_cons, Nat.mul_succ] at hpool
  obtain ⟨s₁, hrun₁, h₁, -⟩ := (segmentPages_outcome htop hload).answers
    fun s' hb => by have := hb.2; omega
  have hlt := UserElfSegmentInfo.bytesBefore_lt hwraps hprobed fun i hi => (hbefore i hi).1
  obtain ⟨s₂, hrun₂, h₂, -⟩ := putBytes_mapped (seg.bytesBefore j) h₁ (-1) (fun _ => 0) seg.vaddr 0
    fun _ => seg.bytes_mapped hbefore
  have hpage := seg.pageOf_bytesBefore j
  have hstray := putBytes_strays h₂.owner (-1) (fun _ => 0)
    (seg.memSize.toNat - seg.bytesBefore j - 1) (0 + BitVec.ofNat 64 (seg.bytesBefore j))
    (fun hp => private_iff.mp ((private_congr hpage).mp hp) hout) hf
  refine Strays.orReturn_right hrun₁ (Strays.orReturn_left ?_ fun hI => ?_)
  · obtain ⟨s', w, y, htrace, hmore⟩ := hstray
    refine ⟨s', w, y, ?_, hmore⟩
    have hsplit : seg.memSize.toNat =
        seg.bytesBefore j + (seg.memSize.toNat - seg.bytesBefore j - 1 + 1) := by omega
    have hsum := putBytes_add (by decide) (seg.bytesBefore j)
      (seg.memSize.toNat - seg.bytesBefore j - 1 + 1) hrun₂
    rw [← hsplit] at hsum
    exact hsum ▸ htrace
  · exact Stable.orReturn (hI.putBytes _ _ _ _ _ _) <|
      Stable.orFail (hI.protectPages _ _ _ _) (stable_loadSegments hI _ _ _)

theorem exists_outside (va : Word) (hva : Mem.Aligned va) : ∃ j, OutsideUser (roundAddr va j) := by
  by_contra hcon
  rw [not_exists] at hcon
  have := (user_rounds_below (n := 2 ^ 52) hva (topPages_of_user fun j _ => hcon j) (by decide)).2
  omega

/-- Segments that are not safe go astray, over a table or a page of the kernel
at some address outside the user half. -/
theorem exists_straysOver (segs : List UserElfSegmentInfo) {M : Nat → Prop}
    (hprobed : ∀ seg ∈ segs, seg.Probed) (hnotSafe : ¬ SafeSegments M segs) :
    ∃ q, OutsideUser q ∧ (StraysOver KernelTable q M segs ∨ StraysOver KernelPage q M segs) := by
  classical
  induction segs generalizing M with
  | nil => exact absurd trivial hnotSafe
  | cons seg segs ih =>
    have hseg := hprobed seg List.mem_cons_self
    by_cases hround : ∃ j, j < seg.pages ∧ OutsideUser (roundAddr seg.start j)
    · obtain ⟨hj, hout⟩ := Nat.find_spec hround
      refine ⟨_, hout, .inl (straysOver_round hj (topPages_of_user fun i hi hbad => ?_) hout)⟩
      exact Nat.find_min hround hi ⟨by omega, hbad⟩
    · have huser : ∀ j < seg.pages, ¬ OutsideUser (roundAddr seg.start j) := fun j hj hbad =>
        hround ⟨j, hj, hbad⟩
      have htop := topPages_of_user huser
      by_cases hwraps : seg.Wraps
      · -- the first page where the bytes leave the mapped pages of the user half
        have hleave : ∃ j, OutsideUser (roundAddr seg.start j) ∨
            ¬ seg.mapped M (pageOf (roundAddr seg.start j)) :=
          (exists_outside _ seg.aligned_start).imp fun _ => .inl
        have hbefore : ∀ i < Nat.find hleave, ¬ OutsideUser (roundAddr seg.start i) ∧
            seg.mapped M (pageOf (roundAddr seg.start i)) := fun i hi => by
          have hmin := Nat.find_min hleave hi
          rw [not_or, not_not] at hmin
          exact hmin
        by_cases hout : OutsideUser (roundAddr seg.start (Nat.find hleave))
        · refine ⟨_, ?_, .inr (straysOver_byte hseg hwraps htop
            (fun i hi => ⟨private_iff.mpr (hbefore i hi).1, (hbefore i hi).2⟩) hout)⟩
          by_contra hin
          exact private_iff.mp
            ((private_congr (seg.pageOf_bytesBefore _)).mp (private_iff.mpr hin)) hout
        · refine absurd ⟨huser, ?_⟩ hnotSafe
          rw [if_pos hwraps]
          exact ⟨_, hbefore, hout, (Nat.find_spec hleave).resolve_left hout⟩
      · obtain ⟨q, hq, hstray⟩ := ih (M := seg.mapped M)
          (fun seg' hs => hprobed seg' (List.mem_cons_of_mem _ hs)) fun hsafe => hnotSafe
            ⟨huser, by rw [if_neg hwraps]; exact hsafe⟩
        exact ⟨q, hq, hstray.imp (.cons hseg hwraps htop) (.cons hseg hwraps htop)⟩

end Load

/-! ## The iff -/

/-- What loading an image into a process must keep to: every byte it stores is
in a frame that was handed out during the call, or in the process's root; and
the kernel root and the other processes keep every translation, with its flags,
outside the user half. -/
def ElfConfined (image : Mem) (info : UserElfInfo) (k : Frame) (users : Frame → Prop) (g : Frame)
    (s : Machine) : Prop :=
  WritesOwn g s (loadUserImageIntoProcess g image info s).2 ∧
    ∀ r, r = k ∨ users r → r ≠ g → ∀ a, OutsideUser a →
      SameTranslation r s (loadUserImageIntoProcess g image info s).2 a

theorem loadUserImage_machine (g : Frame) (image : Mem) (info : UserElfInfo) (s : Machine) :
    (loadUserImageIntoProcess g image info s).2 = (loadSegments g image info.segments s).2 := by
  rw [loadUserImageIntoProcess]
  rcases hrun : loadSegments g image info.segments s with ⟨e | err, s'⟩
  · rw [Exec.bind_error hrun]
  · rw [Exec.bind_ok hrun]
    split <;> rfl

/-- All memory but those frames is then as it was. -/
theorem ElfConfined.mem_eq {k g : Frame} {users : Frame → Prop} {s : Machine} {y : Word}
    (h : ElfConfined image info k users g s)
    (hy : ∀ f, Own g s (loadUserImageIntoProcess g image info s).2 f → ¬ Mem.InPage f.val y) :
    (loadUserImageIntoProcess g image info s).2.mem y = s.mem y := by
  refine h.1.mem_eq ?_ hy
  rw [loadUserImage_machine]
  exact stable_loadSegments (stable_traced s) _ _ _ s (.refl s)

theorem loadUserImage_confined {k g : Frame} {users : Frame → Prop} {s : Machine}
    (hprobed : ∀ seg ∈ info.segments, seg.Probed)
    (hsafe : SafeSegments (fun _ => False) info.segments) (hfresh : FreshProcess k users g s) :
    ElfConfined image info k users g s := by
  have ho : Owner k users g s (loadSegments g image info.segments s).2 :=
    (loadSegments_outcome info.segments hprobed hfresh.loading hsafe).after
      fun _ ⟨_, h⟩ => h.owner
  rw [ElfConfined, loadUserImage_machine]
  refine ⟨ho.writes, fun r hr hne a _ => ?_⟩
  exact sameTranslation_of_pte (hfresh.loading.owner.isolated.good hr).null
    (ho.isolated.good hr).null (ho.others r hr a (.inl hne))

theorem Strays.not_writesOwn {f g : Frame} {s : Machine} {x : Kern Int} (h : Strays f s x s)
    (hforeign : ∀ f' : Frame, f' = g ∨ f'.val ∈ s.pool → f' ≠ f) : ¬ WritesOwn g s (x s).2 := by
  obtain ⟨s', w, y, htrace, hbefore, htouch, hpage⟩ := h
  refine Kernel.not_writesOwn htrace hbefore htouch fun f' hf' hpage' => hforeign f' hf' ?_
  exact Subtype.ext (Mem.InPage.unique f'.property f.property hpage' hpage)

/-- The frames of the machines in which unsafe segments go astray. -/
def manyFrames : Nat :=
  255 * 2 ^ 32 + 16

/-- There is a fresh process over a kernel with an empty table at the address,
and one over a kernel with a page there. -/
theorem exists_fresh {q : Word} (hq : OutsideUser q) {P : Frame → Machine → Word → Frame → Prop}
    (hP : P = KernelTable ∨ P = KernelPage) :
    ∃ k users g s f, FreshProcess k users g s ∧ P k s q f ∧
      (∀ f' : Frame, f' = g ∨ f'.val ∈ s.pool → f' ≠ f) ∧ manyFrames ≤ s.pool.length + 4 := by
  have hnp : ¬ Private (tableIndex q 39) := fun hp => private_iff.mp hp hq
  have hboot : Good bootRoot (bootMachine 4096 manyFrames) :=
    good_boot (by decide) (by decide) (by decide)
  have hsize := length_boot 4096 manyFrames
  have hmany : manyFrames = 255 * 2 ^ 32 + 16 := rfl
  rcases hP with rfl | rfl
  · obtain ⟨s₁, f, h₁, hwalk, hzero, hpool₁⟩ :=
      exists_kernelTable hboot (tableIndex q 39) (by rw [entries_boot]; rfl) (by
        intro hnil
        rw [hnil] at hsize
        simp [hmany] at hsize)
    have hlen₁ := congrArg List.length hpool₁
    rw [hsize, List.length_cons] at hlen₁
    obtain ⟨g, s, hfresh, hpool, -, hkernel⟩ := exists_freshProcess h₁ (by
      intro hnil
      simp [hnil, hmany] at hlen₁)
    have hlen := congrArg List.length hpool
    rw [List.length_cons] at hlen
    refine ⟨_, _, g, s, f, hfresh, ⟨?_, fun i => ?_⟩, fun f' hf' heq => ?_, by omega⟩
    · rw [tableWalk, OreOS.Lib.Radix.walk_cons, hkernel _ (tables_root s₁ bootRoot)]
      exact hwalk
    · rw [hkernel f ⟨_, by simp, hwalk⟩, hzero]
    · subst heq
      have hnodup := hboot.nodup
      rw [hpool₁, List.nodup_cons, hpool] at hnodup
      exact hnodup.1 (List.mem_cons.mpr (hf'.imp_left (congrArg Subtype.val)))
  · obtain ⟨s₁, e, h₁, hpte₁, he, hsuffix, hlen₁⟩ :=
      exists_kernelPage hboot q (by omega) (f := otherFrame.val) (by decide)
    obtain ⟨g, s, hfresh, hpool, hshared, -⟩ := exists_freshProcess h₁ (by
      intro hnil
      rw [hnil, hsize] at hlen₁
      simp [hmany] at hlen₁)
    have hlen := congrArg List.length hpool
    rw [List.length_cons] at hlen
    refine ⟨_, _, g, s, otherFrame, hfresh, ⟨e, ?_, he, by decide⟩, fun f' hf' heq => ?_, by omega⟩
    · rw [← hfresh.loading.owner.isolated.pte_shared hfresh.user hnp, hshared q hnp, hpte₁]
    · subst heq
      have hnot : otherFrame.val ∉ (bootMachine 4096 manyFrames).pool :=
        not_mem_boot (by decide) (by decide) (by decide) (by decide)
      refine hnot (hsuffix.subset ?_)
      rw [hpool]
      exact List.mem_cons.mpr (hf'.imp_left (congrArg Subtype.val))

/-- Unsafe segments go astray in some fresh process. -/
theorem exists_elf_unconfined (hprobed : ∀ seg ∈ info.segments, seg.Probed)
    (hlen : info.segments.length ≤ 8) (hnotSafe : ¬ SafeSegments (fun _ => False) info.segments) :
    ∃ k users g s, FreshProcess k users g s ∧ ¬ ElfConfined image info k users g s := by
  obtain ⟨q, hq, hstray⟩ := exists_straysOver info.segments hprobed hnotSafe
  obtain ⟨P, hP, hstray⟩ : ∃ P, (P = KernelTable ∨ P = KernelPage) ∧
      StraysOver P q (fun _ => False) info.segments := by
    rcases hstray with hstray | hstray
    · exact ⟨_, .inl rfl, hstray⟩
    · exact ⟨_, .inr rfl, hstray⟩
  obtain ⟨k, users, g, s, f, hfresh, hf, hforeign, hpool⟩ := exists_fresh hq hP
  refine ⟨k, users, g, s, hfresh, fun hconfined => ?_⟩
  have hframes : segmentFrames * info.segments.length + 2 ≤ s.pool.length := by
    unfold segmentFrames manyFrames at *
    omega
  have hbad := (hstray image k users g s s f hfresh.loading hf hframes).not_writesOwn hforeign
  rw [← loadUserImage_machine] at hbad
  exact hbad hconfined.1

/-- Loading an image that the probe accepts into a fresh process keeps to the
frames of the process and leaves the other roots alone outside the user half,
in every state of the system, exactly when its segments are safe. -/
theorem elfImage_confined_iff (image : Mem) (size : Word) :
    (∀ info, elfProbeUserImage image size = some info →
      ∀ k users g s, FreshProcess k users g s → ElfConfined image info k users g s) ↔
    ∀ info, elfProbeUserImage image size = some info →
      SafeSegments (fun _ => False) info.segments := by
  constructor
  · intro hconfined info hinfo
    obtain ⟨hprobed, hlen⟩ := elfProbe_probed hinfo
    by_contra hnotSafe
    obtain ⟨k, users, g, s, hfresh, hnot⟩ := exists_elf_unconfined hprobed hlen hnotSafe
    exact hnot (hconfined info hinfo k users g s hfresh)
  · intro hsafe info hinfo k users g s hfresh
    exact loadUserImage_confined (elfProbe_probed hinfo).1 (hsafe info hinfo) hfresh

/-- One loadable segment of one page at 1 MiB, without bytes in the file. -/
def lowElf : Mem := fun a =>
  ([0x7f, 0x45, 0x4c, 0x46, 2, 1] ++ List.replicate 10 0 ++ Mem.leBytes 2 etExec ++
    Mem.leBytes 2 emX8664 ++ List.replicate 12 0 ++ Mem.leBytes 8 (64 : Word) ++
    List.replicate 14 0 ++ Mem.leBytes 2 (56 : BitVec 16) ++ Mem.leBytes 2 (1 : BitVec 16) ++
    List.replicate 6 0 ++ Mem.leBytes 4 ptLoad ++ List.replicate 12 0 ++
    Mem.leBytes 8 (0x100000 : Word) ++ List.replicate 16 0 ++
    Mem.leBytes 8 (0x1000 : Word) ++ List.replicate 8 0).getD a.toNat 0

/-- The segment of `lowElf` is mapped in the kernel's half of the address
space. -/
theorem lowElf_unconfined :
    ∃ info k users g s, elfProbeUserImage lowElf 120 = some info ∧ FreshProcess k users g s ∧
      ¬ ElfConfined lowElf info k users g s := by
  have hinfo : elfProbeUserImage lowElf 120 =
      some ⟨0, 120, [⟨0x100000, 0, 0x1000, 0, 0⟩]⟩ := by
    decide +kernel
  obtain ⟨hprobed, hlen⟩ := elfProbe_probed hinfo
  have hnotSafe : ¬ SafeSegments (fun _ => False) [⟨0x100000, 0, 0x1000, 0, 0⟩] := fun hsafe =>
    hsafe.1 0 (by decide) (by decide)
  obtain ⟨k, users, g, s, hfresh, hnot⟩ := exists_elf_unconfined hprobed hlen hnotSafe
  exact ⟨_, k, users, g, s, hinfo, hfresh, hnot⟩

end OreOS.Kernel
