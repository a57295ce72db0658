import OreOS.Laws.Kernel.InitLoader
import OreOS.Laws.Kernel.OreImage
import OreOS.Laws.Kernel.Reads

/-!
# What an OreImage becomes

`load_ore_image_into_process` maps pages for text and data, fills them through their
physical addresses, protects them and adds a stack. Over the address space as the
process will see it these are operations of `OreOS.Lib.Space`, one after the other
(`oreSpace`); from that the flags and the bytes of every user page can be read off.

There is a page for data even if the image has none: the loader maps
`data_total ? data_total : 1` bytes.
-/

namespace OreOS.Kernel

open OreOS.Lib (Word Mem Exec Space)

/-- The address space of the process. -/
def oreSpace (image : Mem) : UserSpace :=
  let hdr := oreImageHeader image
  let v := (rounds userBase hdr.textPages).foldl
    (Space.protect (vmmUser ||| vmmPresent)) (oreLayout image)
  let v := (rounds hdr.dataBase hdr.dataPages).foldl (Space.protect stackFlags) v
  withStack v

section Load

variable {k g : Frame} {users : Frame → Prop} {s₀ s : Machine} {image : Mem} {len : Word}

/-- Frames that are enough for the image and the stack. -/
def oreFrames (hdr : OreImageHeader) : Nat :=
  4 * (hdr.textPages + hdr.dataPages + 8)

/-- The loader on an image without relocations. -/
theorem loadOreImage_shows (hacc : (oreImageHeader image).Accepted len)
    (hreloc : (oreImageHeader image).relocCount = 0) (h : Shows k users g s₀ emptySpace s) :
    (∃ s', loadOreImageIntoProcess g image len s =
        (.ok (.ok ⟨userBase + (oreImageHeader image).entry, stackTop - 16, 2⟩), s') ∧
      Shows k users g s₀ (oreSpace image) s') ∨
    (∀ r s', loadOreImageIntoProcess g image len s ≠ (.ok (.ok r), s')) ∧
      s.pool.length < oreFrames (oreImageHeader image) := by
  have hnone : oreImageRelocs image = [] := by
    rw [oreImageRelocs, hreloc]
    rfl
  have houtcome : Outcome (orReturn (oreImagePages g image)
      (orReturn (applyRelocs g (oreImageHeader image).dataBase (oreImageRelocs image))
        (oreImageFinish g (oreImageHeader image)))) s (Shows k users g s₀ (oreSpace image))
      fun _ => s.pool.length < oreFrames (oreImageHeader image) := by
    refine Outcome.orReturn ((oreImagePages_shows hacc h).mono (fun _ => id)
      fun _ hshort => by have := hshort.2; unfold oreFrames; omega) ?_
    rintro s' ⟨h', hlen⟩
    have hrelocs : applyRelocs g (oreImageHeader image).dataBase (oreImageRelocs image) s' =
        (.ok 0, s') := by
      rw [hnone]
      rfl
    rw [Outcome, orReturn_zero hrelocs]
    refine (oreImageFinish_shows hacc (fun p hp => ?_) h').mono (fun _ => id) fun _ hshort => ?_
    · exact (mapped_orePages hacc).mpr hp
    · have := hshort.2
      unfold oreFrames
      omega
  rw [loadOreImageIntoProcess, if_pos hacc]
  exact houtcome.loads _

end Load

/-! ## The process -/

/-- The user half of a process whose image is loaded. -/
structure OreImageLoaded (image : Mem) (g : Frame) (s : Machine) : Prop where
  text : ∀ i < (oreImageHeader image).textSize.toNat,
    mappedByte s g (userBase + BitVec.ofNat 64 i) =
      some (image ((oreImageHeader image).textOff + BitVec.ofNat 64 i))
  data : ∀ j < (oreImageHeader image).dataSize.toNat,
    mappedByte s g ((oreImageHeader image).dataBase + BitVec.ofNat 64 j) =
      some (image ((oreImageHeader image).dataOff + BitVec.ofNat 64 j))
  bss : ∀ j < (oreImageHeader image).bssSize.toNat,
    mappedByte s g ((oreImageHeader image).dataBase + (oreImageHeader image).dataSize +
      BitVec.ofNat 64 j) = some 0
  /-- The pages of the text: for the user, not writable. -/
  textPages : ∀ a : Word, userBase ≤ a → a < (oreImageHeader image).dataBase →
    mappedFlags s g a = some (vmmUser ||| vmmPresent)
  /-- The pages of data and bss, one if there is neither: for the user, writable, not
  executable. -/
  dataPages : ∀ a : Word, (oreImageHeader image).dataBase ≤ a →
    a < (oreImageHeader image).dataBase + alignUp (oreImageHeader image).dataSpan →
    mappedFlags s g a = some (vmmUser ||| vmmWrite ||| vmmNx ||| vmmPresent)
  stackPages : ∀ a : Word, stackTop - 8 * 4096 ≤ a → a < stackTop →
    mappedFlags s g a = some (vmmUser ||| vmmWrite ||| vmmNx ||| vmmPresent)
  /-- Nothing else. -/
  rest : ∀ a : Word, userBase ≤ a → a < userLimit →
    ¬ a < (oreImageHeader image).dataBase + alignUp (oreImageHeader image).dataSpan →
    ¬ (stackTop - 8 * 4096 ≤ a ∧ a < stackTop) → mappedFlags s g a = none

theorem OreImageHeader.Accepted.sizes_fit {hdr : OreImageHeader} {len : Word}
    (h : hdr.Accepted len) :
    hdr.textSize.toNat ≤ 4096 * hdr.textPages ∧
      hdr.dataSize.toNat + hdr.bssSize.toNat ≤ 4096 * hdr.dataPages := by
  have hdata : hdr.dataSize.toNat ≤ 2 ^ 18 := h.2.2.2.2.2.2.2.1
  have hbss : hdr.bssSize.toNat ≤ 2 ^ 18 := h.2.2.2.2.2.2.2.2.1
  have hsum : (hdr.dataSize + hdr.bssSize).toNat = hdr.dataSize.toNat + hdr.bssSize.toNat := by
    bv_omega
  have hspan : hdr.dataSize.toNat + hdr.bssSize.toNat ≤ hdr.dataSpan.toNat := by
    rw [OreImageHeader.dataSpan, ← hsum]
    split
    next => exact Nat.le_refl _
    next hzero =>
      rw [not_not.mp hzero]
      decide
  rw [OreImageHeader.textPages, OreImageHeader.dataPages]
  omega

section Loaded

variable {image : Mem} {len : Word} (hacc : (oreImageHeader image).Accepted len)
include hacc

theorem flags_oreSpace (p : Nat) :
    (oreSpace image).flags p =
      if p ∈ rounds stackBase 8 then some stackFlags
      else if p ∈ rounds (oreImageHeader image).dataBase (oreImageHeader image).dataPages then
        some stackFlags
      else if p ∈ rounds userBase (oreImageHeader image).textPages then
        some (vmmUser ||| vmmPresent)
      else none := by
  rw [oreSpace, withStack, Space.flags_maps, Space.flags_protects, Space.flags_protects]
  split
  next => rfl
  next =>
    split
    next => rfl
    next hdata =>
      split
      next => rfl
      next htext =>
        have hnot : ¬ (oreLayout image).Mapped p := by
          intro hp
          have hp' := (mapped_orePages hacc).mp (show (orePages (oreImageHeader image)).Mapped p
            from hp)
          rw [mem_rounds, hacc.roundPages_data] at hdata
          rw [mem_rounds, hacc.roundPages_text] at htext
          unfold OreImageHeader.ImagePage at hp'
          omega
        rwa [Space.Mapped, Bool.not_eq_true, Option.isSome_eq_false_iff, Option.isNone_iff_eq_none]
          at hnot

omit hacc in
theorem bytes_oreSpace {x : Nat} (hx : pageAt x ∉ rounds stackBase 8) :
    (oreSpace image).bytes x =
      (block (spot (oreImageHeader image).dataBase) (oreImageHeader image).dataSize.toNat
        (fun i => image ((oreImageHeader image).dataOff + BitVec.ofNat 64 i)) x).getD
      ((block (spot userBase) (oreImageHeader image).textSize.toNat
        (fun i => image ((oreImageHeader image).textOff + BitVec.ofNat 64 i)) x).getD 0) := by
  rw [oreSpace, withStack, Space.bytes_maps _ hx, Space.bytes_protects, Space.bytes_protects,
    oreLayout, Space.bytes_put, Space.bytes_put, orePages, Space.bytes_ensures_blank]
  exact Space.bytes_ensures_blank _ fun _ => rfl

omit hacc in
theorem mem_stackPages {p : Nat} : p ∈ rounds stackBase 8 ↔ 0x8fffff8 ≤ p ∧ p < 0x9000000 := by
  have hbase : stackBase.toNat = 0x8fffff8000 := by decide
  rw [mem_rounds, roundPages_iff (by omega), hbase]

theorem page_facts {a : Word} (hlow : userBase ≤ a) (hhigh : a < userLimit) :
    Private (tableIndex a 39) ∧ pageOf a = a.toNat / 4096 ∧
      (pageOf a ∈ rounds userBase (oreImageHeader image).textPages ↔
        a < (oreImageHeader image).dataBase) ∧
      (pageOf a ∈ rounds (oreImageHeader image).dataBase (oreImageHeader image).dataPages ↔
        (oreImageHeader image).dataBase ≤ a ∧
          a < (oreImageHeader image).dataBase + alignUp (oreImageHeader image).dataSpan) ∧
      (pageOf a ∈ rounds stackBase 8 ↔ stackTop - 8 * 4096 ≤ a ∧ a < stackTop) := by
  have hlow' : 2 ^ 39 ≤ a.toNat := hlow
  have hhigh' : a.toNat < 2 ^ 47 := hhigh
  have hbase := hacc.toNat_dataBase
  have hend := hacc.imageEnd
  have hpage : pageOf a = a.toNat / 4096 := by
    rw [pageOf]
    omega
  refine ⟨?_, hpage, ?_, ?_, ?_⟩
  · rw [Private, tableIndex_val]
    omega
  · rw [mem_rounds, hacc.roundPages_text, hpage, BitVec.lt_def, hbase]
    omega
  · rw [mem_rounds, hacc.roundPages_data, hpage, BitVec.lt_def, BitVec.le_def, hend,
      hbase]
    omega
  · have hbottom : (stackTop - 8 * 4096).toNat = 0x8fffff8000 := by decide
    have htop : stackTop.toNat = 0x9000000000 := by decide
    rw [mem_stackPages, hpage, BitVec.lt_def, BitVec.le_def, hbottom, htop]
    omega

theorem oreImageLoaded_of_shows {k g : Frame} {users : Frame → Prop} {s₀ s : Machine}
    (h : Shows k users g s₀ (oreSpace image) s) : OreImageLoaded image g s := by
  have htext := hacc.textPages_le
  have hdata := hacc.dataPages_le
  have hbase := hacc.toNat_dataBase
  have hend := hacc.imageEnd
  have hlow : userBase.toNat = 2 ^ 39 := rfl
  have hlimit : userLimit.toNat = 2 ^ 47 := rfl
  have hbottom : (stackTop - 8 * 4096).toNat = 0x8fffff8000 := by decide
  have htop : stackTop.toNat = 0x9000000000 := by decide
  have hflags : ∀ {a : Word}, userBase ≤ a → a < userLimit →
      mappedFlags s g a = (oreSpace image).flags (pageOf a) := fun ha ha' =>
    h.mappedFlags_eq (page_facts hacc ha ha').1
  -- a byte of text, data or bss
  have hbyte : ∀ {a : Word}, userBase.toNat ≤ a.toNat →
      a.toNat < ((oreImageHeader image).dataBase + alignUp (oreImageHeader image).dataSpan).toNat →
      mappedByte s g a =
        some ((block (spot (oreImageHeader image).dataBase) (oreImageHeader image).dataSize.toNat
          (fun i => image ((oreImageHeader image).dataOff + BitVec.ofNat 64 i)) a.toNat).getD
        ((block (spot userBase) (oreImageHeader image).textSize.toNat
          (fun i => image ((oreImageHeader image).textOff + BitVec.ofNat 64 i)) a.toNat).getD 0)) := by
    intro a ha ha'
    obtain ⟨hp, hpage, hint, hind, hins⟩ :=
      page_facts hacc (a := a) ha (show a.toNat < userLimit.toNat by omega)
    have hnot : ¬ pageOf a ∈ rounds stackBase 8 := by
      rw [hins, BitVec.le_def, BitVec.lt_def]
      omega
    have hspot : spot a = a.toNat := by
      rw [spot]
      omega
    have hmapped : (oreSpace image).Mapped (pageOf a) := by
      rw [Space.Mapped, flags_oreSpace hacc, if_neg hnot]
      by_cases hdb : a < (oreImageHeader image).dataBase
      · rw [if_neg fun hd => absurd (hind.mp hd).1 (BitVec.not_le.mpr hdb), if_pos (hint.mpr hdb)]
        rfl
      · rw [if_pos (hind.mpr ⟨BitVec.not_lt.mp hdb, ha'⟩)]
        rfl
    rw [h.mappedByte_eq hp, if_pos hmapped, hspot, bytes_oreSpace]
    rwa [← hspot, pageAt_spot]
  have hspotText : spot userBase = 2 ^ 39 := by decide
  have hspotData : spot (oreImageHeader image).dataBase =
      (oreImageHeader image).dataBase.toNat := by
    rw [spot]
    omega
  obtain ⟨htextFits, hdataFits⟩ := hacc.sizes_fit
  refine ⟨?_, ?_, ?_, ?_, ?_, ?_, ?_⟩
  · intro i hi
    have hsum : (userBase + BitVec.ofNat 64 i).toNat = 2 ^ 39 + i := by bv_omega
    have hoff : 2 ^ 39 + i - spot userBase = i := by omega
    rw [hbyte (by omega) (by omega), hsum, block, if_neg (by omega), block, if_pos (by omega), hoff]
    rfl
  · intro j hj
    have hsum : ((oreImageHeader image).dataBase + BitVec.ofNat 64 j).toNat =
        (oreImageHeader image).dataBase.toNat + j := by bv_omega
    have hoff : (oreImageHeader image).dataBase.toNat + j - spot (oreImageHeader image).dataBase =
        j := by omega
    rw [hbyte (by omega) (by omega), hsum, block, if_pos (by omega), hoff]
    rfl
  · intro j hj
    have hsum : ((oreImageHeader image).dataBase + (oreImageHeader image).dataSize +
        BitVec.ofNat 64 j).toNat = (oreImageHeader image).dataBase.toNat +
          (oreImageHeader image).dataSize.toNat + j := by bv_omega
    rw [hbyte (by omega) (by omega), hsum, block, if_neg (by omega), block, if_neg (by omega)]
    rfl
  · intro a ha ha'
    have hlt : a.toNat < (oreImageHeader image).dataBase.toNat := ha'
    have ha'' : a < userLimit := show a.toNat < userLimit.toNat by omega
    obtain ⟨-, -, hint, hind, hins⟩ := page_facts hacc ha ha''
    rw [hflags ha ha'', flags_oreSpace hacc, if_neg, if_neg, if_pos (hint.mpr ha')]
    · exact fun hd => absurd (hind.mp hd).1 (BitVec.not_le.mpr ha')
    · rw [hins, BitVec.le_def]
      omega
  · intro a ha ha'
    have hge : (oreImageHeader image).dataBase.toNat ≤ a.toNat := ha
    have hlt : a.toNat <
        ((oreImageHeader image).dataBase + alignUp (oreImageHeader image).dataSpan).toNat := ha'
    have ha₀ : userBase ≤ a := show userBase.toNat ≤ a.toNat by omega
    have ha₁ : a < userLimit := show a.toNat < userLimit.toNat by omega
    obtain ⟨-, -, -, hind, hins⟩ := page_facts hacc ha₀ ha₁
    rw [hflags ha₀ ha₁, flags_oreSpace hacc, if_neg, if_pos (hind.mpr ⟨ha, ha'⟩)]
    · rfl
    · rw [hins, BitVec.le_def]
      omega
  · intro a ha ha'
    have hge : (stackTop - 8 * 4096).toNat ≤ a.toNat := ha
    have hlt : a.toNat < stackTop.toNat := ha'
    have ha₀ : userBase ≤ a := show userBase.toNat ≤ a.toNat by omega
    have ha₁ : a < userLimit := show a.toNat < userLimit.toNat by omega
    obtain ⟨-, -, -, -, hins⟩ := page_facts hacc ha₀ ha₁
    rw [hflags ha₀ ha₁, flags_oreSpace hacc, if_pos (hins.mpr ⟨ha, ha'⟩)]
    rfl
  · intro a ha ha' hout hstack
    obtain ⟨-, -, hint, hind, hins⟩ := page_facts hacc ha ha'
    have hge : ((oreImageHeader image).dataBase + alignUp (oreImageHeader image).dataSpan).toNat ≤
        a.toNat := Nat.le_of_not_lt hout
    rw [hflags ha ha', flags_oreSpace hacc, if_neg (mt hins.mp hstack),
      if_neg fun hd => hout (hind.mp hd).2, if_neg]
    rw [hint, BitVec.lt_def]
    omega

end Loaded

/-! ## Reads -/

/-- Relocations, text and data, one after the other, end inside the image. -/
theorem OreImageHeader.Accepted.offsets {hdr : OreImageHeader} {len : Word}
    (h : hdr.Accepted len) :
    (hdr.headerSize.setWidth 64).toNat + 24 * hdr.relocCount.toNat = hdr.textOff.toNat ∧
      hdr.textOff.toNat + hdr.textSize.toNat = hdr.dataOff.toNat ∧
      hdr.dataOff.toNat + hdr.dataSize.toNat ≤ len.toNat := by
  obtain ⟨-, -, -, -, hheader, -, htext, hdata, -, hrelocs, -, -, hend, -⟩ := h
  have hrelocs' : hdr.relocCount.toNat ≤ 256 := hrelocs
  have htext' : hdr.textSize.toNat ≤ 2 ^ 18 := htext
  have hdata' : hdr.dataSize.toNat ≤ 2 ^ 18 := hdata
  have hend' : (hdr.dataOff + hdr.dataSize).toNat ≤ len.toNat := hend
  have h24 : (24 : Word).toNat = 24 := rfl
  have hwidth : (hdr.headerSize.setWidth 64).toNat = hdr.headerSize.toNat := by bv_omega
  have htextOff : hdr.textOff.toNat = hdr.headerSize.toNat + hdr.relocCount.toNat * 24 := by
    rw [OreImageHeader.textOff, BitVec.toNat_add, BitVec.toNat_mul, hwidth, h24]
    omega
  have hdataOff : hdr.dataOff.toNat = hdr.textOff.toNat + hdr.textSize.toNat := by
    rw [OreImageHeader.dataOff, BitVec.toNat_add]
    omega
  rw [BitVec.toNat_add] at hend'
  omega

namespace LookKern

variable {α β : Type}

section Safe

variable {len : Word}

/-- What was read is inside the image. -/
def Within (len : Word) (c : Looking) : Prop :=
  Reads.Safe len c.reads

theorem keeps_lift (x : Kern α) : Exec.Keeps (Within len) (lift x) :=
  fun _ hc => hc

theorem keeps_look {off : Word} {n : Nat} (h : InImage len off n) :
    Exec.Keeps (Within len) (look off n) :=
  fun _ hc => List.forall_mem_cons.mpr ⟨h, hc⟩

theorem keeps_orReturn {x rest : LookKern Int} (hx : Exec.Keeps (Within len) x)
    (hrest : Exec.Keeps (Within len) rest) : Exec.Keeps (Within len) (orReturn x rest) :=
  .bind hx fun err => .ite (fun _ => .pure err) fun _ => hrest

theorem keeps_putBytes (root : Word) (refused : Int) (src : Mem) {n : Nat} {va off : Word}
    (h : ∀ i < n, InImage len (off + BitVec.ofNat 64 i) 1) :
    Exec.Keeps (Within len) (putBytes root refused src n va off) := by
  induction n generalizing va off with
  | zero => exact .pure 0
  | succ n ih =>
    have hfirst := h 0 (Nat.succ_pos n)
    rw [BitVec.add_zero] at hfirst
    refine .bind (keeps_lift _) fun phys => .ite (fun _ => .pure refused) fun _ => ?_
    refine .bind (keeps_look hfirst) fun _ => .bind (keeps_lift _) fun _ => ih fun i hi => ?_
    have hnext := h (i + 1) (Nat.succ_lt_succ hi)
    rwa [Nat.add_comm i 1, BitVec.ofNat_add, ← BitVec.add_assoc] at hnext

theorem keeps_applyRelocs (root dataBase : Word) {rs : List OreImageReloc} {off : Word}
    (h : ∀ i < rs.length, InImage len (off + BitVec.ofNat 64 (24 * i)) 24) :
    Exec.Keeps (Within len) (applyRelocs root dataBase off rs) := by
  induction rs generalizing off with
  | nil => exact .pure 0
  | cons r rs ih =>
    have hfirst := h 0 (Nat.succ_pos _)
    rw [Nat.mul_zero, BitVec.add_zero] at hfirst
    refine .bind (keeps_look hfirst) fun _ => keeps_orReturn (keeps_lift _) (ih fun i hi => ?_)
    have hnext := h (i + 1) (Nat.succ_lt_succ hi)
    rwa [Nat.mul_add, Nat.add_comm (24 * i), BitVec.ofNat_add, ← BitVec.add_assoc] at hnext

/-- The loader reads inside the image. -/
theorem keeps_loadOreImage (root : Word) (image : Mem) (len : Word) :
    Exec.Keeps (Within len) (loadOreImageIntoProcess root image len) := by
  refine .ite (fun _ => .pure _) fun hlen => ?_
  have h56 : 56 ≤ len.toNat := Nat.le_of_not_lt hlen
  refine .bind (keeps_look ((inImage_iff (by decide)).mpr ?_)) fun _ => .ite (fun hacc => ?_)
    fun _ => .pure _
  · have hzero : (0 : Word).toNat = 0 := rfl
    omega
  obtain ⟨hrelocs, htext, hdata⟩ := hacc.offsets
  have hinside : ∀ {off : Word} {i n : Nat}, 0 < n → off.toNat + i + n ≤ len.toNat →
      InImage len (off + BitVec.ofNat 64 i) n := by
    intro off i n hn hend
    rw [inImage_iff hn, BitVec.toNat_add, BitVec.toNat_ofNat]
    omega
  refine .bind (keeps_orReturn ?_ (keeps_orReturn ?_ (keeps_lift _))) fun err =>
    .ite (fun _ => .pure _) fun _ => .pure _
  · refine keeps_orReturn (keeps_lift _) (keeps_orReturn (keeps_lift _) (keeps_orReturn ?_ ?_))
    · exact keeps_putBytes _ _ _ fun i hi => hinside Nat.one_pos (by omega)
    · exact .ite (fun _ => keeps_putBytes _ _ _ fun i hi => hinside Nat.one_pos (by omega))
        fun _ => .pure 0
  · refine keeps_applyRelocs _ _ fun i hi => hinside (by decide) ?_
    rw [oreImageRelocs, List.length_map, List.length_range] at hi
    omega

end Safe

end LookKern

/-! ## The whole -/

/-- One byte of text, no data and no bss. -/
def plainImage : Mem := fun a =>
  (Mem.leBytes 8 oreImageMagic ++ Mem.leBytes 4 oreImageVersion ++ Mem.leBytes 4 (56 : BitVec 32) ++
    Mem.leBytes 8 (0 : Word) ++ Mem.leBytes 8 (1 : Word) ++ Mem.leBytes 8 (0 : Word) ++
    Mem.leBytes 8 (0 : Word) ++ Mem.leBytes 8 (0 : Word) ++ [0xc3]).getD a.toNat 0

theorem header_plainImage :
    oreImageHeader plainImage = ⟨oreImageMagic, oreImageVersion, 56, 0, 1, 0, 0, 0⟩ := by
  decide +kernel

/-- There is a fresh process, with frames enough, in which `plainImage` is loaded. -/
theorem exists_plainImage :
    ∃ k users g s s', FreshProcess k users g s ∧
      loadOreImageIntoProcess g plainImage 57 s = (.ok (.ok ⟨userBase, stackTop - 16, 2⟩), s') ∧
      Shows k users g s (oreSpace plainImage) s' := by
  have hboot : Good bootRoot (bootMachine 4096 64) := good_boot (by decide) (by decide) (by decide)
  obtain ⟨g, s, hfresh, hpool, -, -⟩ := exists_freshProcess hboot (by decide)
  have hlen := congrArg List.length hpool
  rw [length_boot, List.length_cons] at hlen
  have hacc : (oreImageHeader plainImage).Accepted 57 := by
    rw [header_plainImage]
    decide
  have hreloc : (oreImageHeader plainImage).relocCount = 0 := by rw [header_plainImage]
  have hframes : oreFrames (oreImageHeader plainImage) = 40 := by
    rw [header_plainImage]
    decide
  rcases loadOreImage_shows hacc hreloc hfresh.shows with ⟨s', hrun, h'⟩ | ⟨-, hshort⟩
  · exact ⟨_, _, g, s, s', hfresh, hrun, h'⟩
  · omega

/-- An image without relocations, in a fresh process: the loader reads inside the
image, and if it returns 0 the process has the text and data of the image, zeros for
bss, a stack, and nothing else, with an entry point in the text. -/
theorem loadOreImage_loads {image : Mem} {len : Word} {k g : Frame} {users : Frame → Prop}
    {s : Machine} (hfresh : FreshProcess k users g s)
    (hreloc : (oreImageHeader image).relocCount = 0) :
    (∀ r ∈ oreImageReads g image len s, InImage len r.1 r.2) ∧
    ∀ loaded s', loadOreImageIntoProcess g image len s = (.ok (.ok loaded), s') →
      OreImageLoaded image g s' ∧ userBase ≤ loaded.entry ∧
        loaded.entry.toNat < userBase.toNat + (oreImageHeader image).textSize.toNat := by
  refine ⟨LookKern.keeps_loadOreImage g image len _ (List.forall_mem_nil _), fun loaded s' hrun => ?_⟩
  by_cases hacc : (oreImageHeader image).Accepted len
  · rcases loadOreImage_shows hacc hreloc hfresh.shows with ⟨s₁, hrun₁, h₁⟩ | ⟨hnot, -⟩
    · cases hrun.symm.trans hrun₁
      refine ⟨oreImageLoaded_of_shows hacc h₁, ?_⟩
      have htext : (oreImageHeader image).textSize.toNat ≤ 2 ^ 18 := hacc.2.2.2.2.2.2.1
      have hentry : (oreImageHeader image).entry.toNat < (oreImageHeader image).textSize.toNat :=
        hacc.2.2.2.2.2.2.2.2.2.2.2.2.2
      have hbase : userBase.toNat = 2 ^ 39 := rfl
      have hsum : (userBase + (oreImageHeader image).entry).toNat =
          userBase.toNat + (oreImageHeader image).entry.toNat := by bv_omega
      exact ⟨BitVec.le_def.mpr (by rw [hsum]; omega), by rw [hsum]; omega⟩
    · exact absurd hrun (hnot loaded s')
  · rw [loadOreImageIntoProcess, if_neg hacc] at hrun
    cases hrun

theorem loadOreImage_loads_plainImage :
    ∃ k users g s s', FreshProcess k users g s ∧
      loadOreImageIntoProcess g plainImage 57 s = (.ok (.ok ⟨userBase, stackTop - 16, 2⟩), s') ∧
      OreImageLoaded plainImage g s' := by
  obtain ⟨k, users, g, s, s', hfresh, hrun, -⟩ := exists_plainImage
  have hreloc : (oreImageHeader plainImage).relocCount = 0 := by rw [header_plainImage]
  exact ⟨k, users, g, s, s', hfresh, hrun, ((loadOreImage_loads hfresh hreloc).2 _ s' hrun).1⟩

/-- The image has no data and no bss, and yet the page behind its text is mapped. -/
theorem plainImage_data_page :
    (oreImageHeader plainImage).relocCount = 0 ∧ (oreImageHeader plainImage).textSize = 1 ∧
    (oreImageHeader plainImage).dataSize = 0 ∧ (oreImageHeader plainImage).bssSize = 0 ∧
    ∃ k users g s s' loaded, FreshProcess k users g s ∧
      loadOreImageIntoProcess g plainImage 57 s = (.ok (.ok loaded), s') ∧
      mappedFlags s' g (userBase + 4096) = some (vmmUser ||| vmmWrite ||| vmmNx ||| vmmPresent) := by
  rw [header_plainImage]
  refine ⟨rfl, rfl, rfl, rfl, ?_⟩
  obtain ⟨k, users, g, s, s', hfresh, hrun, hshows⟩ := exists_plainImage
  have hacc : (oreImageHeader plainImage).Accepted 57 := by
    rw [header_plainImage]
    decide
  have hloaded := (oreImageLoaded_of_shows hacc hshows).dataPages (userBase + 4096)
  rw [header_plainImage] at hloaded
  exact ⟨k, users, g, s, s', _, hfresh, hrun, hloaded (by decide) (by decide)⟩

end OreOS.Kernel
