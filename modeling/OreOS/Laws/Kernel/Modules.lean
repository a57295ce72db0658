import OreOS.Laws.Kernel.Okmod

/-!
# What the module table says

A load that fails leaves its slot filled, but nothing looks at a slot that is
not below `loaded_modules`: the entries below have all been through a successful
load (`loaded_modules_sound`). The checks before the copies are enough exactly
if the sums do not wrap (`module_inside_iff`). The two protections suit the
module exactly if its text ends with a page (`module_protected_iff`).
-/

namespace OreOS.Kernel

open OreOS.Lib (Word Byte Exec Run)

/-! ## Entries -/

/-- The entry of a module that has been loaded, with its command. -/
structure LoadedModule (info : OreModuleInfo) (command : Word) : Prop where
  state : info.state = 3
  initRc : 0 ≤ info.initRc.toInt
  command : info.hasCommand = true → info.textBase.toNat ≤ command.toNat ∧
    command.toNat < info.textBase.toNat + info.textSize.toNat

def OkState.AllLoaded (s : OkState) : Prop :=
  ∀ i < s.loadedModules, LoadedModule (s.moduleTable i) (s.moduleCommands i)

section Table

variable {s s' : OkState} {services : Services} {kernelPml4 : Word} {path : List Byte}

theorem SameBelow.allLoaded (h : SameBelow s s') (hs : s.AllLoaded) : s'.AllLoaded := by
  intro i hi
  rw [h.count] at hi
  rw [h.table i hi, h.commands]
  exact hs i hi

theorem loadToInit_ok {res : Option (Word × OreKModHeader)}
    (hrun : loadToInit services kernelPml4 path s = (.ok res, s')) :
    SameBelow s s' ∧ ∀ mem hdr, res = some (mem, hdr) →
      mem.toNat + hdr.textSize.toNat ≤ 2 ^ 47 ∧
        (s'.moduleTable s'.loadedModules).hasCommand = false := by
  obtain ⟨_, _, hget, hrun⟩ := Exec.bind_eq_ok hrun
  cases hget
  split at hrun
  next =>
    cases hrun
    exact ⟨⟨rfl, rfl, fun _ _ => rfl⟩, nofun⟩
  cases hread : readModule services path with
  | none =>
    rw [hread] at hrun
    cases hrun
    exact ⟨⟨rfl, rfl, fun _ _ => rfl⟩, nofun⟩
  | some read =>
    rw [hread] at hrun
    obtain ⟨_, s₁, hslot, hrun⟩ := Exec.bind_eq_ok hrun
    obtain ⟨rfl, hsame⟩ := updateSlot_ok hslot
    split at hrun
    next =>
      obtain ⟨found, s₂, hprepare, hrun⟩ := Exec.bind_eq_ok hrun
      cases hrun
      obtain ⟨-, hsame', hfound⟩ := prepareModule_ok hprepare
      refine ⟨hsame.trans hsame', fun mem hdr hres => ?_⟩
      obtain ⟨mem', rfl, hpair⟩ := Option.map_eq_some_iff.mp hres
      cases hpair
      obtain ⟨hlow, p, rfl⟩ := hfound mem rfl
      refine ⟨hlow, ?_⟩
      dsimp only
      rw [Function.update_self]
      rfl
    next =>
      obtain ⟨_, s₂, hreject, hrun⟩ := Exec.bind_eq_ok hrun
      cases hrun
      exact ⟨hsame.trans (updateSlot_ok hreject).2, nofun⟩

theorem hasCommandEntry_iff {hdr : OreKModHeader} (h : hasCommandEntry hdr = true) :
    hdr.commandEntry < hdr.textSize := by
  unfold hasCommandEntry at h
  rw [Bool.and_eq_true] at h
  exact of_decide_eq_true h.2

theorem okmodLoadOne_allLoaded {rc : BitVec 32} {res : Int} (hs : s.AllLoaded)
    (hrun : okmodLoadOne services kernelPml4 path rc s = (.ok res, s')) : s'.AllLoaded := by
  obtain ⟨found, s₁, hload, hrun⟩ := Exec.bind_eq_ok hrun
  obtain ⟨hsame, hfound⟩ := loadToInit_ok hload
  have hs₁ := hsame.allLoaded hs
  cases found with
  | none =>
    cases hrun
    exact hs₁
  | some found =>
    obtain ⟨mem, hdr⟩ := found
    obtain ⟨hlow, hfresh⟩ := hfound mem hdr rfl
    obtain ⟨t, hrecord, -, hcount, hothers, hslot, hcommand⟩ := recordInit_apply mem hdr rc s₁
    obtain ⟨res', t', hfinish, -, hcommands', hcount', hothers', hslot'⟩ :=
      finishModule_apply mem hdr rc t
    dsimp only at hrun
    rw [Exec.bind_ok hrecord, hfinish] at hrun
    cases hrun
    have hbelow : ∀ i < s₁.loadedModules, LoadedModule (s'.moduleTable i) (s'.moduleCommands i) := by
      intro i hi
      obtain ⟨htable, hcmd⟩ := hothers i hi.ne
      rw [hothers' i (by omega), htable, hcommands', hcmd]
      exact hs₁ i hi
    intro i hi
    rw [hcount', hcount] at hi
    split at hi
    next => exact hbelow i hi
    next hrc =>
      rcases Nat.lt_succ_iff_lt_or_eq.mp hi with hlt | rfl
      · exact hbelow i hlt
      rw [← hcount, hslot', hcommands', hcount, hslot, if_neg hrc]
      refine ⟨rfl, Int.not_lt.mp hrc, fun hhas => ?_⟩
      dsimp only at hhas ⊢
      rw [hfresh, Bool.false_or] at hhas
      have hentry := hasCommandEntry_iff hhas
      rw [hcommand hhas, BitVec.toNat_add]
      have hlt : hdr.commandEntry.toNat < hdr.textSize.toNat := hentry
      omega

/-- `okmod_run_command` only takes entries of the table that carry the name. -/
theorem okmodRunCommand_some {name : List Byte} {command : Word}
    (h : okmodRunCommand s name = some command) :
    ∃ i < s.loadedModules, (s.moduleTable i).hasCommand = true ∧ (s.moduleTable i).name = name ∧
      s.moduleCommands i = command := by
  unfold okmodRunCommand at h
  split at h
  next => cases h
  next =>
    obtain ⟨i, hfind, hi⟩ := Option.map_eq_some_iff.mp h
    have hmem := List.mem_range.mp (List.mem_of_find?_eq_some hfind)
    have hsome := List.find?_some hfind
    rw [Bool.and_eq_true, Bool.and_eq_true, decide_eq_true_iff] at hsome
    exact ⟨i, hmem, hsome.1.1, hsome.1.2, hi⟩

end Table

theorem allLoaded_step {s t : OkSystem} {call : OkCall} (h : s.ok.AllLoaded)
    (hstep : s.step call = some t) : t.ok.AllLoaded := by
  cases call with
  | load services path rc =>
    unfold OkSystem.step at hstep
    dsimp only at hstep
    split at hstep
    next res ok hrun =>
      cases hstep
      exact okmodLoadOne_allLoaded h hrun
    next => cases hstep
  | alloc count =>
    unfold OkSystem.step at hstep
    dsimp only at hstep
    split at hstep
    next =>
      cases hstep
      exact h
    next =>
      cases hstep
      exact h
  | free ptr count =>
    cases hstep
    exact h

/-- After any loads, of whatever files and with whatever answers of their `init`,
the entries below `loaded_modules` are those of loaded modules, and a command that
is run is in the text of one with the name asked for. -/
theorem loaded_modules_sound {kernelPml4 : Word} {phys : Phys} {s : OkSystem}
    (hrun : Run OkSystem.step (fun _ _ => True)
      { kernelPml4 := kernelPml4, ok := { phys := phys } } s) :
    (∀ i < s.ok.loadedModules, LoadedModule (s.ok.moduleTable i) (s.ok.moduleCommands i)) ∧
      ∀ name command, okmodRunCommand s.ok name = some command →
        ∃ i < s.ok.loadedModules, (s.ok.moduleTable i).name = name ∧
          (s.ok.moduleTable i).state = 3 ∧
          (s.ok.moduleTable i).textBase.toNat ≤ command.toNat ∧
          command.toNat < (s.ok.moduleTable i).textBase.toNat + (s.ok.moduleTable i).textSize.toNat := by
  have hall : s.ok.AllLoaded := hrun.invariant
    (P := fun s => s.ok.AllLoaded) (fun i hi => absurd hi (Nat.not_lt_zero i))
    fun _ _ _ h _ hstep => allLoaded_step h hstep
  refine ⟨hall, fun name command hcommand => ?_⟩
  obtain ⟨i, hi, hhas, hname, rfl⟩ := okmodRunCommand_some hcommand
  have hloaded := hall i hi
  exact ⟨i, hi, hname, hloaded.state, hloaded.command hhas⟩

theorem loaded_modules_sound_pageModule :
    ∃ kernel s₁ t, smallPhys.run
        (vmmInit headlessBoot smallPhys.pmm.totalPageCount 0xfee00000) = (.ok kernel, s₁) ∧
      OkSystem.step { kernelPml4 := kernel, ok := { phys := s₁ } } (.load pageModule [] 0) = some t ∧
      ∀ i < t.ok.loadedModules, LoadedModule (t.ok.moduleTable i) (t.ok.moduleCommands i) := by
  obtain ⟨kernel, s₁, hinit, hleft⟩ := small_vmmInit headlessBoot (by decide)
  obtain ⟨hk, hstart⟩ := okInv_start (by decide) hinit
  obtain ⟨t, hstep⟩ := pageModule_step 0 [] hstart hleft
  exact ⟨kernel, s₁, t, hinit, hstep, (loaded_modules_sound (.snoc .refl trivial hstep)).1⟩

/-! ## Sizes -/

namespace OreKModHeader

variable {hdr : OreKModHeader} {size : Word}

/-- Over the integers, text and data are in the file and the module is in its
pages. -/
def LaidOut (hdr : OreKModHeader) (size : Word) : Prop :=
  hdr.headerSize.toNat + hdr.textSize.toNat + hdr.dataSize.toNat ≤ size.toNat ∧
    hdr.textSize.toNat + hdr.dataSize.toNat + hdr.bssSize.toNat ≤ hdr.pages.toNat * 4096

/-- The two copies read from the file, and they and the clearing of the bss write
to the pages; the offsets are those that the code computes. -/
def CopiesInside (hdr : OreKModHeader) (size : Word) : Prop :=
  (hdr.textOff.toNat + hdr.textSize.toNat ≤ size.toNat ∧
    hdr.dataOff.toNat + hdr.dataSize.toNat ≤ size.toNat) ∧
  hdr.textSize.toNat ≤ hdr.pages.toNat * 4096 ∧
    hdr.textSize.toNat + hdr.dataSize.toNat ≤ hdr.pages.toNat * 4096 ∧
    (hdr.textSize + hdr.dataSize).toNat + hdr.bssSize.toNat ≤ hdr.pages.toNat * 4096

theorem LaidOut.adds (h : hdr.LaidOut size) (hfits : hdr.Fits size) : hdr.Adds := by
  have hpages := pages_toNat hfits
  have hsum := h.2
  unfold Adds
  omega

/-- Sizes that add up have passed the checks for what they are. -/
theorem Adds.laidOut (h : hdr.Adds) (hfits : hdr.Fits size) : hdr.LaidOut size := by
  have hpages := pages_toNat hfits
  have hlimit := hfits.total_le
  have htotal := h.total_toNat
  have hheader := hdr.headerSize.isLt
  have hfile : (hdr.dataOff + hdr.dataSize).toNat ≤ size.toNat := hfits.2.2.1
  rw [dataOff, textOff, BitVec.toNat_add, BitVec.toNat_add, BitVec.toNat_setWidth] at hfile
  refine ⟨?_, ?_⟩ <;> omega

theorem Adds.copiesInside (h : hdr.Adds) (hfits : hdr.Fits size) : hdr.CopiesInside size := by
  obtain ⟨hfile, hpages⟩ := h.laidOut hfits
  have htext : hdr.textOff.toNat = hdr.headerSize.toNat := by
    rw [textOff, BitVec.toNat_setWidth]
    have := hdr.headerSize.isLt
    omega
  have hdata : hdr.dataOff.toNat = hdr.headerSize.toNat + hdr.textSize.toNat := by
    rw [dataOff, BitVec.toNat_add, htext]
    omega
  have hbss : (hdr.textSize + hdr.dataSize).toNat = hdr.textSize.toNat + hdr.dataSize.toNat := by
    bv_omega
  refine ⟨⟨?_, ?_⟩, ?_, ?_, ?_⟩ <;> omega

end OreKModHeader

/-- Behind the checks the module is inside the file and its pages exactly if the
sizes of text, data and bss add up. -/
theorem module_inside_iff {hdr : OreKModHeader} {size : Word} (hfits : hdr.Fits size) :
    hdr.LaidOut size ∧ hdr.CopiesInside size ↔ hdr.Adds :=
  ⟨fun h => h.1.adds hfits, fun h => ⟨h.laidOut hfits, h.copiesInside hfits⟩⟩

theorem module_inside_pageModule :
    (oreKModHeader (moduleFile 4096 0 0)).Fits 4216 ∧
      (oreKModHeader (moduleFile 4096 0 0)).LaidOut 4216 :=
  have hfits : (oreKModHeader (moduleFile 4096 0 0)).Fits 4216 := by decide
  ⟨hfits, ((module_inside_iff hfits).mpr (by decide)).1⟩

/-- A file of 136 bytes whose header claims 2^64 - 64 bytes of data passes the
checks. -/
theorem wrapped_module_passes :
    let hdr := oreKModHeader (moduleFile 16 (-64) 64)
    readModule (oneFile (moduleFile 16 (-64) 64) 136) [] = some (moduleFile 16 (-64) 64, 136) ∧
      hdr.Known ∧ hdr.Fits 136 ∧ ¬ (hdr.LaidOut 136 ∧ hdr.CopiesInside 136) := by
  have hfits : (oreKModHeader (moduleFile 16 (-64) 64)).Fits 136 := by decide
  have hwraps : ¬ (oreKModHeader (moduleFile 16 (-64) 64)).Adds := by decide
  exact ⟨readModule_oneFile [] (by decide) (by decide), by decide, hfits,
    fun h => hwraps (h.1.adds hfits)⟩

/-! ## Protections -/

/-- The address is mapped for reading and executing only. -/
def MappedText (m : Machine) (root a : Word) : Prop :=
  ∃ f, vmmFlags root a m = (.ok f, m) ∧ f &&& vmmPresent ≠ 0 ∧ f &&& vmmWrite = 0 ∧
    f &&& vmmNx = 0

/-- The address is mapped for reading and writing only. -/
def MappedData (m : Machine) (root a : Word) : Prop :=
  ∃ f, vmmFlags root a m = (.ok f, m) ∧ f &&& vmmPresent ≠ 0 ∧ f &&& vmmWrite ≠ 0 ∧
    f &&& vmmNx ≠ 0

/-- The bytes of the module at `mem` are mapped as text, data and bss are to
be. -/
def ModuleProtected (m : Machine) (root mem : Word) (hdr : OreKModHeader) : Prop :=
  (∀ off < hdr.textSize.toNat, MappedText m root (mem + BitVec.ofNat 64 off)) ∧
    ∀ off, hdr.textSize.toNat ≤ off →
      off < hdr.textSize.toNat + hdr.dataSize.toNat + hdr.bssSize.toNat →
      MappedData m root (mem + BitVec.ofNat 64 off)

section Protected

variable {k : Frame} {m : Machine} {a flags : Word}

theorem getLsbD_entryFlags (e flags : Word) {i : Nat} (hi : i < 64)
    (hmask : pteAddrMask.getLsbD i = false) (hpresent : vmmPresent.getLsbD i = false) :
    (entryFlags (pteValue (e &&& pteAddrMask) flags)).getLsbD i = flags.getLsbD i := by
  simp only [entryFlags, pteValue, BitVec.getLsbD_and, BitVec.getLsbD_or, BitVec.getLsbD_not, hi,
    hmask, hpresent, decide_true, Bool.and_false, Bool.false_or, Bool.or_false, Bool.not_false,
    Bool.and_true, Bool.true_and]
  cases flags.getLsbD i <;> cases vmmNx.getLsbD i <;> rfl

theorem vmmFlags_flagged (h : Good k m) (hflag : Flagged flags m k a) :
    ∃ f, vmmFlags k a m = (.ok f, m) ∧ f &&& vmmPresent ≠ 0 ∧
      f &&& vmmWrite = flags &&& vmmWrite ∧ f &&& vmmNx = flags &&& vmmNx := by
  obtain ⟨e, he⟩ := hflag
  have hbit := present_of_pte he
  rw [vmmFlags_eq h.null, he, Option.elim_some]
  refine ⟨_, rfl, ?_, ?_, ?_⟩
  · rw [entryFlags, BitVec.and_assoc, show ~~~pteAddrMask &&& vmmPresent = vmmPresent by decide]
    simpa [present] using hbit
  · rw [show vmmWrite = BitVec.twoPow 64 1 from rfl, BitVec.and_twoPow, BitVec.and_twoPow,
      getLsbD_entryFlags _ _ (by decide) (by decide) (by decide)]
  · rw [show vmmNx = BitVec.twoPow 64 63 from rfl, BitVec.and_twoPow, BitVec.and_twoPow,
      getLsbD_entryFlags _ _ (by decide) (by decide) (by decide)]

theorem mappedText_of_flagged (h : Good k m) (hflag : Flagged vmmPresent m k a) :
    MappedText m k a ∧ ¬ MappedData m k a := by
  obtain ⟨f, hf, hpresent, hwrite, hnx⟩ := vmmFlags_flagged h hflag
  refine ⟨⟨f, hf, hpresent, by rw [hwrite]; decide, by rw [hnx]; decide⟩, ?_⟩
  rintro ⟨f', hf', -, hwrite', -⟩
  rw [hf] at hf'
  cases hf'
  exact hwrite' (by rw [hwrite]; decide)

theorem mappedData_of_flagged (h : Good k m)
    (hflag : Flagged (vmmPresent ||| vmmWrite ||| vmmNx) m k a) :
    MappedData m k a ∧ ¬ MappedText m k a := by
  obtain ⟨f, hf, hpresent, hwrite, hnx⟩ := vmmFlags_flagged h hflag
  refine ⟨⟨f, hf, hpresent, by rw [hwrite]; decide, by rw [hnx]; decide⟩, ?_⟩
  rintro ⟨f', hf', -, hwrite', -⟩
  rw [hf] at hf'
  cases hf'
  rw [hwrite] at hwrite'
  exact absurd hwrite' (by decide)

end Protected

section Installed

variable {k : Frame} {s p : Phys} {hdr : OreKModHeader} {size : Word} {start : Nat}

theorem Installed.flagged_byte (hi : Installed k hdr s p start)
    (hram : s.pmm.totalPageCount.toNat ≤ 2 ^ 35) (off : Nat) (hoff : off < hdr.pages.toNat * 4096) :
    Flagged (hdr.pageFlags (off / 4096)) p.machine k (pageAddr start + BitVec.ofNat 64 off) := by
  have hhigh := hi.high
  have hstart := @toNat_pageAddr start (by omega)
  have hpage := @toNat_pageAddr (start + off / 4096) (by omega)
  have haddr : (pageAddr start + BitVec.ofNat 64 off).toNat = start * 4096 + off := by bv_omega
  have hsame : pageOf (pageAddr start + BitVec.ofNat 64 off) =
      pageOf (pageAddr (start + off / 4096)) := by
    rw [pageOf, pageOf, haddr, hpage]
    omega
  obtain ⟨e, he⟩ := hi.flagged (off / 4096) (by omega)
  exact ⟨e, by rw [pte_congr hsame, he]⟩

/-- The two protections suit the module exactly if its text ends with a page. -/
theorem Installed.protected_iff (hi : Installed k hdr s p start) (hfits : hdr.Fits size)
    (hadds : hdr.Adds) (hram : s.pmm.totalPageCount.toNat ≤ 2 ^ 35) :
    ModuleProtected p.machine k (pageAddr start) hdr ↔ hdr.textSize.toNat % 4096 = 0 := by
  have hinside := (hadds.laidOut hfits).2
  have htext := hfits.text_pos
  constructor
  · rintro ⟨hall, -⟩
    -- The last byte of the text is in a page that the second protection reaches.
    by_contra hrest
    have hlast := hi.flagged_byte hram (hdr.textSize.toNat - 1) (by omega)
    rw [OreKModHeader.pageFlags, if_neg (by omega)] at hlast
    exact (mappedData_of_flagged hi.good hlast).2 (hall _ (by omega))
  · intro hwhole
    refine ⟨fun off hoff => ?_, fun off hlow hhigh => ?_⟩
    · have hflag := hi.flagged_byte hram off (by omega)
      rw [OreKModHeader.pageFlags, if_pos (by omega)] at hflag
      exact (mappedText_of_flagged hi.good hflag).1
    · have hflag := hi.flagged_byte hram off (by omega)
      rw [OreKModHeader.pageFlags, if_neg (by omega)] at hflag
      exact (mappedData_of_flagged hi.good hflag).1

end Installed

section Present

variable {k : Frame} {s t : OkSystem}

/-- Pages that are free or held stay present, also when modules fail. -/
theorem okInv_present_step {call : OkCall} (h : OkInv (fun entry => entry.isSome = true) k s)
    (hlive : s.FreesLive call) (hstep : s.step call = some t) :
    OkInv (fun entry => entry.isSome = true) k t := by
  cases call with
  | alloc count => exact h.alloc hstep
  | free ptr count => exact h.free hlive hstep
  | load services path rc =>
    unfold OkSystem.step at hstep
    dsimp only at hstep
    rcases @okmodLoadOne_cases _ _ _ services path rc h fun _ => id with
      ⟨-, message, ok, -, -, hrun⟩ | ⟨res, ok, hrun, hcase⟩
    · rw [hrun] at hstep
      cases hstep
    rw [hrun] at hstep
    cases hstep
    rcases hcase with ⟨-, hsame⟩ | ⟨hdr, start, p, -, -, hi, hend⟩
    · exact h.samePhys hsame
    by_cases hrc : rc.toInt < 0
    case neg =>
      rw [if_neg hrc] at hend
      exact hi.stays h hend
    rw [if_pos hrc] at hend
    obtain ⟨htables, htotal, hbits, hpte⟩ := hi.goes h hend
    refine ⟨htables, fun q hq hcase => ?_⟩
    change (pte ok.phys.machine k (pageAddr q)).isSome = true
    change q < ok.phys.pmm.totalPageCount.toNat at hq
    rw [htotal] at hq
    rw [hpte]
    by_cases hin : start ≤ q ∧ q < start + hdr.pages.toNat
    · have hflag := hi.flagged (q - start) (by omega)
      rw [show start + (q - start) = q by omega] at hflag
      exact hflag.isSome
    · rw [hi.others q hq hin]
      refine h.pages q hq (hcase.imp_left fun hbit => Bool.eq_false_iff.mpr fun hset => ?_)
      rw [(hbits q).mpr hset] at hbit
      cases hbit

theorem OkInv.present (h : OkInv IsWritable k s) :
    OkInv (fun entry => entry.isSome = true) k s :=
  ⟨h.toOkTables, fun q hq hcase => (h.pages q hq hcase).isSome⟩

/-- A module that is accepted, with sizes that add up, comes to its `init`. -/
theorem OkInv.calls_init {services : Services} {path : List Byte} {hdr : OreKModHeader}
    (h : OkInv (fun entry => entry.isSome = true) k s)
    (hmodule : initialisedModule services path s.ok = some hdr) (hadds : hdr.Adds) :
    ∃ mem ok, loadToInit services s.kernelPml4 path s.ok = (.ok (some (mem, hdr)), ok) ∧
      (ModuleProtected ok.phys.machine s.kernelPml4 mem hdr ↔ hdr.textSize.toNat % 4096 = 0) := by
  rw [h.root]
  rcases @loadToInit_cases _ _ services path h.ram h.good
      (fun q hq hbit => h.pages q hq (.inl hbit)) with
    ⟨hnone, -⟩ | ⟨hdr', size, hsome, hfits, hcase⟩
  · rw [hmodule] at hnone
    cases hnone
  rw [hmodule] at hsome
  cases hsome
  rcases hcase with ⟨-, start, p, ok, hinstalled, hload, rfl⟩ | ⟨hwraps, -⟩
  · exact ⟨pageAddr start, ok, hload, hinstalled.protected_iff hfits hadds h.ram⟩
  · exact absurd hadds hwraps

end Present

/-- A module that is accepted, with sizes that add up, is called with its pages
protected as they are to be exactly if its text ends with a page. -/
theorem module_protected_iff {boot : BootInfo} {lapicBase kernel : Word} {s₀ s₁ : Phys}
    {s : OkSystem} {services : Services} {path : List Byte} {hdr : OreKModHeader}
    (hram : s₀.pmm.totalPageCount.toNat ≤ 2 ^ 35)
    (hinit : s₀.run (vmmInit boot s₀.pmm.totalPageCount lapicBase) = (.ok kernel, s₁))
    (hrun : Run OkSystem.step OkSystem.FreesLive { kernelPml4 := kernel, ok := { phys := s₁ } } s)
    (hmodule : initialisedModule services path s.ok = some hdr) (hadds : hdr.Adds) :
    ∃ mem ok, loadToInit services s.kernelPml4 path s.ok = (.ok (some (mem, hdr)), ok) ∧
      (ModuleProtected ok.phys.machine s.kernelPml4 mem hdr ↔ hdr.textSize.toNat % 4096 = 0) := by
  obtain ⟨hk, hstart⟩ := okInv_start hram hinit
  have h : OkInv (fun entry => entry.isSome = true) ⟨kernel, hk⟩ s := hrun.invariant hstart.present
    fun _ _ _ h hlive hs => okInv_present_step h hlive hs
  exact h.calls_init hmodule hadds

theorem module_protected_pageModule :
    ∃ kernel s₁ mem ok, smallPhys.run
        (vmmInit headlessBoot smallPhys.pmm.totalPageCount 0xfee00000) = (.ok kernel, s₁) ∧
      loadToInit pageModule kernel [] { phys := s₁ } =
        (.ok (some (mem, oreKModHeader (moduleFile 4096 0 0))), ok) ∧
      ModuleProtected ok.phys.machine kernel mem (oreKModHeader (moduleFile 4096 0 0)) := by
  obtain ⟨kernel, s₁, hinit, hleft⟩ := small_vmmInit headlessBoot (by decide)
  obtain ⟨mem, ok, hload, hiff⟩ := module_protected_iff (by decide) hinit .refl
    (pageModule_initialised hleft []) (by decide)
  exact ⟨kernel, s₁, mem, ok, hinit, hload, hiff.mpr (by decide)⟩

/-- Sixteen bytes of text: their page is writable and cannot be executed when
`init`, which is there, is called. -/
theorem short_text_not_protected :
    ∃ kernel s₁ mem ok, smallPhys.run
        (vmmInit headlessBoot smallPhys.pmm.totalPageCount 0xfee00000) = (.ok kernel, s₁) ∧
      loadToInit (oneFile (moduleFile 16 0 0) 136) kernel [] { phys := s₁ } =
        (.ok (some (mem, oreKModHeader (moduleFile 16 0 0))), ok) ∧
      (oreKModHeader (moduleFile 16 0 0)).Adds ∧
      ¬ ModuleProtected ok.phys.machine kernel mem (oreKModHeader (moduleFile 16 0 0)) := by
  obtain ⟨kernel, s₁, hinit, hleft⟩ := small_vmmInit headlessBoot (by decide)
  obtain ⟨hk, hstart⟩ := okInv_start (by decide) hinit
  have hadds : (oreKModHeader (moduleFile 16 0 0)).Adds := by decide
  have hmodule : initialisedModule (oneFile (moduleFile 16 0 0) 136) [] { phys := s₁ } =
      some (oreKModHeader (moduleFile 16 0 0)) :=
    oneFile_initialised [] (by decide) (by decide) (by decide) (by decide) hleft
  obtain ⟨mem, ok, hload, hiff⟩ := hstart.present.calls_init hmodule hadds
  exact ⟨kernel, s₁, mem, ok, hinit, hload, hadds, fun h => absurd (hiff.mp h) (by decide)⟩

end OreOS.Kernel
