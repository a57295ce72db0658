import OreOS.Laws.Orec.Holes

/-!
# Calls (`user/orec.c`)

A call is emitted before the address of its function is known, with a hole that
is filled when all functions are compiled. The filling goes through the table
`calls`, which takes the first 128 calls; `compile_source` does not look whether
there were more. The displacement of a later call stays zero, and the call leads
to the instruction behind it.
-/

namespace OreOS.Orec

open OreOS.Lib (Byte Buf Mem Exec)

/-! ## The stub -/

/-- The text of a program begins with the call of its stub, whose hole is the first. -/
structure Opened (g : Globals) : Prop where
  hole : Event.hole 1 ∈ g.log
  textLen : 0 < g.textLen
  opcode : g.text.Holds 0 callOpcode

namespace Opened

variable {g g' : Globals}

theorem later (h : Opened g) (hext : Extends g g') : Opened g' where
  hole := hext.mem h.hole
  textLen := Nat.lt_of_lt_of_le h.textLen hext.textLen
  opcode := h.opcode.congr fun i _ hi => hext.text i (Nat.lt_of_lt_of_le hi h.textLen)

theorem patch (h : Opened g) (hl : Layout g) {patch : Nat} (hlog : Event.hole patch ∈ g.log)
    (value : U32) : Opened { g with text := g.text.put patch (disp32 value) } where
  hole := h.hole
  textLen := h.textLen
  opcode := by
    have hpos : 0 < patch := by
      by_cases hone : patch = 1
      · omega
      · have hdisjoint : patch + 4 ≤ 1 - 0 ∨ 1 + 4 ≤ patch :=
          hl.disjoint hlog h.hole (fun heq => by cases heq; exact hone rfl) rfl rfl (by decide)
        omega
    exact h.opcode.congr fun i _ hi => Buf.put_below (Nat.lt_of_lt_of_le hi hpos)

theorem stable (kmod : Bool) :
    StableStmt kmod fun g => Placed kmod g ∧ (kmod = false → Opened g) where
  toEmitsStmt := (Placed.stable kmod).toEmitsStmt.and fun hext h hk => (h hk).later hext
  patch _ value _ hg hlog :=
    ⟨hg.1.patch hlog value, fun hk => (hg.2 hk).patch hg.1.layout hlog value⟩
  setUnsafe g isUnsafe hg := ⟨(Placed.stable kmod).setUnsafe g isUnsafe hg.1,
    fun hk => ⟨(hg.2 hk).hole, (hg.2 hk).textLen, (hg.2 hk).opcode⟩⟩
  breaks _ hg := hg.1.breaks
  setLoops g loops hg hlog := ⟨(Placed.stable kmod).setLoops g loops hg.1 hlog,
    fun hk => ⟨(hg.2 hk).hole, (hg.2 hk).textLen, (hg.2 hk).opcode⟩⟩

end Opened

/-! ## Between functions -/

/-- What holds between two functions: a program for a process has its stub, and behind each
call, and in each function, there is more of the text. -/
structure Settled (kmod : Bool) (g : Globals) : Prop extends Placed kmod g where
  opened : kmod = false → Opened g
  ended : ∀ c, Event.call c ∈ g.log → c.patch + 4 < textMax → c.patch + 4 < g.textLen
  inside : g.log ≠ [] → ∀ f ∈ g.funcs, f.addr < textMax → f.addr < g.textLen

namespace Settled

variable {kmod : Bool} {g g' : Globals}

theorem begin (h : Settled kmod g) (index : Nat) (fn : Function) :
    Placed kmod (beginFunction index fn g) where
  target := h.target
  breaks := h.breaks
  layout := ⟨h.layout.bounded, h.layout.below, h.layout.apart⟩
  sites := ⟨h.sites.calls, h.sites.refs, h.sites.call, h.sites.dataLen, h.sites.literal⟩
  addr f hf := by
    rcases List.mem_or_eq_of_mem_set hf with hf | rfl
    · exact h.addr f hf
    · exact Nat.le_refl _
  behind c hc hroom f hf := by
    rcases List.mem_or_eq_of_mem_set hf with hf | rfl
    · exact h.behind c hc hroom f hf
    · have := h.ended c hc hroom
      dsimp only
      omega

end Settled

/-- The end of a function is emitted behind the text, with no call in it. -/
theorem emitFunctionEnd_placed {kmod : Bool} {name : Name} {g g' : Globals} (h : Placed kmod g)
    (hrun : emitFunctionEnd name g = (.ok (), g')) :
    Placed kmod g' ∧ (∀ L, L ≤ g.textLen → L < textMax → L < g'.textLen) ∧ Extends g g' ∧
      ∀ c, Event.call c ∈ g'.log → Event.call c ∈ g.log := by
  have hgrow : ∀ (g : Globals) {bs : List Byte} (L : Nat), 0 < bs.length → L ≤ g.textLen →
      L < textMax → L < (g.append bs).textLen := fun g bs L hbs hL hmax => by
    rw [Globals.textLen_append]
    omega
  by_cases hmain : name = mainName
  · rw [emitFunctionEnd, if_pos hmain, emitExitConst, Exec.bind_ok (emit_eq _ _), emitSyscall,
      Exec.bind_ok (note_eq _ _), emit_eq] at hrun
    cases hrun
    have hlogged := @(h.append (movRax oreSysExit ++ movRdi 0)).logged kmod _ .syscall rfl rfl rfl
      fun off bytes he => by cases he
    refine ⟨hlogged.append _, fun L hL hmax => ?_, ?_, fun c hc => ?_⟩
    · exact hgrow _ L (by decide) (Nat.le_of_lt (hgrow g L (by decide) hL hmax)) hmax
    · exact (extends_append g _).trans ((extends_note .syscall _).trans (extends_append _ _))
    · rcases List.mem_append.mp hc with hc | hc
      · exact hc
      · cases List.mem_singleton.mp hc
  · rw [emitFunctionEnd, if_neg hmain, emit_eq] at hrun
    cases hrun
    exact ⟨h.append _, fun L hL hmax => hgrow g L (by decide) hL hmax, extends_append g _,
      fun c hc => hc⟩

namespace Settled

variable {kmod : Bool} {g g' : Globals}

theorem compileFunction (h : Settled kmod g) {n index : Nat} {fn : Function}
    (hrun : compileFunction n index fn g = (.ok (), g')) : Settled kmod g' := by
  have hbegin : kmod = false → Opened (beginFunction index fn g) := fun hk =>
    ⟨(h.opened hk).hole, (h.opened hk).textLen, (h.opened hk).opcode⟩
  obtain ⟨framePatch, g₁, g₂, value, ⟨h₁, hopened⟩, hhole, hend, rfl⟩ :=
    (Opened.stable kmod).compileFunction_ok ⟨h.begin index fn, hbegin⟩ hrun
  obtain ⟨h₂, hgrow, hext, hcalls⟩ := emitFunctionEnd_placed h₁ hend
  obtain ⟨hpatched, hopened⟩ := (Opened.stable kmod).setUnsafe _ false
    ((Opened.stable kmod).patch framePatch value g₂ ⟨h₂, fun hk => (hopened hk).later hext⟩
      (hext.mem hhole))
  refine
    { toPlaced := hpatched
      opened := hopened
      ended := fun c hc hroom => ?_
      inside := fun _ f hf hroom => ?_ }
  · have hbelow := h₁.layout.below _ (hcalls c hc) c.patch rfl
    exact hgrow (c.patch + 4) (by omega) hroom
  · have hf₁ : f ∈ g₁.funcs := by
      rw [← hext.funcs]
      exact hf
    exact hgrow f.addr (h₁.addr f hf₁) hroom

theorem placed_of_fresh (h : Fresh kmod g) (haddr : ∀ f ∈ g.funcs, f.addr = 0) : Placed kmod g where
  target := h.target
  breaks := h.breaksLogged
  layout := by
    refine ⟨by rw [h.textLen]; exact Nat.zero_le _, fun e he => absurd he (h.not_mem_log e), ?_⟩
    rw [h.log]
    exact List.Pairwise.nil
  sites := by
    refine ⟨?_, ?_, fun c hc => absurd hc (h.not_mem_log _), by rw [h.dataLen]; exact Nat.zero_le _,
      fun off bytes hl => absurd hl (h.not_mem_log _)⟩
    · rw [h.log, h.calls]
      rfl
    · rw [h.log, h.dataRefs]
      rfl
  addr f hf := by
    rw [haddr f hf]
    exact Nat.zero_le _
  behind c hc := absurd hc (h.not_mem_log _)

theorem startStub (h : Fresh kmod g) (haddr : ∀ f ∈ g.funcs, f.addr = 0)
    (hrun : startStub g = (.ok (), g')) : Settled kmod g' := by
  have hfresh := placed_of_fresh h haddr
  cases kmod with
  | true =>
    change (if g.kmodTarget then _ else _ : Compile Unit) g = _ at hrun
    rw [h.target] at hrun
    cases hrun
    exact
      { toPlaced := hfresh
        opened := fun hk => by cases hk
        ended := fun c hc => absurd hc (h.not_mem_log _)
        inside := fun hlog => absurd h.log hlog }
  | false =>
    change (if g.kmodTarget then _ else _ : Compile Unit) g = _ at hrun
    rw [h.target, if_neg Bool.false_ne_true, emitStub, Exec.bind_ok (emit_eq _ _),
      Exec.bind_ok (emitHole_eq _ _), emitExitRax, Exec.bind_ok (emit_eq _ _), emitSyscall,
      Exec.bind_ok (note_eq _ _), emit_eq] at hrun
    cases hrun
    have hlen : (g.append callOpcode).textLen = 1 := by
      rw [Globals.textLen_append, h.textLen]
      rfl
    have hplaced := (@((hfresh.append callOpcode).hole.append
      ([0x48, 0x89, 0xC7] ++ movRax oreSysExit)).logged false _ .syscall rfl rfl rfl
        fun off bytes he => by cases he).append syscall
    have hopened : Opened (g.append callOpcode |>.hole (.hole (g.append callOpcode).textLen)) := by
      refine ⟨?_, ?_, ?_⟩
      · rw [hlen]
        exact List.mem_append_right _ (List.mem_singleton_self _)
      · exact Nat.lt_of_lt_of_le (hlen ▸ Nat.one_pos) (Nat.le_add_right _ _)
      · have hfirst := @holds_append_self g callOpcode (by rw [h.textLen]; decide)
        rw [h.textLen] at hfirst
        exact hfirst.congr fun i _ hi => Buf.put_below (hlen ▸ hi)
    have hrest := hopened.later ((extends_append _ ([0x48, 0x89, 0xC7] ++ movRax oreSysExit)).trans
      ((extends_note .syscall _).trans (extends_append _ syscall)))
    refine { toPlaced := hplaced, opened := fun _ => hrest, ended := fun c hc => ?_,
             inside := fun _ f hf _ => haddr f hf ▸ hrest.textLen }
    change Event.call c ∈ g.log ++ [Event.hole _] ++ [Event.syscall] at hc
    rw [h.log] at hc
    simp at hc

theorem patch (h : Settled kmod g) {patch : Nat} (hlog : Event.hole patch ∈ g.log) (value : U32) :
    Settled kmod { g with text := g.text.put patch (disp32 value) } where
  toPlaced := h.toPlaced.patch hlog value
  opened hk := (h.opened hk).patch h.layout hlog value
  ended := h.ended
  inside := h.inside

/-- The call of the stub leads to `main`. -/
theorem patchStub (h : Settled kmod g) (hrun : patchStub g = (.ok (), g')) :
    Settled kmod g' ∧ (kmod = false →
      g'.text.Holds 0 (callOpcode ++ disp32 (rel32 (funcAddr g' (mainIndex g')) 1))) := by
  change (if g.kmodTarget then _ else _ : Compile Unit) g = _ at hrun
  rw [h.target] at hrun
  cases kmod with
  | true =>
    cases hrun
    exact ⟨h, fun hk => by cases hk⟩
  | false =>
    cases hrun
    have hpatched := h.patch (h.opened rfl).hole (rel32 (funcAddr g (mainIndex g)) 1)
    exact ⟨hpatched, fun _ => Buf.holds_append.mpr
      ⟨(hpatched.opened rfl).opcode, Buf.holds_put g.text 1 _⟩⟩

end Settled

/-! ## The last patches -/

/-- The bytes that a call is patched with, and their place. -/
def callRun (g : Globals) (c : CallPatch) : Nat × List Byte :=
  (c.patch, disp32 (rel32 (funcAddr g c.fn) c.patch))

theorem patchCalls_eq (calls : List CallPatch) (g : Globals) :
    patchCalls calls g = (.ok (), { g with text := g.text.putAll (calls.map (callRun g)) }) := by
  induction calls generalizing g with
  | nil => rfl
  | cons c calls ih => exact ih { g with text := g.text.put c.patch (callRun g c).2 }

/-- What a run of the compiler ends with. -/
theorem compileSource_settled {n : Nat} {p : Source} {g₀ g : Globals}
    (h : compileSource n p g₀ = (.ok (), g)) :
    ∃ g₄, Settled g₀.kmodTarget g₄ ∧ (g₀.kmodTarget = false →
        g₄.text.Holds 0 (callOpcode ++ disp32 (rel32 (funcAddr g₄ (mainIndex g₄)) 1))) ∧
      g = { g₄ with text := g₄.text.putAll (g₄.calls.map (callRun g₄)) } := by
  obtain ⟨g₁, g₂, g₃, g₄, hscan, hvalid, hfuncs, hstub, hcalls⟩ := compileSource_ok h
  have haddr : ∀ f ∈ g₂.funcs, f.addr = 0 := by
    have hscanned := scanSource_addr hscan
    obtain ⟨out, rfl⟩ := validateTarget_ok hvalid
    exact hscanned
  obtain ⟨hfresh, -⟩ := fresh_of_scan hscan hvalid
  obtain ⟨_, gs, hstart, hrun⟩ := Exec.bind_eq_ok hfuncs
  have h₃ := compileFunctions_ok (fun index fn g g' _ _ _ hg hf => Settled.compileFunction hg hf)
    (Nat.le_of_eq (Nat.zero_add _)) (Settled.startStub hfresh haddr hstart) hrun
  obtain ⟨h₄, hcall⟩ := h₃.patchStub hstub
  rw [patchCalls_eq] at hcalls
  cases hcalls
  exact ⟨g₄, h₄, hcall, rfl⟩

/-! ## Displacements -/

theorem toInt_rel32 {target patch : Nat} (ht : target ≤ textMax) (hp : patch ≤ textMax) :
    (patch : Int) + 4 + (rel32 target patch).toInt = target := by
  have hmax : textMax = 32768 := rfl
  have hint : ∀ {n : Nat}, n < 2 ^ 31 → (BitVec.ofNat 32 n).toInt = n := fun {n} hn => by
    have hnat : (BitVec.ofNat 32 n).toNat = n := by
      rw [BitVec.toNat_ofNat, Nat.mod_eq_of_lt (by omega)]
    rw [BitVec.toInt_eq_toNat_of_lt (by omega), hnat]
  rw [rel32, BitVec.toInt_sub, hint (by omega), hint (by omega),
    Int.bmod_eq_of_le (by omega) (by omega)]
  omega

theorem disp32_injective {d d' : U32} (h : disp32 d = disp32 d') : d = d' :=
  Mem.leBytes_injective (by decide) h

/-- A call is in the text, and its displacement leads to the function that it is
for. -/
def Resolved (g : Globals) (c : CallPatch) : Prop :=
  c.patch + 4 ≤ g.textLen ∧ ∃ d : U32, g.text.Holds (c.patch - 1) (callOpcode ++ disp32 d) ∧
    (c.patch : Int) + 4 + d.toInt = funcAddr g c.fn

theorem mem_log_of_call {log : List Event} {c : CallPatch} {k : Nat}
    (hk : (callsOf log)[k]? = some c) : Event.call c ∈ log := by
  obtain ⟨e, he, hc⟩ := List.mem_filterMap.mp (List.mem_of_getElem? hk)
  cases e with
  | call c' => cases hc; exact he
  | _ => cases hc

namespace Settled

variable {kmod : Bool} {g : Globals}

theorem calls_apart (h : Settled kmod g) :
    (callsOf g.log).Pairwise fun c c' => Event.Before (.call c) (.call c') := by
  refine h.layout.apart.filterMap _ fun e e' hbefore c hc c' hc' => ?_
  cases e with
  | call => cases hc; cases e' with
    | call => cases hc'; exact hbefore
    | _ => cases hc'
  | _ => cases hc

theorem funcAddr_le (h : Settled kmod g) (fn : Nat) : funcAddr g fn ≤ textMax := by
  rw [funcAddr]
  cases hf : g.funcs[fn]? with
  | none => exact Nat.zero_le _
  | some f => exact (h.addr f (List.mem_of_getElem? hf)).trans h.layout.bounded

/-- No function begins right behind a call. -/
theorem funcAddr_ne (h : Settled kmod g) {c : CallPatch} (hc : Event.call c ∈ g.log)
    (hroom : c.patch + 4 < textMax) (fn : Nat) : funcAddr g fn ≠ c.patch + 4 := by
  rw [funcAddr]
  cases hf : g.funcs[fn]? with
  | none => exact Ne.symm (Nat.succ_ne_zero _)
  | some f => exact h.behind c hc hroom f (List.mem_of_getElem? hf)

/-- A call of the table has its displacement after the last patches. -/
theorem holds_patched (h : Settled kmod g) {c : CallPatch} {k : Nat}
    (hk : (callsOf g.log)[k]? = some c) (hroom : c.patch + 4 ≤ textMax) (htable : k < maxCalls) :
    (g.text.putAll (g.calls.map (callRun g))).Holds (c.patch - 1)
      (callOpcode ++ disp32 (rel32 (funcAddr g c.fn) c.patch)) := by
  have hget : g.calls[k]? = some c := by
    rw [h.sites.calls, List.getElem?_take_of_lt htable, hk]
  have hpair : g.calls.Pairwise fun c c' => Event.Before (.call c) (.call c') := by
    rw [h.sites.calls]
    exact h.calls_apart.sublist (List.take_sublist _ _)
  obtain ⟨hlt, hc⟩ := List.getElem?_eq_some_iff.mp hget
  have hsplit : g.calls = g.calls.take k ++ c :: g.calls.drop (k + 1) := by
    rw [← hc, List.getElem_cons_drop, List.take_append_drop]
  rw [hsplit] at hpair
  obtain ⟨-, htail, hhead⟩ := List.pairwise_append.mp hpair
  have hbefore : ∀ c' ∈ g.calls.take k, c'.patch + 4 ≤ c.patch - 1 := fun c' hc' =>
    (hhead c' hc' c List.mem_cons_self c'.patch rfl c.patch rfl).2 hroom
  have hafter : ∀ c' ∈ g.calls.drop (k + 1), c.patch + 4 ≤ c'.patch := fun c' hc' => by
    have := ((List.pairwise_cons.mp htail).1 c' hc' c.patch rfl c'.patch rfl).1
    omega
  obtain ⟨hpos, hholds⟩ := h.sites.call c (mem_log_of_call hk) hroom
  rw [hsplit, List.map_append, List.map_cons]
  refine Buf.holds_append.mpr ⟨(Buf.holds_append.mp hholds).1.putAll fun run hrun => ?_, ?_⟩
  · change c.patch - 1 + 1 ≤ run.1 ∨ run.1 + run.2.length ≤ c.patch - 1
    rcases List.mem_append.mp hrun with hrun | hrun
    · obtain ⟨c', hc', rfl⟩ := List.mem_map.mp hrun
      exact .inr (hbefore c' hc')
    · rcases List.mem_cons.mp hrun with rfl | hrun
      · exact .inl (by change _ ≤ c.patch; omega)
      · obtain ⟨c', hc', rfl⟩ := List.mem_map.mp hrun
        have := hafter c' hc'
        exact .inl (by change _ ≤ c'.patch; omega)
  · rw [show c.patch - 1 + callOpcode.length = c.patch by change c.patch - 1 + 1 = _; omega]
    refine Buf.holds_putAll _ _ _ _ _ fun run hrun => ?_
    obtain ⟨c', hc', rfl⟩ := List.mem_map.mp hrun
    exact .inl (hafter c' hc')

/-- A call that is not in the table keeps its hole. -/
theorem holds_unpatched (h : Settled kmod g) {c : CallPatch} {k : Nat}
    (hk : (callsOf g.log)[k]? = some c) (hroom : c.patch + 4 ≤ textMax) (htable : maxCalls ≤ k) :
    (g.text.putAll (g.calls.map (callRun g))).Holds (c.patch - 1) (callOpcode ++ disp32 0) := by
  obtain ⟨-, hholds⟩ := h.sites.call c (mem_log_of_call hk) hroom
  refine hholds.putAll fun run hrun => .inr ?_
  obtain ⟨c', hc', rfl⟩ := List.mem_map.mp hrun
  -- the calls of the table are before this one
  rw [h.sites.calls, List.mem_take_iff_getElem] at hc'
  obtain ⟨i, hi, rfl⟩ := hc'
  obtain ⟨hlt, rfl⟩ := List.getElem?_eq_some_iff.mp hk
  have hbefore := List.pairwise_iff_getElem.mp h.calls_apart i k (by omega) hlt (by omega)
  exact (hbefore _ rfl _ rfl).2 hroom

end Settled

/-- A call leads to its function when it is one of the first 128, and there is
room for it in the text. The only other one that does is a call that fills the
text exactly, of a function for which there is no room any more. -/
theorem call_resolved_iff {n : Nat} {p : Source} {g₀ g : Globals}
    (h : compileSource n p g₀ = (.ok (), g)) {k : Nat} {c : CallPatch}
    (hk : (callsOf g.log)[k]? = some c) :
    Resolved g c ↔ c.patch + 4 ≤ textMax ∧
      (k < maxCalls ∨ c.patch + 4 = textMax ∧ funcAddr g c.fn = textMax) := by
  obtain ⟨g₄, hs, -, rfl⟩ := compileSource_settled h
  have hc := mem_log_of_call hk
  have hlen : c.patch + 4 ≤ g₄.textLen ↔ c.patch + 4 ≤ textMax := by
    have := hs.layout.bounded
    have := hs.layout.below _ hc c.patch rfl
    omega
  refine (and_congr_left' hlen).trans (and_congr_right fun hroom => ?_)
  change (∃ d : U32, _ ∧ (c.patch : Int) + 4 + d.toInt = funcAddr g₄ c.fn) ↔
    k < maxCalls ∨ c.patch + 4 = textMax ∧ funcAddr g₄ c.fn = textMax
  have hlead := hs.funcAddr_le c.fn
  constructor
  · rintro ⟨d, hd, htarget⟩
    by_contra hnot
    obtain ⟨htable, hend⟩ := not_or.mp hnot
    have hzero := (hs.holds_unpatched hk hroom (Nat.not_lt.mp htable)).unique hd rfl
    rw [← disp32_injective (List.append_cancel_left hzero)] at htarget
    have hat : c.patch + 4 = funcAddr g₄ c.fn := by
      change (c.patch : Int) + 4 + 0 = _ at htarget
      omega
    have hless : c.patch + 4 < textMax := by omega
    exact hs.funcAddr_ne hc hless c.fn hat.symm
  · rintro (htable | ⟨hfull, haddr⟩)
    · exact ⟨_, hs.holds_patched hk hroom htable, toInt_rel32 hlead (by omega)⟩
    · rcases Nat.lt_or_ge k maxCalls with htable | htable
      · exact ⟨_, hs.holds_patched hk hroom htable, toInt_rel32 hlead (by omega)⟩
      · refine ⟨0, hs.holds_unpatched hk hroom htable, ?_⟩
        change (c.patch : Int) + 4 + 0 = _
        omega

/-- The stub of a program for a process is not in the table, and calls `main` all the same. -/
theorem stub_resolved {n : Nat} {p : Source} {g₀ g : Globals}
    (h : compileSource n p g₀ = (.ok (), g)) (huser : g₀.kmodTarget = false) :
    Resolved g ⟨1, mainIndex g⟩ := by
  obtain ⟨g₄, hs, hstub, rfl⟩ := compileSource_settled h
  have hhole := (hs.opened huser).hole
  have hbelow : 1 + 4 ≤ g₄.textLen := hs.layout.below _ hhole 1 rfl
  refine ⟨hbelow, _, (hstub huser).putAll fun run hrun => .inl ?_,
    toInt_rel32 (hs.funcAddr_le _) (show 1 ≤ textMax by decide)⟩
  -- the calls of the table are behind the stub
  obtain ⟨c, hc, rfl⟩ := List.mem_map.mp hrun
  rw [hs.sites.calls] at hc
  obtain ⟨k, hk⟩ := List.getElem?_of_mem (List.mem_of_mem_take hc)
  have hdisjoint : c.patch + 4 ≤ 1 - 0 ∨ 1 + 4 ≤ c.patch :=
    hs.layout.disjoint (mem_log_of_call hk) hhole (fun heq => by cases heq) rfl rfl (by decide)
  change 0 + 5 ≤ c.patch
  omega

/-- A program with one call. -/
def oneCall : Source :=
  "fn f() -> int \x7b return 1; \x7d fn main() -> int \x7b return f(); \x7d".toList

theorem call_resolved_oneCall : Resolved (compileSource 70 oneCall {}).2 ⟨101, 0⟩ := by
  have hcall : (callsOf (compileSource 70 oneCall {}).2.log)[0]? = some ⟨101, 0⟩ := by
    decide +kernel
  exact (call_resolved_iff (compileSource_of_ok (by decide +kernel)) hcall).mpr
    ⟨by decide, .inl (by decide)⟩

/-- A program with one call more than the table has room for. -/
def manyCalls : Source :=
  "fn f() -> int \x7b return 1; \x7d fn main() -> int \x7b ".toList ++
    (List.replicate 129 "f();".toList).flatten ++ "\x7d".toList

/-- The program compiles, and its last call leads behind itself. -/
theorem last_of_manyCalls_unresolved :
    (compileSource 700 manyCalls {}).1 = .ok () ∧
      (callsOf (compileSource 700 manyCalls {}).2.log)[128]? = some ⟨741, 0⟩ ∧
      ¬ Resolved (compileSource 700 manyCalls {}).2 ⟨741, 0⟩ := by
  have hrun : (compileSource 700 manyCalls {}).1 = .ok () ∧
      (callsOf (compileSource 700 manyCalls {}).2.log)[128]? = some ⟨741, 0⟩ ∧
      (compileSource 700 manyCalls {}).2.text.Holds 740 (callOpcode ++ disp32 0) ∧
      funcAddr (compileSource 700 manyCalls {}).2 0 = 20 := by
    decide +kernel
  obtain ⟨hok, hlast, hzero, haddr⟩ := hrun
  refine ⟨hok, hlast, ?_⟩
  rintro ⟨-, d, hd, htarget⟩
  rw [← disp32_injective (List.append_cancel_left (hzero.unique hd rfl)), haddr] at htarget
  exact absurd htarget (by decide)

end OreOS.Orec
