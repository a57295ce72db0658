import Mathlib.Data.List.Pairwise
import OreOS.Laws.Orec.Program

/-!
# The holes of the text (`user/orec.c`)

A displacement that is not known yet is left as a hole of four bytes: those of
jumps, of calls and of references to data. Each is filled later by a patch that
overwrites its four bytes and nothing else, so it matters that holes do not
overlap. They do not (`Layout`), except behind the end of a full text, where
nothing is emitted any more and a hole is a place but no bytes.
-/

namespace OreOS.Orec

open OreOS.Lib (Byte Buf)

/-! ## Places of holes -/

/-- Where the hole of an event is. -/
def Event.window : Event → Option Nat
  | .hole patch => some patch
  | .call c => some c.patch
  | .ref r => some r.patch
  | _ => none

/-- How many bytes before its hole belong to an event. -/
def Event.lead : Event → Nat
  | .call _ => callOpcode.length
  | _ => 0

/-- An event has its bytes before those of another, if these are in the
text. -/
def Event.Before (e e' : Event) : Prop :=
  ∀ w ∈ e.window, ∀ w' ∈ e'.window,
    min (w + 4) textMax ≤ w' ∧ (w' + 4 ≤ textMax → w + 4 ≤ w' - e'.lead)

/-- The holes are in the text, one behind the other. -/
structure Layout (g : Globals) : Prop where
  bounded : g.textLen ≤ textMax
  below : ∀ e ∈ g.log, ∀ w ∈ e.window, min (w + 4) textMax ≤ g.textLen
  apart : g.log.Pairwise Event.Before

namespace Layout

variable {g : Globals}

theorem append (h : Layout g) (bs : List Byte) : Layout (g.append bs) where
  bounded := by
    have := h.bounded
    rw [Globals.textLen_append]
    omega
  below e he w hw := by
    rw [Globals.textLen_append]
    exact Nat.le_add_right_of_le (h.below e he w hw)
  apart := h.apart

theorem logged (h : Layout g) {e : Event} (he : e.window = none) : Layout (g.logged e) where
  bounded := h.bounded
  below e' he' w hw := by
    rcases List.mem_append.mp he' with he' | he'
    · exact h.below e' he' w hw
    · rw [List.mem_singleton.mp he', he] at hw
      cases hw
  apart := by
    refine List.pairwise_append.mpr ⟨h.apart, List.pairwise_singleton _ _, fun e₁ _ e' he' => ?_⟩
    rw [List.mem_singleton.mp he']
    intro w _ w' hw'
    rw [he] at hw'
    cases hw'

/-- A hole behind the text, with the opcode that belongs to it before it. -/
theorem hole (h : Layout g) {opcode : List Byte} {e : Event}
    (he : e.window = some (g.append opcode).textLen) (hlead : e.lead = opcode.length ∨ e.lead = 0) :
    Layout ((g.append opcode).hole e) where
  bounded := ((h.append opcode).append (disp32 0)).bounded
  below e' he' w hw := by
    have hbounded := (h.append opcode).bounded
    have hlen : ((g.append opcode).hole e).textLen =
        (g.append opcode).textLen + min 4 (textMax - (g.append opcode).textLen) :=
      Globals.textLen_append _ _
    rcases List.mem_append.mp he' with he' | he'
    · have := (h.append opcode).below e' he' w hw
      omega
    · rw [List.mem_singleton.mp he', he, Option.mem_some_iff] at hw
      omega
  apart := by
    refine List.pairwise_append.mpr ⟨h.apart, List.pairwise_singleton _ _, fun e₁ he₁ e' he' => ?_⟩
    rw [List.mem_singleton.mp he']
    intro w hw w' hw'
    rw [he, Option.mem_some_iff] at hw'
    have hbelow := h.below e₁ he₁ w hw
    have hlen := Globals.textLen_append g opcode
    refine ⟨by omega, fun hroom => ?_⟩
    rcases hlead with hlead | hlead <;> omega

/-- Different events have their bytes apart, if one of them has its bytes in the
text. -/
theorem disjoint (h : Layout g) {e e' : Event} (he : e ∈ g.log) (he' : e' ∈ g.log) (hne : e ≠ e')
    {w w' : Nat} (hw : w ∈ e.window) (hw' : w' ∈ e'.window) (hroom : w' + 4 ≤ textMax) :
    w + 4 ≤ w' - e'.lead ∨ w' + 4 ≤ w := by
  have hpair : g.log.Pairwise fun e e' => e.Before e' ∨ e'.Before e := h.apart.imp Or.inl
  have hsymm : Std.Symm fun e e' : Event => e.Before e' ∨ e'.Before e := ⟨fun _ _ => Or.symm⟩
  rcases hpair.forall he he' hne with hbefore | hbefore
  · exact .inl ((hbefore w hw w' hw').2 hroom)
  · have := (hbefore w' hw' w hw).1
    exact .inr (by omega)

end Layout

/-! ## Bytes that stay -/

section Bytes

variable {g : Globals} {a : Nat} {bs : List Byte}

theorem holds_of_append (h : g.text.Holds a bs) (hend : a + bs.length ≤ g.textLen)
    (cs : List Byte) : (g.append cs).text.Holds a bs :=
  h.congr fun i _ hi => Buf.put_below (by omega)

theorem holds_append_self (hroom : g.textLen + bs.length ≤ textMax) :
    (g.append bs).text.Holds g.textLen bs := by
  have htake : bs.take (textMax - g.textLen) = bs := List.take_of_length_le (by omega)
  rw [Globals.append, htake]
  exact Buf.holds_put _ _ _

end Bytes

/-! ## Tables of limited size -/

def Event.call? : Event → Option CallPatch
  | .call c => some c
  | _ => none

def Event.ref? : Event → Option DataRef
  | .ref r => some r
  | _ => none

/-- The calls that were emitted, in their order. -/
def callsOf (log : List Event) : List CallPatch :=
  log.filterMap Event.call?

/-- The references to data that were emitted, in their order. -/
def refsOf (log : List Event) : List DataRef :=
  log.filterMap Event.ref?

/-- A table that is appended to while there is room has the first entries. -/
theorem take_append_singleton {α : Type} {table xs : List α} {size : Nat}
    (h : table = xs.take size) (x : α) :
    (if table.length < size then table ++ [x] else table) = (xs ++ [x]).take size := by
  subst h
  rw [List.length_take, List.take_append]
  split
  next hroom =>
    have hx : [x].take (size - xs.length) = [x] :=
      List.take_of_length_le (by rw [List.length_singleton]; omega)
    rw [hx]
  next hfull =>
    have hx : size - xs.length = 0 := by omega
    rw [hx, List.take_zero, List.append_nil]

/-- What the tables, the text and the data have of what was emitted. -/
structure Sites (g : Globals) : Prop where
  calls : g.calls = (callsOf g.log).take maxCalls
  refs : g.dataRefs = (refsOf g.log).take maxDataRefs
  /-- A call in the text waits for its displacement. -/
  call : ∀ c, Event.call c ∈ g.log → c.patch + 4 ≤ textMax →
    0 < c.patch ∧ g.text.Holds (c.patch - 1) (callOpcode ++ disp32 0)
  dataLen : g.dataLen ≤ dataMax
  literal : ∀ off bytes, Event.literal off bytes ∈ g.log → off + bytes.length ≤ dataMax →
    off + bytes.length ≤ g.dataLen ∧ g.data.Holds off bytes

namespace Sites

variable {g : Globals}

theorem append (h : Sites g) (hl : Layout g) (bs : List Byte) : Sites (g.append bs) where
  calls := h.calls
  refs := h.refs
  call c hc hroom := by
    obtain ⟨hpos, hholds⟩ := h.call c hc hroom
    have hbelow := hl.below _ hc c.patch rfl
    refine ⟨hpos, holds_of_append hholds ?_ bs⟩
    change c.patch - 1 + 5 ≤ g.textLen
    omega
  dataLen := h.dataLen
  literal := h.literal

/-- One more event, with the tables that have it. -/
theorem log (h : Sites g) (e : Event) {calls : List CallPatch} {refs : List DataRef} {out : String}
    (hcalls : calls = (callsOf (g.log ++ [e])).take maxCalls)
    (hrefs : refs = (refsOf (g.log ++ [e])).take maxDataRefs)
    (hcall : ∀ c, e = .call c → c.patch + 4 ≤ textMax →
      0 < c.patch ∧ g.text.Holds (c.patch - 1) (callOpcode ++ disp32 0))
    (hlit : ∀ off bytes, e = .literal off bytes → off + bytes.length ≤ dataMax →
      off + bytes.length ≤ g.dataLen ∧ g.data.Holds off bytes) :
    Sites { g.logged e with calls := calls, dataRefs := refs, out := out } where
  calls := hcalls
  refs := hrefs
  call c hc hroom := by
    rcases List.mem_append.mp hc with hc | hc
    · exact h.call c hc hroom
    · exact hcall c (List.mem_singleton.mp hc).symm hroom
  dataLen := h.dataLen
  literal off bytes hl hroom := by
    rcases List.mem_append.mp hl with hl | hl
    · exact h.literal off bytes hl hroom
    · exact hlit off bytes (List.mem_singleton.mp hl).symm hroom

theorem logged (h : Sites g) {e : Event} (hcall : e.call? = none) (href : e.ref? = none)
    (hlit : ∀ off bytes, e ≠ .literal off bytes) : Sites (g.logged e) := by
  have hcalls : callsOf (g.log ++ [e]) = callsOf g.log := by
    rw [callsOf, List.filterMap_append, List.filterMap_cons_none hcall, List.filterMap_nil,
      List.append_nil, callsOf]
  have hrefs : refsOf (g.log ++ [e]) = refsOf g.log := by
    rw [refsOf, List.filterMap_append, List.filterMap_cons_none href, List.filterMap_nil,
      List.append_nil, refsOf]
  refine h.log e (h.calls.trans (by rw [hcalls])) (h.refs.trans (by rw [hrefs])) ?_ ?_
  · rintro c rfl
    cases hcall
  · exact fun off bytes he => absurd he (hlit off bytes)

theorem patch (h : Sites g) (hl : Layout g) {patch : Nat} (hlog : Event.hole patch ∈ g.log)
    (value : U32) : Sites { g with text := g.text.put patch (disp32 value) } where
  calls := h.calls
  refs := h.refs
  call c hc hroom := by
    obtain ⟨hpos, hholds⟩ := h.call c hc hroom
    refine ⟨hpos, hholds.congr fun i hi hi' => ?_⟩
    change i < c.patch - 1 + 5 at hi'
    have hdisjoint : patch + 4 ≤ c.patch - 1 ∨ c.patch + 4 ≤ patch :=
      hl.disjoint hlog hc (fun heq => by cases heq) rfl rfl hroom
    rcases hdisjoint with hbefore | hafter
    · exact Buf.put_above (show patch + 4 ≤ i by omega)
    · exact Buf.put_below (by omega)
  dataLen := h.dataLen
  literal := h.literal

end Sites

/-! ## The invariant -/

/-- What holds of the text and the tables while a function is compiled. -/
structure Placed (kmod : Bool) (g : Globals) : Prop where
  target : g.kmodTarget = kmod
  breaks : BreaksLogged g g.loops
  layout : Layout g
  sites : Sites g
  addr : ∀ f ∈ g.funcs, f.addr ≤ g.textLen
  /-- No function begins right behind a call, as there is more of the function
  that calls. -/
  behind : ∀ c, Event.call c ∈ g.log → c.patch + 4 < textMax → ∀ f ∈ g.funcs, f.addr ≠ c.patch + 4

namespace Placed

variable {kmod : Bool} {g : Globals}

theorem append (h : Placed kmod g) (bs : List Byte) : Placed kmod (g.append bs) where
  target := h.target
  breaks := h.breaks
  layout := h.layout.append bs
  sites := h.sites.append h.layout bs
  addr f hf := by
    rw [Globals.textLen_append]
    exact Nat.le_add_right_of_le (h.addr f hf)
  behind := h.behind

theorem logged (h : Placed kmod g) {e : Event} (hwindow : e.window = none) (hcall : e.call? = none)
    (href : e.ref? = none) (hlit : ∀ off bytes, e ≠ .literal off bytes) :
    Placed kmod (g.logged e) where
  target := h.target
  breaks := h.breaks.extends (extends_note e g)
  layout := h.layout.logged hwindow
  sites := h.sites.logged hcall href hlit
  addr := h.addr
  behind c hc hroom f hf := by
    rcases List.mem_append.mp hc with hc | hc
    · exact h.behind c hc hroom f hf
    · rw [← List.mem_singleton.mp hc] at hcall
      cases hcall

theorem hole (h : Placed kmod g) : Placed kmod (g.hole (.hole g.textLen)) := by
  have happend := h.append (disp32 0)
  have hlayout := @h.layout.hole g [] (.hole g.textLen) (by rw [Globals.append_nil]; rfl) (.inr rfl)
  rw [Globals.append_nil] at hlayout
  exact
    { target := h.target
      breaks := happend.breaks.extends (extends_note _ _)
      layout := hlayout
      sites := happend.sites.logged rfl rfl fun off bytes he => by cases he
      addr := happend.addr
      behind := fun c hc => by
        rcases List.mem_append.mp hc with hc | hc
        · exact h.behind c hc
        · cases List.mem_singleton.mp hc }

theorem callsOf_append_call (log : List Event) (c : CallPatch) :
    callsOf (log ++ [.call c]) = callsOf log ++ [c] := by
  rw [callsOf, List.filterMap_append]
  rfl

theorem refsOf_append_call (log : List Event) (c : CallPatch) :
    refsOf (log ++ [.call c]) = refsOf log := by
  rw [refsOf, List.filterMap_append]
  exact List.append_nil _

theorem callsOf_append_ref (log : List Event) (r : DataRef) :
    callsOf (log ++ [.ref r]) = callsOf log := by
  rw [callsOf, List.filterMap_append]
  exact List.append_nil _

theorem refsOf_append_ref (log : List Event) (r : DataRef) :
    refsOf (log ++ [.ref r]) = refsOf log ++ [r] := by
  rw [refsOf, List.filterMap_append]
  rfl

theorem call (h : Placed kmod g) (fn : Nat) : Placed kmod (emitCall fn g).2 := by
  have hbounded := h.layout.bounded
  have hlen : (g.append callOpcode).textLen = g.textLen + min 1 (textMax - g.textLen) :=
    Globals.textLen_append _ _
  have hboth : (g.append callOpcode).append (disp32 0) = g.append (callOpcode ++ disp32 0) :=
    Globals.append_append _ _ _
  have happend := h.append (callOpcode ++ disp32 0)
  rw [← hboth] at happend
  have hext := extends_emitCall fn g
  rw [emitCall_eq] at hext ⊢
  refine
    { target := h.target
      breaks := h.breaks.extends hext
      layout := ?_
      sites := ?_
      addr := happend.addr
      behind := fun c hc hroom f hf => ?_ }
  · have hlayout := @h.layout.hole g callOpcode (.call ⟨(g.append callOpcode).textLen, fn⟩) rfl
      (.inl rfl)
    exact ⟨hlayout.bounded, hlayout.below, hlayout.apart⟩
  · refine happend.sites.log (.call ⟨(g.append callOpcode).textLen, fn⟩) ?_ ?_ ?_ ?_
    · rw [callsOf_append_call]
      exact take_append_singleton h.sites.calls _
    · rw [refsOf_append_call]
      exact h.sites.refs
    · rintro c hc hroom
      cases hc
      dsimp only at hroom ⊢
      have hstart : (g.append callOpcode).textLen - 1 = g.textLen := by omega
      refine ⟨by omega, ?_⟩
      rw [hboth, hstart]
      exact holds_append_self (show g.textLen + 5 ≤ textMax by omega)
    · exact fun off bytes he => by cases he
  · rcases List.mem_append.mp hc with hc | hc
    · exact h.behind c hc hroom f hf
    · cases List.mem_singleton.mp hc
      have haddr := h.addr f hf
      dsimp only
      omega

theorem leaData (h : Placed kmod g) (opcode : List Byte) (off : Nat) :
    Placed kmod (emitLeaData opcode off g).2 := by
  have happend := (h.append opcode).append (disp32 0)
  have hext := extends_emitLeaData opcode off g
  obtain ⟨out, hrun⟩ := emitLeaData_eq opcode off g
  rw [hrun] at hext ⊢
  refine
    { target := h.target
      breaks := h.breaks.extends hext
      layout := ?_
      sites := ?_
      addr := happend.addr
      behind := fun c hc => ?_ }
  · have hlayout := @h.layout.hole g opcode (.ref ⟨(g.append opcode).textLen, off⟩) rfl (.inr rfl)
    exact ⟨hlayout.bounded, hlayout.below, hlayout.apart⟩
  · refine happend.sites.log (.ref ⟨(g.append opcode).textLen, off⟩) ?_ ?_ ?_ ?_
    · rw [callsOf_append_ref]
      exact h.sites.calls
    · rw [refsOf_append_ref]
      exact take_append_singleton h.sites.refs _
    · exact fun c he => by cases he
    · exact fun off bytes he => by cases he
  · rcases List.mem_append.mp hc with hc | hc
    · exact h.behind c hc
    · cases List.mem_singleton.mp hc

theorem addData (h : Placed kmod g) (bytes : List Byte) : Placed kmod (addData bytes g).2 := by
  have hdata := h.sites.dataLen
  have hstored : (bytes.take (dataMax - g.dataLen)).length = min bytes.length (dataMax - g.dataLen) := by
    rw [List.length_take, Nat.min_comm]
  have hlayout := @h.layout.logged g (.literal g.dataLen bytes) rfl
  refine
    { target := h.target
      breaks := h.breaks.extends (extends_addData bytes g)
      layout := ⟨hlayout.bounded, hlayout.below, hlayout.apart⟩
      sites := ⟨?_, ?_, fun c hc => ?_, ?_, fun off bs hlit hroom => ?_⟩
      addr := h.addr
      behind := fun c hc => ?_ }
  · have hcalls : callsOf (g.log ++ [.literal g.dataLen bytes]) = callsOf g.log := by
      rw [callsOf, List.filterMap_append]
      exact List.append_nil _
    exact h.sites.calls.trans (congrArg (List.take maxCalls) hcalls.symm)
  · have hrefs : refsOf (g.log ++ [.literal g.dataLen bytes]) = refsOf g.log := by
      rw [refsOf, List.filterMap_append]
      exact List.append_nil _
    exact h.sites.refs.trans (congrArg (List.take maxDataRefs) hrefs.symm)
  · rcases List.mem_append.mp hc with hc | hc
    · exact h.sites.call c hc
    · cases List.mem_singleton.mp hc
  · change g.dataLen + (bytes.take (dataMax - g.dataLen)).length ≤ dataMax
    omega
  · change off + bs.length ≤ g.dataLen + (bytes.take (dataMax - g.dataLen)).length ∧
      (g.data.put g.dataLen (bytes.take (dataMax - g.dataLen))).Holds off bs
    rcases List.mem_append.mp hlit with hlit | hlit
    · obtain ⟨hbelow, hholds⟩ := h.sites.literal off bs hlit hroom
      exact ⟨by omega, hholds.congr fun i _ hi => Buf.put_below (by omega)⟩
    · cases List.mem_singleton.mp hlit
      rw [List.take_of_length_le (by omega)]
      exact ⟨Nat.le_refl _, Buf.holds_put _ _ _⟩
  · rcases List.mem_append.mp hc with hc | hc
    · exact h.behind c hc
    · cases List.mem_singleton.mp hc

theorem patch (h : Placed kmod g) {patch : Nat} (hlog : Event.hole patch ∈ g.log) (value : U32) :
    Placed kmod { g with text := g.text.put patch (disp32 value) } where
  target := h.target
  breaks := h.breaks
  layout := ⟨h.layout.bounded, h.layout.below, h.layout.apart⟩
  sites := h.sites.patch h.layout hlog value
  addr := h.addr
  behind := h.behind

theorem other (h : Placed kmod g) {loops : List (List Nat)} (hbreaks : BreaksLogged g loops)
    (vars : List Var) (currentFunc : Nat) (isUnsafe : Bool) (stackSize : U32) (out : String) :
    Placed kmod { g with
      loops := loops, vars := vars, currentFunc := currentFunc, functionUnsafe := isUnsafe
      stackSize := stackSize, out := out } where
  target := h.target
  breaks := hbreaks
  layout := ⟨h.layout.bounded, h.layout.below, h.layout.apart⟩
  sites := ⟨h.sites.calls, h.sites.refs, h.sites.call, h.sites.dataLen, h.sites.literal⟩
  addr := h.addr
  behind := h.behind

/-- Statements keep the invariant. -/
theorem stable (kmod : Bool) : StableStmt kmod (Placed kmod) where
  target _ hg := hg.target
  puts s g hg := hg.other hg.breaks g.vars g.currentFunc g.functionUnsafe g.stackSize (g.out ++ s)
  emit8 b g hg := by
    rw [emit8_eq]
    exact hg.append [b]
  call fn _ hg := hg.call fn
  addData bytes _ hg := hg.addData bytes
  leaData opcode off _ hg _ := hg.leaData opcode off
  syscall _ hg _ := hg.logged rfl rfl rfl fun off bytes he => by cases he
  access _ _ hg _ _ := hg.logged rfl rfl rfl fun off bytes he => by cases he
  hole g hg := by
    rw [emitHole_eq]
    exact hg.hole
  patch patch value _ hg hlog := hg.patch hlog value
  setUnsafe g isUnsafe hg := hg.other hg.breaks g.vars g.currentFunc isUnsafe g.stackSize g.out
  breaks _ hg := hg.breaks
  setLoops g _ hg hbreaks :=
    hg.other hbreaks g.vars g.currentFunc g.functionUnsafe g.stackSize g.out
  addVar name t g hg := by
    change Placed kmod ((if g.vars.length ≥ maxVars then _ else _ : Compile (Option Var)) g).2
    split
    next => exact hg
    next => exact hg.other hg.breaks _ g.currentFunc g.functionUnsafe _ g.out

end Placed

end OreOS.Orec
