import OreOS.Laws.Kernel.Record

/-!
# Where a descheduled process resumes

A tick saves a whole frame and a YIELD saves two pointers, and either save can
meet either restore. The saves are always intact (`Kept`), so what a process
gets back depends on the pair alone: a tick gives back a frame, which may be
older than the last YIELD, and a call gives back two pointers and the registers
of whoever made the call. `resumes_where_descheduled` states the pairs that
work.
-/

namespace OreOS.Kernel

open OreOS.Lib (Word Byte Run runList)
open Syscall (LoadedImage)

/-- The process that was descheduled like this gets back what it had: the
pointers, and after a tick the general registers. -/
def Descheduled.ResumedBy (ctx' : UserCtx) : Descheduled → Prop
  | .tick frame => ctx'.rip = frame.rip ∧ ctx'.rsp = frame.rsp ∧ ctx'.regs = frame.regs
  | .yield rip rsp => ctx'.rip = rip ∧ ctx'.rsp = rsp

/-- The event restores what was saved: a tick gives a frame to a process that a
tick descheduled; a process that yielded, from a place that is not null, gets
its pointers back from a call or from the first tick it ever meets. -/
def Descheduled.Fits (p : Process) : Descheduled → Event → Prop
  | .tick _, .tick _ => True
  | .tick _, .call _ _ => False
  | .yield rip rsp, .tick _ => rip ≠ 0 ∧ rsp ≠ 0 ∧ p.hasUserFrame = false
  | .yield rip rsp, .call _ _ => rip ≠ 0 ∧ rsp ≠ 0

instance (p : Process) (d : Descheduled) (e : Event) : Decidable (d.Fits p e) :=
  match d, e with
  | .tick _, .tick _ => inferInstanceAs (Decidable True)
  | .tick _, .call _ _ => inferInstanceAs (Decidable False)
  | .yield _ _, .tick _ => inferInstanceAs (Decidable (_ ∧ _ ∧ _))
  | .yield _ _, .call _ _ => inferInstanceAs (Decidable (_ ∧ _))

instance (ctx' : UserCtx) (d : Descheduled) : Decidable (d.ResumedBy ctx') :=
  match d with
  | .tick _ => inferInstanceAs (Decidable (_ ∧ _ ∧ _))
  | .yield _ _ => inferInstanceAs (Decidable (_ ∧ _))

namespace Recorded

variable {w w' : Recorded} {e : Event} {ctx' : UserCtx}

/-- The saves the record speaks of are in the table. -/
structure Kept (w : Recorded) : Prop where
  inv : w.table.board.Inv
  last : ∀ i d, w.last i = some d →
    i < w.table.count ∧ (w.table.procs i).state = .ready ∧ d.SavedIn (w.table.procs i)

theorem kept_init (t : ProcTable) (h : t.board.Inv) : (init t).Kept :=
  ⟨h, nofun⟩

theorem stepCtx_inv (hs : w.stepCtx e = some (w', ctx')) :
    ∃ t', OreOS.Kernel.stepCtx w.table e = some (t', ctx') ∧ w' = w.next e t' := by
  obtain ⟨⟨t', _⟩, ht, heq⟩ := Option.map_eq_some_iff.mp hs
  cases heq
  exact ⟨t', ht, rfl⟩

@[simp] theorem next_table (w : Recorded) (e : Event) (t : ProcTable) :
    (w.next e t).table = t := by
  unfold next
  split <;> rfl

/-- What a map of the record holds after a step: what it held before and, if the step switches,
not about the process that is entered; or what the switch put there for the process it left. -/
theorem update_switch {α : Type} {f : Nat → Option α} {new : Option α} {cur q i : Nat} {x : α}
    (h : (if q = cur then f else Function.update (Function.update f cur new) q none) i = some x) :
    (f i = some x ∧ (q ≠ cur → i ≠ q)) ∨ (q ≠ cur ∧ i = cur ∧ new = some x) := by
  split at h
  next hc => exact .inl ⟨h, fun hne => absurd hc hne⟩
  next hne =>
    by_cases hq : i = q
    · simp [hq] at h
    · rw [Function.update_of_ne hq] at h
      by_cases hc : i = cur
      · rw [hc, Function.update_self] at h
        exact .inr ⟨hne, hc, h⟩
      · rw [Function.update_of_ne hc] at h
        exact .inl ⟨h, fun _ => hq⟩

/-- What is on record after a step was on record before and, if the step
switches, is about neither process of the switch; or it is how this step left
the last one. -/
theorem next_last {t' : ProcTable} {i : Nat} {d : Descheduled}
    (h : (w.next e t').last i = some d) :
    (w.last i = some d ∧ (t'.current ≠ w.table.current → i ≠ t'.current)) ∨
    (t'.current ≠ w.table.current ∧ i = w.table.current ∧ e.descheduled = some d) := by
  refine update_switch ?_
  unfold next at h
  split at h
  next hc => rwa [if_pos hc]
  next hne => rwa [if_neg hne]

theorem next_waiting {t' : ProcTable} {i pid : Nat} (h : (w.next e t').waiting i = some pid) :
    (w.waiting i = some pid ∧ (t'.current ≠ w.table.current → i ≠ t'.current)) ∨
    (t'.current ≠ w.table.current ∧ i = w.table.current ∧ e.waitFor = some pid) := by
  refine update_switch ?_
  unfold next at h
  split at h
  next hc => rwa [if_pos hc]
  next hne => rwa [if_neg hne]

/-- The saves stay intact, whatever the event. -/
theorem kept_step (h : w.Kept) (hs : w.step e = some w') : w'.Kept := by
  obtain ⟨⟨w', ctx'⟩, hctx, rfl⟩ := Option.map_eq_some_iff.mp hs
  obtain ⟨t', ht, rfl⟩ := stepCtx_inv hctx
  have hstep : OreOS.Kernel.step w.table e = some t' := by
    rw [OreOS.Kernel.step, ht]
    rfl
  have hinv' := inv_step h.inv hstep
  have hcount := count_le_step h.inv hstep
  refine ⟨by rwa [next_table], fun i d hi => ?_⟩
  rw [next_table]
  rcases next_last hi with ⟨hlast, hne⟩ | ⟨hne, rfl, hd⟩
  · obtain ⟨hlt, hready, hsaved⟩ := h.last i d hlast
    have hcur : i ≠ w.table.current := by
      rintro rfl
      rw [h.inv.current_running] at hready
      cases hready
    have hcur' : i ≠ t'.current := by omega
    have hsame := stepCtx_frame h.inv ht hlt hcur hcur' fun hb => by
      rw [hready] at hb
      cases hb
    rw [hsame]
    exact ⟨Nat.lt_of_lt_of_le hlt hcount, hready, hsaved⟩
  · obtain ⟨hready, hsaved⟩ := stepCtx_saves h.inv ht hne hd
    exact ⟨Nat.lt_of_lt_of_le h.inv.current_lt hcount, hready, hsaved⟩

/-- The restore the event makes fits the save of the process it turns to. -/
def Fits (w : Recorded) (e : Event) : Prop :=
  ∀ q ∈ entering w.table e, ∀ d ∈ w.last q, d.Fits (w.table.procs q) e

instance (w : Recorded) (e : Event) : Decidable (w.Fits e) :=
  inferInstanceAs (Decidable (∀ q ∈ entering w.table e, ∀ d ∈ w.last q, d.Fits (w.table.procs q) e))

/-- A restore that fits gives the process back what it had. -/
theorem resumedBy_of_saved {p : Process} {d : Descheduled} (hsaved : d.SavedIn p)
    (henters : EntersAt p ctx' e) (hfits : d.Fits p e) : d.ResumedBy ctx' := by
  cases d with
  | tick frame =>
    cases e with
    | tick frame' =>
      obtain ⟨hhas, huser, -, -⟩ := hsaved
      obtain rfl : ctx' = (resumeFrame p).userCtx := henters
      rw [resumeFrame, if_pos hhas, huser]
      exact ⟨rfl, rfl, rfl⟩
    | call ctx request => exact hfits.elim
  | yield rip rsp =>
    obtain ⟨rfl, rfl⟩ := hsaved
    cases e with
    | tick frame' =>
      obtain ⟨hrip, hrsp, hno⟩ := hfits
      obtain rfl : ctx' = (resumeFrame p).userCtx := henters
      rw [resumeFrame, hno]
      exact ⟨if_pos hrip, if_pos hrsp⟩
    | call ctx request =>
      obtain ⟨hrip, hrsp⟩ := hfits
      have hpair : (ctx'.rip, ctx'.rsp) = resumePointers p := henters
      rw [resumePointers, if_pos hrip, if_pos hrsp] at hpair
      exact ⟨congrArg Prod.fst hpair, congrArg Prod.snd hpair⟩

/-- In every run, a process that a tick or its own YIELD left READY and that a
step whose restore fits makes current again, resumes where it was
descheduled. -/
theorem resumes_where_descheduled {kernelPml4 pml4 : Word} {path : List Byte}
    {image : LoadedImage} {d : Descheduled}
    (hrun : Run step (fun _ _ => True) (init (userInitSpawn kernelPml4 pml4 path image)) w)
    (hfits : w.Fits e) (hs : w.stepCtx e = some (w', ctx'))
    (hswitch : w'.table.current ≠ w.table.current) (hlast : w.last w'.table.current = some d) :
    d.ResumedBy ctx' := by
  have hkept : w.Kept :=
    hrun.invariant (kept_init _ (inv_userInitSpawn kernelPml4 pml4 path image))
      fun _ _ _ h _ hs => kept_step h hs
  obtain ⟨t', ht, rfl⟩ := stepCtx_inv hs
  rw [next_table] at hswitch hlast
  obtain ⟨hlt, hready, hsaved⟩ := hkept.last _ d hlast
  obtain ⟨hent, henters⟩ := stepCtx_enters hkept.inv ht hswitch hlt hready
  exact resumedBy_of_saved hsaved henters (hfits _ hent d hlast)

/-! ## Three children -/

/-- An image at the bottom of the user half. -/
def anyImage : LoadedImage :=
  ⟨0x8000000000, 0x8000100000, 1⟩

/-- The first process's state, with a record. -/
def start : Recorded :=
  init (userInitSpawn 0x1000 0x2000 [] anyImage)

/-- A user context at offset `n` of the image. -/
def ctxAt (n : Word) : UserCtx :=
  { rip := 0x8000000000 + n, rsp := 0x8000100000 }

/-- A timer frame from user code at offset `n` of the image. -/
def frameAt (n : Word) : InterruptFrame :=
  { regs := { rbx := n }, vector := 32, rip := 0x8000000000 + n, cs := 0x23, rflags := 0x202,
    rsp := 0x8000100000, ss := 0x1b }

def spawnAny : Event :=
  .call (ctxAt 0x10) (.spawn (.created [] 0x3000 [] (.ok anyImage)))

/-- The first process spawns three children and waits for pid 2; a tick takes
the processor from 2 and starts 3, which yields to 4. -/
def threeChildren : List Event :=
  [spawnAny, spawnAny, spawnAny, .call (ctxAt 0x20) (.wait 2), .tick (frameAt 0x30),
   .call (ctxAt 0x40) .yield]

/-- The next tick gives 2 its frame back. -/
theorem resumes_where_descheduled_tick :
    ∃ w w' ctx', Run step (fun _ _ => True) start w ∧
      w.stepCtx (.tick (frameAt 0x50)) = some (w', ctx') ∧ w'.table.current = 2 ∧
      (Descheduled.tick (frameAt 0x30)).ResumedBy ctx' := by
  have hlist : runList step (fun _ _ => True) start threeChildren = some _ := rfl
  have hrun := Run.ofList hlist
  refine ⟨_, _, _, hrun, rfl, rfl, ?_⟩
  exact resumes_where_descheduled hrun (e := .tick (frameAt 0x50)) (by decide) rfl (by decide) rfl

/-- Pid 3 is resumed at its entry point, not at the instruction after its
YIELD: the frame that the tick made up to start it is still there. -/
theorem staleFrame :
    ∃ w w' ctx', Run step (fun _ _ => True) start w ∧
      w.stepCtx (.tick (frameAt 0x60)) = some (w', ctx') ∧
      w'.table.current ≠ w.table.current ∧
      w.last w'.table.current = some (.yield 0x8000000040 0x8000100000) ∧
      ctx'.rip = 0x8000000000 ∧
      ¬ (Descheduled.yield 0x8000000040 0x8000100000).ResumedBy ctx' := by
  have hlist : runList step (fun _ _ => True) start
      (threeChildren ++ [.tick (frameAt 0x50)]) = some _ := rfl
  exact ⟨_, _, _, Run.ofList hlist, rfl, by decide, rfl, rfl, by decide⟩

end Recorded

end OreOS.Kernel
