import OreOS.Kernel.Pmm

/-!
# Spin locks (`kernel/spinlock.c`)

Any number of CPUs whose calls have critical sections under one lock. A step is an access of
one CPU to the lock, the store that unlocks included, or a step of its section, of which
nothing is assumed to be atomic.
-/

namespace OreOS.Kernel

open OreOS.Lib (Word)

/-- Critical sections of the calls `κ`: where one begins, and what its next step makes of the
data, or the answer at its end. -/
structure Section (κ π σ ρ : Type) where
  enter : κ → π
  next : π → σ → (π × σ) ⊕ ρ

/-- Where a CPU is: in no call, at one of the loops of `spinlock_lock`, or in the section. -/
inductive LockPc (κ π : Type)
  | outside
  | exchange (call : κ)
  | load (call : κ)
  | inside (call : κ) (pc : π)

/-- The lock, the data that it guards, the CPUs, and the calls that are through. -/
structure Locked (ι κ π σ ρ : Type) where
  value : Bool := false
  data : σ
  pc : ι → LockPc κ π := fun _ => .outside
  log : List (κ × ρ) := []

namespace Locked

variable {ι κ π σ ρ : Type} [DecidableEq ι]

def goto (s : Locked ι κ π σ ρ) (cpu : ι) (pc : LockPc κ π) : Locked ι κ π σ ρ :=
  { s with pc := Function.update s.pc cpu pc }

/-- A CPU begins a call, or goes on with the one it is in. -/
def step (sec : Section κ π σ ρ) (s : Locked ι κ π σ ρ) :
    ι × Option κ → Option (Locked ι κ π σ ρ)
  | (cpu, request) =>
    match s.pc cpu, request with
    | .outside, some call => some (s.goto cpu (.exchange call))
    | .exchange call, none =>
      if s.value then some (s.goto cpu (.load call))
      else some { s.goto cpu (.inside call (sec.enter call)) with value := true }
    | .load call, none => some (s.goto cpu (if s.value then .load call else .exchange call))
    | .inside call pc, none =>
      match sec.next pc s.data with
      | .inl (pc, data) => some { s.goto cpu (.inside call pc) with data := data }
      | .inr answer =>
        some { s.goto cpu .outside with value := false, log := s.log ++ [(call, answer)] }
    | _, _ => none

end Locked

/-- `pmm_free_pages` under `pmm_lock`, which it takes if there is something to free: a step is
a round of its loop. -/
def pmmFreeSection :
    Section { call : Word × BitVec 32 // ¬(call.1 = 0 ∨ call.2 = 0) } (List Nat) Pmm Unit where
  enter call := runPages call.1.1 call.1.2
  next
    | [], _ => .inr ()
    | page :: pages, s => .inl (pages, freePage s page)

end OreOS.Kernel
