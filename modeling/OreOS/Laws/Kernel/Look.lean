import OreOS.Kernel.Reads

/-!
# What a computation reads

`Look.Within P x Q` says of a computation with its reads on record that they are all
where `P` allows them, and that its answer has `Q`. It goes along with the program.
-/

namespace OreOS.Kernel.Look

open OreOS.Lib (Word Mem)

variable {α β : Type} {P : Word → Nat → Prop}

/-- The computation reads only where `P` holds, and answers with `Q`. -/
def Within (P : Word → Nat → Prop) (x : Look α) (Q : α → Prop) : Prop :=
  ∀ reads : Reads, (∀ r ∈ reads, P r.1 r.2) → (∀ r ∈ (x reads).2, P r.1 r.2) ∧ Q (x reads).1

theorem Within.pure {Q : α → Prop} {v : α} (h : Q v) : Within P (Pure.pure v) Q :=
  fun _ hreads => ⟨hreads, h⟩

theorem Within.bind {x : Look α} {f : α → Look β} {Q : α → Prop} {R : β → Prop}
    (hx : Within P x Q) (hf : ∀ v, Q v → Within P (f v) R) : Within P (x >>= f) R := by
  intro reads hreads
  obtain ⟨hreads', hv⟩ := hx reads hreads
  exact hf _ hv _ hreads'

theorem Within.bind_eq {x : Look α} {f : α → Look β} {v : α} {R : β → Prop}
    (hx : Within P x (· = v)) (hf : Within P (f v) R) : Within P (x >>= f) R :=
  hx.bind fun _ hv => hv ▸ hf

theorem Within.read {x : Look α} {v : α} {addr : Word} {n : Nat}
    (hx : ∀ reads, x reads = (v, (addr, n) :: reads)) (h : P addr n) : Within P x (· = v) := by
  intro reads hreads
  rw [hx]
  refine ⟨?_, rfl⟩
  rintro r (_ | ⟨_, hr⟩)
  · exact h
  · exact hreads r hr

section Loads

variable {mem : Mem} {addr : Word}

theorem within_byte (h : P addr 1) : Within P (byte mem addr) (· = mem addr) :=
  .read (fun _ => rfl) h

theorem within_word32 (h : P addr 4) : Within P (word32 mem addr) (· = mem.load32 addr) :=
  .read (fun _ => rfl) h

theorem within_word64 (h : P addr 8) : Within P (word64 mem addr) (· = mem.load64 addr) :=
  .read (fun _ => rfl) h

end Loads

end OreOS.Kernel.Look
