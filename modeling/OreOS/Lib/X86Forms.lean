import OreOS.Lib.X86

/-!
# Instruction forms with immediates

Decoding computes on the bytes of an opcode, but an immediate is a variable. The
bytes of a displacement are put together again here, and a form whose bytes are
all variables decodes by computation; `decode_disp32` joins the two.

An instruction decodes without a look at what follows it (`decode_append`), so code
that is put together runs as its parts do (`runCode_append`).
-/

namespace OreOS.Lib.X86

open OreOS.Lib.Mem (leBytes)

theorem bytes_disp32 (d : BitVec 32) :
    d.extractLsb' 24 8 ++ d.extractLsb' 16 8 ++ d.extractLsb' 8 8 ++ d.extractLsb' 0 8 = d := by
  rw [BitVec.extractLsb'_append_extractLsb'_eq_extractLsb' (by decide),
    BitVec.extractLsb'_append_extractLsb'_eq_extractLsb' (by decide),
    BitVec.extractLsb'_append_extractLsb'_eq_extractLsb' (by decide)]
  exact BitVec.extractLsb'_eq_self

theorem decode_disp32 {opcode : List Byte} {f : Word → Instr}
    (h : ∀ b₀ b₁ b₂ b₃ bs, decode (opcode ++ ([b₀, b₁, b₂, b₃] ++ bs)) =
      some (f ((b₃ ++ b₂ ++ b₁ ++ b₀).signExtend 64), bs)) (d : BitVec 32) (bs : List Byte) :
    decode (opcode ++ (leBytes 4 d ++ bs)) = some (f (d.signExtend 64), bs) := by
  have hbytes := h (d.extractLsb' 0 8) (d.extractLsb' 8 8) (d.extractLsb' 16 8) (d.extractLsb' 24 8) bs
  rw [bytes_disp32] at hbytes
  exact hbytes

theorem runCode_cons {n : Nat} {bs rest : List Byte} {i : Instr} {s s' : State}
    (hdecode : decode bs = some (i, rest))
    (hexec : exec { s with rip := s.rip + BitVec.ofNat 64 (bs.length - rest.length) } i = some s') :
    runCode (n + 1) bs s = runCode n rest s' := by
  have hne : bs ≠ [] := by
    rintro rfl
    cases hdecode
  rw [runCode.eq_3 bs s n hne, hdecode]
  change (exec _ i).bind _ = _
  rw [hexec]
  rfl

/-! ## Readers -/

variable {α β : Type}

/-- A reader of bytes that does not look behind what it takes. -/
def Reads (f : List Byte → Option (α × List Byte)) : Prop :=
  ∀ bs x rest, f bs = some (x, rest) → ∀ cs, f (bs ++ cs) = some (x, rest ++ cs)

theorem imm8_reads : Reads imm8 := by
  intro bs x rest h cs
  cases bs with
  | nil => cases h
  | cons b bs => cases h; rfl

theorem imm32_reads : Reads imm32 := by
  intro bs x rest h cs
  unfold imm32 at h
  split at h
  · cases h; rfl
  · cases h

theorem imm64_reads : Reads imm64 := by
  intro bs x rest h cs
  unfold imm64 at h
  split at h
  · cases h; rfl
  · cases h

theorem baseReg_reads (rex : Rex) (rm : Nat) : Reads (baseReg rex rm) := by
  intro bs x rest h cs
  unfold baseReg at h ⊢
  split at h
  next hrm =>
    rw [if_pos hrm]
    cases bs with
    | nil => cases h
    | cons sib bs =>
      dsimp only [List.cons_append] at h ⊢
      split at h
      next hsib => cases h; rw [if_pos hsib]
      next => cases h
  next hrm =>
    cases h
    rw [if_neg hrm]

theorem Reads.none : Reads fun _ => (Option.none : Option (α × List Byte)) := by
  intro bs x rest h
  cases h

theorem Reads.ret (x : α) : Reads fun bs => some (x, bs) := by
  intro bs y rest h cs
  cases h
  rfl

theorem Reads.ite {p : Prop} [Decidable p] {f g : List Byte → Option (α × List Byte)}
    (hf : Reads f) (hg : Reads g) : Reads fun bs => if p then f bs else g bs := by
  intro bs x rest h cs
  dsimp only at h ⊢
  split at h
  next hp => rw [if_pos hp, hf _ _ _ h cs]
  next hp => rw [if_neg hp, hg _ _ _ h cs]

theorem Reads.bind {f : List Byte → Option (α × List Byte)}
    {k : α × List Byte → Option (β × List Byte)} (hf : Reads f)
    (hk : ∀ x, Reads fun bs => k (x, bs)) : Reads fun bs => (f bs).bind k := by
  intro bs y rest h cs
  obtain ⟨⟨x, bs'⟩, hx, hy⟩ := Option.bind_eq_some_iff.mp h
  dsimp only
  rw [hf _ _ _ hx cs, Option.bind_some]
  exact hk x _ _ _ hy cs

/-- A choice that does not depend on the bytes. -/
theorem Reads.choose {γ : Type} {c : Option γ} {k : γ → List Byte → Option (β × List Byte)}
    (hk : ∀ x, Reads (k x)) : Reads fun bs => c.bind fun x => k x bs := by
  intro bs y rest h cs
  obtain ⟨x, rfl, hy⟩ := Option.bind_eq_some_iff.mp h
  exact hk x _ _ _ hy cs

theorem Reads.modRM {rex : Rex} {k : Nat × Operand × List Byte → Option (α × List Byte)}
    (hk : ∀ r o, Reads fun bs => k (r, o, bs)) : Reads fun bs => (X86.modRM rex bs).bind k := by
  intro bs x rest h cs
  obtain ⟨⟨r, o, bs'⟩, hmod, hx⟩ := Option.bind_eq_some_iff.mp h
  suffices hread : X86.modRM rex (bs ++ cs) = some (r, o, bs' ++ cs) by
    dsimp only
    rw [hread, Option.bind_some]
    exact hk r o _ _ _ hx cs
  cases bs with
  | nil => cases hmod
  | cons m bs =>
    simp only [X86.modRM, List.cons_append, Option.bind_eq_bind] at hmod ⊢
    split at hmod
    next hmode => cases hmod; rw [if_pos hmode]
    next hmode =>
      rw [if_neg hmode]
      split at hmod
      next hrip =>
        rw [if_pos hrip]
        obtain ⟨⟨d, bs'⟩, hd, hx⟩ := Option.bind_eq_some_iff.mp hmod
        cases hx
        rw [imm32_reads _ _ _ hd]
        rfl
      next hrip =>
        rw [if_neg hrip]
        obtain ⟨⟨base, bs'⟩, hbase, hx⟩ := Option.bind_eq_some_iff.mp hmod
        rw [baseReg_reads rex _ _ _ _ hbase, Option.bind_some]
        dsimp only at hx ⊢
        split at hx
        next hmode0 => cases hx; rw [if_pos hmode0]; rfl
        next hmode0 =>
          rw [if_neg hmode0]
          split at hx
          next hmode1 =>
            rw [if_pos hmode1]
            obtain ⟨⟨d, bs''⟩, hd, hx⟩ := Option.bind_eq_some_iff.mp hx
            cases hx
            rw [imm8_reads _ _ _ hd]
            rfl
          next hmode1 =>
            rw [if_neg hmode1]
            obtain ⟨⟨d, bs''⟩, hd, hx⟩ := Option.bind_eq_some_iff.mp hx
            cases hx
            rw [imm32_reads _ _ _ hd]
            rfl

theorem decode0F_reads (rex : Rex) (op : Byte) : Reads fun bs => decode0F rex (op :: bs) := by
  unfold decode0F
  refine .ite (.ret _) (.ite ?_ (.ite ?_ (.ite ?_ (.ite ?_ .none))))
  · exact .modRM fun r o => .ite (.ret _) .none
  · exact .modRM fun r o => .ite (.ret _) .none
  · exact .choose fun c => .bind imm32_reads fun d => .ret _
  · exact .choose fun c => .modRM fun r o => .ite (.ret _) .none

theorem decodeOp_reads (rex : Rex) (op : Byte) : Reads (decodeOp rex op) := by
  unfold decodeOp
  refine .ite ?_ (.ite (.ret _) (.ite (.ret _) (.ite (.ret _) ?_)))
  · intro bs x rest h cs
    cases bs with
    | nil => cases h
    | cons b bs => exact decode0F_reads rex b _ _ _ h cs
  refine .ite (.bind imm32_reads fun d => .ret _) (.ite (.bind imm32_reads fun d => .ret _) ?_)
  refine .ite (.ite (.bind imm64_reads fun d => .ret _) .none) ?_
  refine .ite (.modRM fun r o => .ite (.ret _) .none) ?_
  refine .ite (.modRM fun r o => .ret _) (.ite (.modRM fun r o => .ret _) ?_)
  refine .ite (.modRM fun r o => .bind imm8_reads fun d => .ite (.ret _) .none) ?_
  refine .ite (.modRM fun r o => ?_) ?_
  · cases rex.w <;> cases o <;> first | exact .none | exact .ret _
  refine .ite (.ite (.ret _) .none) ?_
  refine .ite (.modRM fun r o => .bind imm8_reads fun d => .ite (.ret _) .none) ?_
  refine .ite (.modRM fun r o => .choose fun i => .ite (.ret _) .none) ?_
  refine .ite (.modRM fun r o => .bind imm8_reads fun d => .choose fun i => .ite (.ret _) .none) ?_
  refine .ite (.modRM fun r o => .bind imm32_reads fun d => .choose fun i => .ret _) ?_
  refine .ite (.modRM fun r o => .bind imm8_reads fun d => .choose fun i => .ret _) ?_
  refine .ite (.choose fun i => .modRM fun r o => .ret _) ?_
  exact .ite (.choose fun i => .bind imm32_reads fun d => .ret _) .none

/-- The decoder does not look behind an instruction. -/
theorem decode_append {bs rest : List Byte} {i : Instr} (h : decode bs = some (i, rest))
    (cs : List Byte) : decode (bs ++ cs) = some (i, rest ++ cs) := by
  cases bs with
  | nil => cases h
  | cons b bs =>
    rw [List.cons_append]
    unfold decode at h ⊢
    dsimp only at h ⊢
    split at h
    next hrex =>
      rw [if_pos hrex]
      cases bs with
      | nil => cases h
      | cons op bs =>
        dsimp only [List.cons_append] at h ⊢
        split at h
        next => cases h
        next hx =>
          rw [if_neg hx]
          exact decodeOp_reads _ op _ _ _ h cs
    next hrex =>
      rw [if_neg hrex]
      exact decodeOp_reads _ b _ _ _ h cs

/-! ## Memory operands -/

/-- A load of what was stored, in the width of the store. -/
theorem State.load_write (s : State) (a v : Word) (w : Width) {m : Mem}
    (hmem : s.mem = m.write a (leBytes w.bytes v)) : s.load a w = State.low w v := by
  cases w with
  | byte =>
    have hbyte := Mem.write_leBytes m a v (n := 1) (by decide) (i := 0) (by decide)
    rw [BitVec.add_zero] at hbyte
    show (s.mem a).setWidth 64 = _
    rw [hmem]
    exact congrArg (BitVec.setWidth 64) hbyte
  | dword =>
    show (s.mem.load32 a).setWidth 64 = _
    rw [hmem]
    exact congrArg (BitVec.setWidth 64) (Mem.load32_write m a v)
  | qword =>
    show s.mem.load64 a = _
    rw [hmem]
    exact Mem.load64_store64 m a v

/-! ## Sequences -/

theorem runCode_succ {n : Nat} {bs : List Byte} {s s' : State} (h : runCode n bs s = some s') :
    runCode (n + 1) bs s = some s' := by
  induction n generalizing bs s with
  | zero =>
    cases bs with
    | nil => exact h
    | cons b bs => cases h
  | succ n ih =>
    by_cases hbs : bs = []
    · subst hbs
      exact h
    · rw [runCode.eq_3 bs s n hbs] at h
      rw [runCode.eq_3 bs s (n + 1) hbs]
      obtain ⟨⟨i, rest⟩, hdecode, h⟩ := Option.bind_eq_some_iff.mp h
      obtain ⟨s₁, hexec, h⟩ := Option.bind_eq_some_iff.mp h
      rw [hdecode]
      refine Option.bind_eq_some_iff.mpr ⟨(i, rest), rfl, ?_⟩
      exact Option.bind_eq_some_iff.mpr ⟨s₁, hexec, ih h⟩

theorem runCode_add {n : Nat} (m : Nat) {bs : List Byte} {s s' : State}
    (h : runCode n bs s = some s') : runCode (n + m) bs s = some s' := by
  induction m with
  | zero => exact h
  | succ m ih => exact runCode_succ ih

theorem runCode_append {n m : Nat} {bs cs : List Byte} {s s₁ s₂ : State}
    (h : runCode n bs s = some s₁) (h' : runCode m cs s₁ = some s₂) :
    runCode (n + m) (bs ++ cs) s = some s₂ := by
  induction n generalizing bs s with
  | zero =>
    cases bs with
    | nil =>
      cases h
      rwa [Nat.zero_add]
    | cons b bs => cases h
  | succ n ih =>
    by_cases hbs : bs = []
    · subst hbs
      cases h
      rw [List.nil_append, Nat.add_comm]
      exact runCode_add _ h'
    · have hcat : bs ++ cs ≠ [] := fun hnil => hbs (List.append_eq_nil_iff.mp hnil).1
      rw [runCode.eq_3 bs s n hbs] at h
      rw [Nat.add_right_comm, runCode.eq_3 (bs ++ cs) s (n + m) hcat]
      obtain ⟨⟨i, rest⟩, hdecode, h⟩ := Option.bind_eq_some_iff.mp h
      obtain ⟨s₁, hexec, h⟩ := Option.bind_eq_some_iff.mp h
      have hlen : (bs ++ cs).length - (rest ++ cs).length = bs.length - rest.length := by
        rw [List.length_append, List.length_append]
        omega
      rw [decode_append hdecode cs]
      refine Option.bind_eq_some_iff.mpr ⟨(i, rest ++ cs), rfl, ?_⟩
      refine Option.bind_eq_some_iff.mpr ⟨s₁, ?_, ih h⟩
      rw [hlen]
      exact hexec

end OreOS.Lib.X86
