import OreOS.Orec.Program

/-!
# What the emitters do (`user/orec.c`)

Every emitter answers, and what it leaves is given here as an equation. Bytes go
behind the text as far as there is room for them (`Globals.append`); what does
not fit is dropped without a word, so a hole at the end of a full text is
answered but is not in the text.
-/

namespace OreOS.Orec

open OreOS.Lib (Byte Exec)

/-! ## Bytes -/

/-- Bytes behind the text, as many as there is room for. -/
def Globals.append (g : Globals) (bs : List Byte) : Globals :=
  { g with
    text := g.text.put g.textLen (bs.take (textMax - g.textLen))
    textLen := g.textLen + (bs.take (textMax - g.textLen)).length }

/-- An event behind the log. -/
def Globals.logged (g : Globals) (e : Event) : Globals :=
  { g with log := g.log ++ [e] }

namespace Globals

variable (g : Globals) (bs : List Byte) (e : Event)

/-- Text that does not fit is dropped. -/
theorem textLen_append : (g.append bs).textLen = g.textLen + min bs.length (textMax - g.textLen) := by
  change g.textLen + (bs.take (textMax - g.textLen)).length = _
  rw [List.length_take, Nat.min_comm]

theorem append_nil : g.append [] = g := by
  rw [append, List.take_nil, OreOS.Lib.Buf.put_nil]
  rfl

theorem append_append (cs : List Byte) : (g.append bs).append cs = g.append (bs ++ cs) := by
  have hrest : textMax - (g.append bs).textLen = textMax - g.textLen - bs.length := by
    rw [textLen_append]
    omega
  have hparts : (bs ++ cs).take (textMax - g.textLen) =
      bs.take (textMax - g.textLen) ++ cs.take (textMax - (g.append bs).textLen) := by
    rw [List.take_append, hrest]
  have htext : g.text.put g.textLen ((bs ++ cs).take (textMax - g.textLen)) =
      (g.append bs).text.put (g.append bs).textLen (cs.take (textMax - (g.append bs).textLen)) := by
    rw [hparts, OreOS.Lib.Buf.put_append]
    rfl
  have hlen : g.textLen + ((bs ++ cs).take (textMax - g.textLen)).length =
      (g.append bs).textLen + (cs.take (textMax - (g.append bs).textLen)).length := by
    rw [hparts, List.length_append, ← Nat.add_assoc]
    rfl
  rw [append.eq_1 g (bs ++ cs), htext, hlen]
  rfl

@[simp] theorem log_append : (g.append bs).log = g.log := rfl
@[simp] theorem log_logged : (g.logged e).log = g.log ++ [e] := rfl
@[simp] theorem text_logged : (g.logged e).text = g.text := rfl
@[simp] theorem textLen_logged : (g.logged e).textLen = g.textLen := rfl

end Globals

theorem note_eq (e : Event) (g : Globals) : note e g = (.ok (), g.logged e) :=
  rfl

theorem emit8_eq (b : Byte) (g : Globals) : emit8 b g = (.ok (), g.append [b]) := by
  change (Except.ok (), if g.textLen < textMax then _ else _) = _
  split
  next hroom =>
    have htake : [b].take (textMax - g.textLen) = [b] :=
      List.take_of_length_le (by rw [List.length_singleton]; omega)
    rw [Globals.append, htake]
    rfl
  next hfull =>
    have htake : [b].take (textMax - g.textLen) = [] := by
      rw [Nat.sub_eq_zero_of_le (Nat.not_lt.mp hfull), List.take_zero]
    rw [Globals.append, htake, OreOS.Lib.Buf.put_nil]
    rfl

theorem emit_eq (bs : List Byte) (g : Globals) : emit bs g = (.ok (), g.append bs) := by
  induction bs generalizing g with
  | nil => rw [Globals.append_nil]; rfl
  | cons b bs ih =>
    have hrun : emit (b :: bs) g = (.ok (), (g.append [b]).append bs) :=
      (Exec.bind_ok (emit8_eq b g)).trans (ih _)
    rw [hrun, Globals.append_append, List.singleton_append]

/-- An access is its code and its entry in the log. -/
theorem emitAccess_eq (place : Place) (t : Ty) (store : Bool) (g : Globals) :
    emitAccess place t store g =
      (.ok (), (g.append (Access.code ⟨place, t, store, false⟩)).logged
        (.access ⟨place, t, store, g.functionUnsafe⟩)) :=
  (Exec.bind_ok (Exec.get_apply g)).trans ((Exec.bind_ok (note_eq _ _)).trans (emit_eq _ _))

/-! ## Holes -/

/-- A hole behind the text, and its event. -/
def Globals.hole (g : Globals) (e : Event) : Globals :=
  (g.append (disp32 0)).logged e

/-- A hole is four bytes, and an entry in the log. -/
theorem emitHole_eq (e : Nat → Event) (g : Globals) :
    emitHole e g = (.ok g.textLen, g.hole (e g.textLen)) :=
  (Exec.bind_ok (Exec.get_apply g)).trans (Exec.bind_ok (emit_eq _ g))

/-- A call is a hole and, where there is room, an entry of the table. -/
theorem emitCall_eq (fn : Nat) (g : Globals) :
    emitCall fn g = (.ok (),
      { (g.append callOpcode).hole (.call ⟨(g.append callOpcode).textLen, fn⟩) with
        calls := if g.calls.length < maxCalls
          then g.calls ++ [⟨(g.append callOpcode).textLen, fn⟩] else g.calls }) :=
  (Exec.bind_ok (emit_eq _ g)).trans (Exec.bind_ok (emitHole_eq _ _))

theorem addDataRef_eq (patch dataOff : Nat) (g : Globals) :
    ∃ out, addDataRef patch dataOff g = (.ok (),
      { g with
        dataRefs := if g.dataRefs.length < maxDataRefs
          then g.dataRefs ++ [⟨patch, dataOff⟩] else g.dataRefs
        out := out }) := by
  have hget : addDataRef patch dataOff g =
      (if g.dataRefs.length ≥ maxDataRefs then puts "orec: too many data references\n"
        else modify fun g => { g with dataRefs := g.dataRefs ++ [⟨patch, dataOff⟩] }) g :=
    Exec.bind_ok (Exec.get_apply g)
  by_cases hfull : g.dataRefs.length ≥ maxDataRefs
  · rw [hget, if_pos hfull, if_neg (Nat.not_lt.mpr hfull)]
    exact ⟨_, rfl⟩
  · rw [hget, if_neg hfull, if_pos (Nat.not_le.mp hfull)]
    exact ⟨g.out, rfl⟩

theorem emitLeaData_eq (opcode : List Byte) (dataOff : Nat) (g : Globals) :
    ∃ out, emitLeaData opcode dataOff g = (.ok (),
      { (g.append opcode).hole (.ref ⟨(g.append opcode).textLen, dataOff⟩) with
        dataRefs := if g.dataRefs.length < maxDataRefs
          then g.dataRefs ++ [⟨(g.append opcode).textLen, dataOff⟩] else g.dataRefs
        out := out }) := by
  obtain ⟨out, href⟩ := addDataRef_eq (g.append opcode).textLen dataOff
    ((g.append opcode).hole (.ref ⟨(g.append opcode).textLen, dataOff⟩))
  exact ⟨out, (Exec.bind_ok (emit_eq _ g)).trans ((Exec.bind_ok (emitHole_eq _ _)).trans href)⟩

end OreOS.Orec
