import OreOS.Kernel.Console

/-!
# Keys that share a bit

An event sets or clears the bit of its key. So a bit says whether the last key of those
that share it was pressed or released, and a release loses the others that are held
(`input_keys_held_iff`).
-/

namespace OreOS.Kernel

open OreOS.Lib (Byte)

namespace Input

/-- The bytes of a key, and what the masks of `console_read_key` make of them. -/
theorem scancode_masks : ∀ code : Byte, code < 0x80 ∧ code ≠ 0x60 →
    code ≠ 0xe0 ∧ code &&& 0x80 = 0 ∧ code &&& 0x7f = code ∧ code ||| 0x80 ≠ 0xe0 ∧
      (code ||| 0x80) &&& 0x80 ≠ 0 ∧ (code ||| 0x80) &&& 0x7f = code := by
  decide +kernel

theorem inputBitForScancode_cases (sc : Byte) (e0 : Bool) :
    inputBitForScancode sc e0 = 0 ∨
      ∃ j < 6, inputBitForScancode sc e0 = BitVec.twoPow 32 j := by
  unfold inputBitForScancode
  repeat' split
  all_goals decide

theorem inputBitForScancode_shift {sc : Byte} (h : sc = 0x2a ∨ sc = 0x36) (e0 : Bool) :
    inputBitForScancode sc e0 = 0 := by
  rcases h with rfl | rfl <;> cases e0 <;> decide

variable {s : Input} {byte : Byte}

/-- A byte that is not the prefix is a press or a release of its key. -/
theorem readScancode_key (hbyte : byte ≠ 0xe0) :
    (s.readScancode byte).2.ps2E0 = false ∧ (s.readScancode byte).2.inputKeys =
      (s.inputSetKey (inputBitForScancode (byte &&& 0x7f) s.ps2E0)
        (!decide (byte &&& 0x80 ≠ 0))).inputKeys := by
  unfold readScancode
  rw [if_neg hbyte]
  dsimp only
  split
  next hshift =>
    rw [inputBitForScancode_shift hshift]
    exact ⟨rfl, rfl⟩
  next =>
    split
    next => exact ⟨rfl, rfl⟩
    next hkey =>
      have he0 : s.ps2E0 = false := by
        rw [not_or, Bool.not_eq_true] at hkey
        exact hkey.2
      have hset : ∀ bit down, (s.inputSetKey bit down).ps2E0 = false := by
        intro bit down
        unfold inputSetKey
        split <;> exact he0
      generalize charAt _ _ = c
      split
      · exact ⟨hset _ _, rfl⟩
      · exact ⟨hset _ _, rfl⟩

theorem readAll_append (bytes bytes' : List Byte) :
    s.readAll (bytes ++ bytes') = (s.readAll bytes).readAll bytes' :=
  List.foldl_append

/-- A complete event, read when no prefix is pending. -/
theorem readAll_event (hs : s.ps2E0 = false) (e : KeyEvent) :
    (s.readAll e.bytes).ps2E0 = false ∧
      (s.readAll e.bytes).inputKeys = (s.inputSetKey e.key.bit e.down).inputKeys := by
  obtain ⟨⟨e0, code, hcode⟩, down⟩ := e
  obtain ⟨hmake, hmake0, hmake7, hbreak, hbreak0, hbreak7⟩ := scancode_masks code hcode
  have hread : ∀ s : Input, s.ps2E0 = e0 →
      (s.readScancode (if down then code else code ||| 0x80)).2.ps2E0 = false ∧
        (s.readScancode (if down then code else code ||| 0x80)).2.inputKeys =
          (s.inputSetKey (inputBitForScancode code e0) down).inputKeys := by
    intro s hs
    cases down
    · have hkey := @readScancode_key s _ hbreak
      rwa [hbreak7, decide_eq_true hbreak0, hs] at hkey
    · have hkey := @readScancode_key s _ hmake
      rwa [hmake7, decide_eq_false (not_not_intro hmake0), hs] at hkey
  cases e0
  · exact hread s hs
  · have hprefixed := hread { s with ps2E0 := true } rfl
    have hkeys : ∀ bit, (inputSetKey bit down { s with ps2E0 := true }).inputKeys =
        (s.inputSetKey bit down).inputKeys := by
      intro bit
      unfold inputSetKey
      split <;> rfl
    rw [hkeys] at hprefixed
    exact hprefixed

end Input

/-! ## Events -/

variable {events : List KeyEvent} {e : KeyEvent} {key : Key} {i : Nat}

theorem typed_ps2E0 (events : List KeyEvent) : (typed events).ps2E0 = false := by
  induction events using List.reverseRecOn with
  | nil => rfl
  | append_singleton events e ih =>
    rw [typed, List.flatMap_append, List.flatMap_singleton, Input.readAll_append]
    exact (Input.readAll_event ih e).1

/-- An event decides about the bit of its key and leaves the others. -/
theorem typed_snoc (hi : i < 32) :
    (typed (events ++ [e])).inputKeys.getLsbD i =
      if e.key.bit.getLsbD i then e.down else (typed events).inputKeys.getLsbD i := by
  have hkeys : (typed (events ++ [e])).inputKeys =
      ((typed events).inputSetKey e.key.bit e.down).inputKeys := by
    rw [typed, List.flatMap_append, List.flatMap_singleton, Input.readAll_append]
    exact (Input.readAll_event (typed_ps2E0 events) e).2
  rw [hkeys, Input.inputSetKey]
  split
  next hzero => simp [hzero]
  next =>
    dsimp only
    cases e.down
    · rw [if_neg Bool.false_ne_true, BitVec.getLsbD_and, BitVec.getLsbD_not, decide_eq_true hi]
      cases e.key.bit.getLsbD i <;> simp
    · rw [if_pos rfl, BitVec.getLsbD_or]
      cases e.key.bit.getLsbD i <;> simp

theorem held_snoc (events : List KeyEvent) (e : KeyEvent) :
    held (events ++ [e]) = Function.update (held events) e.key e.down := by
  rw [held, List.foldl_append]
  rfl

/-- A key has one bit at most. -/
theorem Key.bit_of_getLsbD (h : key.bit.getLsbD i = true) : key.bit = BitVec.twoPow 32 i := by
  rcases Input.inputBitForScancode_cases key.code key.e0 with hbit | ⟨j, -, hbit⟩
  · simp [Key.bit, hbit] at h
  · rw [Key.bit, hbit, BitVec.getLsbD_twoPow, Bool.and_eq_true, decide_eq_true_iff,
      decide_eq_true_iff] at h
    rw [Key.bit, hbit, h.2]

theorem Key.exists_bit (h : key.bit ≠ 0) : ∃ i < 32, key.bit.getLsbD i = true := by
  rcases Input.inputBitForScancode_cases key.code key.e0 with hbit | ⟨j, hj, hbit⟩
  · exact absurd hbit h
  · refine ⟨j, by omega, ?_⟩
    rw [Key.bit, hbit, BitVec.getLsbD_twoPow, decide_eq_true (show j < 32 by omega)]
    simp

/-- A bit is set exactly if a key that is mapped to it is held. -/
def ShowsHeld (events : List KeyEvent) : Prop :=
  ∀ i < 32, (typed events).inputKeys.getLsbD i = true ↔
    ∃ key : Key, key.bit.getLsbD i = true ∧ held events key = true

/-- No key is released while another one with the same bit is held. -/
def ReleasesAlone (events : List KeyEvent) : Prop :=
  ∀ before key, before ++ [⟨key, false⟩] <+: events → key.bit ≠ 0 →
    ∀ key' : Key, key' ≠ key → key'.bit = key.bit → held before key' = false

theorem ShowsHeld.snoc (h : ShowsHeld events)
    (halone : e.down = false → e.key.bit ≠ 0 → ∀ key' : Key, key' ≠ e.key →
      key'.bit = e.key.bit → held events key' = false) : ShowsHeld (events ++ [e]) := by
  intro i hi
  rw [typed_snoc hi, held_snoc]
  split
  next hbit =>
    have hne : e.key.bit ≠ 0 := by
      rintro hzero
      simp [hzero] at hbit
    constructor
    · intro hdown
      exact ⟨e.key, hbit, by rw [Function.update_self, hdown]⟩
    · rintro ⟨key, hkey, hheld⟩
      by_contra hup
      rw [Bool.not_eq_true] at hup
      by_cases heq : key = e.key
      · rw [heq, Function.update_self, hup] at hheld
        cases hheld
      · have hsame := (Key.bit_of_getLsbD hkey).trans (Key.bit_of_getLsbD hbit).symm
        rw [Function.update_of_ne heq, halone hup hne key heq hsame] at hheld
        cases hheld
  next hbit =>
    rw [h i hi]
    refine exists_congr fun key => and_congr_right fun hkey => ?_
    have hne : key ≠ e.key := by
      rintro rfl
      exact hbit hkey
    rw [Function.update_of_ne hne]

/-- The bits are right after every event exactly if no key is released while another
one with the same bit is held. -/
theorem input_keys_held_iff (events : List KeyEvent) :
    (∀ before, before <+: events → ShowsHeld before) ↔ ReleasesAlone events := by
  constructor
  · intro h before key hrelease hbit key' hne hsame
    obtain ⟨i, hi, hset⟩ := Key.exists_bit hbit
    have hshows := h _ hrelease i hi
    rw [typed_snoc hi, if_pos hset, held_snoc] at hshows
    by_contra hheld
    rw [Bool.not_eq_false] at hheld
    have hcon := hshows.mpr ⟨key', by rw [hsame, hset], by rw [Function.update_of_ne hne, hheld]⟩
    cases hcon
  · intro h before hbefore
    induction before using List.reverseRecOn with
    | nil =>
      refine fun i _ => iff_of_false ?_ ?_
      · change ¬ (0 : BitVec 32).getLsbD i = true
        simp
      · rintro ⟨key, -, hheld⟩
        cases hheld
    | append_singleton before e ih =>
      refine (ih ((List.prefix_append _ _).trans hbefore)).snoc fun hup => ?_
      obtain ⟨key, down⟩ := e
      cases hup
      exact h before key hbefore

def letterA : Key := ⟨false, 0x1e, by decide⟩

def leftArrow : Key := ⟨true, 0x4b, by decide⟩

/-- The letter and the arrow are pressed and the arrow is released: the letter is held,
and its bit is clear. -/
theorem arrow_release_loses_letter :
    [⟨letterA, true⟩, ⟨leftArrow, true⟩, ⟨leftArrow, false⟩].flatMap KeyEvent.bytes =
        [0x1e, 0xe0, 0x4b, 0xe0, 0xcb] ∧
      held [⟨letterA, true⟩, ⟨leftArrow, true⟩, ⟨leftArrow, false⟩] letterA = true ∧
      letterA.bit.getLsbD 0 = true ∧
      (typed [⟨letterA, true⟩, ⟨leftArrow, true⟩, ⟨leftArrow, false⟩]).inputKeys.getLsbD 0 = false := by
  refine ⟨by decide, by decide, by decide, ?_⟩
  exact @typed_snoc [⟨letterA, true⟩, ⟨leftArrow, true⟩] ⟨leftArrow, false⟩ 0 (by decide)

end OreOS.Kernel
