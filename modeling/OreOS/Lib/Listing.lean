import Mathlib.Data.List.Nodup

/-!
# Listings

Items are gone through in order. An item can give an entry, and an entry is
emitted unless an item before gave one with the same key. The emitted entries
are `firsts`, and asking for one by its index is `nth`, a loop with a counter.
The listing holds one entry for each key, in the order in which the keys first
occur (`ListsFirsts`).
-/

namespace OreOS.Lib

variable {α β κ : Type} [DecidableEq κ] (entry : α → Option β) (key : β → κ)

/-- One of the items gives an entry with this key. -/
def Gives (items : List α) (k : κ) : Prop :=
  ∃ a ∈ items, ∃ b, entry a = some b ∧ key b = k

/-- The loop that looks for it. -/
def gives (items : List α) (k : κ) : Bool :=
  items.any fun a => (entry a).any fun b => k = key b

/-- The entries that are emitted after the items `before`. -/
def firsts : (before : List α) → List α → List β
  | _, [] => []
  | before, a :: rest =>
    match entry a with
    | none => firsts (before ++ [a]) rest
    | some b =>
      if gives entry key before (key b) then firsts (before ++ [a]) rest
      else b :: firsts (before ++ [a]) rest

/-- The entry emitted with this index, or how many were emitted. -/
def nth (index : Nat) : (before : List α) → (emitted : Nat) → List α → β ⊕ Nat
  | _, emitted, [] => .inr emitted
  | before, emitted, a :: rest =>
    match entry a with
    | none => nth index (before ++ [a]) emitted rest
    | some b =>
      if gives entry key before (key b) then nth index (before ++ [a]) emitted rest
      else if emitted = index then .inl b
      else nth index (before ++ [a]) (emitted + 1) rest

/-- The index of the first item that gives an entry with this key. -/
def firstIndex (items : List α) (k : κ) : Nat :=
  items.findIdx fun a => (entry a).any fun b => k = key b

/-- `l` has one entry for each key that the items give, in the order of the first
items that give the keys, and as those items give it. -/
structure ListsFirsts (items : List α) (l : List β) : Prop where
  complete : ∀ k, k ∈ l.map key ↔ Gives entry key items k
  ordered : l.Pairwise fun b c =>
    firstIndex entry key items (key b) < firstIndex entry key items (key c)
  first : ∀ b ∈ l, ∃ a, items[firstIndex entry key items (key b)]? = some a ∧ entry a = some b

variable {entry key} {before items : List α} {b b' : β} {k : κ}

theorem gives_iff : gives entry key items k = true ↔ Gives entry key items k := by
  simp only [gives, Gives, List.any_eq_true, Option.any_eq_true, decide_eq_true_eq]
  exact exists_congr fun a => and_congr_right fun _ => exists_congr fun b =>
    and_congr_right fun _ => eq_comm

omit [DecidableEq κ] in
theorem Gives.append_left (h : Gives entry key before k) : Gives entry key (before ++ items) k := by
  obtain ⟨a, ha, hb⟩ := h
  exact ⟨a, List.mem_append_left _ ha, hb⟩

/-- What is emitted is given by an item, and its key is new. -/
theorem mem_firsts (h : b ∈ firsts entry key before items) :
    (∃ a ∈ items, entry a = some b) ∧ ¬ Gives entry key before (key b) := by
  induction items generalizing before with
  | nil => cases h
  | cons a items ih =>
    unfold firsts at h
    have hrest : b ∈ firsts entry key (before ++ [a]) items →
        (∃ a' ∈ a :: items, entry a' = some b) ∧ ¬ Gives entry key before (key b) := by
      intro hb
      obtain ⟨⟨a', ha', hgives⟩, hnew⟩ := ih hb
      exact ⟨⟨a', List.mem_cons_of_mem _ ha', hgives⟩, fun hcon => hnew hcon.append_left⟩
    split at h
    next => exact hrest h
    next c hc =>
      split at h
      next => exact hrest h
      next hnew =>
        rcases List.mem_cons.mp h with rfl | hb
        · exact ⟨⟨a, List.mem_cons_self, hc⟩, fun hcon => hnew (gives_iff.mpr hcon)⟩
        · exact hrest hb

theorem nodup_firsts : ((firsts entry key before items).map key).Nodup := by
  induction items generalizing before with
  | nil => exact List.nodup_nil
  | cons a items ih =>
    unfold firsts
    split
    next => exact ih
    next c hc =>
      split
      next => exact ih
      next =>
        rw [List.map_cons, List.nodup_cons]
        refine ⟨fun hmem => ?_, ih⟩
        obtain ⟨b, hb, hkey⟩ := List.mem_map.mp hmem
        refine (mem_firsts hb).2 ⟨a, List.mem_append_right _ List.mem_cons_self, c, hc, hkey.symm⟩

/-- Every key that is given is emitted, now or before. -/
theorem key_mem_firsts (before : List α) (h : Gives entry key items k) :
    Gives entry key before k ∨ ∃ b ∈ firsts entry key before items, key b = k := by
  induction items generalizing before with
  | nil =>
    obtain ⟨a, ha, -⟩ := h
    cases ha
  | cons a items ih =>
    -- In the rest, unless the item itself gives it.
    have hrest : ¬ Gives entry key [a] k → Gives entry key items k := by
      intro hnot
      obtain ⟨a', ha', hb⟩ := h
      rcases List.mem_cons.mp ha' with rfl | ha'
      · exact absurd ⟨a', List.mem_cons_self, hb⟩ hnot
      · exact ⟨a', ha', hb⟩
    have hsplit : Gives entry key (before ++ [a]) k →
        Gives entry key before k ∨ Gives entry key [a] k := by
      rintro ⟨a', ha', hb⟩
      rcases List.mem_append.mp ha' with ha' | ha'
      · exact .inl ⟨a', ha', hb⟩
      · exact .inr ⟨a', ha', hb⟩
    by_cases hself : Gives entry key [a] k
    · obtain ⟨a', ha', b, hb, hkey⟩ := hself
      obtain rfl := List.mem_singleton.mp ha'
      unfold firsts
      rw [hb]
      dsimp only
      split
      next hold => exact .inl (hkey ▸ gives_iff.mp hold)
      next => exact .inr ⟨b, List.mem_cons_self, hkey⟩
    · rcases ih (before ++ [a]) (hrest hself) with hbefore | ⟨b, hb, hkey⟩
      · exact .inl ((hsplit hbefore).resolve_right hself)
      · right
        unfold firsts
        split
        next => exact ⟨b, hb, hkey⟩
        next =>
          split
          next => exact ⟨b, hb, hkey⟩
          next => exact ⟨b, List.mem_cons_of_mem _ hb, hkey⟩

/-- A key that is new with an item is first given by that item. -/
theorem firstIndex_of_new {a : α} (hb : entry a = some b) (hnew : ¬ Gives entry key before (key b)) :
    firstIndex entry key (before ++ a :: items) (key b) = before.length := by
  have hbefore : before.findIdx (fun a => (entry a).any fun c => key b = key c) = before.length := by
    rw [List.findIdx_eq_length]
    intro a' ha'
    rw [← Bool.not_eq_true, Option.any_eq_true]
    rintro ⟨c, hc, hkey⟩
    exact hnew ⟨a', ha', c, hc, (of_decide_eq_true hkey).symm⟩
  rw [firstIndex, List.findIdx_append, hbefore, if_neg (Nat.lt_irrefl _), List.findIdx_cons, hb,
    Option.any_some, decide_eq_true rfl, cond_true, Nat.zero_add]

/-- What is emitted is given by the first item that gives its key, which is behind
the items gone through. -/
theorem firstIndex_mem_firsts (h : b ∈ firsts entry key before items) :
    before.length ≤ firstIndex entry key (before ++ items) (key b) ∧
      ∃ a, (before ++ items)[firstIndex entry key (before ++ items) (key b)]? = some a ∧
        entry a = some b := by
  induction items generalizing before with
  | nil => cases h
  | cons a items ih =>
    have hrest : b ∈ firsts entry key (before ++ [a]) items → _ := ih
    rw [List.append_assoc, List.singleton_append, List.length_append] at hrest
    unfold firsts at h
    split at h
    next => exact ⟨Nat.le_of_succ_le (hrest h).1, (hrest h).2⟩
    next c hc =>
      split at h
      next => exact ⟨Nat.le_of_succ_le (hrest h).1, (hrest h).2⟩
      next hnew =>
        rcases List.mem_cons.mp h with rfl | hb
        · rw [firstIndex_of_new hc fun hcon => hnew (gives_iff.mpr hcon)]
          exact ⟨Nat.le_refl _, a, by simp, hc⟩
        · exact ⟨Nat.le_of_succ_le (hrest hb).1, (hrest hb).2⟩

theorem ordered_firsts : (firsts entry key before items).Pairwise fun b c =>
    firstIndex entry key (before ++ items) (key b) <
      firstIndex entry key (before ++ items) (key c) := by
  induction items generalizing before with
  | nil => exact .nil
  | cons a items ih =>
    have hrest := @ih (before ++ [a])
    rw [List.append_assoc, List.singleton_append] at hrest
    unfold firsts
    split
    next => exact hrest
    next b hb =>
      split
      next => exact hrest
      next hnew =>
        refine List.pairwise_cons.mpr ⟨fun c hc => ?_, hrest⟩
        have hc := (firstIndex_mem_firsts hc).1
        rw [List.append_assoc, List.singleton_append, List.length_append] at hc
        rw [firstIndex_of_new hb fun hcon => hnew (gives_iff.mpr hcon)]
        exact hc

/-- The emitted entries are the first occurrences. -/
theorem listsFirsts_firsts (items : List α) :
    ListsFirsts entry key items (firsts entry key [] items) where
  complete k := by
    constructor
    · intro hk
      obtain ⟨b, hb, rfl⟩ := List.mem_map.mp hk
      obtain ⟨⟨a, ha, hgives⟩, -⟩ := mem_firsts hb
      exact ⟨a, ha, b, hgives, rfl⟩
    · intro hgives
      rcases key_mem_firsts [] hgives with ⟨a, ha, -⟩ | ⟨b, hb, rfl⟩
      · cases ha
      · exact List.mem_map_of_mem hb
  ordered := show (firsts entry key [] items).Pairwise fun b c =>
    firstIndex entry key ([] ++ items) (key b) < firstIndex entry key ([] ++ items) (key c)
    from ordered_firsts
  first _ hb := (firstIndex_mem_firsts hb).2

/-- The listing depends only on what the items of the list give. -/
theorem firsts_congr {entry' : α → Option β} (hbefore : ∀ a ∈ before, entry a = entry' a)
    (h : ∀ a ∈ items, entry a = entry' a) :
    firsts entry key before items = firsts entry' key before items := by
  induction items generalizing before with
  | nil => rfl
  | cons a items ih =>
    have hgives : ∀ k, gives entry key before k = gives entry' key before k := by
      intro k
      rw [Bool.eq_iff_iff, gives, gives, List.any_eq_true, List.any_eq_true]
      exact exists_congr fun a' => and_congr_right fun ha' => by rw [hbefore a' ha']
    have hrest := @ih (before ++ [a])
      (List.forall_mem_append.mpr ⟨hbefore, List.forall_mem_singleton.mpr (h a List.mem_cons_self)⟩)
      fun a' ha' => h a' (List.mem_cons_of_mem _ ha')
    unfold firsts
    simp only [h a List.mem_cons_self, hgives, hrest]

/-- The loop finds the emitted entry with the index. -/
theorem nth_eq (index : Nat) {emitted : Nat} (h : emitted ≤ index) :
    nth entry key index before emitted items =
      match (firsts entry key before items)[index - emitted]? with
      | some b => .inl b
      | none => .inr (emitted + (firsts entry key before items).length) := by
  induction items generalizing before emitted with
  | nil => rfl
  | cons a items ih =>
    unfold nth firsts
    split
    next => exact ih h
    next b hb =>
      split
      next => exact ih h
      next =>
        split
        next heq =>
          subst heq
          rw [Nat.sub_self]
          rfl
        next hne =>
          rw [ih (by omega), show index - emitted = index - (emitted + 1) + 1 by omega,
            List.getElem?_cons_succ, List.length_cons]
          split
          · rfl
          · rw [Nat.add_right_comm, Nat.add_assoc]

/-- Where the key determines the entry, exactly what items give is emitted. -/
theorem mem_firsts_iff
    (hkey : ∀ a ∈ items, ∀ a' ∈ items, ∀ b b', entry a = some b → entry a' = some b' →
      key b = key b' → b = b') :
    b ∈ firsts entry key [] items ↔ ∃ a ∈ items, entry a = some b := by
  refine ⟨fun h => (mem_firsts h).1, fun ⟨a, ha, hb⟩ => ?_⟩
  have hgives : Gives entry key items (key b) := ⟨a, ha, b, hb, rfl⟩
  rcases key_mem_firsts [] hgives with ⟨a', ha', -⟩ | ⟨b', hb', hkeys⟩
  · cases ha'
  · obtain ⟨⟨a', ha', hentry⟩, -⟩ := mem_firsts hb'
    rwa [← hkey a' ha' a ha b' b hentry hb hkeys]

omit [DecidableEq κ] in
/-- An element of a list with distinct keys is at one index. -/
theorem exists_index_of_nodup {l : List β} (h : (l.map key).Nodup) (hb : b ∈ l) :
    ∃ i : Nat, l[i]? = some b ∧ ∀ (j : Nat) b', l[j]? = some b' → key b' = key b → j = i := by
  obtain ⟨i, hi, rfl⟩ := List.mem_iff_getElem.mp hb
  refine ⟨i, List.getElem?_eq_getElem hi, fun j b' hj hkey => ?_⟩
  obtain ⟨hj, rfl⟩ := List.getElem?_eq_some_iff.mp hj
  have hi' : i < (l.map key).length := by rwa [List.length_map]
  have hj' : j < (l.map key).length := by rwa [List.length_map]
  have heq : (l.map key)[j] = (l.map key)[i] := by rw [List.getElem_map, List.getElem_map, hkey]
  exact h.getElem_inj_iff.mp heq

end OreOS.Lib
