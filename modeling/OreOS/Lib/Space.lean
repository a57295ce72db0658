import Mathlib.Data.List.Basic

/-!
# Paged spaces

An address space as those who live in it see it: the pages that are mapped, with
their permissions, and the bytes. A part of a program is laid out (pages are
mapped where they are not yet, bytes are put) and sealed (final permissions). It
makes no difference whether each part is sealed at once or all of them at the
end (`seal_late`).
-/

namespace OreOS.Lib

/-- Permissions of the mapped pages, and bytes. -/
structure Space (A P φ β : Type) where
  flags : P → Option φ
  bytes : A → β

namespace Space

variable {A P φ β : Type} [DecidableEq P]

/-- The page is mapped. -/
def Mapped (v : Space A P φ β) (p : P) : Prop :=
  (v.flags p).isSome

instance (v : Space A P φ β) (p : P) : Decidable (v.Mapped p) :=
  inferInstanceAs (Decidable (_ = true))

/-- A page is mapped anew, blank. -/
def map (page : A → P) (blank : β) (f : φ) (v : Space A P φ β) (p : P) : Space A P φ β where
  flags := Function.update v.flags p (some f)
  bytes a := if page a = p then blank else v.bytes a

/-- A page is mapped, unless it is already. -/
def ensure (page : A → P) (blank : β) (f : φ) (v : Space A P φ β) (p : P) : Space A P φ β :=
  if v.Mapped p then v else v.map page blank f p

/-- Bytes are put at the addresses where `w` has one. -/
def put (w : A → Option β) (v : Space A P φ β) : Space A P φ β :=
  { v with bytes := fun a => (w a).getD (v.bytes a) }

/-- A page gets its permissions. -/
def protect (f : φ) (v : Space A P φ β) (p : P) : Space A P φ β :=
  { v with flags := Function.update v.flags p (some f) }

/-- A part of a program: its pages, its bytes and its final permissions. -/
structure Part (A P φ β : Type) where
  pages : List P
  bytes : A → Option β
  flags : φ

variable {page : A → P} {blank : β} {f f' : φ} {p q : P} {v : Space A P φ β}
  {part : Part A P φ β} {parts : List (Part A P φ β)} {a : A}

/-- The pages of a part, and its bytes. -/
def layout (page : A → P) (blank : β) (f : φ) (v : Space A P φ β) (part : Part A P φ β) :
    Space A P φ β :=
  (part.pages.foldl (ensure page blank f) v).put part.bytes

/-- The final permissions of a part. -/
def sealPart (v : Space A P φ β) (part : Part A P φ β) : Space A P φ β :=
  part.pages.foldl (protect part.flags) v

/-- A part, laid out and sealed. -/
def load (page : A → P) (blank : β) (f : φ) (v : Space A P φ β) (part : Part A P φ β) :
    Space A P φ β :=
  (v.layout page blank f part).sealPart part

/-! ## What stays mapped -/

theorem mapped_map : (v.map page blank f p).Mapped q ↔ q = p ∨ v.Mapped q := by
  by_cases h : q = p
  · subst h
    simp [Mapped, map]
  · simp [Mapped, map, h]

theorem mapped_ensure : (v.ensure page blank f p).Mapped q ↔ q = p ∨ v.Mapped q := by
  unfold ensure
  split
  next h =>
    constructor
    · exact .inr
    · rintro (rfl | hq)
      · exact h
      · exact hq
  next => exact mapped_map

theorem mapped_protect : (v.protect f p).Mapped q ↔ q = p ∨ v.Mapped q := by
  by_cases h : q = p
  · subst h
    simp [Mapped, protect]
  · simp [Mapped, protect, h]

theorem mapped_ensures (ps : List P) :
    (ps.foldl (ensure page blank f) v).Mapped q ↔ q ∈ ps ∨ v.Mapped q := by
  induction ps generalizing v with
  | nil => simp
  | cons p ps ih =>
    rw [List.foldl_cons, ih, mapped_ensure, List.mem_cons]
    tauto

theorem mapped_protects (ps : List P) :
    (ps.foldl (protect f) v).Mapped q ↔ q ∈ ps ∨ v.Mapped q := by
  induction ps generalizing v with
  | nil => simp
  | cons p ps ih =>
    rw [List.foldl_cons, ih, mapped_protect, List.mem_cons]
    tauto

theorem mapped_maps (ps : List P) :
    (ps.foldl (map page blank f) v).Mapped q ↔ q ∈ ps ∨ v.Mapped q := by
  induction ps generalizing v with
  | nil => simp
  | cons p ps ih =>
    rw [List.foldl_cons, ih, mapped_map, List.mem_cons]
    tauto

theorem flags_maps (ps : List P) :
    (ps.foldl (map page blank f) v).flags q = if q ∈ ps then some f else v.flags q := by
  induction ps generalizing v with
  | nil => simp
  | cons p ps ih =>
    rw [List.foldl_cons, ih, map]
    by_cases hq : q = p
    · simp [hq]
    · simp [hq]

theorem flags_protects (ps : List P) :
    (ps.foldl (protect f) v).flags q = if q ∈ ps then some f else v.flags q := by
  induction ps generalizing v with
  | nil => simp
  | cons p ps ih =>
    rw [List.foldl_cons, ih, protect]
    by_cases hq : q = p
    · simp [hq]
    · simp [hq]

theorem mapped_layout :
    (v.layout page blank f part).Mapped q ↔ q ∈ part.pages ∨ v.Mapped q :=
  mapped_ensures part.pages

theorem mapped_load : (v.load page blank f part).Mapped q ↔ q ∈ part.pages ∨ v.Mapped q := by
  rw [load, sealPart, mapped_protects, mapped_layout]
  tauto

theorem mapped_loads : (parts.foldl (load page blank f) v).Mapped q ↔
    (∃ part ∈ parts, q ∈ part.pages) ∨ v.Mapped q := by
  induction parts generalizing v with
  | nil => simp
  | cons part parts ih =>
    rw [List.foldl_cons, ih, mapped_load]
    simp only [List.mem_cons, exists_eq_or_imp]
    rw [or_left_comm, or_assoc]

/-! ## Sealing late -/

/-- The permissions of a mapped page can be set before another is mapped. -/
theorem ensure_protect (h : v.Mapped p) :
    (v.protect f p).ensure page blank f' q = (v.ensure page blank f' q).protect f p := by
  unfold ensure
  have hsame : (v.protect f p).Mapped q ↔ v.Mapped q := by
    rw [mapped_protect]
    constructor
    · rintro (rfl | hq)
      · exact h
      · exact hq
    · exact .inr
  by_cases hq : v.Mapped q
  · rw [if_pos (hsame.mpr hq), if_pos hq]
  · have hne : p ≠ q := fun heq => hq (heq ▸ h)
    rw [if_neg (mt hsame.mp hq), if_neg hq, protect, protect, map, map, Function.update_comm hne]

theorem ensure_protects (ps : List P) (h : ∀ p ∈ ps, v.Mapped p) :
    (ps.foldl (protect f) v).ensure page blank f' q =
      ps.foldl (protect f) (v.ensure page blank f' q) := by
  induction ps generalizing v with
  | nil => rfl
  | cons p ps ih =>
    rw [List.foldl_cons, List.foldl_cons, ih, ensure_protect (h p List.mem_cons_self)]
    intro p' hp'
    exact mapped_protect.mpr (.inr (h p' (List.mem_cons_of_mem _ hp')))

theorem ensures_sealPart (qs : List P) (h : ∀ p ∈ part.pages, v.Mapped p) :
    qs.foldl (ensure page blank f) (v.sealPart part) =
      (qs.foldl (ensure page blank f) v).sealPart part := by
  induction qs generalizing v with
  | nil => rfl
  | cons q qs ih =>
    rw [List.foldl_cons, List.foldl_cons, sealPart, ensure_protects part.pages h, ← sealPart, ih]
    exact fun p hp => mapped_ensure.mpr (.inr (h p hp))

theorem put_protects (w : A → Option β) (ps : List P) :
    (ps.foldl (protect f) v).put w = ps.foldl (protect f) (v.put w) := by
  induction ps generalizing v with
  | nil => rfl
  | cons p ps ih => exact ih

theorem layout_sealPart {part' : Part A P φ β} (h : ∀ p ∈ part.pages, v.Mapped p) :
    (v.sealPart part).layout page blank f part' = (v.layout page blank f part').sealPart part := by
  rw [layout, ensures_sealPart part'.pages h, sealPart, put_protects]
  rfl

theorem layouts_sealPart (h : ∀ p ∈ part.pages, v.Mapped p) :
    parts.foldl (layout page blank f) (v.sealPart part) =
      (parts.foldl (layout page blank f) v).sealPart part := by
  induction parts generalizing v with
  | nil => rfl
  | cons part' parts ih =>
    rw [List.foldl_cons, List.foldl_cons, layout_sealPart h, ih]
    exact fun p hp => mapped_layout.mpr (.inr (h p hp))

/-- It makes no difference when the parts are sealed. -/
theorem seal_late (page : A → P) (blank : β) (f : φ) (parts : List (Part A P φ β)) (v : Space A P φ β) :
    parts.foldl sealPart (parts.foldl (layout page blank f) v) =
      parts.foldl (load page blank f) v := by
  induction parts generalizing v with
  | nil => rfl
  | cons part parts ih =>
    have hmapped : ∀ p ∈ part.pages, (v.layout page blank f part).Mapped p :=
      fun p hp => mapped_layout.mpr (.inl hp)
    rw [List.foldl_cons, List.foldl_cons, List.foldl_cons, ← layouts_sealPart hmapped]
    exact ih _

/-! ## Bytes -/

omit [DecidableEq P] in
theorem bytes_put (w : A → Option β) : (v.put w).bytes a = (w a).getD (v.bytes a) :=
  rfl

omit [DecidableEq P] in
theorem put_put (w w' : A → Option β) : (v.put w).put w' = v.put fun a => (w' a).or (w a) := by
  simp only [put, Option.getD_or]

/-- Mapping a page that is not the page of an address leaves its byte. -/
theorem bytes_map (h : page a ≠ p) : (v.map page blank f p).bytes a = v.bytes a :=
  if_neg h

theorem bytes_maps (ps : List P) (h : page a ∉ ps) :
    (ps.foldl (map page blank f) v).bytes a = v.bytes a := by
  induction ps generalizing v with
  | nil => rfl
  | cons p ps ih =>
    rw [List.mem_cons, not_or] at h
    rw [List.foldl_cons, ih h.2, bytes_map h.1]

theorem bytes_ensures (ps : List P) (h : v.Mapped (page a)) :
    (ps.foldl (ensure page blank f) v).bytes a = v.bytes a := by
  induction ps generalizing v with
  | nil => rfl
  | cons p ps ih =>
    rw [List.foldl_cons, ih (mapped_ensure.mpr (.inr h)), ensure]
    split
    next => rfl
    next hp =>
      refine bytes_map ?_
      rintro rfl
      exact hp h

/-- Where every byte is blank, mapping pages does not show. -/
theorem bytes_ensures_blank (ps : List P) (h : ∀ a, v.bytes a = blank) (a : A) :
    (ps.foldl (ensure page blank f) v).bytes a = blank := by
  induction ps generalizing v with
  | nil => exact h a
  | cons p ps ih =>
    refine ih fun b => ?_
    unfold ensure
    split
    next => exact h b
    next =>
      rw [map]
      dsimp only
      split
      next => rfl
      next => exact h b

theorem bytes_protects (ps : List P) : (ps.foldl (protect f) v).bytes = v.bytes := by
  induction ps generalizing v with
  | nil => rfl
  | cons p ps ih => exact ih

theorem bytes_load : (v.load page blank f part).bytes a =
    (part.bytes a).getD ((part.pages.foldl (ensure page blank f) v).bytes a) := by
  rw [load, sealPart, bytes_protects]
  rfl

/-- Parts that put nothing at an address of a mapped page leave its byte. -/
theorem bytes_loads_of_none (h : v.Mapped (page a)) (hnone : ∀ part ∈ parts, part.bytes a = none) :
    (parts.foldl (load page blank f) v).bytes a = v.bytes a := by
  induction parts generalizing v with
  | nil => rfl
  | cons part parts ih =>
    rw [List.foldl_cons, ih (mapped_load.mpr (.inr h)) fun part' hp =>
      hnone part' (List.mem_cons_of_mem _ hp), bytes_load, hnone part List.mem_cons_self,
      Option.getD_none, bytes_ensures _ h]

/-- No address has a byte of both parts. -/
def Part.Apart (part part' : Part A P φ β) : Prop :=
  ∀ a, part.bytes a = none ∨ part'.bytes a = none

/-- The bytes of a part are in its pages. -/
def Part.Covered (page : A → P) (part : Part A P φ β) : Prop :=
  ∀ a, part.bytes a ≠ none → page a ∈ part.pages

/-- Where parts do not overlap, each byte of each is where it belongs. -/
theorem bytes_loads (hapart : parts.Pairwise Part.Apart)
    (hcovered : ∀ part ∈ parts, part.Covered page) (hpart : part ∈ parts) {b : β}
    (hb : part.bytes a = some b) : (parts.foldl (load page blank f) v).bytes a = b := by
  have hsome : part.bytes a ≠ none := by simp [hb]
  induction parts generalizing v with
  | nil => cases hpart
  | cons first parts ih =>
    rw [List.pairwise_cons] at hapart
    rw [List.foldl_cons]
    rcases List.mem_cons.mp hpart with rfl | hpart
    · rw [bytes_loads_of_none, bytes_load, hb, Option.getD_some]
      · exact mapped_load.mpr (.inl (hcovered part List.mem_cons_self a hsome))
      · exact fun part' hp => (hapart.1 part' hp a).resolve_left hsome
    · exact ih hapart.2 (fun part' hp => hcovered part' (List.mem_cons_of_mem _ hp)) hpart

end Space

end OreOS.Lib
