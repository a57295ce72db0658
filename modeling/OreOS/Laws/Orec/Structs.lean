import Mathlib.Data.List.Forall2
import OreOS.Laws.Orec.Syntax

/-!
# The layout of structs (`user/orec.c`)

The *shape* of a struct is what `scan_structs` would compute if its numbers did
not end at 2^32. As long as the size of the shape is below that, the table has
the shape, and a shape is laid out as it should be. Otherwise the table is wrong
in every case. An array of structs without size has elements one byte apart,
whatever alignment they have.
-/

namespace OreOS.Orec

open OreOS.Lib (Exec)

/-! ## Shapes -/

def roundUp (v a : Nat) : Nat :=
  (v + a - 1) / a * a

/-- A struct over unbounded integers, with the sizes of its fields. -/
structure Shape where
  name : Name
  parts : List Nat := []
  size : Nat := 0
  align : Nat := 1

/-- The size and the alignment of a type. -/
def TypeExpr.shape (shapes : List Shape) : TypeExpr → Option (Nat × Nat)
  | .named name =>
    match scalarType name with
    | some t => some (t.size.toNat, t.align.toNat)
    | none => (findNamed (·.name) name shapes).map fun (_, sh) => (sh.size, sh.align)
  | .ptr base => (base.shape shapes).map fun _ => (8, 8)
  | .array count elem =>
    (elem.shape shapes).map fun (size, align) => ((if size = 0 then 1 else size) * count, align)

def Shape.addField (packed : Bool) (sh : Shape) (size align : Nat) : Shape :=
  let align := if packed then 1 else align
  { sh with
    parts := sh.parts ++ [size]
    size := roundUp sh.size align + size
    align := max sh.align align }

def shapeFields (shapes : List Shape) (packed : Bool) : Shape → List FieldDecl → Option Shape
  | sh, [] => some sh
  | sh, f :: fields => do
    let (size, align) ← f.type.shape shapes
    shapeFields shapes packed (sh.addField packed size align) fields

def Shape.close (sh : Shape) : Shape :=
  { sh with size := roundUp sh.size sh.align }

def StructDecl.shape (shapes : List Shape) (d : StructDecl) : Option Shape :=
  (shapeFields shapes d.packed { name := d.name } d.fields).map Shape.close

/-- The shapes of these structs behind those that there are. -/
def shapesOf : List Shape → List StructDecl → Option (List Shape)
  | shapes, [] => some shapes
  | shapes, d :: ds => do
    let sh ← d.shape shapes
    shapesOf (shapes ++ [sh]) ds

/-! ## Rounding -/

/-- An alignment that a type can have. -/
def Scale (a : Nat) : Prop :=
  a = 1 ∨ a = 4 ∨ a = 8

variable {a : Nat}

theorem Scale.max {b : Nat} (ha : Scale a) (hb : Scale b) : Scale (max a b) := by
  rcases ha with rfl | rfl | rfl <;> rcases hb with rfl | rfl | rfl <;> simp [Scale]

theorem Scale.roundUp_bounds (ha : Scale a) (v : Nat) :
    v ≤ roundUp v a ∧ roundUp v a < v + a ∧ a ∣ roundUp v a ∧ (v = 0 → roundUp v a = 0) := by
  unfold roundUp
  refine ⟨?_, ?_, Nat.dvd_mul_left _ _, ?_⟩ <;> rcases ha with rfl | rfl | rfl <;> omega

theorem toNat_alignUpU32 {v a : U32} (ha : Scale a.toNat) :
    (alignUpU32 v a).toNat =
      if roundUp v.toNat a.toNat < 2 ^ 32 then roundUp v.toNat a.toNat else 0 := by
  have hne : a ≠ 0 := by
    rintro rfl
    rcases ha with h | h | h <;> cases h
  have hnat : (alignUpU32 v a).toNat =
      (2 ^ 32 - 1 + (v.toNat + a.toNat) % 2 ^ 32) % 2 ^ 32 / a.toNat * a.toNat % 2 ^ 32 := by
    rw [alignUpU32, if_neg hne, BitVec.toNat_mul, BitVec.toNat_udiv, BitVec.toNat_sub,
      BitVec.toNat_add]
    rfl
  rw [hnat, roundUp]
  rcases ha with h | h | h <;> rw [h] <;> split <;> omega

/-! ## Types -/

/-- A type of the compiler, and its size and alignment over unbounded integers. -/
structure Ty.Has (t : Ty) (full a : Nat) : Prop where
  size : full < 2 ^ 32 → t.size.toNat = full
  align : t.align.toNat = a
  scale : Scale a

/-- A struct of the table and its shape. -/
structure StructDef.Has (st : StructDef) (sh : Shape) : Prop where
  name : st.name = sh.name
  size : sh.size < 2 ^ 32 → st.size.toNat = sh.size
  align : st.align.toNat = sh.align
  scale : Scale sh.align

variable {structs : List StructDef} {shapes : List Shape} {st : StructDef}

theorem findStruct_has (h : List.Forall₂ StructDef.Has structs shapes) {name : Name} {i : Nat}
    (hfind : findStruct name structs = some (i, st)) :
    ∃ sh, findNamed (·.name) name shapes = some (i, sh) ∧ st.Has sh := by
  induction h generalizing i with
  | nil => cases hfind
  | @cons st' sh' structs shapes hhas _ ih =>
    unfold findStruct findNamed at hfind
    unfold findNamed
    rw [← hhas.name]
    split at hfind
    next hname =>
      cases hfind
      exact ⟨sh', if_pos hname, hhas⟩
    next hname =>
      obtain ⟨⟨j, st₀⟩, hrest, heq⟩ := Option.map_eq_some_iff.mp hfind
      cases heq
      obtain ⟨sh, hsh, hst⟩ := ih hrest
      exact ⟨sh, by rw [if_neg hname, hsh]; rfl, hst⟩

variable {t : Ty}

theorem scalarType_has {name : Name} (h : scalarType name = some t) :
    t.Has t.size.toNat t.align.toNat := by
  refine ⟨fun _ => rfl, rfl, ?_⟩
  unfold scalarType at h
  repeat' split at h
  all_goals first
    | (cases h; simp [Scale, tyVoid, tyBool, tyChar, tyInt])
    | cases h

theorem arrayOf_has {size align : Nat} (h : t.Has size align) (count : Nat) :
    (arrayOf t (BitVec.ofNat 32 count)).Has ((if size = 0 then 1 else size) * count) align := by
  have halign : t.align ≠ 0 := by
    intro hzero
    have := h.align
    rcases h.scale with rfl | rfl | rfl <;> simp [hzero] at this
  refine ⟨fun hlt => ?_, ?_, h.scale⟩
  · change (orElse t.size 1 * BitVec.ofNat 32 count).toNat = _
    rcases Nat.eq_zero_or_pos count with rfl | hcount
    · simp
    · have hpart : (if size = 0 then 1 else size) < 2 ^ 32 :=
        Nat.lt_of_le_of_lt (Nat.le_mul_of_pos_right _ hcount) hlt
      have hsize : t.size.toNat = size := h.size (by split at hpart <;> omega)
      have hbase : (orElse t.size 1).toNat = if size = 0 then 1 else size := by
        unfold orElse
        by_cases hzero : size = 0
        · rw [if_neg (not_not_intro (BitVec.eq_of_toNat_eq (by rw [hsize, hzero]; rfl))),
            if_pos hzero]
          rfl
        · rw [if_pos (fun h => hzero (by rw [← hsize, h]; rfl)), if_neg hzero, hsize]
      rw [BitVec.toNat_mul, hbase, BitVec.toNat_ofNat, Nat.mul_mod_mod, Nat.mod_eq_of_lt hlt]
  · change (orElse t.align 1).toNat = _
    rw [orElse, if_pos halign, h.align]

theorem ty_has (h : List.Forall₂ StructDef.Has structs shapes) (t : TypeExpr) {T : Ty}
    (hty : t.ty structs = some T) :
    ∃ size align, t.shape shapes = some (size, align) ∧ T.Has size align := by
  induction t generalizing T with
  | named name =>
    unfold TypeExpr.ty at hty
    unfold TypeExpr.shape
    cases hscalar : scalarType name with
    | some t =>
      simp only [hscalar] at hty
      cases hty
      exact ⟨_, _, rfl, scalarType_has hscalar⟩
    | none =>
      simp only [hscalar] at hty
      obtain ⟨⟨i, st⟩, hfind, heq⟩ := Option.map_eq_some_iff.mp hty
      cases heq
      obtain ⟨sh, hsh, hst⟩ := findStruct_has h hfind
      exact ⟨sh.size, sh.align, by rw [hsh]; rfl, hst.size, hst.align, hst.scale⟩
  | ptr base ih =>
    obtain ⟨T', hbase, rfl⟩ := Option.map_eq_some_iff.mp hty
    obtain ⟨size, align, hshape, -⟩ := ih hbase
    exact ⟨8, 8, by rw [TypeExpr.shape, hshape]; rfl, fun _ => rfl, rfl, .inr (.inr rfl)⟩
  | array count elem ih =>
    obtain ⟨T', helem, rfl⟩ := Option.map_eq_some_iff.mp hty
    obtain ⟨size, align, hshape, hhas⟩ := ih helem
    exact ⟨_, align, by rw [TypeExpr.shape, hshape]; rfl, arrayOf_has hhas count⟩

/-! ## Fields -/

/-- The bytes of the fields: where they begin in the table, and their sizes. -/
def ranges (st : StructDef) (sh : Shape) : List (Nat × Nat) :=
  (st.fields.map (·.offset.toNat)).zip sh.parts

/-- No byte is in both. -/
def Apart (r r' : Nat × Nat) : Prop :=
  ∀ x, ¬ ((r.1 ≤ x ∧ x < r.1 + r.2) ∧ r'.1 ≤ x ∧ x < r'.1 + r'.2)

/-- The parts of a struct and of its shape that never depend on sizes. -/
structure Matched (packed : Bool) (st : StructDef) (sh : Shape) : Prop where
  name : st.name = sh.name
  flag : st.packed = packed
  align : st.align.toNat = sh.align
  scale : Scale sh.align
  length : st.fields.length = sh.parts.length

variable {full : Nat}

theorem toNat_fieldAlign (ht : t.Has full a) (packed : Bool) :
    (if packed then 1 else orElse t.align 1 : U32).toNat = (if packed then 1 else a) ∧
      Scale (if packed then 1 else a) := by
  cases packed with
  | true => exact ⟨rfl, .inl rfl⟩
  | false =>
    have halign : t.align ≠ 0 := by
      intro hzero
      have := ht.align
      rcases ht.scale with rfl | rfl | rfl <;> simp [hzero] at this
    refine ⟨?_, ht.scale⟩
    simp only [Bool.false_eq_true, if_false]
    rw [orElse, if_pos halign, ht.align]

variable {packed : Bool} {sh : Shape}

theorem Matched.add (h : Matched packed st sh) (name : Name) (ht : t.Has full a) :
    Matched packed (st.addField name t) (sh.addField packed full a) := by
  obtain ⟨halign, hscale⟩ := toNat_fieldAlign ht packed
  refine ⟨h.name, h.flag, ?_, h.scale.max hscale, ?_⟩
  · simp only [StructDef.addField, Shape.addField, h.flag]
    rw [← halign, ← h.align]
    generalize (if packed then 1 else orElse t.align 1 : U32) = al
    by_cases hgt : al > st.align
    · rw [if_pos hgt, Nat.max_eq_right (Nat.le_of_lt hgt)]
    · rw [if_neg hgt, Nat.max_eq_left (Nat.le_of_not_lt hgt)]
  · simp [StructDef.addField, Shape.addField, h.length]

theorem Matched.ranges_add (h : Matched packed st sh) (name : Name) (t : Ty) (full a : Nat) :
    ranges (st.addField name t) (sh.addField packed full a) =
      ranges st sh ++
        [((alignUpU32 st.size (if packed then 1 else orElse t.align 1)).toNat, full)] := by
  simp only [ranges, StructDef.addField, Shape.addField, h.flag, List.map_append]
  exact List.zip_append (by rw [List.length_map, h.length])

/-- A struct as far as it is read, as long as the table is right. -/
structure Exact (packed : Bool) (st : StructDef) (sh : Shape) : Prop
    extends Matched packed st sh where
  size : st.size.toNat = sh.size
  below : sh.size < 2 ^ 32
  ordered : (ranges st sh).Pairwise fun r r' => r.1 + r.2 ≤ r'.1
  inside : ∀ r ∈ ranges st sh, r.1 + r.2 ≤ sh.size
  aligned : packed = false → ∀ f ∈ st.fields, f.type.align.toNat ∣ f.offset.toNat
  /-- The first field that is not empty is at zero. -/
  origin : 0 < sh.size → ∃ r ∈ ranges st sh, r.1 = 0 ∧ 0 < r.2
  reach : 0 < sh.size → ∃ r ∈ ranges st sh, r.1 + r.2 = sh.size

theorem Exact.add (h : Exact packed st sh) (name : Name) (ht : t.Has full a)
    (hlt : (sh.addField packed full a).size < 2 ^ 32) :
    Exact packed (st.addField name t) (sh.addField packed full a) := by
  obtain ⟨halign, hscale⟩ := toNat_fieldAlign ht packed
  have hsum : (sh.addField packed full a).size = roundUp sh.size (if packed then 1 else a) + full :=
    rfl
  obtain ⟨hle, -, hdvd, hzero⟩ := hscale.roundUp_bounds sh.size
  have hoffset : (alignUpU32 st.size (if packed then 1 else orElse t.align 1)).toNat =
      roundUp sh.size (if packed then 1 else a) := by
    rw [toNat_alignUpU32 (by rw [halign]; exact hscale), halign, h.size, if_pos (by omega)]
  have hranges := h.ranges_add name t full a
  rw [hoffset] at hranges
  have hfull : t.size.toNat = full := ht.size (by omega)
  refine ⟨h.toMatched.add name ht, ?_, hlt, ?_, ?_, ?_, ?_, ?_⟩
  · simp only [StructDef.addField, h.flag]
    rw [BitVec.toNat_add, hoffset, hfull, hsum, Nat.mod_eq_of_lt (by omega)]
  · rw [hranges, List.pairwise_append]
    refine ⟨h.ordered, List.pairwise_singleton _ _, fun r hr r' hr' => ?_⟩
    rw [List.mem_singleton.mp hr']
    exact Nat.le_trans (h.inside r hr) hle
  · rw [hranges]
    intro r hr
    rcases List.mem_append.mp hr with hr | hr
    · have := h.inside r hr
      omega
    · rw [List.mem_singleton.mp hr, hsum]
  · intro hpacked f hf
    simp only [StructDef.addField, h.flag] at hf
    rcases List.mem_append.mp hf with hf | hf
    · exact h.aligned hpacked f hf
    · rw [List.mem_singleton.mp hf]
      rw [hoffset, ht.align]
      rw [hpacked] at hdvd ⊢
      exact hdvd
  · intro hpos
    rw [hranges]
    rcases Nat.eq_zero_or_pos sh.size with hnone | hsome
    · refine ⟨_, List.mem_append_right _ (List.mem_singleton_self _), hzero hnone, ?_⟩
      omega
    · obtain ⟨r, hr, hfirst⟩ := h.origin hsome
      exact ⟨r, List.mem_append_left _ hr, hfirst⟩
  · intro _
    rw [hranges]
    exact ⟨_, List.mem_append_right _ (List.mem_singleton_self _), hsum.symm⟩

/-! ## The loop over the fields -/

/-- Fields are added to a struct and to its shape. -/
inductive Laying (packed : Bool) : StructDef → Shape → StructDef → Shape → Prop
  | done {st : StructDef} {sh : Shape} : Laying packed st sh st sh
  | field {st st' : StructDef} {sh sh' : Shape} (name : Name) {t : Ty} {full a : Nat}
      (ht : t.Has full a)
      (h : Laying packed (st.addField name t) (sh.addField packed full a) st' sh') :
      Laying packed st sh st' sh'

theorem laying_of_layFields (htable : List.Forall₂ StructDef.Has structs shapes) (packed : Bool)
    {fields : List FieldDecl} {st' : StructDef} (sh : Shape)
    (h : layFields structs st fields = some st') :
    ∃ sh', shapeFields shapes packed sh fields = some sh' ∧ Laying packed st sh st' sh' := by
  induction fields generalizing st sh with
  | nil =>
    cases h
    exact ⟨sh, rfl, .done⟩
  | cons f fields ih =>
    unfold layFields at h
    split at h
    next => cases h
    next =>
      obtain ⟨t, hty, hrest⟩ := Option.bind_eq_some_iff.mp h
      obtain ⟨full, a, hshape, ht⟩ := ty_has htable f.type hty
      obtain ⟨sh', hfields, hlaying⟩ := ih (sh.addField packed full a) hrest
      refine ⟨sh', ?_, .field f.name ht hlaying⟩
      rw [shapeFields, hshape]
      exact hfields

namespace Laying

variable {packed : Bool} {st st' : StructDef} {sh sh' : Shape}

theorem matched (h : Laying packed st sh st' sh') (hm : Matched packed st sh) :
    Matched packed st' sh' := by
  induction h with
  | done => exact hm
  | field name ht _ ih => exact ih (hm.add name ht)

theorem size_le (h : Laying packed st sh st' sh') : sh.size ≤ sh'.size := by
  induction h with
  | done => exact Nat.le_refl _
  | @field st st' sh sh' name t full a ht h ih =>
    refine Nat.le_trans ?_ ih
    have := ((toNat_fieldAlign ht packed).2.roundUp_bounds sh.size).1
    show sh.size ≤ roundUp sh.size (if packed then 1 else a) + full
    omega

theorem ranges_grow (h : Laying packed st sh st' sh') (hm : Matched packed st sh) :
    ranges st sh <+: ranges st' sh' := by
  induction h with
  | done => exact List.prefix_rfl
  | @field st st' sh sh' name t full a ht h ih =>
    refine List.IsPrefix.trans ?_ (ih (hm.add name ht))
    rw [hm.ranges_add]
    exact List.prefix_append _ _

theorem exact (h : Laying packed st sh st' sh') (hlt : sh'.size < 2 ^ 32) (he : Exact packed st sh) :
    Exact packed st' sh' := by
  induction h with
  | done => exact he
  | field name ht h ih => exact ih hlt (he.add name ht (Nat.lt_of_le_of_lt h.size_le hlt))

/-- A second field at zero overlaps the first. -/
theorem overlaps {name : Name} {t : Ty} {full a : Nat}
    (h : Laying packed (st.addField name t) (sh.addField packed full a) st' sh')
    (hm : Matched packed st sh) (ht : t.Has full a) (hfull : 0 < full)
    (hoffset : alignUpU32 st.size (if packed then 1 else orElse t.align 1) = 0)
    (horigin : ∃ r ∈ ranges st sh, r.1 = 0 ∧ 0 < r.2) : ¬ (ranges st' sh').Pairwise Apart := by
  obtain ⟨r, hr, hfirst, hpos⟩ := horigin
  intro hapart
  obtain ⟨rest, hrest⟩ := h.ranges_grow (hm.add name ht)
  rw [← hrest, hm.ranges_add, hoffset] at hapart
  have hpair := (List.pairwise_append.mp (List.pairwise_append.mp hapart).1).2.2 r hr _
    (List.mem_singleton_self _)
  refine hpair 0 ⟨⟨by omega, by omega⟩, Nat.le_refl _, ?_⟩
  simpa using hfull

/-- Behind an empty field at zero the size is still zero. -/
theorem size_of_empty (hm : Matched packed st sh) (name : Name) {t : Ty} {a : Nat} (ht : t.Has 0 a)
    (hoffset : alignUpU32 st.size (if packed then 1 else orElse t.align 1) = 0) :
    (st.addField name t).size = 0 := by
  have hsize : t.size = 0 := BitVec.eq_of_toNat_eq (ht.size (by decide))
  simp only [StructDef.addField, hm.flag]
  rw [hoffset, hsize]
  rfl

/-- Once the size came round to zero, fields overlap or the struct is too small. -/
theorem round (h : Laying packed st sh st' sh') (hm : Matched packed st sh)
    (hsize : st.size = 0) (horigin : ∃ r ∈ ranges st sh, r.1 = 0 ∧ 0 < r.2)
    (hapart : (ranges st' sh').Pairwise Apart) :
    ∃ r ∈ ranges st' sh', st'.close.size.toNat < r.1 + r.2 := by
  obtain ⟨r, hr, hfirst, hpos⟩ := horigin
  induction h with
  | @done st sh =>
    refine ⟨r, hr, ?_⟩
    have hclose : st.close.size.toNat = 0 := by
      rw [StructDef.close, toNat_alignUpU32 (by rw [hm.align]; exact hm.scale), hsize, hm.align]
      have := (hm.scale.roundUp_bounds 0).2.2.2 rfl
      simp [this]
    omega
  | @field st st' sh sh' name t full a ht h ih =>
    obtain ⟨halign, hscale⟩ := toNat_fieldAlign ht packed
    have hoffset : alignUpU32 st.size (if packed then 1 else orElse t.align 1) = 0 := by
      apply BitVec.eq_of_toNat_eq
      rw [toNat_alignUpU32 (by rw [halign]; exact hscale), hsize, halign]
      have := (hscale.roundUp_bounds 0).2.2.2 rfl
      simp [this]
    rcases Nat.eq_zero_or_pos full with rfl | hfull
    · refine ih (hm.add name ht) (size_of_empty hm name ht hoffset) hapart ?_
      rw [hm.ranges_add]
      exact List.mem_append_left _ hr
    · exact absurd hapart (h.overlaps hm ht hfull hoffset ⟨r, hr, hfirst, hpos⟩)

/-- A shape that is too large is not in the table. -/
theorem not_kept (h : Laying packed st sh st' sh') (he : Exact packed st sh)
    (hlarge : 2 ^ 32 ≤ sh'.close.size) (hapart : (ranges st' sh').Pairwise Apart) :
    ∃ r ∈ ranges st' sh', st'.close.size.toNat < r.1 + r.2 := by
  have hbound := st'.close.size.isLt
  induction h with
  | @done st sh =>
    have hclose : st.close.size.toNat = 0 := by
      rw [StructDef.close, toNat_alignUpU32 (by rw [he.align]; exact he.scale), he.size, he.align]
      exact if_neg (Nat.not_lt.mpr hlarge)
    have hpos : 0 < sh.size := by
      rcases Nat.eq_zero_or_pos sh.size with hzero | hpos
      · have hnone : sh.close.size = 0 := (he.scale.roundUp_bounds sh.size).2.2.2 hzero
        omega
      · exact hpos
    obtain ⟨r, hr, hend⟩ := he.reach hpos
    exact ⟨r, hr, by omega⟩
  | @field st st' sh sh' name t full a ht h ih =>
    by_cases hlt : (sh.addField packed full a).size < 2 ^ 32
    · exact ih (he.add name ht hlt) hlarge hapart hbound
    · obtain ⟨halign, hscale⟩ := toNat_fieldAlign ht packed
      have hsum : (sh.addField packed full a).size =
          roundUp sh.size (if packed then 1 else a) + full := rfl
      have hoffset : (alignUpU32 st.size (if packed then 1 else orElse t.align 1)).toNat = _ :=
        toNat_alignUpU32 (by rw [halign]; exact hscale)
      rw [halign, he.size] at hoffset
      have hranges := he.ranges_add name t full a
      have hgrow := h.ranges_grow (he.toMatched.add name ht)
      by_cases hround : roundUp sh.size (if packed then 1 else a) < 2 ^ 32
      · -- the field ends behind 2^32
        rw [if_pos hround] at hoffset
        refine ⟨_, hgrow.mem (hranges ▸ List.mem_append_right _ (List.mem_singleton_self _)), ?_⟩
        omega
      · -- the field begins at zero
        have hzero : alignUpU32 st.size (if packed then 1 else orElse t.align 1) = 0 := by
          rw [if_neg hround] at hoffset
          exact BitVec.eq_of_toNat_eq hoffset
        have horigin : ∃ r ∈ ranges st sh, r.1 = 0 ∧ 0 < r.2 := by
          refine he.origin (Nat.pos_of_ne_zero fun hnone => hround ?_)
          rw [(hscale.roundUp_bounds sh.size).2.2.2 hnone]
          decide
        rcases Nat.eq_zero_or_pos full with rfl | hfull
        · refine h.round (he.toMatched.add name ht) (size_of_empty he.toMatched name ht hzero) ?_ hapart
          obtain ⟨r, hr, hfirst⟩ := horigin
          exact ⟨r, by rw [hranges]; exact List.mem_append_left _ hr, hfirst⟩
        · exact absurd hapart (h.overlaps he.toMatched ht hfull hzero horigin)

end Laying

/-! ## Structs that are laid out well -/

/-- The fields of a struct are apart and in the struct, the fields of one that is not
packed are aligned, and so are the structs of an array. -/
structure WellLaid (st : StructDef) (sh : Shape) : Prop where
  apart : (ranges st sh).Pairwise Apart
  inside : ∀ r ∈ ranges st sh, r.1 + r.2 ≤ st.size.toNat
  aligned : st.packed = false → ∀ f ∈ st.fields, f.type.align.toNat ∣ f.offset.toNat
  whole : st.align.toNat ∣ st.size.toNat
  /-- The elements of an array are its `base` apart. -/
  elements : ∀ start i count : Nat, st.align.toNat ∣ start →
    st.align.toNat ∣ start +
      i * (arrayOf { kind := .struct, size := st.size, align := st.align } count).base.toNat

/-- The table can say the size, and there is a size if there is an alignment. -/
def Shape.Fits (sh : Shape) : Prop :=
  sh.size < 2 ^ 32 ∧ (sh.size = 0 → sh.align = 1)

theorem exact_empty (name : Name) (packed : Bool) :
    Exact packed { name := name, packed := packed } { name := name } where
  name := rfl
  flag := rfl
  align := rfl
  scale := .inl rfl
  length := rfl
  size := rfl
  below := Nat.two_pow_pos 32
  ordered := List.Pairwise.nil
  inside := fun _ hr => absurd hr List.not_mem_nil
  aligned := fun _ _ hf => absurd hf List.not_mem_nil
  origin := fun h => absurd h (Nat.lt_irrefl 0)
  reach := fun h => absurd h (Nat.lt_irrefl 0)

theorem Laying.toNat_close (h : Exact packed st sh) (hlt : sh.close.size < 2 ^ 32) :
    st.close.size.toNat = sh.close.size := by
  rw [StructDef.close, toNat_alignUpU32 (by rw [h.align]; exact h.scale), h.size, h.align]
  exact if_pos hlt

theorem size_le_close (hscale : Scale sh.align) : sh.size ≤ sh.close.size :=
  (hscale.roundUp_bounds sh.size).1

theorem Exact.wellLaid (h : Exact packed st sh) (hfits : sh.close.Fits) :
    WellLaid st.close sh.close := by
  have hsize := Laying.toNat_close h hfits.1
  have halign : st.close.align.toNat = sh.align := h.align
  have hdvd : sh.align ∣ sh.close.size := (h.scale.roundUp_bounds sh.size).2.2.1
  refine ⟨h.ordered.imp ?_, fun r hr => ?_, fun hflag => h.aligned (h.flag.symm.trans hflag), ?_, ?_⟩
  · intro r r' hle x hx
    omega
  · rw [hsize]
    exact Nat.le_trans (h.inside r hr) (size_le_close h.scale)
  · rw [hsize, halign]
    exact hdvd
  · intro start i count hstart
    rw [halign] at hstart ⊢
    change sh.align ∣ start + i * (orElse st.close.size 1).toNat
    by_cases hzero : st.close.size = 0
    · have hone : sh.align = 1 := hfits.2 (by rw [← hsize, hzero]; rfl)
      rw [hone]
      exact Nat.one_dvd _
    · rw [orElse, if_pos hzero, hsize]
      exact Nat.dvd_add hstart (Nat.dvd_mul_left_of_dvd hdvd i)

theorem WellLaid.fits {st₀ : StructDef} {sh₀ : Shape} (hlaying : Laying packed st₀ sh₀ st sh)
    (he : Exact packed st₀ sh₀) (h : WellLaid st.close sh.close) : sh.close.Fits := by
  have hm := hlaying.matched he.toMatched
  have hlt : sh.close.size < 2 ^ 32 := by
    refine Nat.lt_of_not_le fun hlarge => ?_
    obtain ⟨r, hr, hout⟩ := hlaying.not_kept he hlarge h.apart
    exact absurd (h.inside r hr) (Nat.not_le.mpr hout)
  refine ⟨hlt, fun hzero => ?_⟩
  have hexact := hlaying.exact (Nat.lt_of_le_of_lt (size_le_close hm.scale) hlt) he
  have hsize : st.close.size = 0 :=
    BitVec.eq_of_toNat_eq ((Laying.toNat_close hexact hlt).trans hzero)
  have hone := h.elements 0 1 0 (Nat.dvd_zero _)
  change st.align.toNat ∣ 0 + 1 * (orElse st.close.size 1).toNat at hone
  rw [hsize, hm.align] at hone
  exact Nat.dvd_one.mp hone

/-- A struct of the table and its shape: when it is laid out well. -/
structure Described (st : StructDef) (sh : Shape) : Prop extends st.Has sh where
  length : st.fields.length = sh.parts.length
  wellLaid_iff : WellLaid st sh ↔ sh.Fits

theorem described_of_lay (htable : List.Forall₂ StructDef.Has structs shapes) {d : StructDecl}
    (h : d.lay structs = some st) : ∃ sh, d.shape shapes = some sh ∧ Described st sh := by
  obtain ⟨st₀, hfields, heq⟩ := Option.bind_eq_some_iff.mp h
  cases heq
  obtain ⟨sh, hshape, hlaying⟩ := laying_of_layFields htable d.packed { name := d.name } hfields
  have he := exact_empty d.name d.packed
  have hm := hlaying.matched he.toMatched
  refine ⟨sh.close, by rw [StructDecl.shape, hshape]; rfl, ⟨hm.name, fun hlt => ?_, hm.align, hm.scale⟩,
    hm.length, WellLaid.fits hlaying he, fun hfits => ?_⟩
  · exact Laying.toNat_close (hlaying.exact (Nat.lt_of_le_of_lt (size_le_close hm.scale) hlt) he) hlt
  · exact Exact.wellLaid (hlaying.exact (Nat.lt_of_le_of_lt (size_le_close hm.scale) hfits.1) he) hfits

theorem described_of_layStructs {ds : List StructDecl} {structs' : List StructDef}
    (htable : List.Forall₂ Described structs shapes) (h : layStructs structs ds = some structs') :
    ∃ shapes', shapesOf shapes ds = some shapes' ∧ List.Forall₂ Described structs' shapes' := by
  induction ds generalizing structs shapes with
  | nil =>
    cases h
    exact ⟨shapes, rfl, htable⟩
  | cons d ds ih =>
    unfold layStructs at h
    split at h
    next => cases h
    next =>
      obtain ⟨st, hlay, hrest⟩ := Option.bind_eq_some_iff.mp h
      obtain ⟨sh, hshape, hst⟩ := described_of_lay (htable.imp fun _ _ h => h.toHas) hlay
      obtain ⟨shapes', hshapes, hall⟩ := ih (List.rel_append htable (.cons hst .nil)) hrest
      refine ⟨shapes', ?_, hall⟩
      rw [shapesOf, hshape]
      exact hshapes

/-- Every struct that `scan_structs` accepts is laid out well if and only if its size
over unbounded integers can be said and is not zero for an alignment. -/
theorem structs_wellLaid_iff {n : Nat} {p : Source} {g g' : Globals}
    (h : scanStructs n p g = (.ok (), g')) :
    ∃ ds shapes, readStructs n p = some ds ∧ shapesOf [] ds = some shapes ∧
      List.Forall₂ (fun st sh => st.name = sh.name ∧ st.fields.length = sh.parts.length ∧
        (WellLaid st sh ↔ sh.Fits)) g'.structs shapes := by
  have hanswer := Exec.answer_eq_some.mpr h
  rw [answer_scanStructs] at hanswer
  obtain ⟨ds, hread, hmap⟩ := Option.bind_eq_some_iff.mp hanswer
  obtain ⟨structs, hlay, heq⟩ := Option.map_eq_some_iff.mp hmap
  cases heq
  obtain ⟨shapes, hshapes, hall⟩ := described_of_layStructs .nil hlay
  exact ⟨ds, shapes, hread, hshapes, hall.imp fun _ _ h => ⟨h.name, h.length, h.wellLaid_iff⟩⟩

theorem scanStructs_of_ok {n : Nat} {p : Source} {g : Globals} (h : (scanStructs n p g).1 = .ok ()) :
    scanStructs n p g = (.ok (), (scanStructs n p g).2) :=
  Prod.ext h rfl

/-- A struct with padding. -/
def paddedSource : Source :=
  "struct S \x7b a: char; b: int; \x7d".toList

theorem structs_wellLaid_padded :
    ∃ sh, List.Forall₂ WellLaid (scanStructs 40 paddedSource {}).2.structs [sh] ∧ sh.size = 16 := by
  have hok : (scanStructs 40 paddedSource {}).1 = .ok () := by decide +kernel
  obtain ⟨ds, shapes, hread, hshapes, hall⟩ := structs_wellLaid_iff (scanStructs_of_ok hok)
  have hds : readStructs 40 paddedSource = some [⟨"S".toList, false,
      [⟨"a".toList, .named "char".toList⟩, ⟨"b".toList, .named "int".toList⟩]⟩] := by rfl
  cases hds.symm.trans hread
  cases hshapes
  have hfits : Shape.Fits ⟨"S".toList, [1, 8], 16, 8⟩ := ⟨by decide, fun h => absurd h (by decide)⟩
  refine ⟨⟨"S".toList, [1, 8], 16, 8⟩, ?_, rfl⟩
  cases hall with
  | cons h hrest =>
    cases hrest
    exact .cons (h.2.2.mpr hfits) .nil

/-- A struct whose first field has 4 GiB. -/
def hugeSource : Source :=
  ("struct S \x7b a: [536870912]int; b: int; \x7d " ++
    "fn main() -> int \x7b return 0; \x7d").toList

/-- The program compiles. Both fields are at zero, and the struct has 8 bytes; the
first field has 2^32. -/
theorem huge_fields_overlap :
    (compileSource 120 hugeSource {}).1 = .ok () ∧
      ((compileSource 120 hugeSource {}).2.structs.map fun st =>
        (st.fields.map (·.offset), st.size)) = [([0, 0], 8)] ∧
      (((readStructs 120 hugeSource).bind (shapesOf [])).map fun shapes =>
        shapes.map (·.parts)) = some [[2 ^ 32, 8]] ∧
      ¬ Apart (0, 2 ^ 32) (0, 8) := by
  refine ⟨by decide +kernel, by decide +kernel, by decide +kernel, fun h => ?_⟩
  exact h 0 (by decide)

end OreOS.Orec
