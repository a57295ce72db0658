import OreOS.Laws.Kernel.Slices

/-!
# The range of the terrain's arithmetic

Two expressions leave `int32_t` for some jobs: `camera_z + depth * 12` in the first row, where
`depth` is largest, and `(world_x - camera_x / 3) * 280`. All others stay in range, and no
divisor is 0.

Each function has a lemma that says how large its results are (`Yields`).
-/

namespace OreOS.Kernel.Voxel

open OreOS.Lib OreOS.Lib.Arith

variable {job : OreTerrainJob} {horizon : Int} {x0 x1 x y n : Nat}

theorem fits_toInt (x : BitVec 32) : Fits x.toInt :=
  ⟨BitVec.le_toInt x, BitVec.toInt_lt⟩

theorem natAbs_mul_le {a b : Int} {k l : Nat} (ha : a.natAbs ≤ k) (hb : b.natAbs ≤ l) :
    (a * b).natAbs ≤ k * l := by
  rw [Int.natAbs_mul]
  exact Nat.mul_le_mul ha hb

theorem fits_tdiv {a b : Int} (ha : Fits a) (hb : 0 < b) : Fits (a.tdiv b) := by
  have hle := Int.natAbs_tdiv_le_natAbs a b
  have hbounds := tdiv_bounds a hb
  unfold Fits at ha ⊢
  omega

theorem toInt_tdiv (x : BitVec 32) {b : Int} (hb : 0 < b) :
    -2 ^ 31 ≤ b * x.toInt.tdiv b ∧ b * x.toInt.tdiv b ≤ 2 ^ 31 := by
  have hx := fits_toInt x
  have hbounds := tdiv_bounds x.toInt hb
  have hsize : (b * x.toInt.tdiv b).natAbs ≤ x.toInt.natAbs := by
    rw [Int.natAbs_mul, ← Int.ofNat_le, Int.natCast_mul, Int.natAbs_of_nonneg (Int.le_of_lt hb)]
    exact hbounds.2.2
  unfold Fits at hx
  omega

/-! ## Noise and sky -/

theorem yields_terrainNoise (x z : Int) (seed : BitVec 64) :
    Yields (terrainNoise checked x z seed) fun v => -128 ≤ v ∧ v < 128 := by
  simp only [terrainNoise, Int.ofNat_eq_natCast, checked_sub, yields_inRange_iff, Fits]
  omega

theorem yields_hillPixel (hlow : -2 ^ 30 ≤ horizon) (hhigh : horizon ≤ 2 ^ 30) (hx : x < terrainW) :
    Yields (hillPixel checked job horizon y x) fun _ => True := by
  have hturn := toInt_tdiv job.yaw (b := 7) (by omega)
  have hcell := tdiv_bounds (x - 320 + job.yaw.toInt.tdiv 7) (b := 42) (by omega)
  unfold terrainW at hx
  simp (disch := decide) only [hillPixel, checked_add, checked_sub, checked_div, yields_bind_iff,
    yields_inRange_iff, yields_ite_iff, yields_pure_iff, implies_true, and_true, Fits]
  refine ⟨by omega, by omega, by omega, by omega, ?_⟩
  refine (yields_terrainNoise _ _ _).mono fun noise hnoise => ?_
  have hlift := tdiv_bounds noise (b := 5) (by omega)
  omega

theorem yields_horizon_iff (job : OreTerrainJob) {k : Int} (hk : 0 ≤ k) (hk' : k < 1000) {α : Type}
    {f : Int → Option α} {Q : α → Prop} :
    Yields (checked.div job.pitch.toInt 24 >>= fun q => checked.add k q >>= f) Q ↔
      Yields (f (k + job.pitch.toInt.tdiv 24)) Q := by
  have hpitch := toInt_tdiv job.pitch (b := 24) (by omega)
  simp (disch := decide) only [checked_add, checked_div, yields_bind_iff, yields_inRange_iff, Fits]
  exact ⟨fun h => h.2.2, fun h => ⟨by omega, by omega, h⟩⟩

theorem yields_clearSky (job : OreTerrainJob) (y0 y1 : Nat) :
    Yields (clearSky checked job y0 y1) fun _ => True := by
  have hpitch := toInt_tdiv job.pitch (b := 24) (by omega)
  refine (yields_horizon_iff job (by omega) (by omega)).mpr ?_
  simp only [checked_sub, yields_bind_iff, yields_inRange_iff, yields_ite_iff, yields_pure_iff,
    implies_true, and_true, Fits, hillRows, yields_gather_iff]
  refine ⟨by omega, fun _ y _ x hx => ?_⟩
  exact yields_hillPixel (by omega) (by omega) (List.mem_range.mp hx)

/-! ## Slices -/

/-- How large the values of a row are. -/
structure Row.Small (r : Row) : Prop where
  center : -2 ^ 30 - 1000 ≤ r.center ∧ r.center ≤ 2 ^ 30 + 1000
  half : 0 ≤ r.half ∧ r.half ≤ 305
  bank : -2 ^ 28 ≤ r.bank ∧ r.bank ≤ 2 ^ 28

/-- The distance of a row is at least 11. -/
theorem depth_le {dy : Int} (h : 1 ≤ dy) :
    0 ≤ (36000 : Int).tdiv (dy + 10) ∧ (36000 : Int).tdiv (dy + 10) ≤ 3272 := by
  have hbounds := tdiv_bounds 36000 (b := dy + 10) (by omega)
  have hmul : 11 * (((36000 : Int).tdiv (dy + 10)).natAbs : Int) ≤
      (dy + 10) * ((36000 : Int).tdiv (dy + 10)).natAbs :=
    Int.mul_le_mul_of_nonneg_right (by omega) (by omega)
  omega

theorem yields_rowWz {dy : Int} (hlow : 1 ≤ dy) (hhigh : dy ≤ terrainH)
    (hz : job.cameraZ.toInt + 39264 < 2 ^ 31) : Yields (rowWz checked job dy) Fits := by
  have hcamera := fits_toInt job.cameraZ
  have hdepth := depth_le hlow
  have hne : dy + 10 ≠ 0 := by omega
  unfold terrainH at hhigh
  simp only [rowWz, checked_add, checked_mul, checked_div hne, yields_bind_iff, yields_inRange_iff,
    Fits] at hcamera ⊢
  omega

theorem yields_rowCenter {dy wz : Int} (hlow : 1 ≤ dy) (hhigh : dy ≤ terrainH) (hwz : Fits wz) :
    Yields (rowCenter checked job dy wz) fun center =>
      -2 ^ 30 - 1000 ≤ center ∧ center ≤ 2 ^ 30 + 1000 := by
  have hturn := toInt_tdiv job.yaw (b := 2) (by omega)
  unfold terrainH at hhigh
  simp (disch := decide) only [rowCenter, checked_add, checked_mul, checked_div, yields_bind_iff,
    yields_inRange_iff]
  refine ⟨fits_tdiv hwz (by omega), (yields_terrainNoise _ _ _).mono fun noise hnoise => ?_⟩
  have hbend : (noise * dy).natAbs ≤ 128 * 480 := natAbs_mul_le (by omega) (by omega)
  have hcurve := tdiv_bounds (noise * dy) (b := 150) (by omega)
  unfold Fits
  omega

theorem yields_rowHalf {dy : Int} (hlow : 1 ≤ dy) (hhigh : dy ≤ terrainH) :
    Yields (rowHalf checked dy) fun half => 0 ≤ half ∧ half ≤ 305 := by
  unfold terrainH at hhigh
  have hsquare : (dy * dy).natAbs ≤ 480 * 480 := natAbs_mul_le (by omega) (by omega)
  have hpos : 0 ≤ dy * dy := Int.mul_nonneg (by omega) (by omega)
  have hspread := tdiv_bounds (dy * dy) (b := 360) (by omega)
  simp (disch := decide) only [rowHalf, checked_add, checked_mul, checked_div, yields_bind_iff,
    yields_inRange_iff, yields_pure_iff, Fits]
  omega

theorem yields_rowOf (hlow : 0 ≤ horizon) (hhigh : horizon ≤ y) (hy : y < terrainH)
    (hz : job.cameraZ.toInt + 39264 < 2 ^ 31) :
    Yields (rowOf checked job horizon y) fun r => r.Small := by
  have hbank := toInt_tdiv job.yaw (b := 12) (by omega)
  have hdy : 1 ≤ (y : Int) - horizon + 1 := by omega
  have hdy' : (y : Int) - horizon + 1 ≤ terrainH := by omega
  simp (disch := decide) only [rowOf, checked_add, checked_sub, checked_div, yields_bind_iff,
    yields_inRange_iff, yields_pure_iff]
  unfold terrainH at hy
  refine ⟨⟨by omega, by omega⟩, ⟨by omega, by omega⟩, ?_⟩
  refine (yields_rowWz hdy hdy' hz).mono fun wz hwz => ?_
  refine (yields_rowCenter hdy hdy' hwz).mono fun center hcenter => ?_
  refine (yields_rowHalf hdy hdy').mono fun half hhalf => ?_
  exact ⟨⟨by omega, by omega⟩, fits_tdiv hwz (by omega), fits_tdiv hwz (by omega),
    fits_tdiv hwz (by omega), hcenter, hhalf, by dsimp only; omega⟩

theorem yields_colorOf {r : Row} (hr : r.Small) (hx : x < terrainW) :
    Yields (colorOf checked r x) fun _ => True := by
  obtain ⟨hcenter, hhalf, hbank⟩ := hr
  have hlane1 := tdiv_bounds (-r.half * 2) (b := 3) (by omega)
  have hlane2 := tdiv_bounds (r.half * 2) (b := 3) (by omega)
  unfold terrainW at hx
  simp (disch := decide) only [colorOf, checked_add, checked_sub, checked_mul, checked_neg,
    checked_div, yields_bind_iff, yields_inRange_iff, yields_pure_iff, and_true, Fits]
  and_intros <;> omega

theorem yields_renderRow {r : Row} (hr : r.Small) (hx1 : x1 ≤ terrainW) :
    Yields (renderRow checked r x0 x1) fun _ => True := by
  refine yields_gather_iff.mpr fun x hx => yields_bind_iff.mpr ?_
  rw [List.mem_range'_1] at hx
  exact (yields_colorOf hr (by omega)).mono fun c _ => yields_pure_iff.mpr trivial

theorem yields_renderRows (hlow : 0 ≤ horizon) (hhigh : horizon ≤ y) (hx1 : x1 ≤ terrainW)
    (hz : y < terrainH → job.cameraZ.toInt + 39264 < 2 ^ 31) :
    Yields (renderRows checked job horizon x0 x1 n y) fun _ => True := by
  induction n generalizing y with
  | zero => exact yields_pure_iff.mpr trivial
  | succ n ih =>
    simp only [renderRows, yields_ite_iff, yields_bind_iff, yields_pure_iff, implies_true, and_true]
    intro hy
    refine (yields_rowOf hlow hhigh hy (hz hy)).mono fun r hr => ?_
    exact (yields_renderRow hr hx1).mono fun here _ => ih (by omega) fun _ => hz hy

theorem unsigned_of_nonneg {x : Int} (h : 0 ≤ x) (h' : x < 2 ^ 31) : unsigned x = x.toNat := by
  rw [unsigned, BitVec.toNat_ofInt]
  omega

theorem unsigned_of_neg {x : Int} (h : x < 0) (h' : -2 ^ 31 ≤ x) : terrainH ≤ unsigned x := by
  rw [unsigned, BitVec.toNat_ofInt]
  unfold terrainH
  omega

/-- The row of the horizon. -/
def horizonOf (job : OreTerrainJob) : Int := 154 + job.pitch.toInt.tdiv 24

/-- The first row is drawn only for a horizon in the picture. -/
def CameraFits (job : OreTerrainJob) : Prop :=
  0 ≤ horizonOf job ∧ horizonOf job < terrainH → job.cameraZ.toInt + 39264 < 2 ^ 31

theorem yields_renderVoxelSlice (h : CameraFits job) (hx1 : x1 ≤ terrainW) :
    Yields (renderVoxelSlice checked job x0 x1) fun _ => True := by
  have hpitch := toInt_tdiv job.pitch (b := 24) (by omega)
  have hhorizon : horizonOf job = 154 + job.pitch.toInt.tdiv 24 := rfl
  refine (yields_horizon_iff job (by omega) (by omega)).mpr ?_
  rw [← hhorizon]
  by_cases hneg : horizonOf job < 0
  · -- the unsigned row is past the last one
    refine yields_ite_iff.mpr ⟨fun hy => ?_, fun _ => yields_pure_iff.mpr trivial⟩
    exact absurd hy (Nat.not_lt.mpr (unsigned_of_neg hneg (by omega)))
  · rw [unsigned_of_nonneg (by omega) (by omega)]
    exact yields_renderRows (by omega) (by omega) hx1 fun hy => h ⟨by omega, by omega⟩

/-! ## Objects -/

/-- A rectangle near the picture. -/
def RectSmall (r : Int × Int × Int × Int × Byte) : Prop :=
  r.1.natAbs ≤ 2 ^ 30 ∧ r.2.1.natAbs ≤ 2 ^ 30 ∧ r.2.2.1.natAbs ≤ 1000 ∧ r.2.2.2.1.natAbs ≤ 1000

theorem yields_drawRect {rx ry w h : Int} {color : Byte} (hr : RectSmall (rx, ry, w, h, color)) :
    Yields (drawRect checked rx ry w h color) fun _ => True := by
  simp only [drawRect, checked_add, yields_gather_iff, yields_bind_iff, yields_inRange_iff,
    yields_ite_iff, yields_pure_iff, implies_true, true_and, and_true, List.mem_range, Fits]
  obtain ⟨hrx, hry, hw, hh⟩ := hr
  dsimp only at hrx hry hw hh
  exact fun y hy => ⟨by omega, fun _ x hx => by omega⟩

theorem yields_objectDz (job : OreTerrainJob) (h : BitVec 32) :
    Yields (objectDz checked job h) fun dz => 90 ≤ dz ∧ dz ≤ 8192 := by
  simp only [objectDz, checked_add, checked_sub, yields_bind_iff, yields_inRange_iff,
    yields_ite_iff, yields_pure_iff, Fits]
  omega

/-- Where object number `i` stands. -/
def worldX (seed : BitVec 64) (i : Nat) : Int :=
  let h := terrainHash (seed.setWidth 32 ^^^ BitVec.ofNat 32 i * 977)
  let x : Int := (h.toNat / 2048 % 2048 : Nat) - 1024
  if x > -150 ∧ x < 150 then x + (if x < 0 then -190 else 190) else x

theorem worldX_small (seed : BitVec 64) (i : Nat) :
    -2000 ≤ worldX seed i ∧ worldX seed i ≤ 2000 := by
  unfold worldX
  generalize terrainHash (seed.setWidth 32 ^^^ BitVec.ofNat 32 i * 977) = h
  dsimp only
  split
  · split <;> omega
  · omega

theorem yields_objectWorldX_iff (seed : BitVec 64) (i : Nat) {P : Int → Prop} :
    Yields (objectWorldX checked (terrainHash (seed.setWidth 32 ^^^ BitVec.ofNat 32 i * 977))) P ↔
      P (worldX seed i) := by
  unfold worldX
  generalize terrainHash (seed.setWidth 32 ^^^ BitVec.ofNat 32 i * 977) = h
  simp only [objectWorldX, checked_add, checked_sub, yields_bind_iff, yields_inRange_iff,
    yields_ite_iff, yields_pure_iff, Fits]
  by_cases hnear : ((h.toNat / 2048 % 2048 : Nat) : Int) - 1024 > -150 ∧
      ((h.toNat / 2048 % 2048 : Nat) : Int) - 1024 < 150
  · rw [if_pos hnear]
    refine ⟨fun h => (h.2.1 hnear).2, fun h => ⟨by omega, fun _ => ⟨?_, h⟩, fun hfar => absurd hnear hfar⟩⟩
    split <;> omega
  · rw [if_neg hnear]
    exact ⟨fun h => h.2.2 hnear, fun h => ⟨by omega, fun hc => absurd hc hnear, fun _ => h⟩⟩

theorem yields_objectRects {ox oy size : Int} (kind : Nat)
    (hox : -2 ^ 30 + 1000 ≤ ox ∧ ox ≤ 2 ^ 30 - 1000)
    (hoy : -2 ^ 30 + 1000 ≤ oy ∧ oy ≤ 2 ^ 30 - 1000) (hsize : -28 ≤ size ∧ size ≤ 28) :
    Yields (objectRects checked kind ox oy size) fun rects => ∀ r ∈ rects, RectSmall r := by
  have hhalf : -14 ≤ size.tdiv 2 ∧ size.tdiv 2 ≤ 14 := by
    have := tdiv_bounds size (b := 2) (by omega)
    omega
  simp (disch := decide) only [objectRects, checked_add, checked_sub, checked_mul, checked_div,
    yields_bind_iff, yields_inRange_iff, yields_ite_iff, yields_pure_iff, List.forall_mem_cons,
    List.not_mem_nil, false_implies, implies_true, and_true, Fits, RectSmall]
  refine ⟨by omega, by omega, fun _ => ?_, fun _ => ⟨fun _ => ?_, fun _ => ⟨fun _ => ?_, fun _ => ?_⟩⟩⟩
  all_goals and_intros <;> omega

/-- What `draw_objects_for_slice` multiplies for object number `i`. -/
def AwayFits (job : OreTerrainJob) (i : Nat) : Prop :=
  Fits ((worldX job.seed i - job.cameraX.toInt.tdiv 3) * 280)

theorem quotient_le {n dz : Int} (hdz : 90 ≤ dz) (hn : Fits n) :
    -23860930 ≤ n.tdiv dz ∧ n.tdiv dz ≤ 23860930 := by
  have hbounds := tdiv_bounds n (b := dz) (by omega)
  have hmul : 90 * ((n.tdiv dz).natAbs : Int) ≤ dz * (n.tdiv dz).natAbs :=
    Int.mul_le_mul_of_nonneg_right hdz (by omega)
  unfold Fits at hn
  omega

theorem yields_drawObject {y0 y1 i : Nat} (hlow : -2 ^ 27 ≤ horizon) (hhigh : horizon ≤ 2 ^ 27)
    (haway : AwayFits job i) :
    Yields (drawObject checked job horizon y0 y1 i) fun _ => True := by
  have hworld := worldX_small job.seed i
  have hturn := toInt_tdiv job.yaw (b := 3) (by omega)
  have hside := toInt_tdiv job.cameraX (b := 3) (by omega)
  refine yields_bind_iff.mpr ((yields_objectDz job _).mono fun dz hdz => ?_)
  have hne : dz ≠ 0 := by omega
  have hshift := quotient_le hdz.1 haway
  have hdrop := quotient_le (n := 36000) hdz.1 ⟨by omega, by omega⟩
  have hgrow := quotient_le (n := 1500) hdz.1 ⟨by omega, by omega⟩
  have hpos : 0 ≤ (1500 : Int).tdiv dz := Int.tdiv_nonneg (by omega) (by omega)
  refine yields_bind_iff.mpr ((yields_objectWorldX_iff job.seed i).mpr ?_)
  unfold AwayFits at haway
  generalize worldX job.seed i = w at *
  simp (disch := first | decide | exact hne) only [checked_add, checked_sub, checked_mul, checked_div,
    yields_bind_iff, yields_inRange_iff, yields_ite_iff, yields_pure_iff, implies_true, true_and,
    Fits] at haway ⊢
  refine ⟨by omega, by omega, haway, by omega, by omega, by omega, by omega, by omega, by omega,
    by omega, by omega, by omega, by omega, fun _ => ?_⟩
  refine (yields_objectRects _ (by omega) (by omega) (by omega)).mono fun rects hrects => ?_
  exact (yields_gather_iff.mpr fun r hr => yields_drawRect (hrects r hr)).mono fun _ _ => trivial

theorem yields_drawObjectsForSlice (y0 y1 : Nat) (haway : ∀ i < 42, AwayFits job i) :
    Yields (drawObjectsForSlice checked job y0 y1) fun _ => True := by
  have hpitch := toInt_tdiv job.pitch (b := 24) (by omega)
  refine (yields_horizon_iff job (by omega) (by omega)).mpr (yields_gather_iff.mpr fun i hi => ?_)
  exact yields_drawObject (by omega) (by omega) (haway i (List.mem_range.mp hi))

/-! ## The range -/

/-- The jobs for which nothing leaves the range. -/
structure JobFits (job : OreTerrainJob) : Prop where
  camera : CameraFits job
  away : ∀ i < 42, AwayFits job i

theorem toNat_ofNat_lt {w : Nat} {workers : BitVec 32} (h : w < workers.toNat) :
    BitVec.ofNat 32 w < workers := by bv_omega

theorem yields_terrainPicture (h : JobFits job) (workers : BitVec 32) :
    Yields (terrainPicture checked job workers) fun _ => True := by
  simp only [terrainPicture, yields_bind_iff, yields_pure_iff]
  refine (yields_clearSky job _ _).mono fun sky _ => ?_
  refine Yields.mono (P := fun _ => True) (yields_gather_iff.mpr fun w hw => ?_) fun slices _ =>
    yields_drawObjectsForSlice _ _ h.away
  exact yields_renderVoxelSlice h.camera
    (sliceStart_next_le (toNat_ofNat_lt (List.mem_range.mp hw)))

/-! ## Outside of the range -/

/-- The first row has the largest depth. -/
theorem fits_of_rowOf {P : Row → Prop} (hy : (y : Int) = horizon)
    (h : Yields (rowOf checked job horizon y) P) : job.cameraZ.toInt + 39264 < 2 ^ 31 := by
  have hmost : (36000 : Int).tdiv (y - horizon + 1 + 10) = 3272 := by
    rw [hy, Int.sub_self]
    decide
  have hne : (y : Int) - horizon + 1 + 10 ≠ 0 := by omega
  simp only [rowOf, rowWz, checked_add, checked_sub, checked_mul, checked_div hne, yields_bind_iff,
    yields_inRange_iff, hmost, Fits] at h
  omega

theorem cameraFits_of_yields (h : Yields (renderVoxelSlice checked job x0 x1) fun _ => True) :
    CameraFits job := by
  intro hhorizon
  replace h := (yields_horizon_iff job (by omega) (by omega)).mp h
  change Yields (renderRows checked job (horizonOf job) x0 x1 terrainH
    (unsigned (horizonOf job))) _ at h
  have hrow : (unsigned (horizonOf job) : Int) = horizonOf job := by
    unfold terrainH at hhorizon
    rw [unsigned_of_nonneg hhorizon.1 (by omega), Int.toNat_of_nonneg hhorizon.1]
  rw [show terrainH = 479 + 1 from rfl, renderRows, if_pos (by omega), yields_bind_iff] at h
  exact fits_of_rowOf hrow h

theorem awayFits_of_yields {y0 y1 i : Nat}
    (h : Yields (drawObject checked job horizon y0 y1 i) fun _ => True) : AwayFits job i := by
  obtain ⟨dz, -, h⟩ := yields_bind_iff.mp h
  replace h := (yields_objectWorldX_iff job.seed i).mp (yields_bind_iff.mp h)
  unfold AwayFits
  generalize worldX job.seed i = w at h ⊢
  simp (disch := decide) only [checked_sub, checked_mul, checked_div, yields_bind_iff,
    yields_inRange_iff] at h
  exact h.2.2.1

theorem jobFits_of_yields {workers : BitVec 32} (hworkers : 1 ≤ workers)
    (h : Yields (terrainPicture checked job workers) fun _ => True) : JobFits job := by
  simp only [terrainPicture, yields_bind_iff, yields_pure_iff] at h
  obtain ⟨sky, -, slices, hslices, hobjects⟩ := h
  constructor
  · have hfirst : 0 ∈ List.range workers.toNat := List.mem_range.mpr (BitVec.le_def.mp hworkers)
    exact cameraFits_of_yields (yields_gather_iff.mp ⟨slices, hslices, trivial⟩ 0 hfirst)
  · intro i hi
    replace hobjects := (yields_horizon_iff job (by omega) (by omega)).mp hobjects
    exact awayFits_of_yields (yields_gather_iff.mp hobjects i (List.mem_range.mpr hi))

/-- A picture is rendered in the range of `int32_t`, and without a division by 0, for just these
jobs. -/
theorem terrainPicture_defined_iff (job : OreTerrainJob) (workers : BitVec 32)
    (hworkers : 1 ≤ workers) :
    (terrainPicture Arith.checked job workers).isSome ↔ JobFits job :=
  yields_true_iff.symm.trans ⟨jobFits_of_yields hworkers, fun h => yields_terrainPicture h workers⟩

instance (job : OreTerrainJob) : Decidable (CameraFits job) := inferInstanceAs (Decidable (_ → _))

instance (job : OreTerrainJob) (i : Nat) : Decidable (AwayFits job i) :=
  inferInstanceAs (Decidable (Fits _))

theorem terrainPicture_defined_origin :
    1 ≤ (4 : BitVec 32) ∧ (terrainPicture Arith.checked {} 4).isSome := by
  refine ⟨by decide, (terrainPicture_defined_iff {} 4 (by decide)).mpr ⟨by decide, ?_⟩⟩
  decide +kernel

/-- A camera at the end of the world. -/
theorem farCamera_overflows :
    renderVoxelSlice Arith.checked { cameraZ := 0x7fffffff } 0 terrainW = none ∧
      terrainPicture Arith.checked { cameraZ := 0x7fffffff } 4 = none := by
  have hcamera : ¬ CameraFits { cameraZ := 0x7fffffff } := by decide
  constructor
  · rw [← Option.not_isSome_iff_eq_none, ← yields_true_iff]
    exact fun h => hcamera (cameraFits_of_yields h)
  · rw [← Option.not_isSome_iff_eq_none, ← yields_true_iff]
    exact fun h => hcamera (jobFits_of_yields (by decide) h).camera

end OreOS.Kernel.Voxel
