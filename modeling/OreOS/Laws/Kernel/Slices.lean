import OreOS.Kernel.Voxel
import OreOS.Lib.Stores

/-!
# The slices of a picture

A slice stores to its columns only, and in a column it stores what a slice over all columns
does, because a row depends on nothing else. The slices of any number of workers cover
all columns, so their order and their number do not matter.

All of this is with the arithmetic of the machine.
-/

namespace OreOS.Kernel.Voxel

open OreOS.Lib

variable {job : OreTerrainJob} {horizon : Int} {x x0 x1 y n i : Nat}

/-! ## Cells -/

theorem mem_cellPixels {r : Row} {c : Byte} {p : Pixel} (hy : r.y < terrainH)
    (hp : p ∈ cellPixels r x c) : ∃ y < terrainH, p.1 = y * terrainW + x := by
  rw [cellPixels, List.cons_append, List.mem_cons, List.mem_append] at hp
  rcases hp with rfl | hp | hp
  · exact ⟨r.y, hy, rfl⟩
  · split at hp
    next h => exact ⟨r.y + 1, h.2, by rw [List.mem_singleton.mp hp]⟩
    next => exact absurd hp List.not_mem_nil
  · split at hp
    next h => exact ⟨r.y + 2, h.2, by rw [List.mem_singleton.mp hp]⟩
    next => exact absurd hp List.not_mem_nil

theorem index_lt (hy : y < terrainH) (hx : x < terrainW) : y * terrainW + x < terrainW * terrainH := by
  unfold terrainW terrainH at *
  omega

theorem index_mod (hx : x < terrainW) : (y * terrainW + x) % terrainW = x := by
  rw [Nat.mul_add_mod_self_right, Nat.mod_eq_of_lt hx]

/-- The stores of a column in a row. -/
def columnPixels (r : Row) (x : Nat) : List Pixel :=
  cellPixels r x (colorOf Arith.wrapping r x).run

theorem renderRow_run (r : Row) (x0 x1 : Nat) :
    (renderRow Arith.wrapping r x0 x1).run =
      (List.range' x0 (x1 - x0)).flatMap fun x => columnPixels r x :=
  gather_run _ _

theorem lastAt_columnPixels {r : Row} (hy : r.y < terrainH) (hx : x < terrainW)
    (hne : x ≠ i % terrainW) : lastAt i (columnPixels r x) = none := by
  refine lastAt_eq_none fun p hp heq => hne ?_
  obtain ⟨y, -, hp⟩ := mem_cellPixels hy hp
  rw [← heq, hp, index_mod hx]

theorem lastAt_renderRow {r : Row} (hy : r.y < terrainH) (hx1 : x1 ≤ terrainW) :
    lastAt i (renderRow Arith.wrapping r x0 x1).run =
      if x0 ≤ i % terrainW ∧ i % terrainW < x1 then lastAt i (columnPixels r (i % terrainW))
      else none := by
  have hcolumn : ∀ x ∈ List.range' x0 (x1 - x0), x ≠ i % terrainW →
      lastAt i (columnPixels r x) = none := by
    intro x hx hne
    rw [List.mem_range'_1] at hx
    exact lastAt_columnPixels hy (by omega) hne
  rw [renderRow_run]
  split
  next h =>
    refine lastAt_flatMap_same (fun x hx => ?_) ⟨i % terrainW, ?_, rfl⟩
    · by_cases heq : x = i % terrainW
      · exact .inr (by rw [heq])
      · exact .inl (hcolumn x hx heq)
    · rw [List.mem_range'_1]
      omega
  next h =>
    refine lastAt_flatMap_none fun x hx => hcolumn x hx ?_
    rw [List.mem_range'_1] at hx
    omega

/-! ## Rows -/

theorem renderRows_run_succ (job : OreTerrainJob) (horizon : Int) (x0 x1 n : Nat) (h : y < terrainH) :
    (renderRows Arith.wrapping job horizon x0 x1 (n + 1) y).run =
      (renderRow Arith.wrapping (rowOf Arith.wrapping job horizon y).run x0 x1).run ++
        (renderRows Arith.wrapping job horizon x0 x1 n
          (y + (rowOf Arith.wrapping job horizon y).run.step)).run := by
  rw [renderRows, if_pos h]
  rfl

theorem renderRows_run_end (job : OreTerrainJob) (horizon : Int) (x0 x1 n : Nat)
    (h : ¬ y < terrainH) : (renderRows Arith.wrapping job horizon x0 x1 (n + 1) y).run = [] := by
  rw [renderRows, if_neg h]
  rfl

theorem Row.step_pos (r : Row) : 1 ≤ r.step := by
  rw [Row.step]
  repeat' split
  all_goals decide

/-- As many rows as the buffer has are enough. -/
theorem renderRows_enough {m : Type → Type} [Monad m] (a : Arith m) (h : terrainH ≤ y + n) :
    renderRows a job horizon x0 x1 (n + 1) y = renderRows a job horizon x0 x1 n y := by
  induction n generalizing y with
  | zero => exact if_neg (Nat.not_lt.mpr h)
  | succ n ih =>
    rw [renderRows.eq_2, renderRows.eq_2]
    split
    next hy =>
      have hrest : ∀ r : Row, renderRows a job horizon x0 x1 (n + 1) (y + r.step) =
          renderRows a job horizon x0 x1 n (y + r.step) := fun r => by
        have := r.step_pos
        exact ih (by omega)
      simp only [hrest]
    next => rfl

theorem lastAt_renderRows (hx1 : x1 ≤ terrainW) :
    lastAt i (renderRows Arith.wrapping job horizon x0 x1 n y).run =
      if x0 ≤ i % terrainW ∧ i % terrainW < x1 then
        lastAt i (renderRows Arith.wrapping job horizon 0 terrainW n y).run
      else none := by
  induction n generalizing y with
  | zero =>
    split
    · rfl
    · rfl
  | succ n ih =>
    by_cases hy : y < terrainH
    · have hmod : 0 ≤ i % terrainW ∧ i % terrainW < terrainW :=
        ⟨Nat.zero_le _, Nat.mod_lt _ (by decide)⟩
      rw [renderRows_run_succ _ _ _ _ _ hy, renderRows_run_succ _ _ _ _ _ hy, lastAt_append,
        lastAt_append, ih, lastAt_renderRow hy hx1, lastAt_renderRow hy Nat.le.refl, if_pos hmod]
      split
      · rfl
      · rfl
    · rw [renderRows_run_end _ _ _ _ _ hy, renderRows_run_end _ _ _ _ _ hy]
      split
      · rfl
      · rfl

theorem renderRows_inside (hx1 : x1 ≤ terrainW) {p : Pixel}
    (hp : p ∈ (renderRows Arith.wrapping job horizon x0 x1 n y).run) :
    p.1 < terrainW * terrainH := by
  induction n generalizing y with
  | zero => exact absurd hp List.not_mem_nil
  | succ n ih =>
    by_cases hy : y < terrainH
    · rw [renderRows_run_succ _ _ _ _ _ hy, List.mem_append] at hp
      rcases hp with hp | hp
      · rw [renderRow_run, List.mem_flatMap] at hp
        obtain ⟨x, hx, hp⟩ := hp
        obtain ⟨y', hy', heq⟩ := mem_cellPixels hy hp
        rw [List.mem_range'_1] at hx
        rw [heq]
        exact index_lt hy' (by omega)
      · exact ih hp
    · rw [renderRows_run_end _ _ _ _ _ hy] at hp
      exact absurd hp List.not_mem_nil

/-! ## Slices -/

section

variable {count worker : BitVec 32}

theorem sliceStart_le (hworker : worker.toNat ≤ count.toNat) : sliceStart worker count ≤ terrainW := by
  rw [sliceStart, BitVec.toNat_udiv, BitVec.toNat_mul]
  refine Nat.div_le_of_le_mul ((Nat.mod_le _ _).trans ?_)
  rw [Nat.mul_comm count.toNat]
  exact Nat.mul_le_mul_left _ hworker

/-- A product of `render_slice` that does not wrap. -/
theorem sliceStart_eq (hworker : terrainW * worker.toNat < 2 ^ 32) :
    sliceStart worker count = terrainW * worker.toNat / count.toNat := by
  rw [sliceStart, BitVec.toNat_udiv, BitVec.toNat_mul, BitVec.toNat_ofNat,
    Nat.mod_eq_of_lt (show terrainW < 2 ^ 32 by decide), Nat.mod_eq_of_lt hworker]

theorem toNat_add_one (hworker : worker < count) : (worker + 1).toNat = worker.toNat + 1 := by
  bv_omega

theorem exists_slice (hx : x < terrainW) (hcount : 1 ≤ count)
    (hhigh : terrainW * count.toNat < 2 ^ 32) :
    ∃ worker < count, sliceStart worker count ≤ x ∧ x < sliceStart (worker + 1) count := by
  have hpos : 0 < count.toNat := BitVec.le_def.mp hcount
  have hprod : (x + 1) * count.toNat ≤ terrainW * count.toNat := Nat.mul_le_mul_right _ hx
  have hone : 1 * 1 ≤ (x + 1) * count.toNat := Nat.mul_le_mul (by omega) hpos
  generalize hk : (x + 1) * count.toNat = k at hprod hone
  -- the last worker whose slice begins at the column or before it
  have hw : (k - 1) / terrainW < count.toNat := by
    rw [Nat.div_lt_iff_lt_mul (by decide), Nat.mul_comm]
    omega
  have hnat : (BitVec.ofNat 32 ((k - 1) / terrainW)).toNat = (k - 1) / terrainW := by
    rw [BitVec.toNat_ofNat, Nat.mod_eq_of_lt (by omega)]
  have hworker : BitVec.ofNat 32 ((k - 1) / terrainW) < count := by bv_omega
  have hwrap : ∀ n ≤ count.toNat, terrainW * n < 2 ^ 32 := fun n hn =>
    (Nat.mul_le_mul_left _ hn).trans_lt hhigh
  refine ⟨_, hworker, ?_, ?_⟩
  · rw [sliceStart_eq (hwrap _ (by omega)), hnat]
    refine Nat.le_of_lt_succ ((Nat.div_lt_iff_lt_mul hpos).mpr ?_)
    rw [Nat.succ_eq_add_one, hk]
    have := Nat.mul_div_le (k - 1) terrainW
    omega
  · have hnext := toNat_add_one hworker
    rw [sliceStart_eq (hwrap _ (by omega)), hnext, hnat, ← Nat.succ_le_iff, Nat.le_div_iff_mul_le hpos,
      Nat.succ_eq_add_one, hk]
    have := Nat.lt_mul_div_succ (k - 1) (show 0 < terrainW by decide)
    omega

theorem sliceStart_next_le (hworker : worker < count) :
    sliceStart (worker + 1) count ≤ terrainW :=
  sliceStart_le (Nat.le_trans (Nat.le_of_eq (toNat_add_one hworker)) (BitVec.lt_def.mp hworker))

theorem renderSlice_inside (hworker : worker < count) {p : Pixel}
    (hp : p ∈ (renderSlice Arith.wrapping job count worker).run) : p.1 < terrainW * terrainH := by
  exact renderRows_inside (sliceStart_next_le hworker) hp

theorem lastAt_renderSlice (hworker : worker < count) (i : Nat) :
    lastAt i (renderSlice Arith.wrapping job count worker).run =
      if sliceStart worker count ≤ i % terrainW ∧ i % terrainW < sliceStart (worker + 1) count then
        lastAt i (renderVoxelSlice Arith.wrapping job 0 terrainW).run
      else none := by
  exact lastAt_renderRows (sliceStart_next_le hworker)

end

/-! ## The sky -/

theorem skyRows_inside {y0 y1 : Nat} (hy1 : y1 ≤ terrainH) {p : Pixel} (hp : p ∈ skyRows y0 y1) :
    p.1 < terrainW * terrainH := by
  rw [skyRows, List.mem_flatMap] at hp
  obtain ⟨y, hy, hp⟩ := hp
  obtain ⟨x, hx, rfl⟩ := List.mem_map.mp hp
  rw [List.mem_range'_1] at hy
  exact index_lt (by omega) (List.mem_range.mp hx)

theorem hillRows_inside {start stop : Nat} (hstop : stop ≤ terrainH) {p : Pixel}
    (hp : p ∈ (hillRows Arith.wrapping job horizon start stop).run) : p.1 < terrainW * terrainH := by
  rw [hillRows, gather_run, List.mem_flatMap] at hp
  obtain ⟨y, hy, hp⟩ := hp
  rw [gather_run, List.mem_flatMap] at hp
  obtain ⟨x, hx, hp⟩ := hp
  have hpixel : p ∈ [((y * terrainW + x, 7) : Pixel)] := by
    have hcases : (hillPixel Arith.wrapping job horizon y x).run = [(y * terrainW + x, 7)] ∨
        (hillPixel Arith.wrapping job horizon y x).run = [] := by
      unfold hillPixel
      exact ite_eq_or_eq _ _ _
    rcases hcases with h | h
    · exact h ▸ hp
    · exact absurd (h ▸ hp) List.not_mem_nil
  rw [List.mem_range'_1] at hy
  rw [List.mem_singleton.mp hpixel]
  exact index_lt (by omega) (List.mem_range.mp hx)

theorem clearSky_inside (job : OreTerrainJob) {p : Pixel}
    (hp : p ∈ (clearSky Arith.wrapping job 0 terrainH).run) : p.1 < terrainW * terrainH := by
  have hcases : (clearSky Arith.wrapping job 0 terrainH).run = skyRows 0 terrainH ∨
      ∃ horizon start stop, stop ≤ terrainH ∧ (clearSky Arith.wrapping job 0 terrainH).run =
        skyRows 0 terrainH ++ (hillRows Arith.wrapping job horizon start stop).run := by
    simp only [clearSky, Id.run_bind]
    split
    · exact .inr ⟨_, _, _, Nat.min_le_left _ _, Id.run_bind _ _⟩
    · exact .inl (Id.run_pure _)
  rcases hcases with h | ⟨horizon, start, stop, hstop, h⟩
  · exact skyRows_inside Nat.le.refl (h ▸ hp)
  · rw [h, List.mem_append] at hp
    rcases hp with hp | hp
    · exact skyRows_inside Nat.le.refl hp
    · exact hillRows_inside hstop hp

/-- The slices of `count` workers, in any order and with repetitions, give the picture of one
slice over all columns. -/
theorem slices_give_whole (job : OreTerrainJob) (count : BitVec 32) (hlow : 1 ≤ count)
    (hhigh : terrainW * count.toNat < 2 ^ 32) (order : List (BitVec 32))
    (horder : ∀ worker, worker ∈ order ↔ worker < count) (buffer : Nat → Byte) :
    let sky := (clearSky Arith.wrapping job 0 terrainH).run
    let slices := order.flatMap fun worker => (renderSlice Arith.wrapping job count worker).run
    (∀ p ∈ sky ++ slices, p.1 < terrainW * terrainH) ∧
      applyStores buffer (sky ++ slices) =
        applyStores buffer (sky ++ (renderVoxelSlice Arith.wrapping job 0 terrainW).run) := by
  intro sky slices
  constructor
  · intro p hp
    rcases List.mem_append.mp hp with hp | hp
    · exact clearSky_inside job hp
    · obtain ⟨worker, hworker, hp⟩ := List.mem_flatMap.mp hp
      exact renderSlice_inside ((horder worker).mp hworker) hp
  · refine applyStores_congr buffer fun i => ?_
    rw [lastAt_append, lastAt_append]
    congr 1
    refine lastAt_flatMap_same (fun worker hworker => ?_) ?_
    · rw [lastAt_renderSlice ((horder worker).mp hworker)]
      exact (ite_eq_or_eq _ _ _).symm
    · obtain ⟨worker, hworker, hslice⟩ := exists_slice (Nat.mod_lt i (by decide)) hlow hhigh
      refine ⟨worker, (horder worker).mpr hworker, ?_⟩
      rw [lastAt_renderSlice hworker, if_pos hslice]

theorem slices_give_whole_two :
    (∀ worker : BitVec 32, worker ∈ [1, 0, 1] ↔ worker < 2) ∧
      let sky := (clearSky Arith.wrapping {} 0 terrainH).run
      let slices := [1, 0, 1].flatMap fun worker => (renderSlice Arith.wrapping {} 2 worker).run
      applyStores (fun _ => 0) (sky ++ slices) =
        applyStores (fun _ => 0) (sky ++ (renderVoxelSlice Arith.wrapping {} 0 terrainW).run) := by
  have horder : ∀ worker : BitVec 32, worker ∈ [1, 0, 1] ↔ worker < 2 := by
    intro worker
    rw [List.mem_cons, List.mem_cons, List.mem_singleton]
    bv_omega
  exact ⟨horder, (slices_give_whole {} 2 (by decide) (by decide) [1, 0, 1] horder fun _ => 0).2⟩

end OreOS.Kernel.Voxel
