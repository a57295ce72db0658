import OreOS.Lib.Arith
import OreOS.Lib.Memory

/-!
# The arithmetic of the terrain (`kernel/terrain.c`)

`clear_sky`, `render_voxel_slice`, `draw_objects_for_slice` and `draw_rect` over the signed
operations of C. A job comes from a user program as it is, so the operations may leave the
range of `int32_t`.

A function gives its stores to the buffer in their order. Loop counters never leave
their range and are natural numbers.
-/

namespace OreOS.Kernel

open OreOS.Lib (Byte Arith gather)

def terrainW : Nat := 640
def terrainH : Nat := 480

/-- The fields of a job that are read. -/
structure OreTerrainJob where
  seed : BitVec 64 := 0
  cameraX : BitVec 32 := 0
  cameraZ : BitVec 32 := 0
  yaw : BitVec 32 := 0
  pitch : BitVec 32 := 0
  deriving DecidableEq

/-- A store of a colour in a buffer. -/
abbrev Pixel := Nat × Byte

def terrainHash (x : BitVec 32) : BitVec 32 :=
  let x := x ^^^ (x >>> 16)
  let x := x * 0x7feb352d
  let x := x ^^^ (x >>> 15)
  let x := x * 0x846ca68b
  x ^^^ (x >>> 16)

/-- A number as the unsigned comparisons of the source see it. -/
def unsigned (x : Int) : Nat := (BitVec.ofInt 32 x).toNat

/-- The first column of a slice. -/
def sliceStart (worker count : BitVec 32) : Nat := (BitVec.ofNat 32 terrainW * worker / count).toNat

namespace Voxel

section

variable {m : Type → Type} [Monad m] (a : Arith m)

def terrainNoise (x z : Int) (seed : BitVec 64) : m Int :=
  let h := terrainHash (BitVec.ofInt 32 x * 73856093 ^^^ BitVec.ofInt 32 z * 19349663 ^^^
    seed.setWidth 32)
  a.sub (Int.ofNat (h.toNat % 256)) 128

def drawRect (x0 y0 w h : Int) (color : Byte) : m (List Pixel) :=
  (List.range h.toNat) |> gather fun (y : Nat) => do
    let py ← a.add y0 y
    if py < 0 ∨ py ≥ terrainH then return []
    else
      (List.range w.toNat) |> gather fun (x : Nat) => do
        let px ← a.add x0 x
        if px < 0 ∨ px ≥ terrainW then return []
        else return [(py.toNat * terrainW + px.toNat, color)]

/-! ## The sky -/

def skyRows (y0 y1 : Nat) : List Pixel :=
  (List.range' y0 (y1 - y0)).flatMap fun y =>
    let c : Byte := if y < 58 then 1 else if y < 124 then 2 else 3
    (List.range terrainW).map fun x => (y * terrainW + x, c)

/-- A pixel of the hills. -/
def hillPixel (job : OreTerrainJob) (horizon : Int) (y x : Nat) : m (List Pixel) := do
  let mx ← a.add (← a.sub x 320) (← a.div job.yaw.toInt 7)
  let noise ← terrainNoise a (← a.div mx 42) 11 job.seed
  let peak ← a.sub (← a.sub horizon 12) (← a.div noise 5)
  if (y : Int) ≥ peak then return [(y * terrainW + x, 7)] else return []

def hillRows (job : OreTerrainJob) (horizon : Int) (start stop : Nat) : m (List Pixel) :=
  (List.range' start (stop - start)) |> gather fun y =>
    (List.range terrainW) |> gather fun x => hillPixel a job horizon y x

def clearSky (job : OreTerrainJob) (y0 y1 : Nat) : m (List Pixel) := do
  let horizon ← a.add 154 (← a.div job.pitch.toInt 24)
  let low ← a.sub horizon 34
  if y0 < unsigned horizon ∧ y1 > unsigned low then
    let hills ← hillRows a job horizon (max y0 (unsigned low)) (min y1 (unsigned horizon))
    return skyRows y0 y1 ++ hills
  else return skyRows y0 y1

/-! ## Slices -/

/-- What `render_voxel_slice` knows of a row before it goes through the columns. -/
structure Row where
  y : Nat
  dy : Int
  center : Int
  half : Int
  bank : Int
  ground : Byte
  shoulder : Byte
  water : Byte
  grid : Bool

/-- `y_step`. -/
def Row.step (r : Row) : Nat := if r.dy < 95 then 3 else if r.dy < 185 then 2 else 1

/-- `wz`. -/
def rowWz (job : OreTerrainJob) (dy : Int) : m Int := do
  let depth ← a.div 36000 (← a.add dy 10)
  a.add job.cameraZ.toInt (← a.mul depth 12)

/-- `center`. -/
def rowCenter (job : OreTerrainJob) (dy wz : Int) : m Int := do
  let noise ← terrainNoise a (← a.div wz 330) 17 job.seed
  let curve ← a.div (← a.mul noise dy) 150
  a.add (← a.add 320 (← a.div job.yaw.toInt 2)) curve

/-- `half`. -/
def rowHalf (dy : Int) : m Int := do
  let half ← a.add 10 (← a.div (← a.mul dy dy) 360)
  return min 305 half

def rowOf (job : OreTerrainJob) (horizon : Int) (y : Nat) : m Row := do
  let dy ← a.add (← a.sub y horizon) 1
  let wz ← rowWz a job dy
  let center ← rowCenter a job dy wz
  let half ← rowHalf a dy
  let bank ← a.div job.yaw.toInt 12
  let wz160 ← a.div wz 160
  let wz80 ← a.div wz 80
  let wz96 ← a.div wz 96
  return {
    y := y
    dy := dy
    center := center
    half := half
    bank := bank
    ground := if dy > 235 ∧ unsigned wz160 % 2 = 0 then 5 else 4
    shoulder := if dy > 170 then 9 else 6
    water := if unsigned (wz80 + y / 7) % 2 = 0 then 14 else 3
    grid := unsigned wz96 % 8 = 0 }

/-- The colour of a column in a row. -/
def colorOf (r : Row) (x : Nat) : m Byte := do
  let sx ← a.sub (← a.sub x r.center) r.bank
  let left ← a.neg r.half
  let outerLeft ← a.sub left 22
  let outerRight ← a.add r.half 22
  let lane1 ← a.div (← a.mul left 2) 3
  let lane2 ← a.div (← a.mul r.half 2) 3
  let lane1l ← a.sub lane1 1
  let lane1r ← a.add lane1 1
  let lane2l ← a.sub lane2 1
  let lane2r ← a.add lane2 1
  let leftl ← a.sub left 2
  let leftr ← a.add left 2
  let rightl ← a.sub r.half 2
  let rightr ← a.add r.half 2
  let c := if sx > left ∧ sx < r.half then r.water
    else if sx > outerLeft ∧ sx < outerRight then r.shoulder else r.ground
  let c : Byte := if r.grid ∧ r.dy > 45 then if sx > left ∧ sx < r.half then 15 else 9 else c
  let c := if (sx ≥ lane1l ∧ sx ≤ lane1r) ∨ (sx ≥ lane2l ∧ sx ≤ lane2r) then 8 else c
  return if (sx ≥ -2 ∧ sx ≤ 2) ∨ (sx ≥ leftl ∧ sx ≤ leftr) ∨ (sx ≥ rightl ∧ sx ≤ rightr) then 15
    else c

/-- The stores of a colour in a column, for the rows of a step. -/
def cellPixels (r : Row) (x : Nat) (c : Byte) : List Pixel :=
  (r.y * terrainW + x, c) ::
    (if r.step ≥ 2 ∧ r.y + 1 < terrainH then [((r.y + 1) * terrainW + x, c)] else []) ++
    (if r.step = 3 ∧ r.y + 2 < terrainH then [((r.y + 2) * terrainW + x, c)] else [])

def renderRow (r : Row) (x0 x1 : Nat) : m (List Pixel) :=
  (List.range' x0 (x1 - x0)) |> gather fun x => do
    let c ← colorOf a r x
    return cellPixels r x c

/-- The rows from `y` on; there are at most `n` of them. -/
def renderRows (job : OreTerrainJob) (horizon : Int) (x0 x1 : Nat) : Nat → Nat → m (List Pixel)
  | 0, _ => return []
  | n + 1, y =>
    if y < terrainH then do
      let r ← rowOf a job horizon y
      let here ← renderRow a r x0 x1
      let rest ← renderRows job horizon x0 x1 n (y + r.step)
      return here ++ rest
    else return []

def renderVoxelSlice (job : OreTerrainJob) (x0 x1 : Nat) : m (List Pixel) := do
  let horizon ← a.add 154 (← a.div job.pitch.toInt 24)
  renderRows a job horizon x0 x1 terrainH (unsigned horizon)

def renderSlice (job : OreTerrainJob) (count worker : BitVec 32) : m (List Pixel) :=
  renderVoxelSlice a job (sliceStart worker count) (sliceStart (worker + 1) count)

/-! ## Objects -/

/-- The distance of an object. -/
def objectDz (job : OreTerrainJob) (h : BitVec 32) : m Int := do
  let dz ← a.sub (h.toNat % 4096 : Nat) (job.cameraZ.toInt % 4096)
  let dz ← (if dz < 0 then a.add dz 4096 else pure dz)
  a.add dz 90

/-- Where an object stands. -/
def objectWorldX (h : BitVec 32) : m Int := do
  let worldX ← a.sub (h.toNat / 2048 % 2048 : Nat) 1024
  if worldX > -150 ∧ worldX < 150 then a.add worldX (if worldX < 0 then -190 else 190)
  else pure worldX

/-- The rectangles of an object: column, row, width, height and colour. -/
def objectRects (kind : Nat) (x y size : Int) : m (List (Int × Int × Int × Int × Byte)) := do
  let half ← a.div size 2
  let size2 ← a.mul size 2
  if kind = 0 then
    let size3 ← a.mul size 3
    let size4 ← a.mul size 4
    return [(x, ← a.sub y size3, ← a.add half 1, size3, 6),
      (← a.sub x size, ← a.sub y size4, ← a.add size2 2, size2, 5)]
  else if kind = 1 then
    return [(← a.sub x size, y, ← a.add size2 1, ← a.add half 1, 15),
      (← a.add x half, ← a.sub y half, ← a.add half 1, ← a.add half 1, 8)]
  else if kind = 2 then
    return [(← a.sub x size, ← a.sub y size, ← a.add size2 2, size, 12),
      (← a.sub x half, ← a.sub y size2, size, size, 12),
      (← a.add x size, ← a.sub y size2, ← a.add size 5, ← a.add half 1, 12)]
  else
    return [(← a.sub x half, ← a.sub y half, ← a.add size 1, ← a.add size 1, 7)]

/-- Object number `i`, if it is drawn. -/
def drawObject (job : OreTerrainJob) (horizon : Int) (y0 y1 i : Nat) : m (List (List Pixel)) := do
  let h := terrainHash (job.seed.setWidth 32 ^^^ BitVec.ofNat 32 i * 977)
  let dz ← objectDz a job h
  let worldX ← objectWorldX a h
  let away ← a.mul (← a.sub worldX (← a.div job.cameraX.toInt 3)) 280
  let x ← a.add (← a.add 320 (← a.div job.yaw.toInt 3)) (← a.div away dz)
  let y ← a.add (← a.add horizon 18) (← a.div 36000 dz)
  let size ← a.add 3 (← a.div 1500 dz)
  let size := min 28 size
  let size3 ← a.mul size 3
  if (unsigned y + unsigned size3) % 2 ^ 32 < y0 ∨ unsigned y ≥ y1 then return []
  else
    let rects ← objectRects a (h.toNat / 2 ^ 24 % 4) x y size
    let pixels ← rects |> gather fun (x, y, w, h, color) => drawRect a x y w h color
    return [pixels]

/-- `draw_objects_for_slice`: the objects that are drawn. -/
def drawObjectsForSlice (job : OreTerrainJob) (y0 y1 : Nat) : m (List (List Pixel)) := do
  let horizon ← a.add 158 (← a.div job.pitch.toInt 24)
  (List.range 42) |> gather fun i => drawObject a job horizon y0 y1 i

/-! ## A picture -/

/-- What `terrain_render_user` and its workers store for a job. -/
def terrainPicture (job : OreTerrainJob) (workers : BitVec 32) : m (List Pixel) := do
  let sky ← clearSky a job 0 terrainH
  let slices ← (List.range workers.toNat) |> gather fun w =>
    renderSlice a job workers (BitVec.ofNat 32 w)
  let objects ← drawObjectsForSlice a job 0 terrainH
  return sky ++ slices ++ objects.flatten

end

end Voxel

end OreOS.Kernel
