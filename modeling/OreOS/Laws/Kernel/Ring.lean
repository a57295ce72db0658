import OreOS.Kernel.Net
import Mathlib.Tactic.Common

/-!
# The receive ring as a queue

Frames are laid end to end on an endless row of pages; page `k` of the row is
page `k` modulo 58 of the ring. A frame is unread as long as its pages are from
`BNRY + 1` up to `CURR`, and this window of the row is always shorter than the
ring, so that the pages of two unread frames never meet and `CURR` is the page
behind `BNRY` only when nothing is unread.
-/

namespace OreOS.Kernel

open OreOS.Lib (Byte)

/-! ## Pages and addresses of the row -/

/-- Page `k` of the row. -/
def ringPage (k : Nat) : Byte := BitVec.ofNat 8 (0x46 + k % 58)

/-- Byte `x` of the row. -/
def ringAddr (x : Nat) : BitVec 16 := BitVec.ofNat 16 (0x4600 + x % 14848)

theorem toNat_ringPage (k : Nat) : (ringPage k).toNat = 0x46 + k % 58 := by
  rw [ringPage, BitVec.toNat_ofNat, Nat.mod_eq_of_lt (by omega)]

theorem toNat_ringAddr (x : Nat) : (ringAddr x).toNat = 0x4600 + x % 14848 := by
  rw [ringAddr, BitVec.toNat_ofNat, Nat.mod_eq_of_lt (by omega)]

theorem ringPage_eq_iff {j k : Nat} : ringPage j = ringPage k ↔ j % 58 = k % 58 := by
  rw [← BitVec.toNat_inj, toNat_ringPage, toNat_ringPage]
  omega

theorem pageAfter_ringPage (k n : Nat) : pageAfter (ringPage k) n = ringPage (k + n) := by
  rw [pageAfter, toNat_ringPage, ringPage, ringSize]
  congr 1
  omega

theorem ringOffset_ringAddr (k x : Nat) :
    ringOffset (ringPage k) (ringAddr x) = (x % 14848 + 14848 - k % 58 * 256) % 14848 := by
  rw [ringOffset, toNat_ringPage, toNat_ringAddr, ringSize]
  omega

theorem ringOffset_window {k x : Nat} (hlow : k * 256 ≤ x) (hhigh : x < k * 256 + 14848) :
    ringOffset (ringPage k) (ringAddr x) = x - k * 256 := by
  rw [ringOffset_ringAddr]
  omega

/-- The row is one page on: `BNRY + 1` with the wrap of the driver. -/
theorem next_ringPage (k : Nat) :
    (if ringPage k + 1 ≥ neRxStop then neRxStart else ringPage k + 1) = ringPage (k + 1) := by
  have hk := toNat_ringPage k
  have hnext := toNat_ringPage (k + 1)
  have hstop : neRxStop.toNat = 0x80 := rfl
  have hstart : neRxStart.toNat = 0x46 := rfl
  have hsum : (ringPage k + 1).toNat = 0x46 + k % 58 + 1 := by bv_omega
  apply BitVec.eq_of_toNat_eq
  split
  next h =>
    rw [ge_iff_le, BitVec.le_def] at h
    omega
  next h =>
    rw [ge_iff_le, BitVec.le_def] at h
    omega

/-- The row is one page back: `next - 1` with the wrap of the driver. -/
theorem prev_ringPage (k : Nat) :
    (if ringPage (k + 1) - 1 < neRxStart then neRxStop - 1 else ringPage (k + 1) - 1) =
      ringPage k := by
  have hk := toNat_ringPage k
  have hnext := toNat_ringPage (k + 1)
  have hstop : (neRxStop - 1).toNat = 0x7f := rfl
  have hstart : neRxStart.toNat = 0x46 := rfl
  have hdiff : (ringPage (k + 1) - 1).toNat = 0x46 + (k + 1) % 58 - 1 := by bv_omega
  apply BitVec.eq_of_toNat_eq
  split
  next h =>
    rw [BitVec.lt_def] at h
    omega
  next h =>
    rw [BitVec.lt_def] at h
    omega

/-! ## Frames in the ring -/

/-- The page of the row at which frame number `frames.length` begins. -/
def startPage (frames : List (List Byte)) : Nat := 1 + (frames.map framePages).sum

@[simp] theorem startPage_snoc (frames : List (List Byte)) (f : List Byte) :
    startPage (frames ++ [f]) = startPage frames + framePages f := by
  simp [startPage, Nat.add_assoc]

theorem startPage_take_succ {frames : List (List Byte)} {i : Nat} {f : List Byte}
    (h : frames[i]? = some f) :
    startPage (frames.take (i + 1)) = startPage (frames.take i) + framePages f := by
  rw [List.take_add_one, h, Option.toList_some, startPage_snoc]

theorem startPage_take_le (frames : List (List Byte)) (i : Nat) :
    startPage (frames.take i) ≤ startPage frames := by
  conv_rhs => rw [← List.take_append_drop i frames]
  simp only [startPage, List.map_append, List.sum_append]
  omega

/-- The header and the bytes of a frame stand in the ring from page `k` of the
row on. -/
def StoredAt (d : Ne2000) (k : Nat) (f : List Byte) : Prop :=
  ∀ j b, (frameHeader (ringPage (k + framePages f)) f ++ f)[j]? = some b →
    d.mem (ringAddr (k * 256 + j)) = b

/-- `read` of the delivered frames have been read. -/
structure RingHolds (d : Ne2000) (delivered : List (List Byte)) (read : Nat) : Prop where
  le : read ≤ delivered.length
  size : ∀ f ∈ delivered, 60 ≤ f.length ∧ f.length ≤ 1596
  bnry : d.bnry = ringPage (startPage (delivered.take read) - 1)
  curr : d.curr = ringPage (startPage delivered)
  room : startPage delivered < startPage (delivered.take read) + 58
  stored : ∀ i f, read ≤ i → delivered[i]? = some f →
    StoredAt d (startPage (delivered.take i)) f

theorem length_frameHeader (next : Byte) (f : List Byte) : (frameHeader next f).length = 4 := rfl

theorem framePages_pos (f : List Byte) : 0 < framePages f := by
  unfold framePages
  omega

theorem startPage_pos (frames : List (List Byte)) : 0 < startPage frames := by
  unfold startPage
  omega

namespace RingHolds

variable {d : Ne2000} {delivered : List (List Byte)} {read : Nat} {f : List Byte}

/-- A delivery that keeps page `BNRY` ends before it comes round to it. -/
theorem deliver_room (h : RingHolds d delivered read) (hkeep : d.bnry ∉ d.written f) :
    startPage delivered + framePages f < startPage (delivered.take read) + 58 := by
  by_contra hover
  have hroom := h.room
  have hpos := startPage_pos (delivered.take read)
  refine hkeep (List.mem_map.mpr ⟨startPage (delivered.take read) + 57 - startPage delivered,
    List.mem_range.mpr (by omega), ?_⟩)
  rw [h.curr, h.bnry, pageAfter_ringPage, ringPage_eq_iff]
  omega

theorem deliver_mem_old {x : Nat} (h : RingHolds d delivered read) (hkeep : d.bnry ∉ d.written f)
    (hlow : startPage (delivered.take read) * 256 ≤ x) (hhigh : x < startPage delivered * 256) :
    (d.deliver f).mem (ringAddr x) = d.mem (ringAddr x) := by
  have hroom := h.deliver_room hkeep
  have haddr := toNat_ringAddr x
  have hoffset : ringOffset d.curr (ringAddr x) = x + 14848 - startPage delivered * 256 := by
    rw [h.curr, ringOffset_ringAddr]
    omega
  unfold Ne2000.deliver
  dsimp only
  rw [if_pos (by omega), hoffset, List.getElem?_eq_none, Option.getD_none]
  rw [List.length_append, length_frameHeader]
  unfold framePages at hroom
  omega

theorem deliver_mem_new {j : Nat} {b : Byte} (h : RingHolds d delivered read)
    (hsize : f.length ≤ 1596)
    (hb : (frameHeader (ringPage (startPage delivered + framePages f)) f ++ f)[j]? = some b) :
    (d.deliver f).mem (ringAddr (startPage delivered * 256 + j)) = b := by
  have haddr := toNat_ringAddr (startPage delivered * 256 + j)
  have hj : j < 4 + f.length := by
    have := (List.getElem?_eq_some_iff.mp hb).1
    rwa [List.length_append, length_frameHeader] at this
  unfold Ne2000.deliver
  dsimp only
  rw [if_pos (by omega), h.curr, ringOffset_window (by omega) (by omega), Nat.add_sub_cancel_left,
    pageAfter_ringPage, hb, Option.getD_some]

theorem deliver (h : RingHolds d delivered read) (hsize : 60 ≤ f.length ∧ f.length ≤ 1596)
    (hkeep : d.bnry ∉ d.written f) : RingHolds (d.deliver f) (delivered ++ [f]) read := by
  have htake : (delivered ++ [f]).take read = delivered.take read :=
    List.take_append_of_le_length h.le
  have hle := h.le
  refine ⟨by rw [List.length_append]; omega, ?_, ?_, ?_, ?_, ?_⟩
  · intro g hg
    rcases List.mem_append.mp hg with hg | hg
    · exact h.size g hg
    · rw [List.mem_singleton.mp hg]
      exact hsize
  · rw [htake]
    exact h.bnry
  · rw [startPage_snoc, ← pageAfter_ringPage, ← h.curr]
    rfl
  · rw [htake, startPage_snoc]
    exact h.deliver_room hkeep
  · intro i g hi hg j b hb
    rcases Nat.lt_or_ge i delivered.length with hlt | hge
    · rw [List.getElem?_append_left hlt] at hg
      rw [List.take_append_of_le_length (Nat.le_of_lt hlt)] at hb ⊢
      have hj : j < 4 + g.length := by
        have := (List.getElem?_eq_some_iff.mp hb).1
        rwa [List.length_append, length_frameHeader] at this
      have hnext := startPage_take_succ hg
      have hall := startPage_take_le delivered (i + 1)
      have hread : startPage (delivered.take read) ≤ startPage (delivered.take i) := by
        have := startPage_take_le (delivered.take i) read
        rwa [List.take_take, Nat.min_eq_left hi] at this
      have hpages : framePages g * 256 ≥ 4 + g.length := by
        unfold framePages
        omega
      rw [h.deliver_mem_old hkeep (by omega) (by omega)]
      exact h.stored i g hi hg j b hb
    · obtain rfl : i = delivered.length := by
        have := (List.getElem?_eq_some_iff.mp hg).1
        rw [List.length_append, List.length_singleton] at this
        omega
      rw [List.getElem?_append_right (Nat.le_refl _), Nat.sub_self] at hg
      obtain rfl := Option.some.inj hg
      rw [List.take_append_of_le_length (Nat.le_refl _), List.take_length] at hb ⊢
      exact h.deliver_mem_new hsize.2 hb

theorem congr {d' : Ne2000} (h : RingHolds d delivered read) (hbnry : d'.bnry = d.bnry)
    (hcurr : d'.curr = d.curr) (hmem : d'.mem = d.mem) : RingHolds d' delivered read := by
  refine ⟨h.le, h.size, hbnry.trans h.bnry, hcurr.trans h.curr, h.room, fun i g hi hg j b hb => ?_⟩
  rw [hmem]
  exact h.stored i g hi hg j b hb

/-- `CURR` is the page behind `BNRY` when nothing is unread, and only then. -/
theorem page_eq_curr_iff (h : RingHolds d delivered read) :
    ringPage (startPage (delivered.take read)) = d.curr ↔ read = delivered.length := by
  rw [h.curr, ringPage_eq_iff]
  constructor
  · intro heq
    by_contra hne
    have hlt : read < delivered.length := by
      have := h.le
      omega
    have hnext := startPage_take_succ (List.getElem?_eq_getElem hlt)
    have hall := startPage_take_le delivered (read + 1)
    have hroom := h.room
    have hpos := framePages_pos delivered[read]
    omega
  · intro heq
    rw [heq, List.take_length]

theorem advance (h : RingHolds d delivered read) (hf : delivered[read]? = some f)
    {d' : Ne2000} (hbnry : d'.bnry = ringPage (startPage (delivered.take (read + 1)) - 1))
    (hcurr : d'.curr = d.curr) (hmem : d'.mem = d.mem) : RingHolds d' delivered (read + 1) := by
  have hlt := (List.getElem?_eq_some_iff.mp hf).1
  have hroom := h.room
  refine ⟨hlt, h.size, hbnry, hcurr.trans h.curr, ?_, fun i g hi hg j b hb => ?_⟩
  · rw [startPage_take_succ hf]
    omega
  · rw [hmem]
    exact h.stored i g (by omega) hg j b hb

end RingHolds

end OreOS.Kernel
