import OreOS.Lib.Word

/-!
# Byte memory

Memory is a byte at every word, and everything that changes it is `write`: a
list of bytes laid over memory from an address on. What a write leaves alone is
said once (`write_outside`). An address is inside a write when its distance from
the start, in the ring of words, is below the length; so a write may run over
the top of memory.
-/

namespace OreOS.Lib

abbrev Mem := Word → Byte

namespace Mem

/-- Lay `bs` over memory from `a` on. -/
def write (m : Mem) (a : Word) (bs : List Byte) : Mem :=
  fun x => (bs[(x - a).toNat]?).getD (m x)

/-- `n` little-endian bytes of a value. -/
def leBytes (n : Nat) {w : Nat} (v : BitVec w) : List Byte :=
  (List.range n).map fun i => v.extractLsb' (8 * i) 8

def store64 (m : Mem) (a : Word) (v : Word) : Mem :=
  m.write a (leBytes 8 v)

def store32 (m : Mem) (a : Word) (v : BitVec 32) : Mem :=
  m.write a (leBytes 4 v)

def load64 (m : Mem) (a : Word) : Word :=
  m (a + 7) ++ m (a + 6) ++ m (a + 5) ++ m (a + 4) ++ m (a + 3) ++ m (a + 2) ++ m (a + 1) ++ m a

def load32 (m : Mem) (a : Word) : BitVec 32 :=
  m (a + 3) ++ m (a + 2) ++ m (a + 1) ++ m a

def load16 (m : Mem) (a : Word) : BitVec 16 :=
  m (a + 1) ++ m a

/-- Clear `n` bytes. -/
def clear (m : Mem) (a : Word) (n : Nat) : Mem :=
  m.write a (List.replicate n 0)

variable {m m' : Mem} {a b x : Word}

theorem write_outside {bs : List Byte} (h : bs.length ≤ (x - a).toNat) : m.write a bs x = m x := by
  rw [write, List.getElem?_eq_none h, Option.getD_none]

theorem write_inside {bs : List Byte} (h : (x - a).toNat < bs.length) :
    m.write a bs x = bs[(x - a).toNat] := by
  rw [write, List.getElem?_eq_getElem h, Option.getD_some]

@[simp] theorem length_leBytes (n : Nat) {w : Nat} (v : BitVec w) : (leBytes n v).length = n := by
  simp [leBytes]

theorem leBytes_injective {n w : Nat} {v v' : BitVec w} (hw : w ≤ 8 * n)
    (h : leBytes n v = leBytes n v') : v = v' := by
  refine BitVec.eq_of_getLsbD_eq fun i hi => ?_
  have hbyte : v.extractLsb' (8 * (i / 8)) 8 = v'.extractLsb' (8 * (i / 8)) 8 := by
    have hget := congrArg (fun bs => bs[i / 8]?) h
    simpa [leBytes, show i / 8 < n by omega] using hget
  have hbit := congrArg (fun b => b.getLsbD (i % 8)) hbyte
  simpa [BitVec.getLsbD_extractLsb', Nat.mod_lt, Nat.div_add_mod] using hbit

/-- The distance of an address given by an offset. -/
theorem toNat_add_ofNat_sub (a : Word) {i : Nat} (hi : i < 2 ^ 64) :
    (a + BitVec.ofNat 64 i - a).toNat = i := by bv_omega

/-! ## Loads under writes -/

theorem load64_congr
    (h : ∀ i : Nat, i < 8 → m' (a + BitVec.ofNat 64 i) = m (a + BitVec.ofNat 64 i)) :
    m'.load64 a = m.load64 a := by
  have h0 := h 0 (by decide)
  rw [BitVec.add_zero] at h0
  rw [load64, load64, h0, show m' (a + 1) = m (a + 1) from h 1 (by decide),
    show m' (a + 2) = m (a + 2) from h 2 (by decide),
    show m' (a + 3) = m (a + 3) from h 3 (by decide),
    show m' (a + 4) = m (a + 4) from h 4 (by decide),
    show m' (a + 5) = m (a + 5) from h 5 (by decide),
    show m' (a + 6) = m (a + 6) from h 6 (by decide),
    show m' (a + 7) = m (a + 7) from h 7 (by decide)]

theorem load32_congr
    (h : ∀ i : Nat, i < 4 → m' (a + BitVec.ofNat 64 i) = m (a + BitVec.ofNat 64 i)) :
    m'.load32 a = m.load32 a := by
  have h0 := h 0 (by decide)
  rw [BitVec.add_zero] at h0
  rw [load32, load32, h0, show m' (a + 1) = m (a + 1) from h 1 (by decide),
    show m' (a + 2) = m (a + 2) from h 2 (by decide),
    show m' (a + 3) = m (a + 3) from h 3 (by decide)]

theorem load64_write_outside {bs : List Byte}
    (h : ∀ i : Nat, i < 8 → bs.length ≤ (a + BitVec.ofNat 64 i - b).toNat) :
    (m.write b bs).load64 a = m.load64 a :=
  load64_congr fun i hi => write_outside (h i hi)

theorem load64_of_bytes {v : Word}
    (h : ∀ i : Nat, i < 8 → m (a + BitVec.ofNat 64 i) = v.extractLsb' (8 * i) 8) :
    m.load64 a = v := by
  have h0 := h 0 (by decide)
  rw [BitVec.add_zero] at h0
  rw [load64, h0, show m (a + 1) = _ from h 1 (by decide), show m (a + 2) = _ from h 2 (by decide),
    show m (a + 3) = _ from h 3 (by decide), show m (a + 4) = _ from h 4 (by decide),
    show m (a + 5) = _ from h 5 (by decide), show m (a + 6) = _ from h 6 (by decide),
    show m (a + 7) = _ from h 7 (by decide)]
  apply BitVec.eq_of_getLsbD_eq
  intro i hi
  simp only [BitVec.getLsbD_append, BitVec.getLsbD_extractLsb']
  grind

theorem write_leBytes (m : Mem) (a : Word) {n w : Nat} (v : BitVec w) (hn : n ≤ 2 ^ 64) {i : Nat}
    (hi : i < n) : m.write a (leBytes n v) (a + BitVec.ofNat 64 i) = v.extractLsb' (8 * i) 8 := by
  have hd := toNat_add_ofNat_sub a (Nat.lt_of_lt_of_le hi hn)
  rw [write_inside (by rw [hd, length_leBytes]; exact hi)]
  simp only [hd, leBytes, List.getElem_map, List.getElem_range]

theorem load64_store64 (m : Mem) (a v : Word) : (m.store64 a v).load64 a = v :=
  load64_of_bytes fun _ hi => write_leBytes m a v (by decide) hi

theorem load32_write (m : Mem) (a : Word) {w : Nat} (v : BitVec w) :
    (m.write a (leBytes 4 v)).load32 a = v.extractLsb' 0 32 := by
  have hbyte {i : Nat} (hi : i < 4) := write_leBytes m a v (by decide) hi
  have h0 := hbyte (i := 0) (by decide)
  rw [BitVec.add_zero] at h0
  rw [load32, h0, show m.write a (leBytes 4 v) (a + 1) = _ from hbyte (i := 1) (by decide),
    show m.write a (leBytes 4 v) (a + 2) = _ from hbyte (i := 2) (by decide),
    show m.write a (leBytes 4 v) (a + 3) = _ from hbyte (i := 3) (by decide)]
  simp only [Nat.mul_zero]
  rw [BitVec.extractLsb'_append_extractLsb'_eq_extractLsb' (by decide),
    BitVec.extractLsb'_append_extractLsb'_eq_extractLsb' (by decide),
    BitVec.extractLsb'_append_extractLsb'_eq_extractLsb' (by decide)]

/-- A load inside a cleared range reads zero. -/
theorem load64_clear {n k : Nat} (hk : k + 8 ≤ n) (hn : n ≤ 2 ^ 64) :
    (m.clear a n).load64 (a + BitVec.ofNat 64 k) = 0 := by
  refine load64_of_bytes fun i hi => ?_
  have hd : (a + BitVec.ofNat 64 k + BitVec.ofNat 64 i - a).toNat = k + i := by
    rw [BitVec.add_assoc, ← BitVec.ofNat_add, toNat_add_ofNat_sub a (by omega)]
  rw [clear, write_inside (by rw [hd, List.length_replicate]; omega)]
  simp

/-! ## Pages -/

/-- The address starts a page. -/
def Aligned (f : Word) : Prop :=
  f.toNat % 4096 = 0

instance (f : Word) : Decidable (Aligned f) :=
  inferInstanceAs (Decidable (_ = _))

/-- The address is in the page that starts at `f`. -/
def InPage (f x : Word) : Prop :=
  (x - f).toNat < 4096

instance (f x : Word) : Decidable (InPage f x) :=
  inferInstanceAs (Decidable (_ < _))

/-- Pages do not overlap. -/
theorem InPage.unique {f g : Word} (hf : Aligned f) (hg : Aligned g) (hxf : InPage f x)
    (hxg : InPage g x) : f = g := by
  unfold Aligned InPage at *
  bv_omega

end Mem

end OreOS.Lib
