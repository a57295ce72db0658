import OreOS.Kernel.Heap
import OreOS.Laws.Kernel.Translate
import OreOS.Lib.Cover

/-!
# The block list in memory

`Chain m bs` says that the headers of the blocks `bs` stand in memory, linked in
this order. Every store of the heap lies in the block it is for, and blocks are
apart, so that a store leaves the other headers as they are (`ChangedIn`,
`Chain.congr`). On that ground each loop of the source computes what a function
on the list computes: the walk to the tail, the first fit, and the pass that
joins neighbours (`joinBlocks`).
-/

namespace OreOS.Kernel

open OreOS.Lib (Word Byte Mem Span)

/-! ## Fields of a header -/

variable {j k n : Nat}

theorem offset_apart (b : Word) (hj : j < 64) (hk : k < 64) (hn : n ≤ 8)
    (h : j + 8 ≤ k ∨ k + n ≤ j) {i : Nat} (hi : i < 8) :
    n ≤ (b + BitVec.ofNat 64 j + BitVec.ofNat 64 i - (b + BitVec.ofNat 64 k)).toNat := by
  bv_omega

variable {m m' : Mem}

theorem load32_store32 (m : Mem) (a : Word) (v : BitVec 32) : (m.store32 a v).load32 a = v := by
  rw [Mem.store32, Mem.load32_write, BitVec.extractLsb'_eq_self]

/-- A store into a header leaves the fields that it does not overlap. -/
theorem blockAt_of_write {b : Word} {bs : List Byte} (hk : k < 64) (hn : bs.length ≤ 8)
    (hm : m' = m.write (b + BitVec.ofNat 64 k) bs) :
    (8 ≤ k → (blockAt m' b).magic = (blockAt m b).magic) ∧
      (16 ≤ k ∨ k + bs.length ≤ 8 → (blockAt m' b).size = (blockAt m b).size) ∧
      (24 ≤ k ∨ k + bs.length ≤ 16 → (blockAt m' b).free = (blockAt m b).free) ∧
      (k + bs.length ≤ 24 → (blockAt m' b).next = (blockAt m b).next) := by
  subst hm
  have h64 : ∀ j < 64, j + 8 ≤ k ∨ k + bs.length ≤ j →
      (m.write (b + BitVec.ofNat 64 k) bs).load64 (b + BitVec.ofNat 64 j) =
        m.load64 (b + BitVec.ofNat 64 j) :=
    fun j hj h => Mem.load64_write_outside fun _ hi => offset_apart b hj hk hn h hi
  refine ⟨fun h => ?_, fun h => h64 8 (by decide) (by omega), fun h => ?_,
    fun h => h64 24 (by decide) (.inr h)⟩
  · have hmagic := h64 0 (by decide) (.inl h)
    rwa [show b + BitVec.ofNat 64 0 = b from BitVec.add_zero b] at hmagic
  · exact Mem.load32_congr fun i hi =>
      Mem.write_outside (offset_apart b (j := 16) (by decide) hk hn (by omega) (by omega))

theorem blockAt_setMagic (m : Mem) (b v : Word) :
    blockAt (m.store64 b v) b = { blockAt m b with magic := v } := by
  have hlen := Mem.length_leBytes 8 v
  obtain ⟨-, hsize, hfree, hnext⟩ := blockAt_of_write (k := 0) (by decide) hlen.le
    (congrArg (m.write · (Mem.leBytes 8 v)) (BitVec.add_zero b).symm)
  exact HeapBlock.ext (Mem.load64_store64 m b v) (hsize (.inr (by omega))) (hfree (.inr (by omega)))
    (hnext (by omega))

theorem blockAt_setSize (m : Mem) (b v : Word) :
    blockAt (m.store64 (b + 8) v) b = { blockAt m b with size := v } := by
  have hlen := Mem.length_leBytes 8 v
  obtain ⟨hmagic, -, hfree, hnext⟩ := blockAt_of_write (m := m) (b := b) (k := 8) (by decide)
    hlen.le rfl
  exact HeapBlock.ext (hmagic (by decide)) (Mem.load64_store64 m (b + 8) v)
    (hfree (.inr (by omega))) (hnext (by omega))

theorem blockAt_setFree (m : Mem) (b : Word) (v : BitVec 32) :
    blockAt (m.store32 (b + 16) v) b = { blockAt m b with free := v } := by
  have hlen := Mem.length_leBytes 4 v
  obtain ⟨hmagic, hsize, -, hnext⟩ := blockAt_of_write (m := m) (b := b) (k := 16) (by decide)
    (hlen.trans_le (by decide)) rfl
  exact HeapBlock.ext (hmagic (by decide)) (hsize (.inl (by decide)))
    (load32_store32 m (b + 16) v) (hnext (by omega))

theorem blockAt_setNext (m : Mem) (b v : Word) :
    blockAt (m.store64 (b + 24) v) b = { blockAt m b with next := v } := by
  have hlen := Mem.length_leBytes 8 v
  obtain ⟨hmagic, hsize, hfree, -⟩ := blockAt_of_write (m := m) (b := b) (k := 24) (by decide)
    hlen.le rfl
  exact HeapBlock.ext (hmagic (by decide)) (hsize (.inl (by decide))) (hfree (.inl (by decide)))
    (Mem.load64_store64 m (b + 24) v)

theorem blockAt_writeBlock (m : Mem) (b size : Word) :
    blockAt (writeBlock m b size) b =
      { magic := heapMagic, size := size, free := 1, next := (blockAt m b).next } := by
  rw [writeBlock, blockAt_setFree, blockAt_setSize, blockAt_setMagic]

/-! ## Stores inside an interval -/

/-- Memory changes at most at the points of the interval. -/
def ChangedIn (s : Span) (m m' : Mem) : Prop :=
  ∀ x : Word, ¬ s.Has x.toNat → m' x = m x

namespace ChangedIn

variable {s t : Span} {m m' m'' : Mem}

theorem trans (h : ChangedIn s m m') (h' : ChangedIn s m' m'') : ChangedIn s m m'' :=
  fun x hx => (h' x hx).trans (h x hx)

theorem mono (h : ChangedIn s m m') (hle : s.Le t) : ChangedIn t m m' :=
  fun x hx => h x fun hs => hx (hle.has hs)

end ChangedIn

variable {a : Nat}

theorem changedIn_write (m : Mem) {bs : List Byte} (h : a + bs.length ≤ 2 ^ 64) :
    ChangedIn ⟨a, bs.length⟩ m (m.write (BitVec.ofNat 64 a) bs) := by
  intro x hx
  refine Mem.write_outside (Nat.le_of_not_lt fun hlt => hx ?_)
  rcases Nat.eq_zero_or_pos bs.length with hzero | hpos
  · omega
  unfold Span.Has
  bv_omega

theorem blockAt_congr {b : Word}
    (h : ∀ i : Nat, i < 32 → m' (b + BitVec.ofNat 64 i) = m (b + BitVec.ofNat 64 i)) :
    blockAt m' b = blockAt m b := by
  have hshift : ∀ j i : Nat, j + i < 32 →
      m' (b + BitVec.ofNat 64 j + BitVec.ofNat 64 i) =
        m (b + BitVec.ofNat 64 j + BitVec.ofNat 64 i) := by
    intro j i hji
    rw [BitVec.add_assoc, ← BitVec.ofNat_add]
    exact h (j + i) hji
  simp only [blockAt, HeapBlock.mk.injEq]
  refine ⟨?_, ?_, ?_, ?_⟩
  · exact Mem.load64_congr fun i hi => h i (by omega)
  · exact Mem.load64_congr fun i hi => hshift 8 i (by omega)
  · exact Mem.load32_congr fun i hi => hshift 16 i (by omega)
  · exact Mem.load64_congr fun i hi => hshift 24 i (by omega)

variable {s : Span}

/-- A header apart from what changed is as it was. -/
theorem ChangedIn.blockAt_eq {b : Nat} (h : ChangedIn s m m') (hb : b + 32 ≤ 2 ^ 64)
    (hapart : Span.Apart ⟨b, 32⟩ s) :
    blockAt m' (BitVec.ofNat 64 b) = blockAt m (BitVec.ofNat 64 b) := by
  refine blockAt_congr fun i hi => h _ ?_
  rw [← BitVec.ofNat_add, BitVec.toNat_ofNat, Nat.mod_eq_of_lt (by omega)]
  unfold Span.Apart at hapart
  unfold Span.Has
  dsimp only at hapart
  omega

/-! ## Chains -/

/-- A block of the list. -/
structure Node where
  addr : Nat
  size : Nat
  free : Bool
  deriving DecidableEq

namespace Node

/-- Header and payload. -/
def span (b : Node) : Span := ⟨b.addr, 32 + b.size⟩

theorem span_pos (b : Node) : 0 < b.span.len := Nat.add_pos_left (by decide) b.size

def payload (b : Node) : Span := ⟨b.addr + 32, b.size⟩

theorem header_le (b : Node) : Span.Le ⟨b.addr, 32⟩ b.span :=
  ⟨Nat.le_refl _, Nat.add_le_add_left (Nat.le_add_right 32 b.size) b.addr⟩

theorem payload_le (b : Node) : b.payload.Le b.span :=
  ⟨Nat.le_add_right b.addr 32, (Nat.add_assoc b.addr 32 b.size).le⟩

/-- Addresses and sizes are multiples of 16, and the block does not run over
the top. -/
structure Ok (b : Node) : Prop where
  pos : 0 < b.addr
  addr : b.addr % 16 = 0
  size : b.size % 16 = 0
  fits : b.addr + (32 + b.size) ≤ 2 ^ 64

/-- The pointer to the header. -/
def ptr (b : Node) : Word := BitVec.ofNat 64 b.addr

def header (b : Node) (next : Word) : HeapBlock :=
  { magic := heapMagic, size := BitVec.ofNat 64 b.size, free := if b.free then 1 else 0
    next := next }

variable {b : Node}

theorem Ok.ptr_ne (h : b.Ok) : b.ptr ≠ 0 := by
  have := h.pos
  have := h.fits
  unfold ptr
  bv_omega

theorem Ok.toNat_ptr (h : b.Ok) : b.ptr.toNat = b.addr := by
  have := h.fits
  rw [ptr, BitVec.toNat_ofNat, Nat.mod_eq_of_lt (by omega)]

theorem Ok.toNat_size (h : b.Ok) : (BitVec.ofNat 64 b.size : Word).toNat = b.size := by
  have := h.fits
  rw [BitVec.toNat_ofNat, Nat.mod_eq_of_lt (by omega)]

end Node

/-- The pointer to the first block. -/
def headPtr : List Node → Word
  | [] => 0
  | b :: _ => b.ptr

/-- The headers of the blocks stand in memory, linked in this order. -/
def Chain (m : Mem) : List Node → Prop
  | [] => True
  | b :: bs => blockAt m b.ptr = b.header (headPtr bs) ∧ Chain m bs

variable {bs : List Node}

/-- The list is in the headers alone. -/
theorem Chain.congr (h : Chain m bs) (heq : ∀ b ∈ bs, blockAt m' b.ptr = blockAt m b.ptr) :
    Chain m' bs := by
  induction bs with
  | nil => trivial
  | cons b bs ih =>
    exact ⟨(heq b (by simp)).trans h.1, ih h.2 fun c hc => heq c (List.mem_cons_of_mem _ hc)⟩

theorem ChangedIn.chain (h : ChangedIn s m m') (hchain : Chain m bs)
    (hbs : ∀ c ∈ bs, c.Ok ∧ c.span.Apart s) : Chain m' bs := by
  refine hchain.congr fun c hc => h.blockAt_eq ?_ ((hbs c hc).2.mono_left c.header_le)
  have := (hbs c hc).1.fits
  omega

/-- The rest of a chain replaced by one that begins at the same block. -/
theorem Chain.replace {before rest rest' : List Node} (h : Chain m (before ++ rest))
    (hhead : headPtr rest' = headPtr rest)
    (heq : ∀ b ∈ before, blockAt m' b.ptr = blockAt m b.ptr) (hrest : Chain m' rest') :
    Chain m' (before ++ rest') := by
  induction before with
  | nil => exact hrest
  | cons b before ih =>
    refine ⟨?_, ih h.2 fun c hc => heq c (List.mem_cons_of_mem _ hc)⟩
    rw [heq b (by simp), h.1]
    congr 1
    cases before with
    | nil => exact hhead.symm
    | cons c before => rfl

theorem Chain.right {before rest : List Node} (h : Chain m (before ++ rest)) : Chain m rest := by
  induction before with
  | nil => exact h
  | cons b before ih => exact ih h.2

/-! ## Walks -/

/-- The walk to the tail finds the last block. -/
theorem findTail_chain (h : Chain m bs) (hok : ∀ b ∈ bs, b.Ok) (hne : bs ≠ [])
    (hn : bs.length ≤ n) : findTail n m (headPtr bs) = .ok (bs.getLast hne).ptr := by
  induction bs generalizing n with
  | nil => exact absurd rfl hne
  | cons b bs ih =>
    obtain ⟨n, rfl⟩ : ∃ k, n = k + 1 := ⟨n - 1, by rw [List.length_cons] at hn; omega⟩
    rw [findTail, show headPtr (b :: bs) = b.ptr from rfl, h.1]
    cases bs with
    | nil => rfl
    | cons c bs =>
      have hc : headPtr (c :: bs) ≠ 0 := (hok c (by simp)).ptr_ne
      rw [show (b.header (headPtr (c :: bs))).next = headPtr (c :: bs) from rfl, if_neg hc]
      rw [ih h.2 (fun d hd => hok d (List.mem_cons_of_mem _ hd)) (List.cons_ne_nil c bs)
        (by rw [List.length_cons] at hn; omega), ← List.getLast_cons (List.cons_ne_nil c bs)]

/-- The block is free and large enough. -/
def Node.fits (size : Nat) (b : Node) : Bool := b.free && decide (size ≤ b.size)

/-- First fit: the first free block that is large enough. -/
theorem findFit_chain (size : Word) (h : Chain m bs) (hok : ∀ b ∈ bs, b.Ok) (hn : bs.length < n) :
    findFit size n m (headPtr bs) =
      .ok (((bs.find? (Node.fits size.toNat)).map Node.ptr).getD 0) := by
  induction bs generalizing n with
  | nil =>
    obtain ⟨n, rfl⟩ : ∃ k, n = k + 1 := ⟨n - 1, by omega⟩
    rfl
  | cons b bs ih =>
    obtain ⟨n, rfl⟩ : ∃ k, n = k + 1 := ⟨n - 1, by omega⟩
    have hb := hok b (by simp)
    have hfits : ((b.header (headPtr bs)).magic = heapMagic ∧
        (b.header (headPtr bs)).free ≠ 0 ∧ size ≤ (b.header (headPtr bs)).size) ↔
        b.fits size.toNat = true := by
      rw [Node.fits, Bool.and_eq_true, decide_eq_true_eq, BitVec.le_def]
      change (heapMagic = heapMagic ∧ (if b.free then (1 : BitVec 32) else 0) ≠ 0 ∧
        size.toNat ≤ (BitVec.ofNat 64 b.size).toNat) ↔ _
      rw [hb.toNat_size]
      cases b.free <;> simp
    rw [findFit, show headPtr (b :: bs) = b.ptr from rfl, if_neg hb.ptr_ne, h.1]
    by_cases hfit : b.fits size.toNat = true
    · rw [if_pos (hfits.mpr hfit), List.find?_cons_of_pos hfit]
      rfl
    · rw [if_neg (mt hfits.mp hfit), List.find?_cons_of_neg hfit]
      exact ih h.2 (fun c hc => hok c (List.mem_cons_of_mem _ hc))
        (by rw [List.length_cons] at hn; omega)

/-! ## Taking a block -/

/-- What becomes of the block that is taken. -/
def Node.carve (b : Node) (size : Nat) : List Node :=
  if b.size - size ≤ 64 then [{ b with free := false }]
  else
    [{ b with size := size, free := false },
      { addr := b.addr + 32 + size, size := b.size - size - 32, free := true }]

theorem changedIn_store64 (m : Mem) (v : Word) (hlow : s.start ≤ a + k)
    (hhigh : a + k + 8 ≤ s.start + s.len) (hs : s.start + s.len ≤ 2 ^ 64) :
    ChangedIn s m (m.store64 (BitVec.ofNat 64 a + BitVec.ofNat 64 k) v) := by
  have hlen := Mem.length_leBytes 8 v
  rw [← BitVec.ofNat_add]
  exact (changedIn_write m (by omega)).mono ⟨hlow, by dsimp only; omega⟩

theorem changedIn_store32 (m : Mem) (v : BitVec 32) (hlow : s.start ≤ a + k)
    (hhigh : a + k + 4 ≤ s.start + s.len) (hs : s.start + s.len ≤ 2 ^ 64) :
    ChangedIn s m (m.store32 (BitVec.ofNat 64 a + BitVec.ofNat 64 k) v) := by
  have hlen := Mem.length_leBytes 4 v
  rw [← BitVec.ofNat_add]
  exact (changedIn_write m (by omega)).mono ⟨hlow, by dsimp only; omega⟩

theorem changedIn_writeBlock (m : Mem) (size : Word) (h : a + 32 ≤ 2 ^ 64) :
    ChangedIn ⟨a, 32⟩ m (writeBlock m (BitVec.ofNat 64 a) size) := by
  have hmagic : ChangedIn ⟨a, 32⟩ m (m.store64 (BitVec.ofNat 64 a) heapMagic) := by
    have := changedIn_store64 m (s := ⟨a, 32⟩) (a := a) (k := 0) heapMagic (by simp) (by simp) h
    rwa [BitVec.add_zero] at this
  have hsize : ChangedIn ⟨a, 32⟩ m
      ((m.store64 (BitVec.ofNat 64 a) heapMagic).store64 (BitVec.ofNat 64 a + 8) size) :=
    hmagic.trans (changedIn_store64 _ size (k := 8) (by simp) (by simp) h)
  exact hsize.trans (changedIn_store32 _ 1 (k := 16) (by simp) (by simp) h)

theorem changedIn_fields (m : Mem) (size next : Word) (free : BitVec 32) (h : a + 32 ≤ 2 ^ 64) :
    ChangedIn ⟨a, 32⟩ m (((m.store64 (BitVec.ofNat 64 a + 8) size).store64
      (BitVec.ofNat 64 a + 24) next).store32 (BitVec.ofNat 64 a + 16) free) := by
  have hsize := changedIn_store64 m (s := ⟨a, 32⟩) (a := a) (k := 8) size (by simp) (by simp) h
  have hnext : ChangedIn ⟨a, 32⟩ m ((m.store64 (BitVec.ofNat 64 a + 8) size).store64
      (BitVec.ofNat 64 a + 24) next) :=
    hsize.trans (changedIn_store64 _ next (k := 24) (by simp) (by simp) h)
  exact hnext.trans (changedIn_store32 _ free (k := 16) (by simp) (by simp) h)

section Take

variable {b : Node} {size : Word}

/-- Both parts of a split block are blocks. -/
theorem Node.carve_ok (h : b.Ok) (hsize : size.toNat % 16 = 0) (hle : size.toNat ≤ b.size) :
    ∀ c ∈ b.carve size.toNat, c.Ok := by
  have := h.addr
  have := h.size
  have := h.fits
  intro c hc
  unfold Node.carve at hc
  split at hc
  · obtain rfl := List.mem_singleton.mp hc
    exact ⟨h.pos, h.addr, h.size, h.fits⟩
  · rcases List.mem_cons.mp hc with rfl | hc
    · exact ⟨h.pos, h.addr, hsize, by dsimp only; omega⟩
    · obtain rfl := List.mem_singleton.mp hc
      constructor <;> (dsimp only; omega)

/-- They cover what it covered. -/
theorem Node.cover_carve (hle : size.toNat ≤ b.size) (x : Nat) :
    Span.cover ((b.carve size.toNat).map Node.span) x = Span.cover [b.span] x := by
  unfold Node.carve
  split
  · rfl
  · have hcut := Span.cover_cut (x := x) b.addr (32 + size.toNat) (32 + (b.size - size.toNat - 32))
    rw [← Nat.add_assoc] at hcut
    simp only [List.map_cons, List.map_nil, Node.span]
    rw [hcut, show 32 + size.toNat + (32 + (b.size - size.toNat - 32)) = 32 + b.size by omega]

/-- `split_block` and the mark write in the block, and leave the pieces in its
place. -/
theorem takeBlock_chain {h : Heap} {post : List Node} (hchain : Chain h.mem (b :: post))
    (hb : b.Ok) (hpost : ∀ c ∈ post, c.Ok ∧ c.span.Apart b.span) (hle : size.toNat ≤ b.size) :
    ChangedIn b.span h.mem (takeBlock h b.ptr size).2.mem ∧
      Chain (takeBlock h b.ptr size).2.mem (b.carve size.toNat ++ post) := by
  have hfits := hb.fits
  have hremain : ((blockAt h.mem b.ptr).size - size).toNat = b.size - size.toNat := by
    rw [hchain.1, BitVec.toNat_sub_of_le]
    · exact congrArg (· - size.toNat) hb.toNat_size
    · exact hle.trans hb.toNat_size.ge
  have hcut : (blockAt h.mem b.ptr).size - size ≤ sizeofHeapBlock + 32 ↔
      b.size - size.toNat ≤ 64 := by
    rw [BitVec.le_def, hremain]
    rfl
  unfold takeBlock splitBlock Node.carve
  dsimp only
  by_cases hsmall : b.size - size.toNat ≤ 64
  · rw [if_pos (hcut.mpr hsmall), if_pos hsmall]
    have hchanged := changedIn_store32 h.mem (s := ⟨b.addr, 32⟩) (a := b.addr) (k := 16) 0 (by simp)
      (by simp) (by dsimp only; omega)
    have hchanged := hchanged.mono b.header_le
    refine ⟨hchanged, ?_, hchanged.chain hchain.2 hpost⟩
    exact (blockAt_setFree _ _ 0).trans (by rw [hchain.1]; rfl)
  · rw [if_neg (mt hcut.mp hsmall), if_neg hsmall]
    have hnext : b.ptr + sizeofHeapBlock + size = BitVec.ofNat 64 (b.addr + 32 + size.toNat) := by
      rw [BitVec.ofNat_add, BitVec.ofNat_add, BitVec.ofNat_toNat, BitVec.setWidth_eq]
      rfl
    have hrest : (blockAt h.mem b.ptr).size - size - sizeofHeapBlock =
        BitVec.ofNat 64 (b.size - size.toNat - 32) := by
      refine BitVec.eq_of_toNat_eq ?_
      rw [BitVec.toNat_sub_of_le, hremain, BitVec.toNat_ofNat, Nat.mod_eq_of_lt (by omega)]
      · rfl
      · rw [BitVec.le_def, hremain]
        exact le_trans (by decide) (show 32 ≤ b.size - size.toNat by omega)
    rw [hnext, hrest]
    -- The header of the second piece, then the fields of the first.
    generalize hfresh : writeBlock h.mem (BitVec.ofNat 64 (b.addr + 32 + size.toNat))
      (BitVec.ofNat 64 (b.size - size.toNat - 32)) = fresh
    have hsecond : ChangedIn ⟨b.addr + 32 + size.toNat, 32⟩ h.mem fresh :=
      hfresh ▸ changedIn_writeBlock h.mem _ (by omega)
    have hlink := changedIn_store64 fresh (s := ⟨b.addr + 32 + size.toNat, 32⟩)
      (a := b.addr + 32 + size.toNat) (k := 24) (headPtr post) (by simp) (by simp)
      (by dsimp only; omega)
    have hapart : Span.Apart ⟨b.addr, 32⟩ ⟨b.addr + 32 + size.toNat, 32⟩ :=
      .inl (by dsimp only; omega)
    have hold : blockAt fresh b.ptr = b.header (headPtr post) :=
      (hsecond.blockAt_eq (by omega) hapart).trans hchain.1
    rw [hold]
    generalize hlinked : fresh.store64 (BitVec.ofNat 64 (b.addr + 32 + size.toNat) + 24)
      (b.header (headPtr post)).next = linked
    replace hlink : ChangedIn ⟨b.addr + 32 + size.toNat, 32⟩ fresh linked := hlinked ▸ hlink
    have hfields := changedIn_fields linked (a := b.addr) size
      (BitVec.ofNat 64 (b.addr + 32 + size.toNat)) 0 (by omega)
    have hchanged : ChangedIn b.span h.mem _ :=
      ((hsecond.trans hlink).mono ⟨by dsimp only [Node.span]; omega, by
        dsimp only [Node.span]; omega⟩).trans (hfields.mono b.header_le)
    refine ⟨hchanged, ?_, ?_, hchanged.chain hchain.2 hpost⟩
    · have hfirst := (hlink.blockAt_eq (by omega) hapart).trans hold
      refine (blockAt_setFree _ _ 0).trans ?_
      rw [blockAt_setNext, blockAt_setSize, show blockAt linked b.ptr = _ from hfirst]
      simp [Node.header, Node.ptr, headPtr]
    · refine (hfields.blockAt_eq (b := b.addr + 32 + size.toNat) (by omega) hapart.symm).trans ?_
      rw [← hlinked, ← hfresh, blockAt_setNext, blockAt_writeBlock]
      rfl

end Take

/-! ## A block of new pages -/

theorem changedIn_clear (m : Mem) (h : a + n ≤ 2 ^ 64) :
    ChangedIn ⟨a, n⟩ m (m.clear (BitVec.ofNat 64 a) n) := by
  have hlen : (List.replicate n (0 : Byte)).length = n := List.length_replicate
  have hwrite : ChangedIn ⟨a, (List.replicate n (0 : Byte)).length⟩ m
      (m.clear (BitVec.ofNat 64 a) n) := changedIn_write m (by omega)
  rwa [hlen] at hwrite

variable {b c : Node}

/-- The last block may get a successor. -/
theorem Chain.snoc (h : Chain m (bs ++ [b])) (hok : ∀ d ∈ bs ++ [b, c], d.Ok)
    (hc : blockAt m c.ptr = c.header 0)
    (hapart : (bs ++ [b, c]).Pairwise fun d e => d.span.Apart e.span) :
    Chain (m.store64 (b.ptr + 24) c.ptr) (bs ++ [b, c]) := by
  have hb : b.Ok := hok b (by simp)
  have hfits := hb.fits
  have hchanged : ChangedIn b.span m (m.store64 (b.ptr + 24) c.ptr) :=
    changedIn_store64 m c.ptr (k := 24) (by simp [Node.span]) (by simp [Node.span]; omega) hfits
  obtain ⟨-, hbc, hbs⟩ := List.pairwise_append.mp hapart
  have hhead : headPtr [b, c] = headPtr [b] := rfl
  refine h.replace hhead (fun d hd => ?_) ⟨?_, ?_, trivial⟩
  · have hd' := (hok d (by simp [hd])).fits
    exact hchanged.blockAt_eq (by omega) ((hbs d hd b (by simp)).mono_left d.header_le)
  · rw [blockAt_setNext, h.right.1]
    rfl
  · have hc' := (hok c (by simp)).fits
    refine Eq.trans ?_ hc
    exact hchanged.blockAt_eq (by omega) (((List.pairwise_cons.mp hbc).1 c (by simp)).symm.mono_left
      c.header_le)

/-- New pages are one free block at the end. -/
theorem requestBlock_chain {h : Heap} {size : Word} (hchain : Chain h.mem bs)
    (hhead : h.head = headPtr bs) (hok : ∀ d ∈ bs ++ [c], d.Ok)
    (hapart : (bs ++ [c]).Pairwise fun d e => d.span.Apart e.span) (hlen : bs.length ≤ heapRounds)
    (hpages : (requestPages size).toNat * 4096 = 32 + c.size) (hfree : c.free = true)
    (hsize : requestTotal size - sizeofHeapBlock = BitVec.ofNat 64 c.size) :
    ∃ m, requestBlock h size c.ptr = .ok (c.ptr, ⟨m, headPtr (bs ++ [c])⟩) ∧
      Chain m (bs ++ [c]) := by
  have hc : c.Ok := hok c (by simp)
  have hfits := hc.fits
  rw [requestBlock, hpages, hsize]
  dsimp only
  rw [if_neg hc.ptr_ne]
  generalize hfresh : (writeBlock (h.mem.clear c.ptr (32 + c.size)) c.ptr
    (BitVec.ofNat 64 c.size)).store64 (c.ptr + 24) 0 = fresh
  have hchanged : ChangedIn c.span h.mem fresh := by
    have hclear := changedIn_clear h.mem hfits
    have hwrite := changedIn_writeBlock (h.mem.clear c.ptr (32 + c.size)) (a := c.addr)
      (BitVec.ofNat 64 c.size) (by omega)
    have hnext := changedIn_store64 (writeBlock (h.mem.clear c.ptr (32 + c.size)) c.ptr
      (BitVec.ofNat 64 c.size)) (s := c.span) (a := c.addr) (k := 24) 0 (by simp [Node.span])
      (by simp [Node.span]; omega) hfits
    have hwrite := hwrite.mono c.header_le
    exact hfresh ▸ (ChangedIn.trans hclear hwrite).trans hnext
  have hnew : blockAt fresh c.ptr = c.header 0 := by
    rw [← hfresh, blockAt_setNext, blockAt_writeBlock, Node.header, hfree]
    rfl
  obtain ⟨-, -, hbs⟩ := List.pairwise_append.mp hapart
  have hold : Chain fresh bs :=
    hchanged.chain hchain fun d hd => ⟨hok d (by simp [hd]), hbs d hd c (by simp)⟩
  rw [hhead]
  rcases List.eq_nil_or_concat bs with rfl | ⟨before, b, rfl⟩
  · exact ⟨fresh, rfl, hnew, trivial⟩
  · rw [List.concat_eq_append] at *
    have hne : headPtr (before ++ [b]) ≠ 0 := by
      cases before with
      | nil => exact (hok b (by simp)).ptr_ne
      | cons a before => exact (hok a (by simp)).ptr_ne
    have hwalk := findTail_chain hold (fun d hd => hok d (by
      rw [List.mem_append]; exact .inl hd)) (by simp) hlen
    rw [List.getLast_append_singleton] at hwalk
    rw [if_neg hne, hwalk]
    rw [List.append_assoc] at hok hapart ⊢
    refine ⟨_, ?_, hold.snoc hok hnew hapart⟩
    cases before <;> rfl

/-! ## Joining neighbours -/

/-- What the pass of `kfree` makes of the list. -/
def joinBlocks : List Node → List Node
  | [] => []
  | [b] => [b]
  | b :: c :: bs =>
    if b.free ∧ c.free ∧ b.addr + 32 + b.size = c.addr then
      { b with size := b.size + (32 + c.size) } :: joinBlocks bs
    else b :: joinBlocks (c :: bs)

theorem headPtr_joinBlocks (bs : List Node) : headPtr (joinBlocks bs) = headPtr bs := by
  match bs with
  | [] | [_] => rfl
  | b :: c :: bs =>
    rw [joinBlocks]
    split <;> rfl

theorem joinBlocks_ok (h : ∀ b ∈ bs, b.Ok) : ∀ b ∈ joinBlocks bs, b.Ok := by
  induction bs using joinBlocks.induct with
  | case1 => exact h
  | case2 => exact h
  | case3 b c bs hjoin ih =>
    have hb := h b (by simp)
    have hc := h c (by simp)
    rw [joinBlocks, if_pos hjoin]
    intro d hd
    rcases List.mem_cons.mp hd with rfl | hd
    · have := hb.size
      have := hc.size
      have := hc.fits
      exact ⟨hb.pos, hb.addr, by dsimp only; omega, by dsimp only; omega⟩
    · exact ih (fun e he => h e (by simp [he])) d hd
  | case4 b c bs hjoin ih =>
    rw [joinBlocks, if_neg hjoin]
    intro d hd
    rcases List.mem_cons.mp hd with rfl | hd
    · exact h d (by simp)
    · exact ih (fun e he => h e (List.mem_cons_of_mem _ he)) d hd

/-- Joining covers the same bytes. -/
theorem cover_joinBlocks (bs : List Node) (x : Nat) :
    Span.cover ((joinBlocks bs).map Node.span) x = Span.cover (bs.map Node.span) x := by
  induction bs using joinBlocks.induct with
  | case1 => rfl
  | case2 => rfl
  | case3 b c bs hjoin ih =>
    have hsecond : c.span = ⟨b.addr + (32 + b.size), 32 + c.size⟩ := by
      rw [← Nat.add_assoc, hjoin.2.2]
      rfl
    have hjoined : ({ b with size := b.size + (32 + c.size) } : Node).span =
        ⟨b.addr, 32 + b.size + (32 + c.size)⟩ := by
      rw [Nat.add_assoc]
      rfl
    calc Span.cover ((joinBlocks (b :: c :: bs)).map Node.span) x
      _ = Span.cover [⟨b.addr, 32 + b.size + (32 + c.size)⟩] x +
          Span.cover ((joinBlocks bs).map Node.span) x := by
        rw [joinBlocks, if_pos hjoin, List.map_cons, hjoined, ← Span.cover_append]
        rfl
      _ = Span.cover [b.span, c.span] x + Span.cover (bs.map Node.span) x := by
        rw [ih, ← Span.cover_cut, hsecond]
        rfl
      _ = Span.cover ((b :: c :: bs).map Node.span) x := Span.cover_append.symm
  | case4 b c bs hjoin ih =>
    rw [joinBlocks, if_neg hjoin, List.map_cons, List.map_cons, Span.cover_cons, Span.cover_cons, ih]

/-- A block in use is not joined. -/
theorem mem_joinBlocks (hb : b ∈ bs) (huse : b.free = false) : b ∈ joinBlocks bs := by
  induction bs using joinBlocks.induct with
  | case1 => exact hb
  | case2 => exact hb
  | case3 c d bs hjoin ih =>
    rw [joinBlocks, if_pos hjoin]
    rcases List.mem_cons.mp hb with rfl | hb
    · exact absurd hjoin.1 (by simp [huse])
    rcases List.mem_cons.mp hb with rfl | hb
    · exact absurd hjoin.2.1 (by simp [huse])
    · exact List.mem_cons_of_mem _ (ih hb)
  | case4 c d bs hjoin ih =>
    rw [joinBlocks, if_neg hjoin]
    rcases List.mem_cons.mp hb with rfl | hb
    · simp
    · exact List.mem_cons_of_mem _ (ih hb)

/-- Memory changes at most in the blocks. -/
def Inside (bs : List Node) (m m' : Mem) : Prop :=
  ∀ x : Word, (∀ b ∈ bs, ¬ b.span.Has x.toNat) → m' x = m x

theorem Inside.blockAt_eq (h : Inside bs m m') (hb : b.Ok)
    (hapart : ∀ c ∈ bs, b.span.Apart c.span) : blockAt m' b.ptr = blockAt m b.ptr := by
  have hfits := hb.fits
  refine blockAt_congr fun i hi => h _ fun c hc hhas => ?_
  have hbc := hapart c hc
  rw [Node.ptr, ← BitVec.ofNat_add, BitVec.toNat_ofNat, Nat.mod_eq_of_lt (by omega)] at hhas
  unfold Span.Apart at hbc
  unfold Span.Has at hhas
  dsimp only [Node.span] at hbc hhas
  omega

/-- The test of `coalesce`, on blocks. -/
theorem joins_iff {next next' : Word} (hb : b.Ok) (hc : c.Ok) :
    ((b.header next).free ≠ 0 ∧ (c.header next').free ≠ 0 ∧
        b.ptr + sizeofHeapBlock + (b.header next).size = c.ptr) ↔
      b.free ∧ c.free ∧ b.addr + 32 + b.size = c.addr := by
  have hmark : ∀ (d : Node) (w : Word), (d.header w).free ≠ 0 ↔ d.free := by
    intro d w
    rw [Node.header]
    cases d.free <;> simp
  have hb' := hb.fits
  have hc' := hc.fits
  have hpos := hc.pos
  rw [hmark, hmark]
  refine and_congr_right fun _ => and_congr_right fun _ => ?_
  change BitVec.ofNat 64 b.addr + 32 + BitVec.ofNat 64 b.size = BitVec.ofNat 64 c.addr ↔ _
  constructor <;> intro h <;> bv_omega

section Coalesce

variable {m : Mem} {b c : Node} {bs : List Node} {n : Nat}

/-- Blocks that do not touch are passed. -/
theorem coalesce_skip (hchain : Chain m (b :: c :: bs)) (hb : b.Ok) (hc : c.Ok)
    (hjoin : ¬ (b.free ∧ c.free ∧ b.addr + 32 + b.size = c.addr)) :
    coalesce (n + 1) m b.ptr = coalesce n m c.ptr := by
  have hnext : (blockAt m b.ptr).next = c.ptr := congrArg HeapBlock.next hchain.1
  rw [coalesce, hnext]
  dsimp only
  rw [hchain.1, hchain.2.1, if_neg (not_or.mpr ⟨hb.ptr_ne, hc.ptr_ne⟩),
    if_neg (mt (joins_iff hb hc).mp hjoin)]

/-- Two free blocks that touch become one. -/
theorem coalesce_join (hchain : Chain m (b :: c :: bs)) (hb : b.Ok) (hc : c.Ok)
    (hapart : b.span.Apart c.span)
    (hjoin : b.free ∧ c.free ∧ b.addr + 32 + b.size = c.addr) :
    ∃ m', coalesce (n + 1) m b.ptr = coalesce n m' (headPtr bs) ∧ ChangedIn b.span m m' ∧
      blockAt m' b.ptr =
        ({ b with size := b.size + (32 + c.size) } : Node).header (headPtr bs) := by
  have hfits := hb.fits
  have hcfits := hc.fits
  have hnext : (blockAt m b.ptr).next = c.ptr := congrArg HeapBlock.next hchain.1
  generalize hgrown : m.store64 (b.ptr + 8)
    ((b.header c.ptr).size + (sizeofHeapBlock + (c.header (headPtr bs)).size)) = grown
  have hchanged : ChangedIn b.span m grown :=
    hgrown ▸ changedIn_store64 m _ (k := 8) (by simp [Node.span]) (by simp [Node.span]; omega) hfits
  have hsecond : blockAt grown c.ptr = c.header (headPtr bs) := by
    exact (hchanged.blockAt_eq (by omega) (hapart.symm.mono_left c.header_le)).trans hchain.2.1
  have hfirst : blockAt grown b.ptr =
      ({ b with size := b.size + (32 + c.size) } : Node).header c.ptr := by
    rw [← hgrown, blockAt_setSize, hchain.1]
    simp only [Node.header, BitVec.ofNat_add]
    rfl
  have hlast := blockAt_setNext grown b.ptr (headPtr bs)
  rw [hfirst] at hlast
  refine ⟨grown.store64 (b.ptr + 24) (headPtr bs), ?_, hchanged.trans ?_, hlast⟩
  · rw [coalesce, hnext]
    dsimp only
    rw [show blockAt m b.ptr = b.header c.ptr from hchain.1, hchain.2.1,
      if_neg (not_or.mpr ⟨hb.ptr_ne, hc.ptr_ne⟩), if_pos ((joins_iff hb hc).mpr hjoin), hgrown,
      show (blockAt grown b.ptr).next = c.ptr by rw [hfirst]; rfl, hsecond,
      show (c.header (headPtr bs)).next = headPtr bs from rfl, hlast]
  · exact changedIn_store64 _ _ (k := 24) (by simp [Node.span]) (by simp [Node.span]; omega) hfits

/-- The pass over a chain ends and leaves the chain of the joined blocks. -/
theorem coalesce_chain (hchain : Chain m bs) (hok : ∀ b ∈ bs, b.Ok)
    (hapart : bs.Pairwise fun b c => b.span.Apart c.span) (hn : bs.length < n) :
    ∃ m', coalesce n m (headPtr bs) = .ok m' ∧ Inside bs m m' ∧ Chain m' (joinBlocks bs) := by
  induction bs using joinBlocks.induct generalizing m n with
  | case1 =>
    obtain ⟨n, rfl⟩ : ∃ k, n = k + 1 := ⟨n - 1, by omega⟩
    exact ⟨m, if_pos (.inl rfl), fun _ _ => rfl, trivial⟩
  | case2 b =>
    obtain ⟨n, rfl⟩ : ∃ k, n = k + 1 := ⟨n - 1, by omega⟩
    have hnext : (blockAt m (headPtr [b])).next = 0 := congrArg HeapBlock.next hchain.1
    exact ⟨m, if_pos (.inr hnext), fun _ _ => rfl, hchain⟩
  | case3 b c bs hjoin ih =>
    obtain ⟨n, rfl⟩ : ∃ k, n = k + 1 := ⟨n - 1, by omega⟩
    have hb := hok b (by simp)
    obtain ⟨hbs, hcs⟩ := List.pairwise_cons.mp hapart
    have hokbs : ∀ d ∈ bs, d.Ok := fun d hd => hok d (by simp [hd])
    obtain ⟨m₁, hstep, hchanged, hfirst⟩ := coalesce_join (n := n) hchain hb (hok c (by simp))
      (hbs c (by simp)) hjoin
    obtain ⟨m', hrun, hin, hchain'⟩ := ih (n := n)
      (hchanged.chain hchain.2.2 fun d hd => ⟨hokbs d hd, (hbs d (by simp [hd])).symm⟩) hokbs
      (List.pairwise_cons.mp hcs).2 (by simp only [List.length_cons] at hn; omega)
    refine ⟨m', hstep.trans hrun, fun x hx => ?_, ?_⟩
    · rw [hin x fun d hd => hx d (by simp [hd]), hchanged x (hx b (by simp))]
    · rw [joinBlocks, if_pos hjoin]
      refine ⟨?_, hchain'⟩
      rw [headPtr_joinBlocks]
      exact (hin.blockAt_eq hb fun d hd => hbs d (by simp [hd])).trans hfirst
  | case4 b c bs hjoin ih =>
    obtain ⟨n, rfl⟩ : ∃ k, n = k + 1 := ⟨n - 1, by omega⟩
    have hb := hok b (by simp)
    obtain ⟨hbs, hcs⟩ := List.pairwise_cons.mp hapart
    obtain ⟨m', hrun, hin, hchain'⟩ := ih (n := n) hchain.2
      (fun d hd => hok d (List.mem_cons_of_mem _ hd)) hcs (by rw [List.length_cons] at hn; omega)
    refine ⟨m', (coalesce_skip hchain hb (hok c (by simp)) hjoin).trans hrun,
      fun x hx => hin x fun d hd => hx d (List.mem_cons_of_mem _ hd), ?_⟩
    rw [joinBlocks, if_neg hjoin]
    refine ⟨?_, hchain'⟩
    rw [hin.blockAt_eq hb hbs, hchain.1, headPtr_joinBlocks]

end Coalesce

end OreOS.Kernel
