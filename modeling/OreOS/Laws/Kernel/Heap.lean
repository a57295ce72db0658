import OreOS.Laws.Kernel.HeapList
import OreOS.Lib.Run

/-!
# The heap tiles its pages

The ghost of a heap is the list of its blocks in the order of the links
(`Heap.Has`). A call of `kmalloc` cuts one block of the list in place or appends
one for the run it obtained; `kfree` marks one and joins neighbours. None of
these changes how often an address is covered, beyond the new run, so in every
state that a sequence of calls reaches, the blocks tile the runs.
-/

namespace OreOS.Kernel

open OreOS.Lib (Word Byte Mem Span Run runList)

/-! ## Sizes -/

variable {size : Word}

theorem toNat_alignUpTo_sixteen (h : size.toNat ≤ 2 ^ 64 - 16) :
    (alignUpTo size 16).toNat = (size.toNat + 15) / 16 * 16 := by
  have hsum : (size + 16 - 1).toNat = size.toNat + 15 := by bv_omega
  have hsplit : alignUpTo size 16 + ((size + 16 - 1) &&& 15) = size + 16 - 1 :=
    and_add_and_not (size + 16 - 1) 15
  have hlow : ((size + 16 - 1) &&& 15).toNat = (size.toNat + 15) % 16 := by
    rw [BitVec.toNat_and, hsum]
    exact Nat.and_two_pow_sub_one_eq_mod (size.toNat + 15) 4
  bv_omega

theorem alignUpTo_bounds (h : size.toNat ≤ 2 ^ 64 - 16) :
    size.toNat ≤ (alignUpTo size 16).toNat ∧ (alignUpTo size 16).toNat % 16 = 0 := by
  rw [toNat_alignUpTo_sixteen h]
  omega

theorem toNat_requestTotal (h : requestBytes size.toNat < 2 ^ 44) :
    (requestTotal size).toNat = requestBytes size.toNat := by
  unfold requestBytes at h ⊢
  have hsum : (sizeofHeapBlock + size).toNat = size.toNat + 32 := by
    unfold sizeofHeapBlock
    bv_omega
  have hup := toNat_alignUp (a := sizeofHeapBlock + size) (by omega)
  rw [hsum] at hup
  exact hup

theorem toNat_requestPages (size : Word) :
    (requestPages size).toNat * 4096 = requestBytes size.toNat % 2 ^ 44 := by
  have hsum : (sizeofHeapBlock + size + 4096 - 1).toNat = (size.toNat + 32 + 4095) % 2 ^ 64 := by
    unfold sizeofHeapBlock
    bv_omega
  have htotal : (requestTotal size).toNat = (size.toNat + 32 + 4095) % 2 ^ 64 / 4096 * 4096 := by
    rw [← hsum]
    exact toNat_alignDown _
  rw [requestPages, BitVec.toNat_setWidth, BitVec.toNat_udiv, htotal,
    show (4096 : Word).toNat = 4096 from rfl]
  unfold requestBytes
  omega

theorem le_requestBytes (size : Nat) : size + 32 ≤ requestBytes size := by
  unfold requestBytes
  omega

/-! ## The blocks of a heap -/

/-- The blocks of the heap, in the order of the links. -/
structure Heap.Has (h : Heap) (bs : List Node) : Prop where
  head : h.head = headPtr bs
  chain : Chain h.mem bs
  ok : ∀ b ∈ bs, b.Ok
  apart : bs.Pairwise fun b c => b.span.Apart c.span

variable {b : Node}

theorem addr_ne_of_apart {c : Node} (h : b.span.Apart c.span) : b.addr ≠ c.addr := by
  unfold Span.Apart Node.span at h
  dsimp only at h
  omega

theorem header_apart_payload {c : Node} (h : c.span.Apart b.span) :
    Span.Apart ⟨c.addr, 32⟩ b.payload :=
  ((h.mono_left c.header_le).symm.mono_left b.payload_le).symm

instance : Std.Symm fun b c : Node => b.span.Apart c.span := ⟨fun _ _ => Span.Apart.symm⟩

namespace Heap.Has

variable {h : Heap} {bs before after : List Node} {b : Node}

/-- Blocks have distinct addresses, so a walk is over in the rounds it has. -/
theorem length_lt (hbs : h.Has bs) : bs.length < heapRounds := by
  have hnodup : (bs.map Node.addr).Nodup :=
    List.pairwise_map.mpr (hbs.apart.imp addr_ne_of_apart)
  have hsub : bs.map Node.addr ⊆ List.range (2 ^ 64) := by
    intro a ha
    obtain ⟨b, hb, rfl⟩ := List.mem_map.mp ha
    have := (hbs.ok b hb).fits
    exact List.mem_range.mpr (by omega)
  have hle := (hnodup.subperm hsub).length_le
  rw [List.length_map, List.length_range] at hle
  unfold heapRounds
  omega

/-- A block and the blocks around it. -/
theorem around (hbs : h.Has (before ++ b :: after)) :
    b.Ok ∧ ∀ c ∈ before ++ after, c.Ok ∧ c.span.Apart b.span := by
  obtain ⟨-, hb, hbefore⟩ := List.pairwise_append.mp hbs.apart
  refine ⟨hbs.ok b (by simp), fun c hc => ?_⟩
  rcases List.mem_append.mp hc with hc | hc
  · exact ⟨hbs.ok c (by simp [hc]), hbefore c hc b (by simp)⟩
  · exact ⟨hbs.ok c (by simp [hc]), ((List.pairwise_cons.mp hb).1 c hc).symm⟩

theorem payload_apart (hbs : h.Has bs) (hb : b ∈ bs) :
    ∀ c ∈ bs, Span.Apart ⟨c.addr, 32⟩ b.payload := by
  obtain ⟨before, after, rfl⟩ := List.append_of_mem hb
  intro c hc
  rcases List.mem_append.mp hc with hc | hc
  · exact header_apart_payload (hbs.around.2 c (by simp [hc])).2
  · rcases List.mem_cons.mp hc with rfl | hc
    · exact .inl (Nat.le_refl _)
    · exact header_apart_payload (hbs.around.2 c (by simp [hc])).2

theorem write_payload {m : Mem} (hbs : h.Has bs) (hb : b ∈ bs)
    (hchanged : ChangedIn b.payload h.mem m) : Has { h with mem := m } bs := by
  refine ⟨hbs.head, hbs.chain.congr fun c hc => ?_, hbs.ok, hbs.apart⟩
  have hfits := (hbs.ok c hc).fits
  exact hchanged.blockAt_eq (by omega) (hbs.payload_apart hb c hc)

end Heap.Has

variable {bs : List Node}

/-- Blocks with the same cover as blocks that are apart are apart. -/
theorem apart_of_cover_eq {cs : List Node} (hbs : bs.Pairwise fun b c => b.span.Apart c.span)
    (heq : ∀ x, Span.cover (cs.map Node.span) x = Span.cover (bs.map Node.span) x) :
    cs.Pairwise fun b c => b.span.Apart c.span := by
  refine List.pairwise_map.mp (Span.apart_of_cover_le_one ?_ fun x => ?_)
  · intro s hs
    obtain ⟨c, -, rfl⟩ := List.mem_map.mp hs
    exact c.span_pos
  · rw [heq]
    exact Span.cover_le_one (List.pairwise_map.mpr hbs)

/-! ## Taking a block -/

section Take

variable {h : Heap} {before after : List Node} {b : Node} {size : Word}

theorem cover_take (hle : size.toNat ≤ b.size) (x : Nat) :
    Span.cover ((before ++ (b.carve size.toNat ++ after)).map Node.span) x =
      Span.cover ((before ++ b :: after).map Node.span) x := by
  simp only [List.map_append, List.map_cons, Span.cover_append, Node.cover_carve hle]
  rw [Span.cover_cons, Span.cover_cons, Span.cover_nil, Nat.add_zero]

theorem takeBlock_has (hbs : h.Has (before ++ b :: after)) (hsize : size.toNat % 16 = 0)
    (hle : size.toNat ≤ b.size) :
    (takeBlock h b.ptr size).2.Has (before ++ (b.carve size.toNat ++ after)) := by
  obtain ⟨hb, hothers⟩ := hbs.around
  obtain ⟨hchanged, hchain⟩ := takeBlock_chain hbs.chain.right hb
    (fun c hc => hothers c (by simp [hc])) hle
  have hhead : headPtr (b.carve size.toNat ++ after) = headPtr (b :: after) := by
    unfold Node.carve
    split <;> rfl
  refine ⟨?_, hbs.chain.replace hhead (fun c hc => ?_) hchain, fun c hc => ?_,
    apart_of_cover_eq hbs.apart (cover_take hle)⟩
  · refine hbs.head.trans ?_
    cases before with
    | nil => exact hhead.symm
    | cons a before => rfl
  · obtain ⟨hok, hapart⟩ := hothers c (by simp [hc])
    have hfits := hok.fits
    exact hchanged.blockAt_eq (by omega) (hapart.mono_left c.header_le)
  · rcases List.mem_append.mp hc with hc | hc
    · exact hbs.ok c (by simp [hc])
    rcases List.mem_append.mp hc with hc | hc
    · exact Node.carve_ok hb hsize hle c hc
    · exact hbs.ok c (by simp [hc])

end Take

/-! ## `kmalloc` -/

/-- The block of a new run of pages. -/
def newNode (grant size : Word) : Node :=
  { addr := grant.toNat, size := (requestTotal size).toNat - 32, free := true }

def PageRun.span (r : PageRun) : Span := ⟨r.base, r.bytes⟩

section Alloc

variable {h : Heap} {bs : List Node} {size grant : Word}

theorem newNode_span (grant : Word) (hsize : requestBytes size.toNat < 2 ^ 44) :
    (newNode grant size).span = ⟨grant.toNat, (requestPages size).toNat * 4096⟩ := by
  have hle := le_requestBytes size.toNat
  rw [toNat_requestPages, Nat.mod_eq_of_lt hsize, Node.span, newNode]
  rw [toNat_requestTotal hsize,
    show 32 + (requestBytes size.toNat - 32) = requestBytes size.toNat by omega]

/-- `request_block` links the block of the new run at the end of the list. -/
theorem requestBlock_has (hbs : h.Has bs) (hsize : requestBytes size.toNat < 2 ^ 44)
    (hok : (newNode grant size).Ok)
    (hapart : ∀ b ∈ bs, b.span.Apart (newNode grant size).span) :
    ∃ h', requestBlock h size grant = .ok (grant, h') ∧ h'.Has (bs ++ [newNode grant size]) := by
  have htotal := toNat_requestTotal hsize
  have hptr : (newNode grant size).ptr = grant := by
    rw [Node.ptr, newNode, BitVec.ofNat_toNat, BitVec.setWidth_eq]
  have hoks : ∀ d ∈ bs ++ [newNode grant size], d.Ok := by
    intro d hd
    rcases List.mem_append.mp hd with hd | hd
    · exact hbs.ok d hd
    · obtain rfl := List.mem_singleton.mp hd
      exact hok
  have haparts : (bs ++ [newNode grant size]).Pairwise fun d e => d.span.Apart e.span := by
    refine List.pairwise_append.mpr ⟨hbs.apart, List.pairwise_singleton _ _, fun b hb c hc => ?_⟩
    obtain rfl := List.mem_singleton.mp hc
    exact hapart b hb
  have hpayload : requestTotal size - sizeofHeapBlock =
      BitVec.ofNat 64 (newNode grant size).size := by
    refine BitVec.eq_of_toNat_eq ?_
    rw [hok.toNat_size, BitVec.toNat_sub_of_le]
    · rfl
    · rw [BitVec.le_def, htotal]
      exact (Nat.le_add_left 32 size.toNat).trans (le_requestBytes size.toNat)
  have hpages : (requestPages size).toNat * 4096 = 32 + (newNode grant size).size :=
    (congrArg Span.len (newNode_span grant hsize)).symm
  obtain ⟨m, hrequest, hchain⟩ := requestBlock_chain hbs.chain hbs.head hoks haparts
    hbs.length_lt.le hpages rfl hpayload
  rw [hptr] at hrequest
  exact ⟨_, hrequest, rfl, hchain, hoks, haparts⟩

/-- What a call of `kmalloc` does: nothing, or it cuts a free block, one of the
list or that of a new run. -/
theorem kmalloc_cases (grant : Word) (hbs : h.Has bs) (hsize : size.toNat ≤ 2 ^ 64 - 16)
    (hpages : grant ≠ 0 → requestBytes (alignUpTo size 16).toNat < 2 ^ 44)
    (hok : grant ≠ 0 → (newNode grant (alignUpTo size 16)).Ok)
    (hapart : grant ≠ 0 → ∀ b ∈ bs, b.span.Apart (newNode grant (alignUpTo size 16)).span) :
    (kmalloc h size grant = .ok (0, h) ∧ obtained h size grant = []) ∨
      ∃ new before b after h', kmalloc h size grant = .ok (b.ptr + sizeofHeapBlock, h') ∧
        bs ++ new = before ++ b :: after ∧ b.free = true ∧ b.Ok ∧ 0 < size.toNat ∧
        (alignUpTo size 16).toNat ≤ b.size ∧
        (new = [] ∨ grant ≠ 0 ∧ new = [newNode grant (alignUpTo size 16)]) ∧
        (obtained h size grant).map PageRun.span = new.map Node.span ∧
        h'.Has (before ++ (b.carve (alignUpTo size 16).toNat ++ after)) := by
  obtain ⟨-, hmod⟩ := alignUpTo_bounds hsize
  unfold kmalloc
  by_cases hzero : size = 0
  · rw [if_pos hzero, obtained, if_neg (fun h => h.1 hzero)]
    exact .inl ⟨rfl, rfl⟩
  have hpos : 0 < size.toNat := by bv_omega
  have hfit := findFit_chain (alignUpTo size 16) hbs.chain hbs.ok hbs.length_lt
  rw [← hbs.head] at hfit
  rw [if_neg hzero, obtained]
  dsimp only
  rw [hfit]
  cases hfound : bs.find? (Node.fits (alignUpTo size 16).toNat) with
  | some b =>
    obtain ⟨before, after, hsplit, hfits⟩ : ∃ before after, bs = before ++ b :: after ∧
        b.fits (alignUpTo size 16).toNat = true := by
      obtain ⟨before, after, hsplit⟩ := List.append_of_mem (List.mem_of_find?_eq_some hfound)
      exact ⟨before, after, hsplit, List.find?_some hfound⟩
    subst hsplit
    rw [Node.fits, Bool.and_eq_true, decide_eq_true_eq] at hfits
    have hb := hbs.around.1
    have hne : b.ptr ≠ 0 := hb.ptr_ne
    refine .inr ⟨[], before, b, after, (takeBlock h b.ptr (alignUpTo size 16)).2, ?_, by simp,
      hfits.1, hb, hpos, hfits.2, .inl rfl, ?_, takeBlock_has hbs hmod hfits.2⟩
    · exact if_pos hne
    · rw [if_neg fun h => hne (Option.some.inj h.2.2)]
      rfl
  | none =>
    by_cases hgrant : grant = 0
    · rw [if_neg fun h => h.2.1 hgrant, hgrant]
      exact .inl ⟨rfl, rfl⟩
    · have hbound := hpages hgrant
      obtain ⟨h', hrequest, hhas⟩ := requestBlock_has hbs hbound (hok hgrant) (hapart hgrant)
      have hle : (alignUpTo size 16).toNat ≤ (newNode grant (alignUpTo size 16)).size := by
        have hrequest := le_requestBytes (alignUpTo size 16).toNat
        dsimp only [newNode]
        rw [toNat_requestTotal hbound]
        omega
      have hptr : (newNode grant (alignUpTo size 16)).ptr = grant := by
        rw [Node.ptr, newNode, BitVec.ofNat_toNat, BitVec.setWidth_eq]
      have hlast : h'.Has (bs ++ newNode grant (alignUpTo size 16) :: []) := hhas
      have htake := takeBlock_has hlast hmod hle
      rw [hptr] at htake
      refine .inr ⟨[newNode grant (alignUpTo size 16)], bs, newNode grant (alignUpTo size 16), [],
        (takeBlock h' grant (alignUpTo size 16)).2, ?_, rfl, rfl, hok hgrant, hpos, hle,
        .inr ⟨hgrant, rfl⟩, ?_, htake⟩
      · rw [hptr]
        rw [hrequest]
        exact if_neg hgrant
      · rw [if_pos ⟨hzero, hgrant, rfl⟩, List.map_singleton, List.map_singleton,
          newNode_span grant hbound]
        rfl

end Alloc

/-! ## `kfree` -/

theorem Node.Ok.payload_ptr (hb : b.Ok) (hpos : 0 < b.size) :
    (b.ptr + sizeofHeapBlock).toNat = b.addr + 32 := by
  have hfits := hb.fits
  rw [BitVec.toNat_add, hb.toNat_ptr, show sizeofHeapBlock.toNat = 32 from rfl,
    Nat.mod_eq_of_lt (by omega)]

theorem kfree_has {h : Heap} {before after : List Node} (hbs : h.Has (before ++ b :: after))
    (hpos : 0 < b.size) :
    ∃ h', kfree h (b.ptr + sizeofHeapBlock) = .ok h' ∧
      h'.Has (joinBlocks (before ++ { b with free := true } :: after)) := by
  obtain ⟨hb, hothers⟩ := hbs.around
  have hfits := hb.fits
  have hne : b.ptr + sizeofHeapBlock ≠ 0 := by
    intro heq
    have hptr := hb.payload_ptr hpos
    rw [heq] at hptr
    change 0 = b.addr + 32 at hptr
    omega
  have hheader := hbs.chain.right.1
  have hchanged : ChangedIn b.span h.mem (h.mem.store32 (b.ptr + 16) 1) :=
    changedIn_store32 h.mem 1 (k := 16) (by simp [Node.span]) (by simp [Node.span]; omega) hfits
  have hmarked : Chain (h.mem.store32 (b.ptr + 16) 1)
      (before ++ { b with free := true } :: after) := by
    refine hbs.chain.replace rfl (fun c hc => ?_) ⟨?_, ?_⟩
    · obtain ⟨hc', hapart⟩ := hothers c (by simp [hc])
      have := hc'.fits
      exact hchanged.blockAt_eq (by omega) (hapart.mono_left c.header_le)
    · exact (blockAt_setFree _ _ 1).trans (by rw [hheader]; rfl)
    · exact hchanged.chain hbs.chain.right.2 fun c hc => hothers c (by simp [hc])
  have hok : ∀ c ∈ before ++ { b with free := true } :: after, c.Ok := by
    intro c hc
    rcases List.mem_append.mp hc with hc | hc
    · exact hbs.ok c (by simp [hc])
    rcases List.mem_cons.mp hc with rfl | hc
    · exact ⟨hb.pos, hb.addr, hb.size, hb.fits⟩
    · exact hbs.ok c (by simp [hc])
  have hspans : (before ++ { b with free := true } :: after).map Node.span =
      (before ++ b :: after).map Node.span := by
    simp only [List.map_append, List.map_cons]
    rfl
  have hapart : (before ++ { b with free := true } :: after).Pairwise
      fun c d => c.span.Apart d.span := by
    refine List.pairwise_map.mp ?_
    rw [hspans]
    exact List.pairwise_map.mpr hbs.apart
  have hlen : (before ++ { b with free := true } :: after).length < heapRounds := by
    have := hbs.length_lt
    simpa using this
  obtain ⟨m, hrun, -, hchain⟩ := coalesce_chain hmarked hok hapart hlen
  have hhead : headPtr (before ++ { b with free := true } :: after) = h.head := by
    rw [hbs.head]
    cases before <;> rfl
  rw [hhead] at hrun
  refine ⟨{ h with mem := m }, ?_, ?_, hchain, joinBlocks_ok hok,
    apart_of_cover_eq hapart (cover_joinBlocks _)⟩
  · rw [kfree, if_neg hne]
    dsimp only
    rw [BitVec.add_sub_cancel, hheader, if_neg (fun h => h rfl), hrun]
    rfl
  · rw [headPtr_joinBlocks, hhead]

/-! ## Runs -/

/-- What holds of the heap and the record between two calls. -/
structure HeapState.Tiled (s : HeapState) (bs : List Node) : Prop where
  blocks : s.heap.Has bs
  runs : (s.runs.map PageRun.span).Pairwise Span.Apart
  tiles : ∀ x, Span.cover (bs.map Node.span) x = Span.cover (s.runs.map PageRun.span) x
  live : ∀ a ∈ s.live, 0 < a.size.toNat ∧
    ∃ b ∈ bs, b.free = false ∧ a.ptr = b.ptr + sizeofHeapBlock ∧ a.size.toNat ≤ b.size
  distinct : s.live.Pairwise fun a b => a.ptr ≠ b.ptr

namespace HeapState.Tiled

variable {s : HeapState} {bs : List Node} {size grant : Word}

theorem requestBytes_lt (hsize : Measured size) (hgrants : Grants s.runs grant size)
    (hgrant : grant ≠ 0) : requestBytes (alignUpTo size 16).toNat < 2 ^ 44 := by
  rw [toNat_alignUpTo_sixteen hsize.1]
  refine hsize.2.resolve_right fun hzero => hgrant (hgrants.2 (BitVec.eq_of_toNat_eq ?_))
  have hpages := toNat_requestPages (alignUpTo size 16)
  rw [toNat_alignUpTo_sixteen hsize.1, hzero] at hpages
  change _ = 0
  omega

theorem newNode_ok (hsize : Measured size) (hgrants : Grants s.runs grant size)
    (hgrant : grant ≠ 0) : (newNode grant (alignUpTo size 16)).Ok := by
  obtain ⟨hpage, hfits, -⟩ := hgrants.1.resolve_left hgrant
  have htotal := toNat_requestTotal (requestBytes_lt hsize hgrants hgrant)
  have hspan := newNode_span grant (requestBytes_lt hsize hgrants hgrant)
  unfold requestBytes at htotal
  refine ⟨Nat.pos_iff_ne_zero.mpr fun h => hgrant (BitVec.eq_of_toNat_eq h), ?_, ?_, ?_⟩
  · dsimp only [newNode]
    omega
  · dsimp only [newNode]
    omega
  · exact (congrArg (grant.toNat + ·.len) hspan).trans_le hfits

theorem runs_snoc (h : s.Tiled bs) (hsize : Measured size)
    (hgrants : Grants s.runs grant size) (hgrant : grant ≠ 0) :
    (s.runs.map PageRun.span ++ [(newNode grant (alignUpTo size 16)).span]).Pairwise
      Span.Apart := by
  obtain ⟨-, -, hruns⟩ := hgrants.1.resolve_left hgrant
  refine List.pairwise_append.mpr ⟨h.runs, List.pairwise_singleton _ _, fun r hr t ht => ?_⟩
  obtain ⟨run, hrun, rfl⟩ := List.mem_map.mp hr
  rw [List.mem_singleton.mp ht, newNode_span grant (requestBytes_lt hsize hgrants hgrant)]
  exact hruns run hrun

theorem write (h : s.Tiled bs) {a : Grant} (ha : a ∈ s.live) {addr : Word} {bytes : List Byte}
    (hin : (addr - a.ptr).toNat + bytes.length ≤ a.size.toNat) :
    Tiled { s with heap := { s.heap with mem := s.heap.mem.write addr bytes } } bs := by
  obtain ⟨hpos, b, hb, -, hptr, hle⟩ := h.live a ha
  have hfits := (h.blocks.ok b hb).fits
  have haddr := (h.blocks.ok b hb).payload_ptr (by omega)
  refine ⟨h.blocks.write_payload hb ?_, h.runs, h.tiles, h.live, h.distinct⟩
  intro x hx
  refine Mem.write_outside (Nat.le_of_not_lt fun hlt => hx ?_)
  unfold Span.Has Node.payload
  bv_omega

theorem newNode_apart (h : s.Tiled bs) (hsize : Measured size)
    (hgrants : Grants s.runs grant size) (hgrant : grant ≠ 0) :
    ∀ b ∈ bs, b.span.Apart (newNode grant (alignUpTo size 16)).span := by
  have hcover : ∀ x, Span.cover (bs.map Node.span ++
      [(newNode grant (alignUpTo size 16)).span]) x ≤ 1 := by
    intro x
    rw [Span.cover_append, h.tiles, ← Span.cover_append]
    exact Span.cover_le_one (h.runs_snoc hsize hgrants hgrant)
  have hpairs := Span.apart_of_cover_le_one (fun t ht => ?_) hcover
  · intro b hb
    exact (List.pairwise_append.mp hpairs).2.2 _ (List.mem_map_of_mem hb) _ (by simp)
  · rcases List.mem_append.mp ht with ht | ht
    · obtain ⟨b, -, rfl⟩ := List.mem_map.mp ht
      exact b.span_pos
    · rw [List.mem_singleton.mp ht]
      exact Node.span_pos _

theorem mem_take {new before after : List Node} {b c : Node}
    (hsplit : bs ++ new = before ++ b :: after) (hfree : b.free = true) (hc : c ∈ bs)
    (huse : c.free = false) : c ∈ before ++ after := by
  have hmem : c ∈ before ++ b :: after := hsplit ▸ List.mem_append_left new hc
  rcases List.mem_append.mp hmem with hmem | hmem
  · exact List.mem_append_left _ hmem
  rcases List.mem_cons.mp hmem with rfl | hmem
  · rw [hfree] at huse
    cases huse
  · exact List.mem_append_right _ hmem

theorem carve_head (b : Node) (size : Nat) (hle : size ≤ b.size) :
    ∃ c ∈ b.carve size, c.addr = b.addr ∧ c.free = false ∧ size ≤ c.size := by
  unfold Node.carve
  split
  · exact ⟨_, List.mem_singleton_self _, rfl, rfl, hle⟩
  · exact ⟨_, List.mem_cons_self, rfl, rfl, Nat.le_refl _⟩

theorem kmalloc (h : s.Tiled bs) (hsize : Measured size) (hgrants : Grants s.runs grant size) :
    ∃ ptr heap bs', Kernel.kmalloc s.heap size grant = .ok (ptr, heap) ∧
      Tiled { heap := heap, runs := s.runs ++ obtained s.heap size grant
              live := s.live ++ granted ptr size } bs' := by
  rcases kmalloc_cases grant h.blocks hsize.1 (requestBytes_lt hsize hgrants)
    (newNode_ok hsize hgrants) (h.newNode_apart hsize hgrants) with ⟨hcall, hnone⟩ |
      ⟨new, before, b, after, heap, hcall, hsplit, hfree, hb, hpos, hle, hnew, hspans, hhas⟩
  · refine ⟨0, s.heap, bs, hcall, ?_⟩
    rw [hnone, List.append_nil, show granted 0 size = [] from rfl, List.append_nil]
    exact h
  · obtain ⟨hround, -⟩ := alignUpTo_bounds hsize.1
    have hptr := hb.payload_ptr (by omega)
    have hne : b.ptr + sizeofHeapBlock ≠ 0 := by bv_omega
    have hold : ∀ c ∈ bs, c.free = false → c ∈ before ++ after := fun c =>
      mem_take hsplit hfree
    refine ⟨_, heap, _, hcall, hhas, ?_, fun x => ?_, ?_, ?_⟩
    · rw [List.map_append, hspans]
      rcases hnew with rfl | ⟨hgrant, rfl⟩
      · rw [List.map_nil, List.append_nil]
        exact h.runs
      · exact h.runs_snoc hsize hgrants hgrant
    · rw [cover_take hle, ← hsplit, List.map_append, List.map_append, Span.cover_append,
        Span.cover_append, h.tiles, hspans]
    · intro a ha
      rw [granted, if_neg hne] at ha
      rcases List.mem_append.mp ha with ha | ha
      · obtain ⟨hpos, c, hc, huse, hrest⟩ := h.live a ha
        exact ⟨hpos, c, by grind, huse, hrest⟩
      · obtain rfl := List.mem_singleton.mp ha
        obtain ⟨c, hc, haddr, huse, hsize⟩ := carve_head b _ hle
        refine ⟨hpos, c, by grind, huse, ?_, hround.trans hsize⟩
        rw [Node.ptr, Node.ptr, haddr]
    · rw [granted, if_neg hne]
      refine List.pairwise_append.mpr ⟨h.distinct, List.pairwise_singleton _ _, fun a ha c hc => ?_⟩
      rw [List.mem_singleton.mp hc]
      obtain ⟨-, d, hd, huse, haptr, -⟩ := h.live a ha
      obtain ⟨e, he, haddr, -, -⟩ := carve_head b _ hle
      have hmem := hold d hd huse
      have hapart : d.span.Apart e.span := by
        obtain ⟨-, hright, hleft⟩ := List.pairwise_append.mp hhas.apart
        rcases List.mem_append.mp hmem with hmem | hmem
        · exact hleft d hmem e (List.mem_append_left _ he)
        · exact ((List.pairwise_append.mp hright).2.2 e he d hmem).symm
      have hdptr := (h.blocks.ok d hd).toNat_ptr
      rw [haptr]
      intro heq
      have hsame : d.addr = b.addr := by
        rw [← hdptr, ← hb.toNat_ptr, (BitVec.add_left_inj _).mp heq]
      exact addr_ne_of_apart hapart (hsame.trans haddr.symm)

theorem kzalloc (h : s.Tiled bs) (hsize : Measured size) (hgrants : Grants s.runs grant size) :
    ∃ ptr heap bs', Kernel.kzalloc s.heap size grant = .ok (ptr, heap) ∧
      Tiled { heap := heap, runs := s.runs ++ obtained s.heap size grant
              live := s.live ++ granted ptr size } bs' := by
  obtain ⟨ptr, heap, bs', hcall, htiled⟩ := h.kmalloc hsize hgrants
  unfold Kernel.kzalloc
  rw [hcall]
  by_cases hptr : ptr = 0
  · exact ⟨ptr, heap, bs', if_pos hptr, htiled⟩
  · refine ⟨ptr, { heap with mem := heap.mem.clear ptr size.toNat }, bs', if_neg hptr, ?_⟩
    have hmem : (⟨ptr, size⟩ : Grant) ∈ s.live ++ granted ptr size := by
      rw [granted, if_neg hptr]
      simp
    exact htiled.write hmem (by simp)

theorem kfree (h : s.Tiled bs) {a : Grant} (ha : a ∈ s.live) :
    ∃ heap bs', Kernel.kfree s.heap a.ptr = .ok heap ∧
      Tiled { s with heap := heap, live := s.live.filter (·.ptr ≠ a.ptr) } bs' := by
  obtain ⟨hpos, b, hb, huse, hptr, hle⟩ := h.live a ha
  obtain ⟨before, after, rfl⟩ := List.append_of_mem hb
  obtain ⟨heap, hcall, hhas⟩ := kfree_has h.blocks (by omega)
  rw [hptr]
  refine ⟨heap, _, hcall, hhas, h.runs, fun x => ?_, ?_, h.distinct.filter _⟩
  · rw [cover_joinBlocks, ← h.tiles]
    simp only [List.map_append, List.map_cons]
    rfl
  · intro c hc
    obtain ⟨hc, hne⟩ := List.mem_filter.mp hc
    obtain ⟨hcpos, d, hd, hduse, hdptr, hdle⟩ := h.live c hc
    refine ⟨hcpos, d, mem_joinBlocks ?_ hduse, hduse, hdptr, hdle⟩
    grind

/-- A permitted call returns and keeps the tiling. -/
theorem step (h : s.Tiled bs) {c : HeapCall} (hok : s.Permitted c) :
    ∃ t bs', s.step c = some t ∧ t.Tiled bs' := by
  cases c with
  | kmalloc size grant =>
    obtain ⟨ptr, heap, bs', hcall, htiled⟩ := h.kmalloc hok.1 hok.2
    exact ⟨_, bs', by rw [HeapState.step, hcall]; rfl, htiled⟩
  | kzalloc size grant =>
    obtain ⟨ptr, heap, bs', hcall, htiled⟩ := h.kzalloc hok.1 hok.2
    exact ⟨_, bs', by rw [HeapState.step, hcall]; rfl, htiled⟩
  | kfree ptr =>
    rcases hok with rfl | ⟨a, ha, rfl⟩
    · refine ⟨_, bs, rfl, h.blocks, h.runs, h.tiles, fun a ha => ?_, h.distinct.filter _⟩
      exact h.live a (List.mem_filter.mp ha).1
    · obtain ⟨heap, bs', hcall, htiled⟩ := h.kfree ha
      exact ⟨_, bs', by rw [HeapState.step, hcall], htiled⟩
  | write addr bytes =>
    obtain ⟨a, ha, hin⟩ := hok
    exact ⟨_, bs, rfl, h.write ha hin⟩

end HeapState.Tiled

variable {s : HeapState}

theorem tiled_of_run {m : Mem}
    (hrun : Run HeapState.step HeapState.Permitted { heap := { mem := m } } s) :
    ∃ bs, s.Tiled bs := by
  refine Run.invariant (P := fun s => ∃ bs, s.Tiled bs) ?_ ?_ hrun
  · exact ⟨[], ⟨rfl, trivial, by simp, .nil⟩, .nil, fun _ => rfl, by simp, .nil⟩
  · rintro t c u ⟨bs, htiled⟩ hok hstep
    obtain ⟨u', bs', hstep', htiled'⟩ := htiled.step hok
    obtain rfl := Option.some.inj (hstep.symm.trans hstep')
    exact ⟨bs', htiled'⟩

/-- Sizes up to 2^32 are measured. -/
theorem HeapState.Allowed.permitted {c : HeapCall} (h : s.Allowed c) : s.Permitted c := by
  have hsize : ∀ {size grant : Word}, size.toNat ≤ 2 ^ 32 ∧ FreshRun s.runs grant size →
      Measured size ∧ Grants s.runs grant size := by
    rintro size grant ⟨hsize, hfresh⟩
    have hbytes : requestBytes ((size.toNat + 15) / 16 * 16) < 2 ^ 44 := by
      unfold requestBytes
      omega
    refine ⟨⟨by omega, .inl hbytes⟩, hfresh, fun hzero => ?_⟩
    have hpages := toNat_requestPages (alignUpTo size 16)
    have hle := le_requestBytes ((size.toNat + 15) / 16 * 16)
    rw [toNat_alignUpTo_sixteen (by omega), Nat.mod_eq_of_lt hbytes, hzero,
      show (0 : BitVec 32).toNat = 0 from rfl, Nat.zero_mul] at hpages
    omega
  cases c with
  | kmalloc size grant => exact hsize h
  | kzalloc size grant => exact hsize h
  | kfree ptr => exact h
  | write addr bytes => exact h

/-- The payload of an allocation, with the size that its header says. -/
def Grant.payload (m : Mem) (a : Grant) : Span :=
  ⟨a.ptr.toNat, (blockAt m (a.ptr - sizeofHeapBlock)).size.toNat⟩

theorem HeapState.Tiled.payload (h : s.Tiled bs) {a : Grant} (ha : a ∈ s.live) :
    ∃ b ∈ bs, b.free = false ∧ a.payload s.heap.mem = b.payload ∧ a.ptr = b.ptr + sizeofHeapBlock ∧
      a.size.toNat ≤ (a.payload s.heap.mem).len := by
  obtain ⟨hpos, b, hb, huse, hptr, hle⟩ := h.live a ha
  obtain ⟨before, after, rfl⟩ := List.append_of_mem hb
  have hok := h.blocks.around.1
  have heq : a.payload s.heap.mem = b.payload := by
    rw [Grant.payload, hptr, hok.payload_ptr (by omega), BitVec.add_sub_cancel,
      h.blocks.chain.right.1, Node.payload]
    exact congrArg (Span.mk _) hok.toNat_size
  exact ⟨b, hb, huse, heq, hptr, heq ▸ hle⟩

/-- Live allocations at different pointers have payloads apart. -/
theorem HeapState.Tiled.live_apart (h : s.Tiled bs) {a b : Grant} (ha : a ∈ s.live)
    (hb : b ∈ s.live) (hne : a.ptr ≠ b.ptr) :
    (a.payload s.heap.mem).Apart (b.payload s.heap.mem) := by
  obtain ⟨c, hc, -, hca, hcptr, -⟩ := h.payload ha
  obtain ⟨d, hd, -, hdb, hdptr, -⟩ := h.payload hb
  rw [hca, hdb]
  have hcd : c ≠ d := fun heq => hne (hcptr.trans (heq ▸ hdptr.symm))
  have hapart : c.span.Apart d.span :=
    h.blocks.apart.forall hc hd hcd
  exact ((hapart.mono_left c.payload_le).symm.mono_left d.payload_le).symm

/-- A point is in a block exactly if it is in one of the runs. -/
theorem HeapState.Tiled.has_iff (h : s.Tiled bs) (x : Nat) :
    (∃ b ∈ bs, b.span.Has x) ↔ ∃ r ∈ s.runs, r.span.Has x := by
  have hleft := Span.cover_pos_iff (l := bs.map Node.span) (x := x)
  have hright := Span.cover_pos_iff (l := s.runs.map PageRun.span) (x := x)
  simp only [List.mem_map, exists_exists_and_eq_and] at hleft hright
  rw [← hleft, ← hright, h.tiles x]

/-- After any sequence of calls the blocks of the list tile the runs of pages;
payloads are aligned, and those of live allocations are apart from one another
and from every header, and large enough. Every further call returns. -/
theorem heap_tiles_runs {m : Mem} {s : HeapState}
    (hrun : Run HeapState.step HeapState.Allowed { heap := { mem := m } } s) :
    (∃ bs, s.heap.head = headPtr bs ∧ Chain s.heap.mem bs ∧
      bs.Pairwise (fun b c => b.span.Apart c.span) ∧
      (∀ x, (∃ b ∈ bs, b.span.Has x) ↔ ∃ r ∈ s.runs, r.span.Has x) ∧
      (∀ b ∈ bs, b.payload.start % 16 = 0 ∧ b.payload.len % 16 = 0) ∧
      ∀ a ∈ s.live, (∃ b ∈ bs, b.free = false ∧ a.payload s.heap.mem = b.payload) ∧
        ∀ b ∈ bs, (a.payload s.heap.mem).Apart ⟨b.addr, 32⟩) ∧
    (s.live.Pairwise fun a b => (a.payload s.heap.mem).Apart (b.payload s.heap.mem)) ∧
    (∀ a ∈ s.live, a.size.toNat ≤ (a.payload s.heap.mem).len) ∧
    ∀ c, s.Allowed c → ∃ t, s.step c = some t := by
  obtain ⟨bs, h⟩ := tiled_of_run (hrun.mono fun _ _ => HeapState.Allowed.permitted)
  refine ⟨⟨bs, h.blocks.head, h.blocks.chain, h.blocks.apart, h.has_iff, fun b hb => ?_,
    fun a ha => ?_⟩, ?_, fun a ha => ?_, fun c hc => ?_⟩
  · have hok := h.blocks.ok b hb
    have haddr := hok.addr
    exact ⟨by dsimp only [Node.payload]; omega, hok.size⟩
  · obtain ⟨b, hb, huse, heq, -, -⟩ := h.payload ha
    exact ⟨⟨b, hb, huse, heq⟩, fun c hc => heq ▸ (h.blocks.payload_apart hb c hc).symm⟩
  · exact h.distinct.imp_of_mem fun ha hb hne => h.live_apart ha hb hne
  · obtain ⟨-, -, -, -, -, hle⟩ := h.payload ha
    exact hle
  · obtain ⟨t, -, hstep, -⟩ := h.step hc.permitted
    exact ⟨t, hstep⟩

/-- Two allocations out of one page, a client's write, and the first one
freed. -/
def someCalls : List HeapCall :=
  [.kmalloc 100 0x10000, .kzalloc 40 0, .write 0x100b0 [1, 2], .kfree 0x10020]

theorem heap_tiles_runs_someCalls :
    ∃ s, runList HeapState.step HeapState.Allowed { heap := { mem := fun _ => 0 } } someCalls =
        some s ∧
      s.live.length = 1 ∧
      s.live.Pairwise (fun a b => (a.payload s.heap.mem).Apart (b.payload s.heap.mem)) ∧
      ∀ a ∈ s.live, a.size.toNat ≤ (a.payload s.heap.mem).len := by
  have hlive : (runList HeapState.step HeapState.Allowed { heap := { mem := fun _ => 0 } }
      someCalls).map (fun s => s.live.length) = some 1 := by
    decide +kernel
  obtain ⟨s, hrun, hlength⟩ := Option.map_eq_some_iff.mp hlive
  obtain ⟨-, hapart, hsize, -⟩ := heap_tiles_runs (Run.ofList hrun)
  exact ⟨s, hrun, hlength, hapart, hsize⟩

end OreOS.Kernel
