import OreOS.Laws.Kernel.Heap

/-!
# What a heap call promises its caller

What one call does for its caller, and where it does not. `kmalloc` passes the
count of pages in 32 bits: for a size that this does not measure the pages are
too few, and it returns a pointer all the same (`kmalloc_usable_iff`). `kfree`
joins neighbours in one pass, so it joins pairs: of three free blocks in a row
it leaves two (`kfree_coalesces_iff`).
-/

namespace OreOS.Kernel

open OreOS.Lib (Word Mem Span Run runList)

/-! ## The pointer that `kmalloc` returns -/

/-- Null, or the start of `size` bytes that are in pages of the heap and in no
live allocation. -/
def HeapState.Usable (s : HeapState) (size grant ptr : Word) : Prop :=
  ptr = 0 ∨ ∀ i < size.toNat,
    (∃ r ∈ s.runs ++ obtained s.heap size grant, r.span.Has (ptr.toNat + i)) ∧
      ∀ a ∈ s.live, ¬ Span.Has ⟨a.ptr.toNat, a.size.toNat⟩ (ptr.toNat + i)

theorem HeapState.Tiled.has_payload {s : HeapState} {bs : List Node} (h : s.Tiled bs) {a : Grant}
    (ha : a ∈ s.live) {x : Nat} (hx : Span.Has ⟨a.ptr.toNat, a.size.toNat⟩ x) :
    (a.payload s.heap.mem).Has x := by
  obtain ⟨b, hb, -, heq, hptr, hle⟩ := h.payload ha
  exact ⟨hx.1, Nat.lt_of_lt_of_le hx.2 (Nat.add_le_add_left hle _)⟩

theorem HeapState.Tiled.usable {s : HeapState} {bs : List Node} {size grant : Word}
    (h : s.Tiled bs) (hsize : Measured size) (hgrants : Grants s.runs grant size) :
    ∃ ptr heap, Kernel.kmalloc s.heap size grant = .ok (ptr, heap) ∧
      s.Usable size grant ptr := by
  obtain ⟨ptr, heap, bs', hcall, htiled⟩ := h.kmalloc hsize hgrants
  refine ⟨ptr, heap, hcall, ?_⟩
  by_cases hptr : ptr = 0
  · exact .inl hptr
  refine .inr fun i hi => ?_
  rw [granted, if_neg hptr] at htiled
  have hnew : (⟨ptr, size⟩ : Grant) ∈ s.live ++ [⟨ptr, size⟩] := by simp
  have hin : Span.Has ⟨ptr.toNat, size.toNat⟩ (ptr.toNat + i) :=
    ⟨Nat.le_add_right _ _, Nat.add_lt_add_left hi _⟩
  have hpayload := htiled.has_payload hnew hin
  constructor
  · obtain ⟨b, hb, -, heq, -, -⟩ := htiled.payload hnew
    rw [heq] at hpayload
    exact (htiled.has_iff _).mp ⟨b, hb, b.payload_le.has hpayload⟩
  · intro a ha hcon
    have hne : a.ptr ≠ ptr :=
      (List.pairwise_append.mp htiled.distinct).2.2 a ha ⟨ptr, size⟩ (List.mem_singleton_self _)
    have hold : a ∈ s.live ++ [⟨ptr, size⟩] := List.mem_append_left _ ha
    exact (htiled.live_apart hold hnew hne).not_has (htiled.has_payload hold hcon) hpayload

/-- On the empty heap `kmalloc` takes whatever run it is given. -/
theorem kmalloc_empty (m : Mem) {size grant : Word} (hsize : size ≠ 0) (hgrant : grant ≠ 0) :
    (∃ heap, kmalloc { mem := m } size grant = .ok (grant + sizeofHeapBlock, heap)) ∧
      obtained { mem := m } size grant =
        [⟨grant.toNat, (requestPages (alignUpTo size 16)).toNat * 4096⟩] := by
  have hfit : findFit (alignUpTo size 16) heapRounds m 0 = .ok 0 :=
    findFit_chain (alignUpTo size 16) (show Chain m [] from trivial) (by simp) (by decide)
  constructor
  · unfold kmalloc requestBlock
    dsimp only
    rw [if_neg hsize, hfit, if_neg hgrant, if_pos rfl]
    refine ⟨(takeBlock _ grant (alignUpTo size 16)).2, if_neg hgrant⟩
  · rw [obtained]
    dsimp only
    rw [hfit, if_pos ⟨hsize, hgrant, rfl⟩]

theorem alignUpTo_wraps {size : Word} (h : 2 ^ 64 - 16 < size.toNat) : alignUpTo size 16 = 0 := by
  have hsum : (size + 16 - 1).toNat < 16 := by bv_omega
  have hlow : (size + 16 - 1) &&& 15 = size + 16 - 1 := by
    refine BitVec.eq_of_toNat_eq ?_
    rw [BitVec.toNat_and]
    exact (Nat.and_two_pow_sub_one_eq_mod _ 4).trans (Nat.mod_eq_of_lt hsum)
  have hsplit : alignUpTo size 16 + ((size + 16 - 1) &&& 15) = size + 16 - 1 :=
    and_add_and_not (size + 16 - 1) 15
  rw [hlow] at hsplit
  exact BitVec.eq_of_toNat_eq (by bv_omega)

/-- For any other size the run is too short. -/
theorem short_of_not_measured {size : Word} (h : ¬ Measured size) :
    0 < (requestPages (alignUpTo size 16)).toNat * 4096 ∧
      (requestPages (alignUpTo size 16)).toNat * 4096 < size.toNat + 32 := by
  by_cases hsize : size.toNat ≤ 2 ^ 64 - 16
  · rw [toNat_requestPages, toNat_alignUpTo_sixteen hsize]
    have hbytes : ¬ (_ ∨ _) := fun hor => h ⟨hsize, hor⟩
    rw [not_or] at hbytes
    unfold requestBytes at hbytes ⊢
    omega
  · have hpages : (requestPages 0).toNat = 1 := by decide
    rw [alignUpTo_wraps (by omega), hpages]
    omega

/-- On the empty heap such a size is given a pointer and fewer bytes. -/
theorem unusable_of_not_measured (m : Mem) {size : Word} (h : ¬ Measured size) :
    Grants [] 0x10000 size ∧ ∃ ptr heap, kmalloc { mem := m } size 0x10000 = .ok (ptr, heap) ∧
      ¬ HeapState.Usable { heap := { mem := m } } size 0x10000 ptr := by
  obtain ⟨hpos, hshort⟩ := short_of_not_measured h
  have hne : size ≠ 0 := by bv_omega
  obtain ⟨⟨heap, hcall⟩, hobtained⟩ := kmalloc_empty m hne (show (0x10000 : Word) ≠ 0 by decide)
  have hptr : (0x10000 + sizeofHeapBlock).toNat = 0x10020 := rfl
  generalize hbytes : (requestPages (alignUpTo size 16)).toNat * 4096 = bytes at *
  have hlt : bytes < 2 ^ 44 := by omega
  refine ⟨⟨.inr ⟨by decide, ?_, by simp⟩, fun hzero => ?_⟩, _, heap, hcall, ?_⟩
  · rw [hbytes, show (0x10000 : Word).toNat = 0x10000 from rfl]
    omega
  · rw [hzero] at hbytes
    simp at hbytes
    omega
  · -- The first byte behind the run is one of those asked for.
    rintro (hnull | hall)
    · exact absurd hnull (by decide)
    obtain ⟨⟨r, hr, hhas⟩, -⟩ := hall (bytes - 32) (by omega)
    rw [hobtained] at hr
    obtain rfl := List.mem_singleton.mp hr
    rw [hptr] at hhas
    unfold Span.Has PageRun.span at hhas
    dsimp only at hhas
    rw [show (0x10000 : Word).toNat = 0x10000 from rfl] at hhas
    omega

/-- A call of `kmalloc` returns in every state that permitted calls reach, and
what it returns is usable, exactly if the size is measured. -/
theorem kmalloc_usable_iff (size : Word) :
    (∀ m s grant, Run HeapState.step HeapState.Permitted { heap := { mem := m } } s →
      Grants s.runs grant size →
      ∃ ptr heap, kmalloc s.heap size grant = .ok (ptr, heap) ∧ s.Usable size grant ptr) ↔
    Measured size := by
  constructor
  · intro hall
    by_contra hsize
    obtain ⟨hgrants, ptr, heap, hcall, hshort⟩ := unusable_of_not_measured (fun _ => 0) hsize
    obtain ⟨ptr', heap', hcall', husable⟩ := hall (fun _ => 0) _ 0x10000 .refl hgrants
    cases hcall.symm.trans hcall'
    exact hshort husable
  · intro hsize m s grant hrun hgrants
    obtain ⟨bs, h⟩ := tiled_of_run hrun
    exact h.usable hsize hgrants

/-- `kmalloc(2^64 - 1)`, whose size rounds up to zero, obtains one page and returns a pointer
into it. -/
theorem kmalloc_one_page :
    Grants [] 0x10000 (-1) ∧ ∃ ptr heap,
      kmalloc { mem := fun _ => 0 } (-1) 0x10000 = .ok (ptr, heap) ∧ ptr ≠ 0 ∧
      (obtained { mem := fun _ => 0 } (-1) 0x10000).map PageRun.bytes = [4096] ∧
      ¬ HeapState.Usable { heap := { mem := fun _ => 0 } } (-1) 0x10000 ptr := by
  obtain ⟨hgrants, ptr, heap, hcall, hunusable⟩ :=
    unusable_of_not_measured (fun _ => 0) (show ¬ Measured (-1) by decide)
  refine ⟨hgrants, ptr, heap, hcall, fun hnull => hunusable (.inl hnull), ?_, hunusable⟩
  rw [(kmalloc_empty (fun _ => 0) (show (-1 : Word) ≠ 0 by decide)
    (show (0x10000 : Word) ≠ 0 by decide)).2]
  decide

/-! ## The list that `kfree` leaves -/

/-- The blocks that a walk from `b` along `next` sees. -/
def walkBlocks : Nat → Mem → Word → List Node
  | 0, _, _ => []
  | n + 1, m, b =>
    if b = 0 then []
    else
      { addr := b.toNat, size := (blockAt m b).size.toNat, free := (blockAt m b).free ≠ 0 } ::
        walkBlocks n m (blockAt m b).next

/-- The list of the heap. -/
def Heap.blocks (h : Heap) : List Node := walkBlocks heapRounds h.mem h.head

/-- Both blocks are free, and the second begins where the first one ends. -/
def Node.Joins (b c : Node) : Prop := b.free ∧ c.free ∧ b.addr + 32 + b.size = c.addr

instance (b c : Node) : Decidable (b.Joins c) := inferInstanceAs (Decidable (_ ∧ _ ∧ _))

/-- No block joins the next one. -/
def Coalesced (bs : List Node) : Prop := bs.IsChain fun b c => ¬ b.Joins c

instance (bs : List Node) : Decidable (Coalesced bs) := inferInstanceAs (Decidable (bs.IsChain _))

/-- No three blocks in a row join. -/
def PairsOnly : List Node → Prop
  | b :: c :: d :: bs => ¬ (b.Joins c ∧ c.Joins d) ∧ PairsOnly (c :: d :: bs)
  | _ => True

theorem walkBlocks_chain {m : Mem} {bs : List Node} {n : Nat} (h : Chain m bs)
    (hok : ∀ b ∈ bs, b.Ok) (hn : bs.length < n) : walkBlocks n m (headPtr bs) = bs := by
  induction bs generalizing n with
  | nil =>
    obtain ⟨n, rfl⟩ : ∃ k, n = k + 1 := ⟨n - 1, by omega⟩
    rfl
  | cons b bs ih =>
    obtain ⟨n, rfl⟩ : ∃ k, n = k + 1 := ⟨n - 1, by omega⟩
    have hb := hok b (by simp)
    have hrest := ih (n := n) h.2 (fun c hc => hok c (List.mem_cons_of_mem _ hc))
      (by rw [List.length_cons] at hn; omega)
    have hnode : ({ addr := b.ptr.toNat, size := (b.header (headPtr bs)).size.toNat
                    free := (b.header (headPtr bs)).free ≠ 0 } : Node) = b := by
      rw [hb.toNat_ptr, show (b.header (headPtr bs)).size.toNat = b.size from hb.toNat_size]
      cases b with
      | mk addr size free => cases free <;> rfl
    rw [walkBlocks, show headPtr (b :: bs) = b.ptr from rfl, if_neg hb.ptr_ne, h.1, hnode]
    exact congrArg (b :: ·) hrest

theorem Heap.Has.blocks_eq {h : Heap} {bs : List Node} (hbs : h.Has bs) : h.blocks = bs := by
  rw [Heap.blocks, hbs.head]
  exact walkBlocks_chain hbs.chain hbs.ok hbs.length_lt

theorem joinBlocks_head (b : Node) (bs : List Node) :
    ∃ size rest, joinBlocks (b :: bs) = { b with size := size } :: rest := by
  cases bs with
  | nil => exact ⟨b.size, [], rfl⟩
  | cons c bs =>
    rw [joinBlocks]
    split
    · exact ⟨_, _, rfl⟩
    · exact ⟨b.size, _, rfl⟩

theorem pairsOnly_of_not_joins {b c : Node} {bs : List Node} (h : ¬ b.Joins c) :
    PairsOnly (b :: c :: bs) ↔ PairsOnly (c :: bs) := by
  cases bs with
  | nil => exact Iff.rfl
  | cons d bs =>
    rw [PairsOnly]
    exact and_iff_right fun hboth => h hboth.1

/-- One pass joins pairs. -/
theorem coalesced_joinBlocks_iff (bs : List Node) : Coalesced (joinBlocks bs) ↔ PairsOnly bs := by
  unfold Coalesced
  induction bs using joinBlocks.induct with
  | case1 => exact iff_of_true .nil trivial
  | case2 b => exact iff_of_true (.singleton b) trivial
  | case3 b c bs hjoin ih =>
    rw [joinBlocks, if_pos hjoin]
    cases bs with
    | nil => exact iff_of_true (.singleton _) trivial
    | cons d bs =>
      obtain ⟨size, rest, hhead⟩ := joinBlocks_head d bs
      -- The joined block ends where its second half did.
      have hnext : ({ b with size := b.size + (32 + c.size) } : Node).Joins { d with size := size } ↔
          c.Joins d := by
        obtain ⟨hb, hc, hend⟩ := hjoin
        unfold Node.Joins
        dsimp only
        rw [hb, hc]
        exact and_congr_right fun _ => and_congr_right fun _ => by omega
      rw [hhead] at ih ⊢
      rw [List.isChain_cons_cons, ih, hnext, PairsOnly, and_iff_right (show b.Joins c from hjoin)]
      exact and_congr_right fun hnot => (pairsOnly_of_not_joins hnot).symm
  | case4 b c bs hjoin ih =>
    obtain ⟨size, rest, hhead⟩ := joinBlocks_head c bs
    have hnext : ¬ b.Joins { c with size := size } := hjoin
    rw [joinBlocks, if_neg hjoin, hhead, List.isChain_cons_cons, and_iff_right hnext, ← hhead, ih,
      pairsOnly_of_not_joins hjoin]

/-- The block of a pointer, marked as free. -/
def Node.freedBy (ptr : Word) (b : Node) : Node :=
  if b.ptr + sizeofHeapBlock = ptr then { b with free := true } else b

theorem map_freedBy {h : Heap} {before after : List Node} {b : Node}
    (hbs : h.Has (before ++ b :: after)) :
    (before ++ b :: after).map (Node.freedBy (b.ptr + sizeofHeapBlock)) =
      before ++ { b with free := true } :: after := by
  obtain ⟨hb, hothers⟩ := hbs.around
  have hsame : ∀ c ∈ before ++ after, c.freedBy (b.ptr + sizeofHeapBlock) = c := by
    intro c hc
    obtain ⟨hok, hapart⟩ := hothers c hc
    refine if_neg fun hptr => addr_ne_of_apart hapart ?_
    rw [← hok.toNat_ptr, ← hb.toNat_ptr, (BitVec.add_left_inj _).mp hptr]
  have hself : b.freedBy (b.ptr + sizeofHeapBlock) = { b with free := true } := if_pos rfl
  have hbefore := List.map_congr_left fun c hc => hsame c (List.mem_append_left after hc)
  have hafter := List.map_congr_left fun c hc => hsame c (List.mem_append_right before hc)
  rw [List.map_append, List.map_cons, hself, hbefore, hafter, List.map_id', List.map_id']

/-- A `kfree` of a live pointer returns, and leaves no free block in front of a
free one that it could be joined with, exactly if no three blocks in a row could
be joined once the block is marked as free. -/
theorem kfree_coalesces_iff {m : Mem} {s : HeapState} {a : Grant}
    (hrun : Run HeapState.step HeapState.Permitted { heap := { mem := m } } s) (ha : a ∈ s.live) :
    ∃ t, s.step (.kfree a.ptr) = some t ∧
      (Coalesced t.heap.blocks ↔ PairsOnly (s.heap.blocks.map (Node.freedBy a.ptr))) := by
  obtain ⟨bs, h⟩ := tiled_of_run hrun
  obtain ⟨hpos, b, hb, -, hptr, hle⟩ := h.live a ha
  obtain ⟨before, after, rfl⟩ := List.append_of_mem hb
  obtain ⟨heap, hcall, hhas⟩ := kfree_has h.blocks (by omega)
  refine ⟨{ s with heap := heap, live := s.live.filter (·.ptr ≠ a.ptr) }, ?_, ?_⟩
  · rw [HeapState.step, hptr, hcall]
  · rw [hhas.blocks_eq, h.blocks.blocks_eq, hptr, map_freedBy h.blocks]
    exact coalesced_joinBlocks_iff _

/-- The live pointers in the state that the calls lead to, and the list after a
`kfree`. -/
def afterFree (calls : List HeapCall) (ptr : Word) : Option (List Word × List Node) := do
  let s ← runList HeapState.step HeapState.Permitted { heap := { mem := fun _ => 0 } } calls
  let t ← s.step (.kfree ptr)
  return (s.live.map Grant.ptr, t.heap.blocks)

theorem afterFree_eq {calls : List HeapCall} {ptr : Word} {live : List Word} {bs : List Node}
    (h : afterFree calls ptr = some (live, bs)) :
    ∃ s t, Run HeapState.step HeapState.Permitted { heap := { mem := fun _ => 0 } } s ∧
      s.live.map Grant.ptr = live ∧ s.step (.kfree ptr) = some t ∧ t.heap.blocks = bs := by
  obtain ⟨s, hs, h⟩ := Option.bind_eq_some_iff.mp h
  obtain ⟨t, ht, h⟩ := Option.bind_eq_some_iff.mp h
  cases h
  exact ⟨s, t, Run.ofList hs, rfl, ht, rfl⟩

/-- The last one of two allocations is joined with the rest of the page. -/
theorem kfree_coalesces_last :
    ∃ s a t, Run HeapState.step HeapState.Permitted { heap := { mem := fun _ => 0 } } s ∧
      a ∈ s.live ∧ s.step (.kfree a.ptr) = some t ∧
      t.heap.blocks = [⟨0x10000, 64, false⟩, ⟨0x10060, 3968, true⟩] ∧
      PairsOnly (s.heap.blocks.map (Node.freedBy a.ptr)) := by
  have hcalls : afterFree [.kmalloc 64 0x10000, .kmalloc 64 0] 0x10080 =
      some ([0x10020, 0x10080], [⟨0x10000, 64, false⟩, ⟨0x10060, 3968, true⟩]) := by
    decide +kernel
  obtain ⟨s, t, hrun, hlive, hstep, hblocks⟩ := afterFree_eq hcalls
  have hmem : 0x10080 ∈ s.live.map Grant.ptr := by simp [hlive]
  obtain ⟨a, ha, hptr⟩ := List.mem_map.mp hmem
  obtain ⟨t', hstep', hiff⟩ := kfree_coalesces_iff hrun ha
  rw [hptr] at hstep'
  obtain rfl := Option.some.inj (hstep.symm.trans hstep')
  refine ⟨s, a, t, hrun, ha, by rw [hptr, hstep], hblocks, hiff.mp ?_⟩
  rw [hblocks]
  decide

/-- Of three allocations out of one page, the first and the last one are freed,
and then the one in the middle: it is joined with the first one, and the last one
stays on its own. -/
theorem kfree_leaves_neighbours :
    ∃ s t, Run HeapState.step HeapState.Permitted { heap := { mem := fun _ => 0 } } s ∧
      s.live.map Grant.ptr = [0x10080] ∧ s.step (.kfree 0x10080) = some t ∧
      t.heap.blocks = [⟨0x10000, 160, true⟩, ⟨0x100c0, 3872, true⟩] ∧
      ¬ Coalesced t.heap.blocks := by
  have hcalls : afterFree
      [.kmalloc 64 0x10000, .kmalloc 64 0, .kmalloc 64 0, .kfree 0x10020, .kfree 0x100e0] 0x10080 =
      some ([0x10080], [⟨0x10000, 160, true⟩, ⟨0x100c0, 3872, true⟩]) := by
    decide +kernel
  obtain ⟨s, t, hrun, hlive, hstep, hblocks⟩ := afterFree_eq hcalls
  refine ⟨s, t, hrun, hlive, hstep, hblocks, ?_⟩
  rw [hblocks]
  decide

end OreOS.Kernel
