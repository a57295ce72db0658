import OreOS.Kernel.Replies
import OreOS.Laws.Kernel.Handles

/-!
# What replies show of the stack

`vfs_stat` and `vfs_readdir_path` store no `reserved` and end a name with its NUL,
and PROC_INFO leaves the padding behind `segment_count`; those bytes of the reply
are what the stack held. MOD_INFO copies a whole slot. So a reply does not depend
on the stack exactly if the call is MOD_INFO or copies nothing
(`reply_independent_iff`).
-/

namespace OreOS.Kernel

open OreOS.Lib (Word Buf)
open OreOS.Lib.Mem (length_leBytes)

theorem structBytes_getElem? {size i : Nat} (hi : i < size) (b : Buf) :
    (structBytes size b)[i]? = some (b i) := by
  rw [structBytes, List.getElem?_map, List.getElem?_range hi]
  rfl

theorem store_reserved {st : OreVfsStat} (hname : st.name.length ≤ 127) (b : Buf) :
    st.store b 132 = b 132 := by
  unfold OreVfsStat.store
  rw [Buf.put_below (by decide), Buf.put_above (by rw [length_leBytes]), Buf.put_above]
  rw [List.length_append, List.length_singleton]
  omega

theorem storeInfo_padding (proc : Process) (b : Buf) : proc.storeInfo b 20 = b 20 := by
  unfold Process.storeInfo
  rw [Buf.put_below (by decide), Buf.put_below (by decide), Buf.put_below (by decide),
    Buf.put_below (by decide)]
  iterate 5 rw [Buf.put_above (by simp)]

theorem length_bytes (info : OreModuleInfo) : info.bytes.length = sizeofOreModuleInfo := by
  simp only [OreModuleInfo.bytes, paddedString, List.length_append, List.length_take,
    List.length_replicate, length_leBytes, sizeofOreModuleInfo]
  omega

theorem structBytes_info (info : OreModuleInfo) (b b' : Buf) :
    structBytes sizeofOreModuleInfo (b.put 0 info.bytes) =
      structBytes sizeofOreModuleInfo (b'.put 0 info.bytes) := by
  refine List.map_congr_left fun i hi => ?_
  have hlt : i < info.bytes.length := by rwa [length_bytes, ← List.mem_range]
  have hb := Buf.holds_put b 0 info.bytes i hlt
  have hb' := Buf.holds_put b' 0 info.bytes i hlt
  rw [Nat.zero_add] at hb hb'
  rw [hb, hb']

/-! ## The copy -/

variable {cr3 : Word} {m : Machine} {dst : Word}

theorem copyToUser_structBytes {size : Nat} (hsize : size ≠ 0) (b : Buf) :
    copyToUser cr3 m dst (structBytes size b) =
      if userRangeOk cr3 m dst (BitVec.ofNat 64 size) = false then .error (-oreEfault)
      else .ok (structBytes size b) := by
  have hlen : (structBytes size b).length = size := by
    rw [structBytes, List.length_map, List.length_range]
  rw [copyToUser, hlen, if_neg hsize]

/-- A structure with a byte that is not stored shows the stack if it is copied. -/
theorem copy_independent_iff {size i : Nat} (hi : i < size) {store : Buf → Buf}
    (hstore : ∀ b, store b i = b i) :
    (∀ b b', copyToUser cr3 m dst (structBytes size (store b)) =
        copyToUser cr3 m dst (structBytes size (store b'))) ↔
      ¬ userRangeOk cr3 m dst (BitVec.ofNat 64 size) = true := by
  have hsize : size ≠ 0 := Nat.ne_of_gt (Nat.zero_lt_of_lt hi)
  simp only [copyToUser_structBytes hsize]
  by_cases hrange : userRangeOk cr3 m dst (BitVec.ofNat 64 size) = true
  · refine iff_of_false (fun h => ?_) (not_not.mpr hrange)
    have heq := h (fun _ => 0) (fun _ => 1)
    rw [if_neg (by rw [hrange]; decide), if_neg (by rw [hrange]; decide)] at heq
    have hbyte := congrArg (·[i]?) (Except.ok.inj heq)
    simp only [structBytes_getElem? hi, hstore] at hbyte
    cases hbyte
  · refine iff_of_true (fun b b' => ?_) hrange
    rw [if_pos (Bool.eq_false_iff.mpr hrange), if_pos (Bool.eq_false_iff.mpr hrange)]

/-! ## The calls -/

namespace InfoState

/-- The call comes to its copy, and the copy is allowed. -/
def Copies (k : InfoState) : InfoCall → Prop
  | .stat a1 a2 =>
    (∃ path, userPath k.cr3 k.memory a1 = .ok path ∧ k.vfs.stat path ≠ none) ∧
      userRangeOk k.cr3 k.memory a2 (BitVec.ofNat 64 sizeofOreVfsStat) = true
  | .readdir a1 a2 a3 =>
    (∃ st, k.readdirEntry a1 a3 = .ok st) ∧
      userRangeOk k.cr3 k.memory a2 (BitVec.ofNat 64 sizeofOreVfsStat) = true
  | .procInfo a1 a2 =>
    (a1.setWidth 32).toNat < k.table.count ∧
      userRangeOk k.cr3 k.memory a2 (BitVec.ofNat 64 sizeofOreProcessInfo) = true
  | .modInfo a1 a2 =>
    (a1.setWidth 32).toNat < k.loadedModules ∧
      userRangeOk k.cr3 k.memory a2 (BitVec.ofNat 64 sizeofOreModuleInfo) = true

variable {k : InfoState} {a1 a2 a3 : Word}

theorem readdirEntry_name_le {st : OreVfsStat} (hst : k.readdirEntry a1 a3 = .ok st) :
    st.name.length ≤ 127 := by
  unfold readdirEntry at hst
  dsimp only at hst
  split at hst
  next => cases hst
  next =>
    split at hst
    next => cases hst
    next st' hst' =>
      cases hst
      exact Vfs.readdir_name_le hst'

theorem stat_independent_iff :
    (∀ stack stack', k.sysStat stack a1 a2 = k.sysStat stack' a1 a2) ↔ ¬ k.Copies (.stat a1 a2) := by
  unfold sysStat
  rw [Copies]
  cases hpath : userPath k.cr3 k.memory a1 with
  | error err =>
    refine iff_of_true (fun _ _ => rfl) ?_
    rintro ⟨⟨path, hcon, -⟩, -⟩
    cases hcon
  | ok path =>
    dsimp only
    cases hst : k.vfs.stat path with
    | none =>
      refine iff_of_true (fun _ _ => rfl) ?_
      rintro ⟨⟨path', hpath', hne⟩, -⟩
      cases hpath'
      exact hne hst
    | some st =>
      dsimp only
      rw [copy_independent_iff (by decide) (store_reserved (Vfs.stat_cases hst).1), and_iff_right]
      exact ⟨path, rfl, by rw [hst]; nofun⟩

theorem readdir_independent_iff :
    (∀ stack stack', k.sysReaddir stack a1 a2 a3 = k.sysReaddir stack' a1 a2 a3) ↔
      ¬ k.Copies (.readdir a1 a2 a3) := by
  unfold sysReaddir
  rw [Copies]
  cases hst : k.readdirEntry a1 a3 with
  | error err =>
    refine iff_of_true (fun _ _ => rfl) ?_
    rintro ⟨⟨st, hcon⟩, -⟩
    cases hcon
  | ok st =>
    dsimp only
    rw [copy_independent_iff (by decide) (store_reserved (readdirEntry_name_le hst)), and_iff_right]
    exact ⟨st, rfl⟩

theorem procInfo_independent_iff :
    (∀ stack stack', k.sysProcInfo stack a1 a2 = k.sysProcInfo stack' a1 a2) ↔
      ¬ k.Copies (.procInfo a1 a2) := by
  unfold sysProcInfo processTableAt
  rw [Copies]
  split
  next hnone =>
    split at hnone
    next hge => exact iff_of_true (fun _ _ => rfl) fun hcon => absurd hcon.1 (Nat.not_lt.mpr hge)
    next => cases hnone
  next i hsome =>
    split at hsome
    next => cases hsome
    next hlt =>
      rw [copy_independent_iff (by decide) (storeInfo_padding _), and_iff_right (Nat.lt_of_not_le hlt)]

theorem modInfo_independent (stack stack' : Buf) :
    k.sysModInfo stack a1 a2 = k.sysModInfo stack' a1 a2 := by
  unfold sysModInfo okmodInfo
  split
  next hnone =>
    split at hnone
    next hge => rw [if_pos hge]
    next => cases hnone
  next info hsome =>
    split at hsome
    next => cases hsome
    next hlt =>
      cases hsome
      rw [if_neg hlt]
      dsimp only
      rw [structBytes_info _ stack stack']

/-- What is copied to the caller does not depend on what the stack held, exactly for
MOD_INFO and for calls that copy nothing. -/
theorem reply_independent_iff (k : InfoState) (call : InfoCall) :
    (∀ stack stack', k.reply stack call = k.reply stack' call) ↔
      (∃ a1 a2, call = .modInfo a1 a2) ∨ ¬ k.Copies call := by
  cases call with
  | stat a1 a2 =>
    rw [or_iff_right (by rintro ⟨_, _, hcon⟩; cases hcon)]
    exact stat_independent_iff
  | readdir a1 a2 a3 =>
    rw [or_iff_right (by rintro ⟨_, _, hcon⟩; cases hcon)]
    exact readdir_independent_iff
  | procInfo a1 a2 =>
    rw [or_iff_right (by rintro ⟨_, _, hcon⟩; cases hcon)]
    exact procInfo_independent_iff
  | modInfo a1 a2 => exact iff_of_true modInfo_independent (.inl ⟨a1, a2, rfl⟩)

/-- The caller of `FileState.callerMemory`, with an empty process table. -/
def initCaller : InfoState where
  vfs := Vfs.twoMounts
  table := { procs := fun _ => {}, count := 0, current := 0, cr3 := 0x1000 }
  loadedModules := 0
  moduleTable := fun _ => {}
  cr3 := 0x1000
  memory := FileState.callerMemory

/-- STAT of `/init` shows the stack in `reserved`. -/
theorem stat_shows_stack :
    initCaller.reply (fun _ => 0) (.stat 0x8000000000 0x8000000800) ≠
      initCaller.reply (fun _ => 1) (.stat 0x8000000000 0x8000000800) := by
  decide +kernel

end InfoState

end OreOS.Kernel
