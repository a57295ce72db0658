import OreOS.Kernel.Vfs

/-!
# Directories

Both file systems are lists of stored names, and `Found` says what is at a path of
such a list: a stored file, or a directory on the way to one. Looking a path up
finds it (`stat_iff`), and a directory lists exactly what is found at the paths one
component longer (`childOf_iff`). So `vfs_stat` and `vfs_readdir_path`, which search
in different ways, agree (`readdir_agrees_with_stat`).
-/

namespace OreOS.Kernel

open OreOS.Lib

variable {a b p q rel dir name : List Byte} {type : BitVec 32} {size : Word} {st : OreVfsStat}

/-! ## Strings -/

theorem strEq_iff : strEq a b = true ↔ a = b := by
  induction a generalizing b with
  | nil =>
    cases b with
    | nil => exact iff_of_true rfl rfl
    | cons y b => exact iff_of_false nofun nofun
  | cons x a ih =>
    cases b with
    | nil => exact iff_of_false nofun nofun
    | cons y b => rw [strEq, Bool.and_eq_true, beq_iff_eq, ih, List.cons.injEq]

theorem strPrefixEq_iff : strPrefixEq a b b.length = true ↔ b <+: a := by
  induction b generalizing a with
  | nil => exact iff_of_true (by cases a <;> rfl) List.nil_prefix
  | cons y b ih =>
    cases a with
    | nil => exact iff_of_false nofun (by simp)
    | cons x a =>
      rw [List.length_cons, strPrefixEq, Bool.and_eq_true, beq_iff_eq, ih, List.cons_prefix_cons]
      exact and_congr_left fun _ => eq_comm

theorem prefix_slash_iff :
    (strPrefixEq name dir dir.length && charAt name dir.length == slash) = true ↔
      Above slash dir name := by
  rw [Bool.and_eq_true, strPrefixEq_iff, beq_iff_eq, above_iff]
  constructor
  · rintro ⟨⟨r, rfl⟩, hchar⟩
    cases r with
    | nil => simp [charAt, slash] at hchar
    | cons x r =>
      have hx : x = slash := by simpa [charAt] using hchar
      exact ⟨r, by rw [hx]⟩
  · rintro ⟨r, rfl⟩
    exact ⟨List.prefix_append _ _, by simp [charAt]⟩

theorem startsWithDir_iff : startsWithDir name dir = true ↔ dir = [] ∨ Above slash dir name := by
  unfold startsWithDir
  split
  next hlen => exact iff_of_true rfl (.inl (List.length_eq_zero_iff.mp hlen))
  next hlen =>
    rw [prefix_slash_iff, or_iff_right fun hdir => hlen (List.length_eq_zero_iff.mpr hdir)]

@[simp] theorem stripSlash_slash (p : List Byte) : stripSlash (slash :: p) = p := rfl

theorem stripSlash_of_canonical (h : Canonical slash p) : stripSlash p = p := by
  cases p with
  | nil => rfl
  | cons x p =>
    refine if_neg fun hx => ?_
    obtain rfl : x = slash := hx
    exact Canonical.not_sep_cons h

theorem copyName_of_le (h : p.length ≤ 127) : copyName p = p :=
  List.take_of_length_le h

/-! ## Below `/disk` -/

theorem diskPath_iff : diskPath p = some rel ↔
    p = slash :: diskName ∧ rel = [] ∨ p = slash :: diskName ++ slash :: rel := by
  unfold diskPath
  split
  next heq =>
    rw [strEq_iff] at heq
    subst heq
    rw [Option.some.injEq]
    constructor
    · rintro rfl
      exact .inl ⟨rfl, rfl⟩
    · rintro (⟨-, rfl⟩ | hcon)
      · rfl
      · cases hcon
  next hne =>
    rw [strEq_iff] at hne
    split
    next hpre =>
      obtain ⟨r, rfl⟩ := strPrefixEq_iff.mp hpre
      rw [Option.some.injEq]
      constructor
      · rintro rfl
        exact .inr rfl
      · rintro (⟨hcon, -⟩ | heq)
        · exact absurd hcon hne
        · exact List.append_cancel_left (heq.trans (List.append_cons ..))
    next hpre =>
      refine iff_of_false nofun ?_
      rintro (⟨hcon, -⟩ | rfl)
      · exact hne hcon
      · exact hpre (strPrefixEq_iff.mpr ⟨rel, rfl⟩)

/-! ## Children -/

/-- The path of a name in a directory of the list. -/
def under (dir rel : List Byte) : List Byte :=
  if dir = [] then rel else dir ++ slash :: rel

theorem under_append (dir a b : List Byte) : under dir (a ++ b) = under dir a ++ b := by
  unfold under
  split
  · rfl
  · rw [List.append_assoc, List.cons_append]

theorem under_inj : under dir a = under dir b ↔ a = b := by
  unfold under
  split
  · exact Iff.rfl
  · simp

theorem canonical_under (h : Canonical slash (under dir rel)) : Canonical slash rel := by
  unfold under at h
  split at h
  · exact h
  · exact (canonical_append.mp h).2

/-- A name begins with the directory if something in the directory has the name. -/
theorem startsWithDir_iff_under : startsWithDir name dir = true ↔ ∃ rel, name = under dir rel := by
  rw [startsWithDir_iff, above_iff]
  unfold under
  by_cases hdir : dir = []
  · exact iff_of_true (.inl hdir) ⟨name, (if_pos hdir).symm⟩
  · simp only [if_neg hdir]
    exact or_iff_right hdir

theorem childOf_under (hrel : rel ≠ []) :
    childOf dir (under dir rel) type size =
      let child := rel.takeWhile (· ≠ slash)
      if child = rel then some { name := copyName child, type := type, size := size }
      else some { name := copyName child, type := Vfs.oreVfsDir, size := 0 } := by
  have hdrop : (if dir.length ≠ 0 then ((under dir rel).drop dir.length).tail
      else (under dir rel).drop dir.length) = rel := by
    unfold under
    cases dir with
    | nil => rfl
    | cons x dir => simp
  have hname : copyNameLen rel (rel.takeWhile (· ≠ slash)).length =
      copyName (rel.takeWhile (· ≠ slash)) := by
    have htake : rel.takeWhile (· ≠ slash) = rel.take (rel.takeWhile (· ≠ slash)).length :=
      List.prefix_iff_eq_take.mp (List.takeWhile_prefix _)
    rw [copyNameLen, copyName, ← List.take_take, ← htake]
  have hmore : charAt rel (rel.takeWhile (· ≠ slash)).length = slash ↔
      rel.takeWhile (· ≠ slash) ≠ rel := by
    rcases (takeWhile_first slash rel).2 with heq | ⟨r, hr⟩
    · rw [heq]
      exact iff_of_false (by simp [charAt, slash]) (not_not.mpr rfl)
    · refine iff_of_true ?_ fun heq => ?_
      · generalize rel.takeWhile (· ≠ slash) = child at hr
        simp [hr, charAt]
      · have hlen := congrArg List.length hr
        rw [heq] at hlen
        simp at hlen
  have hdir : ¬ startsWithDir (under dir rel) dir = false := by
    rw [startsWithDir_iff_under.mpr ⟨rel, rfl⟩]
    decide
  unfold childOf
  rw [if_neg hdir]
  dsimp only
  rw [hdrop, if_neg fun hlen => hrel (List.length_eq_zero_iff.mp hlen), hname]
  simp only [hmore, ne_eq, ite_not]

/-- What a directory lists for a stored name: the file, or the directory on the
way to it. -/
theorem childOf_iff (hcanonical : Canonical slash name) (hlen : name.length ≤ 127) :
    childOf dir name type size = some st ↔ slash ∉ st.name ∧
      (name = under dir st.name ∧ st.type = type ∧ st.size = size ∨
        Above slash (under dir st.name) name ∧ st.type = Vfs.oreVfsDir ∧ st.size = 0) := by
  by_cases hdir : ∃ rel, name = under dir rel
  · obtain ⟨rel, rfl⟩ := hdir
    obtain ⟨hfirst, hrest⟩ := takeWhile_first slash rel
    have hshort : (rel.takeWhile (· ≠ slash)).length ≤ 127 := by
      have hle := (List.takeWhile_prefix (fun x => decide (x ≠ slash)) (l := rel)).length_le
      have hunder : rel.length ≤ (under dir rel).length := by
        unfold under
        split
        · exact Nat.le_refl _
        · simp only [List.length_append, List.length_cons]
          omega
      omega
    rw [childOf_under (canonical_under hcanonical).ne_nil]
    dsimp only
    rw [copyName_of_le hshort]
    constructor
    · intro hst
      split at hst
      next heq =>
        cases hst
        exact ⟨hfirst, .inl ⟨by rw [heq], rfl, rfl⟩⟩
      next hne =>
        cases hst
        obtain ⟨r, hr⟩ := hrest.resolve_left hne
        refine ⟨hfirst, .inr ⟨above_iff.mpr ⟨r, ?_⟩, rfl, rfl⟩⟩
        rw [← under_append, ← hr]
    · rintro ⟨hslash, ⟨heq, rfl, rfl⟩ | ⟨habove, htype, hsize⟩⟩
      · rw [under_inj] at heq
        subst heq
        rw [takeWhile_of_not_mem hslash, if_pos rfl]
      · obtain ⟨r, hr⟩ := above_iff.mp habove
        rw [← under_append, under_inj] at hr
        subst hr
        rw [takeWhile_append_sep hslash, if_neg (by simp), ← htype, ← hsize]
  · have hnone : childOf dir name type size = none := by
      rw [← startsWithDir_iff_under, Bool.not_eq_true] at hdir
      exact if_pos hdir
    rw [hnone]
    refine iff_of_false nofun ?_
    rintro ⟨-, ⟨heq, -⟩ | ⟨habove, -⟩⟩
    · exact hdir ⟨_, heq⟩
    · obtain ⟨r, hr⟩ := above_iff.mp habove
      exact hdir ⟨_, hr.trans (under_append ..).symm⟩

/-! ## Stored names -/

/-- What is at a path of a list of files: one of them, or a directory. -/
def Found (files : List OreVfsStat) (path : List Byte) (type : BitVec 32) (size : Word) : Prop :=
  (∃ file ∈ files, file.name = path ∧ file.type = type ∧ file.size = size) ∨
    (∃ file ∈ files, Above slash path file.name) ∧ type = Vfs.oreVfsDir ∧ size = 0

/-- The stored names are names of files in directories: canonical, distinct, and
none of them that of a directory. -/
structure WellNamed (files : List OreVfsStat) : Prop where
  length : ∀ file ∈ files, file.name.length ≤ 127
  distinct : (files.map OreVfsStat.name).Nodup
  canonical : ∀ file ∈ files, Canonical slash file.name
  free : ∀ file ∈ files, ∀ file' ∈ files, ¬ Above slash file.name file'.name

variable {files : List OreVfsStat}

namespace WellNamed

variable (h : WellNamed files)
include h

theorem eq_of_name {file file' : OreVfsStat} (hfile : file ∈ files) (hfile' : file' ∈ files)
    (hname : file.name = file'.name) : file = file' :=
  List.inj_on_of_nodup_map h.distinct hfile hfile' hname

theorem found_unique {type' : BitVec 32} {size' : Word} (hfound : Found files p type size)
    (hfound' : Found files p type' size') : type = type' ∧ size = size' := by
  rcases hfound with ⟨file, hfile, rfl, rfl, rfl⟩ | ⟨⟨file, hfile, habove⟩, rfl, rfl⟩
  · rcases hfound' with ⟨file', hfile', hname, rfl, rfl⟩ | ⟨⟨file', hfile', habove'⟩, -⟩
    · rw [h.eq_of_name hfile hfile' hname.symm]
      exact ⟨rfl, rfl⟩
    · exact absurd habove' (h.free file hfile file' hfile')
  · rcases hfound' with ⟨file', hfile', rfl, -⟩ | ⟨-, rfl, rfl⟩
    · exact absurd habove (h.free file' hfile' file hfile)
    · exact ⟨rfl, rfl⟩

theorem found_canonical (hfound : Found files p type size) : Canonical slash p := by
  rcases hfound with ⟨file, hfile, rfl, -⟩ | ⟨⟨file, hfile, habove⟩, -⟩
  · exact h.canonical file hfile
  · obtain ⟨r, hr⟩ := above_iff.mp habove
    have hcanonical := h.canonical file hfile
    rw [hr, canonical_append] at hcanonical
    exact hcanonical.1

theorem found_length (hfound : Found files p type size) : p.length ≤ 127 := by
  rcases hfound with ⟨file, hfile, rfl, -⟩ | ⟨⟨file, hfile, habove⟩, -⟩
  · exact h.length file hfile
  · have hlen := h.length file hfile
    have hle := habove.length_le
    rw [List.length_append] at hle
    omega

/-- A directory lists what is found one component further. -/
theorem child_iff (dir : List Byte) :
    (∃ file ∈ files, childOf dir file.name file.type file.size = some st) ↔
      slash ∉ st.name ∧ Found files (under dir st.name) st.type st.size := by
  constructor
  · rintro ⟨file, hfile, hchild⟩
    obtain ⟨hslash, ⟨hname, htype, hsize⟩ | ⟨habove, htype, hsize⟩⟩ :=
      (childOf_iff (h.canonical file hfile) (h.length file hfile)).mp hchild
    · exact ⟨hslash, .inl ⟨file, hfile, hname, htype.symm, hsize.symm⟩⟩
    · exact ⟨hslash, .inr ⟨⟨file, hfile, habove⟩, htype, hsize⟩⟩
  · rintro ⟨hslash, ⟨file, hfile, hname, htype, hsize⟩ | ⟨⟨file, hfile, habove⟩, htype, hsize⟩⟩
    · exact ⟨file, hfile, (childOf_iff (h.canonical file hfile) (h.length file hfile)).mpr
        ⟨hslash, .inl ⟨hname, htype.symm, hsize.symm⟩⟩⟩
    · exact ⟨file, hfile, (childOf_iff (h.canonical file hfile) (h.length file hfile)).mpr
        ⟨hslash, .inr ⟨habove, htype, hsize⟩⟩⟩

end WellNamed

section find

variable {α : Type} {items : List α} {stored : α → OreVfsStat}

theorem found_of_find_some (h : WellNamed (items.map stored)) {item : α}
    (hfind : items.find? (fun item => strEq (stored item).name p) = some item) :
    Found (items.map stored) p type size ↔
      (stored item).type = type ∧ (stored item).size = size := by
  have hname : strEq (stored item).name p = true :=
    List.find?_some (p := fun item => strEq (stored item).name p) hfind
  have hmem := List.mem_map_of_mem (f := stored) (List.mem_of_find?_eq_some hfind)
  have hfound : Found (items.map stored) p (stored item).type (stored item).size :=
    .inl ⟨stored item, hmem, strEq_iff.mp hname, rfl, rfl⟩
  constructor
  · exact h.found_unique hfound
  · rintro ⟨rfl, rfl⟩
    exact hfound

theorem found_of_find_none
    (hfind : items.find? (fun item => strEq (stored item).name p) = none) :
    Found (items.map stored) p type size ↔
      (∃ item ∈ items, Above slash p (stored item).name) ∧ type = Vfs.oreVfsDir ∧ size = 0 := by
  unfold Found
  rw [or_iff_right]
  · simp only [List.mem_map, exists_exists_and_eq_and]
  · rintro ⟨file, hfile, hname, -⟩
    obtain ⟨item, hitem, rfl⟩ := List.mem_map.mp hfile
    exact List.find?_eq_none.mp hfind item hitem (strEq_iff.mpr hname)

end find

/-- Names in fields of `field` bytes: each ends before its field does, they are
distinct and canonical, and none is a directory on the way to another. -/
structure ProperNames (field : Nat) (names : List (List Byte)) : Prop where
  terminated : ∀ name ∈ names, name.length < field
  distinct : names.Nodup
  canonical : ∀ name ∈ names, Canonical slash name
  free : ∀ name ∈ names, ∀ name' ∈ names, ¬ Above slash name name'

theorem ProperNames.wellNamed {field : Nat} (h : ProperNames field (files.map OreVfsStat.name))
    (hfield : field ≤ 128) : WellNamed files where
  length file hfile := by
    have := h.terminated _ (List.mem_map_of_mem hfile)
    omega
  distinct := h.distinct
  canonical file hfile := h.canonical _ (List.mem_map_of_mem hfile)
  free file hfile file' hfile' :=
    h.free _ (List.mem_map_of_mem hfile) _ (List.mem_map_of_mem hfile')

namespace InitramfsFile

def stored (file : InitramfsFile) : OreVfsStat :=
  { name := file.name, type := file.type, size := file.size }

end InitramfsFile

namespace OreFsEntry

def stored (entry : OreFsEntry) : OreVfsStat :=
  { name := entry.name, type := entry.type, size := entry.size }

end OreFsEntry

namespace Vfs

variable {v : Vfs}

/-- The name of a reply is a copied one, and its type that of a directory or of a
stored file. -/
theorem stat_cases (hst : v.stat p = some st) :
    st.name.length ≤ 127 ∧ (st.type = oreVfsDir ∨ (∃ file ∈ v.files, st.type = file.type) ∨
      ∃ entry ∈ v.diskEntries, st.type = entry.type) := by
  have hcopy : ∀ name, (copyName name).length ≤ 127 := by
    intro name
    rw [copyName, List.length_take]
    omega
  unfold stat at hst
  split at hst
  next => cases hst
  next =>
    split at hst
    next =>
      cases hst
      exact ⟨hcopy _, .inl rfl⟩
    next =>
      split at hst
      next rel hrel =>
        unfold statDisk at hst
        split at hst
        next =>
          cases hst
          exact ⟨hcopy _, .inl rfl⟩
        next =>
          split at hst
          next entry hentry =>
            cases hst
            exact ⟨hcopy _, .inr (.inr ⟨entry, List.mem_of_find?_eq_some hentry, rfl⟩)⟩
          next =>
            split at hst
            next =>
              cases hst
              exact ⟨hcopy _, .inl rfl⟩
            next => cases hst
      next =>
        unfold statInitramfs at hst
        split at hst
        next =>
          split at hst
          next =>
            cases hst
            exact ⟨hcopy _, .inl rfl⟩
          next => cases hst
        next file hlookup =>
          cases hst
          exact ⟨hcopy _, .inr (.inl ⟨file, List.mem_of_find?_eq_some hlookup, rfl⟩)⟩

/-- Mounted, with proper names in the tar headers and in the entries of the disk,
and nothing of the initramfs where the disk is mounted. -/
structure WellFormed (v : Vfs) : Prop where
  mounted : v.mounted = true
  files : ProperNames 100 (v.files.map InitramfsFile.name)
  entries : ProperNames 96 (v.diskEntries.map OreFsEntry.name)
  apart : ∀ file ∈ v.files, file.name ≠ diskName ∧ ¬ Above slash diskName file.name

namespace WellFormed

variable (h : v.WellFormed)
include h

theorem wellNamed_files : WellNamed (v.files.map InitramfsFile.stored) :=
  ProperNames.wellNamed (by rw [List.map_map]; exact h.files) (by decide)

theorem wellNamed_entries : WellNamed (v.diskEntries.map OreFsEntry.stored) :=
  ProperNames.wellNamed (by rw [List.map_map]; exact h.entries) (by decide)

theorem statDisk_iff (hq : Canonical slash q) :
    (∃ st, v.statDisk q = some st ∧ st.type = type ∧ st.size = size) ↔
      Found (v.diskEntries.map OreFsEntry.stored) q type size := by
  have hlen : ¬ q.length = 0 := fun hlen => hq.ne_nil (List.length_eq_zero_iff.mp hlen)
  have hpath : diskPath q = none := by
    cases hpath : diskPath q with
    | none => rfl
    | some rel =>
      rcases diskPath_iff.mp hpath with ⟨rfl, -⟩ | rfl
      · exact absurd hq Canonical.not_sep_cons
      · exact absurd hq Canonical.not_sep_cons
  have hlookup : diskLookup v q = v.diskEntries.find? fun entry => strEq entry.stored.name q := by
    rw [diskLookup, hpath, Option.getD_none, stripSlash_of_canonical hq]
    rfl
  unfold statDisk
  rw [if_neg hlen, hlookup]
  cases hfind : v.diskEntries.find? fun entry => strEq entry.stored.name q with
  | some entry =>
    rw [found_of_find_some h.wellNamed_entries hfind]
    simp only [Option.some.injEq, exists_eq_left']
    exact Iff.rfl
  | none =>
    have hchildren : diskHasChildren v q = true ↔
        ∃ entry ∈ v.diskEntries, Above slash q entry.stored.name := by
      rw [diskHasChildren, if_neg hlen]
      simp only [List.any_eq_true, prefix_slash_iff]
      exact Iff.rfl
    rw [found_of_find_none hfind, ← hchildren]
    dsimp only
    split
    next hyes =>
      simp only [Option.some.injEq, exists_eq_left', hyes, true_and]
      exact and_congr eq_comm eq_comm
    next hno => simp [hno]

theorem statInitramfs_iff (hp : Canonical slash (stripSlash p)) :
    (∃ st, v.statInitramfs p = some st ∧ st.type = type ∧ st.size = size) ↔
      Found (v.files.map InitramfsFile.stored) (stripSlash p) type size := by
  have hlookup : initramfsLookupRaw v p =
      v.files.find? fun file => strEq file.stored.name (stripSlash p) := rfl
  unfold statInitramfs
  rw [hlookup]
  cases hfind : v.files.find? fun file => strEq file.stored.name (stripSlash p) with
  | some file =>
    rw [found_of_find_some h.wellNamed_files hfind]
    simp only [Option.some.injEq, exists_eq_left']
    exact Iff.rfl
  | none =>
    have hchildren : pathHasChildren v p = true ↔
        ∃ file ∈ v.files, Above slash (stripSlash p) file.stored.name := by
      rw [pathHasChildren]
      simp only [List.any_eq_true, startsWithDir_iff, hp.ne_nil, false_or]
      exact Iff.rfl
    rw [found_of_find_none hfind, ← hchildren]
    dsimp only
    split
    next hyes =>
      simp only [Option.some.injEq, exists_eq_left', hyes, true_and]
      exact and_congr eq_comm eq_comm
    next hno => simp [hno]

/-- Nothing of the initramfs is found where the disk is mounted. -/
theorem found_apart (hfound : Found (v.files.map InitramfsFile.stored) p type size) :
    p ≠ diskName ∧ ¬ Above slash diskName p := by
  rcases hfound with ⟨file, hfile, rfl, -⟩ | ⟨⟨file, hfile, habove⟩, -⟩
  · obtain ⟨item, hitem, rfl⟩ := List.mem_map.mp hfile
    exact h.apart item hitem
  · obtain ⟨item, hitem, rfl⟩ := List.mem_map.mp hfile
    refine ⟨?_, fun hdisk => (h.apart item hitem).2 (hdisk.trans habove)⟩
    rintro rfl
    exact (h.apart item hitem).2 habove

end WellFormed

/-! ## Listings -/

theorem childOf_name_le (hchild : childOf dir name type size = some st) : st.name.length ≤ 127 := by
  unfold childOf at hchild
  dsimp only at hchild
  generalize (if dir.length ≠ 0 then (name.drop dir.length).tail
    else name.drop dir.length) = rel at hchild
  split at hchild
  next => cases hchild
  next =>
    split at hchild
    next => cases hchild
    next =>
      split at hchild <;>
      · cases hchild
        rw [copyNameLen, List.length_take]
        omega

/-- The directory of the disk in the root. -/
def mountPoint : OreVfsStat :=
  { name := diskName, type := oreVfsDir, size := 0 }

/-- What `vfs_readdir_path` returns, index by index. -/
def listing (v : Vfs) (path : List Byte) : List OreVfsStat :=
  match v.onDisk path with
  | some rel => firsts (diskDirectChild rel) OreVfsStat.name [] v.diskEntries
  | none =>
    let dir := copyName (stripSlash path)
    firsts (directChild dir) OreVfsStat.name [] v.files ++
      if dir.length = 0 ∧ v.diskMounted = true then [mountPoint] else []

/-- Names are short enough to be copied once more. -/
theorem copyName_firsts {α : Type} {items : List α} {entry : α → Option OreVfsStat}
    (hentry : ∀ item st, entry item = some st → st.name.length ≤ 127)
    (hst : st ∈ firsts entry OreVfsStat.name [] items) :
    { st with name := copyName st.name } = st := by
  obtain ⟨⟨item, -, hitem⟩, -⟩ := mem_firsts hst
  rw [copyName_of_le (hentry item st hitem)]

theorem readdirPath_eq (hmounted : v.mounted = true) (path : List Byte) (index : Nat) :
    v.readdirPath path index = (v.listing path)[index]? := by
  unfold readdirPath listing
  rw [hmounted, if_neg (by decide)]
  cases v.onDisk path with
  | some rel =>
    dsimp only
    rw [readdirDisk, nth_eq index (Nat.zero_le _), Nat.sub_zero]
    cases hget : (firsts (diskDirectChild rel) OreVfsStat.name [] v.diskEntries)[index]? with
    | none => rfl
    | some st =>
      exact congrArg some (copyName_firsts (fun _ _ => childOf_name_le) (List.mem_of_getElem? hget))
  | none =>
    rw [readdirInitramfs, nth_eq index (Nat.zero_le _), Nat.sub_zero]
    cases hget : (firsts (directChild (copyName (stripSlash path))) OreVfsStat.name []
        v.files)[index]? with
    | some st =>
      rw [List.getElem?_append_left (List.getElem?_eq_some_iff.mp hget).1, hget]
      exact congrArg some (copyName_firsts (fun _ _ => childOf_name_le) (List.mem_of_getElem? hget))
    | none =>
      rw [List.getElem?_append_right (List.getElem?_eq_none_iff.mp hget), Nat.zero_add]
      have hle := List.getElem?_eq_none_iff.mp hget
      dsimp only
      split
      next hcond =>
        rw [if_pos ⟨hcond.1, hcond.2.1⟩, hcond.2.2, Nat.sub_self]
        rfl
      next hcond =>
        split
        next hdir =>
          have hne : index - (firsts (directChild (copyName (stripSlash path))) OreVfsStat.name []
              v.files).length ≠ 0 := fun hzero => hcond ⟨hdir.1, hdir.2, by omega⟩
          exact (List.getElem?_eq_none (Nat.one_le_iff_ne_zero.mpr hne)).symm
        next => rfl

theorem readdir_name_le {path : List Byte} {index : Nat}
    (hst : v.readdirPath path index = some st) : st.name.length ≤ 127 := by
  have hmounted : v.mounted = true := by
    by_contra hnot
    rw [readdirPath, if_pos (Bool.eq_false_iff.mpr hnot)] at hst
    cases hst
  rw [readdirPath_eq hmounted, listing] at hst
  have hmem := List.mem_of_getElem? hst
  split at hmem
  next =>
    obtain ⟨⟨entry, -, hchild⟩, -⟩ := mem_firsts hmem
    exact childOf_name_le hchild
  next =>
    rcases List.mem_append.mp hmem with hmem | hmem
    · obtain ⟨⟨file, -, hchild⟩, -⟩ := mem_firsts hmem
      exact childOf_name_le hchild
    · split at hmem
      next =>
        obtain rfl := List.mem_singleton.mp hmem
        decide
      next => cases hmem

theorem nodup_listing (h : v.WellFormed) (path : List Byte) :
    ((v.listing path).map OreVfsStat.name).Nodup := by
  unfold listing
  cases v.onDisk path with
  | some rel => exact nodup_firsts
  | none =>
    dsimp only
    split
    next hroot =>
      rw [List.map_append, List.nodup_append]
      refine ⟨nodup_firsts, List.nodup_singleton _, fun n hn m hm hnm => ?_⟩
      -- No file of the initramfs is in a directory `disk`.
      obtain ⟨st, hst, rfl⟩ := List.mem_map.mp hn
      obtain rfl : m = diskName := List.mem_singleton.mp hm
      obtain ⟨⟨file, hfile, hchild⟩, -⟩ := mem_firsts hst
      obtain ⟨-, hfound⟩ := (h.wellNamed_files.child_iff _).mp
        ⟨file.stored, List.mem_map_of_mem hfile, hchild⟩
      rw [List.length_eq_zero_iff.mp hroot.1] at hfound
      exact (h.found_apart hfound).1 hnm
    next =>
      rw [List.append_nil]
      exact nodup_firsts

/-- Where something is found is one path; so a name that is listed says what. -/
theorem mem_firsts_child {α : Type} {items : List α} {stored : α → OreVfsStat}
    (h : WellNamed (items.map stored)) (dir : List Byte) :
    st ∈ firsts (fun item => childOf dir (stored item).name (stored item).type (stored item).size)
        OreVfsStat.name [] items ↔
      slash ∉ st.name ∧ Found (items.map stored) (under dir st.name) st.type st.size := by
  have hchild : ∀ {st}, (∃ item ∈ items,
      childOf dir (stored item).name (stored item).type (stored item).size = some st) ↔
      slash ∉ st.name ∧ Found (items.map stored) (under dir st.name) st.type st.size := by
    intro st
    rw [← h.child_iff dir]
    simp only [List.mem_map, exists_exists_and_eq_and]
  rw [mem_firsts_iff, hchild]
  rintro a ha a' ha' b b' hb hb' hkey
  obtain ⟨-, hfound⟩ := hchild.mp ⟨a, ha, hb⟩
  obtain ⟨-, hfound'⟩ := hchild.mp ⟨a', ha', hb'⟩
  rw [← hkey] at hfound'
  obtain ⟨htype, hsize⟩ := h.found_unique hfound hfound'
  exact OreVfsStat.ext hkey htype hsize

theorem onDisk_iff : v.onDisk p = some rel ↔ v.diskMounted = true ∧
    (p = slash :: diskName ∧ rel = [] ∨ p = slash :: diskName ++ slash :: rel) := by
  unfold onDisk
  split
  next hdisk => rw [diskPath_iff, and_iff_right hdisk]
  next hdisk => exact iff_of_false nofun fun hcon => hdisk hcon.1

/-! ## Paths of directories -/

/-- The path of a name in a directory. -/
def joinPath (dir name : List Byte) : List Byte :=
  if dir.getLast? = some slash then dir ++ name else dir ++ slash :: name

/-- The directory that a path is in. -/
def parentDir (path : List Byte) : List Byte :=
  if parentPart slash path = [] then [slash] else parentPart slash path

/-- The last component of a path. -/
def baseName (path : List Byte) : List Byte :=
  lastPart slash path

theorem stat_of_onDisk (h : v.WellFormed) (hp : v.onDisk p = some rel) : v.stat p = v.statDisk rel := by
  have hne : p ≠ [slash] := by
    rintro rfl
    rcases (onDisk_iff.mp hp).2 with ⟨hcon, -⟩ | hcon
    · cases hcon
    · cases hcon
  rw [stat, h.mounted, if_neg (by decide), if_neg hne, hp]

theorem stat_of_not_onDisk (h : v.WellFormed) (hp : v.onDisk p = none)
    (hq : Canonical slash (stripSlash p)) : v.stat p = v.statInitramfs p := by
  have hne : p ≠ [slash] := by
    rintro rfl
    exact not_canonical_nil hq
  rw [stat, h.mounted, if_neg (by decide), if_neg hne, hp]

/-- A path that strips to something found in the initramfs is not below `/disk`. -/
theorem onDisk_of_found (h : v.WellFormed)
    (hfound : Found (v.files.map InitramfsFile.stored) (stripSlash p) type size) :
    v.onDisk p = none := by
  cases hdisk : v.onDisk p with
  | none => rfl
  | some rel =>
    obtain ⟨hname, habove⟩ := h.found_apart hfound
    rcases (onDisk_iff.mp hdisk).2 with ⟨rfl, -⟩ | rfl
    · exact absurd rfl hname
    · exact absurd (above_iff.mpr ⟨rel, rfl⟩) habove

theorem stripSlash_eq_nil (hp : stripSlash p = []) : p = [] ∨ p = [slash] := by
  cases p with
  | nil => exact .inl rfl
  | cons x p =>
    unfold stripSlash at hp
    split at hp
    next hx =>
      obtain rfl : x = slash := hx
      exact .inr (congrArg (slash :: ·) hp)
    next => cases hp

theorem stripSlash_cases (p : List Byte) : p = stripSlash p ∨ p = slash :: stripSlash p := by
  cases p with
  | nil => exact .inl rfl
  | cons x p =>
    unfold stripSlash
    split
    next hx =>
      obtain rfl : x = slash := hx
      exact .inr rfl
    next => exact .inl rfl

theorem stripSlash_joinPath (hq : Canonical slash (under (stripSlash dir) name)) :
    stripSlash (joinPath dir name) = under (stripSlash dir) name := by
  by_cases hdir : stripSlash dir = []
  · rcases stripSlash_eq_nil hdir with rfl | rfl
    · rfl
    · rfl
  · have hcanonical : Canonical slash (stripSlash dir) := by
      rw [under, if_neg hdir] at hq
      exact (canonical_append.mp hq).1
    have hlast : dir.getLast? ≠ some slash := by
      rcases stripSlash_cases dir with heq | heq
      · rw [heq]
        exact hcanonical.getLast?_ne
      · rw [heq, List.getLast?_cons_of_ne_nil hdir]
        exact hcanonical.getLast?_ne
    rw [joinPath, if_neg hlast]
    rw [under, if_neg hdir] at hq ⊢
    rcases stripSlash_cases dir with heq | heq
    · rw [← heq] at hq ⊢
      exact stripSlash_of_canonical hq
    · rw [heq, List.cons_append, stripSlash_slash]
      rw [← heq]

theorem onDisk_joinPath (hdisk : v.onDisk dir = some rel) (hq : Canonical slash (under rel name)) :
    v.onDisk (joinPath dir name) = some (under rel name) := by
  obtain ⟨hmounted, ⟨rfl, rfl⟩ | rfl⟩ := onDisk_iff.mp hdisk
  · exact onDisk_iff.mpr ⟨hmounted, .inr rfl⟩
  · refine onDisk_iff.mpr ⟨hmounted, .inr ?_⟩
    unfold under at hq ⊢
    split at hq
    next hrel =>
      subst hrel
      rfl
    next hrel =>
      have hlast : (slash :: diskName ++ slash :: rel).getLast? ≠ some slash := by
        rw [List.getLast?_append_cons, List.getLast?_cons_of_ne_nil hrel]
        exact (canonical_append.mp hq).1.getLast?_ne
      rw [joinPath, if_neg hlast, if_neg hrel, List.append_assoc]
      rfl

/-- What a directory lists is there, at the directory's path with the name. -/
theorem stat_of_mem_listing (h : v.WellFormed) (hst : st ∈ v.listing dir) :
    ∃ st', v.stat (joinPath dir st.name) = some st' ∧ st'.type = st.type ∧ st'.size = st.size := by
  unfold listing at hst
  cases hdisk : v.onDisk dir with
  | some rel =>
    rw [hdisk] at hst
    obtain ⟨-, hfound⟩ := (mem_firsts_child h.wellNamed_entries rel).mp hst
    have hq := h.wellNamed_entries.found_canonical hfound
    rw [stat_of_onDisk h (onDisk_joinPath hdisk hq)]
    exact (h.statDisk_iff hq).mpr hfound
  | none =>
    rw [hdisk] at hst
    rcases List.mem_append.mp hst with hst | hst
    · obtain ⟨-, hfound⟩ := (mem_firsts_child h.wellNamed_files _).mp hst
      have hdir : copyName (stripSlash dir) = stripSlash dir := by
        refine copyName_of_le ?_
        have hlen := h.wellNamed_files.found_length hfound
        by_contra hlong
        rw [under, if_neg, List.length_append, List.length_cons, copyName, List.length_take]
          at hlen
        · omega
        · intro hnil
          rw [copyName, List.take_eq_nil_iff] at hnil
          rcases hnil with hnil | hnil
          · cases hnil
          · rw [hnil] at hlong
            exact hlong (Nat.zero_le _)
      rw [hdir] at hfound
      have hq := h.wellNamed_files.found_canonical hfound
      rw [← stripSlash_joinPath hq] at hfound hq
      rw [stat_of_not_onDisk h (onDisk_of_found h hfound) hq]
      exact (h.statInitramfs_iff hq).mpr hfound
    · split at hst
      next hroot =>
        obtain rfl := List.mem_singleton.mp hst
        have hjoin : joinPath dir mountPoint.name = slash :: diskName := by
          have hnil : stripSlash dir = [] := by
            have := List.length_eq_zero_iff.mp hroot.1
            rw [copyName, List.take_eq_nil_iff] at this
            exact this.resolve_left nofun
          rcases stripSlash_eq_nil hnil with rfl | rfl
          · rfl
          · rfl
        rw [hjoin, stat_of_onDisk h (onDisk_iff.mpr ⟨hroot.2, .inl ⟨rfl, rfl⟩⟩)]
        exact ⟨mountPoint, rfl, rfl, rfl⟩
      next => cases hst

theorem parentDir_append (hb : slash ∉ b) (ha : a ≠ []) : parentDir (a ++ slash :: b) = a := by
  rw [parentDir, parentPart_append hb, if_neg ha]

theorem baseName_append (a : List Byte) (hb : slash ∉ b) : baseName (a ++ slash :: b) = b :=
  lastPart_append hb

/-- What is in a directory below `/disk` is below `/disk`. -/
theorem onDisk_append (h : v.onDisk a = some rel) (b : List Byte) :
    ∃ rel', v.onDisk (a ++ slash :: b) = some rel' := by
  obtain ⟨hmounted, ⟨rfl, rfl⟩ | rfl⟩ := onDisk_iff.mp h
  · exact ⟨b, onDisk_iff.mpr ⟨hmounted, .inr rfl⟩⟩
  · refine ⟨rel ++ slash :: b, onDisk_iff.mpr ⟨hmounted, .inr ?_⟩⟩
    rfl

theorem onDisk_root : v.onDisk [slash] = none := by
  unfold onDisk
  split
  · rfl
  · rfl

/-- What is on the disk is listed by the directory that it is in. -/
theorem mem_listing_of_statDisk (h : v.WellFormed) (hmounted : v.diskMounted = true)
    (hrel : Canonical slash rel) (hst : v.statDisk rel = some st) :
    { st with name := baseName (slash :: diskName ++ slash :: rel) } ∈
      v.listing (parentDir (slash :: diskName ++ slash :: rel)) := by
  have hfound := (h.statDisk_iff hrel).mp ⟨st, hst, rfl, rfl⟩
  by_cases hslash : slash ∈ rel
  · obtain ⟨a, b, rfl, hb⟩ := exists_last hslash
    have ha := (canonical_append.mp hrel).1.ne_nil
    have hsplit : slash :: diskName ++ slash :: (a ++ slash :: b) =
        (slash :: diskName ++ slash :: a) ++ slash :: b := by
      rfl
    rw [hsplit, parentDir_append hb (by simp), baseName_append _ hb, listing,
      onDisk_iff.mpr ⟨hmounted, .inr rfl⟩]
    refine (mem_firsts_child h.wellNamed_entries a).mpr ⟨hb, ?_⟩
    rwa [under, if_neg ha]
  · rw [parentDir_append hslash (by simp), baseName_append _ hslash, listing,
      onDisk_iff.mpr ⟨hmounted, .inl ⟨rfl, rfl⟩⟩]
    exact (mem_firsts_child h.wellNamed_entries []).mpr ⟨hslash, hfound⟩

theorem mem_listing_of_statInitramfs (h : v.WellFormed) (hq : Canonical slash q)
    (hdisk : v.onDisk (slash :: q) = none) (hst : v.statInitramfs (slash :: q) = some st) :
    { st with name := baseName (slash :: q) } ∈ v.listing (parentDir (slash :: q)) := by
  have hfound : Found (v.files.map InitramfsFile.stored) q st.type st.size :=
    (h.statInitramfs_iff (p := slash :: q) hq).mp ⟨st, hst, rfl, rfl⟩
  by_cases hslash : slash ∈ q
  · obtain ⟨a, b, rfl, hb⟩ := exists_last hslash
    have ha := (canonical_append.mp hq).1.ne_nil
    have hparent : v.onDisk (slash :: a) = none := by
      cases hcon : v.onDisk (slash :: a) with
      | none => rfl
      | some rel =>
        obtain ⟨rel', hrel'⟩ := onDisk_append hcon b
        rw [List.cons_append, hdisk] at hrel'
        cases hrel'
    have hlen : a.length ≤ 127 := by
      have := h.wellNamed_files.found_length hfound
      rw [List.length_append] at this
      omega
    rw [← List.cons_append, parentDir_append hb (by simp), baseName_append _ hb, listing, hparent]
    refine List.mem_append_left _ ((mem_firsts_child h.wellNamed_files _).mpr ⟨hb, ?_⟩)
    rwa [stripSlash_slash, copyName_of_le hlen, under, if_neg ha]
  · have hparent : parentDir (slash :: q) = [slash] := by
      rw [parentDir, ← List.nil_append (slash :: q), parentPart_append hslash, if_pos rfl]
    have hbase : baseName (slash :: q) = q := baseName_append [] hslash
    rw [hparent, hbase, listing, onDisk_root]
    exact List.mem_append_left _ ((mem_firsts_child h.wellNamed_files []).mpr ⟨hslash, hfound⟩)

/-- What is there is listed by the directory that it is in. -/
theorem mem_listing_of_stat (h : v.WellFormed) (hq : Canonical slash q)
    (hst : v.stat (slash :: q) = some st) :
    { st with name := baseName (slash :: q) } ∈ v.listing (parentDir (slash :: q)) := by
  cases hdisk : v.onDisk (slash :: q) with
  | some rel =>
    rw [stat_of_onDisk h hdisk] at hst
    obtain ⟨hmounted, ⟨heq, rfl⟩ | heq⟩ := onDisk_iff.mp hdisk
    · cases hst
      have hparent : parentDir (slash :: diskName) = [slash] := rfl
      have hbase : baseName (slash :: diskName) = diskName := rfl
      rw [heq, hparent, hbase, listing, onDisk_root]
      refine List.mem_append_right _ ?_
      rw [if_pos ⟨rfl, hmounted⟩]
      exact List.mem_singleton_self _
    · obtain rfl : q = diskName ++ slash :: rel := (List.cons.inj heq).2
      exact mem_listing_of_statDisk h hmounted (canonical_append.mp hq).2 hst
  | none =>
    rw [stat_of_not_onDisk h hdisk hq] at hst
    exact mem_listing_of_statInitramfs h hq hdisk hst

/-- `vfs_readdir_path` lists what `vfs_stat` finds, and all of it, once. -/
theorem readdir_agrees_with_stat {v : Vfs} (h : v.WellFormed) :
    (∀ dir index st, v.readdirPath dir index = some st →
      ∃ st', v.stat (joinPath dir st.name) = some st' ∧
        st'.type = st.type ∧ st'.size = st.size) ∧
    ∀ q st, Canonical slash q → v.stat (slash :: q) = some st →
      ∃ index, v.readdirPath (parentDir (slash :: q)) index =
          some { st with name := baseName (slash :: q) } ∧
        ∀ index' st', v.readdirPath (parentDir (slash :: q)) index' = some st' →
          st'.name = baseName (slash :: q) → index' = index := by
  refine ⟨fun dir index st hst => ?_, fun q st hq hst => ?_⟩
  · rw [readdirPath_eq h.mounted] at hst
    exact stat_of_mem_listing h (List.mem_of_getElem? hst)
  · simp only [readdirPath_eq h.mounted]
    exact exists_index_of_nodup (nodup_listing h _) (mem_listing_of_stat h hq hst)

/-- `bin/sh` and `init` in the initramfs, `apps/a` and `apps/b` on the disk. -/
def twoMounts : Vfs where
  mounted := true
  diskMounted := true
  files :=
    [{ name := [0x62, 0x69, 0x6e, slash, 0x73, 0x68], data := fun _ => 0, size := 3, type := oreVfsFile },
      { name := [0x69, 0x6e, 0x69, 0x74], data := fun _ => 0, size := 4, type := oreVfsFile }]
  diskEntries :=
    [{ name := [0x61, 0x70, 0x70, 0x73, slash, 0x61], offset := 512, size := 5, type := oreVfsFile },
      { name := [0x61, 0x70, 0x70, 0x73, slash, 0x62], offset := 1024, size := 6, type := oreVfsFile }]

theorem wellFormed_twoMounts : twoMounts.WellFormed :=
  ⟨rfl, ⟨by decide, by decide, by decide, by decide⟩, ⟨by decide, by decide, by decide, by decide⟩,
    by decide⟩

/-- `/disk/apps/b` is listed by `/disk/apps`. -/
theorem readdir_agrees_with_stat_twoMounts :
    ∃ index, twoMounts.readdirPath (slash :: diskName ++ [slash, 0x61, 0x70, 0x70, 0x73]) index =
      some { name := [0x62], type := oreVfsFile, size := 6 } := by
  obtain ⟨index, hindex, -⟩ := (readdir_agrees_with_stat wellFormed_twoMounts).2
    (diskName ++ [slash, 0x61, 0x70, 0x70, 0x73, slash, 0x62]) _ (by decide) rfl
  exact ⟨index, hindex⟩

end Vfs

end OreOS.Kernel
