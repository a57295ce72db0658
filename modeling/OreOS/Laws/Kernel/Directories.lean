import OreOS.Laws.Kernel.Vfs

/-!
# The listing of a directory on the disk

`vfs_readdir_path` compares strings byte by byte and starts over at every call.
Said in components: an entry whose name starts with the components of the
directory puts its next component into it, and each name is listed once, where
it first comes up (`readdir_disk_lists`). Stored names must be canonical, but
they can repeat.
-/

namespace OreOS.Kernel

open OreOS.Lib

variable {v : Vfs} {q rel name : List Byte} {dir : List (List Byte)} {st : OreVfsStat}

/-- What an entry of the disk puts into a directory, both as components: the next
component of its name, as a directory if more follow. -/
def entryBelow (dir : List (List Byte)) (entry : OreFsEntry) : Option OreVfsStat :=
  let parts := entry.name.splitOn slash
  if dir <+: parts then
    match parts.drop dir.length with
    | [] => none
    | [child] => some { name := child, type := entry.type, size := entry.size }
    | child :: _ :: _ => some { name := child, type := Vfs.oreVfsDir, size := 0 }
  else none

theorem entryBelow_iff {entry : OreFsEntry} :
    entryBelow dir entry = some st ↔
      entry.name.splitOn slash = dir ++ [st.name] ∧ st.type = entry.type ∧ st.size = entry.size ∨
      (∃ part more, entry.name.splitOn slash = dir ++ st.name :: part :: more) ∧
        st.type = Vfs.oreVfsDir ∧ st.size = 0 := by
  unfold entryBelow
  dsimp only
  by_cases hdir : dir <+: entry.name.splitOn slash
  · obtain ⟨below, hbelow⟩ := hdir
    rw [← hbelow, if_pos (List.prefix_append _ _), List.drop_left]
    simp only [List.append_cancel_left_eq]
    rcases below with _ | ⟨child, _ | ⟨part, more⟩⟩
    · simp
    · constructor
      · intro h
        cases h
        exact .inl ⟨rfl, rfl, rfl⟩
      · rintro (⟨hname, htype, hsize⟩ | ⟨⟨part, more, hname⟩, -⟩)
        · cases hname
          rw [← htype, ← hsize]
        · cases hname
    · constructor
      · intro h
        cases h
        exact .inr ⟨⟨part, more, rfl⟩, rfl, rfl⟩
      · rintro (⟨hname, -⟩ | ⟨⟨part', more', hname⟩, htype, hsize⟩)
        · cases hname
        · cases hname
          rw [← htype, ← hsize]
  · rw [if_neg hdir]
    refine iff_of_false nofun ?_
    rintro (⟨heq, -⟩ | ⟨⟨part, more, heq⟩, -⟩)
    · exact hdir ⟨_, heq.symm⟩
    · exact hdir ⟨_, heq.symm⟩

/-- The components of a directory's path; the top one has none. -/
def components (rel : List Byte) : List (List Byte) :=
  if rel = [] then [] else rel.splitOn slash

theorem splitOn_under (dir rel : List Byte) :
    (under dir rel).splitOn slash = components dir ++ rel.splitOn slash := by
  unfold under components
  split
  · rfl
  · exact List.splitOn_append_cons_self dir rel

/-- A name that starts with the components of a directory is one below it. -/
theorem eq_under_of_splitOn {dir : List Byte} {parts : List (List Byte)}
    (h : name.splitOn slash = components dir ++ parts) (hparts : parts ≠ []) :
    name = under dir ([slash].intercalate parts) := by
  have hsep : ∀ part ∈ parts, slash ∉ part := by
    intro part hpart
    exact sep_notMem_splitOn part (h ▸ List.mem_append_right _ hpart)
  have hjoin : [slash].intercalate (name.splitOn slash) = name := List.intercalate_splitOn slash
  rw [← hjoin, h,
    ← List.splitOn_intercalate slash hsep hparts, ← splitOn_under, List.intercalate_splitOn,
    List.splitOn_intercalate slash hsep hparts]

theorem diskDirectChild_eq {dir : List Byte} {entry : OreFsEntry}
    (hcanonical : Canonical slash entry.name) (hlen : entry.name.length ≤ 127) :
    diskDirectChild dir entry = entryBelow (components dir) entry := by
  refine Option.ext fun st => ?_
  rw [diskDirectChild, childOf_iff hcanonical hlen, entryBelow_iff]
  constructor
  · rintro ⟨hslash, ⟨hname, hst⟩ | ⟨habove, hst⟩⟩
    · refine .inl ⟨?_, hst⟩
      rw [hname, splitOn_under, List.splitOn_eq_singleton hslash]
    · obtain ⟨r, hr⟩ := above_iff.mp habove
      obtain ⟨part, more, hmore⟩ := List.exists_cons_of_ne_nil (List.splitOn_ne_nil slash r)
      refine .inr ⟨⟨part, more, ?_⟩, hst⟩
      rw [hr, List.splitOn_append_cons_self, splitOn_under, List.splitOn_eq_singleton hslash, hmore,
        List.append_assoc, List.singleton_append]
  · rintro (⟨hname, hst⟩ | ⟨⟨part, more, hname⟩, hst⟩)
    · have hmem : st.name ∈ entry.name.splitOn slash := by simp [hname]
      refine ⟨sep_notMem_splitOn _ hmem, .inl ⟨?_, hst⟩⟩
      rw [eq_under_of_splitOn hname (List.cons_ne_nil _ _), List.intercalate_singleton]
    · have hmem : st.name ∈ entry.name.splitOn slash := by simp [hname]
      refine ⟨sep_notMem_splitOn _ hmem, .inr ⟨above_iff.mpr ?_, hst⟩⟩
      refine ⟨[slash].intercalate (part :: more), ?_⟩
      rw [eq_under_of_splitOn hname (List.cons_ne_nil _ _), List.intercalate_cons_cons,
        List.append_assoc, under_append, List.singleton_append]

namespace Vfs

theorem onDisk_of_splitOn (hmounted : v.diskMounted = true)
    (hdir : q.splitOn slash = diskName :: dir) (hq : Canonical slash q) :
    ∃ rel, v.onDisk (slash :: q) = some rel ∧ components rel = dir := by
  have hjoin : [slash].intercalate (q.splitOn slash) = q := List.intercalate_splitOn slash
  cases dir with
  | nil =>
    refine ⟨[], onDisk_iff.mpr ⟨hmounted, .inl ⟨?_, rfl⟩⟩, rfl⟩
    rw [← hjoin, hdir, List.intercalate_singleton]
  | cons part more =>
    have hsep : ∀ c ∈ part :: more, slash ∉ c := fun c hc =>
      sep_notMem_splitOn c (hdir ▸ List.mem_cons_of_mem _ hc)
    have hname : q = diskName ++ slash :: [slash].intercalate (part :: more) := by
      rw [← hjoin, hdir, List.intercalate_cons_cons,
        List.append_assoc, List.singleton_append]
    refine ⟨[slash].intercalate (part :: more), onDisk_iff.mpr ⟨hmounted, .inr ?_⟩, ?_⟩
    · rw [hname]
      rfl
    · have hne : [slash].intercalate (part :: more) ≠ [] :=
        (canonical_append.mp (hname ▸ hq)).2.ne_nil
      rw [components, if_neg hne, List.splitOn_intercalate slash hsep (List.cons_ne_nil _ _)]

/-- The listing of a directory of the disk, at `/disk` or below it: the calls
succeed for the indices below a number, and return the next components of the
entries' names in the order in which they first occur, each with the type and
size that the first entry with it gives. -/
theorem readdir_disk_lists (hmounted : v.mounted = true) (hdisk : v.diskMounted = true)
    (hnames : ∀ entry ∈ v.diskEntries, entry.name.length < 96 ∧ Canonical slash entry.name)
    (hq : Canonical slash q) (hdir : q.splitOn slash = diskName :: dir) :
    ∃ l : List OreVfsStat, (∀ index, v.readdirPath (slash :: q) index = l[index]?) ∧
      ListsFirsts (entryBelow dir) OreVfsStat.name v.diskEntries l := by
  obtain ⟨rel, hrel, rfl⟩ := onDisk_of_splitOn hdisk hdir hq
  refine ⟨_, fun index => readdirPath_eq hmounted (slash :: q) index, ?_⟩
  have heq : ∀ entry ∈ v.diskEntries,
      diskDirectChild rel entry = entryBelow (components rel) entry := by
    intro entry hentry
    obtain ⟨hlen, hcanonical⟩ := hnames entry hentry
    exact diskDirectChild_eq hcanonical (by omega)
  rw [listing, hrel]
  dsimp only
  rw [firsts_congr (by simp) heq]
  exact listsFirsts_firsts v.diskEntries

/-- `a/b`, `ab`, `a/c`, a file `a` and `ab` once more. -/
def sharedNames : Vfs where
  mounted := true
  diskMounted := true
  files := []
  diskEntries :=
    [{ name := [0x61, slash, 0x62], offset := 512, size := 5, type := oreVfsFile },
      { name := [0x61, 0x62], offset := 1024, size := 6, type := oreVfsFile },
      { name := [0x61, slash, 0x63], offset := 1536, size := 7, type := oreVfsFile },
      { name := [0x61], offset := 2048, size := 8, type := oreVfsFile },
      { name := [0x61, 0x62], offset := 2560, size := 9, type := oreVfsFile }]

/-- `/disk` lists the directory `a` and the first `ab`. -/
theorem readdir_disk_lists_sharedNames :
    (∃ l : List OreVfsStat, (∀ index, sharedNames.readdirPath (slash :: diskName) index = l[index]?) ∧
      ListsFirsts (entryBelow []) OreVfsStat.name sharedNames.diskEntries l) ∧
    sharedNames.readdirPath (slash :: diskName) 0 =
      some { name := [0x61], type := oreVfsDir, size := 0 } ∧
    sharedNames.readdirPath (slash :: diskName) 1 =
      some { name := [0x61, 0x62], type := oreVfsFile, size := 6 } ∧
    sharedNames.readdirPath (slash :: diskName) 2 = none :=
  ⟨readdir_disk_lists rfl rfl (by decide) (by decide) (by decide), by decide, by decide, by decide⟩

end Vfs

end OreOS.Kernel
