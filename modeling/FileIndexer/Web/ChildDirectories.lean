import FileIndexer.Service.Indexer.Preview
import FileIndexer.Service.Search.Browse

namespace FileIndexer

namespace Search

section Fetch

variable {τ : Type} [DecidableEq τ] (c : TokenCodec τ) (x : TextSearch) (ix : FileIndex)

-- no page token is sent as the empty one, and no page size as 0
def fetchPage (path : Key) (pageToken : τ) : Except Status (ListDirectoryResponse τ) :=
  Rpc.listDirectory c x ix ⟨path, 0, pageToken, .key, .asc⟩

-- none where the loop has not ended within its fuel
def FolderTree.fetchChildDirectories (path : Key) :
    Nat → τ → Option (Except Status (List Key))
  | 0, _ => none
  | fuel + 1, pageToken =>
    match fetchPage c x ix path pageToken with
    | .error e => some (.error e)
    | .ok page =>
      if page.files ≠ [] ∨ page.nextPageToken = c.empty then some (.ok page.directories)
      else (fetchChildDirectories path fuel page.nextPageToken).map fun r =>
        r.map (page.directories ++ ·)

def MoveFileDialog.maxPages : Nat := 100

def MoveFileDialog.fetchPages (path : Key) : Nat → τ → Except Status (List Key)
  | 0, _ => .ok []
  | pages + 1, pageToken =>
    match fetchPage c x ix path pageToken with
    | .error e => .error e
    | .ok page =>
      if page.nextPageToken = c.empty then .ok page.directories
      else (fetchPages path pages page.nextPageToken).map (page.directories ++ ·)

def MoveFileDialog.fetchChildDirectories (path : Key) : Except Status (List Key) :=
  MoveFileDialog.fetchPages c x ix path MoveFileDialog.maxPages c.empty

end Fetch

section Pages

variable {τ : Type} [DecidableEq τ] {c : TokenCodec τ} {x : TextSearch} {ix : FileIndex}
  {path dir : Key}

def Serves (c : TokenCodec τ) (x : TextSearch) (ix : FileIndex) (dir : Key) (pageToken : τ)
    (dirs : List Key) (files : List FileInfo) : Prop :=
  ∃ pos : ListPosition .key .asc, Resumes c dir .key .asc pageToken pos ∧
    Paging.remaining (entryPosition .key .asc) pos.after (ix.children x dir) =
      DirectoryPage.entries (dirs, files)

omit [DecidableEq τ] in
theorem serves_empty (c : TokenCodec τ) (x : TextSearch) (ix : FileIndex) (dir : Key) :
    ∃ files, Serves c x ix dir c.empty (ix.directories.children dir) files ∧
      files.length = (ix.childFiles x dir).length := by
  have hrest := remaining_directories_phase .key .asc x ix dir none
  have hdirs : Paging.remaining id none (ix.directories.children dir) =
      ix.directories.children dir := by
    simp [Paging.remaining, Directories.insertionSort_children]
  rw [hdirs] at hrest
  refine ⟨Paging.remaining (position .key .asc) none (ix.childFiles x dir), ⟨_, .first, hrest⟩, ?_⟩
  rw [Paging.remaining, List.length_insertionSort]
  simp

structure Serves.Page (c : TokenCodec τ) (x : TextSearch) (ix : FileIndex) (dir : Key)
    (dirsLeft : List Key) (filesLeft : List FileInfo) (page : ListDirectoryResponse τ) : Prop where
  directories : page.directories = dirsLeft.take defaultPageSize
  files : page.files = filesLeft.take (defaultPageSize - dirsLeft.length)
  last : dirsLeft.length + filesLeft.length ≤ defaultPageSize → page.nextPageToken = c.empty
  next : defaultPageSize < dirsLeft.length + filesLeft.length → page.nextPageToken ≠ c.empty ∧
    Serves c x ix dir page.nextPageToken (dirsLeft.drop defaultPageSize)
      (filesLeft.drop (defaultPageSize - dirsLeft.length))

theorem entries_injective {page page' : DirectoryPage} (h : page.entries = page'.entries) :
    page = page' := by
  have hl := congrArg (List.filterMap Sum.getLeft?) h
  have hr := congrArg (List.filterMap Sum.getRight?) h
  simp only [DirectoryPage.entries, List.filterMap_append, List.filterMap_map, Function.comp_def,
    Sum.getLeft?_inl, Sum.getLeft?_inr, Sum.getRight?_inl, Sum.getRight?_inr, List.filterMap_some,
    List.filterMap_none, List.append_nil, List.nil_append] at hl hr
  exact Prod.ext hl hr

theorem take_entries (dirs : List Key) (files : List FileInfo) (n : Nat) :
    (DirectoryPage.entries (dirs, files)).take n =
      DirectoryPage.entries (dirs.take n, files.take (n - dirs.length)) := by
  simp only [DirectoryPage.entries, List.take_append, List.length_map, List.map_take]

theorem drop_entries (dirs : List Key) (files : List FileInfo) (n : Nat) :
    (DirectoryPage.entries (dirs, files)).drop n =
      DirectoryPage.entries (dirs.drop n, files.drop (n - dirs.length)) := by
  simp only [DirectoryPage.entries, List.drop_append, List.length_map, List.map_drop]

theorem Serves.page {pageToken : τ} {dirs : List Key} {files : List FileInfo}
    (hpath : normalizeDirPath path = .ok dir) (h : Serves c x ix dir pageToken dirs files) :
    ∃ page, fetchPage c x ix path pageToken = .ok page ∧
      Serves.Page c x ix dir dirs files page := by
  obtain ⟨pos, hresume, hrest⟩ := h
  let req : ListDirectoryRequest τ := ⟨path, 0, pageToken, .key, .asc⟩
  have hreq : normalizeDirPath req.path = .ok dir := hpath
  obtain ⟨page, hpage, hentries, hlast, hnext⟩ := Rpc.listDirectory_answers x ix hreq hresume 0
  have hshown : DirectoryPage.entries (page.directories, page.files) = DirectoryPage.entries
      (dirs.take defaultPageSize, files.take (defaultPageSize - dirs.length)) := by
    rw [← take_entries, ← hrest]
    exact hentries
  have htrunc : Paging.isTruncated (entryPosition .key .asc) pos.after defaultPageSize
      (ix.children x dir) = decide (defaultPageSize < dirs.length + files.length) := by
    rw [Paging.isTruncated, hrest, DirectoryPage.entries, List.length_append, List.length_map,
      List.length_map]
  obtain ⟨hdirs, hfiles⟩ := Prod.mk.inj (entries_injective hshown)
  refine ⟨page, hpage, hdirs, hfiles, fun hle => ?_, fun hlt => ?_⟩
  · exact hlast (htrunc.trans (decide_eq_false (not_lt.mpr hle)))
  · obtain ⟨hne, pos', b, hresume', hb, hcut⟩ := hnext (htrunc.trans (decide_eq_true hlt))
    have hafter : (show ListPosition .key .asc from pos').after = some b := hb
    refine ⟨hne, pos', hresume', ?_⟩
    rw [hafter, ← drop_entries, ← hrest]
    exact hcut.remaining_eq (nodup_entryPositions .key .asc ix x dir)

theorem FolderTree.fetch_eq (hpath : normalizeDirPath path = .ok dir) {fuel : Nat} {pageToken : τ}
    {dirs : List Key} {files : List FileInfo} (h : Serves c x ix dir pageToken dirs files)
    (hfuel : dirs.length + files.length < fuel) :
    FolderTree.fetchChildDirectories c x ix path fuel pageToken = some (.ok dirs) := by
  induction fuel generalizing pageToken dirs files with
  | zero => omega
  | succ fuel ih =>
    obtain ⟨page, hfetch, hpage⟩ := h.page hpath
    have hpos : 0 < defaultPageSize := by decide
    rw [fetchChildDirectories, hfetch]
    simp only
    split
    · rename_i hstop
      have hall : dirs.length ≤ defaultPageSize := by
        rcases hstop with hsome | hempty
        · rw [hpage.files] at hsome
          by_contra hlt
          have hzero : defaultPageSize - dirs.length = 0 := by omega
          rw [hzero] at hsome
          exact hsome List.take_zero
        · by_contra hlt
          exact (hpage.next (by omega)).1 hempty
      rw [hpage.directories, List.take_of_length_le hall]
    · rename_i hmore
      simp only [not_or, not_not] at hmore
      have hlt : defaultPageSize < dirs.length + files.length := by
        by_contra hle
        exact hmore.2 (hpage.last (by omega))
      rw [ih (hpage.next hlt).2 (by simp only [List.length_drop]; omega), hpage.directories]
      simp [Except.map, List.take_append_drop]

theorem MoveFileDialog.fetchPages_eq (hpath : normalizeDirPath path = .ok dir) {pages : Nat}
    {pageToken : τ} {dirs : List Key} {files : List FileInfo}
    (h : Serves c x ix dir pageToken dirs files) :
    MoveFileDialog.fetchPages c x ix path pages pageToken =
      .ok (dirs.take (pages * defaultPageSize)) := by
  induction pages generalizing pageToken dirs files with
  | zero => simp [fetchPages]
  | succ pages ih =>
    obtain ⟨page, hfetch, hpage⟩ := h.page hpath
    rw [fetchPages, hfetch]
    simp only
    split
    · rename_i hempty
      have hall : dirs.length ≤ defaultPageSize := by
        by_contra hlt
        exact (hpage.next (by omega)).1 hempty
      have hcap : dirs.length ≤ (pages + 1) * defaultPageSize := by
        rw [Nat.succ_mul]
        omega
      rw [hpage.directories, List.take_of_length_le hall, List.take_of_length_le hcap]
    · rename_i hmore
      have hlt : defaultPageSize < dirs.length + files.length := by
        by_contra hle
        exact hmore (hpage.last (by omega))
      rw [ih (hpage.next hlt).2, hpage.directories, Nat.succ_mul, Nat.add_comm, List.take_add]
      rfl

end Pages

theorem child_directories_fetched_iff {τ : Type} [DecidableEq τ] (c : TokenCodec τ) (x : TextSearch)
    (ix : FileIndex) {path dir : Key} (hpath : normalizeDirPath path = .ok dir) :
    ((∀ fuel, (ix.children x dir).length < fuel →
        FolderTree.fetchChildDirectories c x ix path fuel c.empty =
          some (.ok (ix.directories.children dir))) ∧
      MoveFileDialog.fetchChildDirectories c x ix path = .ok (ix.directories.children dir)) ↔
      (ix.directories.children dir).length ≤ MoveFileDialog.maxPages * defaultPageSize := by
  obtain ⟨files, hserves, hlen⟩ := serves_empty c x ix dir
  have htree : ∀ fuel, (ix.children x dir).length < fuel →
      FolderTree.fetchChildDirectories c x ix path fuel c.empty =
        some (.ok (ix.directories.children dir)) := by
    intro fuel hfuel
    apply FolderTree.fetch_eq hpath hserves
    simpa [FileIndex.children, hlen] using hfuel
  rw [and_iff_right htree, MoveFileDialog.fetchChildDirectories,
    MoveFileDialog.fetchPages_eq hpath hserves, Except.ok.injEq, List.take_eq_self_iff]

section Wide

def folder (i : Nat) : Key := decimal i ++ [slash]

def folderFile (i : Nat) : FileInfo := ⟨i + 1, folder i ++ [97], none, none, none, 0⟩

theorem folder_injective : Function.Injective folder := by
  intro i j h
  exact decimal_injective (List.append_cancel_right h)

theorem slash_not_mem_decimal (i : Nat) : slash ∉ decimal i := by
  intro h
  exact absurd (mem_decimal h) (by decide)

theorem folderFile_key (i : Nat) : (folderFile i).key = decimal i ++ slash :: [97] := by
  simp [folderFile, folder]

theorem hasSlashSuffix_folderFile (i : Nat) : hasSlashSuffix (folderFile i).key = false := by
  rw [folderFile, hasSlashSuffix, List.getLast?_concat]
  decide

def wideIndex (n : Nat) : FileIndex where
  files :=
    { rows := (List.range n).map folderFile
      pk := by
        rw [List.map_map]
        apply List.Nodup.map _ List.nodup_range
        intro i j h
        simpa [folderFile] using h
      unique := by
        rw [List.map_map]
        apply List.Nodup.map _ List.nodup_range
        intro i j h
        exact folder_injective (List.append_cancel_right h)
      serial := by
        intro f hf
        obtain ⟨i, -, rfl⟩ := List.mem_map.mp hf
        exact Int.natCast_succ_pos i }
  directories := Directories.impliedBy ((List.range n).map fun i => (folderFile i).key)

theorem mem_wideIndex {n : Nat} {d : Key} :
    d ∈ (wideIndex n).directories ↔ ∃ i < n, Holds d (folderFile i).key := by
  simp [wideIndex, Directories.mem_impliedBy]

theorem parent_folder (i : Nat) : Directories.parent (folder i) = [] := by
  rw [folder, Directories.parent_concat]
  exact Segments.base_append (Or.inl rfl) (slash_not_mem_decimal i)

theorem holds_folderFile_iff {i : Nat} {d : Key} :
    Holds d (folderFile i).key ↔ d = folder i := by
  rw [holds_iff (hasSlashSuffix_folderFile i), folderFile_key]
  constructor
  · rintro ⟨p, s, rfl, hkey⟩
    rw [List.append_cons_inj_of_notMem (slash_not_mem_decimal i) (by decide)] at hkey
    rw [folder, hkey.1]
  · rintro rfl
    exact ⟨_, _, rfl, rfl⟩

theorem mem_children_wideIndex {n : Nat} {d : Key} :
    d ∈ (wideIndex n).directories.children [] ↔ d ∈ (List.range n).map folder := by
  rw [Directories.mem_children, mem_wideIndex, List.mem_map]
  constructor
  · rintro ⟨⟨i, hi, hd⟩, -⟩
    exact ⟨i, List.mem_range.mpr hi, (holds_folderFile_iff.mp hd).symm⟩
  · rintro ⟨i, hi, rfl⟩
    exact ⟨⟨i, List.mem_range.mp hi, holds_folderFile_iff.mpr rfl⟩, parent_folder i⟩

theorem length_children_wideIndex (n : Nat) :
    ((wideIndex n).directories.children []).length = n := by
  have hnodup : ((List.range n).map folder).Nodup := List.nodup_range.map folder_injective
  have hchildren : ((wideIndex n).directories.children []).Nodup := by
    simpa using (wideIndex n).directories.nodup_children []
  have hperm := (List.perm_ext_iff_of_nodup hchildren hnodup).mpr fun _ => mem_children_wideIndex
  rw [hperm.length_eq, List.length_map, List.length_range]

theorem length_childFiles_wideIndex (n : Nat) :
    ((wideIndex n).childFiles TextSearch.none []).length ≤ n := by
  refine (List.length_filter_le _ _).trans ?_
  rw [wideIndex, List.length_map, List.length_range]

theorem wide_root_fetched :
    ((wideIndex 120).directories.children []).length = 120 ∧
      FolderTree.fetchChildDirectories TokenCodec.plain TextSearch.none (wideIndex 120) [] 241 none =
        some (.ok ((wideIndex 120).directories.children [])) ∧
      MoveFileDialog.fetchChildDirectories TokenCodec.plain TextSearch.none (wideIndex 120) [] =
        .ok ((wideIndex 120).directories.children []) := by
  have hdirs := length_children_wideIndex 120
  have hfiles := length_childFiles_wideIndex 120
  have hpath : normalizeDirPath [] = .ok [] := rfl
  have hcap : MoveFileDialog.maxPages * defaultPageSize = 5000 := rfl
  obtain ⟨htree, hdialog⟩ := (child_directories_fetched_iff TokenCodec.plain TextSearch.none
    (wideIndex 120) hpath).mpr (by omega)
  refine ⟨hdirs, htree 241 ?_, hdialog⟩
  rw [FileIndex.children, List.length_append, List.length_map, List.length_map]
  omega

theorem wide_root_cut_short : normalizeDirPath [] = .ok [] ∧
    MoveFileDialog.fetchChildDirectories TokenCodec.plain TextSearch.none (wideIndex 5001) [] ≠
      .ok ((wideIndex 5001).directories.children []) := by
  refine ⟨rfl, fun h => ?_⟩
  obtain ⟨files, hserves, -⟩ := serves_empty TokenCodec.plain TextSearch.none (wideIndex 5001) []
  rw [MoveFileDialog.fetchChildDirectories, MoveFileDialog.fetchPages_eq rfl hserves,
    Except.ok.injEq, List.take_eq_self_iff] at h
  have hcap : MoveFileDialog.maxPages * defaultPageSize = 5000 := rfl
  have hmany := length_children_wideIndex 5001
  omega

end Wide

end Search

end FileIndexer
