import FileIndexer.Service.Search.Browse
import FileIndexer.Web.FileDto
import FileIndexer.Web.Navigation

namespace FileIndexer

namespace Search

section Rpc

variable {τ : Type} [DecidableEq τ] {c : TokenCodec τ} {x : TextSearch} {ix : FileIndex}

def Rpc.listDirectoryInfos (c : TokenCodec τ) (x : TextSearch) (t : FileRows) (d : Directories)
    (q : IndexQueue) (req : ListDirectoryRequest τ) :
    Except Status (List Key × List FileInfoMessage × τ) := do
  let resp ← Rpc.listDirectory c x ⟨t.infos, d⟩ req
  let files := resp.files.filterMap fun f => t.row f.id
  .ok (resp.directories, attachPreviewStatuses q files (files.map dbFileToProto), resp.nextPageToken)

omit [DecidableEq τ] in
theorem mem_of_listDirectoryFiles {field : SortField} {order : SortOrder} {path : Key}
    (hfield : field ≠ .unspecified) (horder : order ≠ .unspecified) {dirs : List Key}
    {cur : Option PageToken} {m : Nat} {resp : ListDirectoryResponse τ}
    (h : listDirectoryFiles c x ix field order path dirs cur m = .ok resp) {f : FileInfo}
    (hf : f ∈ resp.files) : f ∈ ix.files.rows := by
  rw [listDirectoryFiles_eq hfield horder] at h
  obtain rfl := Except.ok.inj h
  exact (mem_childFiles.mp (Paging.mem_page hf).1).1

theorem Rpc.mem_of_listDirectory {req : ListDirectoryRequest τ} {resp : ListDirectoryResponse τ}
    (h : Rpc.listDirectory c x ix req = .ok resp) {f : FileInfo} (hf : f ∈ resp.files) :
    f ∈ ix.files.rows := by
  obtain ⟨hfield, horder⟩ := req.sort_specified
  obtain ⟨path, -, h⟩ := Except.bind_eq_ok.mp h
  obtain ⟨cur, -, h⟩ := Except.bind_eq_ok.mp h
  dsimp only at h
  split at h
  · split at h
    · obtain rfl := Except.ok.inj h
      cases hf
    · exact mem_of_listDirectoryFiles hfield horder h hf
  · exact mem_of_listDirectoryFiles hfield horder h hf

end Rpc

end Search

namespace Web

open Search

structure DirectoryBackend extends Backend where
  directories : Directories

def DirectoryBackend.index (b : DirectoryBackend) : FileIndex := ⟨b.rows.infos, b.directories⟩

structure ListDirectoryInput (τ : Type) where
  path : Option Key
  pageSize : Option Nat
  pageToken : Option τ
  sortField : Option SortFieldInput
  sortOrder : Option SortOrderInput

structure ListDirectoryResult (τ : Type) where
  directories : List Key
  files : List FileDto
  nextPageToken : τ

section ListDirectory

variable {τ : Type} [DecidableEq τ] (c : TokenCodec τ) (x : TextSearch) (wkt : Wkt)

def ListDirectoryInput.request (input : ListDirectoryInput τ) : ListDirectoryRequest τ where
  path := input.path.getD []
  pageSize := input.pageSize.getD 0
  pageToken := input.pageToken.getD c.empty
  sortField := (input.sortField.getD .key).pb
  sortOrder := (input.sortOrder.getD .asc).pb

def listDirectoryImpl (b : DirectoryBackend) (input : ListDirectoryInput τ) :
    Except Search.Status (ListDirectoryResult τ) := do
  let (directories, files, nextPageToken) ← Rpc.listDirectoryInfos c x b.rows b.directories b.queue
    (input.request c)
  .ok ⟨directories, withPreviewUrls wkt files b.getPreviewURL, nextPageToken⟩

namespace DirectoryList

def input (path : Key) (sort : SortFieldInput) (order : SortOrderInput) (pageParam : τ) :
    ListDirectoryInput τ where
  path := some path
  pageSize := some 50
  pageToken := some pageParam
  sortField := some sort
  sortOrder := some order

abbrev Page := List Key × List FileDto

def infiniteQuery (path : Key) (sort : SortFieldInput) (order : SortOrderInput) :
    τ → List DirectoryBackend → Except Search.Status (Bool × List Page)
  | _, [] => .ok (false, [])
  | pageParam, b :: bs => do
    let lastPage ← listDirectoryImpl c x wkt b (input path sort order pageParam)
    if lastPage.nextPageToken = c.empty then
      .ok (true, [(lastPage.directories, lastPage.files)])
    else
      let (done, pages) ← infiniteQuery path sort order lastPage.nextPageToken bs
      .ok (done, (lastPage.directories, lastPage.files) :: pages)

structure FolderRow where
  path : Key
  name : Key
  deriving DecidableEq, Repr

def basename (path key : Key) : Key := key.drop path.length

def dirName (path dir : Key) : Key := stripSlash (basename path dir)

def folders (path : Key) (pages : List Page) : List FolderRow :=
  (pages.flatMap Prod.fst).map fun dir => ⟨dir, dirName path dir⟩

def files (pages : List Page) : List FileDto := pages.flatMap Prod.snd

end DirectoryList

end ListDirectory

namespace DirectoryList

section Pages

variable {τ : Type} [DecidableEq τ] {c : TokenCodec τ} {x : TextSearch} {wkt : Wkt}

theorem listDirectoryImpl_loaded (wkt : Wkt) {b : DirectoryBackend} {input : ListDirectoryInput τ}
    {resp : ListDirectoryResponse τ} (h : Rpc.listDirectory c x b.index (input.request c) = .ok resp) :
    ∃ files, listDirectoryImpl c x wkt b input = .ok ⟨resp.directories, files, resp.nextPageToken⟩ ∧
      List.Forall₂ (Loaded wkt [b.toBackend]) resp.files files := by
  have hin : ∀ f ∈ resp.files, f ∈ b.rows.infos.rows := fun f hf => Rpc.mem_of_listDirectory h hf
  let rows := resp.files.filterMap fun f => b.rows.row f.id
  have hrows : rows.map FileRow.toFileInfo = resp.files := rows_of_infos hin
  refine ⟨withPreviewUrls wkt (rows.map (infoMessage b.queue)) b.getPreviewURL, ?_, ?_⟩
  · rw [listDirectoryImpl, Rpc.listDirectoryInfos]
    change (Rpc.listDirectory c x b.index (input.request c) >>= _) >>= _ = _
    rw [h, Except.ok_bind, Except.ok_bind]
    dsimp only
    rw [attachPreviewStatuses_eq]
  · rw [← hrows]
    apply loaded_withPreviewUrls
    intro r hr
    obtain ⟨f, -, hrow⟩ := List.mem_filterMap.mp hr
    exact (FileRows.row_eq_some_iff.mp hrow).1

def LoadedPage (wkt : Wkt) (bs : List DirectoryBackend) (page : DirectoryPage) (shown : Page) : Prop :=
  shown.1 = page.1 ∧ List.Forall₂ (Loaded wkt (bs.map DirectoryBackend.toBackend)) page.2 shown.2

theorem LoadedPage.cons {bs : List DirectoryBackend} {page : DirectoryPage} {shown : Page}
    (h : LoadedPage wkt bs page shown) (b : DirectoryBackend) : LoadedPage wkt (b :: bs) page shown :=
  ⟨h.1, h.2.imp fun _ _ hd => hd.mono fun _ hb => List.mem_cons_of_mem _ hb⟩

theorem infiniteQuery_follows (wkt : Wkt) {path : Key} {sort : SortFieldInput} {order : SortOrderInput}
    {pageParam first : τ} {bs : List DirectoryBackend} {done : Bool} {pages : List DirectoryPage}
    (h : listDirectoryFollowing c x ((input path sort order first).request c) pageParam
      (bs.map fun b => (50, b.index)) = .ok (done, pages)) :
    ∃ shown, infiniteQuery c x wkt path sort order pageParam bs = .ok (done, shown) ∧
      List.Forall₂ (LoadedPage wkt bs) pages shown := by
  induction bs generalizing pageParam done pages with
  | nil =>
    obtain ⟨rfl, rfl⟩ := Prod.mk.injEq .. ▸ Except.ok.inj h
    exact ⟨[], rfl, .nil⟩
  | cons b bs ih =>
    obtain ⟨resp, hresp, h⟩ := Except.bind_eq_ok.mp h
    obtain ⟨files, himpl, hfiles⟩ := listDirectoryImpl_loaded wkt
      (show Rpc.listDirectory c x b.index ((input path sort order pageParam).request c) = .ok resp
        from hresp)
    have hpage : LoadedPage wkt (b :: bs) (resp.directories, resp.files) (resp.directories, files) :=
      ⟨rfl, loaded_cons hfiles⟩
    rw [infiniteQuery, himpl, Except.ok_bind]
    dsimp only at h ⊢
    by_cases hend : resp.nextPageToken = c.empty
    · rw [if_pos hend] at h ⊢
      obtain ⟨rfl, rfl⟩ := Prod.mk.injEq .. ▸ Except.ok.inj h
      exact ⟨_, rfl, .cons hpage .nil⟩
    · rw [if_neg hend] at h ⊢
      obtain ⟨rest, hrest, h⟩ := Except.bind_eq_ok.mp h
      obtain ⟨rfl, rfl⟩ := Prod.mk.injEq .. ▸ Except.ok.inj h
      obtain ⟨shown, hshown, hloaded⟩ := ih hrest
      rw [hshown]
      exact ⟨_, rfl, .cons hpage (hloaded.imp fun page s hs => hs.cons b)⟩

theorem directories_of_loaded {bs : List DirectoryBackend} {pages : List DirectoryPage}
    {shown : List Page} (h : List.Forall₂ (LoadedPage wkt bs) pages shown) :
    shown.flatMap Prod.fst = pages.flatMap Prod.fst := by
  induction h with
  | nil => rfl
  | cons hpage _ ih => rw [List.flatMap_cons, List.flatMap_cons, hpage.1, ih]

theorem files_of_loaded {bs : List DirectoryBackend} {pages : List DirectoryPage}
    {shown : List Page} (h : List.Forall₂ (LoadedPage wkt bs) pages shown) :
    List.Forall₂ (Loaded wkt (bs.map DirectoryBackend.toBackend)) (pages.flatMap Prod.snd)
      (files shown) := by
  induction h with
  | nil => exact .nil
  | cons hpage _ ih => exact List.rel_append hpage.2 ih

end Pages

section Entries

theorem entries_lefts (pages : List DirectoryPage) :
    ((pages.map DirectoryPage.entries).flatten).filterMap Sum.getLeft? = pages.flatMap Prod.fst := by
  induction pages with
  | nil => rfl
  | cons page pages ih =>
    rw [List.map_cons, List.flatten_cons, List.filterMap_append, ih, List.flatMap_cons]
    simp [DirectoryPage.entries, List.filterMap_map, Function.comp_def]

theorem entries_rights (pages : List DirectoryPage) :
    ((pages.map DirectoryPage.entries).flatten).filterMap Sum.getRight? = pages.flatMap Prod.snd := by
  induction pages with
  | nil => rfl
  | cons page pages ih =>
    rw [List.map_cons, List.flatten_cons, List.filterMap_append, ih, List.flatMap_cons]
    simp [DirectoryPage.entries, List.filterMap_map, Function.comp_def]

theorem sorted_lefts {field : SortField} {order : SortOrder} {entries : List Entry}
    (h : entries.Pairwise fun r s => entryPosition field order r < entryPosition field order s) :
    (entries.filterMap Sum.getLeft?).Pairwise (· < ·) := by
  rw [List.pairwise_filterMap]
  refine h.imp fun {r s} hrs d hd e he => ?_
  obtain rfl := Sum.getLeft?_eq_some_iff.mp hd
  obtain rfl := Sum.getLeft?_eq_some_iff.mp he
  exact Sum.Lex.inl_lt_inl_iff.mp hrs

end Entries

section Names

variable {path dir name : Key}

theorem basename_append (hname : name ≠ []) :
    basename path (dir ++ name) = name ↔ path.length = dir.length := by
  rw [basename]
  constructor
  · intro h
    have hlen := congrArg List.length h
    have hpos := List.length_pos_iff.mpr hname
    rw [List.length_drop, List.length_append] at hlen
    omega
  · intro h
    rw [h, List.drop_left]

theorem dirName_append (hname : name ≠ []) :
    dirName path (dir ++ name ++ [slash]) = name ↔ path.length = dir.length := by
  rw [← basename_append hname, dirName, basename, basename]
  rcases Nat.lt_or_ge (dir ++ name).length path.length with hlt | hle
  · have hnil : (dir ++ name).drop path.length = [] := List.drop_of_length_le hlt.le
    have hnil' : (dir ++ name ++ [slash]).drop path.length = [] :=
      List.drop_of_length_le (by rw [List.length_append]; exact hlt)
    rw [hnil, hnil', stripSlash]
    rfl
  · rw [List.drop_append_of_le_length hle, stripSlash_concat]

theorem isDir_of_normalize (h : normalizeDirPath path = .ok dir) : Directories.IsDir dir := by
  unfold normalizeDirPath at h
  split at h
  · exact Or.inl (Except.ok.inj h).symm
  · split at h
    · cases h
    · dsimp only at h
      generalize (if [slash].isPrefixOf path then path.tail else path) = p at h
      split at h
      · rename_i hslash
        exact Or.inr (hasSlashSuffix_iff.mp (Except.ok.inj h ▸ hslash))
      · exact Or.inr ⟨p, (Except.ok.inj h).symm⟩

theorem basename_eq_iff (hdir : Directories.IsDir dir) {key : Key} (hkey : DirectlyIn dir key)
    (hname : fileName key ≠ []) : basename path key = fileName key ↔ path.length = dir.length := by
  obtain ⟨name, rfl, hslash⟩ := hkey
  rw [MoveFileDialog.fileName_append hdir hslash] at hname ⊢
  exact basename_append hname

theorem exists_name {d : Key} (hd : hasSlashSuffix d = true) (hparent : Directories.parent d = dir) :
    ∃ name, d = dir ++ name ++ [slash] ∧ slash ∉ name := by
  obtain ⟨p, rfl⟩ := hasSlashSuffix_iff.mp hd
  rw [Directories.parent_concat] at hparent
  obtain ⟨name, hp, hslash⟩ := Segments.eq_base_append slash p
  exact ⟨name, by rw [← hparent, ← hp], hslash⟩

theorem dirName_eq_iff (hdir : Directories.IsDir dir) {d : Key} (hd : hasSlashSuffix d = true)
    (hparent : Directories.parent d = dir) (hname : fileName (stripSlash d) ≠ []) :
    dirName path d = fileName (stripSlash d) ↔ path.length = dir.length := by
  obtain ⟨name, rfl, hslash⟩ := exists_name hd hparent
  rw [stripSlash_concat, MoveFileDialog.fileName_append hdir hslash] at hname ⊢
  exact dirName_append hname

end Names

section Rows

variable {τ : Type} [DecidableEq τ] {wkt : Wkt} {path dir : Key} {bs : List DirectoryBackend}

structure Shows (wkt : Wkt) (path dir : Key) (bs : List DirectoryBackend) (shown : List Page) :
    Prop where
  sorted : ((folders path shown).map FolderRow.path).Pairwise (· < ·)
  folder : ∀ row ∈ folders path shown, ∃ b ∈ bs, row.path ∈ b.directories ∧
    Directories.parent row.path = dir
  file : ∀ d ∈ files shown, ∃ b ∈ bs, ∃ r ∈ b.rows.rows, ShowsRow wkt b.queue r d ∧
    DirectlyIn dir r.key
  folderName : ∀ row ∈ folders path shown, fileName (stripSlash row.path) ≠ [] →
    (row.name = fileName (stripSlash row.path) ↔ path.length = dir.length)
  fileName : ∀ d ∈ files shown, fileName d.key ≠ [] →
    (basename path d.key = fileName d.key ↔ path.length = dir.length)

theorem mem_calls {x : TextSearch} {rows : Nat × List Entry}
    (h : rows ∈ (bs.map fun b => (50, b.index)).map (childRows x dir)) :
    ∃ b ∈ bs, rows.2 = b.index.children x dir := by
  rw [List.map_map] at h
  obtain ⟨b, hb, rfl⟩ := List.mem_map.mp h
  exact ⟨b, hb, rfl⟩

theorem paths_folders (path : Key) (shown : List Page) :
    (folders path shown).map FolderRow.path = shown.flatMap Prod.fst := by
  rw [folders, List.map_map]
  exact List.map_id _

theorem shows_of_loaded (hdir : Directories.IsDir dir)
    (hslash : ∀ b ∈ bs, ∀ d ∈ b.directories, hasSlashSuffix d = true) {pages : List DirectoryPage}
    {shown : List Page} (hloaded : List.Forall₂ (LoadedPage wkt bs) pages shown)
    (hsorted : (pages.flatMap Prod.fst).Pairwise (· < ·))
    (hdirs : ∀ d ∈ pages.flatMap Prod.fst, ∃ b ∈ bs, d ∈ b.directories ∧ Directories.parent d = dir)
    (hfiles : ∀ f ∈ pages.flatMap Prod.snd, DirectlyIn dir f.key) : Shows wkt path dir bs shown := by
  have hpaths := directories_of_loaded hloaded
  have hfolder : ∀ row ∈ folders path shown, ∃ b ∈ bs, row.path ∈ b.directories ∧
      Directories.parent row.path = dir := by
    intro row hrow
    apply hdirs
    rw [← hpaths, ← paths_folders path]
    exact List.mem_map_of_mem hrow
  have hfile : ∀ d ∈ files shown, ∃ b ∈ bs, ∃ r ∈ b.rows.rows, ShowsRow wkt b.queue r d ∧
      DirectlyIn dir r.key := by
    intro d hd
    obtain ⟨f, hf, hrow⟩ := exists_left_of_mem (files_of_loaded hloaded) hd
    obtain ⟨b, hb, r, hr, rfl, hshows⟩ := hrow.row
    obtain ⟨b', hb', rfl⟩ := List.mem_map.mp hb
    exact ⟨b', hb', r, hr, hshows, hfiles _ hf⟩
  refine ⟨by rwa [paths_folders, hpaths], hfolder, hfile, fun row hrow hname => ?_,
    fun d hd hname => ?_⟩
  · obtain ⟨b, hb, hmem, hparent⟩ := hfolder row hrow
    obtain ⟨d, -, rfl⟩ := List.mem_map.mp hrow
    exact dirName_eq_iff hdir (hslash b hb _ hmem) hparent hname
  · obtain ⟨b, -, r, -, ⟨url, rfl⟩, hin⟩ := hfile d hd
    exact basename_eq_iff hdir hin hname

theorem directory_rows (c : TokenCodec τ) (x : TextSearch) (wkt : Wkt) {path dir : Key}
    (sort : SortFieldInput) (order : SortOrderInput) (bs : List DirectoryBackend)
    (hpath : normalizeDirPath path = .ok dir)
    (hslash : ∀ b ∈ bs, ∀ d ∈ b.directories, hasSlashSuffix d = true) :
    ∃ done shown, infiniteQuery c x wkt path sort order c.empty bs = .ok (done, shown) ∧
      Shows wkt path dir bs shown ∧
      ∀ ix, (∀ b ∈ bs, b.index = ix) →
        (done = true →
          (folders path shown).map FolderRow.path = ix.directories.children dir ∧
          List.Forall₂ (Loaded wkt (bs.map DirectoryBackend.toBackend))
            ((ix.childFiles x dir).insertionSort fun f g =>
              position sort.pb order.pb f ≤ position sort.pb order.pb g) (files shown)) ∧
        ((ix.children x dir).length < bs.length → done = true) := by
  have hsort : ((input path sort order c.empty).request c).sort = (sort.pb, order.pb) := by
    cases sort <;> cases order <;> rfl
  have hdir : normalizeDirPath ((input path sort order c.empty).request c).path = .ok dir := hpath
  obtain ⟨done, pages, hrun, hpages⟩ := listDirectoryFollowing_pages (c := c) x hdir .first
    (bs.map fun b => (50, b.index))
  obtain ⟨shown, hshown, hloaded⟩ := infiniteQuery_follows wkt hrun
  rw [hsort] at hpages
  have hmem : ∀ e ∈ (pages.map DirectoryPage.entries).flatten,
      ∃ b ∈ bs, e ∈ b.index.children x dir := by
    intro e he
    obtain ⟨rows, hrows, her⟩ := hpages.mem he
    obtain ⟨b, hb, heq⟩ := mem_calls (List.mem_of_mem_take hrows)
    exact ⟨b, hb, heq ▸ her⟩
  refine ⟨done, shown, hshown, shows_of_loaded (isDir_of_normalize hpath) hslash hloaded ?_ ?_ ?_,
    fun ix hix => ?_⟩
  · rw [← entries_lefts]
    refine sorted_lefts (hpages.sorted fun rows hrows => ?_)
    obtain ⟨b, -, heq⟩ := mem_calls (List.mem_of_mem_take hrows)
    rw [heq]
    exact nodup_entryPositions _ _ b.index x dir
  · rw [← entries_lefts]
    intro d hd
    obtain ⟨e, he, hleft⟩ := List.mem_filterMap.mp hd
    obtain rfl := Sum.getLeft?_eq_some_iff.mp hleft
    obtain ⟨b, hb, hchild⟩ := hmem _ he
    exact ⟨b, hb, mem_children_inl.mp hchild⟩
  · rw [← entries_rights]
    intro f hf
    obtain ⟨e, he, hright⟩ := List.mem_filterMap.mp hf
    obtain rfl := Sum.getRight?_eq_some_iff.mp hright
    obtain ⟨b, -, hchild⟩ := hmem _ he
    exact (mem_children_inr.mp hchild).2
  · have hsame : ∀ call ∈ bs.map (fun b => (50, b.index)), call.2 = ix := by
      intro call hcall
      obtain ⟨b, hb, rfl⟩ := List.mem_map.mp hcall
      exact hix b hb
    obtain ⟨hall, hends⟩ := pages_unchanging hpages hsame
    refine ⟨fun hdone => ?_, fun hlen => hends (by rwa [List.length_map])⟩
    have hlefts := congrArg (List.filterMap Sum.getLeft?) (hall hdone)
    have hrights := congrArg (List.filterMap Sum.getRight?) (hall hdone)
    rw [entries_lefts] at hlefts
    rw [entries_rights] at hrights
    have hfiles := files_of_loaded hloaded
    rw [hrights] at hfiles
    rw [paths_folders, directories_of_loaded hloaded, hlefts]
    simpa [List.filterMap_map, Function.comp_def] using hfiles

def docsBackend : DirectoryBackend where
  rows := ⟨[.ofJoin ⟨1, ascii "docs/a", 0, 0, 0⟩ 0 none none none], by decide, by decide, by decide⟩
  queue _ := none
  getPreviewURL _ := none
  directories := {ascii "docs/", ascii "docs/sub/"}

theorem directory_rows_of_docs :
    ∃ done shown, infiniteQuery .plain .none .floor (ascii "docs/") .key .asc none
        [docsBackend, docsBackend] = .ok (done, shown) ∧
      Shows .floor (ascii "docs/") (ascii "docs/") [docsBackend, docsBackend] shown := by
  have hpath : normalizeDirPath (ascii "docs/") = .ok (ascii "docs/") := by decide
  have hslash : ∀ d ∈ docsBackend.directories, hasSlashSuffix d = true := by decide
  obtain ⟨done, shown, hrun, hshows, -⟩ := directory_rows .plain .none .floor .key .asc
    [docsBackend, docsBackend] hpath (by simpa)
  exact ⟨done, shown, hrun, hshows⟩

example : normalizeDirPath (ascii "docs") = .ok (ascii "docs/") ∧
    basename (ascii "docs") (ascii "docs/a") = ascii "/a" := by decide

end Rows

end DirectoryList

end Web

end FileIndexer
