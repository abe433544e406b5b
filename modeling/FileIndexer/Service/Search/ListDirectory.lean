import FileIndexer.Database.Directories
import FileIndexer.Service.Search.ListFiles

namespace FileIndexer

namespace Directories

-- substring(path from '^(.*/)[^/]*/$'), or '' where the pattern does not match
def parent (path : Key) : Key :=
  if hasSlashSuffix path then path.dropLast.rdropWhile fun c => c ≠ slash else []

def children (d : Directories) (path : Key) : List Key :=
  (d.filter fun p => parent p = path).sort (· ≤ ·)

def listChildDirectories (d : Directories) (path : Key) (hasCursor : Bool) (after : Key)
    (pageLimit : Nat) : List Key :=
  Paging.page id (if hasCursor then some after else none) pageLimit (d.children path)

theorem mem_children {d : Directories} {path p : Key} :
    p ∈ d.children path ↔ p ∈ d ∧ parent p = path := by
  simp [children, Finset.mem_sort]

theorem insertionSort_children (d : Directories) (path : Key) :
    (d.children path).insertionSort (fun p q => p ≤ q) = d.children path :=
  (Finset.pairwise_sort _ _).insertionSort_eq

theorem nodup_children (d : Directories) (path : Key) : ((d.children path).map id).Nodup := by
  rw [List.map_id]
  exact Finset.sort_nodup _ _

end Directories

namespace Search

structure FileIndex where
  files : FileInfos
  directories : Directories

def hasDotDotSegment (s : Key) : Bool := (s.splitOn slash).any fun segment => segment = ascii ".."

def normalizeDirPath (path : Key) : Except Status Key :=
  if path = [] then
    .ok []
  else if hasDotDotSegment path then
    .error (invalidArgument "invalid path %q" [.key path])
  else
    let path := if [slash].isPrefixOf path then path.tail else path
    if hasSlashSuffix path then .ok path else .ok (path ++ [slash])

structure ListDirectoryRequest (τ : Type) where
  path : Key
  pageSize : Nat
  pageToken : τ
  sortField : SortField
  sortOrder : SortOrder

structure ListDirectoryResponse (τ : Type) where
  directories : List Key
  files : List FileInfo
  nextPageToken : τ

def ListDirectoryRequest.sort {τ : Type} (req : ListDirectoryRequest τ) : SortField × SortOrder :=
  normalizeSort req.sortField req.sortOrder

theorem ListDirectoryRequest.sort_specified {τ : Type} (req : ListDirectoryRequest τ) :
    req.sort.1 ≠ .unspecified ∧ req.sort.2 ≠ .unspecified :=
  normalizeSort_ne_unspecified req.sortField req.sortOrder

section Rpc

variable {τ : Type} [DecidableEq τ] (c : TokenCodec τ)

def listDirectoryFiles (x : TextSearch) (ix : FileIndex) (sortField : SortField)
    (sortOrder : SortOrder) (path : Key) (dirs : List Key) (cur : Option PageToken)
    (remaining : Nat) : Except Status (ListDirectoryResponse τ) := do
  let filesFetched ← listFiles x ix.files sortField sortOrder [] [] true path cur (remaining + 1)
  if remaining < filesFetched.length then
    let files := filesFetched.take remaining
    -- with no room for a file the zero row is recorded: LastId 0, resume at the first file
    let last := if 0 < remaining then files.getLast?.getD .zero else .zero
    .ok ⟨dirs, files, c.encode (newDirFilesCursor sortField sortOrder path last)⟩
  else
    .ok ⟨dirs, filesFetched, c.empty⟩

def Rpc.listDirectory (x : TextSearch) (ix : FileIndex) (req : ListDirectoryRequest τ) :
    Except Status (ListDirectoryResponse τ) := do
  let path ← normalizeDirPath req.path
  let (sortField, sortOrder) := req.sort
  let limit := normalizePageSize req.pageSize
  let cur ← readToken c req.pageToken fun cur =>
    cur.path = path && cur.sortField = sortField && cur.sortOrder = sortOrder
  let phase := cur.elim .directories PageToken.phase
  if phase = .directories then
    let fetched := ix.directories.listChildDirectories path cur.isSome (cur.getD {}).lastDir
      (limit + 1)
    if limit < fetched.length then
      let dirs := fetched.take limit
      .ok ⟨dirs, [], c.encode (newDirCursor sortField sortOrder path (dirs.getLast?.getD []))⟩
    else
      listDirectoryFiles c x ix sortField sortOrder path fetched none (limit - fetched.length)
  else
    listDirectoryFiles c x ix sortField sortOrder path [] cur limit

abbrev DirectoryPage := List Key × List FileInfo

def listDirectoryFollowing (x : TextSearch) (req : ListDirectoryRequest τ) :
    τ → List (Nat × FileIndex) → Except Status (Bool × List DirectoryPage)
  | _, [] => .ok (false, [])
  | pageToken, (pageSize, ix) :: calls => do
    let resp ← Rpc.listDirectory c x ix { req with pageSize, pageToken }
    if resp.nextPageToken = c.empty then
      .ok (true, [(resp.directories, resp.files)])
    else
      let (done, pages) ← listDirectoryFollowing x req resp.nextPageToken calls
      .ok (done, (resp.directories, resp.files) :: pages)

end Rpc

section Entries

abbrev Entry := Key ⊕ FileInfo

def DirectoryPage.entries (page : DirectoryPage) : List Entry :=
  page.1.map .inl ++ page.2.map .inr

-- directories by path, then files by position; ⊥ is the start of the files
abbrev EntryPosition (field : SortField) (order : SortOrder) : Type :=
  Key ⊕ₗ WithBot (Position field order)

def entryPosition (field : SortField) (order : SortOrder) : Entry → EntryPosition field order
  | .inl d => Sum.inlₗ d
  | .inr f => Sum.inrₗ (position field order f : WithBot (Position field order))

def DirectlyIn (path key : Key) : Prop := ∃ name, key = path ++ name ∧ slash ∉ name

def FileIndex.childFiles (ix : FileIndex) (x : TextSearch) (path : Key) : List FileInfo :=
  ix.files.rows.filter (selected x [] [] true path)

def FileIndex.children (ix : FileIndex) (x : TextSearch) (path : Key) : List Entry :=
  (ix.directories.children path).map .inl ++ (ix.childFiles x path).map .inr

variable {x : TextSearch} {ix : FileIndex} {path : Key} {field : SortField} {order : SortOrder}

theorem selected_directOnly (f : FileInfo) :
    selected x [] [] true path f = true ↔ DirectlyIn path f.key := by
  have hlike : Like.like likeSymbols (escapeLike path ++ [likeSymbols.many]) f.key =
      some (path.isPrefixOf f.key) := Like.like_escape_many likeSymbols path f.key
  simp only [selected, ListFilesParams.selects, listFilesParams, if_true, hlike, Option.some.injEq,
    contentTypeToPattern, decide_true, Bool.true_or, Bool.and_true, Bool.not_true, Bool.false_or,
    Bool.and_eq_true, decide_eq_true_eq, List.isPrefixOf_iff_prefix, DirectlyIn]
  constructor
  · rintro ⟨⟨name, hname⟩, hslash⟩
    rw [← hname, List.drop_left] at hslash
    exact ⟨name, hname.symm, hslash⟩
  · rintro ⟨name, hname, hslash⟩
    rw [hname, List.drop_left]
    exact ⟨List.prefix_append path name, hslash⟩

theorem mem_childFiles {f : FileInfo} :
    f ∈ ix.childFiles x path ↔ f ∈ ix.files.rows ∧ DirectlyIn path f.key := by
  rw [FileIndex.childFiles, List.mem_filter, selected_directOnly]

theorem mem_children_inl {d : Key} :
    .inl d ∈ ix.children x path ↔ d ∈ ix.directories ∧ Directories.parent d = path := by
  simp [FileIndex.children, Directories.mem_children]

theorem mem_children_inr {f : FileInfo} :
    .inr f ∈ ix.children x path ↔ f ∈ ix.files.rows ∧ DirectlyIn path f.key := by
  simp [FileIndex.children, mem_childFiles]

theorem nodup_entryPositions (field : SortField) (order : SortOrder) (ix : FileIndex)
    (x : TextSearch) (path : Key) :
    ((ix.children x path).map (entryPosition field order)).Nodup := by
  rw [FileIndex.children, List.map_append, List.nodup_append]
  refine ⟨?_, ?_, ?_⟩
  · rw [List.map_map]
    refine Rows.nodup_map_of_inj (ix.directories.nodup_children path) fun p _ q _ h => ?_
    simpa [entryPosition] using h
  · have hids : ((ix.childFiles x path).map FileInfo.id).Nodup :=
      Rows.nodup_map_filter ix.files.pk _
    rw [List.map_map]
    refine Rows.nodup_map_of_inj hids fun f hf g hg h => Rows.eq_of_pk hids hf hg ?_
    have hpos : position field order f = position field order g := by simpa [entryPosition] using h
    exact (Position.mk_inj.mp hpos).2
  · simp [entryPosition]

end Entries

section Phases

variable {x : TextSearch} {ix : FileIndex} {path : Key} {field : SortField} {order : SortOrder}

inductive ListPosition (field : SortField) (order : SortOrder) : Type
  | directories (after : Option Key)
  | files (after : Option (Position field order))

def ListPosition.after : ListPosition field order → Option (EntryPosition field order)
  | .directories after => after.map Sum.inlₗ
  | .files after => some (Sum.inrₗ (after.elim ⊥ fun p => (p : WithBot (Position field order))))

theorem remaining_files (after : Option (EntryPosition field order))
    (afterFile : Option (Position field order))
    (hafter : ∀ p : Position field order, (∀ a ∈ after, a < Sum.inrₗ (p : WithBot _)) ↔
      ∀ a ∈ afterFile, a < p) (files : List FileInfo) :
    Paging.remaining (entryPosition field order) after (files.map .inr) =
      (Paging.remaining (position field order) afterFile files).map .inr :=
  Paging.remaining_map _ _ _ _ _ (fun f _ g _ => by simp [entryPosition])
    fun f _ => hafter (position field order f)

theorem remaining_children (after : Option (EntryPosition field order)) (ix : FileIndex)
    (x : TextSearch) (path : Key) :
    Paging.remaining (entryPosition field order) after (ix.children x path) =
      Paging.remaining (entryPosition field order) after ((ix.directories.children path).map .inl) ++
        Paging.remaining (entryPosition field order) after ((ix.childFiles x path).map .inr) := by
  refine Paging.remaining_append (nodup_entryPositions _ _ ix x path) fun r hr s hs => ?_
  obtain ⟨d, -, rfl⟩ := List.mem_map.mp hr
  obtain ⟨f, -, rfl⟩ := List.mem_map.mp hs
  exact Sum.Lex.inl_lt_inr _ _

theorem remaining_directories_phase (field : SortField) (order : SortOrder) (x : TextSearch)
    (ix : FileIndex) (path : Key) (after : Option Key) :
    Paging.remaining (entryPosition field order) (ListPosition.directories after).after
        (ix.children x path) =
      (Paging.remaining id after (ix.directories.children path)).map .inl ++
        (Paging.remaining (position field order) none (ix.childFiles x path)).map .inr := by
  rw [remaining_children, remaining_files _ none fun p => by simp [ListPosition.after]]
  refine congrArg (· ++ _) (Paging.remaining_map _ _ _ _ _ (fun p _ q _ => ?_) fun p _ => ?_)
  · simp [entryPosition]
  · simp [entryPosition, ListPosition.after]

theorem remaining_files_phase (field : SortField) (order : SortOrder) (x : TextSearch)
    (ix : FileIndex) (path : Key) (after : Option (Position field order)) :
    Paging.remaining (entryPosition field order) (ListPosition.files after).after
        (ix.children x path) =
      (Paging.remaining (position field order) after (ix.childFiles x path)).map .inr := by
  have hdirs : Paging.remaining (entryPosition field order) (ListPosition.files after).after
      ((ix.directories.children path).map .inl) = [] := by
    refine Paging.remaining_eq_nil fun r hr => ?_
    obtain ⟨d, -, rfl⟩ := List.mem_map.mp hr
    exact Sum.Lex.inl_le_inr _ _
  rw [remaining_children, hdirs, List.nil_append]
  refine remaining_files _ after (fun p => ?_) _
  cases after with
  | none => simp [ListPosition.after, WithBot.bot_lt_coe]
  | some q => simp [ListPosition.after]

end Phases

section Answer

variable {τ : Type} [DecidableEq τ] {c : TokenCodec τ} {x : TextSearch} {ix : FileIndex} {path : Key}
  {field : SortField} {order : SortOrder}

inductive Resumes (c : TokenCodec τ) (path : Key) (field : SortField) (order : SortOrder) :
    τ → ListPosition field order → Prop
  | first : Resumes c path field order c.empty (.directories none)
  | directories (d : Key) :
      Resumes c path field order (c.encode (newDirCursor field order path d)) (.directories (some d))
  | filesStart :
      Resumes c path field order (c.encode (newDirFilesCursor field order path .zero)) (.files none)
  | files (last : FileInfo) (hid : 0 < last.id) :
      Resumes c path field order (c.encode (newDirFilesCursor field order path last))
        (.files (some (position field order last)))

structure Answers (c : TokenCodec τ) (path : Key) (after : Option (EntryPosition field order))
    (n : Nat) (rows : List Entry) (resp : ListDirectoryResponse τ) : Prop where
  entries : DirectoryPage.entries (resp.directories, resp.files) =
    Paging.page (entryPosition field order) after n rows
  last : Paging.isTruncated (entryPosition field order) after n rows = false →
    resp.nextPageToken = c.empty
  next : Paging.isTruncated (entryPosition field order) after n rows = true →
    resp.nextPageToken ≠ c.empty ∧ ∃ pos b, Resumes c path field order resp.nextPageToken pos ∧
      pos.after = some b ∧ Paging.Cuts (entryPosition field order) after
        (Paging.page (entryPosition field order) after n rows) rows b

omit [DecidableEq τ] in
theorem encode_ne_empty {cur : PageToken} (hfield : cur.sortField ≠ .unspecified) :
    c.encode cur ≠ c.empty := by
  intro he
  have hdefault := (c.encode_eq_empty_iff cur).mp he
  rw [hdefault] at hfield
  exact hfield rfl

omit [DecidableEq τ] in
theorem listDirectoryFiles_eq (hfield : field ≠ .unspecified) (horder : order ≠ .unspecified)
    (dirs : List Key) (cur : Option PageToken) (m : Nat) :
    let key := position field order
    let after := cursorPosition field order cur
    let files := ix.childFiles x path
    listDirectoryFiles c x ix field order path dirs cur m =
      .ok ⟨dirs, Paging.page key after m files, if Paging.isTruncated key after m files
        then c.encode (newDirFilesCursor field order path
          (if 0 < m then (Paging.page key after m files).getLast?.getD .zero else .zero))
        else c.empty⟩ := by
  intro key after files
  have hfiles : listFiles x ix.files field order [] [] true path cur (m + 1) =
      .ok (Paging.page key after (m + 1) files) :=
    listFiles_eq hfield horder ix.files [] [] true path cur (m + 1)
  rw [listDirectoryFiles, hfiles, Except.ok_bind]
  cases hmore : Paging.isTruncated key after m files with
  | true =>
    have hlt := (Paging.isTruncated_eq_probe key _ _ files).symm.trans hmore
    rw [if_pos (of_decide_eq_true hlt), if_pos rfl, Paging.take_probe]
  | false =>
    have hlt := (Paging.isTruncated_eq_probe key _ _ files).symm.trans hmore
    rw [if_neg (of_decide_eq_false hlt), if_neg Bool.false_ne_true,
      Paging.probe_of_not_truncated hmore]

omit [DecidableEq τ] in
theorem answers_files (hfield : field ≠ .unspecified) (horder : order ≠ .unspecified)
    (dirs : List Key) (cur : Option PageToken) (m : Nat) {after : Option (EntryPosition field order)}
    (hrest : Paging.remaining (entryPosition field order) after (ix.children x path) =
      dirs.map .inl ++ (Paging.remaining (position field order) (cursorPosition field order cur)
        (ix.childFiles x path)).map .inr)
    (hzero : m = 0 → ∀ a ∈ after, a ≤ Sum.inrₗ ⊥) :
    ∃ resp, listDirectoryFiles c x ix field order path dirs cur m = .ok resp ∧
      Answers c path after (dirs.length + m) (ix.children x path) resp := by
  refine ⟨_, listDirectoryFiles_eq hfield horder dirs cur m, ?_⟩
  have hpage : Paging.page (entryPosition field order) after (dirs.length + m) (ix.children x path) =
      dirs.map .inl ++ (Paging.page (position field order) (cursorPosition field order cur) m
        (ix.childFiles x path)).map .inr := by
    rw [Paging.page, hrest, List.take_append, List.length_map, Nat.add_sub_cancel_left,
      List.take_of_length_le (by simp), ← List.map_take, Paging.page]
  have hmore : Paging.isTruncated (entryPosition field order) after (dirs.length + m)
      (ix.children x path) = Paging.isTruncated (position field order)
        (cursorPosition field order cur) m (ix.childFiles x path) := by
    rw [Paging.isTruncated, Paging.isTruncated, hrest, List.length_append, List.length_map,
      List.length_map]
    exact decide_eq_decide.mpr (by omega)
  refine ⟨hpage.symm, fun hlast => ?_, fun htrunc => ?_⟩
  · rw [hmore] at hlast
    simp only [hlast, Bool.false_eq_true, if_false]
  · rw [hmore] at htrunc
    simp only [htrunc, if_true]
    have hfield' (last : FileInfo) :
        (newDirFilesCursor field order path last).sortField ≠ .unspecified := by
      rw [(newDirFilesCursor_fields field order path last).1]
      exact hfield
    refine ⟨encode_ne_empty (hfield' _), ?_⟩
    rcases Nat.eq_zero_or_pos m with rfl | hpos
    · refine ⟨.files none, Sum.inrₗ ⊥, .filesStart, rfl, hzero rfl, fun r hr => ?_,
        fun r hr hafter => ?_⟩
      · rw [hpage, Paging.page, List.take_zero, List.map_nil, List.append_nil] at hr
        obtain ⟨d, -, rfl⟩ := List.mem_map.mp hr
        exact Sum.Lex.inl_le_inr _ _
      · have hmem := Paging.mem_remaining.mpr ⟨hr, hafter⟩
        rw [hrest, List.mem_append] at hmem
        refine hmem.imp (fun hdir => hpage ▸ List.mem_append_left _ hdir) fun hfile => ?_
        obtain ⟨f, -, rfl⟩ := List.mem_map.mp hfile
        exact Sum.Lex.inr_lt_inr_iff.mpr (WithBot.bot_lt_coe _)
    · have hne := Paging.page_ne_nil htrunc hpos
      have hlast := List.getLast?_eq_getLast_of_ne_nil hne
      generalize (Paging.page _ _ m _).getLast hne = last at hlast
      have hmem := (Paging.mem_page (List.mem_of_getLast? hlast)).1
      have hid : 0 < last.id := ix.files.serial last (mem_childFiles.mp hmem).1
      rw [if_pos hpos, hlast, Option.getD_some]
      refine ⟨_, _, .files last hid, rfl, Paging.cuts_last (l := (.inr last : Entry)) ?_ ?_⟩
      · exact nodup_entryPositions _ _ ix x path
      · rw [hpage, List.getLast?_append, List.getLast?_map, hlast]
        rfl

omit [DecidableEq τ] in
theorem answers_directories (hfield : field ≠ .unspecified) {after : Option Key} {n : Nat}
    (hn : 0 < n) (hmore : Paging.isTruncated id after n (ix.directories.children path) = true) :
    Answers c path (ListPosition.directories after : ListPosition field order).after n
      (ix.children x path) ⟨Paging.page id after n (ix.directories.children path), [],
        c.encode (newDirCursor field order path
          ((Paging.page id after n (ix.directories.children path)).getLast?.getD []))⟩ := by
  have hlt : n < (Paging.remaining id after (ix.directories.children path)).length := by
    simpa [Paging.isTruncated] using hmore
  have hrest := remaining_directories_phase field order x ix path after
  have hpage : Paging.page (entryPosition field order) (ListPosition.directories after).after n
      (ix.children x path) = (Paging.page id after n (ix.directories.children path)).map .inl := by
    rw [Paging.page, hrest, List.take_append_of_le_length (by rw [List.length_map]; omega),
      ← List.map_take, Paging.page]
  have htrunc : Paging.isTruncated (entryPosition field order)
      (ListPosition.directories after).after n (ix.children x path) = true := by
    rw [Paging.isTruncated, hrest, List.length_append, List.length_map, decide_eq_true_eq]
    omega
  refine ⟨by simp [hpage, DirectoryPage.entries], fun hlast => ?_, fun _ => ?_⟩
  · rw [htrunc] at hlast
    cases hlast
  · have hne := Paging.page_ne_nil hmore hn
    have hlast := List.getLast?_eq_getLast_of_ne_nil hne
    generalize (Paging.page id after n _).getLast hne = last at hlast
    refine ⟨encode_ne_empty hfield, .directories (some last), Sum.inlₗ last, ?_, rfl, ?_⟩
    · simp only [hlast, Option.getD_some]
      exact .directories last
    · refine Paging.cuts_last (l := (.inl last : Entry)) (nodup_entryPositions _ _ ix x path) ?_
      rw [hpage, List.getLast?_map, hlast]
      rfl

theorem readToken_resumes {pos : ListPosition field order} {pageToken : τ}
    (hfield : field ≠ .unspecified) (h : Resumes c path field order pageToken pos) :
    ∃ cur, readToken c pageToken (fun cur =>
        cur.path = path && cur.sortField = field && cur.sortOrder = order) = .ok cur ∧
      match pos with
      | .directories after => cur.elim .directories PageToken.phase = .directories ∧
          (if cur.isSome then some (cur.getD {}).lastDir else none) = after
      | .files after => cur.elim .directories PageToken.phase = .files ∧
          cursorPosition field order cur = after := by
  cases h with
  | first => exact ⟨none, by simp [readToken], rfl, rfl⟩
  | directories d =>
    have hne : newDirCursor field order path d ≠ {} := fun he =>
      hfield (congrArg PageToken.sortField he)
    exact ⟨_, readToken_encode hne (by simp [newDirCursor]), rfl, rfl⟩
  | filesStart =>
    obtain ⟨hf, ho, hl, -, -, hp, hphase, -⟩ :=
      newDirFilesCursor_fields field order path .zero
    have hne : newDirFilesCursor field order path .zero ≠ {} := fun he =>
      hfield (hf.symm.trans (congrArg PageToken.sortField he))
    refine ⟨_, readToken_encode hne (by simp [hf, ho, hp]), hphase, ?_⟩
    have hzero : (newDirFilesCursor field order path .zero).lastId = 0 := hl
    simp [cursorPosition, Option.filter, hzero]
  | files last hid =>
    obtain ⟨hf, ho, hl, -, -, hp, hphase, -⟩ :=
      newDirFilesCursor_fields field order path last
    have hne : newDirFilesCursor field order path last ≠ {} := fun he =>
      hfield (hf.symm.trans (congrArg PageToken.sortField he))
    refine ⟨_, readToken_encode hne (by simp [hf, ho, hp]), hphase, ?_⟩
    exact cursorPosition_of_last hl (tokenValue_setSortValue _ _ last) hid

theorem Rpc.listDirectory_def (x : TextSearch) (ix : FileIndex) (req : ListDirectoryRequest τ)
    (pageSize : Nat) (pageToken : τ) :
    Rpc.listDirectory c x ix { req with pageSize, pageToken } = (do
      let path ← normalizeDirPath req.path
      let cur ← readToken c pageToken fun cur =>
        cur.path = path && cur.sortField = req.sort.1 && cur.sortOrder = req.sort.2
      if cur.elim .directories PageToken.phase = .directories then
        let fetched := ix.directories.listChildDirectories path cur.isSome (cur.getD {}).lastDir
          (normalizePageSize pageSize + 1)
        if normalizePageSize pageSize < fetched.length then
          let dirs := fetched.take (normalizePageSize pageSize)
          .ok ⟨dirs, [], c.encode (newDirCursor req.sort.1 req.sort.2 path
            (dirs.getLast?.getD []))⟩
        else
          listDirectoryFiles c x ix req.sort.1 req.sort.2 path fetched none
            (normalizePageSize pageSize - fetched.length)
      else
        listDirectoryFiles c x ix req.sort.1 req.sort.2 path [] cur
          (normalizePageSize pageSize)) := rfl

theorem Rpc.listDirectory_answers (x : TextSearch) (ix : FileIndex) {req : ListDirectoryRequest τ}
    (hpath : normalizeDirPath req.path = .ok path) {pageToken : τ}
    {pos : ListPosition req.sort.1 req.sort.2}
    (h : Resumes c path req.sort.1 req.sort.2 pageToken pos) (pageSize : Nat) :
    ∃ resp, Rpc.listDirectory c x ix { req with pageSize, pageToken } = .ok resp ∧
      Answers c path pos.after (normalizePageSize pageSize) (ix.children x path) resp := by
  obtain ⟨hfield, horder⟩ := req.sort_specified
  have hpos := normalizePageSize_pos pageSize
  obtain ⟨cur, hread, hcur⟩ := readToken_resumes hfield h
  rw [Rpc.listDirectory_def, hpath, Except.ok_bind, hread, Except.ok_bind]
  cases pos with
  | files after =>
    obtain ⟨hphase, rfl⟩ := hcur
    rw [hphase, if_neg (by decide)]
    have hrest := remaining_files_phase req.sort.1 req.sort.2 x ix path
      (cursorPosition req.sort.1 req.sort.2 cur)
    have hfiles := answers_files (c := c) hfield horder [] cur (normalizePageSize pageSize) hrest
      fun hzero => absurd hzero hpos.ne'
    simpa using hfiles
  | directories after =>
    obtain ⟨hphase, hafter⟩ := hcur
    rw [hphase, if_pos rfl, Directories.listChildDirectories, hafter]
    have hrest := remaining_directories_phase req.sort.1 req.sort.2 x ix path after
    cases hmore : Paging.isTruncated id after (normalizePageSize pageSize)
      (ix.directories.children path) with
    | true =>
      have hlt := (Paging.isTruncated_eq_probe id _ _ _).symm.trans hmore
      rw [if_pos (of_decide_eq_true hlt), Paging.take_probe]
      exact ⟨_, rfl, answers_directories hfield hpos hmore⟩
    | false =>
      have hlt := (Paging.isTruncated_eq_probe id _ _ _).symm.trans hmore
      rw [if_neg (of_decide_eq_false hlt), Paging.probe_of_not_truncated hmore]
      have hle : (Paging.remaining id after (ix.directories.children path)).length ≤
          normalizePageSize pageSize := by simpa [Paging.isTruncated] using hmore
      have hall : Paging.page id after (normalizePageSize pageSize) (ix.directories.children path) =
          Paging.remaining id after (ix.directories.children path) := List.take_of_length_le hle
      rw [hall]
      have hbelow : ∀ a ∈ (ListPosition.directories after : ListPosition req.sort.1 req.sort.2).after,
          a ≤ Sum.inrₗ ⊥ := fun a ha => by
        obtain ⟨d, -, rfl⟩ := Option.map_eq_some_iff.mp ha
        exact Sum.Lex.inl_le_inr _ _
      have hfiles := answers_files (c := c) hfield horder _ none (normalizePageSize pageSize -
        (Paging.remaining id after (ix.directories.children path)).length) hrest fun _ => hbelow
      rwa [Nat.add_sub_cancel' hle] at hfiles

end Answer

section Traversal

variable {τ : Type} [DecidableEq τ] {c : TokenCodec τ} {x : TextSearch} {path : Key}

def childRows (x : TextSearch) (path : Key) (call : Nat × FileIndex) : Nat × List Entry :=
  (normalizePageSize call.1, call.2.children x path)

theorem listDirectoryFollowing_pages (x : TextSearch) {req : ListDirectoryRequest τ}
    (hpath : normalizeDirPath req.path = .ok path) {pageToken : τ}
    {pos : ListPosition req.sort.1 req.sort.2}
    (h : Resumes c path req.sort.1 req.sort.2 pageToken pos) (calls : List (Nat × FileIndex)) :
    ∃ done pages, listDirectoryFollowing c x req pageToken calls = .ok (done, pages) ∧
      Paging.Pages (entryPosition req.sort.1 req.sort.2) done pos.after
        (calls.map (childRows x path)) (pages.map DirectoryPage.entries) := by
  induction calls generalizing pageToken pos with
  | nil => exact ⟨false, [], rfl, .stopped⟩
  | cons call calls ih =>
    obtain ⟨pageSize, ix⟩ := call
    obtain ⟨resp, hresp, hpage, hlast, hnext⟩ := Rpc.listDirectory_answers x ix hpath h pageSize
    cases hmore : Paging.isTruncated (entryPosition req.sort.1 req.sort.2) pos.after
      (normalizePageSize pageSize) (ix.children x path) with
    | false =>
      refine ⟨true, [(resp.directories, resp.files)], ?_, ?_⟩
      · rw [listDirectoryFollowing, hresp, Except.ok_bind, if_pos (hlast hmore)]
      · rw [List.map_singleton, hpage]
        exact .last _ hmore
    | true =>
      obtain ⟨hne, pos', b, hresume, hb, hcut⟩ := hnext hmore
      obtain ⟨done, pages, hrun, hpages⟩ := ih hresume
      refine ⟨done, (resp.directories, resp.files) :: pages, ?_, ?_⟩
      · rw [listDirectoryFollowing, hresp, Except.ok_bind, if_neg hne, hrun, Except.ok_bind]
      · rw [List.map_cons, List.map_cons, hpage]
        exact .next hmore hcut (hb ▸ hpages)

def visitedIndexes (calls : List (Nat × FileIndex)) (pages : List DirectoryPage) : List FileIndex :=
  (calls.take pages.length).map Prod.snd

theorem mem_visitedIndexes {calls : List (Nat × FileIndex)} {pages : List DirectoryPage}
    {rows : Nat × List Entry} (h : rows ∈ (calls.map (childRows x path)).take pages.length) :
    ∃ ix ∈ visitedIndexes calls pages, rows.2 = ix.children x path := by
  rw [← List.map_take] at h
  obtain ⟨call, hcall, rfl⟩ := List.mem_map.mp h
  exact ⟨call.2, List.mem_map_of_mem hcall, rfl⟩

theorem countP_entries (pages : List DirectoryPage) (p : Entry → Bool) :
    ((pages.map DirectoryPage.entries).flatten).countP p =
      (pages.flatMap Prod.fst).countP (fun d => p (.inl d)) +
        (pages.flatMap Prod.snd).countP (fun f => p (.inr f)) := by
  induction pages with
  | nil => rfl
  | cons page pages ih =>
    simp only [List.map_cons, List.flatten_cons, List.flatMap_cons, List.countP_append, ih,
      DirectoryPage.entries, List.countP_map, Function.comp_def]
    omega

theorem pages_unchanging {field : SortField} {order : SortOrder} {done : Bool}
    {calls : List (Nat × FileIndex)} {pages : List DirectoryPage} {ix : FileIndex}
    (h : Paging.Pages (entryPosition field order) done (ListPosition.directories none).after
      (calls.map (childRows x path)) (pages.map DirectoryPage.entries))
    (hix : ∀ call ∈ calls, call.2 = ix) :
    (done = true → (pages.map DirectoryPage.entries).flatten =
        (ix.directories.children path).map .inl ++ ((ix.childFiles x path).insertionSort fun f g =>
          position field order f ≤ position field order g).map .inr) ∧
      ((ix.children x path).length < calls.length → done = true) := by
  have hnodup := nodup_entryPositions field order ix x path
  have hrows : ∀ rows ∈ calls.map (childRows x path),
      0 < rows.1 ∧ rows.2 = ix.children x path := fun rows hmem => by
    obtain ⟨call, hcall, rfl⟩ := List.mem_map.mp hmem
    exact ⟨normalizePageSize_pos call.1, by simp [childRows, hix call hcall]⟩
  constructor
  · rintro rfl
    rw [h.eq_remaining hnodup fun rows hmem => (hrows rows (List.mem_of_mem_take hmem)).2,
      remaining_directories_phase]
    simp [Paging.remaining, Directories.insertionSort_children]
  · intro hlen
    by_contra hdone
    obtain rfl : done = false := by simpa using hdone
    have hle := h.length_le hnodup hrows
    have hrest : (Paging.remaining (entryPosition field order)
        (ListPosition.directories none).after (ix.children x path)).length ≤
          (ix.children x path).length := by
      simpa [Paging.remaining] using List.length_filter_le _ (ix.children x path)
    rw [List.length_map] at hle
    omega

theorem list_directory_pagination (c : TokenCodec τ) (x : TextSearch) (req : ListDirectoryRequest τ)
    (hpath : normalizeDirPath req.path = .ok path) (calls : List (Nat × FileIndex)) :
    ∃ done pages, listDirectoryFollowing c x req c.empty calls = .ok (done, pages) ∧
      (List.Forall₂ (fun call page => page.1.length + page.2.length ≤ normalizePageSize call.1)
        (calls.take pages.length) pages) ∧
      ((pages.map DirectoryPage.entries).flatten.Pairwise fun r s =>
        entryPosition req.sort.1 req.sort.2 r < entryPosition req.sort.1 req.sort.2 s) ∧
      (∀ e ∈ (pages.map DirectoryPage.entries).flatten,
        ∃ ix ∈ visitedIndexes calls pages, e ∈ ix.children x path) ∧
      (done = true →
        (∀ d, (∀ ix ∈ visitedIndexes calls pages, d ∈ ix.directories ∧
            Directories.parent d = path) → (pages.flatMap Prod.fst).count d = 1) ∧
        ∀ id v, (∀ ix ∈ visitedIndexes calls pages, ∃ f ∈ ix.files.rows, f.id = id ∧
            sortValue req.sort.1 f = v ∧ DirectlyIn path f.key) →
          (pages.flatMap Prod.snd).countP (fun f => f.id = id) = 1) ∧
      ∀ ix, (∀ call ∈ calls, call.2 = ix) →
        (done = true → (pages.map DirectoryPage.entries).flatten =
          (ix.directories.children path).map .inl ++ ((ix.childFiles x path).insertionSort fun f g =>
            position req.sort.1 req.sort.2 f ≤ position req.sort.1 req.sort.2 g).map .inr) ∧
        ((ix.children x path).length < calls.length → done = true) := by
  obtain ⟨done, pages, hrun, hpages⟩ := listDirectoryFollowing_pages x hpath
    (Resumes.first (c := c)) calls
  have hvisited : ∀ rows ∈ (calls.map (childRows x path)).take (pages.map DirectoryPage.entries).length,
      ∃ ix ∈ visitedIndexes calls pages, rows.2 = ix.children x path := by
    intro rows hrows
    rw [List.length_map] at hrows
    exact mem_visitedIndexes hrows
  have hnodup : ∀ rows ∈ (calls.map (childRows x path)).take (pages.map DirectoryPage.entries).length,
      (rows.2.map (entryPosition req.sort.1 req.sort.2)).Nodup := by
    intro rows hrows
    obtain ⟨ix, -, heq⟩ := hvisited rows hrows
    rw [heq]
    exact nodup_entryPositions _ _ ix x path
  refine ⟨done, pages, hrun, ?_, hpages.sorted hnodup, fun e he => ?_, ?_, fun ix hix => ⟨?_, ?_⟩⟩
  · have hlen := hpages.length_page
    rw [List.length_map, ← List.map_take, List.forall₂_map_left_iff,
      List.forall₂_map_right_iff] at hlen
    exact hlen.imp fun call page hle => by simpa [DirectoryPage.entries, childRows] using hle
  · obtain ⟨rows, hrows, her⟩ := hpages.mem he
    obtain ⟨ix, hix, heq⟩ := hvisited rows hrows
    exact ⟨ix, hix, heq ▸ her⟩
  · rintro rfl
    have hcount {k : EntryPosition req.sort.1 req.sort.2} {p : Entry → Bool}
        (hk : ∀ ix ∈ visitedIndexes calls pages, ∃ e ∈ ix.children x path,
          entryPosition req.sort.1 req.sort.2 e = k)
        (hp : ∀ ix ∈ visitedIndexes calls pages, ∀ e ∈ ix.children x path,
          p e = true ↔ entryPosition req.sort.1 req.sort.2 e = k) :
        (pages.flatMap Prod.fst).countP (fun d => p (.inl d)) +
          (pages.flatMap Prod.snd).countP (fun f => p (.inr f)) = 1 := by
      rw [← countP_entries]
      refine hpages.countP_eq_one hnodup (k := k) (fun rows hrows => ?_) (by simp [ListPosition.after])
        fun rows hrows e he => ?_
      · obtain ⟨ix, hix, heq⟩ := hvisited rows hrows
        exact heq ▸ hk ix hix
      · obtain ⟨ix, hix, heq⟩ := hvisited rows hrows
        exact hp ix hix e (heq ▸ he)
    refine ⟨fun d hd => ?_, fun id v hfile => ?_⟩
    · have hone := hcount (k := Sum.inlₗ d) (p := fun e => e = .inl d)
        (fun ix hix => ⟨.inl d, mem_children_inl.mpr (hd ix hix), rfl⟩)
        fun ix hix e he => by cases e <;> simp [entryPosition]
      simpa [List.count, beq_eq_decide] using hone
    · have hone := hcount (k := Sum.inrₗ ↑(Position.mk req.sort.2 v id))
        (p := Sum.elim (fun _ => false) fun f => f.id = id) (fun ix hix => ?_) fun ix hix e he => ?_
      · simpa using hone
      · obtain ⟨f, hf, hid, hvalue, hin⟩ := hfile ix hix
        refine ⟨.inr f, mem_children_inr.mpr ⟨hf, hin⟩, ?_⟩
        simp [entryPosition, position, hid, hvalue]
      · obtain ⟨f, hf, hid, hvalue, hin⟩ := hfile ix hix
        cases e with
        | inl d => simp [entryPosition]
        | inr g =>
          have hpos : entryPosition req.sort.1 req.sort.2 (.inr g) =
              Sum.inrₗ ↑(Position.mk req.sort.2 v id) ↔ sortValue req.sort.1 g = v ∧ g.id = id := by
            simp [entryPosition, position, Position.mk_inj]
          rw [hpos, Sum.elim_inr, decide_eq_true_iff]
          refine ⟨fun hgid => ⟨?_, hgid⟩, And.right⟩
          obtain rfl : f = g :=
            Rows.eq_of_pk ix.files.pk hf (mem_children_inr.mp he).1 (hid.trans hgid.symm)
          exact hvalue
  · exact (pages_unchanging hpages hix).1
  · exact (pages_unchanging hpages hix).2

section Docs

def docsFile : FileInfo := ⟨1, ascii "docs/a", none, none, none, 0⟩

def docsIndex : FileIndex where
  files := ⟨[docsFile], by decide, by decide, by decide⟩
  directories := {ascii "docs/", ascii "docs/sub/"}

def docsRequest : ListDirectoryRequest (Option PageToken) :=
  ⟨ascii "/docs", 1, none, .unspecified, .desc⟩

theorem list_directory_pagination_of_docs :
    ∃ pages, listDirectoryFollowing TokenCodec.plain TextSearch.none docsRequest none
        [(1, docsIndex), (1, docsIndex), (2, docsIndex)] = .ok (true, pages) ∧
      (pages.map DirectoryPage.entries).flatten = [.inl (ascii "docs/sub/"), .inr docsFile] := by
  have hpath : normalizeDirPath docsRequest.path = .ok (ascii "docs/") := by decide
  have hsame : ∀ call ∈ [(1, docsIndex), (1, docsIndex), (2, docsIndex)], call.2 = docsIndex := by
    simp
  have hdirs : docsIndex.directories.children (ascii "docs/") = [ascii "docs/sub/"] := by
    have hone : docsIndex.directories.filter (fun p => Directories.parent p = ascii "docs/") =
      {ascii "docs/sub/"} := by decide
    rw [Directories.children, hone, Finset.sort_singleton]
  have hfiles : docsIndex.childFiles TextSearch.none (ascii "docs/") = [docsFile] := by decide
  obtain ⟨done, pages, hrun, -, -, -, -, hall⟩ := list_directory_pagination TokenCodec.plain
    TextSearch.none docsRequest hpath [(1, docsIndex), (1, docsIndex), (2, docsIndex)]
  obtain ⟨hentries, hends⟩ := hall docsIndex hsame
  obtain rfl : done = true := hends (by simp [FileIndex.children, hdirs, hfiles])
  exact ⟨pages, hrun, (hentries rfl).trans (by simp [hdirs, hfiles])⟩

end Docs

end Traversal

end Search

end FileIndexer
