import FileIndexer.Service.Indexer.Results
import FileIndexer.Service.Search.ListFiles

namespace FileIndexer

structure EscapesLike (escapeLike : Key → Key) : Prop where
  prefixed : ∀ s k, Like.Decides likeSymbols (escapeLike s ++ [likeSymbols.many]) k (s <+: k)
  within : ∀ s k,
    Like.Decides likeSymbols ([likeSymbols.many] ++ escapeLike s ++ [likeSymbols.many]) k (s <:+: k)
  exactly : ∀ s k, Like.Decides likeSymbols (escapeLike s) k (k = s)

theorem escaped_patterns : EscapesLike escapeLike ∧ EscapesLike Search.escapeLike := by
  have h : EscapesLike (Like.escape likeSymbols) :=
    ⟨Like.decides_escape_many likeSymbols, Like.decides_many_escape_many likeSymbols,
      Like.decides_escape likeSymbols⟩
  exact ⟨h, h⟩

example : [likeSymbols.many] ++ Search.escapeLike (ascii "docs%1_a\\") ++ [likeSymbols.many] =
    ascii "%docs\\%1\\_a\\\\%" := by decide

namespace Search

-- index_stat_result over files: file_id references files (id), and BIGSERIAL starts at 1
structure StatIndex where
  files : Files
  stat : Results StatRow
  fileId : ∀ id row, stat.lookup id = some row → ∃ f ∈ files.rows, f.id = id
  serial : ∀ f ∈ files.rows, 0 < f.id

namespace StatIndex

variable (db : StatIndex) (effectiveTakenAt : FileID → Time)

def fileInfo (f : File) : FileInfo where
  id := f.id
  key := f.key
  contentType := (db.stat.lookup f.id).map StatRow.contentType
  sizeBytes := (db.stat.lookup f.id).map StatRow.sizeBytes
  lastModified := (db.stat.lookup f.id).map StatRow.lastModified
  effectiveTakenAt := effectiveTakenAt f.id

def fileInfos : FileInfos where
  rows := db.files.rows.map (db.fileInfo effectiveTakenAt)
  pk := by simpa [Function.comp_def, fileInfo] using db.files.pk
  unique := by simpa [Function.comp_def, fileInfo] using db.files.unique
  serial f hf := by
    obtain ⟨g, hg, rfl⟩ := List.mem_map.mp hf
    exact db.serial g hg

def contentTypes : List Text := db.stat.entries.map fun e => e.2.contentType

end StatIndex

-- split_part(content_type, '/', 1) || '/'
def topLevelCategory (contentType : Text) : Text :=
  contentType.takeWhile (fun c => c ≠ slash) ++ [slash]

def listContentTypeCategories (db : StatIndex) : List Text :=
  ((db.contentTypes.filter fun t => t.contains slash).map topLevelCategory).dedup.insertionSort (· ≤ ·)

def listContentTypes (db : StatIndex) : List Text := listContentTypeCategories db

def HasCategory (c : Text) (f : FileInfo) : Prop :=
  ∃ t, f.contentType = some t ∧ slash ∈ t ∧ topLevelCategory t = c

def EndsInOnlySlash (c : Text) : Prop := ∃ w, slash ∉ w ∧ c = w ++ [slash]

section Categories

theorem takeWhile_append_slash {w rest : Text} (hw : slash ∉ w) :
    (w ++ slash :: rest).takeWhile (fun c => c ≠ slash) = w := by
  rw [List.takeWhile_append_of_pos]
  · simp
  · intro c hc
    have hne : c ≠ slash := by
      rintro rfl
      exact hw hc
    simpa using hne

theorem slash_not_mem_takeWhile (t : Text) : slash ∉ t.takeWhile (fun c => c ≠ slash) := by
  intro h
  simpa using List.mem_takeWhile_imp h

theorem endsInOnlySlash_category (t : Text) : EndsInOnlySlash (topLevelCategory t) :=
  ⟨_, slash_not_mem_takeWhile t, rfl⟩

theorem category_prefix {t : Text} (h : slash ∈ t) : topLevelCategory t <+: t := by
  induction t with
  | nil => cases h
  | cons c t ih =>
    rw [topLevelCategory]
    by_cases hc : c = slash
    · rw [hc, List.takeWhile_cons_of_neg (by simp)]
      exact ⟨t, rfl⟩
    · have hrest : slash ∈ t := (List.mem_cons.mp h).resolve_left (Ne.symm hc)
      rw [List.takeWhile_cons_of_pos (by simpa using hc), List.cons_append]
      exact List.cons_prefix_cons.mpr ⟨rfl, ih hrest⟩

theorem category_eq_iff {c t : Text} (hc : EndsInOnlySlash c) :
    slash ∈ t ∧ topLevelCategory t = c ↔ c <+: t := by
  constructor
  · rintro ⟨h, rfl⟩
    exact category_prefix h
  · rintro ⟨rest, rfl⟩
    obtain ⟨w, hw, rfl⟩ := hc
    have hsplit : w ++ [slash] ++ rest = w ++ slash :: rest := by simp
    rw [hsplit]
    refine ⟨by simp, ?_⟩
    rw [topLevelCategory, takeWhile_append_slash hw]

theorem contentTypePattern_category {c : Text} (hc : EndsInOnlySlash c) :
    contentTypeToPattern c = escapeLike c ++ [likeSymbols.many] := by
  obtain ⟨w, -, rfl⟩ := hc
  have hslash : hasSlashSuffix (w ++ [slash]) = true := hasSlashSuffix_iff.mpr ⟨w, rfl⟩
  rw [contentTypeToPattern, if_neg (by simp), if_pos hslash]

theorem selected_category_iff (x : TextSearch) {c : Text} (hc : EndsInOnlySlash c) (f : FileInfo) :
    selected x [] c false [] f = true ↔ HasCategory c f := by
  have hall : Like.like likeSymbols [likeSymbols.many] f.key = some true :=
    (Like.decides_escape_many likeSymbols [] f.key).like_eq_true_iff.mpr List.nil_prefix
  have hpattern : escapeLike c ++ [likeSymbols.many] ≠ [] := by simp
  have hlike : ∀ t, Like.like likeSymbols (escapeLike c ++ [likeSymbols.many]) t = some true ↔
      c <+: t := fun t => (Like.decides_escape_many likeSymbols c t).like_eq_true_iff
  simp only [selected, ListFilesParams.selects, listFilesParams, contentTypePattern_category hc,
    Bool.false_eq_true, if_false, hall, hpattern, Bool.not_false, decide_true, decide_false,
    Bool.true_and, Bool.true_or, Bool.false_or, Bool.and_true, Option.any_eq_true,
    decide_eq_true_eq, hlike]
  exact exists_congr fun t => and_congr_right fun _ => (category_eq_iff hc).symm

theorem mem_categories_iff {db : StatIndex} {c : Text} :
    c ∈ listContentTypes db ↔ ∃ t ∈ db.contentTypes, slash ∈ t ∧ topLevelCategory t = c := by
  rw [listContentTypes, listContentTypeCategories, List.mem_insertionSort, List.mem_dedup,
    List.mem_map]
  simp only [List.mem_filter, List.contains_iff_mem, and_assoc]

theorem nodup_categories (db : StatIndex) : (listContentTypes db).Nodup :=
  (List.perm_insertionSort _ _).nodup_iff.mpr (List.nodup_dedup _)

theorem mem_contentTypes_iff {db : StatIndex} (effectiveTakenAt : FileID → Time) {t : Text} :
    t ∈ db.contentTypes ↔ ∃ f ∈ (db.fileInfos effectiveTakenAt).rows, f.contentType = some t := by
  constructor
  · intro h
    obtain ⟨e, he, rfl⟩ := List.mem_map.mp h
    have hrow : db.stat.lookup e.1 = some e.2 := AList.mem_lookup_iff.mpr he
    obtain ⟨f, hf, hid⟩ := db.fileId e.1 e.2 hrow
    refine ⟨_, List.mem_map_of_mem hf, ?_⟩
    rw [StatIndex.fileInfo, hid, hrow]
    rfl
  · rintro ⟨f, hf, ht⟩
    obtain ⟨g, -, rfl⟩ := List.mem_map.mp hf
    obtain ⟨row, hrow, rfl⟩ := Option.map_eq_some_iff.mp ht
    exact List.mem_map.mpr ⟨⟨g.id, row⟩, AList.mem_lookup_iff.mp hrow, rfl⟩

theorem mem_listContentTypes_iff {db : StatIndex} (effectiveTakenAt : FileID → Time) {c : Text} :
    c ∈ listContentTypes db ↔
      EndsInOnlySlash c ∧ ∃ f ∈ (db.fileInfos effectiveTakenAt).rows, HasCategory c f := by
  rw [mem_categories_iff]
  constructor
  · rintro ⟨t, ht, hslash, rfl⟩
    obtain ⟨f, hf, hft⟩ := (mem_contentTypes_iff effectiveTakenAt).mp ht
    exact ⟨endsInOnlySlash_category t, f, hf, t, hft, hslash, rfl⟩
  · rintro ⟨-, f, hf, t, hft, hslash, hc⟩
    exact ⟨t, (mem_contentTypes_iff effectiveTakenAt).mpr ⟨f, hf, hft⟩, hslash, hc⟩

end Categories

section Listing

variable {τ : Type} [DecidableEq τ] (codec : TokenCodec τ) (x : TextSearch)

def listAllFiles (t : FileInfos) (req : ListFilesRequest τ) : Except Status (List FileInfo) :=
  (listFilesFollowing codec x req codec.empty
    (List.replicate (t.rows.length + 1) (req.pageSize, t))).map fun r => r.2.flatten

variable {codec x}

theorem listFilesFollowing_fixed (x : TextSearch) {t : FileInfos} {req : ListFilesRequest τ}
    {pageToken : τ}
    (h : Continues codec req pageToken none) {calls : List (Nat × FileInfos)}
    (ht : ∀ call ∈ calls, call.2 = t) :
    ∃ done pages, listFilesFollowing codec x req pageToken calls = .ok (done, pages) ∧
      (done = true → ∀ f, f ∈ pages.flatten ↔ f ∈ t.rows ∧ req.selects x f = true) ∧
      (pages.flatten.Pairwise fun f g =>
        position req.sort.1 req.sort.2 f < position req.sort.1 req.sort.2 g) ∧
      (∀ f ∈ pages.flatten, f ∈ t.rows) ∧ (t.rows.length < calls.length → done = true) := by
  obtain ⟨done, pages, hrun, hpages⟩ := listFilesFollowing_pages x req h calls
  have hrows : ∀ rows ∈ (calls.map (req.rows x)).take pages.length,
      rows.2 = t.rows.filter (req.selects x) := fun rows hrows => by
    obtain ⟨call, hcall, rfl⟩ := List.mem_map.mp (List.mem_of_mem_take hrows)
    simp [ListFilesRequest.rows, ht call hcall]
  have hnodup : ((t.rows.filter (req.selects x)).map (position req.sort.1 req.sort.2)).Nodup :=
    nodup_positions t (req.selects x)
  refine ⟨done, pages, hrun, ?_, hpages.sorted fun rows hrow => by rw [hrows rows hrow]; exact hnodup,
    fun f hf => ?_, fun hlen => ?_⟩
  · rintro rfl f
    rw [hpages.eq_remaining hnodup hrows, Paging.mem_remaining, List.mem_filter]
    simp
  · obtain ⟨rows, hrow, hfr⟩ := hpages.mem hf
    rw [hrows rows hrow] at hfr
    exact List.mem_of_mem_filter hfr
  · by_contra hdone
    obtain rfl : done = false := by simpa using hdone
    have hle := hpages.length_le hnodup fun rows hrows => by
      obtain ⟨call, hcall, rfl⟩ := List.mem_map.mp hrows
      exact ⟨normalizePageSize_pos call.1, by simp [ListFilesRequest.rows, ht call hcall]⟩
    have hrest : (Paging.remaining (position req.sort.1 req.sort.2) none
        (t.rows.filter (req.selects x))).length ≤ t.rows.length := by
      simpa [Paging.remaining] using List.length_filter_le (req.selects x) t.rows
    rw [List.length_map] at hle
    omega

variable (codec x)

theorem mem_listAllFiles (t : FileInfos) (req : ListFilesRequest τ) :
    ∃ files, listAllFiles codec x t req = .ok files ∧
      ∀ f, f ∈ files ↔ f ∈ t.rows ∧ req.selects x f = true := by
  have hcalls : ∀ call ∈ List.replicate (t.rows.length + 1) (req.pageSize, t), call.2 = t :=
    fun call hcall => by rw [List.eq_of_mem_replicate hcall]
  have hfirst : Continues codec req codec.empty none := .first
  obtain ⟨done, pages, hrun, hmem, -, -, hdone⟩ := listFilesFollowing_fixed x hfirst hcalls
  exact ⟨pages.flatten, by rw [listAllFiles, hrun]; rfl, hmem (hdone (by simp))⟩

end Listing

theorem content_type_categories {τ : Type} [DecidableEq τ] (codec : TokenCodec τ) (x : TextSearch)
    (db : StatIndex) (effectiveTakenAt : FileID → Time) (pageSize : Nat) (sortField : SortField)
    (sortOrder : SortOrder) :
    ∃ filesOf : Text → List FileInfo,
      (∀ c, listAllFiles codec x (db.fileInfos effectiveTakenAt)
        ⟨pageSize, codec.empty, [], c, sortField, sortOrder⟩ = .ok (filesOf c)) ∧
      (∀ c, c ∈ listContentTypes db ↔ EndsInOnlySlash c ∧ filesOf c ≠ []) ∧
      (listContentTypes db).Nodup ∧
      ∀ c, EndsInOnlySlash c → ∀ f, f ∈ filesOf c ↔
        f ∈ (db.fileInfos effectiveTakenAt).rows ∧ HasCategory c f := by
  choose filesOf hrun hmem using fun c => mem_listAllFiles codec x (db.fileInfos effectiveTakenAt)
    ⟨pageSize, codec.empty, [], c, sortField, sortOrder⟩
  have hcategory : ∀ c, EndsInOnlySlash c → ∀ f, f ∈ filesOf c ↔
      f ∈ (db.fileInfos effectiveTakenAt).rows ∧ HasCategory c f := by
    intro c hc f
    rw [hmem, ListFilesRequest.selects, selected_category_iff x hc]
  refine ⟨filesOf, hrun, fun c => ?_, nodup_categories db, hcategory⟩
  rw [mem_listContentTypes_iff effectiveTakenAt]
  refine and_congr_right fun hc => ?_
  constructor
  · rintro ⟨f, hf⟩
    exact List.ne_nil_of_mem ((hcategory c hc f).mpr hf)
  · intro hne
    obtain ⟨f, hf⟩ := List.exists_mem_of_ne_nil _ hne
    exact ⟨f, (hcategory c hc f).mp hf⟩

def shelfStats : Results StatRow :=
  ((∅ : Results StatRow).insert 1 ⟨ascii "image/jpeg", 4, 0, 0⟩).insert 2 ⟨ascii "text/plain", 6, 0, 0⟩

def shelfIndex : StatIndex where
  files :=
    { rows := [⟨1, ascii "a.jpg", 0, 0, 0⟩, ⟨2, ascii "b.txt", 0, 0, 0⟩, ⟨3, ascii "c", 0, 0, 0⟩]
      nextId := 4
      pk := by decide
      unique := by decide
      serial := by decide }
  stat := shelfStats
  fileId id row h := by
    have hall : ∀ e ∈ shelfStats.entries, e.1 = 1 ∨ e.1 = 2 := by decide
    obtain hid | hid : id = 1 ∨ id = 2 := hall ⟨id, row⟩ (AList.mem_lookup_iff.mp h)
    · exact ⟨_, List.mem_cons_self, hid.symm⟩
    · exact ⟨_, List.mem_cons_of_mem _ List.mem_cons_self, hid.symm⟩
  serial := by decide

theorem content_type_categories_of_shelf :
    listContentTypes shelfIndex = [ascii "image/", ascii "text/"] ∧
      ∃ photos, listAllFiles TokenCodec.plain TextSearch.none (shelfIndex.fileInfos fun _ => 0)
          ⟨1, TokenCodec.plain.empty, [], ascii "image/", .key, .asc⟩ = .ok photos ∧
        photos ≠ [] ∧ ∀ f ∈ photos, HasCategory (ascii "image/") f := by
  have himage : ascii "image/" ∈ listContentTypes shelfIndex := by decide
  obtain ⟨filesOf, hrun, hmem, -, hfiles⟩ := content_type_categories TokenCodec.plain
    TextSearch.none shelfIndex (fun _ => 0) 1 .key .asc
  obtain ⟨honly, hne⟩ := (hmem (ascii "image/")).mp himage
  exact ⟨by decide, filesOf (ascii "image/"), hrun _, hne, fun f hf => ((hfiles _ honly f).mp hf).2⟩

end Search

end FileIndexer
