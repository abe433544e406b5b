import FileIndexer.Foundation.Binary64
import FileIndexer.Service.Indexer.Preview
import FileIndexer.Service.Files.PreviewStatus

namespace FileIndexer

namespace Web

open Search

-- the conversion of a protobuf Timestamp to the milliseconds of a Date, exact on whole ones
structure Wkt where
  timestampMs : Time → Int
  mono : Monotone timestampMs
  whole : ∀ ms : Int, timestampMs (1000 * ms : Int) = ms

def Wkt.floor : Wkt where
  timestampMs t := Int.ediv t 1000
  mono _ _ h := Int.ediv_le_ediv (by decide) h
  whole ms := Int.mul_ediv_cancel_left ms (by decide)

-- what toISOString writes, as the milliseconds that Date reads back from it
abbrev IsoDate := Int

def number (n : Int) : ℚ := if n < 0 then -Binary64.round (-n) else Binary64.round n

structure FileDto where
  id : Text
  key : Key
  contentType : Text
  sizeBytes : ℚ
  createdAt : Option IsoDate
  updatedAt : Option IsoDate
  takenAt : Option IsoDate
  previewUrl : Option Text
  previewWidth : Option Int
  previewHeight : Option Int
  previewStatus : PreviewStatus
  deriving DecidableEq, Repr

def toFileDto (wkt : Wkt) (file : FileInfoMessage) : FileDto where
  id := formatInt file.id
  key := file.key
  contentType := file.contentType
  sizeBytes := number file.sizeBytes
  createdAt := file.createdAt.map wkt.timestampMs
  updatedAt := file.updatedAt.map wkt.timestampMs
  takenAt := file.exifTakenAt.map wkt.timestampMs
  previewUrl := none
  previewWidth := if file.previewKey = [] then none else some file.previewWidth
  previewHeight := if file.previewKey = [] then none else some file.previewHeight
  previewStatus := file.previewStatus

-- new Map(entries).get: the last entry of a key is the one kept
def mapGet {ν : Type} (entries : List (Text × ν)) (key : Text) : Option ν :=
  entries.reverse.lookup key

def attachPreviewUrls (previewUrls : List PreviewURLSpec) (dtos : List FileDto) : List FileDto :=
  let byId := previewUrls.map fun p => (formatInt p.id, p.url)
  dtos.map fun dto => { dto with previewUrl := mapGet byId dto.id }

inductive SortFieldInput where
  | key
  | lastModified
  | size
  | takenAt
  deriving DecidableEq, Repr

inductive SortOrderInput where
  | asc
  | desc
  deriving DecidableEq, Repr

def SortFieldInput.pb : SortFieldInput → SortField
  | .key => .key
  | .lastModified => .lastModified
  | .size => .size
  | .takenAt => .takenAt

def SortOrderInput.pb : SortOrderInput → SortOrder
  | .asc => .asc
  | .desc => .desc

structure ListFilesInput (τ : Type) where
  pageSize : Option Nat
  pageToken : Option τ
  query : Option Text
  contentType : Option Text
  sortField : Option SortFieldInput
  sortOrder : Option SortOrderInput

structure ListFilesResult (τ : Type) where
  files : List FileDto
  nextPageToken : τ

structure Backend where
  rows : FileRows
  queue : IndexQueue
  getPreviewURL : List FileID → Option (List PreviewURLSpec)

section ListFiles

variable {τ : Type} [DecidableEq τ] (c : TokenCodec τ) (x : TextSearch) (wkt : Wkt)

def ListFilesInput.request (input : ListFilesInput τ) : ListFilesRequest τ where
  pageSize := input.pageSize.getD 0
  pageToken := input.pageToken.getD c.empty
  query := input.query.getD []
  contentType := input.contentType.getD []
  sortField := (input.sortField.getD .key).pb
  sortOrder := (input.sortOrder.getD .asc).pb

def withPreviewUrls (files : List FileInfoMessage)
    (getPreviewURL : List FileID → Option (List PreviewURLSpec)) : List FileDto :=
  let dtos := files.map (toFileDto wkt)
  let ids := (files.filter fun f => f.previewKey ≠ []).map fun f => f.id
  if ids = [] then dtos
  else
    match getPreviewURL ids with
    | some previewUrls => attachPreviewUrls previewUrls dtos
    | none => dtos

def listFilesImpl (b : Backend) (input : ListFilesInput τ) :
    Except Search.Status (ListFilesResult τ) := do
  let (files, nextPageToken) ← Rpc.listFileInfos c x b.rows b.queue (input.request c)
  .ok ⟨withPreviewUrls wkt files b.getPreviewURL, nextPageToken⟩

-- useInfiniteQuery: the pages fetched so far, and whether the last of them ended the list
def infiniteQuery (input : ListFilesInput τ) :
    τ → List Backend → Except Search.Status (Bool × List (List FileDto))
  | _, [] => .ok (false, [])
  | pageParam, b :: bs => do
    let lastPage ← listFilesImpl c x wkt b { input with pageToken := some pageParam }
    if lastPage.nextPageToken = c.empty then
      .ok (true, [lastPage.files])
    else
      let (done, pages) ← infiniteQuery input lastPage.nextPageToken bs
      .ok (done, lastPage.files :: pages)

end ListFiles

section Shows

def ShowsRow (wkt : Wkt) (q : IndexQueue) (r : FileRow) (d : FileDto) : Prop :=
  ∃ url, d = { toFileDto wkt (infoMessage q r) with previewUrl := url }

variable {wkt : Wkt} {q : IndexQueue}

theorem showsRow_toFileDto (wkt : Wkt) (q : IndexQueue) (r : FileRow) :
    ShowsRow wkt q r (toFileDto wkt (infoMessage q r)) :=
  ⟨none, rfl⟩

theorem showsRows_withPreviewUrls (wkt : Wkt) (q : IndexQueue) (rows : List FileRow)
    (getPreviewURL : List FileID → Option (List PreviewURLSpec)) :
    List.Forall₂ (ShowsRow wkt q) rows
      (withPreviewUrls wkt (rows.map (infoMessage q)) getPreviewURL) := by
  have hplain : List.Forall₂ (ShowsRow wkt q) rows ((rows.map (infoMessage q)).map
      (toFileDto wkt)) := by
    rw [List.map_map, List.forall₂_map_right_iff, List.forall₂_same]
    exact fun r _ => showsRow_toFileDto wkt q r
  unfold withPreviewUrls
  dsimp only
  split
  · exact hplain
  · split
    · rw [attachPreviewUrls, List.forall₂_map_right_iff]
      refine hplain.imp ?_
      rintro r d ⟨url, rfl⟩
      exact ⟨_, rfl⟩
    · exact hplain

theorem exists_left_of_mem {α β : Type} {R : α → β → Prop} {l : List α} {m : List β}
    (h : List.Forall₂ R l m) {b : β} (hb : b ∈ m) : ∃ a ∈ l, R a b := by
  induction h with
  | nil => cases hb
  | cons hab _ ih =>
    rcases List.mem_cons.mp hb with rfl | hb
    · exact ⟨_, List.mem_cons_self, hab⟩
    · obtain ⟨a, ha, hR⟩ := ih hb
      exact ⟨a, List.mem_cons_of_mem _ ha, hR⟩

end Shows

section PreviewUrls

variable {wkt : Wkt} {getInlineURL : Key → Option Text}

theorem mapGet_eq_some {ν : Type} {entries : List (Text × ν)} {key : Text} {v : ν}
    (h : mapGet entries key = some v) : (key, v) ∈ entries := by
  obtain ⟨l, m, heq, -⟩ := List.lookup_eq_some_iff.mp h
  have hmem : (key, v) ∈ entries.reverse := by simp [heq]
  exact List.mem_reverse.mp hmem

theorem exists_mapGet {ν : Type} {entries : List (Text × ν)} {key : Text} {v : ν}
    (h : (key, v) ∈ entries) : ∃ v', mapGet entries key = some v' := by
  apply Option.isSome_iff_exists.mp
  exact List.lookup_isSome_iff.mpr ⟨(key, v), List.mem_reverse.mpr h, beq_self_eq_true key⟩

theorem mem_attachPreviewUrls {specs : List PreviewURLSpec} {dtos : List FileDto} {d : FileDto}
    (h : d ∈ attachPreviewUrls specs dtos) : ∃ dto ∈ dtos, d = { dto with
      previewUrl := mapGet (specs.map fun p => (formatInt p.id, p.url)) dto.id } := by
  obtain ⟨dto, hdto, rfl⟩ := List.mem_map.mp h
  exact ⟨dto, hdto, rfl⟩

def OwnURL (getInlineURL : Key → Option Text) (table : List FileRow) (id : FileID) (url : Text) :
    Prop :=
  ∃ r ∈ table, r.id = id ∧ ∃ key, r.previewKey = some key ∧ key ≠ [] ∧ getInlineURL key = some url

theorem OwnURL.unique {table : List FileRow} {id : FileID} {url url' : Text}
    (hpk : (table.map fun r => r.id).Nodup) (h : OwnURL getInlineURL table id url)
    (h' : OwnURL getInlineURL table id url') : url = url' := by
  obtain ⟨r, hr, hid, key, hkey, -, hurl⟩ := h
  obtain ⟨r', hr', hid', key', hkey', -, hurl'⟩ := h'
  obtain rfl := Rows.eq_of_pk hpk hr hr' (hid.trans hid'.symm)
  obtain rfl := Option.some.inj (hkey.symm.trans hkey')
  exact Option.some.inj (hurl.symm.trans hurl')

structure AnswersOver (getInlineURL : Key → Option Text) (table : List FileRow)
    (getPreviewURL : List FileID → Option (List PreviewURLSpec)) : Prop where
  answer : ∀ ids specs, getPreviewURL ids = some specs →
    ∃ files, FilesServer.GetFilesByIDs table ids files ∧
      FilesServer.getPreviewURL getInlineURL files = some specs

theorem mapGet_answer {table : List FileRow} {ids : List FileID} {files : List FileRow}
    {specs : List PreviewURLSpec} (hpk : (table.map fun r => r.id).Nodup)
    (hfiles : FilesServer.GetFilesByIDs table ids files)
    (hspecs : FilesServer.getPreviewURL getInlineURL files = some specs) {id : FileID} {url : Text} :
    mapGet (specs.map fun p => (formatInt p.id, p.url)) (formatInt id) = some url ↔
      id ∈ ids ∧ OwnURL getInlineURL table id url := by
  have hown {url : Text} : (formatInt id, url) ∈ specs.map (fun p => (formatInt p.id, p.url)) ↔
      id ∈ ids ∧ OwnURL getInlineURL table id url := by
    rw [List.mem_map]
    constructor
    · rintro ⟨spec, hspec, heq⟩
      obtain ⟨hid, rfl⟩ := Prod.mk.inj heq
      obtain rfl := formatInt_injective hid
      obtain ⟨f, hf, hfid, hkey⟩ := (FilesServer.mem_getPreviewURL hspecs).mp hspec
      obtain ⟨hmem, hids⟩ := (FilesServer.mem_getFilesByIDs hfiles).mp hf
      exact ⟨hfid ▸ hids, f, hmem, hfid, hkey⟩
    · rintro ⟨hids, f, hmem, hfid, hkey⟩
      refine ⟨⟨id, url⟩, (FilesServer.mem_getPreviewURL hspecs).mpr ⟨f, ?_, hfid, hkey⟩, rfl⟩
      exact (FilesServer.mem_getFilesByIDs hfiles).mpr ⟨hmem, hfid ▸ hids⟩
  refine ⟨fun h => hown.mp (mapGet_eq_some h), fun h => ?_⟩
  obtain ⟨url', hurl'⟩ := exists_mapGet (hown.mpr h)
  rw [hurl', (hown.mp (mapGet_eq_some hurl')).2.unique hpk h.2]

def previewIds (files : List FileInfoMessage) : List FileID :=
  (files.filter fun f => f.previewKey ≠ []).map fun f => f.id

theorem mem_previewIds {t : FileRows} {q : IndexQueue} {rows : List FileRow}
    (hin : ∀ r ∈ rows, r ∈ t.rows) {r : FileRow} (hr : r ∈ rows) :
    r.id ∈ previewIds (rows.map (infoMessage q)) ↔ r.previewKey.getD [] ≠ [] := by
  rw [previewIds, List.mem_map]
  constructor
  · rintro ⟨f, hf, hid⟩
    obtain ⟨hf, hkey⟩ := List.mem_filter.mp hf
    obtain ⟨r', hr', rfl⟩ := List.mem_map.mp hf
    obtain rfl : r' = r := Rows.eq_of_pk t.pk (hin r' hr') (hin r hr) hid
    exact of_decide_eq_true hkey
  · intro hkey
    refine ⟨infoMessage q r, List.mem_filter.mpr ⟨List.mem_map_of_mem hr, ?_⟩, rfl⟩
    exact decide_eq_true hkey

theorem withPreviewUrls_cases (wkt : Wkt) (files : List FileInfoMessage)
    (getPreviewURL : List FileID → Option (List PreviewURLSpec)) :
    (withPreviewUrls wkt files getPreviewURL = files.map (toFileDto wkt) ∧
      (previewIds files = [] ∨ getPreviewURL (previewIds files) = none)) ∨
    ∃ specs, getPreviewURL (previewIds files) = some specs ∧
      withPreviewUrls wkt files getPreviewURL =
        attachPreviewUrls specs (files.map (toFileDto wkt)) := by
  rw [withPreviewUrls, ← previewIds]
  split
  · rename_i hids
    exact Or.inl ⟨rfl, Or.inl hids⟩
  · cases hspecs : getPreviewURL (previewIds files) with
    | none => exact Or.inl ⟨rfl, Or.inr rfl⟩
    | some specs => exact Or.inr ⟨specs, rfl, rfl⟩

end PreviewUrls

section Pages

variable {τ : Type} [DecidableEq τ] {c : TokenCodec τ} {x : TextSearch} {wkt : Wkt}

structure Loaded (wkt : Wkt) (bs : List Backend) (f : Search.FileInfo) (d : FileDto) : Prop where
  row : ∃ b ∈ bs, ∃ r ∈ b.rows.rows, r.toFileInfo = f ∧ ShowsRow wkt b.queue r d

theorem Loaded.mono {bs bs' : List Backend} {f : Search.FileInfo} {d : FileDto} (h : Loaded wkt bs f d)
    (hsub : ∀ b ∈ bs, b ∈ bs') : Loaded wkt bs' f d := by
  obtain ⟨b, hb, hr⟩ := h.row
  exact ⟨b, hsub b hb, hr⟩

theorem listFilesImpl_eq (wkt : Wkt) {b : Backend} {input : ListFilesInput τ}
    {resp : ListFilesResponse τ}
    (h : Rpc.listFiles c x b.rows.infos (input.request c) = .ok resp) :
    ∃ rows : List FileRow, rows.map FileRow.toFileInfo = resp.files ∧
      (∀ r ∈ rows, r ∈ b.rows.rows) ∧
      listFilesImpl c x wkt b input =
        .ok ⟨withPreviewUrls wkt (rows.map (infoMessage b.queue)) b.getPreviewURL,
          resp.nextPageToken⟩ := by
  have hrows := rows_of_infos fun f hf => (Rpc.mem_of_listFiles h hf).1
  refine ⟨_, hrows, fun r hr => ?_, ?_⟩
  · obtain ⟨f, -, hrow⟩ := List.mem_filterMap.mp hr
    exact (FileRows.row_eq_some_iff.mp hrow).1
  · rw [listFilesImpl, Rpc.listFileInfos, h, Except.ok_bind]
    dsimp only
    rw [attachPreviewStatuses_eq]
    rfl

theorem loaded_withPreviewUrls {b : Backend} {rows : List FileRow} (hin : ∀ r ∈ rows, r ∈ b.rows.rows) :
    List.Forall₂ (Loaded wkt [b]) (rows.map FileRow.toFileInfo)
      (withPreviewUrls wkt (rows.map (infoMessage b.queue)) b.getPreviewURL) := by
  rw [List.forall₂_map_left_iff]
  have hshows := showsRows_withPreviewUrls wkt b.queue rows b.getPreviewURL
  refine List.Forall₂.imp ?_ ((List.forall₂_and_left _ _).mpr ⟨hin, hshows⟩)
  rintro r d ⟨hr, hd⟩
  exact ⟨b, List.mem_singleton_self b, r, hr, rfl, hd⟩

theorem listFilesImpl_loaded (wkt : Wkt) {b : Backend} {input : ListFilesInput τ}
    {resp : ListFilesResponse τ}
    (h : Rpc.listFiles c x b.rows.infos (input.request c) = .ok resp) :
    ∃ files, listFilesImpl c x wkt b input = .ok ⟨files, resp.nextPageToken⟩ ∧
      List.Forall₂ (Loaded wkt [b]) resp.files files := by
  obtain ⟨rows, hrows, hin, himpl⟩ := listFilesImpl_eq wkt h
  exact ⟨_, himpl, hrows ▸ loaded_withPreviewUrls hin⟩

theorem loaded_cons {b : Backend} {bs : List Backend} {files : List Search.FileInfo}
    {page : List FileDto} (h : List.Forall₂ (Loaded wkt [b]) files page) :
    List.Forall₂ (Loaded wkt (b :: bs)) files page :=
  h.imp fun _ _ hd => hd.mono fun _ hb => List.mem_singleton.mp hb ▸ List.mem_cons_self

theorem infiniteQuery_follows (wkt : Wkt) (input : ListFilesInput τ) {pageParam : τ} {bs : List Backend}
    {done : Bool} {files : List (List Search.FileInfo)}
    (h : listFilesFollowing c x (input.request c) pageParam
      (bs.map fun b => (input.pageSize.getD 0, b.rows.infos)) = .ok (done, files)) :
    ∃ pages, infiniteQuery c x wkt input pageParam bs = .ok (done, pages) ∧
      List.Forall₂ (List.Forall₂ (Loaded wkt bs)) files pages := by
  induction bs generalizing pageParam done files with
  | nil =>
    obtain ⟨rfl, rfl⟩ := Prod.mk.injEq .. ▸ Except.ok.inj h
    exact ⟨[], rfl, .nil⟩
  | cons b bs ih =>
    obtain ⟨resp, hresp, h⟩ := Except.bind_eq_ok.mp h
    obtain ⟨page, himpl, hpage⟩ := listFilesImpl_loaded wkt
      (show Rpc.listFiles c x b.rows.infos
        (ListFilesInput.request c { input with pageToken := some pageParam }) = .ok resp from hresp)
    rw [infiniteQuery, himpl, Except.ok_bind]
    dsimp only at h ⊢
    by_cases hend : resp.nextPageToken = c.empty
    · rw [if_pos hend] at h ⊢
      obtain ⟨rfl, rfl⟩ := Prod.mk.injEq .. ▸ Except.ok.inj h
      exact ⟨_, rfl, .cons (loaded_cons hpage) .nil⟩
    · rw [if_neg hend] at h ⊢
      obtain ⟨rest, hrest, h⟩ := Except.bind_eq_ok.mp h
      obtain ⟨rfl, rfl⟩ := Prod.mk.injEq .. ▸ Except.ok.inj h
      obtain ⟨pages, hpages, hloaded⟩ := ih hrest
      rw [hpages]
      refine ⟨page :: pages, rfl, .cons (loaded_cons hpage) (hloaded.imp fun fs ds hds => ?_)⟩
      exact hds.imp fun f d hd => hd.mono fun b' hb' => List.mem_cons_of_mem _ hb'

theorem preview_urls_own (c : TokenCodec τ) (x : TextSearch) (wkt : Wkt)
    (getInlineURL : Key → Option Text) (b : Backend) (table : List FileRow)
    (hpk : (table.map fun r => r.id).Nodup) (hurl : AnswersOver getInlineURL table b.getPreviewURL)
    (input : ListFilesInput τ) (page : ListFilesResult τ)
    (h : listFilesImpl c x wkt b input = .ok page) {d : FileDto} (hd : d ∈ page.files) :
    ∃ r ∈ b.rows.rows, ShowsRow wkt b.queue r d ∧
      (∀ url, d.previewUrl = some url →
        r.previewKey.getD [] ≠ [] ∧ OwnURL getInlineURL table r.id url) ∧
      ((∀ ids, b.getPreviewURL ids ≠ none) → r.previewKey.getD [] ≠ [] →
        ∀ url, OwnURL getInlineURL table r.id url → d.previewUrl = some url) := by
  cases hresp : Rpc.listFiles c x b.rows.infos (input.request c) with
  | error e =>
    rw [listFilesImpl, Rpc.listFileInfos, hresp] at h
    cases h
  | ok resp =>
    obtain ⟨rows, -, hin, himpl⟩ := listFilesImpl_eq wkt hresp
    obtain rfl := Except.ok.inj (himpl.symm.trans h)
    rcases withPreviewUrls_cases wkt (rows.map (infoMessage b.queue)) b.getPreviewURL with
      ⟨hplain, hnone⟩ | ⟨specs, hspecs, hattach⟩
    · simp only [hplain, List.map_map] at hd
      obtain ⟨r, hr, rfl⟩ := List.mem_map.mp hd
      refine ⟨r, hin r hr, showsRow_toFileDto wkt b.queue r, ?_, fun hok hkey => ?_⟩
      · intro url hsome
        cases hsome
      have hids := (mem_previewIds (q := b.queue) hin hr).mpr hkey
      rcases hnone with hnone | hnone
      · rw [hnone] at hids
        cases hids
      · exact absurd hnone (hok _)
    · simp only [hattach] at hd
      obtain ⟨dto, hdto, rfl⟩ := mem_attachPreviewUrls hd
      rw [List.map_map] at hdto
      obtain ⟨r, hr, rfl⟩ := List.mem_map.mp hdto
      obtain ⟨files, hfiles, hanswer⟩ := hurl.answer _ specs hspecs
      have hget {url : Text} : mapGet (specs.map fun p => (formatInt p.id, p.url)) (formatInt r.id) =
          some url ↔ r.previewKey.getD [] ≠ [] ∧ OwnURL getInlineURL table r.id url := by
        rw [mapGet_answer hpk hfiles hanswer, mem_previewIds hin hr]
      exact ⟨r, hin r hr, ⟨_, rfl⟩, fun url hsome => hget.mp hsome,
        fun _ hkey url hown => hget.mpr ⟨hkey, hown⟩⟩

def linkedRow : FileRow :=
  .ofJoin ⟨2, ascii "a.jpg", 0, 0, 0⟩ 5 (some ⟨ascii "image/jpeg", 9, 5, 0⟩) none
    (some ⟨ascii ".index/previews/2", 300, 200, 0⟩)

def linkedRows : FileRows := ⟨[linkedRow], by decide, by decide, by decide⟩

def signedURL (key : Key) : Option Text := some (ascii "https://" ++ key)

def linkedBackend : Backend where
  rows := linkedRows
  queue _ := none
  getPreviewURL ids :=
    FilesServer.getPreviewURL signedURL (linkedRows.rows.filter fun f => ids.contains f.id)

theorem preview_urls_of_photo :
    ∃ page, listFilesImpl .plain .none .floor linkedBackend
        ⟨none, none, none, none, none, none⟩ = .ok page ∧
      ∀ d ∈ page.files, d.previewUrl = some (ascii "https://.index/previews/2") := by
  refine ⟨_, rfl, fun d hd => ?_⟩
  obtain ⟨r, hr, -, -, hlinked⟩ := preview_urls_own .plain .none .floor signedURL linkedBackend
    linkedRows.rows (by decide) ⟨fun ids specs h => ⟨_, List.Perm.refl _, h⟩⟩
    ⟨none, none, none, none, none, none⟩ _ rfl hd
  obtain rfl := List.mem_singleton.mp hr
  refine hlinked (fun ids => ?_) (by decide) _ ⟨linkedRow, hr, rfl, _, rfl, by decide, rfl⟩
  dsimp only [linkedBackend, linkedRows, List.filter]
  cases ids.contains linkedRow.id with
  | true => exact Option.some_ne_none _
  | false => exact Option.some_ne_none _

end Pages

end Web

end FileIndexer
