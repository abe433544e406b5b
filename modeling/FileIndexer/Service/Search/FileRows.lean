import FileIndexer.Service.Indexer.TakenAt
import FileIndexer.Service.Search.ListFiles

namespace FileIndexer

namespace Search

structure FileRow extends FileInfo where
  createdAt : Time
  takenAt : Option Time
  previewKey : Option Key
  previewWidth : Option Int
  previewHeight : Option Int
  deriving DecidableEq, Repr

def FileRow.ofJoin (f : File) (effectiveTakenAt : Time) (stat : Option StatRow)
    (exif : Option ExifRow) (preview : Option PreviewRow) : FileRow where
  id := f.id
  key := f.key
  contentType := stat.map StatRow.contentType
  sizeBytes := stat.map StatRow.sizeBytes
  lastModified := stat.map StatRow.lastModified
  effectiveTakenAt
  createdAt := f.createdAt
  takenAt := exif.bind ExifRow.takenAt
  previewKey := preview.map PreviewRow.previewKey
  previewWidth := preview.map PreviewRow.width
  previewHeight := preview.map PreviewRow.height

structure FileRow.Joined (r : FileRow) : Prop where
  join : ∃ f stat exif preview, r = FileRow.ofJoin f (effectiveTakenAt exif stat) stat exif preview

-- the times that a protobuf Timestamp may state, of the years 1 to 9999
def IsTimestamp (t : Time) : Prop := zeroTime ≤ t ∧ t < (253402300800000000 : Int)

instance decidableIsTimestamp (t : Time) : Decidable (IsTimestamp t) :=
  inferInstanceAs (Decidable (zeroTime ≤ t ∧ t < (253402300800000000 : Int)))

structure FileRow.Timestamped (r : FileRow) : Prop where
  createdAt : IsTimestamp r.createdAt
  lastModified : ∀ t ∈ r.lastModified, IsTimestamp t
  takenAt : ∀ t ∈ r.takenAt, IsTimestamp t

structure FileRows where
  rows : List FileRow
  pk : (rows.map fun f => f.id).Nodup
  unique : (rows.map fun f => f.key).Nodup
  serial : ∀ f ∈ rows, 0 < f.id

def FileRows.infos (t : FileRows) : FileInfos where
  rows := t.rows.map FileRow.toFileInfo
  pk := by simpa [Function.comp_def] using t.pk
  unique := by simpa [Function.comp_def] using t.unique
  serial f hf := by
    obtain ⟨r, hr, rfl⟩ := List.mem_map.mp hf
    exact t.serial r hr

def FileRows.row (t : FileRows) (id : FileID) : Option FileRow :=
  Rows.lookup (fun f : FileRow => f.id) id t.rows

theorem FileRows.row_eq_some_iff {t : FileRows} {id : FileID} {r : FileRow} :
    t.row id = some r ↔ r ∈ t.rows ∧ r.id = id :=
  Rows.lookup_eq_some_iff t.pk

inductive PreviewStatus where
  | unspecified
  | none
  | pending
  | processing
  | ready
  | failed
  deriving DecidableEq, Repr

-- the FileInfo message: zero values stand for NULL, a timestamp stays unset
structure FileInfoMessage where
  id : FileID
  key : Key
  contentType : Text
  sizeBytes : Int
  createdAt : Option Time
  updatedAt : Option Time
  exifTakenAt : Option Time
  previewKey : Key
  previewWidth : Int
  previewHeight : Int
  previewStatus : PreviewStatus
  deriving DecidableEq, Repr

def dbFileToProto (f : FileRow) : FileInfoMessage where
  id := f.id
  key := f.key
  contentType := f.contentType.getD []
  sizeBytes := f.sizeBytes.getD 0
  createdAt := some f.createdAt
  updatedAt := f.lastModified
  exifTakenAt := f.takenAt
  previewKey := f.previewKey.getD []
  previewWidth := f.previewWidth.getD 0
  previewHeight := f.previewHeight.getD 0
  previewStatus := .unspecified

def previewStatus (f : FileRow) (queued : Option QueueStatus) : PreviewStatus :=
  if f.previewKey.isSome then .ready
  else
    match queued with
    | some .pending => .pending
    | some .claimed => .processing
    | some .error => .failed
    | some .done => .none
    | none => if f.contentType.all fun t => (ascii "image/").isPrefixOf t then .pending else .none

-- at most one row for each file: the primary key is (index_type, file_id)
def getIndexQueueStatuses (q : IndexQueue) (ids : List FileID) : List (FileID × QueueStatus) :=
  ids.dedup.filterMap fun id => (q id).map fun r => (id, r.status)

theorem lookup_getIndexQueueStatuses {q : IndexQueue} {ids : List FileID} {id : FileID}
    (h : id ∈ ids) : (getIndexQueueStatuses q ids).lookup id = (q id).map QueueRow.status := by
  have hlookup := Rows.lookup_filterMap (fun id => (q id).map QueueRow.status) ids.dedup id
  rw [if_pos (List.mem_dedup.mpr h)] at hlookup
  rw [← hlookup, getIndexQueueStatuses]
  simp only [Option.map_map, Function.comp_def]

def attachPreviewStatuses (q : IndexQueue) (files : List FileRow) (infos : List FileInfoMessage) :
    List FileInfoMessage :=
  let queued := getIndexQueueStatuses q (files.map fun f => f.id)
  List.zipWith (fun f info => { info with previewStatus := previewStatus f (queued.lookup f.id) })
    files infos

section Rpc

variable {τ : Type} [DecidableEq τ] (c : TokenCodec τ)

-- ListFiles with everything it answers: the rows it read, and the queue as it was read after them
def Rpc.listFileInfos (x : TextSearch) (t : FileRows) (q : IndexQueue) (req : ListFilesRequest τ) :
    Except Status (List FileInfoMessage × τ) := do
  let resp ← Rpc.listFiles c x t.infos req
  let files := resp.files.filterMap fun f => t.row f.id
  .ok (attachPreviewStatuses q files (files.map dbFileToProto), resp.nextPageToken)

end Rpc

theorem Rpc.mem_of_listFiles {τ : Type} [DecidableEq τ] {c : TokenCodec τ} {x : TextSearch}
    {t : FileInfos} {req : ListFilesRequest τ} {resp : ListFilesResponse τ}
    (h : Rpc.listFiles c x t req = .ok resp) {f : FileInfo} (hf : f ∈ resp.files) :
    f ∈ t.rows ∧ req.selects x f = true := by
  obtain ⟨hfield, horder⟩ := req.sort_specified
  have hdef := Rpc.listFiles_def (c := c) x t req req.pageSize req.pageToken
  rw [show ({ req with pageSize := req.pageSize, pageToken := req.pageToken } :
    ListFilesRequest τ) = req from rfl, h] at hdef
  cases hread : readToken c req.pageToken fun cur =>
      cur.sortField = req.sort.1 && cur.sortOrder = req.sort.2 && cur.query = req.query &&
        cur.contentType = req.contentType with
  | error e =>
    rw [hread] at hdef
    cases hdef
  | ok cur =>
    rw [hread, Except.ok_bind, Search.listFiles_eq hfield horder, Except.ok_bind] at hdef
    have hsub : f ∈ Paging.page (position req.sort.1 req.sort.2)
        (cursorPosition req.sort.1 req.sort.2 cur) (normalizePageSize req.pageSize + 1)
        (t.rows.filter (req.selects x)) := by
      split at hdef
      · rw [Except.ok.inj hdef] at hf
        exact List.mem_of_mem_take hf
      · rw [Except.ok.inj hdef] at hf
        exact hf
    exact List.mem_filter.mp (Paging.mem_page hsub).1

def infoMessage (q : IndexQueue) (f : FileRow) : FileInfoMessage :=
  { dbFileToProto f with previewStatus := previewStatus f ((q f.id).map QueueRow.status) }

theorem attachPreviewStatuses_eq (q : IndexQueue) (files : List FileRow) :
    attachPreviewStatuses q files (files.map dbFileToProto) = files.map (infoMessage q) := by
  rw [attachPreviewStatuses, List.zipWith_map_right, List.zipWith_self]
  refine List.map_congr_left fun f hf => ?_
  have hqueued := lookup_getIndexQueueStatuses (q := q) (List.mem_map_of_mem (f := fun f => f.id) hf)
  simp only [hqueued]
  rfl

theorem rows_of_infos {t : FileRows} {files : List FileInfo} (h : ∀ f ∈ files, f ∈ t.infos.rows) :
    (files.filterMap fun f => t.row f.id).map FileRow.toFileInfo = files := by
  induction files with
  | nil => rfl
  | cons f files ih =>
    obtain ⟨r, hr, rfl⟩ := List.mem_map.mp (h f List.mem_cons_self)
    have hrow : t.row r.id = some r := FileRows.row_eq_some_iff.mpr ⟨hr, rfl⟩
    rw [List.filterMap_cons, hrow, List.map_cons, ih fun f hf => h f (List.mem_cons_of_mem _ hf)]

end Search

end FileIndexer
