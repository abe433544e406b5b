import FileIndexer.Service.Indexer.Pool
import FileIndexer.Service.Search.FileRows

namespace FileIndexer

open Search

structure PreviewURLSpec where
  id : FileID
  url : Text
  deriving DecidableEq, Repr

structure FilePreviewStatus where
  id : FileID
  previewStatus : PreviewStatus
  previewUrl : Text
  deriving DecidableEq, Repr

namespace FilesServer

def previewStatus (f : FileRow) (queued : Option QueueStatus) : PreviewStatus :=
  if f.previewKey.isSome then .ready
  else
    match queued with
    | some .pending => .pending
    | some .claimed => .processing
    | some .error => .failed
    | some .done => .none
    | none => if f.contentType.all fun t => (ascii "image/").isPrefixOf t then .pending else .none

-- id = ANY (ids), in whichever order the rows come
def GetFilesByIDs (rows : List FileRow) (ids : List FileID) (files : List FileRow) : Prop :=
  files.Perm (rows.filter fun f => ids.contains f.id)

instance decidableGetFilesByIDs (rows : List FileRow) (ids : List FileID) (files : List FileRow) :
    Decidable (GetFilesByIDs rows ids files) :=
  inferInstanceAs (Decidable (files.Perm (rows.filter fun f => ids.contains f.id)))

section Presigned

variable (getInlineURL : Key → Option Text)

def getPreviewURL : List FileRow → Option (List PreviewURLSpec)
  | [] => some []
  | f :: files =>
    let key := f.previewKey.getD []
    if key = [] then getPreviewURL files
    else do
      let url ← getInlineURL key
      let specs ← getPreviewURL files
      some (⟨f.id, url⟩ :: specs)

def previewStatusURL (f : FileRow) (ps : PreviewStatus) : Option Text :=
  if ps = .ready then getInlineURL (f.previewKey.getD []) else some []

def filePreviewStatuses (queued : FileID → Option QueueStatus) :
    List FileRow → Option (List FilePreviewStatus)
  | [] => some []
  | f :: files => do
    let ps := previewStatus f (queued f.id)
    let url ← previewStatusURL getInlineURL f ps
    let statuses ← filePreviewStatuses queued files
    some (⟨f.id, ps, url⟩ :: statuses)

-- files and q are what the two queries read, one after the other
def getFilePreviewStatuses (files : List FileRow) (q : IndexQueue) (ids : List FileID) :
    Option (List FilePreviewStatus) :=
  if ids = [] then some []
  else
    let queued := getIndexQueueStatuses q ids
    filePreviewStatuses getInlineURL (fun id => queued.lookup id) files

end Presigned

theorem previewStatus_eq (f : FileRow) (queued : Option QueueStatus) :
    previewStatus f queued = Search.previewStatus f queued := rfl

theorem previewStatus_eq_ready {f : FileRow} {queued : Option QueueStatus}
    (h : previewStatus f queued = .ready) : f.previewKey.isSome = true := by
  unfold previewStatus at h
  split at h
  · assumption
  · repeat' split at h
    all_goals cases h

theorem previewStatus_of_previewKey {f : FileRow} {key : Key} (h : f.previewKey = some key)
    (queued : Option QueueStatus) : previewStatus f queued = .ready := by
  rw [previewStatus.eq_def, h]
  rfl

variable {getInlineURL : Key → Option Text}

theorem mem_getFilesByIDs {rows files : List FileRow} {ids : List FileID}
    (h : GetFilesByIDs rows ids files) {f : FileRow} : f ∈ files ↔ f ∈ rows ∧ f.id ∈ ids := by
  rw [h.mem_iff, List.mem_filter, List.contains_iff_mem]

theorem mem_getPreviewURL {files : List FileRow} {specs : List PreviewURLSpec}
    (h : getPreviewURL getInlineURL files = some specs) {spec : PreviewURLSpec} :
    spec ∈ specs ↔ ∃ f ∈ files, f.id = spec.id ∧ ∃ key, f.previewKey = some key ∧ key ≠ [] ∧
      getInlineURL key = some spec.url := by
  induction files generalizing specs with
  | nil =>
    obtain rfl := Option.some.inj h
    simp
  | cons f files ih =>
    rw [getPreviewURL] at h
    split at h
    · rename_i hkey
      rw [ih h, List.exists_mem_cons_iff]
      refine (or_iff_right ?_).symm
      rintro ⟨-, key, hsome, hne, -⟩
      rw [hsome] at hkey
      exact hne hkey
    · rename_i hkey
      obtain ⟨url, hurl, h⟩ := Option.bind_eq_some_iff.mp h
      obtain ⟨rest, hrest, h⟩ := Option.bind_eq_some_iff.mp h
      obtain rfl := Option.some.inj h
      obtain ⟨key, hsome⟩ : ∃ key, f.previewKey = some key := by
        cases hf : f.previewKey with
        | none => exact absurd (by rw [hf]; rfl) hkey
        | some key => exact ⟨key, rfl⟩
      rw [hsome, Option.getD_some] at hkey hurl
      rw [List.mem_cons, ih hrest, List.exists_mem_cons_iff]
      refine or_congr_left ⟨?_, ?_⟩
      · rintro rfl
        exact ⟨rfl, key, hsome, hkey, hurl⟩
      · rintro ⟨hid, key', hsome', -, hurl'⟩
        obtain rfl := Option.some.inj (hsome.symm.trans hsome')
        obtain rfl := Option.some.inj (hurl.symm.trans hurl')
        rw [hid]

theorem mem_filePreviewStatuses {queued : FileID → Option QueueStatus} {files : List FileRow}
    {statuses : List FilePreviewStatus}
    (h : filePreviewStatuses getInlineURL queued files = some statuses) {s : FilePreviewStatus} :
    s ∈ statuses ↔ ∃ f ∈ files, f.id = s.id ∧ s.previewStatus = previewStatus f (queued f.id) ∧
      previewStatusURL getInlineURL f s.previewStatus = some s.previewUrl := by
  induction files generalizing statuses with
  | nil =>
    obtain rfl := Option.some.inj h
    simp
  | cons f files ih =>
    rw [filePreviewStatuses] at h
    obtain ⟨url, hurl, h⟩ := Option.bind_eq_some_iff.mp h
    obtain ⟨rest, hrest, h⟩ := Option.bind_eq_some_iff.mp h
    obtain rfl := Option.some.inj h
    rw [List.mem_cons, ih hrest, List.exists_mem_cons_iff]
    refine or_congr_left ⟨?_, ?_⟩
    · rintro rfl
      exact ⟨rfl, rfl, hurl⟩
    · obtain ⟨id, status, previewUrl⟩ := s
      rintro ⟨rfl, rfl, hurl'⟩
      obtain rfl := Option.some.inj (hurl.symm.trans hurl')
      rfl

theorem exists_previewStatusURL {f : FileRow}
    (h : ∀ key ∈ f.previewKey, ∃ url, getInlineURL key = some url) (queued : Option QueueStatus) :
    ∃ url, previewStatusURL getInlineURL f (previewStatus f queued) = some url := by
  unfold previewStatusURL
  split
  · rename_i hready
    obtain ⟨key, hkey⟩ := Option.isSome_iff_exists.mp (previewStatus_eq_ready hready)
    obtain ⟨url, hurl⟩ := h key hkey
    exact ⟨url, by rw [hkey, Option.getD_some, hurl]⟩
  · exact ⟨[], rfl⟩

theorem exists_filePreviewStatuses {files : List FileRow}
    (h : ∀ f ∈ files, ∀ key ∈ f.previewKey, ∃ url, getInlineURL key = some url)
    (queued : FileID → Option QueueStatus) :
    ∃ statuses, filePreviewStatuses getInlineURL queued files = some statuses := by
  induction files with
  | nil => exact ⟨[], rfl⟩
  | cons f files ih =>
    obtain ⟨statuses, hstatuses⟩ := ih fun f hf => h f (List.mem_cons_of_mem _ hf)
    obtain ⟨url, hurl⟩ := exists_previewStatusURL (h f List.mem_cons_self) (queued f.id)
    exact ⟨_, by rw [filePreviewStatuses, hstatuses, hurl]; rfl⟩

end FilesServer

section Kept

variable {β ι : Type}

structure JoinedTables where
  stat : FileID → Option StatRow
  exif : FileID → Option ExifRow

def Pool.fileRows (s : Pool β PreviewResult PreviewRow ι) (tables : JoinedTables) : List FileRow :=
  s.indexing.db.files.rows.map fun f =>
    .ofJoin f (effectiveTakenAt (tables.exif f.id) (tables.stat f.id)) (tables.stat f.id)
      (tables.exif f.id) (s.indexing.db.results.lookup f.id)

structure PreviewKept (db : IndexDb PreviewRow) (id : FileID) : Prop where
  issued : id < db.files.nextId
  row : (db.files.getFile id).isSome = true → (db.results.lookup id).isSome = true

theorem previewKept_of_fileRow {s : Pool β PreviewResult PreviewRow ι} {tables : JoinedTables}
    {r : FileRow} (hr : r ∈ s.fileRows tables) (hkey : r.previewKey.isSome = true) :
    PreviewKept s.indexing.db r.id := by
  obtain ⟨f, hf, rfl⟩ := List.mem_map.mp hr
  exact ⟨s.indexing.db.files.serial f hf, fun _ => by simpa [FileRow.ofJoin] using hkey⟩

theorem PreviewKept.mono {db db' : IndexDb PreviewRow} {id : FileID} (h : PreviewKept db id)
    (hfiles : db'.files.Follows db.files)
    (hrows : (db'.files.getFile id).isSome = true → (db.results.lookup id).isSome = true →
      (db'.results.lookup id).isSome = true) : PreviewKept db' id where
  issued := lt_of_lt_of_le h.issued hfiles.nextId
  row hfile := by
    refine hrows hfile (h.row ?_)
    obtain ⟨f, hf⟩ := Option.isSome_iff_exists.mp hfile
    obtain ⟨hmem, rfl⟩ := Files.getFile_eq_some_iff.mp hf
    rcases hfiles.origin f hmem with ⟨g, hg, hid, -⟩ | hnew
    · rw [Files.getFile_eq_some_iff.mpr ⟨hg, hid⟩]
      rfl
    · exact absurd h.issued (not_lt.mpr hnew)

theorem isSome_lookup_cascade {ρ : Type} {db : IndexDb ρ} {files : Files} {id : FileID}
    (hfile : (files.getFile id).isSome = true) (h : (db.results.lookup id).isSome = true) :
    ((db.cascade files).results.lookup id).isSome = true := by
  obtain ⟨row, hrow⟩ := Option.isSome_iff_exists.mp h
  have hmem : (⟨id, row⟩ : Sigma fun _ : FileID => ρ) ∈ (db.cascade files).results.entries :=
    List.mem_filter.mpr ⟨AList.mem_lookup_iff.mp hrow, hfile⟩
  rw [AList.mem_lookup_iff.mpr hmem]
  rfl

theorem isSome_lookup_insert {ρ : Type} {results : Results ρ} {id fileID : FileID} {row : ρ}
    (h : (results.lookup id).isSome = true) :
    ((results.insert fileID row).lookup id).isSome = true := by
  rcases eq_or_ne id fileID with rfl | hid
  · rw [AList.lookup_insert]
    rfl
  · rwa [AList.lookup_insert_ne hid]

variable [DecidableEq ι] {cfg : IndexerConfig}

theorem previewKept_preserved (id : FileID) :
    Transition.Preserves (Pool.step previewIndex cfg) (fun _ _ => True)
      fun s : Pool β PreviewResult PreviewRow ι => PreviewKept s.indexing.db id := by
  intro s a t h _ ht
  have hstep := poolStep_of_step ht
  generalize s.indexing = p at h hstep
  generalize t.indexing = q at hstep
  cases hstep with
  | @completed i fault job result readAt tries rest db prov w hw hfault hdb =>
    obtain ⟨hfiles, -, hresults⟩ := IndexType.complete_ok hdb
    refine h.mono (by simp only [Indexing.setWorker_db, hfiles]; exact Files.follows_refl _)
      fun _ hrow => ?_
    rw [Indexing.setWorker_db, hresults]
    cases previewIndex.row p.now result with
    | none => exact hrow
    | some row => exact isSome_lookup_insert hrow
  | upserted => exact h.mono (Files.follows_upsertFiles ..) fun _ hrow => hrow
  | stored hfollows => exact h.mono hfollows fun hfile hrow => isSome_lookup_cascade hfile hrow
  | _ => exact h.mono (Files.follows_refl _) fun _ hrow => hrow

end Kept

end FileIndexer
