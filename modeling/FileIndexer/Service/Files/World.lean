import FileIndexer.Service.Files.Status

namespace FileIndexer

structure FileInfo where
  file : File
  previewKey : Option Key
  deriving DecidableEq, Repr

structure World (β ι : Type) where
  db : Db
  previewKeys : FileID → Option Key
  bucket : Bucket β
  locks : Key → Option ι
  now : Time

structure Cell (β : Type) where
  bytes : Option β
  owner : Option FileID

namespace Files

def ownerAt (t : Files) (key : Key) : Option FileID := (t.getFileByKey key).map File.id

theorem ownerAt_eq_some_iff {t : Files} {key : Key} {id : FileID} :
    t.ownerAt key = some id ↔ ∃ f ∈ t.rows, f.key = key ∧ f.id = id := by
  simp [ownerAt, getFileByKey_eq_some_iff, and_assoc]

theorem ownerAt_eq_none_iff {t : Files} {key : Key} :
    t.ownerAt key = none ↔ ∀ f ∈ t.rows, f.key ≠ key := by
  simp [ownerAt, getFileByKey_eq_none_iff]

theorem ownerAt_congr {t t' : Files} {key key' : Key}
    (h : ∀ id, (∃ f ∈ t.rows, f.key = key ∧ f.id = id) ↔ ∃ f ∈ t'.rows, f.key = key' ∧ f.id = id) :
    t.ownerAt key = t'.ownerAt key' := by
  ext id
  simpa only [ownerAt_eq_some_iff] using h id

theorem ownerAt_rekey {t : Files} {id : FileID} {newKey : Key} {old : File}
    {h : ∀ f ∈ t.rows, f.id ≠ id → f.key ≠ newKey} (hold : t.getFile id = some old) (k : Key) :
    (t.rekey id newKey h).ownerAt k =
      if k = newKey then some id else if k = old.key then none else t.ownerAt k := by
  obtain ⟨hmem, rfl⟩ := getFile_eq_some_iff.mp hold
  split_ifs with hnew hkey
  · exact ownerAt_eq_some_iff.mpr
      ⟨_, mem_rekey.mpr ⟨old, hmem, rfl⟩, by simp [rekeyed, hnew], rekeyed_id _ _ _⟩
  · refine ownerAt_eq_none_iff.mpr fun f hf => ?_
    obtain ⟨g, hg, rfl⟩ := mem_rekey.mp hf
    by_cases hid : g.id = old.id
    · simpa [rekeyed, hid] using Ne.symm hnew
    · simp only [rekeyed, hid, if_false, hkey]
      exact fun he => hid (congrArg File.id (eq_of_key hg hmem he))
  · refine ownerAt_congr fun x => ⟨?_, ?_⟩
    · rintro ⟨f, hf, hk, hx⟩
      obtain ⟨g, hg, rfl⟩ := mem_rekey.mp hf
      by_cases hid : g.id = old.id
      · exact absurd hk (by simpa [rekeyed, hid] using Ne.symm hnew)
      · simp only [rekeyed, hid, if_false] at hk hx
        exact ⟨g, hg, hk, hx⟩
    · rintro ⟨g, hg, hk, hx⟩
      have hid : g.id ≠ old.id := fun he => hkey (hk ▸ congrArg File.key (eq_of_id hg hmem he))
      exact ⟨g, mem_rekey.mpr ⟨g, hg, by simp [rekeyed, hid]⟩, hk, hx⟩

theorem ownerAt_deleteWhere {t : Files} {ids : List FileID} (k : Key) :
    (t.deleteWhere fun f => f.id ∈ ids).ownerAt k = (t.ownerAt k).filter (· ∉ ids) := by
  ext id
  simp only [ownerAt_eq_some_iff, mem_deleteWhere, Option.filter_eq_some_iff, decide_eq_true_eq,
    decide_eq_false_iff_not]
  constructor
  · rintro ⟨f, ⟨hf, hm⟩, hk, rfl⟩
    exact ⟨⟨f, hf, hk, rfl⟩, hm⟩
  · rintro ⟨⟨f, hf, hk, rfl⟩, hm⟩
    exact ⟨f, ⟨hf, hm⟩, hk, rfl⟩

theorem ownerAt_insert {t : Files} {now : Time} {key : Key} {m : Time}
    {h : ∀ f ∈ t.rows, f.key ≠ key} (k : Key) :
    (t.insert now key m h).ownerAt k = if k = key then some t.nextId else t.ownerAt k := by
  split_ifs with hk
  · exact ownerAt_eq_some_iff.mpr ⟨_, List.mem_append_right _ (List.mem_singleton_self _), hk.symm, rfl⟩
  · refine ownerAt_congr fun id => ⟨?_, ?_⟩
    · rintro ⟨f, hf, hfk, hid⟩
      rcases List.mem_append.mp hf with hf | hf
      · exact ⟨f, hf, hfk, hid⟩
      · obtain rfl := List.mem_singleton.mp hf
        exact absurd hfk.symm hk
    · rintro ⟨f, hf, hfk, hid⟩
      exact ⟨f, List.mem_append_left _ hf, hfk, hid⟩

theorem ownerAt_touch (t : Files) (now : Time) (key : Key) (m : Time) (k : Key) :
    (t.touch now key m).ownerAt k = t.ownerAt k := by
  refine ownerAt_congr fun id => ⟨?_, ?_⟩
  · rintro ⟨f, hf, hfk, hid⟩
    obtain ⟨g, hg, rfl⟩ := List.mem_map.mp hf
    exact ⟨g, hg, by simpa using hfk, by simpa using hid⟩
  · rintro ⟨f, hf, hfk, hid⟩
    exact ⟨_, List.mem_map_of_mem hf, by simpa using hfk, by simpa using hid⟩

theorem ownerAt_upsertRow (now : Time) (t : Files) (row : Key × Time) (k : Key) :
    (upsertRow now t row).ownerAt k =
      (t.ownerAt k).or (if k = row.1 then some t.nextId else none) := by
  unfold upsertRow
  split
  · rename_i h
    rw [ownerAt_insert]
    split_ifs with hk
    · rw [hk, ownerAt_eq_none_iff.mpr h]
      rfl
    · simp
  · rename_i h
    rw [ownerAt_touch]
    split_ifs with hk
    · cases ho : t.ownerAt k with
      | none => exact absurd (ownerAt_eq_none_iff.mp (hk ▸ ho)) h
      | some id => rfl
    · simp

theorem ownerAt_foldl_upsertRow {now : Time} (rows : List (Key × Time)) {t : Files} {k : Key}
    (h : k ∉ rows.map Prod.fst ∨ t.ownerAt k ≠ none) :
    (rows.foldl (upsertRow now) t).ownerAt k = t.ownerAt k := by
  induction rows generalizing t with
  | nil => rfl
  | cons row rows ih =>
    have hrow : (upsertRow now t row).ownerAt k = t.ownerAt k := by
      rw [ownerAt_upsertRow]
      rcases h with hk | ho
      · rw [if_neg fun he => hk (by simp [he])]
        simp
      · cases hid : t.ownerAt k with
        | none => exact absurd hid ho
        | some id => rfl
    rw [List.foldl_cons, ih (h.imp (fun hk hm => hk (by simp [hm])) fun ho => hrow ▸ ho), hrow]

theorem ownerAt_upsertFiles {t : Files} {now : Time} {arg : UpsertFilesParams} {k : Key}
    (h : k ∉ arg.map Prod.fst ∨ t.ownerAt k ≠ none) :
    (t.upsertFiles now arg).2.ownerAt k = t.ownerAt k :=
  ownerAt_foldl_upsertRow _ (h.imp_left fun hk hm => hk (mem_groupByKey.mp hm))

end Files

namespace World

variable {β ι : Type}

def getFile (w : World β ι) (id : FileID) : Option FileInfo :=
  (w.db.files.getFile id).map fun f => ⟨f, w.previewKeys f.id⟩

def getFileByKey (w : World β ι) (key : Key) : Option FileInfo :=
  (w.db.files.getFileByKey key).map fun f => ⟨f, w.previewKeys f.id⟩

def lock [DecidableEq ι] (w : World β ι) (key : Key) (me : ι) : World β ι :=
  { w with locks := Function.update w.locks key (some me) }

def unlock [DecidableEq ι] (w : World β ι) (me : ι) : World β ι :=
  { w with locks := fun k => if w.locks k = some me then none else w.locks k }

def cell (w : World β ι) (key : Key) : Cell β := ⟨w.bucket.bytesAt key, w.db.files.ownerAt key⟩

theorem getFileByKey_eq_none_iff {w : World β ι} {key : Key} :
    w.getFileByKey key = none ↔ (w.cell key).owner = none := by
  simp [getFileByKey, cell, Files.ownerAt]

theorem owner_of_getFile {w : World β ι} {id : FileID} {f : FileInfo} (h : w.getFile id = some f) :
    (w.cell f.file.key).owner = some id := by
  obtain ⟨g, hg, rfl⟩ := Option.map_eq_some_iff.mp h
  obtain ⟨hmem, rfl⟩ := Files.getFile_eq_some_iff.mp hg
  exact Files.ownerAt_eq_some_iff.mpr ⟨g, hmem, rfl, rfl⟩

theorem getFile_of_owner {w : World β ι} {id : FileID} {key : Key}
    (h : (w.cell key).owner = some id) : ∃ f, w.db.files.getFile id = some f ∧ f.key = key := by
  obtain ⟨f, hf, hk, hid⟩ := Files.ownerAt_eq_some_iff.mp h
  exact ⟨f, Files.getFile_eq_some_iff.mpr ⟨hf, hid⟩, hk⟩

theorem owner_of_row {w : World β ι} {id : FileID} {f : File} (h : w.db.files.getFile id = some f) :
    (w.cell f.key).owner = some id := by
  obtain ⟨hf, hid⟩ := Files.getFile_eq_some_iff.mp h
  exact Files.ownerAt_eq_some_iff.mpr ⟨f, hf, rfl, hid⟩

theorem key_of_owner {w : World β ι} {id : FileID} {key : Key} {f : File}
    (h : (w.cell key).owner = some id) (hf : w.db.files.getFile id = some f) : f.key = key := by
  obtain ⟨g, hg, hk, hid⟩ := Files.ownerAt_eq_some_iff.mp h
  obtain ⟨hmem, rfl⟩ := Files.getFile_eq_some_iff.mp hf
  rw [← Files.eq_of_id hg hmem hid, hk]

theorem owner_inj {w : World β ι} {id : FileID} {k k' : Key} (h : (w.cell k).owner = some id)
    (h' : (w.cell k').owner = some id) : k = k' := by
  obtain ⟨f, hf, rfl⟩ := getFile_of_owner h
  exact key_of_owner h' hf

theorem ne_of_vacant {w : World β ι} {id : FileID} {k k' : Key}
    (hk : (w.cell k).owner = some id) (hvac : (w.cell k').owner = none) : k ≠ k' := by
  rintro rfl
  rw [hk] at hvac
  cases hvac

theorem cell_put (w : World β ι) (key : Key) (bytes : β) (k : Key) :
    World.cell { w with bucket := w.bucket.put w.now key bytes } k =
      if k = key then ⟨some bytes, (w.cell k).owner⟩ else w.cell k := by
  simp only [World.cell, Bucket.bytesAt_put]
  split <;> rfl

theorem cell_delete (w : World β ι) (key k : Key) :
    World.cell { w with bucket := w.bucket.delete key } k =
      if k = key then ⟨none, (w.cell k).owner⟩ else w.cell k := by
  simp only [World.cell, Bucket.bytesAt_delete]
  split <;> rfl

theorem cell_move {w : World β ι} {db : Db} {id : FileID} {newKey cur : Key} {f : File}
    (h : w.db.moveFileWithDirectories id newKey = .ok (f, db))
    (hcur : (w.cell cur).owner = some id) (k : Key) :
    World.cell { w with db } k = ⟨(w.cell k).bytes,
      if k = newKey then some id else if k = cur then none else (w.cell k).owner⟩ := by
  obtain ⟨old, hold, -, ⟨hfree, hfiles⟩, -⟩ := Db.moveFileWithDirectories_ok h
  have hkey : old.key = cur := World.key_of_owner hcur hold
  simp only [World.cell, hfiles, Files.ownerAt_rekey hold, hkey]

end World

end FileIndexer
