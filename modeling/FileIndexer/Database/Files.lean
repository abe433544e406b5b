import FileIndexer.Foundation.Rows
import FileIndexer.Storage.Key

namespace FileIndexer

inductive DbError where
  | noRows
  | uniqueViolation
  | other
  deriving DecidableEq, Repr

structure File where
  id : FileID
  key : Key
  createdAt : Time
  markedAt : Time
  seenAt : Time
  deriving DecidableEq, Repr

structure Files where
  rows : List File
  nextId : FileID
  pk : (rows.map File.id).Nodup
  unique : (rows.map File.key).Nodup
  serial : ∀ f ∈ rows, f.id < nextId

namespace Files

def empty : Files := ⟨[], 1, by simp, by simp, by simp⟩

def getFile (t : Files) (id : FileID) : Option File := Rows.lookup File.id id t.rows

def getFileByKey (t : Files) (key : Key) : Option File := Rows.lookup File.key key t.rows

theorem getFile_eq_some_iff {t : Files} {id : FileID} {f : File} :
    t.getFile id = some f ↔ f ∈ t.rows ∧ f.id = id :=
  Rows.lookup_eq_some_iff t.pk

theorem getFile_eq_none_iff {t : Files} {id : FileID} :
    t.getFile id = none ↔ ∀ f ∈ t.rows, f.id ≠ id :=
  Rows.lookup_eq_none_iff

theorem getFileByKey_eq_some_iff {t : Files} {key : Key} {f : File} :
    t.getFileByKey key = some f ↔ f ∈ t.rows ∧ f.key = key :=
  Rows.lookup_eq_some_iff t.unique

theorem getFileByKey_eq_none_iff {t : Files} {key : Key} :
    t.getFileByKey key = none ↔ ∀ f ∈ t.rows, f.key ≠ key :=
  Rows.lookup_eq_none_iff

theorem eq_of_id {t : Files} {f g : File} (hf : f ∈ t.rows) (hg : g ∈ t.rows)
    (h : f.id = g.id) : f = g :=
  Rows.eq_of_pk t.pk hf hg h

theorem eq_of_key {t : Files} {f g : File} (hf : f ∈ t.rows) (hg : g ∈ t.rows)
    (h : f.key = g.key) : f = g :=
  Rows.eq_of_pk t.unique hf hg h

def deleteWhere (t : Files) (p : File → Bool) : Files where
  rows := t.rows.filter fun f => !p f
  nextId := t.nextId
  pk := Rows.nodup_map_filter t.pk _
  unique := Rows.nodup_map_filter t.unique _
  serial f hf := t.serial f (List.mem_of_mem_filter hf)

@[simp] theorem mem_deleteWhere {t : Files} {p : File → Bool} {f : File} :
    f ∈ (t.deleteWhere p).rows ↔ f ∈ t.rows ∧ p f = false := by
  simp [deleteWhere]

def insert (t : Files) (now : Time) (key : Key) (marked : Time)
    (h : ∀ f ∈ t.rows, f.key ≠ key) : Files where
  rows := t.rows ++ [⟨t.nextId, key, now, marked, now⟩]
  nextId := t.nextId + 1
  pk := Rows.nodup_map_concat t.pk fun f hf => (t.serial f hf).ne
  unique := Rows.nodup_map_concat t.unique h
  serial f hf := by
    rcases List.mem_append.mp hf with hf | hf
    · exact (t.serial f hf).trans (Int.lt_succ _)
    · obtain rfl : f = _ := List.mem_singleton.mp hf
      exact Int.lt_succ _

def touched (now : Time) (key : Key) (marked : Time) (f : File) : File :=
  if f.key = key then { f with markedAt := max f.markedAt marked, seenAt := now } else f

@[simp] theorem touched_id (now : Time) (key : Key) (m : Time) (f : File) :
    (touched now key m f).id = f.id := by
  unfold touched; split <;> rfl

@[simp] theorem touched_key (now : Time) (key : Key) (m : Time) (f : File) :
    (touched now key m f).key = f.key := by
  unfold touched; split <;> rfl

def touch (t : Files) (now : Time) (key : Key) (marked : Time) : Files where
  rows := t.rows.map (touched now key marked)
  nextId := t.nextId + 1
  pk := Rows.nodup_map_fixed t.pk (touched_id now key marked)
  unique := Rows.nodup_map_fixed t.unique (touched_key now key marked)
  serial f hf := by
    obtain ⟨g, hg, rfl⟩ := List.mem_map.mp hf
    rw [touched_id]
    exact (t.serial g hg).trans (Int.lt_succ _)

-- INSERT .. ON CONFLICT (key) DO UPDATE draws from the id sequence on either branch
def upsertRow (now : Time) (t : Files) (row : Key × Time) : Files :=
  if h : ∀ f ∈ t.rows, f.key ≠ row.1 then t.insert now row.1 row.2 h
  else t.touch now row.1 row.2

end Files

abbrev UpsertFilesParams := List (Key × Time)

def groupByKey (arg : UpsertFilesParams) : List (Key × Time) :=
  (arg.map Prod.fst).dedup.map fun k =>
    (k, ((arg.filter fun row => row.1 = k).map Prod.snd).max?.getD 0)

namespace Files

def upsertFiles (t : Files) (now : Time) (arg : UpsertFilesParams) : Nat × Files :=
  ((groupByKey arg).length, (groupByKey arg).foldl (upsertRow now) t)

def deleteUnseenFiles (t : Files) (cutoff : Time) : Nat × Files :=
  ((t.rows.filter fun f => f.seenAt < cutoff).length, t.deleteWhere fun f => f.seenAt < cutoff)

def deleteFile (t : Files) (id : FileID) : Except DbError (File × Files) :=
  match t.getFile id with
  | none => .error .noRows
  | some f => .ok (f, t.deleteWhere fun g => g.id = id)

def deleteFilesByIDs (t : Files) (ids : List FileID) : Nat × Files :=
  ((t.rows.filter fun f => f.id ∈ ids).length, t.deleteWhere fun f => f.id ∈ ids)

def rekeyed (id : FileID) (key : Key) (f : File) : File :=
  if f.id = id then { f with key := key } else f

@[simp] theorem rekeyed_id (id : FileID) (key : Key) (f : File) : (rekeyed id key f).id = f.id := by
  unfold rekeyed; split <;> rfl

def rekey (t : Files) (id : FileID) (key : Key)
    (h : ∀ f ∈ t.rows, f.id ≠ id → f.key ≠ key) : Files where
  rows := t.rows.map (rekeyed id key)
  nextId := t.nextId
  pk := Rows.nodup_map_fixed t.pk (rekeyed_id id key)
  unique := by
    rw [List.map_map]
    refine Rows.nodup_map_of_inj t.pk fun f hf g hg hfg => ?_
    by_cases hi : f.id = id
    · by_cases hj : g.id = id
      · exact eq_of_id hf hg (hi.trans hj.symm)
      · simp only [Function.comp_apply, rekeyed, hi, hj, if_true, if_false] at hfg
        exact absurd hfg.symm (h g hg hj)
    · by_cases hj : g.id = id
      · simp only [Function.comp_apply, rekeyed, hi, hj, if_true, if_false] at hfg
        exact absurd hfg (h f hf hi)
      · simp only [Function.comp_apply, rekeyed, hi, hj, if_false] at hfg
        exact eq_of_key hf hg hfg
  serial f hf := by
    obtain ⟨g, hg, rfl⟩ := List.mem_map.mp hf
    rw [rekeyed_id]
    exact t.serial g hg

def updateFileKey (t : Files) (id : FileID) (key : Key) : Except DbError (File × Files) :=
  match t.getFile id with
  | none => .error .noRows
  | some f =>
    if h : ∀ g ∈ t.rows, g.id ≠ id → g.key ≠ key then .ok ({ f with key := key }, t.rekey id key h)
    else .error .uniqueViolation

theorem mem_upsertRow {now : Time} {t : Files} {row : Key × Time} {f : File}
    (hf : f ∈ (upsertRow now t row).rows) :
    (f ∈ t.rows ∧ f.key ≠ row.1) ∨ (f.key = row.1 ∧ f.seenAt = now) := by
  unfold upsertRow at hf
  split at hf
  · rename_i h
    rcases List.mem_append.mp hf with hf | hf
    · exact Or.inl ⟨hf, h f hf⟩
    · obtain rfl : f = _ := List.mem_singleton.mp hf
      exact Or.inr ⟨rfl, rfl⟩
  · obtain ⟨g, hg, rfl⟩ := List.mem_map.mp hf
    by_cases hk : g.key = row.1
    · exact Or.inr ⟨by rw [touched_key, hk], by simp [touched, hk]⟩
    · have he : touched now row.1 row.2 g = g := by simp [touched, hk]
      rw [he]
      exact Or.inl ⟨hg, hk⟩

theorem keys_upsertRow {now : Time} {t : Files} {row : Key × Time} {k : Key} :
    (∃ f ∈ (upsertRow now t row).rows, f.key = k) ↔ (∃ f ∈ t.rows, f.key = k) ∨ k = row.1 := by
  unfold upsertRow
  split
  · simp [Files.insert, or_and_right, exists_or, eq_comm]
  · rename_i h
    push Not at h
    obtain ⟨g, hg, hgk⟩ := h
    constructor
    · rintro ⟨f, hf, rfl⟩
      obtain ⟨x, hx, rfl⟩ := List.mem_map.mp hf
      exact Or.inl ⟨x, hx, (touched_key now row.1 row.2 x).symm⟩
    · rintro (⟨f, hf, rfl⟩ | rfl)
      · exact ⟨_, List.mem_map_of_mem hf, touched_key now row.1 row.2 f⟩
      · exact ⟨_, List.mem_map_of_mem hg, by rw [touched_key, hgk]⟩

theorem mem_groupByKey {arg : UpsertFilesParams} {k : Key} :
    k ∈ (groupByKey arg).map Prod.fst ↔ k ∈ arg.map Prod.fst := by
  simp [groupByKey, Function.comp_def]

theorem keys_foldl_upsertRow {now : Time} (rows : List (Key × Time)) {t : Files} {k : Key} :
    (∃ f ∈ (rows.foldl (upsertRow now) t).rows, f.key = k) ↔
      (∃ f ∈ t.rows, f.key = k) ∨ k ∈ rows.map Prod.fst := by
  induction rows generalizing t with
  | nil => simp
  | cons row rows ih =>
    rw [List.foldl_cons, ih, keys_upsertRow, List.map_cons, List.mem_cons, or_assoc]

theorem keys_upsertFiles {t : Files} {now : Time} {arg : UpsertFilesParams} {k : Key} :
    (∃ f ∈ (t.upsertFiles now arg).2.rows, f.key = k) ↔
      (∃ f ∈ t.rows, f.key = k) ∨ k ∈ arg.map Prod.fst := by
  rw [upsertFiles, keys_foldl_upsertRow, mem_groupByKey]

theorem mem_foldl_upsertRow {now : Time} (rows : List (Key × Time)) {t : Files} {f : File}
    (hf : f ∈ (rows.foldl (upsertRow now) t).rows) :
    (f ∈ t.rows ∧ f.key ∉ rows.map Prod.fst) ∨ (f.key ∈ rows.map Prod.fst ∧ f.seenAt = now) := by
  induction rows generalizing t with
  | nil => exact Or.inl ⟨hf, by simp⟩
  | cons row rows ih =>
    simp only [List.map_cons, List.mem_cons, not_or]
    rcases ih hf with ⟨hf, hk⟩ | ⟨hk, hs⟩
    · rcases mem_upsertRow hf with ⟨hf, hr⟩ | ⟨hr, hs⟩
      · exact Or.inl ⟨hf, hr, hk⟩
      · exact Or.inr ⟨Or.inl hr, hs⟩
    · exact Or.inr ⟨Or.inr hk, hs⟩

theorem mem_upsertFiles {t : Files} {now : Time} {arg : UpsertFilesParams} {f : File}
    (hf : f ∈ (t.upsertFiles now arg).2.rows) :
    (f ∈ t.rows ∧ f.key ∉ arg.map Prod.fst) ∨ (f.key ∈ arg.map Prod.fst ∧ f.seenAt = now) := by
  simpa only [mem_groupByKey] using mem_foldl_upsertRow (groupByKey arg) hf

theorem grown_upsertRow (now : Time) {t : Files} (row : Key × Time) {f : File} (hf : f ∈ t.rows) :
    ∃ g ∈ (upsertRow now t row).rows, g.id = f.id ∧ g.key = f.key ∧ f.markedAt ≤ g.markedAt := by
  unfold upsertRow
  split
  · exact ⟨f, List.mem_append_left _ hf, rfl, rfl, le_refl _⟩
  · refine ⟨_, List.mem_map_of_mem hf, touched_id .., touched_key .., ?_⟩
    unfold touched
    split
    · exact le_max_left _ _
    · exact le_refl _

theorem nextId_upsertRow (now : Time) (t : Files) (row : Key × Time) :
    (upsertRow now t row).nextId = t.nextId + 1 := by
  unfold upsertRow
  split <;> rfl

theorem origin_upsertRow {now : Time} {t : Files} {row : Key × Time} {g : File}
    (hg : g ∈ (upsertRow now t row).rows) :
    (∃ f ∈ t.rows, f.id = g.id ∧ f.markedAt ≤ g.markedAt) ∨ t.nextId ≤ g.id := by
  unfold upsertRow at hg
  split at hg
  · rcases List.mem_append.mp hg with hg | hg
    · exact Or.inl ⟨g, hg, rfl, le_refl _⟩
    · obtain rfl : g = _ := List.mem_singleton.mp hg
      exact Or.inr (le_refl _)
  · obtain ⟨f, hf, rfl⟩ := List.mem_map.mp hg
    refine Or.inl ⟨f, hf, (touched_id now row.1 row.2 f).symm, ?_⟩
    unfold touched
    split
    · exact le_max_left _ _
    · exact le_refl _

theorem nextId_upsertFiles (t : Files) (now : Time) (arg : UpsertFilesParams) :
    t.nextId ≤ (t.upsertFiles now arg).2.nextId := by
  unfold upsertFiles
  generalize groupByKey arg = rows
  induction rows generalizing t with
  | nil => exact le_refl _
  | cons row rows ih =>
    have hrow : t.nextId ≤ (upsertRow now t row).nextId :=
      nextId_upsertRow now t row ▸ Int.le_add_one (le_refl _)
    exact hrow.trans (ih _)

theorem origin_upsertFiles {now : Time} {t : Files} {arg : UpsertFilesParams} {g : File}
    (hg : g ∈ (t.upsertFiles now arg).2.rows) :
    (∃ f ∈ t.rows, f.id = g.id ∧ f.markedAt ≤ g.markedAt) ∨ t.nextId ≤ g.id := by
  unfold upsertFiles at hg
  generalize groupByKey arg = rows at hg
  induction rows generalizing t with
  | nil => exact Or.inl ⟨g, hg, rfl, le_refl _⟩
  | cons row rows ih =>
    rcases ih hg with ⟨f, hf, hid, hmark⟩ | hnext
    · rcases origin_upsertRow hf with ⟨e, he, hid', hmark'⟩ | hnext
      · exact Or.inl ⟨e, he, hid'.trans hid, hmark'.trans hmark⟩
      · exact Or.inr (hid ▸ hnext)
    · rw [nextId_upsertRow] at hnext
      exact Or.inr ((Int.le_add_one (le_refl _)).trans hnext)

theorem grown_upsertFiles {now : Time} {t : Files} {arg : UpsertFilesParams} {f : File}
    (hf : f ∈ t.rows) : ∃ g ∈ (t.upsertFiles now arg).2.rows,
      g.id = f.id ∧ g.key = f.key ∧ f.markedAt ≤ g.markedAt := by
  unfold upsertFiles
  generalize groupByKey arg = rows
  induction rows generalizing t f with
  | nil => exact ⟨f, hf, rfl, rfl, le_refl _⟩
  | cons row rows ih =>
    obtain ⟨g, hg, hid, hkey, hmark⟩ := grown_upsertRow now row hf
    obtain ⟨e, he, hid', hkey', hmark'⟩ := ih hg
    exact ⟨e, he, hid'.trans hid, hkey'.trans hkey, hmark.trans hmark'⟩

theorem kept_upsertFiles {now : Time} {t : Files} {arg : UpsertFilesParams} {f : File}
    (hf : f ∈ t.rows) : ∃ g ∈ (t.upsertFiles now arg).2.rows, g.id = f.id :=
  (grown_upsertFiles hf).imp fun _ hg => ⟨hg.1, hg.2.1⟩

def MarkedBy (t : Files) (g : File) (m : Time) : Prop :=
  (∃ f ∈ t.rows, f.key = g.key ∧ f.id = g.id ∧ g.markedAt = max f.markedAt m) ∨
    ((∀ f ∈ t.rows, f.key ≠ g.key) ∧ g.markedAt = m)

theorem marked_upsertRow {now : Time} {t : Files} {row : Key × Time} {g : File}
    (hg : g ∈ (upsertRow now t row).rows) (hk : g.key = row.1) : t.MarkedBy g row.2 := by
  unfold upsertRow at hg
  split at hg
  · rename_i hnew
    rcases List.mem_append.mp hg with hg | hg
    · exact absurd hk (hnew g hg)
    · obtain rfl : g = _ := List.mem_singleton.mp hg
      exact Or.inr ⟨hnew, rfl⟩
  · obtain ⟨f, hf, rfl⟩ := List.mem_map.mp hg
    rw [touched_key] at hk
    exact Or.inl ⟨f, hf, (touched_key ..).symm, (touched_id ..).symm, by simp [touched, hk]⟩

theorem MarkedBy.of_upsertRow {now : Time} {t : Files} {row : Key × Time} {g : File} {m : Time}
    (h : (upsertRow now t row).MarkedBy g m) (hk : g.key ≠ row.1) : t.MarkedBy g m := by
  refine h.imp ?_ ?_
  · rintro ⟨f, hf, hfk, hrest⟩
    rcases mem_upsertRow hf with ⟨hf, -⟩ | ⟨hrow, -⟩
    · exact ⟨f, hf, hfk, hrest⟩
    · exact absurd (hfk.symm.trans hrow) hk
  · rintro ⟨hnew, hm⟩
    refine ⟨fun f hf hfk => ?_, hm⟩
    obtain ⟨e, he, hek⟩ := keys_upsertRow.mpr (Or.inl ⟨f, hf, rfl⟩)
    exact hnew e he (hek.trans hfk)

theorem marked_foldl_upsertRow {now : Time} (rows : List (Key × Time))
    (hn : (rows.map Prod.fst).Nodup) {t : Files} {g : File}
    (hg : g ∈ (rows.foldl (upsertRow now) t).rows) :
    (g ∈ t.rows ∧ g.key ∉ rows.map Prod.fst) ∨ ∃ m, (g.key, m) ∈ rows ∧ t.MarkedBy g m := by
  induction rows generalizing t with
  | nil => exact Or.inl ⟨hg, List.not_mem_nil⟩
  | cons row rows ih =>
    rw [List.map_cons, List.nodup_cons] at hn
    simp only [List.map_cons, List.mem_cons, not_or]
    rcases ih hn.2 hg with ⟨hg, hk⟩ | ⟨m, hm, hmark⟩
    · rcases mem_upsertRow hg with ⟨hold, hrow⟩ | ⟨hrow, -⟩
      · exact Or.inl ⟨hold, hrow, hk⟩
      · exact Or.inr ⟨row.2, Or.inl (Prod.ext hrow rfl), marked_upsertRow hg hrow⟩
    · have hne : g.key ≠ row.1 := fun he => hn.1 (he ▸ List.mem_map_of_mem (f := Prod.fst) hm)
      exact Or.inr ⟨m, Or.inr hm, hmark.of_upsertRow hne⟩

theorem mem_of_mem_groupByKey {arg : UpsertFilesParams} {k : Key} {m : Time}
    (h : (k, m) ∈ groupByKey arg) : (k, m) ∈ arg := by
  obtain ⟨k', hk', he⟩ := List.mem_map.mp h
  obtain ⟨rfl, rfl⟩ := Prod.mk.inj he
  cases hmax : ((arg.filter fun row => row.1 = k').map Prod.snd).max? with
  | none =>
    obtain ⟨row, hrow, rfl⟩ := List.mem_map.mp (List.mem_dedup.mp hk')
    have hnil := List.map_eq_nil_iff.mp (List.max?_eq_none_iff.mp hmax)
    exact absurd (List.mem_filter.mpr ⟨hrow, decide_eq_true rfl⟩) (hnil ▸ List.not_mem_nil)
  | some m =>
    obtain ⟨row, hrow, rfl⟩ := List.mem_map.mp (List.max?_mem hmax)
    obtain ⟨hmem, hk⟩ := List.mem_filter.mp hrow
    obtain rfl : row.1 = k' := of_decide_eq_true hk
    exact hmem

theorem marked_upsertFiles {now : Time} {t : Files} {arg : UpsertFilesParams} {g : File}
    (hg : g ∈ (t.upsertFiles now arg).2.rows) :
    (g ∈ t.rows ∧ g.key ∉ arg.map Prod.fst) ∨ ∃ m, (g.key, m) ∈ arg ∧ t.MarkedBy g m := by
  have hnodup : ((groupByKey arg).map Prod.fst).Nodup := by
    simp [groupByKey, Function.comp_def, List.nodup_dedup]
  refine (marked_foldl_upsertRow (groupByKey arg) hnodup hg).imp ?_ ?_
  · rintro ⟨hold, hk⟩
    exact ⟨hold, fun hmem => hk (mem_groupByKey.mpr hmem)⟩
  · rintro ⟨m, hm, hmark⟩
    exact ⟨m, mem_of_mem_groupByKey hm, hmark⟩

theorem mem_rekey {t : Files} {id : FileID} {key : Key}
    {h : ∀ f ∈ t.rows, f.id ≠ id → f.key ≠ key} {f : File} :
    f ∈ (t.rekey id key h).rows ↔ ∃ g ∈ t.rows, rekeyed id key g = f :=
  List.mem_map

theorem updateFileKey_ok_iff {t t' : Files} {id : FileID} {key : Key} {f : File} :
    t.updateFileKey id key = .ok (f, t') ↔
      ∃ g, t.getFile id = some g ∧ f = { g with key := key } ∧
        ∃ h : ∀ x ∈ t.rows, x.id ≠ id → x.key ≠ key, t' = t.rekey id key h := by
  unfold updateFileKey
  cases hg : t.getFile id with
  | none => simp
  | some g =>
    simp only [Option.some.injEq, exists_eq_left']
    split
    · rename_i h
      simp only [Except.ok.injEq, Prod.mk.injEq, eq_comm]
      exact and_congr_right fun _ => ⟨fun ht => ⟨h, ht⟩, fun ⟨_, ht⟩ => ht⟩
    · rename_i h
      simp only [reduceCtorEq, false_iff, not_and, not_exists]
      exact fun _ h' => absurd h' h

theorem deleteFile_ok_iff {t t' : Files} {id : FileID} {f : File} :
    t.deleteFile id = .ok (f, t') ↔
      t.getFile id = some f ∧ t' = t.deleteWhere fun g => g.id = id := by
  unfold deleteFile
  cases t.getFile id with
  | none => simp
  | some g => simp only [Except.ok.injEq, Prod.mk.injEq, Option.some.injEq, eq_comm (a := t')]

end Files

end FileIndexer
