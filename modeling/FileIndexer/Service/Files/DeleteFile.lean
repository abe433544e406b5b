import FileIndexer.Foundation.Like
import FileIndexer.Service.Files.MoveFile

namespace FileIndexer

def likeSymbols : Like.Symbols Byte := ⟨92, 37, 95, by decide⟩

def escapeLike (s : Key) : Key := Like.escape likeSymbols s

def FileInfo.previewObjects (f : FileInfo) : List Key :=
  match f.previewKey with
  | some k => if k = [] then [] else [k]
  | none => []

def FileInfo.objectKeys (f : FileInfo) : List Key := f.file.key :: f.previewObjects

inductive DeleteFileState where
  | getFile
  | deleteObject (file : FileInfo)
  | deletePreview (file : FileInfo)
  | deleteFileWithDirectories (file : FileInfo)
  | done (failure : Option Failure)

inductive DeleteDirectoryState where
  | listFilesForDelete (lastID : Option FileID) (deleted : Nat)
  | deleteMany (batch : List FileInfo) (waiting : List Key) (failed : Bool) (deleted : Nat)
  | deleteFilesByIDs (batch : List FileInfo) (deleted : Nat)
  | done (deleted : Nat) (failure : Option Failure)

def deleteDirectoryBatchSize : Nat := 1000

def DeleteDirectoryState.start (indexPrefix path : Key) : DeleteDirectoryState :=
  match validateDirPath indexPrefix path with
  | .error e => .done 0 (some e)
  | .ok _ => .listFilesForDelete none 0

section Step

variable {β ι : Type}

def World.listFilesForDelete (w : World β ι) (keyPattern : Key) (lastID : Option FileID)
    (pageLimit : Nat) : List FileInfo :=
  let matching := w.db.files.rows.filter fun f =>
    Like.like likeSymbols keyPattern f.key = some true && lastID.all (· < f.id)
  ((matching.insertionSort fun f g => f.id ≤ g.id).take pageLimit).map fun f =>
    ⟨f, w.previewKeys f.id⟩

def World.deleteObject (w : World β ι) (fault : Fault) (key : Key) : World β ι :=
  if fault = .before then w else { w with bucket := w.bucket.delete key }

@[simp] theorem World.deleteObject_now (w : World β ι) (fault : Fault) (key : Key) :
    (w.deleteObject fault key).now = w.now := by
  unfold World.deleteObject
  split <;> rfl

@[simp] theorem World.deleteObject_db (w : World β ι) (fault : Fault) (key : Key) :
    (w.deleteObject fault key).db = w.db := by
  unfold World.deleteObject
  split <;> rfl

def deleteFileStep (id : FileID) (fault : Fault) (w : World β ι) :
    DeleteFileState → Option (World β ι × DeleteFileState)
  | .getFile =>
    if fault ≠ .none then some (w, .done (some (.cause (.db .other))))
    else match w.getFile id with
      | none => some (w, .done (some (.cause (.db .noRows))))
      | some file => some (w, .deleteObject file)
  | .deleteObject file =>
    if fault ≠ .none then
      some (w.deleteObject fault file.file.key, .done (some (.cause (.storage .other))))
    else if file.previewObjects = [] then
      some (w.deleteObject fault file.file.key, .deleteFileWithDirectories file)
    else some (w.deleteObject fault file.file.key, .deletePreview file)
  -- a preview that cannot be removed is only logged
  | .deletePreview file =>
    match file.previewObjects with
    | [] => some (w, .deleteFileWithDirectories file)
    | key :: _ => some (w.deleteObject fault key, .deleteFileWithDirectories file)
  | .deleteFileWithDirectories _ =>
    if fault = .before then some (w, .done (some (.cause (.db .other))))
    else match w.db.deleteFileWithDirectories id with
      | .error e => some (w, .done (some (.cause (.db e))))
      | .ok (_, db) =>
        some ({ w with db }, .done (if fault = .after then some (.cause (.db .other)) else none))
  | .done _ => none

-- S3 removes the keys of one DeleteMany in any order, so the next key is picked
def deleteDirectoryStep (path : Key) (fault : Fault) (pick : Nat) (w : World β ι) :
    DeleteDirectoryState → Option (World β ι × DeleteDirectoryState)
  | .listFilesForDelete lastID deleted =>
    if fault ≠ .none then some (w, .done deleted (some (.cause (.db .other))))
    else match w.listFilesForDelete (escapeLike path ++ [likeSymbols.many]) lastID
        deleteDirectoryBatchSize with
      | [] => some (w, .done deleted none)
      | batch => some (w, .deleteMany batch (batch.flatMap FileInfo.objectKeys) false deleted)
  | .deleteMany batch waiting failed deleted =>
    if waiting = [] then
      if failed then some (w, .done deleted (some (errorf .internal "delete objects under %q: %v"
        [.key path, .err (.storage .other)])))
      else some (w, .deleteFilesByIDs batch deleted)
    else match waiting[pick]? with
      | none => none
      | some key => some (w.deleteObject fault key,
          .deleteMany batch (waiting.eraseIdx pick) (failed || fault ≠ .none) deleted)
  | .deleteFilesByIDs batch deleted =>
    if fault = .before then some (w, .done deleted (some (.cause (.db .other))))
    else match w.db.deleteFilesByIDsWithDirectories (batch.map fun f => f.file.id)
        (batch.map fun f => f.file.key) with
      | .error e => some (w, .done deleted (some (.cause (.db e))))
      | .ok (n, db) =>
        if fault = .after then some ({ w with db }, .done deleted (some (.cause (.db .other))))
        else if batch.length < deleteDirectoryBatchSize then
          some ({ w with db }, .done (deleted + n) none)
        else some ({ w with db },
          .listFilesForDelete (batch.getLast?.map fun f => f.file.id) (deleted + n))
  | .done _ _ => none

end Step

inductive Deleter where
  | file (id : FileID) (state : DeleteFileState)
  | directory (path : Key) (state : DeleteDirectoryState)

namespace Deleter

def step {β ι : Type} (fault : Fault) (pick : Nat) (w : World β ι) :
    Deleter → Option (World β ι × Deleter)
  | .file id state => (deleteFileStep id fault w state).map fun (w, d) => (w, .file id d)
  | .directory path state =>
    (deleteDirectoryStep path fault pick w state).map fun (w, d) => (w, .directory path d)

def finished : Deleter → Bool
  | .file _ (.done _) | .directory _ (.done _ _) => true
  | _ => false

def unfailed : Deleter → Bool
  | .directory _ (.deleteMany _ _ failed _) => !failed
  | _ => true

def held : Deleter → List (FileID × Key)
  | .file id (.deleteObject f) | .file id (.deletePreview f)
  | .file id (.deleteFileWithDirectories f) => [(id, f.file.key)]
  | .directory _ (.deleteMany batch _ _ _) | .directory _ (.deleteFilesByIDs batch _) =>
    batch.map fun f => (f.file.id, f.file.key)
  | _ => []

def waiting : Deleter → List Key
  | .file _ (.deleteObject f) => f.objectKeys
  | .file _ (.deletePreview f) => f.previewObjects
  | .directory _ (.deleteMany _ waiting _ _) => waiting
  | _ => []

end Deleter

section Inversion

variable {β ι : Type}

theorem previewObjects_eq {f : FileInfo} :
    f.previewObjects = [] ∨ ∃ k, f.previewKey = some k ∧ f.previewObjects = [k] := by
  unfold FileInfo.previewObjects
  cases f.previewKey with
  | none => exact Or.inl rfl
  | some k =>
    by_cases hk : k = []
    · exact Or.inl (if_pos hk)
    · exact Or.inr ⟨k, rfl, if_neg hk⟩

theorem mem_listFilesForDelete {w : World β ι} {keyPattern : Key} {lastID : Option FileID}
    {pageLimit : Nat} {f : FileInfo} (hf : f ∈ w.listFilesForDelete keyPattern lastID pageLimit) :
    w.getFile f.file.id = some f ∧ Like.like likeSymbols keyPattern f.file.key = some true := by
  obtain ⟨g, hg, rfl⟩ := List.mem_map.mp hf
  have hm := List.mem_filter.mp ((List.mem_insertionSort _).mp (List.mem_of_mem_take hg))
  simp only [Bool.and_eq_true, decide_eq_true_eq] at hm
  refine ⟨?_, hm.2.1⟩
  rw [World.getFile, Files.getFile_eq_some_iff.mpr ⟨hm.1, rfl⟩]
  rfl

inductive DeleteStep (w : World β ι) : List (FileID × Key) → List Key →
    World β ι → List (FileID × Key) → List Key → Prop
  | idle : DeleteStep w [] [] w [] []
  | missing {id k} : w.db.files.getFile id = none → DeleteStep w [(id, k)] [] w [] []
  | read {held waiting} : (∀ p ∈ held, (w.cell p.2).owner = some p.1 ∧ p.2 ∈ waiting) →
      (∀ k ∈ waiting, (∃ p ∈ held, p.2 = k) ∨ ∃ id, w.previewKeys id = some k) →
      DeleteStep w [] [] w held waiting
  | erase {held waiting waiting'} {k : Key} : k ∈ waiting → waiting' ⊆ waiting →
      (∀ x ∈ waiting, x = k ∨ x ∈ waiting') →
      DeleteStep w held waiting { w with bucket := w.bucket.delete k } held waiting'
  | ready {held} : DeleteStep w held [] w held []
  | remove {held} {db : Db} :
      db.files = w.db.files.deleteWhere (fun f => f.id ∈ held.map Prod.fst) →
      DeleteStep w held [] { w with db } [] []

theorem rows_of_deleteFileStep {id : FileID} {fault : Fault} {w w' : World β ι}
    {d d' : DeleteFileState} (h : deleteFileStep id fault w d = some (w', d')) :
    w'.now = w.now ∧ ∀ f ∈ w'.db.files.rows, f ∈ w.db.files.rows := by
  cases d with
  | getFile =>
    simp only [deleteFileStep] at h
    split at h
    · cases h; exact ⟨rfl, fun _ hf => hf⟩
    · split at h <;> (cases h; exact ⟨rfl, fun _ hf => hf⟩)
  | deleteObject f =>
    simp only [deleteFileStep] at h
    have hw : w' = w.deleteObject fault f.file.key := by
      split at h
      · cases h; rfl
      · split at h <;> (cases h; rfl)
    simp [hw]
  | deletePreview f =>
    simp only [deleteFileStep] at h
    split at h
    · cases h; exact ⟨rfl, fun _ hf => hf⟩
    · cases h
      simp
  | deleteFileWithDirectories f =>
    simp only [deleteFileStep] at h
    split at h
    · cases h; exact ⟨rfl, fun _ hf => hf⟩
    · split at h
      · cases h; exact ⟨rfl, fun _ hf => hf⟩
      · rename_i g db hdb
        cases h
        obtain ⟨-, hfiles, -⟩ := Db.deleteFileWithDirectories_ok hdb
        refine ⟨rfl, fun f hf => ?_⟩
        rw [hfiles] at hf
        exact (Files.mem_deleteWhere.mp hf).1
  | done r => cases h

theorem rows_of_deleteDirectoryStep {path : Key} {fault : Fault} {pick : Nat} {w w' : World β ι}
    {d d' : DeleteDirectoryState} (h : deleteDirectoryStep path fault pick w d = some (w', d')) :
    w'.now = w.now ∧ ∀ f ∈ w'.db.files.rows, f ∈ w.db.files.rows := by
  cases d with
  | listFilesForDelete lastID deleted =>
    simp only [deleteDirectoryStep] at h
    split at h
    · cases h; exact ⟨rfl, fun _ hf => hf⟩
    · split at h <;> (cases h; exact ⟨rfl, fun _ hf => hf⟩)
  | deleteMany batch waiting failed deleted =>
    simp only [deleteDirectoryStep] at h
    split at h
    · split at h <;> (cases h; exact ⟨rfl, fun _ hf => hf⟩)
    · split at h
      · cases h
      · cases h
        simp
  | deleteFilesByIDs batch deleted =>
    simp only [deleteDirectoryStep] at h
    split at h
    · cases h; exact ⟨rfl, fun _ hf => hf⟩
    · split at h
      · cases h; exact ⟨rfl, fun _ hf => hf⟩
      · rename_i n db hdb
        obtain ⟨hfiles, -⟩ := Db.deleteFilesByIDsWithDirectories_ok hdb
        have hw : w' = { w with db } := by
          split at h
          · cases h; rfl
          · split at h <;> (cases h; rfl)
        rw [hw]
        refine ⟨rfl, fun f hf => ?_⟩
        rw [hfiles] at hf
        exact (Files.mem_deleteWhere.mp hf).1
  | done n r => cases h

theorem rows_of_deleterStep {fault : Fault} {pick : Nat} {w w' : World β ι} {d d' : Deleter}
    (h : d.step fault pick w = some (w', d')) :
    w'.now = w.now ∧ ∀ f ∈ w'.db.files.rows, f ∈ w.db.files.rows := by
  cases d with
  | file id d =>
    obtain ⟨⟨u, e⟩, hu, he⟩ := Option.map_eq_some_iff.mp h
    cases he
    exact rows_of_deleteFileStep hu
  | directory path d =>
    obtain ⟨⟨u, e⟩, hu, he⟩ := Option.map_eq_some_iff.mp h
    cases he
    exact rows_of_deleteDirectoryStep hu

theorem read_of_getFile {w : World β ι} (fs : List FileInfo)
    (hfs : ∀ f ∈ fs, w.getFile f.file.id = some f) :
    DeleteStep w [] [] w (fs.map fun f => (f.file.id, f.file.key))
      (fs.flatMap FileInfo.objectKeys) := by
  refine .read ?_ ?_
  · intro p hp
    obtain ⟨f, hf, rfl⟩ := List.mem_map.mp hp
    exact ⟨World.owner_of_getFile (hfs f hf),
      List.mem_flatMap.mpr ⟨f, hf, List.mem_cons_self⟩⟩
  · intro k hk
    obtain ⟨f, hf, hk⟩ := List.mem_flatMap.mp hk
    rcases List.mem_cons.mp hk with rfl | hk
    · exact Or.inl ⟨_, List.mem_map_of_mem hf, rfl⟩
    · rcases previewObjects_eq (f := f) with he | ⟨k', hk', he⟩
      · rw [he] at hk
        cases hk
      · rw [he, List.mem_singleton] at hk
        subst hk
        obtain ⟨g, hg, he⟩ := Option.map_eq_some_iff.mp (hfs f hf)
        refine Or.inr ⟨g.id, ?_⟩
        rw [← hk', ← he]

theorem deleteStep_of_deleteFile {id : FileID} {w w' : World β ι} {d d' : DeleteFileState}
    (h : deleteFileStep id .none w d = some (w', d')) :
    DeleteStep w (Deleter.file id d).held (Deleter.file id d).waiting w'
      (Deleter.file id d').held (Deleter.file id d').waiting := by
  cases d with
  | getFile =>
    simp only [deleteFileStep, ne_eq, not_true_eq_false, if_false] at h
    split at h
    · cases h; exact .idle
    · rename_i f hf
      cases h
      have hid : f.file.id = id := by
        obtain ⟨g, hg, rfl⟩ := Option.map_eq_some_iff.mp hf
        exact (Files.getFile_eq_some_iff.mp hg).2
      have hread := read_of_getFile (w := w) [f] (by simpa [hid] using hf)
      simpa [Deleter.held, Deleter.waiting, hid] using hread
  | deleteObject f =>
    simp only [deleteFileStep, ne_eq, not_true_eq_false, if_false, World.deleteObject,
      reduceCtorEq] at h
    split at h
    · rename_i he
      cases h
      exact .erase (by simp [Deleter.waiting, FileInfo.objectKeys]) (by simp [Deleter.waiting])
        (by simp [Deleter.waiting, FileInfo.objectKeys, he])
    · cases h
      exact .erase (by simp [Deleter.waiting, FileInfo.objectKeys])
        (by simp [Deleter.waiting, FileInfo.objectKeys])
        (by simp [Deleter.waiting, FileInfo.objectKeys])
  | deletePreview f =>
    simp only [deleteFileStep, World.deleteObject, reduceCtorEq, if_false] at h
    rcases previewObjects_eq (f := f) with he | ⟨k, -, he⟩
    · simp only [he, Option.some.injEq, Prod.mk.injEq] at h
      obtain ⟨rfl, rfl⟩ := h
      simp only [Deleter.held, Deleter.waiting, he]
      exact .ready
    · simp only [he, Option.some.injEq, Prod.mk.injEq] at h
      obtain ⟨rfl, rfl⟩ := h
      exact .erase (by simp [Deleter.waiting, he]) (by simp [Deleter.waiting])
        (by simp [Deleter.waiting, he])
  | deleteFileWithDirectories f =>
    simp only [deleteFileStep, reduceCtorEq, if_false] at h
    split at h
    · rename_i e he
      cases h
      exact .missing (Db.deleteFileWithDirectories_error he)
    · rename_i g db hdb
      cases h
      obtain ⟨-, hf, -⟩ := Db.deleteFileWithDirectories_ok hdb
      exact .remove (by simpa [Deleter.held] using hf)
  | done r => cases h

theorem mem_eraseIdx_or {l : List Key} {n : Nat} {key x : Key} (hn : l[n]? = some key)
    (hx : x ∈ l) : x = key ∨ x ∈ l.eraseIdx n := by
  obtain ⟨i, hi⟩ := List.mem_iff_getElem?.mp hx
  by_cases h : i = n
  · subst h
    exact Or.inl (Option.some.inj (hi.symm.trans hn))
  · exact Or.inr (List.mem_eraseIdx_iff_getElem?.mpr ⟨i, h, hi⟩)

theorem deleteStep_of_deleteDirectory {path : Key} {pick : Nat} {w w' : World β ι}
    {d d' : DeleteDirectoryState} (h : deleteDirectoryStep path .none pick w d = some (w', d'))
    (hd : (Deleter.directory path d).unfailed = true) :
    DeleteStep w (Deleter.directory path d).held (Deleter.directory path d).waiting w'
      (Deleter.directory path d').held (Deleter.directory path d').waiting := by
  cases d with
  | listFilesForDelete lastID deleted =>
    simp only [deleteDirectoryStep, ne_eq, not_true_eq_false, if_false] at h
    split at h
    · cases h; exact .idle
    · cases h
      exact read_of_getFile _ fun f hf => (mem_listFilesForDelete hf).1
  | deleteMany batch waiting failed deleted =>
    obtain rfl : failed = false := by simpa [Deleter.unfailed] using hd
    simp only [deleteDirectoryStep, Bool.false_eq_true, if_false] at h
    split at h
    · rename_i hw
      subst hw
      cases h; exact .ready
    · split at h
      · cases h
      · rename_i key hkey
        cases h
        exact .erase (List.mem_of_getElem? hkey) (List.eraseIdx_subset) fun x => mem_eraseIdx_or hkey
  | deleteFilesByIDs batch deleted =>
    simp only [deleteDirectoryStep, reduceCtorEq, if_false] at h
    split at h
    · rename_i e he
      cases he
    · rename_i n db hdb
      obtain ⟨hf, -⟩ := Db.deleteFilesByIDsWithDirectories_ok hdb
      split at h
      · cases h
        exact .remove (by simpa [Deleter.held, Function.comp_def] using hf)
      · cases h
        exact .remove (by simpa [Deleter.held, Function.comp_def] using hf)
  | done n r => cases h

theorem unfailed_deleteDirectory {path : Key} {pick : Nat} {w w' : World β ι}
    {d d' : DeleteDirectoryState} (h : deleteDirectoryStep path .none pick w d = some (w', d'))
    (hd : (Deleter.directory path d).unfailed = true) :
    (Deleter.directory path d').unfailed = true := by
  cases d with
  | listFilesForDelete lastID deleted =>
    simp only [deleteDirectoryStep, ne_eq, not_true_eq_false, if_false] at h
    split at h <;> (cases h; rfl)
  | deleteMany batch waiting failed deleted =>
    obtain rfl : failed = false := by simpa [Deleter.unfailed] using hd
    simp only [deleteDirectoryStep, Bool.false_eq_true, if_false] at h
    split at h
    · cases h; rfl
    · split at h <;> (cases h; try rfl)
  | deleteFilesByIDs batch deleted =>
    simp only [deleteDirectoryStep, reduceCtorEq, if_false] at h
    split at h
    · cases h; rfl
    · split at h <;> (cases h; rfl)
  | done n r => cases h

theorem deleteStep_of_step {pick : Nat} {w w' : World β ι} {d d' : Deleter}
    (h : d.step .none pick w = some (w', d')) (hd : d.unfailed = true) :
    DeleteStep w d.held d.waiting w' d'.held d'.waiting ∧ d'.unfailed = true := by
  cases d with
  | file id d =>
    obtain ⟨⟨u, e⟩, hu, he⟩ := Option.map_eq_some_iff.mp h
    cases he
    exact ⟨deleteStep_of_deleteFile hu, rfl⟩
  | directory path d =>
    obtain ⟨⟨u, e⟩, hu, he⟩ := Option.map_eq_some_iff.mp h
    cases he
    exact ⟨deleteStep_of_deleteDirectory hu hd, unfailed_deleteDirectory hu hd⟩

end Inversion

end FileIndexer
