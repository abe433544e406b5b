import FileIndexer.Foundation.Runs
import FileIndexer.Database.Directories

namespace FileIndexer

namespace Directories

theorem mem_prune_iff {d : Directories} {files files' : List File} {keys : List Key} {path : Key}
    (hd : Exact d files) :
    path ∈ pruneDirectoriesForKeys d files' keys ↔ (∃ f ∈ files, Holds path f.key) ∧
      ((∀ k ∈ keys, ¬Holds path k) ∨ ∃ f ∈ files', Holds path f.key) := by
  simp only [pruneDirectoriesForKeys, Finset.mem_filter, mem_impliedBy, hd path]
  refine and_congr_right fun ⟨f, _, hf⟩ => ?_
  rw [← occupied_iff hf.2.1, Classical.not_and_iff_not_or_not]
  simp

theorem prune_nil (d : Directories) (files : List File) :
    pruneDirectoriesForKeys d files [] = d := by
  simp [pruneDirectoriesForKeys, impliedBy]

theorem upsert_nil (d : Directories) : upsertDirectoriesForKeys d [] = d := by
  simp [upsertDirectoriesForKeys, impliedBy]

theorem exact_prune_upsert {d : Directories} {files files' : List File} {removed added : List Key}
    (hd : Exact d files)
    (hkeep : ∀ f ∈ files, f.key ∈ removed ∨ ∃ g ∈ files', g.key = f.key)
    (hnew : ∀ g ∈ files', g.key ∈ added ∨ ∃ f ∈ files, f.key = g.key)
    (hadd : ∀ k ∈ added, ∃ g ∈ files', g.key = k) :
    Exact (upsertDirectoriesForKeys (pruneDirectoriesForKeys d files' removed) added) files' := by
  intro path
  rw [upsertDirectoriesForKeys, Finset.mem_union, mem_prune_iff hd, mem_impliedBy]
  constructor
  · rintro (⟨⟨f, hf, hp⟩, hr⟩ | ⟨k, hk, hp⟩)
    · rcases hkeep f hf with hrem | ⟨g, hg, he⟩
      · exact hr.resolve_left fun h => h _ hrem hp
      · exact ⟨g, hg, he ▸ hp⟩
    · obtain ⟨g, hg, rfl⟩ := hadd k hk
      exact ⟨g, hg, hp⟩
  · rintro ⟨g, hg, hp⟩
    rcases hnew g hg with ha | ⟨f, hf, he⟩
    · exact Or.inr ⟨_, ha, hp⟩
    · exact Or.inl ⟨⟨f, hf, he ▸ hp⟩, Or.inr ⟨g, hg, hp⟩⟩

theorem exact_pruneOrphan {d : Directories} {files files' : List File} (hd : Exact d files)
    (hsub : ∀ g ∈ files', ∃ f ∈ files, f.key = g.key) :
    Exact (pruneOrphanDirectories d files') files' := by
  intro path
  simp only [pruneOrphanDirectories, Finset.mem_filter, hd path, Bool.not_eq_false]
  constructor
  · rintro ⟨⟨f, -, hp⟩, ho⟩
    exact (occupied_iff hp.2.1).mp ho
  · rintro ⟨g, hg, hp⟩
    obtain ⟨f, hf, he⟩ := hsub g hg
    exact ⟨⟨f, hf, he ▸ hp⟩, (occupied_iff hp.2.1).mpr ⟨g, hg, hp⟩⟩

end Directories

structure Db where
  files : Files
  directories : Directories

namespace Db

open Directories

def empty : Db := ⟨Files.empty, ∅⟩

def upsertFilesWithDirectories (db : Db) (now : Time) (arg : UpsertFilesParams) :
    Except DbError (Nat × Db) := do
  let (n, files) := db.files.upsertFiles now arg
  return (n, ⟨files, upsertDirectoriesForKeys db.directories (arg.map Prod.fst)⟩)

def deleteFileWithDirectories (db : Db) (id : FileID) : Except DbError (File × Db) := do
  let (f, files) ← db.files.deleteFile id
  return (f, ⟨files, pruneDirectoriesForKeys db.directories files.rows [f.key]⟩)

def moveFileWithDirectories (db : Db) (id : FileID) (newKey : Key) : Except DbError (File × Db) := do
  let old ← (db.files.getFile id).elim (.error .noRows) .ok
  let (f, files) ← db.files.updateFileKey id newKey
  let pruned := pruneDirectoriesForKeys db.directories files.rows [old.key]
  return (f, ⟨files, upsertDirectoriesForKeys pruned [newKey]⟩)

def deleteFilesByIDsWithDirectories (db : Db) (ids : List FileID) (keys : List Key) :
    Except DbError (Nat × Db) := do
  let (n, files) := db.files.deleteFilesByIDs ids
  return (n, ⟨files, pruneDirectoriesForKeys db.directories files.rows keys⟩)

def deleteUnseenFilesWithDirectories (db : Db) (cutoff : Time) : Except DbError (Nat × Db) := do
  let (n, files) := db.files.deleteUnseenFiles cutoff
  return (n, ⟨files, pruneOrphanDirectories db.directories files.rows⟩)

def DirectoriesExact (db : Db) : Prop := Exact db.directories db.files.rows

theorem upsertFilesWithDirectories_ok {db db' : Db} {now : Time} {arg : UpsertFilesParams} {n : Nat}
    (h : db.upsertFilesWithDirectories now arg = .ok (n, db')) :
    db'.files = (db.files.upsertFiles now arg).2 ∧
      db'.directories = upsertDirectoriesForKeys db.directories (arg.map Prod.fst) := by
  obtain ⟨-, rfl⟩ := Prod.mk.inj (Except.ok.inj h)
  exact ⟨rfl, rfl⟩

theorem deleteFileWithDirectories_ok {db db' : Db} {id : FileID} {f : File}
    (h : db.deleteFileWithDirectories id = .ok (f, db')) :
    db.files.getFile id = some f ∧ db'.files = db.files.deleteWhere (fun g => g.id = id) ∧
      db'.directories = pruneDirectoriesForKeys db.directories db'.files.rows [f.key] := by
  unfold deleteFileWithDirectories at h
  cases hd : db.files.deleteFile id with
  | error e => simp [hd, bind, Except.bind] at h
  | ok r =>
    obtain ⟨g, files⟩ := r
    simp only [hd, bind, Except.bind, pure, Except.pure, Except.ok.injEq, Prod.mk.injEq] at h
    obtain ⟨rfl, rfl⟩ := h
    obtain ⟨hg, rfl⟩ := Files.deleteFile_ok_iff.mp hd
    exact ⟨hg, rfl, rfl⟩

theorem deleteFileWithDirectories_error {db : Db} {id : FileID} {e : DbError}
    (h : db.deleteFileWithDirectories id = .error e) : db.files.getFile id = none := by
  unfold deleteFileWithDirectories Files.deleteFile at h
  cases hg : db.files.getFile id with
  | none => rfl
  | some f => simp [hg, bind, Except.bind, pure, Except.pure] at h

theorem moveFileWithDirectories_error {db : Db} {id : FileID} {newKey : Key} {e : DbError}
    (h : db.moveFileWithDirectories id newKey = .error e) :
    (e = .noRows ∧ db.files.getFile id = none) ∨
      (e = .uniqueViolation ∧ ∃ x ∈ db.files.rows, x.key = newKey) := by
  unfold moveFileWithDirectories Files.updateFileKey at h
  cases hg : db.files.getFile id with
  | none =>
    simp only [hg, Option.elim, bind, Except.bind, Except.error.injEq] at h
    exact Or.inl ⟨h.symm, rfl⟩
  | some f =>
    simp only [hg, Option.elim, bind, Except.bind, pure, Except.pure] at h
    split at h
    · rename_i e' he
      split at he
      · cases he
      · rename_i hfree
        push Not at hfree
        obtain ⟨x, hx, -, hk⟩ := hfree
        exact Or.inr ⟨by rw [← Except.error.inj h, ← Except.error.inj he], x, hx, hk⟩
    · cases h

theorem moveFileWithDirectories_ok {db db' : Db} {id : FileID} {newKey : Key} {f : File}
    (h : db.moveFileWithDirectories id newKey = .ok (f, db')) :
    ∃ old, db.files.getFile id = some old ∧ f = { old with key := newKey } ∧
      (∃ hfree : ∀ x ∈ db.files.rows, x.id ≠ id → x.key ≠ newKey,
        db'.files = db.files.rekey id newKey hfree) ∧
      db'.directories = upsertDirectoriesForKeys
        (pruneDirectoriesForKeys db.directories db'.files.rows [old.key]) [newKey] := by
  unfold moveFileWithDirectories at h
  cases hold : db.files.getFile id with
  | none => simp [hold, bind, Except.bind] at h
  | some old =>
    cases hu : db.files.updateFileKey id newKey with
    | error e => simp [hold, hu, bind, Except.bind] at h
    | ok r =>
      obtain ⟨g, files⟩ := r
      simp only [hold, hu, Option.elim, bind, Except.bind, pure, Except.pure, Except.ok.injEq,
        Prod.mk.injEq] at h
      obtain ⟨rfl, rfl⟩ := h
      obtain ⟨x, hx, rfl, hfree, rfl⟩ := Files.updateFileKey_ok_iff.mp hu
      obtain rfl : old = x := Option.some.inj (hold.symm.trans hx)
      exact ⟨old, rfl, rfl, ⟨hfree, rfl⟩, rfl⟩

theorem deleteFilesByIDsWithDirectories_ok {db db' : Db} {ids : List FileID} {keys : List Key}
    {n : Nat} (h : db.deleteFilesByIDsWithDirectories ids keys = .ok (n, db')) :
    db'.files = db.files.deleteWhere (fun f => f.id ∈ ids) ∧
      db'.directories = pruneDirectoriesForKeys db.directories db'.files.rows keys := by
  obtain ⟨-, rfl⟩ := Prod.mk.inj (Except.ok.inj h)
  exact ⟨rfl, rfl⟩

theorem deleteUnseenFilesWithDirectories_ok {db db' : Db} {cutoff : Time} {n : Nat}
    (h : db.deleteUnseenFilesWithDirectories cutoff = .ok (n, db')) :
    db'.files = db.files.deleteWhere (fun f => f.seenAt < cutoff) ∧
      db'.directories = pruneOrphanDirectories db.directories db'.files.rows := by
  obtain ⟨-, rfl⟩ := Prod.mk.inj (Except.ok.inj h)
  exact ⟨rfl, rfl⟩

theorem exact_empty : empty.DirectoriesExact := by
  intro path
  simp [empty, Files.empty]

theorem exact_upsert {db db' : Db} {now : Time} {arg : UpsertFilesParams} {n : Nat}
    (hd : db.DirectoriesExact) (h : db.upsertFilesWithDirectories now arg = .ok (n, db')) :
    db'.DirectoriesExact := by
  obtain ⟨hf, hdir⟩ := upsertFilesWithDirectories_ok h
  have hkeys (k : Key) : (∃ g ∈ (db.files.upsertFiles now arg).2.rows, g.key = k) ↔
      (∃ g ∈ db.files.rows, g.key = k) ∨ k ∈ arg.map Prod.fst := Files.keys_upsertFiles
  rw [DirectoriesExact, hdir, hf, ← prune_nil db.directories (db.files.upsertFiles now arg).2.rows]
  refine exact_prune_upsert hd (fun f hf => Or.inr ?_) (fun g hg => ?_) fun k hk => ?_
  · exact (hkeys f.key).mpr (Or.inl ⟨f, hf, rfl⟩)
  · exact ((hkeys g.key).mp ⟨g, hg, rfl⟩).symm
  · exact (hkeys k).mpr (Or.inr hk)

theorem exact_deleteWhere {db : Db} {p : File → Bool} {keys : List Key}
    (hd : db.DirectoriesExact) (hkeys : ∀ f ∈ db.files.rows, p f = true → f.key ∈ keys) :
    Exact (pruneDirectoriesForKeys db.directories (db.files.deleteWhere p).rows keys)
      (db.files.deleteWhere p).rows := by
  rw [← upsert_nil (pruneDirectoriesForKeys _ _ _)]
  refine exact_prune_upsert hd (fun f hf => ?_) (fun g hg => Or.inr ?_) fun k hk => by simp at hk
  · cases hp : p f with
    | true => exact Or.inl (hkeys f hf hp)
    | false => exact Or.inr ⟨f, Files.mem_deleteWhere.mpr ⟨hf, hp⟩, rfl⟩
  · exact ⟨g, (Files.mem_deleteWhere.mp hg).1, rfl⟩

theorem exact_deleteFile {db db' : Db} {id : FileID} {f : File} (hd : db.DirectoriesExact)
    (h : db.deleteFileWithDirectories id = .ok (f, db')) : db'.DirectoriesExact := by
  obtain ⟨hget, hf, hdir⟩ := deleteFileWithDirectories_ok h
  obtain ⟨hmem, hid⟩ := Files.getFile_eq_some_iff.mp hget
  rw [DirectoriesExact, hdir, hf]
  refine exact_deleteWhere hd fun g hg hp => ?_
  obtain rfl : g = f := Files.eq_of_id hg hmem ((of_decide_eq_true hp).trans hid.symm)
  simp

theorem exact_deleteFilesByIDs {db db' : Db} {ids : List FileID} {keys : List Key} {n : Nat}
    (hd : db.DirectoriesExact) (hkeys : ∀ f ∈ db.files.rows, f.id ∈ ids → f.key ∈ keys)
    (h : db.deleteFilesByIDsWithDirectories ids keys = .ok (n, db')) : db'.DirectoriesExact := by
  obtain ⟨hf, hdir⟩ := deleteFilesByIDsWithDirectories_ok h
  rw [DirectoriesExact, hdir, hf]
  exact exact_deleteWhere hd fun g hg hp => hkeys g hg (of_decide_eq_true hp)

theorem exact_deleteUnseen {db db' : Db} {cutoff : Time} {n : Nat} (hd : db.DirectoriesExact)
    (h : db.deleteUnseenFilesWithDirectories cutoff = .ok (n, db')) : db'.DirectoriesExact := by
  obtain ⟨hf, hdir⟩ := deleteUnseenFilesWithDirectories_ok h
  rw [DirectoriesExact, hdir, hf]
  exact exact_pruneOrphan hd fun g hg => ⟨g, (Files.mem_deleteWhere.mp hg).1, rfl⟩

theorem exact_move {db db' : Db} {id : FileID} {newKey : Key} {f : File} (hd : db.DirectoriesExact)
    (h : db.moveFileWithDirectories id newKey = .ok (f, db')) : db'.DirectoriesExact := by
  obtain ⟨old, hget, -, ⟨hfree, hf⟩, hdir⟩ := moveFileWithDirectories_ok h
  obtain ⟨hmem, hid⟩ := Files.getFile_eq_some_iff.mp hget
  rw [DirectoriesExact, hdir, hf]
  refine exact_prune_upsert hd (fun g hg => ?_) (fun g hg => ?_) fun k hk => ?_
  · by_cases he : g.id = id
    · obtain rfl : g = old := Files.eq_of_id hg hmem (he.trans hid.symm)
      exact Or.inl (by simp)
    · exact Or.inr ⟨g, Files.mem_rekey.mpr ⟨g, hg, by simp [Files.rekeyed, he]⟩, rfl⟩
  · obtain ⟨x, hx, rfl⟩ := Files.mem_rekey.mp hg
    by_cases he : x.id = id
    · exact Or.inl (by simp [Files.rekeyed, he])
    · exact Or.inr ⟨x, hx, by simp [Files.rekeyed, he]⟩
  · obtain rfl : k = newKey := by simpa using hk
    exact ⟨_, Files.mem_rekey.mpr ⟨old, hmem, rfl⟩, by simp [Files.rekeyed, hid]⟩

end Db

inductive StoreOp where
  | upsertFiles (now : Time) (arg : UpsertFilesParams)
  | deleteFile (id : FileID)
  | moveFile (id : FileID) (newKey : Key)
  | deleteFilesByIDs (ids : List FileID) (keys : List Key)
  | deleteUnseenFiles (cutoff : Time)

def StoreOp.run (db : Db) : StoreOp → Except DbError Db
  | .upsertFiles now arg => (db.upsertFilesWithDirectories now arg).map Prod.snd
  | .deleteFile id => (db.deleteFileWithDirectories id).map Prod.snd
  | .moveFile id newKey => (db.moveFileWithDirectories id newKey).map Prod.snd
  | .deleteFilesByIDs ids keys => (db.deleteFilesByIDsWithDirectories ids keys).map Prod.snd
  | .deleteUnseenFiles cutoff => (db.deleteUnseenFilesWithDirectories cutoff).map Prod.snd

structure Transaction where
  op : StoreOp
  commits : Bool

def withTx (db : Db) (tx : Transaction) : Option Db :=
  match tx.op.run db with
  | .ok db' => some (if tx.commits then db' else db)
  | .error _ => some db

def KeysOfIDs (db : Db) (tx : Transaction) : Prop :=
  match tx.op with
  | .deleteFilesByIDs ids keys => ∀ f ∈ db.files.rows, f.id ∈ ids → f.key ∈ keys
  | _ => True

theorem ok_of_map_snd {β : Type} {e : Except DbError (β × Db)} {db' : Db}
    (h : e.map Prod.snd = .ok db') : ∃ b, e = .ok (b, db') := by
  cases e with
  | error _ => cases h
  | ok r => exact ⟨r.1, by rw [← Except.ok.inj h]⟩

theorem exact_run {db db' : Db} {tx : Transaction} (hd : db.DirectoriesExact)
    (hkeys : KeysOfIDs db tx) (h : tx.op.run db = .ok db') : db'.DirectoriesExact := by
  obtain ⟨op, commits⟩ := tx
  cases op with
  | upsertFiles now arg =>
    obtain ⟨n, hn⟩ := ok_of_map_snd (e := db.upsertFilesWithDirectories now arg) h
    exact Db.exact_upsert hd hn
  | deleteFile id =>
    obtain ⟨f, hf⟩ := ok_of_map_snd h
    exact Db.exact_deleteFile hd hf
  | moveFile id newKey =>
    obtain ⟨f, hf⟩ := ok_of_map_snd h
    exact Db.exact_move hd hf
  | deleteFilesByIDs ids keys =>
    obtain ⟨n, hn⟩ := ok_of_map_snd (e := db.deleteFilesByIDsWithDirectories ids keys) h
    exact Db.exact_deleteFilesByIDs hd hkeys hn
  | deleteUnseenFiles cutoff =>
    obtain ⟨n, hn⟩ := ok_of_map_snd (e := db.deleteUnseenFilesWithDirectories cutoff) h
    exact Db.exact_deleteUnseen hd hn

theorem exact_withTx : Transition.Preserves withTx KeysOfIDs Db.DirectoriesExact := by
  intro db tx db' hd hkeys h
  unfold withTx at h
  split at h
  · rename_i db'' hrun
    obtain rfl := Option.some.inj h
    split
    · exact exact_run hd hkeys hrun
    · exact hd
  · exact Option.some.inj h ▸ hd

theorem directories_exact (txs : List Transaction)
    (hkeys : Transition.EveryStep withTx KeysOfIDs Db.empty txs) :
    Transition.EveryState withTx
      (fun db => ∀ path, path ∈ db.directories ↔
        ∃ f ∈ db.files.rows, hasSlashSuffix f.key = false ∧ hasSlashSuffix path = true ∧
          path <+: f.key ∧ path ≠ f.key) Db.empty txs :=
  Transition.everyState_of_preserves exact_withTx txs Db.exact_empty hkeys

theorem directories_exact_nested_delete :
    Transition.EveryState withTx
      (fun db => ∀ path, path ∈ db.directories ↔
        ∃ f ∈ db.files.rows, hasSlashSuffix f.key = false ∧ hasSlashSuffix path = true ∧
          path <+: f.key ∧ path ≠ f.key) Db.empty
      [⟨.upsertFiles 1 [(ascii "a//b", 1), (ascii "/c", 1)], true⟩,
        ⟨.deleteFilesByIDs [1] [ascii "a//b"], true⟩] := by
  refine directories_exact _ ?_
  intro db h
  obtain rfl := Option.some.inj h
  refine ⟨trivial, fun db' _ => ⟨?_, trivial⟩⟩
  show ∀ f ∈ _, _
  decide

end FileIndexer
