import FileIndexer.Foundation.ReadCommitted
import FileIndexer.Database.Store

namespace FileIndexer

open ReadCommitted

inductive TxState where
  | idle
  | begun (op : StoreOp)
  | keyRead (id : FileID) (newKey oldKey : Key)
  | prune (keys : Option (List Key)) (added : List Key)
  | pruning (seen : List File) (candidates : List (Key × Nat)) (added : List Key)
  | upserting (paths : List Key)

-- a directories row is identified by its path and the number of the insert that made it
structure Postgres (ι : Type) where
  files : Table FileID File ι
  nextId : FileID
  directories : Table Key Nat ι
  nextRow : Nat
  tx : ι → TxState

inductive TxAction (ι : Type) where
  | begin (i : ι) (op : StoreOp)
  | run (i : ι) (n : Nat)
  | rollback (i : ι)

section Statements

variable {ι : Type} [DecidableEq ι] (i : ι)

def keyHeld (t : Table FileID File ι) (key : Key) : Bool :=
  t.domain.any fun id => !t.writable i id &&
    ((t.committed id).any (·.key = key) || ((t.pending id).bind Prod.snd).any (·.key = key))

def upsertRowStatement (now : Time) (s : Table FileID File ι × FileID) (row : Key × Time) :
    Option (Table FileID File ι × FileID) :=
  if keyHeld i s.1 row.1 then none
  else match (s.1.rows i).find? fun f => f.key = row.1 with
    | none => (s.1.tryWrite i s.2 (some ⟨s.2, row.1, now, row.2, now⟩)).map (·, s.2 + 1)
    | some f => (s.1.tryWrite i f.id (some (Files.touched now row.1 row.2 f))).map (·, s.2 + 1)

def upsertFilesStatement (now : Time) (arg : UpsertFilesParams)
    (s : Table FileID File ι × FileID) : Option (Table FileID File ι × FileID) :=
  (groupByKey arg).foldlM (upsertRowStatement i now) s

def deleteStatement (t : Table FileID File ι) (p : File → Bool) : Option (Table FileID File ι) :=
  ((t.rows i).filter p).foldlM (fun t f => t.tryWrite i f.id none) t

def updateFileKeyStatement (t : Table FileID File ι) (f : File) (key : Key) :
    Except DbError (Option (Table FileID File ι)) :=
  if keyHeld i t key then .ok none
  else if (t.rows i).any fun g => g.id ≠ f.id && g.key = key then .error .uniqueViolation
  else .ok (t.tryWrite i f.id (some { f with key }))

def pruneCandidates (directories : Table Key Nat ι) (keys : Option (List Key)) :
    List (Key × Nat) :=
  (keys.elim directories.domain Directories.impliedPaths).filterMap fun path =>
    (directories.view i path).map (path, ·)

end Statements

namespace Postgres

variable {ι : Type} [DecidableEq ι]

def rollback (s : Postgres ι) (i : ι) : Postgres ι :=
  { s with
    files := s.files.rollback i
    directories := s.directories.rollback i
    tx := Function.update s.tx i .idle }

def commit (s : Postgres ι) (i : ι) : Postgres ι :=
  { s with
    files := s.files.commit i
    directories := s.directories.commit i
    tx := Function.update s.tx i .idle }

def goto (s : Postgres ι) (i : ι) (next : TxState) : Postgres ι :=
  { s with tx := Function.update s.tx i next }

def wrote (s : Postgres ι) (i : ι) (files : Table FileID File ι) (nextId : FileID)
    (next : TxState) : Postgres ι :=
  { s with files, nextId }.goto i next

def pruneRow (s : Postgres ι) (i : ι) (seen : List File) (path : Key) (row : Nat) (next : TxState) :
    Option (Postgres ι) :=
  if Directories.occupied seen path then some (s.goto i next)
  else if !s.directories.writable i path then none
  else if s.directories.view i path = some row then
    (s.directories.tryWrite i path none).map fun directories => { s with directories }.goto i next
  else some (s.goto i next)

def upsertRow (s : Postgres ι) (i : ι) (path : Key) (next : TxState) : Option (Postgres ι) :=
  if !s.directories.writable i path then none
  else if s.directories.view i path = none then
    (s.directories.tryWrite i path (some s.nextRow)).map fun directories =>
      { s with directories, nextRow := s.nextRow + 1 }.goto i next
  else some (s.goto i next)

def runStatement (s : Postgres ι) (i : ι) (n : Nat) : TxState → Option (Postgres ι)
  | .idle => none
  | .begun (.upsertFiles now arg) =>
    (upsertFilesStatement i now arg (s.files, s.nextId)).map fun (files, nextId) =>
      s.wrote i files nextId (.upserting (Directories.impliedPaths (arg.map Prod.fst)))
  | .begun (.deleteFile id) =>
    match s.files.view i id with
    | none => some (s.rollback i)
    | some f => (s.files.tryWrite i id none).map fun files =>
        s.wrote i files s.nextId (.prune (some [f.key]) [])
  | .begun (.moveFile id newKey) =>
    match s.files.view i id with
    | none => some (s.rollback i)
    | some f => some (s.goto i (.keyRead id newKey f.key))
  | .begun (.deleteFilesByIDs ids keys) =>
    (deleteStatement i s.files fun f => f.id ∈ ids).map fun files =>
      s.wrote i files s.nextId (.prune (some keys) [])
  | .begun (.deleteUnseenFiles cutoff) =>
    (deleteStatement i s.files fun f => f.seenAt < cutoff).map fun files =>
      s.wrote i files s.nextId (.prune none [])
  | .keyRead id newKey oldKey =>
    match s.files.view i id with
    | none => some (s.rollback i)
    | some f =>
      match updateFileKeyStatement i s.files f newKey with
      | .error _ => some (s.rollback i)
      | .ok files => files.map fun files => s.wrote i files s.nextId (.prune (some [oldKey]) [newKey])
  | .prune keys added =>
    some (s.goto i (.pruning (s.files.rows i) (pruneCandidates i s.directories keys) added))
  | .pruning _ [] added => some (s.goto i (.upserting (Directories.impliedPaths added)))
  | .pruning seen candidates added =>
    match candidates[n]? with
    | none => none
    | some (path, row) => s.pruneRow i seen path row (.pruning seen (candidates.eraseIdx n) added)
  | .upserting [] => some (s.commit i)
  | .upserting paths =>
    match paths[n]? with
    | none => none
    | some path => s.upsertRow i path (.upserting (paths.eraseIdx n))

def step (s : Postgres ι) : TxAction ι → Option (Postgres ι)
  | .begin i op =>
    match s.tx i with
    | .idle => some (s.goto i (.begun op))
    | _ => none
  | .run i n => s.runStatement i n (s.tx i)
  | .rollback i => some (s.rollback i)

def ofRows (files : List File) (nextId : FileID) (directories : List Key) : Postgres ι where
  files := Table.ofRows (files.map fun f => (f.id, f))
  nextId
  directories := Table.ofRows (directories.map (·, 0))
  nextRow := 1
  tx _ := .idle

end Postgres

end FileIndexer
