import FileIndexer.Database.Store
import FileIndexer.Storage.Bucket

namespace FileIndexer

inductive Code where
  | notFound
  | invalidArgument
  | alreadyExists
  | internal
  deriving DecidableEq, Repr

inductive Cause where
  | db (e : DbError)
  | storage (e : StorageError)
  deriving DecidableEq, Repr

inductive Arg where
  | id (n : FileID)
  | key (k : Key)
  | err (c : Cause)
  deriving DecidableEq, Repr

structure Status where
  code : Code
  format : String
  args : List Arg
  deriving DecidableEq, Repr

inductive Failure where
  | status (s : Status)
  | cause (c : Cause)
  deriving DecidableEq, Repr

def errorf (code : Code) (format : String) (args : List Arg) : Failure := .status ⟨code, format, args⟩

def hasDotDotSegment (s : Key) : Bool := (s.splitOn slash).any fun segment => segment = ascii ".."

def underPrefix (indexPrefix key : Key) : Bool := indexPrefix ≠ [] && indexPrefix.isPrefixOf key

def validateUploadKey (indexPrefix key : Key) : Except Failure Key :=
  if key = [] then
    .error (errorf .invalidArgument "key must not be empty" [])
  else if [slash].isPrefixOf key || hasDotDotSegment key then
    .error (errorf .invalidArgument "invalid key %q" [.key key])
  else if underPrefix indexPrefix key then
    .error (errorf .invalidArgument "key %q is reserved for derived objects" [.key key])
  else
    .ok key

def validateDirPath (indexPrefix path : Key) : Except Failure Key :=
  if path = [] then
    .error (errorf .invalidArgument "path must not be empty" [])
  else if !hasSlashSuffix path then
    .error (errorf .invalidArgument "path %q must end in \"/\"" [.key path])
  else if [slash].isPrefixOf path || hasDotDotSegment path then
    .error (errorf .invalidArgument "invalid path %q" [.key path])
  else if underPrefix indexPrefix path then
    .error (errorf .invalidArgument "path %q is reserved for derived objects" [.key path])
  else
    .ok path

theorem validateUploadKey_ok_iff {indexPrefix key k : Key} :
    validateUploadKey indexPrefix key = .ok k ↔ k = key ∧ key ≠ [] ∧ ¬[slash] <+: key ∧
      hasDotDotSegment key = false ∧ underPrefix indexPrefix key = false := by
  unfold validateUploadKey
  split_ifs with hempty hpath hreserved
  · simp [hempty]
  · simp only [false_iff]
    rintro ⟨-, -, hslash, hdots, -⟩
    simp only [hdots, Bool.or_false, List.isPrefixOf_iff_prefix] at hpath
    exact hslash hpath
  · simp [hreserved]
  · simp only [Bool.or_eq_true, List.isPrefixOf_iff_prefix, not_or, Bool.not_eq_true] at hpath
    rw [Bool.not_eq_true] at hreserved
    constructor
    · rintro h
      exact ⟨(Except.ok.inj h).symm, hempty, hpath.1, hpath.2, hreserved⟩
    · rintro ⟨rfl, -⟩
      rfl

end FileIndexer
