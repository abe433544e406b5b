import FileIndexer.Foundation.Segments
import FileIndexer.Database.Files

namespace FileIndexer

abbrev Directories := Finset Key

def zero : Byte := 48

theorem slash_covBy_zero : slash ⋖ zero := by
  refine ⟨by decide, fun c hlo hhi => ?_⟩
  simp only [Fin.lt_def] at hlo hhi
  exact absurd hhi (not_lt.mpr hlo)

namespace Directories

def stringToArray (k : Key) : List Key := if k = [] then [] else k.splitOn slash

def arrayToString (parts : List Key) : Key := [slash].intercalate parts

def ancestorsOf (parts : List Key) : List Key :=
  ((List.range' 1 parts.length).filter fun i => i < parts.length).map fun i =>
    arrayToString (parts.take i) ++ [slash]

def impliedBy (keys : List Key) : Finset Key :=
  ((keys.filter fun k => !hasSlashSuffix k).flatMap fun k => ancestorsOf (stringToArray k)).toFinset

def impliedPaths (keys : List Key) : List Key :=
  ((keys.filter fun k => !hasSlashSuffix k).flatMap fun k => ancestorsOf (stringToArray k)).dedup

def upsertDirectoriesForKeys (d : Directories) (keys : List Key) : Directories := d ∪ impliedBy keys

def skipPast (path : Key) : Key := path.dropLast ++ [zero]

def occupied (files : List File) (path : Key) : Bool :=
  files.any fun f => path < f.key && f.key < skipPast path && !hasSlashSuffix f.key

def pruneDirectoriesForKeys (d : Directories) (files : List File) (keys : List Key) : Directories :=
  d.filter fun path => ¬(path ∈ impliedBy keys ∧ occupied files path = false)

def pruneOrphanDirectories (d : Directories) (files : List File) : Directories :=
  d.filter fun path => ¬occupied files path = false

end Directories

def ProperAncestor (path key : Key) : Prop :=
  hasSlashSuffix path = true ∧ path <+: key ∧ path ≠ key

def Holds (path key : Key) : Prop := hasSlashSuffix key = false ∧ ProperAncestor path key

instance properAncestorDecidable (path key : Key) : Decidable (ProperAncestor path key) :=
  inferInstanceAs (Decidable (hasSlashSuffix path = true ∧ path <+: key ∧ path ≠ key))

instance holdsDecidable (path key : Key) : Decidable (Holds path key) :=
  inferInstanceAs (Decidable (hasSlashSuffix key = false ∧ ProperAncestor path key))

theorem properAncestor_iff {path key : Key} :
    ProperAncestor path key ↔ ∃ p s, s ≠ [] ∧ path = p ++ [slash] ∧ key = p ++ slash :: s := by
  constructor
  · rintro ⟨hs, ⟨s, rfl⟩, hne⟩
    obtain ⟨p, rfl⟩ := hasSlashSuffix_iff.mp hs
    exact ⟨p, s, fun h => hne (by simp [h]), rfl, by simp⟩
  · rintro ⟨p, s, hs, rfl, rfl⟩
    refine ⟨hasSlashSuffix_iff.mpr ⟨p, rfl⟩, ⟨s, by simp⟩, fun h => hs ?_⟩
    simpa using h

theorem holds_iff {path key : Key} (hk : hasSlashSuffix key = false) :
    Holds path key ↔ ∃ p s, path = p ++ [slash] ∧ key = p ++ slash :: s := by
  constructor
  · rintro ⟨-, h⟩
    obtain ⟨p, s, -, hp, hs⟩ := properAncestor_iff.mp h
    exact ⟨p, s, hp, hs⟩
  · rintro ⟨p, s, rfl, rfl⟩
    refine ⟨hk, properAncestor_iff.mpr ⟨p, s, ?_, rfl, rfl⟩⟩
    rintro rfl
    rw [hasSlashSuffix_iff.mpr ⟨p, rfl⟩] at hk
    cases hk

namespace Directories

theorem mem_ancestorsOf_split {path key : Key} :
    path ∈ ancestorsOf (key.splitOn slash) ↔ path ∈ Segments.heads slash key := by
  simp only [ancestorsOf, Segments.heads, arrayToString, List.mem_map, List.mem_filter,
    List.mem_range'_1, decide_eq_true_eq]
  refine exists_congr fun i => and_congr_left fun _ => ?_
  omega

theorem mem_ancestorsOf {path key : Key} (hk : hasSlashSuffix key = false) :
    path ∈ ancestorsOf (stringToArray key) ↔ Holds path key := by
  rw [holds_iff hk]
  unfold stringToArray
  split
  · rename_i h
    subst h
    simp [ancestorsOf]
  · rw [mem_ancestorsOf_split, Segments.mem_heads_iff]

theorem mem_impliedBy {path : Key} {keys : List Key} :
    path ∈ impliedBy keys ↔ ∃ k ∈ keys, Holds path k := by
  simp only [impliedBy, List.mem_toFinset, List.mem_flatMap, List.mem_filter, Bool.not_eq_true']
  constructor
  · rintro ⟨k, ⟨hk, hm⟩, hp⟩
    exact ⟨k, hk, (mem_ancestorsOf hm).mp hp⟩
  · rintro ⟨k, hk, hp⟩
    exact ⟨k, ⟨hk, hp.1⟩, (mem_ancestorsOf hp.1).mpr hp⟩

theorem mem_impliedPaths {path : Key} {keys : List Key} :
    path ∈ impliedPaths keys ↔ ∃ k ∈ keys, Holds path k := by
  rw [← mem_impliedBy, impliedPaths, impliedBy, List.mem_dedup, List.mem_toFinset]

theorem between_skipPast_iff {path key : Key} (hp : hasSlashSuffix path = true) :
    path < key ∧ key < skipPast path ↔ ProperAncestor path key := by
  obtain ⟨p, rfl⟩ := hasSlashSuffix_iff.mp hp
  rw [skipPast, List.dropLast_concat, Segments.between_iff slash_covBy_zero, properAncestor_iff]
  constructor
  · rintro ⟨s, hs, rfl⟩
    exact ⟨p, s, hs, rfl, rfl⟩
  · rintro ⟨q, s, hs, hpq, rfl⟩
    obtain ⟨rfl, -⟩ := List.append_inj' hpq rfl
    exact ⟨s, hs, rfl⟩

theorem occupied_iff {files : List File} {path : Key} (hp : hasSlashSuffix path = true) :
    occupied files path = true ↔ ∃ f ∈ files, Holds path f.key := by
  simp only [occupied, List.any_eq_true, Bool.and_eq_true, decide_eq_true_eq, Bool.not_eq_true']
  refine exists_congr fun f => and_congr_right fun _ => ?_
  rw [between_skipPast_iff hp]
  exact and_comm

def Exact (d : Directories) (files : List File) : Prop :=
  ∀ path, path ∈ d ↔ ∃ f ∈ files, Holds path f.key

end Directories

end FileIndexer
