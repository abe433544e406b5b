import FileIndexer.Foundation.CleanPath
import FileIndexer.Foundation.Segments
import FileIndexer.Storage.Key

namespace FileIndexer

namespace Path

def names : CleanPath.Names Key where
  empty := []
  cur := ascii "."
  up := ascii ".."
  up_ne_empty := by decide
  up_ne_cur := by decide

def clean (path : Key) : Key :=
  let rooted := [slash].isPrefixOf path
  let out := CleanPath.reduce names rooted (path.splitOn slash)
  if rooted then slash :: [slash].intercalate out
  else if out = [] then ascii "." else [slash].intercalate out

def join (elem : List Key) : Key :=
  match elem.dropWhile fun e => e = [] with
  | [] => []
  | elem => clean ([slash].intercalate elem)

theorem rooted_append {path : Key} (h : path ≠ []) (rest : Key) :
    [slash].isPrefixOf (path ++ rest) = [slash].isPrefixOf path := by
  cases path with
  | nil => exact absurd rfl h
  | cons c path => simp [List.isPrefixOf]

theorem clean_of_unrooted {path : Key} (h : [slash].isPrefixOf path = false)
    (hout : CleanPath.reduce names false (path.splitOn slash) ≠ []) :
    clean path = [slash].intercalate (CleanPath.reduce names false (path.splitOn slash)) := by
  simp [clean, h, hout]

theorem clean_child {path s t : Key} {segs : List Key} (hpath : path.splitOn slash = segs ++ [s])
    (hs : CleanPath.ordinary names s = true) (ht : CleanPath.ordinary names t = true)
    (hslash : slash ∉ t) : clean (path ++ slash :: t) = clean path ++ slash :: t := by
  have hne : path ≠ [] := by
    rintro rfl
    have hlast : s = [] := by simpa [eq_comm] using congrArg List.getLast? hpath
    exact (CleanPath.ordinary_iff.mp hs).1 hlast
  have hsplit : (path ++ slash :: t).splitOn slash = segs ++ [s] ++ [t] := by
    rw [List.splitOn_append_cons_self, hpath, List.splitOn_eq_singleton hslash]
  have hout (rooted : Bool) : CleanPath.reduce names rooted (segs ++ [s]) ≠ [] := by
    simp [CleanPath.reduce_concat hs]
  have hjoin (rooted : Bool) :
      [slash].intercalate (CleanPath.reduce names rooted (segs ++ [s]) ++ [t]) =
        [slash].intercalate (CleanPath.reduce names rooted (segs ++ [s])) ++ slash :: t := by
    rw [Segments.intercalate_append _ (hout rooted) (by simp), List.intercalate_singleton]
  simp only [clean, rooted_append hne, hsplit, hpath, CleanPath.reduce_concat ht, hjoin]
  cases [slash].isPrefixOf path with
  | true => rfl
  | false => simp [hout]

end Path

end FileIndexer
