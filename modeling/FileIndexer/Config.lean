import FileIndexer.Storage.Key

namespace FileIndexer

def trim (p : Key) : Key := (p.dropWhile fun c => c = slash).rdropWhile fun c => c = slash

def normalizeIndexPrefix (p : Key) : Key :=
  if trim p = [] then [] else trim p ++ [slash]

theorem unrooted_trim (p : Key) : [slash].isPrefixOf (trim p) = false := by
  rw [Bool.eq_false_iff]
  intro h
  have hprefix : [slash] <+: p.dropWhile fun c => c = slash :=
    (List.isPrefixOf_iff_prefix.mp h).trans (List.rdropWhile_prefix _ _)
  obtain ⟨rest, hrest⟩ := hprefix
  have hhead := List.head?_dropWhile_not (fun c => decide (c = slash)) p
  rw [← hrest] at hhead
  simp at hhead

example : normalizeIndexPrefix (ascii "/a/b/") = ascii "a/b/" := by decide

end FileIndexer
