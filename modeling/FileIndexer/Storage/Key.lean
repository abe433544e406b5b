import Mathlib

namespace FileIndexer

abbrev Byte := Fin 256

abbrev Key := List Byte

instance byteNeZero : NeZero 256 := ⟨by decide⟩

instance keyLawfulBEq : LawfulBEq Key := inferInstance

abbrev FileID := Int

abbrev Time := Int

def slash : Byte := 47

def ascii (s : String) : Key := s.toList.map fun c => Fin.ofNat 256 c.toNat

def hasSlashSuffix (k : Key) : Bool := k.getLast? = some slash

theorem hasSlashSuffix_iff {k : Key} : hasSlashSuffix k = true ↔ ∃ p, k = p ++ [slash] := by
  simp [hasSlashSuffix, List.getLast?_eq_some_iff]

end FileIndexer
