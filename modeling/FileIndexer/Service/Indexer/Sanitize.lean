import Mathlib.Data.List.DropRight
import FileIndexer.Database.IndexQueue
import FileIndexer.Foundation.Utf8

namespace FileIndexer

def maxSanitizedFieldLen : Nat := 512

def maxKeywordCount : Nat := 64

namespace Unicode

def isSpace (r : Char) : Bool :=
  if r.toNat ≤ 0xFF then (0x09 ≤ r.toNat && r.toNat ≤ 0x0D) || r.toNat ∈ [0x20, 0x85, 0xA0]
  else (0x2000 ≤ r.toNat && r.toNat ≤ 0x200A) ||
    r.toNat ∈ [0x1680, 0x2028, 0x2029, 0x202F, 0x205F, 0x3000]

-- above Latin-1 the package looks the rune up in its range tables
def isPrint (printRanges : Char → Bool) (r : Char) : Bool :=
  if r.toNat ≤ 0xFF then
    (0x20 ≤ r.toNat && r.toNat ≤ 0x7E) || (0xA1 ≤ r.toNat && r.toNat ≠ 0xAD)
  else printRanges r

theorem toNat_ne_zero_of_isPrint {printRanges : Char → Bool} {r : Char}
    (h : isPrint printRanges r = true) : r.toNat ≠ 0 := by
  intro hzero
  rw [isPrint, if_pos (by omega), hzero] at h
  cases h

end Unicode

def trimRight (drop : Char → Bool) (s : List Char) : List Char :=
  (s.reverse.dropWhile drop).reverse

def trimSpace (s : List Char) : List Char := trimRight Unicode.isSpace (s.dropWhile Unicode.isSpace)

def spaced (r : Char) : Char := if Unicode.isSpace r then ' ' else r

section Sanitize

variable (printRanges : Char → Bool)

def collapse : Nat → Bool → List Char → List Char
  | _, _, [] => []
  | count, lastWasSpace, r :: rest =>
    if maxSanitizedFieldLen ≤ count then []
    else if !Unicode.isPrint printRanges (spaced r) then collapse count lastWasSpace rest
    else if spaced r = ' ' && lastWasSpace then collapse count lastWasSpace rest
    else spaced r :: collapse (count + 1) (spaced r = ' ') rest

def sanitizeRunes (s : List Char) : List Char :=
  trimSpace (collapse printRanges 0 false (trimSpace (trimRight (fun r => r.toNat = 0) s)))

def sanitize (s : Text) : Text := Utf8.encode (sanitizeRunes printRanges (Utf8.runes s))

end Sanitize

section Sanitized

variable {printRanges : Char → Bool}

theorem trimRight_isPrefix (drop : Char → Bool) (s : List Char) : trimRight drop s <+: s :=
  List.rdropWhile_prefix drop s

theorem mem_trimRight {drop : Char → Bool} {s : List Char} {r : Char} (h : r ∈ trimRight drop s) :
    r ∈ s :=
  (trimRight_isPrefix drop s).subset h

theorem mem_trimSpace {s : List Char} {r : Char} (h : r ∈ trimSpace s) : r ∈ s :=
  (List.dropWhile_sublist Unicode.isSpace).mem (mem_trimRight h)

theorem length_trimRight_le (drop : Char → Bool) (s : List Char) :
    (trimRight drop s).length ≤ s.length :=
  (trimRight_isPrefix drop s).length_le

theorem isPrint_of_mem_collapse {count : Nat} {lastWasSpace : Bool} {s : List Char} {r : Char}
    (h : r ∈ collapse printRanges count lastWasSpace s) : Unicode.isPrint printRanges r = true := by
  induction s generalizing count lastWasSpace with
  | nil => cases h
  | cons c rest ih =>
    rw [collapse] at h
    split at h
    · cases h
    · split at h
      · exact ih h
      · rename_i hprint
        split at h
        · exact ih h
        · rcases List.mem_cons.mp h with rfl | h
          · simpa using hprint
          · exact ih h

theorem isPrint_of_mem_sanitizeRunes {s : List Char} {r : Char}
    (h : r ∈ sanitizeRunes printRanges s) : Unicode.isPrint printRanges r = true :=
  isPrint_of_mem_collapse (mem_trimSpace h)

-- what a TEXT column of a UTF-8 database holds
structure IsText (s : Text) : Prop where
  valid : ∃ runes, Utf8.encode runes = s
  noNul : 0 ∉ s

theorem isText_nil : IsText [] := ⟨⟨[], rfl⟩, List.not_mem_nil⟩

theorem isText_sanitize (s : Text) : IsText (sanitize printRanges s) := by
  constructor
  · exact ⟨sanitizeRunes printRanges (Utf8.runes s), rfl⟩
  · intro hnul
    obtain ⟨r, hr, hzero⟩ := Utf8.ascii_mem_encode hnul (by decide)
    apply Unicode.toNat_ne_zero_of_isPrint (isPrint_of_mem_sanitizeRunes hr)
    exact hzero

example : sanitize (fun _ => true) (ascii " Canon\t\tEOS\x01 R5\x00\x00") = ascii "Canon EOS R5" := by
  decide

end Sanitized

end FileIndexer
