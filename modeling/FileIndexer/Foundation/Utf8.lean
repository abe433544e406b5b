import Mathlib.Data.Fin.Basic
import Mathlib.Data.List.Induction

namespace Utf8

def encodeChar (c : Char) : List (Fin 256) := (String.utf8EncodeChar c).map UInt8.toFin

def encode (s : List Char) : List (Fin 256) := s.flatMap encodeChar

theorem encode_cons (c : Char) (s : List Char) : encode (c :: s) = encodeChar c ++ encode s := rfl

theorem encode_append (s t : List Char) : encode (s ++ t) = encode s ++ encode t :=
  List.flatMap_append

theorem encodeChar_ne_nil (c : Char) : encodeChar c ≠ [] := by
  simp [encodeChar, String.utf8EncodeChar_ne_nil]

section Decoding

def runeError : Char := Char.ofNat 0xFFFD

def isContinuation (b : Fin 256) : Bool := 0x80 ≤ b.val && b.val ≤ 0xBF

def continuations (lead : Fin 256) : Nat :=
  if 0xC2 ≤ lead.val && lead.val ≤ 0xDF then 1
  else if 0xE0 ≤ lead.val && lead.val ≤ 0xEF then 2
  else if 0xF0 ≤ lead.val && lead.val ≤ 0xF4 then 3
  else 0

-- overlong forms, surrogates and code points past 0x10FFFF all show in the second byte
def secondOk (lead b : Fin 256) : Bool :=
  (lead.val ≠ 0xE0 || 0xA0 ≤ b.val) && (lead.val ≠ 0xED || b.val ≤ 0x9F) &&
    (lead.val ≠ 0xF0 || 0x90 ≤ b.val) && (lead.val ≠ 0xF4 || b.val ≤ 0x8F)

def wellFormed (lead : Fin 256) (tail : List (Fin 256)) : Bool :=
  tail ≠ [] && tail.length = continuations lead && tail.all isContinuation &&
    tail.head?.all (secondOk lead)

def codePoint (lead : Fin 256) (tail : List (Fin 256)) : Nat :=
  tail.foldl (fun r b => r * 0x40 + b.val % 0x40) (lead.val % (0x40 >>> tail.length))

-- the rune that a byte starts, and how many of the bytes after it belong to it
def decodeRune (lead : Fin 256) (rest : List (Fin 256)) : Char × Nat :=
  let tail := rest.take (continuations lead)
  if lead.val < 0x80 then (Char.ofNat lead.val, 0)
  else if wellFormed lead tail then (Char.ofNat (codePoint lead tail), tail.length)
  else (runeError, 0)

def runesAfter : Nat → List (Fin 256) → List Char
  | _, [] => []
  | skip + 1, _ :: rest => runesAfter skip rest
  | 0, lead :: rest => (decodeRune lead rest).1 :: runesAfter (decodeRune lead rest).2 rest

def runes (s : List (Fin 256)) : List Char := runesAfter 0 s

end Decoding

section RoundTrip

theorem runesAfter_append (tail rest : List (Fin 256)) :
    runesAfter tail.length (tail ++ rest) = runesAfter 0 rest := by
  induction tail with
  | nil => rfl
  | cons b tail ih => exact ih

theorem decodeRune_of_wellFormed {lead : Fin 256} {tail : List (Fin 256)} (hlead : 0x80 ≤ lead.val)
    (htail : wellFormed lead tail = true) (rest : List (Fin 256)) :
    decodeRune lead (tail ++ rest) = (Char.ofNat (codePoint lead tail), tail.length) := by
  have hlength : tail.length = continuations lead := by
    simp only [wellFormed, Bool.and_eq_true, decide_eq_true_eq] at htail
    exact htail.1.1.2
  have htake : (tail ++ rest).take (continuations lead) = tail := by
    rw [← hlength, List.take_left]
  rw [decodeRune, htake, if_neg (by omega), if_pos htail]

theorem wellFormed_two {lead b : Fin 256} {n : Nat} (hlow : 0x80 ≤ n) (hhigh : n < 0x800)
    (hlead : lead.val = n / 64 % 32 + 192) (hb : b.val = n % 64 + 128) :
    wellFormed lead [b] = true ∧ codePoint lead [b] = n := by
  have hcount : continuations lead = 1 := by
    rw [continuations, if_pos (by simp; omega)]
  constructor
  · simp [wellFormed, hcount, isContinuation, secondOk]
    omega
  · simp [codePoint]
    omega

theorem wellFormed_three {lead b c : Fin 256} {n : Nat} (hlow : 0x800 ≤ n) (hhigh : n < 0x10000)
    (hvalid : n < 0xD800 ∨ 0xDFFF < n) (hlead : lead.val = n / 4096 % 16 + 224)
    (hb : b.val = n / 64 % 64 + 128) (hc : c.val = n % 64 + 128) :
    wellFormed lead [b, c] = true ∧ codePoint lead [b, c] = n := by
  have hcount : continuations lead = 2 := by
    rw [continuations, if_neg (by simp; omega), if_pos (by simp; omega)]
  constructor
  · simp [wellFormed, hcount, isContinuation, secondOk]
    omega
  · simp [codePoint]
    omega

theorem wellFormed_four {lead b c d : Fin 256} {n : Nat} (hlow : 0x10000 ≤ n) (hhigh : n < 0x110000)
    (hlead : lead.val = n / 262144 % 8 + 240) (hb : b.val = n / 4096 % 64 + 128)
    (hc : c.val = n / 64 % 64 + 128) (hd : d.val = n % 64 + 128) :
    wellFormed lead [b, c, d] = true ∧ codePoint lead [b, c, d] = n := by
  have hcount : continuations lead = 3 := by
    rw [continuations, if_neg (by simp; omega), if_neg (by simp; omega), if_pos (by simp; omega)]
  constructor
  · simp [wellFormed, hcount, isContinuation, secondOk]
    omega
  · simp [codePoint]
    omega

theorem byte_val {n : Nat} (h : n < 256) : (UInt8.ofNat n).toFin.val = n :=
  Nat.mod_eq_of_lt h

theorem encodeChar_cases (c : Char) :
    (∃ b : Fin 256, encodeChar c = [b] ∧ b.val = c.toNat ∧ b.val < 0x80) ∨
      ∃ lead tail, encodeChar c = lead :: tail ∧ 0x80 ≤ lead.val ∧
        wellFormed lead tail = true ∧ codePoint lead tail = c.toNat := by
  have hvalid : c.toNat < 0xD800 ∨ 0xDFFF < c.toNat ∧ c.toNat < 0x110000 := c.valid
  have hval : c.val.toNat = c.toNat := rfl
  rw [encodeChar]
  unfold String.utf8EncodeChar
  simp only [hval]
  generalize c.toNat = n at hvalid
  split
  · exact .inl ⟨_, rfl, byte_val (by omega), by rw [byte_val (by omega)]; omega⟩
  · right
    split
    · refine ⟨_, _, rfl, by rw [byte_val (by omega)]; omega, ?_⟩
      apply wellFormed_two (by omega) (by omega)
      · exact byte_val (by omega)
      · exact byte_val (by omega)
    · split
      · refine ⟨_, _, rfl, by rw [byte_val (by omega)]; omega, ?_⟩
        apply wellFormed_three (by omega) (by omega) (by omega)
        · exact byte_val (by omega)
        · exact byte_val (by omega)
        · exact byte_val (by omega)
      · refine ⟨_, _, rfl, by rw [byte_val (by omega)]; omega, ?_⟩
        apply wellFormed_four (by omega) (by omega)
        · exact byte_val (by omega)
        · exact byte_val (by omega)
        · exact byte_val (by omega)
        · exact byte_val (by omega)

theorem decodeRune_encodeChar (c : Char) (rest : List (Fin 256)) :
    ∃ lead tail, encodeChar c = lead :: tail ∧ decodeRune lead (tail ++ rest) = (c, tail.length) := by
  rcases encodeChar_cases c with ⟨b, henc, hval, hlt⟩ | ⟨lead, tail, henc, hlead, htail, hpoint⟩
  · refine ⟨b, [], henc, ?_⟩
    rw [decodeRune, if_pos hlt, hval, Char.ofNat_toNat, List.length_nil]
  · refine ⟨lead, tail, henc, ?_⟩
    rw [decodeRune_of_wellFormed hlead htail, hpoint, Char.ofNat_toNat]

theorem runes_encode (s : List Char) : runes (encode s) = s := by
  induction s with
  | nil => rfl
  | cons c s ih =>
    obtain ⟨lead, tail, henc, hdecode⟩ := decodeRune_encodeChar c (encode s)
    rw [encode_cons, henc, runes, List.cons_append, runesAfter, hdecode, runesAfter_append]
    exact congrArg (c :: ·) ih

end RoundTrip

section Ascii

theorem ascii_of_mem_encodeChar {c : Char} {b : Fin 256} (h : b ∈ encodeChar c)
    (hb : b.val < 128) : c.toNat = b.val ∧ encodeChar c = [b] := by
  rcases encodeChar_cases c with ⟨a, henc, hval, -⟩ | ⟨lead, tail, henc, hlead, htail, -⟩
  · rw [henc] at h ⊢
    obtain rfl := List.mem_singleton.mp h
    exact ⟨hval.symm, rfl⟩
  · exfalso
    rw [henc] at h
    rcases List.mem_cons.mp h with rfl | h
    · omega
    · simp only [wellFormed, Bool.and_eq_true, List.all_eq_true] at htail
      have hcont := htail.1.2 b h
      simp only [isContinuation, Bool.and_eq_true, decide_eq_true_eq] at hcont
      omega

theorem ascii_mem_encode {s : List Char} {b : Fin 256} (h : b ∈ encode s) (hb : b.val < 128) :
    ∃ c ∈ s, c.toNat = b.val := by
  induction s with
  | nil => cases h
  | cons c s ih =>
    rw [encode_cons, List.mem_append] at h
    rcases h with h | h
    · exact ⟨c, List.mem_cons_self, (ascii_of_mem_encodeChar h hb).1⟩
    · obtain ⟨d, hd, heq⟩ := ih h
      exact ⟨d, List.mem_cons_of_mem c hd, heq⟩

theorem getLast?_encode {s : List Char} {b : Fin 256} (h : (encode s).getLast? = some b)
    (hb : b.val < 128) : ∃ c, s.getLast? = some c ∧ c.toNat = b.val := by
  induction s using List.reverseRecOn with
  | nil => cases h
  | append_singleton s c ih =>
    have hlast : (encodeChar c).getLast? = some b := by
      have hsingle : encode [c] = encodeChar c := List.flatMap_singleton encodeChar c
      rw [encode_append, hsingle, List.getLast?_append] at h
      rw [List.getLast?_eq_some_getLast (encodeChar_ne_nil c)] at h ⊢
      exact h
    exact ⟨c, List.getLast?_concat, (ascii_of_mem_encodeChar (List.mem_of_getLast? hlast) hb).1⟩

end Ascii

end Utf8
