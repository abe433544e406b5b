import FileIndexer.Service.Indexer.Sanitize

namespace FileIndexer

structure RuneClasses where
  isSpace : Char → Bool
  isPrint : Char → Bool
  both : ∀ r, (isSpace r = true ∧ isPrint r = true) ↔ r = ' '

section Trim

variable {drop keep : Char → Bool} {a : Char}

theorem filter_dropWhile (h : ∀ r, drop r = true → keep r = false) (s : List Char) :
    (s.dropWhile drop).filter keep = s.filter keep := by
  induction s with
  | nil => rfl
  | cons c s ih =>
    rw [List.dropWhile_cons]
    split
    · rename_i hdrop
      rw [ih, List.filter_cons_of_neg (by simp [h c hdrop])]
    · rfl

theorem filter_trimRight (h : ∀ r, drop r = true → keep r = false) (s : List Char) :
    (trimRight drop s).filter keep = s.filter keep := by
  rw [trimRight, List.filter_reverse, filter_dropWhile h, List.filter_reverse, List.reverse_reverse]

theorem dropWhile_append_cons (ha : drop a = false) (u s : List Char) :
    (u ++ a :: s).dropWhile drop = u.dropWhile drop ++ a :: s := by
  have hstop : (a :: s).dropWhile drop = a :: s := List.dropWhile_cons_of_neg (by simp [ha])
  rw [List.dropWhile_append, hstop]
  split
  · rename_i hnil
    rw [List.isEmpty_iff.mp hnil, List.nil_append]
  · rfl

theorem trimRight_append_cons (ha : drop a = false) (s v : List Char) :
    trimRight drop (s ++ a :: v) = s ++ a :: trimRight drop v := by
  have hrev : (s ++ a :: v).reverse = v.reverse ++ a :: s.reverse := by simp
  rw [trimRight, hrev, dropWhile_append_cons ha, trimRight]
  simp

theorem dropWhile_eq_self {s : List Char} (h : ∀ r ∈ s.head?, drop r = false) :
    s.dropWhile drop = s := by
  cases s with
  | nil => rfl
  | cons c s => exact List.dropWhile_cons_of_neg (by simp [h c rfl])

theorem trimRight_eq_self {s : List Char} (h : ∀ r ∈ s.getLast?, drop r = false) :
    trimRight drop s = s := by
  apply List.rdropWhile_eq_self_iff.mpr
  intro hne
  rw [h _ (List.getLast?_eq_some_getLast hne)]
  exact Bool.false_ne_true

theorem head?_dropWhile_ne (ha : drop a = true) (s : List Char) :
    (s.dropWhile drop).head? ≠ some a := by
  intro heq
  have hhead := List.head?_dropWhile_not drop s
  rw [heq] at hhead
  exact Bool.false_ne_true (hhead.symm.trans ha)

theorem getLast?_trimRight_ne (ha : drop a = true) (s : List Char) :
    (trimRight drop s).getLast? ≠ some a := by
  rw [trimRight, List.getLast?_reverse]
  exact head?_dropWhile_ne ha s.reverse

end Trim

namespace Unicode

theorem isSpace_and_isPrint_iff {printRanges : Char → Bool}
    (h : ∀ r, 0xFF < r.toNat → isSpace r = true → printRanges r = false) (r : Char) :
    (isSpace r = true ∧ isPrint printRanges r = true) ↔ r = ' ' := by
  constructor
  · rintro ⟨hspace, hprint⟩
    by_cases hlow : r.toNat ≤ 0xFF
    · rw [isSpace, if_pos hlow] at hspace
      rw [isPrint, if_pos hlow] at hprint
      have hblank : r.toNat = 0x20 := by
        simp at hspace hprint
        omega
      rw [← Char.ofNat_toNat r, hblank]
    · rw [isPrint, if_neg hlow, h r (by omega) hspace] at hprint
      cases hprint
  · rintro rfl
    exact ⟨rfl, rfl⟩

-- the package's own classes, whose tables above Latin-1 have no rune in both
def classes (printRanges : Char → Bool)
    (h : ∀ r, 0xFF < r.toNat → isSpace r = true → printRanges r = false) : RuneClasses where
  isSpace := isSpace
  isPrint := isPrint printRanges
  both := isSpace_and_isPrint_iff h

end Unicode

namespace RuneClasses

section Sanitize

variable (C : RuneClasses)

def trimSpace (s : List Char) : List Char := trimRight C.isSpace (s.dropWhile C.isSpace)

def spaced (r : Char) : Char := if C.isSpace r then ' ' else r

def collapse : Nat → Bool → List Char → List Char
  | _, _, [] => []
  | count, lastWasSpace, r :: rest =>
    if maxSanitizedFieldLen ≤ count then []
    else if !C.isPrint (C.spaced r) then collapse count lastWasSpace rest
    else if C.spaced r = ' ' && lastWasSpace then collapse count lastWasSpace rest
    else C.spaced r :: collapse (count + 1) (C.spaced r = ' ') rest

def sanitizeRunes (s : List Char) : List Char :=
  C.trimSpace (C.collapse 0 false (C.trimSpace (trimRight (fun r => r.toNat = 0) s)))

def sanitize (s : Text) : Text := Utf8.encode (C.sanitizeRunes (Utf8.runes s))

def kept (r : Char) : Bool := C.isPrint r && !C.isSpace r

def squeeze : Bool → List Char → List Char
  | _, [] => []
  | lastWasSpace, r :: rest =>
    if C.isSpace r then
      if lastWasSpace then squeeze true rest else ' ' :: squeeze true rest
    else if C.isPrint r then r :: squeeze false rest
    else squeeze lastWasSpace rest

structure Clean (s : List Char) : Prop where
  printable : ∀ r ∈ s, C.isPrint r = true
  noLeading : s.head? ≠ some ' '
  noTrailing : s.getLast? ≠ some ' '
  noDoubled : ¬ [' ', ' '] <:+: s
  length_le : s.length ≤ maxSanitizedFieldLen

structure Sanitizes (s : Text) : Prop where
  clean : C.Clean (Utf8.runes (C.sanitize s))
  valid : ∃ runes, Utf8.encode runes = C.sanitize s
  idempotent : C.sanitize (C.sanitize s) = C.sanitize s
  nonSpace : (Utf8.runes s).length ≤ maxSanitizedFieldLen →
    (Utf8.runes (C.sanitize s)).filter (· ≠ ' ') = (Utf8.runes s).filter C.kept
  spaces : (Utf8.runes s).length ≤ maxSanitizedFieldLen →
    ∀ u a m b v, Utf8.runes s = u ++ a :: m ++ b :: v → C.kept a = true → C.kept b = true →
      ∃ u' m' v', Utf8.runes (C.sanitize s) = u' ++ a :: m' ++ b :: v' ∧
        u'.filter (· ≠ ' ') = u.filter C.kept ∧ m'.filter (· ≠ ' ') = m.filter C.kept ∧
        v'.filter (· ≠ ' ') = v.filter C.kept ∧ (' ' ∈ m' ↔ ∃ r ∈ m, C.isSpace r = true)

end Sanitize

section Classes

variable {C : RuneClasses} {r : Char}

theorem isSpace_space : C.isSpace ' ' = true := ((C.both ' ').mpr rfl).1

theorem isPrint_space : C.isPrint ' ' = true := ((C.both ' ').mpr rfl).2

theorem isSpace_iff_of_isPrint (h : C.isPrint r = true) : C.isSpace r = true ↔ r = ' ' := by
  rw [← C.both r]
  exact (and_iff_left h).symm

theorem kept_iff : C.kept r = true ↔ C.isPrint r = true ∧ C.isSpace r = false := by
  rw [kept, Bool.and_eq_true, Bool.not_eq_true']

theorem kept_iff_of_isPrint (h : C.isPrint r = true) : C.kept r = true ↔ r ≠ ' ' := by
  rw [kept_iff, ← not_iff_not, not_not, ← isSpace_iff_of_isPrint h]
  simp [h]

theorem kept_eq_false_of_isSpace (h : C.isSpace r = true) : C.kept r = false := by
  rw [kept, h, Bool.not_true, Bool.and_false]

theorem ne_space_of_kept (h : C.kept r = true) : r ≠ ' ' :=
  (kept_iff_of_isPrint (kept_iff.mp h).1).mp h

theorem space_or_kept_or_dropped (C : RuneClasses) (r : Char) :
    C.isSpace r = true ∨ C.kept r = true ∨ (C.isSpace r = false ∧ C.isPrint r = false) := by
  rw [kept]
  cases C.isSpace r <;> cases C.isPrint r <;> simp

theorem filter_kept_of_isPrint {s : List Char} (h : ∀ r ∈ s, C.isPrint r = true) :
    s.filter (· ≠ ' ') = s.filter C.kept := by
  apply List.filter_congr
  intro r hr
  rw [Bool.eq_iff_iff, kept_iff_of_isPrint (h r hr), decide_eq_true_eq]

end Classes

section TrimSpace

variable {C : RuneClasses}

theorem trimSpace_isInfix (s : List Char) : C.trimSpace s <:+: s :=
  (trimRight_isPrefix C.isSpace _).isInfix.trans (List.dropWhile_suffix C.isSpace).isInfix

theorem head?_trimSpace_ne (s : List Char) : (C.trimSpace s).head? ≠ some ' ' := by
  intro h
  obtain ⟨rest, hrest⟩ := trimRight_isPrefix C.isSpace (s.dropWhile C.isSpace)
  apply head?_dropWhile_ne C.isSpace_space s
  rw [← hrest, List.head?_append, ← trimSpace, h]
  rfl

theorem getLast?_trimSpace_ne (s : List Char) : (C.trimSpace s).getLast? ≠ some ' ' :=
  getLast?_trimRight_ne isSpace_space _

theorem filter_trimSpace (s : List Char) : (C.trimSpace s).filter C.kept = s.filter C.kept := by
  have hspace (r : Char) (h : C.isSpace r = true) : C.kept r = false := kept_eq_false_of_isSpace h
  rw [trimSpace, filter_trimRight hspace, filter_dropWhile hspace]

theorem trimSpace_split {a b : Char} (ha : C.isSpace a = false) (hb : C.isSpace b = false)
    (u m v : List Char) :
    C.trimSpace (u ++ a :: m ++ b :: v) =
      u.dropWhile C.isSpace ++ a :: m ++ b :: trimRight C.isSpace v := by
  rw [trimSpace, List.append_assoc, List.cons_append, dropWhile_append_cons ha, ← List.cons_append,
    ← List.append_assoc, trimRight_append_cons hb]

theorem trimSpace_eq_self {s : List Char} (hprint : ∀ r ∈ s, C.isPrint r = true)
    (hhead : s.head? ≠ some ' ') (hlast : s.getLast? ≠ some ' ') : C.trimSpace s = s := by
  have hspace (r : Char) (hr : r ∈ s) (hne : r ≠ ' ') : C.isSpace r = false := by
    rw [← Bool.not_eq_true, isSpace_iff_of_isPrint (hprint r hr)]
    exact hne
  rw [trimSpace, dropWhile_eq_self, trimRight_eq_self]
  · intro r hr
    apply hspace r (List.mem_of_getLast? hr)
    rintro rfl
    exact hlast hr
  · intro r hr
    apply hspace r (List.mem_of_head? hr)
    rintro rfl
    exact hhead hr

end TrimSpace

section Squeeze

variable {C : RuneClasses} {lastWasSpace : Bool} {r : Char}

theorem squeeze_space (h : C.isSpace r = true) (rest : List Char) :
    C.squeeze lastWasSpace (r :: rest) =
      if lastWasSpace then C.squeeze true rest else ' ' :: C.squeeze true rest := by
  rw [squeeze, if_pos h]

theorem squeeze_kept (h : C.kept r = true) (rest : List Char) :
    C.squeeze lastWasSpace (r :: rest) = r :: C.squeeze false rest := by
  obtain ⟨hprint, hspace⟩ := kept_iff.mp h
  rw [squeeze, hspace, if_neg Bool.false_ne_true, if_pos hprint]

theorem squeeze_dropped (h : C.isSpace r = false ∧ C.isPrint r = false) (rest : List Char) :
    C.squeeze lastWasSpace (r :: rest) = C.squeeze lastWasSpace rest := by
  rw [squeeze, h.1, if_neg Bool.false_ne_true, h.2, if_neg Bool.false_ne_true]

theorem collapse_eq_take (count : Nat) (lastWasSpace : Bool) (s : List Char) :
    C.collapse count lastWasSpace s =
      (C.squeeze lastWasSpace s).take (maxSanitizedFieldLen - count) := by
  induction s generalizing count lastWasSpace with
  | nil => simp [collapse, squeeze]
  | cons r rest ih =>
    rw [collapse, spaced]
    by_cases hfull : maxSanitizedFieldLen ≤ count
    · rw [if_pos hfull, Nat.sub_eq_zero_of_le hfull, List.take_zero]
    · have hnext : maxSanitizedFieldLen - count = maxSanitizedFieldLen - (count + 1) + 1 := by omega
      rw [if_neg hfull]
      rcases C.space_or_kept_or_dropped r with hspace | hkept | hdropped
      · rw [if_pos hspace, isPrint_space, squeeze_space hspace]
        cases lastWasSpace with
        | true => simpa using ih count true
        | false =>
          rw [hnext]
          simpa using ih (count + 1) true
      · obtain ⟨hprint, hspace⟩ := kept_iff.mp hkept
        rw [hspace, if_neg Bool.false_ne_true, hprint, squeeze_kept hkept, hnext]
        simpa [ne_space_of_kept hkept] using ih (count + 1) false
      · rw [hdropped.1, if_neg Bool.false_ne_true, hdropped.2, squeeze_dropped hdropped]
        simpa using ih count lastWasSpace

theorem isPrint_of_mem_squeeze {s : List Char} (h : r ∈ C.squeeze lastWasSpace s) :
    C.isPrint r = true := by
  induction s generalizing lastWasSpace with
  | nil => cases h
  | cons c rest ih =>
    rcases C.space_or_kept_or_dropped c with hspace | hkept | hdropped
    · rw [squeeze_space hspace] at h
      split at h
      · exact ih h
      · rcases List.mem_cons.mp h with rfl | h
        · exact isPrint_space
        · exact ih h
    · rw [squeeze_kept hkept] at h
      rcases List.mem_cons.mp h with rfl | h
      · exact (kept_iff.mp hkept).1
      · exact ih h
    · rw [squeeze_dropped hdropped] at h
      exact ih h

theorem length_squeeze_le (lastWasSpace : Bool) (s : List Char) :
    (C.squeeze lastWasSpace s).length ≤ s.length := by
  induction s generalizing lastWasSpace with
  | nil => exact le_refl _
  | cons c rest ih =>
    rcases C.space_or_kept_or_dropped c with hspace | hkept | hdropped
    · rw [squeeze_space hspace]
      split
      · exact Nat.le_succ_of_le (ih true)
      · exact Nat.succ_le_succ (ih true)
    · rw [squeeze_kept hkept]
      exact Nat.succ_le_succ (ih false)
    · rw [squeeze_dropped hdropped]
      exact Nat.le_succ_of_le (ih lastWasSpace)

theorem head?_squeeze_ne (s : List Char) : (C.squeeze true s).head? ≠ some ' ' := by
  induction s with
  | nil => simp [squeeze]
  | cons c rest ih =>
    rcases C.space_or_kept_or_dropped c with hspace | hkept | hdropped
    · rwa [squeeze_space hspace, if_pos rfl]
    · rw [squeeze_kept hkept]
      intro heq
      exact ne_space_of_kept hkept (Option.some.inj heq)
    · rwa [squeeze_dropped hdropped]

theorem noDoubled_cons {s : List Char} (hs : ¬ [' ', ' '] <:+: s) (hr : r = ' ' → s.head? ≠ some ' ') :
    ¬ [' ', ' '] <:+: r :: s := by
  rw [List.infix_cons_iff]
  rintro (⟨tail, htail⟩ | h)
  · obtain ⟨rfl, hrest⟩ := List.cons.inj htail
    apply hr rfl
    rw [← hrest]
    rfl
  · exact hs h

theorem noDoubled_squeeze (lastWasSpace : Bool) (s : List Char) :
    ¬ [' ', ' '] <:+: C.squeeze lastWasSpace s := by
  induction s generalizing lastWasSpace with
  | nil => simp [squeeze]
  | cons c rest ih =>
    rcases C.space_or_kept_or_dropped c with hspace | hkept | hdropped
    · rw [squeeze_space hspace]
      split
      · exact ih true
      · apply noDoubled_cons (ih true)
        exact fun _ => head?_squeeze_ne rest
    · rw [squeeze_kept hkept]
      apply noDoubled_cons (ih false)
      exact fun heq => absurd heq (ne_space_of_kept hkept)
    · rw [squeeze_dropped hdropped]
      exact ih lastWasSpace

theorem filter_squeeze (lastWasSpace : Bool) (s : List Char) :
    (C.squeeze lastWasSpace s).filter C.kept = s.filter C.kept := by
  induction s generalizing lastWasSpace with
  | nil => rfl
  | cons c rest ih =>
    rcases C.space_or_kept_or_dropped c with hspace | hkept | hdropped
    · have hblank : C.kept ' ' = false := kept_eq_false_of_isSpace isSpace_space
      rw [squeeze_space hspace, List.filter_cons_of_neg (by simp [kept, hspace])]
      split
      · exact ih true
      · rw [List.filter_cons_of_neg (by simp [hblank])]
        exact ih true
    · rw [squeeze_kept hkept, List.filter_cons_of_pos hkept, List.filter_cons_of_pos hkept, ih]
    · rw [squeeze_dropped hdropped, List.filter_cons_of_neg (by simp [kept, hdropped])]
      exact ih lastWasSpace

theorem squeeze_append_kept {b : Char} (hb : C.kept b = true) (lastWasSpace : Bool) (s v : List Char) :
    C.squeeze lastWasSpace (s ++ b :: v) = C.squeeze lastWasSpace s ++ b :: C.squeeze false v := by
  induction s generalizing lastWasSpace with
  | nil => exact squeeze_kept hb v
  | cons c rest ih =>
    rw [List.cons_append]
    rcases C.space_or_kept_or_dropped c with hspace | hkept | hdropped
    · rw [squeeze_space hspace, squeeze_space hspace, ih]
      split <;> rfl
    · rw [squeeze_kept hkept, squeeze_kept hkept, ih, List.cons_append]
    · rw [squeeze_dropped hdropped, squeeze_dropped hdropped, ih]

theorem space_mem_squeeze_iff (s : List Char) :
    ' ' ∈ C.squeeze false s ↔ ∃ r ∈ s, C.isSpace r = true := by
  induction s with
  | nil => simp [squeeze]
  | cons c rest ih =>
    rw [List.exists_mem_cons_iff, ← ih]
    rcases C.space_or_kept_or_dropped c with hspace | hkept | hdropped
    · rw [squeeze_space hspace]
      simp [hspace]
    · rw [squeeze_kept hkept, List.mem_cons]
      simp [(kept_iff.mp hkept).2, (ne_space_of_kept hkept).symm]
    · rw [squeeze_dropped hdropped]
      simp [hdropped.1]

theorem squeeze_eq_self {s : List Char} (hprint : ∀ r ∈ s, C.isPrint r = true)
    (hdoubled : ¬ [' ', ' '] <:+: s) (hlast : lastWasSpace = true → s.head? ≠ some ' ') :
    C.squeeze lastWasSpace s = s := by
  induction s generalizing lastWasSpace with
  | nil => rfl
  | cons c rest ih =>
    rw [List.infix_cons_iff, not_or] at hdoubled
    have hc := hprint c List.mem_cons_self
    have hrest (r : Char) (hr : r ∈ rest) : C.isPrint r = true := hprint r (List.mem_cons_of_mem c hr)
    rcases C.space_or_kept_or_dropped c with hspace | hkept | hdropped
    · obtain rfl := (isSpace_iff_of_isPrint hc).mp hspace
      have hfirst : ¬ lastWasSpace = true := fun h => hlast h rfl
      rw [squeeze_space hspace, if_neg hfirst, ih hrest hdoubled.2]
      intro _ hhead
      apply hdoubled.1
      obtain ⟨tail, rfl⟩ := List.head?_eq_some_iff.mp hhead
      exact ⟨tail, rfl⟩
    · rw [squeeze_kept hkept, ih hrest hdoubled.2 (by simp)]
    · rw [hdropped.2] at hc
      cases hc

end Squeeze

section Sanitized

variable {C : RuneClasses}

theorem sanitizeRunes_eq (s : List Char) :
    C.sanitizeRunes s = C.trimSpace
      ((C.squeeze false (C.trimSpace (trimRight (fun r => r.toNat = 0) s))).take
        maxSanitizedFieldLen) := by
  rw [sanitizeRunes, collapse_eq_take, Nat.sub_zero]

theorem clean_sanitizeRunes (s : List Char) : C.Clean (C.sanitizeRunes s) := by
  rw [sanitizeRunes_eq]
  generalize C.trimSpace (trimRight (fun r => r.toNat = 0) s) = t
  have hpart : C.trimSpace ((C.squeeze false t).take maxSanitizedFieldLen) <:+: C.squeeze false t := by
    apply (trimSpace_isInfix _).trans
    apply List.IsPrefix.isInfix
    exact List.take_prefix _ _
  constructor
  · exact fun r hr => isPrint_of_mem_squeeze (hpart.subset hr)
  · exact head?_trimSpace_ne _
  · exact getLast?_trimSpace_ne _
  · exact fun h => noDoubled_squeeze false t (h.trans hpart)
  · apply (trimSpace_isInfix _).length_le.trans
    exact List.length_take_le _ _

theorem sanitizeRunes_eq_self (hnul : C.isPrint (Char.ofNat 0) = false) {s : List Char}
    (h : C.Clean s) :
    C.sanitizeRunes s = s := by
  have hpadding : trimRight (fun r => r.toNat = 0) s = s := by
    apply trimRight_eq_self
    intro r hr
    apply decide_eq_false
    intro hzero
    have hprint := h.printable r (List.mem_of_getLast? hr)
    rw [← Char.ofNat_toNat r, hzero, hnul] at hprint
    cases hprint
  have htrim : C.trimSpace s = s := trimSpace_eq_self h.printable h.noLeading h.noTrailing
  have hsqueeze : C.squeeze false s = s := squeeze_eq_self h.printable h.noDoubled (by simp)
  rw [sanitizeRunes_eq, hpadding, htrim, hsqueeze, List.take_of_length_le h.length_le, htrim]

theorem sanitizeRunes_of_length_le {s : List Char} (h : s.length ≤ maxSanitizedFieldLen) :
    C.sanitizeRunes s =
      C.trimSpace (C.squeeze false (C.trimSpace (trimRight (fun r => r.toNat = 0) s))) := by
  rw [sanitizeRunes_eq, List.take_of_length_le]
  apply (length_squeeze_le _ _).trans
  apply (trimSpace_isInfix _).length_le.trans
  exact (length_trimRight_le _ s).trans h

theorem kept_eq_false_of_nul (hnul : C.isPrint (Char.ofNat 0) = false) (r : Char)
    (hr : decide (r.toNat = 0) = true) : C.kept r = false := by
  rw [kept, ← Char.ofNat_toNat r, of_decide_eq_true hr, hnul, Bool.false_and]

theorem filter_sanitizeRunes (hnul : C.isPrint (Char.ofNat 0) = false) {s : List Char}
    (h : s.length ≤ maxSanitizedFieldLen) :
    (C.sanitizeRunes s).filter (· ≠ ' ') = s.filter C.kept := by
  rw [filter_kept_of_isPrint (clean_sanitizeRunes s).printable, sanitizeRunes_of_length_le h,
    filter_trimSpace, filter_squeeze, filter_trimSpace, filter_trimRight (kept_eq_false_of_nul hnul)]

theorem sanitizeRunes_split (hnul : C.isPrint (Char.ofNat 0) = false) {a b : Char} {u m v : List Char}
    (h : (u ++ a :: m ++ b :: v).length ≤ maxSanitizedFieldLen) (ha : C.kept a = true)
    (hb : C.kept b = true) :
    ∃ u' v', C.sanitizeRunes (u ++ a :: m ++ b :: v) = u' ++ a :: C.squeeze false m ++ b :: v' ∧
      u'.filter C.kept = u.filter C.kept ∧ v'.filter C.kept = v.filter C.kept := by
  have hspace (r : Char) (hr : C.isSpace r = true) : C.kept r = false := kept_eq_false_of_isSpace hr
  have hnulb : decide (b.toNat = 0) = false := by
    rw [← Bool.not_eq_true]
    intro hzero
    rw [kept_eq_false_of_nul hnul b hzero] at hb
    cases hb
  have ha' : C.isSpace a = false := (kept_iff.mp ha).2
  have hb' : C.isSpace b = false := (kept_iff.mp hb).2
  rw [sanitizeRunes_of_length_le h, trimRight_append_cons hnulb, trimSpace_split ha' hb',
    squeeze_append_kept hb, squeeze_append_kept ha, trimSpace_split ha' hb']
  refine ⟨_, _, rfl, ?_, ?_⟩
  · rw [filter_dropWhile hspace, filter_squeeze, filter_dropWhile hspace]
  · rw [filter_trimRight hspace, filter_squeeze, filter_trimRight hspace,
      filter_trimRight (kept_eq_false_of_nul hnul)]

theorem sanitizes (hnul : C.isPrint (Char.ofNat 0) = false) (s : Text) : C.Sanitizes s := by
  have hrunes : Utf8.runes (C.sanitize s) = C.sanitizeRunes (Utf8.runes s) := Utf8.runes_encode _
  have hclean : C.Clean (Utf8.runes (C.sanitize s)) := hrunes ▸ clean_sanitizeRunes _
  constructor
  · exact hclean
  · exact ⟨_, rfl⟩
  · rw [sanitize, sanitizeRunes_eq_self hnul hclean, hrunes, ← sanitize]
  · rw [hrunes]
    exact filter_sanitizeRunes hnul
  · intro hlength u a m b v hsplit ha hb
    rw [hsplit] at hrunes hlength
    obtain ⟨u', v', heq, hu, hv⟩ := sanitizeRunes_split hnul hlength ha hb
    rw [heq] at hrunes
    have hprint := hrunes ▸ hclean.printable
    refine ⟨u', C.squeeze false m, v', hrunes, ?_, ?_, ?_, space_mem_squeeze_iff m⟩
    · rw [filter_kept_of_isPrint fun r hr => hprint r (by simp [hr]), hu]
    · rw [filter_kept_of_isPrint fun r hr => isPrint_of_mem_squeeze hr, filter_squeeze]
    · rw [filter_kept_of_isPrint fun r hr => hprint r (by simp [hr]), hv]

theorem collapse_classes {printRanges : Char → Bool}
    (h : ∀ r, 0xFF < r.toNat → Unicode.isSpace r = true → printRanges r = false) (count : Nat)
    (lastWasSpace : Bool) (s : List Char) :
    (Unicode.classes printRanges h).collapse count lastWasSpace s =
      FileIndexer.collapse printRanges count lastWasSpace s := by
  induction s generalizing count lastWasSpace with
  | nil => rfl
  | cons r rest ih =>
    rw [collapse, FileIndexer.collapse, ih, ih]
    rfl

theorem sanitize_classes {printRanges : Char → Bool}
    (h : ∀ r, 0xFF < r.toNat → Unicode.isSpace r = true → printRanges r = false) (s : Text) :
    (Unicode.classes printRanges h).sanitize s = FileIndexer.sanitize printRanges s := by
  rw [sanitize, sanitizeRunes, collapse_classes]
  rfl

def latin1 : RuneClasses := Unicode.classes (fun _ => false) (fun _ _ _ => rfl)

theorem latin1_sanitizes : latin1.Sanitizes (ascii " Canon\t\tEOS\x01 R5\x00\x00") :=
  sanitizes (by decide) _

def nulPrintable : RuneClasses where
  isSpace r := r = ' '
  isPrint _ := true
  both r := by simp

theorem nulPrintable_not_sanitizes : ¬ nulPrintable.Sanitizes (ascii "a\x00 ") ∧
    nulPrintable.sanitize (ascii "a\x00 ") = ascii "a\x00" ∧
    nulPrintable.sanitize (ascii "a\x00") = ascii "a" := by
  have hfirst : nulPrintable.sanitize (ascii "a\x00 ") = ascii "a\x00" := by decide
  have hsecond : nulPrintable.sanitize (ascii "a\x00") = ascii "a" := by decide
  refine ⟨?_, hfirst, hsecond⟩
  intro h
  have hidempotent := h.idempotent
  rw [hfirst, hsecond] at hidempotent
  cases hidempotent

end Sanitized

end RuneClasses

end FileIndexer
