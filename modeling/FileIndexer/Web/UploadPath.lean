import FileIndexer.Foundation.Utf8
import FileIndexer.Database.Directories

namespace FileIndexer

namespace UploadPath

open Segments

-- what String.prototype.trim removes: WhiteSpace and LineTerminator
def isWhiteSpace (c : Char) : Bool :=
  c.toNat ∈ [0x09, 0x0A, 0x0B, 0x0C, 0x0D, 0x20, 0xA0, 0x1680, 0x2028, 0x2029, 0x202F, 0x205F,
    0x3000, 0xFEFF] || (0x2000 ≤ c.toNat && c.toNat ≤ 0x200A)

def isSlash (c : Char) : Bool := c = '/'

def trim (s : List Char) : List Char := (s.dropWhile isWhiteSpace).rdropWhile isWhiteSpace

def Distinct (a b : Char) : Prop := ¬(a = '/' ∧ b = '/')

instance distinctDecidable : DecidableRel Distinct := fun a b =>
  inferInstanceAs (Decidable ¬(a = '/' ∧ b = '/'))

-- replace(/\/+/g, '/'): of a run of slashes the first one stays
def collapse (s : List Char) : List Char := s.destutter Distinct

def normalizeUploadPath (path : List Char) : List Char :=
  let trimmed := (trim path).dropWhile isSlash
  if trimmed = [] then []
  else
    let collapsed := collapse trimmed
    if collapsed.getLast? = some '/' then collapsed else collapsed ++ ['/']

def uploadKey (path name : List Char) : List Char := normalizeUploadPath path ++ name

structure CleanPath (r : List Char) : Prop where
  ends : r = [] ∨ ∃ w, r = w ++ ['/'] ∧ w.getLast? ≠ some '/'
  unrooted : r.head? ≠ some '/'
  single : ¬['/', '/'] <:+: r

def Listable (d : List Char) : Prop :=
  ∃ keys : List Key, Utf8.encode d ∈ Directories.impliedBy keys

def LeadingSpace (p : List Char) : Prop := ∃ c ∈ p.head?, isWhiteSpace c = true

def SlashesThenSpace (p : List Char) : Prop :=
  ∃ u v c w, p = u ++ v ++ c :: w ∧ v ≠ [] ∧ (∀ a ∈ u, isWhiteSpace a = true) ∧
    (∀ a ∈ v, a = '/') ∧ isWhiteSpace c = true ∧ ∃ a ∈ w, isWhiteSpace a = false

section Collapse

theorem isChain_distinct_iff {s : List Char} : s.IsChain Distinct ↔ ¬['/', '/'] <:+: s := by
  rw [List.isChain_iff_forall_rel_of_append_cons_cons]
  constructor
  · rintro h ⟨l₁, l₂, hs⟩
    have hsplit : s = l₁ ++ '/' :: '/' :: l₂ := by rw [← hs]; simp
    exact h hsplit ⟨rfl, rfl⟩
  · rintro h a b l₁ l₂ hs ⟨rfl, rfl⟩
    exact h ⟨l₁, l₂, by rw [hs]; simp⟩

theorem collapse_ne_nil {s : List Char} (h : s ≠ []) : collapse s ≠ [] := by
  intro hcollapse
  apply h
  exact (List.destutter_eq_nil Distinct).mp hcollapse

theorem single_collapse (s : List Char) : ¬['/', '/'] <:+: collapse s :=
  isChain_distinct_iff.mp (List.isChain_destutter Distinct s)

theorem collapse_eq_self {s : List Char} (h : ¬['/', '/'] <:+: s) : collapse s = s :=
  List.destutter_of_isChain Distinct s (isChain_distinct_iff.mpr h)

theorem head?_destutter' (a : Char) (s : List Char) :
    (s.destutter' Distinct a).head? = some a := by
  induction s generalizing a with
  | nil => rfl
  | cons b s ih =>
    rw [List.destutter'_cons]
    split
    · rfl
    · exact ih a

theorem head?_collapse (s : List Char) : (collapse s).head? = s.head? := by
  cases s with
  | nil => rfl
  | cons a s => exact head?_destutter' a s

end Collapse

section Normalize

theorem slash_not_space : isWhiteSpace '/' = false := by decide

theorem head?_dropWhile_space (s : List Char) : ¬LeadingSpace (s.dropWhile isWhiteSpace) := by
  rintro ⟨c, hc, hspace⟩
  have hnot := List.head?_dropWhile_not isWhiteSpace s
  rw [Option.mem_def] at hc
  rw [hc] at hnot
  simp [hspace] at hnot

theorem unrooted_dropWhile (s : List Char) : (s.dropWhile isSlash).head? ≠ some '/' := by
  intro h
  have hnot := List.head?_dropWhile_not isSlash s
  rw [h] at hnot
  simp [isSlash] at hnot

theorem cleanPath_normalize (p : List Char) : CleanPath (normalizeUploadPath p) := by
  unfold normalizeUploadPath
  have hhead := head?_collapse ((trim p).dropWhile isSlash)
  have hsingle := single_collapse ((trim p).dropWhile isSlash)
  have hunrooted := unrooted_dropWhile (trim p)
  simp only
  split
  · exact ⟨Or.inl rfl, by simp, by simp⟩
  · rename_i hne
    rw [← hhead] at hunrooted
    split
    · rename_i hlast
      refine ⟨Or.inr ?_, hunrooted, hsingle⟩
      obtain ⟨w, hw⟩ := List.getLast?_eq_some_iff.mp hlast
      refine ⟨w, hw, fun hdouble => hsingle ?_⟩
      obtain ⟨v, rfl⟩ := List.getLast?_eq_some_iff.mp hdouble
      rw [hw]
      exact ⟨v, [], by simp⟩
    · rename_i hlast
      refine ⟨Or.inr ⟨_, rfl, hlast⟩, ?_, ?_⟩
      · rw [List.head?_append_of_ne_nil _ (collapse_ne_nil hne)]
        exact hunrooted
      · rw [← isChain_distinct_iff] at hsingle ⊢
        apply hsingle.append (List.isChain_singleton _)
        intro a ha b hb
        rintro ⟨rfl, -⟩
        exact hlast ha

theorem mem_dropWhile_count (c : Char) (q : Char → Bool) (s : List Char) :
    (s.dropWhile q).count c ≤ s.count c :=
  (List.dropWhile_sublist q).count_le c

theorem normalize_ne_self {p : List Char} (h : LeadingSpace p) : normalizeUploadPath p ≠ p := by
  obtain ⟨c, hc, hspace⟩ := h
  obtain ⟨rest, rfl⟩ := List.head?_eq_some_iff.mp hc
  intro heq
  have hslash : c ≠ '/' := by
    rintro rfl
    rw [slash_not_space] at hspace
    cases hspace
  have htrim : (trim (c :: rest)).count c ≤ rest.count c := by
    rw [trim, List.dropWhile_cons_of_pos hspace]
    exact ((List.rdropWhile_prefix _ _).sublist.count_le c).trans (mem_dropWhile_count c _ rest)
  have hcollapse : (collapse ((trim (c :: rest)).dropWhile isSlash)).count c ≤ rest.count c :=
    ((List.destutter_sublist Distinct _).count_le c).trans
      ((mem_dropWhile_count c isSlash _).trans htrim)
  have hcount : (normalizeUploadPath (c :: rest)).count c ≤ rest.count c := by
    unfold normalizeUploadPath
    simp only
    split
    · exact Nat.zero_le _
    · split
      · exact hcollapse
      · rw [List.count_append, List.count_singleton]
        simpa [Ne.symm hslash] using hcollapse
  rw [heq, List.count_cons_self] at hcount
  omega

theorem normalize_eq_self {p : List Char} (h : CleanPath p) (hspace : ¬LeadingSpace p) :
    normalizeUploadPath p = p := by
  rcases h.ends with rfl | ⟨w, hw, -⟩
  · rfl
  · have hne : p ≠ [] := by simp [hw]
    obtain ⟨c, rest, rfl⟩ := List.exists_cons_of_ne_nil hne
    have hc : isWhiteSpace c = false := by
      rw [← Bool.not_eq_true]
      exact fun hc => hspace ⟨c, rfl, hc⟩
    have hcs : isSlash c = false := by
      have hunrooted := h.unrooted
      simpa [isSlash] using hunrooted
    have htrim : trim (c :: rest) = c :: rest := by
      rw [trim, List.dropWhile_cons_of_neg (by simp [hc]), hw]
      exact List.rdropWhile_concat_neg _ _ _ (by simp [slash_not_space])
    have hlast : (c :: rest).getLast? = some '/' := by rw [hw, List.getLast?_concat]
    rw [normalizeUploadPath, htrim, List.dropWhile_cons_of_neg (by simp [hcs])]
    simp only [hne, if_false, collapse_eq_self h.single, hlast, if_true]

theorem normalize_eq_self_iff (p : List Char) :
    normalizeUploadPath p = p ↔ CleanPath p ∧ ¬LeadingSpace p := by
  constructor
  · intro h
    exact ⟨h ▸ cleanPath_normalize p, fun hspace => normalize_ne_self hspace h⟩
  · rintro ⟨hclean, hspace⟩
    exact normalize_eq_self hclean hspace

theorem head?_normalize (p : List Char) :
    (normalizeUploadPath p).head? = ((trim p).dropWhile isSlash).head? := by
  have hhead := head?_collapse ((trim p).dropWhile isSlash)
  unfold normalizeUploadPath
  simp only
  split
  · rename_i hnil
    rw [hnil]
  · rename_i hne
    split
    · exact hhead
    · rw [List.head?_append_of_ne_nil _ (collapse_ne_nil hne), hhead]

end Normalize

section Spaces

theorem rdropWhile_append {q : Char → Bool} {w : List Char} (l : List Char)
    (hw : ∃ a ∈ w, q a = false) : (l ++ w).rdropWhile q = l ++ w.rdropWhile q := by
  have hne : (w.reverse.dropWhile q).isEmpty = false := by
    rw [List.isEmpty_eq_false_iff, Ne, List.dropWhile_eq_nil_iff]
    intro hall
    obtain ⟨a, ha, hqa⟩ := hw
    rw [hall a (List.mem_reverse.mpr ha)] at hqa
    cases hqa
  rw [List.rdropWhile, List.reverse_append, List.dropWhile_append, hne, if_neg Bool.false_ne_true,
    List.reverse_append, List.reverse_reverse]
  rfl

theorem leadingSpace_stripped {p : List Char} (h : SlashesThenSpace p) :
    LeadingSpace ((trim p).dropWhile isSlash) := by
  obtain ⟨u, v, c, w, rfl, hv, hu, hslash, hc, hw⟩ := h
  have hstart : (u ++ v ++ c :: w).dropWhile isWhiteSpace = v ++ c :: w := by
    obtain ⟨a, v', rfl⟩ := List.exists_cons_of_ne_nil hv
    rw [List.append_assoc, List.dropWhile_append_of_pos hu, List.cons_append,
      List.dropWhile_cons_of_neg]
    rw [hslash a List.mem_cons_self, slash_not_space]
    exact Bool.false_ne_true
  have hend : (v ++ c :: w).rdropWhile isWhiteSpace = v ++ c :: w.rdropWhile isWhiteSpace := by
    simpa using rdropWhile_append (v ++ [c]) hw
  have hslashes : ∀ a ∈ v, isSlash a = true := fun a ha => decide_eq_true (hslash a ha)
  have hcs : ¬isSlash c = true := by
    intro he
    rw [of_decide_eq_true he, slash_not_space] at hc
    cases hc
  rw [trim, hstart, hend, List.dropWhile_append_of_pos hslashes, List.dropWhile_cons_of_neg hcs]
  exact ⟨c, rfl, hc⟩

theorem slashesThenSpace_of_stripped {p : List Char}
    (h : LeadingSpace ((trim p).dropWhile isSlash)) : SlashesThenSpace p := by
  obtain ⟨c, hc, hspace⟩ := h
  obtain ⟨w, hw⟩ := List.head?_eq_some_iff.mp hc
  have hsplit := List.takeWhile_append_dropWhile (p := isSlash) (l := trim p)
  obtain ⟨z, hz⟩ := List.rdropWhile_prefix isWhiteSpace (p.dropWhile isWhiteSpace)
  have hstart := List.takeWhile_append_dropWhile (p := isWhiteSpace) (l := p)
  have htrim : trim p ++ z = p.dropWhile isWhiteSpace := hz
  rw [hw] at hsplit
  refine ⟨p.takeWhile isWhiteSpace, (trim p).takeWhile isSlash, c, w ++ z, ?_, ?_, ?_, ?_, hspace, ?_⟩
  · rw [List.append_assoc, ← List.cons_append, ← List.append_assoc _ (c :: w) z, hsplit, htrim,
      hstart]
  · -- with no slash in front the space would lead what is left of the trim
    intro hnil
    rw [hnil, List.nil_append] at hsplit
    refine head?_dropWhile_space p ⟨c, ?_, hspace⟩
    rw [← htrim, ← hsplit]
    rfl
  · exact fun a ha => List.mem_takeWhile_imp ha
  · intro a ha
    simpa [isSlash] using List.mem_takeWhile_imp ha
  · have hne : trim p ≠ [] := by
      rw [← hsplit]
      simp
    have hlast : ¬isWhiteSpace ((trim p).getLast hne) = true :=
      List.rdropWhile_last_not isWhiteSpace (p.dropWhile isWhiteSpace) hne
    have hend : (trim p).getLast hne = (c :: w).getLast (List.cons_ne_nil c w) :=
      (List.getLast_congr hne (by simp) hsplit.symm).trans
        (List.getLast_append_of_ne_nil (by simp) (List.cons_ne_nil c w))
    rw [hend] at hlast
    cases w with
    | nil => exact absurd hspace hlast
    | cons d w =>
      rw [List.getLast_cons_cons] at hlast
      exact ⟨_, List.mem_append_left z (List.getLast_mem (List.cons_ne_nil d w)),
        Bool.eq_false_of_not_eq_true hlast⟩

end Spaces

section Directory

theorem listable_iff (d : List Char) : Listable d ↔ ∃ w, d = w ++ ['/'] := by
  constructor
  · rintro ⟨keys, h⟩
    obtain ⟨k, -, -, hsuffix, -⟩ := Directories.mem_impliedBy.mp h
    have hlast : (Utf8.encode d).getLast? = some slash := of_decide_eq_true hsuffix
    obtain ⟨c, hc, hslash⟩ := Utf8.getLast?_encode hlast (by decide)
    obtain rfl : c = '/' := Char.toNat_inj.mp hslash
    exact List.getLast?_eq_some_iff.mp hc
  · rintro ⟨w, rfl⟩
    refine ⟨[Utf8.encode (w ++ ['/', 'x'])],
      Directories.mem_impliedBy.mpr ⟨_, List.mem_singleton_self _, ?_⟩⟩
    have hpath : Utf8.encode (w ++ ['/']) = Utf8.encode w ++ [slash] := Utf8.encode_append w ['/']
    have hkey : Utf8.encode (w ++ ['/', 'x']) = Utf8.encode w ++ slash :: [120] :=
      Utf8.encode_append w ['/', 'x']
    refine (holds_iff ?_).mpr ⟨_, [120], hpath, hkey⟩
    have hconcat : Utf8.encode w ++ slash :: [120] = (Utf8.encode w ++ [slash]) ++ [120] :=
      List.append_cons _ slash [120]
    rw [hkey, hconcat, hasSlashSuffix, List.getLast?_concat]
    decide

theorem base_uploadKey (path : List Char) {name : List Char} (hname : '/' ∉ name) :
    base '/' (uploadKey path name) = normalizeUploadPath path := by
  refine base_append ?_ hname
  exact (cleanPath_normalize path).ends.imp id fun ⟨w, hw, _⟩ => ⟨w, hw⟩

end Directory

structure UploadsInPlace (p : List Char) : Prop where
  lands : Listable p → normalizeUploadPath p = p ∧
    ∀ name, '/' ∉ name → base '/' (uploadKey p name) = p
  idempotent : normalizeUploadPath (normalizeUploadPath p) = normalizeUploadPath p
  clean : CleanPath (normalizeUploadPath p)

theorem uploadsInPlace_iff (p : List Char) :
    UploadsInPlace p ↔ ¬SlashesThenSpace p ∧
      (Listable p → ¬LeadingSpace p ∧ p.head? ≠ some '/' ∧ ¬['/', '/'] <:+: p) := by
  have hidempotent : normalizeUploadPath (normalizeUploadPath p) = normalizeUploadPath p ↔
      ¬SlashesThenSpace p := by
    rw [normalize_eq_self_iff, and_iff_right (cleanPath_normalize p), LeadingSpace, head?_normalize,
      not_iff_not]
    exact ⟨slashesThenSpace_of_stripped, leadingSpace_stripped⟩
  have hfixed : Listable p → (normalizeUploadPath p = p ↔
      ¬LeadingSpace p ∧ p.head? ≠ some '/' ∧ ¬['/', '/'] <:+: p) := by
    intro hp
    rw [normalize_eq_self_iff, and_comm]
    refine and_congr_right fun _ => ?_
    constructor
    · rintro ⟨-, hunrooted, hsingle⟩
      exact ⟨hunrooted, hsingle⟩
    · rintro ⟨hunrooted, hsingle⟩
      obtain ⟨w, rfl⟩ := (listable_iff p).mp hp
      refine ⟨Or.inr ⟨w, rfl, fun hdouble => hsingle ?_⟩, hunrooted, hsingle⟩
      obtain ⟨v, rfl⟩ := List.getLast?_eq_some_iff.mp hdouble
      exact ⟨v, [], by simp⟩
  constructor
  · intro h
    exact ⟨hidempotent.mp h.idempotent, fun hp => (hfixed hp).mp (h.lands hp).1⟩
  · rintro ⟨hspace, hplain⟩
    refine ⟨fun hp => ?_, hidempotent.mpr hspace, cleanPath_normalize p⟩
    have hself := (hfixed hp).mpr (hplain hp)
    exact ⟨hself, fun name hname => by rw [base_uploadKey p hname, hself]⟩

theorem spaced_folder_missed : Listable " docs/".toList ∧ ¬UploadsInPlace " docs/".toList ∧
    uploadKey " docs/".toList "a.txt".toList = "docs/a.txt".toList := by
  have hlistable : Listable " docs/".toList := (listable_iff _).mpr ⟨" docs".toList, by decide⟩
  refine ⟨hlistable, ?_, by decide⟩
  intro h
  have hlands := (h.lands hlistable).1
  revert hlands
  decide

example : normalizeUploadPath "  docs//housing  ".toList = "docs/housing/".toList := by decide

end UploadPath

end FileIndexer
