import FileIndexer.Service.Search.ListDirectory

namespace FileIndexer

namespace Directories

def IsDir (path : Key) : Prop := path = [] ∨ ∃ p, path = p ++ [slash]

theorem parent_concat (p : Key) : parent (p ++ [slash]) = Segments.base slash p := by
  have hslash : hasSlashSuffix (p ++ [slash]) = true := hasSlashSuffix_iff.mpr ⟨p, rfl⟩
  rw [parent, if_pos hslash, List.dropLast_concat]
  rfl

theorem base_of_key {k : Key} (hk : hasSlashSuffix k = false) :
    Segments.base slash k = [] ∨ Holds (Segments.base slash k) k := by
  refine (Segments.base_eq_nil_or slash k).imp_right fun ⟨p, hp⟩ => ?_
  refine ⟨hk, hasSlashSuffix_iff.mpr ⟨p, hp⟩, Segments.base_prefix slash k, fun he => ?_⟩
  rw [he] at hp
  rw [hasSlashSuffix_iff.mpr ⟨p, hp⟩] at hk
  cases hk

theorem parent_of_holds {d k : Key} (h : Holds d k) :
    (parent d).length < d.length ∧ (parent d = [] ∨ Holds (parent d) k) := by
  obtain ⟨hk, hd, hpre, hne⟩ := h
  obtain ⟨p, rfl⟩ := hasSlashSuffix_iff.mp hd
  have hbase := Segments.base_prefix slash p
  have hlen : (Segments.base slash p).length < (p ++ [slash]).length := by
    have := hbase.length_le
    rw [List.length_append, List.length_singleton]
    omega
  rw [parent_concat]
  refine ⟨hlen, (Segments.base_eq_nil_or slash p).imp_right fun ⟨q, hq⟩ => ⟨hk, ?_, ?_, ?_⟩⟩
  · exact hasSlashSuffix_iff.mpr ⟨q, hq⟩
  · exact (hbase.trans (List.prefix_append p [slash])).trans hpre
  · intro he
    have := hpre.length_le
    rw [he] at hlen
    omega

end Directories

namespace Search

section Paths

theorem directlyIn_iff {path key : Key} (hpath : Directories.IsDir path) :
    DirectlyIn path key ↔ path = Segments.base slash key := by
  constructor
  · rintro ⟨name, rfl, hname⟩
    exact (Segments.base_append hpath hname).symm
  · rintro rfl
    exact Segments.eq_base_append slash key

def Browsable (path : Key) : Prop :=
  path = [slash] ∨ (¬[slash] <+: path ∧ hasDotDotSegment path = false)

instance Browsable.decidable (path : Key) : Decidable (Browsable path) :=
  inferInstanceAs (Decidable (path = [slash] ∨ (¬[slash] <+: path ∧ hasDotDotSegment path = false)))

theorem normalizeDirPath_fixed_iff {path : Key} (h : hasSlashSuffix path = true) :
    normalizeDirPath path = .ok path ↔ Browsable path := by
  have hne : path ≠ [] := by
    rintro rfl
    cases h
  unfold normalizeDirPath Browsable
  rw [if_neg hne]
  cases hdots : hasDotDotSegment path with
  | true =>
    have hroot : path ≠ [slash] := by
      rintro rfl
      exact absurd hdots (by decide)
    simp [hroot]
  | false =>
    cases path with
    | nil => exact absurd rfl hne
    | cons b rest =>
      cases hb : decide (b = slash) with
      | false =>
        have hb' : ¬slash = b := fun he => by simp [he] at hb
        simp [List.isPrefixOf, hb', h]
      | true =>
        obtain rfl : b = slash := of_decide_eq_true hb
        cases rest with
        | nil => decide
        | cons e rest =>
          have hrest : hasSlashSuffix (e :: rest) = true := by simpa [hasSlashSuffix] using h
          simp [List.isPrefixOf, hrest]

end Paths

section Browse

variable {τ : Type} [DecidableEq τ]

def Traversal (c : TokenCodec τ) (x : TextSearch) (ix : FileIndex) (path : Key)
    (pages : List DirectoryPage) : Prop :=
  ∃ (req : ListDirectoryRequest τ) (calls : List (Nat × FileIndex)), req.path = path ∧
    (∀ call ∈ calls, call.2 = ix) ∧ listDirectoryFollowing c x req c.empty calls = .ok (true, pages)

inductive Browsed (c : TokenCodec τ) (x : TextSearch) (ix : FileIndex) : Key → Prop
  | root : Browsed c x ix []
  | child {path d : Key} {pages : List DirectoryPage} : Browsed c x ix path →
      Traversal c x ix path pages → d ∈ pages.flatMap Prod.fst → Browsed c x ix d

structure BrowseComplete (c : TokenCodec τ) (x : TextSearch) (ix : FileIndex) : Prop where
  accepted : ∀ path, Browsed c x ix path → normalizeDirPath path = .ok path ∧
    ∃ pages, Traversal c x ix path pages
  listed : ∀ f ∈ ix.files.rows, hasSlashSuffix f.key = false →
    Browsed c x ix (Segments.base slash f.key) ∧
      ∀ path pages, Browsed c x ix path → Traversal c x ix path pages →
        (pages.flatMap Prod.snd).count f = if path = Segments.base slash f.key then 1 else 0

variable {c : TokenCodec τ} {x : TextSearch} {ix : FileIndex} {path : Key}

theorem Traversal.lists {pages : List DirectoryPage} {dir : Key} (h : Traversal c x ix path pages)
    (hpath : normalizeDirPath path = .ok dir) :
    (∀ d, d ∈ pages.flatMap Prod.fst ↔ d ∈ ix.directories ∧ Directories.parent d = dir) ∧
      ∀ f, (pages.flatMap Prod.snd).count f = (ix.childFiles x dir).count f := by
  obtain ⟨req, calls, rfl, hix, hrun⟩ := h
  obtain ⟨done, pages', hrun', hpages⟩ := listDirectoryFollowing_pages x hpath
    (Resumes.first (c := c)) calls
  obtain ⟨rfl, rfl⟩ : true = done ∧ pages = pages' := by simpa [hrun] using hrun'
  have hentries := (pages_unchanging hpages hix).1 rfl
  constructor
  · intro d
    have hd : d ∈ pages.flatMap Prod.fst ↔ .inl d ∈ (pages.map DirectoryPage.entries).flatten := by
      simp [DirectoryPage.entries]
    rw [hd, hentries, ← Directories.mem_children]
    simp
  · intro f
    have hf := countP_entries pages fun e => e = .inr f
    rw [hentries] at hf
    have hperm := List.perm_insertionSort (fun f g => position req.sort.1 req.sort.2 f ≤
      position req.sort.1 req.sort.2 g) (ix.childFiles x dir)
    have hcount : (pages.flatMap Prod.snd).countP (fun g => g = f) =
        (ix.childFiles x dir).countP (fun g => g = f) := by
      rw [← hperm.countP_eq]
      simpa [Function.comp_def] using hf.symm
    simpa [List.count, beq_eq_decide] using hcount

theorem exists_traversal (c : TokenCodec τ) (x : TextSearch) (ix : FileIndex) {dir : Key}
    (hpath : normalizeDirPath path = .ok dir) : ∃ pages, Traversal c x ix path pages := by
  let req : ListDirectoryRequest τ := ⟨path, 0, c.empty, .unspecified, .unspecified⟩
  let calls := List.replicate ((ix.children x dir).length + 1) (0, ix)
  have hix : ∀ call ∈ calls, call.2 = ix := fun call hcall => by
    rw [List.eq_of_mem_replicate hcall]
  have hreq : normalizeDirPath req.path = .ok dir := hpath
  obtain ⟨done, pages, hrun, hpages⟩ := listDirectoryFollowing_pages x hreq
    (Resumes.first (c := c)) calls
  obtain rfl : done = true := (pages_unchanging hpages hix).2 (by simp [calls])
  exact ⟨pages, req, calls, rfl, hix, hrun⟩

section InSync

variable (hsync : ∀ p, p ∈ ix.directories ↔ ∃ f ∈ ix.files.rows, Holds p f.key)
include hsync

theorem browsed_of_holds {f : FileInfo} (hf : f ∈ ix.files.rows) {d : Key} (hd : Holds d f.key)
    (habove : ∀ p, Holds p f.key → p.length < d.length → Browsable p) : Browsed c x ix d := by
  induction hn : d.length using Nat.strong_induction_on generalizing d with
  | _ n ih =>
    subst hn
    obtain ⟨hlen, hparent⟩ := Directories.parent_of_holds hd
    have hmem : d ∈ ix.directories := (hsync d).mpr ⟨f, hf, hd⟩
    have hparent' : Browsed c x ix (Directories.parent d) ∧
        normalizeDirPath (Directories.parent d) = .ok (Directories.parent d) := by
      rcases hparent with hroot | hholds
      · rw [hroot]
        exact ⟨.root, rfl⟩
      · have hgood := habove _ hholds hlen
        refine ⟨ih _ hlen hholds (fun p hp hlt => habove p hp (hlt.trans hlen)) rfl, ?_⟩
        exact (normalizeDirPath_fixed_iff hholds.2.1).mpr hgood
    obtain ⟨pages, htraversal⟩ := exists_traversal c x ix hparent'.2
    exact .child hparent'.1 htraversal (((htraversal.lists hparent'.2).1 d).mpr ⟨hmem, rfl⟩)

theorem browsed_accepted (hgood : ∀ f ∈ ix.files.rows, ∀ p, Holds p f.key → Browsable p)
    (h : Browsed c x ix path) :
    normalizeDirPath path = .ok path ∧ Directories.IsDir path := by
  induction h with
  | root => exact ⟨rfl, Or.inl rfl⟩
  | @child path d pages _ htraversal hd ih =>
    have hmem := (((htraversal.lists ih.1).1 d).mp hd).1
    obtain ⟨f, hf, hholds⟩ := (hsync d).mp hmem
    refine ⟨(normalizeDirPath_fixed_iff hholds.2.1).mpr (hgood f hf d hholds), Or.inr ?_⟩
    exact hasSlashSuffix_iff.mp hholds.2.1

omit hsync in
theorem count_childFiles {f : FileInfo} (hf : f ∈ ix.files.rows) (hpath : Directories.IsDir path) :
    (ix.childFiles x path).count f = if path = Segments.base slash f.key then 1 else 0 := by
  have hnodup : (ix.childFiles x path).Nodup :=
    List.Nodup.of_map FileInfo.id (Rows.nodup_map_filter ix.files.pk _)
  have hmem : f ∈ ix.childFiles x path ↔ path = Segments.base slash f.key := by
    rw [mem_childFiles, directlyIn_iff hpath]
    exact and_iff_right hf
  split_ifs with hdir
  · exact List.count_eq_one_of_mem hnodup (hmem.mpr hdir)
  · exact List.count_eq_zero_of_not_mem fun h => hdir (hmem.mp h)

theorem browsable_of_complete (hcomplete : BrowseComplete c x ix) {f : FileInfo}
    (hf : f ∈ ix.files.rows) {p : Key} (hp : Holds p f.key) : Browsable p := by
  induction hn : p.length using Nat.strong_induction_on generalizing p with
  | _ n ih =>
    subst hn
    have hbrowsed : Browsed c x ix p :=
      browsed_of_holds hsync hf hp fun q hq hlt => ih q.length hlt hq rfl
    exact (normalizeDirPath_fixed_iff hp.2.1).mp (hcomplete.accepted p hbrowsed).1

theorem browse_complete_iff :
    BrowseComplete c x ix ↔ ∀ f ∈ ix.files.rows, ∀ p, Holds p f.key → Browsable p := by
  constructor
  · intro hcomplete f hf p hp
    exact browsable_of_complete hsync hcomplete hf hp
  · intro hgood
    refine ⟨fun path hpath => ?_, fun f hf hslash => ⟨?_, fun path pages hpath htraversal => ?_⟩⟩
    · have hok := (browsed_accepted hsync hgood hpath).1
      exact ⟨hok, exists_traversal c x ix hok⟩
    · rcases Directories.base_of_key hslash with hroot | hholds
      · rw [hroot]
        exact .root
      · exact browsed_of_holds hsync hf hholds fun p hp _ => hgood f hf p hp
    · obtain ⟨hok, hdir⟩ := browsed_accepted hsync hgood hpath
      rw [(htraversal.lists hok).2 f, count_childFiles hf hdir]

end InSync

def onlyFile (key : Key) : FileIndex where
  files := ⟨[⟨1, key, none, none, none, 0⟩], by simp, by simp, by simp⟩
  directories := Directories.impliedBy [key]

theorem onlyFile_sync (key p : Key) :
    p ∈ (onlyFile key).directories ↔ ∃ f ∈ (onlyFile key).files.rows, Holds p f.key := by
  rw [onlyFile, Directories.mem_impliedBy]
  simp

theorem browse_complete_of_docs :
    BrowseComplete TokenCodec.plain TextSearch.none (onlyFile (ascii "docs/sub//a")) := by
  have hancestors : ∀ p ∈ Directories.ancestorsOf (Directories.stringToArray (ascii "docs/sub//a")),
      Browsable p := by decide
  refine (browse_complete_iff (onlyFile_sync _)).mpr fun f hf p hp => ?_
  obtain rfl := List.mem_singleton.mp hf
  exact hancestors p ((Directories.mem_ancestorsOf hp.1).mpr hp)

theorem rooted_key_not_browsed :
    ¬BrowseComplete TokenCodec.plain TextSearch.none (onlyFile (ascii "/a/x")) := by
  intro hcomplete
  have hholds : Holds (ascii "/a/") (ascii "/a/x") := by decide
  have hbrowsable := browsable_of_complete (onlyFile_sync _) hcomplete
    (List.mem_singleton.mpr rfl) hholds
  exact absurd hbrowsable (by decide)

end Browse

end Search

end FileIndexer
