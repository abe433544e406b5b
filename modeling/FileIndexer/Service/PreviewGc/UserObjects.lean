import FileIndexer.Config
import FileIndexer.Service.Files.Status
import FileIndexer.Service.PreviewGc.Gc

namespace FileIndexer

def IsUserKey (indexPrefix : Key) (files : Files) (key : Key) : Prop :=
  (∃ f ∈ files.rows, f.key = key) ∨ validateUploadKey indexPrefix key = .ok key

def PreviewsReserved (indexPrefixEnv : Key) : Prop :=
  hasDotDotSegment (Path.clean (trim indexPrefixEnv)) = true ∨
    (Path.clean (trim indexPrefixEnv) = trim indexPrefixEnv ∧ trim indexPrefixEnv ≠ ascii ".")

section Property

variable {β : Type}

def runGc (indexPrefix : Key) (s : PreviewWorld β × GcRun) (a : GcAction) :
    Option (PreviewWorld β × GcRun) :=
  gcStep (previewPrefix indexPrefix) s.1 s.2 a

def KeepsUserObjects (indexPrefix : Key) (w : PreviewWorld β) : Prop :=
  ∀ as, Transition.EveryState (runGc indexPrefix)
    (fun s => ∀ key, IsUserKey indexPrefix w.db.files key →
      s.1.bucket.lookup key = w.bucket.lookup key) (w, .listIndexPreviewKeys) as

end Property

section Prefix

def cleanSegments (p : Key) : List Key := CleanPath.reduce Path.names false ((trim p).splitOn slash)

theorem cleanSegments_ne_nil {p s : Key} (h : s ∈ cleanSegments p) : s ≠ [] := by
  obtain ⟨ups, rest, he, hups, hrest⟩ :=
    CleanPath.isClean_iff.mp (CleanPath.isClean_reduce (x := Path.names) ((trim p).splitOn slash))
  rw [cleanSegments, he] at h
  rcases List.mem_append.mp h with h | h
  · rw [hups s h]
    exact Path.names.up_ne_empty
  · exact (CleanPath.ordinary_iff.mp (hrest s h)).1

theorem slash_not_mem_cleanSegments {p s : Key} (h : s ∈ cleanSegments p) : slash ∉ s :=
  Segments.not_mem_of_mem_splitOn (CleanPath.mem_reduce h)

theorem splitOn_cleanSegments (p : Key) {rest : List Key} (hrest : ∀ s ∈ rest, slash ∉ s)
    (hne : cleanSegments p ++ rest ≠ []) :
    ([slash].intercalate (cleanSegments p ++ rest)).splitOn slash = cleanSegments p ++ rest := by
  refine List.splitOn_intercalate _ (fun s hs => ?_) hne
  rcases List.mem_append.mp hs with hs | hs
  · exact slash_not_mem_cleanSegments hs
  · exact hrest s hs

theorem splitOn_clean {p : Key} (h : cleanSegments p ≠ []) :
    ([slash].intercalate (cleanSegments p)).splitOn slash = cleanSegments p := by
  simpa using splitOn_cleanSegments p (List.forall_mem_nil _) (by simpa using h)

theorem clean_trim (p : Key) : Path.clean (trim p) =
    if cleanSegments p = [] then ascii "." else [slash].intercalate (cleanSegments p) := by
  simp only [Path.clean, unrooted_trim]
  rfl

theorem previewPrefix_normalize (p : Key) : previewPrefix (normalizeIndexPrefix p) =
    [slash].intercalate (cleanSegments p ++ [previews]) ++ [slash] := by
  unfold normalizeIndexPrefix
  split
  · rename_i h
    rw [cleanSegments, h]
    decide
  · rename_i h
    have hjoin : Path.join [trim p ++ [slash], previews] =
        Path.clean (trim p ++ slash :: slash :: previews) := by
      simp [Path.join, List.intercalate_cons_of_ne_nil]
    have hsplit : (trim p ++ slash :: slash :: previews).splitOn slash =
        (trim p).splitOn slash ++ [Path.names.empty] ++ [previews] := by
      rw [List.splitOn_append_cons_self]
      have htail : (slash :: previews).splitOn slash = [Path.names.empty, previews] := by decide
      rw [htail, List.append_assoc]
      rfl
    have hreduce : CleanPath.reduce Path.names false
        ((trim p ++ slash :: slash :: previews).splitOn slash) = cleanSegments p ++ [previews] := by
      rw [hsplit, CleanPath.reduce_concat ordinary_previews, CleanPath.reduce_concat_empty]
      rfl
    rw [previewPrefix, hjoin, Path.clean_of_unrooted, hreduce]
    · rw [Path.rooted_append h, unrooted_trim]
    · simp [hreduce]

theorem splitOn_preview (p rest : Key) :
    (previewPrefix (normalizeIndexPrefix p) ++ rest).splitOn slash =
      cleanSegments p ++ previews :: rest.splitOn slash := by
  have hprev : ∀ s ∈ [previews], slash ∉ s := by decide
  rw [previewPrefix_normalize, List.append_assoc, List.singleton_append,
    List.splitOn_append_cons_self, splitOn_cleanSegments p hprev (by simp), List.append_assoc,
    List.singleton_append]

theorem hasDotDotSegment_clean_iff (p : Key) :
    hasDotDotSegment (Path.clean (trim p)) = true ↔ ascii ".." ∈ cleanSegments p := by
  rw [clean_trim]
  split
  · rename_i h
    rw [h]
    decide
  · rename_i h
    simp [hasDotDotSegment, splitOn_clean h]

theorem clean_fixed_iff (p : Key) :
    (Path.clean (trim p) = trim p ∧ trim p ≠ ascii ".") ↔
      CleanPath.isClean Path.names ((trim p).splitOn slash) = true := by
  rw [← CleanPath.reduce_eq_self_iff, clean_trim]
  constructor
  · rintro ⟨hclean, hdot⟩
    split at hclean
    · exact absurd hclean.symm hdot
    · rename_i h
      have hsplit := splitOn_clean h
      rw [hclean] at hsplit
      exact hsplit.symm
  · intro h
    have hne : cleanSegments p ≠ [] := by
      rw [cleanSegments, h]
      exact List.splitOn_ne_nil _ _
    refine ⟨?_, fun hdot => ?_⟩
    · rw [if_neg hne, cleanSegments, h, List.intercalate_splitOn]
    · rw [hdot] at h
      exact absurd h (by decide)

theorem underPrefix_preview_iff (p : Key) :
    underPrefix (normalizeIndexPrefix p) (previewPrefix (normalizeIndexPrefix p)) = true ↔
      CleanPath.isClean Path.names ((trim p).splitOn slash) = true := by
  by_cases ht : trim p = []
  · simp only [normalizeIndexPrefix, ht, if_true]
    decide
  · have hp : normalizeIndexPrefix p = trim p ++ [slash] := if_neg ht
    have hunder : underPrefix (normalizeIndexPrefix p) (previewPrefix (normalizeIndexPrefix p)) = true ↔
        trim p ++ [slash] <+: previewPrefix (normalizeIndexPrefix p) := by
      simp [underPrefix, hp]
    rw [hunder, ← CleanPath.reduce_eq_self_iff]
    constructor
    · rintro ⟨rest, hrest⟩
      have hsplit : (trim p).splitOn slash ++ rest.splitOn slash =
          cleanSegments p ++ [previews, []] := by
        rw [← List.splitOn_append_cons_self, ← List.singleton_append, ← List.append_assoc, hrest,
          ← List.append_nil (previewPrefix _), splitOn_preview, List.splitOn_nil]
      rcases List.append_eq_append_iff.mp hsplit with ⟨extra, he, -⟩ | ⟨extra, he, htail⟩
      · have hlen := CleanPath.length_reduce_le (x := Path.names) false ((trim p).splitOn slash)
        rw [← cleanSegments, he, List.length_append] at hlen
        have hextra : extra = [] := List.length_eq_zero_iff.mp (by omega)
        rw [← cleanSegments, he, hextra, List.append_nil]
      · match extra with
        | [] => simpa [cleanSegments] using he.symm
        | [s] =>
          obtain rfl : s = previews := (List.cons.inj htail).1.symm
          have hclean : CleanPath.reduce Path.names false (cleanSegments p) = cleanSegments p :=
            CleanPath.reduce_of_isClean (CleanPath.isClean_reduce _)
          have hlong : cleanSegments p = cleanSegments p ++ [previews] := by
            rw [← hclean, ← CleanPath.reduce_concat ordinary_previews, ← he, hclean]
            rfl
          simp at hlong
        | s :: t :: extra =>
          have hlen := congrArg List.length htail
          have hpos := Segments.splitOn_length_pos slash rest
          simp only [List.length_cons, List.length_nil, List.length_append] at hlen
          omega
    · intro h
      refine ⟨previews ++ [slash], ?_⟩
      rw [previewPrefix_normalize, cleanSegments, h,
        Segments.intercalate_append _ (List.splitOn_ne_nil _ _) (by simp), List.intercalate_splitOn]
      simp

theorem previews_reserved_iff (p : Key) : PreviewsReserved p ↔ ascii ".." ∈ cleanSegments p ∨
    underPrefix (normalizeIndexPrefix p) (previewPrefix (normalizeIndexPrefix p)) = true := by
  rw [PreviewsReserved, hasDotDotSegment_clean_iff, clean_fixed_iff, underPrefix_preview_iff]

theorem validate_under_previews {p key : Key}
    (hkey : previewPrefix (normalizeIndexPrefix p) <+: key) (h : PreviewsReserved p) :
    validateUploadKey (normalizeIndexPrefix p) key ≠ .ok key := by
  intro hok
  obtain ⟨-, -, -, hdots, hunder⟩ := validateUploadKey_ok_iff.mp hok
  rcases (previews_reserved_iff p).mp h with hup | hres
  · obtain ⟨rest, rfl⟩ := hkey
    rw [hasDotDotSegment, splitOn_preview, List.any_eq_false] at hdots
    exact hdots (ascii "..") (List.mem_append_left _ hup) (decide_eq_true rfl)
  · refine Bool.eq_false_iff.mp hunder ?_
    simp only [underPrefix, Bool.and_eq_true, List.isPrefixOf_iff_prefix] at hres ⊢
    exact ⟨hres.1, hres.2.trans hkey⟩

theorem validate_previewPrefix {p : Key} (h : ¬PreviewsReserved p) :
    validateUploadKey (normalizeIndexPrefix p) (previewPrefix (normalizeIndexPrefix p)) =
      .ok (previewPrefix (normalizeIndexPrefix p)) := by
  rw [previews_reserved_iff, not_or, Bool.not_eq_true] at h
  have hsplit := splitOn_preview p []
  rw [List.append_nil, List.splitOn_nil] at hsplit
  refine validateUploadKey_ok_iff.mpr ⟨rfl, ?_, ?_, ?_, h.2⟩
  · simp [previewPrefix]
  · rintro ⟨rest, hrest⟩
    rw [← hrest, ← List.nil_append ([slash] ++ rest), List.singleton_append,
      List.splitOn_append_cons_self, List.splitOn_nil] at hsplit
    cases hc : cleanSegments p with
    | nil =>
      rw [hc] at hsplit
      exact absurd (List.cons.inj hsplit).1.symm (by decide)
    | cons s segs =>
      rw [hc] at hsplit
      exact cleanSegments_ne_nil (hc ▸ List.mem_cons_self) (List.cons.inj hsplit).1.symm
  · rw [hasDotDotSegment, hsplit, List.any_eq_false]
    intro s hs
    have hup : ascii ".." ∉ [previews, []] := by decide
    rcases List.mem_append.mp hs with hs | hs
    · simpa using fun he : s = ascii ".." => h.1 (he ▸ hs)
    · simpa using fun he : s = ascii ".." => hup (he ▸ hs)

end Prefix

section Run

variable {β : Type} {indexPrefix : Key}

theorem kept_outside_previews (w : PreviewWorld β) (as : List GcAction) :
    Transition.EveryState (runGc indexPrefix)
      (fun s => ∀ key, ¬previewPrefix indexPrefix <+: key →
        s.1.bucket.lookup key = w.bucket.lookup key) (w, .listIndexPreviewKeys) as := by
  have hpreserved : Transition.Preserves (runGc indexPrefix) (fun _ _ => True)
      (fun s => (∀ key ∈ s.2.targets, previewPrefix indexPrefix <+: key) ∧
        ∀ key, ¬previewPrefix indexPrefix <+: key →
          s.1.bucket.lookup key = w.bucket.lookup key) := by
    rintro ⟨v, r⟩ a ⟨v', r'⟩ ⟨htargets, hkept⟩ - h
    have hstep := gcStep_of_step h
    refine ⟨fun key hkey => ?_, fun key hkey => ?_⟩
    · rcases targets_of_gcStep hstep hkey with hold | ⟨c, info, -, -, ho, rfl⟩
      · exact htargets key hold
      · exact (isOrphan_iff.mp ho).1
    · rcases world_of_gcStep hstep with he | ⟨k, hk, he⟩
      · rw [he]
        exact hkept key hkey
      · have hne : key ≠ k := fun heq => hkey (heq ▸ htargets k hk)
        rw [he, Bucket.lookup_delete, if_neg hne]
        exact hkept key hkey
  have hrun := Transition.everyState_of_preserves hpreserved (s := (w, .listIndexPreviewKeys)) as
    ⟨nofun, fun _ _ => rfl⟩ (Transition.everyStep_of_forall (fun _ _ => trivial) as)
  exact hrun.mono fun s hs => hs.2

def loneObject [Inhabited β] (files : Files) (key : Key) : PreviewWorld β where
  db := ⟨files, fun _ => none, ∅⟩
  bucket := (∅ : Bucket β).put 0 key default
  now := minAge

def wholeRun : List GcAction := [.call 1, .call 1, .call 1, .deleteObject 0 false]

theorem lone_object_deleted {w : PreviewWorld β} {key : Key} (hresults : w.db.results = ∅)
    (hobjects : w.bucket.objects = [⟨key, 0⟩]) (hnow : w.now = minAge)
    (hkey : previewPrefix indexPrefix <+: key) :
    ∃ s, Transition.exec (runGc indexPrefix) (w, .listIndexPreviewKeys) wholeRun = some s ∧
      s.1.bucket.lookup key = none := by
  have hlist : runGc indexPrefix (w, .listIndexPreviewKeys) (.call 1) = some (w, .now []) := by
    simp only [runGc, gcStep, listIndexPreviewKeys, hresults]
    rfl
  have hclock : runGc indexPrefix (w, .now []) (.call 1) = some (w, .walk ⟨[], 0, none, []⟩) := by
    simp only [runGc, gcStep, hnow]
    rfl
  have hwalk : runGc indexPrefix (w, .walk ⟨[], 0, none, []⟩) (.call 1) =
      some (w, .deleteMany [key]) := by
    have hpage : Paging.page ObjectInfo.key none 1 [⟨key, 0⟩] = [⟨key, 0⟩] := rfl
    have hlast : Paging.isTruncated ObjectInfo.key none 1 [⟨key, 0⟩] = false := rfl
    have horphan : isOrphan (previewPrefix indexPrefix) ⟨[], 0, none, []⟩ ⟨key, 0⟩ = true :=
      isOrphan_iff.mpr ⟨hkey, List.not_mem_nil, le_refl _⟩
    simp [runGc, gcStep, hobjects, hpage, hlast, GcWalk.visit, horphan, deleting]
  exact ⟨({ w with bucket := w.bucket.delete key }, .finished),
    by simp only [wholeRun, Transition.exec, hlist, hclock, hwalk, Option.bind_some]; rfl, by simp⟩

theorem gc_keeps_user_objects [Inhabited β] (indexPrefixEnv : Key) (files : Files) :
    (∀ w : PreviewWorld β, w.db.files = files →
      KeepsUserObjects (normalizeIndexPrefix indexPrefixEnv) w) ↔
      PreviewsReserved indexPrefixEnv ∧
        ∀ f ∈ files.rows, ¬previewPrefix (normalizeIndexPrefix indexPrefixEnv) <+: f.key := by
  constructor
  · intro h
    have hspared (key : Key) (hunder : previewPrefix (normalizeIndexPrefix indexPrefixEnv) <+: key) :
        ¬IsUserKey (normalizeIndexPrefix indexPrefixEnv) files key := by
      intro huser
      obtain ⟨s, hrun, hgone⟩ := lone_object_deleted (w := (loneObject files key : PreviewWorld β))
        rfl rfl rfl hunder
      have hkept := (h (loneObject files key) rfl wholeRun).last hrun key huser
      have hput : (loneObject files key : PreviewWorld β).bucket.lookup key = some ⟨default, 0⟩ := by
        simp [loneObject]
      rw [hgone, hput] at hkept
      cases hkept
    refine ⟨?_, fun f hf hunder => hspared f.key hunder (Or.inl ⟨f, hf, rfl⟩)⟩
    by_contra hres
    exact hspared _ (List.prefix_refl _) (Or.inr (validate_previewPrefix hres))
  · rintro ⟨hres, hrows⟩ w rfl as
    refine (kept_outside_previews w as).mono fun s hs key huser => hs key fun hunder => ?_
    rcases huser with ⟨f, hf, rfl⟩ | hok
    · exact hrows f hf hunder
    · exact validate_under_previews hunder hres hok

end Run

def photoUpload : PreviewWorld String where
  db := ⟨⟨[⟨1, ascii "previews/photo.jpg", 0, 0, 0⟩], 2, by decide, by decide, by decide⟩,
    fun _ => none, ∅⟩
  bucket := (∅ : Bucket String).put 0 (ascii "previews/photo.jpg") "photo"
  now := 2 * minAge

theorem slash_prefix_deletes_upload :
    ¬KeepsUserObjects (normalizeIndexPrefix (ascii "/")) photoUpload := by
  intro h
  have hkept := (h wholeRun).last rfl (ascii "previews/photo.jpg") (Or.inr (by decide))
  exact absurd hkept (by decide)

example : PreviewsReserved (ascii "/.index/") := by
  exact Or.inr (by decide)

end FileIndexer
