import FileIndexer.Service.Files.MoveFile
import FileIndexer.Service.Search.Browse
import FileIndexer.Storage.Path
import FileIndexer.Web.UploadPath

namespace FileIndexer

-- replace(/\/$/, '')
def stripSlash (path : Key) : Key := if hasSlashSuffix path then path.dropLast else path

def joinSegments (segments : List Key) : Key := [slash].intercalate segments ++ [slash]

def targets (segments : List Key) : List Key :=
  (List.range segments.length).map fun i => joinSegments (segments.take (i + 1))

def Breadcrumbs.segments (path : Key) : List Key :=
  if path = [] then [] else (stripSlash path).splitOn slash

def MoveFileDialog.segments (path : Key) : List Key :=
  ((stripSlash path).splitOn slash).filter fun s => s ≠ []

section Targets

theorem stripSlash_concat (p : Key) : stripSlash (p ++ [slash]) = p := by
  rw [stripSlash, if_pos (hasSlashSuffix_iff.mpr ⟨p, rfl⟩), List.dropLast_concat]

theorem splitOn_concat (p : Key) : (p ++ [slash]).splitOn slash = p.splitOn slash ++ [[]] :=
  List.splitOn_append_cons_self p []

theorem targets_splitOn (p : Key) :
    targets (p.splitOn slash) = Segments.heads slash (p ++ [slash]) := by
  rw [targets, Segments.heads, splitOn_concat, List.length_append, List.length_singleton,
    Nat.add_sub_cancel, List.range'_eq_map_range, List.map_map]
  refine List.map_congr_left fun i hi => ?_
  have hle : 1 + i ≤ (p.splitOn slash).length := by
    have := List.mem_range.mp hi
    omega
  rw [Function.comp_apply, List.take_append_of_le_length hle, joinSegments, Nat.add_comm]

theorem breadcrumbs_targets {path : Key} (h : hasSlashSuffix path = true) :
    targets (Breadcrumbs.segments path) = Segments.heads slash path := by
  obtain ⟨p, rfl⟩ := hasSlashSuffix_iff.mp h
  rw [Breadcrumbs.segments, if_neg (by simp), stripSlash_concat, targets_splitOn]

theorem pathBar_targets_iff {path : Key} (h : hasSlashSuffix path = true) :
    targets (MoveFileDialog.segments path) = Segments.heads slash path ↔
      [] ∉ (stripSlash path).splitOn slash := by
  obtain ⟨p, rfl⟩ := hasSlashSuffix_iff.mp h
  rw [MoveFileDialog.segments, stripSlash_concat, ← targets_splitOn]
  constructor
  · intro htargets hmem
    have hlength := congrArg List.length htargets
    simp only [targets, List.length_map, List.length_range] at hlength
    have hall := List.length_filter_eq_length_iff.mp hlength [] hmem
    simp at hall
  · intro hmem
    have hall : ∀ s ∈ p.splitOn slash, decide (s ≠ []) = true := fun s hs => by
      rw [decide_eq_true_iff]
      rintro rfl
      exact hmem hs
    rw [List.filter_eq_self.mpr hall]

end Targets

section Dialog

def fileName (key : Key) : Key := key.rtakeWhile fun c => c ≠ slash

def currentFolder (key : Key) : Key := Segments.base slash key

-- the queries for ['folder-tree', path]: the pages that one has fetched so far, and its data
structure Listings where
  fetching : Key → List Key
  data : Key → Option (List Key)

def Listings.page (l : Listings) (path : Key) (dirs : List Key) : Listings :=
  { l with fetching := Function.update l.fetching path (l.fetching path ++ dirs) }

def Listings.settle (l : Listings) (path : Key) (data : Option (List Key)) : Listings where
  fetching := Function.update l.fetching path []
  data := Function.update l.data path data

structure MoveFileDialog where
  db : Db
  listings : Listings
  fileKey : Key
  viewPath : Key
  showAddFolder : Bool
  newFolderName : List Char
  newFolderError : Option String

inductive DialogAction where
  | transaction (tx : Transaction)
  | page (path : Key) (dirs : List Key)
  | loaded (path : Key)
  | failed (path : Key)
  | home
  | pathBar (i : Nat)
  | openFolder (dir : Key)
  | addFolder
  | change (name : List Char)
  | submit
  | cancelAddFolder

namespace MoveFileDialog

def initial (db : Db) (listings : Listings) (fileKey : Key) : MoveFileDialog where
  db
  listings
  fileKey
  viewPath := currentFolder fileKey
  showAddFolder := false
  newFolderName := []
  newFolderError := none

def destinationKey (s : MoveFileDialog) : Key := s.viewPath ++ fileName s.fileKey

def unchanged (s : MoveFileDialog) : Bool := s.destinationKey = s.fileKey

def navigateTo (s : MoveFileDialog) (path : Key) : MoveFileDialog :=
  { s with viewPath := path, showAddFolder := false, newFolderName := [], newFolderError := none }

def handleNewFolderSubmit (s : MoveFileDialog) : MoveFileDialog :=
  let name := UploadPath.trim s.newFolderName
  if name = [] then { s with newFolderError := some "Folder name cannot be empty" }
  else if name = ['.'] ∨ name = ['.', '.'] then
    { s with newFolderError := some "Folder name cannot be \".\" or \"..\"" }
  else if name.contains '/' then { s with newFolderError := some "Folder name cannot contain \"/\"" }
  else
    let pre := if s.viewPath = [] then [] else if hasSlashSuffix s.viewPath then s.viewPath
      else s.viewPath ++ [slash]
    s.navigateTo (pre ++ Utf8.encode name ++ [slash])

def step (s : MoveFileDialog) : DialogAction → Option MoveFileDialog
  | .transaction tx => (withTx s.db tx).map fun db => { s with db }
  | .page path dirs =>
    match Search.normalizeDirPath path with
    | .ok dir =>
      if dirs.all fun d => (s.db.directories.children dir).contains d then
        some { s with listings := s.listings.page path dirs }
      else none
    | .error _ => none
  | .loaded path =>
    some { s with listings := s.listings.settle path (some (s.listings.fetching path)) }
  | .failed path => some { s with listings := s.listings.settle path none }
  | .home => some (s.navigateTo [])
  | .pathBar i =>
    if i + 1 < (segments s.viewPath).length then
      (targets (segments s.viewPath))[i]?.map s.navigateTo
    else none
  | .openFolder dir =>
    if ((s.listings.data s.viewPath).getD []).contains dir then some (s.navigateTo dir) else none
  | .addFolder => some { s with showAddFolder := true }
  | .change name =>
    if s.showAddFolder then some { s with newFolderName := name, newFolderError := none } else none
  | .submit => if s.showAddFolder then some s.handleNewFolderSubmit else none
  | .cancelAddFolder =>
    some { s with showAddFolder := false, newFolderName := [], newFolderError := none }

end MoveFileDialog

end Dialog

namespace MoveFileDialog

section Steps

variable {s t : MoveFileDialog} {a : DialogAction}

structure NewFolder (name : List Char) : Prop where
  nonempty : name ≠ []
  dot : name ≠ ['.']
  dotDot : name ≠ ['.', '.']
  slash : '/' ∉ name

inductive Target (s : MoveFileDialog) : Key → Prop
  | home : Target s []
  | pathBar {i : Nat} : i < (segments s.viewPath).length →
      Target s (joinSegments ((segments s.viewPath).take (i + 1)))
  | folder {dirs : List Key} {dir : Key} : s.listings.data s.viewPath = some dirs → dir ∈ dirs →
      Target s dir
  | created {pre : Key} {name : List Char} : (s.viewPath = [] → pre = []) →
      (hasSlashSuffix s.viewPath = true → pre = s.viewPath) → NewFolder name →
      Target s (pre ++ Utf8.encode name ++ [slash])

inductive DialogStep (s : MoveFileDialog) : DialogAction → MoveFileDialog → Prop
  | stored {tx : Transaction} {db : Db} : withTx s.db tx = some db →
      DialogStep s (.transaction tx) { s with db }
  | paged {path : Key} {dirs : List Key} : (∀ dir ∈ dirs, dir ∈ s.db.directories) →
      DialogStep s (.page path dirs) { s with listings := s.listings.page path dirs }
  | settled {a : DialogAction} {path : Key} {data : Option (List Key)} :
      (∀ dirs, data = some dirs → dirs = s.listings.fetching path) →
      DialogStep s a { s with listings := s.listings.settle path data }
  | navigated {a : DialogAction} {path : Key} : Target s path → DialogStep s a (s.navigateTo path)
  | edited {a : DialogAction} {showAddFolder : Bool} {newFolderName : List Char}
      {newFolderError : Option String} :
      DialogStep s a { s with showAddFolder, newFolderName, newFolderError }

theorem dialogStep_of_submit (s : MoveFileDialog) (a : DialogAction) :
    DialogStep s a s.handleNewFolderSubmit := by
  unfold handleNewFolderSubmit
  dsimp only
  split
  · exact .edited
  · rename_i hne
    split
    · exact .edited
    · rename_i hdots
      split
      · exact .edited
      · rename_i hslash
        obtain ⟨hdot, hdotDot⟩ := not_or.mp hdots
        refine .navigated (.created (fun hroot => if_pos hroot) (fun hdir => ?_)
          ⟨hne, hdot, hdotDot, fun hmem => hslash (List.contains_iff_mem.mpr hmem)⟩)
        rw [if_pos hdir]
        split
        · rename_i hroot
          exact hroot.symm
        · rfl

theorem dialogStep_of_step (h : s.step a = some t) : DialogStep s a t := by
  cases a with
  | transaction tx =>
    obtain ⟨db, hdb, rfl⟩ := Option.map_eq_some_iff.mp h
    exact .stored hdb
  | page path dirs =>
    simp only [step] at h
    split at h
    · split at h
      · rename_i hdirs
        obtain rfl := Option.some.inj h
        refine .paged fun dir hdir => ?_
        have hchild := List.contains_iff_mem.mp (List.all_eq_true.mp hdirs dir hdir)
        exact (Directories.mem_children.mp hchild).1
      · cases h
    · cases h
  | loaded path =>
    obtain rfl := Option.some.inj h
    exact .settled fun dirs hdirs => (Option.some.inj hdirs).symm
  | failed path =>
    obtain rfl := Option.some.inj h
    refine .settled fun dirs hdirs => ?_
    cases hdirs
  | home =>
    obtain rfl := Option.some.inj h
    exact .navigated .home
  | pathBar i =>
    simp only [step] at h
    split at h
    · rename_i hi
      obtain ⟨path, hpath, rfl⟩ := Option.map_eq_some_iff.mp h
      have hlt : i < (segments s.viewPath).length := by omega
      simp only [targets, List.getElem?_map, List.getElem?_range hlt, Option.map_some,
        Option.some.injEq] at hpath
      exact .navigated (hpath ▸ .pathBar hlt)
    · cases h
  | openFolder dir =>
    simp only [step] at h
    split at h
    · rename_i hdir
      obtain rfl := Option.some.inj h
      have hmem := List.contains_iff_mem.mp hdir
      cases hdirs : s.listings.data s.viewPath with
      | none =>
        rw [hdirs] at hmem
        cases hmem
      | some dirs =>
        rw [hdirs] at hmem
        exact .navigated (.folder hdirs hmem)
    · cases h
  | addFolder =>
    obtain rfl := Option.some.inj h
    exact .edited
  | change name =>
    simp only [step] at h
    split at h
    · obtain rfl := Option.some.inj h
      exact .edited
    · cases h
  | submit =>
    simp only [step] at h
    split at h
    · obtain rfl := Option.some.inj h
      exact dialogStep_of_submit s .submit
    · cases h
  | cancelAddFolder =>
    obtain rfl := Option.some.inj h
    exact .edited

end Steps

section Invariant

variable {D : Key → Prop} {s t : MoveFileDialog} {a : DialogAction} {fileKey : Key}

structure Navigable (D : Key → Prop) : Prop where
  isDir : ∀ path, D path → Directories.IsDir path
  home : D []
  pathBar : ∀ path, D path → ∀ i, i < (segments path).length →
    D (joinSegments ((segments path).take (i + 1)))
  created : ∀ path name, D path → NewFolder name → D (path ++ Utf8.encode name ++ [slash])

structure Listed (D : Key → Prop) (l : Listings) : Prop where
  fetching : ∀ path, ∀ dir ∈ l.fetching path, D dir
  data : ∀ path dirs, l.data path = some dirs → ∀ dir ∈ dirs, D dir

theorem Listed.page {l : Listings} (h : Listed D l) (path : Key) {dirs : List Key}
    (hdirs : ∀ dir ∈ dirs, D dir) : Listed D (l.page path dirs) := by
  refine ⟨fun path' dir hdir => ?_, h.data⟩
  simp only [Listings.page, Function.update_apply] at hdir
  split at hdir
  · rcases List.mem_append.mp hdir with hdir | hdir
    · exact h.fetching path dir hdir
    · exact hdirs dir hdir
  · exact h.fetching path' dir hdir

theorem Listed.settle {l : Listings} (h : Listed D l) {path : Key} {data : Option (List Key)}
    (hdata : ∀ dirs, data = some dirs → dirs = l.fetching path) : Listed D (l.settle path data) := by
  refine ⟨fun path' dir hdir => ?_, fun path' dirs hdirs dir hdir => ?_⟩
  · simp only [Listings.settle, Function.update_apply] at hdir
    split at hdir
    · cases hdir
    · exact h.fetching path' dir hdir
  · simp only [Listings.settle, Function.update_apply] at hdirs
    split at hdirs
    · exact h.fetching path dir (hdata dirs hdirs ▸ hdir)
    · exact h.data path' dirs hdirs dir hdir

structure Within (D : Key → Prop) (fileKey : Key) (s : MoveFileDialog) : Prop where
  key : s.fileKey = fileKey
  exact : s.db.DirectoriesExact
  view : D s.viewPath
  listed : Listed D s.listings

def Stores (s : MoveFileDialog) : DialogAction → Prop
  | .transaction tx => KeysOfIDs s.db tx
  | _ => True

def Lists (D : Key → Prop) (s : MoveFileDialog) : DialogAction → Prop
  | .page _ _ => ∀ dir ∈ s.db.directories, D dir
  | _ => True

theorem within_target (hD : Navigable D) (h : Within D fileKey s) {path : Key}
    (hpath : Target s path) : D path := by
  cases hpath with
  | home => exact hD.home
  | pathBar hi => exact hD.pathBar s.viewPath h.view _ hi
  | folder hdirs hmem => exact h.listed.data s.viewPath _ hdirs path hmem
  | @created pre name hroot hdir hname =>
    have hpre : pre = s.viewPath := by
      rcases hD.isDir s.viewPath h.view with hnil | ⟨p, hp⟩
      · rw [hroot hnil, hnil]
      · exact hdir (hasSlashSuffix_iff.mpr ⟨p, hp⟩)
    exact hpre ▸ hD.created s.viewPath name h.view hname

theorem within_preserved (hD : Navigable D) : Transition.Preserves step
    (fun s a => Stores s a ∧ Lists D s a) (Within D fileKey) := by
  intro s a t h hok ht
  cases dialogStep_of_step ht with
  | stored hdb => exact ⟨h.key, exact_withTx _ _ _ h.exact hok.1 hdb, h.view, h.listed⟩
  | @paged path dirs hdirs =>
    have hlisted := h.listed.page path fun dir hdir => hok.2 dir (hdirs dir hdir)
    exact ⟨h.key, h.exact, h.view, hlisted⟩
  | settled hdata => exact ⟨h.key, h.exact, h.view, h.listed.settle hdata⟩
  | navigated hpath => exact ⟨h.key, h.exact, within_target hD h hpath, h.listed⟩
  | edited => exact ⟨h.key, h.exact, h.view, h.listed⟩

theorem isDir_concat (p : Key) : Directories.IsDir (p ++ [slash]) := Or.inr ⟨p, rfl⟩

theorem navigable_isDir : Navigable Directories.IsDir where
  isDir _ h := h
  home := Or.inl rfl
  pathBar path _ i _ := isDir_concat ([slash].intercalate ((segments path).take (i + 1)))
  created path name _ _ := isDir_concat (path ++ Utf8.encode name)

theorem lists_isDir (h : s.db.DirectoriesExact) (a : DialogAction) : Lists Directories.IsDir s a := by
  cases a with
  | page path dirs =>
    intro dir hdir
    obtain ⟨f, -, hholds⟩ := (h dir).mp hdir
    exact Or.inr (hasSlashSuffix_iff.mp hholds.2.1)
  | _ => trivial

theorem isDir_preserved :
    Transition.Preserves step Stores (Within Directories.IsDir fileKey) :=
  fun s a t h hok ht => within_preserved navigable_isDir s a t h ⟨hok, lists_isDir h.exact a⟩ ht

end Invariant

section Plain

def PlainKey (key : Key) : Prop := ∀ s ∈ key.splitOn slash, CleanPath.ordinary Path.names s = true

def PlainDir (path : Key) : Prop := path = [] ∨ ∃ p, path = p ++ [slash] ∧ PlainKey p

variable {p s : Key}

theorem plainKey_append : PlainKey (p ++ slash :: s) ↔ PlainKey p ∧ PlainKey s := by
  rw [PlainKey, List.splitOn_append_cons_self, List.forall_mem_append]
  rfl

theorem plainKey_under {path : Key} (h : PlainDir path) (hs : PlainKey s) : PlainKey (path ++ s) := by
  rcases h with rfl | ⟨p, rfl, hp⟩
  · exact hs
  · rw [List.append_assoc, List.singleton_append]
    exact plainKey_append.mpr ⟨hp, hs⟩

theorem plain_base {key : Key} (h : PlainKey key) :
    PlainDir (currentFolder key) ∧ PlainKey (fileName key) := by
  have hkey : currentFolder key ++ fileName key = key := List.rdropWhile_append_rtakeWhile ..
  rcases Segments.base_eq_nil_or slash key with hnil | ⟨p, hp⟩
  · have hname : fileName key = key := by
      rwa [currentFolder, hnil, List.nil_append] at hkey
    exact ⟨Or.inl hnil, hname.symm ▸ h⟩
  · rw [currentFolder, hp, List.append_assoc, List.singleton_append] at hkey
    rw [← hkey, plainKey_append] at h
    exact ⟨Or.inr ⟨p, hp, h.1⟩, h.2⟩

theorem plainDir_head {p d : Key} (h : PlainKey p) (hd : d ∈ Segments.heads slash (p ++ [slash])) :
    PlainDir d := by
  obtain ⟨q, s, rfl, hs⟩ := Segments.mem_heads_iff.mp hd
  refine Or.inr ⟨q, rfl, ?_⟩
  rcases List.eq_nil_or_concat' s with rfl | ⟨t, c, rfl⟩
  · rwa [(List.append_inj' hs rfl).1] at h
  · rw [← List.cons_append, ← List.append_assoc] at hs
    rw [(List.append_inj' hs rfl).1, plainKey_append] at h
    exact h.1

theorem plain_segments {p : Key} (h : PlainKey p) : segments (p ++ [slash]) = p.splitOn slash := by
  rw [segments, stripSlash_concat]
  apply List.filter_eq_self.mpr
  intro s hs
  exact decide_eq_true (CleanPath.ordinary_iff.mp (h s hs)).1

theorem plainKey_name {name : List Char} (h : NewFolder name) : PlainKey (Utf8.encode name) := by
  have hslash : slash ∉ Utf8.encode name := by
    intro hmem
    obtain ⟨c, hc, hval⟩ := Utf8.ascii_mem_encode hmem (by decide)
    obtain rfl : c = '/' := Char.toNat_inj.mp hval
    exact h.slash hc
  have hdecode {other : List Char} (he : Utf8.encode name = Utf8.encode other) : name = other := by
    rw [← Utf8.runes_encode name, he, Utf8.runes_encode]
  intro s hs
  rw [List.splitOn_eq_singleton hslash, List.mem_singleton] at hs
  subst hs
  refine CleanPath.ordinary_iff.mpr ⟨fun he => h.nonempty (hdecode he), fun he => h.dot ?_,
    fun he => h.dotDot ?_⟩
  · exact hdecode he
  · exact hdecode he

theorem navigable_plain : Navigable PlainDir where
  isDir path h := by
    rcases h with hnil | ⟨p, hp, -⟩
    · exact Or.inl hnil
    · exact Or.inr ⟨p, hp⟩
  home := Or.inl rfl
  pathBar path h i hi := by
    rcases h with rfl | ⟨p, rfl, hp⟩
    · cases hi
    · refine plainDir_head hp ?_
      rw [← targets_splitOn, ← plain_segments hp]
      exact List.mem_map.mpr ⟨i, List.mem_range.mpr hi, rfl⟩
  created path name h hname :=
    Or.inr ⟨path ++ Utf8.encode name, rfl, plainKey_under h (plainKey_name hname)⟩

end Plain

section Destination

variable {s : MoveFileDialog} {path name : Key}

theorem slash_not_mem_fileName (key : Key) : slash ∉ fileName key := by
  intro hmem
  simpa using List.mem_rtakeWhile_imp hmem

theorem fileName_append (hpath : Directories.IsDir path) (hname : slash ∉ name) :
    fileName (path ++ name) = name := by
  have hkey : Segments.base slash (path ++ name) ++ fileName (path ++ name) = path ++ name :=
    List.rdropWhile_append_rtakeWhile ..
  rw [Segments.base_append hpath hname] at hkey
  exact List.append_cancel_left hkey

theorem no_slash_suffix_append (path : Key) (hname : slash ∉ name) (hne : name ≠ []) :
    hasSlashSuffix (path ++ name) = false := by
  rw [Bool.eq_false_iff]
  intro hslash
  rw [hasSlashSuffix, decide_eq_true_iff, List.getLast?_append_of_ne_nil _ hne] at hslash
  exact hname (List.mem_of_getLast? hslash)

theorem mem_breadcrumbs_iff (hpath : Directories.IsDir path) (hname : slash ∉ name)
    (hne : name ≠ []) {d : Key} :
    d ∈ targets (Breadcrumbs.segments path) ↔ Holds d (path ++ name) := by
  rw [holds_iff (no_slash_suffix_append path hname hne)]
  rcases hpath with rfl | ⟨p, rfl⟩
  · constructor
    · intro hd
      cases hd
    · rintro ⟨q, t, -, hkey⟩
      refine absurd ?_ hname
      rw [← List.nil_append name, hkey]
      simp
  · rw [breadcrumbs_targets (hasSlashSuffix_iff.mpr ⟨p, rfl⟩), Segments.mem_heads_iff]
    constructor
    · rintro ⟨q, t, rfl, ht⟩
      exact ⟨q, t ++ name, rfl, by rw [ht]; simp⟩
    · rintro ⟨q, t, rfl, ht⟩
      have hsplit : (p ++ [slash]) ++ name = (q ++ [slash]) ++ t := by rw [ht]; simp
      rcases List.append_eq_append_iff.mp hsplit with ⟨u, hu, hrest⟩ | ⟨u, hu, -⟩
      · -- the name has no slash, so the one after q is the last of the path
        rcases List.eq_nil_or_concat' u with rfl | ⟨v, c, rfl⟩
        · rw [List.append_nil] at hu
          exact ⟨q, [], rfl, hu.symm⟩
        · rw [← List.append_assoc] at hu
          obtain rfl : c = slash := (List.cons.inj (List.append_inj' hu rfl).2).1.symm
          exact absurd (hrest ▸ by simp) hname
      · exact ⟨q, u, rfl, by rw [hu]; simp⟩

theorem movedInto_listed {db db' : Db} {id : FileID} {f : File} (hpath : Directories.IsDir path)
    (hname : slash ∉ name) (hne : name ≠ [])
    (h : db.moveFileWithDirectories id (path ++ name) = .ok (f, db')) :
    path = [] ∨ path ∈ db'.directories := by
  obtain ⟨old, -, -, -, hdirs⟩ := Db.moveFileWithDirectories_ok h
  have hbase := Directories.base_of_key (no_slash_suffix_append path hname hne)
  rw [Segments.base_append hpath hname] at hbase
  refine hbase.imp_right fun hholds => ?_
  rw [hdirs]
  apply Finset.mem_union_right
  exact Directories.mem_impliedBy.mpr ⟨path ++ name, List.mem_singleton_self _, hholds⟩

structure Lands (s : MoveFileDialog) : Prop where
  folder : currentFolder s.destinationKey = s.viewPath
  name : fileName s.destinationKey = fileName s.fileKey
  unchanged : s.unchanged = true ↔ s.viewPath = currentFolder s.fileKey
  accepted : ∀ indexPrefix, validateDestination indexPrefix s.fileKey s.destinationKey = none ↔
    s.unchanged = false ∧ underPrefix indexPrefix s.destinationKey = false
  moved : ∀ id f db, s.db.moveFileWithDirectories id s.destinationKey = .ok (f, db) →
    s.viewPath = [] ∨ s.viewPath ∈ db.directories
  breadcrumbs : ∀ d, d ∈ targets (Breadcrumbs.segments s.viewPath) ↔ Holds d s.destinationKey
  pathBar : s.viewPath ≠ [] →
    (targets (segments s.viewPath) = targets (Breadcrumbs.segments s.viewPath) ↔
      [] ∉ (stripSlash s.viewPath).splitOn slash)

theorem lands_of_isDir (hview : Directories.IsDir s.viewPath) (hne : fileName s.fileKey ≠ []) :
    s.Lands := by
  have hname := slash_not_mem_fileName s.fileKey
  have hfolder : currentFolder s.destinationKey = s.viewPath := Segments.base_append hview hname
  have hnonempty : s.destinationKey ≠ [] := List.append_ne_nil_of_right_ne_nil _ hne
  have hkey : currentFolder s.fileKey ++ fileName s.fileKey = s.fileKey :=
    List.rdropWhile_append_rtakeWhile ..
  refine ⟨hfolder, fileName_append hview hname, ?_, fun indexPrefix => ?_, fun id f db hmove => ?_,
    fun d => mem_breadcrumbs_iff hview hname hne, fun hroot => ?_⟩
  · rw [unchanged, decide_eq_true_iff]
    constructor
    · intro heq
      rw [← hfolder, heq]
    · intro heq
      rw [destinationKey, heq, hkey]
  · rw [validateDestination, if_neg hnonempty, unchanged]
    split
    · rename_i heq
      simp [heq]
    · rename_i hchanged
      simp [hchanged]
  · exact movedInto_listed hview hname hne hmove
  · have hdir := hasSlashSuffix_iff.mpr (hview.resolve_left hroot)
    rw [breadcrumbs_targets hdir]
    exact pathBar_targets_iff hdir

structure LandsPlain (s : MoveFileDialog) : Prop where
  key : PlainKey s.destinationKey
  pathBar : targets (segments s.viewPath) = targets (Breadcrumbs.segments s.viewPath)
  listed : Search.normalizeDirPath s.viewPath = .ok s.viewPath

theorem normalizeDirPath_plain (h : PlainDir path) : Search.normalizeDirPath path = .ok path := by
  rcases h with rfl | ⟨p, rfl, hp⟩
  · rfl
  · refine (Search.normalizeDirPath_fixed_iff (hasSlashSuffix_iff.mpr ⟨p, rfl⟩)).mpr (Or.inr ?_)
    constructor
    · rintro ⟨t, ht⟩
      have hempty : [] ∈ p.splitOn slash := by
        cases p with
        | nil => simp
        | cons c p =>
          obtain rfl : slash = c := (List.cons.inj ht).1
          simp [List.splitOn_cons_eq_if_modifyHead]
      exact (CleanPath.ordinary_iff.mp (hp [] hempty)).1 rfl
    · rw [Search.hasDotDotSegment, splitOn_concat, List.any_append, Bool.or_eq_false_iff]
      refine ⟨List.any_eq_false.mpr fun s hs => ?_, by decide⟩
      rw [decide_eq_true_iff]
      exact (CleanPath.ordinary_iff.mp (hp s hs)).2.2

theorem landsPlain_of_plain (hview : PlainDir s.viewPath) (hname : PlainKey (fileName s.fileKey)) :
    s.LandsPlain where
  key := plainKey_under hview hname
  pathBar := by
    rcases hview with hnil | ⟨p, hp, hplain⟩
    · rw [hnil]
      rfl
    · rw [hp, plain_segments hplain, targets_splitOn]
      exact (breadcrumbs_targets (hasSlashSuffix_iff.mpr ⟨p, rfl⟩)).symm
  listed := normalizeDirPath_plain hview

def noListings : Listings := ⟨fun _ => [], fun _ => none⟩

def docsMove : List DialogAction :=
  [.transaction ⟨.upsertFiles 1 [(ascii "docs/a.txt", 1)], true⟩, .home,
    .page [] [ascii "docs/"], .loaded [], .openFolder (ascii "docs/"), .addFolder,
    .change [' ', 'b', ' '], .submit]

theorem listed_none (D : Key → Prop) : Listed D noListings := by
  refine ⟨fun path dir hdir => ?_, fun path dirs hdirs => ?_⟩
  · cases hdir
  · cases hdirs

example : targets (segments (ascii "a//b/")) = [ascii "a/", ascii "a/b/"] := by decide

end Destination

end MoveFileDialog

end FileIndexer
