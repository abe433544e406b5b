import FileIndexer.Foundation.Inevitable
import FileIndexer.Foundation.Paging
import FileIndexer.Service.Files.DeleteFile

namespace FileIndexer

structure DirectoryStats where
  fileCount : Nat
  totalBytes : Int

section System

variable {β ι : Type}

-- total_bytes is a bigint: a sum beyond its range is an error of the query
def World.getDirectoryStats (w : World β ι) (indexPrefix : Key) (sizeBytes : FileID → Option Int)
    (path : Key) : Except Failure DirectoryStats :=
  match validateDirPath indexPrefix path with
  | .error e => .error e
  | .ok path =>
    let matching := w.db.files.rows.filter fun f =>
      Like.like likeSymbols (escapeLike path ++ [likeSymbols.many]) f.key = some true
    let total := (matching.filterMap fun f => sizeBytes f.id).sum
    if -2 ^ 63 ≤ total ∧ total < 2 ^ 63 then .ok ⟨matching.length, total⟩
    else .error (.cause (.db .other))

structure Deletion (β ι : Type) where
  world : World β ι
  call : DeleteDirectoryState

inductive DeletionAction where
  | step (fault : Fault) (pick : Nat)
  | retry

def Deletion.step (indexPrefix path : Key) (s : Deletion β ι) : DeletionAction → Option (Deletion β ι)
  | .step fault pick => (deleteDirectoryStep path fault pick s.world s.call).map fun (w, d) => ⟨w, d⟩
  | .retry =>
    match s.call with
    | .done _ _ => some { s with call := .start indexPrefix path }
    | _ => none

def SameCall : DeletionAction → Prop
  | .step _ _ => True
  | .retry => False

def FaultFree : DeletionAction → Prop
  | .step fault _ => fault = .none
  | .retry => False

end System

section Property

variable {β ι : Type}

def World.info (w : World β ι) (f : File) : FileInfo := ⟨f, w.previewKeys f.id⟩

def World.under (w : World β ι) (path : Key) : List File :=
  w.db.files.rows.filter fun f => path.isPrefixOf f.key

structure DeletesOnly (path : Key) (w₀ w : World β ι) : Prop where
  rows : w.db.files.rows ⊆ w₀.db.files.rows
  removed : ∀ f ∈ w₀.db.files.rows, f ∉ w.db.files.rows → path <+: f.key ∧
    ∀ k ∈ (w₀.info f).objectKeys, w.bucket.lookup k = none
  objects : ∀ k, w.bucket.lookup k ≠ w₀.bucket.lookup k → w.bucket.lookup k = none ∧
    ∃ f ∈ w₀.db.files.rows, path <+: f.key ∧ k ∈ (w₀.info f).objectKeys

structure Deleted (indexPrefix path : Key) (w₀ w : World β ι) (deleted : Nat) : Prop where
  empty : ∀ f ∈ w.db.files.rows, ¬path <+: f.key
  count : ∀ sizeBytes stats, w₀.getDirectoryStats indexPrefix sizeBytes path = .ok stats →
    deleted = stats.fileCount

structure DeletesDirectory (indexPrefix path : Key) (w : World β ι) : Prop where
  only : ∀ as, Transition.EveryState (Deletion.step indexPrefix path)
    (fun s => DeletesOnly path w s.world) ⟨w, .start indexPrefix path⟩ as
  succeeds : ∀ as, Transition.EveryStep (Deletion.step indexPrefix path) (fun _ a => SameCall a)
    ⟨w, .start indexPrefix path⟩ as →
    ∀ t n, Transition.exec (Deletion.step indexPrefix path) ⟨w, .start indexPrefix path⟩ as =
      some ⟨t, .done n none⟩ → Deleted indexPrefix path w t n
  retried : ∀ as t, Transition.exec (Deletion.step indexPrefix path)
    ⟨w, .start indexPrefix path⟩ as = some t → ∀ n e, t.call = .done n (some e) →
    Transition.Inevitable (Deletion.step indexPrefix path) (fun _ a => FaultFree a)
      (fun s => ∃ n, s.call = .done n none ∧ ∀ f ∈ s.world.db.files.rows, ¬path <+: f.key)
      ⟨t.world, .start indexPrefix path⟩

end Property

section Listing

variable {β ι : Type} {path : Key} {w : World β ι}

theorem mem_under {f : File} : f ∈ w.under path ↔ f ∈ w.db.files.rows ∧ path <+: f.key := by
  simp [World.under, List.isPrefixOf_iff_prefix]

theorem matching_eq_under : (w.db.files.rows.filter fun f =>
    Like.like likeSymbols (escapeLike path ++ [likeSymbols.many]) f.key = some true) =
      w.under path := by
  refine List.filter_congr fun f _ => ?_
  rw [escapeLike, Like.like_escape_many]
  exact Bool.eq_iff_iff.mpr (by simp)

theorem nodup_under (path : Key) (w : World β ι) : ((w.under path).map File.id).Nodup :=
  Rows.nodup_map_filter w.db.files.pk _

theorem listFilesForDelete_eq (lastID : Option FileID) (pageLimit : Nat) :
    w.listFilesForDelete (escapeLike path ++ [likeSymbols.many]) lastID pageLimit =
      (Paging.page File.id lastID pageLimit (w.under path)).map w.info := by
  have hmatching : (w.db.files.rows.filter fun f =>
      Like.like likeSymbols (escapeLike path ++ [likeSymbols.many]) f.key = some true &&
        lastID.all (· < f.id)) = (w.under path).filter fun f => lastID.all (· < f.id) := by
    rw [← matching_eq_under, List.filter_filter]
    exact List.filter_congr fun f _ => Bool.and_comm _ _
  simp only [World.listFilesForDelete, hmatching]
  rfl

theorem fileCount_eq {indexPrefix : Key} {sizeBytes : FileID → Option Int} {stats : DirectoryStats}
    (h : w.getDirectoryStats indexPrefix sizeBytes path = .ok stats) :
    stats.fileCount = (w.under path).length := by
  unfold World.getDirectoryStats at h
  cases hpath : validateDirPath indexPrefix path with
  | error e =>
    rw [hpath] at h
    cases h
  | ok p =>
    obtain rfl : path = p := by
      unfold validateDirPath at hpath
      split_ifs at hpath
      exact Except.ok.inj hpath
    rw [hpath] at h
    simp only at h
    split at h
    · obtain rfl := Except.ok.inj h
      rw [matching_eq_under]
    · cases h

end Listing

section Inversion

variable {β ι : Type} {path : Key}

def DeleteDirectoryState.deleted : DeleteDirectoryState → Nat
  | .listFilesForDelete _ n | .deleteMany _ _ _ n | .deleteFilesByIDs _ n | .done n _ => n

inductive DeletionStep (path : Key) (fault : Fault) (pick : Nat) (w : World β ι) :
    DeleteDirectoryState → World β ι → DeleteDirectoryState → Prop
  | failed {d} (e) : (fault ≠ .none ∨ ∃ batch n, d = .deleteMany batch [] true n) →
      DeletionStep path fault pick w d w (.done d.deleted (some e))
  | exhausted {last n} : Paging.page File.id last deleteDirectoryBatchSize (w.under path) = [] →
      DeletionStep path fault pick w (.listFilesForDelete last n) w (.done n none)
  | listed {last n} {batch : List FileInfo} : batch ≠ [] → batch =
      (Paging.page File.id last deleteDirectoryBatchSize (w.under path)).map w.info →
      DeletionStep path fault pick w (.listFilesForDelete last n) w
        (.deleteMany batch (batch.flatMap FileInfo.objectKeys) false n)
  | object {batch waiting failed n key} : waiting[pick]? = some key →
      DeletionStep path fault pick w (.deleteMany batch waiting failed n) (w.deleteObject fault key)
        (.deleteMany batch (waiting.eraseIdx pick) (failed || fault ≠ .none) n)
  | objects {batch n} : DeletionStep path fault pick w (.deleteMany batch [] false n) w
      (.deleteFilesByIDs batch n)
  | removed {batch n m db d} : w.db.deleteFilesByIDsWithDirectories (batch.map fun f => f.file.id)
      (batch.map fun f => f.file.key) = .ok (m, db) →
      ((∃ e, d = .done n (some e) ∧ fault ≠ .none) ∨
        (d = .done (n + m) none ∧ batch.length < deleteDirectoryBatchSize) ∨
        (d = .listFilesForDelete (batch.getLast?.map fun f => f.file.id) (n + m))) →
      DeletionStep path fault pick w (.deleteFilesByIDs batch n) { w with db } d

theorem deletionStep_of_step {fault : Fault} {pick : Nat} {w w' : World β ι}
    {d d' : DeleteDirectoryState} (h : deleteDirectoryStep path fault pick w d = some (w', d')) :
    DeletionStep path fault pick w d w' d' := by
  cases d with
  | listFilesForDelete last n =>
    simp only [deleteDirectoryStep] at h
    split at h
    · rename_i hfault
      cases h
      exact .failed _ (.inl hfault)
    · split at h
      · rename_i hlist
        cases h
        rw [listFilesForDelete_eq] at hlist
        exact .exhausted (List.map_eq_nil_iff.mp hlist)
      · rename_i hne
        cases h
        exact .listed hne (listFilesForDelete_eq last _)
  | deleteMany batch waiting failed n =>
    simp only [deleteDirectoryStep] at h
    split at h
    · rename_i hwaiting
      subst hwaiting
      cases failed with
      | true =>
        cases h
        exact .failed _ (.inr ⟨batch, n, rfl⟩)
      | false =>
        cases h
        exact .objects
    · split at h
      · cases h
      · rename_i key hkey
        cases h
        exact .object hkey
  | deleteFilesByIDs batch n =>
    simp only [deleteDirectoryStep] at h
    split at h
    · rename_i hfault
      cases h
      exact .failed _ (.inl (by simp [hfault]))
    · split at h
      · rename_i e he
        cases he
      · rename_i m db hdb
        split at h
        · rename_i hfault
          cases h
          exact .removed hdb (.inl ⟨_, rfl, by simp [hfault]⟩)
        · split at h
          · rename_i hshort
            cases h
            exact .removed hdb (.inr (.inl ⟨rfl, hshort⟩))
          · cases h
            exact .removed hdb (.inr (.inr rfl))
  | done n e => cases h

end Inversion

section Safety

variable {β ι : Type} {path : Key} {w₀ : World β ι}

def World.Lists (path : Key) (w₀ w : World β ι) (batch : List FileInfo) : Prop :=
  ∀ f ∈ batch, f.file ∈ w.db.files.rows ∧ path <+: f.file.key ∧ f = w₀.info f.file

def DeleteDirectoryState.Safe (path : Key) (w₀ w : World β ι) : DeleteDirectoryState → Prop
  | .deleteMany batch waiting failed _ => w₀.Lists path w batch ∧
      (∀ k ∈ waiting, ∃ f ∈ batch, k ∈ f.objectKeys) ∧
      (failed = false → ∀ f ∈ batch, ∀ k ∈ f.objectKeys, k ∈ waiting ∨ w.bucket.lookup k = none)
  | .deleteFilesByIDs batch _ => w₀.Lists path w batch ∧
      ∀ f ∈ batch, ∀ k ∈ f.objectKeys, w.bucket.lookup k = none
  | _ => True

structure Deletion.Safe (path : Key) (w₀ : World β ι) (s : Deletion β ι) : Prop where
  only : DeletesOnly path w₀ s.world
  previews : s.world.previewKeys = w₀.previewKeys
  call : s.call.Safe path w₀ s.world

theorem deletesOnly_refl (path : Key) (w : World β ι) : DeletesOnly path w w where
  rows := List.Subset.refl _
  removed _ hf hnot := absurd hf hnot
  objects _ hk := absurd rfl hk

theorem DeletesOnly.erase {w : World β ι} (h : DeletesOnly path w₀ w) {f : File} {k : Key}
    (hf : f ∈ w₀.db.files.rows) (hbelow : path <+: f.key) (hk : k ∈ (w₀.info f).objectKeys) :
    DeletesOnly path w₀ { w with bucket := w.bucket.delete k } where
  rows := h.rows
  removed g hg hnot := by
    obtain ⟨hg, hgone⟩ := h.removed g hg hnot
    refine ⟨hg, fun x hx => ?_⟩
    rw [Bucket.lookup_delete]
    split
    · rfl
    · exact hgone x hx
  objects x hx := by
    simp only [Bucket.lookup_delete] at hx ⊢
    split at hx
    · rename_i he
      exact ⟨if_pos he, f, hf, hbelow, he ▸ hk⟩
    · rename_i hne
      rw [if_neg hne]
      exact h.objects x hx

theorem DeletesOnly.remove {w : World β ι} (h : DeletesOnly path w₀ w) {batch : List FileInfo}
    {db : Db} (hbatch : w₀.Lists path w batch)
    (hgone : ∀ f ∈ batch, ∀ k ∈ f.objectKeys, w.bucket.lookup k = none)
    (hfiles : db.files = w.db.files.deleteWhere fun f => f.id ∈ batch.map fun f => f.file.id) :
    DeletesOnly path w₀ { w with db } where
  rows f hf := by
    simp only [hfiles] at hf
    exact h.rows (Files.mem_deleteWhere.mp hf).1
  removed f hf hnot := by
    cases Classical.em (f ∈ w.db.files.rows) with
    | inr hold => exact h.removed f hf hold
    | inl hold =>
      have hid : f.id ∈ batch.map fun f => f.file.id := by
        by_contra hid
        exact hnot (by simpa only [hfiles] using Files.mem_deleteWhere.mpr ⟨hold, by simpa using hid⟩)
      obtain ⟨g, hg, hgid⟩ := List.mem_map.mp hid
      obtain ⟨hrow, hbelow, hinfo⟩ := hbatch g hg
      obtain rfl : g.file = f := Files.eq_of_id hrow hold hgid
      exact ⟨hbelow, hinfo ▸ hgone g hg⟩
  objects := h.objects

theorem Deletion.safe_preserved (indexPrefix : Key) :
    Transition.Preserves (Deletion.step indexPrefix path) (fun _ _ => True)
      (Deletion.Safe path w₀) := by
  intro s a t hs _ ht
  obtain ⟨w, d⟩ := s
  obtain ⟨honly, hpreviews, hcall⟩ := hs
  cases a with
  | retry =>
    simp only [Deletion.step] at ht
    split at ht
    · obtain rfl := Option.some.inj ht
      refine ⟨honly, hpreviews, ?_⟩
      unfold DeleteDirectoryState.start
      split <;> trivial
    · cases ht
  | step fault pick =>
    obtain ⟨⟨w', d'⟩, hstep, rfl⟩ := Option.map_eq_some_iff.mp ht
    cases deletionStep_of_step hstep with
    | failed e _ => exact ⟨honly, hpreviews, trivial⟩
    | exhausted _ => exact ⟨honly, hpreviews, trivial⟩
    | @listed last n batch _ hbatch =>
      refine ⟨honly, hpreviews, fun f hf => ?_, fun k hk => List.mem_flatMap.mp hk,
        fun _ f hf k hk => Or.inl (List.mem_flatMap.mpr ⟨f, hf, hk⟩)⟩
      rw [hbatch] at hf
      obtain ⟨g, hg, rfl⟩ := List.mem_map.mp hf
      obtain ⟨hrow, hbelow⟩ := mem_under.mp (Paging.mem_page hg).1
      refine ⟨hrow, hbelow, ?_⟩
      simp only [World.info]
      rw [show w.previewKeys = w₀.previewKeys from hpreviews]
    | @object batch waiting failed n key hkey =>
      obtain ⟨hbatch, hwaiting, hgone⟩ := hcall
      have herased : ∀ k ∈ waiting.eraseIdx pick, ∃ f ∈ batch, k ∈ f.objectKeys :=
        fun k hk => hwaiting k (List.eraseIdx_subset hk)
      cases Decidable.em (fault = .before) with
      | inl hfault =>
        have hsame : w.deleteObject fault key = w := if_pos hfault
        rw [hsame]
        exact ⟨honly, hpreviews, hbatch, herased, by simp [hfault]⟩
      | inr hfault =>
        have hdelete : w.deleteObject fault key = { w with bucket := w.bucket.delete key } :=
          if_neg hfault
        rw [hdelete]
        obtain ⟨f, hf, hk⟩ := hwaiting key (List.mem_of_getElem? hkey)
        obtain ⟨hrow, hbelow, hinfo⟩ := hbatch f hf
        refine ⟨honly.erase (honly.rows hrow) hbelow (hinfo ▸ hk), hpreviews, hbatch, herased, ?_⟩
        intro hfailed g hg x hx
        simp only [Bool.or_eq_false_iff] at hfailed
        simp only [Bucket.lookup_delete]
        rcases hgone hfailed.1 g hg x hx with hx | hx
        · rcases mem_eraseIdx_or hkey hx with rfl | hx
          · exact Or.inr (if_pos rfl)
          · exact Or.inl hx
        · refine Or.inr ?_
          split
          · rfl
          · exact hx
    | objects =>
      obtain ⟨hbatch, -, hgone⟩ := hcall
      refine ⟨honly, hpreviews, hbatch, fun f hf k hk => ?_⟩
      exact (hgone rfl f hf k hk).resolve_left List.not_mem_nil
    | @removed batch n m db d hdb hd =>
      obtain ⟨hbatch, hgone⟩ := hcall
      refine ⟨honly.remove hbatch hgone (Db.deleteFilesByIDsWithDirectories_ok hdb).1, hpreviews, ?_⟩
      rcases hd with ⟨e, rfl, -⟩ | ⟨rfl, -⟩ | rfl <;> trivial

end Safety

section Count

variable {β ι : Type} {path : Key} {total : Nat}

def World.Beyond (path : Key) (last : Option FileID) (w : World β ι) : Prop :=
  ∀ f ∈ w.under path, ∀ a ∈ last, a < f.id

def World.Lists.FirstPage (path : Key) (w : World β ι) (batch : List FileInfo) : Prop :=
  batch ≠ [] ∧ ∃ last, w.Beyond path last ∧ batch =
    (Paging.page File.id last deleteDirectoryBatchSize (w.under path)).map w.info

def DeleteDirectoryState.Counts (path : Key) (total : Nat) (w : World β ι) :
    DeleteDirectoryState → Prop
  | .listFilesForDelete last n => n + (w.under path).length = total ∧ w.Beyond path last
  | .deleteMany batch _ _ n | .deleteFilesByIDs batch n =>
    n + (w.under path).length = total ∧ World.Lists.FirstPage path w batch
  | .done n none => w.under path = [] ∧ n = total
  | .done _ (some _) => True

theorem count_of_deleteFilesByIDs {db db' : Db} {ids : List FileID} {keys : List Key} {n : Nat}
    (h : db.deleteFilesByIDsWithDirectories ids keys = .ok (n, db')) :
    n = (db.files.rows.filter fun f => f.id ∈ ids).length :=
  (Prod.mk.inj (Except.ok.inj h)).1.symm

theorem under_of_removed (path : Key) {w : World β ι} {db : Db} {ids : List FileID}
    (h : db.files = w.db.files.deleteWhere fun f => f.id ∈ ids) :
    World.under { w with db } path = (w.under path).filter fun f => !decide (f.id ∈ ids) := by
  simp only [World.under, h, Files.deleteWhere, List.filter_filter]
  exact List.filter_congr fun f _ => Bool.and_comm _ _

theorem length_under {path : Key} {w : World β ι} {ids : List FileID}
    (hids : ∀ f ∈ w.db.files.rows, f.id ∈ ids → path <+: f.key) :
    (w.under path).length = (w.db.files.rows.filter fun f => f.id ∈ ids).length +
      ((w.under path).filter fun f => !decide (f.id ∈ ids)).length := by
  have hsame : (w.under path).filter (fun f => f.id ∈ ids) =
      w.db.files.rows.filter fun f => f.id ∈ ids := by
    rw [World.under, List.filter_filter]
    refine List.filter_congr fun f hf => ?_
    by_cases hid : f.id ∈ ids
    · simpa [hid] using hids f hf hid
    · simp [hid]
  rw [← hsame]
  exact List.length_eq_length_filter_add _

section Page

variable {w : World β ι} {last : Option FileID} {page : List File}

theorem prefix_of_page
    (hpage : page = Paging.page File.id last deleteDirectoryBatchSize (w.under path)) {f : File}
    (hf : f ∈ w.db.files.rows) (hid : f.id ∈ page.map File.id) : f ∈ page ∧ path <+: f.key := by
  obtain ⟨g, hg, hgid⟩ := List.mem_map.mp hid
  have hunder : g ∈ w.under path := (Paging.mem_page (hpage ▸ hg)).1
  obtain ⟨hrow, hbelow⟩ := mem_under.mp hunder
  obtain rfl := Files.eq_of_id hrow hf hgid
  exact ⟨hg, hbelow⟩

theorem beyond_page (hbeyond : w.Beyond path last)
    (hpage : page = Paging.page File.id last deleteDirectoryBatchSize (w.under path)) {f : File}
    (hf : f ∈ w.under path) (hid : f.id ∉ page.map File.id) :
    ¬page.length < deleteDirectoryBatchSize ∧ ∀ a ∈ page.getLast?.map File.id, a < f.id := by
  have hnot : f ∉ page := fun hmem => hid (List.mem_map_of_mem hmem)
  obtain ⟨htruncated, hnext⟩ := (Paging.mem_page_or_beyond (n := deleteDirectoryBatchSize)
    (nodup_under path w) hf (hbeyond f hf)).resolve_left (hpage ▸ hnot)
  rw [← hpage] at hnext
  refine ⟨?_, fun a ha => hnext a ?_⟩
  · simp only [Paging.isTruncated, decide_eq_true_eq] at htruncated
    rw [hpage, Paging.page, List.length_take]
    omega
  · simp only [Paging.next, Option.mem_def] at ha ⊢
    rw [ha]
    rfl

theorem page_length_add_le (path : Key) (w : World β ι) (last : Option FileID) {page : List File}
    (hpage : page = Paging.page File.id last deleteDirectoryBatchSize (w.under path)) :
    page.length + ((w.under path).filter fun f => !decide (f.id ∈ page.map File.id)).length ≤
      (w.under path).length := by
  have hnodup : page.Nodup := by
    have hsorted := Paging.sorted_page (n := deleteDirectoryBatchSize) last
      (nodup_under path w)
    rw [← hpage] at hsorted
    exact hsorted.imp fun hlt he => absurd (he ▸ hlt) (lt_irrefl _)
  have hsub : page ⊆ w.db.files.rows.filter fun f => f.id ∈ page.map File.id := by
    intro f hf
    have hunder : f ∈ w.under path := (Paging.mem_page (hpage ▸ hf)).1
    exact List.mem_filter.mpr ⟨(mem_under.mp hunder).1, decide_eq_true (List.mem_map_of_mem hf)⟩
  have hle := (List.subperm_of_subset hnodup hsub).length_le
  have hlength := length_under fun f hf hid => (prefix_of_page hpage hf hid).2
  rw [hlength]
  exact Nat.add_le_add_right hle _

end Page

theorem batch_ids {w : World β ι} {page : List File} :
    ((page.map w.info).map fun f => f.file.id) = page.map File.id := by
  rw [List.map_map]
  rfl

theorem under_eq_nil {w : World β ι} : w.under path = [] ↔ ∀ f ∈ w.db.files.rows, ¬path <+: f.key := by
  simp [World.under, List.filter_eq_nil_iff]

theorem counts_removed {w : World β ι} {batch : List FileInfo} {n m : Nat} {db : Db}
    {d : DeleteDirectoryState} (hcount : n + (w.under path).length = total)
    (hbatch : World.Lists.FirstPage path w batch)
    (hdb : w.db.deleteFilesByIDsWithDirectories (batch.map fun f => f.file.id)
      (batch.map fun f => f.file.key) = .ok (m, db))
    (hd : (d = .done (n + m) none ∧ batch.length < deleteDirectoryBatchSize) ∨
      d = .listFilesForDelete (batch.getLast?.map fun f => f.file.id) (n + m)) :
    d.Counts path total { w with db } := by
  obtain ⟨-, last, hbeyond, hpage⟩ := hbatch
  obtain ⟨page, hpageEq⟩ : ∃ page, page =
      Paging.page File.id last deleteDirectoryBatchSize (w.under path) := ⟨_, rfl⟩
  rw [← hpageEq] at hpage
  subst hpage
  have hunder := under_of_removed path (Db.deleteFilesByIDsWithDirectories_ok hdb).1
  have hm := count_of_deleteFilesByIDs hdb
  rw [batch_ids] at hunder hm
  have hlength := length_under fun f hf hid => (prefix_of_page hpageEq hf hid).2
  have hrest (f : File) (hf : f ∈ World.under { w with db } path) :
      ¬page.length < deleteDirectoryBatchSize ∧ ∀ a ∈ page.getLast?.map File.id, a < f.id := by
    rw [hunder] at hf
    obtain ⟨hf, hid⟩ := List.mem_filter.mp hf
    exact beyond_page hbeyond hpageEq hf (by simpa using hid)
  have htotal : n + m + (World.under { w with db } path).length = total := by
    rw [hunder, hm]
    omega
  rcases hd with ⟨rfl, hshort⟩ | rfl
  · rw [List.length_map] at hshort
    have hempty : World.under { w with db } path = [] :=
      List.eq_nil_iff_forall_not_mem.mpr fun f hf => (hrest f hf).1 hshort
    rw [hempty] at htotal
    exact ⟨hempty, htotal⟩
  · refine ⟨htotal, fun f hf a ha => (hrest f hf).2 a ?_⟩
    simpa [List.getLast?_map, World.info] using ha

theorem Deletion.counts_preserved (indexPrefix : Key) :
    Transition.Preserves (Deletion.step indexPrefix path) (fun _ a => SameCall a)
      (fun s : Deletion β ι => s.call.Counts path total s.world) := by
  intro s a t hs hok ht
  obtain ⟨w, d⟩ := s
  cases a with
  | retry => exact absurd hok id
  | step fault pick =>
    obtain ⟨⟨w', d'⟩, hstep, rfl⟩ := Option.map_eq_some_iff.mp ht
    cases deletionStep_of_step hstep with
    | failed e _ => trivial
    | @exhausted last n hempty =>
      obtain ⟨hcount, hbeyond⟩ := hs
      have hnone : w.under path = [] := by
        refine List.eq_nil_iff_forall_not_mem.mpr fun f hf => ?_
        refine (beyond_page hbeyond hempty.symm hf List.not_mem_nil).1 ?_
        exact Nat.zero_lt_succ _
      rw [hnone] at hcount
      exact ⟨hnone, hcount⟩
    | @listed last n batch hne hbatch => exact ⟨hs.1, hne, last, hs.2, hbatch⟩
    | @object batch waiting failed n key hkey =>
      have hsame : w.deleteObject fault key = w ∨
          w.deleteObject fault key = { w with bucket := w.bucket.delete key } := by
        unfold World.deleteObject
        split
        · exact Or.inl rfl
        · exact Or.inr rfl
      rcases hsame with hsame | hsame
      · rw [hsame]
        exact hs
      · rw [hsame]
        exact hs
    | objects => exact hs
    | @removed batch n m db d hdb hd =>
      rcases hd with ⟨e, rfl, -⟩ | hd
      · trivial
      · exact counts_removed hs.1 hs.2 hdb hd

end Count

section Retry

variable {β ι : Type} {indexPrefix path : Key} {total : Nat}

def DeleteDirectoryState.unfailing : DeleteDirectoryState → Bool
  | .deleteMany _ _ failed _ => !failed
  | .done _ (some _) => false
  | _ => true

def World.rest (path : Key) (w : World β ι) (batch : List FileInfo) : Nat :=
  ((w.under path).filter fun f => !decide (f.id ∈ batch.map fun f => f.file.id)).length

-- six steps a row: every row of a batch has at most two objects to delete
def Deletion.remaining (path : Key) (s : Deletion β ι) : Nat :=
  match s.call with
  | .listFilesForDelete _ _ => 6 * (s.world.under path).length + 1
  | .deleteMany batch waiting _ _ => 6 * s.world.rest path batch + 3 + waiting.length
  | .deleteFilesByIDs batch _ => 6 * s.world.rest path batch + 2
  | .done _ _ => 0

def Deletion.Emptied (path : Key) (s : Deletion β ι) : Prop :=
  ∃ n, s.call = .done n none ∧ ∀ f ∈ s.world.db.files.rows, ¬path <+: f.key

structure Deletion.Retrying (path : Key) (total : Nat) (s : Deletion β ι) : Prop where
  counts : s.call.Counts path total s.world
  unfailing : s.call.unfailing = true

theorem length_objectKeys_le (batch : List FileInfo) :
    (batch.flatMap FileInfo.objectKeys).length ≤ 2 * batch.length := by
  induction batch with
  | nil => simp
  | cons f batch ih =>
    have hobjects : f.objectKeys.length ≤ 2 := by
      rcases previewObjects_eq (f := f) with he | ⟨k, -, he⟩ <;> simp [FileInfo.objectKeys, he]
    rw [List.flatMap_cons, List.length_append, List.length_cons]
    omega

theorem Deletion.retrying_preserved : Transition.Preserves (Deletion.step indexPrefix path)
    (fun _ a => FaultFree a) (Deletion.Retrying path total (β := β) (ι := ι)) := by
  intro s a t hs hok ht
  obtain ⟨w, d⟩ := s
  cases a with
  | retry => exact absurd hok id
  | step fault pick =>
    obtain rfl : fault = .none := hok
    refine ⟨Deletion.counts_preserved indexPrefix _ _ _ hs.counts (by trivial) ht, ?_⟩
    obtain ⟨⟨w', d'⟩, hstep, rfl⟩ := Option.map_eq_some_iff.mp ht
    have hunfailing := hs.unfailing
    cases deletionStep_of_step hstep with
    | failed e he =>
      rcases he with he | ⟨batch, n, rfl⟩
      · exact absurd rfl he
      · cases hunfailing
    | exhausted _ | listed _ _ | objects => rfl
    | object hkey => simpa [DeleteDirectoryState.unfailing] using hunfailing
    | removed hdb hd =>
      rcases hd with ⟨e, -, hfault⟩ | ⟨rfl, -⟩ | rfl
      · exact absurd rfl hfault
      · rfl
      · rfl

theorem Deletion.retrying_enabled {s : Deletion β ι} (hs : s.Retrying path total)
    (hnot : ¬s.Emptied path) : ∃ a t, FaultFree a ∧ s.step indexPrefix path a = some t := by
  have hsome {w : World β ι} {d : DeleteDirectoryState}
      (h : (deleteDirectoryStep path .none 0 w d).isSome = true) :
      ∃ a t, FaultFree a ∧ Deletion.step indexPrefix path ⟨w, d⟩ a = some t := by
    obtain ⟨⟨w', d'⟩, hstep⟩ := Option.isSome_iff_exists.mp h
    exact ⟨.step .none 0, ⟨w', d'⟩, rfl, by simp [Deletion.step, hstep]⟩
  obtain ⟨w, d⟩ := s
  cases d with
  | listFilesForDelete last n =>
    refine hsome ?_
    simp only [deleteDirectoryStep, ne_eq, not_true_eq_false, if_false]
    split <;> rfl
  | deleteMany batch waiting failed n =>
    refine hsome ?_
    cases waiting with
    | nil =>
      simp only [deleteDirectoryStep, if_true]
      split <;> rfl
    | cons k waiting => rfl
  | deleteFilesByIDs batch n =>
    refine hsome ?_
    simp only [deleteDirectoryStep, reduceCtorEq, if_false]
    split
    · rfl
    · split <;> rfl
  | done n e =>
    cases e with
    | none => exact absurd ⟨n, rfl, under_eq_nil.mp hs.counts.1⟩ hnot
    | some e => cases hs.unfailing

theorem Deletion.remaining_lt {s t : Deletion β ι} {a : DeletionAction}
    (hs : s.Retrying path total) (hok : FaultFree a) (ht : s.step indexPrefix path a = some t) :
    t.remaining path < s.remaining path := by
  obtain ⟨w, d⟩ := s
  cases a with
  | retry => exact absurd hok id
  | step fault pick =>
    obtain rfl : fault = .none := hok
    obtain ⟨⟨w', d'⟩, hstep, rfl⟩ := Option.map_eq_some_iff.mp ht
    cases deletionStep_of_step hstep with
    | failed e he =>
      rcases he with he | ⟨batch, n, rfl⟩
      · exact absurd rfl he
      · cases hs.unfailing
    | exhausted _ => exact Nat.succ_pos _
    | @listed last n batch hne hbatch =>
      have hobjects := length_objectKeys_le batch
      have hlength := page_length_add_le path w last rfl
      have hpos : 0 < batch.length := List.length_pos_iff.mpr hne
      have hrest : batch.length + w.rest path batch ≤ (w.under path).length := by
        rw [World.rest, hbatch, batch_ids, List.length_map]
        exact hlength
      simp only [Deletion.remaining]
      omega
    | @object batch waiting failed n key hkey =>
      have hrest : World.rest path (w.deleteObject .none key) batch = w.rest path batch := by
        simp [World.rest, World.under]
      have hlt : pick < waiting.length := (List.getElem?_eq_some_iff.mp hkey).1
      simp only [Deletion.remaining, hrest, List.length_eraseIdx_of_lt hlt]
      omega
    | objects => exact Nat.lt_succ_self _
    | @removed batch n m db d hdb hd =>
      have hunder := under_of_removed path (Db.deleteFilesByIDsWithDirectories_ok hdb).1
      rcases hd with ⟨e, -, hfault⟩ | ⟨rfl, -⟩ | rfl
      · exact absurd rfl hfault
      · exact Nat.succ_pos _
      · simp only [Deletion.remaining, hunder]
        exact Nat.lt_succ_self _

theorem counts_start (hpath : validateDirPath indexPrefix path = .ok path) (w : World β ι) :
    DeleteDirectoryState.Counts path (w.under path).length w (.start indexPrefix path) := by
  rw [DeleteDirectoryState.start, hpath]
  exact ⟨Nat.zero_add _, fun _ _ a ha => by cases ha⟩

theorem inevitably_emptied (hpath : validateDirPath indexPrefix path = .ok path) (w : World β ι) :
    Transition.Inevitable (Deletion.step indexPrefix path) (fun _ a => FaultFree a)
      (Deletion.Emptied path) ⟨w, .start indexPrefix path⟩ := by
  have hstart : Deletion.Retrying path (w.under path).length ⟨w, .start indexPrefix path⟩ := by
    refine ⟨counts_start hpath w, ?_⟩
    rw [DeleteDirectoryState.start, hpath]
    rfl
  refine Transition.inevitable_of_measure (Deletion.remaining path) Deletion.retrying_preserved
    (fun s hs hnot => Deletion.retrying_enabled hs hnot)
    (fun s a t hs _ hok ht => Deletion.remaining_lt hs hok ht) hstart

theorem delete_directory (hpath : validateDirPath indexPrefix path = .ok path) (w : World β ι) :
    DeletesDirectory indexPrefix path w where
  only as := by
    have hstart : Deletion.Safe path w ⟨w, .start indexPrefix path⟩ := by
      refine ⟨deletesOnly_refl path w, rfl, ?_⟩
      rw [DeleteDirectoryState.start, hpath]
      trivial
    exact (Transition.everyState_of_preserves (Deletion.safe_preserved indexPrefix) as hstart
      (Transition.everyStep_of_forall (fun _ _ => trivial) as)).mono fun s hs => hs.only
  succeeds as hcall t n ht := by
    have hend := (Transition.everyState_of_preserves (Deletion.counts_preserved indexPrefix) as
      (counts_start hpath w) hcall).last ht
    obtain ⟨hempty, hcount⟩ := hend
    refine ⟨under_eq_nil.mp hempty, fun sizeBytes stats hstats => ?_⟩
    rw [hcount, fileCount_eq hstats]
  retried as t ht n e he := inevitably_emptied hpath t.world

def docsWorld : World String Unit where
  db := ⟨⟨[⟨1, ascii "docs/a", 0, 0, 0⟩, ⟨2, ascii "docs-archive/b", 0, 0, 0⟩], 3, by decide,
    by decide, by decide⟩, ∅⟩
  previewKeys id := if id = 1 then some (ascii ".index/previews/1") else none
  bucket := ((∅ : Bucket String).put 0 (ascii "docs/a") "a").put 0 (ascii ".index/previews/1") "p"
  locks _ := none
  now := 5

theorem docs_deleted : DeletesDirectory (ascii ".index/") (ascii "docs/") docsWorld :=
  delete_directory rfl docsWorld

end Retry

end FileIndexer
