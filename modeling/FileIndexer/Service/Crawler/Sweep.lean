import FileIndexer.Foundation.Runs
import FileIndexer.Service.Crawler.Crawl
import FileIndexer.Service.Files.DeleteFile
import FileIndexer.Service.Files.Uploads

namespace FileIndexer

structure CrawlRun (β ι κ : Type) where
  world : World β ι
  movers : ι → MoveState
  deleters : κ → Deleter
  statted : List (Key × Time)
  crawl : Crawl
  missed : FileID → Bool

inductive CrawlRunAction (β ι κ : Type) where
  | crawl (pageSize : Nat)
  | move (i : ι) (fault : Fault)
  | delete (j : κ) (fault : Fault) (pick : Nat)
  | statUpload (key : Key)
  | upsertUpload (n : Nat)
  | putObject (key : Key) (bytes : β)
  | removeObject (key : Key)
  | tick (d : Nat)

def World.rowMissing {β ι : Type} (w : World β ι) (id : FileID) : Bool :=
  match w.db.files.getFile id with
  | some f => (w.bucket.lookup f.key).isNone
  | none => false

section System

variable {β ι κ : Type} [DecidableEq ι] [DecidableEq κ] (indexPrefix : Key) (batchSize : Nat)
  (req : ι → MoveFileRequest)

-- missed records the rows whose key had no object at some moment since the cutoff was read
def CrawlRun.observe (s : CrawlRun β ι κ) (missed : FileID → Bool) : CrawlRun β ι κ :=
  { s with missed := fun id => missed id || s.world.rowMissing id }

def CrawlRun.step (s : CrawlRun β ι κ) : CrawlRunAction β ι κ → Option (CrawlRun β ι κ)
  | .crawl pageSize =>
    (crawlStep indexPrefix batchSize pageSize s.world s.crawl).map fun (w, c) =>
      { s with world := w, crawl := c }.observe
        (match s.crawl with | .databaseNow => fun _ => false | _ => s.missed)
  | .move i fault =>
    (moveFileStep indexPrefix (req i) i fault s.world (s.movers i)).map fun (w, m) =>
      { s with world := w, movers := Function.update s.movers i m }.observe s.missed
  | .delete j fault pick =>
    ((s.deleters j).step fault pick s.world).map fun (w, d) =>
      { s with world := w, deleters := Function.update s.deleters j d }.observe s.missed
  | .statUpload key => (statUploadedKey indexPrefix s.world key).map fun row =>
      { s with statted := s.statted ++ [row] }.observe s.missed
  | .upsertUpload n =>
    match s.statted[n]? with
    | none => none
    | some row => (indexUploadedKey s.world row).map fun w =>
        { s with world := w, statted := s.statted.eraseIdx n }.observe s.missed
  | .putObject key bytes => some ({ s with
      world := { s.world with bucket := s.world.bucket.put s.world.now key bytes } }.observe s.missed)
  | .removeObject key => some ({ s with
      world := { s.world with bucket := s.world.bucket.delete key } }.observe s.missed)
  | .tick d => some ({ s with world := { s.world with now := s.world.now + d } }.observe s.missed)

structure CrawlRun.Initial (s : CrawlRun β ι κ) : Prop where
  crawl : s.crawl = .databaseNow
  movers : ∀ i, s.movers i = .getFile

def SweepsOnlyMissed (s : CrawlRun β ι κ) : CrawlRunAction β ι κ → Prop
  | .crawl pageSize => ∀ t, s.step indexPrefix batchSize req (.crawl pageSize) = some t →
      ∀ f ∈ s.world.db.files.rows, (∀ g ∈ t.world.db.files.rows, g.id ≠ f.id) → s.missed f.id = true
  | _ => True

def MovesAhead (s : CrawlRun β ι κ) : CrawlRunAction β ι κ → Prop
  | .crawl _ =>
    match s.crawl with
    | .databaseNow => ∀ f ∈ s.world.db.files.rows, underPrefix indexPrefix f.key = false
    | _ => True
  | .move i fault =>
    match s.crawl with
    | .walking c => (s.movers i).updatesRow = true → fault ≠ .before →
        ∀ f ∈ s.world.db.files.rows, f.id = (req i).id → f.seenAt < c.cutoff →
          c.pending (req i).destinationKey
    | _ => True
  | _ => True

end System

section Invariant

variable {β ι κ : Type} {indexPrefix : Key} {batchSize : Nat} {req : ι → MoveFileRequest}

def Covered (indexPrefix : Key) (c : Walk) (missed : FileID → Bool) (rows : List File) : Prop :=
  ∀ f ∈ rows, f.seenAt < c.cutoff → missed f.id = false →
    underPrefix indexPrefix f.key = false ∧ c.pending f.key

structure CrawlRun.Inv (indexPrefix : Key) (req : ι → MoveFileRequest) (s : CrawlRun β ι κ) :
    Prop where
  validated : ∀ i, (s.movers i).validated = true →
    underPrefix indexPrefix (req i).destinationKey = false
  covered : ∀ c, s.crawl = .walking c →
    c.cutoff ≤ s.world.now ∧ Covered indexPrefix c s.missed s.world.db.files.rows

theorem rowMissing_iff {w : World β ι} {f : File} (hf : f ∈ w.db.files.rows) :
    w.rowMissing f.id = true ↔ w.bucket.lookup f.key = none := by
  rw [World.rowMissing, Files.getFile_eq_some_iff.mpr ⟨hf, rfl⟩]
  exact Option.isNone_iff_eq_none

theorem Covered.mono {c : Walk} {missed missed' : FileID → Bool} {rows rows' : List File}
    (h : Covered indexPrefix c missed rows) (hrows : ∀ f ∈ rows', f ∈ rows ∨ c.cutoff ≤ f.seenAt)
    (hmissed : ∀ id, missed' id = false → missed id = false) : Covered indexPrefix c missed' rows' := by
  intro f hf hseen hm
  rcases hrows f hf with hf | hs
  · exact h f hf hseen (hmissed _ hm)
  · exact absurd hseen (not_lt.mpr hs)

theorem upserted_rows {w : World β ι} {n : Nat} {db : Db} {arg : UpsertFilesParams} {f : File}
    (h : w.db.upsertFilesWithDirectories w.now arg = .ok (n, db)) (hf : f ∈ db.files.rows) :
    (f ∈ w.db.files.rows ∧ f.key ∉ arg.map Prod.fst) ∨ f.seenAt = w.now := by
  rw [(Db.upsertFilesWithDirectories_ok h).1] at hf
  exact (Files.mem_upsertFiles hf).imp_right And.right

theorem moved_rows {w : World β ι} {id : FileID} {newKey : Key} {moved : File} {db : Db} {f : File}
    (h : w.db.moveFileWithDirectories id newKey = .ok (moved, db)) (hf : f ∈ db.files.rows) :
    f ∈ w.db.files.rows ∨ ∃ g ∈ w.db.files.rows, g.id = id ∧ f = { g with key := newKey } := by
  obtain ⟨old, -, -, ⟨hfree, hfiles⟩, -⟩ := Db.moveFileWithDirectories_ok h
  rw [hfiles] at hf
  obtain ⟨g, hg, rfl⟩ := Files.mem_rekey.mp hf
  by_cases hid : g.id = id
  · exact Or.inr ⟨g, hg, hid, by simp [Files.rekeyed, hid]⟩
  · exact Or.inl (by simpa [Files.rekeyed, hid] using hg)

theorem id_kept_of_upsert {w : World β ι} {n : Nat} {db : Db} {arg : UpsertFilesParams} {f : File}
    (h : w.db.upsertFilesWithDirectories w.now arg = .ok (n, db)) (hf : f ∈ w.db.files.rows) :
    ∃ g ∈ db.files.rows, g.id = f.id := by
  rw [(Db.upsertFilesWithDirectories_ok h).1]
  exact Files.kept_upsertFiles hf

theorem covered_crawl {pageSize : Nat} {w w' : World β ι} {c' : Crawl} {c : Walk}
    {missed missed' : FileID → Bool} (hstep : CrawlStep indexPrefix pageSize w (.walking c) w' c')
    (hcut : c.cutoff ≤ w.now) (h : Covered indexPrefix c missed w.db.files.rows)
    (hmissed : ∀ id, missed' id = false → missed id = false ∧ w'.rowMissing id = false) (d : Walk)
    (hd : c' = .walking d) : d.cutoff ≤ w'.now ∧ Covered indexPrefix d missed' w'.db.files.rows := by
  cases hstep with
  | flushed hdb =>
    cases hd
    refine ⟨hcut, fun f hf hseen hm => ?_⟩
    rcases upserted_rows hdb hf with ⟨hf, hnot⟩ | hs
    · obtain ⟨hp, hpend⟩ := h f hf hseen (hmissed _ hm).1
      exact ⟨hp, hpend.flushed hnot⟩
    · exact absurd hseen (not_lt.mpr (hs ▸ hcut))
  | visited hpage =>
    cases hd
    rw [Walk.cutoff_visit]
    refine ⟨hcut, fun f hf hseen hm => ?_⟩
    rw [Walk.cutoff_visit] at hseen
    obtain ⟨hp, hpend⟩ := h f hf hseen (hmissed _ hm).1
    exact ⟨hp, hpend.visit hp hpage⟩
  | fetched hpage hmore =>
    cases hd
    refine ⟨hcut, fun f hf hseen hm => ?_⟩
    obtain ⟨hnot, hrow⟩ := hmissed _ hm
    obtain ⟨hp, hpend⟩ := h f hf hseen hnot
    refine ⟨hp, hpend.fetch hpage pageSize fun hb => ?_⟩
    rw [(rowMissing_iff hf).mpr hb] at hrow
    cases hrow
  | swept _ _ _ _ => cases hd

theorem covered_move [DecidableEq ι] {w w' : World β ι} {m m' : MoveState} {fault : Fault} {me : ι}
    {r : MoveFileRequest} {c : Walk} {missed missed' : FileID → Bool}
    (hstep : MoveStep indexPrefix r me fault w m w' m')
    (hvalid : m.validated = true → underPrefix indexPrefix r.destinationKey = false)
    (hahead : m.updatesRow = true → fault ≠ .before → ∀ f ∈ w.db.files.rows, f.id = r.id →
      f.seenAt < c.cutoff → c.pending r.destinationKey)
    (hmissed : ∀ id, missed' id = false → missed id = false)
    (h : Covered indexPrefix c missed w.db.files.rows) :
    Covered indexPrefix c missed' w'.db.files.rows := by
  rcases (db_of_moveStep hstep).2 with hdb | ⟨hup, hfault, moved, hdb⟩
  · exact h.mono (fun f hf => Or.inl (hdb ▸ hf)) hmissed
  · intro f hf hseen hm
    rcases moved_rows hdb hf with hf | ⟨g, hg, hid, rfl⟩
    · exact h f hf hseen (hmissed _ hm)
    · exact ⟨hvalid (MoveState.validated_of_updatesRow hup), hahead hup hfault g hg hid hseen⟩

theorem swept_rows_missed {pageSize : Nat} {w w' : World β ι} {c c' : Crawl}
    {missed : FileID → Bool} (hstep : CrawlStep indexPrefix pageSize w c w' c')
    (h : ∀ d, c = .walking d → Covered indexPrefix d missed w.db.files.rows) {f : File}
    (hf : f ∈ w.db.files.rows) (hgone : ∀ g ∈ w'.db.files.rows, g.id ≠ f.id) :
    missed f.id = true := by
  cases hstep with
  | started => exact absurd rfl (hgone f hf)
  | flushed hdb =>
    obtain ⟨g, hg, hid⟩ := id_kept_of_upsert hdb hf
    exact absurd hid (hgone g hg)
  | visited _ => exact absurd rfl (hgone f hf)
  | fetched _ _ => exact absurd rfl (hgone f hf)
  | swept hpage hlast hbatch hdb =>
    rename_i d n db
    have hfiles := (Db.deleteUnseenFilesWithDirectories_ok hdb).1
    have hseen : f.seenAt < d.cutoff := by
      by_contra hs
      refine hgone f ?_ rfl
      show f ∈ db.files.rows
      rw [hfiles]
      exact Files.mem_deleteWhere.mpr ⟨hf, by simpa using hs⟩
    by_contra hm
    obtain ⟨-, hpend⟩ := h d rfl f hf hseen (by simpa using hm)
    exact Walk.not_pending hpage hlast hbatch hpend

theorem missed_of_observe {missed : FileID → Bool} {w : World β ι} (id : FileID)
    (h : (missed id || w.rowMissing id) = false) : missed id = false ∧ w.rowMissing id = false := by
  simpa using h

theorem CrawlRun.Inv.observe {s t : CrawlRun β ι κ} (h : s.Inv indexPrefix req)
    (hcrawl : t.crawl = s.crawl) (hmovers : t.movers = s.movers) (hnow : s.world.now ≤ t.world.now)
    (hrows : ∀ c, s.crawl = .walking c →
      ∀ f ∈ t.world.db.files.rows, f ∈ s.world.db.files.rows ∨ c.cutoff ≤ f.seenAt) :
    (t.observe s.missed).Inv indexPrefix req := by
  refine ⟨fun i => ?_, fun c hc => ?_⟩
  · simpa only [CrawlRun.observe, hmovers] using h.validated i
  · have hc' : s.crawl = .walking c := hcrawl.symm.trans hc
    obtain ⟨hcut, hcov⟩ := h.covered c hc'
    exact ⟨hcut.trans hnow, hcov.mono (hrows c hc') fun id hm => (missed_of_observe id hm).1⟩

section Step

variable [DecidableEq ι] [DecidableEq κ]

theorem CrawlRun.inv_preserved : Transition.Preserves (CrawlRun.step indexPrefix batchSize req)
    (MovesAhead indexPrefix req) (CrawlRun.Inv indexPrefix req (β := β) (κ := κ)) := by
  intro s a t hs hok ht
  cases a with
  | crawl pageSize =>
    obtain ⟨⟨w, c'⟩, hwc, rfl⟩ := Option.map_eq_some_iff.mp ht
    have hstep := crawlStep_of_step hwc
    refine ⟨hs.validated, fun d hd => ?_⟩
    cases hc : s.crawl with
    | databaseNow =>
      simp only [MovesAhead, hc] at hok
      rw [hc] at hstep
      cases hstep
      cases hd
      exact ⟨le_refl _, fun f hf _ _ => ⟨hok f hf, Walk.pending_started _⟩⟩
    | walking c =>
      obtain ⟨hcut, hcov⟩ := hs.covered c hc
      refine covered_crawl (hc ▸ hstep) hcut hcov (fun id hm => ?_) d hd
      simp only [observe] at hm
      exact missed_of_observe id hm
    | finished n =>
      rw [hc] at hstep
      cases hstep
  | move i fault =>
    obtain ⟨⟨w, m⟩, hwm, rfl⟩ := Option.map_eq_some_iff.mp ht
    have hstep := moveStep_of_step hwm
    refine ⟨fun j => ?_, fun c hc => ?_⟩
    · by_cases hj : j = i
      · subst hj
        simpa [observe] using
          validated_of_moveStep hstep (fun _ => unreserved_of_validate) (hs.validated j)
      · simpa [observe, hj] using hs.validated j
    · have hwalking : s.crawl = .walking c := hc
      obtain ⟨hcut, hcov⟩ := hs.covered c hwalking
      simp only [MovesAhead, hwalking] at hok
      refine ⟨(db_of_moveStep hstep).1 ▸ hcut, ?_⟩
      exact covered_move hstep (hs.validated i) hok (fun id hm => (missed_of_observe id hm).1) hcov
  | delete j fault pick =>
    obtain ⟨⟨w, d⟩, hwd, rfl⟩ := Option.map_eq_some_iff.mp ht
    obtain ⟨hnow, hsub⟩ := rows_of_deleterStep hwd
    exact hs.observe rfl rfl (le_of_eq hnow.symm) fun c _ f hf => Or.inl (hsub f hf)
  | statUpload key =>
    obtain ⟨row, -, rfl⟩ := Option.map_eq_some_iff.mp ht
    exact hs.observe rfl rfl (le_refl _) fun c _ f hf => Or.inl hf
  | upsertUpload n =>
    simp only [CrawlRun.step] at ht
    split at ht
    · cases ht
    · rename_i row hrow
      obtain ⟨w, hw, rfl⟩ := Option.map_eq_some_iff.mp ht
      obtain ⟨x, db, hdb, rfl⟩ := indexUploadedKey_some hw
      refine hs.observe rfl rfl (le_refl _) fun c hc f hf => ?_
      refine (upserted_rows hdb hf).imp And.left fun hseen => ?_
      rw [hseen]
      exact (hs.covered c hc).1
  | putObject key bytes =>
    obtain rfl := Option.some.inj ht
    exact hs.observe rfl rfl (le_refl _) fun c _ f hf => Or.inl hf
  | removeObject key =>
    obtain rfl := Option.some.inj ht
    exact hs.observe rfl rfl (le_refl _) fun c _ f hf => Or.inl hf
  | tick d =>
    obtain rfl := Option.some.inj ht
    refine hs.observe rfl rfl ?_ fun c _ f hf => Or.inl hf
    exact Int.le_add_of_nonneg_right (Int.natCast_nonneg d)

theorem sweep_keeps_present_files (s : CrawlRun β ι κ) (hs : s.Initial)
    (as : List (CrawlRunAction β ι κ))
    (hok : Transition.EveryStep (CrawlRun.step indexPrefix batchSize req) (MovesAhead indexPrefix req)
      s as) :
    Transition.EveryStep (CrawlRun.step indexPrefix batchSize req)
      (SweepsOnlyMissed indexPrefix batchSize req) s as := by
  refine Transition.everyStep_of_preserves CrawlRun.inv_preserved ?_ as ?_ hok
  · intro s a t hs _ _
    cases a with
    | crawl pageSize =>
      intro t ht f hf hgone
      obtain ⟨⟨w, c⟩, hwc, rfl⟩ := Option.map_eq_some_iff.mp ht
      exact swept_rows_missed (crawlStep_of_step hwc) (fun d hd => (hs.covered d hd).2) hf hgone
    | _ => trivial
  · refine ⟨fun i hm => ?_, fun c hc => ?_⟩
    · rw [hs.movers i] at hm
      cases hm
    · rw [hs.crawl] at hc
      cases hc

end Step

end Invariant

section Runs

instance pendingDecidable (c : Walk) (key : Key) : Decidable (c.pending key) :=
  inferInstanceAs (Decidable ((∃ info ∈ c.page, info.key = key) ∨ _ ∨ _ ∧ ∀ k ∈ c.after, k < key))

instance sweepsOnlyMissedDecidable (indexPrefix : Key) (batchSize : Nat)
    (req : Unit → MoveFileRequest) (s : CrawlRun String Unit Unit) : (a : CrawlRunAction String Unit Unit) →
      Decidable (SweepsOnlyMissed indexPrefix batchSize req s a)
  | .crawl pageSize => inferInstanceAs (Decidable
      (∀ t ∈ s.step indexPrefix batchSize req (.crawl pageSize), ∀ f ∈ s.world.db.files.rows,
        (∀ g ∈ t.world.db.files.rows, g.id ≠ f.id) → s.missed f.id = true))
  | .move _ _ | .delete _ _ _ | .statUpload _ | .upsertUpload _ | .putObject _ _
  | .removeObject _ | .tick _ => isTrue trivial

instance movesAheadDecidable (indexPrefix : Key) (req : Unit → MoveFileRequest)
    (s : CrawlRun String Unit Unit) :
    (a : CrawlRunAction String Unit Unit) → Decidable (MovesAhead indexPrefix req s a)
  | .crawl _ =>
    match h : s.crawl with
    | .databaseNow => decidable_of_iff
        (∀ f ∈ s.world.db.files.rows, underPrefix indexPrefix f.key = false) (by simp [MovesAhead, h])
    | .walking _ | .finished _ => isTrue (by simp [MovesAhead, h])
  | .move i fault =>
    match h : s.crawl with
    | .walking c => decidable_of_iff ((s.movers i).updatesRow = true → fault ≠ .before →
        ∀ f ∈ s.world.db.files.rows, f.id = (req i).id → f.seenAt < c.cutoff →
          c.pending (req i).destinationKey) (by simp [MovesAhead, h])
    | .databaseNow | .finished _ => isTrue (by simp [MovesAhead, h])
  | .delete _ _ _ | .statUpload _ | .upsertUpload _ | .putObject _ _
  | .removeObject _ | .tick _ => isTrue trivial

def crawlOfNine : CrawlRun String Unit Unit where
  world :=
    { db := ⟨⟨[⟨1, ascii "9", 0, 0, 0⟩], 2, by decide, by decide, by decide⟩, ∅⟩
      previewKeys _ := none
      bucket := (∅ : Bucket String).put 0 (ascii "9") "photo"
      locks _ := none
      now := 5 }
  movers _ := .getFile
  deleters _ := .file 7 .getFile
  statted := []
  crawl := .databaseNow
  missed _ := false

def crawls (n : Nat) : List (CrawlRunAction String Unit Unit) := List.replicate n (.crawl 1000)

def moveWhole : List (CrawlRunAction String Unit Unit) := List.replicate 12 (.move () .none)

theorem moved_file_swept : crawlOfNine.Initial ∧
    ¬Transition.EveryStep (CrawlRun.step (ascii ".index/") defaultBatchSize fun _ => ⟨1, ascii "3"⟩)
      (SweepsOnlyMissed (ascii ".index/") defaultBatchSize fun _ => ⟨1, ascii "3"⟩) crawlOfNine
      (crawls 3 ++ moveWhole ++ crawls 2) :=
  ⟨⟨rfl, fun _ => rfl⟩, by decide⟩

theorem sweep_keeps_present_files_moving_ahead :
    Transition.EveryStep (CrawlRun.step (ascii ".index/") defaultBatchSize fun _ => ⟨1, ascii "A"⟩)
      (SweepsOnlyMissed (ascii ".index/") defaultBatchSize fun _ => ⟨1, ascii "A"⟩) crawlOfNine
      (crawls 1 ++ moveWhole ++ [CrawlRunAction.removeObject (ascii "A"),
        CrawlRunAction.delete () .none 0] ++ crawls 2) :=
  sweep_keeps_present_files _ ⟨rfl, fun _ => rfl⟩ _ (by decide)

end Runs

end FileIndexer
