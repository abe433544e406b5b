import FileIndexer.Service.Crawler.Reconcile
import FileIndexer.Service.Indexer.Pool
import FileIndexer.Service.PreviewGc.UserObjects

namespace FileIndexer

def skipPreview : PreviewResult := ⟨true, [], 0, 0⟩

structure StorageFaults where
  reads : Bool
  put : Fault
  cause : Text

structure Deriving (β ι : Type) where
  indexing : Indexing β PreviewResult PreviewRow ι
  directories : Directories
  crawl : Crawl

inductive DerivingAction (β ι : Type) where
  | crawl (pageSize : Nat)
  | runCrawler
  | indexing (a : IndexingAction β PreviewResult ι)
  | process (i : ι) (faults : StorageFaults)

def IndexingAction.bookkeeping {β R ι : Type} : IndexingAction β R ι → Bool
  | .process _ _ | .upsertFiles _ | .replaceObject _ _ => false
  | _ => true

section Step

variable {β ι : Type} [DecidableEq ι] (indexPrefix : Key) (render : β → Option (β × Int × Int))
  (cfg : IndexerConfig) (batchSize : Nat)

-- render is none where a content type, a size limit, the decoder or the encoder turns it away
def previewProcess (b : Bucket β) (now : Time) (job : Job) (faults : StorageFaults) :
    Bucket β × Except Text PreviewResult :=
  if underPrefix indexPrefix job.key then (b, .ok skipPreview)
  else match b.lookup job.key with
  | none => (b, .error faults.cause)
  | some o =>
    if faults.reads then (b, .error faults.cause)
    else match render o.bytes with
    | none => (b, .ok skipPreview)
    | some (out, width, height) =>
      let key := previewKey indexPrefix job.fileID
      match faults.put with
      | .before => (b, .error faults.cause)
      | .after => (b.put now key out, .error faults.cause)
      | .none => (b.put now key out, .ok ⟨false, key, width, height⟩)

def Deriving.world (s : Deriving β ι) : World β Unit where
  db := ⟨s.indexing.db.files, s.directories⟩
  previewKeys _ := none
  bucket := s.indexing.bucket
  locks _ := none
  now := s.indexing.now

def Deriving.step (s : Deriving β ι) : DerivingAction β ι → Option (Deriving β ι)
  | .crawl pageSize =>
    (crawlStep indexPrefix batchSize pageSize s.world s.crawl).map fun (w, crawl) =>
      ⟨{ s.indexing with db := s.indexing.db.cascade w.db.files }, w.db.directories, crawl⟩
  | .runCrawler => some { s with crawl := .databaseNow }
  | .indexing a =>
    if a.bookkeeping then
      (s.indexing.step previewIndex cfg a).map fun indexing => { s with indexing }
    else none
  | .process i faults =>
    match s.indexing.workers i with
    | .batch (job :: rest) =>
      let (bucket, outcome) :=
        previewProcess indexPrefix render s.indexing.bucket s.indexing.now job faults
      let readAt := (s.indexing.bucket.lookup job.key).elim s.indexing.now Object.lastModified
      some { s with indexing := { s.indexing with bucket }.setWorker i (match outcome with
        | .ok result => .completing job result readAt 0 rest
        | .error cause =>
          .failing job cause (s.indexing.now + backoff cfg job.attempts) 0 rest) }
    | _ => none

end Step

section Property

variable (β ι : Type) [DecidableEq ι]

def NoRowAdded (before after : Files) : Prop :=
  ∀ f ∈ after.rows, ∃ g ∈ before.rows, g.id = f.id ∧ g.key = f.key

def NoPreviewListed (indexPrefix : Key) (before after : Files) : Prop :=
  ∀ f ∈ after.rows, ∀ id, f.key = previewKey indexPrefix id →
    ∃ g ∈ before.rows, g.id = f.id ∧ g.key = f.key

structure DerivedStaysDerived (indexPrefix : Key) : Prop where
  written : ∀ id, previewPrefix indexPrefix <+: previewKey indexPrefix id
  reserved : indexPrefix <+: previewPrefix indexPrefix
  skipped : ∀ (c : Walk) info page id, info.key = previewKey indexPrefix id →
    c.visit indexPrefix info page = { c with page }
  unlisted : ∀ render cfg batchSize (s : Deriving β ι), s.crawl = .databaseNow → ∀ as,
    Transition.EveryState (Deriving.step indexPrefix render cfg batchSize)
      (fun t => NoPreviewListed indexPrefix s.world.db.files t.world.db.files) s as
  settled : ∀ render cfg batchSize (s t : Deriving β ι) as n, s.crawl = .databaseNow →
    Transition.exec (Deriving.step indexPrefix render cfg batchSize) s as = some t →
    t.crawl = .finished n → ∀ bs,
    Transition.EveryState (Deriving.step indexPrefix render cfg batchSize)
      (fun u => NoRowAdded t.world.db.files u.world.db.files) t bs

end Property

section Inversion

variable {β ι : Type} [DecidableEq ι] {indexPrefix : Key} {render : β → Option (β × Int × Int)}
  {cfg : IndexerConfig} {batchSize : Nat}

inductive DerivingStep (indexPrefix : Key) (s t : Deriving β ι) : Prop
  | quiet : t.world.db = s.world.db → t.world.bucket = s.world.bucket →
      s.world.now ≤ t.world.now → t.crawl = s.crawl → DerivingStep indexPrefix s t
  | restarted : t.world = s.world → t.crawl = .databaseNow → DerivingStep indexPrefix s t
  | wrote (now : Time) (id : FileID) (bytes : β) : t.world = { s.world with
      bucket := s.world.bucket.put now (previewKey indexPrefix id) bytes } →
      t.crawl = s.crawl → DerivingStep indexPrefix s t
  | crawled {pageSize} : CrawlStep indexPrefix pageSize s.world s.crawl t.world t.crawl →
      DerivingStep indexPrefix s t

theorem world_of_crawlStep {w w' : World β Unit} {pageSize : Nat} {c c' : Crawl}
    (h : CrawlStep indexPrefix pageSize w c w' c') : w' = { w with db := w'.db } := by
  cases h <;> rfl

theorem bucket_of_previewProcess (indexPrefix : Key) (render : β → Option (β × Int × Int))
    (b : Bucket β) (now : Time)
    (job : Job) (faults : StorageFaults) :
    (previewProcess indexPrefix render b now job faults).1 = b ∨ ∃ bytes,
      (previewProcess indexPrefix render b now job faults).1 =
        b.put now (previewKey indexPrefix job.fileID) bytes := by
  unfold previewProcess
  split
  · exact Or.inl rfl
  · split
    · exact Or.inl rfl
    · split
      · exact Or.inl rfl
      · split
        · exact Or.inl rfl
        · rename_i out width height hrender
          cases faults.put with
          | before => exact Or.inl rfl
          | after | none => exact Or.inr ⟨out, rfl⟩

theorem kept_of_bookkeeping {s t : Indexing β PreviewResult PreviewRow ι}
    {a : IndexingAction β PreviewResult ι} (ha : a.bookkeeping = true)
    (h : s.step previewIndex cfg a = some t) :
    t.db.files = s.db.files ∧ t.bucket = s.bucket ∧ s.now ≤ t.now := by
  cases indexingStep_of_step h with
  | queued | claimed | worked => exact ⟨rfl, rfl, le_refl _⟩
  | completed _ _ hdb => exact ⟨(IndexType.complete_ok hdb).1, rfl, le_refl _⟩
  | ticked => exact ⟨rfl, rfl, Int.le_add_of_nonneg_right (Int.natCast_nonneg _)⟩
  | processed _ | upserted | replaced => cases ha

theorem derivingStep_of_step {s t : Deriving β ι} {a : DerivingAction β ι}
    (h : s.step indexPrefix render cfg batchSize a = some t) : DerivingStep indexPrefix s t := by
  cases a with
  | crawl pageSize =>
    obtain ⟨⟨w, c⟩, hwc, rfl⟩ := Option.map_eq_some_iff.mp h
    have hstep := crawlStep_of_step hwc
    have hw := world_of_crawlStep hstep
    rw [hw] at hstep
    exact .crawled hstep
  | runCrawler =>
    obtain rfl := Option.some.inj h
    exact .restarted rfl rfl
  | indexing a =>
    simp only [Deriving.step] at h
    split at h
    · rename_i ha
      obtain ⟨indexing, hi, rfl⟩ := Option.map_eq_some_iff.mp h
      obtain ⟨hfiles, hbucket, hnow⟩ := kept_of_bookkeeping ha hi
      refine .quiet ?_ hbucket hnow rfl
      simp only [Deriving.world, hfiles]
    · cases h
  | process i faults =>
    simp only [Deriving.step] at h
    split at h
    · rename_i job rest hw
      obtain rfl := Option.some.inj h
      rcases bucket_of_previewProcess indexPrefix render s.indexing.bucket
        s.indexing.now job faults with hkept | ⟨bytes, hput⟩
      · exact .quiet rfl hkept (le_refl _) rfl
      · refine .wrote s.indexing.now job.fileID bytes ?_ rfl
        exact congrArg (fun b => ({ s.world with bucket := b } : World β Unit)) hput
    · cases h

end Inversion

section Invariant

variable {β ι : Type} {indexPrefix : Key} {w₀ : World β Unit}

def Crawl.Unreserved (indexPrefix : Key) : Crawl → Prop
  | .walking c => ∀ k ∈ c.batch.map Prod.fst, underPrefix indexPrefix k = false
  | _ => True

structure Deriving.Unlisted (indexPrefix : Key) (files : Files) (s : Deriving β ι) : Prop where
  batch : s.crawl.Unreserved indexPrefix
  rows : ∀ f ∈ s.world.db.files.rows, underPrefix indexPrefix f.key = true →
    ∃ g ∈ files.rows, g.id = f.id ∧ g.key = f.key

structure Walk.Surveying (indexPrefix : Key) (w₀ w : World β Unit) (c : Walk) : Prop where
  cutoff : c.cutoff ≤ w.now
  page : ∀ info ∈ c.page, underPrefix indexPrefix info.key = false →
    w₀.bucket.lookup info.key ≠ none
  batch : ∀ k ∈ c.batch.map Prod.fst, w₀.Listed indexPrefix k
  covered : ∀ k, w₀.Listed indexPrefix k → c.Covers w k

def World.Registered (indexPrefix : Key) (w w₀ : World β Unit) : Prop :=
  ∀ k, w₀.Listed indexPrefix k → (w.cell k).owner ≠ none

def Crawl.Surveying (indexPrefix : Key) (w₀ w : World β Unit) : Crawl → Prop
  | .databaseNow => True
  | .walking c => c.Surveying indexPrefix w₀ w
  | .finished _ => w.Registered indexPrefix w₀

structure Deriving.Inv (indexPrefix : Key) (w₀ : World β Unit) (s : Deriving β ι) : Prop where
  bucket : ∀ k, underPrefix indexPrefix k = false →
    s.world.bucket.lookup k = w₀.bucket.lookup k
  crawl : s.crawl.Surveying indexPrefix w₀ s.world

structure Deriving.Settled (indexPrefix : Key) (w₀ : World β Unit) (files : Files)
    (s : Deriving β ι) : Prop where
  inv : s.Inv indexPrefix w₀
  registered : s.world.Registered indexPrefix w₀
  rows : NoRowAdded files s.world.db.files

theorem noRowAdded_refl (files : Files) : NoRowAdded files files := fun f hf => ⟨f, hf, rfl, rfl⟩

theorem NoRowAdded.trans {a b c : Files} (hab : NoRowAdded a b) (hbc : NoRowAdded b c) :
    NoRowAdded a c := by
  intro f hf
  obtain ⟨g, hg, hid, hkey⟩ := hbc f hf
  obtain ⟨e, he, heid, hekey⟩ := hab g hg
  exact ⟨e, he, heid.trans hid, hekey.trans hkey⟩

theorem batch_of_visit {c : Walk} {info : ObjectInfo} {page : List ObjectInfo} {k : Key}
    (hk : k ∈ (c.visit indexPrefix info page).batch.map Prod.fst) :
    k ∈ c.batch.map Prod.fst ∨ (k = info.key ∧ underPrefix indexPrefix k = false) := by
  unfold Walk.visit at hk
  split at hk
  · exact Or.inl hk
  · rename_i hkeep
    rw [List.map_append, List.mem_append] at hk
    refine hk.imp_right fun hk => ?_
    obtain rfl : k = info.key := by simpa using hk
    exact ⟨rfl, by simpa using hkeep⟩

theorem unlisted_of_crawlStep {pageSize : Nat} {w w' : World β Unit} {c c' : Crawl}
    (hstep : CrawlStep indexPrefix pageSize w c w' c') (hbatch : c.Unreserved indexPrefix) :
    c'.Unreserved indexPrefix ∧
      ∀ f ∈ w'.db.files.rows, underPrefix indexPrefix f.key = true → f ∈ w.db.files.rows := by
  cases hstep with
  | started => exact ⟨fun k hk => absurd hk List.not_mem_nil, fun f hf _ => hf⟩
  | flushed hdb =>
    refine ⟨fun k hk => absurd hk List.not_mem_nil, fun f hf hunder => ?_⟩
    rw [(Db.upsertFilesWithDirectories_ok hdb).1] at hf
    rcases Files.mem_upsertFiles hf with ⟨hold, -⟩ | ⟨hmem, -⟩
    · exact hold
    · rw [hbatch f.key hmem] at hunder
      cases hunder
  | visited hpage => exact ⟨fun k hk => (batch_of_visit hk).elim (hbatch k) And.right, fun f hf _ => hf⟩
  | fetched _ _ => exact ⟨hbatch, fun f hf _ => hf⟩
  | swept _ _ _ hdb => exact ⟨trivial, fun f hf _ => ((mem_swept hdb).mp hf).1⟩

theorem Deriving.Unlisted.step {files : Files} {s t : Deriving β ι}
    (hs : s.Unlisted indexPrefix files) (h : DerivingStep indexPrefix s t) :
    t.Unlisted indexPrefix files := by
  cases h with
  | quiet hdb _ _ hcrawl =>
    refine ⟨hcrawl ▸ hs.batch, ?_⟩
    rw [hdb]
    exact hs.rows
  | restarted hworld hcrawl =>
    refine ⟨?_, hworld ▸ hs.rows⟩
    rw [hcrawl]
    trivial
  | wrote _ _ _ hworld hcrawl =>
    refine ⟨hcrawl ▸ hs.batch, ?_⟩
    rw [hworld]
    exact hs.rows
  | crawled hstep =>
    obtain ⟨hbatch, hrows⟩ := unlisted_of_crawlStep hstep hs.batch
    exact ⟨hbatch, fun f hf hunder => hs.rows f (hrows f hf hunder) hunder⟩

theorem Walk.Surveying.visited {w : World β Unit} {c : Walk} {info : ObjectInfo}
    {page : List ObjectInfo} (hc : c.Surveying indexPrefix w₀ w) (hpage : c.page = info :: page) :
    (c.visit indexPrefix info page).Surveying indexPrefix w₀ w where
  cutoff := by
    have hcutoff := hc.cutoff
    unfold Walk.visit
    split <;> exact hcutoff
  page x hx hkey := by
    have hrest : (c.visit indexPrefix info page).page = page := by
      unfold Walk.visit
      split <;> rfl
    exact hc.page x (hpage ▸ List.mem_cons_of_mem info (hrest ▸ hx)) hkey
  batch k hk := by
    rcases batch_of_visit hk with hk | ⟨rfl, hkeep⟩
    · exact hc.batch k hk
    · exact ⟨hc.page info (hpage ▸ List.mem_cons_self) hkeep, hkeep⟩
  covered k hk := (hc.covered k hk).visited hk.2 hpage

theorem Walk.Surveying.fetched {w : World β Unit} {c : Walk} (hc : c.Surveying indexPrefix w₀ w)
    (hpage : c.page = []) (pageSize : Nat)
    (hb : ∀ k, underPrefix indexPrefix k = false → w.bucket.lookup k = w₀.bucket.lookup k) :
    (c.fetch pageSize w.bucket).Surveying indexPrefix w₀ w where
  cutoff := hc.cutoff
  page info hinfo hkey := by
    obtain ⟨o, ho, -⟩ := Bucket.mem_objects.mp (Paging.mem_page hinfo).1
    rw [← hb info.key hkey, ho]
    simp
  batch := hc.batch
  covered k hk := (hc.covered k hk).imp_left fun hpend =>
    hpend.fetch hpage pageSize ((hb k hk.2).symm ▸ hk.1)

theorem surveying_of_crawlStep {pageSize : Nat} {w w' : World β Unit} {c c' : Crawl}
    (hstep : CrawlStep indexPrefix pageSize w c w' c')
    (hb : ∀ k, underPrefix indexPrefix k = false → w.bucket.lookup k = w₀.bucket.lookup k)
    (hc : c.Surveying indexPrefix w₀ w) : c'.Surveying indexPrefix w₀ w' := by
  cases hstep with
  | started =>
    refine ⟨le_refl _, fun x hx => absurd hx List.not_mem_nil,
      fun k hk => absurd hk List.not_mem_nil, fun k _ => Or.inl (Walk.pending_started _)⟩
  | flushed hdb =>
    exact ⟨hc.cutoff, hc.page, fun k hk => absurd hk List.not_mem_nil,
      fun k hk => (hc.covered k hk).flushed hc.cutoff hdb⟩
  | visited hpage => exact hc.visited hpage
  | fetched hpage _ => exact hc.fetched hpage pageSize hb
  | swept hpage hlast hbatch hdb =>
    intro k hk
    exact Option.ne_none_iff_exists'.mpr
      ((hc.covered k hk).owned_of_sweep hpage hlast hbatch hdb)

theorem registered_of_crawlStep {pageSize : Nat} {w w' : World β Unit} {c c' : Crawl}
    (hstep : CrawlStep indexPrefix pageSize w c w' c') (hc : c.Surveying indexPrefix w₀ w)
    (hreg : w.Registered indexPrefix w₀) :
    w'.Registered indexPrefix w₀ ∧ NoRowAdded w.db.files w'.db.files := by
  cases hstep with
  | started | visited _ | fetched _ _ => exact ⟨hreg, noRowAdded_refl _⟩
  | flushed hdb =>
    rename_i c n db
    have howner (k : Key) (hk : (w.cell k).owner ≠ none) :
        db.files.ownerAt k = w.db.files.ownerAt k := by
      rw [(Db.upsertFilesWithDirectories_ok hdb).1]
      exact Files.ownerAt_upsertFiles (Or.inr hk)
    refine ⟨fun k hk => ?_, fun f hf => ?_⟩
    · show db.files.ownerAt k ≠ none
      rw [howner k (hreg k hk)]
      exact hreg k hk
    · have hkey : (w.cell f.key).owner ≠ none := by
        have hfrom : f ∈ (w.db.files.upsertFiles w.now c.batch).2.rows :=
          (Db.upsertFilesWithDirectories_ok hdb).1 ▸ hf
        rcases Files.keys_upsertFiles.mp ⟨f, hfrom, rfl⟩ with ⟨g, hg, hgk⟩ | hmem
        · intro hnone
          exact Files.ownerAt_eq_none_iff.mp hnone g hg hgk
        · exact hreg f.key (hc.batch f.key hmem)
      have hid : db.files.ownerAt f.key = some f.id :=
        Files.ownerAt_eq_some_iff.mpr ⟨f, hf, rfl, rfl⟩
      rw [howner f.key hkey] at hid
      obtain ⟨g, hg, hgk, hgid⟩ := Files.ownerAt_eq_some_iff.mp hid
      exact ⟨g, hg, hgid, hgk⟩
  | swept hpage hlast hbatch hdb =>
    refine ⟨fun k hk => ?_, fun f hf => ⟨f, ((mem_swept hdb).mp hf).1, rfl, rfl⟩⟩
    exact Option.ne_none_iff_exists'.mpr
      ((hc.covered k hk).owned_of_sweep hpage hlast hbatch hdb)

theorem Deriving.Inv.step (hreserved : ∀ id, underPrefix indexPrefix (previewKey indexPrefix id) = true)
    {s t : Deriving β ι} (hs : s.Inv indexPrefix w₀) (h : DerivingStep indexPrefix s t) :
    t.Inv indexPrefix w₀ := by
  have hkept (hdb : t.world.db = s.world.db) (hnow : s.world.now ≤ t.world.now)
      (hcrawl : t.crawl = s.crawl) : t.crawl.Surveying indexPrefix w₀ t.world := by
    have hc := hs.crawl
    rw [hcrawl]
    cases hsc : s.crawl with
    | databaseNow => trivial
    | walking c =>
      rw [hsc] at hc
      refine ⟨hc.cutoff.trans hnow, hc.page, hc.batch, fun k hk => ?_⟩
      have hcovered := hc.covered k hk
      rwa [Walk.Covers, ← hdb] at hcovered
    | finished n =>
      rw [hsc] at hc
      intro k hk
      simpa only [World.cell, hdb] using hc k hk
  cases h with
  | quiet hdb hbucket hnow hcrawl => exact ⟨hbucket ▸ hs.bucket, hkept hdb hnow hcrawl⟩
  | restarted hworld hcrawl =>
    refine ⟨hworld ▸ hs.bucket, ?_⟩
    rw [hcrawl]
    trivial
  | wrote now id bytes hworld hcrawl =>
    refine ⟨fun k hk => ?_, hkept (hworld ▸ rfl) (hworld ▸ le_refl _) hcrawl⟩
    have hne : k ≠ previewKey indexPrefix id := by
      rintro rfl
      rw [hreserved id] at hk
      cases hk
    rw [hworld, Bucket.lookup_put, if_neg hne]
    exact hs.bucket k hk
  | crawled hstep =>
    refine ⟨?_, surveying_of_crawlStep hstep hs.bucket hs.crawl⟩
    rw [world_of_crawlStep hstep]
    exact hs.bucket

theorem Deriving.Settled.step
    (hreserved : ∀ id, underPrefix indexPrefix (previewKey indexPrefix id) = true)
    {files : Files} {s t : Deriving β ι} (hs : s.Settled indexPrefix w₀ files)
    (h : DerivingStep indexPrefix s t) : t.Settled indexPrefix w₀ files := by
  have hsame (hdb : t.world.db = s.world.db) :
      t.world.Registered indexPrefix w₀ ∧ NoRowAdded files t.world.db.files := by
    refine ⟨fun k hk => ?_, hdb ▸ hs.rows⟩
    simpa only [World.cell, hdb] using hs.registered k hk
  have hnext : t.world.Registered indexPrefix w₀ ∧ NoRowAdded files t.world.db.files := by
    cases h with
    | quiet hdb _ _ _ => exact hsame hdb
    | restarted hworld _ | wrote _ _ _ hworld _ => exact hsame (by rw [hworld])
    | crawled hstep =>
      obtain ⟨hreg, hrows⟩ := registered_of_crawlStep hstep hs.inv.crawl hs.registered
      exact ⟨hreg, hs.rows.trans hrows⟩
  exact ⟨hs.inv.step hreserved h, hnext.1, hnext.2⟩

end Invariant

section Run

variable {β ι : Type} [DecidableEq ι]

theorem underPrefix_previewKey {indexPrefix : Key} (hne : indexPrefix ≠ [])
    (hres : indexPrefix <+: previewPrefix indexPrefix) (id : FileID) :
    underPrefix indexPrefix (previewKey indexPrefix id) = true := by
  have hkey : indexPrefix <+: previewKey indexPrefix id := by
    rw [previewKey_eq]
    exact hres.trans (List.prefix_append _ _)
  simp [underPrefix, hne, List.isPrefixOf_iff_prefix, hkey]

theorem derived_of_reserved {indexPrefix : Key} (hne : indexPrefix ≠ [])
    (hres : indexPrefix <+: previewPrefix indexPrefix) : DerivedStaysDerived β ι indexPrefix := by
  have hunder := underPrefix_previewKey hne hres
  refine ⟨fun id => ?_, hres, ?_, ?_, ?_⟩
  · rw [previewKey_eq]
    exact List.prefix_append _ _
  · intro c info page id hinfo
    simp [Walk.visit, hinfo, hunder id]
  · intro render cfg batchSize s hs as
    have hstep : Transition.Preserves (Deriving.step indexPrefix render cfg batchSize)
        (fun _ _ => True) (Deriving.Unlisted indexPrefix s.world.db.files (β := β) (ι := ι)) :=
      fun s a t hs _ h => hs.step (derivingStep_of_step h)
    have hstart : s.Unlisted indexPrefix s.world.db.files := by
      refine ⟨?_, fun f hf _ => ⟨f, hf, rfl, rfl⟩⟩
      rw [hs]
      trivial
    refine (Transition.everyState_of_preserves hstep as hstart
      (Transition.everyStep_of_forall (fun _ _ => trivial) as)).mono fun t ht f hf id hkey => ?_
    exact ht.rows f hf (hkey ▸ hunder id)
  · intro render cfg batchSize s t as n hs hrun hdone bs
    have hinv : Transition.Preserves (Deriving.step indexPrefix render cfg batchSize)
        (fun _ _ => True) (Deriving.Inv indexPrefix s.world (β := β) (ι := ι)) :=
      fun s a t hs _ h => hs.step hunder (derivingStep_of_step h)
    have hsettled : Transition.Preserves (Deriving.step indexPrefix render cfg batchSize)
        (fun _ _ => True)
        (Deriving.Settled indexPrefix s.world t.world.db.files (β := β) (ι := ι)) :=
      fun s a t hs _ h => hs.step hunder (derivingStep_of_step h)
    have hstart : s.Inv indexPrefix s.world := by
      refine ⟨fun _ _ => rfl, ?_⟩
      rw [hs]
      trivial
    have hend := hinv.exec hstart hrun
    have hreg : t.world.Registered indexPrefix s.world := by
      have hc := hend.crawl
      rwa [hdone] at hc
    exact (Transition.everyState_of_preserves hsettled bs ⟨hend, hreg, noRowAdded_refl _⟩
      (Transition.everyStep_of_forall (fun _ _ => trivial) bs)).mono fun u hu => hu.rows

theorem derived_stays_derived_iff {indexPrefixEnv : Key}
    (h : normalizeIndexPrefix indexPrefixEnv ≠ []) :
    DerivedStaysDerived β ι (normalizeIndexPrefix indexPrefixEnv) ↔
      Path.clean (trim indexPrefixEnv) = trim indexPrefixEnv ∧
        trim indexPrefixEnv ≠ ascii "." := by
  have hreserved : normalizeIndexPrefix indexPrefixEnv <+:
        previewPrefix (normalizeIndexPrefix indexPrefixEnv) ↔
      underPrefix (normalizeIndexPrefix indexPrefixEnv)
        (previewPrefix (normalizeIndexPrefix indexPrefixEnv)) = true := by
    simp [underPrefix, h, List.isPrefixOf_iff_prefix]
  rw [clean_fixed_iff, ← underPrefix_preview_iff, ← hreserved]
  exact ⟨DerivedStaysDerived.reserved, derived_of_reserved h⟩

end Run

section Doubled

instance NoRowAdded.decidable (before after : Files) : Decidable (NoRowAdded before after) :=
  inferInstanceAs (Decidable (∀ f ∈ after.rows, ∃ g ∈ before.rows, g.id = f.id ∧ g.key = f.key))

def uncrawledPhoto : Deriving String Unit where
  indexing :=
    { db := ⟨Files.empty, fun _ => none, ∅⟩
      bucket := (∅ : Bucket String).put 0 (ascii "p") "photo"
      workers _ := .idle
      now := 1
      provenance _ := none }
  directories := ∅
  crawl := .databaseNow

def thumbnail (bytes : String) : Option (String × Int × Int) := some (bytes, 1, 1)

def oneCrawl (objects : Nat) : List (DerivingAction String Unit) :=
  List.replicate (objects + 4) (.crawl 1000)

def seedAndProcess : List (DerivingAction String Unit) :=
  [.indexing .seedIndexQueue, .indexing (.claim () [1]), .process () ⟨false, .none, []⟩]

theorem preview_of_doubled_prefix_listed : normalizeIndexPrefix (ascii "a//b") ≠ [] ∧
    ¬DerivedStaysDerived String Unit (normalizeIndexPrefix (ascii "a//b")) := by
  refine ⟨by decide, fun h => ?_⟩
  have hsettled := h.settled thumbnail ⟨10, 5, 600, 30, 3600⟩ defaultBatchSize uncrawledPhoto _
    (oneCrawl 1) 0 rfl rfl rfl (seedAndProcess ++ .runCrawler :: oneCrawl 2)
  exact absurd hsettled (by decide)

theorem dotted_prefix_stays_derived :
    DerivedStaysDerived String Unit (normalizeIndexPrefix (ascii ".index/")) :=
  (derived_stays_derived_iff (by decide)).mpr (by decide)

end Doubled

end FileIndexer
