import FileIndexer.Service.Crawler.Reconcile

namespace FileIndexer

def Crawl.isFinished : Crawl → Bool
  | .finished _ => true
  | _ => false

-- one call of Crawler.Run, on any listing that Walk may hand out
inductive CrawlerRun (β ι : Type) where
  | running (w : World β ι) (c : Crawl)
  | failed (w : World β ι) (swept : Bool)

inductive RunAction where
  | step (fault : Fault)
  | tick (d : Nat)

section System

variable {β ι : Type} (ignorePrefix : Key) (batchSize : Nat) (listing : List ObjectInfo)

def listedStep (w : World β ι) : Crawl → Option (World β ι × Crawl)
  | .databaseNow => some (w, .walking ⟨w.now, none, listing, false, []⟩)
  | .walking c => crawlStep ignorePrefix batchSize 0 w (.walking c)
  | .finished _ => none

-- a call that fails takes effect or not; either way Run returns its error and does nothing more
def CrawlerRun.step : CrawlerRun β ι → RunAction → Option (CrawlerRun β ι)
  | .running w c, .step fault =>
    match listedStep ignorePrefix batchSize listing w c, fault with
    | none, _ => none
    | some next, .none => some (.running next.1 next.2)
    | some _, .before => some (.failed w false)
    | some next, .after => some (.failed next.1 next.2.isFinished)
  | .running w c, .tick d => some (.running { w with now := w.now + d } c)
  | .failed _ _, _ => none

end System

section Marks

variable {β ι : Type} {ignorePrefix : Key} {w₀ w : World β ι}

def World.Marked (w₀ : World β ι) (g : File) : Prop :=
  ∃ info ∈ w₀.bucket.objects, info.key = g.key ∧ w₀.db.files.MarkedBy g info.lastModified

structure World.Kept (w₀ w : World β ι) : Prop where
  rows : ∀ f ∈ w₀.db.files.rows,
    ∃ g ∈ w.db.files.rows, g.id = f.id ∧ g.key = f.key ∧ f.markedAt ≤ g.markedAt

structure World.Reconciled (ignorePrefix : Key) (w₀ w : World β ι) : Prop where
  keys : ∀ k, (∃ f ∈ w.db.files.rows, f.key = k) ↔ w₀.Listed ignorePrefix k
  marked : ∀ g ∈ w.db.files.rows, w₀.Marked g
  directories : w.db.DirectoriesExact

structure Walk.Marking (w₀ w : World β ι) (c : Walk) : Prop where
  page : ∀ info ∈ c.page, info ∈ w₀.bucket.objects
  batch : ∀ row ∈ c.batch, (⟨row.1, row.2⟩ : ObjectInfo) ∈ w₀.bucket.objects
  stamped : ∀ g ∈ w.db.files.rows, c.cutoff ≤ g.seenAt → w₀.Marked g
  unstamped : ∀ g ∈ w.db.files.rows, g.seenAt < c.cutoff → g ∈ w₀.db.files.rows
  kept : w₀.Kept w
  implied : ∀ g ∈ w.db.files.rows, c.cutoff ≤ g.seenAt → ∀ p, Holds p g.key → p ∈ w.db.directories
  dirs : ∀ p ∈ w.db.directories, hasSlashSuffix p = true

theorem World.Marked.remarked {f g : File} {m : Time} (h : w₀.Marked f)
    (hm : (⟨g.key, m⟩ : ObjectInfo) ∈ w₀.bucket.objects) (hkey : f.key = g.key) (hid : f.id = g.id)
    (hmark : g.markedAt = max f.markedAt m) : w₀.Marked g := by
  obtain ⟨info, hinfo, hik, hold⟩ := h
  obtain rfl : info = ⟨g.key, m⟩ :=
    Rows.eq_of_pk (Bucket.nodup_objects w₀.bucket) hinfo hm (hik.trans hkey)
  refine ⟨_, hm, rfl, hold.imp ?_ ?_⟩
  · rintro ⟨f₀, hf₀, hk₀, hid₀, hmark₀⟩
    refine ⟨f₀, hf₀, hk₀.trans hkey, hid₀.trans hid, ?_⟩
    rw [hmark, hmark₀, max_assoc, max_self]
  · rintro ⟨hnew, hmark₀⟩
    exact ⟨fun f₀ hf₀ => hkey ▸ hnew f₀ hf₀, by rw [hmark, hmark₀, max_self]⟩

theorem World.Kept.trans {w₁ : World β ι} (h : w₀.Kept w) (h' : w.Kept w₁) : w₀.Kept w₁ where
  rows f hf := by
    obtain ⟨g, hg, hid, hkey, hmark⟩ := h.rows f hf
    obtain ⟨e, he, hid', hkey', hmark'⟩ := h'.rows g hg
    exact ⟨e, he, hid'.trans hid, hkey'.trans hkey, hmark.trans hmark'⟩

theorem World.kept_of_files (h : w.db.files = w₀.db.files) : w₀.Kept w where
  rows f hf := ⟨f, h ▸ hf, rfl, rfl, le_refl _⟩

theorem Walk.Marking.flushed {c : Walk} {n : Nat} {db : Db} (hc : c.Marking w₀ w)
    (hcutoff : c.cutoff ≤ w.now) (h : w.db.upsertFilesWithDirectories w.now c.batch = .ok (n, db)) :
    { c with batch := [] }.Marking w₀ { w with db } := by
  obtain ⟨hfiles, hdirs⟩ := Db.upsertFilesWithDirectories_ok h
  have hkept : w.Kept { w with db } := ⟨fun f hf => by
    rw [hfiles]
    exact Files.grown_upsertFiles hf⟩
  have hrows (g : File) (hg : g ∈ db.files.rows) :
      (g ∈ w.db.files.rows ∧ g.key ∉ c.batch.map Prod.fst) ∨
      (g.key ∈ c.batch.map Prod.fst ∧ g.seenAt = w.now) := Files.mem_upsertFiles (hfiles ▸ hg)
  refine ⟨hc.page, fun row hrow => absurd hrow List.not_mem_nil, fun g hg hseen => ?_,
    fun g hg hseen => ?_, hc.kept.trans hkept, fun g hg hseen p hp => ?_, fun p hp => ?_⟩
  · rcases Files.marked_upsertFiles (hfiles ▸ hg) with ⟨hold, -⟩ | ⟨m, hm, hmark⟩
    · exact hc.stamped g hold hseen
    · have hinfo := hc.batch _ hm
      rcases hmark with ⟨f, hf, hkey, hid, hmark⟩ | ⟨hnew, hmark⟩
      · rcases le_or_gt c.cutoff f.seenAt with hstamped | hunstamped
        · exact (hc.stamped f hf hstamped).remarked hinfo hkey hid hmark
        · exact ⟨_, hinfo, rfl, Or.inl ⟨f, hc.unstamped f hf hunstamped, hkey, hid, hmark⟩⟩
      · refine ⟨_, hinfo, rfl, Or.inr ⟨fun f₀ hf₀ hk => ?_, hmark⟩⟩
        obtain ⟨f, hf, -, hfk, -⟩ := hc.kept.rows f₀ hf₀
        exact hnew f hf (hfk.trans hk)
  · rcases hrows g hg with ⟨hold, -⟩ | ⟨-, hnow⟩
    · exact hc.unstamped g hold hseen
    · exact absurd (hnow ▸ hseen) (not_lt.mpr hcutoff)
  · have hmem : p ∈ db.directories := by
      rw [hdirs, Directories.upsertDirectoriesForKeys, Finset.mem_union]
      rcases hrows g hg with ⟨hold, -⟩ | ⟨hbatch, -⟩
      · exact Or.inl (hc.implied g hold hseen p hp)
      · exact Or.inr (Directories.mem_impliedBy.mpr ⟨g.key, hbatch, hp⟩)
    exact hmem
  · have hmem : p ∈ db.directories := hp
    rw [hdirs, Directories.upsertDirectoriesForKeys, Finset.mem_union] at hmem
    rcases hmem with hold | himplied
    · exact hc.dirs p hold
    · obtain ⟨k, -, hk⟩ := Directories.mem_impliedBy.mp himplied
      exact hk.2.1

theorem Walk.Marking.visited {c : Walk} {info : ObjectInfo} {page : List ObjectInfo}
    (hc : c.Marking w₀ w) (hpage : c.page = info :: page) :
    (c.visit ignorePrefix info page).Marking w₀ w := by
  have hrest (x : ObjectInfo) (hx : x ∈ page) : x ∈ w₀.bucket.objects :=
    hc.page x (hpage ▸ List.mem_cons_of_mem info hx)
  unfold Walk.visit
  split
  · exact { hc with page := hrest }
  · refine { hc with page := hrest, batch := fun row hrow => ?_ }
    rcases List.mem_append.mp hrow with hrow | hrow
    · exact hc.batch row hrow
    · obtain rfl := List.mem_singleton.mp hrow
      exact hc.page info (hpage ▸ List.mem_cons_self)

theorem Walk.Marking.swept {c : Walk} {n : Nat} {db : Db} (hc : c.Marking w₀ w)
    (hrec : c.Reconciling ignorePrefix w₀ w) (hpage : c.page = []) (hlast : c.isTruncated = false)
    (hbatch : c.batch = []) (h : w.db.deleteUnseenFilesWithDirectories c.cutoff = .ok (n, db)) :
    w₀.Reconciled ignorePrefix { w with db } where
  keys k := by
    rw [← hrec.swept hpage hlast hbatch h k]
    constructor
    · rintro ⟨f, hf, rfl⟩
      exact ⟨f.id, Files.ownerAt_eq_some_iff.mpr ⟨f, hf, rfl, rfl⟩⟩
    · rintro ⟨id, hid⟩
      obtain ⟨f, hf, hk, -⟩ := Files.ownerAt_eq_some_iff.mp hid
      exact ⟨f, hf, hk⟩
  marked g hg := by
    obtain ⟨hold, hseen⟩ := (mem_swept h).mp hg
    exact hc.stamped g hold hseen
  directories := by
    obtain ⟨-, hdirs⟩ := Db.deleteUnseenFilesWithDirectories_ok h
    intro p
    simp only [hdirs, Directories.pruneOrphanDirectories, Finset.mem_filter, Bool.not_eq_false]
    constructor
    · rintro ⟨hp, hoccupied⟩
      exact (Directories.occupied_iff (hc.dirs p hp)).mp hoccupied
    · rintro ⟨g, hg, hholds⟩
      obtain ⟨hold, hseen⟩ := (mem_swept h).mp hg
      exact ⟨hc.implied g hold hseen p hholds,
        (Directories.occupied_iff hholds.2.1).mpr ⟨g, hg, hholds⟩⟩

end Marks

section Runs

variable {β ι : Type} {ignorePrefix : Key} {batchSize : Nat} {listing : List ObjectInfo}
  {w₀ w : World β ι}

def Crawl.Running (ignorePrefix : Key) (w₀ w : World β ι) : Crawl → Prop
  | .databaseNow => w.db = w₀.db ∧ w₀.now ≤ w.now
  | .walking c => c.isTruncated = false ∧ c.Reconciling ignorePrefix w₀ w ∧ c.Marking w₀ w
  | .finished _ => w₀.Reconciled ignorePrefix w

def CrawlerRun.Inv (ignorePrefix : Key) (w₀ : World β ι) : CrawlerRun β ι → Prop
  | .running w c => w.bucket = w₀.bucket ∧ c.Running ignorePrefix w₀ w
  | .failed w false => w₀.Kept w
  | .failed w true => w₀.Reconciled ignorePrefix w

theorem Crawl.Running.kept {c : Crawl} (h : c.Running ignorePrefix w₀ w)
    (hc : c.isFinished = false) : w₀.Kept w := by
  cases c with
  | databaseNow => exact World.kept_of_files (congrArg Db.files h.1)
  | walking c => exact h.2.2.kept
  | finished n => cases hc

theorem Crawl.Running.tick {c : Crawl} (h : c.Running ignorePrefix w₀ w) (d : Nat) :
    c.Running ignorePrefix w₀ { w with now := w.now + d } := by
  have hnow : w.now ≤ w.now + d := Int.le_add_of_nonneg_right (Int.natCast_nonneg d)
  cases c with
  | databaseNow => exact ⟨h.1, h.2.trans hnow⟩
  | walking c =>
    obtain ⟨hlast, hrec, hmark⟩ := h
    exact ⟨hlast, ⟨hrec.cutoff.trans hnow, hrec.page, hrec.batch, hrec.stamped, hrec.covered⟩,
      { hmark with kept := ⟨hmark.kept.rows⟩ }⟩
  | finished n => exact ⟨h.keys, h.marked, h.directories⟩

theorem walking_started (hlisting : ∀ info, info ∈ listing ↔ info ∈ w₀.bucket.objects)
    (hseen : ∀ f ∈ w₀.db.files.rows, f.seenAt < w₀.now)
    (hdirs : ∀ p ∈ w₀.db.directories, hasSlashSuffix p = true)
    (h : Crawl.Running ignorePrefix w₀ w .databaseNow) :
    Crawl.Running ignorePrefix w₀ w (.walking ⟨w.now, none, listing, false, []⟩) := by
  obtain ⟨hdb, hnow⟩ := h
  have hold : ∀ f ∈ w.db.files.rows, f.seenAt < w.now := fun f hf =>
    (hseen f (hdb ▸ hf)).trans_le hnow
  refine ⟨rfl, ⟨le_refl _, fun info hinfo => ?_, ?_, fun f hf hs => ?_, fun k hk => ?_⟩,
    ⟨fun info hinfo => (hlisting info).mp hinfo, ?_, fun f hf hs => ?_, fun f hf _ => hdb ▸ hf,
      World.kept_of_files (congrArg Db.files hdb), fun f hf hs => ?_, hdb ▸ hdirs⟩⟩
  · obtain ⟨o, ho, -⟩ := Bucket.mem_objects.mp ((hlisting info).mp hinfo)
    simp [ho]
  · exact fun k hk => absurd hk List.not_mem_nil
  · exact absurd hs (not_le.mpr (hold f hf))
  · obtain ⟨o, ho⟩ := Option.ne_none_iff_exists'.mp hk.1
    have hobj : (⟨k, o.lastModified⟩ : ObjectInfo) ∈ w₀.bucket.objects :=
      Bucket.mem_objects.mpr ⟨o, ho, rfl⟩
    exact Or.inl (Or.inl ⟨_, (hlisting _).mpr hobj, rfl⟩)
  · exact fun row hrow => absurd hrow List.not_mem_nil
  · exact absurd hs (not_le.mpr (hold f hf))
  · exact absurd hs (not_le.mpr (hold f hf))

theorem Crawl.Running.crawl {c : Walk} {w' : World β ι} {c' : Crawl}
    (h : Crawl.Running ignorePrefix w₀ w (.walking c))
    (hstep : CrawlStep ignorePrefix 0 w (.walking c) w' c') :
    w'.bucket = w.bucket ∧ c'.Running ignorePrefix w₀ w' := by
  obtain ⟨hlast, hrec, hmark⟩ := h
  cases hstep with
  | flushed hdb => exact ⟨rfl, hlast, hrec.flushed hdb, hmark.flushed hrec.cutoff hdb⟩
  | @visited _ info page hpage =>
    refine ⟨rfl, ?_, hrec.visited hpage, hmark.visited hpage⟩
    unfold Walk.visit
    split
    · exact hlast
    · exact hlast
  | fetched _ hmore =>
    rw [hlast] at hmore
    cases hmore
  | swept hpage _ hbatch hdb => exact ⟨rfl, hmark.swept hrec hpage hlast hbatch hdb⟩

theorem listedStep_running (hlisting : ∀ info, info ∈ listing ↔ info ∈ w₀.bucket.objects)
    (hseen : ∀ f ∈ w₀.db.files.rows, f.seenAt < w₀.now)
    (hdirs : ∀ p ∈ w₀.db.directories, hasSlashSuffix p = true) {c : Crawl} {next : World β ι × Crawl}
    (h : c.Running ignorePrefix w₀ w)
    (hstep : listedStep ignorePrefix batchSize listing w c = some next) :
    c.isFinished = false ∧ next.1.bucket = w.bucket ∧ next.2.Running ignorePrefix w₀ next.1 := by
  cases c with
  | databaseNow =>
    obtain rfl := Option.some.inj hstep
    exact ⟨rfl, rfl, walking_started hlisting hseen hdirs h⟩
  | walking c => exact ⟨rfl, h.crawl (crawlStep_of_step hstep)⟩
  | finished n => cases hstep

theorem CrawlerRun.inv_preserved (hlisting : ∀ info, info ∈ listing ↔ info ∈ w₀.bucket.objects)
    (hseen : ∀ f ∈ w₀.db.files.rows, f.seenAt < w₀.now)
    (hdirs : ∀ p ∈ w₀.db.directories, hasSlashSuffix p = true) :
    Transition.Preserves (CrawlerRun.step ignorePrefix batchSize listing) (fun _ _ => True)
      (CrawlerRun.Inv (ι := ι) ignorePrefix w₀) := by
  intro s a t hs _ ht
  cases s with
  | failed w swept => cases ht
  | running w c =>
    obtain ⟨hbucket, hrun⟩ := hs
    cases a with
    | tick d =>
      obtain rfl := Option.some.inj ht
      exact ⟨hbucket, hrun.tick d⟩
    | step fault =>
      simp only [CrawlerRun.step] at ht
      cases hnext : listedStep ignorePrefix batchSize listing w c with
      | none => simp [hnext] at ht
      | some next =>
        obtain ⟨hc, hb, hnext'⟩ := listedStep_running hlisting hseen hdirs hrun hnext
        rw [hnext] at ht
        cases fault with
        | none =>
          obtain rfl := Option.some.inj ht
          exact ⟨hb.trans hbucket, hnext'⟩
        | before =>
          obtain rfl := Option.some.inj ht
          exact hrun.kept hc
        | after =>
          obtain rfl := Option.some.inj ht
          obtain ⟨w', c'⟩ := next
          cases c' with
          | databaseNow => exact hnext'.kept rfl
          | walking c' => exact hnext'.kept rfl
          | finished n => exact hnext'

-- the last case is a sweep that commits and still reports an error
theorem crawler_run_reconciles (hlisting : ∀ info, info ∈ listing ↔ info ∈ w.bucket.objects)
    (hseen : ∀ f ∈ w.db.files.rows, f.seenAt < w.now)
    (hdirs : ∀ p ∈ w.db.directories, hasSlashSuffix p = true) (as : List RunAction) :
    (∀ w' n, Transition.exec (CrawlerRun.step ignorePrefix batchSize listing)
        (.running w .databaseNow) as = some (.running w' (.finished n)) →
      w.Reconciled ignorePrefix w') ∧
    (∀ w', Transition.exec (CrawlerRun.step ignorePrefix batchSize listing)
        (.running w .databaseNow) as = some (.failed w' false) → w.Kept w') ∧
    ∀ w', Transition.exec (CrawlerRun.step ignorePrefix batchSize listing)
        (.running w .databaseNow) as = some (.failed w' true) → w.Reconciled ignorePrefix w' := by
  have hstart : CrawlerRun.Inv ignorePrefix w (.running w .databaseNow) := ⟨rfl, rfl, le_refl _⟩
  have hinv : Transition.Preserves (CrawlerRun.step ignorePrefix batchSize listing)
      (fun _ _ => True) (CrawlerRun.Inv (ι := ι) ignorePrefix w) :=
    CrawlerRun.inv_preserved hlisting hseen hdirs
  refine ⟨fun w' n he => ?_, fun w' he => ?_, fun w' he => ?_⟩
  · exact (hinv.exec hstart he).2
  · exact hinv.exec hstart he
  · exact hinv.exec hstart he

end Runs

section Witness

def shelfWorld : World String Unit where
  db := ⟨⟨[⟨1, ascii "a", 0, 9, 0⟩, ⟨2, ascii "b/gone", 0, 0, 0⟩], 3, by decide, by decide, by decide⟩,
    {ascii "b/"}⟩
  previewKeys _ := none
  bucket := ((∅ : Bucket String).put 4 (ascii "a") "photo").put 4 (ascii ".index/1") "preview"
  locks _ := none
  now := 5

def shelfListing : List ObjectInfo := ⟨ascii "a", 4⟩ :: shelfWorld.bucket.objects

theorem shelf_reconciled :
    ∃ w' n, Transition.exec (CrawlerRun.step (ascii ".index/") 1 shelfListing)
        (.running shelfWorld .databaseNow) (List.replicate 7 (.step .none)) =
          some (.running w' (.finished n)) ∧
      shelfWorld.Reconciled (ascii ".index/") w' := by
  have hrun : ∃ w' n, Transition.exec (CrawlerRun.step (ascii ".index/") 1 shelfListing)
      (.running shelfWorld .databaseNow) (List.replicate 7 (.step .none)) =
        some (.running w' (.finished n)) := ⟨_, _, rfl⟩
  have hlisting : ∀ info, info ∈ shelfListing ↔ info ∈ shelfWorld.bucket.objects := fun info => by
    have ha : (⟨ascii "a", 4⟩ : ObjectInfo) ∈ shelfWorld.bucket.objects := by decide
    constructor
    · intro h
      rcases List.mem_cons.mp h with rfl | h
      · exact ha
      · exact h
    · exact List.mem_cons_of_mem _
  obtain ⟨w', n, hw'⟩ := hrun
  exact ⟨w', n, hw', (crawler_run_reconciles hlisting (by decide) (by decide) _).1 w' n hw'⟩

end Witness

end FileIndexer
