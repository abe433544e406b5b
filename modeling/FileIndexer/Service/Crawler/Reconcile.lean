import FileIndexer.Foundation.Runs
import FileIndexer.Service.Crawler.Sweep

namespace FileIndexer

structure Crawling (β ι : Type) where
  world : World β ι
  crawl : Crawl

inductive CrawlingAction where
  | crawl (pageSize : Nat)
  | tick (d : Nat)

section System

variable {β ι : Type} (ignorePrefix : Key) (batchSize : Nat)

def Crawling.step (s : Crawling β ι) : CrawlingAction → Option (Crawling β ι)
  | .crawl pageSize =>
    (crawlStep ignorePrefix batchSize pageSize s.world s.crawl).map fun (w, c) => ⟨w, c⟩
  | .tick d => some { s with world := { s.world with now := s.world.now + d } }

def World.Listed (w : World β ι) (key : Key) : Prop :=
  w.bucket.lookup key ≠ none ∧ underPrefix ignorePrefix key = false

end System

section Invariant

variable {β ι : Type} {ignorePrefix : Key} {batchSize : Nat} {w₀ : World β ι}

structure Walk.Reconciling (ignorePrefix : Key) (w₀ w : World β ι) (c : Walk) : Prop where
  cutoff : c.cutoff ≤ w.now
  page : ∀ info ∈ c.page, w₀.bucket.lookup info.key ≠ none
  batch : ∀ k ∈ c.batch.map Prod.fst, w₀.Listed ignorePrefix k
  stamped : ∀ f ∈ w.db.files.rows, c.cutoff ≤ f.seenAt → w₀.Listed ignorePrefix f.key
  covered : ∀ k, w₀.Listed ignorePrefix k →
    c.pending k ∨ ∃ f ∈ w.db.files.rows, f.key = k ∧ c.cutoff ≤ f.seenAt

def Crawl.Reconciling (ignorePrefix : Key) (w₀ w : World β ι) : Crawl → Prop
  | .databaseNow => ∀ f ∈ w.db.files.rows, f.seenAt < w.now
  | .walking c => c.Reconciling ignorePrefix w₀ w
  | .finished _ => ∀ k, (w.cell k).owner ≠ none ↔ w₀.Listed ignorePrefix k

structure Crawling.Inv (ignorePrefix : Key) (w₀ : World β ι) (s : Crawling β ι) : Prop where
  bucket : s.world.bucket = w₀.bucket
  kept : ∀ k id, w₀.Listed ignorePrefix k → (w₀.cell k).owner = some id →
    (s.world.cell k).owner = some id
  crawl : s.crawl.Reconciling ignorePrefix w₀ s.world

theorem stamped_of_upsert {w : World β ι} {n : Nat} {db : Db} {arg : UpsertFilesParams} {k : Key}
    (h : w.db.upsertFilesWithDirectories w.now arg = .ok (n, db)) (hk : k ∈ arg.map Prod.fst) :
    ∃ f ∈ db.files.rows, f.key = k ∧ f.seenAt = w.now := by
  rw [(Db.upsertFilesWithDirectories_ok h).1]
  obtain ⟨f, hf, rfl⟩ := Files.keys_upsertFiles.mpr (Or.inr hk)
  rcases Files.mem_upsertFiles hf with ⟨-, hnot⟩ | ⟨-, hseen⟩
  · exact absurd hk hnot
  · exact ⟨f, hf, rfl, hseen⟩

theorem unchanged_of_upsert {w : World β ι} {n : Nat} {db : Db} {arg : UpsertFilesParams} {f : File}
    (h : w.db.upsertFilesWithDirectories w.now arg = .ok (n, db)) (hf : f ∈ w.db.files.rows)
    (hk : f.key ∉ arg.map Prod.fst) : f ∈ db.files.rows := by
  rw [(Db.upsertFilesWithDirectories_ok h).1]
  obtain ⟨g, hg, hgk⟩ := Files.keys_upsertFiles.mpr (Or.inl ⟨f, hf, rfl⟩)
  rcases Files.mem_upsertFiles hg with ⟨hold, -⟩ | ⟨hmem, -⟩
  · exact Files.eq_of_key hold hf hgk ▸ hg
  · exact absurd (hgk ▸ hmem) hk

theorem owner_kept_of_upsert {w : World β ι} {n : Nat} {db : Db} {arg : UpsertFilesParams} {k : Key}
    {id : FileID} (h : w.db.upsertFilesWithDirectories w.now arg = .ok (n, db))
    (ho : (w.cell k).owner = some id) : (World.cell { w with db } k).owner = some id := by
  have hne : w.db.files.ownerAt k ≠ none := by
    rw [show w.db.files.ownerAt k = some id from ho]
    simp
  simp only [World.cell, (Db.upsertFilesWithDirectories_ok h).1]
  rw [Files.ownerAt_upsertFiles (Or.inr hne)]
  exact ho

def Walk.Covers (c : Walk) (w : World β ι) (k : Key) : Prop :=
  c.pending k ∨ ∃ f ∈ w.db.files.rows, f.key = k ∧ c.cutoff ≤ f.seenAt

theorem Walk.Covers.flushed {w : World β ι} {c : Walk} {n : Nat} {db : Db} {k : Key}
    (hk : c.Covers w k) (hcutoff : c.cutoff ≤ w.now)
    (h : w.db.upsertFilesWithDirectories w.now c.batch = .ok (n, db)) :
    { c with batch := [] }.Covers { w with db } k := by
  cases Decidable.em (k ∈ c.batch.map Prod.fst) with
  | inl hbatch =>
    obtain ⟨f, hf, hfk, hseen⟩ := stamped_of_upsert h hbatch
    exact Or.inr ⟨f, hf, hfk, hseen ▸ hcutoff⟩
  | inr hbatch =>
    refine hk.imp (fun hpend => hpend.flushed hbatch) ?_
    rintro ⟨f, hf, rfl, hseen⟩
    exact ⟨f, unchanged_of_upsert h hf hbatch, rfl, hseen⟩

theorem Walk.Covers.visited {w : World β ι} {c : Walk} {info : ObjectInfo} {page : List ObjectInfo}
    {k : Key} (hk : c.Covers w k) (hlisted : underPrefix ignorePrefix k = false)
    (hpage : c.page = info :: page) : (c.visit ignorePrefix info page).Covers w k := by
  refine hk.imp (fun hpend => hpend.visit hlisted hpage) fun h => ?_
  rwa [Walk.cutoff_visit]

theorem mem_swept {w : World β ι} {cutoff : Time} {n : Nat} {db : Db} {f : File}
    (h : w.db.deleteUnseenFilesWithDirectories cutoff = .ok (n, db)) :
    f ∈ db.files.rows ↔ f ∈ w.db.files.rows ∧ cutoff ≤ f.seenAt := by
  rw [(Db.deleteUnseenFilesWithDirectories_ok h).1, Files.mem_deleteWhere]
  simp

theorem Walk.Covers.owned_of_sweep {w : World β ι} {c : Walk} {n : Nat} {db : Db} {k : Key}
    (hk : c.Covers w k) (hpage : c.page = []) (hlast : c.isTruncated = false) (hbatch : c.batch = [])
    (h : w.db.deleteUnseenFilesWithDirectories c.cutoff = .ok (n, db)) :
    ∃ id, (World.cell { w with db } k).owner = some id := by
  obtain ⟨f, hf, hfk, hseen⟩ := hk.resolve_left (Walk.not_pending hpage hlast hbatch)
  exact ⟨f.id, Files.ownerAt_eq_some_iff.mpr ⟨f, (mem_swept h).mpr ⟨hf, hseen⟩, hfk, rfl⟩⟩

theorem Walk.Reconciling.flushed {w : World β ι} {c : Walk} {n : Nat} {db : Db}
    (hc : c.Reconciling ignorePrefix w₀ w)
    (h : w.db.upsertFilesWithDirectories w.now c.batch = .ok (n, db)) :
    { c with batch := [] }.Reconciling ignorePrefix w₀ { w with db } where
  cutoff := hc.cutoff
  page := hc.page
  batch k hk := absurd hk List.not_mem_nil
  stamped f hf hseen := by
    rw [(Db.upsertFilesWithDirectories_ok h).1] at hf
    rcases Files.mem_upsertFiles hf with ⟨hf, -⟩ | ⟨hbatch, -⟩
    · exact hc.stamped f hf hseen
    · exact hc.batch f.key hbatch
  covered k hk := Walk.Covers.flushed (hc.covered k hk) hc.cutoff h

theorem Walk.Reconciling.visited {w : World β ι} {c : Walk} {info : ObjectInfo}
    {page : List ObjectInfo} (hc : c.Reconciling ignorePrefix w₀ w) (hpage : c.page = info :: page) :
    (c.visit ignorePrefix info page).Reconciling ignorePrefix w₀ w := by
  have hcovered (k : Key) (hk : w₀.Listed ignorePrefix k) :
      (c.visit ignorePrefix info page).Covers w k :=
    Walk.Covers.visited (hc.covered k hk) hk.2 hpage
  have hrest (x : ObjectInfo) (hx : x ∈ page) : w₀.bucket.lookup x.key ≠ none :=
    hc.page x (hpage ▸ List.mem_cons_of_mem info hx)
  unfold Walk.visit at hcovered ⊢
  split
  · rename_i hskip
    simp only [hskip, if_true] at hcovered
    exact ⟨hc.cutoff, hrest, hc.batch, hc.stamped, hcovered⟩
  · rename_i hkeep
    simp only [hkeep] at hcovered
    refine ⟨hc.cutoff, hrest, fun k hk => ?_, hc.stamped, hcovered⟩
    rw [List.map_append, List.mem_append] at hk
    rcases hk with hk | hk
    · exact hc.batch k hk
    · obtain rfl : k = info.key := by simpa using hk
      exact ⟨hc.page info (hpage ▸ List.mem_cons_self), by simpa using hkeep⟩

theorem Walk.Reconciling.fetched {w : World β ι} {c : Walk} (hc : c.Reconciling ignorePrefix w₀ w)
    (hpage : c.page = []) (hb : w.bucket = w₀.bucket) (pageSize : Nat) :
    (c.fetch pageSize w.bucket).Reconciling ignorePrefix w₀ w where
  cutoff := hc.cutoff
  page info hinfo := by
    have hmem := List.mem_of_mem_take hinfo
    obtain ⟨o, ho, -⟩ := Bucket.mem_objects.mp (Paging.mem_remaining.mp hmem).1
    rw [← hb, ho]
    simp
  batch := hc.batch
  stamped := hc.stamped
  covered k hk := (hc.covered k hk).imp_left fun hpend =>
    hpend.fetch hpage pageSize (hb ▸ hk.1)

theorem Walk.Reconciling.swept {w : World β ι} {c : Walk} {n : Nat} {db : Db}
    (hc : c.Reconciling ignorePrefix w₀ w) (hpage : c.page = []) (hlast : c.isTruncated = false)
    (hbatch : c.batch = []) (h : w.db.deleteUnseenFilesWithDirectories c.cutoff = .ok (n, db))
    (k : Key) : (∃ id, (World.cell { w with db } k).owner = some id) ↔ w₀.Listed ignorePrefix k := by
  constructor
  · rintro ⟨id, hid⟩
    obtain ⟨f, hf, rfl, -⟩ := Files.ownerAt_eq_some_iff.mp hid
    obtain ⟨hold, hseen⟩ := (mem_swept h).mp hf
    exact hc.stamped f hold hseen
  · intro hk
    exact Walk.Covers.owned_of_sweep (hc.covered k hk) hpage hlast hbatch h

theorem owner_kept_of_sweep {w : World β ι} {c : Walk} {n : Nat} {db : Db} {k : Key} {id : FileID}
    (hswept : ∃ id, (World.cell { w with db } k).owner = some id)
    (h : w.db.deleteUnseenFilesWithDirectories c.cutoff = .ok (n, db))
    (ho : (w.cell k).owner = some id) : (World.cell { w with db } k).owner = some id := by
  obtain ⟨id', hid'⟩ := hswept
  obtain ⟨f, hf, hfk, hfid⟩ := Files.ownerAt_eq_some_iff.mp hid'
  have hold : (w.cell k).owner = some id' :=
    Files.ownerAt_eq_some_iff.mpr ⟨f, ((mem_swept h).mp hf).1, hfk, hfid⟩
  rw [hid', ← ho, hold]

theorem Crawling.inv_preserved : Transition.Preserves (Crawling.step ignorePrefix batchSize)
    (fun _ _ => True) (Crawling.Inv ignorePrefix w₀) := by
  intro s a t hs _ ht
  obtain ⟨hbucket, hkept, hcrawl⟩ := hs
  cases a with
  | tick d =>
    obtain rfl := Option.some.inj ht
    have hnow : s.world.now ≤ s.world.now + d := Int.le_add_of_nonneg_right (Int.natCast_nonneg d)
    refine ⟨hbucket, hkept, ?_⟩
    cases hc : s.crawl with
    | databaseNow =>
      rw [hc] at hcrawl
      exact fun f hf => (hcrawl f hf).trans_le hnow
    | walking c =>
      rw [hc] at hcrawl
      exact ⟨hcrawl.cutoff.trans hnow, hcrawl.page, hcrawl.batch, hcrawl.stamped, hcrawl.covered⟩
    | finished n =>
      rw [hc] at hcrawl
      exact hcrawl
  | crawl pageSize =>
    obtain ⟨⟨w, c'⟩, hwc, rfl⟩ := Option.map_eq_some_iff.mp ht
    have hstep := crawlStep_of_step hwc
    generalize s.crawl = c at hstep hcrawl
    cases hstep with
    | started =>
      refine ⟨hbucket, hkept, le_refl _, ?_, ?_, fun f hf hseen => ?_, fun k hk => ?_⟩
      · exact fun info hinfo => absurd hinfo List.not_mem_nil
      · exact fun k hk => absurd hk List.not_mem_nil
      · exact absurd hseen (not_le.mpr (hcrawl f hf))
      · exact Or.inl (Walk.pending_started _)
    | flushed hdb =>
      exact ⟨hbucket, fun k id hk ho => owner_kept_of_upsert hdb (hkept k id hk ho),
        hcrawl.flushed hdb⟩
    | visited hpage => exact ⟨hbucket, hkept, hcrawl.visited hpage⟩
    | fetched hpage hmore => exact ⟨hbucket, hkept, hcrawl.fetched hpage hbucket pageSize⟩
    | swept hpage hlast hbatch hdb =>
      have hswept := hcrawl.swept hpage hlast hbatch hdb
      refine ⟨hbucket, fun k id hk ho => ?_, fun k => ?_⟩
      · exact owner_kept_of_sweep ((hswept k).mpr hk) hdb (hkept k id hk ho)
      · rw [← hswept k, ← Option.ne_none_iff_exists']

end Invariant

section Finished

variable {β ι : Type} {ignorePrefix : Key} {batchSize n : Nat} {w w' : World β ι}
  {as : List CrawlingAction}

structure Crawled (ignorePrefix : Key) (w w' : World β ι) : Prop where
  bucket : w'.bucket = w.bucket
  owned : ∀ k, (w'.cell k).owner ≠ none ↔ w.Listed ignorePrefix k
  kept : ∀ k id, w.Listed ignorePrefix k → (w.cell k).owner = some id →
    (w'.cell k).owner = some id

theorem crawled_of_run (hseen : ∀ f ∈ w.db.files.rows, f.seenAt < w.now)
    (h : Transition.exec (Crawling.step ignorePrefix batchSize) ⟨w, .databaseNow⟩ as =
      some ⟨w', .finished n⟩) : Crawled ignorePrefix w w' := by
  have hstart : Crawling.Inv ignorePrefix w ⟨w, .databaseNow⟩ := ⟨rfl, fun _ _ _ ho => ho, hseen⟩
  have hend := Crawling.inv_preserved.exec hstart h
  exact ⟨hend.bucket, hend.crawl, hend.kept⟩

theorem Crawled.vacant (h : Crawled ignorePrefix w w') {k : Key} (hk : ¬w.Listed ignorePrefix k) :
    (w'.cell k).owner = none := by
  by_contra ho
  exact hk ((h.owned k).mp ho)

theorem Crawled.bytesAt (h : Crawled ignorePrefix w w') (k : Key) :
    w'.bucket.bytesAt k = (w.cell k).bytes := by
  rw [h.bucket]
  rfl

end Finished

end FileIndexer
