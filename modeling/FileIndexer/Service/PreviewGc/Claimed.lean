import FileIndexer.Service.Indexer.Runner
import FileIndexer.Service.PreviewGc.Gc

namespace FileIndexer

structure PreviewRun (β ι : Type) where
  indexing : Indexing β PreviewResult PreviewRow ι
  gc : GcRun
  putAt : ι → Time

inductive PreviewRunAction (β ι : Type) where
  | gc (a : GcAction)
  | indexing (a : IndexingAction β PreviewResult ι)
  | putPreview (i : ι) (bytes : β) (outcome : Except Text (Int × Int))
  | deleteFile (id : FileID)
  | removePreview (id : FileID)

def IndexingAction.putsPreview {β ι : Type} : IndexingAction β PreviewResult ι → Bool
  | .process _ (.ok result) => !result.skipped
  | _ => false

section Step

variable {β ι : Type} [DecidableEq ι] (indexPrefix : Key) (cfg : IndexerConfig)

def PreviewRun.world (s : PreviewRun β ι) : PreviewWorld β :=
  ⟨s.indexing.db, s.indexing.bucket, s.indexing.now⟩

def previewResult (job : Job) (size : Int × Int) : PreviewResult :=
  ⟨false, previewKey indexPrefix job.fileID, size.1, size.2⟩

-- a worker that crashes after its PUT is a put followed by stop
def PreviewRun.step (s : PreviewRun β ι) : PreviewRunAction β ι → Option (PreviewRun β ι)
  | .gc a => (gcStep (previewPrefix indexPrefix) s.world s.gc a).map fun (w, gc) =>
      { s with indexing := { s.indexing with bucket := w.bucket }, gc }
  | .indexing a =>
    if a.putsPreview then none
    else (s.indexing.step previewIndex cfg a).map fun indexing => { s with indexing }
  | .putPreview i bytes outcome =>
    match s.indexing.workers i with
    | .batch (job :: _) =>
      (s.indexing.step previewIndex cfg (.process i (outcome.map (previewResult indexPrefix job)))).map
        fun indexing => { s with
          indexing := { indexing with
            bucket := indexing.bucket.put indexing.now (previewKey indexPrefix job.fileID) bytes }
          putAt := Function.update s.putAt i s.indexing.now }
    | _ => none
  | .deleteFile id => some { s with indexing := { s.indexing with db :=
      { files := s.indexing.db.files.deleteWhere fun f => f.id = id
        queue := fun n => if n = id then none else s.indexing.db.queue n
        results := s.indexing.db.results.erase id } } }
  | .removePreview id =>
    if s.indexing.db.files.getFile id = none then some { s with indexing :=
      { s.indexing with bucket := s.indexing.bucket.delete (previewKey indexPrefix id) } }
    else none

end Step

section Property

variable {β ι : Type} (indexPrefix : Key)

structure PreviewRun.Initial (s : PreviewRun β ι) : Prop where
  gc : s.gc = .listIndexPreviewKeys
  workers : ∀ i, s.indexing.workers i = .idle
  keys : ∀ e ∈ s.indexing.db.results.entries, e.2.previewKey = previewKey indexPrefix e.1
  files : ∀ e ∈ s.indexing.db.results.entries, s.indexing.db.files.getFile e.1 ≠ none
  present : ∀ e ∈ s.indexing.db.results.entries, s.indexing.bucket.lookup e.2.previewKey ≠ none

def PreviewRun.ClaimedPresent (s : PreviewRun β ι) : Prop :=
  ∀ e ∈ s.indexing.db.results.entries, s.indexing.bucket.lookup e.2.previewKey ≠ none

def CompletesInTime (s : PreviewRun β ι) : PreviewRunAction β ι → Prop
  | .indexing (.complete i fault) =>
    fault ≠ .before → ∀ x ∈ (s.indexing.workers i).result, x.2.skipped = false →
      s.indexing.now < s.putAt i + minAge
  | _ => True

def GcRun.unread : GcRun → Key → Bool
  | .now claimed, key => key ∉ claimed
  | _, _ => false

def GcUndisturbed (s : PreviewRun β ι) : PreviewRunAction β ι → Prop
  | .putPreview i _ _ =>
    ∀ job ∈ (s.indexing.workers i).jobs.head?, previewKey indexPrefix job.fileID ∉ s.gc.targets
  | .indexing (.complete i fault) =>
    fault ≠ .before → ∀ x ∈ (s.indexing.workers i).result, x.2.skipped = false →
      s.gc.unread x.2.key = false
  | _ => True

end Property

section Invariant

variable {β ι : Type} {indexPrefix : Key} {cfg : IndexerConfig}

def PreviewRun.alive (s : PreviewRun β ι) (id : FileID) : Prop :=
  ∃ f ∈ s.indexing.db.files.rows, f.id = id

def PreviewRun.claims (s : PreviewRun β ι) (id : FileID) : Prop :=
  ∃ row, s.indexing.db.results.lookup id = some row

def PreviewRun.newerThan (s : PreviewRun β ι) (t : Time) (key : Key) : Prop :=
  ∃ o, s.indexing.bucket.lookup key = some o ∧ t < o.lastModified

def PreviewRun.holds (s : PreviewRun β ι) (put : Time) (key : Key) : Prop :=
  ∃ o, s.indexing.bucket.lookup key = some o ∧ put ≤ o.lastModified ∧ key ∉ s.gc.targets

structure PreviewRun.Inv (indexPrefix : Key) (s : PreviewRun β ι) : Prop where
  keys : ∀ id row, s.indexing.db.results.lookup id = some row →
    row.previewKey = previewKey indexPrefix id
  owned : ∀ id, s.claims id → s.alive id
  present : ∀ id, s.claims id → s.indexing.bucket.lookup (previewKey indexPrefix id) ≠ none
  spared : ∀ id, s.claims id → previewKey indexPrefix id ∉ s.gc.targets
  known : ∀ i, ∀ job ∈ (s.indexing.workers i).jobs, job.fileID < s.indexing.db.files.nextId
  put : ∀ i, ∀ x ∈ (s.indexing.workers i).result, x.2.skipped = false →
    x.2.key = previewKey indexPrefix x.1.fileID ∧ s.putAt i ≤ s.indexing.now ∧ (s.alive x.1.fileID →
      s.indexing.now < s.putAt i + minAge → s.holds (s.putAt i) (previewKey indexPrefix x.1.fileID))
  read : ∀ claimed, s.gc = .now claimed → ∀ id, s.claims id → previewKey indexPrefix id ∈ claimed
  walked : ∀ c, s.gc = .walk c → c.cutoff + minAge ≤ s.indexing.now ∧ ∀ id, s.claims id →
    previewKey indexPrefix id ∈ c.claimed ∨ s.newerThan c.cutoff (previewKey indexPrefix id)

structure PreviewRun.Grows (indexPrefix : Key) (s t : PreviewRun β ι) : Prop where
  gc : t.gc = s.gc
  now : s.indexing.now ≤ t.indexing.now
  results : ∀ id row, t.indexing.db.results.lookup id = some row →
    s.indexing.db.results.lookup id = some row
  owned : ∀ id, t.claims id → s.alive id → t.alive id
  origin : ∀ id, t.alive id → s.alive id ∨ s.indexing.db.files.nextId ≤ id
  nextId : s.indexing.db.files.nextId ≤ t.indexing.db.files.nextId
  bucket : ∀ id, t.alive id → ∀ o, s.indexing.bucket.lookup (previewKey indexPrefix id) = some o →
    ∃ o', t.indexing.bucket.lookup (previewKey indexPrefix id) = some o' ∧
      (o'.lastModified = o.lastModified ∨ s.indexing.now ≤ o'.lastModified)
  known : ∀ i, ∀ job ∈ (t.indexing.workers i).jobs, job ∈ (s.indexing.workers i).jobs ∨
    s.alive job.fileID
  put : ∀ i, ∀ x ∈ (t.indexing.workers i).result, x.2.skipped = false →
    ((s.indexing.workers i).result = some x ∧ t.putAt i = s.putAt i) ∨
      (x.2.key = previewKey indexPrefix x.1.fileID ∧ t.putAt i ≤ t.indexing.now ∧
        t.holds (t.putAt i) (previewKey indexPrefix x.1.fileID))

theorem PreviewRun.Inv.alive_lt {s : PreviewRun β ι} {id : FileID} (h : s.alive id) :
    id < s.indexing.db.files.nextId := by
  obtain ⟨f, hf, rfl⟩ := h
  exact s.indexing.db.files.serial f hf

theorem PreviewRun.Inv.grow {s t : PreviewRun β ι} (h : s.Inv indexPrefix)
    (hg : s.Grows indexPrefix t) : t.Inv indexPrefix := by
  have hclaims (id : FileID) (hid : t.claims id) : s.claims id := by
    obtain ⟨row, hrow⟩ := hid
    exact ⟨row, hg.results id row hrow⟩
  have howned (id : FileID) (hid : t.claims id) : t.alive id :=
    hg.owned id hid (h.owned id (hclaims id hid))
  refine ⟨fun id row hrow => h.keys id row (hg.results id row hrow), howned, ?_, ?_, ?_, ?_, ?_, ?_⟩
  · intro id hid
    obtain ⟨o, ho⟩ := Option.ne_none_iff_exists'.mp (h.present id (hclaims id hid))
    obtain ⟨o', ho', -⟩ := hg.bucket id (howned id hid) o ho
    simp [ho']
  · intro id hid
    rw [hg.gc]
    exact h.spared id (hclaims id hid)
  · intro i job hjob
    rcases hg.known i job hjob with hold | halive
    · exact (h.known i job hold).trans_le hg.nextId
    · exact (Inv.alive_lt halive).trans_le hg.nextId
  · intro i x hx hskip
    rcases hg.put i x hx hskip with ⟨hold, hput⟩ | ⟨hkey, hle, hholds⟩
    · obtain ⟨hkey, hle, hholds⟩ := h.put i x hold hskip
      refine ⟨hkey, hput ▸ hle.trans hg.now, fun halive hin => ?_⟩
      have hlt := h.known i x.1 (WorkerState.mem_jobs_of_result hold)
      have halive' : s.alive x.1.fileID := (hg.origin _ halive).resolve_right (not_le.mpr hlt)
      rw [hput] at hin ⊢
      obtain ⟨o, ho, hlm, hnot⟩ := hholds halive' (hg.now.trans_lt hin)
      obtain ⟨o', ho', hlm'⟩ := hg.bucket _ halive o ho
      refine ⟨o', ho', ?_, hg.gc ▸ hnot⟩
      rcases hlm' with hlm' | hlm'
      · exact hlm' ▸ hlm
      · exact hle.trans hlm'
    · exact ⟨hkey, hle, fun _ _ => hholds⟩
  · intro claimed hgc id hid
    exact h.read claimed (hg.gc ▸ hgc) id (hclaims id hid)
  · intro c hgc
    obtain ⟨hcut, hrows⟩ := h.walked c (hg.gc ▸ hgc)
    refine ⟨hcut.trans hg.now, fun id hid => (hrows id (hclaims id hid)).imp_right ?_⟩
    rintro ⟨o, ho, hlm⟩
    obtain ⟨o', ho', hlm' | hlm'⟩ := hg.bucket id (howned id hid) o ho
    · exact ⟨o', ho', hlm' ▸ hlm⟩
    · refine ⟨o', ho', lt_of_lt_of_le ?_ (hcut.trans hlm')⟩
      exact Int.lt_add_of_pos_right _ (by decide)

theorem PreviewRun.Grows.steady {s t : PreviewRun β ι} (hgc : t.gc = s.gc)
    (hnow : s.indexing.now ≤ t.indexing.now) (hfiles : t.indexing.db.files = s.indexing.db.files)
    (hresults : t.indexing.db.results = s.indexing.db.results)
    (hbucket : ∀ key o, s.indexing.bucket.lookup key = some o →
      ∃ o', t.indexing.bucket.lookup key = some o' ∧
        (o'.lastModified = o.lastModified ∨ s.indexing.now ≤ o'.lastModified))
    (hknown : ∀ i, ∀ job ∈ (t.indexing.workers i).jobs, job ∈ (s.indexing.workers i).jobs ∨
      s.alive job.fileID)
    (hput : ∀ i, ∀ x ∈ (t.indexing.workers i).result, x.2.skipped = false →
      ((s.indexing.workers i).result = some x ∧ t.putAt i = s.putAt i) ∨
        (x.2.key = previewKey indexPrefix x.1.fileID ∧ t.putAt i ≤ t.indexing.now ∧
          t.holds (t.putAt i) (previewKey indexPrefix x.1.fileID))) : s.Grows indexPrefix t where
  gc := hgc
  now := hnow
  results id row hrow := hresults ▸ hrow
  owned id _ halive := by rwa [alive, hfiles]
  origin id halive := Or.inl (by rwa [alive, ← hfiles])
  nextId := le_of_eq (by rw [hfiles])
  bucket id _ := hbucket _
  known := hknown
  put := hput

theorem PreviewRun.Grows.world {s t : PreviewRun β ι} (hgc : t.gc = s.gc)
    (hnow : s.indexing.now ≤ t.indexing.now) (hfiles : t.indexing.db.files = s.indexing.db.files)
    (hresults : t.indexing.db.results = s.indexing.db.results)
    (hbucket : ∀ key o, s.indexing.bucket.lookup key = some o →
      ∃ o', t.indexing.bucket.lookup key = some o' ∧
        (o'.lastModified = o.lastModified ∨ s.indexing.now ≤ o'.lastModified))
    (hworkers : t.indexing.workers = s.indexing.workers) (hput : t.putAt = s.putAt) :
    s.Grows indexPrefix t :=
  .steady hgc hnow hfiles hresults hbucket (fun i job hjob => Or.inl (hworkers ▸ hjob))
    fun i x hx _ => Or.inl ⟨hworkers ▸ hx, by rw [hput]⟩

theorem PreviewRun.Grows.assign [DecidableEq ι] {s t : PreviewRun β ι} {i : ι}
    {w : WorkerState PreviewResult} (hgc : t.gc = s.gc) (hnow : t.indexing.now = s.indexing.now)
    (hfiles : t.indexing.db.files = s.indexing.db.files)
    (hresults : t.indexing.db.results = s.indexing.db.results)
    (hbucket : ∀ key o, s.indexing.bucket.lookup key = some o →
      ∃ o', t.indexing.bucket.lookup key = some o' ∧
        (o'.lastModified = o.lastModified ∨ s.indexing.now ≤ o'.lastModified))
    (hworkers : t.indexing.workers = Function.update s.indexing.workers i w)
    (hput : ∀ j, j ≠ i → t.putAt j = s.putAt j)
    (hjobs : ∀ job ∈ w.jobs, job ∈ (s.indexing.workers i).jobs ∨ s.alive job.fileID)
    (hresult : ∀ x ∈ w.result, x.2.skipped = false →
      ((s.indexing.workers i).result = some x ∧ t.putAt i = s.putAt i) ∨
        (x.2.key = previewKey indexPrefix x.1.fileID ∧ t.putAt i ≤ t.indexing.now ∧
          t.holds (t.putAt i) (previewKey indexPrefix x.1.fileID))) : s.Grows indexPrefix t := by
  refine .steady hgc (le_of_eq hnow.symm) hfiles hresults hbucket ?_ ?_
  · intro j job hjob
    by_cases hj : j = i
    · subst hj
      rw [hworkers, Function.update_self] at hjob
      exact hjobs job hjob
    · rw [hworkers, Function.update_of_ne hj] at hjob
      exact Or.inl hjob
  · intro j x hx hskip
    by_cases hj : j = i
    · subst hj
      rw [hworkers, Function.update_self] at hx
      exact hresult x hx hskip
    · rw [hworkers, Function.update_of_ne hj] at hx
      exact Or.inl ⟨hx, hput j hj⟩

theorem lookup_kept (b : Bucket β) (now : Time) (key : Key) (o : Object β)
    (h : b.lookup key = some o) : ∃ o', b.lookup key = some o' ∧
      (o'.lastModified = o.lastModified ∨ now ≤ o'.lastModified) :=
  ⟨o, h, Or.inl rfl⟩

theorem lookup_put_grows (b : Bucket β) (now : Time) (k : Key) (bytes : β) (key : Key) (o : Object β)
    (h : b.lookup key = some o) : ∃ o', (b.put now k bytes).lookup key = some o' ∧
      (o'.lastModified = o.lastModified ∨ now ≤ o'.lastModified) := by
  rw [Bucket.lookup_put]
  split
  · exact ⟨_, rfl, Or.inr (le_refl _)⟩
  · exact ⟨o, h, Or.inl rfl⟩

theorem PreviewRun.Inv.claim {s : PreviewRun β ι} (h : s.Inv indexPrefix) {id : FileID}
    {row : PreviewRow} {put : Time} (hkey : row.previewKey = previewKey indexPrefix id)
    (halive : s.alive id) (hholds : s.holds put (previewKey indexPrefix id))
    (hin : s.indexing.now < put + minAge)
    (hread : ∀ claimed, s.gc = .now claimed → previewKey indexPrefix id ∈ claimed) :
    PreviewRun.Inv indexPrefix { s with indexing := { s.indexing with db :=
      { s.indexing.db with results := s.indexing.db.results.insert id row } } } := by
  obtain ⟨o, ho, hlm, hnot⟩ := hholds
  have hlookup (n : FileID) (r : PreviewRow)
      (hr : (s.indexing.db.results.insert id row).lookup n = some r) :
      (n = id ∧ r = row) ∨ s.indexing.db.results.lookup n = some r := by
    by_cases hn : n = id
    · subst hn
      rw [AList.lookup_insert] at hr
      exact Or.inl ⟨rfl, (Option.some.inj hr).symm⟩
    · rw [AList.lookup_insert_ne hn] at hr
      exact Or.inr hr
  have hclaims (n : FileID) (hn : ∃ r, (s.indexing.db.results.insert id row).lookup n = some r) :
      n = id ∨ s.claims n := by
    obtain ⟨r, hr⟩ := hn
    exact (hlookup n r hr).imp And.left fun hold => ⟨r, hold⟩
  refine ⟨fun n r hr => ?_, fun n hn => ?_, fun n hn => ?_, fun n hn => ?_, h.known, h.put, ?_, ?_⟩
  · rcases hlookup n r hr with ⟨rfl, rfl⟩ | hold
    · exact hkey
    · exact h.keys n r hold
  · rcases hclaims n hn with rfl | hold
    · exact halive
    · exact h.owned n hold
  · rcases hclaims n hn with rfl | hold
    · simp [ho]
    · exact h.present n hold
  · rcases hclaims n hn with rfl | hold
    · exact hnot
    · exact h.spared n hold
  · intro claimed hgc n hn
    rcases hclaims n hn with rfl | hold
    · exact hread claimed hgc
    · exact h.read claimed hgc n hold
  · intro c hgc
    obtain ⟨hcut, hrows⟩ := h.walked c hgc
    refine ⟨hcut, fun n hn => ?_⟩
    rcases hclaims n hn with rfl | hold
    · refine Or.inr ⟨o, ho, lt_of_lt_of_le ?_ hlm⟩
      exact lt_of_add_lt_add_right (hcut.trans_lt hin)
    · exact hrows n hold

theorem PreviewRun.Inv.gc_step {s : PreviewRun β ι} (h : s.Inv indexPrefix) {w : PreviewWorld β}
    {gc : GcRun} (hstep : GcStep (previewPrefix indexPrefix) s.world s.gc w gc) :
    PreviewRun.Inv indexPrefix
      { s with indexing := { s.indexing with bucket := w.bucket }, gc } := by
  have hkept (key : Key) (hkey : key ∉ s.gc.targets) :
      w.bucket.lookup key = s.indexing.bucket.lookup key := by
    rcases world_of_gcStep hstep with rfl | ⟨k, hk, rfl⟩
    · rfl
    · have hne : key ≠ k := fun he => hkey (he ▸ hk)
      exact (Bucket.lookup_delete _ _ _).trans (if_neg hne)
  refine ⟨h.keys, h.owned, fun id hid => ?_, fun id hid htarget => ?_, h.known, ?_, ?_, ?_⟩
  · rw [hkept _ (h.spared id hid)]
    exact h.present id hid
  · rcases targets_of_gcStep hstep htarget with hold | ⟨c, info, hgc, hinfo, ho, hkey⟩
    · exact h.spared id hid hold
    · obtain ⟨-, hunclaimed, hlm⟩ := isOrphan_iff.mp ho
      obtain ⟨o, hobj, hlast⟩ := Bucket.mem_objects.mp hinfo
      rw [hkey] at hunclaimed hobj
      rcases (h.walked c hgc).2 id hid with hclaimed | ⟨o', ho', hnew⟩
      · exact hunclaimed hclaimed
      · obtain rfl := Option.some.inj (hobj.symm.trans ho')
        exact absurd (hlast ▸ hlm) (not_le.mpr hnew)
  · intro i x hx hskip
    obtain ⟨hkey, hle, hholds⟩ := h.put i x hx hskip
    refine ⟨hkey, hle, fun halive hin => ?_⟩
    obtain ⟨o, hobj, hlm, hnot⟩ := hholds halive hin
    refine ⟨o, (hkept _ hnot).trans hobj, hlm, fun htarget => ?_⟩
    rcases targets_of_gcStep hstep htarget with hold | ⟨c, info, hgc, hinfo, ho, hinfokey⟩
    · exact hnot hold
    · obtain ⟨o', hobj', hlast⟩ := Bucket.mem_objects.mp hinfo
      rw [hinfokey] at hobj'
      obtain rfl := Option.some.inj (hobj.symm.trans hobj')
      have hput : s.putAt i ≤ c.cutoff := (hlast ▸ hlm).trans (isOrphan_iff.mp ho).2.2
      have hage : s.putAt i + minAge ≤ s.indexing.now :=
        (Int.add_le_add_right hput minAge).trans (h.walked c hgc).1
      exact absurd hin (not_lt.mpr hage)
  · intro claimed hgc id hid
    obtain ⟨row, hrow⟩ := hid
    rw [now_of_gcStep hstep hgc]
    exact List.mem_map.mpr ⟨⟨id, row⟩, AList.mem_lookup_iff.mp hrow, h.keys id row hrow⟩
  · intro c hgc
    obtain ⟨rfl, ⟨hnow, hcut⟩ | ⟨c₀, hwalk, hclaimed, hcut⟩⟩ := walk_of_gcStep hstep hgc
    · refine ⟨?_, fun id hid => Or.inl (h.read _ hnow id hid)⟩
      rw [hcut]
      exact le_of_eq (Int.sub_add_cancel _ _)
    · obtain ⟨hold, hrows⟩ := h.walked c₀ hwalk
      rw [hclaimed, hcut]
      exact ⟨hold, hrows⟩

section Step

variable [DecidableEq ι]

theorem PreviewRun.Inv.indexing_step {s : PreviewRun β ι} (h : s.Inv indexPrefix)
    {a : IndexingAction β PreviewResult ι} {indexing : Indexing β PreviewResult PreviewRow ι}
    (hstep : IndexingStep previewIndex s.indexing a indexing) (hputs : a.putsPreview = false)
    (htime : CompletesInTime s (.indexing a)) (hgc : GcUndisturbed indexPrefix s (.indexing a)) :
    PreviewRun.Inv indexPrefix { s with indexing } := by
  cases hstep with
  | queued =>
    exact h.grow (.world rfl (le_refl _) rfl rfl (lookup_kept _ _) rfl rfl)
  | claimed =>
    refine h.grow (.assign rfl rfl rfl rfl (lookup_kept _ _) rfl (fun _ _ => rfl) ?_ nofun)
    exact fun job hjob => Or.inr (mem_claimedJobs hjob)
  | processed hw =>
    refine h.grow (.assign rfl rfl rfl rfl (lookup_kept _ _) rfl (fun _ _ => rfl) ?_ ?_)
    · intro job hjob
      rw [hw]
      exact Or.inl hjob
    · rintro x hx hskip
      obtain rfl := Option.some.inj hx
      simp only [IndexingAction.putsPreview, Bool.not_eq_false'] at hputs
      rw [hputs] at hskip
      cases hskip
  | worked queue hw =>
    exact h.grow (.assign rfl rfl rfl rfl (lookup_kept _ _) rfl (fun _ _ => rfl)
      (fun job hjob => Or.inl (hw.1 hjob)) fun x hx _ => Or.inl ⟨hw.2 x hx, rfl⟩)
  | completed hres hfault hdb hw =>
    rename_i i fault job result db prov w
    have hgrow (queue : IndexQueue) : PreviewRun.Inv indexPrefix ⟨Indexing.setWorker
        ⟨⟨s.indexing.db.files, queue, s.indexing.db.results⟩, s.indexing.bucket, s.indexing.workers,
          s.indexing.now, prov⟩ i w, s.gc, s.putAt⟩ :=
      h.grow (.assign rfl rfl rfl rfl (lookup_kept _ _) rfl (fun _ _ => rfl)
        (fun job hjob => Or.inl (hw.1 hjob)) fun x hx _ => Or.inl ⟨hw.2 x hx, rfl⟩)
    obtain ⟨hfiles, -, hresults⟩ := IndexType.complete_ok hdb
    by_cases hskip : result.skipped = true
    · rw [previewIndex_row_none_iff.mpr hskip] at hresults
      obtain ⟨files, queue, results⟩ := db
      obtain rfl : files = _ := hfiles
      obtain rfl : results = _ := hresults
      exact hgrow queue
    · obtain ⟨row, hrow, hrowkey⟩ :
          ∃ row, previewIndex.row s.indexing.now result = some row ∧ row.previewKey = result.key :=
        ⟨_, if_neg hskip, rfl⟩
      have halive : s.alive job.fileID := IndexType.file_of_complete hrow hdb
      rw [Bool.not_eq_true] at hskip
      obtain ⟨hkey, -, hholds⟩ := h.put i (job, result) hres hskip
      have hin := htime hfault (job, result) hres hskip
      have hread (claimed : List Key) (hnow : s.gc = .now claimed) :
          previewKey indexPrefix job.fileID ∈ claimed := by
        have hun := hgc hfault (job, result) hres hskip
        rw [hnow, hkey] at hun
        simpa [GcRun.unread] using hun
      rw [hrow] at hresults
      obtain ⟨files, queue, results⟩ := db
      obtain rfl : files = _ := hfiles
      obtain rfl : results = _ := hresults
      exact (hgrow queue).claim (hrowkey.trans hkey) halive (hholds halive hin) hin hread
  | upserted =>
    refine h.grow ⟨rfl, le_refl _, fun _ _ hrow => hrow, fun id _ halive => ?_, fun id halive => ?_,
      Files.nextId_upsertFiles _ _ _, fun id _ => lookup_kept _ _ _, fun _ _ hjob => Or.inl hjob,
      fun _ _ hx _ => Or.inl ⟨hx, rfl⟩⟩
    · obtain ⟨f, hf, rfl⟩ := halive
      exact Files.kept_upsertFiles hf
    · obtain ⟨g, hg, rfl⟩ := halive
      rcases Files.origin_upsertFiles hg with ⟨f, hf, hid, -⟩ | hnew
      · exact Or.inl ⟨f, hf, hid⟩
      · exact Or.inr hnew
  | replaced =>
    exact h.grow (.world rfl (le_refl _) rfl rfl (lookup_put_grows _ _ _ _) rfl rfl)
  | ticked =>
    refine h.grow (.world rfl ?_ rfl rfl (lookup_kept _ _) rfl rfl)
    exact Int.le_add_of_nonneg_right (Int.natCast_nonneg _)

theorem PreviewRun.inv_preserved : Transition.Preserves (PreviewRun.step indexPrefix cfg)
    (fun s a => CompletesInTime s a ∧ GcUndisturbed indexPrefix s a)
    (PreviewRun.Inv indexPrefix (β := β) (ι := ι)) := by
  rintro s a t hs ⟨htime, hgc⟩ ht
  cases a with
  | gc a =>
    obtain ⟨⟨w, gc⟩, hw, rfl⟩ := Option.map_eq_some_iff.mp ht
    exact hs.gc_step (gcStep_of_step hw)
  | indexing a =>
    simp only [PreviewRun.step] at ht
    split at ht
    · cases ht
    · rename_i hputs
      obtain ⟨indexing, hstep, rfl⟩ := Option.map_eq_some_iff.mp ht
      exact hs.indexing_step (indexingStep_of_step hstep) (by simpa using hputs) htime hgc
  | putPreview i bytes outcome =>
    simp only [PreviewRun.step] at ht
    split at ht
    · rename_i job rest hw
      obtain ⟨indexing, hstep, rfl⟩ := Option.map_eq_some_iff.mp ht
      simp only [Indexing.step, hw] at hstep
      have hfree : previewKey indexPrefix job.fileID ∉ s.gc.targets :=
        hgc job (by rw [hw]; rfl)
      cases outcome with
      | error cause =>
        obtain rfl := Option.some.inj hstep
        refine hs.grow (.assign rfl rfl rfl rfl (lookup_put_grows _ _ _ _) rfl
          (fun j hj => Function.update_of_ne hj _ _) (fun job' hjob => Or.inl ?_)
          (by simp [WorkerState.result]))
        rwa [hw]
      | ok size =>
        cases hsource : s.indexing.bucket.lookup job.key with
        | none => simp [hsource, Except.map] at hstep
        | some o =>
          simp only [hsource, Except.map, Option.some.injEq] at hstep
          subst hstep
          refine hs.grow (.assign rfl rfl rfl rfl (lookup_put_grows _ _ _ _) rfl
            (fun j hj => Function.update_of_ne hj _ _) (fun job' hjob => Or.inl ?_) ?_)
          · rwa [hw]
          · intro x hx _
            obtain rfl := Option.some.inj hx
            have hput : Function.update s.putAt i s.indexing.now i = s.indexing.now :=
              Function.update_self _ _ _
            exact Or.inr ⟨rfl, le_of_eq hput, ⟨bytes, s.indexing.now⟩, by simp [Indexing.setWorker],
              le_of_eq hput, hfree⟩
    · cases ht
  | deleteFile id =>
    obtain rfl := Option.some.inj ht
    have hlookup (n : FileID) (row : PreviewRow)
        (hrow : (s.indexing.db.results.erase id).lookup n = some row) :
        n ≠ id ∧ s.indexing.db.results.lookup n = some row := by
      by_cases hn : n = id
      · rw [hn, AList.lookup_erase] at hrow
        cases hrow
      · rw [AList.lookup_erase_ne hn] at hrow
        exact ⟨hn, hrow⟩
    refine hs.grow ⟨rfl, le_refl _, fun n row hrow => (hlookup n row hrow).2, ?_, ?_, le_refl _,
      fun n _ => lookup_kept _ _ _, fun _ _ hjob => Or.inl hjob, fun _ _ hx _ => Or.inl ⟨hx, rfl⟩⟩
    · rintro n ⟨row, hrow⟩ ⟨f, hf, rfl⟩
      exact ⟨f, Files.mem_deleteWhere.mpr ⟨hf, by simpa using (hlookup f.id row hrow).1⟩, rfl⟩
    · rintro n ⟨f, hf, rfl⟩
      exact Or.inl ⟨f, (Files.mem_deleteWhere.mp hf).1, rfl⟩
  | removePreview id =>
    simp only [PreviewRun.step] at ht
    split at ht
    · rename_i hfile
      obtain rfl := Option.some.inj ht
      refine hs.grow ⟨rfl, le_refl _, fun _ _ hrow => hrow, fun _ _ halive => halive,
        fun _ halive => Or.inl halive, le_refl _, ?_, fun _ _ hjob => Or.inl hjob,
        fun _ _ hx _ => Or.inl ⟨hx, rfl⟩⟩
      rintro n ⟨f, hf, hid⟩ o ho
      have hne : previewKey indexPrefix n ≠ previewKey indexPrefix id := by
        intro he
        exact Files.getFile_eq_none_iff.mp hfile f hf (hid.trans (previewKey_injective _ he))
      exact ⟨o, by rw [Bucket.lookup_delete, if_neg hne, ho], Or.inl rfl⟩
    · cases ht

theorem gc_keeps_claimed_previews (s : PreviewRun β ι) (hs : s.Initial indexPrefix)
    (as : List (PreviewRunAction β ι))
    (htime : Transition.EveryStep (PreviewRun.step indexPrefix cfg) CompletesInTime s as)
    (hgc : Transition.EveryStep (PreviewRun.step indexPrefix cfg) (GcUndisturbed indexPrefix) s as) :
    Transition.EveryState (PreviewRun.step indexPrefix cfg) PreviewRun.ClaimedPresent s as := by
  have hlisted (id : FileID) (hid : s.claims id) : ∃ e ∈ s.indexing.db.results.entries, e.1 = id := by
    obtain ⟨row, hrow⟩ := hid
    exact ⟨⟨id, row⟩, AList.mem_lookup_iff.mp hrow, rfl⟩
  have hinv : s.Inv indexPrefix := by
    refine ⟨fun id row hrow => hs.keys ⟨id, row⟩ (AList.mem_lookup_iff.mp hrow),
      ?_, ?_, ?_, ?_, ?_, ?_, ?_⟩
    · intro id hid
      obtain ⟨e, he, rfl⟩ := hlisted id hid
      obtain ⟨f, hf⟩ := Option.ne_none_iff_exists'.mp (hs.files e he)
      exact ⟨f, Files.getFile_eq_some_iff.mp hf⟩
    · intro id hid
      obtain ⟨e, he, rfl⟩ := hlisted id hid
      exact hs.keys e he ▸ hs.present e he
    · intro id _
      rw [hs.gc]
      exact List.not_mem_nil
    · intro i job hjob
      rw [hs.workers i] at hjob
      cases hjob
    · intro i x hx
      rw [hs.workers i] at hx
      cases hx
    · intro claimed hnow
      rw [hs.gc] at hnow
      cases hnow
    · intro c hwalk
      rw [hs.gc] at hwalk
      cases hwalk
  refine (Transition.everyState_of_preserves PreviewRun.inv_preserved as hinv (htime.and hgc)).mono ?_
  rintro t ht ⟨id, row⟩ he
  have hrow := AList.mem_lookup_iff.mpr he
  exact ht.keys id row hrow ▸ ht.present id ⟨row, hrow⟩

end Step

end Invariant

section Runs

abbrev PhotoRun := PreviewRun String Unit

instance claimedPresentDecidable (s : PhotoRun) : Decidable s.ClaimedPresent :=
  inferInstanceAs (Decidable (∀ e ∈ s.indexing.db.results.entries,
    s.indexing.bucket.lookup e.2.previewKey ≠ none))

instance completesInTimeDecidable (s : PhotoRun) :
    (a : PreviewRunAction String Unit) → Decidable (CompletesInTime s a)
  | .indexing (.complete i fault) => inferInstanceAs (Decidable
      (fault ≠ .before → ∀ x ∈ (s.indexing.workers i).result, x.2.skipped = false →
        s.indexing.now < s.putAt i + minAge))
  | .indexing .seedIndexQueue | .indexing .requeueStaleIndexQueue | .indexing (.claim _ _)
  | .indexing (.process _ _) | .indexing (.fail _ _) | .indexing (.stop _)
  | .indexing (.upsertFiles _) | .indexing (.replaceObject _ _) | .indexing (.tick _)
  | .gc _ | .putPreview _ _ _ | .deleteFile _ | .removePreview _ => isTrue trivial

instance gcUndisturbedDecidable (indexPrefix : Key) (s : PhotoRun) :
    (a : PreviewRunAction String Unit) → Decidable (GcUndisturbed indexPrefix s a)
  | .putPreview i _ _ => inferInstanceAs (Decidable (∀ job ∈ (s.indexing.workers i).jobs.head?,
      previewKey indexPrefix job.fileID ∉ s.gc.targets))
  | .indexing (.complete i fault) => inferInstanceAs (Decidable
      (fault ≠ .before → ∀ x ∈ (s.indexing.workers i).result, x.2.skipped = false →
        s.gc.unread x.2.key = false))
  | .indexing .seedIndexQueue | .indexing .requeueStaleIndexQueue | .indexing (.claim _ _)
  | .indexing (.process _ _) | .indexing (.fail _ _) | .indexing (.stop _)
  | .indexing (.upsertFiles _) | .indexing (.replaceObject _ _) | .indexing (.tick _)
  | .gc _ | .deleteFile _ | .removePreview _ => isTrue trivial

def onePhoto : PhotoRun where
  indexing :=
    { db := ⟨⟨[⟨1, ascii "b.jpg", 0, 0, 0⟩], 2, by decide, by decide, by decide⟩, fun _ => none, ∅⟩
      bucket := (∅ : Bucket String).put 0 (ascii "b.jpg") "photo"
      workers _ := .idle
      now := 1
      provenance _ := none }
  gc := .listIndexPreviewKeys
  putAt _ := 0

theorem onePhoto_initial (indexPrefix : Key) : onePhoto.Initial indexPrefix :=
  ⟨rfl, fun _ => rfl, nofun, nofun, nofun⟩

def previewConfig : IndexerConfig := ⟨10, 5, 600000000000, 30000000000, 3600000000000⟩

def renderPhoto (bytes : String) : List (PreviewRunAction String Unit) :=
  [.indexing (.claim () [1]), .putPreview () bytes (.ok (320, 200))]

def crashAndWait : List (PreviewRunAction String Unit) :=
  [.indexing (.stop ()), .indexing (.tick 7200000000000)]

def collectOrphans : List (PreviewRunAction String Unit) := List.replicate 3 (.gc (.call 1000))

theorem rewritten_preview_deleted : onePhoto.Initial (ascii ".index/") ∧
    Transition.EveryStep (PreviewRun.step (ascii ".index/") previewConfig) CompletesInTime onePhoto
      ([PreviewRunAction.indexing .seedIndexQueue] ++ renderPhoto "old" ++ crashAndWait ++
        collectOrphans ++ renderPhoto "new" ++
        [PreviewRunAction.indexing (.complete () .none), PreviewRunAction.gc (.deleteObject 0 false)]) ∧
    ¬Transition.EveryState (PreviewRun.step (ascii ".index/") previewConfig)
      PreviewRun.ClaimedPresent onePhoto
      ([PreviewRunAction.indexing .seedIndexQueue] ++ renderPhoto "old" ++ crashAndWait ++
        collectOrphans ++ renderPhoto "new" ++
        [PreviewRunAction.indexing (.complete () .none),
          PreviewRunAction.gc (.deleteObject 0 false)]) :=
  ⟨onePhoto_initial _, by decide, by decide⟩

theorem gc_keeps_claimed_previews_rewritten_after :
    Transition.EveryState (PreviewRun.step (ascii ".index/") previewConfig)
      PreviewRun.ClaimedPresent onePhoto
      ([PreviewRunAction.indexing .seedIndexQueue] ++ renderPhoto "old" ++ crashAndWait ++
        collectOrphans ++ [PreviewRunAction.gc (.deleteObject 0 false)] ++ renderPhoto "new" ++
        [PreviewRunAction.indexing (.complete () .none)]) :=
  gc_keeps_claimed_previews _ (onePhoto_initial _) _ (by decide) (by decide)

end Runs

end FileIndexer
