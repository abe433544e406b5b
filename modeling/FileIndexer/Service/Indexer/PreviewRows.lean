import FileIndexer.Service.Indexer.PreviewRender

namespace FileIndexer

abbrev PreviewPool (β ι : Type) := Pool β PreviewResult PreviewRow ι

inductive PreviewingAction (β ι : Type) where
  | indexing (a : IndexingAction β PreviewResult ι)
  | process (i : ι) (faults : StorageFaults)
  | store (tx : Transaction)
  | putObject (key : Key) (bytes : β)
  | deleteObject (key : Key)

section Step

variable {β ι : Type} [DecidableEq ι] (indexPrefix : Key) (render : β → Option (β × Int × Int))
  (cfg : IndexerConfig)

def Indexing.previewStep (s : Indexing β PreviewResult PreviewRow ι) (i : ι)
    (faults : StorageFaults) : Option (Indexing β PreviewResult PreviewRow ι) :=
  match s.workers i with
  | .batch (job :: rest) =>
    let (bucket, outcome) := previewProcess indexPrefix render s.bucket s.now job faults
    let readAt := (s.bucket.lookup job.key).elim s.now Object.lastModified
    some ({ s with bucket }.setWorker i (match outcome with
      | .ok result => .completing job result readAt 0 rest
      | .error cause => .failing job cause (s.now + backoff cfg job.attempts) 0 rest))
  | _ => none

def Pool.previewStep (s : PreviewPool β ι) : PreviewingAction β ι → Option (PreviewPool β ι)
  | .indexing a => if a.bookkeeping then s.step previewIndex cfg (.indexing a) else none
  | .process i faults =>
    (s.indexing.previewStep indexPrefix render cfg i faults).map fun indexing => { s with indexing }
  | .store tx => s.step previewIndex cfg (.store tx)
  | .putObject key bytes =>
    if (previewPrefix indexPrefix).isPrefixOf key then none
    else s.step previewIndex cfg (.replaceBucket (s.indexing.bucket.put s.indexing.now key bytes))
  | .deleteObject key =>
    if (previewPrefix indexPrefix).isPrefixOf key then none
    else s.step previewIndex cfg (.replaceBucket (s.indexing.bucket.delete key))

end Step

section Backed

variable {β ι : Type} (indexPrefix : Key) (Good : β → Int → Int → Prop)

structure PreviewBacked (b : Bucket β) (id : FileID) (key : Key) (width height : Int) : Prop where
  own : key = previewKey indexPrefix id
  stored : ∃ out, Good out width height
  object : ∃ o w h, b.lookup key = some o ∧ Good o.bytes w h

structure Pool.Backed (s : PreviewPool β ι) : Prop where
  rows : ∀ id row, s.indexing.db.results.lookup id = some row →
    PreviewBacked indexPrefix Good s.indexing.bucket id row.previewKey row.width row.height
  results : ∀ i job r, (s.indexing.workers i).result = some (job, r) → r.skipped = false →
    PreviewBacked indexPrefix Good s.indexing.bucket job.fileID r.key r.width r.height

variable {indexPrefix Good}

theorem isPrefixOf_previewKey (indexPrefix : Key) (id : FileID) :
    (previewPrefix indexPrefix).isPrefixOf (previewKey indexPrefix id) = true := by
  rw [previewKey_eq, List.isPrefixOf_iff_prefix]
  exact List.prefix_append _ _

theorem PreviewBacked.kept {b b' : Bucket β} {id : FileID} {key : Key} {width height : Int}
    (h : PreviewBacked indexPrefix Good b id key width height)
    (hb : ∀ k, (previewPrefix indexPrefix).isPrefixOf k = true → b'.lookup k = b.lookup k) :
    PreviewBacked indexPrefix Good b' id key width height := by
  obtain ⟨hkey, hput, o, w, h, ho, hgood⟩ := h
  refine ⟨hkey, hput, o, w, h, ?_, hgood⟩
  rw [hb key (hkey ▸ isPrefixOf_previewKey indexPrefix id)]
  exact ho

theorem PreviewBacked.put {b : Bucket β} {id : FileID} {key key' : Key} {width height w' h' : Int}
    {now : Time} {out : β} (h : PreviewBacked indexPrefix Good b id key width height)
    (hout : Good out w' h') :
    PreviewBacked indexPrefix Good (b.put now key' out) id key width height := by
  obtain ⟨hkey, hput, o, w, h, ho, hgood⟩ := h
  refine ⟨hkey, hput, ?_⟩
  rw [Bucket.lookup_put]
  split
  · exact ⟨_, w', h', rfl, hout⟩
  · exact ⟨o, w, h, ho, hgood⟩

theorem Pool.Backed.kept {s t : PreviewPool β ι} (h : s.Backed indexPrefix Good)
    (hb : ∀ k, (previewPrefix indexPrefix).isPrefixOf k = true →
      t.indexing.bucket.lookup k = s.indexing.bucket.lookup k)
    (hrows : ∀ id row, t.indexing.db.results.lookup id = some row →
      s.indexing.db.results.lookup id = some row)
    (hresults : ∀ i x, (t.indexing.workers i).result = some x →
      (s.indexing.workers i).result = some x) : t.Backed indexPrefix Good where
  rows id row hrow := (h.rows id row (hrows id row hrow)).kept hb
  results i job r hr hskip := (h.results i job r (hresults i _ hr) hskip).kept hb

theorem lookup_of_cascade {ρ : Type} {db : IndexDb ρ} {files : Files} {id : FileID} {row : ρ}
    (h : (db.cascade files).results.lookup id = some row) : db.results.lookup id = some row := by
  have hmem : (⟨id, row⟩ : Sigma fun _ : FileID => ρ) ∈ db.results.entries.filter
      fun e => (files.getFile e.1).isSome := AList.mem_lookup_iff.mp h
  exact AList.mem_lookup_iff.mpr (List.mem_of_mem_filter hmem)

variable [DecidableEq ι]

theorem result_of_setWorker {R ρ : Type} {s : Indexing β R ρ ι} {i j : ι} {w : WorkerState R}
    {x : Job × R} (h : ((s.setWorker i w).workers j).result = some x) :
    (j = i ∧ w.result = some x) ∨ (s.workers j).result = some x := by
  rw [Indexing.setWorker_workers, Function.update_apply] at h
  split at h
  · rename_i hji
    exact Or.inl ⟨hji, h⟩
  · exact Or.inr h

variable {cfg : IndexerConfig}

theorem Pool.Backed.completed {s : PreviewPool β ι} (h : s.Backed indexPrefix Good) {i : ι}
    {job : Job} {result : PreviewResult} {db : IndexDb PreviewRow} {prov : FileID → Option Time}
    {w : WorkerState PreviewResult}
    (hgood : ∀ out width height, Good out width height → wrap 32 width = width ∧ wrap 32 height = height)
    (hresult : (s.indexing.workers i).result = some (job, result))
    (hdb : previewIndex.complete s.indexing.db s.indexing.now job.fileID result = .ok db)
    (hw : w.follows (s.indexing.workers i)) :
    Pool.Backed indexPrefix Good
      { s with indexing := { s.indexing with db, provenance := prov }.setWorker i w } where
  rows id row hrow := by
    rw [Indexing.setWorker_db, (IndexType.complete_ok hdb).2.2] at hrow
    cases hskip : result.skipped with
    | true => exact h.rows id row (by simpa [previewIndex, hskip] using hrow)
    | false =>
      have hback := h.results i job result hresult hskip
      obtain ⟨out, hout⟩ := hback.stored
      obtain ⟨hwidth, hheight⟩ := hgood out _ _ hout
      simp only [previewIndex, hskip, Bool.false_eq_true, if_false, Option.elim_some, hwidth,
        hheight] at hrow
      rcases eq_or_ne id job.fileID with rfl | hid
      · rw [AList.lookup_insert] at hrow
        obtain rfl := Option.some.inj hrow
        exact hback
      · rw [AList.lookup_insert_ne hid] at hrow
        exact h.rows id row hrow
  results j job' r hr hskip := by
    rcases result_of_setWorker hr with ⟨rfl, hnew⟩ | hold
    · exact h.results j job' r (hw.2 _ hnew) hskip
    · exact h.results j job' r hold hskip

theorem Pool.Backed.indexed {s t : PreviewPool β ι} (h : s.Backed indexPrefix Good)
    {a : IndexingAction β PreviewResult ι} (ha : a.bookkeeping = true)
    (hgood : ∀ out width height, Good out width height → wrap 32 width = width ∧ wrap 32 height = height)
    (hstep : s.step previewIndex cfg (.indexing a) = some t) : t.Backed indexPrefix Good := by
  obtain ⟨u, hu, rfl⟩ := Option.map_eq_some_iff.mp hstep
  cases indexingStep_of_step hu with
  | queued => exact h.kept (fun _ _ => rfl) (fun _ _ hr => hr) fun _ _ hr => hr
  | claimed =>
    refine h.kept (fun _ _ => rfl) (fun _ _ hr => hr) fun j x hr => ?_
    rcases result_of_setWorker hr with ⟨-, hr⟩ | hr
    · cases hr
    · exact hr
  | worked queue hw =>
    refine h.kept (fun _ _ => rfl) (fun _ _ hr => hr) fun j x hr => ?_
    rcases result_of_setWorker hr with ⟨rfl, hnew⟩ | hold
    · exact hw.2 x hnew
    · exact hold
  | completed hresult hfault hdb hw => exact h.completed hgood hresult hdb hw
  | ticked => exact h.kept (fun _ _ => rfl) (fun _ _ hr => hr) fun _ _ hr => hr
  | processed | upserted | replaced => cases ha

inductive PreviewProcessed (indexPrefix : Key) (render : β → Option (β × Int × Int)) (b : Bucket β)
    (now : Time) (job : Job) : Bucket β → Except Text PreviewResult → Prop
  | failed (cause : Text) : PreviewProcessed indexPrefix render b now job b (.error cause)
  | skipped : PreviewProcessed indexPrefix render b now job b (.ok skipPreview)
  | put {o : β} {out : β} {width height : Int} {outcome : Except Text PreviewResult} :
      render o = some (out, width, height) →
      (∀ r, outcome = .ok r → r = ⟨false, previewKey indexPrefix job.fileID, width, height⟩) →
      PreviewProcessed indexPrefix render b now job
        (b.put now (previewKey indexPrefix job.fileID) out) outcome

omit [DecidableEq ι] in
theorem previewProcessed (indexPrefix : Key) (render : β → Option (β × Int × Int)) (b : Bucket β)
    (now : Time) (job : Job) (faults : StorageFaults) :
    PreviewProcessed indexPrefix render b now job
      (previewProcess indexPrefix render b now job faults).1
      (previewProcess indexPrefix render b now job faults).2 := by
  unfold previewProcess
  split
  · exact .skipped
  · split
    · exact .failed _
    · split
      · exact .failed _
      · split
        · exact .skipped
        · rename_i hrender
          cases faults.put with
          | before => exact .failed _
          | after => exact .put hrender (by rintro _ ⟨⟩)
          | none => exact .put hrender (by rintro _ ⟨⟩; rfl)

theorem Pool.Backed.processed {s : PreviewPool β ι} (h : s.Backed indexPrefix Good) {i : ι}
    {render : β → Option (β × Int × Int)} {faults : StorageFaults}
    {u : Indexing β PreviewResult PreviewRow ι}
    (hrender : ∀ o out width height, render o = some (out, width, height) → Good out width height)
    (hu : s.indexing.previewStep indexPrefix render cfg i faults = some u) :
    Pool.Backed indexPrefix Good { s with indexing := u } := by
  unfold Indexing.previewStep at hu
  split at hu
  · rename_i job rest hw
    have hrun := previewProcessed indexPrefix render s.indexing.bucket s.indexing.now job faults
    generalize previewProcess indexPrefix render s.indexing.bucket s.indexing.now job faults = run
      at hrun hu
    obtain ⟨bucket, outcome⟩ := run
    obtain rfl := Option.some.inj hu
    have hstays {id key width height}
        (hback : PreviewBacked indexPrefix Good s.indexing.bucket id key width height) :
        PreviewBacked indexPrefix Good bucket id key width height := by
      cases hrun with
      | failed cause => exact hback
      | skipped => exact hback
      | put hout _ => exact hback.put (hrender _ _ _ _ hout)
    refine ⟨fun id row hrow => hstays (h.rows id row hrow), fun j job' r hr hskip => ?_⟩
    rcases result_of_setWorker hr with ⟨-, hnew⟩ | hold
    · cases hrun with
      | failed cause => cases hnew
      | skipped =>
        cases hnew
        cases hskip
      | @put o out width height _ hout hok =>
        cases outcome with
        | error cause => cases hnew
        | ok result =>
          obtain ⟨rfl, rfl⟩ : job = job' ∧ result = r := by simpa [WorkerState.result] using hnew
          obtain rfl := hok _ rfl
          have hgood := hrender _ _ _ _ hout
          have hput := (Bucket.lookup_put s.indexing.bucket s.indexing.now
            (previewKey indexPrefix job.fileID) (previewKey indexPrefix job.fileID) out).trans
            (if_pos rfl)
          exact ⟨rfl, ⟨out, hgood⟩, ⟨out, s.indexing.now⟩, width, height, hput, hgood⟩
    · exact hstays (h.results j job' r hold hskip)
  · cases hu

theorem Pool.backed_preserved {render : β → Option (β × Int × Int)}
    (hgood : ∀ out width height, Good out width height → wrap 32 width = width ∧ wrap 32 height = height)
    (hrender : ∀ o out width height, render o = some (out, width, height) → Good out width height) :
    Transition.Preserves (Pool.previewStep indexPrefix render cfg) (fun _ _ => True)
      fun s : PreviewPool β ι => s.Backed indexPrefix Good := by
  intro s a t h _ ht
  cases a with
  | indexing a =>
    simp only [Pool.previewStep] at ht
    split at ht
    · rename_i ha
      exact h.indexed ha hgood ht
    · cases ht
  | process i faults =>
    obtain ⟨u, hu, rfl⟩ := Option.map_eq_some_iff.mp ht
    exact h.processed hrender hu
  | store tx =>
    obtain ⟨db, hdb, rfl⟩ := Option.map_eq_some_iff.mp ht
    exact h.kept (fun _ _ => rfl) (fun _ _ hr => lookup_of_cascade hr) fun _ _ hr => hr
  | putObject key bytes =>
    simp only [Pool.previewStep] at ht
    split at ht
    · cases ht
    · rename_i hkey
      obtain rfl := Option.some.inj ht
      refine h.kept (fun k hk => ?_) (fun _ _ hr => hr) fun _ _ hr => hr
      dsimp only
      rw [Bucket.lookup_put, if_neg]
      rintro rfl
      exact hkey hk
  | deleteObject key =>
    simp only [Pool.previewStep] at ht
    split at ht
    · cases ht
    · rename_i hkey
      obtain rfl := Option.some.inj ht
      refine h.kept (fun k hk => ?_) (fun _ _ hr => hr) fun _ _ hr => hr
      dsimp only
      rw [Bucket.lookup_delete, if_neg]
      rintro rfl
      exact hkey hk

end Backed

section Rows

variable {I ι : Type} [DecidableEq ι]

open PreviewIndexer

def RowsBacked (indexPrefix : Key) (maxDim : Int) (s : PreviewPool StoredObject ι) : Prop :=
  ∀ id row, s.indexing.db.results.lookup id = some row →
    row.previewKey = previewKey indexPrefix id ∧
    (1 ≤ row.width ∧ row.width ≤ maxDim) ∧ (1 ≤ row.height ∧ row.height ≤ maxDim) ∧
    ∃ o w h, s.indexing.bucket.lookup row.previewKey = some o ∧ IsPreview maxDim o.bytes w h

def sized (width height : Int) : ImagePackages Unit where
  decodeConfig _ := .ok ⟨600, 400⟩
  decode _ := .ok ()
  bounds _ := (width, height)
  opaqueImage _ := none
  encodeJPEG _ _ _ _ := .ok (ascii "jpeg")
  encodePNG _ _ _ := .ok (ascii "png")

def within512 : PreviewConfig := ⟨512, 80, 1000000, 40000000⟩

def unindexedPhoto : PreviewPool StoredObject Unit where
  indexing :=
    { db := ⟨⟨[⟨1, ascii "p.jpg", 0, 0, 0⟩], 2, by decide, by decide, by decide⟩, fun _ => none, ∅⟩
      bucket := (∅ : Bucket StoredObject).put 0 (ascii "p.jpg") ⟨ascii "image/jpeg", ascii "bytes"⟩
      workers _ := .idle
      now := 1
      provenance _ := none }
  directories := ∅

def indexed : List (PreviewingAction StoredObject Unit) :=
  [.indexing .seedIndexQueue, .indexing (.claim () [1]), .process () ⟨false, .none, []⟩,
    .indexing (.complete () .none)]

end Rows

end FileIndexer
