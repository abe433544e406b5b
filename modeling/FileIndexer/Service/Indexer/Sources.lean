import FileIndexer.Service.Files.Uploads
import FileIndexer.Service.Indexer.Pool

namespace FileIndexer

structure Server (β R ρ ι κ : Type) where
  world : World β κ
  queue : IndexQueue
  results : Results ρ
  workers : ι → WorkerState R
  reads : ι → List (Object β)
  movers : κ → MoveState
  statted : List (Key × Time)

inductive ServerAction (β R ι κ : Type) where
  | index (a : IndexingAction β R ι)
  | read (i : ι)
  | process (i : ι)
  | move (j : κ) (fault : Fault)
  | put (key : Key) (bytes : β)
  | statUpload (key : Key)
  | upsertUpload (n : Nat)

abbrev ProcessFunc (β R : Type) := Job → List (Object β) → Except Text R

section Step

variable {β R ρ ι κ : Type}

def Server.indexing (s : Server β R ρ ι κ) : Indexing β R ρ ι where
  db := ⟨s.world.db.files, s.queue, s.results⟩
  bucket := s.world.bucket
  workers := s.workers
  now := s.world.now
  provenance _ := none

def Server.withIndexing (s : Server β R ρ ι κ) (t : Indexing β R ρ ι)
    (reads : ι → List (Object β)) : Server β R ρ ι κ :=
  { s with world := { s.world with now := t.now }, queue := t.db.queue, results := t.db.results,
           workers := t.workers, reads }

def IndexingAction.restarts : IndexingAction β R ι → Option ι
  | .claim i _ | .process i _ | .stop i => some i
  | _ => none

-- what the indexer process itself does; a result only comes out of process, the other writers are
-- the requests below
def IndexingAction.byIndexer : IndexingAction β R ι → Bool
  | .process _ (.ok _) | .upsertFiles _ | .replaceObject _ _ => false
  | _ => true

def WorkerState.current : WorkerState R → Option Job
  | .batch (job :: _) => some job
  | _ => none

variable [DecidableEq ι] [DecidableEq κ] (process : ProcessFunc β R) (T : IndexType R ρ)
  (cfg : IndexerConfig) (indexPrefix : Key) (reqs : κ → MoveFileRequest)

def Server.step (s : Server β R ρ ι κ) : ServerAction β R ι κ → Option (Server β R ρ ι κ)
  | .index a =>
    if a.byIndexer then
      (s.indexing.step T cfg a).map (s.withIndexing ·
        fun i => if a.restarts = some i then [] else s.reads i)
    else none
  | .read i =>
    match (s.workers i).current with
    | none => none
    | some job => (s.world.bucket.lookup job.key).map fun o =>
        { s with reads := Function.update s.reads i (s.reads i ++ [o]) }
  | .process i =>
    match (s.workers i).current with
    | none => none
    | some job =>
      match s.world.bucket.lookup job.key with
      | none => none
      | some o =>
        (s.indexing.step T cfg (.process i (process job (s.reads i ++ [o])))).map
          (s.withIndexing · (Function.update s.reads i []))
  | .move j fault =>
    (moveFileStep indexPrefix (reqs j) j fault s.world (s.movers j)).map fun (w, m) =>
      { s with world := w, movers := Function.update s.movers j m }
  | .put key bytes =>
    match validateUploadKey indexPrefix key with
    | .error _ => none
    | .ok key => some { s with
        world := { s.world with bucket := s.world.bucket.put s.world.now key bytes } }
  | .statUpload key => (statUploadedKey indexPrefix s.world key).map fun row =>
      { s with statted := s.statted ++ [row] }
  | .upsertUpload n =>
    match s.statted[n]? with
    | none => none
    | some row => (indexUploadedKey s.world row).map fun w =>
        { s with world := w, statted := s.statted.eraseIdx n }

def Server.written (s : Server β R ρ ι κ) : ServerAction β R ι κ → List Key
  | .put key _ => [key]
  | .move j fault =>
    match (s.movers j).sent (reqs j) fault with
    | some (.copy srcKey dstKey) =>
      if (s.world.bucket.lookup srcKey).isSome then [dstKey] else []
    | _ => []
  | _ => []

def Server.keyOf (s : Server β R ρ ι κ) (id : FileID) : Option Key :=
  (s.world.db.files.getFile id).map File.key

def Server.content (s : Server β R ρ ι κ) (id : FileID) : Option β :=
  (s.keyOf id).bind s.world.bucket.bytesAt

structure Contents (β : Type) where
  held : FileID → List β
  dirty : FileID → Key → Bool

def Contents.start : Contents β := ⟨fun _ => [], fun _ _ => true⟩

def Contents.record (s : Server β R ρ ι κ) (a : ServerAction β R ι κ) (g : Contents β) :
    Contents β where
  held id := (s.content id).toList ++ g.held id
  dirty id k :=
    if k ∈ s.written reqs a then s.keyOf id ≠ some k
    else if s.keyOf id = some k then false
    else g.dirty id k

def Owned (p : Server β R ρ ι κ × Contents β) (id : FileID) (bytes : β) : Prop :=
  p.1.content id = some bytes ∨ bytes ∈ p.2.held id

def ResultsOwned (p : Server β R ρ ι κ × Contents β) : Prop :=
  ∀ id row, p.1.results.lookup id = some row → ∃ job objs result now, job.fileID = id ∧
    process job objs = .ok result ∧ T.row now result = some row ∧ ∀ o ∈ objs, Owned p id o.bytes

def ReadsUnreplaced (p : Server β R ρ ι κ × Contents β) : ServerAction β R ι κ → Prop
  | .read i | .process i => ∀ job ∈ (p.1.workers i).current,
      p.1.keyOf job.fileID = some job.key ∨ p.2.dirty job.fileID job.key = false
  | _ => True

end Step

section Invariant

variable {β R ρ ι κ : Type} {process : ProcessFunc β R} {T : IndexType R ρ} {cfg : IndexerConfig}
  {indexPrefix : Key} {reqs : κ → MoveFileRequest}

structure Server.Evolves (reqs : κ → MoveFileRequest) (s : Server β R ρ ι κ)
    (a : ServerAction β R ι κ) (t : Server β R ρ ι κ) : Prop where
  bytes : ∀ k ∉ s.written reqs a, ∀ b, t.world.bucket.bytesAt k = some b →
    s.world.bucket.bytesAt k = some b
  files : s.written reqs a ≠ [] → t.world.db.files = s.world.db.files

theorem Server.Evolves.of_same {s t : Server β R ρ ι κ} {a : ServerAction β R ι κ}
    (hbucket : t.world.bucket = s.world.bucket) (hwritten : s.written reqs a = []) :
    Server.Evolves reqs s a t where
  bytes k _ b hb := by rwa [hbucket] at hb
  files h := absurd hwritten h

theorem owned_of_record {s t : Server β R ρ ι κ} {a : ServerAction β R ι κ} {g : Contents β}
    {id : FileID} {b : β} (h : Owned (s, g) id b) : Owned (t, g.record reqs s a) id b := by
  refine Or.inr (List.mem_append.mpr (h.imp_left fun hc => ?_))
  have hc : s.content id = some b := hc
  simp [hc]

theorem evolves_move [DecidableEq κ] {s t : Server β R ρ ι κ} {j : κ} {fault : Fault}
    (h : MoveStep indexPrefix (reqs j) j fault s.world (s.movers j) t.world (t.movers j)) :
    Server.Evolves reqs s (.move j fault) t where
  bytes k hk b hb := by
    rw [bucket_of_moveStep h] at hb
    unfold Server.written at hk
    cases hsent : (s.movers j).sent (reqs j) fault with
    | none => simpa [hsent, Bucket.serve] using hb
    | some r =>
      cases r with
      | delete key =>
        simp only [hsent, Bucket.serve, Bucket.bytesAt_delete] at hb
        split at hb
        · cases hb
        · exact hb
      | copy srcKey dstKey =>
        simp only [hsent] at hk
        cases hsrc : s.world.bucket.lookup srcKey with
        | none => simpa [hsent, Bucket.serve, Bucket.copy, hsrc, Except.toOption] using hb
        | some o =>
          have hne : k ≠ dstKey := by simpa [hsrc] using hk
          simpa [hsent, Bucket.serve, Bucket.copy, hsrc, Except.toOption, hne] using hb
  files hne := by
    rcases (db_of_moveStep h).2 with hdb | ⟨hrow, -⟩
    · rw [hdb]
    · cases hm : s.movers j with
      | moveFileWithDirectories old cur =>
        refine absurd ?_ hne
        simp only [Server.written, hm, MoveState.sent, MoveState.request]
        split <;> simp_all
      | _ =>
        rw [hm] at hrow
        cases hrow

structure Traced (process : ProcessFunc β R) (T : IndexType R ρ)
    (p : Server β R ρ ι κ × Contents β) : Prop where
  clean : ∀ id k, p.2.dirty id k = false → ∀ b, p.1.world.bucket.bytesAt k = some b → Owned p id b
  reading : ∀ i job, (p.1.workers i).current = some job →
    ∀ o ∈ p.1.reads i, Owned p job.fileID o.bytes
  unread : ∀ i, (p.1.workers i).current = none → p.1.reads i = []
  computed : ∀ i job result, (p.1.workers i).result = some (job, result) →
    ∃ objs, process job objs = .ok result ∧ ∀ o ∈ objs, Owned p job.fileID o.bytes
  stored : ResultsOwned process T p

theorem clean_of_evolves {s t : Server β R ρ ι κ} {a : ServerAction β R ι κ} {g : Contents β}
    (h : Traced process T (s, g)) (hev : Server.Evolves reqs s a t) (id : FileID) (k : Key)
    (hdirty : (g.record reqs s a).dirty id k = false) (b : β)
    (hb : t.world.bucket.bytesAt k = some b) : Owned (t, g.record reqs s a) id b := by
  simp only [Contents.record] at hdirty
  split at hdirty
  · rename_i hk
    have hkey : s.keyOf id = some k := by simpa using hdirty
    have hfiles := hev.files (List.ne_nil_of_mem hk)
    refine Or.inl ?_
    show (t.keyOf id).bind t.world.bucket.bytesAt = some b
    rw [Server.keyOf, hfiles, ← Server.keyOf, hkey]
    exact hb
  · rename_i hk
    have hb := hev.bytes k hk b hb
    split at hdirty
    · rename_i hkey
      exact owned_of_record (Or.inl (by simp [Server.content, hkey, hb]))
    · exact owned_of_record (h.clean id k hdirty b hb)

theorem owned_of_unreplaced {s : Server β R ρ ι κ} {g : Contents β} {job : Job} {o : Object β}
    (h : Traced process T (s, g)) (ho : s.world.bucket.lookup job.key = some o)
    (hok : s.keyOf job.fileID = some job.key ∨ g.dirty job.fileID job.key = false) :
    Owned (s, g) job.fileID o.bytes := by
  have hbytes : s.world.bucket.bytesAt job.key = some o.bytes := by simp [Bucket.bytesAt, ho]
  rcases hok with hkey | hclean
  · exact Or.inl (by simp [Server.content, hkey, hbytes])
  · exact h.clean job.fileID job.key hclean o.bytes hbytes

theorem Traced.of_workers {s t : Server β R ρ ι κ} {a : ServerAction β R ι κ} {g : Contents β}
    (h : Traced process T (s, g)) (hev : Server.Evolves reqs s a t) (hworkers : t.workers = s.workers)
    (hreads : t.reads = s.reads) (hresults : t.results = s.results) :
    Traced process T (t, g.record reqs s a) where
  clean := clean_of_evolves h hev
  reading i job hjob o ho := owned_of_record (h.reading i job (hworkers ▸ hjob) o (hreads ▸ ho))
  unread i hi := by
    show t.reads i = []
    rw [hreads]
    exact h.unread i (hworkers ▸ hi)
  computed i job result hr := by
    obtain ⟨objs, hobjs, howned⟩ := h.computed i job result (hworkers ▸ hr)
    exact ⟨objs, hobjs, fun o ho => owned_of_record (howned o ho)⟩
  stored id row hrow := by
    obtain ⟨job, objs, result, now, hid, hobjs, hr, howned⟩ := h.stored id row (hresults ▸ hrow)
    exact ⟨job, objs, result, now, hid, hobjs, hr, fun o ho => owned_of_record (howned o ho)⟩

variable [DecidableEq ι]

theorem evolves_of_step [DecidableEq κ] {s t : Server β R ρ ι κ} {a : ServerAction β R ι κ}
    (h : s.step process T cfg indexPrefix reqs a = some t) : Server.Evolves reqs s a t := by
  cases a with
  | index a =>
    simp only [Server.step, Option.ite_none_right_eq_some] at h
    obtain ⟨u, -, rfl⟩ := Option.map_eq_some_iff.mp h.2
    exact .of_same rfl rfl
  | read i =>
    simp only [Server.step] at h
    split at h
    · cases h
    · obtain ⟨o, -, rfl⟩ := Option.map_eq_some_iff.mp h
      exact .of_same rfl rfl
  | process i =>
    simp only [Server.step] at h
    split at h
    · cases h
    · split at h
      · cases h
      · obtain ⟨u, -, rfl⟩ := Option.map_eq_some_iff.mp h
        exact .of_same rfl rfl
  | move j fault =>
    obtain ⟨⟨w, m⟩, hwm, rfl⟩ := Option.map_eq_some_iff.mp h
    have hstep := moveStep_of_step hwm
    exact evolves_move (by simpa using hstep)
  | put key bytes =>
    simp only [Server.step] at h
    split at h
    · cases h
    · rename_i k hk
      obtain ⟨rfl, -⟩ := validateUploadKey_ok_iff.mp hk
      obtain rfl := Option.some.inj h
      refine ⟨fun k' hk' b hb => ?_, fun _ => rfl⟩
      have hne : k' ≠ k := by simpa [Server.written] using hk'
      simpa [hne] using hb
  | statUpload key =>
    obtain ⟨row, -, rfl⟩ := Option.map_eq_some_iff.mp h
    exact .of_same rfl rfl
  | upsertUpload n =>
    simp only [Server.step] at h
    split at h
    · cases h
    · obtain ⟨w, hw, rfl⟩ := Option.map_eq_some_iff.mp h
      obtain ⟨x, db, -, rfl⟩ := indexUploadedKey_some hw
      exact .of_same rfl rfl

theorem results_of_poolStep {s u : Indexing β R ρ ι} {a : IndexingAction β R ι}
    (h : PoolStep T cfg s (.indexing a) u) : u.db.results = s.db.results ∨
      ∃ i job result, (s.workers i).result = some (job, result) ∧
        u.db.results = (T.row s.now result).elim s.db.results (s.db.results.insert job.fileID) := by
  cases h with
  | @completed i fault job result readAt tries rest db prov w hw hfault hdb =>
    exact Or.inr ⟨i, job, result, by rw [hw]; rfl, (IndexType.complete_ok hdb).2.2⟩
  | _ => exact Or.inl rfl

theorem WorkerState.Resumes.result {v w : WorkerState R} (h : v.Resumes w) {x : Job × R}
    (hx : w.result = some x) : v.result = some x := by
  cases h with
  | complete => exact hx
  | _ => cases hx

theorem WorkerState.Resumes.current {v w : WorkerState R} (h : v.Resumes w) : v.current = none := by
  cases h <;> rfl

theorem worker_of_indexed {s u : Indexing β R ρ ι} {a : IndexingAction β R ι}
    (h : PoolStep T cfg s (.indexing a) u) (ha : a.byIndexer = true) (i : ι) :
    (u.workers i = s.workers i ∨ a.restarts = some i ∨ (s.workers i).current = none) ∧
      ∀ x, (u.workers i).result = some x → (s.workers i).result = some x := by
  have hset (j : ι) (w : WorkerState R) (hj : a.restarts = some j ∨ (s.workers j).current = none)
      (hw : ∀ x, w.result = some x → (s.workers j).result = some x) :
      (Function.update s.workers j w i = s.workers i ∨ a.restarts = some i ∨
        (s.workers i).current = none) ∧
        ∀ x, (Function.update s.workers j w i).result = some x → (s.workers i).result = some x := by
    rcases eq_or_ne i j with rfl | hij
    · rw [Function.update_self]
      exact ⟨Or.inr hj, hw⟩
    · rw [Function.update_of_ne hij]
      exact ⟨Or.inl rfl, fun _ hx => hx⟩
  cases h with
  | claimed => exact hset _ _ (Or.inl rfl) (fun x hx => by cases hx)
  | processed => cases ha
  | errored => exact hset _ _ (Or.inl rfl) (fun x hx => by cases hx)
  | unwritten _ _ hw => exact hset _ _ (Or.inr hw.current) fun x hx => hw.result hx
  | completed _ _ _ hw => exact hset _ _ (Or.inr hw.current) fun x hx => hw.result hx
  | failed _ _ hw => exact hset _ _ (Or.inr hw.current) fun x hx => hw.result hx
  | stopped => exact hset _ _ (Or.inl rfl) (fun x hx => by cases hx)
  | _ => exact ⟨Or.inl rfl, fun _ hx => hx⟩

theorem Traced.indexed {s : Server β R ρ ι κ} {u : Indexing β R ρ ι} {a : IndexingAction β R ι}
    {g : Contents β} (h : Traced process T (s, g)) (ha : a.byIndexer = true)
    (hu : PoolStep T cfg s.indexing (.indexing a) u) :
    Traced process T (s.withIndexing u fun i => if a.restarts = some i then [] else s.reads i,
      g.record reqs s (.index a)) where
  clean := clean_of_evolves h (.of_same rfl rfl)
  reading i job hjob o ho := by
    change o ∈ (if a.restarts = some i then [] else s.reads i) at ho
    have hjob : (u.workers i).current = some job := hjob
    split at ho
    · cases ho
    · rename_i hrestart
      rcases (worker_of_indexed hu ha i).1 with hsame | hrestarts | hnone
      · rw [hsame] at hjob
        exact owned_of_record (h.reading i job hjob o ho)
      · exact absurd hrestarts hrestart
      · rw [h.unread i hnone] at ho
        cases ho
  unread i hi := by
    show (if a.restarts = some i then [] else s.reads i) = []
    have hi : (u.workers i).current = none := hi
    split
    · rfl
    · rename_i hrestart
      rcases (worker_of_indexed hu ha i).1 with hsame | hrestarts | hnone
      · rw [hsame] at hi
        exact h.unread i hi
      · exact absurd hrestarts hrestart
      · exact h.unread i hnone
  computed i job result hr := by
    obtain ⟨objs, hobjs, howned⟩ := h.computed i job result ((worker_of_indexed hu ha i).2 _ hr)
    exact ⟨objs, hobjs, fun o ho => owned_of_record (howned o ho)⟩
  stored id row hrow := by
    have hold (hrow : s.results.lookup id = some row) : ∃ job objs result now, job.fileID = id ∧
        process job objs = .ok result ∧ T.row now result = some row ∧ ∀ o ∈ objs,
          Owned (s.withIndexing u fun i => if a.restarts = some i then [] else s.reads i,
            g.record reqs s (.index a)) id o.bytes := by
      obtain ⟨job, objs, result, now, hid, hobjs, hr, howned⟩ := h.stored id row hrow
      exact ⟨job, objs, result, now, hid, hobjs, hr, fun o ho => owned_of_record (howned o ho)⟩
    have hrow : u.db.results.lookup id = some row := hrow
    rcases results_of_poolStep hu with hsame | ⟨i, job, result, hworker, hresults⟩
    · exact hold (hsame ▸ hrow : s.indexing.db.results.lookup id = some row)
    · rw [hresults] at hrow
      cases hr : T.row s.indexing.now result with
      | none =>
        rw [hr] at hrow
        exact hold hrow
      | some new =>
        rw [hr] at hrow
        rcases eq_or_ne id job.fileID with rfl | hid
        · have hnew : new = row := by simpa using hrow
          obtain ⟨objs, hobjs, howned⟩ := h.computed i job result hworker
          exact ⟨job, objs, result, s.indexing.now, rfl, hobjs, hnew ▸ hr,
            fun o ho => owned_of_record (howned o ho)⟩
        · exact hold ((AList.lookup_insert_ne hid).symm.trans hrow)

theorem Traced.processed {s : Server β R ρ ι κ} {u : Indexing β R ρ ι} {i : ι} {g : Contents β}
    {job : Job} {objs : List (Object β)} (h : Traced process T (s, g))
    (hjob : (s.workers i).current = some job)
    (howned : ∀ o ∈ objs, Owned (s, g) job.fileID o.bytes)
    (hu : PoolStep T cfg s.indexing (.indexing (.process i (process job objs))) u) :
    Traced process T (s.withIndexing u (Function.update s.reads i []),
      g.record reqs s (.process i)) := by
  have hcases : ∃ w : WorkerState R, u = s.indexing.setWorker i w ∧ w.current = none ∧
      ∀ x, w.result = some x → x.1 = job ∧ process job objs = .ok x.2 := by
    generalize hout : process job objs = outcome at hu
    cases hu with
    | @processed _ result job' _ rest hw =>
      refine ⟨_, rfl, rfl, fun x hx => ?_⟩
      obtain rfl := Option.some.inj hx
      have hworker : s.workers i = .batch (job' :: rest) := hw
      rw [hworker] at hjob
      exact ⟨Option.some.inj hjob, rfl⟩
    | errored hw => exact ⟨_, rfl, rfl, fun x hx => by cases hx⟩
    | unwritten hfault => cases hfault
  obtain ⟨w, rfl, hcurrent, hresult⟩ := hcases
  refine ⟨clean_of_evolves h (.of_same rfl rfl), fun j b hb o ho => ?_, fun j hj => ?_,
    fun j b result hr => ?_, fun id row hrow => ?_⟩
  · change (Function.update s.workers i w j).current = some b at hb
    change o ∈ Function.update s.reads i [] j at ho
    rcases eq_or_ne j i with rfl | hij
    · rw [Function.update_self] at ho
      cases ho
    · rw [Function.update_of_ne hij] at hb ho
      exact owned_of_record (h.reading j b hb o ho)
  · change (Function.update s.workers i w j).current = none at hj
    show Function.update s.reads i [] j = []
    rcases eq_or_ne j i with rfl | hij
    · exact Function.update_self ..
    · rw [Function.update_of_ne hij] at hj ⊢
      exact h.unread j hj
  · change (Function.update s.workers i w j).result = some (b, result) at hr
    rcases eq_or_ne j i with rfl | hij
    · rw [Function.update_self] at hr
      obtain ⟨rfl, hprocess⟩ := hresult _ hr
      exact ⟨objs, hprocess, fun o ho => owned_of_record (howned o ho)⟩
    · rw [Function.update_of_ne hij] at hr
      obtain ⟨objs, hobjs, howned⟩ := h.computed j b result hr
      exact ⟨objs, hobjs, fun o ho => owned_of_record (howned o ho)⟩
  · obtain ⟨job, objs, result, now, hid, hobjs, hr, howned⟩ := h.stored id row hrow
    exact ⟨job, objs, result, now, hid, hobjs, hr, fun o ho => owned_of_record (howned o ho)⟩

theorem Traced.read {s : Server β R ρ ι κ} {i : ι} {g : Contents β} {job : Job} {o : Object β}
    (h : Traced process T (s, g)) (hjob : (s.workers i).current = some job)
    (howned : Owned (s, g) job.fileID o.bytes) :
    Traced process T ({ s with reads := Function.update s.reads i (s.reads i ++ [o]) },
      g.record reqs s (.read i)) := by
  refine ⟨clean_of_evolves h (.of_same rfl rfl), fun j b hb x hx => ?_, fun j hj => ?_,
    fun j b result hr => ?_, fun id row hrow => ?_⟩
  · change x ∈ Function.update s.reads i (s.reads i ++ [o]) j at hx
    rcases eq_or_ne j i with rfl | hij
    · obtain rfl : b = job := Option.some.inj (hb.symm.trans hjob)
      rw [Function.update_self, List.mem_append, List.mem_singleton] at hx
      rcases hx with hx | rfl
      · exact owned_of_record (h.reading j b hb x hx)
      · exact owned_of_record howned
    · rw [Function.update_of_ne hij] at hx
      exact owned_of_record (h.reading j b hb x hx)
  · show Function.update s.reads i (s.reads i ++ [o]) j = []
    rcases eq_or_ne j i with rfl | hij
    · cases hjob.symm.trans hj
    · rw [Function.update_of_ne hij]
      exact h.unread j hj
  · obtain ⟨objs, hobjs, howned⟩ := h.computed j b result hr
    exact ⟨objs, hobjs, fun o ho => owned_of_record (howned o ho)⟩
  · obtain ⟨job, objs, result, now, hid, hobjs, hr, howned⟩ := h.stored id row hrow
    exact ⟨job, objs, result, now, hid, hobjs, hr, fun o ho => owned_of_record (howned o ho)⟩

theorem traced_preserved [DecidableEq κ] {s t : Server β R ρ ι κ} {a : ServerAction β R ι κ}
    {g : Contents β} (h : Traced process T (s, g)) (hok : ReadsUnreplaced (s, g) a)
    (ht : s.step process T cfg indexPrefix reqs a = some t) :
    Traced process T (t, g.record reqs s a) := by
  have hev := evolves_of_step ht
  cases a with
  | index a =>
    simp only [Server.step, Option.ite_none_right_eq_some] at ht
    obtain ⟨u, hu, rfl⟩ := Option.map_eq_some_iff.mp ht.2
    exact h.indexed ht.1 (poolStep_of_indexing hu)
  | read i =>
    simp only [Server.step] at ht
    split at ht
    · cases ht
    · rename_i job hjob
      obtain ⟨o, ho, rfl⟩ := Option.map_eq_some_iff.mp ht
      exact h.read hjob (owned_of_unreplaced h ho (hok job hjob))
  | process i =>
    simp only [Server.step] at ht
    split at ht
    · cases ht
    · rename_i job hjob
      split at ht
      · cases ht
      · rename_i o ho
        obtain ⟨u, hu, rfl⟩ := Option.map_eq_some_iff.mp ht
        refine h.processed hjob (fun x hx => ?_) (poolStep_of_indexing hu)
        rcases List.mem_append.mp hx with hx | hx
        · exact h.reading i job hjob x hx
        · obtain rfl := List.mem_singleton.mp hx
          exact owned_of_unreplaced h ho (hok job hjob)
  | move j fault =>
    obtain ⟨⟨w, m⟩, -, rfl⟩ := Option.map_eq_some_iff.mp ht
    exact h.of_workers hev rfl rfl rfl
  | put key bytes =>
    simp only [Server.step] at ht
    split at ht
    · cases ht
    · obtain rfl := Option.some.inj ht
      exact h.of_workers hev rfl rfl rfl
  | statUpload key =>
    obtain ⟨row, -, rfl⟩ := Option.map_eq_some_iff.mp ht
    exact h.of_workers hev rfl rfl rfl
  | upsertUpload n =>
    simp only [Server.step] at ht
    split at ht
    · cases ht
    · obtain ⟨w, -, rfl⟩ := Option.map_eq_some_iff.mp ht
      exact h.of_workers hev rfl rfl rfl

theorem results_from_own_content [DecidableEq κ] (s : Server β R ρ ι κ)
    (hidle : ∀ i, s.workers i = .idle ∧ s.reads i = []) (hresults : ∀ id, s.results.lookup id = none)
    (as : List (ServerAction β R ι κ))
    (hok : Transition.EveryStep (Transition.recorded (Server.step process T cfg indexPrefix reqs)
      (Contents.record reqs)) ReadsUnreplaced (s, Contents.start) as) :
    Transition.EveryState (Transition.recorded (Server.step process T cfg indexPrefix reqs)
      (Contents.record reqs)) (ResultsOwned process T) (s, Contents.start) as := by
  have hpres : Transition.Preserves (Transition.recorded (Server.step process T cfg indexPrefix reqs)
      (Contents.record reqs)) ReadsUnreplaced
      fun p : Server β R ρ ι κ × Contents β => Traced process T p := by
    intro p a q h hok ht
    obtain ⟨ht, hg⟩ := Transition.recorded_eq_some_iff.mp ht
    have h := traced_preserved h hok ht
    rwa [← hg] at h
  have hinit : Traced process T (s, Contents.start) := by
    refine ⟨fun id k hd => ?_, fun i job hjob => ?_, fun i _ => (hidle i).2, fun i job result hr => ?_,
      fun id row hrow => ?_⟩
    · cases hd
    · rw [(hidle i).1] at hjob
      cases hjob
    · rw [(hidle i).1] at hr
      cases hr
    · cases (hresults id).symm.trans hrow
  exact (Transition.everyState_of_preserves hpres as hinit hok).mono fun _ h => h.stored

end Invariant

section Runs

abbrev StatServer := Server String StatResult StatRow Unit Unit

def statProcess : ProcessFunc String StatResult
  | _, [o] => .ok ⟨ascii "text/plain", o.bytes.length, o.lastModified⟩
  | _, _ => .error (ascii "not one object")

def servedNote : StatServer where
  world :=
    { db := ⟨oneNote.db.files, ∅⟩, previewKeys := fun _ => none, bucket := oneNote.bucket,
      locks := fun _ => none, now := 1 }
  queue _ := none
  results := ∅
  workers _ := .idle
  reads _ := []
  movers _ := .getFile
  statted := []

def toArchive (_ : Unit) : MoveFileRequest := ⟨1, ascii "archive"⟩

instance readsUnreplacedDecidable (p : StatServer × Contents String) :
    (a : ServerAction String StatResult Unit Unit) → Decidable (ReadsUnreplaced p a)
  | .read i | .process i => inferInstanceAs (Decidable (∀ job ∈ (p.1.workers i).current,
      p.1.keyOf job.fileID = some job.key ∨ p.2.dirty job.fileID job.key = false))
  | .index _ | .move _ _ | .put _ _ | .statUpload _ | .upsertUpload _ => isTrue trivial

def movedWhileClaimed : List (ServerAction String StatResult Unit Unit) :=
  ServerAction.index .seedIndexQueue :: ServerAction.index (.claim () [1]) ::
    List.replicate 10 (ServerAction.move () .none)

def reuploaded : List (ServerAction String StatResult Unit Unit) :=
  [.put (ascii "note") "another note", .statUpload (ascii "note"), .upsertUpload 0, .process (),
    .index (.complete () .none)]

def SizeOwned (p : StatServer × Contents String) : Prop :=
  ∀ row ∈ p.1.results.lookup 1, ∃ b ∈ (p.1.content 1).toList ++ p.2.held 1,
    row.sizeBytes = wrap 64 b.length

instance sizeOwnedDecidable : DecidablePred SizeOwned := fun p =>
  inferInstanceAs (Decidable (∀ row ∈ p.1.results.lookup 1, _))

theorem size_of_owned {p : StatServer × Contents String}
    (h : ResultsOwned statProcess statIndex p) : SizeOwned p := by
  intro row hrow
  obtain ⟨job, objs, result, now, -, hprocess, hr, howned⟩ := h 1 row hrow
  cases objs with
  | nil => cases hprocess
  | cons o rest =>
    cases rest with
    | cons => cases hprocess
    | nil =>
      obtain rfl := Except.ok.inj hprocess
      have hrow : (⟨ascii "text/plain", wrap 64 o.bytes.length, o.lastModified, now⟩ : StatRow) = row :=
        Option.some.inj hr
      refine ⟨o.bytes, ?_, by rw [← hrow]⟩
      rcases howned o List.mem_cons_self with hcontent | hheld
      · exact List.mem_append_left _ (by simpa using hcontent)
      · exact List.mem_append_right _ hheld

theorem stat_of_successor_stored :
    ¬Transition.EveryState (Transition.recorded
      (Server.step statProcess statIndex statConfig (ascii ".index/") toArchive)
      (Contents.record toArchive)) (ResultsOwned statProcess statIndex)
      (servedNote, Contents.start) (movedWhileClaimed ++ reuploaded) := by
  intro h
  have hsize := h.mono fun _ => size_of_owned
  exact absurd hsize (by decide)

theorem results_from_own_content_moved :
    Transition.EveryState (Transition.recorded
      (Server.step statProcess statIndex statConfig (ascii ".index/") toArchive)
      (Contents.record toArchive)) (ResultsOwned statProcess statIndex)
      (servedNote, Contents.start)
      (ServerAction.index .seedIndexQueue :: ServerAction.index (.claim () [1]) ::
        List.replicate 9 (ServerAction.move () .none) ++
          [ServerAction.process (), ServerAction.index (.complete () .none)]) :=
  results_from_own_content servedNote (fun _ => ⟨rfl, rfl⟩) (fun _ => rfl) _ (by decide)

end Runs

end FileIndexer
