import FileIndexer.Service.Files.FilesService
import FileIndexer.Service.Search.Browse
import FileIndexer.Web.PlanParts
import FileIndexer.Web.UploadPath

namespace FileIndexer

namespace Browser

open Transition UploadPath

def multipartThresholdBytes : Nat := 2 * partSizeBytes

section Batch

variable {α ι : Type}

def fileKey (path : List Char) (file : FileLike α) : Key :=
  Utf8.encode (uploadKey path file.name.toList)

-- what the turn of the loop awaits; a PUT or a call goes on after the page has given up on it
inductive Awaited where
  | call (request : FilesRequest) (call : FilesCall)
  | put (stored : Bool)
  | multipart

inductive Phase where
  | turn
  | awaiting (on : Awaited)
  | failed (left : Awaited)
  | finished

structure UploadBatch (α ι : Type) where
  world : World (List α) ι
  todo : List (FileLike α)
  phase : Phase

inductive OtherAction (α : Type) where
  | put (key : Key) (bytes : List α)
  | delete (key : Key)
  | transaction (tx : Transaction)
  | tick (d : Nat)

inductive BatchAction (α : Type) where
  | next
  | serve (fault : Fault) (pick : Nat) (assembled : Option (List α))
  | store
  | complete (uploadId : String)
  | answer
  | giveUp
  | other (a : OtherAction α)

def OtherAction.run (w : World (List α) ι) : OtherAction α → World (List α) ι
  | .put key bytes => { w with bucket := w.bucket.put w.now key bytes }
  | .delete key => { w with bucket := w.bucket.delete key }
  | .transaction tx => { w with db := (withTx w.db tx).getD w.db }
  | .tick d => { w with now := w.now + d }

namespace UploadBatch

def start (w : World (List α) ι) (files : List (FileLike α)) : UploadBatch α ι := ⟨w, files, .turn⟩

variable [DecidableEq ι] (indexPrefix : Key) (path : List Char) (me : ι)

def next (s : UploadBatch α ι) : Phase :=
  match s.todo with
  | [] => .finished
  | file :: _ =>
    if multipartThresholdBytes ≤ file.size then .awaiting .multipart
    else .awaiting (.call (.getUploadURL (fileKey path file)) .received)

def store (s : UploadBatch α ι) : World (List α) ι :=
  match s.todo with
  | [] => s.world
  | file :: _ =>
    { s.world with bucket := s.world.bucket.put s.world.now (fileKey path file) file.bytes }

def serve (s : UploadBatch α ι) (fault : Fault) (pick : Nat) (assembled : Option (List α))
    (request : FilesRequest) (call : FilesCall) : Option (World (List α) ι × Awaited) :=
  (filesCallStep indexPrefix me request fault pick assembled s.world call).map
    fun (w, call) => (w, .call request call)

def succeed (s : UploadBatch α ι) : FilesRequest → UploadBatch α ι
  | .getUploadURL _ => { s with phase := .awaiting (.put false) }
  | _ => ⟨s.world, s.todo.tail, .turn⟩

def answer (s : UploadBatch α ι) : Awaited → Option (UploadBatch α ι)
  | .call request (.done none) => some (s.succeed request)
  | .call request (.done (some e)) => some { s with phase := .failed (.call request (.done (some e))) }
  | .put true => s.todo.head?.map fun file =>
      { s with phase := .awaiting (.call (.commitUpload (fileKey path file)) .received) }
  | _ => none

def step (s : UploadBatch α ι) : BatchAction α → Option (UploadBatch α ι)
  | .next =>
    match s.phase with
    | .turn => some { s with phase := s.next path }
    | _ => none
  | .serve fault pick assembled =>
    match s.phase with
    | .awaiting (.call request call) => (s.serve indexPrefix me fault pick assembled request call).map
        fun (world, on) => { s with world, phase := .awaiting on }
    | .failed (.call request call) => (s.serve indexPrefix me fault pick assembled request call).map
        fun (world, left) => { s with world, phase := .failed left }
    | _ => none
  | .store =>
    match s.phase with
    | .awaiting (.put false) => some { s with world := s.store path, phase := .awaiting (.put true) }
    | .failed (.put false) => some { s with world := s.store path, phase := .failed (.put true) }
    | _ => none
  | .complete uploadId =>
    match s.phase with
    | .awaiting .multipart => s.todo.head?.map fun file => { s with
        phase := .awaiting (.call (.completeMultipartUpload (fileKey path file) uploadId) .received) }
    | _ => none
  | .answer =>
    match s.phase with
    | .awaiting on => s.answer path on
    | _ => none
  | .giveUp =>
    match s.phase with
    | .awaiting on => some { s with phase := .failed on }
    | _ => none
  | .other a => some { s with world := a.run s.world }

end UploadBatch

-- a crawl may register an object that was there before the upload
def Spared (w w' : World (List α) ι) (key : Key) : Prop :=
  w'.bucket.bytesAt key = w.bucket.bytesAt key ∧
    (w'.db.files.ownerAt key = w.db.files.ownerAt key ∨
      w.db.files.ownerAt key = none ∧ w.bucket.bytesAt key ≠ none)

def Spares (keys : List Key) (w : World (List α) ι) (a : OtherAction α) : Prop :=
  (∀ key ∈ keys, Spared w (a.run w) key) ∧ ∀ tx, a = .transaction tx → KeysOfIDs w.db tx

def Undisturbed (path : List Char) (files : List (FileLike α)) (s : UploadBatch α ι) :
    BatchAction α → Prop
  | .serve _ _ assembled => ∀ bytes ∈ assembled, ∀ file ∈ s.todo.head?, bytes = file.bytes
  | .other a => Spares (files.map (fileKey path)) s.world a
  | _ => True

section Spared

variable {w w' w'' : World (List α) ι} {key : Key}

theorem Spared.refl (w : World (List α) ι) (key : Key) : Spared w w key := ⟨rfl, Or.inl rfl⟩

theorem Spared.trans (h : Spared w w' key) (h' : Spared w' w'' key) : Spared w w'' key := by
  obtain ⟨hbytes, howner⟩ := h
  obtain ⟨hbytes', howner'⟩ := h'
  refine ⟨hbytes'.trans hbytes, ?_⟩
  rcases howner with howner | hfound
  · rw [howner, hbytes] at howner'
    exact howner'
  · exact Or.inr hfound

theorem Spared.owner_ne_none (h : Spared w w' key) (ho : w.db.files.ownerAt key ≠ none) :
    w'.db.files.ownerAt key ≠ none := by
  rcases h.2 with howner | ⟨hnone, -⟩
  · rwa [howner]
  · exact absurd hnone ho

theorem exact_other {a : OtherAction α} (h : w.db.DirectoriesExact)
    (hkeys : ∀ tx, a = .transaction tx → KeysOfIDs w.db tx) : (a.run w).db.DirectoriesExact := by
  cases a with
  | transaction tx =>
    cases htx : withTx w.db tx with
    | none =>
      simp only [OtherAction.run, htx]
      exact h
    | some db =>
      simp only [OtherAction.run, htx]
      exact exact_withTx w.db tx db h (hkeys tx rfl) htx
  | _ => exact h

end Spared

section Serve

variable {indexPrefix : Key} {w₀ w w' : World (List α) ι} {bytes : List α} {key : Key}
  {request : FilesRequest} {call call' : FilesCall}

structure Stored (indexPrefix : Key) (bytes : List α) (key : Key) (w : World (List α) ι) : Prop where
  accepted : FilesService.Accepted indexPrefix key
  object : w.bucket.bytesAt key = some bytes

structure Landed (indexPrefix : Key) (bytes : List α) (key : Key) (w : World (List α) ι) : Prop
    extends Stored indexPrefix bytes key w where
  row : w.db.files.ownerAt key ≠ none

def Indexes (key : Key) (request : FilesRequest) : Prop :=
  request = .commitUpload key ∨ ∃ uploadId, request = .completeMultipartUpload key uploadId

inductive Stage (indexPrefix : Key) (w₀ : World (List α) ι) (bytes : List α) (key : Key)
    (w : World (List α) ι) : FilesRequest → FilesCall → Prop
  | asked (h : Spared w₀ w key) : Stage indexPrefix w₀ bytes key w (.getUploadURL key) .received
  | signing (ha : FilesService.Accepted indexPrefix key) (h : Spared w₀ w key) :
    Stage indexPrefix w₀ bytes key w (.getUploadURL key) .storage
  | signed (ha : FilesService.Accepted indexPrefix key) (h : Spared w₀ w key) :
    Stage indexPrefix w₀ bytes key w (.getUploadURL key) (.done none)
  | sent {uploadId : String} (h : Spared w₀ w key) :
    Stage indexPrefix w₀ bytes key w (.completeMultipartUpload key uploadId) .received
  | joining {uploadId : String} (ha : FilesService.Accepted indexPrefix key) (h : Spared w₀ w key) :
    Stage indexPrefix w₀ bytes key w (.completeMultipartUpload key uploadId)
      (.completeMultipartUpload key)
  | committing (h : Stored indexPrefix bytes key w) :
    Stage indexPrefix w₀ bytes key w (.commitUpload key) .received
  | stat {request : FilesRequest} (hr : Indexes key request) (h : Stored indexPrefix bytes key w) :
    Stage indexPrefix w₀ bytes key w request (.stat key)
  | upsert {request : FilesRequest} {lastModified : Time} (hr : Indexes key request)
    (h : Stored indexPrefix bytes key w) :
    Stage indexPrefix w₀ bytes key w request (.upsert key lastModified)
  | readBack {request : FilesRequest} (hr : Indexes key request) (h : Landed indexPrefix bytes key w) :
    Stage indexPrefix w₀ bytes key w request (.readBack key)
  | indexed {request : FilesRequest} (hr : Indexes key request) (h : Landed indexPrefix bytes key w) :
    Stage indexPrefix w₀ bytes key w request (.done none)
  | refused {request : FilesRequest} {e : Failure}
    (h : FilesService.Accepted indexPrefix key ∨ Spared w₀ w key) :
    Stage indexPrefix w₀ bytes key w request (.done (some e))

theorem Stored.mono (h : Stored indexPrefix bytes key w) (hs : Spared w w' key) :
    Stored indexPrefix bytes key w' :=
  ⟨h.accepted, hs.1.trans h.object⟩

theorem Landed.mono (h : Landed indexPrefix bytes key w) (hs : Spared w w' key) :
    Landed indexPrefix bytes key w' :=
  ⟨h.toStored.mono hs, hs.owner_ne_none h.row⟩

theorem Stage.mono (h : Stage indexPrefix w₀ bytes key w request call) (hs : Spared w w' key) :
    Stage indexPrefix w₀ bytes key w' request call := by
  cases h with
  | asked h => exact .asked (h.trans hs)
  | signing ha h => exact .signing ha (h.trans hs)
  | signed ha h => exact .signed ha (h.trans hs)
  | sent h => exact .sent (h.trans hs)
  | joining ha h => exact .joining ha (h.trans hs)
  | committing h => exact .committing (h.mono hs)
  | stat hr h => exact .stat hr (h.mono hs)
  | upsert hr h => exact .upsert hr (h.mono hs)
  | readBack hr h => exact .readBack hr (h.mono hs)
  | indexed hr h => exact .indexed hr (h.mono hs)
  | refused h => exact .refused (h.imp_right fun h => h.trans hs)

theorem withUploadKey_cases (indexPrefix key : Key) (next : Key → FilesCall) :
    (∃ e, withUploadKey indexPrefix key next = .done (some e)) ∨
      FilesService.Accepted indexPrefix key ∧ withUploadKey indexPrefix key next = next key := by
  rw [withUploadKey]
  split
  · exact Or.inl ⟨_, rfl⟩
  · rename_i k hk
    obtain ⟨rfl, -⟩ := validateUploadKey_ok_iff.mp hk
    exact Or.inr ⟨hk, rfl⟩

structure Serves (key : Key) (w w' : World (List α) ι) : Prop where
  others : ∀ k ≠ key, Spared w w' k
  exact : w.db.DirectoriesExact → w'.db.DirectoriesExact

theorem Serves.refl (key : Key) (w : World (List α) ι) : Serves key w w :=
  ⟨fun k _ => Spared.refl w k, id⟩

theorem serves_put (key : Key) (w : World (List α) ι) (bytes : List α) :
    Serves key w { w with bucket := w.bucket.put w.now key bytes } := by
  refine ⟨fun k hk => ⟨?_, Or.inl rfl⟩, id⟩
  rw [Bucket.bytesAt_put, if_neg hk]

theorem serves_upsert {lastModified : Time} {n : Nat} {db : Db}
    (h : w.db.upsertFilesWithDirectories w.now [(key, lastModified)] = .ok (n, db)) :
    Serves key w { w with db } ∧ db.files.ownerAt key ≠ none := by
  have hfiles := (Db.upsertFilesWithDirectories_ok h).1
  refine ⟨⟨fun k hk => ⟨rfl, Or.inl ?_⟩, fun hexact => Db.exact_upsert hexact h⟩, ?_⟩
  · rw [hfiles]
    exact Files.ownerAt_upsertFiles (Or.inl (by simpa using hk))
  · rw [hfiles, Ne, Files.ownerAt_eq_none_iff]
    intro hvacant
    have hkeys : ∃ f ∈ (w.db.files.upsertFiles w.now [(key, lastModified)]).2.rows, f.key = key :=
      Files.keys_upsertFiles.mpr (Or.inr (by simp))
    obtain ⟨f, hf, hkey⟩ := hkeys
    exact hvacant f hf hkey

theorem Stage.stays (h : Stage indexPrefix w₀ bytes key w request call)
    (hs : some (w, call) = some (w', call')) :
    Stage indexPrefix w₀ bytes key w' request call' ∧ Serves key w w' := by
  obtain ⟨rfl, rfl⟩ := Prod.mk.inj (Option.some.inj hs)
  exact ⟨h, .refl key w⟩

theorem Stage.served [DecidableEq ι] {me : ι} {fault : Fault} {pick : Nat}
    {assembled : Option (List α)} (h : Stage indexPrefix w₀ bytes key w request call)
    (hassembled : ∀ joined ∈ assembled, joined = bytes)
    (hs : filesCallStep indexPrefix me request fault pick assembled w call = some (w', call')) :
    Stage indexPrefix w₀ bytes key w' request call' ∧ Serves key w w' := by
  cases h with
  | asked h =>
    refine Stage.stays ?_ hs
    rw [FilesRequest.call]
    rcases withUploadKey_cases indexPrefix key fun _ => .storage with ⟨e, he⟩ | ⟨ha, he⟩
    · exact he ▸ .refused (Or.inr h)
    · rw [he]
      exact .signing ha h
  | signing ha h =>
    refine Stage.stays ?_ hs
    split
    · exact .signed ha h
    · exact .refused (Or.inr h)
  | signed ha h => cases hs
  | sent h =>
    refine Stage.stays ?_ hs
    rw [FilesRequest.call]
    rcases withUploadKey_cases indexPrefix key fun key =>
      withUploadId _ (.completeMultipartUpload key) with ⟨e, he⟩ | ⟨ha, he⟩
    · exact he ▸ .refused (Or.inr h)
    · rw [he, withUploadId]
      split
      · exact .refused (Or.inr h)
      · exact .joining ha h
  | @joining uploadId ha h =>
    simp only [filesCallStep] at hs
    split at hs
    · exact Stage.stays (.refused (Or.inr h)) hs
    · split at hs
      · exact Stage.stays (.refused (Or.inr h)) hs
      · rename_i joined
        obtain rfl := hassembled joined rfl
        obtain ⟨rfl, rfl⟩ := Prod.mk.inj (Option.some.inj hs)
        refine ⟨?_, serves_put key w joined⟩
        split
        · exact .refused (Or.inl ha)
        · exact .stat (Or.inr ⟨uploadId, rfl⟩) ⟨ha, by simp⟩
  | committing h =>
    refine Stage.stays ?_ hs
    rw [FilesRequest.call]
    rcases withUploadKey_cases indexPrefix key .stat with ⟨e, he⟩ | ⟨-, he⟩
    · exact he ▸ .refused (Or.inl h.accepted)
    · exact he ▸ .stat (Or.inl rfl) h
  | stat hr h =>
    rw [filesCallStep] at hs
    split at hs
    · exact Stage.stays (.refused (Or.inl h.accepted)) hs
    · split at hs
      · exact Stage.stays (.refused (Or.inl h.accepted)) hs
      · exact Stage.stays (.upsert hr h) hs
  | upsert hr h =>
    simp only [filesCallStep] at hs
    split at hs
    · exact Stage.stays (.refused (Or.inl h.accepted)) hs
    · split at hs
      · exact Stage.stays (.refused (Or.inl h.accepted)) hs
      · rename_i n db hdb
        obtain ⟨rfl, rfl⟩ := Prod.mk.inj (Option.some.inj hs)
        obtain ⟨hserves, hrow⟩ := serves_upsert hdb
        refine ⟨?_, hserves⟩
        split
        · exact .refused (Or.inl h.accepted)
        · exact .readBack hr ⟨⟨h.accepted, h.object⟩, hrow⟩
  | readBack hr h =>
    rw [filesCallStep] at hs
    split at hs
    · exact Stage.stays (.refused (Or.inl h.accepted)) hs
    · split at hs
      · exact Stage.stays (.refused (Or.inl h.accepted)) hs
      · exact Stage.stays (.indexed hr h) hs
  | indexed hr h => cases hs
  | refused h => cases hs

end Serve

section Loop

variable {indexPrefix : Key} {path : List Char} {files : List (FileLike α)}
  {w₀ w w' : World (List α) ι} {file : FileLike α}

def AwaitedOk (indexPrefix : Key) (path : List Char) (w₀ w : World (List α) ι) (file : FileLike α) :
    Awaited → Prop
  | .call request call => Stage indexPrefix w₀ file.bytes (fileKey path file) w request call
  | .put false => FilesService.Accepted indexPrefix (fileKey path file) ∧
      Spared w₀ w (fileKey path file)
  | .put true => Stored indexPrefix file.bytes (fileKey path file) w
  | .multipart => Spared w₀ w (fileKey path file)

def PhaseOk (indexPrefix : Key) (path : List Char) (w₀ w : World (List α) ι)
    (todo : List (FileLike α)) : Phase → Prop
  | .turn => ∀ file ∈ todo.head?, Spared w₀ w (fileKey path file)
  | .awaiting on | .failed on => ∃ file ∈ todo.head?, AwaitedOk indexPrefix path w₀ w file on
  | .finished => todo = []

structure Inv (indexPrefix : Key) (path : List Char) (files : List (FileLike α))
    (w₀ : World (List α) ι) (s : UploadBatch α ι) : Prop where
  exact : s.world.db.DirectoriesExact
  landed : ∃ done, files = done ++ s.todo ∧
    ∀ file ∈ done, Landed indexPrefix file.bytes (fileKey path file) s.world
  later : ∀ file ∈ s.todo.tail, Spared w₀ s.world (fileKey path file)
  phase : PhaseOk indexPrefix path w₀ s.world s.todo s.phase

theorem AwaitedOk.mono {on : Awaited} (h : AwaitedOk indexPrefix path w₀ w file on)
    (hs : Spared w w' (fileKey path file)) : AwaitedOk indexPrefix path w₀ w' file on := by
  cases on with
  | call request call => exact Stage.mono h hs
  | put stored =>
    cases stored with
    | false => exact ⟨h.1, h.2.trans hs⟩
    | true => exact Stored.mono h hs
  | multipart => exact Spared.trans h hs

theorem PhaseOk.mono {todo : List (FileLike α)} {phase : Phase}
    (h : PhaseOk indexPrefix path w₀ w todo phase)
    (hs : ∀ file ∈ todo, Spared w w' (fileKey path file)) :
    PhaseOk indexPrefix path w₀ w' todo phase := by
  cases phase with
  | turn => exact fun file hfile => (h file hfile).trans (hs file (List.mem_of_mem_head? hfile))
  | awaiting on =>
    obtain ⟨file, hfile, hok⟩ := h
    exact ⟨file, hfile, hok.mono (hs file (List.mem_of_mem_head? hfile))⟩
  | failed on =>
    obtain ⟨file, hfile, hok⟩ := h
    exact ⟨file, hfile, hok.mono (hs file (List.mem_of_mem_head? hfile))⟩
  | finished => exact h

theorem inv_start (files : List (FileLike α)) (h : w₀.db.DirectoriesExact) :
    Inv indexPrefix path files w₀ (.start w₀ files) where
  exact := h
  landed := ⟨[], rfl, fun _ hfile => absurd hfile List.not_mem_nil⟩
  later _ _ := .refl w₀ _
  phase _ _ := .refl w₀ _

variable {s : UploadBatch α ι}

theorem Inv.disturbed {a : OtherAction α} (h : Inv indexPrefix path files w₀ s)
    (ha : Spares (files.map (fileKey path)) s.world a) :
    Inv indexPrefix path files w₀ { s with world := a.run s.world } := by
  obtain ⟨done, hsplit, hdone⟩ := h.landed
  have hspared : ∀ file ∈ files, Spared s.world (a.run s.world) (fileKey path file) :=
    fun file hfile => ha.1 _ (List.mem_map_of_mem hfile)
  have htodo : ∀ file ∈ s.todo, file ∈ files := fun file hfile => by
    rw [hsplit]
    exact List.mem_append_right _ hfile
  refine ⟨exact_other h.exact ha.2, ⟨done, hsplit, fun file hfile => ?_⟩, fun file hfile => ?_, ?_⟩
  · refine (hdone file hfile).mono (hspared file ?_)
    rw [hsplit]
    exact List.mem_append_left _ hfile
  · exact (h.later file hfile).trans (hspared file (htodo file (List.mem_of_mem_tail hfile)))
  · exact h.phase.mono fun file hfile => hspared file (htodo file hfile)

theorem Inv.advanced {rest : List (FileLike α)} (h : Inv indexPrefix path files w₀ s)
    (hdistinct : (files.map (fileKey path)).Nodup) (htodo : s.todo = file :: rest)
    (hserves : Serves (fileKey path file) s.world w') {phase : Phase}
    (hphase : PhaseOk indexPrefix path w₀ w' s.todo phase) :
    Inv indexPrefix path files w₀ ⟨w', s.todo, phase⟩ := by
  obtain ⟨done, hsplit, hdone⟩ := h.landed
  rw [hsplit, htodo, List.map_append, List.map_cons, List.nodup_middle, List.nodup_cons] at hdistinct
  have hother : ∀ g ∈ done ++ rest, fileKey path g ≠ fileKey path file := by
    intro g hg hkey
    apply hdistinct.1
    rw [← List.map_append, ← hkey]
    exact List.mem_map_of_mem hg
  refine ⟨hserves.exact h.exact, ⟨done, hsplit, fun g hg => ?_⟩, fun g hg => ?_, hphase⟩
  · exact (hdone g hg).mono (hserves.others _ (hother g (List.mem_append_left _ hg)))
  · refine (h.later g hg).trans (hserves.others _ (hother g (List.mem_append_right _ ?_)))
    rwa [htodo] at hg

theorem Inv.rephased (h : Inv indexPrefix path files w₀ s) {phase : Phase}
    (hphase : PhaseOk indexPrefix path w₀ s.world s.todo phase) :
    Inv indexPrefix path files w₀ { s with phase } :=
  ⟨h.exact, h.landed, h.later, hphase⟩

theorem Inv.turned {rest : List (FileLike α)} (h : Inv indexPrefix path files w₀ s)
    (htodo : s.todo = file :: rest)
    (hlanded : Landed indexPrefix file.bytes (fileKey path file) s.world) :
    Inv indexPrefix path files w₀ ⟨s.world, s.todo.tail, .turn⟩ := by
  obtain ⟨done, hsplit, hdone⟩ := h.landed
  have hlater := h.later
  rw [htodo] at hsplit hlater ⊢
  refine ⟨h.exact, ⟨done ++ [file], by rw [hsplit, List.append_assoc]; rfl, fun g hg => ?_⟩,
    fun g hg => hlater g (List.mem_of_mem_tail hg), fun g hg => hlater g (List.mem_of_mem_head? hg)⟩
  rcases List.mem_append.mp hg with hg | hg
  · exact hdone g hg
  · exact List.mem_singleton.mp hg ▸ hlanded

end Loop

section Steps

variable [DecidableEq ι] {indexPrefix : Key} {path : List Char} {me : ι}
  {files : List (FileLike α)} {w₀ : World (List α) ι} {s t : UploadBatch α ι} {file : FileLike α}

theorem exists_todo {todo : List (FileLike α)} (h : file ∈ todo.head?) :
    ∃ rest, todo = file :: rest :=
  List.head?_eq_some_iff.mp h

omit [DecidableEq ι] in
theorem phaseOk_next (h : PhaseOk indexPrefix path w₀ s.world s.todo .turn) :
    PhaseOk indexPrefix path w₀ s.world s.todo (s.next path) := by
  rw [UploadBatch.next]
  split
  · assumption
  · rename_i file rest htodo
    rw [htodo] at h ⊢
    have hspared := h file rfl
    split
    · exact ⟨file, rfl, hspared⟩
    · exact ⟨file, rfl, .asked hspared⟩

theorem awaitedOk_serve {fault : Fault} {pick : Nat} {assembled : Option (List α)}
    {request : FilesRequest} {call : FilesCall} {w : World (List α) ι} {on : Awaited}
    (h : AwaitedOk indexPrefix path w₀ s.world file (.call request call))
    (hassembled : ∀ bytes ∈ assembled, bytes = file.bytes)
    (hs : s.serve indexPrefix me fault pick assembled request call = some (w, on)) :
    AwaitedOk indexPrefix path w₀ w file on ∧ Serves (fileKey path file) s.world w := by
  obtain ⟨⟨w', call'⟩, hcall, he⟩ := Option.map_eq_some_iff.mp hs
  obtain ⟨rfl, rfl⟩ := Prod.mk.inj he
  exact Stage.served h hassembled hcall

omit [DecidableEq ι] in
theorem awaitedOk_store {rest : List (FileLike α)} (htodo : s.todo = file :: rest)
    (h : AwaitedOk indexPrefix path w₀ s.world file (.put false)) :
    AwaitedOk indexPrefix path w₀ (s.store path) file (.put true) ∧
      Serves (fileKey path file) s.world (s.store path) := by
  rw [UploadBatch.store, htodo]
  exact ⟨⟨h.1, by simp⟩, serves_put _ _ _⟩

omit [DecidableEq ι] in
theorem Inv.answered {on : Awaited} (h : Inv indexPrefix path files w₀ s)
    (hfile : file ∈ s.todo.head?) (hok : AwaitedOk indexPrefix path w₀ s.world file on)
    (ht : s.answer path on = some t) : Inv indexPrefix path files w₀ t := by
  obtain ⟨rest, htodo⟩ := exists_todo hfile
  cases on with
  | multipart => cases ht
  | put stored =>
    cases stored with
    | false => cases ht
    | true =>
      obtain ⟨f, hf, rfl⟩ := Option.map_eq_some_iff.mp ht
      obtain rfl := Option.some.inj (hf.symm.trans hfile)
      exact h.rephased ⟨f, hfile, .committing hok⟩
  | call request call =>
    cases hok with
    | signed ha hspared =>
      obtain rfl := Option.some.inj ht
      exact h.rephased ⟨file, hfile, ha, hspared⟩
    | indexed hr hlanded =>
      rcases hr with rfl | ⟨uploadId, rfl⟩
      · obtain rfl := Option.some.inj ht
        exact h.turned htodo hlanded
      · obtain rfl := Option.some.inj ht
        exact h.turned htodo hlanded
    | refused hrefused =>
      obtain rfl := Option.some.inj ht
      exact h.rephased ⟨file, hfile, .refused hrefused⟩
    | _ => cases ht

theorem Inv.served (h : Inv indexPrefix path files w₀ s) (hdistinct : (files.map (fileKey path)).Nodup)
    {fault : Fault} {pick : Nat} {assembled : Option (List α)} {request : FilesRequest}
    {call : FilesCall} {w : World (List α) ι} {on : Awaited}
    (hassembled : ∀ bytes ∈ assembled, ∀ file ∈ s.todo.head?, bytes = file.bytes)
    (hon : ∃ file ∈ s.todo.head?, AwaitedOk indexPrefix path w₀ s.world file (.call request call))
    (hserve : s.serve indexPrefix me fault pick assembled request call = some (w, on)) {phase : Phase}
    (hphase : (∃ file ∈ s.todo.head?, AwaitedOk indexPrefix path w₀ w file on) →
      PhaseOk indexPrefix path w₀ w s.todo phase) :
    Inv indexPrefix path files w₀ ⟨w, s.todo, phase⟩ := by
  obtain ⟨file, hfile, hok⟩ := hon
  obtain ⟨rest, htodo⟩ := exists_todo hfile
  obtain ⟨hok', hserves⟩ := awaitedOk_serve hok (fun bytes hb => hassembled bytes hb file hfile) hserve
  exact h.advanced hdistinct htodo hserves (hphase ⟨file, hfile, hok'⟩)

omit [DecidableEq ι] in
theorem Inv.stored (h : Inv indexPrefix path files w₀ s) (hdistinct : (files.map (fileKey path)).Nodup)
    (hon : ∃ file ∈ s.todo.head?, AwaitedOk indexPrefix path w₀ s.world file (.put false))
    {phase : Phase}
    (hphase : (∃ file ∈ s.todo.head?, AwaitedOk indexPrefix path w₀ (s.store path) file (.put true)) →
      PhaseOk indexPrefix path w₀ (s.store path) s.todo phase) :
    Inv indexPrefix path files w₀ ⟨s.store path, s.todo, phase⟩ := by
  obtain ⟨file, hfile, hok⟩ := hon
  obtain ⟨rest, htodo⟩ := exists_todo hfile
  obtain ⟨hok', hserves⟩ := awaitedOk_store htodo hok
  exact h.advanced hdistinct htodo hserves (hphase ⟨file, hfile, hok'⟩)

theorem inv_preserved (hdistinct : (files.map (fileKey path)).Nodup) :
    Preserves (UploadBatch.step indexPrefix path me) (Undisturbed path files)
      (Inv indexPrefix path files w₀) := by
  intro s a t h ha ht
  have hphase := h.phase
  cases a with
  | next =>
    simp only [UploadBatch.step] at ht
    split at ht
    · rename_i hturn
      obtain rfl := Option.some.inj ht
      rw [hturn] at hphase
      exact h.rephased (phaseOk_next hphase)
    · cases ht
  | serve fault pick assembled =>
    simp only [UploadBatch.step] at ht
    split at ht
    · rename_i request call hon
      obtain ⟨⟨w, on⟩, hserve, rfl⟩ := Option.map_eq_some_iff.mp ht
      rw [hon] at hphase
      exact h.served hdistinct ha hphase hserve id
    · rename_i request call hleft
      obtain ⟨⟨w, left⟩, hserve, rfl⟩ := Option.map_eq_some_iff.mp ht
      rw [hleft] at hphase
      exact h.served hdistinct ha hphase hserve id
    · cases ht
  | store =>
    simp only [UploadBatch.step] at ht
    split at ht
    · rename_i hon
      obtain rfl := Option.some.inj ht
      rw [hon] at hphase
      exact h.stored hdistinct hphase id
    · rename_i hleft
      obtain rfl := Option.some.inj ht
      rw [hleft] at hphase
      exact h.stored hdistinct hphase id
    · cases ht
  | complete uploadId =>
    simp only [UploadBatch.step] at ht
    split at ht
    · rename_i hon
      obtain ⟨f, hf, rfl⟩ := Option.map_eq_some_iff.mp ht
      rw [hon] at hphase
      obtain ⟨file, hfile, hok⟩ := hphase
      obtain rfl := Option.some.inj (hf.symm.trans hfile)
      exact h.rephased ⟨f, hfile, .sent hok⟩
    · cases ht
  | answer =>
    simp only [UploadBatch.step] at ht
    split at ht
    · rename_i on hon
      rw [hon] at hphase
      obtain ⟨file, hfile, hok⟩ := hphase
      exact h.answered hfile hok ht
    · cases ht
  | giveUp =>
    simp only [UploadBatch.step] at ht
    split at ht
    · rename_i on hon
      obtain rfl := Option.some.inj ht
      rw [hon] at hphase
      exact h.rephased hphase
    · cases ht
  | other a =>
    obtain rfl := Option.some.inj ht
    exact h.disturbed ha

end Steps

section Lands

variable [DecidableEq ι] {indexPrefix : Key} {path : List Char} {me : ι}
  {files : List (FileLike α)} {w₀ w : World (List α) ι} {s : UploadBatch α ι} {file : FileLike α}

def HasName (file : FileLike α) : Prop := file.name ≠ "" ∧ '/' ∉ file.name.toList

structure InFolder (path : List Char) (w : World (List α) ι) (key : Key) : Prop where
  ancestors : ∀ dir, ProperAncestor dir key → dir ∈ w.db.directories
  listed : ∀ (x : Search.TextSearch) (ix : Search.FileIndex),
    ix.files.rows.map (fun f => f.key) = w.db.files.rows.map File.key →
      ∃ f ∈ ix.childFiles x (Utf8.encode (normalizeUploadPath path)), f.key = key

structure Lands (indexPrefix : Key) (path : List Char) (me : ι) (files : List (FileLike α))
    (w₀ : World (List α) ι) (s : UploadBatch α ι) : Prop where
  landed : ∃ done, files = done ++ s.todo ∧ ∀ file ∈ done,
    Landed indexPrefix file.bytes (fileKey path file) s.world ∧
      InFolder path s.world (fileKey path file)
  later : ∀ file ∈ s.todo.tail, Spared w₀ s.world (fileKey path file)
  refused : ∀ file ∈ s.todo, ¬FilesService.Accepted indexPrefix (fileKey path file) →
    Spared w₀ s.world (fileKey path file)
  finished : s.phase = .finished → s.todo = []
  going : s.phase = .finished ∨ (∃ left, s.phase = .failed left) ∨
    ∃ a ∈ [BatchAction.next, .serve .none 0 none, .store, .complete "", .answer],
      (s.step indexPrefix path me a).isSome

omit [DecidableEq ι] in
theorem name_of_fileKey_eq {f g : FileLike α} (h : fileKey path f = fileKey path g) :
    f.name = g.name := by
  have hruns := congrArg Utf8.runes h
  rw [fileKey, fileKey, Utf8.runes_encode, Utf8.runes_encode] at hruns
  exact String.toList_inj.mp (List.append_cancel_left hruns)

theorem slash_notMem_encode {name : List Char} (h : '/' ∉ name) : slash ∉ Utf8.encode name := by
  intro hmem
  obtain ⟨c, hc, hval⟩ := Utf8.ascii_mem_encode hmem (by decide)
  obtain rfl : c = '/' := Char.toNat_inj.mp hval
  exact h hc

theorem fileKey_eq (path : List Char) (file : FileLike α) :
    fileKey path file = Utf8.encode (normalizeUploadPath path) ++ Utf8.encode file.name.toList :=
  Utf8.encode_append _ _

theorem noSlashSuffix_fileKey (h : HasName file) : hasSlashSuffix (fileKey path file) = false := by
  rw [← Bool.not_eq_true, hasSlashSuffix_iff, fileKey_eq]
  rintro ⟨p, hp⟩
  have hne : Utf8.encode file.name.toList ≠ [] := by
    intro hnil
    have hruns := Utf8.runes_encode file.name.toList
    rw [hnil] at hruns
    exact h.1 (String.toList_inj.mp hruns.symm)
  have hlast : (Utf8.encode file.name.toList).getLast? = some slash := by
    rw [← List.getLast?_append_of_ne_nil _ hne, hp, List.getLast?_concat]
  exact slash_notMem_encode h.2 (List.mem_of_getLast? hlast)

omit [DecidableEq ι] in
theorem inFolder_of_row (hexact : w.db.DirectoriesExact) (hname : HasName file)
    (hrow : w.db.files.ownerAt (fileKey path file) ≠ none) :
    InFolder path w (fileKey path file) := by
  rw [Ne, Files.ownerAt_eq_none_iff] at hrow
  push Not at hrow
  obtain ⟨f, hf, hkey⟩ := hrow
  refine ⟨fun dir hdir => ?_, fun x ix hkeys => ?_⟩
  · exact (hexact dir).mpr ⟨f, hf, hkey ▸ ⟨noSlashSuffix_fileKey hname, hdir⟩⟩
  · obtain ⟨g, hg, hgk⟩ := List.mem_map.mp (hkeys ▸ List.mem_map_of_mem hf)
    refine ⟨g, Search.mem_childFiles.mpr ⟨hg, Utf8.encode file.name.toList, ?_, ?_⟩, hgk.trans hkey⟩
    · rw [hgk, hkey, fileKey_eq]
    · exact slash_notMem_encode hname.2

omit [DecidableEq ι] in
theorem AwaitedOk.accepted_or_spared {on : Awaited} (h : AwaitedOk indexPrefix path w₀ w file on) :
    FilesService.Accepted indexPrefix (fileKey path file) ∨ Spared w₀ w (fileKey path file) := by
  cases on with
  | multipart => exact Or.inr h
  | put stored =>
    cases stored with
    | false => exact Or.inl h.1
    | true => exact Or.inl h.accepted
  | call request call =>
    cases h with
    | asked h => exact Or.inr h
    | signing ha h => exact Or.inl ha
    | signed ha h => exact Or.inl ha
    | sent h => exact Or.inr h
    | joining ha h => exact Or.inl ha
    | committing h => exact Or.inl h.accepted
    | stat hr h => exact Or.inl h.accepted
    | upsert hr h => exact Or.inl h.accepted
    | readBack hr h => exact Or.inl h.accepted
    | indexed hr h => exact Or.inl h.accepted
    | refused h => exact h

omit [DecidableEq ι] in
theorem Inv.head_accepted_or_spared (h : Inv indexPrefix path files w₀ s)
    (hfile : file ∈ s.todo.head?) : FilesService.Accepted indexPrefix (fileKey path file) ∨
      Spared w₀ s.world (fileKey path file) := by
  have hphase := h.phase
  cases hp : s.phase with
  | turn =>
    rw [hp] at hphase
    exact Or.inr (hphase file hfile)
  | awaiting on =>
    rw [hp] at hphase
    obtain ⟨f, hf, hok⟩ := hphase
    obtain rfl := Option.some.inj (hf.symm.trans hfile)
    exact hok.accepted_or_spared
  | failed left =>
    rw [hp] at hphase
    obtain ⟨f, hf, hok⟩ := hphase
    obtain rfl := Option.some.inj (hf.symm.trans hfile)
    exact hok.accepted_or_spared
  | finished =>
    rw [hp] at hphase
    rw [show s.todo = [] from hphase] at hfile
    cases hfile

theorem Inv.going (h : Inv indexPrefix path files w₀ s) :
    s.phase = .finished ∨ (∃ left, s.phase = .failed left) ∨
      ∃ a ∈ [BatchAction.next, .serve .none 0 none, .store, .complete "", .answer],
        (s.step indexPrefix path me a).isSome := by
  have hphase := h.phase
  cases hp : s.phase with
  | finished => exact Or.inl rfl
  | failed left => exact Or.inr (Or.inl ⟨left, rfl⟩)
  | turn => exact Or.inr (Or.inr ⟨.next, by simp, by simp [UploadBatch.step, hp]⟩)
  | awaiting on =>
    rw [hp] at hphase
    obtain ⟨file, hfile, hok⟩ := hphase
    refine Or.inr (Or.inr ?_)
    cases on with
    | multipart =>
      refine ⟨.complete "", by simp, ?_⟩
      simp [UploadBatch.step, hp, Option.mem_def.mp hfile]
    | put stored =>
      cases stored with
      | false => exact ⟨.store, by simp, by simp [UploadBatch.step, hp]⟩
      | true =>
        refine ⟨.answer, by simp, ?_⟩
        simp [UploadBatch.step, UploadBatch.answer, hp, Option.mem_def.mp hfile]
    | call request call =>
      have hserve : (filesCallStep indexPrefix me request .none 0 none s.world call).isSome →
          (s.step indexPrefix path me (.serve .none 0 none)).isSome := by
        intro hsome
        simpa [UploadBatch.step, UploadBatch.serve, hp] using hsome
      have hanswer (failure : Option Failure) (hc : call = .done failure) :
          (s.step indexPrefix path me .answer).isSome := by
        subst hc
        cases failure <;> simp [UploadBatch.step, UploadBatch.answer, hp]
      cases hok with
      | signed | indexed | refused => exact ⟨.answer, by simp, hanswer _ rfl⟩
      | _ =>
        refine ⟨.serve .none 0 none, by simp, hserve ?_⟩
        simp only [filesCallStep]
        repeat' split
        all_goals rfl

theorem Inv.lands (h : Inv indexPrefix path files w₀ s) (hnames : ∀ file ∈ files, HasName file) :
    Lands indexPrefix path me files w₀ s := by
  obtain ⟨done, hsplit, hdone⟩ := h.landed
  refine ⟨⟨done, hsplit, fun file hfile => ⟨hdone file hfile, ?_⟩⟩, h.later, fun file hfile hna => ?_,
    fun hfin => ?_, h.going⟩
  · refine inFolder_of_row h.exact (hnames file ?_) (hdone file hfile).row
    rw [hsplit]
    exact List.mem_append_left _ hfile
  · cases htodo : s.todo with
    | nil =>
      rw [htodo] at hfile
      cases hfile
    | cons head rest =>
      rw [htodo] at hfile
      rcases List.mem_cons.mp hfile with rfl | hrest
      · exact (h.head_accepted_or_spared (by rw [htodo]; rfl)).resolve_left hna
      · exact h.later file (by rw [htodo]; exact hrest)
  · have hphase := h.phase
    rw [hfin] at hphase
    exact hphase

theorem upload_batch_lands (indexPrefix : Key) (path : List Char) (me : ι)
    (files : List (FileLike α)) (w₀ : World (List α) ι) (as : List (BatchAction α))
    (hexact : w₀.db.DirectoriesExact) (hnames : ∀ file ∈ files, HasName file)
    (hdistinct : (files.map FileLike.name).Nodup)
    (hundisturbed : EveryStep (UploadBatch.step indexPrefix path me) (Undisturbed path files)
      (.start w₀ files) as) :
    EveryState (UploadBatch.step indexPrefix path me) (Lands indexPrefix path me files w₀)
      (.start w₀ files) as := by
  have hkeys : (files.map (fileKey path)).Nodup := by
    refine List.Nodup.map_on ?_ (hdistinct.of_map _)
    intro f hf g hg hkey
    exact List.inj_on_of_nodup_map hdistinct hf hg (name_of_fileKey_eq hkey)
  have hstart : Inv indexPrefix path files w₀ (.start w₀ files) := inv_start files hexact
  have hinv := everyState_of_preserves (inv_preserved hkeys) as hstart hundisturbed
  exact hinv.mono fun s hs => hs.lands hnames

theorem undisturbed_of_alone {as : List (BatchAction α)}
    (h : ∀ a ∈ as, ∀ s : UploadBatch α ι, Undisturbed path files s a) :
    EveryStep (UploadBatch.step indexPrefix path me) (Undisturbed path files) s as := by
  induction as generalizing s with
  | nil => trivial
  | cons a as ih =>
    exact fun t _ => ⟨h a List.mem_cons_self s, ih fun b hb => h b (List.mem_cons_of_mem a hb)⟩

def notes : List (FileLike Nat) := [⟨"a", 0, [1]⟩, ⟨"b", 0, [2]⟩]

def bareWorld : World (List Nat) (Fin 1) := ⟨Db.empty, fun _ => none, ∅, fun _ => none, 1⟩

def oneUpload : List (BatchAction Nat) :=
  [.next, .serve .none 0 none, .serve .none 0 none, .answer, .store, .answer, .serve .none 0 none,
    .serve .none 0 none, .serve .none 0 none, .serve .none 0 none, .answer]

theorem upload_batch_of_notes :
    ∃ s, exec (UploadBatch.step (ascii ".index/") "docs/".toList 0) (.start bareWorld notes)
        (oneUpload ++ oneUpload ++ [.next]) = some s ∧ s.todo.map FileLike.name = [] ∧
      Lands (ascii ".index/") "docs/".toList 0 notes bareWorld s := by
  have hrun : (exec (UploadBatch.step (ascii ".index/") "docs/".toList 0) (.start bareWorld notes)
      (oneUpload ++ oneUpload ++ [.next])).map (fun s => s.todo.map FileLike.name) = some [] := by
    decide
  obtain ⟨s, hs, htodo⟩ := Option.map_eq_some_iff.mp hrun
  have halone : ∀ a ∈ oneUpload ++ oneUpload ++ [.next], ∀ s : UploadBatch Nat (Fin 1),
      Undisturbed "docs/".toList notes s a := by
    simp [oneUpload, Undisturbed]
  have hlands := upload_batch_lands (ascii ".index/") "docs/".toList (0 : Fin 1) notes bareWorld
    (oneUpload ++ oneUpload ++ [.next]) Db.exact_empty (by simp [notes, HasName])
    (by simp [notes]) (undisturbed_of_alone halone)
  exact ⟨s, hs, htodo, hlands.last hs⟩

end Lands

end Batch

end Browser

end FileIndexer
