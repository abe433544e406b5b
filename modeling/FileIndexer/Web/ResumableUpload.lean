import FileIndexer.Foundation.Runs
import FileIndexer.Web.PlanParts

namespace FileIndexer

def fileFingerprint {α : Type} (file : FileLike α) : String :=
  file.name ++ ":" ++ toString file.size ++ ":" ++ toString file.lastModified

structure StoredSession where
  uploadId : UploadID
  fingerprint : String
  deriving DecidableEq, Repr

inductive StoredItem where
  | corrupt
  | session (session : StoredSession)
  deriving DecidableEq, Repr

-- the item under one destination key; none where there is no localStorage at all
abbrev LocalStorage := Option (Option StoredItem)

def loadSession : LocalStorage → Option StoredSession
  | some (some (.session session)) => some session
  | _ => none

def saveSession (localStorage : LocalStorage) (session : StoredSession) : LocalStorage :=
  localStorage.map fun _ => some (.session session)

def clearSession (localStorage : LocalStorage) : LocalStorage := localStorage.map fun _ => none

theorem eq_of_loadSession_save {localStorage : LocalStorage} {session x : StoredSession}
    (h : loadSession (saveSession localStorage session) = some x) : session = x := by
  cases localStorage with
  | none => cases h
  | some item => exact Option.some.inj h

theorem loadSession_clear (localStorage : LocalStorage) :
    loadSession (clearSession localStorage) = none := by
  cases localStorage <;> rfl

namespace ResumableUpload

inductive Request (α : Type) where
  | createMultipartUpload
  | putPart (uploadId : UploadID) (partNumber : Nat) (bytes : List α)
  | abortMultipartUpload (uploadId : UploadID)
  | completeMultipartUpload (uploadId : UploadID)
  | joinParts (uploadId : UploadID) (completeParts : List (ObjectPart α))
  deriving DecidableEq, Repr

-- the server completes an upload in two steps: it lists the parts, then sends that list to S3
def serve {α : Type} [DecidableEq α] (s3 : Multipart α) :
    Request α → Multipart α × List (Request α)
  | .createMultipartUpload => (s3.createMultipartUpload.2, [])
  | .putPart uploadId partNumber bytes => ((s3.putPart uploadId partNumber bytes).toOption.getD s3, [])
  | .abortMultipartUpload uploadId => ((s3.abortMultipartUpload uploadId).toOption.getD s3, [])
  | .completeMultipartUpload uploadId =>
    (s3, (s3.listAllParts uploadId).toOption.toList.map (.joinParts uploadId))
  | .joinParts uploadId completeParts =>
    ((s3.completeMultipartUpload uploadId completeParts).toOption.getD s3, [])

structure Upload where
  uploadId : UploadID
  landed : List (Nat × Nat)
  rest : List PartPlan
  deriving DecidableEq, Repr

-- new Map(parts.map(...)): of two entries for one part number the later one stays
def Upload.landedSize (u : Upload) (partNumber : Nat) : Option Nat :=
  u.landed.reverse.lookup partNumber

inductive Phase (α : Type) where
  | idle
  | listUploadedParts (uploadId : UploadID)
  | createMultipartUpload
  | uploading (u : Upload)
  | getUploadPartUrl (u : Upload) (part : PartPlan) (attempt : Nat)
  | putPart (u : Upload) (part : PartPlan) (attempt : Nat)
  | abortMultipartUpload (uploadId : UploadID)
  | completeMultipartUpload (uploadId : UploadID)
  | joinParts (uploadId : UploadID) (completeParts : List (ObjectPart α))
  | returned
  deriving DecidableEq, Repr

structure State (α : Type) where
  s3 : Multipart α
  localStorage : LocalStorage
  phase : Phase α
  inFlight : List (Request α)

-- fail loses the answer: the request may still arrive later, or never
inductive Action (α : Type) where
  | start
  | turn (aborted : Bool)
  | answer (aborted : Bool)
  | fail (aborted : Bool)
  | reload
  | deliver (n : Nat)
  | expire (uploadId : UploadID)
  | another (object : Option (List α)) (parts : Parts α) (localStorage : LocalStorage)

def partRetryAttempts : Nat := 3

section Step

variable {α : Type} (file : FileLike α)

def started (localStorage : LocalStorage) : Phase α :=
  match loadSession localStorage with
  | none => .createMultipartUpload
  | some existing =>
    if existing.fingerprint = fileFingerprint file then .listUploadedParts existing.uploadId
    else .createMultipartUpload

def turned (u : Upload) (aborted : Bool) : Phase α :=
  match u.rest with
  | [] => .completeMultipartUpload u.uploadId
  | part :: rest =>
    if aborted then .abortMultipartUpload u.uploadId
    else if u.landedSize part.partNumber = some (part.stop - part.start) then
      .uploading { u with rest := rest }
    else .getUploadPartUrl { u with rest := rest } part 1

-- uploadPartWithRetry's catch, and the catch around it once the attempts are used up
def caught (u : Upload) (part : PartPlan) (attempt : Nat) (aborted : Bool) : Phase α :=
  if aborted then .abortMultipartUpload u.uploadId
  else if attempt < partRetryAttempts then .getUploadPartUrl u part (attempt + 1)
  else .idle

def pending : Phase α → Option (Request α)
  | .createMultipartUpload => some .createMultipartUpload
  | .putPart u part _ => some (.putPart u.uploadId part.partNumber (file.slice part.start part.stop))
  | .abortMultipartUpload uploadId => some (.abortMultipartUpload uploadId)
  | .completeMultipartUpload uploadId => some (.completeMultipartUpload uploadId)
  | .joinParts uploadId completeParts => some (.joinParts uploadId completeParts)
  | _ => none

def failed (aborted : Bool) : Phase α → Option (Phase α)
  | .idle | .returned | .uploading _ => none
  | .listUploadedParts _ => some .createMultipartUpload
  | .getUploadPartUrl u part attempt | .putPart u part attempt => some (caught u part attempt aborted)
  | .createMultipartUpload | .abortMultipartUpload _ | .completeMultipartUpload _
  | .joinParts _ _ => some .idle

variable [DecidableEq α]

def answered (s : State α) (aborted : Bool) : Option (State α) :=
  match s.phase with
  | .idle | .returned | .uploading _ => none
  | .listUploadedParts uploadId =>
    match s.s3.listParts uploadId with
    | .error _ => some { s with phase := .createMultipartUpload }
    | .ok parts => some { s with phase := .uploading ⟨uploadId, parts, file.plan⟩ }
  | .createMultipartUpload =>
    let (uploadId, s3) := s.s3.createMultipartUpload
    some { s with
      s3 := s3
      localStorage := saveSession s.localStorage ⟨uploadId, fileFingerprint file⟩
      phase := .uploading ⟨uploadId, [], file.plan⟩ }
  | .getUploadPartUrl u part attempt =>
    if minPartNumber ≤ part.partNumber ∧ part.partNumber ≤ maxPartNumber then
      some { s with phase := .putPart u part attempt }
    else some { s with phase := caught u part attempt aborted }
  | .putPart u part attempt =>
    match s.s3.putPart u.uploadId part.partNumber (file.slice part.start part.stop) with
    | .error _ => some { s with phase := caught u part attempt aborted }
    | .ok s3 => some { s with s3 := s3, phase := .uploading u }
  | .abortMultipartUpload uploadId =>
    match s.s3.abortMultipartUpload uploadId with
    | .error _ => some { s with phase := .idle }
    | .ok s3 => some { s with
        s3 := s3, localStorage := clearSession s.localStorage, phase := .idle }
  | .completeMultipartUpload uploadId =>
    match s.s3.listAllParts uploadId with
    | .error _ => some { s with phase := .idle }
    | .ok completeParts => some { s with phase := .joinParts uploadId completeParts }
  | .joinParts uploadId completeParts =>
    match s.s3.completeMultipartUpload uploadId completeParts with
    | .error _ => some { s with phase := .idle }
    | .ok s3 => some { s with
        s3 := s3, localStorage := clearSession s.localStorage, phase := .returned }

def interrupted (s : State α) (object : Option (List α)) (parts : Parts α)
    (localStorage : LocalStorage) : State α :=
  { s with
    s3 := { object := object
            uploads := Function.update s.s3.uploads s.s3.nextUploadId (some parts)
            nextUploadId := s.s3.nextUploadId + 1 }
    localStorage := localStorage
    phase := .idle }

def step (s : State α) : Action α → Option (State α)
  | .start =>
    match s.phase with
    | .idle | .returned => some { s with phase := started file s.localStorage }
    | _ => none
  | .turn aborted =>
    match s.phase with
    | .uploading u => some { s with phase := turned u aborted }
    | _ => none
  | .answer aborted => answered file s aborted
  | .fail aborted =>
    (failed aborted s.phase).map fun phase =>
      { s with phase := phase, inFlight := s.inFlight ++ (pending file s.phase).toList }
  | .reload => some { s with
      phase := .idle, inFlight := s.inFlight ++ (pending file s.phase).toList }
  | .deliver n =>
    s.inFlight[n]?.map fun r =>
      { s with s3 := (serve s.s3 r).1, inFlight := s.inFlight.eraseIdx n ++ (serve s.s3 r).2 }
  | .expire uploadId =>
    some { s with s3 := { s.s3 with uploads := Function.update s.s3.uploads uploadId none } }
  | .another object parts localStorage =>
    match s.phase with
    | .idle | .returned =>
      if (loadSession localStorage).all fun x => x.fingerprint ≠ fileFingerprint file then
        some (interrupted s object parts localStorage)
      else none
    | _ => none

end Step

end ResumableUpload

end FileIndexer
