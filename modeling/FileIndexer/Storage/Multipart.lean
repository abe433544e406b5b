import FileIndexer.Foundation.Paging
import FileIndexer.Storage.Bucket

namespace FileIndexer

abbrev UploadID := Nat

structure ObjectPart (α : Type) where
  partNumber : Nat
  bytes : List α
  deriving DecidableEq, Repr

abbrev Parts (α : Type) := AList fun _ : Nat => List α

def Parts.objectParts {α : Type} (parts : Parts α) : List (ObjectPart α) :=
  parts.entries.map fun e => ⟨e.1, e.2⟩

structure Multipart (α : Type) where
  object : Option (List α)
  uploads : UploadID → Option (Parts α)
  nextUploadId : UploadID

def maxPartsPerPage : Nat := 1000

def minPartNumber : Nat := 1
def maxPartNumber : Nat := 10000

namespace Multipart

variable {α : Type}

def createMultipartUpload (s : Multipart α) : UploadID × Multipart α :=
  (s.nextUploadId, { s with
    uploads := Function.update s.uploads s.nextUploadId (some ∅)
    nextUploadId := s.nextUploadId + 1 })

def putPart (s : Multipart α) (uploadId : UploadID) (partNumber : Nat) (bytes : List α) :
    Except StorageError (Multipart α) :=
  match s.uploads uploadId with
  | none => .error .other
  | some parts =>
    .ok { s with uploads := Function.update s.uploads uploadId (some (parts.insert partNumber bytes)) }

def abortMultipartUpload (s : Multipart α) (uploadId : UploadID) :
    Except StorageError (Multipart α) :=
  match s.uploads uploadId with
  | none => .error .other
  | some _ => .ok { s with uploads := Function.update s.uploads uploadId none }

-- ListObjectParts from a part-number marker on, for as long as the listing is truncated
def partsFrom (parts : List (ObjectPart α)) : Nat → Nat → Option (List (ObjectPart α))
  | 0, _ => none
  | fuel + 1, marker =>
    let page := Paging.page ObjectPart.partNumber (some marker) maxPartsPerPage parts
    if Paging.isTruncated ObjectPart.partNumber (some marker) maxPartsPerPage parts then
      (partsFrom parts fuel (page.getLast?.elim marker ObjectPart.partNumber)).map (page ++ ·)
    else
      some page

def listAllParts (s : Multipart α) (uploadId : UploadID) :
    Except StorageError (List (ObjectPart α)) :=
  match s.uploads uploadId with
  | none => .error .other
  | some parts =>
    match partsFrom parts.objectParts (parts.objectParts.length + 1) 0 with
    | none => .error .other
    | some listed => .ok listed

def listParts (s : Multipart α) (uploadId : UploadID) : Except StorageError (List (Nat × Nat)) :=
  (s.listAllParts uploadId).map fun parts => parts.map fun p => (p.partNumber, p.bytes.length)

-- S3 joins the parts it is sent, and refuses one that a later PUT has replaced
def completeMultipartUpload [DecidableEq α] (s : Multipart α) (uploadId : UploadID)
    (completeParts : List (ObjectPart α)) : Except StorageError (Multipart α) :=
  match s.uploads uploadId with
  | none => .error .other
  | some parts =>
    if completeParts.all fun p => parts.lookup p.partNumber = some p.bytes then
      .ok { s with
        object := some (completeParts.flatMap ObjectPart.bytes)
        uploads := Function.update s.uploads uploadId none }
    else .error .other

end Multipart

section Listing

variable {α : Type}

theorem nodup_objectParts (parts : Parts α) :
    (parts.objectParts.map ObjectPart.partNumber).Nodup := by
  have h : parts.objectParts.map ObjectPart.partNumber = parts.keys := by
    simp [Parts.objectParts, AList.keys, List.keys, Function.comp_def]
  rw [h]
  exact parts.keys_nodup

theorem mem_objectParts {parts : Parts α} {p : ObjectPart α} :
    p ∈ parts.objectParts ↔ parts.lookup p.partNumber = some p.bytes := by
  constructor
  · intro h
    obtain ⟨e, he, rfl⟩ := List.mem_map.mp h
    exact AList.mem_lookup_iff.mpr he
  · intro h
    exact List.mem_map.mpr ⟨⟨p.partNumber, p.bytes⟩, AList.mem_lookup_iff.mp h, rfl⟩

theorem partsFrom_eq {parts : List (ObjectPart α)}
    (hn : (parts.map ObjectPart.partNumber).Nodup) (fuel marker : Nat)
    (hfuel : (Paging.remaining ObjectPart.partNumber (some marker) parts).length < fuel) :
    Multipart.partsFrom parts fuel marker =
      some (Paging.remaining ObjectPart.partNumber (some marker) parts) := by
  induction fuel generalizing marker with
  | zero => omega
  | succ fuel ih =>
    have hpos : 0 < maxPartsPerPage := by decide
    rw [Multipart.partsFrom]
    cases hmore : Paging.isTruncated ObjectPart.partNumber (some marker) maxPartsPerPage parts with
    | false =>
      have hle : (Paging.remaining ObjectPart.partNumber (some marker) parts).length ≤
          maxPartsPerPage := by simpa [Paging.isTruncated] using hmore
      simp [Paging.page, List.take_of_length_le hle]
    | true =>
      obtain ⟨last, hlast⟩ : ∃ last, (Paging.page ObjectPart.partNumber (some marker)
          maxPartsPerPage parts).getLast? = some last :=
        ⟨_, List.getLast?_eq_getLast_of_ne_nil (Paging.page_ne_nil hmore hpos)⟩
      have hrest := (Paging.cuts_last hn hlast).remaining_eq hn
      have hlen : (Paging.remaining ObjectPart.partNumber (some last.partNumber) parts).length <
          fuel := by
        rw [hrest, List.length_drop]
        have hlt : maxPartsPerPage <
          (Paging.remaining ObjectPart.partNumber (some marker) parts).length := by
            simpa [Paging.isTruncated] using hmore
        omega
      simp only [if_true, hlast, Option.elim_some, ih last.partNumber hlen, hrest, Option.map_some]
      rw [Paging.page, List.take_append_drop]

theorem partsFrom_zero (parts : Parts α) :
    Multipart.partsFrom parts.objectParts (parts.objectParts.length + 1) 0 =
      some (Paging.remaining ObjectPart.partNumber (some 0) parts.objectParts) := by
  apply partsFrom_eq (nodup_objectParts parts)
  have hfilter := List.length_filter_le (fun p : ObjectPart α => (0 : Nat) < p.partNumber)
    parts.objectParts
  rw [Paging.remaining, List.length_insertionSort]
  simpa using Nat.lt_succ_of_le hfilter

theorem listAllParts_eq {s : Multipart α} {uploadId : UploadID} {parts : Parts α}
    (h : s.uploads uploadId = some parts) : s.listAllParts uploadId =
      .ok (Paging.remaining ObjectPart.partNumber (some 0) parts.objectParts) := by
  simp [Multipart.listAllParts, h, partsFrom_zero]

theorem of_listAllParts {s : Multipart α} {uploadId : UploadID} {listed : List (ObjectPart α)}
    (h : s.listAllParts uploadId = .ok listed) : ∃ parts, s.uploads uploadId = some parts ∧
      listed = Paging.remaining ObjectPart.partNumber (some 0) parts.objectParts := by
  cases hparts : s.uploads uploadId with
  | none =>
    rw [Multipart.listAllParts, hparts] at h
    cases h
  | some parts =>
    rw [listAllParts_eq hparts] at h
    cases h
    exact ⟨parts, rfl, rfl⟩

end Listing

end FileIndexer
