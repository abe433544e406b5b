import FileIndexer.Storage.Key

namespace FileIndexer

structure Object (β : Type) where
  bytes : β
  lastModified : Time
  deriving DecidableEq, Repr

inductive StorageError where
  | noSuchKey
  | other
  deriving DecidableEq, Repr

structure ObjectInfo where
  key : Key
  lastModified : Time
  deriving DecidableEq, Repr

abbrev Bucket (β : Type) := AList fun _ : Key => Object β

namespace Bucket

variable {β : Type}

def put (b : Bucket β) (now : Time) (key : Key) (bytes : β) : Bucket β := b.insert key ⟨bytes, now⟩

def delete (b : Bucket β) (key : Key) : Bucket β := b.erase key

def copy (b : Bucket β) (now : Time) (srcKey dstKey : Key) : Except StorageError (Bucket β) :=
  match b.lookup srcKey with
  | none => .error .noSuchKey
  | some o => .ok (b.put now dstKey o.bytes)

def bytesAt (b : Bucket β) (key : Key) : Option β := (b.lookup key).map Object.bytes

def objects (b : Bucket β) : List ObjectInfo := b.entries.map fun e => ⟨e.1, e.2.lastModified⟩

theorem nodup_objects (b : Bucket β) : (b.objects.map ObjectInfo.key).Nodup := by
  have h : b.objects.map ObjectInfo.key = b.keys := by
    simp [objects, AList.keys, List.keys, Function.comp_def]
  rw [h]
  exact b.keys_nodup

theorem mem_objects {b : Bucket β} {info : ObjectInfo} :
    info ∈ b.objects ↔ ∃ o, b.lookup info.key = some o ∧ o.lastModified = info.lastModified := by
  constructor
  · intro h
    obtain ⟨⟨k, o⟩, he, rfl⟩ := List.mem_map.mp h
    exact ⟨o, AList.mem_lookup_iff.mpr he, rfl⟩
  · rintro ⟨o, ho, hm⟩
    exact List.mem_map.mpr ⟨⟨info.key, o⟩, AList.mem_lookup_iff.mp ho, by rw [hm]⟩

@[simp] theorem lookup_put (b : Bucket β) (now : Time) (key k : Key) (bytes : β) :
    (b.put now key bytes).lookup k = if k = key then some ⟨bytes, now⟩ else b.lookup k := by
  unfold put
  split
  · rename_i h
    rw [h, AList.lookup_insert]
  · rename_i h
    exact AList.lookup_insert_ne h

@[simp] theorem lookup_delete (b : Bucket β) (key k : Key) :
    (b.delete key).lookup k = if k = key then none else b.lookup k := by
  unfold delete
  split
  · rename_i h
    rw [h, AList.lookup_erase]
  · rename_i h
    exact AList.lookup_erase_ne h

@[simp] theorem bytesAt_put (b : Bucket β) (now : Time) (key k : Key) (bytes : β) :
    (b.put now key bytes).bytesAt k = if k = key then some bytes else b.bytesAt k := by
  simp only [bytesAt, lookup_put]
  split <;> rfl

@[simp] theorem bytesAt_delete (b : Bucket β) (key k : Key) :
    (b.delete key).bytesAt k = if k = key then none else b.bytesAt k := by
  simp only [bytesAt, lookup_delete]
  split <;> rfl

theorem copy_ok_iff {b b' : Bucket β} {now : Time} {srcKey dstKey : Key} :
    b.copy now srcKey dstKey = .ok b' ↔
      ∃ o, b.lookup srcKey = some o ∧ b' = b.put now dstKey o.bytes := by
  unfold copy
  cases b.lookup srcKey with
  | none => simp
  | some o => simp [eq_comm]

theorem lookup_of_copy_error {b : Bucket β} {now : Time} {srcKey dstKey : Key} {e : StorageError}
    (h : b.copy now srcKey dstKey = .error e) : b.lookup srcKey = none := by
  unfold copy at h
  cases hs : b.lookup srcKey with
  | none => rfl
  | some o => simp [hs] at h

end Bucket

end FileIndexer
