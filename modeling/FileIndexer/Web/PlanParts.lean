import FileIndexer.Storage.Multipart

namespace FileIndexer

structure PartPlan where
  partNumber : Nat
  start : Nat
  stop : Nat
  deriving DecidableEq, Repr

def partSizeBytes : Nat := 16 * 1024 * 1024

def planFrom (fileSize partSize : Nat) : Nat → Nat → Nat → List PartPlan
  | 0, _, _ => []
  | fuel + 1, start, partNumber =>
    if start < fileSize then
      ⟨partNumber, start, min (start + partSize) fileSize⟩ ::
        planFrom fileSize partSize fuel (start + partSize) (partNumber + 1)
    else []

-- every turn of the loop moves the start on, so the file's size bounds their number
def planParts (fileSize : Nat) : List PartPlan := planFrom fileSize partSizeBytes fileSize 0 1

structure FileLike (α : Type) where
  name : String
  lastModified : Nat
  bytes : List α

namespace FileLike

variable {α : Type}

def size (file : FileLike α) : Nat := file.bytes.length

def slice (file : FileLike α) (start stop : Nat) : List α := (file.bytes.take stop).drop start

def plan (file : FileLike α) : List PartPlan := planParts file.size

def part (file : FileLike α) (q : PartPlan) : ObjectPart α := ⟨q.partNumber, file.slice q.start q.stop⟩

def parts (file : FileLike α) : List (ObjectPart α) := file.plan.map file.part

end FileLike

section Tiling

variable {α : Type} {partSize : Nat}

theorem le_of_mem_planFrom {fileSize fuel start partNumber : Nat} {q : PartPlan}
    (h : q ∈ planFrom fileSize partSize fuel start partNumber) : partNumber ≤ q.partNumber := by
  induction fuel generalizing start partNumber with
  | zero => cases h
  | succ fuel ih =>
    rw [planFrom] at h
    split at h
    · rcases List.mem_cons.mp h with rfl | hrest
      · exact le_refl _
      · exact (Nat.le_succ _).trans (ih hrest)
    · cases h

theorem sorted_planFrom (fileSize partSize fuel start partNumber : Nat) :
    (planFrom fileSize partSize fuel start partNumber).Pairwise
      fun q r => q.partNumber < r.partNumber := by
  induction fuel generalizing start partNumber with
  | zero => exact .nil
  | succ fuel ih =>
    rw [planFrom]
    split
    · exact .cons (fun r hr => le_of_mem_planFrom hr) (ih _ _)
    · exact .nil

theorem flatMap_planFrom (file : FileLike α) (hsize : 0 < partSize) (fuel start partNumber : Nat)
    (hfuel : file.size ≤ start + fuel) :
    (planFrom file.size partSize fuel start partNumber).flatMap
      (fun q => file.slice q.start q.stop) = file.bytes.drop start := by
  induction fuel generalizing start partNumber with
  | zero => exact (List.drop_of_length_le hfuel).symm
  | succ fuel ih =>
    rw [planFrom]
    split
    · rename_i hlt
      have hstop : file.bytes.drop (min (start + partSize) file.size) =
          file.bytes.drop (start + partSize) := by
        rcases Nat.le_total (start + partSize) file.size with hle | hle
        · rw [Nat.min_eq_left hle]
        · rw [Nat.min_eq_right hle, List.drop_of_length_le hle, FileLike.size, List.drop_length]
      have hjoin : (file.bytes.take (min (start + partSize) file.size)).drop start ++
          file.bytes.drop (min (start + partSize) file.size) = file.bytes.drop start := by
        have hle : start ≤ min (start + partSize) file.size := by omega
        conv_rhs => rw [← List.take_append_drop (min (start + partSize) file.size) file.bytes]
        rw [List.drop_append_of_le_length]
        rw [List.length_take]
        exact le_min hle (hlt.le)
      rw [List.flatMap_cons, ih _ _ (by omega), ← hstop]
      exact hjoin
    · rename_i hge
      rw [List.drop_of_length_le (Nat.le_of_not_lt hge)]
      rfl

theorem part_mem {file : FileLike α} {q : PartPlan} (h : q ∈ file.plan) : file.part q ∈ file.parts :=
  List.mem_map.mpr ⟨q, h, rfl⟩

theorem sorted_parts (file : FileLike α) :
    file.parts.Pairwise fun p q => p.partNumber < q.partNumber :=
  List.pairwise_map.mpr (sorted_planFrom _ _ _ _ _)

theorem partNumber_pos {file : FileLike α} {p : ObjectPart α} (h : p ∈ file.parts) :
    0 < p.partNumber := by
  obtain ⟨q, hq, rfl⟩ := List.mem_map.mp h
  exact le_of_mem_planFrom hq

theorem parts_inj {file : FileLike α} {p q : ObjectPart α} (hp : p ∈ file.parts)
    (hq : q ∈ file.parts) (h : p.partNumber = q.partNumber) : p = q := by
  have hnodup : (file.parts.map ObjectPart.partNumber).Nodup :=
    List.pairwise_map.mpr ((sorted_parts file).imp fun hlt => hlt.ne)
  exact List.inj_on_of_nodup_map hnodup hp hq h

theorem flatMap_parts (file : FileLike α) : file.parts.flatMap ObjectPart.bytes = file.bytes := by
  have htile := flatMap_planFrom file (show 0 < partSizeBytes by decide) file.size 0 1 (by omega)
  rw [FileLike.parts, List.flatMap_map]
  exact htile.trans List.drop_zero

theorem parts_congr {file file' : FileLike α} (h : file.bytes = file'.bytes) :
    file.parts = file'.parts := by
  have hplan : file.plan = file'.plan := by rw [FileLike.plan, FileLike.size, h]; rfl
  rw [FileLike.parts, hplan]
  refine List.map_congr_left fun q _ => ?_
  rw [FileLike.part, FileLike.slice, h]
  rfl

end Tiling

end FileIndexer
