import FileIndexer.Service.Files.Status
import FileIndexer.Service.Indexer.Results
import FileIndexer.Web.PlanParts

namespace FileIndexer

structure GetUploadPartURLRequest where
  key : Key
  uploadId : Text
  partNumber : Int
  deriving DecidableEq, Repr

section Server

variable (indexPrefix : Key) (uploadPartURL : Key → Text → Int → Except StorageError Text)

def getUploadPartURL (req : GetUploadPartURLRequest) : Except Failure Text :=
  match validateUploadKey indexPrefix req.key with
  | .error e => .error e
  | .ok key =>
    if req.uploadId = [] then
      .error (errorf .invalidArgument "upload_id must not be empty" [])
    else if req.partNumber < minPartNumber || req.partNumber > maxPartNumber then
      .error (errorf .invalidArgument "part_number must be between %d and %d, got %d"
        [.id minPartNumber, .id maxPartNumber, .id req.partNumber])
    else
      (uploadPartURL key req.uploadId req.partNumber).mapError fun e => .cause (.storage e)

def Refused {γ : Type} (r : Except Failure γ) : Prop := ∃ s, r = .error (.status s)

-- the part number travels in an int32
def partRequest (key : Key) (uploadId : Text) (q : PartPlan) : GetUploadPartURLRequest :=
  ⟨key, uploadId, wrap 32 q.partNumber⟩

theorem not_refused_iff {key : Key} {uploadId : Text} {partNumber : Int}
    (hkey : validateUploadKey indexPrefix key = .ok key) (hid : uploadId ≠ []) :
    ¬Refused (getUploadPartURL indexPrefix uploadPartURL ⟨key, uploadId, partNumber⟩) ↔
      minPartNumber ≤ partNumber ∧ partNumber ≤ maxPartNumber := by
  simp only [getUploadPartURL, hkey, hid, if_false, Bool.or_eq_true, decide_eq_true_eq]
  split
  · rename_i hout
    constructor
    · intro h
      exact absurd ⟨_, rfl⟩ h
    · intro h
      omega
  · rename_i hin
    have hpasses : ¬Refused ((uploadPartURL key uploadId partNumber).mapError
        fun e => Failure.cause (.storage e)) := by
      rintro ⟨s, hs⟩
      cases hu : uploadPartURL key uploadId partNumber <;> rw [hu] at hs <;> cases hs
    simp only [hpasses, not_false_eq_true, true_iff]
    omega

end Server

structure Tiles (size : Nat) (plan : List PartPlan) : Prop where
  numbered : plan.map PartPlan.partNumber = List.range' 1 plan.length
  nonempty : ∀ q ∈ plan, q.start < q.stop
  covers : ∀ x, x < size ↔ ∃ q ∈ plan, q.start ≤ x ∧ x < q.stop
  disjoint : plan.Pairwise fun q r => q.stop ≤ r.start

section Plan

variable {fileSize partSize : Nat}

def partAt (fileSize partSize start partNumber i : Nat) : PartPlan :=
  ⟨partNumber + i, start + i * partSize, min (start + i * partSize + partSize) fileSize⟩

theorem mem_planFrom_iff (hsize : 0 < partSize) (fuel start partNumber : Nat)
    (hfuel : fileSize ≤ start + fuel) {q : PartPlan} :
    q ∈ planFrom fileSize partSize fuel start partNumber ↔
      ∃ i, start + i * partSize < fileSize ∧ q = partAt fileSize partSize start partNumber i := by
  induction fuel generalizing start partNumber with
  | zero =>
    constructor
    · intro h
      cases h
    · rintro ⟨i, hi, -⟩
      omega
  | succ fuel ih =>
    rw [planFrom]
    split
    · rename_i hlt
      rw [List.mem_cons, ih _ _ (by omega)]
      constructor
      · rintro (rfl | ⟨i, hi, rfl⟩)
        · exact ⟨0, by omega, by simp [partAt]⟩
        · refine ⟨i + 1, by rw [Nat.succ_mul]; omega, ?_⟩
          rw [partAt, partAt, Nat.succ_mul]
          congr 1 <;> omega
      · rintro ⟨i, hi, rfl⟩
        cases i with
        | zero =>
          left
          simp [partAt]
        | succ i =>
          right
          refine ⟨i, by rw [Nat.succ_mul] at hi; omega, ?_⟩
          rw [partAt, partAt, Nat.succ_mul]
          congr 1 <;> omega
    · rename_i hge
      constructor
      · intro h
        cases h
      · rintro ⟨i, hi, -⟩
        omega

theorem numbered_planFrom (fuel start partNumber : Nat) :
    (planFrom fileSize partSize fuel start partNumber).map PartPlan.partNumber =
      List.range' partNumber (planFrom fileSize partSize fuel start partNumber).length := by
  induction fuel generalizing start partNumber with
  | zero => rfl
  | succ fuel ih =>
    rw [planFrom]
    split
    · rw [List.map_cons, List.length_cons, List.range'_succ, ih]
    · rfl

theorem mem_planParts_iff {size : Nat} {q : PartPlan} :
    q ∈ planParts size ↔
      ∃ i, i * partSizeBytes < size ∧ q = partAt size partSizeBytes 0 1 i := by
  rw [planParts, mem_planFrom_iff (by decide) _ _ _ (by omega)]
  simp only [Nat.zero_add]

theorem tiles_planParts (size : Nat) : Tiles size (planParts size) where
  numbered := numbered_planFrom _ _ _
  nonempty q hq := by
    have hpos : 0 < partSizeBytes := by decide
    obtain ⟨i, hi, rfl⟩ := mem_planParts_iff.mp hq
    simp only [partAt]
    omega
  covers x := by
    have hpos : 0 < partSizeBytes := by decide
    constructor
    · intro hx
      have hlow := Nat.div_mul_le_self x partSizeBytes
      have hhigh := Nat.lt_div_mul_add hpos (a := x)
      refine ⟨partAt size partSizeBytes 0 1 (x / partSizeBytes),
        mem_planParts_iff.mpr ⟨_, by omega, rfl⟩, ?_, ?_⟩
      · simp only [partAt]
        omega
      · simp only [partAt]
        omega
    · rintro ⟨q, hq, -, hstop⟩
      obtain ⟨i, hi, rfl⟩ := mem_planParts_iff.mp hq
      exact hstop.trans_le (Nat.min_le_right _ _)
  disjoint := by
    apply List.Pairwise.imp_of_mem _ (sorted_planFrom size partSizeBytes size 0 1)
    intro q r hq hr hlt
    obtain ⟨i, hi, rfl⟩ := mem_planParts_iff.mp hq
    obtain ⟨j, hj, rfl⟩ := mem_planParts_iff.mp hr
    have hij : i + 1 ≤ j := by
      simp only [partAt] at hlt
      omega
    have hmul := Nat.mul_le_mul_right partSizeBytes hij
    rw [Nat.succ_mul] at hmul
    simp only [partAt]
    omega

theorem partNumbers_le_iff (size limit : Nat) :
    (∀ q ∈ planParts size, q.partNumber ≤ limit) ↔ size ≤ limit * partSizeBytes := by
  constructor
  · intro h
    by_contra hlarge
    have hpart := h _ (mem_planParts_iff.mpr ⟨limit, by omega, rfl⟩)
    simp only [partAt] at hpart
    omega
  · intro h q hq
    obtain ⟨i, hi, rfl⟩ := mem_planParts_iff.mp hq
    have hlt : i < limit := lt_of_mul_lt_mul_right (hi.trans_le h) (Nat.zero_le _)
    simp only [partAt]
    omega

end Plan

def maxObjectSize : Nat := 5 * 1024 ^ 4

theorem wrap_partNumber {size : Nat} (hsize : size ≤ maxObjectSize) {q : PartPlan}
    (hq : q ∈ planParts size) : wrap 32 q.partNumber = q.partNumber := by
  have hle : q.partNumber ≤ 327680 :=
    (partNumbers_le_iff size 327680).mpr (hsize.trans (by decide)) q hq
  rw [wrap]
  apply Int.bmod_eq_of_le <;> omega

theorem part_numbers_accepted_iff (indexPrefix : Key)
    (uploadPartURL : Key → Text → Int → Except StorageError Text) {key : Key} {uploadId : Text}
    (hkey : validateUploadKey indexPrefix key = .ok key) (hid : uploadId ≠ []) {size : Nat}
    (hsize : size ≤ maxObjectSize) :
    (Tiles size (planParts size) ∧ ∀ q ∈ planParts size,
        ¬Refused (getUploadPartURL indexPrefix uploadPartURL (partRequest key uploadId q))) ↔
      size ≤ maxPartNumber * partSizeBytes := by
  rw [← partNumbers_le_iff, and_iff_right (tiles_planParts size)]
  refine forall₂_congr fun q hq => ?_
  have hpos : 1 ≤ q.partNumber := le_of_mem_planFrom hq
  rw [partRequest, wrap_partNumber hsize hq, not_refused_iff _ _ hkey hid, minPartNumber]
  omega

def movieKey : Key := ascii "big/movie.mp4"

def movieUpload : Text := ascii "upload-1"

def signedPart (_ : Key) (_ : Text) (_ : Int) : Except StorageError Text :=
  .ok (ascii "https://s3/part")

theorem last_part_refused : 167772160001 ≤ maxObjectSize ∧
    ∃ q ∈ planParts 167772160001, ∃ r ∈ planParts 167772160001, q.partNumber < r.partNumber ∧
      ¬Refused (getUploadPartURL (ascii ".index/") signedPart (partRequest movieKey movieUpload q)) ∧
      Refused (getUploadPartURL (ascii ".index/") signedPart (partRequest movieKey movieUpload r)) := by
  refine ⟨by decide, _, mem_planParts_iff.mpr ⟨9999, by decide, rfl⟩, _,
    mem_planParts_iff.mpr ⟨10000, by decide, rfl⟩, by decide, ?_, ⟨_, rfl⟩⟩
  exact (not_refused_iff _ _ (by decide) (by decide)).mpr (by decide)

theorem fifty_gibibytes_accepted : Tiles 53687091200 (planParts 53687091200) ∧
    ∀ q ∈ planParts 53687091200, ¬Refused (getUploadPartURL (ascii ".index/") signedPart
      (partRequest movieKey movieUpload q)) :=
  (part_numbers_accepted_iff (ascii ".index/") signedPart
    (by decide) (by decide) (by decide)).mpr (by decide)

end FileIndexer
