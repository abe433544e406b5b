import FileIndexer.Foundation.Runs
import FileIndexer.Database.IndexQueue

namespace FileIndexer

def wrap (bits : Nat) (n : Int) : Int := Int.bmod n (2 ^ bits)

theorem wrap_bounds (bits : Nat) (n : Int) :
    -(2 ^ bits) ≤ wrap (bits + 1) n ∧ wrap (bits + 1) n < 2 ^ bits := by
  have hpos : 0 < 2 ^ (bits + 1) := Nat.two_pow_pos (bits + 1)
  have hlow := Int.le_bmod (x := n) hpos
  have hhigh := Int.bmod_lt (x := n) hpos
  rw [wrap]
  push_cast [pow_succ] at hlow hhigh ⊢
  omega

theorem wrap_of_lt {bits : Nat} {n : Int} (hpos : 0 ≤ n) (hlt : n < 2 ^ (bits + 1)) :
    wrap (bits + 1) n = if n < 2 ^ bits then n else n - 2 ^ (bits + 1) := by
  have hmod : n % 2 ^ (bits + 1) = n := Int.emod_eq_of_lt hpos hlt
  have hhalf : (2 ^ bits * 2 + 1 : Int) / 2 = 2 ^ bits := by omega
  rw [wrap, Int.bmod_def]
  push_cast
  rw [hmod, pow_succ, hhalf]

structure StatResult where
  contentType : Text
  sizeBytes : Int
  lastModified : Time
  deriving DecidableEq, Repr

structure StatRow where
  contentType : Text
  sizeBytes : Int
  lastModified : Time
  updatedAt : Time
  deriving DecidableEq, Repr

structure PreviewResult where
  skipped : Bool
  key : Key
  width : Int
  height : Int
  deriving DecidableEq, Repr

structure PreviewRow where
  previewKey : Key
  width : Int
  height : Int
  updatedAt : Time
  deriving DecidableEq, Repr

-- REAL and DOUBLE PRECISION values are carried as their IEEE bit patterns
structure ExifResult where
  skipped : Bool
  imageType : Text
  cameraMake : Text
  cameraModel : Text
  cameraSerial : Text
  lensMake : Text
  lensModel : Text
  takenAt : Option Time
  iso : Option Int
  fNumber : Option UInt32
  exposureTime : Option UInt32
  focalLength : Option UInt32
  focalLength35mm : Option UInt32
  exposureProgram : Option Int
  meteringMode : Option Int
  flash : Option Int
  orientation : Option Int
  imageWidth : Option Int
  imageHeight : Option Int
  gpsLatitude : Option UInt64
  gpsLongitude : Option UInt64
  gpsAltitude : Option UInt32
  gpsAt : Option Time
  software : Text
  artist : Text
  copyright : Text
  imageDescription : Text
  xmpTitle : Text
  xmpDescription : Text
  xmpCreator : Text
  xmpLabel : Text
  xmpRating : Option Int
  xmpKeywords : Option (List Text)
  xmpCreateDate : Option Time
  hasExif : Bool
  hasXmp : Bool
  deriving DecidableEq, Repr

structure ExifRow where
  imageType : Option Text
  cameraMake : Option Text
  cameraModel : Option Text
  cameraSerial : Option Text
  lensMake : Option Text
  lensModel : Option Text
  takenAt : Option Time
  iso : Option Int
  fNumber : Option UInt32
  exposureTime : Option UInt32
  focalLength : Option UInt32
  focalLength35mm : Option UInt32
  exposureProgram : Option Int
  meteringMode : Option Int
  flash : Option Int
  orientation : Option Int
  imageWidth : Option Int
  imageHeight : Option Int
  gpsLatitude : Option UInt64
  gpsLongitude : Option UInt64
  gpsAltitude : Option UInt32
  gpsAt : Option Time
  software : Option Text
  artist : Option Text
  copyright : Option Text
  imageDescription : Option Text
  xmpTitle : Option Text
  xmpDescription : Option Text
  xmpCreator : Option Text
  xmpLabel : Option Text
  xmpRating : Option Int
  xmpKeywords : Option (List Text)
  xmpCreateDate : Option Time
  hasExif : Bool
  hasXmp : Bool
  updatedAt : Time
  deriving DecidableEq, Repr

def pgText (s : Text) : Option Text := if s = [] then none else some s

def ExifResult.row (now : Time) (r : ExifResult) : ExifRow where
  imageType := pgText r.imageType
  cameraMake := pgText r.cameraMake
  cameraModel := pgText r.cameraModel
  cameraSerial := pgText r.cameraSerial
  lensMake := pgText r.lensMake
  lensModel := pgText r.lensModel
  takenAt := r.takenAt
  iso := r.iso
  fNumber := r.fNumber
  exposureTime := r.exposureTime
  focalLength := r.focalLength
  focalLength35mm := r.focalLength35mm
  exposureProgram := r.exposureProgram
  meteringMode := r.meteringMode
  flash := r.flash
  orientation := r.orientation
  imageWidth := r.imageWidth
  imageHeight := r.imageHeight
  gpsLatitude := r.gpsLatitude
  gpsLongitude := r.gpsLongitude
  gpsAltitude := r.gpsAltitude
  gpsAt := r.gpsAt
  software := pgText r.software
  artist := pgText r.artist
  copyright := pgText r.copyright
  imageDescription := pgText r.imageDescription
  xmpTitle := pgText r.xmpTitle
  xmpDescription := pgText r.xmpDescription
  xmpCreator := pgText r.xmpCreator
  xmpLabel := pgText r.xmpLabel
  xmpRating := r.xmpRating
  xmpKeywords := r.xmpKeywords
  xmpCreateDate := r.xmpCreateDate
  hasExif := r.hasExif
  hasXmp := r.hasXmp
  updatedAt := now

abbrev Results (ρ : Type) := AList fun _ : FileID => ρ

structure IndexType (R ρ : Type) where
  row : Time → R → Option ρ
  check : ρ → Bool

def statIndex : IndexType StatResult StatRow where
  row now r := some ⟨r.contentType, wrap 64 r.sizeBytes, r.lastModified, now⟩
  check _ := true

def previewIndex : IndexType PreviewResult PreviewRow where
  row now r := if r.skipped then none else some ⟨r.key, wrap 32 r.width, wrap 32 r.height, now⟩
  check _ := true

-- NaN and infinities have a larger magnitude pattern than 90 and 180, so the CHECK rejects them
def coordinateWithin (limit : UInt64) (v : Option UInt64) : Bool :=
  v.all fun bits => bits &&& 0x7FFFFFFFFFFFFFFF ≤ limit

def ninety : UInt64 := 0x4056800000000000

def oneEighty : UInt64 := 0x4066800000000000

def exifIndex : IndexType ExifResult ExifRow where
  row now r := if r.skipped then none else some (r.row now)
  check row := coordinateWithin ninety row.gpsLatitude && coordinateWithin oneEighty row.gpsLongitude

namespace IndexType

variable {R ρ : Type}

def store (T : IndexType R ρ) (files : Files) (results : Results ρ) (now : Time) (fileID : FileID)
    (result : R) : Except DbError (Results ρ) :=
  match T.row now result with
  | none => .ok results
  | some row =>
    if (files.getFile fileID).isSome && T.check row then .ok (results.insert fileID row)
    else .error .other

end IndexType

def storeStatResult (files : Files) (results : Results StatRow) (now : Time) (fileID : FileID)
    (result : StatResult) : Except DbError (Results StatRow) :=
  statIndex.store files results now fileID result

def storePreviewResult (files : Files) (results : Results PreviewRow) (now : Time) (fileID : FileID)
    (result : PreviewResult) : Except DbError (Results PreviewRow) :=
  previewIndex.store files results now fileID result

def storeExifResult (files : Files) (results : Results ExifRow) (now : Time) (fileID : FileID)
    (result : ExifResult) : Except DbError (Results ExifRow) :=
  exifIndex.store files results now fileID result

structure IndexDb (ρ : Type) where
  files : Files
  queue : IndexQueue
  results : Results ρ

namespace IndexType

variable {R ρ : Type} {T : IndexType R ρ}

def complete (T : IndexType R ρ) (db : IndexDb ρ) (now : Time) (fileID : FileID) (result : R) :
    Except DbError (IndexDb ρ) := do
  let results ← T.store db.files db.results now fileID result
  return { db with queue := db.queue.completeIndexQueue now db.files fileID, results }

theorem complete_ok {db db' : IndexDb ρ} {now : Time} {fileID : FileID} {result : R}
    (h : T.complete db now fileID result = .ok db') :
    db'.files = db.files ∧ db'.queue = db.queue.completeIndexQueue now db.files fileID ∧
      db'.results = (T.row now result).elim db.results (db.results.insert fileID) := by
  unfold complete store at h
  cases hrow : T.row now result with
  | none =>
    simp only [hrow, bind, Except.bind, pure, Except.pure, Except.ok.injEq] at h
    subst h
    exact ⟨rfl, rfl, rfl⟩
  | some row =>
    simp only [hrow, bind, Except.bind, pure, Except.pure] at h
    split at h
    · cases h
    · rename_i results hres
      split at hres
      · cases hres
        cases h
        exact ⟨rfl, rfl, rfl⟩
      · cases hres

theorem file_of_complete {db db' : IndexDb ρ} {now : Time} {fileID : FileID} {result : R} {row : ρ}
    (hrow : T.row now result = some row) (h : T.complete db now fileID result = .ok db') :
    ∃ f ∈ db.files.rows, f.id = fileID := by
  cases hf : db.files.getFile fileID with
  | none => simp [complete, store, hrow, hf, bind, Except.bind] at h
  | some f => exact ⟨f, Files.getFile_eq_some_iff.mp hf⟩

def completeStep (T : IndexType R ρ) (fileID : FileID) (db : IndexDb ρ) (c : Time × R) :
    Option (IndexDb ρ) :=
  (T.complete db c.1 fileID c.2).toOption

theorem lookup_completeStep {db db' : IndexDb ρ} {fileID : FileID} {c : Time × R}
    (h : T.completeStep fileID db c = some db') :
    db'.results.lookup fileID = (T.row c.1 c.2).or (db.results.lookup fileID) := by
  have hok : T.complete db c.1 fileID c.2 = .ok db' := by
    unfold completeStep at h
    cases hc : T.complete db c.1 fileID c.2 with
    | error e => simp [hc, Except.toOption] at h
    | ok d => simpa [hc, Except.toOption] using h
  rw [(complete_ok hok).2.2]
  cases T.row c.1 c.2 with
  | none => rfl
  | some row => simp

theorem lookup_none_iff (history : List (Time × R)) {db db' : IndexDb ρ} {fileID : FileID}
    (h : Transition.exec (T.completeStep fileID) db history = some db') :
    db'.results.lookup fileID = none ↔
      db.results.lookup fileID = none ∧ ∀ c ∈ history, T.row c.1 c.2 = none := by
  induction history generalizing db with
  | nil =>
    obtain rfl := Option.some.inj h
    simp
  | cons c history ih =>
    obtain ⟨db₁, h₁, hrest⟩ := Option.bind_eq_some_iff.mp h
    rw [ih hrest, lookup_completeStep h₁]
    cases hrow : T.row c.1 c.2 with
    | none => simp [hrow]
    | some row => simp [hrow]

theorem exec_concat {history : List (Time × R)} {last : Time × R} {db db' : IndexDb ρ}
    {fileID : FileID}
    (h : Transition.exec (T.completeStep fileID) db (history ++ [last]) = some db') :
    ∃ d, Transition.exec (T.completeStep fileID) db history = some d ∧
      T.completeStep fileID d last = some db' := by
  induction history generalizing db with
  | nil =>
    obtain ⟨d, hd, he⟩ := Option.bind_eq_some_iff.mp h
    exact ⟨db, rfl, by rw [hd, ← he]; rfl⟩
  | cons c history ih =>
    obtain ⟨d, hd, he⟩ := Option.bind_eq_some_iff.mp h
    obtain ⟨u, hu, hlast⟩ := ih he
    exact ⟨u, Option.bind_eq_some_iff.mpr ⟨d, hd, hu⟩, hlast⟩

theorem lookup_after_history (history : List (Time × R)) (last : Time × R) {db db' : IndexDb ρ}
    {fileID : FileID}
    (h : Transition.exec (T.completeStep fileID) db (history ++ [last]) = some db') :
    db'.results.lookup fileID = T.row last.1 last.2 ↔ T.row last.1 last.2 ≠ none ∨
      (db.results.lookup fileID = none ∧ ∀ c ∈ history, T.row c.1 c.2 = none) := by
  obtain ⟨d, hd, hlast⟩ := exec_concat h
  rw [lookup_completeStep hlast]
  cases hrow : T.row last.1 last.2 with
  | none => simpa using lookup_none_iff history hd
  | some row => simp

end IndexType

theorem previewIndex_row_none_iff {now : Time} {r : PreviewResult} :
    previewIndex.row now r = none ↔ r.skipped = true := by
  simp [previewIndex]

theorem exifIndex_row_none_iff {now : Time} {r : ExifResult} :
    exifIndex.row now r = none ↔ r.skipped = true := by
  simp [exifIndex]

theorem results_follow_last (fileID : FileID) (now : Time) :
    (∀ (history : List (Time × PreviewResult)) (last : PreviewResult) (db db' : IndexDb PreviewRow),
      Transition.exec (previewIndex.completeStep fileID) db (history ++ [(now, last)]) = some db' →
      (db'.results.lookup fileID = previewIndex.row now last ↔ last.skipped = false ∨
        (db.results.lookup fileID = none ∧ ∀ c ∈ history, c.2.skipped = true))) ∧
    (∀ (history : List (Time × ExifResult)) (last : ExifResult) (db db' : IndexDb ExifRow),
      Transition.exec (exifIndex.completeStep fileID) db (history ++ [(now, last)]) = some db' →
      (db'.results.lookup fileID = exifIndex.row now last ↔ last.skipped = false ∨
        (db.results.lookup fileID = none ∧ ∀ c ∈ history, c.2.skipped = true))) := by
  constructor
  · intro history last db db' h
    rw [IndexType.lookup_after_history history _ h]
    simp only [ne_eq, previewIndex_row_none_iff, Bool.not_eq_true]
  · intro history last db db' h
    rw [IndexType.lookup_after_history history _ h]
    simp only [ne_eq, exifIndex_row_none_iff, Bool.not_eq_true]

def photoDb : IndexDb PreviewRow where
  files := ⟨[⟨1, ascii "a.jpg", 0, 0, 0⟩], 2, by decide, by decide, by decide⟩
  queue _ := none
  results := ∅

def shown : PreviewResult := ⟨false, ascii ".index/previews/1", 320, 200⟩

def notAnImage : PreviewResult := ⟨true, [], 0, 0⟩

theorem skipped_result_keeps_old_preview :
    ∃ db', Transition.exec (previewIndex.completeStep 1) photoDb [(10, shown), (20, notAnImage)] =
        some db' ∧ db'.results.lookup 1 ≠ previewIndex.row 20 notAnImage :=
  ⟨_, rfl, by decide⟩

theorem results_follow_last_reshown :
    ∃ db', Transition.exec (previewIndex.completeStep 1) photoDb [(10, notAnImage), (20, shown)] =
        some db' ∧ db'.results.lookup 1 = previewIndex.row 20 shown :=
  ⟨_, rfl, ((results_follow_last 1 20).1 [(10, notAnImage)] shown photoDb _ rfl).mpr (Or.inl rfl)⟩

end FileIndexer
