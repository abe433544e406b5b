import FileIndexer.Service.Indexer.MergeOutcomes
import FileIndexer.Service.Indexer.ReadBounded
import FileIndexer.Service.Indexer.Runner

namespace FileIndexer

section Process

def exifExtensions : List String :=
  [".jpg", ".jpeg", ".png", ".tif", ".tiff", ".heic", ".heif", ".avif", ".cr2", ".cr3", ".crw", ".dng",
   ".nef", ".arw", ".rw2"]

-- path.Ext: from the last dot of the last segment on
def pathExt (key : Key) : Key :=
  let last := (key.splitOn slash).getLast?.getD []
  if last.contains 46 then 46 :: (last.splitOn 46).getLast?.getD [] else []

-- two runes above ASCII have an ASCII lower case; the others cannot occur in an extension above
def lowerRune (r : Char) : Char :=
  if 'A' ≤ r ∧ r ≤ 'Z' then Char.ofNat (r.toNat + 32)
  else if r.toNat = 0x130 then 'i'
  else if r.toNat = 0x212A then 'k'
  else r

def isExifCandidate (key : Key) (contentType : Text) : Bool :=
  (ascii "image/").isPrefixOf contentType ||
    (exifExtensions.map String.toList).contains ((Utf8.runes (pathExt key)).map lowerRune)

def skipExif : ExifResult := { ExifResult.zero with skipped := true }

def ParseOutcome.needsExif (o : ParseOutcome) : Bool := o.exifIncomplete && !o.result.hasExif

def ParseOutcome.needsXMP (o : ParseOutcome) : Bool := o.xmpIncomplete && !o.result.hasXmp

variable (x : ExifIndexer) (lib : Metadata)

def ExifIndexer.readHeader (key : Key) : Except Text (Text × Bool) :=
  readBounded x.storage 0 key x.cfg.maxHeaderBytes

def ExifIndexer.readFull (key : Key) : Except Text (Text × Bool) :=
  readBounded x.storage 1 key x.cfg.maxSourceBytes

def ExifIndexer.escalates (header : Text × Bool) : Bool :=
  header.2 && x.cfg.maxSourceBytes > x.cfg.maxHeaderBytes &&
    ((parseExifXMP lib header.1).needsExif || (parseExifXMP lib header.1).needsXMP)

def ExifIndexer.extract (key : Key) (header : Text × Bool) : Except Text ExifResult :=
  let outcome := parseExifXMP lib header.1
  if x.escalates lib header then do
    let full ← x.readFull key
    .ok (mergeOutcomes outcome.result (parseExifXMP lib full.1).result)
  else .ok outcome.result

def ExifIndexer.process (job : Job) : Except Text ExifResult :=
  if underPrefix x.indexPrefix job.key then .ok skipExif
  else do
    let contentType ← x.storage.stat job.key
    if !isExifCandidate job.key contentType then .ok skipExif
    else
      let header ← x.readHeader job.key
      let result ← x.extract lib job.key header
      if !result.hasExif && !result.hasXmp then .ok skipExif else .ok result

end Process

section Constraints

-- what timestamp and timestamptz hold: from 4713 BC to the end of 294276, in microseconds
def IsTimestamp (t : Time) : Prop := -210866803200000000 ≤ t ∧ t < 9224318016000000000

def FieldValue.Fits : FieldValue → Prop
  | .text s => IsText s
  | .texts l => ∀ s ∈ l.getD [], IsText s
  | .integer bits v => ∀ n ∈ v, -(2 ^ (bits - 1)) ≤ n ∧ n < 2 ^ (bits - 1)
  | .real _ => True
  | .coordinate limit v => coordinateWithin limit v = true
  | .time t => ∀ u ∈ t, IsTimestamp u

def ExifResult.Fits (r : ExifResult) : Prop := ∀ f, (r.get f).Fits

theorem check_of_fits {r : ExifResult} (h : r.Fits) (now : Time) :
    exifIndex.check (r.row now) = true :=
  Bool.and_eq_true_iff.mpr ⟨h .gpsLatitude, h .gpsLongitude⟩

theorem complete_of_fits {db : IndexDb ExifRow} {now : Time} {fileID : FileID} {r : ExifResult}
    (hfile : (db.files.getFile fileID).isSome = true) (h : r.Fits) :
    ∃ db', exifIndex.complete db now fileID r = .ok db' := by
  unfold IndexType.complete IndexType.store
  cases hrow : exifIndex.row now r with
  | none => exact ⟨_, rfl⟩
  | some row =>
    have hcheck : exifIndex.check row = true := by
      simp only [exifIndex, Option.ite_none_left_eq_some, Option.some.injEq] at hrow
      rw [← hrow.2]
      exact check_of_fits h now
    simp only [hfile, hcheck, Bool.and_true, if_true]
    exact ⟨_, rfl⟩

structure ExifResult.Completes (fileID : FileID) (r : ExifResult) : Prop where
  fits : r.Fits
  completes : ∀ (db : IndexDb ExifRow) (now : Time), (db.files.getFile fileID).isSome = true →
    ∃ db', exifIndex.complete db now fileID r = .ok db'

theorem completes_iff_fits {fileID : FileID} {r : ExifResult} : r.Completes fileID ↔ r.Fits := by
  constructor
  · intro h
    exact h.fits
  · intro h
    exact ⟨h, fun _ _ hfile => complete_of_fits hfile h⟩

structure Exif.Fits (e : Exif) : Prop where
  coordinates : isZero64 e.latitude = false → isZero64 e.longitude = false →
    coordinateWithin ninety (some e.latitude) = true ∧
      coordinateWithin oneEighty (some e.longitude) = true
  selectedDate : e.selectedDate ≠ Search.zeroTime → IsTimestamp e.selectedDate
  gpsTimestamp : e.gpsTimestamp ≠ Search.zeroTime → IsTimestamp e.gpsTimestamp

def Xmp.Fits (x : Xmp) : Prop := x.createDate ≠ Search.zeroTime → IsTimestamp x.createDate

theorem fits_zero (f : ExifField) : (ExifResult.zero.get f).Fits := by
  cases f <;> first | exact isText_nil | exact trivial | exact rfl | exact nofun

theorem fits_setUnless {α : Type} {P : α → Prop} {skip : Bool} {v : α} {old : Option α}
    (hv : skip = false → P v) (hold : ∀ u ∈ old, P u) : ∀ u ∈ setUnless skip v old, P u := by
  intro u hu
  rw [setUnless] at hu
  split at hu
  · exact hold u hu
  · rename_i hskip
    obtain rfl := Option.some.inj hu
    exact hv (by simpa using hskip)

theorem fits_integer (bits : Nat) {skip : Bool} {n : Int} {old : Option Int}
    (hold : (FieldValue.integer (bits + 1) old).Fits) :
    (FieldValue.integer (bits + 1) (setUnless skip (wrap (bits + 1) n) old)).Fits :=
  fits_setUnless (fun _ => wrap_bounds bits n) hold

theorem fits_time {t : Time} {old : Option Time} (ht : t ≠ Search.zeroTime → IsTimestamp t)
    (hold : (FieldValue.time old).Fits) :
    (FieldValue.time (setUnless (t = Search.zeroTime) t old)).Fits :=
  fits_setUnless (fun h => ht (of_decide_eq_false h)) hold

theorem fits_time_iff {t : Time} :
    (FieldValue.time (setUnless (t = Search.zeroTime) t none)).Fits ↔
      (t ≠ Search.zeroTime → IsTimestamp t) := by
  constructor
  · intro h hzero
    apply h
    rw [setUnless, decide_eq_false hzero]
    rfl
  · intro h
    exact fits_time h nofun

theorem fits_coordinate_iff {limit : UInt64} {skip : Bool} {v : UInt64} :
    (FieldValue.coordinate limit (setUnless skip v none)).Fits ↔
      (skip = false → coordinateWithin limit (some v) = true) := by
  cases skip with
  | false => simp [FieldValue.Fits, setUnless]
  | true => simp [FieldValue.Fits, setUnless, coordinateWithin]

variable {lib : Metadata}

theorem exif_fits_iff (htype : ∀ t, IsText (lib.imageTypeString t)) (e : Exif) :
    (∀ f : ExifField, f.half = .exif → ((applyExif lib .zero e).get f).Fits) ↔ e.Fits := by
  have hlat : ((applyExif lib .zero e).get .gpsLatitude).Fits ↔ _ := fits_coordinate_iff
  have hlon : ((applyExif lib .zero e).get .gpsLongitude).Fits ↔ _ := fits_coordinate_iff
  have htaken : ((applyExif lib .zero e).get .takenAt).Fits ↔ _ := fits_time_iff
  have hgps : ((applyExif lib .zero e).get .gpsAt).Fits ↔ _ := fits_time_iff
  constructor
  · intro h
    refine ⟨fun hla hlo => ?_, htaken.mp (h .takenAt rfl), hgps.mp (h .gpsAt rfl)⟩
    have hboth : (isZero64 e.latitude || isZero64 e.longitude) = false := by rw [hla, hlo]; rfl
    exact ⟨hlat.mp (h .gpsLatitude rfl) hboth, hlon.mp (h .gpsLongitude rfl) hboth⟩
  · intro h f hf
    have hboth (hor : (isZero64 e.latitude || isZero64 e.longitude) = false) :=
      h.coordinates (Bool.or_eq_false_iff.mp hor).1 (Bool.or_eq_false_iff.mp hor).2
    cases f with
    | imageType => exact htype e.imageType
    | takenAt => exact htaken.mpr h.selectedDate
    | gpsAt => exact hgps.mpr h.gpsTimestamp
    | gpsLatitude => exact hlat.mpr fun hor => (hboth hor).1
    | gpsLongitude => exact hlon.mpr fun hor => (hboth hor).2
    | iso => exact fits_integer 31 nofun
    | imageWidth | imageHeight => exact fits_integer 31 (fits_integer 31 nofun)
    | exposureProgram | meteringMode | flash | orientation => exact fits_integer 15 nofun
    | fNumber | exposureTime | focalLength | focalLength35mm | gpsAltitude => exact trivial
    | cameraMake | cameraModel | cameraSerial | lensMake | lensModel | software | artist
    | copyright | imageDescription =>
      simp only [ExifResult.get, FieldValue.Fits, applyExif, copyConfirmed, copyTags]
      exact isText_sanitize _
    | _ => cases hf

theorem mem_keywords {subject : List Text} {s : Text} (h : s ∈ keywords lib subject) : IsText s := by
  obtain ⟨t, -, rfl⟩ := List.mem_map.mp (List.mem_filter.mp h).1
  exact isText_sanitize t

theorem isText_head? {s : List Text} :
    IsText ((s.head?.map (sanitize lib.printRanges)).getD []) := by
  cases s with
  | nil => exact isText_nil
  | cons t rest =>
    rw [List.head?_cons, Option.map_some, Option.getD_some]
    exact isText_sanitize t

theorem xmp_fits_iff (x : Xmp) :
    (∀ f : ExifField, f.half = .xmp → ((applyXMP lib .zero x).get f).Fits) ↔ x.Fits := by
  have hdate : ((applyXMP lib .zero x).get .xmpCreateDate).Fits ↔ _ := fits_time_iff
  constructor
  · intro h
    exact hdate.mp (h .xmpCreateDate rfl)
  · intro h f hf
    cases f with
    | xmpTitle | xmpDescription =>
      simp only [ExifResult.get, FieldValue.Fits, applyXMP]
      exact isText_head?
    | xmpCreator =>
      show IsText (if x.creator = [] then [] else _)
      split
      · exact isText_nil
      · exact isText_sanitize _
    | xmpLabel =>
      simp only [ExifResult.get, FieldValue.Fits, applyXMP]
      exact isText_sanitize _
    | xmpRating => exact fits_integer 15 nofun
    | xmpKeywords =>
      intro s hs
      show IsText s
      change s ∈ (setUnless _ (keywords lib x.subject) none).getD [] at hs
      rw [setUnless] at hs
      split at hs
      · cases hs
      · exact mem_keywords hs
    | xmpCreateDate => exact hdate.mpr h
    | _ => cases hf

end Constraints

section Blocks

structure Blocks where
  exif : Option Exif
  xmp : Option Xmp

def Blocks.none : Blocks := ⟨Option.none, Option.none⟩

def Parsed.toOption {α : Type} : Parsed α → Option α
  | .found a => some a
  | _ => Option.none

variable (lib : Metadata)

def blocks (data : Text) : Blocks :=
  match lib.decode data, lib.parse data with
  | .panicked, _ => .none
  | _, .panicked => .none
  | e, x => ⟨e.toOption, x.toOption⟩

def exifPart (e : Option Exif) : ExifResult := e.elim .zero (applyExif lib .zero)

def xmpPart (x : Option Xmp) : ExifResult := x.elim .zero (applyXMP lib .zero)

def Blocks.result (b : Blocks) : ExifResult :=
  b.xmp.elim (exifPart lib b.exif) (applyXMP lib (exifPart lib b.exif))

def Blocks.or (base escalated : Blocks) : Blocks where
  exif := if (escalated.result lib).hasExif then escalated.exif else base.exif
  xmp := if (escalated.result lib).hasXmp then escalated.xmp else base.xmp

structure Blocks.Fits (b : Blocks) : Prop where
  exif : ∀ e ∈ b.exif, e.Fits
  xmp : ∀ x ∈ b.xmp, x.Fits

variable {lib}

theorem parseExifXMP_result (data : Text) :
    (parseExifXMP lib data).result = (blocks lib data).result lib := by
  unfold parseExifXMP parseExif parseXMP blocks
  cases lib.decode data <;> cases lib.parse data <;> rfl

theorem get_result_exif {f : ExifField} (hf : f.half = .exif) (b : Blocks) :
    (b.result lib).get f = (exifPart lib b.exif).get f := by
  unfold Blocks.result
  cases b.xmp with
  | none => rfl
  | some x => cases f <;> first | exact absurd hf (by decide) | rfl

theorem get_result_xmp {f : ExifField} (hf : f.half = .xmp) (b : Blocks) :
    (b.result lib).get f = (xmpPart lib b.xmp).get f := by
  unfold Blocks.result exifPart xmpPart
  cases b.exif with
  | none => rfl
  | some e =>
    cases b.xmp with
    | none => cases f <;> first | exact absurd hf (by decide) | rfl
    | some x =>
      simp only [Option.elim]
      cases f <;> first
        | exact absurd hf (by decide)
        | simp only [ExifResult.get, applyXMP, applyExif, copyConfirmed, copyTags]

theorem get_mergeOutcomes_or (base escalated : Blocks) (f : ExifField) :
    (mergeOutcomes (base.result lib) (escalated.result lib)).get f =
      ((base.or lib escalated).result lib).get f := by
  rw [get_mergeOutcomes]
  cases hf : f.half with
  | exif =>
    rw [get_result_exif hf, get_result_exif hf, get_result_exif hf, Blocks.or]
    exact (apply_ite (fun e => (exifPart lib e).get f) _ _ _).symm
  | xmp =>
    rw [get_result_xmp hf, get_result_xmp hf, get_result_xmp hf, Blocks.or]
    exact (apply_ite (fun x => (xmpPart lib x).get f) _ _ _).symm

theorem result_fits_iff (htype : ∀ t, IsText (lib.imageTypeString t)) (b : Blocks) :
    (b.result lib).Fits ↔ b.Fits := by
  have hexif : (∀ f : ExifField, f.half = .exif → ((b.result lib).get f).Fits) ↔
      ∀ e ∈ b.exif, e.Fits := by
    refine (forall₂_congr fun f hf => by rw [get_result_exif hf]).trans ?_
    cases b.exif with
    | none => simpa [exifPart] using fun f _ => fits_zero f
    | some e => simpa [exifPart] using exif_fits_iff htype e
  have hxmp : (∀ f : ExifField, f.half = .xmp → ((b.result lib).get f).Fits) ↔
      ∀ x ∈ b.xmp, x.Fits := by
    refine (forall₂_congr fun f hf => by rw [get_result_xmp hf]).trans ?_
    cases b.xmp with
    | none => simpa [xmpPart] using fun f _ => fits_zero f
    | some x => simpa [xmpPart] using xmp_fits_iff x
  constructor
  · intro h
    exact ⟨hexif.mp fun f _ => h f, hxmp.mp fun f _ => h f⟩
  · intro h f
    cases hf : f.half with
    | exif => exact hexif.mpr h.exif f hf
    | xmp => exact hxmp.mpr h.xmp f hf

theorem mergeOutcomes_none (base : ExifResult) :
    mergeOutcomes base (Blocks.none.result lib) = base := rfl

end Blocks

section Stored

variable (x : ExifIndexer) (lib : Metadata)

def readData (read : Except Text (Text × Bool)) : Text × Bool := read.toOption.getD ([], false)

def ExifIndexer.sources (key : Key) : Blocks :=
  let header := readData (x.readHeader key)
  (blocks lib header.1).or lib
    (if x.escalates lib header then blocks lib (readData (x.readFull key)).1 else .none)

variable {x lib}

theorem get_extract {key : Key} {header : Text × Bool} {r : ExifResult}
    (hheader : x.readHeader key = .ok header) (h : x.extract lib key header = .ok r) (f : ExifField) :
    r.get f = ((x.sources lib key).result lib).get f := by
  have hread : readData (x.readHeader key) = header := by rw [hheader]; rfl
  rw [ExifIndexer.sources, hread, ← get_mergeOutcomes_or, ← parseExifXMP_result]
  unfold ExifIndexer.extract at h
  split at h
  · rename_i hescalates
    obtain ⟨full, hfull, h⟩ := Except.bind_eq_ok.mp h
    obtain rfl := Except.ok.inj h
    rw [if_pos hescalates, ← parseExifXMP_result, hfull]
    rfl
  · rename_i hkeep
    obtain rfl := Except.ok.inj h
    rw [if_neg hkeep, mergeOutcomes_none]

theorem get_process {job : Job} {r : ExifResult} (h : x.process lib job = .ok r)
    (hskip : r.skipped = false) (f : ExifField) :
    r.get f = ((x.sources lib job.key).result lib).get f := by
  have hskipped : skipExif ≠ r := by
    rintro rfl
    cases hskip
  unfold ExifIndexer.process at h
  split at h
  · exact absurd (Except.ok.inj h) hskipped
  · obtain ⟨contentType, -, h⟩ := Except.bind_eq_ok.mp h
    split at h
    · exact absurd (Except.ok.inj h) hskipped
    · obtain ⟨header, hheader, h⟩ := Except.bind_eq_ok.mp h
      obtain ⟨result, hresult, h⟩ := Except.bind_eq_ok.mp h
      split at h
      · exact absurd (Except.ok.inj h) hskipped
      · obtain rfl := Except.ok.inj h
        exact get_extract hheader hresult f

theorem exif_result_completes_iff (htype : ∀ t, IsText (lib.imageTypeString t)) {job : Job}
    {r : ExifResult} (h : x.process lib job = .ok r) (hskip : r.skipped = false) :
    r.Completes job.fileID ↔ (x.sources lib job.key).Fits := by
  rw [completes_iff_fits, ← result_fits_iff htype]
  exact forall_congr' fun f => by rw [get_process h hskip]

end Stored

section Garbled

-- 200.0, as a camera's misread tag may give it
def twoHundred : UInt64 := 0x4069000000000000

def one : UInt64 := 0x3FF0000000000000

def gpsReader (latitude : UInt64) : Metadata where
  decode _ := .found { Exif.zero with latitude := latitude, longitude := one }
  parse _ := .absent
  imageTypeString _ := ascii "image/jpeg"
  printRanges _ := true

def photo : ExifIndexer := newExifIndexer (oneObject [255, 216]) [] ⟨0, 0⟩

def photoJob : Job := ⟨1, ascii "a.jpg", 1⟩

def located (latitude : UInt64) : ExifResult :=
  applyExif (gpsReader latitude) .zero { Exif.zero with latitude := latitude, longitude := one }

theorem isText_jpeg : IsText (ascii "image/jpeg") := by
  refine ⟨⟨"image/jpeg".toList, ?_⟩, ?_⟩
  · decide
  · decide

theorem photo_at_one_completes : (located one).Completes 1 ↔
    (photo.sources (gpsReader one) (ascii "a.jpg")).Fits :=
  @exif_result_completes_iff photo (gpsReader one) (fun _ => isText_jpeg) photoJob (located one) rfl rfl

theorem garbled_latitude_rejected :
    photo.process (gpsReader twoHundred) photoJob = .ok (located twoHundred) ∧
      (located twoHundred).skipped = false ∧ ¬ (located twoHundred).Completes 1 ∧
      exifIndex.complete ⟨photoDb.files, fun _ => none, ∅⟩ 10 1 (located twoHundred) =
        .error .other := by
  refine ⟨rfl, rfl, fun h => ?_, rfl⟩
  have hrange : coordinateWithin ninety (some twoHundred) = true := h.fits .gpsLatitude
  exact absurd hrange (by decide)

end Garbled

end FileIndexer
