import FileIndexer.Service.Indexer.Results
import FileIndexer.Service.Indexer.Sanitize
import FileIndexer.Service.Search.Cursor

namespace FileIndexer

-- the decoded tags that applyExif reads; reals are IEEE bit patterns
structure Exif where
  imageType : Nat
  make : Text
  model : Text
  bodySerialNumber : Text
  lensMake : Text
  lensModel : Text
  software : Text
  artist : Text
  copyright : Text
  imageDescription : Text
  selectedDate : Time
  isoSpeedRatings : Int
  fNumber : UInt32
  apertureValue : UInt32
  exposureTime : UInt32
  focalLength : UInt32
  focalLengthIn35mmFormat : UInt32
  latitude : UInt64
  longitude : UInt64
  altitude : UInt32
  gpsTimestamp : Time
  orientation : Int
  pixelXDimension : Int
  pixelYDimension : Int
  imageWidth : Int
  imageHeight : Int
  exposureProgram : Int
  meteringMode : Int
  flash : Int

structure Xmp where
  title : List Text
  description : List Text
  creator : List Text
  label : Text
  rating : Int
  subject : List Text
  createDate : Time

inductive Parsed (α : Type) where
  | found (a : α)
  | absent
  | inconclusive
  | panicked

-- the metadata package, and the standard library's table of printable runes
structure Metadata where
  decode : Text → Parsed Exif
  parse : Text → Parsed Xmp
  imageTypeString : Nat → Text
  printRanges : Char → Bool

structure ParseOutcome where
  result : ExifResult
  exifIncomplete : Bool
  xmpIncomplete : Bool

def ExifResult.zero : ExifResult where
  skipped := false
  imageType := []
  cameraMake := []
  cameraModel := []
  cameraSerial := []
  lensMake := []
  lensModel := []
  takenAt := none
  iso := none
  fNumber := none
  exposureTime := none
  focalLength := none
  focalLength35mm := none
  exposureProgram := none
  meteringMode := none
  flash := none
  orientation := none
  imageWidth := none
  imageHeight := none
  gpsLatitude := none
  gpsLongitude := none
  gpsAltitude := none
  gpsAt := none
  software := []
  artist := []
  copyright := []
  imageDescription := []
  xmpTitle := []
  xmpDescription := []
  xmpCreator := []
  xmpLabel := []
  xmpRating := none
  xmpKeywords := none
  xmpCreateDate := none
  hasExif := false
  hasXmp := false

def ParseOutcome.zero : ParseOutcome := ⟨ExifResult.zero, false, false⟩

-- both zeros compare equal to 0, and NaN does not
def isZero32 (f : UInt32) : Bool := f &&& 0x7FFFFFFF = 0

def isZero64 (f : UInt64) : Bool := f &&& 0x7FFFFFFFFFFFFFFF = 0

def setUnless {α : Type} (skip : Bool) (v : α) (old : Option α) : Option α :=
  if skip then old else some v

section Apply

variable (lib : Metadata)

def ExifResult.exifFound (r : ExifResult) : Bool :=
  r.cameraMake ≠ [] || r.cameraModel ≠ [] || r.cameraSerial ≠ [] || r.lensMake ≠ [] ||
    r.lensModel ≠ [] || r.takenAt.isSome || r.iso.isSome || r.fNumber.isSome ||
    r.exposureTime.isSome || r.focalLength.isSome || r.gpsLatitude.isSome || r.software ≠ [] ||
    r.artist ≠ [] || r.copyright ≠ [] || r.imageDescription ≠ []

def ExifResult.xmpFound (r : ExifResult) : Bool :=
  r.xmpTitle ≠ [] || r.xmpDescription ≠ [] || r.xmpCreator ≠ [] || r.xmpLabel ≠ [] ||
    r.xmpRating.isSome || (r.xmpKeywords.getD []) ≠ [] || r.xmpCreateDate.isSome

def copyTags (result : ExifResult) (e : Exif) : ExifResult :=
  { result with
    imageType := lib.imageTypeString e.imageType
    cameraMake := sanitize lib.printRanges e.make
    cameraModel := sanitize lib.printRanges e.model
    cameraSerial := sanitize lib.printRanges e.bodySerialNumber
    lensMake := sanitize lib.printRanges e.lensMake
    lensModel := sanitize lib.printRanges e.lensModel
    software := sanitize lib.printRanges e.software
    artist := sanitize lib.printRanges e.artist
    copyright := sanitize lib.printRanges e.copyright
    imageDescription := sanitize lib.printRanges e.imageDescription
    takenAt := setUnless (e.selectedDate = Search.zeroTime) e.selectedDate result.takenAt
    iso := setUnless (wrap 32 e.isoSpeedRatings = 0) (wrap 32 e.isoSpeedRatings) result.iso
    fNumber := setUnless (isZero32 e.fNumber) e.fNumber
      (setUnless (isZero32 e.apertureValue) e.apertureValue result.fNumber)
    exposureTime := setUnless (isZero32 e.exposureTime) e.exposureTime result.exposureTime
    focalLength := setUnless (isZero32 e.focalLength) e.focalLength result.focalLength
    focalLength35mm := setUnless (isZero32 e.focalLengthIn35mmFormat) e.focalLengthIn35mmFormat
      result.focalLength35mm
    gpsLatitude := setUnless (isZero64 e.latitude || isZero64 e.longitude) e.latitude
      result.gpsLatitude
    gpsLongitude := setUnless (isZero64 e.latitude || isZero64 e.longitude) e.longitude
      result.gpsLongitude
    gpsAt := setUnless (e.gpsTimestamp = Search.zeroTime) e.gpsTimestamp result.gpsAt
    orientation := setUnless (wrap 16 e.orientation = 0) (wrap 16 e.orientation) result.orientation
    imageWidth := setUnless (wrap 32 e.pixelXDimension = 0) (wrap 32 e.pixelXDimension)
      (setUnless (wrap 32 e.imageWidth = 0) (wrap 32 e.imageWidth) result.imageWidth)
    imageHeight := setUnless (wrap 32 e.pixelYDimension = 0) (wrap 32 e.pixelYDimension)
      (setUnless (wrap 32 e.imageHeight = 0) (wrap 32 e.imageHeight) result.imageHeight) }

-- a zero of these four counts only once other tags have shown that the block is real
def copyConfirmed (result : ExifResult) (e : Exif) : ExifResult :=
  { result with
    exposureProgram := setUnless (wrap 16 e.exposureProgram = 0 && !result.hasExif)
      (wrap 16 e.exposureProgram) result.exposureProgram
    meteringMode := setUnless (wrap 16 e.meteringMode = 0 && !result.hasExif)
      (wrap 16 e.meteringMode) result.meteringMode
    flash := setUnless (wrap 16 e.flash = 0 && !result.hasExif) (wrap 16 e.flash) result.flash
    gpsAltitude := setUnless (isZero32 e.altitude && result.gpsLatitude.isNone) e.altitude
      result.gpsAltitude }

def applyExif (result : ExifResult) (e : Exif) : ExifResult :=
  let result := copyTags lib result e
  copyConfirmed { result with hasExif := result.exifFound } e

def keywords (subject : List Text) : List Text :=
  ((subject.take maxKeywordCount).map (sanitize lib.printRanges)).filter (· ≠ [])

def applyXMP (result : ExifResult) (x : Xmp) : ExifResult :=
  let result := { result with
    xmpTitle := (x.title.head?.map (sanitize lib.printRanges)).getD result.xmpTitle
    xmpDescription := (x.description.head?.map (sanitize lib.printRanges)).getD result.xmpDescription
    xmpCreator := if x.creator = [] then result.xmpCreator
      else sanitize lib.printRanges ((ascii "; ").intercalate x.creator)
    xmpLabel := sanitize lib.printRanges x.label
    xmpRating := setUnless (x.rating = 0) (wrap 16 x.rating) result.xmpRating
    xmpKeywords := setUnless (keywords lib x.subject = []) (keywords lib x.subject) result.xmpKeywords
    xmpCreateDate := setUnless (x.createDate = Search.zeroTime) x.createDate result.xmpCreateDate }
  { result with hasXmp := result.xmpFound }

def parseExif (outcome : ParseOutcome) (data : Text) : Option ParseOutcome :=
  match lib.decode data with
  | .found e => some { outcome with result := applyExif lib outcome.result e }
  | .absent => some outcome
  | .inconclusive => some { outcome with exifIncomplete := true }
  | .panicked => none

def parseXMP (outcome : ParseOutcome) (data : Text) : Option ParseOutcome :=
  match lib.parse data with
  | .found x => some { outcome with result := applyXMP lib outcome.result x }
  | .absent => some outcome
  | .inconclusive => some { outcome with xmpIncomplete := true }
  | .panicked => none

-- a panic of either parser is recovered with the zero outcome
def parseExifXMP (data : Text) : ParseOutcome :=
  ((parseExif lib .zero data).bind fun outcome => parseXMP lib outcome data).getD .zero

end Apply

def copyEXIFFields (dst src : ExifResult) : ExifResult :=
  { dst with
    imageType := src.imageType
    cameraMake := src.cameraMake
    cameraModel := src.cameraModel
    cameraSerial := src.cameraSerial
    lensMake := src.lensMake
    lensModel := src.lensModel
    takenAt := src.takenAt
    iso := src.iso
    fNumber := src.fNumber
    exposureTime := src.exposureTime
    focalLength := src.focalLength
    focalLength35mm := src.focalLength35mm
    exposureProgram := src.exposureProgram
    meteringMode := src.meteringMode
    flash := src.flash
    orientation := src.orientation
    imageWidth := src.imageWidth
    imageHeight := src.imageHeight
    gpsLatitude := src.gpsLatitude
    gpsLongitude := src.gpsLongitude
    gpsAltitude := src.gpsAltitude
    gpsAt := src.gpsAt
    software := src.software
    artist := src.artist
    copyright := src.copyright
    imageDescription := src.imageDescription
    hasExif := true }

def copyXMPFields (dst src : ExifResult) : ExifResult :=
  { dst with
    xmpTitle := src.xmpTitle
    xmpDescription := src.xmpDescription
    xmpCreator := src.xmpCreator
    xmpLabel := src.xmpLabel
    xmpRating := src.xmpRating
    xmpKeywords := src.xmpKeywords
    xmpCreateDate := src.xmpCreateDate
    hasXmp := true }

def mergeOutcomes (base escalated : ExifResult) : ExifResult :=
  let base := if escalated.hasExif then copyEXIFFields base escalated else base
  if escalated.hasXmp then copyXMPFields base escalated else base

inductive Half where
  | exif
  | xmp
  deriving DecidableEq

def ExifResult.has (r : ExifResult) : Half → Bool
  | .exif => r.hasExif
  | .xmp => r.hasXmp

inductive ExifField where
  | imageType
  | cameraMake
  | cameraModel
  | cameraSerial
  | lensMake
  | lensModel
  | takenAt
  | iso
  | fNumber
  | exposureTime
  | focalLength
  | focalLength35mm
  | exposureProgram
  | meteringMode
  | flash
  | orientation
  | imageWidth
  | imageHeight
  | gpsLatitude
  | gpsLongitude
  | gpsAltitude
  | gpsAt
  | software
  | artist
  | copyright
  | imageDescription
  | xmpTitle
  | xmpDescription
  | xmpCreator
  | xmpLabel
  | xmpRating
  | xmpKeywords
  | xmpCreateDate

def ExifField.half : ExifField → Half
  | .xmpTitle | .xmpDescription | .xmpCreator | .xmpLabel | .xmpRating | .xmpKeywords
  | .xmpCreateDate => .xmp
  | _ => .exif

inductive FieldValue where
  | text (s : Text)
  | texts (l : Option (List Text))
  | integer (bits : Nat) (v : Option Int)
  | real (v : Option UInt32)
  | coordinate (limit : UInt64) (v : Option UInt64)
  | time (t : Option Time)
  deriving DecidableEq

def FieldValue.present : FieldValue → Bool
  | .text s => s ≠ []
  | .texts l => l.getD [] ≠ []
  | .integer _ v => v.isSome
  | .real v => v.isSome
  | .coordinate _ v => v.isSome
  | .time t => t.isSome

def ExifResult.get (r : ExifResult) : ExifField → FieldValue
  | .imageType => .text r.imageType
  | .cameraMake => .text r.cameraMake
  | .cameraModel => .text r.cameraModel
  | .cameraSerial => .text r.cameraSerial
  | .lensMake => .text r.lensMake
  | .lensModel => .text r.lensModel
  | .takenAt => .time r.takenAt
  | .iso => .integer 32 r.iso
  | .fNumber => .real r.fNumber
  | .exposureTime => .real r.exposureTime
  | .focalLength => .real r.focalLength
  | .focalLength35mm => .real r.focalLength35mm
  | .exposureProgram => .integer 16 r.exposureProgram
  | .meteringMode => .integer 16 r.meteringMode
  | .flash => .integer 16 r.flash
  | .orientation => .integer 16 r.orientation
  | .imageWidth => .integer 32 r.imageWidth
  | .imageHeight => .integer 32 r.imageHeight
  | .gpsLatitude => .coordinate ninety r.gpsLatitude
  | .gpsLongitude => .coordinate oneEighty r.gpsLongitude
  | .gpsAltitude => .real r.gpsAltitude
  | .gpsAt => .time r.gpsAt
  | .software => .text r.software
  | .artist => .text r.artist
  | .copyright => .text r.copyright
  | .imageDescription => .text r.imageDescription
  | .xmpTitle => .text r.xmpTitle
  | .xmpDescription => .text r.xmpDescription
  | .xmpCreator => .text r.xmpCreator
  | .xmpLabel => .text r.xmpLabel
  | .xmpRating => .integer 16 r.xmpRating
  | .xmpKeywords => .texts r.xmpKeywords
  | .xmpCreateDate => .time r.xmpCreateDate

theorem get_copyEXIFFields (dst src : ExifResult) (f : ExifField) :
    (copyEXIFFields dst src).get f = if f.half = .exif then src.get f else dst.get f := by
  cases f <;> rfl

theorem get_copyXMPFields (dst src : ExifResult) (f : ExifField) :
    (copyXMPFields dst src).get f = if f.half = .xmp then src.get f else dst.get f := by
  cases f <;> rfl

theorem get_mergeOutcomes (base escalated : ExifResult) (f : ExifField) :
    (mergeOutcomes base escalated).get f =
      if escalated.has f.half then escalated.get f else base.get f := by
  have hmerge : mergeOutcomes base escalated =
      if escalated.has .xmp then
        copyXMPFields (if escalated.has .exif then copyEXIFFields base escalated else base) escalated
      else if escalated.has .exif then copyEXIFFields base escalated else base := rfl
  rw [hmerge]
  cases hhalf : f.half with
  | exif => split <;> split <;> simp [get_copyEXIFFields, get_copyXMPFields, hhalf]
  | xmp => split <;> split <;> simp [get_copyEXIFFields, get_copyXMPFields, hhalf]

theorem has_mergeOutcomes (base escalated : ExifResult) (half : Half) :
    (mergeOutcomes base escalated).has half = (base.has half || escalated.has half) := by
  unfold mergeOutcomes
  cases half with
  | exif =>
    cases hexif : escalated.hasExif <;> cases hxmp : escalated.hasXmp <;>
      simp [ExifResult.has, hexif, copyEXIFFields, copyXMPFields]
  | xmp =>
    cases hexif : escalated.hasExif <;> cases hxmp : escalated.hasXmp <;>
      simp [ExifResult.has, hxmp, copyEXIFFields, copyXMPFields]

end FileIndexer
