import FileIndexer.Service.Indexer.Exif

namespace FileIndexer

structure KeepsFound (base escalated merged : ExifResult) : Prop where
  flags : ∀ half, merged.has half = (base.has half || escalated.has half)
  kept : ∀ f, (base.get f).present = true → (merged.get f).present = true
  taken : ∀ f, escalated.has f.half = true → (escalated.get f).present = true →
    merged.get f = escalated.get f

section Merge

variable {base escalated : ExifResult}

theorem kept_mergeOutcomes_iff {f : ExifField} :
    ((base.get f).present = true → ((mergeOutcomes base escalated).get f).present = true) ↔
      (escalated.has f.half = true → (base.get f).present = true →
        (escalated.get f).present = true) := by
  rw [get_mergeOutcomes]
  cases hhas : escalated.has f.half with
  | false => simp
  | true => simp

theorem keepsFound_mergeOutcomes_iff :
    KeepsFound base escalated (mergeOutcomes base escalated) ↔
      ∀ f, escalated.has f.half = true → (base.get f).present = true →
        (escalated.get f).present = true := by
  constructor
  · intro h f
    apply kept_mergeOutcomes_iff.mp
    exact h.kept f
  · intro h
    constructor
    · exact has_mergeOutcomes base escalated
    · intro f
      apply kept_mergeOutcomes_iff.mpr
      exact h f
    · intro f hhas _
      rw [get_mergeOutcomes, if_pos hhas]

end Merge

theorem escalation_keeps_found_iff (lib : Metadata) (header full : Text) :
    KeepsFound (parseExifXMP lib header).result (parseExifXMP lib full).result
        (mergeOutcomes (parseExifXMP lib header).result (parseExifXMP lib full).result) ↔
      ∀ f, (parseExifXMP lib full).result.has f.half = true →
        ((parseExifXMP lib header).result.get f).present = true →
        ((parseExifXMP lib full).result.get f).present = true :=
  keepsFound_mergeOutcomes_iff

section Lost

def Exif.zero : Exif where
  imageType := 0
  make := []
  model := []
  bodySerialNumber := []
  lensMake := []
  lensModel := []
  software := []
  artist := []
  copyright := []
  imageDescription := []
  selectedDate := Search.zeroTime
  isoSpeedRatings := 0
  fNumber := 0
  apertureValue := 0
  exposureTime := 0
  focalLength := 0
  focalLengthIn35mmFormat := 0
  latitude := 0
  longitude := 0
  altitude := 0
  gpsTimestamp := Search.zeroTime
  orientation := 0
  pixelXDimension := 0
  pixelYDimension := 0
  imageWidth := 0
  imageHeight := 0
  exposureProgram := 0
  meteringMode := 0
  flash := 0

def lensReader : Metadata where
  decode data := .found { Exif.zero with
    make := ascii "Canon"
    lensModel := if data.length = 1 then ascii "EF50mm" else [] }
  parse data := if data.length = 1 then .inconclusive else .absent
  imageTypeString _ := ascii "image/jpeg"
  printRanges _ := true

theorem lens_model_lost :
    (parseExifXMP lensReader [255]).xmpIncomplete = true ∧
      (parseExifXMP lensReader [255]).result.has .xmp = false ∧
      ¬ KeepsFound (parseExifXMP lensReader [255]).result (parseExifXMP lensReader [255, 216]).result
        (mergeOutcomes (parseExifXMP lensReader [255]).result
          (parseExifXMP lensReader [255, 216]).result) := by
  refine ⟨by decide, by decide, fun h => ?_⟩
  have hkept := h.kept .lensModel (by decide)
  exact absurd hkept (by decide)

end Lost

end FileIndexer
