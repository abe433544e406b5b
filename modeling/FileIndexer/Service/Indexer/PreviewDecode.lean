import FileIndexer.Service.Indexer.Results

namespace FileIndexer

structure ImageConfig where
  width : Int64
  height : Int64
  deriving DecidableEq

-- the image package: its readers of a header and of a whole image
structure ImageCodec (β : Type) where
  decodeConfig : Text → Except String ImageConfig
  decode : Text → Except String β

def exceedsPixelLimit (width height limit : Int64) : String :=
  "source " ++ toString width.toInt ++ "x" ++ toString height.toInt ++ " exceeds pixel limit " ++
    toString limit.toInt

-- what decode returns, and whether image.Decode ran on the way
structure DecodeRun (β : Type) where
  decoded : Bool
  result : Except String β

def PreviewIndexer.decode {β : Type} (codec : ImageCodec β) (maxSourcePixels : Int64) (src : Text) :
    DecodeRun β :=
  match codec.decodeConfig src with
  | .error e => ⟨false, .error ("decode config: " ++ e)⟩
  | .ok cfg =>
    if cfg.width * cfg.height > maxSourcePixels then
      ⟨false, .error (exceedsPixelLimit cfg.width cfg.height maxSourcePixels)⟩
    else
      ⟨true, (codec.decode src).mapError ("decode: " ++ ·)⟩

-- a dimension that a header can state in 32 unsigned bits
def IsDimension (n : Int64) : Prop := 0 ≤ n.toInt ∧ n.toInt < 2 ^ 32

instance isDimensionDecidable (n : Int64) : Decidable (IsDimension n) :=
  inferInstanceAs (Decidable (_ ∧ _))

section Guard

variable {β : Type} {codec : ImageCodec β} {maxSourcePixels : Int64} {src : Text} {cfg : ImageConfig}

theorem decoded_iff (hcfg : codec.decodeConfig src = .ok cfg) :
    (PreviewIndexer.decode codec maxSourcePixels src).decoded = true ↔
      (cfg.width.toInt * cfg.height.toInt).bmod (2 ^ 64) ≤ maxSourcePixels.toInt := by
  rw [PreviewIndexer.decode, hcfg]
  simp only
  split
  · rename_i hlt
    rw [gt_iff_lt, Int64.lt_iff_toInt_lt, Int64.toInt_mul] at hlt
    simpa using hlt
  · rename_i hle
    rw [gt_iff_lt, Int64.lt_iff_toInt_lt, Int64.toInt_mul] at hle
    simpa using hle

theorem product_lt {m n : Int64} (hm : IsDimension m) (hn : IsDimension n) :
    0 ≤ m.toInt * n.toInt ∧ m.toInt * n.toInt < 2 ^ 64 := by
  obtain ⟨hm0, hm1⟩ := hm
  obtain ⟨hn0, hn1⟩ := hn
  constructor
  · exact mul_nonneg hm0 hn0
  · nlinarith

theorem pixels_within_limit_iff (hlimit : 0 < maxSourcePixels) (hcfg : codec.decodeConfig src = .ok cfg)
    (hwidth : IsDimension cfg.width) (hheight : IsDimension cfg.height) :
    ((PreviewIndexer.decode codec maxSourcePixels src).decoded = true →
      cfg.width.toInt * cfg.height.toInt ≤ maxSourcePixels.toInt) ↔
        cfg.width.toInt * cfg.height.toInt < 2 ^ 63 := by
  obtain ⟨hpos, hlt⟩ := product_lt hwidth hheight
  have hmax : maxSourcePixels.toInt < 2 ^ 63 := Int64.toInt_lt maxSourcePixels
  have hlimit' : 0 < maxSourcePixels.toInt := Int64.lt_iff_toInt_lt.mp hlimit
  rw [decoded_iff hcfg]
  generalize cfg.width.toInt * cfg.height.toInt = product at *
  constructor
  · intro h
    by_contra hlarge
    have hwrapped : wrap 64 product = product - 2 ^ 64 := by
      rw [wrap_of_lt hpos hlt, if_neg hlarge]
    rw [wrap] at hwrapped
    have hle := h (by omega)
    omega
  · intro hsmall hle
    have hexact : wrap 64 product = product := by
      rw [wrap_of_lt hpos hlt, if_pos hsmall]
    rw [wrap] at hexact
    rwa [hexact] at hle

end Guard

section Bomb

def headerCodec (width height : Int64) : ImageCodec Unit :=
  ⟨fun _ => .ok ⟨width, height⟩, fun _ => .error "unexpected EOF"⟩

def megapixels : Int64 := 40000000

theorem photo_within_limit :
    (PreviewIndexer.decode (headerCodec 6000 4000) megapixels []).decoded = true ∧
      (6000 : Int64).toInt * (4000 : Int64).toInt ≤ megapixels.toInt :=
  ⟨by decide, (@pixels_within_limit_iff Unit (headerCodec 6000 4000) megapixels [] ⟨6000, 4000⟩
    (by decide) rfl (by decide) (by decide)).mpr (by decide) (by decide)⟩

theorem bomb_decoded : IsDimension 4294967295 ∧
    (PreviewIndexer.decode (headerCodec 4294967295 4294967295) megapixels []).decoded = true ∧
    megapixels.toInt < (4294967295 : Int64).toInt * (4294967295 : Int64).toInt := by
  refine ⟨by decide, by decide, by decide⟩

end Bomb

end FileIndexer
