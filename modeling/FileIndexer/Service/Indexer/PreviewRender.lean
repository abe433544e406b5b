import FileIndexer.Foundation.Binary64
import FileIndexer.Service.Indexer.Derived
import FileIndexer.Service.Indexer.PreviewDecode

namespace FileIndexer

namespace PreviewIndexer

-- the conversion of an int, here never a negative one
def float64 (n : Int) : ℚ := Binary64.round n

-- math.Round: half away from zero, so upwards from a non-negative number
def mathRound (x : ℚ) : Int := ⌊x + 1 / 2⌋

def shortSide (side maxDim longSide : Int) : Int :=
  max 1 (mathRound (Binary64.round
    (Binary64.round (float64 side * float64 maxDim) / float64 longSide)))

def fitWithin (srcW srcH maxDim : Int) : Int × Int :=
  if srcW ≤ 0 ∨ srcH ≤ 0 ∨ maxDim ≤ 0 then (0, 0)
  else if srcW ≤ maxDim ∧ srcH ≤ maxDim then (srcW, srcH)
  else if srcH ≤ srcW then (maxDim, shortSide srcH maxDim srcW)
  else (shortSide srcW maxDim srcH, maxDim)

section FitWithin

variable {side longSide srcW srcH maxDim : Int}

theorem float64_eq (hpos : 0 ≤ side) (hsmall : side < 2 ^ 52) : float64 side = side := by
  obtain ⟨n, rfl⟩ := Int.eq_ofNat_of_zero_le hpos
  exact Binary64.round_natCast n (by exact_mod_cast hsmall)

theorem shortSide_eq (hside : 0 < side) (hdim : 0 < maxDim) (hlong : 0 < longSide)
    (hlt : longSide < 2 ^ 52) (hsmall : side * maxDim < 2 ^ 52) :
    shortSide side maxDim longSide =
      max 1 ((2 * (side * maxDim) + longSide) / (2 * longSide)) := by
  have hside' : side < 2 ^ 52 := by nlinarith
  have hdim' : maxDim < 2 ^ 52 := by nlinarith
  have hprod : float64 side * float64 maxDim = ((side * maxDim : Int) : ℚ) := by
    rw [float64_eq hside.le hside', float64_eq hdim.le hdim', Int.cast_mul]
  have hround : Binary64.round (float64 side * float64 maxDim) = ((side * maxDim : Int) : ℚ) := by
    rw [hprod]
    exact float64_eq (mul_pos hside hdim).le hsmall
  rw [shortSide, hround, float64_eq hlong.le hlt, mathRound]
  have hprodPos := mul_pos hside hdim
  generalize side * maxDim = product at hsmall hprodPos
  obtain ⟨a, rfl⟩ := Int.eq_ofNat_of_zero_le hprodPos.le
  obtain ⟨b, rfl⟩ := Int.eq_ofNat_of_zero_le hlong.le
  have hfloor := Binary64.floor_round_div_add_half (by exact_mod_cast hprodPos)
    (by exact_mod_cast hlong) (show a < 2 ^ 52 by exact_mod_cast hsmall)
  rw [Int.cast_natCast, Int.cast_natCast, hfloor]
  push_cast
  rfl

structure Fits (srcW srcH maxDim : Int) (dims : Int × Int) : Prop where
  pos : 1 ≤ dims.1 ∧ 1 ≤ dims.2
  box : dims.1 ≤ maxDim ∧ dims.2 ≤ maxDim
  shrunk : dims.1 ≤ srcW ∧ dims.2 ≤ srcH
  largest : dims = (srcW, srcH) ∨ dims.1 = maxDim ∨ dims.2 = maxDim
  ratio : 2 * |dims.1 * srcH - dims.2 * srcW| ≤ max srcW srcH ∨ dims.1 = 1 ∨ dims.2 = 1

structure ShortSide (side maxDim longSide n : Int) : Prop where
  pos : 1 ≤ n
  box : n ≤ maxDim
  shrunk : n ≤ side
  ratio : 2 * |maxDim * side - n * longSide| ≤ longSide ∨ n = 1

theorem shortSide_spec (hside : 0 < side) (hdim : 0 < maxDim) (hle : side ≤ longSide)
    (hout : maxDim < longSide) (hlt : longSide < 2 ^ 52) (hsmall : side * maxDim < 2 ^ 52) :
    ShortSide side maxDim longSide (shortSide side maxDim longSide) := by
  have hlong : 0 < longSide := hside.trans_le hle
  rw [shortSide_eq hside hdim hlong hlt hsmall]
  have hlow := Int.mul_ediv_self_le (x := 2 * (side * maxDim) + longSide) (k := 2 * longSide) (by omega)
  have hhigh := Int.lt_mul_ediv_self_add (x := 2 * (side * maxDim) + longSide) (k := 2 * longSide)
    (by omega)
  generalize (2 * (side * maxDim) + longSide) / (2 * longSide) = n at hlow hhigh
  have hbox : n ≤ maxDim := by
    by_contra hgt
    nlinarith
  have hshrunk : n ≤ side := by
    by_contra hgt
    nlinarith
  refine ⟨le_max_left 1 n, max_le (by omega) hbox, max_le (by omega) hshrunk, ?_⟩
  rcases le_total n 1 with hn | hn
  · exact Or.inr (max_eq_left hn)
  · rw [max_eq_right hn]
    refine Or.inl ?_
    have habs : |maxDim * side - n * longSide| * 2 ≤ longSide := by
      rw [← abs_of_pos (show (0 : Int) < 2 by decide), ← abs_mul]
      exact abs_le.mpr ⟨by nlinarith, by nlinarith⟩
    rwa [mul_comm]

theorem fitWithin_fits (hw : 0 < srcW) (hh : 0 < srcH) (hdim : 0 < maxDim)
    (hlong : max srcW srcH < 2 ^ 52) (hsmall : min srcW srcH * maxDim < 2 ^ 52) :
    Fits srcW srcH maxDim (fitWithin srcW srcH maxDim) := by
  obtain ⟨hw', hh'⟩ := max_lt_iff.mp hlong
  unfold fitWithin
  rw [if_neg (by omega)]
  split_ifs with hin hwide
  · exact ⟨⟨hw, hh⟩, hin, ⟨le_rfl, le_rfl⟩, Or.inl rfl, Or.inl (by simp [mul_comm srcW]; omega)⟩
  · rw [min_eq_right hwide] at hsmall
    have hs := shortSide_spec hh hdim hwide (by omega) hw' hsmall
    refine ⟨⟨hdim, hs.pos⟩, ⟨le_rfl, hs.box⟩, ⟨by dsimp only; omega, hs.shrunk⟩,
      Or.inr (Or.inl rfl), ?_⟩
    rw [max_eq_left hwide]
    exact hs.ratio.imp_right Or.inr
  · have htall : srcW ≤ srcH := by omega
    rw [min_eq_left htall] at hsmall
    have hs := shortSide_spec hw hdim htall (by omega) hh' hsmall
    refine ⟨⟨hs.pos, hdim⟩, ⟨hs.box, le_rfl⟩, ⟨hs.shrunk, by dsimp only; omega⟩,
      Or.inr (Or.inr rfl), ?_⟩
    rw [max_eq_right htall]
    refine hs.ratio.imp (fun h => ?_) Or.inl
    dsimp only
    rwa [abs_sub_comm] at h

theorem fitWithin_of_box {w h : Int} (hw : 0 < w) (hh : 0 < h) (hbox : w ≤ maxDim ∧ h ≤ maxDim) :
    fitWithin w h maxDim = (w, h) := by
  rw [fitWithin, if_neg (by omega), if_pos hbox]

theorem shortSide_square (hside : 0 < side) (hdim : 0 < maxDim) (hlt : side < 2 ^ 52)
    (hsmall : side * maxDim < 2 ^ 52) : shortSide side maxDim side = maxDim := by
  rw [shortSide_eq hside hdim hside hlt hsmall]
  have hquot : (2 * (side * maxDim) + side) / (2 * side) = maxDim := by
    rw [show 2 * (side * maxDim) + side = side + 2 * side * maxDim by ring,
      Int.add_mul_ediv_left _ _ (by omega), Int.ediv_eq_zero_of_lt hside.le (by omega), zero_add]
  rw [hquot]
  exact max_eq_right hdim

theorem previews_fit (hw : 0 < srcW) (hh : 0 < srcH) (hdim : 0 < maxDim)
    (hlong : max srcW srcH < 2 ^ 52) (hsmall : min srcW srcH * maxDim < 2 ^ 52) :
    Fits srcW srcH maxDim (fitWithin srcW srcH maxDim) ∧
      fitWithin (fitWithin srcW srcH maxDim).1 (fitWithin srcW srcH maxDim).2 maxDim =
        fitWithin srcW srcH maxDim ∧
      fitWithin srcH srcW maxDim = (fitWithin srcW srcH maxDim).swap := by
  have hfits := fitWithin_fits hw hh hdim hlong hsmall
  obtain ⟨hdw, hdh⟩ := hfits.pos
  refine ⟨hfits, fitWithin_of_box (by omega) (by omega) hfits.box, ?_⟩
  obtain ⟨hw', -⟩ := max_lt_iff.mp hlong
  rcases lt_trichotomy srcW srcH with hlt | rfl | hlt
  · simp only [fitWithin, hw.not_ge, hh.not_ge, hdim.not_ge, hlt.le, hlt.not_ge, or_self, if_true,
      if_false, and_comm (a := srcH ≤ maxDim)]
    split <;> rfl
  · rw [min_self] at hsmall
    unfold fitWithin
    split_ifs
    · rfl
    · rfl
    · rw [shortSide_square hw hdim hw' hsmall]
      rfl
    · exact absurd le_rfl ‹_›
  · simp only [fitWithin, hw.not_ge, hh.not_ge, hdim.not_ge, hlt.le, hlt.not_ge, or_self, if_true,
      if_false, and_comm (a := srcH ≤ maxDim)]
    split <;> rfl

end FitWithin

theorem previews_fit_photo :
    Fits 6000 4000 512 (fitWithin 6000 4000 512) ∧ fitWithin 4000 6000 512 = (341, 512) := by
  obtain ⟨hfits, -, hswap⟩ :=
    @previews_fit 6000 4000 512 (by decide) (by decide) (by decide)
      (by decide) (by decide)
  refine ⟨hfits, ?_⟩
  rw [hswap, fitWithin, if_neg (by decide), if_neg (by decide), if_pos (by decide),
    shortSide_eq (by decide) (by decide) (by decide) (by decide) (by decide)]
  rfl

structure PreviewConfig where
  maxDim : Int
  quality : Int
  maxSourceBytes : Int64
  maxSourcePixels : Int64

structure StoredObject where
  contentType : Text
  body : Text
  deriving DecidableEq, Repr

-- an image's bounds and Opaque method, the scaler and the encoders, beside the decoders
structure ImagePackages (I : Type) extends ImageCodec I where
  bounds : I → Int × Int
  opaqueImage : I → Option Bool
  encodeJPEG : I → Int → Int → Int → Except String Text
  encodePNG : I → Int → Int → Except String Text

section Render

variable {I : Type} (p : ImagePackages I) (cfg : PreviewConfig)

def isOpaqueImage (img : I) : Bool := (p.opaqueImage img).getD true

structure Rendered where
  out : Text
  width : Int
  height : Int
  contentType : Text

def render (img : I) : Except String Rendered :=
  let (width, height) := fitWithin (p.bounds img).1 (p.bounds img).2 cfg.maxDim
  if width = 0 ∨ height = 0 then .error "source has zero width or height"
  else if isOpaqueImage p img then do
    let out ← p.encodeJPEG img width height cfg.quality
    .ok ⟨out, width, height, ascii "image/jpeg"⟩
  else do
    let out ← p.encodePNG img width height
    .ok ⟨out, width, height, ascii "image/png"⟩

def renderObject (o : StoredObject) : Option (StoredObject × Int × Int) :=
  if (ascii "image/").isPrefixOf o.contentType = false then none
  else if cfg.maxSourceBytes.toInt < o.body.length then none
  else
    let src := o.body.take cfg.maxSourceBytes.toInt.toNat
    match (decode p.toImageCodec cfg.maxSourcePixels src).result >>= render p cfg with
    | .error _ => none
    | .ok r => some (⟨r.contentType, r.out⟩, r.width, r.height)

end Render

structure IsPreview (maxDim : Int) (o : StoredObject) (width height : Int) : Prop where
  format : o.contentType = ascii "image/jpeg" ∨ o.contentType = ascii "image/png"
  width : 1 ≤ width ∧ width ≤ maxDim
  height : 1 ≤ height ∧ height ≤ maxDim

theorem isPreview_of_render {I : Type} {p : ImagePackages I} {cfg : PreviewConfig} {img : I}
    {r : Rendered} (hbounds : (p.bounds img).1 < 2 ^ 32 ∧ (p.bounds img).2 < 2 ^ 32)
    (hdim : cfg.maxDim ≤ 2 ^ 20) (h : render p cfg img = .ok r) :
    IsPreview cfg.maxDim ⟨r.contentType, r.out⟩ r.width r.height := by
  have hfits : (fitWithin (p.bounds img).1 (p.bounds img).2 cfg.maxDim).1 ≠ 0 →
      Fits (p.bounds img).1 (p.bounds img).2 cfg.maxDim
        (fitWithin (p.bounds img).1 (p.bounds img).2 cfg.maxDim) := by
    intro hne
    have hpos : ¬((p.bounds img).1 ≤ 0 ∨ (p.bounds img).2 ≤ 0 ∨ cfg.maxDim ≤ 0) :=
      fun hzero => hne (by rw [fitWithin, if_pos hzero])
    push Not at hpos
    obtain ⟨hw, hh, hd⟩ := hpos
    have hmin : 0 < min (p.bounds img).1 (p.bounds img).2 := lt_min hw hh
    have hminlt : min (p.bounds img).1 (p.bounds img).2 < 2 ^ 32 := min_lt_of_left_lt hbounds.1
    refine fitWithin_fits hw hh hd (max_lt (by omega) (by omega)) ?_
    calc min (p.bounds img).1 (p.bounds img).2 * cfg.maxDim < 2 ^ 32 * cfg.maxDim :=
          mul_lt_mul_of_pos_right hminlt hd
      _ ≤ 2 ^ 32 * 2 ^ 20 := mul_le_mul_of_nonneg_left hdim (by decide)
      _ = 2 ^ 52 := by norm_num
  unfold render at h
  dsimp only at h
  split_ifs at h with hzero hopaque
  · obtain ⟨out, -, hr⟩ := Except.bind_eq_ok.mp h
    cases hr
    have hf := hfits fun h0 => hzero (Or.inl h0)
    exact ⟨Or.inl rfl, ⟨hf.pos.1, hf.box.1⟩, hf.pos.2, hf.box.2⟩
  · obtain ⟨out, -, hr⟩ := Except.bind_eq_ok.mp h
    cases hr
    have hf := hfits fun h0 => hzero (Or.inl h0)
    exact ⟨Or.inr rfl, ⟨hf.pos.1, hf.box.1⟩, hf.pos.2, hf.box.2⟩

theorem isPreview_of_renderObject {I : Type} {p : ImagePackages I} {cfg : PreviewConfig}
    {o out : StoredObject} {width height : Int}
    (hbounds : ∀ img, (p.bounds img).1 < 2 ^ 32 ∧ (p.bounds img).2 < 2 ^ 32)
    (hdim : cfg.maxDim ≤ 2 ^ 20) (h : renderObject p cfg o = some (out, width, height)) :
    IsPreview cfg.maxDim out width height := by
  unfold renderObject at h
  split_ifs at h
  dsimp only at h
  split at h
  · cases h
  · rename_i r hr
    cases h
    obtain ⟨img, -, hrender⟩ := Except.bind_eq_ok.mp hr
    exact isPreview_of_render (hbounds img) hdim hrender

end PreviewIndexer

end FileIndexer
