import FileIndexer.Database.IndexQueue

namespace FileIndexer

-- each download may fail, and may find other bytes than the one before it
structure ExifObjectStore where
  stat : Key → Except Text Text
  get : Nat → Key → Except Text Text

structure ExifConfig where
  maxHeaderBytes : Int64
  maxSourceBytes : Int64

structure ExifIndexer where
  storage : ExifObjectStore
  indexPrefix : Key
  cfg : ExifConfig
  header_pos : 0 < cfg.maxHeaderBytes
  source_pos : 0 < cfg.maxSourceBytes

def defaultMaxHeaderBytes : Int64 := 1048576

def defaultMaxSourceBytes : Int64 := 67108864

def clampLimit (limit default : Int64) : Int64 := if limit ≤ 0 then default else limit

theorem clampLimit_pos {limit default : Int64} (h : 0 < default) : 0 < clampLimit limit default := by
  unfold clampLimit
  split
  · exact h
  · rename_i hpos
    exact Int64.not_le.mp hpos

def newExifIndexer (store : ExifObjectStore) (indexPrefix : Key) (cfg : ExifConfig) : ExifIndexer where
  storage := store
  indexPrefix := indexPrefix
  cfg := ⟨clampLimit cfg.maxHeaderBytes defaultMaxHeaderBytes,
    clampLimit cfg.maxSourceBytes defaultMaxSourceBytes⟩
  header_pos := clampLimit_pos (by decide)
  source_pos := clampLimit_pos (by decide)

def limitReader (obj : Text) (n : Int64) : Text := obj.take n.toInt.toNat

def readBounded (store : ExifObjectStore) (download : Nat) (key : Key) (limit : Int64) :
    Except Text (Text × Bool) :=
  if limit ≤ 0 then .ok ([], false)
  else do
    let obj ← store.get download key
    let data := limitReader obj (limit + 1)
    if limit.toInt < data.length then .ok (data.take limit.toInt.toNat, true) else .ok (data, false)

def firstBytes (obj : Text) (limit : Int64) : Text × Bool :=
  (obj.take limit.toInt.toNat, decide (limit.toInt < obj.length))

section Limit

variable {store : ExifObjectStore} {download : Nat} {key : Key} {limit : Int64} {obj : Text}

theorem toInt_succ (hmax : limit ≠ Int64.maxValue) (hpos : 0 < limit) :
    (limit + 1).toInt = limit.toInt + 1 := by
  have hlow : 0 < limit.toInt := Int64.lt_iff_toInt_lt.mp hpos
  have hhigh : limit.toInt ≠ 2 ^ 63 - 1 := by
    intro h
    apply hmax
    exact Int64.toInt_inj.mp (h.trans Int64.toInt_maxValue.symm)
  have hle : limit.toInt ≤ 2 ^ 63 - 1 := Int64.toInt_le limit
  have hone : (1 : Int64).toInt = 1 := rfl
  rw [Int64.toInt_add, hone]
  apply Int.bmod_eq_of_le
  · omega
  · omega

theorem readBounded_eq (hmax : limit ≠ Int64.maxValue) (hpos : 0 < limit)
    (hget : store.get download key = .ok obj) :
    readBounded store download key limit = .ok (firstBytes obj limit) := by
  have hlow : 0 < limit.toInt := Int64.lt_iff_toInt_lt.mp hpos
  have hdata : limitReader obj (limit + 1) = obj.take (limit.toInt.toNat + 1) := by
    rw [limitReader, toInt_succ hmax hpos, Int.toNat_add (by omega) (by omega)]
    rfl
  rw [readBounded, if_neg (Int64.not_le.mpr hpos), hget]
  show (if limit.toInt < (limitReader obj (limit + 1)).length then _ else _) = _
  rw [hdata, List.length_take, firstBytes]
  by_cases hlong : limit.toInt < obj.length
  · rw [if_pos (by omega), List.take_take, Nat.min_eq_left (Nat.le_succ _), decide_eq_true hlong]
  · rw [if_neg (by omega), decide_eq_false hlong, List.take_of_length_le (by omega),
      List.take_of_length_le (by omega)]

theorem readBounded_max (hget : store.get download key = .ok obj) :
    readBounded store download key Int64.maxValue = .ok ([], false) := by
  rw [readBounded, if_neg (by decide), hget]
  rfl

theorem readBounded_eq_iff (hpos : 0 < limit) (hget : store.get download key = .ok obj) :
    readBounded store download key limit = .ok (firstBytes obj limit) ↔
      obj = [] ∨ limit ≠ Int64.maxValue := by
  by_cases hmax : limit = Int64.maxValue
  · subst hmax
    rw [readBounded_max hget]
    constructor
    · intro h
      have htake : [] = obj.take Int64.maxValue.toInt.toNat := congrArg Prod.fst (Except.ok.inj h)
      rcases List.take_eq_nil_iff.mp htake.symm with h | h
      · exact absurd h (by decide)
      · exact Or.inl h
    · intro h
      rcases h with rfl | h
      · rfl
      · exact absurd rfl h
  · simp [readBounded_eq hmax hpos hget, hmax]

end Limit

theorem clampLimit_eq_max_iff {limit default : Int64} (h : default ≠ Int64.maxValue) :
    clampLimit limit default = Int64.maxValue ↔ limit = Int64.maxValue := by
  unfold clampLimit
  split
  · rename_i hle
    constructor
    · intro heq
      exact absurd heq h
    · rintro rfl
      exact absurd hle (by decide)
  · rfl

structure BoundedReads (x : ExifIndexer) (key : Key) (obj : Text) : Prop where
  header : readBounded x.storage 0 key x.cfg.maxHeaderBytes = .ok (firstBytes obj x.cfg.maxHeaderBytes)
  source : readBounded x.storage 1 key x.cfg.maxSourceBytes = .ok (firstBytes obj x.cfg.maxSourceBytes)
  extend : ∀ h s, readBounded x.storage 0 key x.cfg.maxHeaderBytes = .ok h →
    readBounded x.storage 1 key x.cfg.maxSourceBytes = .ok s →
    x.cfg.maxHeaderBytes < x.cfg.maxSourceBytes → h.1 <+: s.1

theorem firstBytes_prefix (obj : Text) {m n : Int64} (h : m < n) :
    (firstBytes obj m).1 <+: (firstBytes obj n).1 := by
  apply List.take_prefix_take_left
  have hlt : m.toInt < n.toInt := Int64.lt_iff_toInt_lt.mp h
  omega

theorem bounded_reads_iff (store : ExifObjectStore) (indexPrefix : Key) (cfg : ExifConfig) (key : Key)
    (obj : Text) (hget : ∀ download, store.get download key = .ok obj) :
    BoundedReads (newExifIndexer store indexPrefix cfg) key obj ↔
      obj = [] ∨ (cfg.maxHeaderBytes ≠ Int64.maxValue ∧ cfg.maxSourceBytes ≠ Int64.maxValue) := by
  have hheader := readBounded_eq_iff (newExifIndexer store indexPrefix cfg).header_pos (hget 0)
  have hsource := readBounded_eq_iff (newExifIndexer store indexPrefix cfg).source_pos (hget 1)
  have hclampH : (newExifIndexer store indexPrefix cfg).cfg.maxHeaderBytes = Int64.maxValue ↔
      cfg.maxHeaderBytes = Int64.maxValue := clampLimit_eq_max_iff (by decide)
  have hclampS : (newExifIndexer store indexPrefix cfg).cfg.maxSourceBytes = Int64.maxValue ↔
      cfg.maxSourceBytes = Int64.maxValue := clampLimit_eq_max_iff (by decide)
  rw [ne_eq, hclampH] at hheader
  rw [ne_eq, hclampS] at hsource
  constructor
  · intro h
    rcases hheader.mp h.header with hnil | hh
    · exact Or.inl hnil
    · exact (hsource.mp h.source).imp_right fun hs => ⟨hh, hs⟩
  · intro h
    have hh := hheader.mpr (h.imp_right And.left)
    have hs := hsource.mpr (h.imp_right And.right)
    refine ⟨hh, hs, ?_⟩
    intro first second hfirst hsecond hlt
    obtain rfl := Except.ok.inj (hh.symm.trans hfirst)
    obtain rfl := Except.ok.inj (hs.symm.trans hsecond)
    exact firstBytes_prefix obj hlt

section Unlimited

def oneObject (obj : Text) : ExifObjectStore := ⟨fun _ => .ok (ascii "image/jpeg"), fun _ _ => .ok obj⟩

theorem bounded_reads_default :
    BoundedReads (newExifIndexer (oneObject [255, 216, 255]) [] ⟨2, 0⟩) (ascii "a.jpg")
      [255, 216, 255] :=
  (bounded_reads_iff (oneObject [255, 216, 255]) [] ⟨2, 0⟩ (ascii "a.jpg") [255, 216, 255]
    fun _ => rfl).mpr (Or.inr (by decide))

def unlimitedIndexer : ExifIndexer :=
  newExifIndexer (oneObject [255, 216, 255]) [] ⟨Int64.maxValue, 0⟩

theorem unlimited_header_reads_nothing :
    readBounded unlimitedIndexer.storage 0 (ascii "a.jpg") unlimitedIndexer.cfg.maxHeaderBytes =
        .ok ([], false) ∧
      ¬ BoundedReads unlimitedIndexer (ascii "a.jpg") [255, 216, 255] := by
  refine ⟨readBounded_max rfl, fun h => ?_⟩
  rcases (readBounded_eq_iff unlimitedIndexer.header_pos rfl).mp h.header with hnil | hmax
  · cases hnil
  · exact hmax rfl

end Unlimited

end FileIndexer
