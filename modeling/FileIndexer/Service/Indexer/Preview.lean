import FileIndexer.Storage.Path

namespace FileIndexer

def decimal (n : Nat) : Key := (Nat.toDigits 10 n).map fun c => Fin.ofNat 256 c.toNat

def formatInt (n : Int) : Key := if n < 0 then 45 :: decimal n.natAbs else decimal n.natAbs

def previews : Key := ascii "previews"

def previewKey (indexPrefix : Key) (fileID : FileID) : Key :=
  Path.join [indexPrefix, previews, formatInt fileID]

def previewPrefix (indexPrefix : Key) : Key := Path.join [indexPrefix, previews] ++ [slash]

section Format

theorem digit_range {n : Nat} {c : Char} (h : c ∈ Nat.toDigits 10 n) :
    48 ≤ c.toNat ∧ c.toNat ≤ 57 := by
  have hdigit := Nat.isDigit_of_mem_toDigits (by decide) (by decide) h
  simpa [Char.isDigit, UInt32.le_iff_toNat_le] using hdigit

theorem mem_decimal {n : Nat} {b : Byte} (h : b ∈ decimal n) : 48 ≤ b.val := by
  obtain ⟨c, hc, rfl⟩ := List.mem_map.mp h
  obtain ⟨hlo, hhi⟩ := digit_range hc
  simp only [Fin.ofNat]
  omega

theorem decimal_ne_nil (n : Nat) : decimal n ≠ [] := by
  simp [decimal, Nat.toDigits_ne_nil]

theorem decimal_injective : Function.Injective decimal := by
  have hback (n : Nat) : (decimal n).map (fun b => Char.ofNat b.val) = Nat.toDigits 10 n := by
    rw [decimal, List.map_map]
    refine (List.map_congr_left fun c hc => ?_).trans (List.map_id _)
    obtain ⟨-, hhi⟩ := digit_range hc
    have hval : c.toNat % 256 = c.toNat := Nat.mod_eq_of_lt (by omega)
    simp [hval]
  intro m n h
  have hdigits : Nat.toDigits 10 m = Nat.toDigits 10 n := by rw [← hback, ← hback, h]
  rw [← Nat.ofDigitChars_ten_toDigits (n := m), hdigits, Nat.ofDigitChars_ten_toDigits]

theorem mem_formatInt {n : Int} {b : Byte} (h : b ∈ formatInt n) : b = 45 ∨ 48 ≤ b.val := by
  unfold formatInt at h
  split at h
  · exact (List.mem_cons.mp h).imp_right mem_decimal
  · exact Or.inr (mem_decimal h)

theorem formatInt_ne_nil (n : Int) : formatInt n ≠ [] := by
  unfold formatInt
  split
  · simp
  · exact decimal_ne_nil _

theorem formatInt_injective : Function.Injective formatInt := by
  have hsign (k : Nat) (s : Key) : decimal k ≠ 45 :: s := by
    intro h
    exact absurd (mem_decimal (n := k) (b := 45) (by simp [h])) (by decide)
  intro m n h
  unfold formatInt at h
  split_ifs at h with hm hn hn
  · have habs := decimal_injective (List.cons.inj h).2
    omega
  · exact absurd h.symm (hsign _ _)
  · exact absurd h (hsign _ _)
  · have habs := decimal_injective h
    omega

theorem slash_not_mem_formatInt (n : Int) : slash ∉ formatInt n := by
  intro h
  rcases mem_formatInt h with h | h <;> exact absurd h (by decide)

theorem ordinary_formatInt (n : Int) : CleanPath.ordinary Path.names (formatInt n) = true := by
  have hdot (s : Key) : formatInt n ≠ 46 :: s := by
    intro h
    rcases mem_formatInt (n := n) (b := 46) (by simp [h]) with h | h <;> exact absurd h (by decide)
  exact CleanPath.ordinary_iff.mpr ⟨formatInt_ne_nil n, hdot [], hdot [46]⟩

end Format

theorem ordinary_previews : CleanPath.ordinary Path.names previews = true := by decide

theorem slash_not_mem_previews : slash ∉ previews := by decide

theorem previewKey_eq (indexPrefix : Key) (fileID : FileID) :
    previewKey indexPrefix fileID = previewPrefix indexPrefix ++ formatInt fileID := by
  have hchild (path : Key) (segs : List Key) (hpath : path.splitOn slash = segs ++ [previews]) :
      Path.clean (path ++ slash :: formatInt fileID) = Path.clean path ++ slash :: formatInt fileID :=
    Path.clean_child hpath ordinary_previews (ordinary_formatInt fileID)
      (slash_not_mem_formatInt fileID)
  cases indexPrefix with
  | nil =>
    have hjoin : Path.join [[], previews, formatInt fileID] =
        Path.clean (previews ++ slash :: formatInt fileID) := by
      simp [Path.join, previews, ascii]
    rw [previewKey, hjoin, hchild previews [] (List.splitOn_eq_singleton slash_not_mem_previews)]
    exact (List.append_assoc (Path.clean previews) [slash] (formatInt fileID)).symm
  | cons c p =>
    have hjoin : Path.join [c :: p, previews, formatInt fileID] =
        Path.clean ((c :: p ++ slash :: previews) ++ slash :: formatInt fileID) := by
      simp [Path.join, List.intercalate_cons_of_ne_nil]
    have hsplit : (c :: p ++ slash :: previews).splitOn slash =
        (c :: p).splitOn slash ++ [previews] := by
      rw [List.splitOn_append_cons_self, List.splitOn_eq_singleton slash_not_mem_previews]
    rw [previewKey, hjoin, hchild _ _ hsplit]
    simp [previewPrefix, Path.join, List.intercalate_cons_of_ne_nil]

theorem previewKey_injective (indexPrefix : Key) : Function.Injective (previewKey indexPrefix) := by
  intro m n h
  rw [previewKey_eq, previewKey_eq] at h
  exact formatInt_injective (List.append_cancel_left h)

end FileIndexer
