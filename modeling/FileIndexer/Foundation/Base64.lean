import Mathlib.Data.List.Basic
import Mathlib.Data.Option.Basic

namespace Base64

def byte (n : Nat) : Fin 256 := Fin.ofNat 256 n

def sextet (n : Nat) : Fin 64 := Fin.ofNat 64 n

def sextets : List (Fin 256) → List (Fin 64)
  | [] => []
  | [a] => [sextet (a / 4), sextet (a % 4 * 16)]
  | [a, b] => [sextet (a / 4), sextet (a % 4 * 16 + b / 16), sextet (b % 16 * 4)]
  | a :: b :: c :: rest =>
    sextet (a / 4) :: sextet (a % 4 * 16 + b / 16) :: sextet (b % 16 * 4 + c / 64) ::
      sextet (c % 64) :: sextets rest

-- what is left over of the last digit is dropped, whatever it is
def bytes : List (Fin 64) → Option (List (Fin 256))
  | [] => some []
  | [_] => none
  | [s, t] => some [byte (s * 4 + t / 16)]
  | [s, t, u] => some [byte (s * 4 + t / 16), byte (t % 16 * 16 + u / 4)]
  | s :: t :: u :: v :: rest => (bytes rest).map fun out =>
    byte (s * 4 + t / 16) :: byte (t % 16 * 16 + u / 4) :: byte (u % 4 * 64 + v) :: out

def spare : List (Fin 64) → Nat
  | [_, t] => t % 16
  | [_, _, u] => u % 4
  | _ :: _ :: _ :: _ :: rest => spare rest
  | _ => 0

section Bits

theorem val_byte (n : Nat) : (byte n).val = n % 256 := rfl

theorem val_sextet (n : Nat) : (sextet n).val = n % 64 := rfl

theorem bytes_sextets (bs : List (Fin 256)) : bytes (sextets bs) = some bs := by
  induction bs using sextets.induct with
  | case1 => rfl
  | case2 a =>
    simp only [sextets, bytes, Option.some.injEq, List.cons.injEq, and_true, Fin.ext_iff, val_byte,
      val_sextet]
    omega
  | case3 a b =>
    simp only [sextets, bytes, Option.some.injEq, List.cons.injEq, and_true, Fin.ext_iff, val_byte,
      val_sextet]
    omega
  | case4 a b c rest ih =>
    simp only [sextets, bytes, ih, Option.map_some, Option.some.injEq, List.cons.injEq, and_true,
      Fin.ext_iff, val_byte, val_sextet]
    omega

theorem sextets_of_bytes {ss : List (Fin 64)} {bs : List (Fin 256)} (h : bytes ss = some bs) :
    sextets bs = ss ↔ spare ss = 0 := by
  induction ss using bytes.induct generalizing bs with
  | case1 =>
    obtain rfl := Option.some.inj h
    simp [sextets, spare]
  | case2 s => cases h
  | case3 s t =>
    obtain rfl := Option.some.inj h
    simp only [sextets, spare, List.cons.injEq, and_true, Fin.ext_iff, val_byte, val_sextet]
    omega
  | case4 s t u =>
    obtain rfl := Option.some.inj h
    simp only [sextets, spare, List.cons.injEq, and_true, Fin.ext_iff, val_byte, val_sextet]
    omega
  | case5 s t u v rest ih =>
    rw [bytes] at h
    obtain ⟨out, hout, rfl⟩ := Option.map_eq_some_iff.mp h
    simp only [sextets, spare, List.cons.injEq, Fin.ext_iff, val_byte, val_sextet, ih hout]
    omega

end Bits

structure Encoding (σ : Type*) where
  alphabet : List σ
  skipped : σ → Bool
  length : alphabet.length = 64
  nodup : alphabet.Nodup
  kept : ∀ c ∈ alphabet, skipped c = false

namespace Encoding

section Alphabet

variable {σ : Type*} (e : Encoding σ)

def char (s : Fin 64) : σ := e.alphabet.get (s.cast e.length.symm)

theorem char_mem (s : Fin 64) : e.char s ∈ e.alphabet := List.get_mem _ _

def encode (bs : List (Fin 256)) : List σ := (sextets bs).map e.char

def unskipped (cs : List σ) : List σ := cs.filter fun c => !e.skipped c

variable [DecidableEq σ]

def value (c : σ) : Option (Fin 64) :=
  if h : e.alphabet.idxOf c < 64 then some ⟨e.alphabet.idxOf c, h⟩ else none

def decode (cs : List σ) : Option (List (Fin 256)) := ((e.unskipped cs).mapM e.value).bind bytes

def Canonical (cs : List σ) : Prop := ∃ ss, cs = ss.map e.char ∧ spare ss = 0

variable {e}

theorem value_char (s : Fin 64) : e.value (e.char s) = some s := by
  have hidx : e.alphabet.idxOf (e.char s) = s.val :=
    e.nodup.idxOf_getElem s.val (by rw [e.length]; exact s.isLt)
  rw [value, dif_pos (by rw [hidx]; exact s.isLt)]
  simp [hidx]

theorem mapM_value_map_char (ss : List (Fin 64)) : (ss.map e.char).mapM e.value = some ss := by
  induction ss with
  | nil => rfl
  | cons s ss ih =>
    rw [List.map_cons, List.mapM_cons, value_char, ih]
    rfl

omit [DecidableEq σ] in
theorem unskipped_map_char (ss : List (Fin 64)) : e.unskipped (ss.map e.char) = ss.map e.char := by
  refine List.filter_eq_self.mpr fun c hc => ?_
  obtain ⟨s, -, rfl⟩ := List.mem_map.mp hc
  rw [e.kept _ (e.char_mem s)]
  rfl

theorem decode_map_char (ss : List (Fin 64)) : e.decode (ss.map e.char) = bytes ss := by
  rw [decode, unskipped_map_char, mapM_value_map_char]
  rfl

theorem decode_encode (bs : List (Fin 256)) : e.decode (e.encode bs) = some bs := by
  rw [encode, decode_map_char, bytes_sextets]

omit [DecidableEq σ] in
theorem mem_alphabet_of_mem_encode {bs : List (Fin 256)} {c : σ} (h : c ∈ e.encode bs) :
    c ∈ e.alphabet := by
  obtain ⟨s, -, rfl⟩ := List.mem_map.mp h
  exact e.char_mem s

theorem encode_eq_nil_iff {bs : List (Fin 256)} : e.encode bs = [] ↔ bs = [] := by
  constructor
  · intro h
    have hbs := decode_encode (e := e) bs
    rw [h] at hbs
    exact (Option.some.inj hbs).symm
  · rintro rfl
    rfl

theorem encode_of_decode {cs : List σ} {bs : List (Fin 256)} (h : e.decode cs = some bs) :
    e.encode bs = cs ↔ e.Canonical cs := by
  constructor
  · rintro rfl
    exact ⟨sextets bs, rfl, (sextets_of_bytes (bytes_sextets bs)).mp rfl⟩
  · rintro ⟨ss, rfl, hspare⟩
    rw [decode_map_char] at h
    rw [encode, (sextets_of_bytes h).mpr hspare]

theorem decode_congr {cs ds : List σ} (h : e.unskipped cs = e.unskipped ds) :
    e.decode cs = e.decode ds := by
  rw [decode, decode, h]

end Alphabet

end Encoding

end Base64
