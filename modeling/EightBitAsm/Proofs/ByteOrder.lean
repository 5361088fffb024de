import Mathlib

/-! The order of texts. Texts are compared character by character, and comparing their UTF-8 bytes
gives the same order: the first byte of a character grows with its code and tells how many bytes
follow, and these hold the rest of the code in base 64, highest digit first. -/
namespace EightBitAsm.Text

def bytes (text : String) : List UInt8 :=
  text.toUTF8.data.toList

def following (code : Nat) : Nat :=
  if code ≤ 127 then 0 else if code ≤ 2047 then 1 else if code ≤ 65535 then 2 else 3

def leadMark : Nat → Nat
  | 0 => 0
  | 1 => 192
  | 2 => 224
  | _ => 240

def leadByte (code : Nat) : Nat :=
  code / 64 ^ following code + leadMark (following code)

/-- The last `n` digits of a code in base 64, each as one byte. -/
def continuation (code : Nat) : Nat → List UInt8
  | 0 => []
  | n + 1 => UInt8.ofNat (code / 64 ^ n % 64 + 128) :: continuation code n

theorem bytes_eq (text : String) : bytes text = text.toList.flatMap String.utf8EncodeChar := by
  have h : text.toByteArray = (text.toList.flatMap String.utf8EncodeChar).toByteArray := by
    rw [← List.utf8Encode, ← String.toByteArray_ofList, String.ofList_toList]
  rw [bytes, String.toUTF8_eq_toByteArray, h]
  simp

theorem toNat_lt (c : Char) : c.toNat < 1114112 := by
  rcases c.valid with hc | ⟨-, hc⟩
  · exact Nat.lt_trans hc (by decide)
  · exact hc

theorem utf8EncodeChar_eq (c : Char) :
    String.utf8EncodeChar c =
      UInt8.ofNat (leadByte c.toNat) :: continuation c.toNat (following c.toNat) := by
  have hmax := toNat_lt c
  have hcode : c.val.toNat = c.toNat := rfl
  rw [String.utf8EncodeChar, hcode]
  generalize c.toNat = code at hmax
  by_cases h₁ : code ≤ 127
  · simp [leadByte, following, leadMark, continuation, h₁]
  · by_cases h₂ : code ≤ 2047
    · have hlead : code / 64 % 32 = code / 64 := by omega
      simp [leadByte, following, leadMark, continuation, h₁, h₂, hlead]
    · by_cases h₃ : code ≤ 65535
      · have hlead : code / 4096 % 16 = code / 4096 := by omega
        simp [leadByte, following, leadMark, continuation, h₁, h₂, h₃, hlead]
      · have hlead : code / 262144 % 8 = code / 262144 := by omega
        simp [leadByte, following, leadMark, continuation, h₁, h₂, h₃, hlead]

theorem leadByte_mono {v w : Nat} (h : v ≤ w) (hmax : w < 1114112) :
    leadByte v ≤ leadByte w := by
  unfold leadByte following
  split_ifs <;> simp only [leadMark, Nat.reducePow] <;> omega

theorem leadByte_lt {code : Nat} (h : code < 1114112) : leadByte code < 256 := by
  have hle : leadByte code ≤ leadByte 1114111 := leadByte_mono (by omega) (by omega)
  have hlast : leadByte 1114111 = 244 := by decide
  omega

theorem following_eq_of_leadByte_eq {v w : Nat} (hv : v < 1114112) (hw : w < 1114112)
    (h : leadByte v = leadByte w) : following v = following w := by
  unfold leadByte following at h
  unfold following
  split_ifs at h ⊢ <;> simp only [leadMark, Nat.reducePow] at h <;> omega

/-- Where the digits in front are the same, the last ones are in the order of the codes. -/
theorem continuation_append_lt {v w : Nat} (h : v < w) (xs ys : List UInt8) {n : Nat}
    (hn : v / 64 ^ n = w / 64 ^ n) : continuation v n ++ xs < continuation w n ++ ys := by
  induction n with
  | zero =>
    simp only [Nat.pow_zero, Nat.div_one] at hn
    omega
  | succ n ih =>
    simp only [continuation, List.cons_append, List.cons_lt_cons_iff]
    have hle : v / 64 ^ n ≤ w / 64 ^ n := Nat.div_le_div_right (Nat.le_of_lt h)
    rw [Nat.pow_succ, ← Nat.div_div_eq_div_mul, ← Nat.div_div_eq_div_mul] at hn
    by_cases heq : v / 64 ^ n = w / 64 ^ n
    · exact Or.inr ⟨by rw [heq], ih heq⟩
    · left
      rw [UInt8.lt_iff_toNat_lt, UInt8.toNat_ofNat', UInt8.toNat_ofNat']
      omega

theorem utf8EncodeChar_append_lt {c d : Char} (h : c < d) (xs ys : List UInt8) :
    String.utf8EncodeChar c ++ xs < String.utf8EncodeChar d ++ ys := by
  have hlt : c.toNat < d.toNat := h
  have hbyte := leadByte_lt (toNat_lt d)
  have hle := leadByte_mono (Nat.le_of_lt hlt) (toNat_lt d)
  rw [utf8EncodeChar_eq, utf8EncodeChar_eq, List.cons_append, List.cons_append,
    List.cons_lt_cons_iff]
  by_cases heq : leadByte c.toNat = leadByte d.toNat
  · have hfollowing := following_eq_of_leadByte_eq (toNat_lt c) (toNat_lt d) heq
    have hdigits : c.toNat / 64 ^ following c.toNat = d.toNat / 64 ^ following c.toNat := by
      rw [leadByte, leadByte, ← hfollowing] at heq
      omega
    rw [heq, ← hfollowing]
    exact Or.inr ⟨rfl, continuation_append_lt hlt xs ys hdigits⟩
  · left
    rw [UInt8.lt_iff_toNat_lt, UInt8.toNat_ofNat', UInt8.toNat_ofNat']
    omega

theorem flatMap_utf8EncodeChar_lt {cs ds : List Char} (h : cs < ds) :
    cs.flatMap String.utf8EncodeChar < ds.flatMap String.utf8EncodeChar := by
  induction h with
  | @nil d ds =>
    rw [List.flatMap_nil, List.flatMap_cons, utf8EncodeChar_eq]
    exact List.nil_lt_cons _ _
  | rel h => exact utf8EncodeChar_append_lt h _ _
  | cons _ ih => exact List.append_left_lt ih

/-- The order of texts is the order of their bytes. -/
theorem lt_iff_bytes_lt {s t : String} : s < t ↔ bytes s < bytes t := by
  have hbytes : ∀ {s t : String}, s < t → bytes s < bytes t := by
    intro s t h
    rw [bytes_eq, bytes_eq]
    exact flatMap_utf8EncodeChar_lt h
  refine ⟨hbytes, fun h => ?_⟩
  rcases lt_trichotomy s t with hst | rfl | hts
  · exact hst
  · exact absurd h (List.lt_irrefl _)
  · exact absurd h (List.lt_asymm (hbytes hts))

end EightBitAsm.Text
