-- Numbers in base sixteen, as escapes write them, and the bytes of a character: one
-- for a narrow one, and none below 0x80 for a wide one.
import Mathlib

namespace HornDb.Lib.Hex

def hex_digit (n : Nat) : Char := if n < 10 then Char.ofNat (48 + n) else Char.ofNat (55 + n)

/-- The last `width` digits of `n`. -/
def hex_digits : Nat → Nat → List Char
  | 0, _ => []
  | width + 1, n => hex_digits width (n / 16) ++ [hex_digit (n % 16)]

def hex_value (c : Char) : Option Nat :=
  if '0' ≤ c ∧ c ≤ '9' then some (c.toNat - 48)
  else if 'A' ≤ c ∧ c ≤ 'F' then some (c.toNat - 55)
  else if 'a' ≤ c ∧ c ≤ 'f' then some (c.toNat - 87)
  else none

def hex_number (acc : Nat) : List Char → Option Nat
  | [] => some acc
  | c :: cs => (hex_value c).bind fun d => hex_number (16 * acc + d) cs

/-- The character of a number, when it has one. -/
def scalar (n : Nat) : Option Char := if n.isValidChar then some (Char.ofNat n) else none

theorem scalar_toNat (c : Char) : scalar c.toNat = some c := by
  have hvalid : c.toNat.isValidChar := c.valid
  rw [scalar, if_pos hvalid, Char.ofNat_toNat]

theorem hex_value_digit {n : Nat} (h : n < 16) : hex_value (hex_digit n) = some n := by
  interval_cases n <;> rfl

theorem hex_number_append (a b : List Char) (acc : Nat) :
    hex_number acc (a ++ b) = (hex_number acc a).bind fun n => hex_number n b := by
  induction a generalizing acc with
  | nil => rfl
  | cons c a ih =>
    rw [List.cons_append, hex_number, hex_number]
    cases hex_value c with
    | none => rfl
    | some d => exact ih _

theorem hex_number_digits (width n : Nat) (h : n < 16 ^ width) :
    hex_number 0 (hex_digits width n) = some n := by
  induction width generalizing n with
  | zero =>
    rw [pow_zero, Nat.lt_one_iff] at h
    rw [h]
    rfl
  | succ width ih =>
    rw [hex_digits, hex_number_append, ih (n / 16) (by rw [pow_succ] at h; omega),
      Option.bind_some, hex_number, hex_value_digit (Nat.mod_lt _ (by decide))]
    change some (16 * (n / 16) + n % 16) = some n
    rw [Nat.div_add_mod]

theorem length_hex_digits (width n : Nat) : (hex_digits width n).length = width := by
  induction width generalizing n with
  | zero => rfl
  | succ width ih => rw [hex_digits, List.length_append, ih, List.length_singleton]

/-- Each digit is one of the sixteen. -/
theorem mem_hex_digits {width n : Nat} {c : Char} (hc : c ∈ hex_digits width n) :
    ∃ d < 16, c = hex_digit d := by
  induction width generalizing n with
  | zero => cases hc
  | succ width ih =>
    rw [hex_digits, List.mem_append, List.mem_singleton] at hc
    rcases hc with hc | rfl
    · exact ih hc
    · exact ⟨n % 16, Nat.mod_lt _ (by decide), rfl⟩

end HornDb.Lib.Hex

namespace HornDb.Lib.Utf8

/-- The characters that are written with one byte. -/
def Narrow (c : Char) : Prop := c.val.toNat ≤ 0x7F

instance (c : Char) : Decidable (Narrow c) := inferInstanceAs (Decidable (_ ≤ _))

/-- A byte that no character goes on with. -/
def starts (b : UInt8) : Bool := b.toNat < 0x80 || 0xC0 ≤ b.toNat

theorem encode_narrow {c : Char} (h : Narrow c) :
    String.utf8EncodeChar c = [UInt8.ofNat c.val.toNat] := if_pos h

theorem toNat_narrow {c : Char} (h : Narrow c) :
    (UInt8.ofNat c.val.toNat).toNat = c.val.toNat := by
  unfold Narrow at h
  rw [UInt8.toNat_ofNat']
  omega

theorem encode_wide {c : Char} (h : ¬Narrow c) :
    ∀ b ∈ String.utf8EncodeChar c, 0x80 ≤ b.toNat := by
  intro b hb
  unfold Narrow at h
  rw [String.utf8EncodeChar, if_neg h] at hb
  split_ifs at hb
  all_goals
    simp only [List.mem_cons, List.not_mem_nil, or_false] at hb
    rcases hb with rfl | rfl | rfl | rfl
    all_goals rw [UInt8.toNat_ofNat']; omega

theorem encode_starts (c : Char) : ∃ b bs, String.utf8EncodeChar c = b :: bs ∧ starts b = true := by
  have hbyte {n : Nat} (hn : n < 256) (h : n < 0x80 ∨ 0xC0 ≤ n) :
      starts (UInt8.ofNat n) = true := by
    unfold starts
    rw [UInt8.toNat_ofNat']
    simp only [Bool.or_eq_true, decide_eq_true_eq]
    omega
  unfold String.utf8EncodeChar
  dsimp only
  split_ifs
  · exact ⟨_, _, rfl, hbyte (by omega) (by omega)⟩
  · exact ⟨_, _, rfl, hbyte (by omega) (by omega)⟩
  · exact ⟨_, _, rfl, hbyte (by omega) (by omega)⟩
  · exact ⟨_, _, rfl, hbyte (by omega) (by omega)⟩

/-- A byte below 0x80 in front is a character of its own. -/
theorem narrow_of_head {c : Char} {b : UInt8} {bs : List UInt8}
    (h : String.utf8EncodeChar c = b :: bs) (hb : b.toNat < 0x80) :
    bs = [] ∧ c.val.toNat = b.toNat := by
  by_cases hc : Narrow c
  · rw [encode_narrow hc] at h
    obtain ⟨rfl, rfl⟩ := List.cons.inj h
    exact ⟨rfl, (toNat_narrow hc).symm⟩
  · have hwide := encode_wide hc b (by rw [h]; exact List.mem_cons_self)
    omega

/-- The bytes of a text. -/
def encode (cs : List Char) : List UInt8 := cs.flatMap String.utf8EncodeChar

@[simp] theorem encode_nil : encode [] = [] := rfl

@[simp] theorem encode_cons (c : Char) (cs : List Char) :
    encode (c :: cs) = String.utf8EncodeChar c ++ encode cs := rfl

theorem encode_append (a b : List Char) : encode (a ++ b) = encode a ++ encode b :=
  List.flatMap_append

theorem encode_starts_text {cs : List Char} {b : UInt8} {bs : List UInt8}
    (h : encode cs = b :: bs) : starts b = true := by
  cases cs with
  | nil => cases h
  | cons c cs =>
    obtain ⟨b', bs', henc, hstarts⟩ := encode_starts c
    rw [encode_cons, henc, List.cons_append] at h
    rwa [← (List.cons.inj h).1]

/-- A narrow byte in front of a text is its first character. -/
theorem encode_head {cs : List Char} {b : UInt8} {bs : List UInt8} (h : encode cs = b :: bs)
    (hb : b.toNat < 0x80) : ∃ c cs', cs = c :: cs' ∧ c.val.toNat = b.toNat ∧ encode cs' = bs := by
  cases cs with
  | nil => cases h
  | cons c cs =>
    obtain ⟨b', bs', henc, -⟩ := encode_starts c
    rw [encode_cons, henc, List.cons_append] at h
    obtain ⟨rfl, rfl⟩ := List.cons.inj h
    obtain ⟨rfl, hval⟩ := narrow_of_head henc hb
    exact ⟨c, cs, rfl, hval, rfl⟩

theorem toByteArray_ofList (cs : List Char) :
    (String.ofList cs).toByteArray.data.toList = encode cs := by
  induction cs with
  | nil => rfl
  | cons c cs ih =>
    have hcons : String.ofList (c :: cs) = String.ofList [c] ++ String.ofList cs := by
      rw [← String.ofList_append]
      rfl
    have hchar : (String.ofList [c]).toByteArray.data.toList = String.utf8EncodeChar c := by
      rw [String.toByteArray_ofList, List.utf8Encode_singleton]
      simp
    rw [hcons, String.toByteArray_append, ByteArray.data_append, Array.toList_append, ih, hchar]
    rfl

end HornDb.Lib.Utf8
