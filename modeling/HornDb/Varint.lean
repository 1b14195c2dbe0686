-- Unsigned LEB128 and zigzag coding: the reader takes back what the writer wrote.
import HornDb.Lib.Wire

open HornDb.Lib.Wire

namespace horndb.storage

/-- Write `value` as unsigned LEB128, seven bits a byte, the lowest first. -/
def write_uvarint (value : Nat) : Bytes :=
  if value < 128 then [UInt8.ofNat value]
  else UInt8.ofNat (value % 128 + 128) :: write_uvarint (value / 128)
termination_by value
decreasing_by omega

def UVARINT_EOF : String := "failed to fill whole buffer"

def UVARINT_OVERFLOW : String := "uvarint overflows u64"

/-- The loop of `read_uvarint`, from the bits read so far and the shift of the next ones. -/
def read_uvarint_from (result shift : Nat) : Bytes → Except String (Nat × Bytes)
  | [] => .error UVARINT_EOF
  | byte :: rest =>
    if 64 ≤ shift ∨ (shift = 63 ∧ 1 < byte.toNat % 128) then .error UVARINT_OVERFLOW
    else
      let result := result ||| ((byte.toNat % 128) <<< shift)
      if byte.toNat < 128 then .ok (result, rest) else read_uvarint_from result (shift + 7) rest

/-- Read an unsigned LEB128 value below `2 ^ 64`. -/
def read_uvarint : Reader String Nat := fun bytes => read_uvarint_from 0 0 bytes

/-- The bits of a signed 32-bit value, doubled, with the sign in the lowest bit. -/
def zigzag_encode (value : Int32) : UInt64 := ((value <<< 1) ^^^ (value >>> 31)).toUInt32.toUInt64

def zigzag_decode (value : UInt64) : Int32 :=
  let v := value.toUInt32
  (v >>> 1).toInt32 ^^^ -(v &&& 1).toInt32

/-! ## The round trip -/

theorem or_shiftLeft {result shift : Nat} (h : result < 2 ^ shift) (x : Nat) :
    result ||| (x <<< shift) = result + x * 2 ^ shift := by
  rw [Nat.shiftLeft_eq, Nat.or_comm, Nat.mul_comm x, ← Nat.two_pow_add_eq_or_of_lt h, Nat.add_comm]

/-- The loop takes back the rest of a value, and stops in every strict prefix of it. -/
theorem read_uvarint_from_write (value : Nat) :
    ∀ (result k : Nat), result < 2 ^ (7 * k) → value * 2 ^ (7 * k) < 2 ^ 64 →
      (value = 0 → k = 0) →
      (∀ rest, read_uvarint_from result (7 * k) (write_uvarint value ++ rest) =
        .ok (result + value * 2 ^ (7 * k), rest)) ∧
      ∀ p, p <+: write_uvarint value → p ≠ write_uvarint value →
        read_uvarint_from result (7 * k) p = .error UVARINT_EOF := by
  induction value using Nat.strongRecOn with
  | ind value ih =>
    intro result k hres hval hzero
    have hk : ¬ 64 ≤ 7 * k := by
      intro hle
      have hpow : 2 ^ 64 ≤ 2 ^ (7 * k) := Nat.pow_le_pow_right (by decide) hle
      rcases Nat.eq_zero_or_pos value with h0 | hpos
      · rw [hzero h0] at hle
        omega
      · have := Nat.mul_le_mul hpos hpow
        omega
    have htop : 7 * k = 63 → value ≤ 1 := by
      intro h63
      rw [h63] at hval
      omega
    rw [write_uvarint]
    split
    · rename_i hsmall
      have hbyte : (UInt8.ofNat value).toNat = value := by
        rw [UInt8.toNat_ofNat']
        omega
      have hmod : value % 128 = value := Nat.mod_eq_of_lt hsmall
      refine ⟨fun rest => ?_, fun p hp hne => ?_⟩
      · rw [List.singleton_append, read_uvarint_from, hbyte, hmod,
          if_neg (by intro h; have := htop; omega), or_shiftLeft hres, if_pos hsmall]
      · rcases List.prefix_cons_iff.mp hp with h | ⟨t, h, ht⟩
        · rw [h, read_uvarint_from]
        · exact absurd (by rw [h, List.prefix_nil.mp ht]) hne
    · rename_i hbig
      have hbyte : (UInt8.ofNat (value % 128 + 128)).toNat = value % 128 + 128 := by
        rw [UInt8.toNat_ofNat']
        omega
      have hlow : (value % 128 + 128) % 128 = value % 128 := by omega
      have hpow : 2 ^ (7 * (k + 1)) = 128 * 2 ^ (7 * k) := by
        rw [show 7 * (k + 1) = 7 * k + 7 by omega, Nat.pow_add]
        omega
      have hsplit : value % 128 * 2 ^ (7 * k) + value / 128 * 2 ^ (7 * (k + 1)) =
          value * 2 ^ (7 * k) := by
        rw [hpow, ← Nat.mul_assoc, ← Nat.add_mul]
        congr 1
        omega
      have hnext : result + value % 128 * 2 ^ (7 * k) < 2 ^ (7 * (k + 1)) := by
        have h1 : value % 128 * 2 ^ (7 * k) ≤ 127 * 2 ^ (7 * k) :=
          Nat.mul_le_mul_right _ (by omega)
        omega
      have hrest := ih (value / 128) (by omega) (result + value % 128 * 2 ^ (7 * k)) (k + 1)
        hnext (by omega) (by omega)
      have hstep : ∀ tail, read_uvarint_from result (7 * k)
          (UInt8.ofNat (value % 128 + 128) :: tail) =
          read_uvarint_from (result + value % 128 * 2 ^ (7 * k)) (7 * (k + 1)) tail := by
        intro tail
        rw [read_uvarint_from, hbyte, hlow, if_neg (by intro h; have := htop; omega),
          or_shiftLeft hres, if_neg (by omega)]
        rfl
      refine ⟨fun rest => ?_, fun p hp hne => ?_⟩
      · rw [List.cons_append, hstep, hrest.1, Nat.add_assoc, hsplit]
      · rcases List.prefix_cons_iff.mp hp with h | ⟨t, h, ht⟩
        · rw [h, read_uvarint_from]
        · rw [h, hstep]
          exact hrest.2 t ht fun heq => hne (by rw [h, heq])

theorem read_uvarint_write {value : Nat} (h : value < 2 ^ 64) :
    Reads read_uvarint (write_uvarint value) value := by
  obtain ⟨hback, hshort⟩ := read_uvarint_from_write value 0 0 (by decide)
    (by simpa using h) (fun _ => rfl)
  refine ⟨fun rest => ?_, fun p hp hne => ⟨_, hshort p hp hne⟩⟩
  have := hback rest
  simpa [read_uvarint] using this

/-- What is left after a value is a tail of what was there. -/
theorem read_uvarint_from_length {bytes rest : Bytes} {v : Nat} :
    ∀ {result shift : Nat}, read_uvarint_from result shift bytes = .ok (v, rest) →
      rest.length ≤ bytes.length := by
  induction bytes with
  | nil => exact fun h => nomatch h
  | cons byte bytes ih =>
    intro result shift h
    rw [read_uvarint_from] at h
    split at h
    · cases h
    · dsimp only at h
      split at h
      · cases h
        simp
      · have := ih h
        simp
        omega

end horndb.storage
