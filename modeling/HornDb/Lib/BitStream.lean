-- A stream of bits in 64-bit words, lowest bit first: fields of a fixed width are or-ed in and
-- read back across the border of two words.
import Mathlib

namespace HornDb.Lib.BitStream

/-- The bit at a place of the stream. -/
def bit (words : List (BitVec 64)) (k : Nat) : Bool := (words.getD (k / 64) 0).getLsbD (k % 64)

/-- Or a field of `bits` bits in at bit `off` of word `w`. -/
def write (words : List (BitVec 64)) (w off bits : Nat) (delta : BitVec 64) : List (BitVec 64) :=
  let words := words.modify w (· ||| delta <<< off)
  if off + bits > 64 then words.modify (w + 1) (· ||| delta >>> (64 - off)) else words

def mask (bits : Nat) : BitVec 64 := if bits = 64 then .allOnes 64 else (1#64 <<< bits) - 1

/-- The field of `bits` bits at bit `off` of word `w`. -/
def read (words : List (BitVec 64)) (w off bits : Nat) : BitVec 64 :=
  let v := words.getD w 0 >>> off
  let v := if off + bits > 64 then v ||| words.getD (w + 1) 0 <<< (64 - off) else v
  v &&& mask bits

/-- The stream goes on as it was, behind its end. -/
structure Extends (words words' : List (BitVec 64)) : Prop where
  length_le : words.length ≤ words'.length
  same : ∀ k < 64 * words.length, bit words' k = bit words k

section Words

variable {words words' : List (BitVec 64)} {w off bits : Nat} {delta : BitVec 64}

@[simp]
theorem length_write : (write words w off bits delta).length = words.length := by
  unfold write
  dsimp only
  split <;> simp

theorem getLsbD_mask {b : Nat} (hbits : bits ≤ 64) : (mask bits).getLsbD b = decide (b < bits) := by
  unfold mask
  split
  · rename_i h
    rw [h, BitVec.getLsbD_allOnes]
  · have hlt : 2 ^ bits < 2 ^ 64 := Nat.pow_lt_pow_right (by omega) (by omega)
    have hone : (1#64 <<< bits).toNat = 2 ^ bits := by
      rw [BitVec.toNat_shiftLeft, BitVec.toNat_ofNat, Nat.shiftLeft_eq]
      omega
    have hsub : ((1#64 <<< bits) - 1).toNat = 2 ^ bits - 1 := by
      have hpos : 0 < 2 ^ bits := Nat.two_pow_pos bits
      rw [BitVec.toNat_sub_of_le, hone]
      · rfl
      · rw [BitVec.le_def, hone]
        exact hpos
    rw [← BitVec.testBit_toNat, hsub, Nat.testBit_two_pow_sub_one]

theorem getD_modify (l : List (BitVec 64)) (i j : Nat) (f : BitVec 64 → BitVec 64)
    (hi : i < l.length) : (l.modify i f).getD j 0 = if i = j then f (l.getD j 0) else l.getD j 0 := by
  rw [List.getD_eq_getElem?_getD, List.getD_eq_getElem?_getD, List.getElem?_modify]
  split
  · rename_i h
    subst h
    rw [List.getElem?_eq_getElem hi]
    rfl
  · cases l[j]? <;> rfl

/-- A field that is written stands at its place, over what was there. -/
theorem bit_write (hoff : off < 64) (hbits : bits ≤ 64)
    (hdelta : ∀ b, bits ≤ b → delta.getLsbD b = false)
    (hroom : 64 * w + off + bits ≤ 64 * words.length) (hpos : 0 < bits) (k : Nat) :
    bit (write words w off bits delta) k =
      (bit words k || (decide (64 * w + off ≤ k) && delta.getLsbD (k - (64 * w + off)))) := by
  have hw : w < words.length := by omega
  unfold bit write
  dsimp only
  by_cases hlow : k / 64 = w
  · -- the place lies in the first word of the field
    have hfirst : ((words.modify w (· ||| delta <<< off)).getD (k / 64) 0).getLsbD (k % 64) =
        ((words.getD (k / 64) 0).getLsbD (k % 64) ||
          (decide (64 * w + off ≤ k) && delta.getLsbD (k - (64 * w + off)))) := by
      rw [getD_modify _ _ _ _ hw, if_pos hlow.symm, BitVec.getLsbD_or, BitVec.getLsbD_shiftLeft]
      by_cases hk : k % 64 < off
      · have hbelow : ¬ 64 * w + off ≤ k := by omega
        simp [hk, hbelow]
      · have habove : 64 * w + off ≤ k := by omega
        have hsame : k % 64 - off = k - (64 * w + off) := by omega
        simp [hk, habove, hsame, Nat.mod_lt]
    split
    · rw [getD_modify _ _ _ _ (by rw [List.length_modify]; omega), if_neg (by omega), hfirst]
    · exact hfirst
  · have hother : (words.modify w (· ||| delta <<< off)).getD (k / 64) 0 = words.getD (k / 64) 0 := by
      rw [getD_modify _ _ _ _ hw, if_neg (Ne.symm hlow)]
    by_cases hhigh : k / 64 = w + 1
    · -- the place lies in the second word
      have habove : 64 * w + off ≤ k := by omega
      have hsame : 64 - off + k % 64 = k - (64 * w + off) := by omega
      split
      · rw [getD_modify _ _ _ _ (by rw [List.length_modify]; omega), if_pos hhigh.symm, hother,
          BitVec.getLsbD_or, BitVec.getLsbD_ushiftRight, hsame]
        simp [habove]
      · rw [hother, hdelta _ (by omega)]
        simp
    · have hnone : (decide (64 * w + off ≤ k) && delta.getLsbD (k - (64 * w + off))) = false := by
        rw [Bool.and_eq_false_iff, decide_eq_false_iff_not]
        by_cases habove : 64 * w + off ≤ k
        · exact Or.inr (hdelta _ (by omega))
        · exact Or.inl habove
      rw [hnone, Bool.or_false]
      split
      · rw [getD_modify _ _ _ _ (by rw [List.length_modify]; omega), if_neg (Ne.symm hhigh), hother]
      · rw [hother]

/-- A field is read bit by bit. -/
theorem getLsbD_read (hoff : off < 64) (hbits : bits ≤ 64) (b : Nat) :
    (read words w off bits).getLsbD b = (decide (b < bits) && bit words (64 * w + off + b)) := by
  unfold read bit
  dsimp only
  rw [BitVec.getLsbD_and, getLsbD_mask hbits, Bool.and_comm]
  by_cases hb : b < bits
  · rw [decide_eq_true hb, Bool.true_and, Bool.true_and]
    by_cases hlow : off + b < 64
    · have hword : (64 * w + off + b) / 64 = w := by omega
      have hplace : (64 * w + off + b) % 64 = off + b := by omega
      rw [hword, hplace]
      split
      · rw [BitVec.getLsbD_or, BitVec.getLsbD_ushiftRight, BitVec.getLsbD_shiftLeft]
        have hnot : b < 64 - off := by omega
        simp [hnot]
      · rw [BitVec.getLsbD_ushiftRight]
    · have hword : (64 * w + off + b) / 64 = w + 1 := by omega
      have hplace : (64 * w + off + b) % 64 = b - (64 - off) := by omega
      have hout : (words.getD w 0).getLsbD (off + b) = false := BitVec.getLsbD_of_ge _ _ (by omega)
      have hnot : ¬ b < 64 - off := by omega
      have hin : b < 64 := by omega
      rw [hword, hplace, if_pos (by omega), BitVec.getLsbD_or, BitVec.getLsbD_ushiftRight,
        BitVec.getLsbD_shiftLeft, hout]
      simp [hnot, hin]
  · rw [decide_eq_false hb, Bool.false_and, Bool.false_and]

theorem read_eq_of_bits (hoff : off < 64) (hbits : bits ≤ 64)
    (hdelta : ∀ b, bits ≤ b → delta.getLsbD b = false)
    (hstands : ∀ b < bits, bit words (64 * w + off + b) = delta.getLsbD b) :
    read words w off bits = delta := by
  refine BitVec.eq_of_getLsbD_eq fun b _ => ?_
  rw [getLsbD_read hoff hbits]
  by_cases hb : b < bits
  · rw [decide_eq_true hb, Bool.true_and, hstands b hb]
  · rw [decide_eq_false hb, Bool.false_and, hdelta b (by omega)]

theorem Extends.refl (words : List (BitVec 64)) : Extends words words :=
  ⟨le_refl _, fun _ _ => rfl⟩

theorem Extends.append (words more : List (BitVec 64)) : Extends words (words ++ more) := by
  refine ⟨by simp, fun k hk => ?_⟩
  unfold bit
  rw [List.getD_append _ _ _ _ (by omega)]

/-- A field is read alike when the stream goes on behind it. -/
theorem Extends.read_eq (h : Extends words words') (hoff : off < 64) (hbits : bits ≤ 64)
    (hroom : 64 * w + off + bits ≤ 64 * words.length) :
    read words' w off bits = read words w off bits := by
  refine BitVec.eq_of_getLsbD_eq fun b _ => ?_
  rw [getLsbD_read hoff hbits, getLsbD_read hoff hbits]
  by_cases hb : b < bits
  · rw [h.same _ (by omega)]
  · rw [decide_eq_false hb, Bool.false_and, Bool.false_and]

end Words

/-! ## Fields side by side -/

/-- Or the fields in, side by side from word `start` on. -/
def write_all (words : List (BitVec 64)) (start bits : Nat) (deltas : List (BitVec 64)) :
    List (BitVec 64) :=
  deltas.zipIdx.foldl (fun words (delta, i) =>
    write words (start + i * bits / 64) (i * bits % 64) bits delta) words

/-- The first `m` fields stand side by side from word `start` on, and nothing behind them. -/
def Standing (words : List (BitVec 64)) (start bits : Nat) (deltas : List (BitVec 64)) (m : Nat) :
    Prop :=
  ∀ j b, b < bits → bit words (64 * start + j * bits + b) =
    (decide (j < m) && (deltas.getD j 0).getLsbD b)

section Fields

variable {start bits : Nat} {deltas : List (BitVec 64)} {words : List (BitVec 64)}

/-- One more field leaves those in front, and what is in front of the start. -/
theorem Standing.write {m : Nat} (h : Standing words start bits deltas m) (hpos : 0 < bits)
    (hbits : bits ≤ 64) (hdelta : ∀ b, bits ≤ b → (deltas.getD m 0).getLsbD b = false)
    (hroom : 64 * start + (m + 1) * bits ≤ 64 * words.length) :
    let out := BitStream.write words (start + m * bits / 64) (m * bits % 64) bits (deltas.getD m 0)
    Standing out start bits deltas (m + 1) ∧ ∀ k < 64 * start, bit out k = bit words k := by
  have hplace : 64 * (start + m * bits / 64) + m * bits % 64 = 64 * start + m * bits := by omega
  have hnext : (m + 1) * bits = m * bits + bits := Nat.succ_mul m bits
  have hbit : ∀ k, bit (BitStream.write words (start + m * bits / 64) (m * bits % 64) bits
      (deltas.getD m 0)) k = (bit words k || (decide (64 * start + m * bits ≤ k) &&
        (deltas.getD m 0).getLsbD (k - (64 * start + m * bits)))) := by
    rw [← hplace]
    exact bit_write (Nat.mod_lt (m * bits) (by omega)) hbits hdelta (by omega) hpos
  refine ⟨fun j b hb => ?_, fun k hk => ?_⟩
  · rw [hbit, h j b hb]
    rcases Nat.lt_trichotomy j m with hj | hj | hj
    · have hle : (j + 1) * bits ≤ m * bits := Nat.mul_le_mul_right bits hj
      rw [Nat.succ_mul] at hle
      have hfront : ¬ 64 * start + m * bits ≤ 64 * start + j * bits + b := by omega
      simp [hj, Nat.lt_succ_of_lt hj, hfront]
    · subst hj
      have hsame : 64 * start + j * bits + b - (64 * start + j * bits) = b := by omega
      simp [hsame]
    · have hle : (m + 1) * bits ≤ j * bits := Nat.mul_le_mul_right bits hj
      have hzero := hdelta (64 * start + j * bits + b - (64 * start + m * bits)) (by omega)
      rw [hzero]
      have h1 : ¬ j < m := by omega
      have h2 : ¬ j < m + 1 := by omega
      simp [h1, h2]
  · rw [hbit]
    have hfront : ¬ 64 * start + m * bits ≤ k := by omega
    simp [hfront]

theorem Standing.write_rest (hpos : 0 < bits) (hbits : bits ≤ 64)
    (hdelta : ∀ i b, bits ≤ b → (deltas.getD i 0).getLsbD b = false)
    (hroom : 64 * start + deltas.length * bits ≤ 64 * words.length) (rest : List (BitVec 64))
    {m : Nat} (hrest : deltas.drop m = rest) (hm : m ≤ deltas.length)
    (h : Standing words start bits deltas m) :
    let out := (rest.zipIdx m).foldl (fun words (delta, i) =>
      BitStream.write words (start + i * bits / 64) (i * bits % 64) bits delta) words
    Standing out start bits deltas deltas.length ∧ out.length = words.length ∧
      ∀ k < 64 * start, bit out k = bit words k := by
  induction rest generalizing words m with
  | nil =>
    have hlen : m = deltas.length := Nat.le_antisymm hm (List.drop_eq_nil_iff.mp hrest)
    rw [← hlen]
    exact ⟨h, rfl, fun _ _ => rfl⟩
  | cons delta rest ih =>
    have hlt : m < deltas.length := by
      by_contra hle
      rw [List.drop_eq_nil_of_le (by omega)] at hrest
      cases hrest
    rw [List.drop_eq_getElem_cons hlt, List.cons.injEq] at hrest
    have hhead : deltas.getD m 0 = delta := by
      rw [List.getD_eq_getElem _ _ hlt, hrest.1]
    have hle : (m + 1) * bits ≤ deltas.length * bits := Nat.mul_le_mul_right bits hlt
    obtain ⟨hnext, hsame⟩ := h.write hpos hbits (hdelta m) (by omega)
    rw [hhead] at hnext hsame
    rw [List.zipIdx_cons, List.foldl_cons]
    obtain ⟨h1, h2, h3⟩ := ih (by rw [length_write]; exact hroom) hrest.2 hlt hnext
    rw [length_write] at h2
    exact ⟨h1, h2, fun k hk => by rw [h3 k hk, hsame k hk]⟩

/-- Fields written side by side into empty words are read back, and what is in front of them
stays. -/
theorem write_all_spec (hpos : 0 < bits) (hbits : bits ≤ 64)
    (hdelta : ∀ i b, bits ≤ b → (deltas.getD i 0).getLsbD b = false)
    (hroom : 64 * start + deltas.length * bits ≤ 64 * words.length)
    (hempty : ∀ k, 64 * start ≤ k → bit words k = false) :
    let out := write_all words start bits deltas
    out.length = words.length ∧ (∀ k < 64 * start, bit out k = bit words k) ∧
      ∀ i < deltas.length,
        read out (start + i * bits / 64) (i * bits % 64) bits = deltas.getD i 0 := by
  have hnone : Standing words start bits deltas 0 := by
    intro j b _
    rw [hempty _ (by omega)]
    simp
  obtain ⟨h1, h2, h3⟩ := hnone.write_rest hpos hbits hdelta hroom deltas (List.drop_zero)
    (Nat.zero_le _)
  refine ⟨h2, h3, fun i hi => read_eq_of_bits (Nat.mod_lt _ (by omega)) hbits (hdelta i) ?_⟩
  intro b hb
  have hplace : 64 * (start + i * bits / 64) + i * bits % 64 + b = 64 * start + i * bits + b := by
    omega
  rw [hplace]
  refine (h1 i b hb).trans ?_
  rw [decide_eq_true hi, Bool.true_and]

end Fields

end HornDb.Lib.BitStream
