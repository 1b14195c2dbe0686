-- The kernels over machine words: a read outside a slice, an index that does not fit a word and a
-- loop that does not end are all no answer. The lower bound kernels answer with the partition
-- point, for every slice in order.
import HornDb.Lib.Checked
import HornDb.SimdLowerBound

open HornDb.Lib HornDb.Lib.Checked

namespace horndb.simd

/-! ## Slices -/

/-- A slice of words. The bytes of a slice fit a signed word. -/
structure Slice where
  items : List UInt64
  fits : items.length * 8 < 2 ^ 63

namespace Slice

def len (s : Slice) : Nat := s.items.length

def get (s : Slice) (i : Nat) : Option UInt64 := s.items[i]?

/-- The words from `pos` on. -/
def from_pos (s : Slice) (pos : Nat) : Option Slice :=
  if pos ≤ s.len then
    some ⟨s.items.drop pos, by
      have := s.fits
      rw [List.length_drop]
      omega⟩
  else none

/-- A load of some lanes. -/
def load (s : Slice) (w i : Nat) : Option (List UInt64) := do
  segment s.items i (← add i w)

theorem len_lt (s : Slice) : s.len < 2 ^ 60 := by
  have := s.fits
  unfold len
  omega

theorem get_eq {s : Slice} {i : Nat} (h : i < s.len) :
    ∃ x, s.get i = some x ∧ s.items[i]? = some x :=
  ⟨s.items[i], List.getElem?_eq_getElem h, List.getElem?_eq_getElem h⟩

theorem load_eq {s : Slice} {w i : Nat} (h : i + w ≤ s.len) :
    s.load w i = some (slice s.items i (i + w)) := by
  have hlen := s.len_lt
  rw [load, add_eq (by omega), Option.bind_eq_bind, Option.bind_some]
  exact segment_eq (Nat.le_add_right i w) h

theorem from_pos_eq {s : Slice} {pos : Nat} (h : pos ≤ s.len) :
    ∃ t, s.from_pos pos = some t ∧ t.items = s.items.drop pos := by
  unfold from_pos
  rw [if_pos h]
  exact ⟨_, rfl, rfl⟩

end Slice

/-! ## Lanes -/

/-- A lane of a mask: all of its bits, or none. -/
def lane_mask (b : Bool) : UInt64 := if b then 0xFFFFFFFFFFFFFFFF else 0

def set1 (w : Nat) (v : UInt64) : List UInt64 := List.replicate w v

def cmpeq (x y : List UInt64) : List UInt64 := List.zipWith (fun a b => lane_mask (a == b)) x y

/-- The signed comparison of the lanes. -/
def cmpgt (x y : List UInt64) : List UInt64 :=
  List.zipWith (fun a b => lane_mask (b.toInt64 < a.toInt64)) x y

/-- The unsigned comparison of the lanes. -/
def vcltq (x y : List UInt64) : List UInt64 := List.zipWith (fun a b => lane_mask (a < b)) x y

def lanes_or (x y : List UInt64) : List UInt64 := List.zipWith (· ||| ·) x y

def lanes_xor (x y : List UInt64) : List UInt64 := List.zipWith (· ^^^ ·) x y

def get_lane (k : Nat) (x : List UInt64) : UInt64 := x.getD k 0

/-- A number with the bits `bits`, the lowest one in front. -/
def mask_of : List Bool → Nat
  | [] => 0
  | b :: bits => b.toNat + 2 * mask_of bits

/-- The highest bits of the lanes. -/
def movemask (x : List UInt64) : Nat := mask_of (x.map fun lane => lane ≥ 0x8000000000000000)

/-- The ones below the lowest zero, in a word of `w` bits. -/
def trailing_ones : Nat → Nat → Nat
  | 0, _ => 0
  | w + 1, mask => if mask % 2 = 1 then 1 + trailing_ones w (mask / 2) else 0

/-- The ones in a word of `w` bits. -/
def count_ones : Nat → Nat → Nat
  | 0, _ => 0
  | w + 1, mask => mask % 2 + count_ones w (mask / 2)

def MIN : UInt64 := 0x8000000000000000

def MAX : UInt64 := 0xFFFFFFFFFFFFFFFF

theorem lane_mask_zero (b : Bool) : (lane_mask b = 0) ↔ b = false := by
  cases b <;> decide

theorem lane_mask_high (b : Bool) : decide (lane_mask b ≥ 0x8000000000000000) = b := by
  cases b <;> decide

theorem lane_mask_or (a b : Bool) : lane_mask a ||| lane_mask b = lane_mask (a || b) := by
  cases a <;> cases b <;> decide

/-- Every lane against one word. -/
theorem zipWith_set1 {α : Type} (f : UInt64 → UInt64 → α) (x : List UInt64) (v : UInt64) :
    List.zipWith f x (set1 x.length v) = x.map (f · v) := by
  induction x with
  | nil => rfl
  | cons a x ih => exact congrArg (f a v :: ·) ih

theorem movemask_map (p : UInt64 → Bool) (x : List UInt64) :
    movemask (x.map fun a => lane_mask (p a)) = mask_of (x.map p) := by
  rw [movemask, List.map_map]
  congr 1
  exact List.map_congr_left fun a _ => lane_mask_high (p a)

theorem mask_of_all (bits : List Bool) : mask_of bits = 2 ^ bits.length - 1 ↔ bits.all id := by
  have hlt (bits : List Bool) : mask_of bits < 2 ^ bits.length := by
    induction bits with
    | nil => decide
    | cons b bits ih =>
      have hb := b.toNat_le
      rw [mask_of, List.length_cons, Nat.pow_succ]
      omega
  induction bits with
  | nil => decide
  | cons b bits ih =>
    have hrest := hlt bits
    rw [mask_of, List.length_cons, Nat.pow_succ, List.all_cons, Bool.and_eq_true]
    cases b with
    | false =>
      rw [Bool.toNat_false]
      simp only [id, Bool.false_eq_true, false_and, iff_false]
      omega
    | true =>
      rw [Bool.toNat_true]
      simp only [id, true_and]
      refine Iff.trans ?_ ih
      omega

theorem trailing_ones_mask (bits : List Bool) {w : Nat} (h : bits.length ≤ w) :
    trailing_ones w (mask_of bits) = (bits.takeWhile id).length := by
  induction bits generalizing w with
  | nil =>
    cases w <;> rfl
  | cons b bits ih =>
    obtain ⟨w, rfl⟩ : ∃ n, w = n + 1 := Nat.exists_eq_succ_of_ne_zero (by
      rw [List.length_cons] at h
      omega)
    rw [List.length_cons, Nat.add_le_add_iff_right] at h
    rw [trailing_ones, mask_of]
    cases b with
    | false =>
      rw [Bool.toNat_false, if_neg (by omega)]
      rfl
    | true =>
      have hhalf : (1 + 2 * mask_of bits) / 2 = mask_of bits := by omega
      rw [Bool.toNat_true, if_pos (by omega), hhalf, ih h, List.takeWhile_cons_of_pos rfl,
        List.length_cons, Nat.add_comm]

theorem mask_of_cons_half (b : Bool) (bits : List Bool) :
    (b.toNat + 2 * mask_of bits) / 2 = mask_of bits ∧
      (b.toNat + 2 * mask_of bits) % 2 = b.toNat := by
  have hb := b.toNat_le
  omega

theorem count_ones_mask (bits : List Bool) :
    count_ones bits.length (mask_of bits) = bits.countP id := by
  induction bits with
  | nil => rfl
  | cons b bits ih =>
    obtain ⟨hhalf, hbit⟩ := mask_of_cons_half b bits
    rw [List.length_cons, count_ones, mask_of, hhalf, hbit, ih, List.countP_cons]
    cases b
    · exact Nat.zero_add _
    · exact Nat.add_comm _ _

theorem testBit_mask (bits : List Bool) (k : Nat) :
    (mask_of bits).testBit k = bits.getD k false := by
  induction bits generalizing k with
  | nil => exact Nat.zero_testBit k
  | cons b bits ih =>
    obtain ⟨hhalf, hbit⟩ := mask_of_cons_half b bits
    rw [mask_of]
    cases k with
    | zero =>
      rw [Nat.testBit_zero, hbit]
      cases b <;> rfl
    | succ k => rw [Nat.testBit_succ, hhalf, ih, List.getD_cons_succ]

theorem mask_and_bit (bits : List Bool) (k : Nat) :
    mask_of bits &&& (1 <<< k) ≠ 0 ↔ bits.getD k false = true := by
  rw [Nat.one_shiftLeft, Nat.and_two_pow, testBit_mask]
  cases bits.getD k false with
  | false => simp
  | true => simp

/-- The masks of two tests together are the mask of either. -/
theorem mask_or_map (x : List UInt64) (p q : UInt64 → Bool) :
    mask_of (x.map p) ||| mask_of (x.map q) = mask_of (x.map fun a => p a || q a) := by
  apply Nat.eq_of_testBit_eq
  intro k
  rw [Nat.testBit_or, testBit_mask, testBit_mask, testBit_mask]
  by_cases hk : k < x.length
  · simp [List.getD_eq_getElem?_getD, hk]
  · simp [List.getD_eq_getElem?_getD, List.getElem?_eq_none (Nat.le_of_not_lt hk)]

/-- The signed comparison of biased words is the unsigned one. -/
theorem biased_lt (x v : UInt64) :
    decide ((x ^^^ MIN).toInt64 < (v ^^^ MIN).toInt64) = decide (x < v) := by
  have hbits (x : UInt64) :
      (x ^^^ MIN).toInt64.toBitVec = BitVec.ofNat 64 x.toNat ^^^ .intMin 64 := by
    rw [UInt64.toBitVec_toInt64, UInt64.toBitVec_xor]
    have hx : BitVec.ofNat 64 x.toNat = x.toBitVec := by
      apply BitVec.eq_of_toNat_eq
      rw [BitVec.toNat_ofNat, UInt64.toNat_toBitVec]
      exact Nat.mod_eq_of_lt x.toNat_lt
    rw [hx]
    rfl
  have hslt := biased_slt x.toNat_lt v.toNat_lt
  rw [← hbits, ← hbits] at hslt
  have hint : ((x ^^^ MIN).toInt64 < (v ^^^ MIN).toInt64) ↔
      (x ^^^ MIN).toInt64.toBitVec.slt (v ^^^ MIN).toInt64.toBitVec = true :=
    Int64.lt_iff_toBitVec_slt
  rw [decide_eq_decide, hint, hslt, decide_eq_true_eq]
  exact UInt64.lt_iff_toNat_lt.symm

/-! ## The lower bound -/

namespace words

/-- Step out by a doubling stride, as long as the word there is below. -/
def gallop_step (h : Slice) (value : UInt64) : Nat × Nat → Option ((Nat × Nat) ⊕ (Nat × Nat))
  | (lo, step) => do
    let next ← add lo step
    if next < h.len then
      if (← h.get next) < value then some (.inl (next, ← mul step 2)) else some (.inr (lo, step))
    else some (.inr (lo, step))

/-- A window that holds the boundary. -/
def window (h : Slice) (value : UInt64) : Option (Nat × Nat) := do
  let (lo, step) ← loop (gallop_step h value) (h.len + 1) (0, 1)
  some (lo, min (← add lo step) h.len)

/-- Two lanes of the window: the answer, or the index of the scalar tail. -/
def neon_step (h : Slice) (value : UInt64) (hi i : Nat) : Option (Nat ⊕ (Nat ⊕ Nat)) := do
  if (← add i 2) ≤ hi then
    let chunk ← h.load 2 i
    let lt := vcltq chunk (set1 2 value)
    if get_lane 0 lt = 0 then some (.inr (.inl i))
    else if get_lane 1 lt = 0 then some (.inr (.inl (← add i 1)))
    else some (.inl (← add i 2))
  else some (.inr (.inr i))

/-- Four lanes of the window. The comparison of the lanes is signed, so both sides are biased. -/
def avx2_step (h : Slice) (value : UInt64) (hi i : Nat) : Option (Nat ⊕ (Nat ⊕ Nat)) := do
  if (← add i 4) ≤ hi then
    let chunk ← h.load 4 i
    let bias := set1 4 MIN
    let lt := cmpgt (lanes_xor (set1 4 value) bias) (lanes_xor chunk bias)
    let mask := movemask lt
    if mask ≠ 0b1111 then some (.inr (.inl (← add i (trailing_ones 32 mask))))
    else some (.inl (← add i 4))
  else some (.inr (.inr i))

def scan_tail_step (h : Slice) (value : UInt64) (hi i : Nat) : Option (Nat ⊕ Nat) := do
  if i < hi then
    if (← h.get i) < value then some (.inl (← add i 1)) else some (.inr i)
  else some (.inr i)

/-- Gallop to a window, and scan it some lanes at a time. -/
def gallop_scan (step : Slice → UInt64 → Nat → Nat → Option (Nat ⊕ (Nat ⊕ Nat))) (h : Slice)
    (value : UInt64) : Option Nat := do
  if h.len = 0 then some 0
  else
    let (lo, hi) ← window h value
    match ← loop (step h value hi) (h.len + 1) lo with
    | .inl i => some i
    | .inr i => loop (scan_tail_step h value hi) (h.len + 1) i

def lower_bound_neon : Slice → UInt64 → Option Nat := gallop_scan neon_step

def lower_bound_avx2 : Slice → UInt64 → Option Nat := gallop_scan avx2_step

def lower_bound_scalar (h : Slice) (value : UInt64) : Nat := partition_point (· < value) h.items

/-- The kernel that the dispatch picked. -/
def lower_bound (k : Kernel) (h : Slice) (value : UInt64) : Option Nat :=
  match k with
  | .scalar => some (lower_bound_scalar h value)
  | .avx2 => lower_bound_avx2 h value
  | .neon => lower_bound_neon h value

example : lower_bound .avx2 ⟨[0, 1, 2, MAX, MAX], by decide⟩ MAX = some 3 := by decide

/-! ## The index of the lower bound -/

/-- A slice in order. -/
structure SortedSlice extends Slice where
  ordered : items.Pairwise (· ≤ ·)

theorem SortedSlice.le_of (s : SortedSlice) {i j : Nat} {x y : UInt64} (hij : i ≤ j)
    (hx : s.items[i]? = some x) (hy : s.items[j]? = some y) : x ≤ y := by
  obtain ⟨hi, rfl⟩ := List.getElem?_eq_some_iff.mp hx
  obtain ⟨hj, rfl⟩ := List.getElem?_eq_some_iff.mp hy
  rcases Nat.eq_or_lt_of_le hij with rfl | hlt
  · exact UInt64.le_refl _
  · exact List.pairwise_iff_getElem.mp s.ordered i j hi hj hlt

/-- In front of `r` all words are below. -/
def Below (s : Slice) (value : UInt64) (r : Nat) : Prop :=
  ∀ i x, i < r → s.items[i]? = some x → x < value

/-- The word at `r` is not below. -/
def Stops (s : Slice) (value : UInt64) (r : Nat) : Prop := ∀ x, s.items[r]? = some x → ¬x < value

structure IsBound (s : Slice) (value : UInt64) (r : Nat) : Prop where
  le_len : r ≤ s.len
  front : Below s value r
  stops : Stops s value r

theorem IsBound.eq_partition {s : Slice} {value : UInt64} {r : Nat} (h : IsBound s value r) :
    r = partition_point (· < value) s.items := by
  obtain ⟨hle, hfront, hstops⟩ := h
  have hall : ∀ x ∈ s.items.take r, decide (x < value) = true := by
    intro x hx
    obtain ⟨i, hi, rfl⟩ := List.mem_take_iff_getElem.mp hx
    rw [decide_eq_true_eq]
    exact hfront i _ (by omega) (List.getElem?_eq_getElem (by omega))
  have hdrop : (s.items.drop r).takeWhile (· < value) = [] := by
    rw [List.takeWhile_eq_nil_iff]
    intro hlen hlt
    rw [List.get_eq_getElem, List.getElem_drop, decide_eq_true_eq] at hlt
    rw [List.length_drop] at hlen
    exact hstops _ (List.getElem?_eq_getElem (by omega)) hlt
  rw [partition_point, ← List.take_append_drop r s.items,
    List.takeWhile_append_of_pos hall, hdrop, List.append_nil, List.length_take]
  exact (Nat.min_eq_left hle).symm

theorem below_of_le {s : SortedSlice} {value : UInt64} {r : Nat} {x : UInt64}
    (hx : s.items[r]? = some x) (hlt : x < value) : Below s.toSlice value (r + 1) := by
  intro i y hi hy
  exact UInt64.lt_of_le_of_lt (s.le_of (Nat.le_of_lt_succ hi) hy hx) hlt

theorem Below.succ {s : Slice} {value : UInt64} {r : Nat} (h : Below s value r) {x : UInt64}
    (hx : s.items[r]? = some x) (hlt : x < value) : Below s value (r + 1) := by
  intro i y hi hy
  rcases Nat.lt_succ_iff_lt_or_eq.mp hi with hi | rfl
  · exact h i y hi hy
  · rw [hx] at hy
    cases hy
    exact hlt

/-- A window with all below it in front, and none of it behind. -/
structure IsWindow (s : Slice) (value : UInt64) (lo hi : Nat) : Prop where
  le : lo ≤ hi
  le_len : hi ≤ s.len
  front : Below s value lo
  stops : Stops s value hi

/-- The left end of the gallop and its stride. -/
structure Galloped (s : Slice) (value : UInt64) (p : Nat × Nat) : Prop where
  lo_lt : p.1 < s.len
  step_eq : p.2 = p.1 + 1
  front : Below s value p.1

theorem gallop_steps {s : SortedSlice} {value : UInt64} (p : Nat × Nat)
    (h : Galloped s.toSlice value p) :
    Steps (Galloped s.toSlice value)
      (fun p => Galloped s.toSlice value p ∧ Stops s.toSlice value (p.1 + p.2))
      (fun p => s.len - p.1) (gallop_step s.toSlice value p) p := by
  obtain ⟨lo, step⟩ := p
  have hlen := s.toSlice.len_lt
  have hlo : lo < s.len := h.lo_lt
  have hstep : step = lo + 1 := h.step_eq
  unfold gallop_step
  dsimp only
  rw [add_eq (by omega), Option.bind_eq_bind, Option.bind_some]
  split
  · rename_i hnext
    obtain ⟨x, hx, hitem⟩ := Slice.get_eq hnext
    rw [hx]
    simp only [Option.bind_eq_bind, Option.bind_some]
    split
    · rename_i hlt
      refine Or.inl ⟨(lo + step, step * 2), ?_, ⟨hnext, ?_, ?_⟩, ?_⟩
      · rw [mul_eq (by omega)]
        rfl
      · show step * 2 = lo + step + 1
        omega
      · exact fun i y hi hy => below_of_le hitem hlt i y (Nat.lt_succ_of_lt hi) hy
      · show s.len - (lo + step) < s.len - lo
        omega
    · rename_i hge
      refine Or.inr ⟨(lo, step), rfl, h, fun y hy => ?_⟩
      rw [hitem] at hy
      cases hy
      exact hge
  · rename_i hnext
    refine Or.inr ⟨(lo, step), rfl, h, fun y hy => ?_⟩
    obtain ⟨hi, -⟩ := List.getElem?_eq_some_iff.mp hy
    exact absurd hi hnext

theorem window_some (s : SortedSlice) (value : UInt64) (hn : s.len ≠ 0) :
    ∃ lo hi, window s.toSlice value = some (lo, hi) ∧ IsWindow s.toSlice value lo hi := by
  have hlen := s.toSlice.len_lt
  have hstart : Galloped s.toSlice value (0, 1) :=
    ⟨Nat.pos_of_ne_zero hn, rfl, fun i y hi _ => absurd hi (Nat.not_lt_zero i)⟩
  obtain ⟨⟨lo, step⟩, hloop, h, hstop⟩ := @loop_some _ _
    (gallop_step s.toSlice value) _ _ _ gallop_steps (s.len + 1) _ hstart
    (Nat.lt_succ_of_le (Nat.sub_le _ _))
  have hlo : lo < s.len := h.lo_lt
  have hstep : step = lo + 1 := h.step_eq
  refine ⟨lo, min (lo + step) s.len, ?_, by omega, Nat.min_le_right _ _, h.front, fun y hy => ?_⟩
  · rw [window, hloop, Option.bind_eq_bind, Option.bind_some]
    dsimp only
    rw [add_eq (by omega)]
    rfl
  · obtain ⟨hi, -⟩ := List.getElem?_eq_some_iff.mp hy
    have hmin : min (lo + step) s.len = lo + step := by
      change _ < s.len at hi
      omega
    rw [hmin] at hy
    exact hstop y hy

/-! ## The scans -/

/-- The answer of the lanes is the index, and the scalar tail starts behind words that are all
below. -/
def Scanned (s : Slice) (value : UInt64) (hi : Nat) : Nat ⊕ Nat → Prop
  | .inl r => IsBound s value r
  | .inr i => i ≤ hi ∧ Below s value i

/-- The words of a block. -/
theorem block_get {s : Slice} {i w j : Nat} (hj : j < w) :
    (slice s.items i (i + w))[j]? = s.items[i + j]? := by
  rw [slice, List.getElem?_drop, List.getElem?_take, if_pos (by omega)]

/-- Words in front of which all are below, and the first of them that is not. -/
theorem isBound_of_block {s : Slice} {value : UInt64} {i w k : Nat} (hw : i + w ≤ s.len)
    (hfront : Below s value i)
    (hk : k = (((slice s.items i (i + w)).map fun x => decide (x < value)).takeWhile id).length)
    (hlt : k < w) : IsBound s value (i + k) := by
  have hpoint : k = partition_point (· < value) (slice s.items i (i + w)) := by
    rw [hk, List.takeWhile_map, List.length_map]
    rfl
  have htake := take_partition_point (decide <| · < value) (slice s.items i (i + w))
  have hdrop := drop_partition_point (decide <| · < value) (slice s.items i (i + w))
  rw [← hpoint] at htake hdrop
  refine ⟨by omega, fun j x hj hx => ?_, fun x hx hlt' => ?_⟩
  · by_cases hji : j < i
    · exact hfront j x hji hx
    · have hmem : x ∈ (slice s.items i (i + w)).take k := by
        refine List.mem_of_getElem? (i := j - i) ?_
        rw [List.getElem?_take, if_pos (by omega), block_get (by omega),
          Nat.add_sub_cancel' (by omega)]
        exact hx
      rw [htake] at hmem
      exact of_decide_eq_true (List.mem_takeWhile_imp (p := fun y => decide (y < value)) hmem)
  · have hhead := List.head?_dropWhile_not (fun y => decide (y < value)) (slice s.items i (i + w))
    rw [← hdrop, List.head?_drop, block_get hlt, hx] at hhead
    simp [hlt'] at hhead

theorem below_of_block {s : Slice} {value : UInt64} {i w : Nat} (hfront : Below s value i)
    (hall : ((slice s.items i (i + w)).map fun x => decide (x < value)).all id) :
    Below s value (i + w) := by
  intro j x hj hx
  by_cases hji : j < i
  · exact hfront j x hji hx
  · rw [List.all_map, List.all_eq_true] at hall
    refine of_decide_eq_true (hall x ?_)
    refine List.mem_of_getElem? (i := j - i) ?_
    rw [block_get (by omega), Nat.add_sub_cancel' (by omega)]
    exact hx

/-- What a step of the lanes has to keep. -/
def LaneSteps (step : Slice → UInt64 → Nat → Nat → Option (Nat ⊕ (Nat ⊕ Nat))) : Prop :=
  ∀ (s : Slice) (value : UInt64) (hi : Nat), hi ≤ s.len → ∀ i, i ≤ hi ∧ Below s value i →
    Steps (fun i => i ≤ hi ∧ Below s value i) (Scanned s value hi) (hi - ·) (step s value hi i) i

theorem neon_steps : LaneSteps neon_step := by
  rintro s value hi hhi i ⟨hle, hfront⟩
  have hlen := s.len_lt
  unfold neon_step
  simp only [add_eq (show i + 2 < 2 ^ 64 by omega), add_eq (show i + 1 < 2 ^ 64 by omega),
    Option.bind_eq_bind, Option.bind_some]
  split
  · rename_i hblock
    have hw : i + 2 ≤ s.len := by omega
    rw [Slice.load_eq hw]
    simp only [Option.bind_some]
    have hsize : (slice s.items i (i + 2)).length = 2 := by
      rw [length_slice hw]
      omega
    obtain ⟨x, y, hxy⟩ := List.length_eq_two.mp hsize
    have hmask : ((slice s.items i (i + 2)).map fun x => decide (x < value)) =
        [decide (x < value), decide (y < value)] := by
      rw [hxy]
      rfl
    have hlanes : vcltq (slice s.items i (i + 2)) (set1 2 value) =
        [lane_mask (x < value), lane_mask (y < value)] := by
      rw [hxy]
      rfl
    simp only [hlanes, get_lane, List.getD_cons_zero, List.getD_cons_succ, lane_mask_zero]
    split
    · rename_i hx
      refine Or.inr ⟨.inl i, rfl, ?_⟩
      refine isBound_of_block (k := 0) hw hfront ?_ (by decide)
      rw [hmask, hx]
      rfl
    · rename_i hx
      rw [Bool.not_eq_false] at hx
      split
      · rename_i hy
        refine Or.inr ⟨.inl (i + 1), rfl, ?_⟩
        refine isBound_of_block hw hfront ?_ (by decide)
        rw [hmask, hx, hy]
        rfl
      · rename_i hy
        rw [Bool.not_eq_false] at hy
        refine Or.inl ⟨i + 2, rfl, ⟨hblock, below_of_block hfront ?_⟩,
          Nat.sub_lt_sub_left (by omega) (by omega)⟩
        rw [hmask, hx, hy]
        rfl
  · exact Or.inr ⟨.inr i, rfl, hle, hfront⟩

/-- The mask of four lanes. -/
theorem avx2_mask {x : List UInt64} (h : x.length = 4) (value : UInt64) :
    movemask (cmpgt (lanes_xor (set1 4 value) (set1 4 MIN)) (lanes_xor x (set1 4 MIN))) =
      mask_of (x.map fun x => decide (x < value)) := by
  have hneedle : lanes_xor (set1 4 value) (set1 4 MIN) = set1 4 (value ^^^ MIN) := rfl
  have hchunk : lanes_xor x (set1 4 MIN) = x.map (· ^^^ MIN) := by
    rw [← h]
    exact zipWith_set1 _ x MIN
  have hcmp : cmpgt (set1 4 (value ^^^ MIN)) (x.map (· ^^^ MIN)) =
      x.map fun x => lane_mask ((x ^^^ MIN).toInt64 < (value ^^^ MIN).toInt64) := by
    obtain ⟨a, b, c, d, rfl⟩ : ∃ a b c d, x = [a, b, c, d] := by
      match x, h with
      | [a, b, c, d], _ => exact ⟨a, b, c, d, rfl⟩
    rfl
  rw [hneedle, hchunk, hcmp]
  rw [movemask_map (fun x => decide ((x ^^^ MIN).toInt64 < (value ^^^ MIN).toInt64))]
  simp only [biased_lt]

theorem avx2_steps : LaneSteps avx2_step := by
  rintro s value hi hhi i ⟨hle, hfront⟩
  have hlen := s.len_lt
  unfold avx2_step
  simp only [add_eq (show i + 4 < 2 ^ 64 by omega), Option.bind_eq_bind, Option.bind_some]
  split
  · rename_i hblock
    have hw : i + 4 ≤ s.len := by omega
    have hsize : (slice s.items i (i + 4)).length = 4 := by
      rw [length_slice hw]
      omega
    rw [Slice.load_eq hw]
    simp only [Option.bind_some, avx2_mask hsize]
    have hbits : ((slice s.items i (i + 4)).map fun x => decide (x < value)).length = 4 := by
      rw [List.length_map, hsize]
    have hones := trailing_ones_mask ((slice s.items i (i + 4)).map fun x => decide (x < value))
      (w := 32) (by omega)
    have hall := mask_of_all ((slice s.items i (i + 4)).map fun x => decide (x < value))
    rw [hbits] at hall
    split
    · rename_i hmask
      have hlt : trailing_ones 32 (mask_of ((slice s.items i (i + 4)).map fun x =>
          decide (x < value))) < 4 := by
        rw [hones]
        refine Nat.lt_of_le_of_ne ?_ fun heq => hmask (hall.mpr ?_)
        · exact (List.takeWhile_prefix id).length_le.trans_eq hbits
        · rw [List.all_eq_true]
          intro b hb
          have hprefix := List.takeWhile_prefix (l := (slice s.items i (i + 4)).map fun x =>
            decide (x < value)) id
          rw [← hprefix.eq_of_length (heq.trans hbits.symm)] at hb
          exact List.mem_takeWhile_imp hb
      rw [add_eq (by omega)]
      exact Or.inr ⟨_, rfl, isBound_of_block hw hfront hones hlt⟩
    · rename_i hmask
      rw [ne_eq, not_not] at hmask
      exact Or.inl ⟨i + 4, rfl, ⟨hblock, below_of_block hfront (hall.mp hmask)⟩,
        Nat.sub_lt_sub_left (by omega) (by omega)⟩
  · exact Or.inr ⟨.inr i, rfl, hle, hfront⟩

theorem tail_steps {s : Slice} {value : UInt64} {hi : Nat} (hhi : hi ≤ s.len)
    (hstop : Stops s value hi) (i : Nat) (h : i ≤ hi ∧ Below s value i) :
    Steps (fun i => i ≤ hi ∧ Below s value i) (IsBound s value) (hi - ·)
      (scan_tail_step s value hi i) i := by
  obtain ⟨hle, hfront⟩ := h
  have hlen := s.len_lt
  unfold scan_tail_step
  split
  · rename_i hlt
    obtain ⟨x, hx, hitem⟩ := Slice.get_eq (Nat.lt_of_lt_of_le hlt hhi)
    rw [hx, Option.bind_eq_bind, Option.bind_some]
    split
    · rename_i hbelow
      rw [add_eq (by omega)]
      exact Or.inl ⟨i + 1, rfl, ⟨hlt, hfront.succ hitem hbelow⟩,
        Nat.sub_lt_sub_left hlt (Nat.lt_succ_self i)⟩
    · rename_i hnot
      refine Or.inr ⟨i, rfl, by omega, hfront, fun y hy => ?_⟩
      rw [hitem] at hy
      cases hy
      exact hnot
  · rename_i hnot
    obtain rfl : i = hi := by omega
    exact Or.inr ⟨i, rfl, hhi, hfront, hstop⟩

theorem gallop_scan_some {step : Slice → UInt64 → Nat → Nat → Option (Nat ⊕ (Nat ⊕ Nat))}
    (hstep : LaneSteps step) (s : SortedSlice) (value : UInt64) :
    ∃ r, gallop_scan step s.toSlice value = some r ∧ IsBound s.toSlice value r := by
  unfold gallop_scan
  split
  · rename_i hn
    refine ⟨0, rfl, Nat.zero_le _, fun i x hi _ => absurd hi (Nat.not_lt_zero i), fun x hx => ?_⟩
    obtain ⟨hlt, -⟩ := List.getElem?_eq_some_iff.mp hx
    change s.items.length = 0 at hn
    omega
  · rename_i hn
    obtain ⟨lo, hi, hwindow, h⟩ := window_some s value hn
    have hhi := h.le_len
    obtain ⟨out, hout, hscanned⟩ := @loop_some _ _ _ _ _ _ (hstep s.toSlice value hi h.le_len)
      (s.len + 1) _ ⟨h.le, h.front⟩ (by omega)
    rw [hwindow, Option.bind_eq_bind, Option.bind_some]
    dsimp only
    rw [hout, Option.bind_eq_bind, Option.bind_some]
    cases out with
    | inl r => exact ⟨r, rfl, hscanned⟩
    | inr i =>
      exact @loop_some _ _ _ _ _ _ (tail_steps h.le_len h.stops) (s.len + 1) _ hscanned
        (by omega)

/-- Every kernel answers with the partition point. -/
theorem lower_bound_eq (k : Kernel) (s : SortedSlice) (value : UInt64) :
    lower_bound k s.toSlice value = some (partition_point (· < value) s.items) := by
  have hgallop {step : Slice → UInt64 → Nat → Nat → Option (Nat ⊕ (Nat ⊕ Nat))}
      (hstep : LaneSteps step) :
      gallop_scan step s.toSlice value = some (partition_point (· < value) s.items) := by
    obtain ⟨r, hr, hbound⟩ := gallop_scan_some hstep s value
    rw [hr, ← hbound.eq_partition]
  cases k with
  | scalar => rfl
  | avx2 => exact hgallop avx2_steps
  | neon => exact hgallop neon_steps

end words

end horndb.simd
