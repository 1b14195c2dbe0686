-- The lower bound kernels: the scalar partition point, and a gallop with a scan of the window
-- some lanes at a time. Which kernel runs depends on the host; all of them give one index.
import HornDb.Lib.Splits

open HornDb.Lib HornDb.Lib.Gallop

namespace horndb.simd

/-! ## The kernels -/

/-- The kernels that the dispatch picks from. -/
inductive Kernel where
  | scalar
  | avx2
  | neon
deriving DecidableEq, Repr

namespace Kernel

/-- The comparison of one lane. The AVX2 comparison is signed, so both sides are biased by the
least signed value. -/
def lane_lt (k : Kernel) (x value : Nat) : Bool :=
  match k with
  | .avx2 => (BitVec.ofNat 64 x ^^^ .intMin 64).slt (BitVec.ofNat 64 value ^^^ .intMin 64)
  | _ => decide (x < value)

def lanes : Kernel → Nat
  | .scalar => 1
  | .neon => 2
  | .avx2 => 4

end Kernel

/-- The scalar tail of a scan. -/
def scan_tail (haystack : List Nat) (value : Nat) : Nat → Nat → Nat → Nat
  | 0, i, _ => i
  | fuel + 1, i, hi =>
    if i < hi && haystack.getD i 0 < value then scan_tail haystack value fuel (i + 1) hi else i

/-- Compare a block of lanes at once, and stop at its first lane that is not below. -/
def scan (k : Kernel) (haystack : List Nat) (value : Nat) : Nat → Nat → Nat → Nat
  | 0, i, _ => i
  | fuel + 1, i, hi =>
    if i + k.lanes ≤ hi then
      let mask := (slice haystack i (i + k.lanes)).map (k.lane_lt · value)
      if mask.all id then scan k haystack value fuel (i + k.lanes) hi
      else i + (mask.takeWhile id).length
    else scan_tail haystack value (hi - i) i hi

def gallop_scan (k : Kernel) (haystack : List Nat) (value : Nat) : Nat :=
  let n := haystack.length
  if n = 0 then 0
  else
    let (lo, hi) := stride (fun i => haystack.getD i 0 < value) n n 0 1
    scan k haystack value (hi - lo + 1) lo hi

/-- The first index whose value is not below, in a list in order. -/
def lower_bound (k : Kernel) (haystack : List Nat) (value : Nat) : Nat :=
  match k with
  | .scalar => partition_point (· < value) haystack
  | .avx2 => gallop_scan .avx2 haystack value
  | .neon => gallop_scan .neon haystack value

example : lower_bound .avx2 [0, 1, 2, 2 ^ 64 - 1, 2 ^ 64 - 1] 3 = 3 := by decide

/-! ## Their index -/

theorem biased_toInt {x : Nat} (hx : x < 2 ^ 64) :
    (BitVec.ofNat 64 x ^^^ .intMin 64).toInt = (x : Int) - 2 ^ 63 := by
  have hnat : (BitVec.ofNat 64 x ^^^ .intMin 64).toNat = x ^^^ 2 ^ 63 := by
    rw [BitVec.toNat_xor, BitVec.toNat_ofNat, Nat.mod_eq_of_lt hx,
      BitVec.toNat_intMin_of_pos (by decide)]
  have hlow : (x ^^^ 2 ^ 63) % 2 ^ 63 = x % 2 ^ 63 := by
    rw [Nat.xor_mod_two_pow, Nat.mod_self, Nat.xor_zero]
  have hhigh : (x ^^^ 2 ^ 63) / 2 ^ 63 = (x / 2 ^ 63) ^^^ 1 := by
    rw [Nat.xor_div_two_pow, Nat.div_self (by decide)]
  have hbit : x / 2 ^ 63 = 0 ∨ x / 2 ^ 63 = 1 := by omega
  rw [BitVec.toInt_eq_toNat_cond, hnat]
  rcases hbit with hbit | hbit
  · rw [hbit, Nat.zero_xor] at hhigh
    split <;> omega
  · rw [hbit, Nat.xor_self] at hhigh
    split <;> omega

/-- The biased signed comparison is the unsigned one. -/
theorem biased_slt {x value : Nat} (hx : x < 2 ^ 64) (hv : value < 2 ^ 64) :
    (BitVec.ofNat 64 x ^^^ .intMin 64).slt (BitVec.ofNat 64 value ^^^ .intMin 64) =
      decide (x < value) := by
  rw [BitVec.slt, biased_toInt hx, biased_toInt hv]
  simp

theorem lane_lt_eq (k : Kernel) {x value : Nat} (hx : x < 2 ^ 64) (hv : value < 2 ^ 64) :
    k.lane_lt x value = decide (x < value) := by
  cases k with
  | avx2 => exact biased_slt hx hv
  | scalar => rfl
  | neon => rfl

theorem lanes_pos (k : Kernel) : 0 < k.lanes := by
  cases k <;> decide

section Scan

variable {haystack : List Nat} {value : Nat}

theorem scan_tail_splits {lo hi : Nat} (fuel : Nat) (hlo : lo ≤ hi) (hfuel : hi ≤ lo + fuel)
    (hfall : Falls (fun i => haystack.getD i 0 < value) lo hi) :
    Splits (fun i => haystack.getD i 0 < value) lo hi (scan_tail haystack value fuel lo hi) := by
  induction fuel generalizing lo with
  | zero =>
    obtain rfl : lo = hi := by omega
    exact .empty lo
  | succ fuel ih =>
    rw [scan_tail]
    split
    · rename_i h
      rw [Bool.and_eq_true, decide_eq_true_eq] at h
      have hinner := ih (by omega) (by omega) (hfall.narrow (Nat.le_succ lo) (le_refl hi))
      refine hinner.widen hfall (Nat.le_succ lo) (le_refl hi) (fun i h1 h2 => ?_) (by omega)
      obtain rfl : i = lo := by omega
      exact h.2
    · rename_i h
      refine (Splits.empty lo).widen hfall (le_refl lo) hlo (by omega) fun hlt => ?_
      rw [Bool.and_eq_true, decide_eq_true_eq, not_and, Bool.not_eq_true] at h
      exact h hlt

/-- The mask of a block is the scalar comparison of its lanes. -/
theorem mask_eq (k : Kernel) (hbound : ∀ x ∈ haystack, x < 2 ^ 64) (hv : value < 2 ^ 64)
    (lo hi : Nat) : (slice haystack lo hi).map (k.lane_lt · value) =
      (slice haystack lo hi).map fun x => decide (x < value) := by
  refine List.map_congr_left fun x hx => lane_lt_eq k (hbound x ?_) hv
  exact mem_of_mem_slice hx

theorem scan_splits (k : Kernel) (hbound : ∀ x ∈ haystack, x < 2 ^ 64) (hv : value < 2 ^ 64)
    {lo hi : Nat} (fuel : Nat) (hlo : lo ≤ hi) (hhi : hi ≤ haystack.length)
    (hfuel : hi < lo + fuel) (hfall : Falls (fun i => haystack.getD i 0 < value) lo hi) :
    Splits (fun i => haystack.getD i 0 < value) lo hi (scan k haystack value fuel lo hi) := by
  have hlanes := lanes_pos k
  induction fuel generalizing lo with
  | zero => omega
  | succ fuel ih =>
    rw [scan]
    split
    · rename_i hblock
      dsimp only
      rw [mask_eq k hbound hv]
      have hpoint : (((slice haystack lo (lo + k.lanes)).map fun x => decide (x < value)).takeWhile
          id).length = partition_point (· < value) (slice haystack lo (lo + k.lanes)) := by
        rw [List.takeWhile_map, List.length_map]
        rfl
      rw [hpoint]
      have hwindow := slice_partition_splits (decide <| · < value)
        (Nat.le_add_right lo k.lanes) (by omega) (hfall.narrow (le_refl lo) hblock)
      split
      · rename_i hall
        have hfront : ∀ i, lo ≤ i → i < lo + k.lanes → decide (haystack.getD i 0 < value) = true := by
          intro i h1 h2
          rw [List.all_map, List.all_eq_true] at hall
          exact hall _ ((mem_slice (by omega) 0).mpr ⟨i, h1, h2, rfl⟩)
        have hinner := ih (by omega) (by omega) (hfall.narrow (by omega) (le_refl hi))
        exact hinner.widen hfall (by omega) (le_refl hi) hfront (by omega)
      · rename_i hall
        refine hwindow.widen hfall (le_refl lo) hblock (by omega) fun hlt => ?_
        rw [List.all_map, List.all_eq_true] at hall
        rw [← Bool.not_eq_true]
        intro hb
        refine hall fun x hx => ?_
        obtain ⟨i, h1, h2, rfl⟩ := (mem_slice (by omega) 0).mp hx
        exact hfall i (lo + k.lanes) h1 (by omega) hlt hb
    · exact scan_tail_splits (hi - lo) hlo (by omega) hfall

/-- Every kernel splits a list in order at the value. -/
theorem lower_bound_splits (k : Kernel) (hbound : ∀ x ∈ haystack, x < 2 ^ 64)
    (hv : value < 2 ^ 64)
    (hfall : Falls (fun i => haystack.getD i 0 < value) 0 haystack.length) :
    Splits (fun i => haystack.getD i 0 < value) 0 haystack.length (lower_bound k haystack value) := by
  have hgallop : ∀ k : Kernel, Splits (fun i => haystack.getD i 0 < value) 0 haystack.length
      (gallop_scan k haystack value) := by
    intro k
    unfold gallop_scan
    dsimp only
    split
    · rename_i hn
      rw [hn]
      exact .empty 0
    · rename_i hn
      have hpos : 0 < haystack.length := Nat.pos_of_ne_zero hn
      have hwindow := stride_window (fun i => haystack.getD i 0 < value) haystack.length 0 1 hpos
        (by omega) (by omega)
      refine stride_splits hpos hfall ?_
      exact scan_splits k hbound hv _ (by omega) hwindow.2.2.1 (by omega)
        (hfall.narrow (Nat.zero_le _) hwindow.2.2.1)
  cases k with
  | scalar => exact partition_point_splits (decide <| · < value) hfall
  | avx2 => exact hgallop .avx2
  | neon => exact hgallop .neon

/-- On a slice of a list, the index is the split of the range. -/
theorem slice_lower_bound_splits (k : Kernel) (hbound : ∀ x ∈ haystack, x < 2 ^ 64)
    (hv : value < 2 ^ 64) {lo hi : Nat} (hlo : lo ≤ hi) (hhi : hi ≤ haystack.length)
    (hfall : Falls (fun i => haystack.getD i 0 < value) lo hi) :
    Splits (fun i => haystack.getD i 0 < value) lo hi
      (lo + lower_bound k (slice haystack lo hi) value) :=
  .of_slice (decide <| · < value) hlo hhi hfall fun hinner =>
    lower_bound_splits k (fun x hx => hbound x (mem_of_mem_slice hx)) hv hinner

end Scan

end horndb.simd
