-- A packed column: blocks of values as bit fields over the least value of the block, read one
-- at a time, and searched by bisection over the blocks and inside one.
import HornDb.Lib.BitStream
import HornDb.SimdLowerBound

open HornDb.Lib HornDb.Lib.Gallop HornDb.Lib.BitStream

namespace horndb.wcoj

/-- Values per block. -/
def BLOCK : Nat := 256

structure BlockMeta where
  base : Nat
  /-- The width of a field. With none, all values of the block are the base. -/
  bits : Nat
  word_offset : Nat
deriving DecidableEq, Repr, Inhabited

structure PackedColumn where
  len : Nat
  blocks : List BlockMeta
  words : List (BitVec 64)
deriving DecidableEq, Repr

def bits_for (max_delta : Nat) : Nat := if max_delta = 0 then 0 else max_delta.log2 + 1

namespace PackedColumn

/-! ## Encoding -/

/-- One chunk of values, behind the blocks and the words so far. -/
def push_block (out : List BlockMeta × List (BitVec 64)) (chunk : List Nat) :
    List BlockMeta × List (BitVec 64) :=
  let base := chunk.min?.getD 0
  let max_delta := (chunk.map (· - base)).max?.getD 0
  let bits := bits_for max_delta
  let word_offset := out.2.length
  let blocks := out.1 ++ [⟨base, bits, word_offset⟩]
  if bits = 0 then (blocks, out.2)
  else
    let n_words := (chunk.length * bits + 63) / 64
    let words := out.2 ++ List.replicate n_words 0
    (blocks, write_all words word_offset bits (chunk.map fun v => BitVec.ofNat 64 (v - base)))

/-- The chunks of a column: a block of values each, and what is left. -/
def chunks (values : List Nat) : List (List Nat) :=
  (List.range ((values.length + BLOCK - 1) / BLOCK)).map fun b =>
    slice values (b * BLOCK) ((b + 1) * BLOCK)

def from_slice (values : List Nat) : PackedColumn :=
  let out := (chunks values).foldl push_block ([], [])
  ⟨values.length, out.1, out.2⟩

/-! ## Reading -/

/-- The value at a place of a block. -/
def block_get (words : List (BitVec 64)) (b : BlockMeta) (i : Nat) : Nat :=
  if b.bits = 0 then b.base
  else
    let bit_index := i * b.bits
    b.base + (read words (b.word_offset + bit_index / 64) (bit_index % 64) b.bits).toNat

def get (c : PackedColumn) (i : Nat) : Nat :=
  block_get c.words (c.blocks.getD (i / BLOCK) default) (i % BLOCK)

/-- The last value of a block. -/
def block_last (c : PackedColumn) (b : Nat) : Nat := c.get (min ((b + 1) * BLOCK) c.len - 1)

def decode_block (c : PackedColumn) (b : Nat) : List Nat :=
  (List.range (min ((b + 1) * BLOCK) c.len - b * BLOCK)).map fun i => c.get (b * BLOCK + i)

/-- The first index of the range whose value is not below. -/
def lower_bound (k : simd.Kernel) (c : PackedColumn) (lo hi value : Nat) : Nat :=
  if hi ≤ lo then lo
  else
    let first_block := lo / BLOCK
    let last_block := (hi - 1) / BLOCK
    let b := bisect (fun b => c.block_last b < value) (last_block - first_block) first_block
      last_block
    let scratch := c.decode_block b
    let block_start := b * BLOCK
    let sub_lo := max lo block_start
    let sub_hi := min hi (block_start + scratch.length)
    sub_lo + simd.lower_bound k (slice scratch (sub_lo - block_start) (sub_hi - block_start)) value

/-- The first index of the range whose value is above. -/
def upper_bound (c : PackedColumn) (lo hi value : Nat) : Nat :=
  bisect (fun i => c.get i ≤ value) (hi - lo) lo hi

example : (from_slice [5, 2 ^ 64 - 1, 7, 5]).get 1 = 2 ^ 64 - 1 := by decide

end PackedColumn

/-! ## What is encoded is read -/

theorem lt_two_pow_bits_for {delta max_delta : Nat} (h : delta ≤ max_delta) :
    delta < 2 ^ bits_for max_delta := by
  unfold bits_for
  split
  · rename_i hzero
    rw [hzero] at h
    simp only [Nat.le_zero.mp h, Nat.pow_zero, Nat.lt_one_iff]
  · exact lt_of_le_of_lt h Nat.lt_log2_self

theorem bits_for_le {max_delta : Nat} (h : max_delta < 2 ^ 64) : bits_for max_delta ≤ 64 := by
  unfold bits_for
  split
  · omega
  · rename_i hpos
    exact (Nat.log2_lt hpos).mpr h

namespace PackedColumn

/-- A chunk stands in its block: every value is read at its place, and all that is read lies in
the words. -/
structure Stored (words : List (BitVec 64)) (b : BlockMeta) (chunk : List Nat) : Prop where
  bits_le : b.bits ≤ 64
  room : 64 * b.word_offset + chunk.length * b.bits ≤ 64 * words.length
  reads : ∀ i < chunk.length, block_get words b i = chunk.getD i 0

/-- What stands stays when words are added. -/
theorem Stored.extend {words words' : List (BitVec 64)} {b : BlockMeta} {chunk : List Nat}
    (h : Stored words b chunk) (hext : Extends words words') : Stored words' b chunk := by
  have hle := hext.length_le
  refine ⟨h.bits_le, by have := h.room; omega, fun i hi => ?_⟩
  rw [← h.reads i hi]
  unfold block_get
  split
  · rfl
  · dsimp only
    have hroom := h.room
    have hmul : (i + 1) * b.bits ≤ chunk.length * b.bits := Nat.mul_le_mul_right b.bits hi
    rw [Nat.succ_mul] at hmul
    rw [hext.read_eq (Nat.mod_lt _ (by omega)) h.bits_le (by omega)]

section Push

variable {out : List BlockMeta × List (BitVec 64)} {chunk : List Nat}

theorem base_le {v : Nat} (hv : v ∈ chunk) : chunk.min?.getD 0 ≤ v := by
  cases hmin : chunk.min? with
  | none =>
    rw [List.min?_eq_none_iff.mp hmin] at hv
    cases hv
  | some base => exact (List.min?_eq_some_iff.mp hmin).2 v hv

theorem delta_le {v base : Nat} (hv : v ∈ chunk) :
    v - base ≤ (chunk.map (· - base)).max?.getD 0 := by
  cases hmax : (chunk.map (· - base)).max? with
  | none =>
    rw [List.max?_eq_none_iff, List.map_eq_nil_iff] at hmax
    rw [hmax] at hv
    cases hv
  | some m => exact (List.max?_eq_some_iff.mp hmax).2 _ (List.mem_map_of_mem hv)

theorem max_delta_lt (base : Nat) (hbound : ∀ v ∈ chunk, v < 2 ^ 64) :
    (chunk.map (· - base)).max?.getD 0 < 2 ^ 64 := by
  cases hmax : (chunk.map (· - base)).max? with
  | none => exact Nat.two_pow_pos 64
  | some m =>
    obtain ⟨v, hv, rfl⟩ := List.mem_map.mp (List.max?_eq_some_iff.mp hmax).1
    exact lt_of_le_of_lt (Nat.sub_le v base) (hbound v hv)

/-- A pushed chunk stands in the last block, and the words go on from those before. -/
theorem push_block_spec (hbound : ∀ v ∈ chunk, v < 2 ^ 64) :
    ∃ b, (push_block out chunk).1 = out.1 ++ [b] ∧ Extends out.2 (push_block out chunk).2 ∧
      Stored (push_block out chunk).2 b chunk := by
  unfold push_block
  dsimp only
  generalize hbase : chunk.min?.getD 0 = base
  generalize hmax : (chunk.map (· - base)).max?.getD 0 = max_delta
  have hle : ∀ v ∈ chunk, base ≤ v := fun v hv => hbase ▸ base_le hv
  have hdelta : ∀ v ∈ chunk, v - base < 2 ^ bits_for max_delta := fun v hv =>
    lt_two_pow_bits_for (hmax ▸ delta_le hv)
  have hbits : bits_for max_delta ≤ 64 := bits_for_le (hmax ▸ max_delta_lt _ hbound)
  generalize bits_for max_delta = bits at hdelta hbits
  split
  · rename_i hzero
    refine ⟨_, rfl, .refl _, hbits, by simp [hzero], fun i hi => ?_⟩
    have hmem := getD_mem_of_lt hi 0
    have h1 := hdelta _ hmem
    have h2 := hle _ hmem
    rw [hzero] at h1
    unfold block_get
    rw [if_pos hzero]
    dsimp only
    omega
  · rename_i hpos
    have hfits : ∀ i b, bits ≤ b →
        ((chunk.map fun v => BitVec.ofNat 64 (v - base)).getD i 0).getLsbD b = false := by
      intro i b hb
      by_cases hi : i < chunk.length
      · have hd := hdelta _ (getD_mem_of_lt hi 0)
        rw [List.getD_eq_getElem _ _ (by rwa [List.length_map]), List.getElem_map,
          ← List.getD_eq_getElem _ 0, BitVec.getLsbD_ofNat,
          Nat.testBit_eq_false_of_lt (lt_of_lt_of_le hd (Nat.pow_le_pow_right (by omega) hb)),
          Bool.and_false]
      · rw [List.getD_eq_default _ _ (by rw [List.length_map]; omega)]
        simp
    have hempty : ∀ k, 64 * out.2.length ≤ k →
        bit (out.2 ++ List.replicate ((chunk.length * bits + 63) / 64) 0) k = false := by
      intro k hk
      unfold bit
      rw [List.getD_append_right _ _ _ _ (by omega), List.getD_eq_getElem?_getD,
        List.getElem?_replicate]
      split <;> simp
    have hroom : 64 * out.2.length + chunk.length * bits ≤
        64 * (out.2 ++ List.replicate ((chunk.length * bits + 63) / 64) 0).length := by
      rw [List.length_append, List.length_replicate]
      omega
    obtain ⟨h1, h2, h3⟩ := write_all_spec (Nat.pos_of_ne_zero hpos) hbits hfits
      (by rw [List.length_map]; exact hroom) hempty
    refine ⟨_, rfl, ?_, hbits, by rw [h1]; exact hroom, fun i hi => ?_⟩
    · refine ⟨by rw [h1]; simp, fun k hk => ?_⟩
      rw [h2 k hk]
      exact (Extends.append _ _).same k hk
    · have hmem := getD_mem_of_lt hi 0
      have hread := h3 i (by rwa [List.length_map])
      unfold block_get
      rw [if_neg hpos]
      dsimp only
      rw [hread, List.getD_eq_getElem _ _ (by rwa [List.length_map]), List.getElem_map,
        ← List.getD_eq_getElem _ 0, BitVec.toNat_ofNat, Nat.mod_eq_of_lt]
      · have := hle _ hmem
        omega
      · exact lt_of_le_of_lt (Nat.sub_le _ _) (hbound _ hmem)

end Push

/-- Blocks and chunks pair up, and every chunk stands in its block. -/
def AllStored (out : List BlockMeta × List (BitVec 64)) (chunks : List (List Nat)) : Prop :=
  List.Forall₂ (Stored out.2) out.1 chunks

theorem AllStored.push {out : List BlockMeta × List (BitVec 64)} {done : List (List Nat)}
    {chunk : List Nat} (h : AllStored out done) (hbound : ∀ v ∈ chunk, v < 2 ^ 64) :
    AllStored (push_block out chunk) (done ++ [chunk]) := by
  obtain ⟨b, hblocks, hext, hstored⟩ : ∃ b, (push_block out chunk).1 = out.1 ++ [b] ∧
      Extends out.2 (push_block out chunk).2 ∧ Stored (push_block out chunk).2 b chunk :=
    push_block_spec hbound
  unfold AllStored
  rw [hblocks]
  refine List.rel_append ?_ (List.Forall₂.cons hstored .nil)
  exact List.Forall₂.imp (fun b c hb => hb.extend hext) h

theorem all_stored (cs : List (List Nat)) (hbound : ∀ chunk ∈ cs, ∀ v ∈ chunk, v < 2 ^ 64) :
    AllStored (cs.foldl push_block ([], [])) cs := by
  induction cs using List.reverseRecOn with
  | nil => exact .nil
  | append_singleton front chunk ih =>
    rw [List.foldl_append, List.foldl_cons, List.foldl_nil]
    have hfront := ih fun c hc => hbound c (List.mem_append_left _ hc)
    exact hfront.push (hbound chunk (by simp))

theorem chunks_getD {values : List Nat} {b : Nat} (h : b * BLOCK < values.length) :
    b < (chunks values).length ∧
      (chunks values).getD b [] = slice values (b * BLOCK) ((b + 1) * BLOCK) := by
  have hlt : b < (values.length + BLOCK - 1) / BLOCK := by
    unfold BLOCK at h ⊢
    omega
  unfold chunks
  rw [List.length_map, List.length_range]
  refine ⟨hlt, ?_⟩
  rw [List.getD_eq_getElem _ _ (by rwa [List.length_map, List.length_range]), List.getElem_map,
    List.getElem_range]

/-- The block of an index holds the chunk that the index lies in. -/
theorem from_slice_stored {values : List Nat} (hbound : ∀ v ∈ values, v < 2 ^ 64) {i : Nat}
    (hi : i < values.length) :
    i / BLOCK < (from_slice values).blocks.length ∧
      i % BLOCK < (slice values (i / BLOCK * BLOCK) ((i / BLOCK + 1) * BLOCK)).length ∧
      Stored (from_slice values).words ((from_slice values).blocks.getD (i / BLOCK) default)
        (slice values (i / BLOCK * BLOCK) ((i / BLOCK + 1) * BLOCK)) := by
  have hstart : i / BLOCK * BLOCK < values.length := lt_of_le_of_lt (Nat.div_mul_le_self i _) hi
  obtain ⟨hchunk, hslice⟩ := chunks_getD hstart
  have hall : AllStored ((chunks values).foldl push_block ([], [])) (chunks values) := by
    refine all_stored _ fun chunk hc v hv => hbound v ?_
    obtain ⟨b, _, rfl⟩ := List.mem_map.mp hc
    exact mem_of_mem_slice hv
  have hblock := hall.length_eq
  have hstored := hall.get (by rwa [hblock]) hchunk
  rw [List.get_eq_getElem, List.get_eq_getElem, ← List.getD_eq_getElem _ default,
    ← List.getD_eq_getElem _ [], hslice] at hstored
  refine ⟨hblock.symm ▸ hchunk, ?_, hstored⟩
  rw [length_slice_min]
  unfold BLOCK
  omega

/-- What is read from a column is what it was built from. -/
theorem get_from_slice {values : List Nat} (hbound : ∀ v ∈ values, v < 2 ^ 64) {i : Nat}
    (hi : i < values.length) : (from_slice values).get i = values.getD i 0 := by
  obtain ⟨_, hplace, hstored⟩ := from_slice_stored hbound hi
  have hread := hstored.reads (i % BLOCK) hplace
  rw [getD_slice (by unfold BLOCK; omega), Nat.div_add_mod'] at hread
  exact hread

/-! ## The searches split the column -/

section Search

variable {c : PackedColumn} {values : List Nat} {lo hi value : Nat}

/-- A column that reads as a list of values. -/
structure Reads (c : PackedColumn) (values : List Nat) : Prop where
  len_eq : c.len = values.length
  bound : ∀ v ∈ values, v < 2 ^ 64
  get_eq : ∀ i < values.length, c.get i = values.getD i 0

theorem from_slice_reads (hbound : ∀ v ∈ values, v < 2 ^ 64) : (from_slice values).Reads values :=
  ⟨rfl, hbound, fun _ hi => get_from_slice hbound hi⟩

theorem Reads.block_last_eq (h : c.Reads values) {b : Nat} (hb : (b + 1) * BLOCK ≤ values.length) :
    c.block_last b = values.getD ((b + 1) * BLOCK - 1) 0 := by
  unfold block_last
  rw [h.len_eq, Nat.min_eq_left hb, h.get_eq _ (by unfold BLOCK at *; omega)]

theorem Reads.decode_block_getD (h : c.Reads values) {b i : Nat}
    (hi : i < (c.decode_block b).length) :
    (c.decode_block b).getD i 0 = values.getD (b * BLOCK + i) 0 := by
  unfold decode_block at hi ⊢
  rw [List.length_map, List.length_range, h.len_eq] at hi
  rw [List.getD_eq_getElem _ _ (by rw [List.length_map, List.length_range, h.len_eq]; exact hi),
    List.getElem_map, List.getElem_range]
  exact h.get_eq _ (by omega)

theorem Reads.upper_bound_splits (h : c.Reads values) (hlo : lo ≤ hi) (hhi : hi ≤ values.length)
    (hfall : Falls (fun i => values.getD i 0 ≤ value) lo hi) :
    Splits (fun i => values.getD i 0 ≤ value) lo hi (c.upper_bound lo hi value) := by
  have hsame : ∀ i, lo ≤ i → i < hi → decide (values.getD i 0 ≤ value) = decide (c.get i ≤ value) :=
    fun i _ hi' => by rw [h.get_eq i (by omega)]
  have hreads : Falls (fun i => c.get i ≤ value) lo hi := by
    intro i j hi' hij hj
    dsimp only
    rw [← hsame i hi' (by omega), ← hsame j (by omega) hj]
    exact hfall i j hi' hij hj
  exact (bisect_splits (hi - lo) lo hi hlo (by omega) hreads).congr hsame

/-- The blocks of a range, split at the first whose last value is not below. -/
theorem Reads.block_splits (h : c.Reads values) (hlt : lo < hi) (hhi : hi ≤ values.length)
    (hfall : Falls (fun i => values.getD i 0 < value) lo hi) :
    Splits (fun b => c.block_last b < value) (lo / BLOCK) ((hi - 1) / BLOCK)
      (bisect (fun b => c.block_last b < value) ((hi - 1) / BLOCK - lo / BLOCK) (lo / BLOCK)
        ((hi - 1) / BLOCK)) := by
  have hle : lo / BLOCK ≤ (hi - 1) / BLOCK := Nat.div_le_div_right (by omega)
  refine bisect_splits _ _ _ hle (by omega) fun i j hi' hij hj hb => ?_
  have hblock : (j + 1) * BLOCK ≤ hi - 1 := by
    have hmul := Nat.mul_le_mul_right BLOCK hj
    exact hmul.trans (Nat.div_mul_le_self _ _)
  have hfirst : lo < (i + 1) * BLOCK := by
    have hmul := Nat.mul_le_mul_right BLOCK hi'
    unfold BLOCK at hmul ⊢
    omega
  have hmono : (i + 1) * BLOCK ≤ (j + 1) * BLOCK := Nat.mul_le_mul_right BLOCK (by omega)
  rw [h.block_last_eq (by omega)] at hb ⊢
  exact hfall _ _ (by omega) (by omega) (by omega) hb

/-- The split of the part of a block that lies in the range. -/
theorem Reads.block_lower_bound (h : c.Reads values) (k : simd.Kernel) (hv : value < 2 ^ 64)
    {b sub_lo sub_hi : Nat} (hb : b * BLOCK ≤ sub_lo) (hlo : sub_lo ≤ sub_hi)
    (hhi : sub_hi ≤ b * BLOCK + (c.decode_block b).length)
    (hfall : Falls (fun i => values.getD i 0 < value) sub_lo sub_hi) :
    Splits (fun i => values.getD i 0 < value) sub_lo sub_hi
      (sub_lo + simd.lower_bound k
        (slice (c.decode_block b) (sub_lo - b * BLOCK) (sub_hi - b * BLOCK)) value) := by
  have hget : ∀ i < (c.decode_block b).length,
      (c.decode_block b).getD i 0 = values.getD (b * BLOCK + i) 0 := fun i hi' =>
    h.decode_block_getD hi'
  have hbound : ∀ x ∈ c.decode_block b, x < 2 ^ 64 := by
    intro x hx
    obtain ⟨i, hi', rfl⟩ := List.mem_map.mp hx
    rw [List.mem_range, h.len_eq] at hi'
    rw [h.get_eq _ (by omega)]
    exact h.bound _ (getD_mem_of_lt (by omega) 0)
  have hinner : Falls (fun i => (c.decode_block b).getD i 0 < value) (sub_lo - b * BLOCK)
      (sub_hi - b * BLOCK) := by
    intro i j hi' hij hj
    dsimp only
    rw [hget i (by omega), hget j (by omega)]
    exact hfall _ _ (by omega) (by omega) (by omega)
  have hsplit := (simd.slice_lower_bound_splits k hbound hv (by omega) (by omega) hinner)
  have hshift := Splits.shift (fun i => values.getD i 0 < value)
    (hsplit.congr fun i _ hi' => by rw [hget i (by omega)])
  rwa [← Nat.add_assoc, Nat.add_sub_cancel' hb, Nat.add_sub_cancel' (by omega)] at hshift

theorem Reads.lower_bound_splits (h : c.Reads values) (k : simd.Kernel) (hv : value < 2 ^ 64)
    (hlo : lo ≤ hi) (hhi : hi ≤ values.length)
    (hfall : Falls (fun i => values.getD i 0 < value) lo hi) :
    Splits (fun i => values.getD i 0 < value) lo hi (lower_bound k c lo hi value) := by
  unfold lower_bound
  split
  · rename_i hge
    obtain rfl : lo = hi := by omega
    exact .empty lo
  · rename_i hlt
    dsimp only
    have hblocks := h.block_splits (by omega) hhi hfall
    generalize bisect (fun b => c.block_last b < value) ((hi - 1) / BLOCK - lo / BLOCK)
      (lo / BLOCK) ((hi - 1) / BLOCK) = b at hblocks
    have h1 := hblocks.lo_le
    have h2 := hblocks.le_hi
    have hstart : b * BLOCK < hi := by
      have hmul := Nat.mul_le_mul_right BLOCK h2
      have := Nat.div_mul_le_self (hi - 1) BLOCK
      omega
    have hafter : lo < (b + 1) * BLOCK := by
      have hmul := Nat.mul_le_mul_right BLOCK h1
      unfold BLOCK at hmul ⊢
      omega
    have hnext : (b + 1) * BLOCK = b * BLOCK + BLOCK := Nat.succ_mul b BLOCK
    have hlen : (c.decode_block b).length = min ((b + 1) * BLOCK) values.length - b * BLOCK := by
      unfold decode_block
      rw [List.length_map, List.length_range, h.len_eq]
    have hsplit := h.block_lower_bound k hv (b := b) (Nat.le_max_right lo (b * BLOCK))
      (show _ ≤ min hi (b * BLOCK + (c.decode_block b).length) by omega) (Nat.min_le_right _ _)
      (hfall.narrow (Nat.le_max_left _ _) (Nat.min_le_left _ _))
    refine hsplit.widen hfall (Nat.le_max_left _ _) (Nat.min_le_left _ _) (fun i h3 h4 => ?_)
      fun hback => ?_
    · -- the blocks in front end below
      have hfirst : lo / BLOCK < b := (Nat.div_lt_iff_lt_mul (by decide)).mpr (by omega)
      have hpred : b - 1 + 1 = b := Nat.sub_add_cancel (Nat.zero_lt_of_lt hfirst)
      have hprev := hblocks.front (b - 1) (Nat.le_sub_one_of_lt hfirst) (by omega)
      rw [h.block_last_eq (by rw [hpred]; omega), hpred] at hprev
      exact hfall i _ h3 (by omega) (by omega) hprev
    · -- the block that was searched does not
      have hlast : b < (hi - 1) / BLOCK := by
        refine Nat.lt_of_succ_le ((Nat.le_div_iff_mul_le (by decide)).mpr ?_)
        have hnext' : b.succ * BLOCK = b * BLOCK + BLOCK := hnext
        omega
      have hown := hblocks.back b (le_refl b) hlast
      rw [h.block_last_eq (by omega)] at hown
      exact hfall.not_below (by omega) (by omega) hback hown

end Search

end PackedColumn

end horndb.wcoj
