-- The packed column with every index, shift, sum and difference checked as the machine would:
-- encoding, reading and both searches run through, and give what the column gives.
import HornDb.Lib.Checked
import HornDb.PackedColumn

open HornDb.Lib HornDb.Lib.Gallop HornDb.Lib.BitStream HornDb.Lib.Checked

namespace horndb.wcoj

namespace PackedColumn

/-- A slice of 64-bit values. No slice takes more than the largest signed word of bytes. -/
structure Slice where
  values : List Nat
  fits : ∀ v ∈ values, v < 2 ^ 64
  size : 8 * values.length < 2 ^ 63

instance : Inhabited Slice := ⟨⟨[0, 7, 2 ^ 64 - 1], by decide, by decide⟩⟩

/-! ## The checked functions -/

/-- Write the residual of one value of a chunk. -/
def checked_put (word_offset bits base : Nat) (words : List (BitVec 64)) (e : Nat × Nat) :
    Option (List (BitVec 64)) := do
  let delta ← sub e.1 base
  let bit_index ← mul e.2 bits
  let w ← add word_offset (bit_index / 64)
  checked_write words w (bit_index % 64) bits (BitVec.ofNat 64 delta)

def checked_push_block (out : List BlockMeta × List (BitVec 64)) (chunk : List Nat) :
    Option (List BlockMeta × List (BitVec 64)) := do
  let base ← chunk.min?
  let deltas ← chunk.mapM (sub · base)
  let max_delta ← deltas.max?
  let bits := bits_for max_delta
  let word_offset := out.2.length
  let blocks := out.1 ++ [⟨base, bits, word_offset⟩]
  if bits = 0 then some (blocks, out.2)
  else do
    let total_bits ← mul chunk.length bits
    let n_words := (total_bits + 63) / 64
    let size ← add word_offset n_words
    let words := out.2 ++ List.replicate (size - out.2.length) 0
    let words ← chunk.zipIdx.foldlM (checked_put word_offset bits base) words
    some (blocks, words)

def checked_from_slice (values : List Nat) : Option PackedColumn := do
  let out ← (chunks values).foldlM checked_push_block ([], [])
  some ⟨values.length, out.1, out.2⟩

def checked_get (c : PackedColumn) (i : Nat) : Option Nat := do
  guard (i < c.len)
  let b ← c.blocks[i / BLOCK]?
  if b.bits = 0 then some b.base
  else do
    let bit_index ← mul (i % BLOCK) b.bits
    let w ← add b.word_offset (bit_index / 64)
    let v ← checked_read c.words w (bit_index % 64) b.bits
    add b.base v.toNat

def checked_block_last (c : PackedColumn) (b : Nat) : Option Nat := do
  let next ← add b 1
  let stop ← mul next BLOCK
  let last ← sub (min stop c.len) 1
  checked_get c last

def checked_decode_block (c : PackedColumn) (b : Nat) : Option (Nat × List Nat) := do
  let start ← mul b BLOCK
  let next ← add b 1
  let stop ← mul next BLOCK
  let scratch ← (List.range (min stop c.len - start)).mapM fun i => checked_get c (start + i)
  some (start, scratch)

def checked_lower_bound (k : simd.Kernel) (c : PackedColumn) (lo hi value : Nat) : Option Nat :=
  if hi ≤ lo then some lo
  else do
    let first_block := lo / BLOCK
    let last_block := (← sub hi 1) / BLOCK
    let b ← checked_bisect (fun b => do some (decide ((← checked_block_last c b) < value)))
      (last_block - first_block) first_block last_block
    let (block_start, scratch) ← checked_decode_block c b
    let sub_lo := max lo block_start
    let sub_hi := min hi (← add block_start scratch.length)
    let rel_lo ← sub sub_lo block_start
    let rel_hi ← sub sub_hi block_start
    let window ← segment scratch rel_lo rel_hi
    add sub_lo (simd.lower_bound k window value)

def checked_upper_bound (c : PackedColumn) (lo hi value : Nat) : Option Nat :=
  checked_bisect (fun i => do some (decide ((← checked_get c i) ≤ value))) (hi - lo) lo hi

/-! ## Encoding runs through -/

theorem exists_min? {chunk : List Nat} (h : chunk ≠ []) : ∃ base, chunk.min? = some base := by
  cases hmin : chunk.min? with
  | none => exact absurd (List.min?_eq_none_iff.mp hmin) h
  | some base => exact ⟨base, rfl⟩

theorem exists_max? {chunk : List Nat} (h : chunk ≠ []) : ∃ m, chunk.max? = some m := by
  cases hmax : chunk.max? with
  | none => exact absurd (List.max?_eq_none_iff.mp hmax) h
  | some m => exact ⟨m, rfl⟩

/-- The bit index of a place in a block fits a word. -/
theorem place_lt {i bits : Nat} (hi : i < BLOCK) (hbits : bits ≤ 64) : i * bits < 2 ^ 64 := by
  have hmul : i * bits ≤ BLOCK * 64 := Nat.mul_le_mul (Nat.le_of_lt hi) hbits
  unfold BLOCK at hmul
  omega

/-- The residuals of a chunk are written side by side as long as the words reach. -/
theorem checked_put_all (word_offset : Nat) {bits base : Nat} {chunk : List Nat} (hpos : 0 < bits)
    (hbits : bits ≤ 64) (hbase : ∀ v ∈ chunk, base ≤ v) (rest : List Nat) {m : Nat}
    {words : List (BitVec 64)} (hrest : chunk.drop m = rest) (hm : m + rest.length = chunk.length)
    (hblock : chunk.length ≤ BLOCK)
    (hroom : 64 * word_offset + chunk.length * bits ≤ 64 * words.length)
    (hlen : words.length < 2 ^ 64) :
    (rest.zipIdx m).foldlM (checked_put word_offset bits base) words =
      some (((rest.map fun v => BitVec.ofNat 64 (v - base)).zipIdx m).foldl
        (fun words (delta, i) =>
          write words (word_offset + i * bits / 64) (i * bits % 64) bits delta) words) := by
  induction rest generalizing words m with
  | nil => rfl
  | cons v rest ih =>
    have hv : v ∈ chunk := by
      refine List.mem_of_mem_drop (i := m) ?_
      rw [hrest]
      exact List.mem_cons_self
    rw [List.length_cons] at hm
    have hnext : (m + 1) * bits ≤ chunk.length * bits := Nat.mul_le_mul_right bits (by omega)
    rw [Nat.succ_mul] at hnext
    have hplace : 64 * (word_offset + m * bits / 64) + m * bits % 64 + bits ≤
        64 * words.length := by omega
    have hput : checked_put word_offset bits base words (v, m) =
        some (write words (word_offset + m * bits / 64) (m * bits % 64) bits
          (BitVec.ofNat 64 (v - base))) := by
      have hmul := place_lt (show m < BLOCK by omega) hbits
      have hw : word_offset + m * bits / 64 < 2 ^ 64 := by omega
      unfold checked_put
      simp only [sub_eq (hbase v hv), mul_eq hmul, add_eq hw, Option.bind_eq_bind,
        Option.bind_some]
      exact checked_write_eq (Nat.mod_lt _ (by omega)) hbits hpos hplace hlen
    have htail : chunk.drop (m + 1) = rest := by
      rw [← List.drop_drop, hrest]
      rfl
    rw [List.zipIdx_cons, List.foldlM_cons, hput, Option.bind_eq_bind, Option.bind_some]
    refine (ih htail (by omega) ?_ ?_).trans rfl
    · rw [length_write]
      exact hroom
    · rw [length_write]
      exact hlen

/-- A chunk adds at most one word for each of its values. -/
theorem length_push_block (out : List BlockMeta × List (BitVec 64)) {chunk : List Nat}
    (hbound : ∀ v ∈ chunk, v < 2 ^ 64) :
    (push_block out chunk).2.length ≤ out.2.length + chunk.length := by
  have hbits := bits_for_le (max_delta_lt (chunk.min?.getD 0) hbound)
  unfold push_block
  dsimp only
  generalize bits_for _ = bits at hbits
  split
  · exact Nat.le_add_right _ _
  · have hwords : ∀ (deltas : List (BitVec 64)) (words : List (BitVec 64)) (start m : Nat),
        ((deltas.zipIdx m).foldl (fun words (delta, i) =>
          write words (start + i * bits / 64) (i * bits % 64) bits delta) words).length =
            words.length := by
      intro deltas
      induction deltas with
      | nil => exact fun _ _ _ => rfl
      | cons delta deltas ih =>
        intro words start m
        rw [List.zipIdx_cons, List.foldl_cons, ih, length_write]
    unfold write_all
    rw [hwords, List.length_append, List.length_replicate]
    have hmul : chunk.length * bits ≤ chunk.length * 64 := Nat.mul_le_mul_left _ hbits
    omega

theorem checked_push_block_eq {out : List BlockMeta × List (BitVec 64)} {chunk : List Nat}
    (hne : chunk ≠ []) (hbound : ∀ v ∈ chunk, v < 2 ^ 64) (hblock : chunk.length ≤ BLOCK)
    (hlen : out.2.length + chunk.length < 2 ^ 64) :
    checked_push_block out chunk = some (push_block out chunk) := by
  obtain ⟨base, hmin⟩ := exists_min? hne
  have hbase : ∀ v ∈ chunk, base ≤ v := fun v hv => (List.min?_eq_some_iff.mp hmin).2 v hv
  have hmap : chunk.mapM (sub · base) = some (chunk.map (· - base)) :=
    Collect.mapM_some fun v hv => sub_eq (hbase v hv)
  obtain ⟨max_delta, hmax⟩ := exists_max? (mt (List.map_eq_nil_iff (f := (· - base))).mp hne)
  have hbits : bits_for max_delta ≤ 64 := by
    have hlt := max_delta_lt base hbound
    rw [hmax, Option.getD_some] at hlt
    exact bits_for_le hlt
  unfold checked_push_block push_block
  rw [hmin]
  simp only [Option.bind_eq_bind, Option.bind_some, Option.getD_some]
  rw [hmap, Option.bind_some, hmax]
  simp only [Option.bind_some, Option.getD_some]
  generalize bits_for max_delta = bits at hbits
  split
  · rfl
  · rename_i hpos
    have hmul : chunk.length * bits ≤ chunk.length * 64 := Nat.mul_le_mul_left _ hbits
    have htotal : chunk.length * bits < 2 ^ 64 := by
      have hblock' := Nat.mul_le_mul_right 64 hblock
      unfold BLOCK at hblock'
      omega
    have hsize : out.2.length + (chunk.length * bits + 63) / 64 < 2 ^ 64 := by omega
    rw [mul_eq htotal, Option.bind_some, add_eq hsize, Option.bind_some, Nat.add_sub_cancel_left]
    have hgrown :
        (out.2 ++ List.replicate ((chunk.length * bits + 63) / 64) (0 : BitVec 64)).length =
          out.2.length + (chunk.length * bits + 63) / 64 := by
      rw [List.length_append, List.length_replicate]
    have hroom : 64 * out.2.length + chunk.length * bits ≤
        64 * (out.2.length + (chunk.length * bits + 63) / 64) := by omega
    rw [← hgrown] at hroom hsize
    have hput := checked_put_all out.2.length (Nat.pos_of_ne_zero hpos) hbits hbase chunk
      (m := 0) List.drop_zero (Nat.zero_add _) hblock hroom hsize
    rw [hput]
    rfl

theorem checked_push_blocks {cs : List (List Nat)} (out : List BlockMeta × List (BitVec 64))
    (hne : ∀ chunk ∈ cs, chunk ≠ []) (hbound : ∀ chunk ∈ cs, ∀ v ∈ chunk, v < 2 ^ 64)
    (hblock : ∀ chunk ∈ cs, chunk.length ≤ BLOCK)
    (hlen : out.2.length + (cs.map List.length).sum < 2 ^ 64) :
    cs.foldlM checked_push_block out = some (cs.foldl push_block out) ∧
      (cs.foldl push_block out).2.length ≤ out.2.length + (cs.map List.length).sum := by
  induction cs generalizing out with
  | nil => exact ⟨rfl, Nat.le_add_right _ _⟩
  | cons chunk cs ih =>
    rw [List.forall_mem_cons] at hne hbound hblock
    rw [List.map_cons, List.sum_cons] at hlen
    have hword := length_push_block out hbound.1
    obtain ⟨hrest, hwords⟩ := ih (push_block out chunk) hne.2 hbound.2 hblock.2
      (by omega)
    rw [List.foldlM_cons, checked_push_block_eq hne.1 hbound.1 hblock.1 (by omega),
      Option.bind_eq_bind, Option.bind_some, List.foldl_cons, List.map_cons, List.sum_cons]
    exact ⟨hrest, by omega⟩

theorem chunks_ne_nil {values chunk : List Nat} (h : chunk ∈ chunks values) : chunk ≠ [] := by
  obtain ⟨b, hb, rfl⟩ := List.mem_map.mp h
  rw [List.mem_range] at hb
  rw [← List.length_pos_iff, length_slice_min]
  unfold BLOCK at hb ⊢
  omega

theorem length_chunk_le {values chunk : List Nat} (h : chunk ∈ chunks values) :
    chunk.length ≤ BLOCK := by
  obtain ⟨b, hb, rfl⟩ := List.mem_map.mp h
  rw [length_slice_min, Nat.succ_mul]
  omega

theorem sum_length_chunks (values : List Nat) :
    ((chunks values).map List.length).sum ≤ values.length := by
  have hfront : ∀ n, ((List.range n).map fun b =>
      (slice values (b * BLOCK) ((b + 1) * BLOCK)).length).sum ≤ min (n * BLOCK) values.length := by
    intro n
    induction n with
    | zero => simp
    | succ n ih =>
      rw [List.range_succ, List.map_append, List.sum_append, List.map_singleton,
        List.sum_singleton, length_slice_min]
      have hnext : (n + 1) * BLOCK = n * BLOCK + BLOCK := Nat.succ_mul n BLOCK
      omega
  unfold chunks
  rw [List.map_map]
  exact (hfront _).trans (Nat.min_le_right _ _)

variable (s : Slice)

/-- Encoding runs through, and takes at most a word for each value. -/
theorem checked_from_slice_eq :
    checked_from_slice s.values = some (from_slice s.values) ∧
      (from_slice s.values).words.length ≤ s.values.length := by
  have hsize := s.size
  have hsum := sum_length_chunks s.values
  obtain ⟨hrun, hwords⟩ := checked_push_blocks ([], [])
    (fun chunk (hc : chunk ∈ chunks s.values) => chunks_ne_nil hc) (fun chunk hc v hv => by
      obtain ⟨b, _, rfl⟩ := List.mem_map.mp hc
      exact s.fits v (mem_of_mem_slice hv))
    (fun chunk => length_chunk_le) (by rw [List.length_nil]; omega)
  rw [List.length_nil, Nat.zero_add] at hwords
  unfold checked_from_slice
  rw [hrun]
  exact ⟨rfl, hwords.trans hsum⟩

/-! ## Reading runs through -/

theorem checked_get_eq {i : Nat} (hi : i < s.values.length) :
    checked_get (from_slice s.values) i = some (s.values.getD i 0) := by
  have hsize := s.size
  have hwords := (checked_from_slice_eq s).2
  have hvalue := get_from_slice s.fits hi
  have hfits := s.fits _ (getD_mem_of_lt hi 0)
  obtain ⟨hblock, hplace, hstored⟩ := from_slice_stored s.fits hi
  rw [← hvalue] at hfits ⊢
  have hlen : i < (from_slice s.values).len := hi
  have hmeta : (from_slice s.values).blocks[i / BLOCK]? =
      some ((from_slice s.values).blocks.getD (i / BLOCK) default) := by
    rw [List.getElem?_eq_getElem hblock, List.getD_eq_getElem _ _ hblock]
  unfold checked_get get block_get at *
  generalize (from_slice s.values).blocks.getD (i / BLOCK) default = b at *
  simp only [guard, hlen, hmeta, if_true, Option.pure_def, Option.bind_eq_bind, Option.bind_some]
  split
  · rfl
  · rename_i hpos
    rw [if_neg hpos] at hfits
    have hroom := hstored.room
    have hbits := hstored.bits_le
    have hnext : (i % BLOCK + 1) * b.bits ≤
        (slice s.values (i / BLOCK * BLOCK) ((i / BLOCK + 1) * BLOCK)).length * b.bits :=
      Nat.mul_le_mul_right _ hplace
    rw [Nat.succ_mul] at hnext
    have hmul := place_lt (Nat.mod_lt i (show 0 < BLOCK by decide)) hbits
    have hw : b.word_offset + i % BLOCK * b.bits / 64 < 2 ^ 64 := by omega
    have hread := checked_read_eq (Nat.mod_lt (i % BLOCK * b.bits) (show 0 < 64 by decide)) hbits
      (Nat.pos_of_ne_zero hpos)
      (show 64 * (b.word_offset + i % BLOCK * b.bits / 64) + i % BLOCK * b.bits % 64 + b.bits ≤
        64 * (from_slice s.values).words.length by omega) (by omega)
    simp only [mul_eq hmul, add_eq hw, hread, Option.bind_some]
    exact add_eq hfits

/-! ## The searches run through -/

theorem checked_get_eq_get {i : Nat} (hi : i < s.values.length) :
    checked_get (from_slice s.values) i = some ((from_slice s.values).get i) := by
  rw [checked_get_eq s hi, get_from_slice s.fits hi]

/-- The end of a block fits a word. -/
theorem block_stop {b : Nat} (hb : b * BLOCK < s.values.length) :
    add b 1 = some (b + 1) ∧ mul (b + 1) BLOCK = some ((b + 1) * BLOCK) := by
  have hsize := s.size
  have hnext : (b + 1) * BLOCK = b * BLOCK + BLOCK := Nat.succ_mul b BLOCK
  have hblock : BLOCK = 256 := rfl
  have hle : b ≤ b * BLOCK := Nat.le_mul_of_pos_right b (by omega)
  have hadd : b + 1 < 2 ^ 64 := by omega
  have hmul : (b + 1) * BLOCK < 2 ^ 64 := by omega
  exact ⟨add_eq hadd, mul_eq hmul⟩

theorem checked_block_last_eq {b : Nat} (hb : b * BLOCK < s.values.length) :
    checked_block_last (from_slice s.values) b = some ((from_slice s.values).block_last b) := by
  obtain ⟨hadd, hmul⟩ := block_stop s hb
  have hlen : (from_slice s.values).len = s.values.length := rfl
  have hnext : (b + 1) * BLOCK = b * BLOCK + BLOCK := Nat.succ_mul b BLOCK
  have hstop : 1 ≤ min ((b + 1) * BLOCK) (from_slice s.values).len := by
    unfold BLOCK at *
    omega
  unfold checked_block_last block_last
  simp only [hadd, hmul, sub_eq hstop, Option.bind_eq_bind, Option.bind_some]
  exact checked_get_eq_get s (by omega)

theorem checked_decode_block_eq {b : Nat} (hb : b * BLOCK < s.values.length) :
    checked_decode_block (from_slice s.values) b =
      some (b * BLOCK, (from_slice s.values).decode_block b) := by
  have hsize := s.size
  obtain ⟨hadd, hmul⟩ := block_stop s hb
  have hstart : b * BLOCK < 2 ^ 64 := by omega
  have hlen : (from_slice s.values).len = s.values.length := rfl
  have hmap : (List.range (min ((b + 1) * BLOCK) (from_slice s.values).len - b * BLOCK)).mapM
      (fun i => checked_get (from_slice s.values) (b * BLOCK + i)) =
        some ((from_slice s.values).decode_block b) := by
    refine Collect.mapM_some fun i hi => ?_
    rw [List.mem_range] at hi
    exact checked_get_eq_get s (by omega)
  unfold checked_decode_block
  simp only [hadd, hmul, mul_eq hstart, Option.bind_eq_bind, Option.bind_some, hmap]

theorem checked_lower_bound_eq {k : simd.Kernel} {lo hi value : Nat} (hhi : hi ≤ s.values.length)
    (hinside : lower_bound k (from_slice s.values) lo hi value ≤ max lo hi) :
    checked_lower_bound k (from_slice s.values) lo hi value =
      some (lower_bound k (from_slice s.values) lo hi value) := by
  have hsize := s.size
  unfold checked_lower_bound
  unfold lower_bound at hinside ⊢
  split
  · rfl
  · rename_i hlt
    rw [if_neg hlt] at hinside
    have hone : 1 ≤ hi := by omega
    have hblocks : lo / BLOCK ≤ (hi - 1) / BLOCK := Nat.div_le_div_right (by omega)
    have hlast : (hi - 1) / BLOCK * BLOCK ≤ hi - 1 := Nat.div_mul_le_self _ _
    have hsearch := @checked_bisect_eq
      (fun b => (checked_block_last (from_slice s.values) b).bind fun last =>
        some (decide (last < value)))
      (fun b => decide ((from_slice s.values).block_last b < value))
      ((hi - 1) / BLOCK - lo / BLOCK) (lo / BLOCK) ((hi - 1) / BLOCK)
      (lt_of_le_of_lt (Nat.div_le_self _ _) (by omega)) fun b _ hb => by
        have hmul : b * BLOCK ≤ (hi - 1) / BLOCK * BLOCK := Nat.mul_le_mul_right _ hb.le
        rw [checked_block_last_eq s (by omega)]
        rfl
    obtain ⟨hfirst, hle⟩ := bisect_mem
      (fun b => decide ((from_slice s.values).block_last b < value))
      ((hi - 1) / BLOCK - lo / BLOCK) (lo / BLOCK) ((hi - 1) / BLOCK) hblocks
    simp only [sub_eq hone, hsearch, Option.bind_eq_bind, Option.bind_some]
    dsimp only at hinside
    generalize bisect (fun b => decide ((from_slice s.values).block_last b < value))
      ((hi - 1) / BLOCK - lo / BLOCK) (lo / BLOCK) ((hi - 1) / BLOCK) = b at hfirst hle hinside ⊢
    have hstart : b * BLOCK ≤ hi - 1 := (Nat.mul_le_mul_right _ hle).trans hlast
    have hafter : lo < (b + 1) * BLOCK := by
      have hmul := Nat.mul_le_mul_right BLOCK hfirst
      unfold BLOCK at hmul ⊢
      omega
    rw [checked_decode_block_eq s (by omega)]
    have hlen : ((from_slice s.values).decode_block b).length =
        min ((b + 1) * BLOCK) s.values.length - b * BLOCK := by
      unfold decode_block
      rw [List.length_map, List.length_range]
      rfl
    have hnext : (b + 1) * BLOCK = b * BLOCK + BLOCK := Nat.succ_mul b BLOCK
    have hend : b * BLOCK + ((from_slice s.values).decode_block b).length < 2 ^ 64 := by omega
    generalize (from_slice s.values).decode_block b = scratch at *
    have hlo : b * BLOCK ≤ max lo (b * BLOCK) := Nat.le_max_right _ _
    have hhi' : b * BLOCK ≤ min hi (b * BLOCK + scratch.length) := by omega
    have hrel : max lo (b * BLOCK) - b * BLOCK ≤
        min hi (b * BLOCK + scratch.length) - b * BLOCK := by omega
    have hwindow : min hi (b * BLOCK + scratch.length) - b * BLOCK ≤ scratch.length := by omega
    simp only [add_eq hend, sub_eq hlo, sub_eq hhi', segment_eq hrel hwindow, Option.bind_some]
    exact add_eq (by omega)

theorem checked_upper_bound_eq {lo hi value : Nat} (hhi : hi ≤ s.values.length) :
    checked_upper_bound (from_slice s.values) lo hi value =
      some ((from_slice s.values).upper_bound lo hi value) := by
  have hsize := s.size
  refine checked_bisect_eq _ _ _ (by omega) fun i _ hi' => ?_
  rw [checked_get_eq_get s (by omega)]
  rfl

/-! ## What a column does -/

/-- Over the range, no value is above a later one. -/
def NonDecreasing (values : List Nat) (lo hi : Nat) : Prop :=
  ∀ i j, lo ≤ i → i ≤ j → j < hi → values.getD i 0 ≤ values.getD j 0

theorem NonDecreasing.falls_lt {values : List Nat} {lo hi : Nat}
    (h : NonDecreasing values lo hi) (value : Nat) :
    Falls (fun i => values.getD i 0 < value) lo hi := by
  intro i j hi' hij hj hb
  rw [decide_eq_true_eq] at hb ⊢
  exact lt_of_le_of_lt (h i j hi' hij hj) hb

theorem NonDecreasing.falls_le {values : List Nat} {lo hi : Nat}
    (h : NonDecreasing values lo hi) (value : Nat) :
    Falls (fun i => values.getD i 0 ≤ value) lo hi := by
  intro i j hi' hij hj hb
  rw [decide_eq_true_eq] at hb ⊢
  exact (h i j hi' hij hj).trans hb

theorem slice_of_le {values : List Nat} {lo hi : Nat} (h : hi ≤ lo) : slice values lo hi = [] := by
  rw [← List.length_eq_zero_iff, length_slice_min]
  omega

theorem lower_bound_point (k : simd.Kernel) {lo hi value : Nat} (hhi : hi ≤ s.values.length)
    (hv : value < 2 ^ 64) (h : NonDecreasing s.values lo hi) :
    lower_bound k (from_slice s.values) lo hi value =
      lo + partition_point (· < value) (slice s.values lo hi) := by
  by_cases hlo : lo ≤ hi
  · have hfall := h.falls_lt value
    have hsplit := (from_slice_reads s.fits).lower_bound_splits k hv hlo hhi hfall
    exact hsplit.unique (slice_partition_splits (decide <| · < value) hlo hhi hfall)
  · unfold lower_bound
    rw [if_pos (by omega), slice_of_le (by omega)]
    rfl

theorem upper_bound_point {lo hi value : Nat} (hhi : hi ≤ s.values.length)
    (h : NonDecreasing s.values lo hi) :
    (from_slice s.values).upper_bound lo hi value =
      lo + partition_point (· ≤ value) (slice s.values lo hi) := by
  by_cases hlo : lo ≤ hi
  · have hfall := h.falls_le value
    have hsplit := (from_slice_reads s.fits).upper_bound_splits hlo hhi hfall
    exact hsplit.unique (slice_partition_splits (decide <| · ≤ value) hlo hhi hfall)
  · unfold upper_bound
    rw [slice_of_le (by omega), Nat.sub_eq_zero_of_le (by omega)]
    rfl

/-- The column of a slice is encoded, read and searched without an index out of range, a shift by
the width or a word that overflows. It reads as the slice, and its searches give the partition
points of every range in order. -/
theorem packed_column_runs :
    ∃ c, checked_from_slice s.values = some c ∧
      (∀ i < s.values.length, checked_get c i = some (s.values.getD i 0)) ∧
      ∀ lo hi value, hi ≤ s.values.length → value < 2 ^ 64 → NonDecreasing s.values lo hi →
        (∀ k, checked_lower_bound k c lo hi value =
          some (lo + partition_point (· < value) (slice s.values lo hi))) ∧
        checked_upper_bound c lo hi value =
          some (lo + partition_point (· ≤ value) (slice s.values lo hi)) := by
  refine ⟨from_slice s.values, (checked_from_slice_eq s).1, fun i hi => checked_get_eq s hi, ?_⟩
  intro lo hi value hhi hv h
  refine ⟨fun k => ?_, ?_⟩
  · have hpoint := lower_bound_point s k hhi hv h
    have hle : partition_point (· < value) (slice s.values lo hi) ≤
        (slice s.values lo hi).length := (List.takeWhile_prefix _).length_le
    rw [length_slice hhi] at hle
    rw [checked_lower_bound_eq s hhi (by rw [hpoint]; omega), hpoint]
  · rw [checked_upper_bound_eq s hhi, upper_bound_point s hhi h]

end PackedColumn

end horndb.wcoj
