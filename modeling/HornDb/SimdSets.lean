-- The set kernels: all of the ways to intersect two ascending slices append the words they have in
-- common, in order, and all of the ways to drop repeated words append each word once.
import HornDb.SimdLanes

open HornDb.Lib HornDb.Lib.Checked

namespace horndb.simd.words

/-! ## Vectors -/

/-- A vector: its words, and the room behind them with whatever is in it. -/
structure Vec where
  items : List UInt64
  spare : List UInt64

namespace Vec

/-- A vector that has no room grows. -/
def push (v : Vec) (x : UInt64) : Vec := ⟨v.items ++ [x], v.spare.drop 1⟩

/-- Room for `n` words. -/
def reserve (v : Vec) (n : Nat) : Vec :=
  ⟨v.items, v.spare ++ List.replicate (n - v.spare.length) 0⟩

/-- A write behind the words of the vector has to stay in its room. -/
def write_spare (v : Vec) (xs : List UInt64) : Option Vec :=
  if xs.length ≤ v.spare.length then some ⟨v.items, xs ++ v.spare.drop xs.length⟩ else none

/-- The first `n` words of the room are words of the vector now. -/
def set_len (v : Vec) (n : Nat) : Option Vec :=
  if n ≤ v.spare.length then some ⟨v.items ++ v.spare.take n, v.spare.drop n⟩ else none

end Vec

/-! ## Blocks -/

/-- The indices in the two slices, and what is appended so far. -/
structure Cursors where
  i : Nat
  j : Nat
  out : Vec

/-- All pairs of a block of `a` and a block of `b`: append the lanes of `a` that are in `b`. -/
abbrev Emit := Slice → Slice → Nat → Nat → Vec → Option Vec

def neon_emit : Emit := fun a b i j out => do
  let av ← a.load 2 i
  let b0 ← b.get j
  let b1 ← b.get (← add j 1)
  let eq := lanes_or (cmpeq av (set1 2 b0)) (cmpeq av (set1 2 b1))
  let out ← if get_lane 0 eq ≠ 0 then do some (out.push (← a.get i)) else some out
  if get_lane 1 eq ≠ 0 then do some (out.push (← a.get (← add i 1))) else some out

/-- Append the lanes of `a` whose bits are set. -/
def push_lane (a : Slice) (i mask : Nat) (out : Vec) (k : Nat) : Option Vec := do
  if mask &&& (1 <<< k) ≠ 0 then some (out.push (← a.get (← add i k))) else some out

def avx2_emit : Emit := fun a b i j out => do
  let av ← a.load 4 i
  let eq := cmpeq av (set1 4 (← b.get j))
  let eq := lanes_or eq (cmpeq av (set1 4 (← b.get (← add j 1))))
  let eq := lanes_or eq (cmpeq av (set1 4 (← b.get (← add j 2))))
  let eq := lanes_or eq (cmpeq av (set1 4 (← b.get (← add j 3))))
  let mask := movemask eq
  if mask ≠ 0 then (List.range 4).foldlM (push_lane a i mask) out else some out

/-- The lanes that are equal, as bits. -/
def cmpeq_mask (x y : List UInt64) : Nat := mask_of (List.zipWith (· == ·) x y)

/-- The lanes whose bits are set, one behind the other. -/
def compress : Nat → List UInt64 → List UInt64
  | _, [] => []
  | mask, x :: xs => if mask % 2 = 1 then x :: compress (mask / 2) xs else compress (mask / 2) xs

def or_mask (av : List UInt64) (b : Slice) (j mask t : Nat) : Option Nat := do
  some (mask ||| cmpeq_mask av (set1 8 (← b.get (← add j t))))

def avx512_emit : Emit := fun a b i j out => do
  let av ← a.load 8 i
  let mask ← (List.range 8).foldlM (or_mask av b j) 0
  let cnt := count_ones 8 mask
  if cnt ≠ 0 then ((out.reserve 8).write_spare (compress mask av)).bind (Vec.set_len · cnt)
  else some out

def go_on (smaller : Bool) (i w : Nat) : Option Nat := if smaller then add i w else some i

/-- While both sides have a block: append its matches, and go on behind the block with the smaller
last word, or behind both. -/
def block_step (w : Nat) (emit : Emit) (a b : Slice) (c : Cursors) :
    Option (Cursors ⊕ Cursors) := do
  if (← add c.i w) ≤ a.len then
    if (← add c.j w) ≤ b.len then
      let out ← emit a b c.i c.j c.out
      let a_max ← a.get (← sub (← add c.i w) 1)
      let b_max ← b.get (← sub (← add c.j w) 1)
      some (.inl ⟨← go_on (a_max ≤ b_max) c.i w, ← go_on (b_max ≤ a_max) c.j w, out⟩)
    else some (.inr c)
  else some (.inr c)

/-- Two indices, of which the one at the smaller word goes on. -/
def pointer_step (a b : Slice) (c : Cursors) : Option (Cursors ⊕ Vec) := do
  if c.i < a.len ∧ c.j < b.len then
    let av ← a.get c.i
    let bv ← b.get c.j
    if av < bv then some (.inl { c with i := ← add c.i 1 })
    else if bv < av then some (.inl { c with j := ← add c.j 1 })
    else some (.inl ⟨← add c.i 1, ← add c.j 1, c.out.push av⟩)
  else some (.inr c.out)

def pointers (a b : Slice) (c : Cursors) : Option Vec :=
  loop (pointer_step a b) (a.len + b.len + 1) c

/-- Blocks, and then the two indices. -/
def block_kernel (w : Nat) (emit : Emit) (a b : Slice) (out : Vec) : Option Vec := do
  pointers a b (← loop (block_step w emit a b) (a.len + b.len + 1) ⟨0, 0, out⟩)

def intersect_scalar (a b : Slice) (out : Vec) : Option Vec := pointers a b ⟨0, 0, out⟩

def intersect_neon : Slice → Slice → Vec → Option Vec := block_kernel 2 neon_emit

def intersect_avx2 : Slice → Slice → Vec → Option Vec := block_kernel 4 avx2_emit

def intersect_avx512 : Slice → Slice → Vec → Option Vec := block_kernel 8 avx512_emit

/-! ## Galloping -/

/-- What is left of the smaller side, the index in the larger side, and what is appended so far. -/
structure Finding where
  small : List UInt64
  pos : Nat
  out : Vec

def find_step (k : Kernel) (large : Slice) (s : Finding) : Option (Finding ⊕ Vec) :=
  match s.small with
  | [] => some (.inr s.out)
  | v :: small => do
    let pos ← add s.pos (← lower_bound k (← large.from_pos s.pos) v)
    if large.len ≤ pos then some (.inr s.out)
    else if (← large.get pos) = v then some (.inl ⟨small, ← add pos 1, s.out.push v⟩)
    else some (.inl ⟨small, pos, s.out⟩)

/-- Look up the words of the smaller side in the larger side. -/
def gallop (k : Kernel) (a b : Slice) (out : Vec) : Option Vec :=
  let (small, large) := if a.len ≤ b.len then (a, b) else (b, a)
  loop (find_step k large) (small.len + 1) ⟨small.items, 0, out⟩

/-! ## The dispatch -/

inductive SetKernel where
  | scalar
  | neon
  | avx2
  | avx512
deriving DecidableEq, Repr

def SetKernel.run : SetKernel → Slice → Slice → Vec → Option Vec
  | .scalar => intersect_scalar
  | .neon => intersect_neon
  | .avx2 => intersect_avx2
  | .avx512 => intersect_avx512

/-- What the dispatch picked on this host, and whether it was told to. -/
structure Host where
  forced : Bool
  set_kernel : SetKernel
  bound_kernel : Kernel

def GALLOP_RATIO : Nat := 16

/-- Blocks for slices of about one length, and a gallop for others. -/
def intersect (host : Host) (a b : Slice) (out : Vec) : Option Vec := do
  if host.forced then host.set_kernel.run a b out
  else
    let lo := min a.len b.len
    let hi := max a.len b.len
    if (← mul GALLOP_RATIO (max lo 1)) ≤ hi then gallop host.bound_kernel a b out
    else host.set_kernel.run a b out

/-! ## Runs of one word -/

/-- The word behind, when there is one. -/
def next_word (v : UInt64) : Option UInt64 := if v.toNat + 1 < 2 ^ 64 then some (v + 1) else none

/-- How many words from `i` on are `v`. Nothing is behind the greatest word. -/
def run_len (k : Kernel) (s : Slice) (v : UInt64) (i : Nat) : Option Nat :=
  if v = MAX then sub s.len i
  else do lower_bound k (← s.from_pos i) (← next_word v)

/-- The words so far, and where the next run starts. -/
def run_step (k : Kernel) (s : Slice) (c : Nat × Vec) : Option ((Nat × Vec) ⊕ Vec) := do
  if c.1 < s.len then
    let v ← s.get c.1
    let run ← run_len k s v c.1
    some (.inl (← add c.1 (max run 1), c.2.push v))
  else some (.inr c.2)

/-- Append a word and go on behind its run. -/
def dedup_runs (k : Kernel) (s : Slice) (out : Vec) : Option Vec :=
  loop (run_step k s) (s.len + 1) (0, out)

def dedup_avx2 : Kernel → Slice → Vec → Option Vec := dedup_runs

def dedup_neon : Kernel → Slice → Vec → Option Vec := dedup_runs

def keep_new (c : Vec × Option UInt64) (v : UInt64) : Vec × Option UInt64 :=
  if c.2 ≠ some v then (c.1.push v, some v) else c

def dedup_scalar (s : Slice) (out : Vec) : Vec := (s.items.foldl keep_new (out, none)).1

/-! ## What two slices have in common -/

/-- An ascending slice. -/
structure SetSlice extends Slice where
  ascending : items.Pairwise (· < ·)

/-- The words of both, in order. -/
def common (a b : Slice) : List UInt64 := a.items.filter fun x => x ∈ b.items

/-- The words in common that are in front of `i` in one slice or in front of `j` in the other. -/
structure Matched (a b : List UInt64) (i j : Nat) (c : List UInt64) : Prop where
  ascending : c.Pairwise (· < ·)
  mem : ∀ x, x ∈ c ↔ (x ∈ a ∧ x ∈ b) ∧ (x ∈ a.take i ∨ x ∈ b.take j)

theorem Matched.start (a b : List UInt64) : Matched a b 0 0 [] :=
  ⟨.nil, fun x => by simp⟩

variable {l : List UInt64} {x : UInt64}

theorem mem_take_or_drop (i : Nat) (h : x ∈ l) : x ∈ l.take i ∨ x ∈ l.drop i := by
  rw [← List.take_append_drop i l, List.mem_append] at h
  exact h

theorem mem_take_le {i i' : Nat} (h : i ≤ i') (hx : x ∈ l.take i) :
    x ∈ l.take i' := (List.take_sublist_take_left h).subset hx

theorem lt_of_take_drop (h : l.Pairwise (· < ·)) {i : Nat} {x y : UInt64} (hx : x ∈ l.take i)
    (hy : y ∈ l.drop i) : x < y := by
  rw [← List.take_append_drop i l, List.pairwise_append] at h
  exact h.2.2 x hx y hy

variable {a b : List UInt64}

/-- The matches of what is behind, when the indices go on: no match is left out and none comes
twice. -/
theorem Matched.append (ha : a.Pairwise (· < ·)) (hb : b.Pairwise (· < ·)) {i j i' j' : Nat}
    {c m : List UInt64} (h : Matched a b i j c) (hi : i ≤ i') (hj : j ≤ j')
    (hm : m.Pairwise (· < ·))
    (hmem : ∀ x, x ∈ m ↔ (x ∈ a.drop i ∧ x ∈ b.drop j) ∧ (x ∈ a.take i' ∨ x ∈ b.take j')) :
    Matched a b i' j' (c ++ m) := by
  refine ⟨List.pairwise_append.mpr ⟨h.ascending, hm, fun x hx y hy => ?_⟩, fun x => ?_⟩
  · obtain ⟨⟨hya, hyb⟩, -⟩ := (hmem y).mp hy
    rcases ((h.mem x).mp hx).2 with hxa | hxb
    · exact lt_of_take_drop ha hxa hya
    · exact lt_of_take_drop hb hxb hyb
  · rw [List.mem_append, h.mem, hmem]
    constructor
    · rintro (⟨hboth, hxa | hxb⟩ | ⟨⟨hxa, hxb⟩, hfront⟩)
      · exact ⟨hboth, Or.inl (mem_take_le hi hxa)⟩
      · exact ⟨hboth, Or.inr (mem_take_le hj hxb)⟩
      · exact ⟨⟨List.mem_of_mem_drop hxa, List.mem_of_mem_drop hxb⟩, hfront⟩
    · rintro ⟨⟨hxa, hxb⟩, hfront⟩
      rcases mem_take_or_drop i hxa with htake | hdropa
      · exact Or.inl ⟨⟨hxa, hxb⟩, Or.inl htake⟩
      rcases mem_take_or_drop j hxb with htake | hdropb
      · exact Or.inl ⟨⟨hxa, hxb⟩, Or.inr htake⟩
      · exact Or.inr ⟨⟨hdropa, hdropb⟩, hfront⟩

variable {c : List UInt64}

/-- At the end of one side, all is matched. -/
theorem Matched.done {a b : SetSlice} {i j : Nat} (h : Matched a.items b.items i j c)
    (hend : a.len ≤ i ∨ b.len ≤ j) : c = common a.toSlice b.toSlice := by
  refine List.Pairwise.eq_of_mem_iff (r := (· < ·)) h.ascending ?_ fun x => ?_
  · exact a.ascending.sublist (List.filter_sublist)
  · rw [h.mem, common, List.mem_filter, decide_eq_true_eq]
    refine and_iff_left_of_imp fun hboth => ?_
    rcases hend with hend | hend
    · rw [List.take_of_length_le hend]
      exact Or.inl hboth.1
    · rw [List.take_of_length_le hend]
      exact Or.inr hboth.2

theorem common_comm (a b : SetSlice) :
    common a.toSlice b.toSlice = common b.toSlice a.toSlice := by
  refine List.Pairwise.eq_of_mem_iff (r := (· < ·)) ?_ ?_ fun x => ?_
  · exact a.ascending.sublist (List.filter_sublist)
  · exact b.ascending.sublist (List.filter_sublist)
  · simp only [common, List.mem_filter, decide_eq_true_eq]
    exact and_comm

/-! ## Two indices -/

/-- The matches of what is in front of the two indices are behind what was there. -/
structure Held (a b : SetSlice) (front : List UInt64) (c : Cursors) : Prop where
  i_le : c.i ≤ a.len
  j_le : c.j ≤ b.len
  matched : ∃ m, c.out.items = front ++ m ∧ Matched a.items b.items c.i c.j m

/-- All of the matches are behind what was there. -/
def Appends (front c : List UInt64) (out : Vec) : Prop := out.items = front ++ c

def remaining (a b : Slice) (c : Cursors) : Nat := (a.len - c.i) + (b.len - c.j)

theorem Held.start (a b : SetSlice) (out : Vec) : Held a b out.items ⟨0, 0, out⟩ :=
  ⟨Nat.zero_le _, Nat.zero_le _, [], (List.append_nil _).symm, .start _ _⟩

theorem mem_drop_iff {i : Nat} (hx : l[i]? = some x) {y : UInt64} :
    y ∈ l.drop i ↔ y = x ∨ y ∈ l.drop (i + 1) := by
  obtain ⟨hi, rfl⟩ := List.getElem?_eq_some_iff.mp hx
  rw [List.drop_eq_getElem_cons hi, List.mem_cons]

theorem mem_take_succ {i : Nat} (hx : l[i]? = some x) {y : UInt64} :
    y ∈ l.take (i + 1) ↔ y ∈ l.take i ∨ y = x := by
  rw [List.take_add_one, hx, List.mem_append]
  simp

theorem not_take_of_drop (h : l.Pairwise (· < ·)) {i : Nat} (hx : x ∈ l.drop i) :
    x ∉ l.take i := fun ht => UInt64.lt_irrefl x (lt_of_take_drop h ht hx)

/-- Behind an index of an ascending slice, all words are at least the one there. -/
theorem le_of_drop (h : l.Pairwise (· < ·)) {i : Nat} {x y : UInt64} (hx : l[i]? = some x)
    (hy : y ∈ l.drop i) : x ≤ y := by
  rcases (mem_drop_iff hx).mp hy with rfl | hy
  · exact UInt64.le_refl _
  · have hmem : x ∈ l.take (i + 1) := (mem_take_succ hx).mpr (Or.inr rfl)
    exact UInt64.le_of_lt (lt_of_take_drop h hmem hy)

theorem Matched.skip_left (ha : a.Pairwise (· < ·)) (hb : b.Pairwise (· < ·)) {i j : Nat}
    (h : Matched a b i j c) (hx : a[i]? = some x) (hmiss : ∀ y ∈ b.drop j, x < y) :
    Matched a b (i + 1) j c := by
  have hnew := h.append ha hb (Nat.le_succ i) (Nat.le_refl j) (m := []) .nil fun y => by
    refine ⟨fun hy => absurd hy List.not_mem_nil, fun hy => ?_⟩
    obtain ⟨⟨hya, hyb⟩, htake⟩ := hy
    rcases htake with htake | htake
    · rcases (mem_take_succ hx).mp htake with htake | rfl
      · exact absurd htake (not_take_of_drop ha hya)
      · exact absurd (hmiss y hyb) (UInt64.lt_irrefl y)
    · exact absurd htake (not_take_of_drop hb hyb)
  rwa [List.append_nil] at hnew

theorem Matched.symm {i j : Nat} (h : Matched a b i j c) : Matched b a j i c :=
  ⟨h.ascending, fun x => (h.mem x).trans (and_congr and_comm or_comm)⟩

/-- The two words are one: it is appended. -/
theorem Matched.both (ha : a.Pairwise (· < ·)) (hb : b.Pairwise (· < ·)) {i j : Nat}
    (h : Matched a b i j c) (hxa : a[i]? = some x) (hxb : b[j]? = some x) :
    Matched a b (i + 1) (j + 1) (c ++ [x]) := by
  refine h.append ha hb (Nat.le_succ i) (Nat.le_succ j) (List.pairwise_singleton _ x) fun y => ?_
  rw [List.mem_singleton, mem_take_succ hxa, mem_take_succ hxb]
  constructor
  · rintro rfl
    exact ⟨⟨(mem_drop_iff hxa).mpr (Or.inl rfl), (mem_drop_iff hxb).mpr (Or.inl rfl)⟩,
      Or.inl (Or.inr rfl)⟩
  · rintro ⟨⟨hya, hyb⟩, (htake | rfl) | (htake | rfl)⟩
    · exact absurd htake (not_take_of_drop ha hya)
    · rfl
    · exact absurd htake (not_take_of_drop hb hyb)
    · rfl

theorem pointer_steps (a b : SetSlice) (front : List UInt64) (c : Cursors) (h : Held a b front c) :
    Steps (Held a b front) (Appends front (common a.toSlice b.toSlice))
      (remaining a.toSlice b.toSlice) (pointer_step a.toSlice b.toSlice c) c := by
  obtain ⟨hi, hj, m, hout, hm⟩ := h
  have halen := a.toSlice.len_lt
  have hblen := b.toSlice.len_lt
  unfold pointer_step
  split
  · rename_i hlt
    obtain ⟨x, hx, hxa⟩ := Slice.get_eq hlt.1
    obtain ⟨y, hy, hyb⟩ := Slice.get_eq hlt.2
    rw [hx, hy, add_eq (by omega), add_eq (by omega)]
    simp only [Option.bind_eq_bind, Option.bind_some]
    split
    · rename_i hless
      refine Or.inl ⟨_, rfl, ⟨hlt.1, hj, m, hout, ?_⟩, ?_⟩
      · exact hm.skip_left a.ascending b.ascending hxa fun z hz =>
          UInt64.lt_of_lt_of_le hless (le_of_drop b.ascending hyb hz)
      · unfold remaining
        dsimp only
        omega
    · rename_i hnot
      split
      · rename_i hless
        refine Or.inl ⟨_, rfl, ⟨hi, hlt.2, m, hout, ?_⟩, ?_⟩
        · exact (hm.symm.skip_left b.ascending a.ascending hyb fun z hz =>
            UInt64.lt_of_lt_of_le hless (le_of_drop a.ascending hxa hz)).symm
        · unfold remaining
          dsimp only
          omega
      · rename_i hnot'
        obtain rfl : x = y := UInt64.le_antisymm (UInt64.not_lt.mp hnot') (UInt64.not_lt.mp hnot)
        refine Or.inl ⟨_, rfl, ⟨hlt.1, hlt.2, m ++ [x], ?_, ?_⟩, ?_⟩
        · show c.out.items ++ [x] = front ++ (m ++ [x])
          rw [hout, List.append_assoc]
        · exact hm.both a.ascending b.ascending hxa hyb
        · unfold remaining
          dsimp only
          omega
  · rename_i hend
    refine Or.inr ⟨c.out, rfl, ?_⟩
    rw [Appends, hout, hm.done (by omega)]

theorem pointers_some (a b : SetSlice) {front : List UInt64} {c : Cursors} (h : Held a b front c) :
    ∃ out, pointers a.toSlice b.toSlice c = some out ∧
      Appends front (common a.toSlice b.toSlice) out := by
  refine loop_some _ _ _ (pointer_steps a b front) h ?_
  unfold remaining
  omega

/-! ## Blocks of lanes -/

theorem mem_block (h : l.Pairwise (· < ·)) {i n : Nat} :
    x ∈ slice l i n ↔ x ∈ l.drop i ∧ x ∈ l.take n := by
  constructor
  · intro hx
    refine ⟨?_, List.mem_of_mem_drop hx⟩
    rw [slice, List.drop_take] at hx
    exact List.mem_of_mem_take hx
  · rintro ⟨hdrop, htake⟩
    rcases mem_take_or_drop i htake with hfront | hback
    · refine absurd ?_ (not_take_of_drop h hdrop)
      rw [List.take_take] at hfront
      exact mem_take_le (Nat.min_le_left _ _) hfront
    · exact hback

/-- The last word of a block is the greatest in front of it. -/
theorem le_last (h : l.Pairwise (· < ·)) {n : Nat} {x y : UInt64} (hn : 0 < n)
    (hy : l[n - 1]? = some y) (hx : x ∈ l.take n) : x ≤ y := by
  obtain ⟨n, rfl⟩ := Nat.exists_eq_succ_of_ne_zero (Nat.ne_of_gt hn)
  rw [Nat.succ_sub_one] at hy
  rcases (mem_take_succ hy).mp hx with hx | rfl
  · have hmem : y ∈ l.drop n := (mem_drop_iff hy).mpr (Or.inl rfl)
    exact UInt64.le_of_lt (lt_of_take_drop h hx hmem)
  · exact UInt64.le_refl _

/-- A word of the block with the smaller last word is in the other block, when it is in the other
slice. -/
theorem block_match (ha : a.Pairwise (· < ·)) (hb : b.Pairwise (· < ·)) {i j n k : Nat}
    (hn : 0 < n) (hk : 0 < k) {a_max b_max x : UInt64} (hamax : a[n - 1]? = some a_max)
    (hbmax : b[k - 1]? = some b_max) (hle : a_max ≤ b_max) (hxa : x ∈ a.drop i)
    (hxb : x ∈ b.drop j) (htake : x ∈ a.take n) : x ∈ slice a i n ∧ x ∈ slice b j k := by
  refine ⟨(mem_block ha).mpr ⟨hxa, htake⟩, (mem_block hb).mpr ⟨hxb, ?_⟩⟩
  rcases mem_take_or_drop k (List.mem_of_mem_drop hxb) with htake' | hback
  · exact htake'
  · have hxmax := UInt64.le_trans (le_last ha hn hamax htake) hle
    have hmem : b_max ∈ b.take k := by
      refine List.mem_of_getElem? (i := k - 1) ?_
      rw [List.getElem?_take, if_pos (by omega)]
      exact hbmax
    exact absurd (UInt64.lt_of_lt_of_le (lt_of_take_drop hb hmem hback) hxmax)
      (UInt64.lt_irrefl _)

/-- The kernel of a pair of blocks appends what they have in common. -/
def Emits (w : Nat) (emit : Emit) : Prop :=
  ∀ (a b : Slice) (i j : Nat) (out : Vec), i + w ≤ a.len → j + w ≤ b.len →
    ∃ out', emit a b i j out = some out' ∧ out'.items = out.items ++
      (slice a.items i (i + w)).filter fun x => x ∈ slice b.items j (j + w)

/-- The matches of a pair of blocks, when the side with the smaller last word goes on. -/
theorem Matched.blocks (ha : a.Pairwise (· < ·)) (hb : b.Pairwise (· < ·)) {i j w : Nat}
    (hw : 0 < w) (h : Matched a b i j c) {a_max b_max : UInt64}
    (hamax : a[i + w - 1]? = some a_max) (hbmax : b[j + w - 1]? = some b_max) :
    Matched a b (if a_max ≤ b_max then i + w else i) (if b_max ≤ a_max then j + w else j)
      (c ++ (slice a i (i + w)).filter fun x => x ∈ slice b j (j + w)) := by
  refine h.append ha hb ?_ ?_ ?_ fun x => ?_
  · split <;> omega
  · split <;> omega
  · refine ha.sublist (List.filter_sublist.trans ?_)
    exact (List.drop_sublist _ _).trans (List.take_sublist _ _)
  · rw [List.mem_filter, decide_eq_true_eq]
    constructor
    · rintro ⟨hxa, hxb⟩
      obtain ⟨hadrop, hatake⟩ := (mem_block ha).mp hxa
      obtain ⟨hbdrop, hbtake⟩ := (mem_block hb).mp hxb
      refine ⟨⟨hadrop, hbdrop⟩, ?_⟩
      by_cases hle : a_max ≤ b_max
      · rw [if_pos hle]
        exact Or.inl hatake
      · rw [if_pos (UInt64.le_of_lt (UInt64.not_le.mp hle))]
        exact Or.inr hbtake
    · rintro ⟨⟨hxa, hxb⟩, htake | htake⟩
      · split at htake
        · rename_i hle
          exact block_match ha hb (by omega) (by omega) hamax hbmax hle hxa hxb htake
        · exact absurd htake (not_take_of_drop ha hxa)
      · split at htake
        · rename_i hle
          exact (block_match hb ha (by omega) (by omega) hbmax hamax hle hxb hxa htake).symm
        · exact absurd htake (not_take_of_drop hb hxb)

theorem go_on_eq {p : Prop} [Decidable p] {i w : Nat} (h : i + w < 2 ^ 64) :
    go_on p i w = some (if p then i + w else i) := by
  unfold go_on
  rw [add_eq h]
  by_cases hp : p <;> simp [hp]

theorem block_steps {w : Nat} (hw : 0 < w) (hw8 : w ≤ 8) {emit : Emit} (hemit : Emits w emit)
    (a b : SetSlice) (front : List UInt64) (c : Cursors) (h : Held a b front c) :
    Steps (Held a b front) (Held a b front) (remaining a.toSlice b.toSlice)
      (block_step w emit a.toSlice b.toSlice c) c := by
  obtain ⟨hi, hj, m, hout, hm⟩ := h
  have halen := a.toSlice.len_lt
  have hblen := b.toSlice.len_lt
  unfold block_step
  simp only [add_eq (show c.i + w < 2 ^ 64 by omega), add_eq (show c.j + w < 2 ^ 64 by omega),
    sub_eq (show 1 ≤ c.i + w by omega), sub_eq (show 1 ≤ c.j + w by omega), Option.bind_eq_bind,
    Option.bind_some]
  split
  · rename_i hai
    split
    · rename_i hbj
      obtain ⟨out, hrun, hitems⟩ := hemit a.toSlice b.toSlice c.i c.j c.out hai hbj
      obtain ⟨a_max, hamax, ha⟩ := Slice.get_eq (s := a.toSlice) (i := c.i + w - 1) (by omega)
      obtain ⟨b_max, hbmax, hb⟩ := Slice.get_eq (s := b.toSlice) (i := c.j + w - 1) (by omega)
      rw [hrun, hamax, hbmax]
      simp only [go_on_eq (show c.i + w < 2 ^ 64 by omega),
        go_on_eq (show c.j + w < 2 ^ 64 by omega), Option.bind_some]
      refine Or.inl ⟨_, rfl, ⟨?_, ?_, m ++ _, ?_,
        hm.blocks a.ascending b.ascending hw ha hb⟩, ?_⟩
      · dsimp only
        split <;> omega
      · dsimp only
        split <;> omega
      · rw [hitems, hout, List.append_assoc]
      · unfold remaining
        dsimp only
        rcases UInt64.le_total a_max b_max with hle | hle
        · rw [if_pos hle]
          split <;> omega
        · rw [if_pos hle]
          split <;> omega
    · exact Or.inr ⟨c, rfl, hi, hj, m, hout, hm⟩
  · exact Or.inr ⟨c, rfl, hi, hj, m, hout, hm⟩

theorem block_kernel_some {w : Nat} (hw : 0 < w) (hw8 : w ≤ 8) {emit : Emit}
    (hemit : Emits w emit) (a b : SetSlice) (out : Vec) :
    ∃ out', block_kernel w emit a.toSlice b.toSlice out = some out' ∧
      Appends out.items (common a.toSlice b.toSlice) out' := by
  obtain ⟨c, hloop, hheld⟩ := @loop_some _ _ _ _ _ _
    (block_steps hw hw8 hemit a b out.items) (a.len + b.len + 1) _ (Held.start a b out)
    (by unfold remaining; dsimp only; omega)
  obtain ⟨out', hout, happends⟩ := pointers_some a b hheld
  refine ⟨out', ?_, happends⟩
  rw [block_kernel, hloop]
  exact hout

/-! ## The pairs of a block -/

theorem cmpeq_set1 {w : Nat} {x : List UInt64} (h : x.length = w) (v : UInt64) :
    cmpeq x (set1 w v) = x.map fun a => lane_mask (a == v) := by
  rw [← h]
  exact zipWith_set1 _ x v

theorem lanes_or_map (x : List UInt64) (p q : UInt64 → Bool) :
    lanes_or (x.map fun a => lane_mask (p a)) (x.map fun a => lane_mask (q a)) =
      x.map fun a => lane_mask (p a || q a) := by
  induction x with
  | nil => rfl
  | cons a x ih => exact congrArg₂ List.cons (lane_mask_or (p a) (q a)) ih

theorem get_of_block {s : Slice} {i w k : Nat} (hk : k < w) :
    s.get (i + k) = (slice s.items i (i + w))[k]? := (block_get hk).symm

theorem neon_emits : Emits 2 neon_emit := by
  intro a b i j out hai hbj
  have halen := a.len_lt
  have hblen := b.len_lt
  obtain ⟨x₀, x₁, hx⟩ := List.length_eq_two.mp
    (show (slice a.items i (i + 2)).length = 2 by rw [length_slice hai]; omega)
  obtain ⟨y₀, y₁, hy⟩ := List.length_eq_two.mp
    (show (slice b.items j (j + 2)).length = 2 by rw [length_slice hbj]; omega)
  have hgeta (k : Nat) (hk : k < 2) : a.get (i + k) = [x₀, x₁][k]? :=
    (get_of_block hk).trans (by rw [hx])
  have hgetb (k : Nat) (hk : k < 2) : b.get (j + k) = [y₀, y₁][k]? :=
    (get_of_block hk).trans (by rw [hy])
  have ha₀ : a.get i = some x₀ := hgeta 0 (by decide)
  have ha₁ : a.get (i + 1) = some x₁ := hgeta 1 (by decide)
  have hb₀ : b.get j = some y₀ := hgetb 0 (by decide)
  have hb₁ : b.get (j + 1) = some y₁ := hgetb 1 (by decide)
  have hlanes : lanes_or (cmpeq [x₀, x₁] (set1 2 y₀)) (cmpeq [x₀, x₁] (set1 2 y₁)) =
      [lane_mask (x₀ == y₀ || x₀ == y₁), lane_mask (x₁ == y₀ || x₁ == y₁)] := by
    rw [cmpeq_set1 (w := 2) rfl, cmpeq_set1 (w := 2) rfl, lanes_or_map]
    rfl
  have hmem (x : UInt64) : decide (x ∈ [y₀, y₁]) = (x == y₀ || x == y₁) := by
    rw [Bool.eq_iff_iff]
    simp
  unfold neon_emit
  simp only [Slice.load_eq hai, hb₀, hb₁, ha₀, ha₁, add_eq (show j + 1 < 2 ^ 64 by omega),
    add_eq (show i + 1 < 2 ^ 64 by omega), Option.bind_eq_bind, Option.bind_some, hx, hy, hlanes,
    hmem, get_lane, List.getD_cons_zero, List.getD_cons_succ, ne_eq, lane_mask_zero,
    List.filter_cons, List.filter_nil]
  cases x₀ == y₀ || x₀ == y₁ <;> cases x₁ == y₀ || x₁ == y₁
  · exact ⟨out, rfl, (List.append_nil _).symm⟩
  · exact ⟨_, rfl, rfl⟩
  · exact ⟨_, rfl, rfl⟩
  · exact ⟨_, rfl, List.append_assoc ..⟩

/-- Every lane whose bit is set is appended. -/
theorem push_lanes {a : Slice} {i w : Nat} (hw : i + w ≤ a.len) (p : UInt64 → Bool) (out : Vec)
    {n : Nat} (hn : n ≤ w) :
    ∃ out', (List.range n).foldlM
        (push_lane a i (mask_of ((slice a.items i (i + w)).map p))) out = some out' ∧
      out'.items = out.items ++ ((slice a.items i (i + w)).take n).filter p := by
  have halen := a.len_lt
  induction n with
  | zero => exact ⟨out, rfl, (List.append_nil _).symm⟩
  | succ n ih =>
    obtain ⟨mid, hmid, hitems⟩ := ih (by omega)
    obtain ⟨x, hx, -⟩ := Slice.get_eq (s := a) (i := i + n) (by omega)
    have hlane : (slice a.items i (i + w))[n]? = some x := (get_of_block (by omega)).symm.trans hx
    have hbit := mask_and_bit ((slice a.items i (i + w)).map p) n
    rw [List.getD_eq_getElem?_getD, List.getElem?_map, hlane, Option.map_some,
      Option.getD_some] at hbit
    have hstep : push_lane a i (mask_of ((slice a.items i (i + w)).map p)) mid n =
        some (if p x then mid.push x else mid) := by
      unfold push_lane
      rw [add_eq (by omega)]
      simp only [Option.bind_eq_bind, Option.bind_some, hx, hbit]
      split <;> rfl
    refine ⟨if p x then mid.push x else mid, ?_, ?_⟩
    · rw [List.range_succ, List.foldlM_append, hmid]
      exact congrArg (Option.bind · some) hstep
    · rw [List.take_add_one, hlane, List.filter_append, ← List.append_assoc, ← hitems]
      cases hp : p x with
      | false => simp [hp]
      | true =>
        simp [hp]
        rfl

theorem filter_of_mask_zero {x : List UInt64} {p : UInt64 → Bool} (h : mask_of (x.map p) = 0) :
    x.filter p = [] := by
  rw [List.filter_eq_nil_iff]
  intro a ha hp
  obtain ⟨k, hk, rfl⟩ := List.mem_iff_getElem.mp ha
  have hbit := testBit_mask (x.map p) k
  rw [h, Nat.zero_testBit, List.getD_eq_getElem?_getD, List.getElem?_map,
    List.getElem?_eq_getElem hk, Option.map_some, Option.getD_some, hp] at hbit
  cases hbit

theorem avx2_emits : Emits 4 avx2_emit := by
  intro a b i j out hai hbj
  have halen := a.len_lt
  have hblen := b.len_lt
  have hsize : (slice a.items i (i + 4)).length = 4 := by
    rw [length_slice hai]
    omega
  obtain ⟨y₀, y₁, y₂, y₃, hy⟩ : ∃ y₀ y₁ y₂ y₃, slice b.items j (j + 4) = [y₀, y₁, y₂, y₃] := by
    have hlen : (slice b.items j (j + 4)).length = 4 := by
      rw [length_slice hbj]
      omega
    match slice b.items j (j + 4), hlen with
    | [y₀, y₁, y₂, y₃], _ => exact ⟨y₀, y₁, y₂, y₃, rfl⟩
  have hget (k : Nat) (hk : k < 4) : b.get (j + k) = [y₀, y₁, y₂, y₃][k]? :=
    (get_of_block hk).trans (by rw [hy])
  have hb₀ : b.get j = some y₀ := hget 0 (by decide)
  have hb₁ : b.get (j + 1) = some y₁ := hget 1 (by decide)
  have hb₂ : b.get (j + 2) = some y₂ := hget 2 (by decide)
  have hb₃ : b.get (j + 3) = some y₃ := hget 3 (by decide)
  have hmem (x : UInt64) : (((x == y₀ || x == y₁) || x == y₂) || x == y₃) =
      decide (x ∈ slice b.items j (j + 4)) := by
    rw [Bool.eq_iff_iff, hy]
    simp [or_assoc]
  unfold avx2_emit
  simp only [Slice.load_eq hai, hb₀, hb₁, hb₂, hb₃, add_eq (show j + 1 < 2 ^ 64 by omega),
    add_eq (show j + 2 < 2 ^ 64 by omega), add_eq (show j + 3 < 2 ^ 64 by omega),
    Option.bind_eq_bind, Option.bind_some, cmpeq_set1 hsize]
  rw [lanes_or_map _ (fun x => x == y₀), lanes_or_map _ (fun x => x == y₀ || x == y₁),
    lanes_or_map _ (fun x => (x == y₀ || x == y₁) || x == y₂), movemask_map]
  simp only [hmem]
  split
  · obtain ⟨out', hrun, hitems⟩ := push_lanes hai (fun x => x ∈ slice b.items j (j + 4)) out
      (Nat.le_refl 4)
    refine ⟨out', hrun, ?_⟩
    rw [hitems, List.take_of_length_le (Nat.le_of_eq hsize)]
  · rename_i hmask
    rw [ne_eq, not_not] at hmask
    refine ⟨out, rfl, ?_⟩
    rw [filter_of_mask_zero hmask, List.append_nil]

theorem compress_mask (x : List UInt64) (p : UInt64 → Bool) :
    compress (mask_of (x.map p)) x = x.filter p := by
  induction x with
  | nil => rfl
  | cons a x ih =>
    obtain ⟨hhalf, hbit⟩ := mask_of_cons_half (p a) (x.map p)
    rw [List.map_cons, mask_of, compress, hhalf, hbit, ih, List.filter_cons]
    cases p a <;> rfl

/-- The mask of a block of eight words. -/
theorem or_masks {b : Slice} {j : Nat} (hbj : j + 8 ≤ b.len) {av : List UInt64}
    (hav : av.length = 8) {n : Nat} (hn : n ≤ 8) :
    (List.range n).foldlM (or_mask av b j) 0 =
      some (mask_of (av.map fun x => x ∈ slice b.items j (j + n))) := by
  have hblen := b.len_lt
  induction n with
  | zero =>
    have hnone (x : UInt64) : decide (x ∈ slice b.items j (j + 0)) = false := by
      simp [slice]
    simp only [hnone]
    have hzero : mask_of (av.map fun _ => false) = 0 := by
      apply Nat.eq_of_testBit_eq
      intro k
      rw [testBit_mask, Nat.zero_testBit, List.getD_eq_getElem?_getD, List.getElem?_map]
      cases av[k]? <;> rfl
    rw [hzero]
    rfl
  | succ n ih =>
    obtain ⟨y, hy, hitem⟩ := Slice.get_eq (s := b) (i := j + n) (by omega)
    have hsplit : slice b.items j (j + (n + 1)) = slice b.items j (j + n) ++ [y] := by
      rw [slice, slice, ← Nat.add_assoc, List.take_add_one, hitem,
        List.drop_append_of_le_length (by
          have := hbj
          unfold Slice.len at this
          rw [List.length_take]
          omega)]
      rfl
    have hmask : cmpeq_mask av (set1 8 y) = mask_of (av.map fun x => x == y) := by
      rw [cmpeq_mask, ← hav, zipWith_set1]
    have hmem (x : UInt64) : (decide (x ∈ slice b.items j (j + n)) || x == y) =
        decide (x ∈ slice b.items j (j + (n + 1))) := by
      rw [Bool.eq_iff_iff, hsplit]
      simp
    rw [List.range_succ, List.foldlM_append, ih (by omega)]
    have hstep : or_mask av b j (mask_of (av.map fun x => x ∈ slice b.items j (j + n))) n =
        some (mask_of (av.map fun x => x ∈ slice b.items j (j + (n + 1)))) := by
      unfold or_mask
      simp only [add_eq (show j + n < 2 ^ 64 by omega), Option.bind_eq_bind, Option.bind_some, hy,
        hmask, mask_or_map, hmem]
    exact congrArg (Option.bind · some) hstep

theorem avx512_emits : Emits 8 avx512_emit := by
  intro a b i j out hai hbj
  have hsize : (slice a.items i (i + 8)).length = 8 := by
    rw [length_slice hai]
    omega
  have hcount : count_ones 8 (mask_of ((slice a.items i (i + 8)).map fun x =>
      x ∈ slice b.items j (j + 8))) =
        ((slice a.items i (i + 8)).filter fun x => x ∈ slice b.items j (j + 8)).length := by
    have hones := count_ones_mask ((slice a.items i (i + 8)).map fun x =>
      decide (x ∈ slice b.items j (j + 8)))
    rw [List.length_map, hsize] at hones
    rw [hones, List.countP_map, List.countP_eq_length_filter]
    rfl
  have hroom : ((slice a.items i (i + 8)).filter fun x =>
      x ∈ slice b.items j (j + 8)).length ≤ (out.reserve 8).spare.length := by
    have hle := List.length_filter_le (fun x => decide (x ∈ slice b.items j (j + 8)))
      (slice a.items i (i + 8))
    unfold Vec.reserve
    rw [List.length_append, List.length_replicate]
    omega
  unfold avx512_emit
  simp only [Slice.load_eq hai, Option.bind_eq_bind, Option.bind_some,
    or_masks hbj hsize (Nat.le_refl 8), hcount, compress_mask]
  split
  · unfold Vec.write_spare Vec.set_len
    rw [if_pos hroom, Option.bind_some,
      if_pos (by rw [List.length_append]; exact Nat.le_add_right _ _)]
    refine ⟨_, rfl, ?_⟩
    rw [List.take_left]
    rfl
  · rename_i hnone
    rw [ne_eq, not_not, List.length_eq_zero_iff] at hnone
    refine ⟨out, rfl, ?_⟩
    rw [hnone, List.append_nil]

/-! ## Lookups -/

/-- The matches of the words that are looked up already. -/
structure Found (a b : SetSlice) (front : List UInt64) (s : Finding) : Prop where
  pos_le : s.pos ≤ b.len
  matched : ∃ i m, s.small = a.items.drop i ∧ s.out.items = front ++ m ∧
    Matched a.items b.items i s.pos m

/-- The words from `pos` on are ascending too. -/
theorem SetSlice.from_sorted (s : SetSlice) {pos : Nat} (h : pos ≤ s.len) :
    ∃ t : SortedSlice, s.from_pos pos = some t.toSlice ∧ t.items = s.items.drop pos := by
  obtain ⟨t, ht, hitems⟩ := Slice.from_pos_eq h
  refine ⟨⟨t, ?_⟩, ht, hitems⟩
  rw [hitems]
  exact (s.ascending.sublist (List.drop_sublist _ _)).imp UInt64.le_of_lt

/-- The word that is looked up is behind all that the search passes. -/
theorem Matched.pass (ha : a.Pairwise (· < ·)) (hb : b.Pairwise (· < ·)) {i j k : Nat}
    (h : Matched a b i j c) (hx : a[i]? = some x) (hpass : ∀ y ∈ (b.drop j).take k, y < x) :
    Matched a b i (j + k) c := by
  have hnew := h.append ha hb (Nat.le_refl i) (Nat.le_add_right j k) (m := []) .nil fun y => by
    refine ⟨fun hy => absurd hy List.not_mem_nil, fun hy => ?_⟩
    obtain ⟨⟨hya, hyb⟩, htake⟩ := hy
    rcases htake with htake | htake
    · exact absurd htake (not_take_of_drop ha hya)
    · have hblock : y ∈ (b.drop j).take k := by
        have hmem := (mem_block hb).mpr ⟨hyb, htake⟩
        rwa [slice, List.drop_take, Nat.add_sub_cancel_left] at hmem
      exact absurd (UInt64.lt_of_lt_of_le (hpass y hblock) (le_of_drop ha hx hya))
        (UInt64.lt_irrefl y)
  rwa [List.append_nil] at hnew

theorem find_steps (k : Kernel) (a b : SetSlice) (front : List UInt64) (s : Finding)
    (h : Found a b front s) :
    Steps (Found a b front) (Appends front (common a.toSlice b.toSlice))
      (fun s => s.small.length) (find_step k b.toSlice s) s := by
  obtain ⟨small, pos, out⟩ := s
  obtain ⟨hpos, i, m, hsmall, hout, hm⟩ := h
  dsimp only at hpos hsmall hout hm
  have hblen := b.toSlice.len_lt
  cases small with
  | nil =>
    refine Or.inr ⟨out, rfl, ?_⟩
    rw [Appends, hout, hm.done (Or.inl (List.drop_eq_nil_iff.mp hsmall.symm))]
  | cons x small =>
    have hx : a.items[i]? = some x := by
      rw [← List.head?_drop, ← hsmall, List.head?_cons]
    have hrest : small = a.items.drop (i + 1) := by
      rw [← List.tail_drop, ← hsmall, List.tail_cons]
    obtain ⟨t, ht, hitems⟩ := b.from_sorted hpos
    have hbound := lower_bound_eq k t x
    have htake := take_partition_point (decide <| · < x) t.items
    have hdrop := drop_partition_point (decide <| · < x) t.items
    generalize hn : partition_point (decide <| · < x) t.items = n at *
    have hle : pos + n ≤ b.len := by
      have hlen : n ≤ t.items.length := by
        rw [← hn]
        exact (List.takeWhile_prefix _).length_le
      rw [hitems, List.length_drop] at hlen
      unfold Slice.len at hpos ⊢
      omega
    have hpass : Matched a.items b.items i (pos + n) m := by
      refine hm.pass a.ascending b.ascending hx fun y hy => ?_
      rw [← hitems, htake] at hy
      exact of_decide_eq_true (List.mem_takeWhile_imp (p := fun y => decide (y < x)) hy)
    unfold find_step
    simp only [ht, hbound, add_eq (show pos + n < 2 ^ 64 by omega), Option.bind_eq_bind,
      Option.bind_some]
    split
    · rename_i hend
      refine Or.inr ⟨out, rfl, ?_⟩
      rw [Appends, hout, hpass.done (Or.inr hend)]
    · rename_i hin
      obtain ⟨y, hy, hyb⟩ := Slice.get_eq (Nat.lt_of_not_le hin)
      rw [hy]
      simp only [Option.bind_some]
      split
      · rename_i hyx
        rw [hyx] at hyb
        rw [add_eq (by omega)]
        refine Or.inl ⟨⟨small, pos + n + 1, out.push x⟩, rfl, ⟨Nat.lt_of_not_le hin, i + 1,
          m ++ [x], hrest, ?_, hpass.both a.ascending b.ascending hx hyb⟩, Nat.lt_succ_self _⟩
        show out.items ++ [x] = front ++ (m ++ [x])
        rw [hout, List.append_assoc]
      · rename_i hyx
        have hge : ¬y < x := by
          have hhead := List.head?_dropWhile_not (fun y => decide (y < x)) t.items
          rw [← hdrop, List.head?_drop, hitems, List.getElem?_drop, hyb] at hhead
          simpa using hhead
        have hgt : x < y :=
          UInt64.lt_of_le_of_ne (UInt64.not_lt.mp hge) fun heq => hyx heq.symm
        refine Or.inl ⟨⟨small, pos + n, out⟩, rfl, ⟨hle, i + 1, m, hrest, hout, ?_⟩,
          Nat.lt_succ_self _⟩
        exact hpass.skip_left a.ascending b.ascending hx fun z hz =>
          UInt64.lt_of_lt_of_le hgt (le_of_drop b.ascending hyb hz)

theorem gallop_some (k : Kernel) (a b : SetSlice) (out : Vec) :
    ∃ out', gallop k a.toSlice b.toSlice out = some out' ∧
      Appends out.items (common a.toSlice b.toSlice) out' := by
  have hrun (a b : SetSlice) : ∃ out', loop (find_step k b.toSlice) (a.len + 1)
      ⟨a.items, 0, out⟩ = some out' ∧ Appends out.items (common a.toSlice b.toSlice) out' := by
    refine loop_some _ _ _ (find_steps k a b out.items) ⟨Nat.zero_le _, 0, [], rfl, ?_, ?_⟩ ?_
    · exact (List.append_nil _).symm
    · exact .start _ _
    · exact Nat.lt_succ_self _
  unfold gallop
  by_cases hle : a.len ≤ b.len
  · rw [if_pos hle]
    exact hrun a b
  · rw [if_neg hle, common_comm]
    exact hrun b a

theorem run_some (k : SetKernel) (a b : SetSlice) (out : Vec) :
    ∃ out', k.run a.toSlice b.toSlice out = some out' ∧
      Appends out.items (common a.toSlice b.toSlice) out' := by
  cases k with
  | scalar => exact pointers_some a b (.start a b out)
  | neon => exact block_kernel_some (by decide) (by decide) neon_emits a b out
  | avx2 => exact block_kernel_some (by decide) (by decide) avx2_emits a b out
  | avx512 => exact block_kernel_some (by decide) (by decide) avx512_emits a b out

/-- Whatever the dispatch picks, the words in common are appended. -/
theorem intersect_some (host : Host) (a b : SetSlice) (out : Vec) :
    ∃ out', intersect host a.toSlice b.toSlice out = some out' ∧
      Appends out.items (common a.toSlice b.toSlice) out' := by
  have halen := a.toSlice.len_lt
  have hblen := b.toSlice.len_lt
  unfold intersect
  split
  · exact run_some _ a b out
  · have hratio : GALLOP_RATIO * max (min a.len b.len) 1 < 2 ^ 64 := by
      unfold GALLOP_RATIO
      omega
    dsimp only
    rw [mul_eq hratio]
    simp only [Option.bind_eq_bind, Option.bind_some]
    split
    · exact gallop_some _ a b out
    · exact run_some _ a b out

/-! ## Each word once -/

/-- The words in front of `i`, each once, and all behind them are greater. -/
structure Distinct (l : List UInt64) (i : Nat) (c : List UInt64) : Prop where
  ascending : c.Pairwise (· < ·)
  mem : ∀ x, x ∈ c ↔ x ∈ l.take i
  behind : ∀ x ∈ l.take i, ∀ y ∈ l.drop i, x < y

/-- A whole run is one word more. -/
theorem Distinct.run {i n : Nat} (h : Distinct l i c) {v : UInt64} (hn : 0 < n)
    (hv : l[i]? = some v) (hsame : ∀ x ∈ (l.drop i).take n, x = v)
    (hnext : ∀ y ∈ l.drop (i + n), v < y) : Distinct l (i + n) (c ++ [v]) := by
  have hdrop : v ∈ l.drop i := (mem_drop_iff hv).mpr (Or.inl rfl)
  have hmem (x : UInt64) : x ∈ l.take (i + n) ↔ x ∈ l.take i ∨ x = v := by
    rw [List.take_add, List.mem_append]
    refine or_congr_right ⟨hsame x, ?_⟩
    rintro rfl
    obtain ⟨n, rfl⟩ := Nat.exists_eq_succ_of_ne_zero (Nat.ne_of_gt hn)
    obtain ⟨hi, rfl⟩ := List.getElem?_eq_some_iff.mp hv
    rw [List.drop_eq_getElem_cons hi, List.take_succ_cons]
    exact List.mem_cons_self
  refine ⟨?_, fun x => ?_, fun x hx y hy => ?_⟩
  · refine List.pairwise_append.mpr ⟨h.ascending, List.pairwise_singleton _ v, ?_⟩
    intro x hx y hy
    rw [List.mem_singleton.mp hy]
    exact h.behind x ((h.mem x).mp hx) v hdrop
  · rw [List.mem_append, List.mem_singleton, hmem, h.mem]
  · rcases (hmem x).mp hx with hx | rfl
    · refine h.behind x hx y ?_
      rw [← List.drop_drop] at hy
      exact List.mem_of_mem_drop hy
    · exact hnext y hy

/-- The words in front of the next run are behind what was there. -/
structure Deduped (s : SortedSlice) (front : List UInt64) (c : Nat × Vec) : Prop where
  i_le : c.1 ≤ s.len
  distinct : ∃ m, c.2.items = front ++ m ∧ Distinct s.items c.1 m

/-- The words of a slice, each once and in order, behind what was there. -/
def AppendsDistinct (s : Slice) (front : List UInt64) (out : Vec) : Prop :=
  ∃ c, c.Pairwise (· < ·) ∧ (∀ x, x ∈ c ↔ x ∈ s.items) ∧ Appends front c out

theorem SortedSlice.from_sorted (s : SortedSlice) {pos : Nat} (h : pos ≤ s.len) :
    ∃ t : SortedSlice, s.from_pos pos = some t.toSlice ∧ t.items = s.items.drop pos := by
  obtain ⟨t, ht, hitems⟩ := Slice.from_pos_eq h
  refine ⟨⟨t, ?_⟩, ht, hitems⟩
  rw [hitems]
  exact s.ordered.sublist (List.drop_sublist _ _)

theorem next_word_eq {v : UInt64} (h : v ≠ MAX) :
    ∃ w, next_word v = some w ∧ ∀ x : UInt64, x < w ↔ x ≤ v := by
  have hne : v.toNat ≠ 2 ^ 64 - 1 := fun heq => h (UInt64.toNat_inj.mp heq)
  have hlt := v.toNat_lt
  have hfits : v.toNat + 1 < 2 ^ 64 := by omega
  refine ⟨v + 1, if_pos hfits, fun x => ?_⟩
  rw [UInt64.lt_iff_toNat_lt, UInt64.le_iff_toNat_le, UInt64.toNat_add]
  change x.toNat < (v.toNat + 1) % 2 ^ 64 ↔ _
  rw [Nat.mod_eq_of_lt hfits]
  exact Nat.lt_succ_iff

/-- The run at `i`: how long it is, and what is behind it. -/
theorem run_some_of (k : Kernel) (s : SortedSlice) {i : Nat} {v : UInt64}
    (hv : s.items[i]? = some v) :
    ∃ n, run_len k s.toSlice v i = some n ∧ 0 < n ∧ i + n ≤ s.len ∧
      (∀ x ∈ (s.items.drop i).take n, x = v) ∧ ∀ y ∈ s.items.drop (i + n), v < y := by
  obtain ⟨hi, -⟩ := List.getElem?_eq_some_iff.mp hv
  have hge : ∀ x ∈ s.items.drop i, v ≤ x := by
    intro x hx
    obtain ⟨j, hj⟩ := List.mem_iff_getElem?.mp hx
    rw [List.getElem?_drop] at hj
    exact s.le_of (Nat.le_add_right i j) hv hj
  unfold run_len
  by_cases hmax : v = MAX
  · refine ⟨s.len - i, ?_, Nat.sub_pos_of_lt hi, by unfold Slice.len; omega, fun x hx => ?_, ?_⟩
    · rw [if_pos hmax]
      exact sub_eq (Nat.le_of_lt hi)
    · have hle : x ≤ MAX := by
        rw [UInt64.le_iff_toNat_le]
        exact Nat.le_of_lt_succ x.toNat_lt
      exact UInt64.le_antisymm (hmax ▸ hle) (hge x (List.mem_of_mem_take hx))
    · intro y hy
      rw [List.drop_of_length_le (by unfold Slice.len; omega)] at hy
      exact absurd hy List.not_mem_nil
  · obtain ⟨t, ht, hitems⟩ := s.from_sorted (Nat.le_of_lt hi)
    obtain ⟨w, hw, hlt⟩ := next_word_eq hmax
    have htake := take_partition_point (decide <| · < w) t.items
    have hdrop := drop_partition_point (decide <| · < w) t.items
    have hhead := List.head?_dropWhile_not (fun y => decide (y < w)) t.items
    have hlen : partition_point (decide <| · < w) t.items ≤ t.items.length :=
      (List.takeWhile_prefix _).length_le
    have hfirst : t.items[0]? = some v := by
      rw [hitems, List.getElem?_drop]
      exact hv
    refine ⟨partition_point (decide <| · < w) t.items, ?_, ?_, ?_, fun x hx => ?_, ?_⟩
    · rw [if_neg hmax, ht, hw]
      exact lower_bound_eq k t w
    · rw [Nat.pos_iff_ne_zero]
      intro hzero
      rw [hzero] at hdrop
      rw [← hdrop, List.head?_drop, hfirst] at hhead
      simp [hlt] at hhead
    · rw [hitems, List.length_drop] at hlen
      unfold Slice.len
      rw [hitems]
      omega
    · rw [← hitems, htake] at hx
      have hxw := of_decide_eq_true (List.mem_takeWhile_imp (p := fun y => decide (y < w)) hx)
      have hmem : x ∈ s.items.drop i := by
        rw [← hitems]
        exact (List.takeWhile_prefix _).sublist.subset hx
      exact UInt64.le_antisymm ((hlt x).mp hxw) (hge x hmem)
    · intro y hy
      rw [← List.drop_drop, ← hitems] at hy
      generalize partition_point (decide <| · < w) t.items = n at *
      cases hback : t.items.drop n with
      | nil =>
        rw [hback] at hy
        exact absurd hy List.not_mem_nil
      | cons z back =>
        rw [← hdrop, hback, List.head?_cons] at hhead
        have hz : v < z := by
          simpa [hlt] using hhead
        have hsorted := t.ordered.sublist (List.drop_sublist n _)
        rw [hback] at hy hsorted
        rcases List.mem_cons.mp hy with rfl | hy
        · exact hz
        · exact UInt64.lt_of_lt_of_le hz (List.rel_of_pairwise_cons hsorted hy)

theorem run_steps (k : Kernel) (s : SortedSlice) (front : List UInt64) (c : Nat × Vec)
    (h : Deduped s front c) :
    Steps (Deduped s front) (AppendsDistinct s.toSlice front) (fun c => s.len - c.1)
      (run_step k s.toSlice c) c := by
  obtain ⟨i, out⟩ := c
  obtain ⟨hi, m, hout, hm⟩ := h
  dsimp only at hi hout hm
  have hlen := s.toSlice.len_lt
  unfold run_step
  dsimp only
  split
  · rename_i hlt
    obtain ⟨v, hv, hitem⟩ := Slice.get_eq hlt
    obtain ⟨n, hrun, hn, hle, hsame, hnext⟩ := run_some_of k s hitem
    have hmax : max n 1 = n := by omega
    rw [hv]
    simp only [Option.bind_eq_bind, Option.bind_some, hrun, hmax,
      add_eq (show i + n < 2 ^ 64 by omega)]
    refine Or.inl ⟨(i + n, out.push v), rfl, ⟨hle, m ++ [v], ?_, hm.run hn hitem hsame hnext⟩, ?_⟩
    · show out.items ++ [v] = front ++ (m ++ [v])
      rw [hout, List.append_assoc]
    · exact Nat.sub_lt_sub_left hlt (Nat.lt_add_of_pos_right hn)
  · rename_i hend
    refine Or.inr ⟨out, rfl, m, hm.ascending, fun x => ?_, hout⟩
    rw [hm.mem, List.take_of_length_le (Nat.le_of_not_lt hend)]

theorem dedup_runs_some (k : Kernel) (s : SortedSlice) (out : Vec) :
    ∃ out', dedup_runs k s.toSlice out = some out' ∧
      AppendsDistinct s.toSlice out.items out' := by
  refine loop_some _ _ _ (run_steps k s out.items) ⟨Nat.zero_le _, [], ?_, .nil, fun x => ?_, ?_⟩ ?_
  · exact (List.append_nil _).symm
  · rw [List.take_zero]
  · exact fun x hx => absurd hx List.not_mem_nil
  · exact Nat.lt_succ_self _

/-- The words of `l`, each once, and the last of them. -/
theorem keep_new_all (l : List UInt64) (hl : l.Pairwise (· ≤ ·)) (out : Vec) :
    ∃ c, c.Pairwise (· < ·) ∧ (∀ x, x ∈ c ↔ x ∈ l) ∧
      (l.foldl keep_new (out, none)).1.items = out.items ++ c ∧
      (l.foldl keep_new (out, none)).2 = l.getLast? := by
  induction l using List.reverseRecOn with
  | nil => exact ⟨[], .nil, fun x => Iff.rfl, (List.append_nil _).symm, rfl⟩
  | append_singleton l v ih =>
    obtain ⟨hfront, -, hle⟩ := List.pairwise_append.mp hl
    obtain ⟨c, hasc, hmem, hout, hlast⟩ := ih hfront
    rw [List.foldl_append, List.foldl_cons, List.foldl_nil, keep_new, hlast,
      List.getLast?_append, List.getLast?_singleton, Option.some_or]
    by_cases hv : l.getLast? = some v
    · have hvmem : v ∈ l := List.mem_of_getLast? hv
      refine ⟨c, hasc, fun x => ?_, ?_, ?_⟩
      · rw [hmem, List.mem_append, List.mem_singleton]
        refine ⟨Or.inl, ?_⟩
        rintro (hx | rfl)
        · exact hx
        · exact hvmem
      · rw [if_neg (fun hne => hne hv)]
        exact hout
      · rw [if_neg (fun hne => hne hv)]
        exact hlast.trans hv
    · refine ⟨c ++ [v], ?_, fun x => ?_, ?_, ?_⟩
      · refine List.pairwise_append.mpr ⟨hasc, List.pairwise_singleton _ v, fun x hx y hy => ?_⟩
        rw [List.mem_singleton.mp hy]
        have hxl := (hmem x).mp hx
        refine UInt64.lt_of_le_of_ne (hle x hxl v List.mem_cons_self) ?_
        rintro rfl
        -- A word that is the last one's equal would be the last one.
        refine hv ?_
        have hne := List.ne_nil_of_mem hxl
        rw [List.getLast?_eq_getLast_of_ne_nil hne]
        have hlastmem := List.getLast_mem hne
        have hback : x ≤ l.getLast hne := by
          obtain ⟨i, hi, rfl⟩ := List.mem_iff_getElem.mp hxl
          rw [List.getLast_eq_getElem]
          rcases Nat.eq_or_lt_of_le (Nat.le_sub_one_of_lt hi) with heq | hlt
          · simp only [heq]
            exact UInt64.le_refl _
          · exact List.pairwise_iff_getElem.mp hfront i _ hi (by omega) hlt
        exact congrArg some (UInt64.le_antisymm (hle _ hlastmem x List.mem_cons_self) hback)
      · rw [List.mem_append, List.mem_append, hmem]
      · rw [if_pos hv]
        show (l.foldl keep_new (out, none)).1.items ++ [v] = out.items ++ (c ++ [v])
        rw [hout, List.append_assoc]
      · rw [if_pos hv]

/-- For ascending slices the two indices, the gallop, the block kernels and whatever the dispatch
picks append the words in common, ascending. For slices in order the lower bound kernels answer
with the partition point, the biased comparison of lanes being the unsigned one, and the scalar
loop and the kernels that jump over runs append each word once. None of them reads or writes
outside, or has an index that does not fit. -/
theorem set_kernels_exact :
    (∀ (a b : SetSlice) (out : Vec),
      ((common a.toSlice b.toSlice).Pairwise (· < ·) ∧
        ∀ x, x ∈ common a.toSlice b.toSlice ↔ x ∈ a.items ∧ x ∈ b.items) ∧
      ∀ kernel ∈ [intersect_scalar, intersect_neon, intersect_avx2, intersect_avx512,
          gallop .scalar, gallop .neon, gallop .avx2],
        ∃ out', kernel a.toSlice b.toSlice out = some out' ∧
          Appends out.items (common a.toSlice b.toSlice) out') ∧
    (∀ (host : Host) (a b : SetSlice) (out : Vec),
      ∃ out', intersect host a.toSlice b.toSlice out = some out' ∧
        Appends out.items (common a.toSlice b.toSlice) out') ∧
    (∀ (s : SortedSlice) (value : UInt64), ∀ kernel ∈ [lower_bound_neon, lower_bound_avx2],
      kernel s.toSlice value = some (partition_point (· < value) s.items)) ∧
    (∀ x v : UInt64, decide ((x ^^^ MIN).toInt64 < (v ^^^ MIN).toInt64) = decide (x < v)) ∧
    ∀ (s : SortedSlice) (out : Vec),
      AppendsDistinct s.toSlice out.items (dedup_scalar s.toSlice out) ∧
      ∀ k, ∀ kernel ∈ [dedup_avx2, dedup_neon], ∃ out', kernel k s.toSlice out = some out' ∧
        AppendsDistinct s.toSlice out.items out' := by
  refine ⟨fun a b out => ⟨⟨?_, fun x => ?_⟩, ?_⟩, fun host a b out => ?_, fun s value => ?_,
    biased_lt, fun s out => ⟨?_, fun k => ?_⟩⟩
  · exact a.ascending.sublist (List.filter_sublist)
  · rw [common, List.mem_filter, decide_eq_true_eq]
  · simp only [List.forall_mem_cons, List.not_mem_nil, false_implies, implies_true, and_true]
    exact ⟨run_some .scalar a b out, run_some .neon a b out, run_some .avx2 a b out,
      run_some .avx512 a b out, gallop_some .scalar a b out, gallop_some .neon a b out,
      gallop_some .avx2 a b out⟩
  · exact intersect_some host a b out
  · simp only [List.forall_mem_cons, List.not_mem_nil, false_implies, implies_true, and_true]
    exact ⟨lower_bound_eq .neon s value, lower_bound_eq .avx2 s value⟩
  · obtain ⟨c, hasc, hmem, hout, -⟩ := keep_new_all s.items s.ordered out
    exact ⟨c, hasc, hmem, hout⟩
  · simp only [List.forall_mem_cons, List.not_mem_nil, false_implies, implies_true, and_true]
    exact ⟨dedup_runs_some k s out, dedup_runs_some k s out⟩

end horndb.simd.words
