-- A heap in an array with its worst member at the root, which keeps a bounded number of the best
-- members of a sequence.
import Mathlib

namespace HornDb.Lib.MaxHeap

variable {α : Type} [Inhabited α]

section Sift

variable (worse : α → α → Bool)

/-- The member at `i` rises above each parent that it is worse than. -/
def sift_up (heap : Array α) (i : Nat) : Array α :=
  if 0 < i then
    let parent := (i - 1) / 2
    if worse heap[i]! heap[parent]! then sift_up (heap.swapIfInBounds i parent) parent
    else heap
  else heap
termination_by i
decreasing_by omega

/-- The worst of a place and its children. -/
def worst_of (heap : Array α) (i : Nat) : Nat :=
  [2 * i + 1, 2 * i + 2].foldl (fun m child =>
    if child < heap.size && worse heap[child]! heap[m]! then child else m) i

theorem worst_of_cases (heap : Array α) (i : Nat) :
    worst_of worse heap i = i ∨
      ((worst_of worse heap i = 2 * i + 1 ∨ worst_of worse heap i = 2 * i + 2) ∧
        worst_of worse heap i < heap.size) := by
  simp only [worst_of, List.foldl_cons, List.foldl_nil, Bool.and_eq_true, decide_eq_true_eq]
  split <;> split <;> omega

/-- The member at `i` sinks below the worst child, as long as one is worse. -/
def sift_down (heap : Array α) (i : Nat) : Array α :=
  let m := worst_of worse heap i
  if m = i then heap
  else sift_down (heap.swapIfInBounds i m) m
termination_by heap.size - i
decreasing_by
  have hcases := worst_of_cases worse heap i
  rw [Array.size_swapIfInBounds]
  omega

/-- A heap of at most `n` members takes one more, or leaves out the worst. -/
def offer (n : Nat) (heap : Array α) (x : α) : Array α :=
  if heap.size < n then sift_up worse (heap.push x) heap.size
  else if worse heap[0]! x then sift_down worse (heap.setIfInBounds 0 x) 0
  else heap

end Sift

/-! ## Swaps -/

section Swap

variable {heap : Array α} {i j : Nat}

theorem getElem!_swap (hi : i < heap.size) (hj : j < heap.size) (k : Nat) :
    (heap.swapIfInBounds i j)[k]! =
      if k = i then heap[j]! else if k = j then heap[i]! else heap[k]! := by
  by_cases hk : k < heap.size
  · rw [getElem!_pos (heap.swapIfInBounds i j) k (by rw [Array.size_swapIfInBounds]; exact hk),
      Array.getElem_swapIfInBounds, getElem!_pos heap i hi, getElem!_pos heap j hj,
      getElem!_pos heap k hk]
    simp only [hi, hj, and_true]
    split_ifs <;> rfl
  · rw [getElem!_neg (heap.swapIfInBounds i j) k (by rw [Array.size_swapIfInBounds]; exact hk),
      if_neg (by omega), if_neg (by omega), getElem!_neg heap k hk]

omit [Inhabited α] in
theorem perm_swap (i j : Nat) : (heap.swapIfInBounds i j).toList.Perm heap.toList := by
  rw [Array.swapIfInBounds_def]
  split
  · split
    · exact (Array.swap_perm _ _).toList
    · exact .rfl
  · exact .rfl

end Swap

/-! ## The order of a heap -/

/-- What it is to be worse: a strict order in which not to be worse is transitive. -/
structure Worse (worse : α → α → Bool) : Prop where
  asymm : ∀ {a b}, worse a b = true → worse b a = false
  trans : ∀ {a b c}, worse a b = false → worse b c = false → worse a c = false

omit [Inhabited α] in
/-- To be greater under a total preorder. -/
theorem worse_isGT {cmp : α → α → Ordering} (h : Std.TransCmp cmp) :
    Worse fun a b => (cmp a b).isGT where
  asymm {a b} hgt := by
    have hswap : cmp b a = (cmp a b).swap := Std.OrientedCmp.eq_swap
    rw [hswap]
    revert hgt
    cases cmp a b <;> simp
  trans {a b c} hab hbc := by
    rw [← Ordering.not_isLE_eq_isGT, Bool.not_eq_false'] at hab hbc ⊢
    exact Std.TransCmp.isLE_trans hab hbc

/-- No member is worse than its parent. -/
def IsHeap (worse : α → α → Bool) (heap : Array α) : Prop :=
  ∀ c, 0 < c → c < heap.size → worse heap[c]! heap[(c - 1) / 2]! = false

/-- Only the member at `i` may be worse than its parent. -/
structure Rising (worse : α → α → Bool) (heap : Array α) (i : Nat) : Prop where
  parents : ∀ c, 0 < c → c < heap.size → c ≠ i → worse heap[c]! heap[(c - 1) / 2]! = false
  grand : ∀ c, 0 < c → c < heap.size → (c - 1) / 2 = i → 0 < i →
    worse heap[c]! heap[(i - 1) / 2]! = false

/-- Only the member at `i` may be less bad than its children. -/
structure Sinking (worse : α → α → Bool) (heap : Array α) (i : Nat) : Prop where
  parents : ∀ c, 0 < c → c < heap.size → (c - 1) / 2 ≠ i → worse heap[c]! heap[(c - 1) / 2]! = false
  grand : ∀ c, 0 < c → c < heap.size → (c - 1) / 2 = i → 0 < i →
    worse heap[c]! heap[(i - 1) / 2]! = false

variable {worse : α → α → Bool} {heap : Array α} {i : Nat}

section Order

variable (hw : Worse worse)

include hw

omit [Inhabited α] in
theorem Worse.irrefl (a : α) : worse a a = false := by
  cases h : worse a a with
  | false => rfl
  | true => exact h.symm.trans (hw.asymm h)

theorem IsHeap.root_worst (h : IsHeap worse heap) (i : Nat) (hi : i < heap.size) :
    worse heap[i]! heap[0]! = false := by
  induction i using Nat.strong_induction_on with
  | _ i ih =>
    rcases Nat.eq_zero_or_pos i with rfl | hpos
    · exact hw.irrefl _
    · exact hw.trans (h i hpos hi) (ih _ (by omega) (by omega))

/-! ## Rising -/

theorem Rising.swap (h : Rising worse heap i) (hpos : 0 < i) (hi : i < heap.size)
    (hworse : worse heap[i]! heap[(i - 1) / 2]! = true) :
    Rising worse (heap.swapIfInBounds i ((i - 1) / 2)) ((i - 1) / 2) := by
  have hp : (i - 1) / 2 < heap.size := by omega
  have hget := getElem!_swap hi hp
  constructor
  · intro c hc hsize hne
    rw [Array.size_swapIfInBounds] at hsize
    rw [hget, hget]
    by_cases hci : c = i
    · subst hci
      rw [if_pos rfl, if_neg (by omega), if_pos rfl]
      exact hw.asymm hworse
    · rw [if_neg hci, if_neg hne]
      by_cases hpar : (c - 1) / 2 = i
      · rw [if_pos hpar]
        exact h.grand c hc hsize hpar hpos
      · rw [if_neg hpar]
        have hold := h.parents c hc hsize hci
        by_cases hsib : (c - 1) / 2 = (i - 1) / 2
        · rw [if_pos hsib]
          rw [hsib] at hold
          exact hw.trans hold (hw.asymm hworse)
        · rw [if_neg hsib]
          exact hold
  · intro c hc hsize hpar hpos'
    rw [Array.size_swapIfInBounds] at hsize
    rw [hget, hget, if_neg (show ((i - 1) / 2 - 1) / 2 ≠ i by omega),
      if_neg (show ((i - 1) / 2 - 1) / 2 ≠ (i - 1) / 2 by omega)]
    have hup := h.parents _ hpos' hp (by omega)
    by_cases hci : c = i
    · rw [if_pos hci]
      exact hup
    · rw [if_neg hci, if_neg (by omega)]
      have hold := h.parents c hc hsize hci
      rw [hpar] at hold
      exact hw.trans hold hup

theorem sift_up_heap (h : Rising worse heap i) (hi : i < heap.size) :
    IsHeap worse (sift_up worse heap i) ∧ (sift_up worse heap i).toList.Perm heap.toList := by
  induction i using Nat.strong_induction_on generalizing heap with
  | _ i ih =>
    unfold sift_up
    split
    · rename_i hpos
      dsimp only
      split
      · rename_i hworse
        obtain ⟨hheap, hperm⟩ := ih _ (by omega) (h.swap hw hpos hi hworse)
          (by rw [Array.size_swapIfInBounds]; omega)
        exact ⟨hheap, hperm.trans (perm_swap _ _)⟩
      · rename_i hnot
        refine ⟨fun c hc hsize => ?_, .rfl⟩
        by_cases hci : c = i
        · rw [hci]
          exact eq_false_of_ne_true hnot
        · exact h.parents c hc hsize hci
    · rename_i hzero
      exact ⟨fun c hc hsize => h.parents c hc hsize (by omega), .rfl⟩

/-! ## Sinking -/

theorem pick_worst (heap : Array α) (m c : Nat) :
    let x := if c < heap.size && worse heap[c]! heap[m]! then c else m
    worse heap[m]! heap[x]! = false ∧ (c < heap.size → worse heap[c]! heap[x]! = false) := by
  dsimp only
  split
  · rename_i h
    rw [Bool.and_eq_true] at h
    exact ⟨hw.asymm h.2, fun _ => hw.irrefl _⟩
  · rename_i h
    refine ⟨hw.irrefl _, fun hc => eq_false_of_ne_true fun hworse => h ?_⟩
    rw [Bool.and_eq_true, decide_eq_true_eq]
    exact ⟨hc, hworse⟩

/-- Neither the place nor a child is worse than the worst. -/
theorem worst_of_worst (heap : Array α) (i : Nat) :
    worse heap[i]! heap[worst_of worse heap i]! = false ∧
      ∀ c, 0 < c → c < heap.size → (c - 1) / 2 = i →
        worse heap[c]! heap[worst_of worse heap i]! = false := by
  obtain ⟨hfirst, hleft⟩ := pick_worst hw heap i (2 * i + 1)
  unfold worst_of
  simp only [List.foldl_cons, List.foldl_nil]
  generalize (if 2 * i + 1 < heap.size && worse heap[2 * i + 1]! heap[i]! then 2 * i + 1 else i) = m
    at hfirst hleft
  obtain ⟨hsecond, hright⟩ := pick_worst hw heap m (2 * i + 2)
  refine ⟨hw.trans hfirst hsecond, fun c hc hsize hpar => ?_⟩
  obtain rfl | rfl : c = 2 * i + 1 ∨ c = 2 * i + 2 := by omega
  · exact hw.trans (hleft hsize) hsecond
  · exact hright hsize

omit hw in
theorem Sinking.swap (h : Sinking worse heap i) {m : Nat} (hpos : 0 < m) (hm : m < heap.size)
    (hpar : (m - 1) / 2 = i) (hworse : worse heap[i]! heap[m]! = false)
    (hworst : ∀ c, 0 < c → c < heap.size → (c - 1) / 2 = i → worse heap[c]! heap[m]! = false) :
    Sinking worse (heap.swapIfInBounds i m) m := by
  have hi : i < heap.size := by omega
  have hget := getElem!_swap hi hm
  constructor
  · intro c hc hsize hne
    rw [Array.size_swapIfInBounds] at hsize
    rw [hget, hget, if_neg (show (c - 1) / 2 ≠ m by omega)]
    by_cases hci : c = i
    · subst hci
      rw [if_pos rfl, if_neg (by omega)]
      exact h.grand m hpos hm hpar hc
    · rw [if_neg hci]
      by_cases hparc : (c - 1) / 2 = i
      · rw [if_pos hparc]
        by_cases hcm : c = m
        · rw [if_pos hcm]
          exact hworse
        · rw [if_neg hcm]
          exact hworst c hc hsize hparc
      · rw [if_neg hparc, if_neg (by omega)]
        exact h.parents c hc hsize hparc
  · intro c hc hsize hparc _
    rw [Array.size_swapIfInBounds] at hsize
    rw [hpar, hget, hget, if_neg (by omega), if_neg (by omega), if_pos rfl, ← hparc]
    exact h.parents c hc hsize (by omega)

theorem sift_down_heap (h : Sinking worse heap i) :
    IsHeap worse (sift_down worse heap i) ∧ (sift_down worse heap i).toList.Perm heap.toList := by
  induction hk : heap.size - i using Nat.strong_induction_on generalizing heap i with
  | _ k ih =>
    subst hk
    obtain ⟨hself, hworst⟩ := worst_of_worst hw heap i
    unfold sift_down
    dsimp only
    split
    · rename_i hm
      rw [hm] at hworst
      refine ⟨fun c hc hsize => ?_, .rfl⟩
      by_cases hpar : (c - 1) / 2 = i
      · rw [hpar]
        exact hworst c hc hsize hpar
      · exact h.parents c hc hsize hpar
    · rename_i hm
      obtain ⟨hchild, hsize⟩ := (worst_of_cases worse heap i).resolve_left hm
      obtain ⟨hheap, hperm⟩ := ih _ (by rw [Array.size_swapIfInBounds]; omega)
        (h.swap (by omega) hsize (by omega) hself hworst) rfl
      exact ⟨hheap, hperm.trans (perm_swap _ _)⟩

/-! ## A bounded number of members -/

/-- A heap of the best `n` members of a list: no member that it keeps is worse than one that is
left out. -/
structure Keeps (worse : α → α → Bool) (n : Nat) (xs : List α) (heap : Array α) : Prop where
  ordered : IsHeap worse heap
  size : heap.size = min n xs.length
  best : ∃ rest : List α, (heap.toList ++ rest).Perm xs ∧
    ∀ k ∈ heap.toList, ∀ r ∈ rest, worse k r = false

omit hw in
theorem keeps_nil (n : Nat) : Keeps worse n [] #[] where
  ordered c _ hc := absurd hc (Nat.not_lt_zero c)
  size := by simp
  best := ⟨[], .rfl, by simp⟩

theorem IsHeap.mem_root (h : IsHeap worse heap) {k : α} (hk : k ∈ heap.toList) :
    worse k heap[0]! = false := by
  obtain ⟨i, hi, rfl⟩ := List.getElem_of_mem hk
  have hroot := h.root_worst hw i hi
  rw [getElem!_pos heap i hi] at hroot
  exact hroot

omit hw in
theorem rising_push (h : IsHeap worse heap) (x : α) : Rising worse (heap.push x) heap.size := by
  have hget : ∀ c < heap.size, (heap.push x)[c]! = heap[c]! := by
    intro c hc
    rw [getElem!_pos heap c hc, getElem!_pos (heap.push x) c (by rw [Array.size_push]; omega),
      Array.getElem_push_lt hc]
  constructor
  · intro c hc hsize hne
    rw [Array.size_push] at hsize
    rw [hget c (by omega), hget _ (by omega)]
    exact h c hc (by omega)
  · intro c _ hsize hpar _
    rw [Array.size_push] at hsize
    omega

omit hw in
theorem sinking_set (h : IsHeap worse heap) (x : α) :
    Sinking worse (heap.setIfInBounds 0 x) 0 := by
  have hget : ∀ c, 0 < c → (heap.setIfInBounds 0 x)[c]! = heap[c]! := by
    intro c hc
    rw [getElem!_def, getElem!_def, Array.getElem?_setIfInBounds_ne (by omega)]
  constructor
  · intro c hc hsize hpar
    rw [Array.size_setIfInBounds] at hsize
    rw [hget c hc, hget _ (by omega)]
    exact h c hc hsize
  · intro c _ _ _ hpos
    exact absurd hpos (lt_irrefl 0)

theorem Keeps.offer {n : Nat} {xs : List α} (hpos : 0 < n) (h : Keeps worse n xs heap) (x : α) :
    Keeps worse n (xs ++ [x]) (offer worse n heap x) := by
  obtain ⟨hheap, hsize, rest, hperm, hbest⟩ := h
  have hlen := hperm.length_eq
  rw [List.length_append, Array.length_toList] at hlen
  unfold MaxHeap.offer
  split
  · -- there is room, so nothing was left out
    rename_i hroom
    obtain ⟨hheap', hperm'⟩ := sift_up_heap hw (rising_push hheap x)
      (by rw [Array.size_push]; omega)
    have hsize' := hperm'.length_eq
    rw [Array.length_toList, Array.length_toList, Array.size_push] at hsize'
    obtain rfl : rest = [] := List.eq_nil_of_length_eq_zero (by omega)
    refine ⟨hheap', by rw [List.length_append, List.length_singleton]; omega, [], ?_, by simp⟩
    rw [List.append_nil] at hperm ⊢
    rw [Array.toList_push] at hperm'
    exact hperm'.trans (hperm.append_right [x])
  · rename_i hfull
    obtain ⟨root, tail, htail⟩ := List.exists_cons_of_length_pos
      (show 0 < heap.toList.length by rw [Array.length_toList]; omega)
    have hroot : heap[0]! = root := by
      have hget : heap.toList[0]? = some root := by rw [htail]; rfl
      rw [Array.getElem?_toList] at hget
      rw [getElem!_def, hget]
    split
    · -- the root makes room
      rename_i hworse
      rw [hroot] at hworse
      obtain ⟨hheap', hperm'⟩ := sift_down_heap hw (sinking_set hheap x)
      have hset : (heap.setIfInBounds 0 x).toList = x :: tail := by
        rw [Array.toList_setIfInBounds, htail]
        rfl
      have hsize' := hperm'.length_eq
      rw [Array.length_toList, Array.length_toList, Array.size_setIfInBounds] at hsize'
      rw [hset] at hperm'
      refine ⟨hheap', by rw [List.length_append, List.length_singleton]; omega, root :: rest,
        ?_, fun k hk r hr => ?_⟩
      · rw [htail] at hperm
        have hmoved : List.Perm (x :: tail ++ root :: rest) (x :: (root :: tail ++ rest)) :=
          List.perm_middle.cons x
        exact ((hperm'.append_right _).trans hmoved).trans
          ((hperm.cons x).trans (List.perm_append_singleton x xs).symm)
      · have hxroot := hw.asymm hworse
        rw [hperm'.mem_iff, List.mem_cons] at hk
        have hkroot : worse k root = false := by
          rcases hk with rfl | hk
          · exact hxroot
          · rw [← hroot]
            exact hheap.mem_root hw (by rw [htail]; exact List.mem_cons_of_mem _ hk)
        rcases List.mem_cons.mp hr with rfl | hr
        · exact hkroot
        · exact hw.trans hkroot (hbest root (by rw [htail]; exact List.mem_cons_self) r hr)
    · -- the new member is left out
      rename_i hnot
      refine ⟨hheap, by rw [List.length_append, List.length_singleton]; omega, x :: rest, ?_,
        fun k hk r hr => ?_⟩
      · exact List.perm_middle.trans ((hperm.cons x).trans (List.perm_append_singleton x xs).symm)
      · rcases List.mem_cons.mp hr with rfl | hr
        · exact hw.trans (hheap.mem_root hw hk) (eq_false_of_ne_true hnot)
        · exact hbest k hk r hr

/-- Every member of a list is offered, one after the other. -/
theorem keeps_foldl {n : Nat} (hpos : 0 < n) (xs : List α) :
    Keeps worse n xs (xs.foldl (MaxHeap.offer worse n) #[]) := by
  induction xs using List.reverseRecOn with
  | nil => exact keeps_nil n
  | append_singleton xs x ih =>
    rw [List.foldl_append]
    exact ih.offer hw hpos x

end Order

end HornDb.Lib.MaxHeap
