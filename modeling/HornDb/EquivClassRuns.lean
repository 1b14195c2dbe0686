-- The classes over whole runs: whatever is inserted, joined, asked and found, and in whatever order,
-- the roots tell which ids the joined pairs connect, and each root knows the least id of its class.
import HornDb.EquivClasses

open Relation
open Std (ExtTreeMap ReflCmp LawfulEqOrd)
open HornDb.Lib.Forest HornDb.Lib.Collect

namespace horndb.closure.sameas

/-- The joined pairs connect the two ids. -/
abbrev Linked (pairs : List (Nat × Nat)) : Nat → Nat → Prop := EqvGen fun u v => (u, v) ∈ pairs

/-- The arrays stand side by side, the slots number the ids, and the roots tell what the pairs
connect, each with the least id below it. -/
structure Valid (c : EquivClasses) (pairs : List (Nat × Nat)) : Prop where
  parents : c.parent.length = c.len
  ranks : c.rank.length = c.len
  canons : c.canon.length = c.len
  small : c.len ≤ NIL
  index : ∀ id slot : Nat, c.index[id]? = some slot ↔ c.values[slot]? = some id
  forest : ∃ depth, Forest depth c.parent
  same : ∀ i j x y : Nat, c.values[i]? = some x → c.values[j]? = some y →
    (root (links c.parent) i = root (links c.parent) j ↔ Linked pairs x y)
  ends : ∀ e ∈ pairs, e.1 ∈ c.values ∧ e.2 ∈ c.values
  least : ∀ i x : Nat, c.values[i]? = some x → ∃ m, c.canon[root (links c.parent) i]? = some m ∧
    m ≤ x ∧ ∃ j, c.values[j]? = some m ∧ root (links c.parent) j = root (links c.parent) i

variable {c : EquivClasses} {pairs : List (Nat × Nat)}

theorem new_valid : Valid .new [] where
  parents := rfl
  ranks := rfl
  canons := rfl
  small := Nat.zero_le _
  index id slot := by simp [EquivClasses.new]
  forest := ⟨fun _ => 0, by simp [EquivClasses.new], fun x hx => absurd rfl hx⟩
  same i j x y hx := by simp [EquivClasses.new] at hx
  ends e he := by cases he
  least i x hx := by simp [EquivClasses.new] at hx

theorem Valid.lt_len (h : Valid c pairs) {slot x : Nat} (hx : c.values[slot]? = some x) :
    slot < c.parent.length := by
  rw [h.parents]
  exact (List.getElem?_eq_some_iff.mp hx).1

/-- An id that is seen has its slot. -/
theorem Valid.index_mem (h : Valid c pairs) {id : Nat} :
    (∃ slot, c.index[id]? = some slot) ↔ id ∈ c.values := by
  rw [List.mem_iff_getElem?]
  exact exists_congr fun slot => h.index id slot

/-! ## Insert -/

/-- What an insert leaves: the slots stand and the id has one. -/
structure Inserted (c : EquivClasses) (id : Nat) (c' : EquivClasses) (slot : Nat) : Prop where
  slots : ∀ i x : Nat, c.values[i]? = some x → c'.values[i]? = some x
  slot : c'.values[slot]? = some id
  mem : ∀ x, x ∈ c'.values ↔ x ∈ c.values ∨ x = id
  len : c'.len ≤ c.len + 1

/-- The parents with a root more have the links they had. -/
theorem links_append (parents : List Nat) : links (parents ++ [parents.length]) = links parents := by
  funext x
  unfold links
  rw [List.getElem?_append]
  split
  · rfl
  · rename_i hout
    rw [List.getElem?_eq_none (l := parents) (by omega), List.getElem?_singleton]
    split
    · rw [Option.getD_some, Option.getD_none]
      omega
    · rfl

theorem Valid.append (h : Valid c pairs) {id : Nat} (hid : c.index[id]? = none)
    (hroom : c.len < NIL) :
    Valid { index := c.index.insert id c.len
            values := c.values ++ [id]
            parent := c.parent ++ [c.len]
            rank := c.rank ++ [0]
            canon := c.canon ++ [id] } pairs := by
  have hnew : id ∉ c.values := by
    intro hmem
    obtain ⟨slot, hslot⟩ := h.index_mem.mpr hmem
    rw [hid] at hslot
    cases hslot
  obtain ⟨depth, hforest⟩ := h.forest
  have hlinks : links (c.parent ++ [c.len]) = links c.parent := by
    rw [← h.parents]
    exact links_append c.parent
  have hlast : ∀ {i x : Nat}, (c.values ++ [id])[i]? = some x →
      c.values[i]? = some x ∨ (i = c.len ∧ x = id) := by
    intro i x hx
    rw [List.getElem?_append] at hx
    split at hx
    · exact Or.inl hx
    · rename_i hout
      rw [List.getElem?_singleton] at hx
      split at hx
      · unfold EquivClasses.len
        exact Or.inr ⟨by omega, (Option.some.inj hx).symm⟩
      · cases hx
  have hfixed : links c.parent c.len = c.len := by
    unfold links
    rw [List.getElem?_eq_none (by rw [h.parents]), Option.getD_none]
  have hrootlen := root_of_fixed hforest.descends hfixed
  have hroot : ∀ {i x : Nat}, c.values[i]? = some x → root (links c.parent) i < c.len := by
    intro i x hx
    have hlt := hforest.root_lt (h.lt_len hx)
    rwa [h.parents] at hlt
  have halone : ∀ {y}, y ∈ c.values → ¬Linked pairs id y := by
    intro y hy hlinked
    rcases eqvGen_ends (P := (· ∈ c.values)) (fun u v huv => h.ends (u, v) huv) hlinked with
      rfl | ⟨hmem, -⟩
    · exact hnew hy
    · exact hnew hmem
  have hnone : c.values[c.len]? = none := List.getElem?_eq_none le_rfl
  refine ⟨?_, ?_, ?_, ?_, ?_, ?_, ?_, ?_, ?_⟩
  · simp [EquivClasses.len, h.parents]
  · simp [EquivClasses.len, h.ranks]
  · simp [EquivClasses.len, h.canons]
  · simpa [EquivClasses.len] using hroom
  · intro k slot
    rw [ExtTreeMap.getElem?_insert]
    by_cases hk : id = k
    · subst hk
      rw [if_pos ReflCmp.compare_self, Option.some_inj]
      constructor
      · rintro rfl
        simp [EquivClasses.len]
      · intro hslot
        rcases hlast hslot with hold | ⟨rfl, -⟩
        · exact absurd (List.mem_of_getElem? hold) hnew
        · rfl
    · have hne : ¬compare id k = Ordering.eq := fun heq => hk (LawfulEqOrd.eq_of_compare heq)
      rw [if_neg hne, h.index]
      constructor
      · intro hslot
        rw [List.getElem?_append_left (List.getElem?_eq_some_iff.mp hslot).1]
        exact hslot
      · intro hslot
        exact (hlast hslot).resolve_right fun hend => hk hend.2.symm
  · refine ⟨depth, ⟨fun slot hslot => ?_, ?_⟩⟩
    · rw [hlinks]
      rw [List.length_append, List.length_singleton] at hslot ⊢
      by_cases hend : slot = c.len
      · subst hend
        rw [hfixed, ← h.parents]
        exact Nat.lt_succ_self _
      · have := h.parents
        exact Nat.lt_succ_of_lt (hforest.inside slot (by omega))
    · rw [hlinks]
      exact hforest.falls
  · intro i j x y hx hy
    rw [hlinks]
    rcases hlast hx with hold | ⟨rfl, rfl⟩
    · rcases hlast hy with hold' | ⟨rfl, rfl⟩
      · exact h.same i j x y hold hold'
      · rw [hrootlen]
        refine iff_of_false (Nat.ne_of_lt (hroot hold)) fun hlinked => ?_
        exact halone (List.mem_of_getElem? hold) hlinked.symm
    · rcases hlast hy with hold | ⟨rfl, rfl⟩
      · rw [hrootlen]
        refine iff_of_false (Nat.ne_of_gt (hroot hold)) fun hlinked => ?_
        exact halone (List.mem_of_getElem? hold) hlinked
      · exact iff_of_true rfl (.refl _)
  · intro e he
    obtain ⟨hfst, hsnd⟩ := h.ends e he
    exact ⟨List.mem_append_left _ hfst, List.mem_append_left _ hsnd⟩
  · intro i x hx
    rw [hlinks]
    rcases hlast hx with hx | ⟨rfl, rfl⟩
    · obtain ⟨m, hm, hle, j, hj, hji⟩ := h.least i x hx
      refine ⟨m, ?_, hle, j, ?_, hji⟩
      · rw [List.getElem?_append_left (List.getElem?_eq_some_iff.mp hm).1]
        exact hm
      · rw [List.getElem?_append_left (List.getElem?_eq_some_iff.mp hj).1]
        exact hj
    · refine ⟨x, ?_, le_rfl, c.len, ?_, rfl⟩
      · rw [hrootlen, List.getElem?_append_right (by rw [h.canons]), h.canons, Nat.sub_self]
        rfl
      · simp [EquivClasses.len]

/-- An insert fails only when the slots are used up. -/
theorem Valid.insert (h : Valid c pairs) (id : Nat) :
    (∃ c' slot, c.insert id = some (c', slot) ∧ Valid c' pairs ∧ Inserted c id c' slot) ∨
      (c.insert id = none ∧ c.len = NIL) := by
  unfold EquivClasses.insert
  cases hid : c.index[id]? with
  | some slot =>
    have hslot := (h.index id slot).mp hid
    refine Or.inl ⟨c, slot, rfl, h, fun _ _ hx => hx, hslot, fun x => ?_, Nat.le_succ _⟩
    constructor
    · exact Or.inl
    · rintro (hx | rfl)
      · exact hx
      · exact List.mem_of_getElem? hslot
  | none =>
    have hmod : c.values.length % 2 ^ 32 = c.len := by
      have := h.small
      unfold NIL at this
      exact Nat.mod_eq_of_lt (by unfold EquivClasses.len at this; omega)
    dsimp only
    rw [hmod]
    split
    · rename_i hfull
      exact Or.inr ⟨rfl, hfull⟩
    · rename_i hroom
      have hless : c.len < NIL := Nat.lt_of_le_of_ne h.small hroom
      refine Or.inl ⟨_, _, rfl, h.append hid hless, ?_, ?_, ?_, ?_⟩
      · intro i x hx
        dsimp only
        rw [List.getElem?_append_left (List.getElem?_eq_some_iff.mp hx).1]
        exact hx
      · simp [EquivClasses.len]
      · simp
      · simp [EquivClasses.len]

/-! ## Find -/

/-- The classes after a find: only the paths are shorter. -/
structure Found (c c' : EquivClasses) : Prop where
  index : c'.index = c.index
  values : c'.values = c.values
  rank : c'.rank = c.rank
  canon : c'.canon = c.canon
  root : ∀ slot, root (links c'.parent) slot = root (links c.parent) slot

theorem Found.trans {a b c : EquivClasses} (h : Found a b) (h' : Found b c) : Found a c :=
  ⟨h'.index.trans h.index, h'.values.trans h.values, h'.rank.trans h.rank, h'.canon.trans h.canon,
    fun slot => (h'.root slot).trans (h.root slot)⟩

theorem Valid.find (h : Valid c pairs) {slot : Nat} (hslot : slot < c.len) :
    ∃ c', c.find slot = some (c', root (links c.parent) slot) ∧ Valid c' pairs ∧ Found c c' := by
  obtain ⟨depth, hforest⟩ := h.forest
  obtain ⟨depth, hforest, hdepth⟩ := hforest.depth_le
  rw [← h.parents] at hslot
  obtain ⟨parents', hloop, hforest', hroots⟩ := find_loop_root _ hforest hslot (hdepth slot)
  refine ⟨{ c with parent := parents' }, ?_, ?_, rfl, rfl, rfl, rfl, hroots.root⟩
  · unfold EquivClasses.find
    rw [hloop]
    rfl
  · refine ⟨hroots.length.trans h.parents, h.ranks, h.canons, h.small, h.index,
      ⟨depth, hforest'⟩, ?_, h.ends, ?_⟩
    · intro i j x y hx hy
      dsimp only
      rw [hroots.root, hroots.root]
      exact h.same i j x y hx hy
    · intro i x hx
      simp only [hroots.root]
      exact h.least i x hx

/-! ## Union -/

theorem linked_append (pairs : List (Nat × Nat)) (a b x y : Nat) :
    Linked (pairs ++ [(a, b)]) x y ↔
      Linked pairs x y ∨ (Linked pairs x a ∧ Linked pairs b y) ∨
        (Linked pairs x b ∧ Linked pairs a y) := by
  rw [← eqvGen_join]
  have hpairs : (fun u v => (u, v) ∈ pairs ++ [(a, b)]) =
      fun u v => (u, v) ∈ pairs ∨ (u = a ∧ v = b) := by
    funext u v
    rw [List.mem_append, List.mem_singleton, Prod.mk.injEq]
  rw [Linked, hpairs]

theorem Valid.ends_append (h : Valid c pairs) {a b : Nat} (ha : a ∈ c.values)
    (hb : b ∈ c.values) : ∀ e ∈ pairs ++ [(a, b)], e.1 ∈ c.values ∧ e.2 ∈ c.values := by
  intro e he
  rcases List.mem_append.mp he with he | he
  · exact h.ends e he
  · rw [List.mem_singleton] at he
    rw [he]
    exact ⟨ha, hb⟩

/-- A pair of one class joins nothing. -/
theorem Valid.already (h : Valid c pairs) {i j a b : Nat} (hi : c.values[i]? = some a)
    (hj : c.values[j]? = some b) (heq : root (links c.parent) i = root (links c.parent) j) :
    Valid c (pairs ++ [(a, b)]) := by
  have hab := (h.same i j a b hi hj).mp heq
  refine { h with same := fun k l x y hx hy => ?_, ends := ?_ }
  · rw [h.same k l x y hx hy, linked_append]
    constructor
    · exact Or.inl
    · rintro (hxy | ⟨hx, hy⟩ | ⟨hx, hy⟩)
      · exact hxy
      · exact (hx.trans _ _ _ hab).trans _ _ _ hy
      · exact (hx.trans _ _ _ hab.symm).trans _ _ _ hy
  · exact h.ends_append (List.mem_of_getElem? hi) (List.mem_of_getElem? hj)

/-- Linking the roots of two classes, on either side, joins the classes of the pair. -/
theorem Valid.linked (h : Valid c pairs) {i j a b top child mt mc : Nat} {rank : List Nat}
    (hi : c.values[i]? = some a) (hj : c.values[j]? = some b)
    (hne : root (links c.parent) i ≠ root (links c.parent) j)
    (hsides : top = root (links c.parent) i ∧ child = root (links c.parent) j ∨
      top = root (links c.parent) j ∧ child = root (links c.parent) i)
    (hmt : c.canon[top]? = some mt) (hmc : c.canon[child]? = some mc)
    (hrank : rank.length = c.len) :
    Valid { c with
      parent := c.parent.set child top
      rank := rank
      canon := c.canon.set top (min mt mc) } (pairs ++ [(a, b)]) := by
  obtain ⟨depth, hforest⟩ := h.forest
  have hd := hforest.descends
  have hi_lt := hforest.root_lt (h.lt_len hi)
  have hj_lt := hforest.root_lt (h.lt_len hj)
  have hroots : (links c.parent top = top ∧ links c.parent child = child) ∧ child ≠ top ∧
      top < c.parent.length ∧ child < c.parent.length := by
    rcases hsides with ⟨rfl, rfl⟩ | ⟨rfl, rfl⟩
    · exact ⟨⟨next_root hd i, next_root hd j⟩, hne.symm, hi_lt, hj_lt⟩
    · exact ⟨⟨next_root hd j, next_root hd i⟩, hne, hj_lt, hi_lt⟩
  obtain ⟨⟨htop, hchild⟩, hct, htop_lt, hchild_lt⟩ := hroots
  have hlinks : links (c.parent.set child top) = Function.update (links c.parent) child top :=
    links_set hchild_lt
  obtain ⟨⟨depth', hfalls⟩, hroot⟩ := link hd hchild htop hct
  rw [← hlinks] at hfalls hroot
  have hclass : ∀ k, root (links (c.parent.set child top)) k = top ↔
      root (links c.parent) k = top ∨ root (links c.parent) k = child := by
    intro k
    rw [hroot]
    split
    · rename_i hk
      exact iff_of_true rfl (Or.inr hk)
    · rename_i hk
      exact (or_iff_left hk).symm
  -- the least ids of the two sides are ids of the two classes
  have hmember : ∀ {k x : Nat}, c.values[k]? = some x → ∀ {m}, c.canon[root (links c.parent) k]? =
      some m → ∃ l, c.values[l]? = some m ∧ root (links c.parent) l = root (links c.parent) k := by
    intro k x hx m hm
    obtain ⟨m', hm', -, hl⟩ := h.least k x hx
    rw [hm] at hm'
    cases hm'
    exact hl
  have hmembers : (∃ l, c.values[l]? = some mt ∧ root (links c.parent) l = top) ∧
      ∃ l, c.values[l]? = some mc ∧ root (links c.parent) l = child := by
    rcases hsides with ⟨rfl, rfl⟩ | ⟨rfl, rfl⟩
    · exact ⟨hmember hi hmt, hmember hj hmc⟩
    · exact ⟨hmember hj hmt, hmember hi hmc⟩
  refine ⟨?_, hrank, ?_, h.small, h.index, ⟨depth', ⟨fun slot hslot => ?_, hfalls⟩⟩, ?_,
    h.ends_append (List.mem_of_getElem? hi) (List.mem_of_getElem? hj), ?_⟩
  · exact List.length_set.trans h.parents
  · exact List.length_set.trans h.canons
  · rw [List.length_set] at hslot ⊢
    rw [hlinks, Function.update_apply]
    split
    · exact htop_lt
    · exact hforest.inside slot hslot
  · intro k l x y hx hy
    rw [linked_append, ← h.same k l x y hx hy, ← h.same k i x a hx hi, ← h.same j l b y hj hy,
      ← h.same k j x b hx hj, ← h.same i l a y hi hy]
    dsimp only
    rw [hroot, hroot]
    rcases hsides with ⟨rfl, rfl⟩ | ⟨rfl, rfl⟩ <;> split <;> split <;> simp_all <;> tauto
  · intro k x hx
    obtain ⟨m, hm, hle, l, hl, hlk⟩ := h.least k x hx
    dsimp only
    by_cases hk : root (links (c.parent.set child top)) k = top
    · rw [hk, List.getElem?_set_self (by rw [h.canons, ← h.parents]; exact htop_lt)]
      refine ⟨min mt mc, rfl, ?_, ?_⟩
      · rcases (hclass k).mp hk with hside | hside
        · rw [hside, hmt] at hm
          cases hm
          exact (min_le_left _ _).trans hle
        · rw [hside, hmc] at hm
          cases hm
          exact (min_le_right _ _).trans hle
      · obtain ⟨⟨lt, hlt, hlt'⟩, ⟨lc, hlc, hlc'⟩⟩ := hmembers
        rcases min_choice mt mc with hmin | hmin
        · exact ⟨lt, hlt.trans (congrArg some hmin.symm), (hclass lt).mpr (Or.inl hlt')⟩
        · exact ⟨lc, hlc.trans (congrArg some hmin.symm), (hclass lc).mpr (Or.inr hlc')⟩
    · have hkeep : root (links (c.parent.set child top)) k = root (links c.parent) k := by
        rw [hroot, if_neg fun hc => hk ((hclass k).mpr (Or.inr hc))]
      refine ⟨m, ?_, hle, l, hl, ?_⟩
      · rw [List.getElem?_set_ne (Ne.symm hk), hkeep]
        exact hm
      · rw [hroot, hroot, hlk]

theorem Valid.link_roots (h : Valid c pairs) {i j a b : Nat} (hi : c.values[i]? = some a)
    (hj : c.values[j]? = some b) (hne : root (links c.parent) i ≠ root (links c.parent) j) :
    ∃ c', c.link_roots (root (links c.parent) i) (root (links c.parent) j) = some c' ∧
      Valid c' (pairs ++ [(a, b)]) ∧ c'.values = c.values := by
  obtain ⟨mi, hmi, -⟩ := h.least i a hi
  obtain ⟨mj, hmj, -⟩ := h.least j b hj
  have hrank : ∀ {k m : Nat}, c.canon[k]? = some m → ∃ r, c.rank[k]? = some r := by
    intro k m hm
    have hlt := (List.getElem?_eq_some_iff.mp hm).1
    rw [h.canons, ← h.ranks] at hlt
    exact ⟨_, List.getElem?_eq_getElem hlt⟩
  obtain ⟨ri, hri⟩ := hrank hmi
  obtain ⟨rj, hrj⟩ := hrank hmj
  unfold EquivClasses.link_roots
  rw [hri, hrj]
  simp only [Option.bind_eq_bind, Option.bind_some]
  cases compare ri rj with
  | lt =>
    simp only [hmi, hmj, Option.bind_some]
    exact ⟨_, rfl, h.linked hi hj hne (Or.inr ⟨rfl, rfl⟩) hmj hmi h.ranks, rfl⟩
  | gt =>
    simp only [hmi, hmj, Option.bind_some]
    exact ⟨_, rfl, h.linked hi hj hne (Or.inl ⟨rfl, rfl⟩) hmi hmj h.ranks, rfl⟩
  | eq =>
    simp only [hmi, hmj, Option.bind_some]
    exact ⟨_, rfl, h.linked hi hj hne (Or.inl ⟨rfl, rfl⟩) hmi hmj
      (List.length_set.trans h.ranks), rfl⟩

/-- A union joins the pair, or its ids find no slot. -/
theorem Valid.union (h : Valid c pairs) (a b : Nat) :
    (∃ c', c.union a b = some c' ∧ Valid c' (pairs ++ [(a, b)]) ∧
        ∀ x, x ∈ c'.values ↔ x ∈ c.values ∨ x = a ∨ x = b) ∨
      (c.union a b = none ∧ NIL < c.len + 2) := by
  unfold EquivClasses.union
  rcases h.insert a with ⟨c₁, sa, ha, h₁, hins₁⟩ | ⟨ha, hfull⟩
  · rcases h₁.insert b with ⟨c₂, sb, hb, h₂, hins₂⟩ | ⟨hb, hfull⟩
    · left
      have hsa := hins₂.slots sa a hins₁.slot
      obtain ⟨c₃, hfa, h₃, hfound₃⟩ := h₂.find (List.getElem?_eq_some_iff.mp hsa).1
      have hsb : c₃.values[sb]? = some b := by
        rw [hfound₃.values]
        exact hins₂.slot
      obtain ⟨c₄, hfb, h₄, hfound₄⟩ := h₃.find (List.getElem?_eq_some_iff.mp hsb).1
      have hsa₄ : c₄.values[sa]? = some a := by
        rw [hfound₄.values, hfound₃.values]
        exact hsa
      have hsb₄ : c₄.values[sb]? = some b := by
        rw [hfound₄.values]
        exact hsb
      have hvalues : ∀ x, x ∈ c₄.values ↔ x ∈ c.values ∨ x = a ∨ x = b := by
        intro x
        rw [hfound₄.values, hfound₃.values, hins₂.mem, hins₁.mem, or_assoc]
      rw [← hfound₃.root, ← hfound₄.root] at hfa
      rw [← hfound₄.root] at hfb
      simp only [ha, hb, hfa, hfb, Option.bind_eq_bind, Option.bind_some]
      split
      · rename_i heq
        exact ⟨c₄, rfl, h₄.already hsa₄ hsb₄ heq, hvalues⟩
      · rename_i hne
        obtain ⟨c', hlink, h', hsame⟩ := h₄.link_roots hsa₄ hsb₄ hne
        refine ⟨c', hlink, h', fun x => ?_⟩
        rw [hsame]
        exact hvalues x
    · right
      have := hins₁.len
      exact ⟨by simp only [ha, hb, Option.bind_eq_bind, Option.bind_some, Option.bind_none], by omega⟩
  · right
    exact ⟨by rw [ha]; rfl, by omega⟩

/-! ## The answers -/

/-- The ids that the pairs connect, among the ids that were seen. -/
def Joined (seen : List Nat) (pairs : List (Nat × Nat)) (a b : Nat) : Prop :=
  a ∈ seen ∧ b ∈ seen ∧ Linked pairs a b

theorem Valid.same_answer (h : Valid c pairs) (a b : Nat) :
    ∃ c' yes, c.same a b = some (c', yes) ∧ Valid c' pairs ∧ Found c c' ∧
      (yes = true ↔ Joined c.values pairs a b) := by
  unfold EquivClasses.same
  cases ha : c.index[a]? with
  | none =>
    refine ⟨c, false, rfl, h, ⟨rfl, rfl, rfl, rfl, fun _ => rfl⟩, ?_⟩
    refine iff_of_false Bool.false_ne_true fun hab => ?_
    obtain ⟨slot, hslot⟩ := h.index_mem.mpr hab.1
    rw [ha] at hslot
    cases hslot
  | some sa =>
    cases hb : c.index[b]? with
    | none =>
      refine ⟨c, false, rfl, h, ⟨rfl, rfl, rfl, rfl, fun _ => rfl⟩, ?_⟩
      refine iff_of_false Bool.false_ne_true fun hab => ?_
      obtain ⟨slot, hslot⟩ := h.index_mem.mpr hab.2.1
      rw [hb] at hslot
      cases hslot
    | some sb =>
      have hsa := (h.index a sa).mp ha
      have hsb := (h.index b sb).mp hb
      obtain ⟨c₁, hfa, h₁, hfound₁⟩ := h.find (List.getElem?_eq_some_iff.mp hsa).1
      have hslot : sb < c₁.len := by
        rw [EquivClasses.len, hfound₁.values]
        exact (List.getElem?_eq_some_iff.mp hsb).1
      obtain ⟨c₂, hfb, h₂, hfound₂⟩ := h₁.find hslot
      rw [hfound₁.root] at hfb
      refine ⟨c₂, _, by simp only [hfa, hfb, Option.bind_eq_bind, Option.bind_some]; rfl, h₂,
        hfound₁.trans hfound₂, ?_⟩
      rw [decide_eq_true_eq, h.same sa sb a b hsa hsb]
      exact ⟨fun hab => ⟨List.mem_of_getElem? hsa, List.mem_of_getElem? hsb, hab⟩,
        fun hab => hab.2.2⟩

theorem Valid.canonical_answer (h : Valid c pairs) (id : Nat) :
    ∃ r, c.canonical id = some r ∧ ∀ m, r = some m ↔ IsLeast {x | Joined c.values pairs id x} m := by
  unfold EquivClasses.canonical
  cases hid : c.index[id]? with
  | none =>
    refine ⟨none, rfl, fun m => iff_of_false (by simp) fun hm => ?_⟩
    obtain ⟨slot, hslot⟩ := h.index_mem.mpr hm.1.1
    rw [hid] at hslot
    cases hslot
  | some slot =>
    have hslot := (h.index id slot).mp hid
    obtain ⟨depth, hforest⟩ := h.forest
    obtain ⟨depth, hforest, hdepth⟩ := hforest.depth_le
    obtain ⟨m, hm, hle, j, hj, hji⟩ := h.least slot id hslot
    have hclimb := climb_root hforest _ (h.lt_len hslot) (hdepth slot)
    refine ⟨some m, ?_, fun k => ?_⟩
    · simp only [hclimb, hm, Option.bind_eq_bind, Option.bind_some]
      rfl
    · have hleast : IsLeast {x | Joined c.values pairs id x} m := by
        refine ⟨⟨List.mem_of_getElem? hslot, List.mem_of_getElem? hj,
          (h.same slot j id m hslot hj).mp hji.symm⟩, ?_⟩
        rintro x ⟨-, hx, hlinked⟩
        obtain ⟨i, hi⟩ := List.mem_iff_getElem?.mp hx
        obtain ⟨m', hm', hle', -⟩ := h.least i x hi
        rw [← (h.same slot i id x hslot hi).mpr hlinked, hm] at hm'
        cases hm'
        exact hle'
      constructor
      · intro hk
        cases hk
        exact hleast
      · exact fun hk => congrArg some (hleast.unique hk)

theorem Joined.trans {seen : List Nat} {a b d : Nat} (h : Joined seen pairs a b)
    (h' : Joined seen pairs b d) : Joined seen pairs a d :=
  ⟨h.1, h'.2.1, h.2.2.trans _ _ _ h'.2.2⟩

theorem Joined.symm {seen : List Nat} {a b : Nat} (h : Joined seen pairs a b) :
    Joined seen pairs b a := ⟨h.2.1, h.1, h.2.2.symm⟩

theorem Valid.values_nodup (h : Valid c pairs) : c.values.Nodup := by
  rw [List.nodup_iff_getElem?_ne_getElem?]
  intro i j hij hj heq
  have hx : c.values[j]? = some c.values[j] := List.getElem?_eq_getElem hj
  have hi := (h.index c.values[j] i).mpr (heq.trans hx)
  have hj' := (h.index c.values[j] j).mpr hx
  rw [hi] at hj'
  exact absurd (Option.some.inj hj') (Nat.ne_of_lt hij)

/-- Ids of different classes have different canonical ids, so the filter takes just the class. -/
theorem Valid.members_answer (h : Valid c pairs) (id : Nat) :
    ∃ l, c.class_members id = some l ∧ l.Nodup ∧ ∀ x, x ∈ l ↔ Joined c.values pairs id x := by
  have hall : ∃ g : Nat → Option Nat, ∀ x, c.canonical x = some (g x) ∧
      ∀ m, g x = some m ↔ IsLeast {y | Joined c.values pairs x y} m :=
    Classical.skolem.mp fun x => h.canonical_answer x
  obtain ⟨g, hg⟩ := hall
  unfold EquivClasses.class_members
  rw [(hg id).1]
  simp only [Option.bind_eq_bind, Option.bind_some]
  cases hid : g id with
  | none =>
    refine ⟨[], rfl, List.nodup_nil, fun x => iff_of_false (by simp) fun hx => ?_⟩
    -- a class has a least id
    have hne : {y | Joined c.values pairs id y}.Nonempty := ⟨x, hx⟩
    have hleast : IsLeast {y | Joined c.values pairs id y} (sInf {y | Joined c.values pairs id y}) :=
      ⟨Nat.sInf_mem hne, fun y hy => Nat.sInf_le hy⟩
    have hsome := ((hg id).2 _).mpr hleast
    rw [hid] at hsome
    cases hsome
  | some m =>
    have hm := ((hg id).2 m).mp hid
    have hmap : (c.values.mapM fun v => (c.canonical v).bind fun canon => pure (v, canon)) =
        some (c.values.map fun v => (v, g v)) := mapM_some fun v _ => by rw [(hg v).1]; rfl
    have hlist : (((c.values.map fun v => (v, g v)).filter fun e => e.2 = some m).map Prod.fst) =
        c.values.filter fun v => g v = some m := by
      rw [List.filter_map, List.map_map]
      exact List.map_id _
    refine ⟨c.values.filter fun v => g v = some m, ?_, h.values_nodup.filter _, fun x => ?_⟩
    · dsimp only
      rw [hmap, Option.bind_some, hlist]
      rfl
    · rw [List.mem_filter, decide_eq_true_eq, (hg x).2]
      constructor
      · rintro ⟨-, hx⟩
        exact hm.1.trans hx.1.symm
      · intro hx
        refine ⟨hx.2.1, hx.symm.trans hm.1, ?_⟩
        exact fun y hy => hm.2 (hx.trans hy)

/-- Classes over the same ids and the same pairs give the same answers. -/
theorem Valid.answers_congr {c' : EquivClasses} (h : Valid c pairs) (h' : Valid c' pairs)
    (hvalues : c'.values = c.values) :
    (∀ a b, (c'.same a b).map Prod.snd = (c.same a b).map Prod.snd) ∧
      (∀ id, c'.canonical id = c.canonical id) ∧
      ∀ id, c'.class_members id = c.class_members id := by
  have hcanonical : ∀ id, c'.canonical id = c.canonical id := by
    intro id
    obtain ⟨r, hr, hleast⟩ := h.canonical_answer id
    obtain ⟨r', hr', hleast'⟩ := h'.canonical_answer id
    rw [hvalues] at hleast'
    have heq : r' = r := Option.ext fun m => (hleast' m).trans (hleast m).symm
    rw [hr, hr', heq]
  refine ⟨fun a b => ?_, hcanonical, fun id => ?_⟩
  · obtain ⟨d, yes, hsame, -, -, hyes⟩ := h.same_answer a b
    obtain ⟨d', yes', hsame', -, -, hyes'⟩ := h'.same_answer a b
    rw [hvalues] at hyes'
    have heq : yes' = yes := Bool.eq_iff_iff.mpr (hyes'.trans hyes.symm)
    rw [hsame, hsame', heq]
    rfl
  · have hfun : c'.canonical = c.canonical := funext hcanonical
    unfold EquivClasses.class_members
    rw [hfun, hvalues]

/-! ## Runs -/

/-- A call on the classes. A find names a slot. -/
inductive Call where
  | insert (id : Nat)
  | union (a b : Nat)
  | same (a b : Nat)
  | find (slot : Nat)

def EquivClasses.call (c : EquivClasses) : Call → Option EquivClasses
  | .insert id => (c.insert id).map Prod.fst
  | .union a b => c.union a b
  | .same a b => (c.same a b).map Prod.fst
  | .find slot => (c.find slot).map Prod.fst

/-- The classes after the calls, oldest first. -/
def after (calls : List Call) : Option EquivClasses :=
  calls.foldlM EquivClasses.call EquivClasses.new

/-- The ids that a call makes known. -/
def Call.seen : Call → List Nat
  | .insert id => [id]
  | .union a b => [a, b]
  | .same _ _ => []
  | .find _ => []

/-- The pair that a call joins. -/
def Call.joins : Call → List (Nat × Nat)
  | .insert _ => []
  | .union a b => [(a, b)]
  | .same _ _ => []
  | .find _ => []

/-- The calls made the ids known and the unions among them connect the two. -/
def Connected (calls : List Call) : Nat → Nat → Prop :=
  Joined (calls.flatMap Call.seen) (calls.flatMap Call.joins)

/-- A call keeps the classes right, or it finds no slot for an id or names a slot that is none. -/
theorem Valid.call (h : Valid c pairs) (a : Call) :
    (∃ c', c.call a = some c' ∧ Valid c' (pairs ++ a.joins) ∧
        ∀ x, x ∈ c'.values ↔ x ∈ c.values ∨ x ∈ a.seen) ∨
      (c.call a = none ∧ ((∃ slot, a = .find slot ∧ c.len ≤ slot) ∨ NIL < c.len + 2)) := by
  cases a with
  | insert id =>
    rcases h.insert id with ⟨c', slot, hins, h', hinserted⟩ | ⟨hins, hfull⟩
    · refine Or.inl ⟨c', ?_, ?_, fun x => ?_⟩
      · rw [EquivClasses.call, hins]
        rfl
      · rw [Call.joins, List.append_nil]
        exact h'
      · rw [hinserted.mem, Call.seen, List.mem_singleton]
    · refine Or.inr ⟨?_, Or.inr (by omega)⟩
      rw [EquivClasses.call, hins]
      rfl
  | union a b =>
    rcases h.union a b with ⟨c', hunion, h', hvalues⟩ | ⟨hunion, hfull⟩
    · refine Or.inl ⟨c', hunion, h', fun x => ?_⟩
      rw [hvalues, Call.seen]
      simp
    · exact Or.inr ⟨hunion, Or.inr hfull⟩
  | same a b =>
    obtain ⟨c', yes, hsame, h', hfound, -⟩ := h.same_answer a b
    refine Or.inl ⟨c', ?_, ?_, fun x => ?_⟩
    · rw [EquivClasses.call, hsame]
      rfl
    · rw [Call.joins, List.append_nil]
      exact h'
    · rw [hfound.values, Call.seen]
      simp
  | find slot =>
    by_cases hslot : slot < c.len
    · obtain ⟨c', hfind, h', hfound⟩ := h.find hslot
      refine Or.inl ⟨c', ?_, ?_, fun x => ?_⟩
      · rw [EquivClasses.call, hfind]
        rfl
      · rw [Call.joins, List.append_nil]
        exact h'
      · rw [hfound.values, Call.seen]
        simp
    · refine Or.inr ⟨?_, Or.inl ⟨slot, rfl, not_lt.mp hslot⟩⟩
      have hout : c.parent[slot]? = none :=
        List.getElem?_eq_none (by rw [h.parents]; exact not_lt.mp hslot)
      rw [EquivClasses.call, EquivClasses.find, find_loop, hout]
      rfl

theorem after_valid {calls : List Call} {c : EquivClasses} (hafter : after calls = some c) :
    Valid c (calls.flatMap Call.joins) ∧ ∀ x, x ∈ c.values ↔ x ∈ calls.flatMap Call.seen := by
  have hrun : ∀ (calls : List Call) (c c' : EquivClasses) (pairs : List (Nat × Nat)),
      Valid c pairs → calls.foldlM EquivClasses.call c = some c' →
      Valid c' (pairs ++ calls.flatMap Call.joins) ∧
        ∀ x, x ∈ c'.values ↔ x ∈ c.values ∨ x ∈ calls.flatMap Call.seen := by
    intro calls
    induction calls with
    | nil =>
      intro c c' pairs h hc
      cases hc
      rw [List.flatMap_nil, List.append_nil]
      exact ⟨h, by simp⟩
    | cons a calls ih =>
      intro c c' pairs h hc
      rw [List.foldlM_cons] at hc
      rcases h.call a with ⟨c₁, hcall, h₁, hvalues⟩ | ⟨hcall, -⟩
      · rw [hcall] at hc
        obtain ⟨h', hvalues'⟩ := ih c₁ c' _ h₁ hc
        rw [List.flatMap_cons, List.flatMap_cons, ← List.append_assoc]
        refine ⟨h', fun x => ?_⟩
        rw [hvalues', hvalues, List.mem_append, or_assoc]
      · rw [hcall] at hc
        cases hc
  obtain ⟨h, hvalues⟩ := hrun calls .new c [] new_valid hafter
  rw [List.nil_append] at h
  exact ⟨h, fun x => (hvalues x).trans (by simp [EquivClasses.new])⟩

/-- After every run of calls the parents are a forest; `same` tells what the unions connect; the
canonical id is the least of the class and the members are the class, each once; a find changes
none of these answers; and a call fails only for want of slots or for a slot that is none. -/
theorem classes_follow_the_unions (calls : List Call) (c : EquivClasses)
    (hafter : after calls = some c) :
    (∃ depth : Nat → Nat, ∀ slot p, c.parent[slot]? = some p →
      p < c.len ∧ (p ≠ slot → depth p < depth slot)) ∧
    (∀ a b, ∃ c' yes, c.same a b = some (c', yes) ∧ (yes = true ↔ Connected calls a b)) ∧
    (∀ id, ∃ r, c.canonical id = some r ∧ ∀ m, r = some m ↔ IsLeast {x | Connected calls id x} m) ∧
    (∀ id, ∃ l, c.class_members id = some l ∧ l.Nodup ∧ ∀ x, x ∈ l ↔ Connected calls id x) ∧
    (∀ slot < c.len, ∃ c' r, c.find slot = some (c', r) ∧ c'.parent.length = c.parent.length ∧
      (∀ a b, (c'.same a b).map Prod.snd = (c.same a b).map Prod.snd) ∧
      (∀ id, c'.canonical id = c.canonical id) ∧
      ∀ id, c'.class_members id = c.class_members id) ∧
    ∀ a, c.call a = none → (∃ slot, a = .find slot ∧ c.len ≤ slot) ∨ NIL < c.len + 2 := by
  obtain ⟨h, hvalues⟩ := after_valid hafter
  have hjoined : Joined c.values (calls.flatMap Call.joins) = Connected calls := by
    funext a b
    unfold Connected Joined
    rw [hvalues, hvalues]
  refine ⟨?_, ?_, ?_, ?_, ?_, ?_⟩
  · obtain ⟨depth, hforest⟩ := h.forest
    refine ⟨depth, fun slot p hp => ?_⟩
    have hslot := (List.getElem?_eq_some_iff.mp hp).1
    rw [getElem_links hslot] at hp
    cases hp
    exact ⟨h.parents ▸ hforest.inside slot hslot, hforest.falls slot⟩
  · intro a b
    obtain ⟨c', yes, hsame, -, -, hyes⟩ := h.same_answer a b
    exact ⟨c', yes, hsame, hjoined ▸ hyes⟩
  · intro id
    rw [← hjoined]
    exact h.canonical_answer id
  · intro id
    rw [← hjoined]
    exact h.members_answer id
  · intro slot hslot
    obtain ⟨c', hfind, h', hfound⟩ := h.find hslot
    have hlength : c'.len = c.len := congrArg List.length hfound.values
    exact ⟨c', _, hfind, (h'.parents.trans hlength).trans h.parents.symm,
      h.answers_congr h' hfound.values⟩
  · intro a ha
    rcases h.call a with ⟨c', hcall, -⟩ | ⟨-, hstop⟩
    · rw [ha] at hcall
      cases hcall
    · exact hstop

/-- Two unions that meet, an id alone and an id that was never seen. -/
theorem classes_of_two_unions :
    ∃ c, after [.union 7 3, .insert 4, .same 3 9, .union 9 7, .find 1] = some c ∧
      (c.same 3 9).map Prod.snd = some true ∧ c.canonical 9 = some (some 3) := by
  obtain ⟨c, hc⟩ : ∃ c, after [.union 7 3, .insert 4, .same 3 9, .union 9 7, .find 1] = some c :=
    Option.isSome_iff_exists.mp (by decide)
  obtain ⟨-, hsame, hcanonical, -⟩ := classes_follow_the_unions _ c hc
  have h37 : Linked [(7, 3), (9, 7)] 3 7 := EqvGen.symm _ _ (.rel 7 3 (by decide))
  have h79 : Linked [(7, 3), (9, 7)] 7 9 := EqvGen.symm _ _ (.rel 9 7 (by decide))
  have hconnected : Connected [.union 7 3, .insert 4, .same 3 9, .union 9 7, .find 1] 3 9 :=
    ⟨by decide, by decide, h37.trans _ _ _ h79⟩
  refine ⟨c, hc, ?_, ?_⟩
  · obtain ⟨c', yes, hanswer, hyes⟩ := hsame 3 9
    rw [hanswer, hyes.mpr hconnected]
    rfl
  · obtain ⟨r, hr, hleast⟩ := hcanonical 9
    rw [hr, (hleast 3).mpr]
    refine ⟨hconnected.symm, ?_⟩
    rintro x ⟨-, hx, -⟩
    have hseen : x ∈ [7, 3, 4, 9, 7] := hx
    simp only [List.mem_cons, List.not_mem_nil, or_false] at hseen
    omega

end horndb.closure.sameas
