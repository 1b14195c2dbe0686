-- The classes of equal terms as a union-find: slots with parents, ranks that choose the side of a
-- link, and the least id of each class kept at its root. A find halves the path that it climbs.
import HornDb.Lib.Forest
import HornDb.Lib.Collect

open Relation Std
open HornDb.Lib.Forest HornDb.Lib.Collect

namespace horndb.closure.sameas

/-- The slot that no id may have. -/
def NIL : Nat := 2 ^ 32 - 1

structure EquivClasses where
  index : ExtTreeMap Nat Nat
  values : List Nat
  parent : List Nat
  rank : List Nat
  canon : List Nat

/-- Climb to the root and point each second node of the path at its grandparent. Nothing when the
turns run out or a slot is out of bounds. -/
def find_loop : Nat → List Nat → Nat → Option (List Nat × Nat)
  | 0, _, _ => none
  | turns + 1, parents, cur => do
    let parent ← parents[cur]?
    if parent = cur then return (parents, cur)
    else do
      let grand ← parents[parent]?
      find_loop turns (parents.set cur grand) grand

/-- Climb to the root and leave the path as it is. -/
def climb : Nat → List Nat → Nat → Option Nat
  | 0, _, _ => none
  | turns + 1, parents, cur => do
    let parent ← parents[cur]?
    if parent = cur then return cur else climb turns parents parent

namespace EquivClasses

def new : EquivClasses := ⟨∅, [], [], [], []⟩

def len (c : EquivClasses) : Nat := c.values.length

/-- The slot of an id, a new one when it has none; nothing when the slots are used up. -/
def insert (c : EquivClasses) (id : Nat) : Option (EquivClasses × Nat) :=
  match c.index[id]? with
  | some slot => some (c, slot)
  | none =>
    let slot := c.values.length % 2 ^ 32
    if slot = NIL then none
    else
      some ({ index := c.index.insert id slot
              values := c.values ++ [id]
              parent := c.parent ++ [slot]
              rank := c.rank ++ [0]
              canon := c.canon ++ [id] }, slot)

def find (c : EquivClasses) (slot : Nat) : Option (EquivClasses × Nat) := do
  let (parent, root) ← find_loop (c.parent.length + 1) c.parent slot
  return ({ c with parent := parent }, root)

/-- Link two roots. The rank saturates and only picks the side. -/
def link_roots (c : EquivClasses) (ra rb : Nat) : Option EquivClasses := do
  let rank_a ← c.rank[ra]?
  let rank_b ← c.rank[rb]?
  let (root, child, rank) :=
    match compare rank_a rank_b with
    | .lt => (rb, ra, c.rank)
    | .gt => (ra, rb, c.rank)
    | .eq => (ra, rb, c.rank.set ra (min (rank_a + 1) 255))
  let canon_root ← c.canon[root]?
  let canon_child ← c.canon[child]?
  return { c with
    parent := c.parent.set child root
    rank := rank
    canon := c.canon.set root (min canon_root canon_child) }

def union (c : EquivClasses) (a b : Nat) : Option EquivClasses := do
  let (c, sa) ← c.insert a
  let (c, sb) ← c.insert b
  let (c, ra) ← c.find sa
  let (c, rb) ← c.find sb
  if ra = rb then return c else c.link_roots ra rb

/-- Two ids are in one class. An id that was never seen is in none. -/
def same (c : EquivClasses) (a b : Nat) : Option (EquivClasses × Bool) :=
  match c.index[a]?, c.index[b]? with
  | some sa, some sb => do
    let (c, ra) ← c.find sa
    let (c, rb) ← c.find sb
    return (c, ra = rb)
  | _, _ => some (c, false)

/-- The canonical id of a class, none for an id that was never seen. -/
def canonical (c : EquivClasses) (id : Nat) : Option (Option Nat) :=
  match c.index[id]? with
  | none => some none
  | some slot => do
    let root ← climb (c.parent.length + 1) c.parent slot
    let canon ← c.canon[root]?
    return some canon

def class_members (c : EquivClasses) (id : Nat) : Option (List Nat) := do
  match ← c.canonical id with
  | none => return []
  | some target_canon =>
    let canons ← c.values.mapM fun v => do return (v, ← c.canonical v)
    return (canons.filter fun e => e.2 = some target_canon).map Prod.fst

end EquivClasses

/-! ## The parents as a forest -/

/-- The parent of a slot. Past the end a slot is its own. -/
def links (parents : List Nat) (slot : Nat) : Nat := parents[slot]?.getD slot

/-- The parents stay inside and the measure falls along them. -/
structure Forest (depth : Nat → Nat) (parents : List Nat) : Prop where
  inside : ∀ slot < parents.length, links parents slot < parents.length
  falls : Falls depth (links parents)

/-- Parents with the same roots. -/
structure SameRoots (parents parents' : List Nat) : Prop where
  length : parents'.length = parents.length
  root : ∀ slot, root (links parents') slot = root (links parents) slot

variable {parents : List Nat} {depth : Nat → Nat}

theorem getElem_links {slot : Nat} (h : slot < parents.length) :
    parents[slot]? = some (links parents slot) := by
  unfold links
  rw [List.getElem?_eq_getElem h, Option.getD_some]

theorem links_set {slot top : Nat} (h : slot < parents.length) :
    links (parents.set slot top) = Function.update (links parents) slot top := by
  funext x
  unfold links
  rw [List.getElem?_set, Function.update_apply]
  by_cases hx : slot = x
  · subst hx
    rw [if_pos rfl, if_pos rfl, if_pos h, Option.getD_some]
  · rw [if_neg hx, if_neg (Ne.symm hx)]

theorem Forest.descends (h : Forest depth parents) : Descends (links parents) := ⟨depth, h.falls⟩

theorem Forest.root_lt (h : Forest depth parents) {slot : Nat} (hslot : slot < parents.length) :
    root (links parents) slot < parents.length := by
  obtain ⟨n, hroot, -⟩ := root_eq_iterate h.descends slot
  rw [hroot]
  clear hroot
  induction n with
  | zero => exact hslot
  | succ n ih =>
    rw [Function.iterate_succ_apply']
    exact h.inside _ ih

/-- With a turn for each link of the path the climb ends at the root. -/
theorem climb_root (h : Forest depth parents) (turns : Nat) {cur : Nat}
    (hcur : cur < parents.length) (hturns : depth cur < turns) :
    climb turns parents cur = some (root (links parents) cur) := by
  induction turns generalizing cur with
  | zero => omega
  | succ turns ih =>
    rw [climb, getElem_links hcur]
    simp only [Option.bind_eq_bind, Option.bind_some]
    split
    · rename_i hfix
      rw [root_of_fixed h.descends hfix]
      rfl
    · rename_i hlink
      have hless := h.falls cur hlink
      rw [ih (h.inside cur hcur) (by omega), root_next h.descends]

theorem Forest.halve (h : Forest depth parents) {cur : Nat} (hcur : cur < parents.length) :
    Forest depth (parents.set cur (links parents (links parents cur))) ∧
      SameRoots parents (parents.set cur (links parents (links parents cur))) := by
  have hlinks : links (parents.set cur (links parents (links parents cur))) =
      Function.update (links parents) cur (links parents (links parents cur)) := links_set hcur
  refine ⟨⟨fun slot hslot => ?_, ?_⟩, ⟨List.length_set, fun slot => ?_⟩⟩
  · rw [List.length_set] at hslot ⊢
    rw [hlinks, Function.update_apply]
    split
    · exact h.inside _ (h.inside cur hcur)
    · exact h.inside slot hslot
  · rw [hlinks]
    exact h.falls.halve cur
  · rw [hlinks]
    exact root_halve h.descends cur slot

/-- A find ends at the root and leaves every root as it was. -/
theorem find_loop_root (turns : Nat) :
    ∀ {parents : List Nat} {cur : Nat}, Forest depth parents → cur < parents.length →
      depth cur < turns →
      ∃ parents', find_loop turns parents cur = some (parents', root (links parents) cur) ∧
        Forest depth parents' ∧ SameRoots parents parents' := by
  induction turns with
  | zero => omega
  | succ turns ih =>
    intro parents cur h hcur hturns
    rw [find_loop, getElem_links hcur]
    simp only [Option.bind_eq_bind, Option.bind_some]
    split
    · rename_i hfix
      refine ⟨parents, ?_, h, ⟨rfl, fun _ => rfl⟩⟩
      rw [root_of_fixed h.descends hfix]
      rfl
    · rename_i hlink
      rw [getElem_links (h.inside cur hcur), Option.bind_some]
      obtain ⟨hforest, hroots⟩ := h.halve hcur
      have hgrand : depth (links parents (links parents cur)) < turns := by
        have hless := h.falls cur hlink
        by_cases hup : links parents (links parents cur) = links parents cur
        · rw [hup]
          omega
        · have := h.falls _ hup
          omega
      obtain ⟨parents', hfind, hforest', hroots'⟩ := ih hforest
        (by rw [hroots.length]; exact h.inside _ (h.inside cur hcur)) hgrand
      refine ⟨parents', ?_, hforest', ⟨hroots'.length.trans hroots.length, fun slot => ?_⟩⟩
      · rw [hfind, hroots.root, root_next h.descends, root_next h.descends]
      · rw [hroots'.root, hroots.root]

/-- The number of links above a slot is a measure that the turns of a loop cover. -/
theorem Forest.depth_le (h : Forest depth parents) :
    ∃ depth, Forest depth parents ∧ ∀ slot, depth slot < parents.length + 1 := by
  have hin : ∀ x, links parents x ≠ x → x ∈ Finset.range parents.length := by
    intro x hx
    rw [Finset.mem_range]
    by_contra hout
    apply hx
    unfold links
    rw [List.getElem?_eq_none (by omega), Option.getD_none]
  obtain ⟨depth, hfalls, hle⟩ := exists_depth_le h.descends hin
  refine ⟨depth, ⟨h.inside, hfalls⟩, fun slot => ?_⟩
  have := hle slot
  rw [Finset.card_range] at this
  omega

end horndb.closure.sameas
