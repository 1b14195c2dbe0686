-- The tier over its runs: quads are inserted, retracted and applied in batches, readers pin
-- versions and drop them, dead rows are compacted, and partitions go to cold files and back.
-- Whatever the order, each version that can be read shows what the batches up to it left.
import HornDb.TierBatches

open Std HornDb.Lib

namespace horndb.storage

/-! ## Partitions that move -/

namespace TierSnapshot

/-- The snapshot with a partition of a graph replaced. -/
def put (t : TierSnapshot) (g : GraphId) (p : TermId) (part : Partition) : TierSnapshot :=
  { t with graphs := t.graphs.alter g (Option.map fun parts => parts.insert p part) }

/-- What a demotion does under the lock of the writers, after its compaction. The cold file is
kept by what it decodes to; `written` tells whether the file operations succeed. -/
def demote (t : TierSnapshot) (g : GraphId) (p : TermId) (written : Bool) : TierSnapshot :=
  match t.partition g p with
  | some (.Warm part) =>
    if part.len_at t.version = 0 || part.has_retractions || !written then t
    else t.put g p (.Cold ⟨part.scan_at t.version, t.version⟩)
  | _ => t

def promote (t : TierSnapshot) (g : GraphId) (p : TermId) : TierSnapshot :=
  match t.partition g p with
  | some (.Cold cold) => t.put g p (.Warm cold.promote)
  | _ => t

end TierSnapshot

/-- A call on the tier. A demotion is a compaction and, later, the move itself. -/
inductive TierOp where
  | insert_quad_batch (quads : List Quad)
  | retract_quad_batch (quads : List Quad)
  | apply_quad_batch (dels adds : List Quad)
  | snapshot
  | repin (i : Nat)
  | drop_pin (i : Nat)
  | compact
  | demote (g : GraphId) (p : TermId) (written : Bool)
  | promote (g : GraphId) (p : TermId)
  /-- A scan of the live snapshot, or of a pinned one. -/
  | read (g : GraphId) (p : TermId)
  | read_pinned (i : Nat) (g : GraphId) (p : TermId)

namespace MemoryTier

/-- A second pin of a snapshot that is pinned. -/
def repin (t : MemoryTier) (i : Nat) : MemoryTier :=
  { t with pinned := t.pinned ++ t.pinned[i]?.toList }

def step (t : MemoryTier) : TierOp → MemoryTier
  | .insert_quad_batch quads => { t with current := t.current.insert_quad_batch quads }
  | .retract_quad_batch quads => { t with current := (t.current.retract_quad_batch quads).1 }
  | .apply_quad_batch dels adds => { t with current := (t.current.apply_quad_batch dels adds).1 }
  | .snapshot => t.snapshot
  | .repin i => t.repin i
  | .drop_pin i => t.drop_pin i
  | .compact => t.compact
  | .demote g p written => { t with current := t.current.demote g p written }
  | .promote g p => { t with current := t.current.promote g p }
  | .read g p => { t with current := t.current.read g p }
  | .read_pinned i g p => { t with pinned := t.pinned.modify i fun snap => snap.read g p }

def run (script : List TierOp) : MemoryTier := script.foldl step new

end MemoryTier

/-! ## The ledger -/

/-- What the tier is for: the quads that each version shows, and the versions that readers hold.
It is whole until a compaction or a move may give old versions up that no reader holds. -/
structure Ledger where
  version : Nat
  seen : Nat → Set Quad
  pins : List Nat
  whole : Bool

namespace Ledger

def start : Ledger := ⟨0, fun _ => ∅, [], true⟩

/-- The quads of the latest version. -/
def now (l : Ledger) : Set Quad := l.seen l.version

/-- One more version. -/
def commit (l : Ledger) (quads : Set Quad) : Ledger :=
  { l with
    version := l.version + 1
    seen := fun w => if l.version < w then quads else l.seen w }

/-- The quads of a batch. -/
def batch (quads : List Quad) : Set Quad := {q | q ∈ quads}

open Classical in
/-- A retraction or an application is a version only when it changes something; an insertion is
one when it brings any quad, present or not. Nothing else is a version. -/
noncomputable def step (l : Ledger) : TierOp → Ledger
  | .insert_quad_batch quads => if quads = [] then l else l.commit (l.now ∪ batch quads)
  | .retract_quad_batch quads =>
    if l.now ∩ batch quads = ∅ then l else l.commit (l.now \ batch quads)
  | .apply_quad_batch dels adds =>
    if l.now ∩ batch dels = ∅ ∧ batch adds ⊆ l.now \ batch dels then l
    else l.commit (l.now \ batch dels ∪ batch adds)
  | .snapshot => { l with pins := l.pins ++ [l.version] }
  | .repin i => { l with pins := l.pins ++ l.pins[i]?.toList }
  | .drop_pin i => { l with pins := l.pins.eraseIdx i }
  | .compact => { l with whole := false }
  | .demote _ _ _ => { l with whole := false }
  | _ => l

noncomputable def run (script : List TierOp) : Ledger := script.foldl step start

theorem commit_seen (l : Ledger) (quads : Set Quad) (w : Nat) :
    (l.commit quads).seen w = if l.version < w then quads else l.seen w := rfl

end Ledger

/-! ## Snapshots and the ledger -/

/-- The live snapshot answers for each partition from the version in `since` on. -/
structure Shown (t : TierSnapshot) (l : Ledger) (since : GraphId → TermId → Nat) : Prop where
  version : t.version = l.version
  sound : t.Sound since
  shows : ∀ w q, since q.graph q.predicate ≤ w → (t.shows w q = true ↔ q ∈ l.seen w)

namespace Shown

variable {t t' : TierSnapshot} {l : Ledger} {since since' : GraphId → TermId → Nat}

theorem now (h : Shown t l since) (q : Quad) : t.shows t.version q = true ↔ q ∈ l.now := by
  rw [h.shows t.version q (h.sound.since_le _ _), h.version]
  rfl

/-- A batch is one more version of the ledger, and changes no version before. -/
theorem batch (h : Shown t l since) {dels adds : List Quad} (hbatch : Batch t t' dels adds) :
    Shown t' (l.commit (l.now \ Ledger.batch dels ∪ Ledger.batch adds)) since := by
  have hsound : t'.Sound since := ⟨fun g p => (hbatch.wrote g p).kept,
    fun g p part hpart => h.sound.cold g p part (hbatch.cold g p part hpart), fun g p => by
      have := h.sound.since_le g p
      have := hbatch.version
      omega⟩
  refine ⟨by rw [hbatch.version, h.version]; rfl, hsound, fun w q hw => ?_⟩
  rw [hsound.shows_iff hw]
  have hversion := hbatch.version
  rw [Ledger.commit_seen, ← h.version]
  by_cases hlt : t.version < w
  · rw [(hbatch.wrote q.graph q.predicate).since q.pair w (by omega), if_pos hlt,
      ← h.sound.shows_iff (h.sound.since_le _ _), h.now, mem_pairs_at, mem_pairs_at, quad_at_pair]
    rfl
  · rw [(hbatch.wrote q.graph q.predicate).before q.pair w (by omega), if_neg hlt,
      ← h.sound.shows_iff hw]
    exact h.shows w q hw

/-- A change that is no write keeps what the partitions show from the new `since` on. -/
theorem moved (h : Shown t l since) (hversion : t'.version = t.version)
    (hsince : ∀ g p, since g p ≤ since' g p ∧ since' g p ≤ t.version)
    (hpart : ∀ g p, KeptAt (t'.warm g p) t.version ∧ ∀ pair w, since' g p ≤ w →
      (Shows (t'.warm g p) pair w ↔ Shows (t.warm g p) pair w))
    (hcold : ∀ g p part, t'.partition g p = some (.Cold part) →
      part.version ≤ since' g p ∧ part.pairs.Nodup) : Shown t' l since' := by
  have hsound : t'.Sound since' := ⟨fun g p => by rw [hversion]; exact (hpart g p).1, hcold,
    fun g p => by rw [hversion]; exact (hsince g p).2⟩
  refine ⟨hversion.trans h.version, hsound, fun w q hw => ?_⟩
  rw [hsound.shows_iff hw, (hpart _ _).2 q.pair w hw,
    ← h.sound.shows_iff ((hsince _ _).1.trans hw)]
  exact h.shows w q ((hsince _ _).1.trans hw)

end Shown

/-! ## Changes that are no writes -/

theorem seen_compacted {horizon w : Nat} (hw : horizon ≤ w) (part : PredicatePartition) (p : Pair) :
    Seen (compacted horizon part).all_rows p w ↔ Seen part.all_rows p w := by
  rw [compacted_eq]
  split
  · rw [PredicatePartition.seen_build, ← part.seen_merged]
    constructor
    · rintro ⟨r, hr, h⟩
      exact ⟨r, (List.mem_filter.mp hr).1, h⟩
    · rintro ⟨r, hr, hp, hvisible⟩
      refine ⟨r, List.mem_filter.mpr ⟨hr, ?_⟩, hp, hvisible⟩
      rw [Bool.not_eq_true', Bool.eq_false_iff]
      intro hreclaimed
      obtain ⟨e, he, hle⟩ := (Option.any_eq_true _ _).mp hreclaimed
      have := (Row.visible_iff.mp hvisible).2 e he
      have := of_decide_eq_true hle
      omega
  · rfl

namespace TierSnapshot

variable {t : TierSnapshot} {g : GraphId} {p : TermId}

theorem partition_compact_at (horizon : Nat) (g : GraphId) (p : TermId) :
    (t.compact_at horizon).partition g p = (t.partition g p).map (compact_partition horizon) := by
  unfold compact_at partition
  dsimp only
  rw [ExtTreeMap.getElem?_map]
  cases t.graphs[g]? with
  | none => rfl
  | some parts => exact ExtTreeMap.getElem?_map

theorem warm_compact_at (horizon : Nat) (g : GraphId) (p : TermId) :
    (t.compact_at horizon).warm g p = t.warm g p ∨
      (t.compact_at horizon).warm g p = (t.warm g p).map (compacted horizon) := by
  unfold warm
  rw [partition_compact_at]
  cases t.partition g p with
  | none => exact Or.inl rfl
  | some part =>
    cases part with
    | Cold part => exact Or.inl rfl
    | Warm part => exact Or.inr rfl

theorem partition_put {part : Partition} (h : t.partition g p = some part) (new : Partition)
    (g' : GraphId) (p' : TermId) : (t.put g p new).partition g' p' =
      if g = g' ∧ p = p' then some new else t.partition g' p' := by
  unfold partition at h
  unfold put partition
  dsimp only
  rw [ExtTreeMap.getElem?_alter]
  by_cases hg : g = g'
  · subst hg
    cases hparts : t.graphs[g]? with
    | none =>
      rw [hparts] at h
      cases h
    | some parts =>
      simp only [Std.compare_eq_iff_eq, if_true, Option.map_some, Option.bind_some, true_and]
      rw [ExtTreeMap.getElem?_insert]
      simp only [Std.compare_eq_iff_eq]
  · simp only [Std.compare_eq_iff_eq, hg, if_false, false_and]

theorem partition_read (g' : GraphId) (p' : TermId) : (t.read g p).partition g' p' =
    if g = g' ∧ p = p' then (t.partition g p).map .read else t.partition g' p' := by
  unfold read partition
  dsimp only
  rw [ExtTreeMap.getElem?_alter]
  by_cases hg : g = g'
  · subst hg
    simp only [Std.compare_eq_iff_eq, if_true, true_and]
    cases t.graphs[g]? with
    | none => simp
    | some parts =>
      rw [Option.map_some, Option.bind_some, Option.bind_some, Option.bind_some,
        ExtTreeMap.getElem?_alter]
      simp only [Std.compare_eq_iff_eq]
  · simp only [Std.compare_eq_iff_eq, hg, if_false, false_and]

end TierSnapshot

namespace Shown

variable {t : TierSnapshot} {l : Ledger} {since : GraphId → TermId → Nat}

/-- A compaction gives up the versions below its horizon. -/
theorem compact (h : Shown t l since) {horizon : Nat} (hle : horizon ≤ t.version) :
    Shown (t.compact_at horizon) l fun g p => max (since g p) horizon := by
  refine h.moved rfl (fun g p => ⟨le_max_left _ _, max_le (h.sound.since_le g p) hle⟩)
    (fun g p => ?_) fun g p part hpart => ?_
  · rcases TierSnapshot.warm_compact_at horizon g p with heq | heq
    · rw [heq]
      exact ⟨h.sound.kept g p, fun _ _ _ => Iff.rfl⟩
    · rw [heq]
      refine ⟨compacted_kept (h.sound.kept g p) horizon, fun pair w hw => ?_⟩
      cases t.warm g p with
      | none => rfl
      | some part =>
        rw [Option.map_some, shows_some, shows_some]
        exact seen_compacted ((le_max_right _ _).trans hw) part pair
  · rw [TierSnapshot.partition_compact_at, Option.map_eq_some_iff] at hpart
    obtain ⟨part', hpart', heq⟩ := hpart
    cases part' with
    | Cold part' =>
      cases heq
      have := h.sound.cold g p _ hpart'
      exact ⟨this.1.trans (le_max_left _ _), this.2⟩
    | Warm part' =>
      unfold TierSnapshot.compact_partition at heq
      dsimp only at heq
      split at heq <;> cases heq

/-- A partition in the place of one that shows the same. -/
theorem put (h : Shown t l since) {g : GraphId} {p : TermId} {part : Partition}
    (hpart : t.partition g p = some part) (part' : Partition)
    (hkept : (warm_for_write part').Kept t.version)
    {from_version : Nat} (hfrom : since g p ≤ from_version) (hle : from_version ≤ t.version)
    (hsame : ∀ pair w, from_version ≤ w → (Seen (warm_for_write part').all_rows pair w ↔
      Seen (warm_for_write part).all_rows pair w))
    (hcold : ∀ cold, part' = .Cold cold → cold.version ≤ from_version ∧ cold.pairs.Nodup) :
    Shown (t.put g p part') l fun g' p' =>
      if g = g' ∧ p = p' then from_version else since g' p' := by
  have hput := TierSnapshot.partition_put hpart part'
  refine h.moved rfl (fun g' p' => ?_) (fun g' p' => ?_) fun g' p' cold hpart' => ?_
  · split
    · rename_i hkey
      obtain ⟨rfl, rfl⟩ := hkey
      exact ⟨hfrom, hle⟩
    · exact ⟨Nat.le_refl _, h.sound.since_le g' p'⟩
  · unfold TierSnapshot.warm
    rw [hput]
    split
    · rename_i hkey
      obtain ⟨rfl, rfl⟩ := hkey
      rw [hpart]
      refine ⟨fun part hsome => ?_, fun pair w hw => ?_⟩
      · cases hsome
        exact hkept
      · rw [Option.map_some, Option.map_some, shows_some, shows_some]
        exact hsame pair w hw
    · exact ⟨h.sound.kept g' p', fun _ _ _ => Iff.rfl⟩
  · rw [hput] at hpart'
    split at hpart'
    · rename_i hkey
      rw [if_pos hkey]
      exact hcold cold (Option.some.inj hpart')
    · rename_i hkey
      rw [if_neg hkey]
      exact h.sound.cold g' p' cold hpart'

theorem promote (h : Shown t l since) (g : GraphId) (p : TermId) :
    Shown (t.promote g p) l since := by
  unfold TierSnapshot.promote
  split
  · rename_i cold hpart
    have hkept : (warm_for_write (.Cold cold)).Kept t.version :=
      h.sound.kept g p _ (TierSnapshot.warm_of_partition hpart)
    have hput := h.put hpart (.Warm cold.promote) hkept (Nat.le_refl _) (h.sound.since_le g p)
      (fun _ _ _ => Iff.rfl) nofun
    have hsame : (fun g' p' => if g = g' ∧ p = p' then since g p else since g' p') = since := by
      funext g' p'
      split
      · rename_i hkey
        obtain ⟨rfl, rfl⟩ := hkey
        rfl
      · rfl
    rwa [hsame] at hput
  · exact h

theorem read (h : Shown t l since) (g : GraphId) (p : TermId) : Shown (t.read g p) l since := by
  refine h.moved rfl (fun g p => ⟨Nat.le_refl _, h.sound.since_le g p⟩) (fun g' p' => ?_)
    fun g' p' cold hpart => ?_
  · unfold TierSnapshot.warm
    rw [TierSnapshot.partition_read]
    split
    · rename_i hkey
      obtain ⟨rfl, rfl⟩ := hkey
      have hkept := h.sound.kept g p
      unfold TierSnapshot.warm at hkept
      cases hpart : t.partition g p with
      | none => exact ⟨KeptAt.none _, fun _ _ _ => Iff.rfl⟩
      | some part =>
        rw [hpart] at hkept
        cases part with
        | Cold part => exact ⟨hkept, fun _ _ _ => Iff.rfl⟩
        | Warm part =>
          refine ⟨fun part' hpart' => ?_, fun pair w _ => ?_⟩
          · cases hpart'
            exact (hkept part rfl).read
          · show Shows (some part.read) pair w ↔ Shows (some part) pair w
            rw [shows_some, shows_some]
            exact part.seen_read pair w
    · exact ⟨h.sound.kept g' p', fun _ _ _ => Iff.rfl⟩
  · rw [TierSnapshot.partition_read] at hpart
    split at hpart
    · rename_i hkey
      obtain ⟨rfl, rfl⟩ := hkey
      obtain ⟨part, hpart', heq⟩ := Option.map_eq_some_iff.mp hpart
      cases part with
      | Cold part =>
        cases heq
        exact h.sound.cold g p cold hpart'
      | Warm part => cases heq
    · exact h.sound.cold g' p' cold hpart

/-- A partition without retractions shows at its version every pair that it ever showed. -/
theorem seen_latest {part : PredicatePartition} {v w : Nat} (hkept : part.Kept v)
    (hnone : part.has_retractions = false) {pair : Pair} (hseen : Seen part.all_rows pair w) :
    Seen part.all_rows pair v := by
  rw [← part.seen_merged] at hseen ⊢
  obtain ⟨r, hr, hp, -⟩ := hseen
  refine ⟨r, hr, hp, (Row.visible_of_live ?_).mpr (hkept.merged_stamped.begun r hr)⟩
  have := List.any_eq_false.mp hnone r hr
  rwa [Bool.not_eq_true, Bool.not_eq_false'] at this

/-- A move to a cold file gives up the versions of the partition before it, where none of them
showed what the latest does not. -/
theorem demote (h : Shown t l since) (g : GraphId) (p : TermId) (written : Bool) :
    ∃ since', Shown (t.demote g p written) l since' ∧ ∀ q w, w ≤ l.version →
      q ∈ l.seen (max w (since q.graph q.predicate)) →
        q ∈ l.seen (max w (since' q.graph q.predicate)) := by
  unfold TierSnapshot.demote
  split
  · rename_i part hpart
    have hkept : part.Kept t.version :=
      h.sound.kept g p _ (TierSnapshot.warm_of_partition hpart)
    split
    · exact ⟨since, h, fun _ _ _ hq => hq⟩
    · rename_i hmoves
      simp only [Bool.or_eq_true, not_or, Bool.not_eq_true, Bool.not_eq_false'] at hmoves
      have hlater : ∀ pair w, t.version ≤ w → (Seen (warm_for_write (.Cold
          ⟨part.scan_at t.version, t.version⟩)).all_rows pair w ↔ Seen part.all_rows pair w) := by
        intro pair w hw
        refine (seen_promote _ pair w).trans ?_
        rw [part.mem_scan_at, and_iff_left hw, hkept.stamped.seen_iff_live (Nat.le_refl _),
          hkept.stamped.seen_iff_live hw]
      refine ⟨_, h.put hpart (.Cold ⟨part.scan_at t.version, t.version⟩) ?_
        (h.sound.since_le g p) (Nat.le_refl _) hlater ?_, fun q w hle hq => ?_⟩
      · exact PredicatePartition.build_kept (stamped_live t.version (part.scan_at t.version))
      · intro cold hcold
        cases hcold
        exact ⟨Nat.le_refl _, scan_at_nodup hkept t.version⟩
      · split
        · rename_i hkey
          obtain ⟨rfl, rfl⟩ := hkey
          rw [max_eq_right (h.version ▸ hle), ← h.shows _ q (h.sound.since_le _ _),
            h.sound.shows_iff (h.sound.since_le _ _), TierSnapshot.warm_of_partition hpart,
            shows_some]
          rw [← h.shows _ q (le_max_right _ _), h.sound.shows_iff (le_max_right _ _),
            TierSnapshot.warm_of_partition hpart, shows_some] at hq
          exact seen_latest hkept hmoves.1.2 hq
        · exact hq
  · exact ⟨since, h, fun _ _ _ hq => hq⟩

end Shown

/-! ## One call -/

theorem Shown.retracts_eq_zero {t : TierSnapshot} {l : Ledger} {since : GraphId → TermId → Nat}
    (h : Shown t l since) (quads : List Quad) :
    t.retracts quads = 0 ↔ l.now ∩ Ledger.batch quads = ∅ := by
  unfold TierSnapshot.retracts
  rw [Finset.card_eq_zero, Finset.filter_eq_empty_iff, Set.eq_empty_iff_forall_notMem]
  simp only [h.now, List.mem_toFinset]
  exact ⟨fun hall q hq => hall hq.2 hq.1, fun hall q hq hnow => hall q ⟨hnow, hq⟩⟩

theorem Shown.inserts_eq_zero {t : TierSnapshot} {l : Ledger} {since : GraphId → TermId → Nat}
    (h : Shown t l since) (dels adds : List Quad) :
    t.inserts dels adds = 0 ↔ Ledger.batch adds ⊆ l.now \ Ledger.batch dels := by
  unfold TierSnapshot.inserts
  rw [Finset.card_eq_zero, Finset.filter_eq_empty_iff]
  simp only [h.now, List.mem_toFinset, not_not]
  exact Iff.rfl

/-- The tier keeps its ledger: the live snapshot shows it from `since` on, each pinned one shows it
at its version, and what a pinned version shows is stored in the live snapshot. -/
structure Tracks (t : MemoryTier) (l : Ledger) (since : GraphId → TermId → Nat) : Prop where
  live : Shown t.current l since
  pinned : t.pinned.map (·.version) = l.pins
  held : ∀ snap ∈ t.pinned, snap.version ≤ l.version ∧ (∃ since', snap.Sound since') ∧
    ∀ q, snap.shows snap.version q = true ↔ q ∈ l.seen snap.version
  stored : ∀ v ∈ l.pins, ∀ q ∈ l.seen v, q ∈ l.seen (max v (since q.graph q.predicate))
  whole : l.whole = true → ∀ g p, since g p = 0

namespace Tracks

variable {t : MemoryTier} {l : Ledger} {since : GraphId → TermId → Nat}

theorem pins_le (h : Tracks t l since) {v : Nat} (hv : v ∈ l.pins) : v ≤ l.version := by
  rw [← h.pinned] at hv
  obtain ⟨snap, hsnap, rfl⟩ := List.mem_map.mp hv
  exact (h.held snap hsnap).1

/-- A batch changes no version that is pinned. -/
theorem batch (h : Tracks t l since) {current : TierSnapshot} {dels adds : List Quad}
    (hbatch : Batch t.current current dels adds) :
    Tracks { t with current } (l.commit (l.now \ Ledger.batch dels ∪ Ledger.batch adds)) since := by
  have hold : ∀ {w}, w ≤ l.version →
      (l.commit (l.now \ Ledger.batch dels ∪ Ledger.batch adds)).seen w = l.seen w := by
    intro w hw
    rw [Ledger.commit_seen, if_neg (Nat.not_lt.mpr hw)]
  refine ⟨h.live.batch hbatch, h.pinned, fun snap hsnap => ?_, fun v hv q hq => ?_, h.whole⟩
  · obtain ⟨hle, hsound, hshows⟩ := h.held snap hsnap
    rw [hold hle]
    exact ⟨hle.trans (Nat.le_succ _), hsound, hshows⟩
  · have hle := h.pins_le hv
    have hsince := h.live.version ▸ h.live.sound.since_le q.graph q.predicate
    rw [hold hle] at hq
    rw [hold (max_le hle hsince)]
    exact h.stored v hv q hq

/-- The set that a batch leaves may be written in any way. -/
theorem batch_as (h : Tracks t l since) {current : TierSnapshot} {dels adds : List Quad}
    (hbatch : Batch t.current current dels adds) {quads : Set Quad}
    (heq : l.now \ Ledger.batch dels ∪ Ledger.batch adds = quads) :
    Tracks { t with current } (l.commit quads) since :=
  heq ▸ h.batch hbatch

/-- One more pin. -/
theorem pin (h : Tracks t l since) {snap : TierSnapshot} (hle : snap.version ≤ l.version)
    (hsound : ∃ since', snap.Sound since')
    (hshows : ∀ q, snap.shows snap.version q = true ↔ q ∈ l.seen snap.version)
    (hstored : ∀ q ∈ l.seen snap.version,
      q ∈ l.seen (max snap.version (since q.graph q.predicate))) :
    Tracks { t with pinned := t.pinned ++ [snap] } { l with pins := l.pins ++ [snap.version] }
      since := by
  refine ⟨⟨h.live.version, h.live.sound, h.live.shows⟩, ?_, fun snap' hsnap' => ?_,
    fun v hv => ?_, h.whole⟩
  · rw [List.map_append, h.pinned]
    rfl
  · rcases List.mem_append.mp hsnap' with hsnap' | hsnap'
    · exact h.held snap' hsnap'
    · obtain rfl := List.mem_singleton.mp hsnap'
      exact ⟨hle, hsound, hshows⟩
  · rcases List.mem_append.mp hv with hv | hv
    · exact h.stored v hv
    · obtain rfl := List.mem_singleton.mp hv
      exact hstored

/-- A change of the live snapshot that is no write gives up no version that is pinned. -/
theorem moved (h : Tracks t l since) {current : TierSnapshot} {since' : GraphId → TermId → Nat}
    {whole : Bool} (hshown : Shown current l since')
    (hstored : ∀ v ∈ l.pins, ∀ q ∈ l.seen v, q ∈ l.seen (max v (since' q.graph q.predicate)))
    (hwhole : whole = true → ∀ g p, since' g p = 0) :
    Tracks { t with current } { l with whole } since' :=
  ⟨⟨hshown.version, hshown.sound, hshown.shows⟩, h.pinned, h.held, hstored, hwhole⟩

/-- The horizon of a compaction is no later than a pin. -/
theorem min_pinned_le (h : Tracks t l since) :
    t.min_pinned ≤ t.current.version ∧ ∀ v ∈ l.pins, t.min_pinned ≤ v := by
  unfold MemoryTier.min_pinned
  rw [h.pinned]
  cases hmin : l.pins.min? with
  | none =>
    rw [List.min?_eq_none_iff] at hmin
    rw [hmin]
    exact ⟨Nat.le_refl _, fun v hv => absurd hv List.not_mem_nil⟩
  | some m =>
    obtain ⟨hmem, hall⟩ := List.min?_eq_some_iff.mp hmin
    exact ⟨(h.pins_le hmem).trans h.live.version.ge, hall⟩

/-- A scan of a pinned snapshot leaves what it shows. -/
theorem read_pinned (h : Tracks t l since) (i : Nat) (g : GraphId) (p : TermId) :
    Tracks { t with pinned := t.pinned.modify i fun snap => snap.read g p } l since := by
  refine ⟨h.live, ?_, fun snap hsnap => ?_, h.stored, h.whole⟩
  · refine Eq.trans (List.ext_getElem? fun j => ?_) h.pinned
    rw [List.getElem?_map, List.getElem?_map, List.getElem?_modify]
    cases t.pinned[j]? with
    | none => simp
    | some snap => by_cases hij : i = j <;> simp [hij, TierSnapshot.read]
  · obtain ⟨j, hj⟩ := List.mem_iff_getElem?.mp hsnap
    rw [List.getElem?_modify] at hj
    obtain ⟨snap', hsnap', rfl⟩ := Option.map_eq_some_iff.mp hj
    have hheld := h.held snap' (List.mem_of_getElem? hsnap')
    by_cases hij : i = j
    · obtain ⟨hle, ⟨since', hsound⟩, hshows⟩ := hheld
      have hread := (⟨rfl, hsound, fun _ _ _ => Iff.rfl⟩ : Shown snap'
        ⟨snap'.version, fun w => {q | snap'.shows w q = true}, [], true⟩ since').read g p
      rw [if_pos hij]
      refine ⟨hle, ⟨since', hread.sound⟩, fun q => ?_⟩
      exact (hread.shows _ q (hsound.since_le _ _)).trans (hshows q)
    · rw [if_neg hij]
      exact hheld

/-- One call keeps the ledger. -/
theorem step (h : Tracks t l since) (op : TierOp) :
    ∃ since', Tracks (t.step op) (l.step op) since' := by
  cases op with
  | insert_quad_batch quads =>
    refine ⟨since, ?_⟩
    unfold MemoryTier.step Ledger.step
    by_cases hnone : quads = []
    · subst hnone
      exact h
    · dsimp only
      rw [if_neg hnone]
      refine h.batch_as (TierSnapshot.insert_quad_batch_batch h.live.sound hnone) ?_
      simp [Ledger.batch]
  | retract_quad_batch quads =>
    refine ⟨since, ?_⟩
    obtain ⟨-, hspec⟩ := TierSnapshot.retract_quad_batch_spec h.live.sound quads
    rw [h.live.retracts_eq_zero, Ne, h.live.retracts_eq_zero] at hspec
    unfold MemoryTier.step Ledger.step
    dsimp only
    rcases hspec with ⟨hnone, hsame⟩ | ⟨hsome, hbatch⟩
    · rw [if_pos hnone, hsame]
      exact h
    · rw [if_neg hsome]
      refine h.batch_as hbatch ?_
      simp [Ledger.batch]
  | apply_quad_batch dels adds =>
    refine ⟨since, ?_⟩
    obtain ⟨-, hspec⟩ := TierSnapshot.apply_quad_batch_spec h.live.sound dels adds
    rw [h.live.retracts_eq_zero, h.live.inserts_eq_zero] at hspec
    unfold MemoryTier.step Ledger.step
    dsimp only
    rcases hspec with ⟨hnone, hsame⟩ | ⟨hsome, hbatch⟩
    · rw [if_pos hnone, hsame]
      exact h
    · rw [if_neg hsome]
      exact h.batch hbatch
  | snapshot =>
    refine ⟨since, ?_⟩
    have hpin := h.pin h.live.version.le ⟨since, h.live.sound⟩
      (fun q => h.live.shows _ q (h.live.sound.since_le _ _))
      (fun q hq => by rwa [max_eq_left (h.live.sound.since_le _ _)])
    rw [h.live.version] at hpin
    exact hpin
  | repin i =>
    refine ⟨since, ?_⟩
    unfold MemoryTier.step MemoryTier.repin Ledger.step
    dsimp only
    rw [← h.pinned, List.getElem?_map, h.pinned]
    cases hsnap : t.pinned[i]? with
    | none =>
      simp only [Option.map_none, Option.toList_none, List.append_nil]
      exact h
    | some snap =>
      obtain ⟨hle, hsound, hshows⟩ := h.held snap (List.mem_of_getElem? hsnap)
      refine h.pin hle hsound hshows (h.stored _ ?_)
      rw [← h.pinned]
      exact List.mem_map_of_mem (List.mem_of_getElem? hsnap)
  | drop_pin i =>
    refine ⟨since, ⟨h.live.version, h.live.sound, h.live.shows⟩, ?_, fun snap hsnap => ?_,
      fun v hv => ?_, h.whole⟩
    · show (t.pinned.eraseIdx i).map _ = l.pins.eraseIdx i
      rw [← h.pinned, List.eraseIdx_map]
    · exact h.held snap (List.mem_of_mem_eraseIdx hsnap)
    · exact h.stored v (List.mem_of_mem_eraseIdx hv)
  | compact =>
    obtain ⟨hcurrent, hpins⟩ := h.min_pinned_le
    refine ⟨_, h.moved (h.live.compact hcurrent) (fun v hv q hq => ?_) nofun⟩
    have hhorizon := hpins v hv
    rw [show max v (max (since q.graph q.predicate) t.min_pinned) =
      max v (since q.graph q.predicate) by omega]
    exact h.stored v hv q hq
  | demote g p written =>
    obtain ⟨since', hshown, hkeeps⟩ := h.live.demote g p written
    exact ⟨since', h.moved hshown
      (fun v hv q hq => hkeeps q v (h.pins_le hv) (h.stored v hv q hq)) nofun⟩
  | promote g p => exact ⟨since, h.moved (h.live.promote g p) h.stored h.whole⟩
  | read g p => exact ⟨since, h.moved (h.live.read g p) h.stored h.whole⟩
  | read_pinned i g p => exact ⟨since, h.read_pinned i g p⟩

end Tracks

/-! ## Runs -/

theorem tracks_start : Tracks .new .start fun _ _ => 0 := by
  have hnone : ∀ w q, TierSnapshot.empty.shows w q = false := by
    intro w q
    unfold TierSnapshot.shows TierSnapshot.partition TierSnapshot.empty
    rw [ExtTreeMap.getElem?_empty]
    rfl
  refine ⟨⟨rfl, TierSnapshot.sound_empty, fun w q _ => ?_⟩, rfl,
    fun snap hsnap => absurd hsnap List.not_mem_nil, fun v hv => absurd hv List.not_mem_nil,
    fun _ _ _ => rfl⟩
  show TierSnapshot.empty.shows w q = true ↔ False
  rw [hnone]
  exact iff_of_false Bool.false_ne_true id

/-- Every run keeps the ledger. -/
theorem run_tracks (script : List TierOp) :
    ∃ since, Tracks (MemoryTier.run script) (Ledger.run script) since := by
  unfold MemoryTier.run Ledger.run
  induction script using List.reverseRecOn with
  | nil => exact ⟨_, tracks_start⟩
  | append_singleton script op ih =>
    obtain ⟨since, h⟩ := ih
    rw [List.foldl_concat, List.foldl_concat]
    exact h.step op

/-- After every run the live snapshot shows what the ledger has for its version, each pair once,
and each pinned snapshot what it has for the version of the pin. As long as nothing was compacted
or moved, the live snapshot shows every version. -/
theorem run_keeps_ledger (script : List TierOp) :
    let t := MemoryTier.run script
    let l := Ledger.run script
    t.current.version = l.version ∧ t.pinned.map (·.version) = l.pins ∧
      (∀ q, t.current.shows l.version q = true ↔ q ∈ l.now) ∧
      (∀ snap ∈ t.pinned, ∀ q, snap.shows snap.version q = true ↔ q ∈ l.seen snap.version) ∧
      (l.whole = true → ∀ w q, t.current.shows w q = true ↔ q ∈ l.seen w) ∧
      ∀ snap ∈ t.current :: t.pinned, ∀ g p part, snap.partition g p = some part →
        (part.scan_at snap.version).Nodup ∧
          part.live_len = (part.scan_at snap.version).length := by
  obtain ⟨since, h⟩ := run_tracks script
  refine ⟨h.live.version, h.pinned, fun q => ?_, fun snap hsnap => (h.held snap hsnap).2.2,
    fun hwhole w q => h.live.shows w q (by rw [h.whole hwhole]; exact Nat.zero_le w),
    fun snap hsnap g p part hpart => ?_⟩
  · rw [← h.live.version]
    exact h.live.now q
  · rcases List.mem_cons.mp hsnap with rfl | hsnap
    · exact h.live.sound.scanned hpart
    · obtain ⟨-, ⟨since', hsound⟩, -⟩ := h.held snap hsnap
      exact hsound.scanned hpart

/-- After every run the reports of a retraction and of an application count the quads that they
take away and bring, each once. -/
theorem run_reports_exact (script : List TierOp) (dels adds : List Quad) :
    let t := (MemoryTier.run script).current
    (t.retract_quad_batch dels).2 =
        (dels.toFinset.filter fun q => t.shows t.version q = true).card ∧
      (t.apply_quad_batch dels adds).2 =
        ⟨(dels.toFinset.filter fun q => t.shows t.version q = true).card,
          (adds.toFinset.filter fun q => ¬ (t.shows t.version q = true ∧ q ∉ dels)).card⟩ := by
  obtain ⟨since, h⟩ := run_tracks script
  exact ⟨(TierSnapshot.retract_quad_batch_spec h.live.sound dels).1,
    (TierSnapshot.apply_quad_batch_spec h.live.sound dels adds).1⟩

end horndb.storage
