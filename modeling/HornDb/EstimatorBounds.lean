-- The bound of an estimate is never below the number of answers, over statistics that are kept
-- by deltas.
import HornDb.StatsDelta
import HornDb.Estimator

open HornDb.Lib
open Std (ExtTreeMap TransOrd LawfulEqOrd)

namespace horndb.wcoj

/-! ## Answers -/

def Term.value (b : horndb.wcoj.Var → TermId) : Term → TermId
  | .Bound id => id
  | .Var v => b v

def TriplePattern.instantiate (b : Var → TermId) (pat : TriplePattern) : Triple :=
  ⟨pat.s.value b, pat.p.value b, pat.o.value b⟩

/-- The variable stands in a pattern. -/
def Occurs (patterns : List TriplePattern) (v : Var) : Prop :=
  ∃ pat ∈ patterns, pat.s = .Var v ∨ pat.p = .Var v ∨ pat.o = .Var v

def Matches (T : Finset Triple) (patterns : List TriplePattern) (b : Var → TermId) : Prop :=
  ∀ pat ∈ patterns, pat.instantiate b ∈ T

/-- The assignments of the variables that stand in the patterns, such that all patterns match. -/
def answers (T : Finset Triple) (patterns : List TriplePattern) :
    Set ({v // Occurs patterns v} → TermId) :=
  (fun b v => b v.1) '' {b | Matches T patterns b}

/-- The slot lets the id through. -/
def Term.Fits (t : Term) (id : TermId) : Prop := ∀ id', t = .Bound id' → id = id'

instance (t : Term) (id : TermId) : Decidable (t.Fits id) :=
  match t with
  | .Bound id' => decidable_of_iff (id = id') ⟨fun h _ heq => h.trans (Term.Bound.inj heq),
      fun h => h id' rfl⟩
  | .Var _ => isTrue nofun

/-- The triples that a pattern can match on its own. -/
def TriplePattern.rows (T : Finset Triple) (pat : TriplePattern) : Finset Triple :=
  T.filter fun t => pat.s.Fits t.s ∧ pat.p.Fits t.p ∧ pat.o.Fits t.o

theorem fits_value (b : Var → TermId) (t : Term) : t.Fits (t.value b) := by
  intro id h
  rw [h]
  rfl

theorem instantiate_mem_rows {T : Finset Triple} {pat : TriplePattern} {b : Var → TermId}
    (h : pat.instantiate b ∈ T) : pat.instantiate b ∈ pat.rows T :=
  Finset.mem_filter.mpr ⟨h, fits_value b _, fits_value b _, fits_value b _⟩

/-- The ways to choose a triple for every pattern on its own. -/
def choices (T : Finset Triple) : List TriplePattern → Finset (List Triple)
  | [] => {[]}
  | pat :: patterns => (pat.rows T ×ˢ choices T patterns).image fun c => c.1 :: c.2

theorem card_choices (T : Finset Triple) (patterns : List TriplePattern) :
    (choices T patterns).card ≤ (patterns.map fun pat => (pat.rows T).card).prod := by
  induction patterns with
  | nil => simp [choices]
  | cons pat patterns ih =>
    rw [choices, List.map_cons, List.prod_cons]
    refine Finset.card_image_le.trans ?_
    rw [Finset.card_product]
    exact Nat.mul_le_mul_left _ ih

theorem mem_choices {T : Finset Triple} {patterns : List TriplePattern} {b : Var → TermId}
    (h : Matches T patterns b) : patterns.map (·.instantiate b) ∈ choices T patterns := by
  induction patterns with
  | nil => simp [choices]
  | cons pat patterns ih =>
    rw [choices, Finset.mem_image]
    have hrest := ih fun pat' hpat' => h pat' (List.mem_cons_of_mem pat hpat')
    exact ⟨(pat.instantiate b, patterns.map (·.instantiate b)), Finset.mem_product.mpr
      ⟨instantiate_mem_rows (h pat List.mem_cons_self), hrest⟩, rfl⟩

/-- The triples that the patterns match say what every variable is. -/
theorem value_of_triples {patterns : List TriplePattern} {b b' : Var → TermId}
    (h : patterns.map (·.instantiate b) = patterns.map (·.instantiate b')) {v : Var}
    (hv : Occurs patterns v) : b v = b' v := by
  obtain ⟨pat, hpat, hslot⟩ := hv
  have hinst := List.map_inj_left.mp h pat hpat
  unfold TriplePattern.instantiate at hinst
  rw [Triple.mk.injEq] at hinst
  obtain ⟨hs, hp, ho⟩ := hinst
  rcases hslot with hslot | hslot | hslot
  · rw [hslot] at hs
    exact hs
  · rw [hslot] at hp
    exact hp
  · rw [hslot] at ho
    exact ho

/-- There are no more answers than choices of a triple for every pattern. -/
theorem ncard_answers_le (T : Finset Triple) (patterns : List TriplePattern) :
    (answers T patterns).ncard ≤ (patterns.map fun pat => (pat.rows T).card).prod := by
  refine le_trans ?_ (card_choices T patterns)
  rw [← Set.ncard_coe_finset]
  have hpick : ∀ a ∈ answers T patterns, ∃ b, Matches T patterns b ∧ (fun v => b v.1) = a :=
    fun a ha => ha
  choose! pick hmatch heq using hpick
  refine Set.ncard_le_ncard_of_injOn (fun a => patterns.map (·.instantiate (pick a)))
    (fun a ha => mem_choices (hmatch a ha)) ?_ (Finset.finite_toSet _)
  intro a ha a' ha' hlist
  rw [← heq a ha, ← heq a' ha']
  funext v
  exact value_of_triples hlist v.2

/-! ## What one pattern can match -/

/-- The statistics are no less than what there is to count. -/
structure Stats.Covers (stats : Stats) (T : Finset Triple) : Prop where
  total : T.card ≤ stats.total_triples
  counts : ∀ p, (with_predicate T p).card ≤ stats.predicate_count p
  degrees : ∀ p pos k, (with_value T p pos k).card ≤ stats.max_degree p pos

namespace Stats

variable {stats : Stats} {T : Finset Triple}

theorem rows_subset {pat : TriplePattern} {t : Triple} (ht : t ∈ pat.rows T) : t ∈ T ∧
    (∀ id, pat.s.as_bound = some id → t.s = id) ∧ (∀ id, pat.p.as_bound = some id → t.p = id) ∧
      ∀ id, pat.o.as_bound = some id → t.o = id := by
  have hfits : ∀ (slot : Term) (id id' : TermId), slot.Fits id → slot.as_bound = some id' →
      id = id' := by
    intro slot id id' h hbound
    cases slot with
    | Bound id'' =>
      cases hbound
      exact h _ rfl
    | Var v => cases hbound
  unfold TriplePattern.rows at ht
  rw [Finset.mem_filter] at ht
  exact ⟨ht.1, fun id => hfits _ _ _ ht.2.1, fun id => hfits _ _ _ ht.2.2.1,
    fun id => hfits _ _ _ ht.2.2.2⟩

theorem Covers.pattern_upper (h : stats.Covers T) (pat : TriplePattern) :
    (pat.rows T).card ≤ stats.pattern_upper pat := by
  unfold Stats.pattern_upper
  dsimp only
  refine le_trans ?_ (le_max_left _ _)
  cases hp : pat.p.as_bound with
  | none => exact (Finset.card_le_card fun t ht => (rows_subset ht).1).trans h.total
  | some pid =>
    have hpredicate : ∀ t ∈ pat.rows T, t.p = pid := fun t ht => (rows_subset ht).2.2.1 pid hp
    cases hs : pat.s.as_bound with
    | none =>
      cases ho : pat.o.as_bound with
      | none =>
        refine (Finset.card_le_card fun t ht => ?_).trans (h.counts pid)
        exact Finset.mem_filter.mpr ⟨(rows_subset ht).1, hpredicate t ht⟩
      | some o =>
        refine (Finset.card_le_card fun t ht => ?_).trans (h.degrees pid .Object o)
        exact Finset.mem_filter.mpr ⟨(rows_subset ht).1, hpredicate t ht,
          (rows_subset ht).2.2.2 o ho⟩
    | some s =>
      cases ho : pat.o.as_bound with
      | none =>
        refine (Finset.card_le_card fun t ht => ?_).trans (h.degrees pid .Subject s)
        exact Finset.mem_filter.mpr ⟨(rows_subset ht).1, hpredicate t ht,
          (rows_subset ht).2.1 s hs⟩
      | some o =>
        refine Finset.card_le_one.mpr fun t ht u hu => ?_
        have ht' := rows_subset ht
        have hu' := rows_subset hu
        have hall : ∀ x : Triple, x ∈ pat.rows T → x = ⟨s, pid, o⟩ := by
          intro x hx
          obtain ⟨_, hxs, hxp, hxo⟩ := rows_subset hx
          obtain ⟨xs, xp, xo⟩ := x
          rw [show xs = s from hxs s hs, show xp = pid from hxp pid hp, show xo = o from hxo o ho]
        rw [hall t ht, hall u hu]

theorem Covers.empty (h : stats.Covers T) {pat : TriplePattern}
    (hempty : stats.is_structurally_empty pat = true) : (pat.rows T).card = 0 := by
  unfold is_structurally_empty at hempty
  cases hp : pat.p.as_bound with
  | none => simp [hp] at hempty
  | some pid =>
    rw [hp] at hempty
    have hcount : stats.predicate_count pid = 0 := by simpa using hempty
    have hle : (pat.rows T).card ≤ (with_predicate T pid).card := by
      refine Finset.card_le_card fun t ht => ?_
      exact Finset.mem_filter.mpr ⟨(rows_subset ht).1, (rows_subset ht).2.2.1 pid hp⟩
    have hcounts := h.counts pid
    omega

/-! ## What a basic graph pattern can match -/

/-- A product of factors that are not zero is the product, unless it got stuck at the end. -/
theorem foldl_saturating {l : List Nat} (hl : ∀ n ∈ l, 1 ≤ n) {acc : Nat} :
    acc * l.prod ≤ l.foldl saturating_mul acc ∨ l.foldl saturating_mul acc = U64_MAX := by
  induction l generalizing acc with
  | nil => simp
  | cons n l ih =>
    have hrest : ∀ m ∈ l, 1 ≤ m := fun m hm => hl m (List.mem_cons_of_mem n hm)
    rw [List.foldl_cons, List.prod_cons, ← Nat.mul_assoc]
    unfold saturating_mul
    rcases Nat.le_total (acc * n) U64_MAX with hle | hge
    · rw [min_eq_left hle]
      exact ih hrest
    · rw [min_eq_right hge]
      right
      -- From the largest number on, the product stays.
      clear ih hl
      induction l with
      | nil => rfl
      | cons m l ih =>
        have hm := hrest m List.mem_cons_self
        rw [List.foldl_cons, min_eq_right (Nat.le_mul_of_pos_right U64_MAX hm)]
        exact ih fun m' hm' => hrest m' (List.mem_cons_of_mem m hm')

theorem one_le_pattern_upper (stats : Stats) (pat : TriplePattern) :
    1 ≤ stats.pattern_upper pat := le_max_right _ _

/-- The answers are no more than the bound, unless it got stuck. -/
theorem Covers.cross_product (h : stats.Covers T) (patterns : List TriplePattern) :
    (answers T patterns).ncard ≤ stats.cross_product patterns ∨
      stats.cross_product patterns = U64_MAX := by
  have huppers : ∀ n ∈ patterns.map stats.pattern_upper, 1 ≤ n := by
    intro n hn
    obtain ⟨pat, _, rfl⟩ := List.mem_map.mp hn
    exact one_le_pattern_upper stats pat
  have hrows : (patterns.map fun pat => (pat.rows T).card).prod ≤
      (patterns.map stats.pattern_upper).prod :=
    List.prod_map_le_prod_map₀ _ _ (fun _ _ => Nat.zero_le _) fun pat _ => h.pattern_upper pat
  unfold Stats.cross_product product
  rcases foldl_saturating huppers with hle | hmax
  · rw [Nat.one_mul] at hle
    exact Or.inl ((ncard_answers_le T patterns).trans
      ((hrows.trans hle).trans (le_max_left _ _)))
  · rw [hmax]
    exact Or.inr rfl

/-- One pattern without a triple leaves no answer. -/
theorem Covers.no_answers (h : stats.Covers T) {patterns : List TriplePattern}
    (hempty : patterns.any stats.is_structurally_empty = true) :
    (answers T patterns).ncard = 0 := by
  obtain ⟨pat, hpat, hp⟩ := List.any_eq_true.mp hempty
  have hzero : (patterns.map fun pat => (pat.rows T).card).prod = 0 :=
    List.prod_eq_zero (List.mem_map.mpr ⟨pat, hpat, h.empty hp⟩)
  have hle := ncard_answers_le T patterns
  omega

end Stats

/-- The bound is no less than the number of answers, unless it is the largest number, and the
estimate is no more than the bound. -/
def Estimate.Sound (e : Estimate) (T : Finset Triple) (patterns : List TriplePattern) : Prop :=
  ((answers T patterns).ncard ≤ e.upper_bound ∨ e.upper_bound = U64_MAX) ∧
    e.estimate ≤ e.upper_bound

namespace StatsEstimator

variable {stats : Stats} {T : Finset Triple}

theorem clamp_le (n lo hi : Nat) : clamp n lo hi ≤ hi := min_le_right _ _

theorem nothing_sound (h : stats.Covers T) {patterns : List TriplePattern}
    (hempty : patterns.any stats.is_structurally_empty = true) :
    (⟨0, 0⟩ : Estimate).Sound T patterns :=
  ⟨Or.inl (Nat.le_of_eq (h.no_answers hempty)), le_refl _⟩

theorem compute_bgp_sound (h : stats.Covers T) (patterns : List TriplePattern) :
    (stats.compute_bgp patterns).Sound T patterns :=
  ⟨h.cross_product patterns, clamp_le _ _ _⟩

theorem estimate_pattern_sound (h : stats.Covers T) (pat : TriplePattern) :
    (stats.estimate_pattern pat).Sound T [pat] := by
  unfold Stats.estimate_pattern
  split
  · rename_i hempty
    exact nothing_sound h (by simp [hempty])
  · refine ⟨Or.inl ?_, max_le (min_le_right _ _) (Stats.one_le_pattern_upper stats pat)⟩
    have hle := ncard_answers_le T [pat]
    rw [List.map_singleton, List.prod_singleton] at hle
    exact hle.trans (h.pattern_upper pat)

/-! ## An estimator that is asked again and again -/

/-- A question to the estimator. -/
inductive Ask where
  | estimate_bgp (patterns : List TriplePattern)
  | estimate_bgp_fast (patterns : List TriplePattern)

def Ask.patterns : Ask → List TriplePattern
  | .estimate_bgp patterns => patterns
  | .estimate_bgp_fast patterns => patterns

variable (bgp_key : List TriplePattern → Nat)

def answer (est : StatsEstimator) : Ask → Estimate × StatsEstimator
  | .estimate_bgp patterns => est.estimate_bgp bgp_key patterns
  | .estimate_bgp_fast patterns => est.estimate_bgp_fast bgp_key patterns

/-- The estimator after some questions. -/
def asked (stats : Stats) (asks : List Ask) : StatsEstimator :=
  asks.foldl (fun est ask => (est.answer bgp_key ask).2) (.new stats)

/-- The memo holds what was computed for a question before. -/
structure Remembers (est : StatsEstimator) (stats : Stats) (asks : List Ask) : Prop where
  same : est.stats = stats
  memo : ∀ k e, est.memo[k]? = some e →
    ∃ ask ∈ asks, bgp_key ask.patterns = k ∧ e = stats.compute_bgp ask.patterns

variable {bgp_key} {est : StatsEstimator} {asks : List Ask}

theorem Remembers.snoc (h : Remembers bgp_key est stats asks) (ask : Ask) :
    Remembers bgp_key est stats (asks ++ [ask]) := by
  refine ⟨h.same, fun k e he => ?_⟩
  obtain ⟨ask', hmem, hrest⟩ := h.memo k e he
  exact ⟨ask', List.mem_append_left _ hmem, hrest⟩

theorem Remembers.estimate_bgp (h : Remembers bgp_key est stats asks) (ask : Ask) :
    Remembers bgp_key (est.estimate_bgp bgp_key ask.patterns).2 stats (asks ++ [ask]) := by
  have hkeep := h.snoc ask
  unfold StatsEstimator.estimate_bgp
  split
  · exact hkeep
  · exact hkeep
  · split
    · exact hkeep
    · split
      · exact hkeep
      · refine ⟨h.same, fun k e he => ?_⟩
        dsimp only at he
        rw [ExtTreeMap.getElem?_insert] at he
        split at he
        · rename_i hk
          cases he
          rw [h.same]
          exact ⟨ask, List.mem_append_right _ (List.mem_singleton_self ask),
            LawfulEqOrd.eq_of_compare hk, rfl⟩
        · exact hkeep.memo k e he

theorem Remembers.answer (h : Remembers bgp_key est stats asks) (ask : Ask) :
    Remembers bgp_key (est.answer bgp_key ask).2 stats (asks ++ [ask]) := by
  cases ask with
  | estimate_bgp patterns => exact h.estimate_bgp (.estimate_bgp patterns)
  | estimate_bgp_fast patterns =>
    unfold StatsEstimator.answer StatsEstimator.estimate_bgp_fast
    dsimp only
    split
    · exact h.estimate_bgp (.estimate_bgp_fast patterns)
    · exact h.snoc _

theorem asked_remembers (stats : Stats) (asks : List Ask) :
    Remembers bgp_key (asked bgp_key stats asks) stats asks := by
  induction asks using List.reverseRecOn with
  | nil => exact ⟨rfl, fun k e he => by simp [asked, new] at he⟩
  | append_singleton asks ask ih =>
    unfold asked at ih ⊢
    rw [List.foldl_append]
    exact ih.answer ask

/-- Patterns whose hash no other question shares get a sound estimate. -/
theorem Remembers.sound (h : Remembers bgp_key est stats asks) (hcovers : stats.Covers T)
    (ask : Ask) (hkey : ∀ ask' ∈ asks, bgp_key ask'.patterns = bgp_key ask.patterns →
      ask'.patterns = ask.patterns) : (est.answer bgp_key ask).1.Sound T ask.patterns := by
  have hbgp : (est.estimate_bgp bgp_key ask.patterns).1.Sound T ask.patterns := by
    generalize ask.patterns = patterns at hkey ⊢
    unfold StatsEstimator.estimate_bgp
    rw [h.same]
    split
    · have hle := ncard_answers_le T []
      exact ⟨Or.inl (by simpa using hle), le_refl _⟩
    · exact estimate_pattern_sound hcovers _
    · split
      · rename_i hempty
        exact nothing_sound hcovers hempty
      · split
        · rename_i cached hcached
          obtain ⟨ask', hmem, hk, rfl⟩ := h.memo _ _ hcached
          rw [hkey ask' hmem hk]
          exact compute_bgp_sound hcovers patterns
        · exact compute_bgp_sound hcovers patterns
  cases ask with
  | estimate_bgp patterns => exact hbgp
  | estimate_bgp_fast patterns =>
    unfold StatsEstimator.answer StatsEstimator.estimate_bgp_fast
    dsimp only
    split
    · exact hbgp
    · rw [h.same]
      exact ⟨hcovers.cross_product patterns, clamp_le _ _ _⟩

end StatsEstimator

/-! ## Runs -/

/-- What happens to a source with its statistics: an ordering is asked for, a delta is merged
into both, or the statistics are built anew. -/
inductive Op where
  | request (ord : Ordering)
  | apply_delta (dels adds : List Triple)
  | rebuild

structure Graph where
  source : VecTripleSource
  stats : SnapshotStats

namespace Graph

def start (ts : List Triple) : Graph :=
  let source := .from_triples ts
  ⟨source, .from_source source⟩

/-- The statistics see the source before the delta is in it. -/
def step (g : Graph) : Op → Graph
  | .request ord => { g with source := g.source.request ord }
  | .apply_delta dels adds =>
    ⟨g.source.apply_delta dels adds, (g.stats.apply_delta g.source dels adds).1⟩
  | .rebuild => { g with stats := .from_source g.source }

def run (ts : List Triple) (ops : List Op) : Graph := ops.foldl step (start ts)

/-- The statistics are those of a scan over the source, and the degrees no less than the true
ones. -/
structure Tracks (g : Graph) : Prop where
  total : g.stats.total = (SnapshotStats.from_source g.source).total
  counts : g.stats.predicate_count = (SnapshotStats.from_source g.source).predicate_count
  distinct : g.stats.distinct_predicates =
    (SnapshotStats.from_source g.source).distinct_predicates
  subjects : g.stats.ndv_subject = (SnapshotStats.from_source g.source).ndv_subject
  objects : g.stats.ndv_object = (SnapshotStats.from_source g.source).ndv_object
  degrees : ∀ p pos k, (with_value g.source.triples p pos k).card ≤ g.stats.degree_of p pos

theorem step_exact {g : Graph} (h : g.stats.Exact g.source.triples) (op : Op) :
    (g.step op).stats.Exact (g.step op).source.triples := by
  cases op with
  | request ord =>
    show g.stats.Exact (g.source.request ord).triples
    rw [VecTripleSource.request_triples]
    exact h
  | apply_delta dels adds => exact h.apply_delta dels adds
  | rebuild => exact SnapshotStats.from_source_exact g.source

theorem run_exact (ts : List Triple) (ops : List Op) :
    (run ts ops).stats.Exact (run ts ops).source.triples := by
  induction ops using List.reverseRecOn with
  | nil => exact SnapshotStats.from_source_exact (.from_triples ts)
  | append_singleton ops op ih =>
    unfold run at ih ⊢
    rw [List.foldl_append]
    exact step_exact ih op

end Graph

/-- The triples after the deltas of a run. -/
def merged (ts : List Triple) (ops : List Op) : Finset Triple :=
  ops.foldl (fun T op =>
    match op with
    | .apply_delta dels adds => (T \ dels.toFinset) ∪ adds.toFinset
    | _ => T) ts.toFinset

theorem run_triples (ts : List Triple) (ops : List Op) :
    (Graph.run ts ops).source.triples = merged ts ops := by
  induction ops using List.reverseRecOn with
  | nil => exact VecTripleSource.from_triples_triples ts
  | append_singleton ops op ih =>
    unfold Graph.run merged at ih ⊢
    rw [List.foldl_append, List.foldl_append, List.foldl_cons, List.foldl_cons, ← ih]
    cases op with
    | request ord => exact VecTripleSource.request_triples _ ord
    | apply_delta dels adds => exact VecTripleSource.apply_delta_triples _ dels adds
    | rebuild => rfl

theorem SnapshotStats.Exact.covers {stats : SnapshotStats} {T : Finset Triple}
    (h : stats.Exact T) : stats.read.Covers T := by
  have hcount : ∀ p, stats.count_of p = (with_predicate T p).card := by
    intro p
    unfold SnapshotStats.count_of
    rw [ExtTreeMap.getD_eq_getD_getElem?, h.counts, getD_counted]
  refine ⟨Nat.le_of_eq h.total.symm, fun p => Nat.le_of_eq (hcount p).symm, fun p pos k => ?_⟩
  show _ ≤ stats.degree_of p pos
  have hdegree := h.degrees p pos k
  unfold SnapshotStats.degree_of
  split
  · rename_i d hd
    rw [hd] at hdegree
    exact hdegree
  · rename_i hd
    rw [hd] at hdegree
    cases pos <;> exact hdegree.trans (Nat.zero_le _)

/-- After any deltas the statistics are those of the merged source, and whatever is asked of an
estimator over them gets a sound estimate. -/
theorem statistics_sound (bgp_key : List TriplePattern → Nat) (ts : List Triple) (ops : List Op)
    (asks : List StatsEstimator.Ask) (ask : StatsEstimator.Ask)
    (hkey : ∀ ask' ∈ asks, bgp_key ask'.patterns = bgp_key ask.patterns →
      ask'.patterns = ask.patterns) :
    (Graph.run ts ops).source.triples = merged ts ops ∧ (Graph.run ts ops).Tracks ∧
      ((StatsEstimator.asked bgp_key (Graph.run ts ops).stats.read asks).answer bgp_key ask).1.Sound
        (merged ts ops) ask.patterns := by
  have hexact := Graph.run_exact ts ops
  have hcovers := hexact.covers
  obtain ⟨htotal, hcounts, hdistinct, hsubjects, hobjects⟩ :=
    hexact.same (SnapshotStats.from_source_exact _)
  refine ⟨run_triples ts ops,
    ⟨htotal, hcounts, hdistinct, hsubjects, hobjects, hcovers.degrees⟩, ?_⟩
  rw [run_triples] at hcovers
  exact (StatsEstimator.asked_remembers _ asks).sound hcovers ask hkey

/-- Two edges and one more, of which the first goes. -/
def three_edges : List Op :=
  [.request .Spo, .apply_delta [⟨1, 10, 2⟩] [⟨4, 11, 3⟩, ⟨1, 10, 3⟩]]

def meet : List TriplePattern := [⟨.Var 0, .Bound 10, .Var 1⟩, ⟨.Var 2, .Bound 11, .Var 1⟩]

/-- The answers to two edges that meet, after a question about one. -/
theorem meet_bounded :
    merged [⟨1, 10, 2⟩, ⟨1, 10, 3⟩] three_edges = {⟨1, 10, 3⟩, ⟨4, 11, 3⟩} ∧
      ((StatsEstimator.asked List.length
        (Graph.run [⟨1, 10, 2⟩, ⟨1, 10, 3⟩] three_edges).stats.read
          [.estimate_bgp [⟨.Var 0, .Bound 10, .Var 1⟩]]).answer List.length
            (.estimate_bgp meet)).1.Sound
        (merged [⟨1, 10, 2⟩, ⟨1, 10, 3⟩] three_edges) meet := by
  refine ⟨by decide, ?_⟩
  refine (statistics_sound List.length _ three_edges _ (.estimate_bgp meet) ?_).2.2
  intro ask hask hlength
  rw [List.mem_singleton.mp hask] at hlength
  exact absurd hlength (by decide)

end horndb.wcoj
