-- Which runs keep the memo exact. Its tag names the commit and nothing else, so it fails when a
-- view inserts a scope between the plan and the merge of a delta, and when two readers of one
-- commit hide different graphs.
import HornDb.MemoDelta

open horndb.wcoj (Triple VecTripleSource)

namespace horndb.sparql.exec.horn

variable {names : GraphNames} {limits : Limits} {b b' : HornBackend}

/-! ## Exact answers -/

/-- The source holds what the scope holds at the version, under the setting. -/
def HornBackend.Holds (names : GraphNames) (b : HornBackend) (version : Nat)
    (visible : Finset String) (scope : SnapshotScope) (src : VecTripleSource) : Prop :=
  src.triples = content names (b.commits version) visible scope

/-- Two settings show the same triples of the default union of a version. -/
def HornBackend.SameUnion (names : GraphNames) (b : HornBackend) (version : Nat)
    (visible visible' : Finset String) : Prop :=
  content names (b.commits version) visible .DefaultUnion =
    content names (b.commits version) visible' .DefaultUnion

/-- Every entry of the memo is right for each reader of its version, and every answer was right
for its reader. A view that is pinned now reads the latest version under the backend's setting. -/
structure HornBackend.Exact (names : GraphNames) (b : HornBackend) : Prop where
  for_views : ∀ scope src, b.snapshots.map scope = some src → ∀ i view, b.views i = some view →
    view.version = b.snapshots.version →
      b.Holds names view.version view.visible_inferred scope src
  for_latest : ∀ scope src, b.snapshots.map scope = some src → b.writer = .Idle →
    b.snapshots.version = b.version → b.Holds names b.version b.visible_inferred scope src
  answers : ∀ a ∈ b.answers, b.Holds names a.version a.visible_inferred a.scope a.src

/-! ## The steps that keep it -/

/-- The newest version that a view can be pinned at. -/
def HornBackend.newest (b : HornBackend) : Nat :=
  match b.writer with
  | .Plan base _ _ => base
  | .Merge base _ => base
  | _ => b.version

/-- The writer takes the memo on from the version, under the backend's setting. -/
def HornBackend.KeepsUp (b : HornBackend) (version : Nat) : Prop :=
  b.writer ≠ .Invalidate ∧ b.newest = version

/-- A view inserts a default union only where every reader of its version sees the same union, and
a delta is merged only when each scope in the memo was planned, or is not changed by the write. -/
def HornBackend.Allowed (names : GraphNames) (b : HornBackend) : Step → Prop
  | .insert i => ∀ view build, b.views i = some view → view.building = some build →
    build.scope = .DefaultUnion → b.snapshots.version ≤ view.version →
      (∀ k other, b.views k = some other → other.version = view.version →
        b.SameUnion names view.version view.visible_inferred other.visible_inferred) ∧
      (b.KeepsUp view.version →
        b.SameUnion names view.version view.visible_inferred b.visible_inferred)
  | .merge => ∀ base plans, b.writer = .Merge base plans → ∀ scope src,
    b.snapshots.map scope = some src → (∃ p ∈ plans, p.scope = scope) ∨
      content names (b.commits base) b.visible_inferred scope =
        content names (b.commits b.version) b.visible_inferred scope
  | _ => True

/-- Where the writer stands between its locked steps. -/
def HornBackend.Midway (names : GraphNames) (b : HornBackend) : Prop :=
  match b.writer with
  | .Plan base dels adds => base + 1 = b.version ∧
    b.commits b.version = (b.commits base).apply_quads dels adds
  | .Merge base plans => base + 1 = b.version ∧ b.snapshots.version = base ∧
    (plans.map (·.scope)).Nodup ∧ ∀ p ∈ plans, (∃ src, b.snapshots.map p.scope = some src) ∧
      content names (b.commits b.version) b.visible_inferred p.scope =
        (content names (b.commits base) b.visible_inferred p.scope \ p.dels.toFinset) ∪
          p.adds.toFinset
  | _ => True

/-- The view reads a version that it may, and what it has built is right for it. -/
structure HornBackend.GoodView (names : GraphNames) (b : HornBackend) (view : ReadView) : Prop where
  le : view.version ≤ b.newest
  memo : view.version = b.snapshots.version → ∀ scope src, b.snapshots.map scope = some src →
    b.Holds names view.version view.visible_inferred scope src
  building : ∀ build, view.building = some build →
    b.Holds names view.version view.visible_inferred build.scope build.built

structure HornBackend.Kept (names : GraphNames) (b : HornBackend) : Prop where
  memo_le : b.snapshots.version ≤ b.newest
  kept_up : b.KeepsUp b.snapshots.version → ∀ scope src, b.snapshots.map scope = some src →
    b.Holds names b.snapshots.version b.visible_inferred scope src
  views : ∀ i view, b.views i = some view → b.GoodView names view
  answers : ∀ a ∈ b.answers, a.version ≤ b.version ∧
    b.Holds names a.version a.visible_inferred a.scope a.src
  midway : b.Midway names

namespace HornBackend

theorem newest_idle (h : b.writer = .Idle) : b.newest = b.version := by
  simp [newest, h]

theorem Kept.newest_le (h : b.Kept names) : b.newest ≤ b.version := by
  have := h.midway
  unfold Midway at this
  unfold newest
  cases hw : b.writer with
  | Idle => exact Nat.le_refl _
  | Invalidate => exact Nat.le_refl _
  | Plan base dels adds =>
    rw [hw] at this
    simp only at this ⊢
    omega
  | Merge base plans =>
    rw [hw] at this
    simp only at this ⊢
    omega

theorem Kept.exact (h : b.Kept names) : b.Exact names where
  for_views scope src hsrc i view hv hversion := (h.views i view hv).memo hversion scope src hsrc
  for_latest scope src hsrc hidle hversion := by
    have := h.kept_up ⟨by simp [hidle], (newest_idle hidle).trans hversion.symm⟩ scope src hsrc
    rw [hversion] at this
    exact this
  answers a ha := (h.answers a ha).2

theorem new_kept : new.Kept names where
  memo_le := Nat.le_refl _
  kept_up _ := nofun
  views := nofun
  answers := nofun
  midway := trivial

/-! ## Views -/

theorem Kept.set_view (h : b.Kept names) (i : Nat) {view : ReadView}
    (hview : b.GoodView names view) : (b.set_view i view).Kept names where
  memo_le := h.memo_le
  kept_up := h.kept_up
  views k other hk := by
    simp only [HornBackend.set_view, Function.update_apply] at hk
    split at hk
    · cases hk
      exact ⟨hview.le, hview.memo, hview.building⟩
    · have hother := h.views k other hk
      exact ⟨hother.le, hother.memo, hother.building⟩
  answers := h.answers
  midway := h.midway

theorem Kept.drop_view (h : b.Kept names) (i : Nat) :
    ({ b with views := Function.update b.views i none } : HornBackend).Kept names where
  memo_le := h.memo_le
  kept_up := h.kept_up
  views k other hk := by
    simp only [Function.update_apply] at hk
    split at hk
    · cases hk
    · have hother := h.views k other hk
      exact ⟨hother.le, hother.memo, hother.building⟩
  answers := h.answers
  midway := h.midway

theorem Kept.answer (h : b.Kept names) {view : ReadView} (hle : view.version ≤ b.newest)
    {scope : SnapshotScope} {src : VecTripleSource}
    (hsrc : b.Holds names view.version view.visible_inferred scope src) :
    (b.answer view scope src).Kept names where
  memo_le := h.memo_le
  kept_up := h.kept_up
  views k other hk := by
    have hother := h.views k other hk
    exact ⟨hother.le, hother.memo, hother.building⟩
  answers := by
    simp only [HornBackend.answer, List.forall_mem_cons]
    exact ⟨⟨hle.trans h.newest_le, hsrc⟩, h.answers⟩
  midway := h.midway

/-- A build is right for its view, also where it is a clone of the twin. -/
theorem build_holds {view : ReadView} {scope : SnapshotScope} {twin : Option VecTripleSource}
    (htwin : ∀ src, twin = some src → ∃ other, scope.default_twin = some other ∧
      b.Holds names view.version view.visible_inferred other src) :
    b.Holds names view.version view.visible_inferred scope (b.build names view scope twin) := by
  unfold Holds build
  have hbuilt : (VecTripleSource.from_triples (scope_triples names (b.commits view.version)
      view.visible_inferred scope)).triples =
      content names (b.commits view.version) view.visible_inferred scope :=
    VecTripleSource.from_triples_triples _
  cases twin with
  | none => exact hbuilt
  | some src =>
    dsimp only
    split
    · rename_i hsame
      obtain ⟨other, hother, hsrc⟩ := htwin src rfl
      have hcoincide := content_coincide hsame
      cases scope with
      | DefaultUnion =>
        cases hother
        exact hsrc.trans hcoincide.symm
      | DefaultStrict =>
        cases hother
        exact hsrc.trans hcoincide
      | FromUnion graphs => cases hother
      | OneGraph g => cases hother
    · exact hbuilt

theorem Kept.look_up (h : b.Kept names) {i : Nat} {view : ReadView} (hv : b.views i = some view)
    (scope : SnapshotScope) : (b.look_up names limits i view scope).Kept names := by
  have hview := h.views i view hv
  unfold HornBackend.look_up
  dsimp only
  split
  · exact h.answer hview.le (VecTripleSource.from_triples_triples _)
  · split
    · rename_i src hhit
      split at hhit
      · rename_i hversion
        exact h.answer hview.le (hview.memo hversion.symm scope src hhit)
      · cases hhit
    · split
      · exact h
      · refine h.set_view i ⟨hview.le, hview.memo, fun build hbuild => ?_⟩
        cases hbuild
        refine build_holds fun src hsrc => ?_
        simp only [held] at hsrc
        split at hsrc
        · cases hsrc
        · rename_i hversion
          obtain ⟨other, hother, hmap⟩ := Option.bind_eq_some_iff.mp hsrc
          exact ⟨other, hother, hview.memo (not_not.mp hversion).symm other src hmap⟩

/-- A memo at the version of a view, with one entry more than what stood there. -/
theorem Kept.put (h : b.Kept names) {view : ReadView} {memo : SnapshotMemo} {scope : SnapshotScope}
    {src : VecTripleSource} (hview : b.GoodView names view)
    (hold : memo = b.snapshots ∨ memo = .empty view.version ∧ b.snapshots.version < view.version)
    (hversion : memo.version = view.version)
    (hsrc : b.Holds names view.version view.visible_inferred scope src)
    (hallowed : scope = .DefaultUnion →
      (∀ k other, b.views k = some other → other.version = view.version →
        b.SameUnion names view.version view.visible_inferred other.visible_inferred) ∧
      (b.KeepsUp view.version →
        b.SameUnion names view.version view.visible_inferred b.visible_inferred)) :
    ({ b with snapshots := memo.put scope src } : HornBackend).Kept names := by
  have hnew : ∀ visible, (scope = .DefaultUnion →
      b.SameUnion names view.version view.visible_inferred visible) →
      b.Holds names view.version visible scope src := by
    intro visible hsame
    by_cases hscope : scope = .DefaultUnion
    · rw [hscope] at hsrc ⊢
      exact hsrc.trans (hsame hscope)
    · exact hsrc.trans (content_visible hscope)
  refine ⟨?_, ?_, ?_, h.answers, ?_⟩
  · exact hversion.trans_le hview.le
  · intro hkeeps scope' src' hmap
    rw [SnapshotMemo.put_version, hversion] at hkeeps ⊢
    rcases SnapshotMemo.put_eq_some hmap with ⟨rfl, rfl⟩ | hmap
    · exact hnew _ fun hu => (hallowed hu).2 hkeeps
    · rcases hold with rfl | ⟨rfl, _⟩
      · have := h.kept_up (hversion ▸ hkeeps) scope' src' hmap
        rw [hversion] at this
        exact this
      · cases hmap
  · intro k other hk
    have hother := h.views k other hk
    refine ⟨hother.le, fun hov scope' src' hmap => ?_, hother.building⟩
    rw [SnapshotMemo.put_version, hversion] at hov
    rcases SnapshotMemo.put_eq_some hmap with ⟨rfl, rfl⟩ | hmap
    · rw [hov]
      exact hnew _ fun hu => (hallowed hu).1 k other hk hov
    · rcases hold with rfl | ⟨rfl, _⟩
      · exact hother.memo (hov.trans hversion.symm) scope' src' hmap
      · cases hmap
  · have hmid := h.midway
    unfold Midway at hmid ⊢
    dsimp only at hmid ⊢
    split at hmid
    · exact hmid
    · rename_i base plans hw
      obtain ⟨hbase, hmemo, hnodup, hplans⟩ := hmid
      have hsame : memo = b.snapshots := by
        rcases hold with rfl | ⟨rfl, hlt⟩
        · rfl
        · have := hview.le
          simp only [newest, hw] at this
          omega
      subst hsame
      refine ⟨hbase, hmemo, hnodup, fun p hp => ⟨?_, (hplans p hp).2⟩⟩
      by_cases hscope : p.scope = scope
      · exact ⟨src, by rw [hscope]; exact Function.update_self _ _ _⟩
      · obtain ⟨src', hsrc'⟩ := (hplans p hp).1
        exact ⟨src', (Function.update_of_ne hscope _ _).trans hsrc'⟩
    · trivial

theorem Kept.insert (h : b.Kept names) {i : Nat} {view : ReadView} {build : Build}
    (hv : b.views i = some view) (hb : view.building = some build)
    (hallowed : b.Allowed names (.insert i)) : (b.insert i view build).Kept names := by
  have hview := h.views i view hv
  have hbuilt := hview.building build hb
  have hset : (b.set_view i { view with building := none }).Kept names :=
    h.set_view i ⟨hview.le, hview.memo, nofun⟩
  have hdone : (b.set_view i { view with building := none }).GoodView names view :=
    ⟨hview.le, hview.memo, hview.building⟩
  have hviews : ∀ k other,
      (b.set_view i { view with building := none }).views k = some other →
      ∃ old, b.views k = some old ∧ old.version = other.version ∧
        old.visible_inferred = other.visible_inferred := by
    intro k other hk
    simp only [HornBackend.set_view, Function.update_apply] at hk
    split at hk
    · rename_i hki
      cases hk
      exact ⟨view, hki ▸ hv, rfl, rfl⟩
    · exact ⟨other, hk, rfl, rfl⟩
  have hunion : b.snapshots.version ≤ view.version → build.scope = .DefaultUnion →
      (∀ k other, (b.set_view i { view with building := none }).views k = some other →
        other.version = view.version →
          b.SameUnion names view.version view.visible_inferred other.visible_inferred) ∧
      (b.KeepsUp view.version →
        b.SameUnion names view.version view.visible_inferred b.visible_inferred) := by
    intro hle hu
    have hall := hallowed view build hv hb hu hle
    refine ⟨fun k other hk hov => ?_, hall.2⟩
    obtain ⟨old, hold, hversion, hvisible⟩ := hviews k other hk
    rw [← hvisible]
    exact hall.1 k old hold (hversion.trans hov)
  unfold HornBackend.insert
  dsimp only
  split
  · exact hset.answer hview.le hbuilt
  · rename_i hle
    rw [not_lt] at hle
    split
    · rename_i src hmap
      split at hmap
      · cases hmap
      · rename_i hge
        have hversion : view.version = b.snapshots.version := by
          have : ¬b.snapshots.version < view.version := hge
          have : b.snapshots.version ≤ view.version := hle
          omega
        rw [if_neg hge]
        exact hset.answer hview.le (hview.memo hversion _ src hmap)
    · rename_i hmap
      refine Kept.answer (hset.put hdone ?_ ?_ hbuilt (hunion hle)) hview.le hbuilt
      · split
        · rename_i hlt
          exact Or.inr ⟨rfl, hlt⟩
        · exact Or.inl rfl
      · split
        · rfl
        · rename_i hge
          have : ¬b.snapshots.version < view.version := hge
          have : b.snapshots.version ≤ view.version := hle
          omega

theorem Kept.request (h : b.Kept names) {scope : SnapshotScope} {src : VecTripleSource}
    (hsrc : b.snapshots.map scope = some src) (ord : wcoj.Ordering) :
    ({ b with snapshots := b.snapshots.put scope (src.request ord) } : HornBackend).Kept names := by
  have hmem : ∀ scope' src', (b.snapshots.put scope (src.request ord)).map scope' = some src' →
      ∃ old, b.snapshots.map scope' = some old ∧ src'.triples = old.triples := by
    intro scope' src' hmap
    rcases SnapshotMemo.put_eq_some hmap with ⟨rfl, rfl⟩ | hmap
    · exact ⟨src, hsrc, VecTripleSource.request_triples src ord⟩
    · exact ⟨src', hmap, rfl⟩
  refine ⟨h.memo_le, fun hkeeps scope' src' hmap => ?_, fun i view hv => ?_, h.answers, ?_⟩
  · obtain ⟨old, hold, heq⟩ := hmem scope' src' hmap
    exact heq.trans (h.kept_up hkeeps scope' old hold)
  · have hview := h.views i view hv
    refine ⟨hview.le, fun hversion scope' src' hmap => ?_, hview.building⟩
    obtain ⟨old, hold, heq⟩ := hmem scope' src' hmap
    exact heq.trans (hview.memo hversion scope' old hold)
  · have hmid := h.midway
    unfold Midway at hmid ⊢
    dsimp only at hmid ⊢
    split at hmid
    · exact hmid
    · refine ⟨hmid.1, hmid.2.1, hmid.2.2.1, fun p hp => ⟨?_, (hmid.2.2.2 p hp).2⟩⟩
      by_cases hscope : p.scope = scope
      · exact ⟨_, by rw [hscope]; exact Function.update_self _ _ _⟩
      · obtain ⟨src', hsrc'⟩ := (hmid.2.2.2 p hp).1
        exact ⟨src', (Function.update_of_ne hscope _ _).trans hsrc'⟩
    · trivial

/-! ## The writer -/

/-- The writer is about to drop the memo, and the commits that were there are as they were. -/
theorem Kept.to_invalidate (h : b.Kept names) (hsnap : b'.snapshots = b.snapshots)
    (hviews : b'.views = b.views) (hanswers : b'.answers = b.answers)
    (hwriter : b'.writer = .Invalidate) (hversion : b.version ≤ b'.version)
    (hcommits : ∀ v ≤ b.version, b'.commits v = b.commits v) : b'.Kept names := by
  have hnewest : b'.newest = b'.version := by simp [newest, hwriter]
  have hle := h.newest_le
  refine ⟨?_, fun hkeeps => absurd hwriter hkeeps.1, fun i view hv => ?_, fun a ha => ?_, ?_⟩
  · rw [hsnap, hnewest]
    exact (h.memo_le.trans hle).trans hversion
  · have hview := h.views i view (hviews ▸ hv)
    have hold := hcommits view.version (hview.le.trans hle)
    refine ⟨hnewest ▸ (hview.le.trans hle).trans hversion, ?_, ?_⟩
    · simpa only [Holds, hold, hsnap] using hview.memo
    · simpa only [Holds, hold] using hview.building
  · have ha' := h.answers a (hanswers ▸ ha)
    have hold := hcommits a.version ha'.1
    refine ⟨ha'.1.trans hversion, ?_⟩
    simpa only [Holds, hold] using ha'.2
  · unfold Midway
    rw [hwriter]
    trivial

theorem commit_version (b : HornBackend) (dels adds : List Quad) :
    b.version ≤ (b.commit dels adds).version := by
  unfold commit
  split
  · exact Nat.le_succ _
  · exact Nat.le_refl _

theorem commit_commits (dels adds : List Quad) {v : Nat} (hv : v ≤ b.version) :
    (b.commit dels adds).commits v = b.commits v := by
  unfold commit
  split
  · exact Function.update_of_ne (by omega) _ _
  · rfl

theorem commit_frame (b : HornBackend) (dels adds : List Quad) :
    (b.commit dels adds).snapshots = b.snapshots ∧ (b.commit dels adds).views = b.views ∧
      (b.commit dels adds).answers = b.answers ∧
      (b.commit dels adds).visible_inferred = b.visible_inferred := by
  unfold commit
  split <;> exact ⟨rfl, rfl, rfl, rfl⟩

theorem commit_same {dels adds : List Quad}
    (hno : ¬(b.commits b.version).changes dels adds = true) : b.commit dels adds = b := by
  unfold commit
  rw [if_neg hno]

theorem Kept.commit_invalidate (h : b.Kept names) (dels adds : List Quad)
    (visible : Finset String) : ({ b.commit dels adds with
      visible_inferred := visible, writer := .Invalidate } : HornBackend).Kept names :=
  have hframe := commit_frame b dels adds
  h.to_invalidate hframe.1 hframe.2.1 hframe.2.2.1 rfl (commit_version b dels adds)
    fun _ hv => commit_commits dels adds hv

/-- A commit whose delta the writer goes on to merge. -/
theorem Kept.commit_plan (h : b.Kept names) (hidle : b.writer = .Idle) {dels adds : List Quad}
    (hchanges : (b.commits b.version).changes dels adds = true) :
    ({ b.commit dels adds with writer := .Plan b.version dels adds } : HornBackend).Kept names := by
  have hnewest := newest_idle hidle
  have hframe := commit_frame b dels adds
  have hold : ∀ v ≤ b.version, (b.commit dels adds).commits v = b.commits v :=
    fun v hv => commit_commits dels adds hv
  have hmemo : b.snapshots.version ≤ b.version := h.memo_le.trans h.newest_le
  refine ⟨?_, fun hkeeps => ?_, fun i view hv => ?_, fun a ha => ?_, ?_⟩
  · rw [hframe.1]
    exact hmemo
  · rw [hframe.1] at hkeeps ⊢
    have hb : b.KeepsUp b.snapshots.version := ⟨by simp [hidle], hnewest.trans hkeeps.2⟩
    simpa only [Holds, hold _ hmemo, hframe.2.2.2] using h.kept_up hb
  · rw [hframe.2.1] at hv
    have hview := h.views i view hv
    have hle : view.version ≤ b.version := hview.le.trans h.newest_le
    refine ⟨hle, ?_, ?_⟩
    · simpa only [Holds, hold _ hle, hframe.1] using hview.memo
    · simpa only [Holds, hold _ hle] using hview.building
  · rw [hframe.2.2.1] at ha
    have ha' := h.answers a ha
    refine ⟨ha'.1.trans (commit_version b dels adds), ?_⟩
    simpa only [Holds, hold _ ha'.1] using ha'.2
  · refine ⟨?_, ?_⟩
    · simp [commit, hchanges]
    · simp [commit, hchanges]

theorem Kept.plan_delta (h : b.Kept names) {base : Nat} {dels adds : List Quad}
    (hw : b.writer = .Plan base dels adds) (interned : Bool) :
    ({ b with writer := b.plan_delta names base dels adds interned } : HornBackend).Kept names := by
  have hmid := h.midway
  simp only [Midway, hw] at hmid
  have hnewest : b.newest = base := by simp [newest, hw]
  have hmemo := h.memo_le
  rw [hnewest] at hmemo
  rcases plan_delta_cases interned hmemo hmid.2 with hplan | ⟨plans, hplan, hbase, hplans⟩
  · rw [hplan]
    exact h.to_invalidate rfl rfl rfl rfl (Nat.le_refl _) fun _ _ => rfl
  · rw [hplan]
    refine ⟨hmemo, fun hkeeps => ?_, fun i view hv => ?_, h.answers, hmid.1, hbase, hplans⟩
    · exact h.kept_up ⟨by simp [hw], hnewest.trans hkeeps.2⟩
    · have hview := h.views i view hv
      exact ⟨hnewest ▸ hview.le, hview.memo, hview.building⟩

/-- The merge leaves the memo right for the version that the write made. -/
theorem Kept.merge (h : b.Kept names) {base : Nat} {plans : List ScopeDelta}
    (hw : b.writer = .Merge base plans) (hallowed : b.Allowed names .merge) :
    ∃ memo, merge_delta b.snapshots base b.version plans = (memo, true) ∧
      ({ b with snapshots := memo, writer := .Idle } : HornBackend).Kept names := by
  have hmid := h.midway
  simp only [Midway, hw] at hmid
  obtain ⟨hpost, hbase, hnodup, hplans⟩ := hmid
  have hnewest : b.newest = base := by simp [newest, hw]
  obtain ⟨memo, hmerge, _, hplanned, hkept⟩ :=
    merge_plans_spec hnodup fun p hp => (hplans p hp).1
  refine ⟨{ memo with version := b.version }, ?_, ?_⟩
  · simp [merge_delta, hbase, hmerge]
  have hbefore : ∀ scope src, b.snapshots.map scope = some src →
      b.Holds names base b.visible_inferred scope src := by
    rw [← hbase]
    exact h.kept_up ⟨by simp [hw], hnewest.trans hbase.symm⟩
  refine ⟨Nat.le_refl _, fun _ scope src hmap => ?_, fun i view hv => ?_, h.answers, trivial⟩
  · show src.triples = content names (b.commits b.version) b.visible_inferred scope
    by_cases hp : ∃ p ∈ plans, p.scope = scope
    · obtain ⟨p, hp, rfl⟩ := hp
      obtain ⟨⟨old, hold⟩, hcontent⟩ := hplans p hp
      rw [hplanned p hp old hold] at hmap
      cases hmap
      rw [VecTripleSource.apply_delta_triples, hcontent]
      rw [show old.triples = _ from hbefore p.scope old hold]
    · have hmap' := hmap
      rw [hkept scope fun p hp' heq => hp ⟨p, hp', heq⟩] at hmap'
      have hsame := (hallowed base plans hw scope src hmap').resolve_left hp
      exact (hbefore scope src hmap').trans hsame
  · have hview := h.views i view hv
    have hle : view.version ≤ base := hnewest ▸ hview.le
    refine ⟨by show view.version ≤ b.version; omega, fun hversion => ?_, hview.building⟩
    have hversion : view.version = b.version := hversion
    omega

/-! ## Runs -/

/-- One step that is allowed keeps the invariant. -/
theorem Kept.step (h : b.Kept names) {s : Step} (hallowed : b.Allowed names s)
    (hs : b.step names limits s = some b') : b'.Kept names := by
  cases s with
  | pin_read i =>
    simp only [HornBackend.step] at hs
    split at hs
    · rename_i hidle _
      cases hs
      have hnewest := newest_idle hidle
      refine h.set_view i ⟨hnewest.ge, fun hversion scope src hsrc => ?_, nofun⟩
      have hversion : b.version = b.snapshots.version := hversion
      have := h.kept_up ⟨by simp [hidle], hnewest.trans hversion⟩ scope src hsrc
      rw [← hversion] at this
      exact this
    · cases hs
  | drop_view i =>
    cases hs
    exact h.drop_view i
  | look_up i scope =>
    simp only [HornBackend.step] at hs
    split at hs
    · rename_i view hv
      split at hs
      · cases hs
        exact h.look_up hv scope
      · cases hs
    · cases hs
  | insert i =>
    simp only [HornBackend.step] at hs
    split at hs
    · rename_i view hv
      obtain ⟨build, hb, rfl⟩ := Option.map_eq_some_iff.mp hs
      exact h.insert hv hb hallowed
    · cases hs
  | request scope ord =>
    obtain ⟨src, hsrc, rfl⟩ := Option.map_eq_some_iff.mp hs
    exact h.request hsrc ord
  | apply_quads dels adds mirror_dels mirror_adds =>
    simp only [HornBackend.step] at hs
    split at hs
    · rename_i hidle
      split at hs
      · cases hs
        have hkept :=
          h.commit_invalidate (dels ++ mirror_dels) (adds ++ mirror_adds) b.visible_inferred
        rw [← (commit_frame b (dels ++ mirror_dels) (adds ++ mirror_adds)).2.2.2] at hkept
        exact hkept
      · rename_i hmirror
        simp only [not_or, not_not] at hmirror
        rw [hmirror.1, hmirror.2, List.append_nil, List.append_nil] at hs
        split at hs
        · rename_i hchanges
          cases hs
          exact h.commit_plan hidle hchanges
        · rename_i hno
          cases hs
          rw [commit_same hno]
          exact h
    · cases hs
  | plan_delta interned =>
    simp only [HornBackend.step] at hs
    split at hs
    · rename_i hw
      cases hs
      exact h.plan_delta hw interned
    · cases hs
  | merge =>
    simp only [HornBackend.step] at hs
    split at hs
    · rename_i hw
      obtain ⟨memo, hmerge, hkept⟩ := h.merge hw hallowed
      rw [hmerge] at hs
      cases hs
      exact hkept
    · cases hs
  | invalidate =>
    simp only [HornBackend.step] at hs
    split at hs
    · rename_i hw
      cases hs
      have hnewest : b.newest = b.version := by simp [newest, hw]
      refine ⟨Nat.le_refl _, fun _ => nofun, fun i view hv => ?_, h.answers, trivial⟩
      have hview := h.views i view hv
      exact ⟨hnewest ▸ hview.le, fun _ => nofun, hview.building⟩
    · cases hs
  | write dels adds =>
    simp only [HornBackend.step] at hs
    split at hs
    · rename_i hidle
      cases hs
      split
      · have hkept := h.commit_invalidate dels adds b.visible_inferred
        rw [← (commit_frame b dels adds).2.2.2] at hkept
        exact hkept
      · rename_i hno
        rw [commit_same hno, ← hidle]
        exact h
    · cases hs
  | set_visible_inferred iris =>
    simp only [HornBackend.step] at hs
    split at hs
    · split at hs
      · cases hs
        exact h.to_invalidate rfl rfl rfl rfl (Nat.le_refl _) fun _ _ => rfl
      · cases hs
        exact h
    · cases hs
  | attach_circuit derived dels adds =>
    simp only [HornBackend.step] at hs
    split at hs
    · cases hs
      exact h.commit_invalidate dels adds _
    · cases hs

variable (names limits) in
/-- Each step of a run is allowed where it is taken. -/
def Allows (b : HornBackend) : List Step → Prop
  | [] => True
  | s :: steps => b.Allowed names s ∧ ∀ b', b.step names limits s = some b' → b'.Allows steps

theorem Kept.run (h : b.Kept names) {steps : List Step} (hallows : b.Allows names limits steps)
    (hrun : b.run names limits steps = some b') : b'.Kept names := by
  induction steps generalizing b with
  | nil =>
    cases hrun
    exact h
  | cons s steps ih =>
    obtain ⟨mid, hs, hrun⟩ := Option.bind_eq_some_iff.mp hrun
    exact ih (h.step hallows.1 hs) (hallows.2 mid hs) hrun

theorem allows_cons {s : Step} {steps : List Step} (hallowed : b.Allowed names s)
    (hs : b.step names limits s = some b') (hallows : b'.Allows names limits steps) :
    b.Allows names limits (s :: steps) := by
  refine ⟨hallowed, fun mid hmid => ?_⟩
  rw [hs] at hmid
  cases hmid
  exact hallows

end HornBackend

/-- In a run of allowed steps, whatever their order, the memo and the answers are exact. -/
theorem memo_exact {steps : List HornBackend.Step}
    (hallows : HornBackend.new.Allows names limits steps)
    (hrun : HornBackend.new.run names limits steps = some b) : b.Exact names :=
  (HornBackend.new_kept.run hallows hrun).exact

def unnamed : GraphNames := ⟨fun _ => none, rfl⟩

def unlimited : Limits := ⟨none, fun _ => 0⟩

/-- Both default scopes are in the memo when a row is merged into them. -/
def merged : List HornBackend.Step :=
  [.write [] [(0, ⟨1, 2, 3⟩), (0, ⟨1, 2, 4⟩)], .invalidate, .pin_read 0,
    .look_up 0 .DefaultStrict, .insert 0, .look_up 0 .DefaultUnion, .insert 0,
    .apply_quads [] [(0, ⟨1, 2, 5⟩)] [] [], .plan_delta true, .merge, .pin_read 1,
    .look_up 1 .DefaultUnion]

theorem memo_exact_merged :
    ∃ b, HornBackend.new.run unnamed unlimited merged = some b ∧ b.Exact unnamed := by
  refine ⟨_, rfl,
    memo_exact ?_ (rfl : HornBackend.new.run unnamed unlimited merged = some _)⟩
  refine HornBackend.allows_cons trivial rfl <| HornBackend.allows_cons trivial rfl <|
    HornBackend.allows_cons trivial rfl <| HornBackend.allows_cons trivial rfl <|
    HornBackend.allows_cons ?_ rfl <| HornBackend.allows_cons trivial rfl <|
    HornBackend.allows_cons ?_ rfl <| HornBackend.allows_cons trivial rfl <|
    HornBackend.allows_cons trivial rfl <| HornBackend.allows_cons ?_ rfl <|
    HornBackend.allows_cons trivial rfl <| HornBackend.allows_cons trivial rfl trivial
  · intro view build hv hb hunion
    cases hv
    cases hb
    cases hunion
  · -- The only view sees the graphs that the backend does.
    intro view build hv hb _ _
    cases hv
    refine ⟨fun k other hk _ => ?_, fun _ => rfl⟩
    cases k with
    | zero =>
      cases hk
      rfl
    | succ k => cases hk
  · intro base plans hw scope src hmap
    cases hw
    cases scope with
    | DefaultUnion => exact Or.inl ⟨_, List.mem_cons_self, rfl⟩
    | DefaultStrict => exact Or.inl ⟨_, List.mem_cons_of_mem _ List.mem_cons_self, rfl⟩
    | FromUnion graphs => cases hmap
    | OneGraph g => cases hmap

/-- A view builds the default union at the version before a write, after the delta was planned. -/
def union_unplanned : List HornBackend.Step :=
  [.write [] [(0, ⟨1, 2, 3⟩), (0, ⟨1, 2, 4⟩)], .invalidate, .pin_read 0,
    .look_up 0 .DefaultStrict, .insert 0, .apply_quads [] [(0, ⟨1, 2, 5⟩)] [] [], .plan_delta true,
    .look_up 0 .DefaultUnion, .insert 0, .merge, .pin_read 1, .look_up 1 .DefaultUnion]

def INFERRED : String := "https://horndb.io/graph/inferred"

def inferred_names : GraphNames := ⟨fun g => if g = 1 then some INFERRED else none, rfl⟩

/-- A view builds the default union as it was before a reserved graph was made visible. -/
def union_toggled : List HornBackend.Step :=
  [.write [] [(1, ⟨1, 2, 3⟩)], .invalidate, .pin_read 0, .set_visible_inferred {INFERRED},
    .invalidate, .look_up 0 .DefaultUnion, .insert 0, .pin_read 1, .look_up 1 .DefaultUnion]

/-- The last answer of each run is short of a triple. -/
theorem stale_union_answered :
    (∃ b, HornBackend.new.run unnamed unlimited union_unplanned = some b ∧ ¬b.Exact unnamed) ∧
      ∃ b, HornBackend.new.run inferred_names unlimited union_toggled = some b ∧
        ¬b.Exact inferred_names := by
  refine ⟨⟨_, rfl, fun h => ?_⟩, _, rfl, fun h => ?_⟩
  · have := h.answers _ List.mem_cons_self
    revert this
    unfold HornBackend.Holds
    decide
  · have := h.answers _ List.mem_cons_self
    revert this
    unfold HornBackend.Holds
    decide

end horndb.sparql.exec.horn
