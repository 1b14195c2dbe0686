-- One load: the rows that reach the tier are the first rows of the document, in order, and
-- their ids name the renamed terms of these rows, also where a parse thread looked them up.
import HornDb.LoaderNames

open HornDb.Lib.Effects

namespace horndb.storage.loader

open Dictionary

/-! ## Rows before the first error -/

section Parsed

variable {α β : Type}

def NoError (items : Items α) : Prop := ∀ e, Except.error e ∉ items

theorem noError_cons {item : α} {items : Items α} (h : NoError items) :
    NoError (.ok item :: items) := by
  intro e he
  rcases List.mem_cons.mp he with he | he
  · cases he
  · exact h e he

theorem NoError.tail {item : Except StorageError α} {items : Items α} (h : NoError (item :: items)) :
    NoError items := fun e he => h e (List.mem_cons_of_mem _ he)

theorem parsed_append {a b : Items α} (h : NoError a) : parsed (a ++ b) = parsed a ++ parsed b := by
  induction a with
  | nil => rfl
  | cons item a ih =>
    cases item with
    | ok item =>
      rw [List.cons_append, parsed, parsed, ih h.tail]
      rfl
    | error e => exact absurd List.mem_cons_self (h e)

theorem parsed_append_of_error {a b : Items α} (h : ¬ NoError a) : parsed (a ++ b) = parsed a := by
  induction a with
  | nil => exact absurd (fun e he => nomatch he) h
  | cons item a ih =>
    cases item with
    | ok item =>
      rw [List.cons_append, parsed, parsed, ih fun ha => h (noError_cons ha)]
    | error e => rfl

theorem parsed_mono {a b : Items α} (h : a <+: b) : parsed a <+: parsed b := by
  obtain ⟨rest, rfl⟩ := h
  by_cases ha : NoError a
  · rw [parsed_append ha]
    exact List.prefix_append _ _
  · rw [parsed_append_of_error ha]

/-- The batches hold the rows before the first error, and all of them when there is none. -/
theorem batches_parsed (items : Items α) (batch : List α) :
    (parsed (batches items batch)).flatten <+: batch ++ parsed items ∧
      (NoError (batches items batch) →
        NoError items ∧ (parsed (batches items batch)).flatten = batch ++ parsed items) := by
  induction items generalizing batch with
  | nil =>
    unfold batches
    have hnone : NoError ([] : Items α) := nofun
    split
    · rename_i hempty
      rw [List.isEmpty_iff.mp hempty]
      exact ⟨List.prefix_refl _, fun _ => ⟨hnone, rfl⟩⟩
    · simp [parsed, hnone]
  | cons item items ih =>
    cases item with
    | error e =>
      refine ⟨List.nil_prefix, ?_⟩
      intro h
      exact absurd List.mem_cons_self (h e)
    | ok item =>
      unfold batches
      have hassoc : batch ++ parsed (.ok item :: items) = (batch ++ [item]) ++ parsed items := by
        simp [parsed]
      rw [hassoc]
      split
      · obtain ⟨hpre, hall⟩ := ih []
        rw [parsed, List.flatten_cons, List.prefix_append_right_inj]
        refine ⟨hpre, ?_⟩
        intro h
        obtain ⟨hnone, heq⟩ := hall h.tail
        exact ⟨noError_cons hnone, by rw [heq]; rfl⟩
      · obtain ⟨hpre, hall⟩ := ih (batch ++ [item])
        refine ⟨hpre, ?_⟩
        intro h
        obtain ⟨hnone, heq⟩ := hall h
        exact ⟨noError_cons hnone, heq⟩

theorem batches_map (f : α → β) (items : Items α) (batch : List α) :
    batches (items.map (·.map f)) (batch.map f) =
      (batches items batch).map (·.map (List.map f)) := by
  induction items generalizing batch with
  | nil =>
    rw [List.map_nil, batches, batches, List.isEmpty_map]
    split <;> rfl
  | cons item items ih =>
    cases item with
    | error e => rfl
    | ok item =>
      have hmap : batch.map f ++ [f item] = (batch ++ [item]).map f := by
        rw [List.map_append]
        rfl
      change batches (.ok (f item) :: items.map (·.map f)) (batch.map f) = _
      rw [batches, batches, hmap, List.length_map]
      split
      · rw [List.map_cons, ← ih []]
        rfl
      · exact ih _

theorem chunks_parsed (chunks : List (Items α)) :
    (parsed (chunks.flatMap fun chunk => batches chunk [])).flatten <+: parsed chunks.flatten ∧
      (NoError (chunks.flatMap fun chunk => batches chunk []) →
        (parsed (chunks.flatMap fun chunk => batches chunk [])).flatten =
          parsed chunks.flatten) := by
  induction chunks with
  | nil => exact ⟨List.prefix_refl _, fun _ => rfl⟩
  | cons chunk chunks ih =>
    rw [List.flatMap_cons, List.flatten_cons]
    obtain ⟨hpre, hall⟩ := batches_parsed chunk []
    rw [List.nil_append] at hpre hall
    by_cases hnone : NoError (batches chunk [])
    · obtain ⟨hchunk, heq⟩ := hall hnone
      rw [parsed_append hnone, List.flatten_append, heq, parsed_append hchunk,
        List.prefix_append_right_inj, List.append_right_inj]
      refine ⟨ih.1, ?_⟩
      intro h
      exact ih.2 fun e he => h e (List.mem_append_right _ he)
    · rw [parsed_append_of_error hnone]
      refine ⟨hpre.trans (parsed_mono (List.prefix_append _ _)), ?_⟩
      intro h
      exact absurd (fun e he => h e (List.mem_append_left _ he)) hnone

end Parsed

/-! ## The load at work -/

variable {ox : Oxrdf} {fst : FstLib}

section Loading

variable (scopes : Scopable ox) (tag : UInt64)

/-- The ids of a row name the renamed terms of a quad. -/
structure RowNames (d : Dictionary ox fst) (row : Quad) (q : oxrdf.Quad ox) : Prop where
  subject : Names d row.subject (scope_term scopes tag (subject_to_term q.subject))
  object : Names d row.object (scope_term scopes tag q.object)
  graph : ∀ b, q.graph_name = .BlankNode b →
    Names d row.graph (.BlankNode (scope_blank_node scopes tag b))

/-- The quads that are done are the rows in the tier since the start and those in the batch. -/
structure Loading (start : Store ox fst) (done : List (oxrdf.Quad ox)) (sink : QuadSink ox fst) :
    Prop where
  named : sink.store.dictionary.Named
  grows : Grows start.dictionary sink.store.dictionary
  past : ∀ d ∈ sink.past, d.Named ∧ Grows d sink.store.dictionary
  rows : ∃ rows, sink.store.quads ++ sink.batch = start.quads ++ rows ∧
    List.Forall₂ (RowNames scopes tag sink.store.dictionary) rows done
  kept : start.quads <+: sink.store.quads
  next : sink.store.bnode_doc_tag = start.bnode_doc_tag

/-- A load that stopped has done some of the quads. -/
def Stopped (start : Store ox fst) (quads : List (oxrdf.Quad ox)) (sink : QuadSink ox fst) : Prop :=
  ∃ done, done <+: quads ∧ Loading scopes tag start done sink

end Loading

variable {scopes : Scopable ox} {tag : UInt64}

theorem RowNames.grows {d d' : Dictionary ox fst} {row : Quad} {q : oxrdf.Quad ox}
    (h : RowNames scopes tag d row q) (hg : Grows d d') : RowNames scopes tag d' row q :=
  ⟨h.subject.grows hg, h.object.grows hg, fun b hb => (h.graph b hb).grows hg⟩

variable {start : Store ox fst} {quads done : List (oxrdf.Quad ox)}

theorem Loading.stopped {sink : QuadSink ox fst} (h : Loading scopes tag start done sink)
    (hpre : done <+: quads) : Stopped scopes tag start quads sink := ⟨done, hpre, h⟩

/-- A fact about the dictionary that its growth keeps. -/
def Stable (F : Dictionary ox fst → Prop) : Prop := ∀ d d', Grows d d' → F d → F d'

theorem stable_true : Stable fun _ : Dictionary ox fst => True := fun _ _ _ _ => trivial

theorem stable_names (id : TermId) (t : Term ox) : Stable fun d : Dictionary ox fst => Names d id t :=
  fun _ _ hg h => h.grows hg

theorem Stable.and {F G : Dictionary ox fst → Prop} (hF : Stable F) (hG : Stable G) :
    Stable fun d => F d ∧ G d := fun d d' hg h => ⟨hF d d' hg h.1, hG d d' hg h.2⟩

variable (hprint : ox.Printable) {F : Dictionary ox fst → Prop}

include hprint

theorem intern_names (hpre : done <+: quads) (hF : Stable F) (t : Term ox) :
    Ensures (fun sink => Loading scopes tag start done sink ∧ F sink.store.dictionary)
      (QuadSink.intern t)
      (fun id sink => Loading scopes tag start done sink ∧
        F sink.store.dictionary ∧ Names sink.store.dictionary id t)
      (Stopped scopes tag start quads) := by
  intro sink h
  obtain ⟨h, hf⟩ := h
  have hrun : (QuadSink.intern t).run.run sink =
      ((sink.store.dictionary.intern t).2, { sink with
        store := { sink.store with dictionary := (sink.store.dictionary.intern t).1 }
        past := (sink.store.dictionary.intern t).1 :: sink.past }) := rfl
  cases hout : sink.store.dictionary.intern t with
  | mk d out =>
    rw [hout] at hrun
    obtain ⟨hnamed, hgrow, hid⟩ := h.named.intern hprint hout
    have hnext : Loading scopes tag start done
        { sink with store := { sink.store with dictionary := d }, past := d :: sink.past } := by
      refine ⟨hnamed, h.grows.trans hgrow, ?_, ?_, h.kept, h.next⟩
      · intro d' hd'
        rcases List.mem_cons.mp hd' with rfl | hd'
        · exact ⟨hnamed, .refl _⟩
        · obtain ⟨hnamed', hgrow'⟩ := h.past d' hd'
          exact ⟨hnamed', hgrow'.trans hgrow⟩
      · obtain ⟨rows, heq, hrows⟩ := h.rows
        exact ⟨rows, heq, hrows.imp fun _ _ hrow => hrow.grows hgrow⟩
    rw [hrun]
    cases out with
    | ok id => exact ⟨hnext, hF _ _ hgrow hf, hid id rfl⟩
    | error e => exact hnext.stopped hpre

theorem intern_triple_names (hpre : done <+: quads) (hF : Stable F) (s p o : Term ox) :
    Ensures (fun sink => Loading scopes tag start done sink ∧ F sink.store.dictionary)
      (QuadSink.intern_triple s p o)
      (fun ids sink => Loading scopes tag start done sink ∧ F sink.store.dictionary ∧
        Names sink.store.dictionary ids.1 s ∧ Names sink.store.dictionary ids.2.2 o)
      (Stopped scopes tag start quads) := by
  unfold QuadSink.intern_triple
  refine .bind (intern_names hprint hpre hF s) fun s_id => ?_
  refine .bind (intern_names hprint hpre (hF.and (stable_names s_id s)) p) fun p_id => ?_
  refine .bind (intern_names hprint hpre ((hF.and (stable_names s_id s)).and
    (stable_names p_id p)) o) fun o_id => ?_
  apply Ensures.pure
  intro sink h
  exact ⟨h.1, h.2.1.1.1, h.2.1.1.2, h.2.2⟩

/-! ## Probed rows -/

omit hprint in
/-- A slot holds the term, or an id that names it. -/
def Slot.Holds (slot : Slot ox) (t : Term ox) (d : Dictionary ox fst) : Prop :=
  (slot.id = UNRESOLVED ∧ slot.term = some t) ∨ (slot.term = none ∧ Names d slot.id t)

omit hprint in
theorem Slot.stable_holds (slot : Slot ox) (t : Term ox) :
    Stable fun d : Dictionary ox fst => slot.Holds t d := by
  intro d d' hg h
  rcases h with h | h
  · exact Or.inl h
  · exact Or.inr ⟨h.1, h.2.grows hg⟩

theorem Slot.probe_holds {d : Dictionary ox fst} (h : d.Named) (t : Term ox) :
    (Slot.probe d t).Holds t d := by
  unfold Slot.probe
  split
  · rename_i hit hget
    exact Or.inr ⟨rfl, h.get hprint hget⟩
  · exact Or.inl ⟨rfl, rfl⟩

theorem look_up_holds (F : Dictionary ox fst → Prop) (lag : Nat → Nat) (t : Term ox) :
    Ensures (fun sink => Loading scopes tag start done sink ∧ F sink.store.dictionary)
      (look_up lag t)
      (fun slot sink => Loading scopes tag start done sink ∧
        F sink.store.dictionary ∧ slot.Holds t sink.store.dictionary)
      (Stopped scopes tag start quads) := by
  unfold look_up
  refine .bind (Q := fun now sink => now = sink ∧ Loading scopes tag start done sink ∧
    F sink.store.dictionary) (.get fun sink h => ⟨rfl, h⟩) fun now => ?_
  refine .bind (Q := fun _ sink => sink = { now with probes := now.probes + 1 } ∧
    Loading scopes tag start done now ∧ F now.store.dictionary) (.set fun sink h => ?_) fun _ => ?_
  · obtain ⟨rfl, h⟩ := h
    exact ⟨rfl, h⟩
  · have hsame : Loading scopes tag start done now →
        Loading scopes tag start done { now with probes := now.probes + 1 } :=
      fun h => ⟨h.named, h.grows, h.past, h.rows, h.kept, h.next⟩
    split
    · rename_i d hd
      apply Ensures.pure
      intro sink h
      obtain ⟨rfl, h, hf⟩ := h
      obtain ⟨hnamed, hgrow⟩ := h.past d (List.mem_of_getElem? hd)
      exact ⟨hsame h, hf, Slot.stable_holds _ t d _ hgrow (Slot.probe_holds hprint hnamed t)⟩
    · apply Ensures.pure
      intro sink h
      obtain ⟨rfl, h, hf⟩ := h
      exact ⟨hsame h, hf, Slot.probe_holds hprint h.named t⟩

theorem probe_holds (lag : Nat → Nat) (s p o : Term ox) :
    Ensures (Loading scopes tag start done) (Probed.probe lag s p o)
      (fun row sink => Loading scopes tag start done sink ∧ row.s.Holds s sink.store.dictionary ∧
        row.p.Holds p sink.store.dictionary ∧ row.o.Holds o sink.store.dictionary)
      (Stopped scopes tag start quads) := by
  unfold Probed.probe
  refine .bind ((look_up_holds hprint (fun _ => True) lag s).imp (fun _ h => ⟨h, trivial⟩)
    fun _ _ h => h) fun s' => ?_
  refine .bind (look_up_holds hprint (fun d => True ∧ s'.Holds s d) lag p) fun p' => ?_
  refine .bind (look_up_holds hprint (fun d => (True ∧ s'.Holds s d) ∧ p'.Holds p d)
    lag o) fun o' => ?_
  apply Ensures.pure
  intro sink h
  exact ⟨h.1, h.2.1.1.2, h.2.1.2, h.2.2⟩

theorem resolve_names (hpre : done <+: quads) (hF : Stable F) (slot : Slot ox) (t : Term ox) :
    Ensures (fun sink => Loading scopes tag start done sink ∧
        F sink.store.dictionary ∧ slot.Holds t sink.store.dictionary)
      slot.resolve
      (fun id sink => Loading scopes tag start done sink ∧
        F sink.store.dictionary ∧ Names sink.store.dictionary id t)
      (Stopped scopes tag start quads) := by
  unfold Slot.resolve
  split
  · split
    · rename_i t' ht
      refine (Ensures.imp (intern_names hprint hpre (hF.and (slot.stable_holds t)) t')
        (fun _ h => h) ?_)
      intro id sink h
      obtain ⟨h, ⟨hf, hslot⟩, hid⟩ := h
      rcases hslot with ⟨_, hterm⟩ | ⟨hterm, _⟩
      · rw [ht] at hterm
        cases hterm
        exact ⟨h, hf, hid⟩
      · rw [ht] at hterm
        cases hterm
    · apply Ensures.throw
      intro sink h
      exact h.1.stopped hpre
  · rename_i hid
    apply Ensures.pure
    intro sink h
    obtain ⟨h, hf, hslot⟩ := h
    rcases hslot with ⟨hzero, _⟩ | ⟨_, hnames⟩
    · exact absurd hzero hid
    · exact ⟨h, hf, hnames⟩

/-! ## Rows -/

omit hprint in
theorem flush_loading (hpre : done <+: quads) (env : Env) :
    Ensures (Loading scopes tag start done) (QuadSink.flush env)
      (fun _ sink => Loading scopes tag start done sink ∧ sink.batch = [])
      (Stopped scopes tag start quads) := by
  unfold QuadSink.flush
  refine .bind (Q := fun now sink => now = sink ∧ Loading scopes tag start done sink)
    (.get fun sink h => ⟨rfl, h⟩) fun now => ?_
  split
  · apply Ensures.throw
    intro sink h
    exact h.2.stopped hpre
  · apply Ensures.set
    intro sink h
    obtain ⟨rfl, h⟩ := h
    refine ⟨⟨h.named, h.grows, h.past, ?_, h.kept.trans (List.prefix_append _ _), h.next⟩, rfl⟩
    obtain ⟨rows, heq, hrows⟩ := h.rows
    exact ⟨rows, by rw [List.append_nil, heq], hrows⟩

omit hprint in
/-- The row of a quad whose terms have their ids. -/
theorem record_loading {q : oxrdf.Quad ox} (hpre : done ++ [q] <+: quads) (env : Env)
    (g s p o : Nat) :
    Ensures (fun sink => Loading scopes tag start done sink ∧
        RowNames scopes tag sink.store.dictionary ⟨g, s, p, o⟩ q)
      (QuadSink.record env g s p o) (fun _ => Loading scopes tag start (done ++ [q]))
      (Stopped scopes tag start quads) := by
  unfold QuadSink.record
  refine .bind (Q := fun _ => Loading scopes tag start (done ++ [q])) (.modify ?_) fun _ => ?_
  · intro sink h
    obtain ⟨h, hrow⟩ := h
    refine ⟨h.named, h.grows, h.past, ?_, h.kept, h.next⟩
    obtain ⟨rows, heq, hrows⟩ := h.rows
    refine ⟨rows ++ [⟨g, s, p, o⟩], ?_, List.rel_append hrows (.cons hrow .nil)⟩
    rw [← List.append_assoc, heq, List.append_assoc]
  · refine .bind (Q := fun _ => Loading scopes tag start (done ++ [q])) (.get fun _ h => h)
      fun now => ?_
    split
    · exact (flush_loading hpre env).imp (fun _ h => h) fun _ _ h => h.1
    · exact .pure fun _ h => h

/-- The graph of a quad is named when it is a blank node. -/
def GraphNames (scopes : Scopable ox) (tag : UInt64) (g : GraphId) (q : oxrdf.Quad ox)
    (d : Dictionary ox fst) : Prop :=
  ∀ b, q.graph_name = .BlankNode b → Names d g (.BlankNode (scope_blank_node scopes tag b))

omit hprint in
theorem stable_graph (g : GraphId) (q : oxrdf.Quad ox) :
    Stable fun d : Dictionary ox fst => GraphNames scopes tag g q d :=
  fun _ _ hg h b hb => (h b hb).grows hg

theorem graph_id_names {q : oxrdf.Quad ox} (hpre : done <+: quads) (hF : Stable F) :
    Ensures (fun sink => Loading scopes tag start done sink ∧ F sink.store.dictionary)
      (graph_id scopes tag q.graph_name)
      (fun g sink => Loading scopes tag start done sink ∧
        F sink.store.dictionary ∧ GraphNames scopes tag g q sink.store.dictionary)
      (Stopped scopes tag start quads) := by
  cases hg : q.graph_name with
  | DefaultGraph =>
    apply Ensures.pure
    intro sink h
    refine ⟨h.1, h.2, ?_⟩
    intro b hb
    rw [hg] at hb
    cases hb
  | NamedNode n =>
    refine (intern_names hprint hpre hF (.NamedNode n)).imp (fun _ h => h) ?_
    intro g sink h
    refine ⟨h.1, h.2.1, ?_⟩
    intro b hb
    rw [hg] at hb
    cases hb
  | BlankNode b =>
    refine (intern_names hprint hpre hF (.BlankNode (scope_blank_node scopes tag b))).imp
      (fun _ h => h) ?_
    intro g sink h
    refine ⟨h.1, h.2.1, ?_⟩
    intro b' hb
    rw [hg] at hb
    cases hb
    exact h.2.2

theorem push_loading {q : oxrdf.Quad ox} (hpre : done ++ [q] <+: quads) (env : Env) (g : GraphId)
    (p : Term ox) :
    Ensures (fun sink => Loading scopes tag start done sink ∧
        GraphNames scopes tag g q sink.store.dictionary)
      (QuadSink.push env g (scope_term scopes tag (subject_to_term q.subject)) p
        (scope_term scopes tag q.object))
      (fun _ => Loading scopes tag start (done ++ [q])) (Stopped scopes tag start quads) := by
  unfold QuadSink.push
  refine .bind (intern_triple_names hprint ((List.prefix_append _ _).trans hpre)
    (stable_graph g q) _ p _) fun ids => ?_
  refine (record_loading hpre env g ids.1 ids.2.1 ids.2.2).imp ?_ fun _ _ h => h
  intro sink h
  exact ⟨h.1, h.2.2.1, h.2.2.2, h.2.1⟩

theorem push_probed_loading {q : oxrdf.Quad ox} (hpre : done ++ [q] <+: quads) (env : Env)
    (g : GraphId) (p : Term ox) (row : Probed ox) :
    Ensures (fun sink => Loading scopes tag start done sink ∧
        ((row.s.Holds (scope_term scopes tag (subject_to_term q.subject)) sink.store.dictionary ∧
          row.p.Holds p sink.store.dictionary ∧
          row.o.Holds (scope_term scopes tag q.object) sink.store.dictionary) ∧
        GraphNames scopes tag g q sink.store.dictionary))
      (QuadSink.push_probed env g row)
      (fun _ => Loading scopes tag start (done ++ [q])) (Stopped scopes tag start quads) := by
  have hdone : done <+: quads := (List.prefix_append _ _).trans hpre
  have hG : Stable fun d : Dictionary ox fst => GraphNames scopes tag g q d := stable_graph g q
  have hP : Stable fun d : Dictionary ox fst => row.p.Holds p d := row.p.stable_holds p
  have hO : Stable fun d : Dictionary ox fst => row.o.Holds (scope_term scopes tag q.object) d :=
    row.o.stable_holds _
  unfold QuadSink.push_probed
  refine .bind ((resolve_names hprint hdone (hG.and (hP.and hO)) row.s
    (scope_term scopes tag (subject_to_term q.subject))).imp
      (fun _ h => ⟨h.1, ⟨h.2.2, h.2.1.2⟩, h.2.1.1⟩) fun _ _ h => h) fun s_id => ?_
  have hS : Stable fun d : Dictionary ox fst =>
      Names d s_id (scope_term scopes tag (subject_to_term q.subject)) := stable_names s_id _
  refine .bind ((resolve_names hprint hdone (hG.and (hS.and hO)) row.p p).imp
      (fun _ h => ⟨h.1, ⟨h.2.1.1, h.2.2, h.2.1.2.2⟩, h.2.1.2.1⟩) fun _ _ h => h) fun p_id => ?_
  refine .bind ((resolve_names hprint hdone (hG.and hS) row.o
    (scope_term scopes tag q.object)).imp
      (fun _ h => ⟨h.1, ⟨h.2.1.1, h.2.1.2.1⟩, h.2.1.2.2⟩) fun _ _ h => h) fun o_id => ?_
  refine (record_loading hpre env g s_id p_id o_id).imp ?_ fun _ _ h => h
  intro sink h
  exact ⟨h.1, h.2.1.2, h.2.2, h.2.1.1⟩

theorem quad_loading {q : oxrdf.Quad ox} (hpre : done ++ [q] <+: quads) (env : Env)
    (p : Term ox) :
    Ensures (Loading scopes tag start done)
      (do
        let g ← graph_id scopes tag q.graph_name
        QuadSink.push env g (scope_term scopes tag (subject_to_term q.subject)) p
          (scope_term scopes tag q.object))
      (fun _ => Loading scopes tag start (done ++ [q])) (Stopped scopes tag start quads) := by
  refine .bind ((graph_id_names hprint ((List.prefix_append _ _).trans hpre) stable_true).imp
    (fun _ h => ⟨h, trivial⟩) fun _ _ h => h) fun g => ?_
  exact (push_loading hprint hpre env g p).imp (fun _ h => ⟨h.1, h.2.2⟩) fun _ _ h => h

/-! ## Batches -/

section Batches

variable {τ : Type} {quad : τ → oxrdf.Quad ox}

omit hprint in
/-- What a sink does with the rows of a batch, it does with all batches. -/
theorem drain_loading {sink : List τ → Load ox fst Unit}
    (hsink : ∀ (done : List (oxrdf.Quad ox)) (rows : List τ), done ++ rows.map quad <+: quads →
      Ensures (Loading scopes tag start done) (sink rows)
        (fun _ => Loading scopes tag start (done ++ rows.map quad))
        (Stopped scopes tag start quads))
    (messages : Items (List τ)) (hpre : (parsed messages).flatten.map quad <+: quads) :
    Ensures (Loading scopes tag start []) (drain messages sink)
      (fun _ s => NoError messages ∧
        Loading scopes tag start ((parsed messages).flatten.map quad) s)
      (Stopped scopes tag start quads) := by
  unfold drain
  have hrun := Ensures.forM (I := fun (done : Items (List τ)) s => NoError done ∧
    Loading scopes tag start ((parsed done).flatten.map quad) s)
    (E := Stopped scopes tag start quads) (f := receive sink) messages ?_
  · exact hrun.imp (fun _ h => ⟨nofun, h⟩) fun _ _ h => h
  · intro done message hmessage
    refine .given fun hnone => ?_
    have hdone := parsed_mono hmessage
    rw [parsed_append hnone] at hdone
    have hparsed : ∀ {rows : List (List τ)}, rows <+: parsed messages →
        rows.flatten.map quad <+: quads := by
      intro rows hrows
      obtain ⟨rest, hrest⟩ := hrows
      refine List.IsPrefix.trans ?_ hpre
      rw [← hrest, List.flatten_append, List.map_append]
      exact List.prefix_append _ _
    cases message with
    | error e =>
      apply Ensures.throw
      intro s h
      exact h.stopped (hparsed ((List.prefix_append _ _).trans hdone))
    | ok batch =>
      have heq : (parsed (done ++ [.ok batch])).flatten.map quad =
          (parsed done).flatten.map quad ++ batch.map quad := by
        rw [parsed_append hnone]
        simp [parsed]
      have hlong := hparsed hdone
      rw [← parsed_append hnone, heq] at hlong
      refine (hsink _ batch hlong).imp (fun _ h => h) ?_
      intro _ s h
      refine ⟨?_, ?_⟩
      · intro e he
        rcases List.mem_append.mp he with he | he
        · exact hnone e he
        · cases List.mem_singleton.mp he
      · rw [heq]
        exact h

omit hprint in
theorem rows_loading {f : τ → Load ox fst Unit}
    (hf : ∀ (done : List (oxrdf.Quad ox)) (x : τ), done ++ [quad x] <+: quads →
      Ensures (Loading scopes tag start done) (f x)
        (fun _ => Loading scopes tag start (done ++ [quad x])) (Stopped scopes tag start quads))
    (done : List (oxrdf.Quad ox)) (rows : List τ) (hpre : done ++ rows.map quad <+: quads) :
    Ensures (Loading scopes tag start done) (rows.forM f)
      (fun _ => Loading scopes tag start (done ++ rows.map quad))
      (Stopped scopes tag start quads) := by
  have hrun := Ensures.forM (I := fun l => Loading scopes tag start (done ++ l.map quad))
    (E := Stopped scopes tag start quads) (f := f) rows ?_
  · refine hrun.imp ?_ fun _ _ h => h
    intro s h
    rwa [List.map_nil, List.append_nil]
  · intro l x hx
    have heq : done ++ (l ++ [x]).map quad = done ++ l.map quad ++ [quad x] := by
      simp
    rw [heq]
    apply hf
    rw [← heq]
    refine List.IsPrefix.trans ?_ hpre
    rw [List.prefix_append_right_inj]
    exact hx.map quad

omit hprint in
theorem finish_loading (env : Env) (hpre : done <+: quads) :
    Ensures (Loading scopes tag start done) (QuadSink.finish env)
      (fun _ s => Loading scopes tag start done s ∧ s.batch = [])
      (Stopped scopes tag start quads) := by
  unfold QuadSink.finish
  refine .bind (Q := fun now s => now = s ∧ Loading scopes tag start done s)
    (.get fun s h => ⟨rfl, h⟩) fun now => ?_
  have hstats : Ensures (fun s => Loading scopes tag start done s ∧ s.batch = [])
      ((do
        let sink ← get
        pure { triples := sink.total, dictionary_size := sink.store.dictionary.len }) :
          Load ox fst LoadStats)
      (fun _ s => Loading scopes tag start done s ∧ s.batch = [])
      (Stopped scopes tag start quads) :=
    .bind (Q := fun _ s => Loading scopes tag start done s ∧ s.batch = []) (.get fun _ h => h)
      fun _ => .pure fun _ h => h
  dsimp only
  split
  · rename_i hempty
    refine hstats.imp ?_ fun _ _ h => h
    intro s h
    obtain ⟨rfl, h⟩ := h
    exact ⟨h, List.isEmpty_iff.mp hempty⟩
  · exact .bind ((flush_loading hpre env).imp (fun _ h => h.2) fun _ _ h => h) fun _ => hstats

end Batches

/-! ## Streams and slices -/

section Documents

variable {τ : Type} {quad : τ → oxrdf.Quad ox}

omit hprint in
theorem drain_finish_loading (env : Env) {sink : List τ → Load ox fst Unit}
    (hsink : ∀ (done : List (oxrdf.Quad ox)) (rows : List τ), done ++ rows.map quad <+: quads →
      Ensures (Loading scopes tag start done) (sink rows)
        (fun _ => Loading scopes tag start (done ++ rows.map quad))
        (Stopped scopes tag start quads))
    (messages : Items (List τ)) (hpre : (parsed messages).flatten.map quad <+: quads)
    (hall : NoError messages → (parsed messages).flatten.map quad = quads) :
    Ensures (Loading scopes tag start [])
      (do
        drain messages sink
        QuadSink.finish env)
      (fun _ s => Loading scopes tag start quads s ∧ s.batch = [])
      (Stopped scopes tag start quads) := by
  refine .bind (drain_loading hsink messages hpre) fun _ => .given fun hnone => ?_
  rw [hall hnone]
  exact finish_loading env (List.prefix_refl _)

variable (scopes tag quad) in
omit hprint in
theorem stream_loading {γ : Type} (env : Env) (items : Items τ)
    (row : τ → γ × Term ox × Term ox × Term ox) (to_graph : γ → Load ox fst GraphId)
    (hquads : (parsed items).map quad = quads)
    (hrow : ∀ (done : List (oxrdf.Quad ox)) (x : τ), done ++ [quad x] <+: quads →
      Ensures (Loading scopes tag start done)
        (do
          let g ← to_graph (row x).1
          QuadSink.push env g (row x).2.1 (row x).2.2.1 (row x).2.2.2)
        (fun _ => Loading scopes tag start (done ++ [quad x])) (Stopped scopes tag start quads)) :
    Ensures (Loading scopes tag start [])
      (load_quads_in_graphs env (items.map (·.map row)) to_graph)
      (fun _ s => Loading scopes tag start quads s ∧ s.batch = [])
      (Stopped scopes tag start quads) := by
  have hmap : load_quads_in_graphs env (items.map (·.map row)) to_graph = (do
      drain (batches items []) fun pending => pending.forM fun x => do
        let g ← to_graph (row x).1
        QuadSink.push env g (row x).2.1 (row x).2.2.1 (row x).2.2.2
      QuadSink.finish env) := by
    unfold load_quads_in_graphs
    rw [← List.map_nil (f := row), batches_map]
    congr 1
    unfold drain
    rw [List.forM_eq_forM, List.forM_eq_forM, List.forM_map]
    congr 1
    funext message
    cases message with
    | error e => rfl
    | ok batch =>
      change (batch.map row).forM _ = _
      rw [List.forM_eq_forM, List.forM_map]
      rfl
  rw [hmap]
  obtain ⟨hpre, hall⟩ := batches_parsed items []
  refine drain_finish_loading env (rows_loading hrow) _ ?_ ?_
  · rw [← hquads]
    exact hpre.map quad
  · intro hnone
    rw [← hquads, (hall hnone).2]
    rfl

variable (scopes tag quad) in
omit hprint in
theorem slice_loading (env : Env) (chunks : List (Items τ)) {f : τ → Load ox fst Unit}
    (hquads : (parsed chunks.flatten).map quad = quads)
    (hrow : ∀ (done : List (oxrdf.Quad ox)) (x : τ), done ++ [quad x] <+: quads →
      Ensures (Loading scopes tag start done) (f x)
        (fun _ => Loading scopes tag start (done ++ [quad x])) (Stopped scopes tag start quads)) :
    Ensures (Loading scopes tag start [])
      (do
        parse_chunks_mapped chunks fun rows => rows.forM f
        QuadSink.finish env)
      (fun _ s => Loading scopes tag start quads s ∧ s.batch = [])
      (Stopped scopes tag start quads) := by
  obtain ⟨hpre, hall⟩ := chunks_parsed chunks
  refine drain_finish_loading env (rows_loading hrow) _ ?_ ?_
  · rw [← hquads]
    exact hpre.map quad
  · intro hnone
    rw [← hquads, hall hnone]

end Documents

/-! ## A whole load -/

/-- What a load leaves: the rows of the first quads of its document, or of all of them when it
succeeds. -/
structure Loaded (scopes : Scopable ox) (tag : UInt64) (before after : Store ox fst)
    (quads : List (oxrdf.Quad ox)) (success : Bool) : Prop where
  named : after.dictionary.Named
  grows : Grows before.dictionary after.dictionary
  rows : ∃ rows done, after.quads = before.quads ++ rows ∧ done <+: quads ∧
    List.Forall₂ (RowNames scopes tag after.dictionary) rows done ∧ (success → done = quads)

omit hprint in
theorem Stopped.loaded {sink : QuadSink ox fst} (h : Stopped scopes tag start quads sink) :
    Loaded scopes tag start sink.store quads false := by
  obtain ⟨done, hpre, h⟩ := h
  obtain ⟨rows, heq, hrows⟩ := h.rows
  obtain ⟨kept, hkept⟩ := h.kept
  refine ⟨h.named, h.grows, kept, done.take kept.length, hkept.symm,
    (List.take_prefix _ _).trans hpre, ?_, nofun⟩
  rw [← hkept, List.append_assoc, List.append_right_inj] at heq
  have htake := List.forall₂_take kept.length hrows
  rwa [← heq, List.take_left] at htake

variable (start) in
omit hprint in
/-- A load that does the quads leaves their rows. -/
theorem on_loaded {load : Load ox fst LoadStats} (hnamed : start.dictionary.Named)
    (h : Ensures (Loading scopes tag start []) load
      (fun _ s => Loading scopes tag start quads s ∧ s.batch = [])
      (Stopped scopes tag start quads)) :
    Loaded scopes tag start (load.on start).1 quads (load.on start).2.isOk := by
  have hstart : Loading scopes tag start [] (QuadSink.new start) :=
    ⟨hnamed, .refl _, nofun, ⟨[], rfl, .nil⟩, List.prefix_refl _, rfl⟩
  have hend := h _ hstart
  unfold Load.on
  cases hrun : load.run.run (QuadSink.new start) with
  | mk out s =>
    rw [hrun] at hend
    cases out with
    | error e => exact Stopped.loaded hend
    | ok stats =>
      obtain ⟨hend, hbatch⟩ := hend
      obtain ⟨rows, heq, hrows⟩ := hend.rows
      rw [hbatch, List.append_nil] at heq
      exact ⟨hend.named, hend.grows, rows, quads, heq, List.prefix_refl _, hrows, fun _ => rfl⟩

/-! ## The loaders -/

theorem triple_loading {t : oxrdf.Triple ox} (env : Env)
    (hpre : done ++ [t.in_graph .DefaultGraph] <+: quads) :
    Ensures (Loading scopes tag start done)
      (QuadSink.push env DEFAULT_GRAPH (scope_term scopes tag (subject_to_term t.subject))
        (.NamedNode t.predicate) (scope_term scopes tag t.object))
      (fun _ => Loading scopes tag start (done ++ [t.in_graph .DefaultGraph]))
      (Stopped scopes tag start quads) :=
  (push_loading hprint hpre env DEFAULT_GRAPH _).imp (fun _ h => ⟨h, nofun⟩) fun _ _ h => h

theorem load_triples_reader_loaded (env : Env) (items : Items (oxrdf.Triple ox))
    {store : Store ox fst} (hnamed : store.dictionary.Named) :
    Loaded scopes store.bnode_doc_tag store (load_triples_reader scopes env items store).1
      ((parsed items).map (·.in_graph .DefaultGraph))
      (load_triples_reader scopes env items store).2.isOk := by
  have h := on_loaded store.next_bnode_doc_tag.2 hnamed
    (stream_loading scopes store.bnode_doc_tag (·.in_graph .DefaultGraph) env items
      (triple_row scopes store.bnode_doc_tag) pure rfl
      fun done t hpre => triple_loading hprint env hpre)
  exact ⟨h.named, h.grows, h.rows⟩

theorem load_triples_slice_loaded (env : Env) (lag : Nat → Nat)
    (chunks : List (Items (oxrdf.Triple ox))) {store : Store ox fst}
    (hnamed : store.dictionary.Named) :
    Loaded scopes store.bnode_doc_tag store
      (load_triples_slice scopes env lag (.ok chunks) store).1
      ((parsed chunks.flatten).map (·.in_graph .DefaultGraph))
      (load_triples_slice scopes env lag (.ok chunks) store).2.isOk := by
  have h := on_loaded store.next_bnode_doc_tag.2 hnamed
    (slice_loading scopes store.bnode_doc_tag (·.in_graph .DefaultGraph) env chunks rfl
      (f := fun t => do
        if should_probe chunks.length then
          let row ← Probed.probe lag
            (scope_term scopes store.bnode_doc_tag (subject_to_term t.subject))
            (.NamedNode t.predicate) (scope_term scopes store.bnode_doc_tag t.object)
          QuadSink.push_probed env DEFAULT_GRAPH row
        else
          QuadSink.push env DEFAULT_GRAPH
            (scope_term scopes store.bnode_doc_tag (subject_to_term t.subject))
            (.NamedNode t.predicate) (scope_term scopes store.bnode_doc_tag t.object))
      fun done t hpre => ?_)
  · exact ⟨h.named, h.grows, h.rows⟩
  · split
    · refine .bind (probe_holds hprint lag _ _ _) fun row => ?_
      exact (push_probed_loading hprint hpre env DEFAULT_GRAPH _ row).imp
        (fun _ h => ⟨h.1, h.2, nofun⟩) fun _ _ h => h
    · exact triple_loading hprint env hpre

theorem load_nquads_reader_loaded (env : Env) (items : Items (oxrdf.Quad ox))
    {store : Store ox fst} (hnamed : store.dictionary.Named) :
    Loaded scopes store.bnode_doc_tag store (load_nquads_reader scopes env items store).1
      (parsed items) (load_nquads_reader scopes env items store).2.isOk := by
  have h := on_loaded store.next_bnode_doc_tag.2 hnamed
    (stream_loading scopes store.bnode_doc_tag id env items
      (quad_row scopes store.bnode_doc_tag) (graph_id scopes store.bnode_doc_tag)
      (List.map_id _) fun done q hpre => quad_loading hprint hpre env _)
  exact ⟨h.named, h.grows, h.rows⟩

theorem load_nquads_slice_loaded (env : Env) (lag : Nat → Nat)
    (chunks : List (Items (oxrdf.Quad ox))) {store : Store ox fst}
    (hnamed : store.dictionary.Named) :
    Loaded scopes store.bnode_doc_tag store
      (load_nquads_slice_with_threads scopes env lag chunks store).1 (parsed chunks.flatten)
      (load_nquads_slice_with_threads scopes env lag chunks store).2.isOk := by
  have h := on_loaded store.next_bnode_doc_tag.2 hnamed
    (slice_loading scopes store.bnode_doc_tag id env chunks
      (List.map_id _)
      (f := fun q => do
        if should_probe chunks.length then
          let row ← Probed.probe lag
            (scope_term scopes store.bnode_doc_tag (subject_to_term q.subject))
            (.NamedNode q.predicate) (scope_term scopes store.bnode_doc_tag q.object)
          let g ← graph_id scopes store.bnode_doc_tag q.graph_name
          QuadSink.push_probed env g row
        else
          let g ← graph_id scopes store.bnode_doc_tag q.graph_name
          QuadSink.push env g
            (scope_term scopes store.bnode_doc_tag (subject_to_term q.subject))
            (.NamedNode q.predicate) (scope_term scopes store.bnode_doc_tag q.object))
      fun done q hpre => ?_)
  · exact ⟨h.named, h.grows, h.rows⟩
  · split
    · have hdone : done <+: parsed chunks.flatten := (List.prefix_append _ _).trans hpre
      refine .bind (probe_holds hprint lag _ _ _) fun row => ?_
      refine .bind (graph_id_names hprint hdone
        ((row.s.stable_holds _).and ((row.p.stable_holds _).and (row.o.stable_holds _))))
        fun g => ?_
      exact push_probed_loading hprint hpre env g _ row
    · exact quad_loading hprint hpre env _

variable (scopes) in
/-- Each loader takes the tag of the store for its document, unless it stops before. -/
theorem Document.loaded (env : Env) (doc : Document ox) {store : Store ox fst}
    (hnamed : store.dictionary.Named) :
    Loaded scopes store.bnode_doc_tag store (doc.load scopes env store).1 doc.quads
      (doc.load scopes env store).2.isOk := by
  cases doc with
  | ntriples_reader items => exact load_triples_reader_loaded hprint env items hnamed
  | ntriples_slice chunks lag => exact load_triples_slice_loaded hprint env lag chunks hnamed
  | turtle_reader parser =>
    cases parser with
    | error e =>
      exact ⟨hnamed, .refl _, [], [], (List.append_nil _).symm, List.prefix_refl _, .nil, nofun⟩
    | ok items => exact load_triples_reader_loaded hprint env items hnamed
  | turtle_slice chunks lag =>
    cases chunks with
    | error e =>
      exact ⟨hnamed, .refl _, [], [], (List.append_nil _).symm, List.prefix_refl _, .nil, nofun⟩
    | ok chunks => exact load_triples_slice_loaded hprint env lag chunks hnamed
  | nquads_reader items => exact load_nquads_reader_loaded hprint env items hnamed
  | nquads_slice chunks lag => exact load_nquads_slice_loaded hprint env lag chunks hnamed

end horndb.storage.loader
