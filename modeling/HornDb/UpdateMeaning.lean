-- The operations against the reference semantics: an operation that succeeds leaves what the
-- reference says, but for graphs that a blank node names and for blank nodes that are not new.
import HornDb.UpdateReference
import HornDb.UpdateJournal

open horndb.storage.loader (scope_blank_node_label scoped_inj)

namespace horndb.sparql

variable {ox : text.Library} {ω : Type}

/-! ## Templates -/

/-- The names of template blank nodes under a tag. -/
def template_name (scope : UInt64) : Naming :=
  fun ix b => scope_blank_node_label scope (b ++ "_r" ++ toString ix)

/-- The labels of a request as they are. -/
def own_name : Naming := fun _ b => b

variable {k : StoredQuad ox} {q : AlgebraQuad}

theorem key_eq_some : q.key = some k ↔ resolve_graph q.g = k.g ∧ algebra_to_oxrdf q.s = some k.s ∧
      algebra_to_oxrdf q.p = some k.p ∧ algebra_to_oxrdf q.o = some k.o := by
  unfold AlgebraQuad.key
  split
  · rename_i s p o hs hp ho
    rw [hs, hp, ho]
    constructor
    · rintro h
      cases h
      exact ⟨rfl, rfl, rfl, rfl⟩
    · rintro ⟨hg, hs, hp, ho⟩
      cases hs
      cases hp
      cases ho
      rw [hg]
  · rename_i hnone
    constructor
    · intro h
      cases h
    · rintro ⟨-, hs, hp, ho⟩
      exact absurd ho (hnone _ _ _ hs hp)

theorem quad_of_key {g : Option GraphName} {s p o : Option Term} :
    (quad_of g s p o).bind AlgebraQuad.key = some k ↔
      g.map resolve_graph = some k.g ∧ s.bind algebra_to_oxrdf = some k.s ∧
      p.bind algebra_to_oxrdf = some k.p ∧ o.bind algebra_to_oxrdf = some k.o := by
  unfold quad_of
  split
  · simp [key_eq_some]
  · rename_i hnone
    constructor
    · intro h
      cases h
    · rintro ⟨hg, hs, hp, ho⟩
      obtain ⟨g', rfl, -⟩ := Option.map_eq_some_iff.mp hg
      obtain ⟨s', rfl, -⟩ := Option.bind_eq_some_iff.mp hs
      obtain ⟨p', rfl, -⟩ := Option.bind_eq_some_iff.mp hp
      obtain ⟨o', rfl, -⟩ := Option.bind_eq_some_iff.mp ho
      exact absurd rfl (hnone g' s' p' o' rfl rfl rfl)

/-! ## Plain terms -/

/-- The term of a pattern is plain, or what the solution binds to it is. -/
def TermPattern.Plain (ox : text.Library) (row : Bindings) : TermPattern → Prop
  | .Literal l => Term.Plain ox (.Literal l)
  | .Variable v => ∀ t, row v = some t → t.Plain ox
  | _ => True

def GroundTermPattern.Plain (ox : text.Library) (row : Bindings) : GroundTermPattern → Prop
  | .Literal l => Term.Plain ox (.Literal l)
  | .Variable v => ∀ t, row v = some t → t.Plain ox
  | _ => True

def NamedNodePattern.Plain (ox : text.Library) (row : Bindings) : NamedNodePattern → Prop
  | .NamedNode _ => True
  | .Variable v => ∀ t, row v = some t → t.Plain ox

def QuadPattern.Plain (ox : text.Library) (row : Bindings) (q : QuadPattern) : Prop :=
  q.subject.Plain ox row ∧ q.predicate.Plain ox row ∧ q.object.Plain ox row

def GroundQuadPattern.Plain (ox : text.Library) (row : Bindings) (q : GroundQuadPattern) : Prop :=
  q.subject.Plain ox row ∧ q.predicate.Plain ox row ∧ q.object.Plain ox row

def AlgebraQuad.Plain (ox : text.Library) (q : AlgebraQuad) : Prop :=
  q.s.Plain ox ∧ q.p.Plain ox ∧ q.o.Plain ox

variable {row : Bindings}

theorem bind_denoted {v : String} (h : ∀ t, row v = some t → t.Plain ox) :
    (row v).bind denoted = ((row v).bind algebra_to_oxrdf : Option (OxTerm ox)) := by
  cases hrow : row v with
  | none => rfl
  | some t => exact (h t hrow).denoted_eq

theorem AlgebraQuad.Plain.meant_eq (h : q.Plain ox) :
    (q.meant : Option (StoredQuad ox)) = q.key := by
  obtain ⟨hs, hp, ho⟩ := h
  rw [meant, hs.denoted_eq, hp.denoted_eq, ho.denoted_eq, key]
  cases (algebra_to_oxrdf q.s : Option (OxTerm ox)) <;>
    cases (algebra_to_oxrdf q.p : Option (OxTerm ox)) <;>
    cases (algebra_to_oxrdf q.o : Option (OxTerm ox)) <;> rfl

theorem subject_legal {t : Option Term} {a : OxTerm ox} :
    (t.bind subject_or_skip).bind algebra_to_oxrdf = some a ↔
      t.bind algebra_to_oxrdf = some a ∧ a.Subject := by
  unfold OxTerm.Subject
  cases t with
  | none => simp
  | some t =>
    cases t <;> simp [subject_or_skip, algebra_to_oxrdf] <;> rintro rfl <;> simp

theorem pred_legal {p : NamedNodePattern} (hp : p.Plain ox row) {a : OxTerm ox} :
    (resolve_pred row p).bind algebra_to_oxrdf = some a ↔
      p.value row = some a ∧ ∃ n, a = .NamedNode n := by
  cases p with
  | NamedNode n =>
    simp only [resolve_pred, NamedNodePattern.value, algebra_to_oxrdf, Option.bind_some,
      Option.some.injEq]
    constructor
    · rintro rfl
      exact ⟨rfl, n, rfl⟩
    · exact And.left
  | Variable v =>
    rw [NamedNodePattern.value, bind_denoted hp]
    cases h : row v with
    | none => simp [resolve_pred, h]
    | some t =>
      cases t <;> simp [resolve_pred, h, algebra_to_oxrdf] <;> rintro rfl <;> simp

variable {scope : UInt64}

theorem term_value {ix : Nat} {t : TermPattern} (ht : t.Plain ox row) :
    (resolve_term row scope ix t).bind algebra_to_oxrdf =
      (t.value (template_name scope ix) row : Option (OxTerm ox)) := by
  cases t with
  | Literal l => exact (Term.Plain.denoted_eq (t := .Literal l) ht).symm
  | Variable v => exact (bind_denoted ht).symm
  | _ => rfl

theorem ground_value {t : GroundTermPattern} (ht : t.Plain ox row) :
    (resolve_ground row t).bind algebra_to_oxrdf = (t.value row : Option (OxTerm ox)) := by
  cases t with
  | Literal l => exact (Term.Plain.denoted_eq (t := .Literal l) ht).symm
  | Variable v => exact (bind_denoted ht).symm
  | _ => rfl

theorem value_variable (row : Bindings) (v : String) :
    (GraphNamePattern.Variable v).value row = match row v with
      | some (.Iri n) => some (.NamedNode n)
      | _ => none := rfl

theorem graph_value {pat : GraphNamePattern} {g : Option GraphName}
    (h : resolve_graph_name row pat = .ok g) : g.map resolve_graph = pat.value row := by
  have hnamed : ∀ iri, (do reserved_iri_write_check iri; .ok (some (some iri)) :
      Result (Option GraphName)) = .ok g → g.map resolve_graph = some (.NamedNode iri) := by
    intro iri h
    cases hc : reserved_iri_write_check iri with
    | error e => simp [hc, bind, Except.bind] at h
    | ok u =>
      rw [hc] at h
      cases h
      rfl
  cases pat with
  | DefaultGraph =>
    cases h
    rfl
  | NamedNode iri => exact hnamed iri h
  | Variable v =>
    simp only [resolve_graph_name] at h
    rw [value_variable]
    cases hrow : row v with
    | none =>
      simp only [hrow] at h
      cases h
      rfl
    | some t =>
      simp only [hrow] at h
      cases t with
      | Iri n => exact hnamed n h
      | Literal l =>
        cases h
        rfl
      | BlankNode l =>
        cases h
        rfl
      | Var v =>
        cases h
        rfl
      | Triple t =>
        cases h
        rfl

/-- An instance of a template, as the reference has it. -/
theorem insert_instance_key {ix : Nat} {q : QuadPattern} (hq : q.Plain ox row)
    {a : Option AlgebraQuad} (h : insert_instance scope ix row q = .ok a) : a.bind AlgebraQuad.key =
      (q.instance_of (template_name scope ix) row : Option (StoredQuad ox)) := by
  unfold insert_instance at h
  cases hg : resolve_graph_name row q.graph_name with
  | error e => simp [hg, bind, Except.bind] at h
  | ok g =>
    rw [hg] at h
    cases h
    apply Option.ext
    intro k
    rw [quad_of_key, instance_of_eq_some, graph_value hg, subject_legal, pred_legal hq.2.1,
      term_value hq.1, term_value hq.2.2]
    unfold Legal
    tauto

theorem delete_instance_key {q : GroundQuadPattern} (hq : q.Plain ox row) {a : Option AlgebraQuad}
    (h : delete_instance row q = .ok a) :
    a.bind AlgebraQuad.key = (q.instance_of row : Option (StoredQuad ox)) := by
  unfold delete_instance at h
  cases hg : resolve_graph_name row q.graph_name with
  | error e => simp [hg, bind, Except.bind] at h
  | ok g =>
    rw [hg] at h
    cases h
    apply Option.ext
    intro k
    rw [quad_of_key, ground_instance_of_eq_some, graph_value hg, subject_legal,
      pred_legal hq.2.1, ground_value hq.1, ground_value hq.2.2]
    unfold Legal
    tauto

theorem insert_quads_keys {rows : List Bindings} {insert : List QuadPattern}
    {adds : List AlgebraQuad} (hplain : ∀ row ∈ rows, ∀ q ∈ insert, q.Plain ox row)
    (h : insert_quads scope rows insert = .ok adds) :
    (∃ q ∈ adds, q.key = some k) ↔ Inserted (template_name scope) rows insert k := by
  obtain ⟨hmem, hok⟩ := mem_collect h
  constructor
  · rintro ⟨q, hq, hkey⟩
    obtain ⟨e, he, hpat⟩ := List.mem_flatMap.mp ((hmem q).mp hq)
    obtain ⟨pat, hin, hinst⟩ := List.mem_map.mp hpat
    have hrow := List.mem_zipIdx_iff_getElem?.mp he
    refine ⟨e.2, e.1, pat, hrow, hin, ?_⟩
    rw [← insert_instance_key (hplain e.1 (List.mem_of_getElem? hrow) pat hin) hinst]
    exact hkey
  · rintro ⟨ix, row, pat, hrow, hin, hinst⟩
    have hl : insert_instance scope ix row pat ∈
        rows.zipIdx.flatMap fun e => insert.map (insert_instance scope e.2 e.1) :=
      List.mem_flatMap.mpr ⟨(row, ix), List.mem_zipIdx_iff_getElem?.mpr hrow,
        List.mem_map.mpr ⟨pat, hin, rfl⟩⟩
    obtain ⟨a, ha⟩ := hok _ hl
    rw [← insert_instance_key (hplain row (List.mem_of_getElem? hrow) pat hin) ha] at hinst
    obtain ⟨q, rfl, hkey⟩ := Option.bind_eq_some_iff.mp hinst
    rw [ha] at hl
    exact ⟨q, (hmem q).mpr hl, hkey⟩

theorem delete_quads_keys {rows : List Bindings} {delete : List GroundQuadPattern}
    {dels : List AlgebraQuad} (hplain : ∀ row ∈ rows, ∀ q ∈ delete, q.Plain ox row)
    (h : delete_quads rows delete = .ok dels) :
    (∃ q ∈ dels, q.key = some k) ↔ Deleted rows delete k := by
  obtain ⟨hmem, hok⟩ := mem_collect h
  constructor
  · rintro ⟨q, hq, hkey⟩
    obtain ⟨row, hrow, hpat⟩ := List.mem_flatMap.mp ((hmem q).mp hq)
    obtain ⟨pat, hin, hinst⟩ := List.mem_map.mp hpat
    refine ⟨row, hrow, pat, hin, ?_⟩
    rw [← delete_instance_key (hplain row hrow pat hin) hinst]
    exact hkey
  · rintro ⟨row, hrow, pat, hin, hinst⟩
    have hl : delete_instance row pat ∈ rows.flatMap fun row => delete.map (delete_instance row) :=
      List.mem_flatMap.mpr ⟨row, hrow, List.mem_map.mpr ⟨pat, hin, rfl⟩⟩
    obtain ⟨a, ha⟩ := hok _ hl
    rw [← delete_instance_key (hplain row hrow pat hin) ha] at hinst
    obtain ⟨q, rfl, hkey⟩ := Option.bind_eq_some_iff.mp hinst
    rw [ha] at hl
    exact ⟨q, (hmem q).mpr hl, hkey⟩

/-! ## Data -/

theorem graph_pattern_value (g : GraphName) :
    (graph_pattern g).value no_row = some (resolve_graph g) := by
  cases g <;> rfl

theorem data_quad_key {d : DataQuad} (hq : d.pattern.Plain ox no_row) (h : data_quad d = .ok q) :
    q.key = (d.pattern.instance_of id no_row : Option (StoredQuad ox)) := by
  unfold data_quad at h
  cases ho : object_to_term d.object with
  | error e => simp [ho, bind, Except.bind] at h
  | ok o =>
    rw [ho] at h
    cases h
    have hobj : (d.object.pattern.value id no_row : Option (OxTerm ox)) = algebra_to_oxrdf o := by
      have hplain := hq.2.2
      dsimp only [DataQuad.pattern] at hplain
      cases hd : d.object <;> rw [hd] at ho hplain <;> cases ho <;>
        first | rfl | exact Term.Plain.denoted_eq (t := .Literal _) hplain
    have hsub : (d.subject.pattern.value id no_row : Option (OxTerm ox)) =
        algebra_to_oxrdf (subject_to_term d.subject) := by
      cases d.subject <;> rfl
    have hlegal : ∀ a : OxTerm ox, algebra_to_oxrdf (subject_to_term d.subject) = some a →
        a.Subject := by
      intro a ha
      cases hd : d.subject with
      | NamedNode n =>
        rw [hd] at ha
        exact Or.inl ⟨n, (Option.some.inj ha).symm⟩
      | BlankNode b =>
        rw [hd] at ha
        exact Or.inr ⟨b, (Option.some.inj ha).symm⟩
    apply Option.ext
    intro k
    rw [key_eq_some, instance_of_eq_some]
    dsimp only [DataQuad.pattern]
    rw [graph_pattern_value, hsub, hobj, Option.some.injEq]
    constructor
    · rintro ⟨hg, hs, hp, ho⟩
      exact ⟨hg, hs, hp, ho, hlegal _ hs, d.predicate, (Option.some.inj hp).symm⟩
    · rintro ⟨hg, hs, hp, ho, -⟩
      exact ⟨hg, hs, hp, ho⟩

theorem ground_quad_key {d : GroundQuad} (hq : d.pattern.Plain ox no_row)
    (h : ground_quad d = .ok q) :
    q.key = (d.pattern.instance_of no_row : Option (StoredQuad ox)) := by
  unfold ground_quad at h
  cases ho : ground_term_to_term d.object with
  | error e => simp [ho, bind, Except.bind] at h
  | ok o =>
    rw [ho] at h
    cases h
    have hobj : (d.object.pattern.value no_row : Option (OxTerm ox)) = algebra_to_oxrdf o := by
      have hplain := hq.2.2
      dsimp only [GroundQuad.pattern] at hplain
      cases hd : d.object <;> rw [hd] at ho hplain <;> cases ho <;>
        first | rfl | exact Term.Plain.denoted_eq (t := .Literal _) hplain
    apply Option.ext
    intro k
    rw [key_eq_some, ground_instance_of_eq_some]
    dsimp only [GroundQuad.pattern]
    rw [graph_pattern_value, hobj, Option.some.injEq]
    constructor
    · rintro ⟨hg, hs, hp, ho⟩
      exact ⟨hg, hs, hp, ho, Or.inl ⟨d.subject, (Option.some.inj hs).symm⟩, d.predicate,
        (Option.some.inj hp).symm⟩
    · rintro ⟨hg, hs, hp, ho, -⟩
      exact ⟨hg, hs, hp, ho⟩

theorem data_keys {data : List DataQuad} {adds : List AlgebraQuad}
    (hplain : ∀ d ∈ data, d.pattern.Plain ox no_row) (h : data.mapM data_quad = .ok adds) :
    (∃ q ∈ adds, q.key = some k) ↔
      Inserted own_name [no_row] (data.map DataQuad.pattern) k := by
  constructor
  · rintro ⟨q, hq, hkey⟩
    obtain ⟨d, hd, heq⟩ := (mapM_ok h).1 q hq
    exact ⟨0, no_row, d.pattern, rfl, List.mem_map_of_mem hd,
      (data_quad_key (hplain d hd) heq).symm.trans hkey⟩
  · rintro ⟨ix, row, pat, hrow, hin, hinst⟩
    obtain ⟨d, hd, rfl⟩ := List.mem_map.mp hin
    obtain ⟨q, hq, heq⟩ := (mapM_ok h).2 d hd
    cases List.mem_singleton.mp (List.mem_of_getElem? hrow)
    exact ⟨q, hq, (data_quad_key (hplain d hd) heq).trans hinst⟩

theorem ground_keys {data : List GroundQuad} {dels : List AlgebraQuad}
    (hplain : ∀ d ∈ data, d.pattern.Plain ox no_row) (h : data.mapM ground_quad = .ok dels) :
    (∃ q ∈ dels, q.key = some k) ↔ Deleted [no_row] (data.map GroundQuad.pattern) k := by
  constructor
  · rintro ⟨q, hq, hkey⟩
    obtain ⟨d, hd, heq⟩ := (mapM_ok h).1 q hq
    exact ⟨no_row, List.mem_singleton_self _, d.pattern, List.mem_map_of_mem hd,
      (ground_quad_key (hplain d hd) heq).symm.trans hkey⟩
  · rintro ⟨row, hrow, pat, hin, hinst⟩
    obtain ⟨d, hd, rfl⟩ := List.mem_map.mp hin
    obtain ⟨q, hq, heq⟩ := (mapM_ok h).2 d hd
    cases List.mem_singleton.mp hrow
    exact ⟨q, hq, (ground_quad_key (hplain d hd) heq).trans hinst⟩

/-! ## Writes that succeed -/

theorem write_ok_quads {w : Write} {fails : Faults} {s s' : Session ox}
    (h : w.run fails s = (.ok (), s')) : s'.store.quads = w.effect s.store.quads := by
  rw [write_run_eq] at h
  dsimp only at h
  split at h
  · cases h
  · split at h
    · cases h
    · cases h
      rfl

theorem batch_ok_quads {fails : Faults} {s s' : Session ox} {touched dels adds : List AlgebraQuad}
    (h : run_writes fails [.batch touched dels adds] s = (.ok (), s')) : k ∈ s'.store.quads ↔
      (k ∈ s.store.quads ∧ ¬ ∃ q ∈ dels, q.key = some k) ∨ ∃ q ∈ adds, q.key = some k := by
  rw [run_writes_single] at h
  rw [write_ok_quads h, Write.effect, mem_apply_batch]
  simp

/-- The sweeps of some graphs. -/
theorem sweeps_ok_quads {fails : Faults} (gs : List GraphName) {s s' : Session ox}
    (h : run_writes fails (gs.map .sweep) s = (.ok (), s')) :
    k ∈ s'.store.quads ↔ k ∈ s.store.quads ∧ ∀ g ∈ gs, k.g ≠ resolve_graph g := by
  induction gs generalizing s with
  | nil =>
    cases h
    simp
  | cons g gs ih =>
    rw [List.map_cons, run_writes] at h
    cases hw : (Write.sweep g).run fails s with
    | mk res s₁ =>
      rw [hw] at h
      cases res with
      | error e => cases h
      | ok u =>
        rw [ih h, write_ok_quads hw, Write.effect, mem_clear_quads, List.forall_mem_cons,
          ← Bool.not_eq_true, selects_target_of, and_assoc]

theorem mem_swept_graphs {quads : List (StoredQuad ox)} (hk : k ∈ quads) :
    (∀ g ∈ swept_graphs quads, k.g ≠ resolve_graph g) ↔
      k.g = .DefaultGraph ∨ k.g.Reserved ∨ ∃ b, k.g = .BlankNode b := by
  unfold swept_graphs
  cases hg : k.g with
  | DefaultGraph =>
    refine iff_of_true ?_ (Or.inl rfl)
    intro g hg heq
    obtain ⟨iri, -, rfl⟩ := List.mem_map.mp hg
    cases heq
  | BlankNode b =>
    refine iff_of_true ?_ (Or.inr (Or.inr ⟨b, rfl⟩))
    intro g hg heq
    obtain ⟨iri, -, rfl⟩ := List.mem_map.mp hg
    cases heq
  | NamedNode iri =>
    have hin : iri ∈ graphs quads := mem_graphs.mpr ⟨k, hk, hg⟩
    simp only [List.mem_map, List.mem_filter, forall_exists_index, and_imp, resolve_graph,
      GraphId.Reserved]
    constructor
    · intro h
      right
      left
      by_contra hres
      exact h (some iri) iri hin (by simpa using hres) rfl rfl
    · rintro (h | hres | ⟨b, h⟩)
      · cases h
      · rintro g iri' - hno rfl heq
        cases heq
        simp [hres] at hno
      · cases h

/-! ## When an operation meets the reference -/

/-- What the reference asks of an operation in its session: the blank nodes of the data, and the
names of those of a template, are new; and a sweep of all named graphs finds none that a blank
node names. -/
def Meets (env : Env ox ω) (s : Session ox) : GraphUpdateOperation ω → Prop
  | .InsertData data => ∀ d ∈ data, ∀ b,
    d.subject = .BlankNode b ∨ d.object = .BlankNode b → ∀ k ∈ s.store.quads, ¬ k.Mentions b
  | .DeleteInsert _ insert dataset pattern => ∀ plan rows,
    env.query.plan pattern = .ok plan →
    env.query.run s.store.quads (where_dataset dataset) plan = .ok rows →
    ∀ ix b, Used ox rows insert ix b →
      ¬ Known s.store.quads rows (template_name s.store.bnode_doc_tag ix b)
  | .Clear _ graph => graph = .NamedGraphs ∨ graph = .AllGraphs →
    ∀ k ∈ s.store.quads, ∀ b, k.g ≠ .BlankNode b
  | .Drop _ graph => graph = .NamedGraphs ∨ graph = .AllGraphs →
    ∀ k ∈ s.store.quads, ∀ b, k.g ≠ .BlankNode b
  | _ => True

/-- The operation writes no literal with a direction and no triple term: not by itself, not from a
document, and not from the solutions. -/
def WritesPlain (env : Env ox ω) (s : Session ox) : GraphUpdateOperation ω → Prop
  | .InsertData data => ∀ d ∈ data, d.pattern.Plain ox no_row
  | .DeleteData data => ∀ d ∈ data, d.pattern.Plain ox no_row
  | .DeleteInsert delete insert dataset pattern => ∀ plan rows,
    env.query.plan pattern = .ok plan →
    env.query.run s.store.quads (where_dataset dataset) plan = .ok rows →
    ∀ row ∈ rows, (∀ q ∈ delete, q.Plain ox row) ∧ ∀ q ∈ insert, q.Plain ox row
  | .Load _ source destination => ∀ rows,
    fetch_and_parse env.docs s.store.bnode_doc_tag source = .ok rows →
    ∀ q ∈ route destination rows, q.Plain ox
  | _ => True

/-- The digits of the solution end at the last low line. -/
theorem template_name_inj {ix ix' : Nat} {b b' : String}
    (h : template_name scope ix b = template_name scope ix' b') : ix = ix' ∧ b = b' := by
  have hlabel := congrArg (fun s : String => s.toList.reverse) (scoped_inj h).2
  simp only [String.toList_append, List.reverse_append, Nat.toString_eq_repr, Nat.toList_repr]
    at hlabel
  have htake : ∀ (n : Nat) (rest : List Char),
      ((Nat.toDigits 10 n).reverse ++ ("_r".toList.reverse ++ rest)).takeWhile (· ≠ 'r') =
        (Nat.toDigits 10 n).reverse := by
    intro n rest
    rw [List.takeWhile_append_of_pos]
    · have htail : ("_r".toList.reverse ++ rest).takeWhile (· ≠ 'r') = [] := rfl
      rw [htail, List.append_nil]
    · intro c hc
      have hdigit := Nat.isDigit_of_mem_toDigits (b := 10) (by decide) (by decide)
        (List.mem_reverse.mp hc)
      apply decide_eq_true
      rintro rfl
      exact absurd hdigit (by decide)
  have hdigits := congrArg (List.takeWhile (· ≠ 'r')) hlabel
  rw [htake, htake] at hdigits
  have hix : ix = ix' := by
    have heq := congrArg (fun l => Nat.ofDigitChars 10 l 0) (List.reverse_injective hdigits)
    rwa [Nat.ofDigitChars_ten_toDigits, Nat.ofDigitChars_ten_toDigits] at heq
  refine ⟨hix, ?_⟩
  rw [hix] at hlabel
  have hrest := List.append_cancel_left (List.append_cancel_left hlabel)
  exact String.ext (List.reverse_injective hrest)

theorem template_fresh_iff {quads : List (StoredQuad ox)} {rows : List Bindings}
    {insert : List QuadPattern} : Fresh (template_name scope) quads rows insert ↔
      ∀ ix b, Used ox rows insert ix b → ¬ Known quads rows (template_name scope ix b) := by
  constructor
  · exact Fresh.new
  · intro h
    exact ⟨h, fun ix b ix' b' _ _ heq => template_name_inj heq⟩

theorem own_fresh_iff {quads : List (StoredQuad ox)} {data : List DataQuad}
    {adds : List AlgebraQuad} (hplain : ∀ d ∈ data, d.pattern.Plain ox no_row)
    (h : data.mapM data_quad = .ok adds) :
    Fresh own_name quads [no_row] (data.map DataQuad.pattern) ↔
      ∀ d ∈ data, ∀ b, d.subject = .BlankNode b ∨ d.object = .BlankNode b →
        ∀ k ∈ quads, ¬ k.Mentions b := by
  have hpat : ∀ (d : DataQuad) (b : String),
      (d.pattern.subject = .BlankNode b ∨ d.pattern.object = .BlankNode b) ↔
        (d.subject = .BlankNode b ∨ d.object = .BlankNode b) := by
    intro d b
    refine or_congr ?_ ?_
    · unfold DataQuad.pattern NamedOrBlankNode.pattern
      cases d.subject <;> simp
    · unfold DataQuad.pattern ObjectTerm.pattern
      cases d.object <;> simp
  constructor
  · intro hf d hd b hb k hk hm
    obtain ⟨q, -, hq⟩ := (mapM_ok h).2 d hd
    have hkey : ∃ k' : StoredQuad ox, q.key = some k' := by
      unfold data_quad at hq
      cases ho : object_to_term d.object with
      | error e => simp [ho, bind, Except.bind] at hq
      | ok o =>
        rw [ho] at hq
        cases hq
        have hs : ∃ a : OxTerm ox, algebra_to_oxrdf (subject_to_term d.subject) = some a := by
          cases d.subject <;> exact ⟨_, rfl⟩
        have ho' : ∃ a : OxTerm ox, algebra_to_oxrdf o = some a := by
          cases hd : d.object <;> rw [hd] at ho <;> cases ho <;> exact ⟨_, rfl⟩
        obtain ⟨a, ha⟩ := hs
        obtain ⟨c, hc⟩ := ho'
        exact ⟨⟨resolve_graph d.graph_name, a, .NamedNode d.predicate, c⟩,
          key_eq_some.mpr ⟨rfl, ha, rfl, hc⟩⟩
    obtain ⟨k', hk'⟩ := hkey
    refine hf.new 0 b ⟨no_row, d.pattern, rfl, List.mem_map_of_mem hd, (hpat d b).mpr hb, k', ?_⟩
      (Or.inl ⟨k, hk, hm⟩)
    rw [← hk']
    exact (data_quad_key (hplain d hd) hq).symm
  · intro hnew
    refine ⟨?_, ?_⟩
    · rintro ix b ⟨row, q, hrow, hq, hb, -⟩ hknown
      obtain ⟨d, hd, rfl⟩ := List.mem_map.mp hq
      rcases hknown with ⟨k, hk, hm⟩ | ⟨row', hrow', v, hv⟩
      · exact hnew d hd b ((hpat d b).mp hb) k hk hm
      · cases List.mem_singleton.mp hrow'
        cases hv
    · rintro ix b ix' b' ⟨row, -, hrow, -⟩ ⟨row', -, hrow', -⟩ heq
      have hix := (List.getElem?_eq_some_iff.mp hrow).1
      have hix' := (List.getElem?_eq_some_iff.mp hrow').1
      rw [List.length_singleton] at hix hix'
      exact ⟨by omega, heq⟩

end horndb.sparql
