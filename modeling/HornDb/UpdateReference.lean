-- The reference semantics of SPARQL Update, on the quads that a store holds: what every operation
-- leaves, with blank nodes that are new for the operation and for the solution.
import HornDb.UpdateRuns
import HornDb.LoaderRuns

open horndb.storage.loader (scope_blank_node_label scoped_inj)

namespace horndb.sparql

variable {ox : text.Library} {ω : Type}

/-! ## Terms -/

def language_tag (ox : text.Library) (tag : List Char) : Option (text.LanguageTag ox) :=
  match h : ox.language tag with
  | some t => some ⟨t, ox.language_kept tag t h⟩
  | none => none

/-- A tag that ends with a direction. -/
def directed_tag (ox : text.Library) (tag : List Char) :
    Option (text.LanguageTag ox × BaseDirection) :=
  let language := language_tag ox (tag.take (tag.length - 5))
  if "--ltr".toList.isSuffixOf tag then language.map (·, .Ltr)
  else if "--rtl".toList.isSuffixOf tag then language.map (·, .Rtl)
  else none

/-- The direction of a literal's text, with its language. -/
def direction_of (ox : text.Library) (raw : String) :
    Option (text.LanguageTag ox × BaseDirection) :=
  (text.literal_parts raw.toList).lang.bind (directed_tag ox)

/-- The text that the library prints for a triple term; no IRI starts so. -/
def is_triple_text (s : String) : Bool := "<<(".toList.isPrefixOf s.toList

/-- The term that a term of the algebra is written for, with its direction. -/
def denoted : Term → Option (OxTerm ox)
  | .Iri s => some (if is_triple_text s then .Triple s else .NamedNode s)
  | .BlankNode s => some (.BlankNode s)
  | .Literal raw => some (match direction_of ox raw with
    | some (language, direction) =>
      .Directional (text.unescape_ntriples (text.literal_parts raw.toList).value) language direction
    | none => .Literal (text.parse_literal raw.toList))
  | .Var _ => none
  | .Triple _ _ _ => none

/-- The term has no direction, and is not the text of a triple term. -/
def Term.Plain (ox : text.Library) : Term → Prop
  | .Iri s => is_triple_text s = false
  | .Literal raw => direction_of ox raw = none
  | _ => True

theorem Term.Plain.denoted_eq {t : Term} (h : t.Plain ox) :
    (denoted t : Option (OxTerm ox)) = algebra_to_oxrdf t := by
  cases t with
  | Iri s =>
    rw [denoted, if_neg (by rw [h]; exact Bool.false_ne_true)]
    rfl
  | Literal raw =>
    rw [denoted, h]
    rfl
  | _ => rfl

/-! ## Templates -/

def TermPattern.value (name : String → String) (row : Bindings) : TermPattern → Option (OxTerm ox)
  | .NamedNode n => some (.NamedNode n)
  | .BlankNode b => some (.BlankNode (name b))
  | .Literal l => denoted (.Literal l)
  | .Triple _ => none
  | .Variable v => (row v).bind denoted

def GroundTermPattern.value (row : Bindings) : GroundTermPattern → Option (OxTerm ox)
  | .NamedNode n => some (.NamedNode n)
  | .Literal l => denoted (.Literal l)
  | .Triple _ => none
  | .Variable v => (row v).bind denoted

def NamedNodePattern.value (row : Bindings) : NamedNodePattern → Option (OxTerm ox)
  | .NamedNode n => some (.NamedNode n)
  | .Variable v => (row v).bind denoted

/-- A graph is the default graph, or an IRI names it. -/
def GraphNamePattern.value (row : Bindings) : GraphNamePattern → Option GraphId
  | .DefaultGraph => some .DefaultGraph
  | .NamedNode n => some (.NamedNode n)
  | .Variable v =>
    match row v with
    | some (.Iri n) => some (.NamedNode n)
    | _ => none

/-- A subject is an IRI or a blank node, and a predicate is an IRI. -/
def legal_quad (g : GraphId) (s p o : OxTerm ox) : Option (StoredQuad ox) :=
  match s, p with
  | .NamedNode _, .NamedNode n => some ⟨g, s, .NamedNode n, o⟩
  | .BlankNode _, .NamedNode n => some ⟨g, s, .NamedNode n, o⟩
  | _, _ => none

/-- The quad of a template under a solution, if it has one. -/
def QuadPattern.instance_of (name : String → String) (row : Bindings) (q : QuadPattern) :
    Option (StoredQuad ox) := do
  let g ← q.graph_name.value row
  let s ← q.subject.value name row
  let p ← q.predicate.value row
  let o ← q.object.value name row
  legal_quad g s p o

def GroundQuadPattern.instance_of (row : Bindings) (q : GroundQuadPattern) :
    Option (StoredQuad ox) := do
  let g ← q.graph_name.value row
  let s ← q.subject.value row
  let p ← q.predicate.value row
  let o ← q.object.value row
  legal_quad g s p o

/-- A name for every blank node of a template, at every solution. -/
abbrev Naming := Nat → String → String

def Inserted (name : Naming) (rows : List Bindings) (insert : List QuadPattern)
    (k : StoredQuad ox) : Prop :=
  ∃ ix row q, rows[ix]? = some row ∧ q ∈ insert ∧ q.instance_of (name ix) row = some k

def Deleted (rows : List Bindings) (delete : List GroundQuadPattern) (k : StoredQuad ox) : Prop :=
  ∃ row ∈ rows, ∃ q ∈ delete, q.instance_of row = some k

/-! ## Blank nodes -/

def StoredQuad.Mentions (k : StoredQuad ox) (b : String) : Prop :=
  k.g = .BlankNode b ∨ k.s = .BlankNode b ∨ k.p = .BlankNode b ∨ k.o = .BlankNode b

/-- The blank node is in the store or in a solution. -/
def Known (quads : List (StoredQuad ox)) (rows : List Bindings) (b : String) : Prop :=
  (∃ k ∈ quads, k.Mentions b) ∨ ∃ row ∈ rows, ∃ v, row v = some (.BlankNode b)

/-- A quad of the template has the blank node, and has an instance at the solution. -/
def Used (ox : text.Library) (rows : List Bindings) (insert : List QuadPattern) (ix : Nat)
    (b : String) : Prop :=
  ∃ row q, rows[ix]? = some row ∧ q ∈ insert ∧
    (q.subject = .BlankNode b ∨ q.object = .BlankNode b) ∧
    ∃ k : StoredQuad ox, q.instance_of id row = some k

/-- The names that are used are new, and apart. -/
structure Fresh (name : Naming) (quads : List (StoredQuad ox)) (rows : List Bindings)
    (insert : List QuadPattern) : Prop where
  new : ∀ ix b, Used ox rows insert ix b → ¬ Known quads rows (name ix b)
  apart : ∀ ix b ix' b', Used ox rows insert ix b → Used ox rows insert ix' b' →
    name ix b = name ix' b' → ix = ix' ∧ b = b'

/-! ## Operations -/

def NamedOrBlankNode.pattern : NamedOrBlankNode → TermPattern
  | .NamedNode n => .NamedNode n
  | .BlankNode b => .BlankNode b

def ObjectTerm.pattern : ObjectTerm → TermPattern
  | .NamedNode n => .NamedNode n
  | .BlankNode b => .BlankNode b
  | .Literal l => .Literal l
  | .Triple t => .Triple t

def GroundTerm.pattern : GroundTerm → GroundTermPattern
  | .NamedNode n => .NamedNode n
  | .Literal l => .Literal l
  | .Triple t => .Triple t

def graph_pattern : GraphName → GraphNamePattern
  | none => .DefaultGraph
  | some n => .NamedNode n

def DataQuad.pattern (q : DataQuad) : QuadPattern :=
  ⟨q.subject.pattern, .NamedNode q.predicate, q.object.pattern, graph_pattern q.graph_name⟩

def GroundQuad.pattern (q : GroundQuad) : GroundQuadPattern :=
  ⟨.NamedNode q.subject, .NamedNode q.predicate, q.object.pattern, graph_pattern q.graph_name⟩

/-- The solution of a pattern without variables. -/
def no_row : Bindings := fun _ => none

/-- All deletions come before all insertions, whose blank nodes are new. -/
def Replaced (quads quads' : List (StoredQuad ox)) (rows : List Bindings)
    (delete : List GroundQuadPattern) (insert : List QuadPattern) : Prop :=
  ∃ name, Fresh name quads rows insert ∧
    ∀ k, k ∈ quads' ↔ (k ∈ quads ∧ ¬ Deleted rows delete k) ∨ Inserted name rows insert k

/-- A graph is emptied, but a reserved one. -/
def Cleared (quads quads' : List (StoredQuad ox)) (graph : GraphTarget) : Prop :=
  ∀ k, k ∈ quads' ↔ k ∈ quads ∧ ¬ (graph.selects k.g = true ∧ ¬ k.g.Reserved)

/-- The quad that a quad of a document is written for. -/
def AlgebraQuad.meant (q : AlgebraQuad) : Option (StoredQuad ox) := do
  some ⟨resolve_graph q.g, ← denoted q.s, ← denoted q.p, ← denoted q.o⟩

/-- What an operation that succeeds leaves. A document is taken as the parsers read it. -/
def Leaves (env : Env ox ω) (quads quads' : List (StoredQuad ox)) :
    GraphUpdateOperation ω → Prop
  | .InsertData data => Replaced quads quads' [no_row] [] (data.map DataQuad.pattern)
  | .DeleteData data => Replaced quads quads' [no_row] (data.map GroundQuad.pattern) []
  | .DeleteInsert delete insert dataset pattern => ∃ plan rows,
    env.query.plan pattern = .ok plan ∧
      env.query.run quads (where_dataset dataset) plan = .ok rows ∧
      Replaced quads quads' rows delete insert
  | .Load _ source destination => ∃ tag,
    match fetch_and_parse env.docs tag source, destination, is_dataset_format source with
    | .ok rows, none, _ => ∀ k, k ∈ quads' ↔ k ∈ quads ∨ ∃ q ∈ rows, q.meant = some k
    | .ok rows, some g, false =>
      ∀ k, k ∈ quads' ↔ k ∈ quads ∨ ∃ q ∈ route (some g) rows, q.meant = some k
    | _, _, _ => ∀ k, k ∈ quads' ↔ k ∈ quads
  | .Clear _ graph => Cleared quads quads' graph
  | .Drop _ graph => Cleared quads quads' graph
  | .Create _ _ => ∀ k, k ∈ quads' ↔ k ∈ quads

/-- The operations one after another. -/
inductive Reference (env : Env ox ω) : List (GraphUpdateOperation ω) → List (StoredQuad ox) →
    List (StoredQuad ox) → Prop
  | done {quads} : Reference env [] quads quads
  | step {op ops quads quads₁ quads'} (h : Leaves env quads quads₁ op)
      (hrest : Reference env ops quads₁ quads') : Reference env (op :: ops) quads quads'

/-! ## Instances and their blank nodes -/

/-- An IRI or a blank node. -/
def OxTerm.Subject (a : OxTerm ox) : Prop := (∃ n, a = .NamedNode n) ∨ ∃ b, a = .BlankNode b

def Legal (s p : OxTerm ox) : Prop := s.Subject ∧ ∃ n, p = .NamedNode n

variable {k : StoredQuad ox}

theorem legal_quad_eq_some {g : GraphId} {s p o : OxTerm ox} :
    legal_quad g s p o = some k ↔ k = ⟨g, s, p, o⟩ ∧ Legal s p := by
  unfold legal_quad Legal OxTerm.Subject
  cases s <;> cases p <;> simp [eq_comm]

theorem legal_of_eq_some {g : Option GraphId} {s p o : Option (OxTerm ox)} :
    (do legal_quad (← g) (← s) (← p) (← o)) = some k ↔
      g = some k.g ∧ s = some k.s ∧ p = some k.p ∧ o = some k.o ∧ Legal k.s k.p := by
  simp only [Option.bind_eq_bind, Option.bind_eq_some_iff, legal_quad_eq_some]
  constructor
  · rintro ⟨g, hg, s, hs, p, hp, o, ho, rfl, hlegal⟩
    exact ⟨hg, hs, hp, ho, hlegal⟩
  · rintro ⟨hg, hs, hp, ho, hlegal⟩
    exact ⟨_, hg, _, hs, _, hp, _, ho, rfl, hlegal⟩

variable {row : Bindings} {f : String → String} {q : QuadPattern}

theorem instance_of_eq_some : q.instance_of f row = some k ↔ q.graph_name.value row = some k.g ∧
      q.subject.value f row = some k.s ∧ q.predicate.value row = some k.p ∧
      q.object.value f row = some k.o ∧ Legal k.s k.p :=
  legal_of_eq_some

theorem ground_instance_of_eq_some {q : GroundQuadPattern} :
    q.instance_of row = some k ↔ q.graph_name.value row = some k.g ∧
      q.subject.value row = some k.s ∧ q.predicate.value row = some k.p ∧
      q.object.value row = some k.o ∧ Legal k.s k.p :=
  legal_of_eq_some

theorem denoted_blank {t : Term} {b : String}
    (h : denoted t = some (.BlankNode b : OxTerm ox)) : t = .BlankNode b := by
  cases t with
  | BlankNode s =>
    cases h
    rfl
  | Iri s =>
    rw [denoted, Option.some.injEq] at h
    split at h <;> cases h
  | Literal raw =>
    rw [denoted, Option.some.injEq] at h
    split at h <;> cases h
  | Var s => cases h
  | Triple s p o => cases h

/-- A term that a variable gives is a blank node where the solution binds one. -/
theorem bound_blank {v b : String} (h : (row v).bind denoted = some (.BlankNode b : OxTerm ox)) :
    row v = some (.BlankNode b) := by
  obtain ⟨t, ht, hox⟩ := Option.bind_eq_some_iff.mp h
  rw [ht, denoted_blank hox]

theorem value_blank {t : TermPattern} {b : String}
    (h : t.value f row = some (.BlankNode b : OxTerm ox)) :
    (∃ b₀, t = .BlankNode b₀ ∧ f b₀ = b) ∨ ∃ v, row v = some (.BlankNode b) := by
  cases t with
  | BlankNode b₀ =>
    cases h
    exact Or.inl ⟨b₀, rfl, rfl⟩
  | Variable v => exact Or.inr ⟨v, bound_blank h⟩
  | NamedNode n => cases h
  | Literal l => cases denoted_blank (t := .Literal l) h
  | Triple t => cases h

/-- The blank nodes of an instance: those of the template, by their names, and those of the
solution. -/
theorem instance_mentions {b : String} (h : q.instance_of f row = some k) (hb : k.Mentions b) :
    (∃ b₀, (q.subject = .BlankNode b₀ ∨ q.object = .BlankNode b₀) ∧ f b₀ = b) ∨
      ∃ v, row v = some (.BlankNode b) := by
  obtain ⟨hg, hs, hp, ho, hlegal⟩ := instance_of_eq_some.mp h
  rcases hb with hb | hb | hb | hb
  · rw [hb] at hg
    unfold GraphNamePattern.value at hg
    split at hg
    · cases hg
    · cases hg
    · split at hg <;> cases hg
  · rw [hb] at hs
    rcases value_blank hs with ⟨b₀, hq, hf⟩ | hv
    · exact Or.inl ⟨b₀, Or.inl hq, hf⟩
    · exact Or.inr hv
  · obtain ⟨n, hn⟩ := hlegal.2
    rw [hb] at hn
    cases hn
  · rw [hb] at ho
    rcases value_blank ho with ⟨b₀, hq, hf⟩ | hv
    · exact Or.inl ⟨b₀, Or.inr hq, hf⟩
    · exact Or.inr hv

theorem mentions_instance {b : String} (h : q.instance_of f row = some k)
    (hb : q.subject = .BlankNode b ∨ q.object = .BlankNode b) : k.Mentions (f b) := by
  obtain ⟨-, hs, -, ho, -⟩ := instance_of_eq_some.mp h
  rcases hb with hb | hb
  · rw [hb] at hs
    exact Or.inr (Or.inl (Option.some.inj hs).symm)
  · rw [hb] at ho
    exact Or.inr (Or.inr (Or.inr (Option.some.inj ho).symm))

/-- Another naming gives another term in the same place, and a subject for a subject. -/
theorem value_renamed (f f' : String → String) {t : TermPattern} {a : OxTerm ox}
    (h : t.value f row = some a) : ∃ a' : OxTerm ox, t.value f' row = some a' ∧
      (a.Subject → a'.Subject) := by
  cases t with
  | BlankNode b => exact ⟨.BlankNode (f' b), rfl, fun _ => Or.inr ⟨f' b, rfl⟩⟩
  | Variable v => exact ⟨a, h, id⟩
  | NamedNode n => exact ⟨a, h, id⟩
  | Literal l => exact ⟨a, h, id⟩
  | Triple t => cases h

theorem instance_renamed (f f' : String → String) (h : q.instance_of f row = some k) :
    ∃ k' : StoredQuad ox, q.instance_of f' row = some k' := by
  obtain ⟨hg, hs, hp, ho, hlegal⟩ := instance_of_eq_some.mp h
  obtain ⟨s', hs', hsub⟩ := value_renamed f f' hs
  obtain ⟨o', ho', -⟩ := value_renamed f f' ho
  exact ⟨⟨k.g, s', k.p, o'⟩, instance_of_eq_some.mpr ⟨hg, hs', hp, ho', hsub hlegal.1, hlegal.2⟩⟩

/-! ## Fresh names are the only ones -/

section Naming

variable {name name' : Naming} {quads : List (StoredQuad ox)} {rows : List Bindings}
  {insert : List QuadPattern} {kept : StoredQuad ox → Prop}

/-- The names in the insertions that are not known are those of the used blank nodes. -/
theorem new_names (hkept : ∀ k, kept k → k ∈ quads) :
    {b | ¬ Known quads rows b ∧
      ∃ k : StoredQuad ox, (kept k ∨ Inserted name rows insert k) ∧ k.Mentions b} =
    (fun e => name e.1 e.2) '' {e : Nat × String | Used ox rows insert e.1 e.2} \
      {b | Known quads rows b} := by
  ext b
  constructor
  · rintro ⟨hnew, k, hk, hb⟩
    refine ⟨?_, hnew⟩
    rcases hk with hk | ⟨ix, row, q, hrow, hq, hinst⟩
    · exact absurd (Or.inl ⟨k, hkept k hk, hb⟩) hnew
    · rcases instance_mentions hinst hb with ⟨b₀, hb₀, hname⟩ | ⟨v, hv⟩
      · exact ⟨(ix, b₀), ⟨row, q, hrow, hq, hb₀, instance_renamed _ _ hinst⟩, hname⟩
      · exact absurd (Or.inr ⟨row, List.mem_of_getElem? hrow, v, hv⟩) hnew
  · rintro ⟨⟨⟨ix, b₀⟩, ⟨row, q, hrow, hq, hb₀, k₀, hinst₀⟩, rfl⟩, hnew⟩
    obtain ⟨k, hinst⟩ := instance_renamed id (name ix) hinst₀
    exact ⟨hnew, k, Or.inr ⟨ix, row, q, hrow, hq, hinst⟩, mentions_instance hinst hb₀⟩

theorem used_finite (ox : text.Library) (rows : List Bindings) (insert : List QuadPattern) :
    {e : Nat × String | Used ox rows insert e.1 e.2}.Finite := by
  let labels (q : QuadPattern) : List String :=
    [q.subject, q.object].filterMap fun t => match t with
      | .BlankNode b => some b
      | _ => none
  refine Set.Finite.subset
    (List.finite_toSet ((List.range rows.length).product (insert.flatMap labels))) ?_
  rintro ⟨ix, b⟩ ⟨row, q, hrow, hq, hb, -⟩
  have hix : ix < rows.length := (List.getElem?_eq_some_iff.mp hrow).1
  have hlabel : b ∈ labels q := by
    rcases hb with hb | hb <;> simp [labels, hb]
  exact List.mem_product.mpr ⟨List.mem_range.mpr hix, List.mem_flatMap.mpr ⟨q, hq, hlabel⟩⟩

/-- Two ways to name as many things: where the second is injective and avoids a set, and both
agree outside of it, the first is so too. -/
theorem injOn_of_image_diff {α β : Type} {f g : α → β} {u : Set α} {known : Set β}
    (hu : u.Finite) (hg : Set.InjOn g u) (hnew : ∀ a ∈ u, g a ∉ known)
    (h : f '' u \ known = g '' u \ known) : Set.InjOn f u ∧ ∀ a ∈ u, f a ∉ known := by
  have hdiff : g '' u \ known = g '' u := by
    rw [sdiff_eq_left, Set.disjoint_left]
    rintro b ⟨a, ha, rfl⟩
    exact hnew a ha
  rw [hdiff] at h
  have hfin : (f '' u).Finite := hu.image f
  have hcard : (f '' u \ known).ncard = u.ncard := by
    rw [h, hg.ncard_image]
  have hle : (f '' u \ known).ncard ≤ (f '' u).ncard := Set.ncard_le_ncard Set.sdiff_subset hfin
  have hge : (f '' u).ncard ≤ u.ncard := Set.ncard_image_le hu
  have heq : f '' u \ known = f '' u :=
    Set.eq_of_subset_of_ncard_le Set.sdiff_subset (by omega) hfin
  refine ⟨Set.injOn_of_ncard_image_eq (by omega) hu, ?_⟩
  intro a ha hin
  have hmem : f a ∈ f '' u \ known := by
    rw [heq]
    exact Set.mem_image_of_mem f ha
  exact hmem.2 hin

/-- What a naming inserts, a fresh naming inserts too, if and only if it is fresh itself. -/
theorem fresh_of_same (hkept : ∀ k, kept k → k ∈ quads) (hf : Fresh name' quads rows insert)
    (h : ∀ k, (kept k ∨ Inserted name rows insert k) ↔ (kept k ∨ Inserted name' rows insert k)) :
    Fresh name quads rows insert := by
  have himage : (fun e => name e.1 e.2) '' {e : Nat × String | Used ox rows insert e.1 e.2} \
      {b | Known quads rows b} = (fun e => name' e.1 e.2) ''
      {e : Nat × String | Used ox rows insert e.1 e.2} \ {b | Known quads rows b} := by
    rw [← new_names hkept, ← new_names hkept]
    simp only [h]
  have hinj : Set.InjOn (fun e => name' e.1 e.2)
      {e : Nat × String | Used ox rows insert e.1 e.2} := by
    rintro ⟨ix, b⟩ hu ⟨ix', b'⟩ hu' heq
    obtain ⟨rfl, rfl⟩ := hf.apart ix b ix' b' hu hu' heq
    rfl
  obtain ⟨hinj', hnew'⟩ := injOn_of_image_diff (used_finite ox rows insert) hinj
    (fun e he => hf.new e.1 e.2 he) himage
  refine ⟨fun ix b hu => hnew' (ix, b) hu, ?_⟩
  intro ix b ix' b' hu hu' heq
  exact Prod.mk.inj (hinj' hu hu' heq)

/-- A result under one naming is the reference's, if and only if the naming is fresh. -/
theorem replaced_iff (name : Naming) {quads' : List (StoredQuad ox)}
    {delete : List GroundQuadPattern}
    (h : ∀ k, k ∈ quads' ↔
      (k ∈ quads ∧ ¬ Deleted rows delete k) ∨ Inserted name rows insert k) :
    Replaced quads quads' rows delete insert ↔ Fresh name quads rows insert := by
  constructor
  · rintro ⟨name', hf, h'⟩
    have hkept : ∀ k, (k ∈ quads ∧ ¬ Deleted rows delete k) → k ∈ quads := fun k hk => hk.1
    refine fresh_of_same hkept hf fun k => ?_
    rw [← h, h']
  · intro hf
    exact ⟨name, hf, h⟩

end Naming

end horndb.sparql
