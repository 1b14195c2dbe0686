-- Runs of loads: when the blank nodes of the documents are kept apart. The renaming passes a
-- triple term through unchanged, so the labels inside it are shared by all documents.
import HornDb.LoaderLoads

open HornDb.Lib.Wire

namespace horndb.storage.loader

open Dictionary

variable {ox : Oxrdf} {fst : FstLib}

/-! ## Places of blank nodes -/

/-- Where a row of the tier comes from: the number of the load, its tag, and the quad as the
document has it. -/
structure Origin (ox : Oxrdf) where
  doc : Nat
  tag : UInt64
  quad : oxrdf.Quad ox

inductive Position where
  | Subject
  | Object
  | Graph
deriving DecidableEq, Repr

/-- A place in a row: a position, and a path into the term there. -/
structure Place where
  row : Nat
  position : Position
  path : List Side

def term_at (q : oxrdf.Quad ox) : Position → Option (Term ox)
  | .Subject => some (subject_to_term q.subject)
  | .Object => some q.object
  | .Graph =>
    match q.graph_name with
    | .DefaultGraph => none
    | .NamedNode n => some (.NamedNode n)
    | .BlankNode b => some (.BlankNode b)

def id_at (row : Quad) : Position → TermId
  | .Subject => row.subject
  | .Object => row.object
  | .Graph => row.graph

/-! ## Runs -/

/-- The quads of a document whose rows a load left: all of them when it succeeds, and when it
stops as many of the first ones as there are new rows. -/
def Document.left (doc : Document ox) (out : Outcome LoadStats) (rows : Nat) :
    List (oxrdf.Quad ox) :=
  match out with
  | .ok _ => doc.quads
  | .error _ => doc.quads.take rows

/-- The store after some loads, their number, and the origin of each row of the tier. -/
structure History (ox : Oxrdf) (fst : FstLib) where
  store : Store ox fst
  docs : Nat
  origins : List (Origin ox)

namespace History

def start : History ox fst := ⟨.in_memory, 0, []⟩

variable (scopes : Scopable ox)

/-- One load. -/
def step (h : History ox fst) (load : Env × Document ox) : History ox fst :=
  let (store, out) := load.2.load scopes load.1 h.store
  let quads := load.2.left out (store.quads.length - h.store.quads.length)
  { store
    docs := h.docs + 1
    origins := h.origins ++ quads.map fun q => ⟨h.docs, h.store.bnode_doc_tag, q⟩ }

variable (fst) in
def run (loads : List (Env × Document ox)) : History ox fst := loads.foldl (step scopes) start

/-- The blank node that the document has at a place, with the origin of the row. -/
def written (h : History ox fst) (p : Place) : Option (Origin ox × BlankNode ox) :=
  h.origins[p.row]?.bind fun o => (term_at o.quad p.position).bind fun t =>
    (t.blank_at p.path).map fun b => (o, b)

/-- The id of the term that holds the place. -/
def id_of (h : History ox fst) (p : Place) : Option TermId :=
  h.store.quads[p.row]?.map fun row => id_at row p.position

/-- The blank node that the store has at a place. -/
def stored (h : History ox fst) (p : Place) : Option (BlankNode ox) :=
  (h.id_of p).bind fun id =>
    match h.store.dictionary.lookup id with
    | .ok (some t) => t.blank_at p.path
    | _ => none

/-- Two places denote one stored term: one blank node, and under one id where both places are
whole terms. -/
def Same (h : History ox fst) (p p' : Place) : Prop :=
  ∃ b, h.stored p = some b ∧ h.stored p' = some b ∧
    (p.path = [] → p'.path = [] → h.id_of p = h.id_of p')

/-- Two places denote one stored term exactly when they have one label in one document. -/
def Sound (h : History ox fst) : Prop :=
  ∀ p p' o o' b b', h.written p = some (o, b) → h.written p' = some (o', b') →
    (h.Same p p' ↔ o.doc = o'.doc ∧ b = b')

/-- What the labels of the documents must not do: be shared outside triple terms by documents
of one tag; be shared inside triple terms by two documents; stand inside and outside of a
triple term of one document; have, inside of one, the form of a renamed label. -/
structure Apart (h : History ox fst) : Prop where
  tags : ∀ p p' o o' b, h.written p = some (o, b) → h.written p' = some (o', b) →
    p.path = [] → p'.path = [] → o.tag = o'.tag → o.doc = o'.doc
  inside : ∀ p p' o o' b, h.written p = some (o, b) → h.written p' = some (o', b) →
    p.path ≠ [] → p'.path ≠ [] → o.doc = o'.doc
  across : ∀ p p' o o' b, h.written p = some (o, b) → h.written p' = some (o', b) →
    p.path ≠ [] → p'.path = [] → o.doc ≠ o'.doc
  renamed : ∀ p p' o o' b b', h.written p = some (o, b) → h.written p' = some (o', b') →
    p.path ≠ [] → p'.path = [] → b.as_str ≠ scope_blank_node_label o'.tag b'.as_str

end History

/-! ## Renamed labels -/

theorem scoped_bytes (tag : UInt64) (label : String) :
    as_bytes (scope_blank_node_label tag label) =
      [104, 100, 98] ++ (as_bytes (toString tag.toNat) ++ 95 :: as_bytes label) := by
  have hhdb : as_bytes "hdb" = [104, 100, 98] := by decide +kernel
  have hline : as_bytes "_" = [95] := by decide +kernel
  unfold scope_blank_node_label
  rw [as_bytes_append, as_bytes_append, as_bytes_append, hhdb, hline]
  simp

/-- The digits of the tag end at the first low line. -/
theorem scoped_inj {tag tag' : UInt64} {label label' : String}
    (h : scope_blank_node_label tag label = scope_blank_node_label tag' label') :
    tag = tag' ∧ label = label' := by
  have hdigits : ∀ (n : Nat) (rest : Bytes),
      (as_bytes (toString n) ++ 95 :: rest).takeWhile (· ≠ 95) = as_bytes (toString n) := by
    intro n rest
    rw [List.takeWhile_append_of_pos]
    · simp
    · intro b hb
      have hdigit := (digit_bytes n b hb).2
      apply decide_eq_true
      intro heq
      rw [heq] at hdigit
      exact absurd hdigit (by decide)
  have hbytes := congrArg as_bytes h
  rw [scoped_bytes, scoped_bytes] at hbytes
  have hrest := List.append_cancel_left hbytes
  have htag := congrArg (List.takeWhile (· ≠ 95)) hrest
  rw [hdigits, hdigits] at htag
  rw [htag] at hrest
  refine ⟨?_, as_bytes_inj (List.cons.inj (List.append_cancel_left hrest)).2⟩
  exact UInt64.toNat_inj.mp (Nat.repr_injective (as_bytes_inj htag))

theorem scoped_ne (tag : UInt64) (label : String) : scope_blank_node_label tag label ≠ label := by
  intro h
  have hlen := congrArg List.length (congrArg as_bytes h)
  rw [scoped_bytes] at hlen
  simp only [List.length_append, List.length_cons] at hlen
  omega

variable {scopes : Scopable ox}

/-- The label that a blank node has in the store. -/
def stored_blank (scopes : Scopable ox) (tag : UInt64) (path : List Side) (b : BlankNode ox) :
    BlankNode ox :=
  if path = [] then scope_blank_node scopes tag b else b

theorem blank_at_nil {t : Term ox} {b : BlankNode ox} (h : t.blank_at [] = some b) :
    t = .BlankNode b := by
  cases t with
  | BlankNode b' =>
    unfold Term.blank_at at h
    rw [if_pos rfl] at h
    cases h
    rfl
  | _ => cases h

theorem blank_at_scoped (tag : UInt64) {t : Term ox} {path : List Side} {b : BlankNode ox}
    (h : t.blank_at path = some b) :
    (scope_term scopes tag t).blank_at path = some (stored_blank scopes tag path b) := by
  cases t with
  | BlankNode b' =>
    unfold Term.blank_at at h
    split at h
    · rename_i hpath
      cases h
      simp [scope_term, Term.blank_at, stored_blank, hpath]
    · cases h
  | Triple s p o =>
    have hpath : path ≠ [] := by
      intro hnil
      rw [hnil] at h
      cases h
    unfold stored_blank
    rw [if_neg hpath]
    exact h
  | NamedNode n => cases h
  | Literal lit => cases h

/-! ## What a run keeps -/

namespace History

/-- The ids of each row name the terms of its origin. A document has one tag. -/
structure Kept (scopes : Scopable ox) (h : History ox fst) : Prop where
  named : h.store.dictionary.Named
  rows : List.Forall₂ (fun row o => RowNames scopes o.tag h.store.dictionary row o.quad)
    h.store.quads h.origins
  docs : ∀ o ∈ h.origins, o.doc < h.docs
  tags : ∀ o ∈ h.origins, ∀ o' ∈ h.origins, o.doc = o'.doc → o.tag = o'.tag

variable {h : History ox fst}

theorem start_kept : (start : History ox fst).Kept scopes := ⟨new_named, .nil, nofun, nofun⟩

theorem Kept.step (k : h.Kept scopes) (hprint : ox.Printable) (load : Env × Document ox) :
    (h.step scopes load).Kept scopes := by
  have hload := Document.loaded scopes hprint load.1 load.2 k.named
  unfold History.step
  cases hout : load.2.load scopes load.1 h.store with
  | mk store out =>
    rw [hout] at hload
    obtain ⟨rows, done, hquads, hpre, hrows, hall⟩ := hload.rows
    have hdone : load.2.left out (store.quads.length - h.store.quads.length) = done := by
      unfold Document.left
      cases out with
      | ok stats => exact (hall rfl).symm
      | error e =>
        dsimp only at hquads ⊢
        rw [hquads, List.length_append, Nat.add_sub_cancel_left, hrows.length_eq]
        exact (List.prefix_iff_eq_take.mp hpre).symm
    dsimp only at hquads ⊢
    rw [hdone]
    have hnew : ∀ o ∈ done.map fun q => (⟨h.docs, h.store.bnode_doc_tag, q⟩ : Origin ox),
        o.doc = h.docs ∧ o.tag = h.store.bnode_doc_tag := by
      intro o ho
      obtain ⟨q, _, rfl⟩ := List.mem_map.mp ho
      exact ⟨rfl, rfl⟩
    refine ⟨hload.named, ?_, ?_, ?_⟩
    · rw [hquads]
      refine List.rel_append (k.rows.imp fun _ _ hrow => hrow.grows hload.grows) ?_
      rw [List.forall₂_map_right_iff]
      exact hrows
    · intro o ho
      rcases List.mem_append.mp ho with ho | ho
      · exact Nat.lt_succ_of_lt (k.docs o ho)
      · rw [(hnew o ho).1]
        exact Nat.lt_succ_self _
    · intro o ho o' ho' heq
      rcases List.mem_append.mp ho with ho | ho
      · rcases List.mem_append.mp ho' with ho' | ho'
        · exact k.tags o ho o' ho' heq
        · have := k.docs o ho
          rw [(hnew o' ho').1] at heq
          omega
      · rcases List.mem_append.mp ho' with ho' | ho'
        · have := k.docs o' ho'
          rw [(hnew o ho).1] at heq
          omega
        · rw [(hnew o ho).2, (hnew o' ho').2]

theorem run_kept (hprint : ox.Printable) (loads : List (Env × Document ox)) :
    (run fst scopes loads).Kept scopes := by
  induction loads using List.reverseRecOn with
  | nil => exact start_kept
  | append_singleton loads load ih =>
    unfold run
    rw [List.foldl_concat]
    exact ih.step hprint load

/-! ## The stored labels -/

theorem written_origin {p : Place} {o : Origin ox} {b : BlankNode ox}
    (hp : h.written p = some (o, b)) : o ∈ h.origins := by
  unfold written at hp
  obtain ⟨o', ho, hp⟩ := Option.bind_eq_some_iff.mp hp
  obtain ⟨t, _, hp⟩ := Option.bind_eq_some_iff.mp hp
  obtain ⟨b', _, hp⟩ := Option.map_eq_some_iff.mp hp
  cases hp
  exact List.mem_of_getElem? ho

/-- A place shows the blank node under its stored label. A whole blank node has the id of
that label. -/
theorem Kept.shows (k : h.Kept scopes) {p : Place} {o : Origin ox} {b : BlankNode ox}
    (hp : h.written p = some (o, b)) :
    h.stored p = some (stored_blank scopes o.tag p.path b) ∧
      (p.path = [] →
        h.id_of p = h.store.dictionary.forward[blank_key (scope_blank_node scopes o.tag b)]?) := by
  unfold written at hp
  obtain ⟨o', ho, hp⟩ := Option.bind_eq_some_iff.mp hp
  obtain ⟨t, ht, hp⟩ := Option.bind_eq_some_iff.mp hp
  obtain ⟨b', hb, hp⟩ := Option.map_eq_some_iff.mp hp
  cases hp
  obtain ⟨hlt, hget⟩ := List.getElem?_eq_some_iff.mp ho
  have hlt' : p.row < h.store.quads.length := by rwa [k.rows.length_eq]
  have hrow := k.rows.get hlt' hlt
  rw [List.get_eq_getElem, List.get_eq_getElem, hget] at hrow
  -- The graph of a row has a name only when it is a blank node.
  have hnames : Names h.store.dictionary (id_at h.store.quads[p.row] p.position)
      (scope_term scopes o.tag t) := by
    cases hpos : p.position with
    | Subject =>
      rw [hpos] at ht
      cases ht
      exact hrow.subject
    | Object =>
      rw [hpos] at ht
      cases ht
      exact hrow.object
    | Graph =>
      rw [hpos] at ht
      unfold term_at at ht
      dsimp only at ht
      split at ht
      · cases ht
      · cases ht
        cases hb
      · rename_i b₀ hgraph
        cases ht
        exact hrow.graph b₀ hgraph
  have hid : h.id_of p = some (id_at h.store.quads[p.row] p.position) := by
    unfold id_of
    rw [List.getElem?_eq_getElem hlt']
    rfl
  obtain ⟨u, hu, hblank⟩ := hnames.stored
  refine ⟨?_, ?_⟩
  · unfold stored
    rw [hid, Option.bind_some, hu]
    dsimp only
    rw [hblank, blank_at_scoped o.tag hb]
  · intro hpath
    rw [hpath] at hb
    have hwhole := blank_at_nil hb
    rw [hid]
    refine (hnames.blank (scope_blank_node scopes o.tag b) ?_).symm
    rw [hwhole]
    rfl

theorem Kept.same_iff (k : h.Kept scopes) {p p' : Place} {o o' : Origin ox} {b b' : BlankNode ox}
    (hp : h.written p = some (o, b)) (hp' : h.written p' = some (o', b')) :
    h.Same p p' ↔
      stored_blank scopes o.tag p.path b = stored_blank scopes o'.tag p'.path b' := by
  obtain ⟨hstored, hid⟩ := k.shows hp
  obtain ⟨hstored', hid'⟩ := k.shows hp'
  unfold Same
  rw [hstored, hstored']
  refine ⟨?_, ?_⟩
  · intro hsame
    obtain ⟨c, hc, hc', _⟩ := hsame
    exact Option.some.inj (hc.trans hc'.symm)
  · intro heq
    refine ⟨_, rfl, by rw [heq], ?_⟩
    intro hpath hpath'
    unfold stored_blank at heq
    rw [if_pos hpath, if_pos hpath'] at heq
    rw [hid hpath, hid' hpath', heq]

theorem stored_blank_top {tag tag' : UInt64} {path path' : List Side} {b b' : BlankNode ox}
    (h : path = []) (h' : path' = []) :
    stored_blank scopes tag path b = stored_blank scopes tag' path' b' ↔ tag = tag' ∧ b = b' := by
  unfold stored_blank
  rw [if_pos h, if_pos h']
  refine ⟨?_, ?_⟩
  · intro heq
    obtain ⟨htag, hlabel⟩ := scoped_inj (congrArg BlankNode.as_str heq)
    exact ⟨htag, BlankNode.ext hlabel⟩
  · intro heq
    rw [heq.1, heq.2]

theorem stored_blank_inside {tag tag' : UInt64} {path path' : List Side} {b b' : BlankNode ox}
    (h : path ≠ []) (h' : path' ≠ []) :
    stored_blank scopes tag path b = stored_blank scopes tag' path' b' ↔ b = b' := by
  unfold stored_blank
  rw [if_neg h, if_neg h']

theorem stored_blank_across {tag tag' : UInt64} {path path' : List Side} {b b' : BlankNode ox}
    (h : path ≠ []) (h' : path' = []) :
    stored_blank scopes tag path b = stored_blank scopes tag' path' b' ↔
      b.as_str = scope_blank_node_label tag' b'.as_str := by
  unfold stored_blank
  rw [if_neg h, if_pos h', BlankNode.ext_iff]
  rfl

theorem Same.symm {p p' : Place} (hs : h.Same p p') : h.Same p' p := by
  obtain ⟨b, hb, hb', hid⟩ := hs
  exact ⟨b, hb', hb, fun hp hp' => (hid hp' hp).symm⟩

theorem Kept.apart (k : h.Kept scopes) (hsound : h.Sound) : h.Apart where
  tags p p' o o' b hp hp' hpath hpath' htag := by
    have hsame := (k.same_iff hp hp').mpr ((stored_blank_top hpath hpath').mpr ⟨htag, rfl⟩)
    exact ((hsound p p' o o' b b hp hp').mp hsame).1
  inside p p' o o' b hp hp' hpath hpath' := by
    have hsame := (k.same_iff hp hp').mpr ((stored_blank_inside hpath hpath').mpr rfl)
    exact ((hsound p p' o o' b b hp hp').mp hsame).1
  across p p' o o' b hp hp' hpath hpath' hdoc := by
    have hsame := (hsound p p' o o' b b hp hp').mpr ⟨hdoc, rfl⟩
    have hlabel := (stored_blank_across hpath hpath').mp ((k.same_iff hp hp').mp hsame)
    exact scoped_ne _ _ hlabel.symm
  renamed p p' o o' b b' hp hp' hpath hpath' hlabel := by
    have hsame := (k.same_iff hp hp').mpr ((stored_blank_across hpath hpath').mpr hlabel)
    obtain ⟨_, rfl⟩ := (hsound p p' o o' b b' hp hp').mp hsame
    exact scoped_ne _ _ hlabel.symm

theorem Apart.across_iff (ha : h.Apart) (k : h.Kept scopes) {p p' : Place} {o o' : Origin ox}
    {b b' : BlankNode ox} (hp : h.written p = some (o, b)) (hp' : h.written p' = some (o', b'))
    (hpath : p.path ≠ []) (hpath' : p'.path = []) :
    ¬ h.Same p p' ∧ ¬ (o.doc = o'.doc ∧ b = b') := by
  refine ⟨?_, ?_⟩
  · intro hsame
    exact ha.renamed p p' o o' b b' hp hp' hpath hpath'
      ((stored_blank_across hpath hpath').mp ((k.same_iff hp hp').mp hsame))
  · intro heq
    obtain ⟨hdoc, rfl⟩ := heq
    exact ha.across p p' o o' b hp hp' hpath hpath' hdoc

theorem Kept.sound (k : h.Kept scopes) (ha : h.Apart) : h.Sound := by
  intro p p' o o' b b' hp hp'
  by_cases hpath : p.path = []
  · by_cases hpath' : p'.path = []
    · rw [k.same_iff hp hp', stored_blank_top hpath hpath']
      refine ⟨?_, ?_⟩
      · intro heq
        obtain ⟨htag, rfl⟩ := heq
        exact ⟨ha.tags p p' o o' b hp hp' hpath hpath' htag, rfl⟩
      · intro heq
        exact ⟨k.tags o (written_origin hp) o' (written_origin hp') heq.1, heq.2⟩
    · obtain ⟨hnot, hnot'⟩ := ha.across_iff k hp' hp hpath' hpath
      refine ⟨fun hs => absurd hs.symm hnot, ?_⟩
      intro heq
      exact absurd ⟨heq.1.symm, heq.2.symm⟩ hnot'
  · by_cases hpath' : p'.path = []
    · obtain ⟨hnot, hnot'⟩ := ha.across_iff k hp hp' hpath hpath'
      exact ⟨fun hs => absurd hs hnot, fun heq => absurd heq hnot'⟩
    · rw [k.same_iff hp hp', stored_blank_inside hpath hpath']
      refine ⟨?_, fun heq => heq.2⟩
      intro heq
      subst heq
      exact ⟨ha.inside p p' o o' b hp hp' hpath hpath', rfl⟩

/-- Blank nodes are kept apart by document and label exactly when the labels of the documents
are apart. -/
theorem scoping_exact (hprint : ox.Printable) (scopes : Scopable ox)
    (loads : List (Env × Document ox)) :
    (run fst scopes loads).Sound ↔ (run fst scopes loads).Apart :=
  ⟨(run_kept hprint loads).apart, (run_kept hprint loads).sound⟩

theorem plain_scopable : Scopable .plain := by
  intro tag label h
  have hall : (as_bytes label).all (32 ≤ ·.toNat) = true :=
    List.all_eq_true.mpr fun b hb => decide_eq_true (Oxrdf.plain_printable label (Or.inr h) b hb)
  have hdigits : (as_bytes (toString tag.toNat)).all (32 ≤ ·.toNat) = true := by
    rw [List.all_eq_true]
    intro b hb
    exact decide_eq_true (Nat.le_trans (by decide) (digit_bytes _ b hb).1)
  right
  unfold Oxrdf.plain
  dsimp only
  rw [scoped_bytes]
  simp only [List.all_append, List.all_cons, hall, hdigits]
  rfl

def ex_s : NamedNode .plain := ⟨"ex:s", Oxrdf.held_ex_s⟩

def ex_p : NamedNode .plain := ⟨"ex:p", Oxrdf.held_ex_p⟩

def node_b : BlankNode .plain := ⟨"b", Oxrdf.held_b⟩

def one_row : Env := ⟨1, fun _ _ => .ok ()⟩

/-- A blank node for a subject, in a stream and in a slice. -/
def subject_loads : List (Env × Document .plain) :=
  [(one_row, .ntriples_reader [.ok ⟨.BlankNode node_b, ex_p, .NamedNode ex_s⟩]),
    (one_row, .turtle_slice (.ok [[.ok ⟨.BlankNode node_b, ex_p, .NamedNode ex_s⟩]]) id)]

theorem subject_loads_scoped :
    (run .rows plain_scopable subject_loads).Sound ↔ (run .rows plain_scopable subject_loads).Apart :=
  scoping_exact Oxrdf.plain_printable plain_scopable subject_loads

/-- A blank node in a triple term, in two documents. -/
def quoting_loads : List (Env × Document .plain) :=
  [(one_row, .ntriples_reader
      [.ok ⟨.NamedNode ex_s, ex_p, .Triple (.BlankNode node_b) ex_p (.NamedNode ex_s)⟩]),
    (one_row, .nquads_reader
      [.ok ⟨.NamedNode ex_s, ex_p, .Triple (.BlankNode node_b) ex_p (.NamedNode ex_s),
        .DefaultGraph⟩])]

/-- The blank nodes of the two documents are one in the store. -/
theorem quoted_nodes_conflated : ¬ (run .rows plain_scopable quoting_loads).Sound := by
  intro hsound
  have hfirst : ((run .rows plain_scopable quoting_loads).written ⟨0, .Object, [.Subject]⟩).map
      (fun w => (w.1.doc, w.2.as_str)) = some (0, "b") := by decide +kernel
  have hsecond : ((run .rows plain_scopable quoting_loads).written ⟨1, .Object, [.Subject]⟩).map
      (fun w => (w.1.doc, w.2.as_str)) = some (1, "b") := by decide +kernel
  obtain ⟨⟨o, b⟩, hw, ho⟩ := Option.map_eq_some_iff.mp hfirst
  obtain ⟨⟨o', b'⟩, hw', ho'⟩ := Option.map_eq_some_iff.mp hsecond
  simp only [Prod.mk.injEq] at ho ho'
  have hb : b = b' := BlankNode.ext (ho.2.trans ho'.2.symm)
  subst hb
  have hdoc := ((run_kept Oxrdf.plain_printable quoting_loads).apart hsound).inside _ _ o o' b hw hw'
    (by decide) (by decide)
  rw [ho.1, ho'.1] at hdoc
  cases hdoc

end History

end horndb.storage.loader
