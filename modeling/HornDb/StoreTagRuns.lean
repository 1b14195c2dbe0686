-- Runs of document loads, snapshots, flushes, checkpoints and crashes, and when the tag of the
-- next document is one that no scoped blank node carries.
import HornDb.StoreTags

open HornDb.Lib HornDb.Lib.Wire HornDb.Lib.Effects
open horndb.storage.loader (Scopable scope_blank_node_label scope_blank_node scope_term scoped_inj)
open horndb.storage.loader.History (plain_scopable ex_s ex_p node_b)

namespace horndb.storage.Tags

open Dictionary

variable {ox : Oxrdf} {fst : FstLib}

/-! ## Runs -/

/-- A term that a parser yields. Renamed or not, it is a term in memory. -/
structure Parsed (scopes : Scopable ox) where
  term : Term ox
  fits : ∀ tag, (encode_term (scope_term scopes tag term)).length < 2 ^ 64

/-- A snapshot file whose terms, decoded, are terms in memory. -/
structure MemFile (ox : Oxrdf) where
  file : snapshot.Snapshot
  fits : ∀ bytes ∈ file.terms, ∀ t, decode_term ox bytes = .ok t → (encode_term t).length < 2 ^ 64

/-- An operation on a store. A load takes a tag and then interns its terms, renamed, between
the steps of other loads; `doc` counts the tags that the store handed out. A snapshot is read
into the store or into a fresh one; a flushed dictionary is opened as a store without a log;
a kill leaves the first bytes of the log, and its directory is opened again. -/
inductive Op {ox : Oxrdf} (scopes : Scopable ox) where
  | next_bnode_doc_tag
  | load_term (doc : Nat) (t : Parsed scopes)
  | insert_quad_batch (quads : List RawQuad) (elapsed : Nat)
  | apply_quad_ids (dels adds : List RawQuad) (elapsed : Nat)
  | retract_triples (triples : List (Term ox × Term ox × Term ox)) (elapsed : Nat)
  | export_snapshot
  | import_snapshot_into (file : MemFile ox) (elapsed : Nat → Nat)
  | import_snapshot (file : MemFile ox)
  | flush_and_reopen
  | open_empty (policy : SyncPolicy)
  | checkpoint
  | kill (bytes : Nat) (policy : SyncPolicy)

/-- The store of a run, and the tags that it handed out since it was opened. -/
structure History (ox : Oxrdf) (fst : FstLib) where
  store : Store ox fst
  docs : List UInt64

namespace History

variable {scopes : Scopable ox}

def start : History ox fst := ⟨.in_memory, []⟩

/-- The history after a write, which leaves the store as it was when it fails. -/
def wrote {α : Type} (h : History ox fst) : Outcome (Store ox fst × α) → History ox fst
  | .ok out => { h with store := out.1 }
  | .error _ => h

/-- The history of a store just opened, when it opens. -/
def opened (out : Outcome (Store ox fst)) : Option (History ox fst) :=
  match out with
  | .ok store => some ⟨store, []⟩
  | .error _ => none

/-- One operation. There is no history when a store does not open. -/
def step (h : History ox fst) : Op scopes → Option (History ox fst)
  | .next_bnode_doc_tag =>
    let (tag, store) := h.store.next_bnode_doc_tag
    some { store, docs := h.docs ++ [tag] }
  | .load_term doc t =>
    match h.docs[doc]? with
    | some tag => some { h with store := (h.store.intern (scope_term scopes tag t.term)).1 }
    | none => some h
  | .insert_quad_batch quads elapsed => some (h.wrote (h.store.insert_quad_batch quads elapsed))
  | .apply_quad_ids dels adds elapsed => some (h.wrote (h.store.apply_quad_ids dels adds elapsed))
  | .retract_triples triples elapsed => some (h.wrote (h.store.retract_triples triples elapsed))
  | .export_snapshot => some h
  | .import_snapshot_into file elapsed =>
    some { h with store := ((snapshot.import_snapshot_into file.file elapsed).run.run h.store).2 }
  | .import_snapshot file => opened (snapshot.import_snapshot file.file)
  | .flush_and_reopen =>
    opened ((h.store.flush_dictionary >>= Dictionary.open_file).map Store.with_dictionary)
  | .open_empty policy => opened (Store.open_with .empty policy)
  | .checkpoint =>
    match h.store.checkpoint with
    | .ok store => some { h with store }
    | .error _ => some h
  | .kill bytes policy =>
    h.store.wal.bind fun log =>
      opened (Store.open_with { log.dir with wal := log.file.take bytes } policy)

variable (fst) in
def run (ops : List (Op scopes)) : Option (History ox fst) := ops.foldlM step start

/-- No term in the dictionary carries the tag of the next document. -/
def Sound (h : History ox fst) : Prop :=
  ∀ idx t tag, h.store.dictionary.resolve idx = some t → Carries t tag →
    tag ≠ h.store.next_bnode_doc_tag.1

/-- No label in the file is scoped by a tag from `n` on. -/
def FileBelow (file : MemFile ox) (n : Nat) : Prop :=
  ∀ bytes ∈ file.file.terms, ∀ t, decode_term ox bytes = .ok t → ∀ tag, Carries t tag →
    tag.toNat < n

/-- The counter does not run over, a document has no label inside of its triple terms that is
scoped by a tag from the counter on, and neither has a snapshot anywhere. -/
def Clean (h : History ox fst) : Op scopes → Prop
  | .next_bnode_doc_tag => h.store.bnode_doc_tag.toNat + 1 < 2 ^ 64
  | .load_term _ t => ∀ path b tag label, path ≠ [] → t.term.blank_at path = some b →
      b.as_str = scope_blank_node_label tag label → tag.toNat < h.store.bnode_doc_tag.toNat
  | .import_snapshot_into file _ => FileBelow file h.store.bnode_doc_tag.toNat
  | .import_snapshot file => FileBelow file 0
  | _ => True

variable (fst) in
/-- Every operation of the run is made on a store where it is `Clean`. -/
def Cleans (ops : List (Op scopes)) : Prop :=
  ∀ pre op, pre ++ [op] <+: ops → ∀ h, run fst pre = some h → h.Clean op

/-! ## What a run keeps -/

structure Kept (h : History ox fst) : Prop where
  sane : Sane h.store
  docs : ∀ tag ∈ h.docs, tag.toNat < h.store.bnode_doc_tag.toNat

variable {h h' : History ox fst}

theorem Kept.sound (k : Kept h) : h.Sound := by
  intro idx t tag ht htag heq
  have hlt := (k.sane.tagged.resolve ht).tags tag htag
  rw [heq] at hlt
  exact Nat.lt_irrefl _ hlt

theorem start_kept : Kept (start : History ox fst) := ⟨in_memory_sane, nofun⟩

theorem opened_kept {out : Outcome (Store ox fst)} (hsane : ∀ store, out = .ok store → Sane store)
    (hout : opened out = some h) : Kept h := by
  unfold opened at hout
  split at hout
  · rename_i store
    cases hout
    exact ⟨hsane store rfl, nofun⟩
  · cases hout

/-- Only the label of a blank node on its own is renamed. -/
theorem scoped_below {tag : UInt64} {n : Nat} {t : Term ox} (htag : tag.toNat < n)
    (hinner : ∀ path b tag' label, path ≠ [] → t.blank_at path = some b →
      b.as_str = scope_blank_node_label tag' label → tag'.toNat < n)
    {tag' : UInt64} (hcarries : Carries (scope_term scopes tag t) tag') : tag'.toNat < n := by
  obtain ⟨path, b, label, hb, hlabel⟩ := hcarries
  cases t with
  | BlankNode b' =>
    change (if path = [] then some (scope_blank_node scopes tag b') else none) = some b at hb
    split at hb
    · cases hb
      rw [← (scoped_inj hlabel).1]
      exact htag
    · cases hb
  | Triple s p o =>
    refine hinner path b tag' label (fun hnil => ?_) hb hlabel
    rw [hnil] at hb
    cases hb
  | NamedNode m => cases hb
  | Literal lit => cases hb

theorem Kept.write {α : Type} (k : Kept h) {kind : Kind} {dels adds : List RawQuad} {elapsed : Nat}
    {write : MemoryTier → MemoryTier × α}
    (hkind : kind = .Insert ∨ kind = .Apply ∨ kind = .Checkpoint) :
    Kept (h.wrote (h.store.logged kind dels adds elapsed write)) := by
  cases hout : h.store.logged kind dels adds elapsed write with
  | error e => exact k
  | ok out =>
    obtain ⟨hsane, htag⟩ := k.sane.logged hkind hout
    exact ⟨hsane, fun tag hmem => htag ▸ k.docs tag hmem⟩

theorem Kept.next_tag (k : Kept h) (hclean : h.store.bnode_doc_tag.toNat + 1 < 2 ^ 64) :
    Kept ⟨h.store.next_bnode_doc_tag.2, h.docs ++ [h.store.next_bnode_doc_tag.1]⟩ := by
  have hnext : h.store.next_bnode_doc_tag.2.bnode_doc_tag.toNat =
      h.store.bnode_doc_tag.toNat + 1 := by
    show (h.store.bnode_doc_tag + 1).toNat = _
    rw [UInt64.toNat_add]
    exact Nat.mod_eq_of_lt hclean
  refine ⟨⟨?_, k.sane.durable⟩, fun tag htag => ?_⟩
  · rw [hnext]
    exact k.sane.tagged.mono (Nat.le_succ _)
  · rw [hnext]
    rcases List.mem_append.mp htag with htag | htag
    · exact Nat.lt_succ_of_lt (k.docs tag htag)
    · rw [List.mem_singleton.mp htag]
      exact Nat.lt_succ_self _

theorem Kept.import_into (k : Kept h) {file : MemFile ox}
    (hfile : FileBelow file h.store.bnode_doc_tag.toNat) (elapsed : Nat → Nat) :
    Kept { h with
      store := ((snapshot.import_snapshot_into file.file elapsed).run.run h.store).2 } := by
  have hbelow : ∀ bytes ∈ file.file.terms, ∀ t, decode_term ox bytes = .ok t →
      Below h.store.bnode_doc_tag.toNat t := fun bytes hbytes t ht =>
    ⟨file.fits bytes hbytes t ht, hfile bytes hbytes t ht⟩
  have hat := import_snapshot_into_at hbelow elapsed h.store ⟨k.sane, rfl⟩
  generalize (snapshot.import_snapshot_into file.file elapsed).run.run h.store = r at hat ⊢
  obtain ⟨out, store⟩ := r
  have hstore : At h.store.bnode_doc_tag store := by cases out <;> exact hat
  exact ⟨hstore.1, fun tag htag => hstore.2 ▸ k.docs tag htag⟩

theorem import_sane {file : MemFile ox} (hfile : FileBelow file 0) {store : Store ox fst}
    (hout : snapshot.import_snapshot file.file = .ok store) : Sane store := by
  have k := Kept.import_into (start_kept : Kept (start : History ox fst)) hfile fun _ => 0
  unfold snapshot.import_snapshot at hout
  split at hout
  · rename_i store' heq
    cases hout
    have hsane := k.sane
    change Sane ((snapshot.import_snapshot_into file.file fun _ => 0).run.run .in_memory).2 at hsane
    rwa [heq] at hsane
  · cases hout

theorem empty_durable (policy : SyncPolicy) (store : Store ox fst)
    (hout : Store.open_with .empty policy = .ok store) : Sane store := by
  have hdurable : Durable ox (⟨⟨0, [], policy, false⟩, none, 0, .empty⟩ : StoreWal fst) :=
    ⟨⟨[], .nil, nofun⟩, .new, rfl, new_tagged⟩
  exact hdurable.reopened (List.prefix_refl _) hout

theorem Kept.step (k : Kept h) {op : Op scopes} (hclean : h.Clean op)
    (hstep : h.step op = some h') : Kept h' := by
  cases op with
  | next_bnode_doc_tag =>
    cases hstep
    exact k.next_tag hclean
  | load_term doc t =>
    unfold History.step at hstep
    dsimp only at hstep
    split at hstep
    · rename_i tag htag
      cases hstep
      exact ⟨k.sane.intern ⟨t.fits tag, fun _ =>
        scoped_below (k.docs tag (List.mem_of_getElem? htag)) hclean⟩, k.docs⟩
    · cases hstep
      exact k
  | insert_quad_batch quads elapsed =>
    cases hstep
    exact k.write (Or.inl rfl)
  | apply_quad_ids dels adds elapsed =>
    cases hstep
    exact k.write (Or.inr (Or.inl rfl))
  | retract_triples triples elapsed =>
    cases hstep
    exact k.write (Or.inr (Or.inl rfl))
  | export_snapshot =>
    cases hstep
    exact k
  | import_snapshot_into file elapsed =>
    cases hstep
    exact k.import_into hclean elapsed
  | import_snapshot file => exact opened_kept (fun _ hout => import_sane hclean hout) hstep
  | flush_and_reopen =>
    refine opened_kept (fun store hout => ?_) hstep
    cases hflush : h.store.flush_dictionary with
    | error e =>
      rw [hflush] at hout
      cases hout
    | ok b =>
      obtain ⟨hopen, htagged⟩ := k.sane.flush hflush
      rw [hflush, ok_bind, hopen] at hout
      cases hout
      exact with_dictionary_sane htagged
  | open_empty policy => exact opened_kept (empty_durable policy) hstep
  | checkpoint =>
    unfold History.step at hstep
    dsimp only at hstep
    split at hstep
    · rename_i store hout
      cases hstep
      obtain ⟨hsane, htag⟩ := k.sane.checkpoint hout
      exact ⟨hsane, fun tag hmem => htag ▸ k.docs tag hmem⟩
    · cases hstep
      exact k
  | kill bytes policy =>
    obtain ⟨log, hlog, hout⟩ := Option.bind_eq_some_iff.mp hstep
    exact opened_kept (fun _ hopen =>
      (k.sane.durable log hlog).reopened (List.take_prefix _ _) hopen) hout

theorem run_snoc (ops : List (Op scopes)) (op : Op scopes) :
    run fst (ops ++ [op]) = (run fst ops).bind fun h => h.step op := by
  unfold run
  rw [List.foldlM_append]
  congr 1
  funext h
  exact bind_pure (h.step op)

theorem run_kept (ops : List (Op scopes)) (hcleans : Cleans fst ops) {h : History ox fst}
    (hrun : run fst ops = some h) : Kept h := by
  induction ops using List.reverseRecOn generalizing h with
  | nil =>
    cases hrun
    exact start_kept
  | append_singleton ops op ih =>
    rw [run_snoc] at hrun
    obtain ⟨h₀, hbefore, hstep⟩ := Option.bind_eq_some_iff.mp hrun
    have k := ih (fun pre op' hpre => hcleans pre op' (hpre.trans (List.prefix_append _ _))) hbefore
    exact k.step (hcleans ops op (List.prefix_refl _) h₀ hbefore) hstep

/-- In every run of clean operations, the tag of the next document is a new one. -/
theorem tags_fresh (ops : List (Op scopes)) (hcleans : Cleans fst ops) (h : History ox fst)
    (hrun : run fst ops = some h) : h.Sound :=
  (run_kept ops hcleans hrun).sound

/-! ## A snapshot of another store -/

def parsed_p : Parsed plain_scopable := ⟨.NamedNode ex_p, fun _ =>
  (by decide : (encode_term (.NamedNode ex_p)).length < 2 ^ 64)⟩

def parsed_s : Parsed plain_scopable := ⟨.NamedNode ex_s, fun _ =>
  (by decide : (encode_term (.NamedNode ex_s)).length < 2 ^ 64)⟩

def parsed_b : Parsed plain_scopable where
  term := .BlankNode node_b
  fits tag := by
    have hdigits := length_as_bytes_toString (by decide : 0 < 20)
      (Nat.lt_trans tag.toNat_lt (by decide : 2 ^ 64 < 10 ^ 20))
    show (as_bytes (scope_blank_node_label tag "b")).length + 1 < 2 ^ 64
    have hb : (as_bytes "b").length = 1 := by decide
    rw [loader.scoped_bytes]
    simp only [List.length_append, List.length_cons, List.length_nil, hb]
    omega

/-- A document with the triple `ex:p ex:s _:b`. -/
def one_triple : List (Op plain_scopable) :=
  [.next_bnode_doc_tag, .load_term 0 parsed_p, .load_term 0 parsed_s, .load_term 0 parsed_b,
    .insert_quad_batch [⟨0, 1, 2, 3⟩] 0]

/-- The blank node of the document, as it is stored. -/
def stored_b : Term .plain := scope_term plain_scopable 0 (.BlankNode node_b)

def stored_terms : List (Term .plain) := [.NamedNode ex_p, .NamedNode ex_s, stored_b]

theorem stored_terms_fit (t : Term .plain) (ht : t ∈ stored_terms) :
    (encode_term t).length < 2 ^ 64 := by
  simp only [stored_terms, List.mem_cons, List.not_mem_nil, or_false] at ht
  rcases ht with rfl | rfl | rfl
  · exact parsed_p.fits 0
  · exact parsed_s.fits 0
  · exact parsed_b.fits 0

theorem stored_terms_checked (t : Term .plain) (ht : t ∈ stored_terms) : t.Checked := by
  simp only [stored_terms, List.mem_cons, List.not_mem_nil, or_false] at ht
  rcases ht with rfl | rfl | rfl
  · exact Oxrdf.plain_ex_p
  · exact Oxrdf.plain_ex_s
  · exact (by decide : Oxrdf.plain.label (scope_blank_node_label 0 "b") = .ok ())

def one_triple_snapshot : MemFile .plain where
  file := ⟨stored_terms.map encode_term, [⟨0, [⟨1, 2, 3⟩]⟩]⟩
  fits bytes hbytes t ht := by
    obtain ⟨u, hu, rfl⟩ := List.mem_map.mp hbytes
    have hfit := stored_terms_fit u hu
    rw [((decode_term_encode u hfit).back ht).2]
    exact hfit

theorem one_triple_exported : ∃ h, run .rows one_triple = some h ∧
    snapshot.export_snapshot h.store = .ok one_triple_snapshot.file := by
  obtain ⟨h, hrun, hraw, hentries⟩ : ∃ h, run .rows one_triple = some h ∧
      snapshot.raw_graphs h.store = [(0, [(1, 2, 3)])] ∧
      [1, 2, 3].mapM (snapshot.encode_id h.store.dictionary) =
        .ok ([1, 2, 3].zip (stored_terms.map encode_term)) := ⟨_, rfl, rfl, rfl⟩
  refine ⟨h, hrun, ?_⟩
  have hids : snapshot.used_ids [(0, [(1, 2, 3)])] = [1, 2, 3] := by decide
  have hsorted : ([1, 2, 3].zip (stored_terms.map encode_term)).Pairwise
      fun a b => decide (a.2 ≤ b.2) := by decide
  have hblock : [((0 : GraphId), [((1 : TermId), (2 : TermId), (3 : TermId))])].mapM
      (snapshot.graph_block ([1, 2, 3].zip (stored_terms.map encode_term))) =
        .ok [⟨0, [⟨1, 2, 3⟩]⟩] := rfl
  unfold snapshot.export_snapshot
  dsimp only
  rw [hraw, hids, hentries, ok_bind, List.mergeSort_of_pairwise hsorted, hblock, ok_bind]
  unfold snapshot.write_snapshot
  simp only [List.map_cons, List.map_nil, List.mergeSort_singleton]
  rfl

theorem snapshot_terms_decoded :
    one_triple_snapshot.file.terms.mapM (decode_term .plain) = .ok stored_terms := by
  have hdecode : ∀ t ∈ stored_terms, decode_term .plain (encode_term t) = .ok t := fun t ht =>
    (decode_term_encode t (stored_terms_fit t ht)).eq (stored_terms_checked t ht)
  show (stored_terms.map encode_term).mapM (decode_term .plain) = .ok stored_terms
  unfold stored_terms at hdecode ⊢
  simp only [List.map_cons, List.map_nil, List.mapM_cons, List.mapM_nil]
  rw [hdecode (.NamedNode ex_p) (by simp), hdecode (.NamedNode ex_s) (by simp),
    hdecode stored_b (by simp)]
  rfl

/-- A fresh store that read the snapshot gives the tag of the node to its first document. -/
theorem imported_tag_reused : ∃ before h, run .rows one_triple = some before ∧
    snapshot.export_snapshot before.store = .ok one_triple_snapshot.file ∧
    run .rows (one_triple ++ [.import_snapshot one_triple_snapshot]) = some h ∧
    h.store.dictionary.resolve 3 = some stored_b ∧ h.store.next_bnode_doc_tag.1 = 0 ∧
    ¬ h.Sound := by
  obtain ⟨before, hrun, hexport⟩ := one_triple_exported
  obtain ⟨store, himport, hb, htag⟩ : ∃ store : Store .plain .rows,
      snapshot.import_snapshot one_triple_snapshot.file = .ok store ∧
      store.dictionary.resolve 3 = some stored_b ∧ store.next_bnode_doc_tag.1 = 0 := by
    unfold snapshot.import_snapshot snapshot.import_snapshot_into
    rw [snapshot_terms_decoded]
    exact ⟨_, rfl, rfl, rfl⟩
  refine ⟨before, ⟨store, []⟩, hrun, hexport, ?_, hb, htag, fun hsound => ?_⟩
  · rw [run_snoc, hrun, Option.bind_some]
    show opened (snapshot.import_snapshot one_triple_snapshot.file) = _
    rw [himport]
    rfl
  · exact hsound 3 stored_b 0 hb ⟨[], _, "b", rfl, rfl⟩ htag.symm

theorem one_triple_cleans : Cleans .rows one_triple := by
  intro pre op hpre h hrun
  unfold one_triple at hpre
  cases pre with
  | nil =>
    rw [(List.cons_prefix_cons.mp hpre).1]
    cases hrun
    exact (by decide : (0 : UInt64).toNat + 1 < 2 ^ 64)
  | cons _ rest =>
    have hop := (List.cons_prefix_cons.mp hpre).2.subset
      (List.mem_append_right _ (List.mem_singleton_self op))
    simp only [List.mem_cons, List.not_mem_nil, or_false] at hop
    rcases hop with rfl | rfl | rfl | rfl
    · intro path b _ _ _ hb _
      cases hb
    · intro path b _ _ _ hb _
      cases hb
    · intro path b _ _ hpath hb _
      rw [show parsed_b.term.blank_at path = none from if_neg hpath] at hb
      cases hb
    · trivial

/-- The next document after the triple has a tag of its own. -/
theorem one_triple_fresh : ∃ h, run .rows one_triple = some h ∧
    h.store.dictionary.resolve 3 = some stored_b ∧ h.Sound :=
  ⟨_, rfl, rfl, tags_fresh one_triple one_triple_cleans _ rfl⟩

end History

end horndb.storage.Tags
