-- The tags of the documents over the runs of a store: the counter is above the tag of every
-- scoped blank node, on each way that a term takes into a dictionary but one.
import HornDb.Snapshot
import HornDb.StoreReplay
import HornDb.LoaderRuns

open HornDb.Lib HornDb.Lib.Wire HornDb.Lib.Effects
open horndb.storage.loader (Scopable scope_blank_node_label scope_blank_node scope_term scoped_inj)

namespace horndb.storage.Tags

open Dictionary

variable {ox : Oxrdf} {fst : FstLib}

/-! ## Tags of a term -/

/-- A blank node of the term, at any depth, has a label that is scoped by the tag. -/
def Carries (t : Term ox) (tag : UInt64) : Prop :=
  ∃ path b label, t.blank_at path = some b ∧ b.as_str = scope_blank_node_label tag label

/-- Every tag in the term is below `n`. The term is one in memory: its bytes can be counted. -/
structure Below (n : Nat) (t : Term ox) : Prop where
  fits : (encode_term t).length < 2 ^ 64
  tags : ∀ tag, Carries t tag → tag.toNat < n

theorem Below.mono {n n' : Nat} {t : Term ox} (h : Below n t) (hn : n ≤ n') : Below n' t :=
  ⟨h.fits, fun tag htag => Nat.lt_of_lt_of_le (h.tags tag htag) hn⟩

/-- Every tag in the dictionary is below `n`. -/
structure Tagged (d : Dictionary ox fst) (n : Nat) : Prop where
  terms : ∀ t, some t ∈ d.terms → Below n t
  base : ∀ b, d.base = some b → ∀ idx bytes, b.term_bytes idx = some bytes →
    ∃ t : Term ox, bytes = encode_term t ∧ Below n t

variable {d d' : Dictionary ox fst} {n n' : Nat} {t : Term ox}

theorem Tagged.mono (h : Tagged d n) (hn : n ≤ n') : Tagged d n' := by
  refine ⟨fun t ht => (h.terms t ht).mono hn, fun b hb idx bytes hbytes => ?_⟩
  obtain ⟨t, rfl, ht⟩ := h.base b hb idx bytes hbytes
  exact ⟨t, rfl, ht.mono hn⟩

theorem new_tagged : Tagged (new : Dictionary ox fst) n := ⟨nofun, nofun⟩

theorem Tagged.resolve (h : Tagged d n) {idx : Nat} (ht : d.resolve idx = some t) : Below n t := by
  unfold Dictionary.resolve at ht
  split at ht
  · cases ht
  · split at ht
    · split at ht
      · cases ht
      · split at ht
        · rename_i bytes hbytes
          obtain ⟨b, hb, hbytes⟩ := Option.bind_eq_some_iff.mp hbytes
          obtain ⟨u, rfl, hu⟩ := h.base b hb idx bytes hbytes
          obtain ⟨-, hread⟩ | ⟨-, e, hread⟩ := decode_term_encode u hu.fits
          · rw [hread] at ht
            cases ht
            exact hu
          · rw [hread] at ht
            cases ht
        · cases ht
    · exact h.terms t (List.mem_of_getElem? (Option.join_eq_some_iff.mp ht))

/-- A term more among the terms, and slots that are emptied. -/
theorem Tagged.put (h : Tagged d n) (hbase : d'.base = d.base)
    (hterms : ∀ u, some u ∈ d'.terms → some u ∈ d.terms ∨ Below n u) : Tagged d' n :=
  ⟨fun u hu => (hterms u hu).elim (h.terms u) id, fun b hb => h.base b (hbase ▸ hb)⟩

theorem Tagged.intern (h : Tagged d n) (ht : Below n t) : Tagged (d.intern t).1 n := by
  have hsnoc : ∀ u, some u ∈ d.terms ++ [some t] → some u ∈ d.terms ∨ Below n u := by
    intro u hu
    rcases List.mem_append.mp hu with hu | hu
    · exact Or.inl hu
    · rw [List.mem_singleton, Option.some.injEq] at hu
      exact Or.inr (hu ▸ ht)
  unfold Dictionary.intern
  split
  · exact h
  · split
    · exact h.put rfl fun _ => Or.inl
    · dsimp only
      split
      · exact h.put rfl fun _ => Or.inl
      · split
        · exact h.put rfl fun _ => Or.inl
        · unfold intern_miss
          split
          · exact h.put rfl fun _ => Or.inl
          · dsimp only
            split
            · exact h.put rfl fun _ => Or.inl
            · exact h.put rfl hsnoc

theorem mem_free_stale {key : Bytes} {o : Term ox} (h : some o ∈ (d.free_stale key).1) :
    some o ∈ d.terms := by
  unfold free_stale at h
  split at h
  · dsimp only at h
    split at h
    · rcases List.mem_or_eq_of_mem_set h with h | h
      · exact h
      · cases h
    · exact h
  · exact h

theorem Tagged.replay_append (h : Tagged d n) (ht : Below n t) (index : Nat) :
    Tagged (d.replay_append index t).1 n := by
  unfold Dictionary.replay_append
  split
  · exact h
  · split
    · exact h.put rfl fun _ => Or.inl
    · dsimp only
      split
      · exact h.put rfl fun _ => Or.inl
      · split
        · exact h.put rfl fun _ => Or.inl
        · refine h.put rfl fun u hu => ?_
          rcases List.mem_append.mp hu with hu | hu
          · exact Or.inl (mem_free_stale hu)
          · rw [List.mem_singleton, Option.some.injEq] at hu
            exact Or.inr (hu ▸ ht)

theorem Tagged.replay_terms (ts : List (Term ox)) (hts : ∀ t ∈ ts, Below n t) {first : UInt64} :
    ∀ {d : Dictionary ox fst} (i : Nat), Tagged d n →
      (ts.zipIdx i).foldlM (Store.replay_term first) d = .ok d' → Tagged d' n := by
  induction ts with
  | nil =>
    intro d i h hrun
    cases hrun
    exact h
  | cons t ts ih =>
    intro d i h hrun
    rw [List.zipIdx_cons, List.foldlM_cons] at hrun
    obtain ⟨d₁, hfirst, hrest⟩ := bind_eq_ok hrun
    refine ih (fun u hu => hts u (List.mem_cons_of_mem _ hu)) (i + 1) ?_ hrest
    have hput := h.replay_append (hts t List.mem_cons_self) (first + UInt64.ofNat i).toNat
    unfold Store.replay_term at hfirst
    dsimp only at hfirst
    split at hfirst
    · rename_i d₂ heq
      cases hfirst
      rwa [heq] at hput
    · cases hfirst

/-! ## Flush -/

variable (ox) in
/-- A slot that is written to a base file. -/
def SlotBelow (n : Nat) (o : Outcome MappedBase.Slot) : Prop :=
  ∀ bytes id, o = .ok (some (bytes, id)) → ∃ t : Term ox, bytes = encode_term t ∧ Below n t

theorem Tagged.base_slot (h : Tagged d n) (idx : Nat) :
    SlotBelow ox n (d.base_slot idx) := by
  intro bytes id hslot
  unfold Dictionary.base_slot at hslot
  split at hslot
  · cases hslot
  · split at hslot
    · cases hslot
    · rename_i b hb
      obtain ⟨o, ho, hslot⟩ := bind_eq_ok hslot
      cases o with
      | none => cases hslot
      | some bytes' =>
        dsimp only at hslot
        split at hslot
        · cases hslot
          apply h.base b hb idx bytes
          unfold MappedBase.term_bytes
          rw [ho]
        · cases hslot

theorem Tagged.overlay_slot (h : Tagged d n) {e : Option (Term ox) × Nat}
    (he : e ∈ d.terms.zipIdx) (base_len : Nat) :
    SlotBelow ox n (Dictionary.overlay_slot base_len e) := by
  intro bytes id hslot
  obtain ⟨o, i⟩ := e
  have hmem := List.fst_mem_of_mem_zipIdx he
  cases o with
  | none => cases hslot
  | some t =>
    cases hslot
    exact ⟨t, rfl, h.terms t hmem⟩

/-- A dictionary opened on what was flushed has no other tags, and the base has the counter. -/
theorem Tagged.flush (h : Tagged d n) {tag : Nat} {b : MappedBase fst}
    (hflush : d.flush tag = .ok b) :
    open_file b = .ok (with_base (some b) : Dictionary ox fst) ∧
      Tagged (with_base (some b) : Dictionary ox fst) n ∧ b.next_bnode_doc_tag = tag := by
  obtain ⟨vals, hslots, hfile, htag⟩ := MappedBase.write_file hflush
  refine ⟨?_, ⟨nofun, fun b' hb' idx bytes hbytes => ?_⟩, htag⟩
  · rw [open_file, hfile.opens]
    rfl
  · cases hb'
    have hidx : idx ≠ 0 ∧ idx ≤ vals.length := by
      by_contra hout
      have hpast : idx = 0 ∨ b.slots < idx := by
        rw [hfile.slots]
        omega
      unfold MappedBase.term_bytes MappedBase.slot at hbytes
      rw [if_pos hpast] at hbytes
      cases hbytes
    obtain ⟨i, rfl⟩ := Nat.exists_eq_succ_of_ne_zero hidx.1
    have hlt : i < vals.length := hidx.2
    have hget : vals[i]? = some vals[i] := List.getElem?_eq_getElem hlt
    have hmem : (.ok vals[i] : Outcome MappedBase.Slot) ∈ vals.map .ok :=
      List.mem_map_of_mem (List.getElem_mem hlt)
    unfold MappedBase.term_bytes at hbytes
    rw [Nat.succ_eq_add_one, hfile.slot_eq hget] at hbytes
    dsimp only at hbytes
    have hbelow : SlotBelow ox n (.ok vals[i]) := by
      rw [← hslots, List.mem_append, List.mem_map, List.mem_map] at hmem
      rcases hmem with ⟨j, _, hj⟩ | ⟨e, he, hj⟩
      · rw [← hj]
        exact h.base_slot (j + 1)
      · rw [← hj]
        exact h.overlay_slot he d.base_len
    cases hv : vals[i] with
    | none =>
      rw [hv] at hbytes
      cases hbytes
    | some e =>
      obtain ⟨bytes', id⟩ := e
      rw [hv] at hbytes hbelow
      obtain ⟨t, rfl, ht⟩ := hbelow _ _ rfl
      refine ⟨t, ?_, ht⟩
      have hne := encode_term_ne_nil t
      cases hcode : encode_term t with
      | nil => exact absurd hcode hne
      | cons byte code =>
        rw [hcode] at hbytes
        cases hbytes
        rfl

/-! ## Stores -/

/-- The terms that a record spells out are below its counter. -/
def EntryBelow : Entry ox → Prop
  | .Batch rec => ∀ t ∈ rec.dict, Below rec.bnode_doc_tag.toNat t
  | _ => True

variable (ox) in
/-- What the log and the base of its generation bring back is below the counters in them. -/
structure Durable (log : StoreWal fst) : Prop where
  framed : ∃ entries : List (Entry ox), Wal.Framed entries log.file ∧ ∀ e ∈ entries, EntryBelow e
  base : ∃ d : Dictionary ox fst, Store.open_dictionary log.dir = .ok d ∧
    Tagged d (UInt64.ofNat d.base_bnode_doc_tag).toNat

/-- Every tag in a store, and in what is recovered of it, is below the counter. -/
structure Sane (store : Store ox fst) : Prop where
  tagged : Tagged store.dictionary store.bnode_doc_tag.toNat
  durable : ∀ log, store.wal = some log → Durable ox log

variable {store store' : Store ox fst}

theorem in_memory_sane : Sane (Store.in_memory : Store ox fst) := ⟨new_tagged, nofun⟩

theorem Sane.intern (h : Sane store) (ht : Below store.bnode_doc_tag.toNat t) :
    Sane (store.intern t).1 := ⟨h.tagged.intern ht, h.durable⟩

/-- A dictionary without a log. -/
theorem with_dictionary_sane (h : Tagged d (UInt64.ofNat d.base_bnode_doc_tag).toNat) :
    Sane (Store.with_dictionary d) := ⟨h, nofun⟩

theorem Sane.logged {α : Type} (h : Sane store) {kind : Kind} {dels adds : List RawQuad}
    {elapsed : Nat} {write : MemoryTier → MemoryTier × α} {out : Store ox fst × α}
    (hkind : kind = .Insert ∨ kind = .Apply ∨ kind = .Checkpoint)
    (hout : store.logged kind dels adds elapsed write = .ok out) :
    Sane out.1 ∧ out.1.bnode_doc_tag = store.bnode_doc_tag := by
  obtain ⟨hdict, htag, hwal⟩ := Store.logged_spec hout
  refine ⟨⟨by rw [hdict, htag]; exact h.tagged, fun log₁ hlog₁ => ?_⟩, htag⟩
  rcases hwal with hsame | ⟨log, log', hlog, hwal, hrec⟩
  · exact h.durable log₁ (hsame ▸ hlog₁)
  · rw [hwal] at hlog₁
    cases hlog₁
    obtain ⟨rec, happended, hterms, hrectag, _⟩ := Store.append_record_spec hkind hrec
    obtain ⟨⟨entries, hframed, hbelow⟩, hbase⟩ := h.durable log hlog
    refine ⟨⟨_, happended.entries hframed, fun e he => ?_⟩, ?_⟩
    · rcases List.mem_append.mp he with he | he
      · exact hbelow e he
      · rw [List.mem_singleton] at he
        subst he
        intro t ht
        rw [hrectag]
        apply h.tagged.terms t
        have hmem : some t ∈ rec.dict.map some := List.mem_map_of_mem ht
        rw [← (terms_after_ok hterms).2] at hmem
        exact List.mem_of_mem_drop hmem
    · unfold StoreWal.dir at hbase ⊢
      rwa [happended.gen, happended.dict]

theorem ofNat_toNat (tag : UInt64) : (UInt64.ofNat tag.toNat).toNat = tag.toNat := by
  rw [UInt64.ofNat_toNat]

theorem Sane.flush (h : Sane store) {b : MappedBase fst} (hb : store.flush_dictionary = .ok b) :
    open_file b = .ok (with_base (some b) : Dictionary ox fst) ∧
      Tagged (with_base (some b) : Dictionary ox fst)
        (UInt64.ofNat (with_base (some b) : Dictionary ox fst).base_bnode_doc_tag).toNat := by
  obtain ⟨hopen, htagged, htag⟩ := h.tagged.flush hb
  refine ⟨hopen, ?_⟩
  show Tagged _ (UInt64.ofNat b.next_bnode_doc_tag).toNat
  rwa [htag, ofNat_toNat]

theorem Sane.checkpoint (h : Sane store) (hout : store.checkpoint = .ok store') :
    Sane store' ∧ store'.bnode_doc_tag = store.bnode_doc_tag := by
  obtain ⟨log, gen, dict, file, more, _, hgen, hdict, hframed, hmore, rfl⟩ :=
    Store.checkpoint_spec hout
  refine ⟨⟨h.tagged, fun log' hlog' => ?_⟩, rfl⟩
  cases hlog'
  obtain ⟨hopen, htagged⟩ := h.flush hdict
  refine ⟨⟨_, hframed, fun e he => ?_⟩, with_base (some dict), ?_, htagged⟩
  · obtain ⟨rec, hrec, rfl⟩ := List.mem_map.mp he
    intro t ht
    rw [(hmore rec hrec).1] at ht
    cases ht
  · unfold Store.open_dictionary StoreWal.dir Store.commit_generation
    dsimp only
    rw [if_neg hgen]
    exact hopen

/-! ## Replay -/

theorem toNat_max (a b : UInt64) : a.toNat ≤ (max a b).toNat ∧ b.toNat ≤ (max a b).toNat := by
  change a.toNat ≤ (if a ≤ b then b else a).toNat ∧ b.toNat ≤ (if a ≤ b then b else a).toNat
  split
  · rename_i hle
    exact ⟨UInt64.le_iff_toNat_le.mp hle, Nat.le_refl _⟩
  · rename_i hlt
    rw [UInt64.le_iff_toNat_le] at hlt
    exact ⟨Nat.le_refl _, by omega⟩

theorem replay_tagged {st st' : Store.Replay ox fst} {e : Entry ox} (he : EntryBelow e)
    (h : Tagged st.store.dictionary st.store.bnode_doc_tag.toNat)
    (hrun : Store.replay st e.record = .ok st') :
    Tagged st'.store.dictionary st'.store.bnode_doc_tag.toNat := by
  cases e with
  | Batch rec =>
    obtain ⟨d, hd, hrun⟩ := bind_eq_ok hrun
    obtain ⟨out, _, hrun⟩ := bind_eq_ok hrun
    cases hrun
    obtain ⟨hle, hle'⟩ := toNat_max st.store.bnode_doc_tag rec.bnode_doc_tag
    exact Tagged.replay_terms rec.dict (fun t ht => (he t ht).mono hle') 0 (h.mono hle) hd
  | Input rec =>
    cases hrun
    exact h
  | TickCommit version last_seq =>
    cases hrun
    exact h

theorem replay_all_tagged (entries : List (Entry ox)) (hentries : ∀ e ∈ entries, EntryBelow e) :
    ∀ {st st' : Store.Replay ox fst}, Tagged st.store.dictionary st.store.bnode_doc_tag.toNat →
      (entries.map Entry.record).foldlM Store.replay st = .ok st' →
        Tagged st'.store.dictionary st'.store.bnode_doc_tag.toNat := by
  induction entries with
  | nil =>
    intro st st' h hrun
    cases hrun
    exact h
  | cons e entries ih =>
    intro st st' h hrun
    rw [List.map_cons, List.foldlM_cons] at hrun
    obtain ⟨st₁, hfirst, hrest⟩ := bind_eq_ok hrun
    exact ih (fun e' he' => hentries e' (List.mem_cons_of_mem _ he'))
      (replay_tagged (hentries e List.mem_cons_self) h hfirst) hrest

theorem Durable.reopened {log : StoreWal fst} (h : Durable ox log) {cut : Bytes}
    (hcut : cut <+: log.file) {policy : SyncPolicy}
    (hopen : Store.open_with { log.dir with wal := cut } policy = .ok store) : Sane store := by
  obtain ⟨⟨entries, hframed, hbelow⟩, d, hd, htagged⟩ := h
  obtain ⟨n, _, _, kept, d', st, hkept, hd', hrun, rfl⟩ := Store.open_cut hframed hcut hopen
  have hsame : Store.open_dictionary ⟨log.dir.gen, log.dir.dict, cut⟩ = .ok d := hd
  rw [hsame] at hd'
  cases hd'
  have hentries : ∀ e ∈ entries.take n, EntryBelow e := fun e he => hbelow e (List.mem_of_mem_take he)
  refine ⟨replay_all_tagged _ hentries htagged hrun, fun log' hlog' => ?_⟩
  cases hlog'
  exact ⟨⟨_, hkept, hentries⟩, d, hd, htagged⟩

/-! ## Import -/

/-- What an import keeps: the tags are below the counter, which stays. -/
def At (tag : UInt64) (store : Store ox fst) : Prop := Sane store ∧ store.bnode_doc_tag = tag

variable {tag : UInt64}

theorem intern_at (ht : Below tag.toNat t) :
    Ensures (At tag) (StoreM.intern t : StoreM ox fst TermId) (fun _ => At tag) (At tag) := by
  intro store hs
  have hsane : Sane (store.intern t).1 := hs.1.intern (hs.2 ▸ ht)
  unfold StoreM.intern
  dsimp only [ExceptT.run, ExceptT.mk, StateT.run]
  cases (store.intern t).2 with
  | ok id => exact ⟨hsane, hs.2⟩
  | error e => exact ⟨hsane, hs.2⟩

theorem lift_at {α : Type} (out : Outcome α) :
    Ensures (At tag) (StoreM.lift out : StoreM ox fst α) (fun a s => out = .ok a ∧ At tag s)
      (At tag) := by
  intro store hs
  unfold StoreM.lift
  dsimp only [ExceptT.run, ExceptT.mk, StateT.run]
  cases out with
  | ok a => exact ⟨rfl, hs⟩
  | error e => exact hs

theorem write_at {α : Type} {kind : Kind} {dels adds : List RawQuad} {elapsed : Nat}
    {write : MemoryTier → MemoryTier × α}
    (hkind : kind = .Insert ∨ kind = .Apply ∨ kind = .Checkpoint) :
    Ensures (At tag) (StoreM.write fun store => store.logged kind dels adds elapsed write :
      StoreM ox fst α) (fun _ => At tag) (At tag) := by
  intro store hs
  unfold StoreM.write
  dsimp only [ExceptT.run, ExceptT.mk, StateT.run]
  cases hout : store.logged kind dels adds elapsed write with
  | ok out =>
    obtain ⟨hsane, htag⟩ := hs.1.logged hkind hout
    exact ⟨hsane, htag.trans hs.2⟩
  | error e => exact hs

theorem intern_quad_at {row : TermQuad ox} (hs : Below tag.toNat row.2.1)
    (hp : Below tag.toNat row.2.2.1) (ho : Below tag.toNat row.2.2.2) :
    Ensures (At tag) (intern_quad row : StoreM ox fst RawQuad) (fun _ => At tag) (At tag) :=
  .bind (intern_at hs) fun _ => .bind (intern_at hp) fun _ => .bind (intern_at ho) fun _ =>
    .pure fun _ hs => hs

theorem resolve_local_below {terms : List (Term ox)} (hterms : ∀ t ∈ terms, Below n t) {id : UInt64}
    {position : String} (h : snapshot.resolve_local terms id position = .ok t) : Below n t := by
  unfold snapshot.resolve_local at h
  split at h
  · rename_i u hu
    cases h
    exact hterms _ (List.mem_of_getElem? hu)
  · cases h

theorem resolve_triple_below {terms : List (Term ox)} (hterms : ∀ t ∈ terms, Below n t)
    {l : snapshot.LocalTriple} {row : Term ox × Term ox × Term ox}
    (h : snapshot.resolve_triple terms l = .ok row) :
    Below n row.1 ∧ Below n row.2.1 ∧ Below n row.2.2 := by
  obtain ⟨s, hs, h⟩ := bind_eq_ok h
  obtain ⟨p, hp, h⟩ := bind_eq_ok h
  obtain ⟨o, ho, h⟩ := bind_eq_ok h
  cases h
  exact ⟨resolve_local_below hterms hs, resolve_local_below hterms hp,
    resolve_local_below hterms ho⟩

/-- Each result of a list of calls is that of one of them. -/
theorem mem_mapM {α β : Type} {f : α → Outcome β} {l : List α} {out : List β}
    (h : l.mapM f = .ok out) {b : β} (hb : b ∈ out) : ∃ a ∈ l, f a = .ok b := by
  induction l generalizing out with
  | nil =>
    cases h
    cases hb
  | cons a l ih =>
    rw [List.mapM_cons] at h
    obtain ⟨b', hb', h⟩ := bind_eq_ok h
    obtain ⟨rest, hrest, h⟩ := bind_eq_ok h
    cases h
    rcases List.mem_cons.mp hb with rfl | hb
    · exact ⟨a, List.mem_cons_self, hb'⟩
    · obtain ⟨a', ha', hout⟩ := ih hrest hb
      exact ⟨a', List.mem_cons_of_mem _ ha', hout⟩

theorem import_block_at {terms : List (Term ox)} (hterms : ∀ t ∈ terms, Below tag.toNat t)
    (block : snapshot.GraphBlock) (elapsed : Nat) :
    Ensures (At tag) (snapshot.import_block terms block elapsed : StoreM ox fst Unit)
      (fun _ => At tag) (At tag) := by
  have hrows : ∀ (g : GraphId) (batch : List (Term ox × Term ox × Term ox)),
      block.triples.mapM (snapshot.resolve_triple terms) = .ok batch → ∀ row ∈ batch,
        Ensures (At tag) (intern_quad (g, row) : StoreM ox fst RawQuad) (fun _ => At tag)
          (At tag) := by
    intro g batch hbatch row hrow
    obtain ⟨l, _, hl⟩ := mem_mapM hbatch hrow
    obtain ⟨hs, hp, ho⟩ := resolve_triple_below hterms hl
    exact intern_quad_at hs hp ho
  unfold snapshot.import_block
  split
  · refine .bind (lift_at _) fun batch => .given fun hbatch => ?_
    unfold Store.insert_triples
    refine .bind (.mapM batch (hrows DEFAULT_GRAPH batch hbatch)) fun quads => ?_
    exact write_at (Or.inl rfl)
  · refine .bind (lift_at _) fun name => .given fun hname => ?_
    refine .bind (intern_at (resolve_local_below hterms hname)) fun g => ?_
    refine .bind (lift_at _) fun batch => .given fun hbatch => ?_
    refine .bind (Q := fun _ => At tag) ?_ fun _ => .pure fun _ hs => hs
    unfold Store.insert_quads
    refine .bind (Q := fun _ => At tag) ?_ fun _ => .pure fun _ hs => hs
    unfold Store.apply_quads
    refine .bind (Q := fun _ => At tag) (.get fun _ hs => hs) fun store => ?_
    refine .bind (.mapM _ fun row hrow => ?_) fun quads => write_at (Or.inr (Or.inl rfl))
    obtain ⟨t, ht, rfl⟩ := List.mem_map.mp hrow
    exact hrows g batch hbatch t ht

/-- A file with no tag from the counter on leaves the tags below the counter. -/
theorem import_snapshot_into_at {file : snapshot.Snapshot}
    (hfile : ∀ bytes ∈ file.terms, ∀ t, decode_term ox bytes = .ok t → Below tag.toNat t)
    (elapsed : Nat → Nat) :
    Ensures (At tag) (snapshot.import_snapshot_into file elapsed : StoreM ox fst Unit)
      (fun _ => At tag) (At tag) := by
  unfold snapshot.import_snapshot_into
  refine .bind (lift_at _) fun terms => .given fun hterms => ?_
  have hbelow : ∀ t ∈ terms, Below tag.toNat t := by
    intro t ht
    obtain ⟨bytes, hbytes, hdecode⟩ := mem_mapM hterms ht
    exact hfile bytes hbytes t hdecode
  exact .forM (I := fun _ => At tag) _ fun _ e _ => import_block_at hbelow e.1 _

end horndb.storage.Tags
