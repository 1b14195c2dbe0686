-- The circuit inputs over the runs of a durable store. An input names bare ids, so what it
-- says after a crash depends on whether the log had spelled out the terms of these ids.
import HornDb.StoreReplay
import HornDb.DictionaryRuns

open HornDb.Lib HornDb.Lib.Wire

namespace horndb.storage.Store

open Dictionary

variable {ox : Oxrdf} {fst : FstLib}

/-! ## Runs -/

/-- The ids that an input names. -/
def ids (rec : InputRecord) : List TermId :=
  [rec.triple.1.toNat, rec.triple.2.1.toNat, rec.triple.2.2.toNat]

/-- The ids of an input that have a term now, with their terms. -/
def denoted (d : Dictionary ox fst) (rec : InputRecord) : List (TermId × Term ox) :=
  (ids rec).filterMap fun id =>
    match d.lookup id with
    | .ok (some t) => some (id, t)
    | _ => none

/-- An operation on an open store. A kill leaves the first bytes of the log, and the directory
is opened again. -/
inductive Op (ox : Oxrdf) where
  | intern (t : MemTerm ox)
  | log_input (rec : InputRecord) (elapsed : Nat)
  | log_tick_commit (last_seq : UInt64) (elapsed : Nat)
  | insert_quad_batch (quads : List RawQuad) (elapsed : Nat)
  | apply_quad_ids (dels adds : List RawQuad) (elapsed : Nat)
  | retract_triples (triples : List (Term ox × Term ox × Term ox)) (elapsed : Nat)
  | checkpoint
  | take_recovered_inputs
  | kill (bytes : Nat) (policy : SyncPolicy)

/-- The store of a run, with the inputs of the current log and the terms that their ids had
when they were logged, the terms of all ids that recovered inputs named, and the ids that
were given to terms since the store was opened. -/
structure History (ox : Oxrdf) (fst : FstLib) where
  store : Store ox fst
  noted : List (InputRecord × List (TermId × Term ox))
  recalled : List (TermId × Term ox)
  issued : List (TermId × Term ox)

namespace History

/-- The history after a write, which leaves the store as it was when it fails. -/
def wrote {α : Type} (h : History ox fst) : Outcome (Store ox fst × α) → History ox fst
  | .ok out => { h with store := out.1 }
  | .error _ => h

/-- What was recovered before stays recovered when nothing of the log is lost. -/
def reopened (h : History ox fst) (lost : Bool) (store : Store ox fst) : History ox fst :=
  let noted := h.noted.take store.take_recovered_inputs.1.inputs.length
  { store
    noted
    recalled := (if lost then [] else h.recalled) ++ noted.flatMap Prod.snd
    issued := [] }

/-- One operation. There is no history after a kill that left a log which does not open. -/
def step (h : History ox fst) : Op ox → Option (History ox fst)
  | .intern t =>
    match h.store.intern t.term with
    | (store, .ok id) => some { h with store, issued := h.issued ++ [(id, t.term)] }
    | (store, .error _) => some { h with store }
  | .log_input rec elapsed =>
    match h.store.log_input rec elapsed with
    | .ok store =>
      some { h with store, noted := h.noted ++ [(rec, denoted h.store.dictionary rec)] }
    | .error _ => some h
  | .log_tick_commit last_seq elapsed =>
    some (h.wrote ((h.store.log_tick_commit last_seq elapsed).map fun store => (store, ())))
  | .insert_quad_batch quads elapsed => some (h.wrote (h.store.insert_quad_batch quads elapsed))
  | .apply_quad_ids dels adds elapsed => some (h.wrote (h.store.apply_quad_ids dels adds elapsed))
  | .retract_triples triples elapsed => some (h.wrote (h.store.retract_triples triples elapsed))
  | .checkpoint =>
    match h.store.checkpoint with
    | .ok store => some { h with store, noted := [] }
    | .error _ => some h
  | .take_recovered_inputs => some { h with store := h.store.take_recovered_inputs.2 }
  | .kill bytes policy =>
    h.store.wal.bind fun log =>
      match open_with { log.dir with wal := log.file.take bytes } policy with
      | .ok store => some (h.reopened (decide (bytes < log.file.length)) store)
      | .error _ => none

variable (fst) in
/-- A run from an empty directory. -/
def run (policy : SyncPolicy) (ops : List (Op ox)) : Option (History ox fst) :=
  match open_with .empty policy with
  | .ok store => ops.foldlM step ⟨store, [], [], []⟩
  | .error _ => none

/-- The inputs that the store hands out are the first ones of its log. Each id that a
recovered input named has its term still, and no term that was interned since was given it. -/
structure Sound (h : History ox fst) : Prop where
  returned : h.store.take_recovered_inputs.1.inputs <+: h.noted.map Prod.fst
  resolved : ∀ id t, (id, t) ∈ h.recalled → h.store.dictionary.lookup id = .ok (some t)
  kept : ∀ id t u, (id, t) ∈ h.recalled → (id, u) ∈ h.issued → u = t

/-- An input names terms that the log has spelled out, the side tables have an id for the text of
an interned term, and the checks of the library pass every text of the terms that a checkpoint
writes to the base. -/
def Spelled (h : History ox fst) : Op ox → Prop
  | .intern t => try_inline_int t.term = none → h.store.dictionary.tables.Room t.term
  | .log_input rec _ => ∀ x ∈ denoted h.store.dictionary rec,
      TermId.kind x.1 = some .InlineInt ∨
        ∃ log, h.store.wal = some log ∧ TermId.payload x.1 ≤ log.logged_len
  | .checkpoint => ∀ idx t, h.store.dictionary.resolve idx = some t → t.Checked
  | _ => True

variable (fst) in
/-- Every operation of the run is made on a store where it is `Spelled`. -/
def Spells (policy : SyncPolicy) (ops : List (Op ox)) : Prop :=
  ∀ pre op, pre ++ [op] <+: ops → ∀ h, run fst policy pre = some h → h.Spelled op

/-! ## What a run keeps -/

/-- The id is the value of a small integer, or it names a slot up to `n`, and its term is
`t`. -/
def Denotes (names : List (Term ox)) (n : Nat) (id : TermId) (t : Term ox) : Prop :=
  if TermId.kind id = some .InlineInt then
    ∃ v, TermId.as_inline_int id = some v ∧ integer_term ox v = .ok t
  else
    TermId.kind id ≠ none ∧ 0 < TermId.payload id ∧ TermId.payload id ≤ n ∧
      names[TermId.payload id - 1]? = some t

/-- An entry of the log, with the terms that its ids had when it was logged. -/
abbrev Note (ox : Oxrdf) := Entry ox × List (TermId × Term ox)

def noted_of (e : Note ox) : Option (InputRecord × List (TermId × Term ox)) :=
  e.1.input.map fun rec => (rec, e.2)

theorem map_noted (entries : List (Note ox)) :
    (entries.filterMap noted_of).map Prod.fst = (entries.map Prod.fst).filterMap Entry.input := by
  induction entries with
  | nil => rfl
  | cons e entries ih =>
    unfold noted_of at ih ⊢
    cases hin : e.1.input <;> simp [hin, ih]

/-- The inputs of the first entries are the first inputs. -/
theorem noted_take (entries : List (Note ox)) (n : Nat) :
    (entries.filterMap noted_of).take
      (((entries.take n).map Prod.fst).filterMap Entry.input).length =
        (entries.take n).filterMap noted_of := by
  rw [← map_noted, List.length_map]
  conv_lhs => rw [← List.take_append_drop n entries, List.filterMap_append]
  rw [List.take_append_drop, List.take_left]

/-- The dictionary indices that are spelled out in front of entry `p`. -/
def spelled (disk : List (Option (Term ox))) (entries : List (Note ox)) (p : Nat) : Nat :=
  disk.length + (((entries.map Prod.fst).take p).flatMap Entry.terms).length

/-- The live dictionary holds the terms `names` over the base `held`. The base on disk holds
the first of them, the log spells out the next ones, and its inputs name no others. -/
structure Kept (h : History ox fst) (log : StoreWal fst) (held disk : List (Option (Term ox)))
    (names : List (Term ox)) (entries : List (Note ox)) : Prop where
  open_log : h.store.wal = some log
  full : Full h.store.dictionary held names
  above : held.length ≤ disk.length
  base : ∃ d, open_dictionary log.dir = .ok d ∧ Full d disk (names.take disk.length) ∧
    d.tables = .new
  framed : Wal.Framed (entries.map Prod.fst) log.file
  logged : names.take log.logged_len =
    names.take disk.length ++ (entries.map Prod.fst).flatMap Entry.terms
  logged_le : log.logged_len ≤ names.length
  disk_le : disk.length ≤ log.logged_len
  noted : h.noted = entries.filterMap noted_of
  recovered : log.recovered.inputs <+: h.noted.map Prod.fst
  named : ∀ (p : Nat) (e : Note ox), entries[p]? = some e →
    ∀ x ∈ e.2, Denotes names (spelled disk entries p) x.1 x.2
  recalled : ∀ x ∈ h.recalled, Denotes names log.logged_len x.1 x.2
  issued : ∀ x ∈ h.issued, try_inline_int x.2 = some x.1 ∨
    ∃ i : Nat, names[i]? = some x.2 ∧ x.1 = slot_id x.2 i

variable {h : History ox fst} {log : StoreWal fst} {held disk : List (Option (Term ox))}
  {names : List (Term ox)} {entries : List (Note ox)}

theorem Denotes.mono {names' : List (Term ox)} {n n' : Nat} {id : TermId} {t : Term ox}
    (hd : Denotes names n id t) (hn : n ≤ n') (hnames : names.take n <+: names') :
    Denotes names' n' id t := by
  unfold Denotes at hd ⊢
  split at hd
  · rename_i hinline
    rwa [if_pos hinline]
  · rename_i hinline
    rw [if_neg hinline]
    obtain ⟨hkind, hpos, hle, hget⟩ := hd
    refine ⟨hkind, hpos, Nat.le_trans hle hn, ?_⟩
    obtain ⟨rest, rfl⟩ := hnames
    obtain ⟨hlt, _⟩ := List.getElem?_eq_some_iff.mp hget
    rw [List.getElem?_append_left (by rw [List.length_take]; omega),
      List.getElem?_take_of_lt (by omega), hget]

theorem lookup_of_slotted {d : Dictionary ox fst} {id : TermId}
    (hne : TermId.kind id ≠ some .InlineInt) (hkind : TermId.kind id ≠ none) :
    d.lookup id = .ok (d.resolve (TermId.payload id)) := by
  unfold Dictionary.lookup
  cases h : TermId.kind id with
  | none => exact absurd h hkind
  | some kind =>
    cases kind with
    | InlineInt => exact absurd h hne
    | _ => rfl

/-- A lookup finds just what the id denotes. -/
theorem denotes_iff {d : Dictionary ox fst} (hfull : Full d held names) {id : TermId}
    {t : Term ox} : d.lookup id = .ok (some t) ↔ Denotes names names.length id t := by
  unfold Denotes
  split
  · rename_i hkind
    unfold Dictionary.lookup
    rw [hkind]
    dsimp only
    cases hv : TermId.as_inline_int id with
    | none => simp
    | some v =>
      cases ht : integer_term ox v with
      | error e => simp [ht, Except.map]
      | ok u => simp [ht, Except.map]
  · rename_i hne
    by_cases hkind : TermId.kind id = none
    · unfold Dictionary.lookup
      simp [hkind]
    · rw [lookup_of_slotted hne hkind, hfull.holds.resolve_eq]
      split
      · rename_i hzero
        simp [hzero]
      · rename_i hzero
        rw [Except.ok.injEq, Option.join_eq_some_iff, hfull.slot]
        refine ⟨fun hget => ?_, fun hget => hget.2.2.2⟩
        obtain ⟨hlt, _⟩ := List.getElem?_eq_some_iff.mp hget
        exact ⟨hkind, Nat.pos_of_ne_zero hzero, by omega, hget⟩

/-- An id is given only to the term that it denotes. -/
theorem Denotes.only (hfull : Full h.store.dictionary held names) {n : Nat} {id : TermId}
    {t u : Term ox} (hd : Denotes names n id t)
    (hu : try_inline_int u = some id ∨ ∃ i : Nat, names[i]? = some u ∧ id = slot_id u i) :
    u = t := by
  unfold Denotes at hd
  rcases hu with hu | ⟨i, hi, rfl⟩
  · obtain ⟨v, rfl, hv⟩ := try_inline_int_eq hu
    rw [if_pos (TermId.kind_inline_int v)] at hd
    obtain ⟨w, hw, ht⟩ := hd
    rw [TermId.as_inline_int_inline_int] at hw
    cases hw
    rw [hv] at ht
    exact Except.ok.inj ht
  · have hlt : i + 1 < MAX_DICT_INDEX := hfull.holds.index_lt ((hfull.slot i u).mpr hi)
    have hne : TermId.kind (slot_id u i) ≠ some .InlineInt := by
      rw [kind_slot_id hlt]
      exact fun heq => kind_of_ne u (Option.some.inj heq)
    rw [if_neg hne, payload_slot_id hlt, Nat.add_sub_cancel, hi] at hd
    exact Option.some.inj hd.2.2.2

theorem Kept.sound (k : Kept h log held disk names entries) : h.Sound where
  returned := by
    unfold take_recovered_inputs
    rw [k.open_log]
    exact k.recovered
  resolved id t hx := (denotes_iff k.full).mpr ((k.recalled _ hx).mono k.logged_le
    (List.take_prefix _ _))
  kept id t u hx hu := (k.recalled _ hx).only k.full (k.issued _ hu)

/-- The log has carried just the terms that its records spell out. -/
theorem Kept.spelled_all (k : Kept h log held disk names entries) :
    spelled disk entries entries.length = log.logged_len := by
  have hlen := congrArg List.length k.logged
  have hdisk := Nat.le_trans k.disk_le k.logged_le
  rw [List.length_append, List.length_take, List.length_take, Nat.min_eq_left k.logged_le,
    Nat.min_eq_left hdisk] at hlen
  unfold spelled
  rw [List.take_of_length_le (by rw [List.length_map]), hlen]

/-! ## One operation -/

/-- More terms in the dictionary change nothing that is on disk. -/
theorem Kept.grow (k : Kept h log held disk names entries) (store : Store ox fst)
    (more : List (Term ox)) (issued : List (TermId × Term ox))
    (hwal : store.wal = h.store.wal) (hfull : Full store.dictionary held (names ++ more))
    (hissued : ∀ x ∈ issued, x ∈ h.issued ∨ try_inline_int x.2 = some x.1 ∨
      ∃ i : Nat, (names ++ more)[i]? = some x.2 ∧ x.1 = slot_id x.2 i) :
    Kept { h with store, issued } log held disk (names ++ more) entries := by
  have hdisk := Nat.le_trans k.disk_le k.logged_le
  have hnames : ∀ {n : Nat}, names.take n <+: names ++ more := fun {n} =>
    (List.take_prefix n names).trans (List.prefix_append _ _)
  refine ⟨hwal.trans k.open_log, hfull, k.above, ?_, k.framed, ?_, ?_, k.disk_le, k.noted,
    k.recovered, ?_, ?_, ?_⟩
  · rw [List.take_append_of_le_length hdisk]
    exact k.base
  · rw [List.take_append_of_le_length k.logged_le, List.take_append_of_le_length hdisk]
    exact k.logged
  · rw [List.length_append]
    exact Nat.le_trans k.logged_le (Nat.le_add_right _ _)
  · exact fun p e he x hx => (k.named p e he x hx).mono (Nat.le_refl _) hnames
  · exact fun x hx => (k.recalled x hx).mono (Nat.le_refl _) hnames
  · intro x hx
    rcases hissued x hx with hold | hnew
    · rcases k.issued x hold with hinline | ⟨i, hi, hid⟩
      · exact Or.inl hinline
      · obtain ⟨hlt, _⟩ := List.getElem?_eq_some_iff.mp hi
        exact Or.inr ⟨i, by rw [List.getElem?_append_left hlt, hi], hid⟩
    · exact hnew

/-- An entry is appended: it spells out the next terms, and its ids name terms that were
spelled out before. -/
theorem Kept.append (k : Kept h log held disk names entries) (store : Store ox fst)
    (log' : StoreWal fst) (e : Entry ox) (notes : List (TermId × Term ox))
    (happended : Appended log log' e)
    (hlen : log'.logged_len = log.logged_len + e.terms.length)
    (hterms : e.terms <+: names.drop log.logged_len)
    (hnotes : ∀ x ∈ notes, Denotes names log.logged_len x.1 x.2)
    (hdict : store.dictionary = h.store.dictionary) (hwal : store.wal = some log') :
    Kept { h with store, noted := h.noted ++ (noted_of (e, notes)).toList } log' held disk names
      (entries ++ [(e, notes)]) := by
  have hle := hterms.length_le
  have hlogged := k.logged_le
  rw [List.length_drop] at hle
  refine ⟨hwal, ?_, k.above, ?_, ?_, ?_, ?_, ?_, ?_, ?_, ?_, ?_, k.issued⟩
  · rw [hdict]
    exact k.full
  · obtain ⟨d, hd, hrest⟩ := k.base
    refine ⟨d, ?_, hrest⟩
    unfold StoreWal.dir at hd ⊢
    rw [happended.gen, happended.dict]
    exact hd
  · rw [List.map_append]
    exact happended.entries k.framed
  · rw [hlen, List.take_add, k.logged, List.map_append, List.flatMap_append, List.append_assoc,
      ← List.prefix_iff_eq_take.mp hterms]
    simp
  · rw [hlen]
    omega
  · rw [hlen]
    exact Nat.le_trans k.disk_le (Nat.le_add_right _ _)
  · rw [k.noted, List.filterMap_append]
    cases hn : noted_of (e, notes) <;> simp [hn]
  · rw [happended.recovered, List.map_append]
    exact k.recovered.trans (List.prefix_append _ _)
  · intro p e' he' x hx
    rcases Nat.lt_or_ge p entries.length with hp | hp
    · rw [List.getElem?_append_left hp] at he'
      have hsame : spelled disk (entries ++ [(e, notes)]) p = spelled disk entries p := by
        unfold spelled
        rw [List.map_append, List.take_append_of_le_length (by rw [List.length_map]; omega)]
      rw [hsame]
      exact k.named p e' he' x hx
    · rw [List.getElem?_append_right hp] at he'
      obtain ⟨hzero, rfl⟩ : p = entries.length ∧ e' = (e, notes) := by
        obtain ⟨hlt, heq⟩ := List.getElem?_eq_some_iff.mp he'
        rw [List.length_singleton] at hlt
        exact ⟨by omega, by simpa using heq.symm⟩
      have hsame : spelled disk (entries ++ [(e, notes)]) p = log.logged_len := by
        rw [← k.spelled_all, hzero]
        unfold spelled
        rw [List.map_append, List.take_append_of_le_length (by rw [List.length_map])]
      rw [hsame]
      exact hnotes x hx
  · intro x hx
    exact (k.recalled x hx).mono (by rw [hlen]; omega) (List.take_prefix _ _)

/-- A batch record spells out every term that no record spelled out before. -/
theorem Kept.write {α : Type} (k : Kept h log held disk names entries) {kind : Kind}
    {dels adds : List RawQuad} {elapsed : Nat} {write : MemoryTier → MemoryTier × α}
    (hkind : kind = .Insert ∨ kind = .Apply ∨ kind = .Checkpoint) :
    ∃ log' entries', Kept (h.wrote (h.store.logged kind dels adds elapsed write)) log' held disk
      names entries' := by
  cases hout : h.store.logged kind dels adds elapsed write with
  | error e => exact ⟨log, entries, k⟩
  | ok out =>
    obtain ⟨hdict, _, hwal⟩ := logged_spec hout
    rcases hwal with hsame | ⟨log₀, log', hlog, hwal, hrec⟩
    · refine ⟨log, entries, ?_⟩
      have hgrown := k.grow out.1 [] h.issued hsame
        (by rw [hdict, List.append_nil]; exact k.full) (fun x hx => Or.inl hx)
      rwa [List.append_nil] at hgrown
    · rw [k.open_log] at hlog
      cases hlog
      obtain ⟨rec, happended, hterms, _, hlen⟩ := append_record_spec hkind hrec
      obtain ⟨hbase, hdrop⟩ := terms_after_ok hterms
      rw [k.full.overlay, ← List.map_drop, List.drop_drop, Nat.add_sub_cancel' hbase] at hdrop
      have hall : names.drop log.logged_len = rec.dict :=
        List.map_injective_iff.mpr (Option.some_injective _) hdrop
      have happ := k.append out.1 log' (.Batch rec) [] happended hlen
        (by rw [hall]; exact List.prefix_refl _) (fun _ hx => nomatch hx) hdict hwal
      rw [show noted_of ((.Batch rec : Entry ox), []) = none from rfl, Option.toList_none,
        List.append_nil] at happ
      exact ⟨log', _, happ⟩

theorem Kept.log_input (k : Kept h log held disk names entries) {rec : InputRecord}
    {elapsed : Nat} {store : Store ox fst} (hspelled : h.Spelled (.log_input rec elapsed))
    (hout : h.store.log_input rec elapsed = .ok store) :
    ∃ log' entries', Kept
      { h with store, noted := h.noted ++ [(rec, denoted h.store.dictionary rec)] } log' held
        disk names entries' := by
  obtain ⟨log₀, hlog, hout⟩ := bind_eq_ok hout
  obtain ⟨file, hfile, hout⟩ := bind_eq_ok hout
  cases hout
  have hopen := wal_or_err_ok hlog
  rw [k.open_log] at hopen
  cases hopen
  obtain ⟨hfits, hframe⟩ := Wal.append_spec hfile
  refine ⟨_, _, k.append _ { log with toWal := file } (.Input rec)
    (denoted h.store.dictionary rec) ⟨⟨_, rfl, hfits, hframe⟩, append_gen hfile, rfl, rfl⟩ rfl
    List.nil_prefix (fun x hx => ?_) rfl rfl⟩
  obtain ⟨id, t⟩ := x
  have hlookup : h.store.dictionary.lookup id = .ok (some t) := by
    obtain ⟨id', _, hid⟩ := List.mem_filterMap.mp hx
    split at hid
    · rename_i hok
      cases hid
      exact hok
    · cases hid
  have hd := (denotes_iff k.full).mp hlookup
  unfold Denotes at hd ⊢
  split at hd
  · rename_i hinline
    rwa [if_pos hinline]
  · rename_i hinline
    rw [if_neg hinline]
    rcases hspelled _ hx with hinline' | ⟨log₁, hlog₁, hle⟩
    · exact absurd hinline' hinline
    · rw [k.open_log] at hlog₁
      cases hlog₁
      exact ⟨hd.1, hd.2.1, hle, hd.2.2.2⟩

theorem Kept.log_tick_commit (k : Kept h log held disk names entries) {last_seq : UInt64}
    {elapsed : Nat} {store : Store ox fst}
    (hout : h.store.log_tick_commit last_seq elapsed = .ok store) :
    ∃ log' entries', Kept { h with store } log' held disk names entries' := by
  obtain ⟨log₀, hlog, hout⟩ := bind_eq_ok hout
  obtain ⟨file, hfile, hout⟩ := bind_eq_ok hout
  cases hout
  have hopen := wal_or_err_ok hlog
  rw [k.open_log] at hopen
  cases hopen
  obtain ⟨hfits, hframe⟩ := Wal.append_spec hfile
  have hsync : file.sync.file = file.file ∧ file.sync.gen = file.gen := by
    unfold Wal.sync
    split <;> exact ⟨rfl, rfl⟩
  have happ := k.append { h.store with wal := some { log with toWal := file.sync } }
    { log with toWal := file.sync } (.TickCommit (.ofNat h.store.tier.version) last_seq) []
    ⟨⟨_, rfl, hfits, hsync.1.trans hframe⟩, hsync.2.trans (append_gen hfile), rfl, rfl⟩ rfl
    List.nil_prefix (fun _ hx => nomatch hx) rfl rfl
  rw [show noted_of ((.TickCommit (.ofNat h.store.tier.version) last_seq : Entry ox), []) = none
    from rfl, Option.toList_none, List.append_nil] at happ
  exact ⟨_, _, happ⟩

theorem Kept.checkpoint (k : Kept h log held disk names entries)
    (hc : ∀ idx t, h.store.dictionary.resolve idx = some t → t.Checked) {store : Store ox fst}
    (hout : h.store.checkpoint = .ok store) :
    ∃ log' disk' entries', Kept { h with store, noted := [] } log' held disk' names entries' := by
  obtain ⟨log₀, gen, dict, file, more, hlog, hgen, hdict, hframed, hmore, rfl⟩ :=
    checkpoint_spec hout
  rw [k.open_log] at hlog
  cases hlog
  obtain ⟨hopen, hholds, hrow⟩ := k.full.holds.flush (k.full.holds.row_checked hc) hdict
  have hslots : dict.slots = names.length := by
    have hlen := hholds.length_row
    rw [hrow, k.full.row, List.length_map] at hlen
    rw [hlen]
    exact (Nat.add_zero _).symm
  have hterms : (more.map Entry.Batch).flatMap Entry.terms = [] := by
    rw [List.flatMap_map]
    exact List.flatMap_eq_nil_iff.mpr fun rec hrec => (hmore rec hrec).1
  have hdisk : (h.store.dictionary.row held).length = names.length := by
    rw [k.full.row, List.length_map]
  have hfst : ((more.map Entry.Batch).map fun e => ((e, []) : Note ox)).map Prod.fst =
      more.map Entry.Batch := by simp
  refine ⟨_, h.store.dictionary.row held, (more.map Entry.Batch).map fun e => (e, []), rfl,
    k.full, ?_, ?_, ?_, ?_, ?_, ?_, ?_, List.nil_prefix, ?_, ?_, k.issued⟩
  · rw [hdisk]
    exact Nat.le_trans k.above (Nat.le_trans k.disk_le k.logged_le)
  · refine ⟨with_base (some dict), ?_, ?_, rfl⟩
    · unfold open_dictionary StoreWal.dir commit_generation
      dsimp only
      rw [if_neg hgen]
      exact hopen
    · rw [hdisk, List.take_length]
      exact ⟨hholds, hrow.trans k.full.row⟩
  · rw [hfst]
    exact hframed
  · rw [hfst, hterms, List.append_nil, hdisk]
    exact congrArg names.take hslots
  · exact Nat.le_of_eq hslots
  · rw [hdisk]
    exact Nat.le_of_eq hslots.symm
  · rw [List.filterMap_map, List.filterMap_map]
    exact (List.filterMap_eq_nil_iff.mpr fun _ _ => rfl).symm
  · intro p e he x hx
    obtain ⟨e', _, rfl⟩ := List.mem_map.mp (List.mem_of_getElem? he)
    cases hx
  · intro x hx
    exact (k.recalled x hx).mono (hslots ▸ k.logged_le) (List.take_prefix _ _)

theorem Kept.take_recovered (k : Kept h log held disk names entries) :
    ∃ log', Kept { h with store := h.store.take_recovered_inputs.2 } log' held disk names
      entries := by
  unfold take_recovered_inputs
  rw [k.open_log]
  exact ⟨_, rfl, k.full, k.above, k.base, k.framed, k.logged, k.logged_le, k.disk_le, k.noted,
    List.nil_prefix, k.named, k.recalled, k.issued⟩

/-- What is opened again holds the terms that the frames left of the log spell out. -/
theorem Kept.kill (k : Kept h log held disk names entries) (hprint : ox.Printable) {bytes : Nat}
    {policy : SyncPolicy} {store : Store ox fst}
    (hout : open_with { log.dir with wal := log.file.take bytes } policy = .ok store) :
    ∃ log' names' entries', Kept (h.reopened (decide (bytes < log.file.length)) store) log' disk
      disk names' entries' := by
  obtain ⟨n, hn, hall, kept, d, st, hframed, hd, hrun, rfl⟩ :=
    open_cut k.framed (List.take_prefix _ _) hout
  obtain ⟨d', hd', hbase, htables⟩ := k.base
  rw [show open_dictionary ⟨log.dir.gen, log.dir.dict, log.file.take bytes⟩ = .ok d' from hd'] at hd
  cases hd
  rw [← List.map_take] at hframed hrun
  rw [List.length_map] at hn hall
  have hlogged := k.logged
  rw [← List.take_append_drop n entries, List.map_append, List.flatMap_append,
    ← List.append_assoc] at hlogged
  generalize hts : ((entries.take n).map Prod.fst).flatMap Entry.terms = ts at hlogged
  have hpre : names.take disk.length ++ ts <+: names.take log.logged_len :=
    hlogged ▸ List.prefix_append _ _
  have hpre' : names.take disk.length ++ ts <+: names := hpre.trans (List.take_prefix _ _)
  have hdisk : disk.length ≤ names.length := Nat.le_trans k.disk_le k.logged_le
  -- The terms of the log stand in the overlay of the store that was killed.
  have hover : ∀ t ∈ ts, t ∈ names.drop h.store.dictionary.base_len := by
    intro t ht
    have hdrop : ts <+: names.drop disk.length := by
      rw [← List.prefix_append_right_inj (names.take disk.length), List.take_append_drop]
      exact hpre'
    have hle : h.store.dictionary.base_len ≤ disk.length := by
      rw [k.full.holds.base_len]
      exact k.above
    rw [← Nat.sub_add_cancel hle, Nat.add_comm, ← List.drop_drop] at hdrop
    exact List.mem_of_mem_drop (hdrop.subset ht)
  have hrec : Recovering st disk (names.take disk.length ++ ts)
      h.store.dictionary.tables (((entries.take n).map Prod.fst).filterMap Entry.input) := by
    have hstart : Recovering ⟨with_dictionary d, false, .empty⟩ disk (names.take disk.length)
        h.store.dictionary.tables [] := by
      refine ⟨hbase, ?_, rfl⟩
      show d.tables.Within _
      rw [htables]
      exact Tables.new_within _
    rw [← hts] at hover hpre' ⊢
    exact Recovering.replay_all hprint k.full.holds.tables _ (fun t ht => k.full.keyed (hover t ht))
      (fun t ht => (k.full.stored (List.mem_of_mem_drop (hover t ht))).fits) hstart
      (k.full.nodup.sublist hpre'.sublist) hrun
  have hlen : st.store.dictionary.len = (names.take disk.length ++ ts).length :=
    hrec.full.length.symm
  have htake : (names.take disk.length ++ ts).take disk.length = names.take disk.length := by
    rw [List.take_append_of_le_length (by rw [List.length_take]; omega),
      List.take_take, Nat.min_self]
  have hnoted : h.noted.take st.recovered.inputs.length = (entries.take n).filterMap noted_of := by
    rw [hrec.inputs, k.noted, noted_take]
  have hspelled : ∀ p ≤ n, spelled disk (entries.take n) p = spelled disk entries p := by
    intro p hp
    unfold spelled
    rw [List.map_take, List.take_take, Nat.min_eq_left hp]
  have hup : spelled disk entries n = (names.take disk.length ++ ts).length := by
    unfold spelled
    rw [← List.map_take, hts, List.length_append, List.length_take, Nat.min_eq_left hdisk]
  have hpast : names.take (names.take disk.length ++ ts).length = names.take disk.length ++ ts :=
    (List.prefix_iff_eq_take.mp hpre').symm
  have hnamed : ∀ (p : Nat) (e : Note ox), (entries.take n)[p]? = some e → ∀ x ∈ e.2,
      Denotes (names.take disk.length ++ ts) (spelled disk (entries.take n) p) x.1 x.2 ∧
        spelled disk (entries.take n) p ≤ (names.take disk.length ++ ts).length := by
    intro p e he x hx
    obtain ⟨hlt, _⟩ := List.getElem?_eq_some_iff.mp he
    rw [List.length_take] at hlt
    have hp : p ≤ n := by omega
    have hle : spelled disk entries p ≤ spelled disk entries n := by
      unfold spelled
      have hsub := ((List.take_prefix_take_left (l := entries.map Prod.fst) hp).sublist.flatMap
        Entry.terms).length_le
      omega
    rw [hup] at hle
    rw [hspelled p hp]
    rw [List.getElem?_take_of_lt (by omega)] at he
    refine ⟨(k.named p e he x hx).mono (Nat.le_refl _) ?_, hle⟩
    rw [← hpast]
    exact List.take_prefix_take_left hle
  refine ⟨_, names.take disk.length ++ ts, entries.take n, rfl, hrec.full, Nat.le_refl _, ?_,
    hframed, ?_, Nat.le_of_eq hlen, ?_, hnoted, ?_, fun p e he x hx => (hnamed p e he x hx).1, ?_,
    nofun⟩
  · refine ⟨d, hd', ?_, htables⟩
    rw [htake]
    exact hbase
  · rw [htake, hts]
    exact List.take_of_length_le (Nat.le_of_eq hlen.symm)
  · show disk.length ≤ st.store.dictionary.len
    rw [hlen, List.length_append, List.length_take, Nat.min_eq_left hdisk]
    exact Nat.le_add_right _ _
  · show st.recovered.inputs <+: (h.noted.take st.recovered.inputs.length).map Prod.fst
    rw [hnoted, hrec.inputs, map_noted]
  · intro x hx
    show Denotes _ st.store.dictionary.len _ _
    rw [hlen]
    rcases List.mem_append.mp hx with hx | hx
    · -- Nothing was lost, so the terms are those that the log had carried.
      split at hx
      · cases hx
      · rename_i hlost
        have hwhole : log.file.take bytes = log.file := by
          rw [decide_eq_true_eq, Nat.not_lt] at hlost
          exact List.take_of_length_le hlost
        have hlast := k.spelled_all
        rw [← hall hwhole, hup] at hlast
        rw [hlast] at hpast ⊢
        rw [← hpast]
        exact (k.recalled x hx).mono (Nat.le_refl _) (List.prefix_refl _)
    · change x ∈ (h.noted.take st.recovered.inputs.length).flatMap Prod.snd at hx
      rw [hnoted] at hx
      obtain ⟨note, hnote, hx⟩ := List.mem_flatMap.mp hx
      obtain ⟨e, he, hof⟩ := List.mem_filterMap.mp hnote
      obtain ⟨p, hp⟩ := List.mem_iff_getElem?.mp he
      have hsame : note.2 = e.2 := by
        obtain ⟨rec, _, rfl⟩ := Option.map_eq_some_iff.mp hof
        rfl
      rw [hsame] at hx
      obtain ⟨hd, hle⟩ := hnamed p e hp x hx
      exact hd.mono hle (List.take_prefix _ _)

/-! ## Every run -/

theorem Kept.step (k : Kept h log held disk names entries) (hprint : ox.Printable) {op : Op ox}
    (hspelled : h.Spelled op) {h' : History ox fst} (hstep : h.step op = some h') :
    ∃ log' held' disk' names' entries', Kept h' log' held' disk' names' entries' := by
  cases op with
  | intern t =>
    obtain ⟨more, hfull, hid⟩ := k.full.intern hprint t.fits hspelled
    unfold History.step Store.intern at hstep
    dsimp only at hstep
    generalize h.store.dictionary.intern t.term = r at *
    obtain ⟨dictionary, out⟩ := r
    cases out with
    | ok id =>
      cases hstep
      refine ⟨log, held, disk, names ++ more, entries, k.grow _ more _ rfl hfull fun x hx => ?_⟩
      rcases List.mem_append.mp hx with hx | hx
      · exact Or.inl hx
      · rw [List.mem_singleton] at hx
        subst hx
        exact Or.inr (hid id rfl)
    | error e =>
      cases hstep
      exact ⟨log, held, disk, names ++ more, entries,
        k.grow _ more _ rfl hfull fun x hx => Or.inl hx⟩
  | log_input rec elapsed =>
    unfold History.step at hstep
    dsimp only at hstep
    split at hstep
    · rename_i store hout
      cases hstep
      obtain ⟨log', entries', k'⟩ := k.log_input hspelled hout
      exact ⟨log', held, disk, names, entries', k'⟩
    · cases hstep
      exact ⟨log, held, disk, names, entries, k⟩
  | log_tick_commit last_seq elapsed =>
    cases hstep
    cases hout : h.store.log_tick_commit last_seq elapsed with
    | ok store =>
      obtain ⟨log', entries', k'⟩ := k.log_tick_commit hout
      exact ⟨log', held, disk, names, entries', k'⟩
    | error e => exact ⟨log, held, disk, names, entries, k⟩
  | insert_quad_batch quads elapsed =>
    cases hstep
    obtain ⟨log', entries', k'⟩ := k.write (Or.inl rfl)
    exact ⟨log', held, disk, names, entries', k'⟩
  | apply_quad_ids dels adds elapsed =>
    cases hstep
    obtain ⟨log', entries', k'⟩ := k.write (Or.inr (Or.inl rfl))
    exact ⟨log', held, disk, names, entries', k'⟩
  | retract_triples triples elapsed =>
    cases hstep
    obtain ⟨log', entries', k'⟩ := k.write (Or.inr (Or.inl rfl))
    exact ⟨log', held, disk, names, entries', k'⟩
  | checkpoint =>
    unfold History.step at hstep
    dsimp only at hstep
    split at hstep
    · rename_i store hout
      cases hstep
      obtain ⟨log', disk', entries', k'⟩ := k.checkpoint hspelled hout
      exact ⟨log', held, disk', names, entries', k'⟩
    · cases hstep
      exact ⟨log, held, disk, names, entries, k⟩
  | take_recovered_inputs =>
    cases hstep
    obtain ⟨log', k'⟩ := k.take_recovered
    exact ⟨log', held, disk, names, entries, k'⟩
  | kill bytes policy =>
    unfold History.step at hstep
    dsimp only at hstep
    rw [k.open_log, Option.bind_some] at hstep
    split at hstep
    · rename_i store hout
      cases hstep
      obtain ⟨log', names', entries', k'⟩ := k.kill hprint hout
      exact ⟨log', disk, disk, names', entries', k'⟩
    · cases hstep

variable (fst) in
/-- The store that an empty directory is opened as. -/
def opened (policy : SyncPolicy) : Store ox fst :=
  { (with_dictionary .new : Store ox fst) with
    wal := some
      { gen := 0
        file := []
        policy := policy
        dirty := false
        dict := none
        logged_len := 0
        recovered := .empty } }

theorem open_empty (policy : SyncPolicy) :
    open_with .empty policy = .ok (opened fst policy : Store ox fst) := by
  have hframed : Wal.Framed ([] : List (Entry ox)) (Dir.empty : Dir fst).wal := .nil
  rw [open_framed hframed nofun policy]
  rfl

variable (ox fst) in
theorem opened_kept (policy : SyncPolicy) :
    ∃ log, Kept ⟨(opened fst policy : Store ox fst), [], [], []⟩ log [] [] [] [] :=
  ⟨_, rfl, Full.start, Nat.le_refl _, ⟨.new, rfl, Full.start, rfl⟩, .nil, rfl, Nat.le_refl _,
    Nat.le_refl _, rfl, List.nil_prefix, nofun, nofun, nofun⟩

theorem run_snoc (policy : SyncPolicy) (ops : List (Op ox)) (op : Op ox) :
    run fst policy (ops ++ [op]) = (run fst policy ops).bind fun h => h.step op := by
  unfold run
  rw [open_empty]
  dsimp only
  rw [List.foldlM_append]
  congr 1
  funext h
  exact bind_pure (h.step op)

theorem run_kept (hprint : ox.Printable) (policy : SyncPolicy) (ops : List (Op ox))
    (hspells : Spells fst policy ops) {h : History ox fst} (hrun : run fst policy ops = some h) :
    ∃ log held disk names entries, Kept h log held disk names entries := by
  induction ops using List.reverseRecOn generalizing h with
  | nil =>
    unfold run at hrun
    rw [open_empty] at hrun
    cases hrun
    obtain ⟨log, k⟩ := opened_kept ox fst policy
    exact ⟨log, [], [], [], [], k⟩
  | append_singleton ops op ih =>
    rw [run_snoc] at hrun
    obtain ⟨h₀, hbefore, hstep⟩ := Option.bind_eq_some_iff.mp hrun
    obtain ⟨log, held, disk, names, entries, k⟩ :=
      ih (fun pre op' hpre => hspells pre op' (hpre.trans (List.prefix_append _ _))) hbefore
    exact k.step hprint (hspells ops op (List.prefix_refl _) h₀ hbefore) hstep

/-- In every run whose inputs name terms that the log has spelled out, the recovered inputs
name what they named when they were logged. -/
theorem recovered_inputs_sound (hprint : ox.Printable) (policy : SyncPolicy) (ops : List (Op ox))
    (hspells : Spells fst policy ops) (h : History ox fst) (hrun : run fst policy ops = some h) :
    h.Sound := by
  obtain ⟨_, _, _, _, _, k⟩ := run_kept hprint policy ops hspells hrun
  exact k.sound

theorem run_eq (policy : SyncPolicy) (ops : List (Op ox)) :
    run fst policy ops = ops.foldlM step ⟨opened fst policy, [], [], []⟩ := by
  unfold run
  rw [open_empty]

/-- A kill that loses nothing of the log. -/
theorem step_kill (hlog : h.store.wal = some log) {entries : List (Entry ox)}
    (hframed : Wal.Framed entries log.file) (hc : ∀ e ∈ entries, e.Checked) {bytes : Nat}
    (hbytes : log.file.length ≤ bytes)
    (policy : SyncPolicy) {d : Dictionary ox fst} (hd : open_dictionary log.dir = .ok d)
    {st : Replay ox fst} (hrun : (entries.map Entry.record).foldlM replay
      ⟨with_dictionary d, false, .empty⟩ = .ok st) :
    h.step (.kill bytes policy) = some (h.reopened false { st.store with
      wal := some
        { gen := log.gen
          file := log.file
          policy := policy
          dirty := false
          dict := log.dict
          logged_len := st.store.dictionary.len
          recovered := st.recovered } }) := by
  unfold History.step
  dsimp only
  have hdir : ({ log.dir with wal := log.file } : Dir fst) = log.dir := rfl
  have hframed' : Wal.Framed entries log.dir.wal := hframed
  rw [hlog, Option.bind_some, List.take_of_length_le hbytes, hdir, open_framed hframed' hc policy, hd,
    ok_bind, hrun, ok_bind, decide_eq_false (Nat.not_lt.mpr hbytes)]
  rfl

/-- An input about the term `ex:s`, which has the id 1. -/
def about_node : InputRecord := ⟨1, (1, 1, 1), 1, 0⟩

def other : MemTerm .plain := ⟨.NamedNode ⟨"ex:p", Oxrdf.held_ex_p⟩, by decide⟩

/-- A term is interned and an input names it, without a batch. -/
def unlogged_input : List (Op .plain) :=
  [.intern Dictionary.History.node, .log_input about_node 0]

/-- After the crash another term is interned. -/
def unlogged_term : List (Op .plain) :=
  unlogged_input ++ [.kill 1000 .EveryBatch, .intern other]

/-- The recovered input names the other term. -/
theorem unlogged_term_replaced :
    ∃ h, run .rows .EveryBatch unlogged_term = some h ∧
      (1, Dictionary.History.node.term) ∈ h.recalled ∧
      h.store.dictionary.lookup 1 = .ok (some other.term) ∧ ¬ h.Sound := by
  obtain ⟨h, hrun, hrecalled, hlookup⟩ : ∃ h, run .rows .EveryBatch unlogged_term = some h ∧
      (1, Dictionary.History.node.term) ∈ h.recalled ∧
        h.store.dictionary.lookup 1 = .ok (some other.term) := by
    -- The log holds the input and nothing else.
    obtain ⟨h₂, log, hlogged, hlog, hfile, hdir, hnoted⟩ : ∃ h₂ log,
        unlogged_input.foldlM step
          (⟨opened .rows .EveryBatch, [], [], []⟩ : History .plain .rows) = some h₂ ∧
        h₂.store.wal = some log ∧ log.file = frame (encode_input about_node) ∧
        open_dictionary log.dir = (.ok .new : Outcome (Dictionary .plain .rows)) ∧
        h₂.noted = [(about_node, [(1, Dictionary.History.node.term),
          (1, Dictionary.History.node.term), (1, Dictionary.History.node.term)])] :=
      ⟨_, _, rfl, rfl, rfl, rfl, rfl⟩
    have hframed : Wal.Framed [(.Input about_node : Entry .plain)] log.file := by
      rw [hfile, ← List.append_nil (frame _)]
      exact .cons rfl (by decide) .nil
    have hbytes : log.file.length ≤ 1000 := by
      rw [hfile]
      decide
    have hchecked : ∀ e ∈ [(.Input about_node : Entry .plain)], e.Checked := by
      simp [Entry.Checked]
    have hkill := step_kill hlog hframed hchecked hbytes .EveryBatch hdir rfl
    have hrun : ∀ h₃ h, h₂.step (.kill 1000 .EveryBatch) = some h₃ →
        h₃.step (.intern other) = some h → run .rows .EveryBatch unlogged_term = some h := by
      intro h₃ h hkill hintern
      rw [run_eq, unlogged_term, List.foldlM_append, hlogged]
      show (h₂.step (.kill 1000 .EveryBatch)).bind (fun h => (h.step (.intern other)).bind some) = _
      rw [hkill, Option.bind_some, hintern, Option.bind_some]
    refine ⟨_, hrun _ _ hkill rfl, List.mem_append_right _ ?_, rfl⟩
    show (1, Dictionary.History.node.term) ∈ (h₂.noted.take 1).flatMap Prod.snd
    rw [hnoted]
    exact List.mem_cons_self
  refine ⟨h, hrun, hrecalled, hlookup, fun hsound => ?_⟩
  have hsame := hsound.resolved _ _ hrecalled
  rw [hlookup] at hsame
  have htext := congrArg encode_term (Option.some.inj (Except.ok.inj hsame))
  revert htext
  decide

/-- A batch spells the term out before the input names it. -/
def logged_input : List (Op .plain) :=
  [.intern Dictionary.History.node, .insert_quad_batch [⟨0, 1, 1, 1⟩] 0, .log_input about_node 0]

def logged_term : List (Op .plain) := logged_input ++ [.kill 1000 .EveryBatch]

theorem insert_batched :
    Kind.Insert = .Insert ∨ Kind.Insert = .Apply ∨ Kind.Insert = .Checkpoint :=
  Or.inl rfl

def first_batch : BatchRecord .plain :=
  ⟨.Insert, 1, 0, 1, [Dictionary.History.node.term], [], [⟨0, 1, 1, 1⟩], insert_batched⟩

theorem logged_term_spells : Spells .rows .EveryBatch logged_term := by
  intro pre op hpre h hrun
  have hnode : ∀ tables : Tables, tables.Room Dictionary.History.node.term :=
    fun _ _ _ haux => nomatch haux
  rcases pre with _ | ⟨a, _ | ⟨b, _ | ⟨c, rest⟩⟩⟩
  · simp only [logged_term, logged_input, List.nil_append, List.cons_append, List.cons_prefix_cons]
      at hpre
    rw [hpre.1]
    exact fun _ => hnode _
  · simp only [logged_term, logged_input, List.nil_append, List.cons_append, List.cons_prefix_cons]
      at hpre
    rw [hpre.2.1]
    trivial
  · simp only [logged_term, logged_input, List.nil_append, List.cons_append, List.cons_prefix_cons]
      at hpre
    obtain ⟨rfl, rfl, rfl, _⟩ := hpre
    rw [run_eq] at hrun
    cases hrun
    exact fun x hx => Or.inr ⟨_, rfl, by revert x; decide⟩
  · simp only [logged_term, logged_input, List.nil_append, List.cons_append, List.cons_prefix_cons]
      at hpre
    have hop := hpre.2.2.2.subset (List.mem_append_right _ (List.mem_singleton_self op))
    rw [List.mem_singleton.mp hop]
    trivial

/-- The recovered input names the term that it named. -/
theorem logged_term_kept :
    ∃ h, run .rows .EveryBatch logged_term = some h ∧
      (1, Dictionary.History.node.term) ∈ h.recalled ∧ h.Sound := by
  obtain ⟨h₃, log, batch, hlogged, hlog, hbatch, hfits, hfile, hdir, hnoted⟩ :
      ∃ (h : History .plain .rows) (log : StoreWal .rows) (batch : Bytes),
        run .rows .EveryBatch logged_input = some h ∧ h.store.wal = some log ∧
        (Entry.Batch first_batch).encode = .ok batch ∧ batch.length < 900 ∧
        log.file = frame batch ++ frame (encode_input about_node) ∧
        open_dictionary log.dir = (.ok .new : Outcome (Dictionary .plain .rows)) ∧
        h.noted = [(about_node, [(1, Dictionary.History.node.term),
            (1, Dictionary.History.node.term), (1, Dictionary.History.node.term)])] := by
    simp only [run_eq]
    refine ⟨_, _, _, rfl, rfl, rfl, ?_, rfl, rfl, rfl⟩
    decide
  have hframed : Wal.Framed [.Batch first_batch, (.Input about_node : Entry .plain)] log.file := by
    rw [hfile, ← List.append_nil (frame (encode_input _))]
    exact .cons hbatch (by omega) (.cons rfl (by decide) .nil)
  have hbytes : log.file.length ≤ 1000 := by
    have hinput : (encode_input about_node).length = 49 := by decide
    rw [hfile, List.length_append, Wal.frame_length, Wal.frame_length, hinput, HEADER]
    omega
  have hnode : Dictionary.History.node.term.Checked := Oxrdf.plain_ex_s
  have hchecked : ∀ e ∈ [.Batch first_batch, (.Input about_node : Entry .plain)], e.Checked := by
    simp [Entry.Checked, first_batch, hnode]
  have hkill := step_kill hlog hframed hchecked hbytes .EveryBatch hdir rfl
  have hrun : ∀ h, h₃.step (.kill 1000 .EveryBatch) = some h →
      run .rows .EveryBatch logged_term = some h := by
    intro h hkill
    rw [logged_term, run_snoc, hlogged, Option.bind_some, hkill]
  refine ⟨_, hrun _ hkill, List.mem_append_right _ ?_, recovered_inputs_sound
    Oxrdf.plain_printable .EveryBatch logged_term logged_term_spells _ (hrun _ hkill)⟩
  show (1, Dictionary.History.node.term) ∈ (h₃.noted.take 1).flatMap Prod.snd
  rw [hnoted]
  exact List.mem_cons_self

end History

end horndb.storage.Store
