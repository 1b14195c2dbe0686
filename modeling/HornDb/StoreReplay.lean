-- What opening a directory brings back: the records of the whole frames that a crash left,
-- replayed in order over the dictionary base.
import HornDb.Store
import HornDb.DictionarySpec

open HornDb.Lib HornDb.Lib.Wire

namespace horndb.storage

variable {ox : Oxrdf} {fst : FstLib}

/-! ## Side tables -/

namespace AuxTable

/-- Every text of `t` is one of `big`, and none is listed twice. -/
structure Within (t big : AuxTable) : Prop where
  listed : ∀ s ∈ t.order, (t.get s).isSome
  once : t.order.Nodup
  texts : t.order ⊆ big.order

variable {t big : AuxTable} {s : String}

theorem new_within (big : AuxTable) : new.Within big :=
  ⟨nofun, List.nodup_nil, List.nil_subset _⟩

theorem Within.fresh (h : t.Within big) (hs : t.get s = none) : (s :: t.order).Nodup := by
  refine List.nodup_cons.mpr ⟨fun hmem => ?_, h.once⟩
  have := h.listed s hmem
  simp [hs] at this

/-- There is an id for each text of a larger table. -/
theorem Within.room (h : t.Within big) (hbig : big.Good) (hs : s ∈ big.order) : t.Room s := by
  intro hnone
  have hsub : (s :: t.order) ⊆ big.order := List.cons_subset.mpr ⟨hs, h.texts⟩
  have hle := ((h.fresh hnone).subperm hsub).length_le
  have hfits := hbig.fits
  rw [List.length_cons] at hle
  omega

theorem Within.intern (h : t.Within big) (hs : s ∈ big.order) : (t.intern s).1.Within big := by
  unfold AuxTable.intern
  split
  · exact h
  · rename_i hnone
    have hnodup := h.fresh hnone
    refine ⟨fun s' hs' => ?_, ?_, ?_⟩
    · rw [get, Std.ExtTreeMap.getElem?_insert]
      split
      · rfl
      · rename_i hne
        rcases List.mem_append.mp hs' with hs' | hs'
        · exact h.listed s' hs'
        · rw [List.mem_singleton] at hs'
          subst hs'
          exact absurd Std.ReflCmp.compare_self hne
    · exact List.nodup_append_comm.mp hnodup
    · exact List.append_subset.mpr ⟨h.texts, List.cons_subset.mpr ⟨hs, List.nil_subset _⟩⟩

theorem Good.mem (h : big.Good) {id : UInt32} (hs : big.get s = some id) : s ∈ big.order :=
  List.mem_of_getElem? (h.placed s id hs)

end AuxTable

namespace Tables

def Within (t big : Tables) : Prop := ∀ aux, (t.table aux).Within (big.table aux)

variable {t big : Tables} {term : Term ox} {k : Bytes}

theorem new_within (big : Tables) : new.Within big := by
  intro aux
  cases aux <;> exact AuxTable.new_within _

/-- The text of a term with a key is in the table. -/
theorem text_of_key (hbig : big.Good) (hk : big.key term = some k) {aux : Aux} {s : String}
    (haux : aux_text term = some (aux, s)) : s ∈ (big.table aux).order := by
  rw [key_eq, haux] at hk
  obtain ⟨id, hid, _⟩ := Option.map_eq_some_iff.mp hk
  exact (hbig.table aux).mem hid

theorem Within.room (h : t.Within big) (hbig : big.Good) (hk : big.key term = some k) :
    t.Room term := by
  intro aux s haux
  exact (h aux).room (hbig.table aux) (text_of_key hbig hk haux)

theorem Within.encode_into (h : t.Within big) (hbig : big.Good) (hk : big.key term = some k) :
    (t.encode_into .Intern term).1.Within big := by
  rw [encode_into_eq]
  cases haux : aux_text term with
  | none => exact h
  | some e =>
    obtain ⟨aux, s⟩ := e
    intro aux'
    show (((t.aux_id aux s .Intern).1).table aux').Within _
    unfold aux_id
    rw [table_set_table]
    split
    · rename_i heq
      subst heq
      exact (h aux).intern (text_of_key hbig hk haux)
    · exact h aux'

end Tables

/-! ## Terms -/

namespace Dictionary

theorem replay_append_tables {d : Dictionary ox fst} {t : Term ox} {index : Nat}
    (h : (d.replay_append index t).2 = .ok ()) :
    (d.replay_append index t).1.tables = (d.tables.encode_into .Intern t).1 := by
  unfold replay_append at h ⊢
  split at h
  · cases h
  · split at h
    · cases h
    · rename_i tables key heq
      dsimp only at h ⊢
      rw [heq]
      split
      · rfl
      · split
        · rfl
        · rfl

/-- Slots that are all logged hold a term each. -/
theorem slots_logged (logged : Nat) (slots : List (Option (Term ox))) :
    ∀ (n : Nat) (ts : List (Term ox)),
      ((slots.zipIdx n).mapM fun e =>
        match e.1 with
        | some term => (.ok term : Outcome (Term ox))
        | none => .error (wal_err ("dictionary index " ++ toString (logged + e.2 + 1) ++
          " was reclaimed before it was logged"))) = .ok ts → slots = ts.map some := by
  induction slots with
  | nil =>
    intro n ts hts
    cases hts
    rfl
  | cons slot slots ih =>
    intro n ts hts
    rw [List.zipIdx_cons, List.mapM_cons] at hts
    obtain ⟨t, ht, hts⟩ := bind_eq_ok hts
    obtain ⟨rest, hrest, hts⟩ := bind_eq_ok hts
    cases hts
    cases slot with
    | none => cases ht
    | some term =>
      cases ht
      rw [List.map_cons, ← ih _ _ hrest]

/-- The terms behind an index, when none of them was reclaimed. -/
theorem terms_after_ok {d : Dictionary ox fst} {logged : Nat} {ts : List (Term ox)}
    (h : d.terms_after logged = .ok ts) :
    d.base_len ≤ logged ∧ d.terms.drop (logged - d.base_len) = ts.map some := by
  unfold terms_after at h
  split at h
  · cases h
  · rename_i hle
    refine ⟨Nat.not_lt.mp hle, ?_⟩
    generalize d.terms.drop (logged - d.base_len) = slots at h
    exact slots_logged logged slots 0 ts h

/-- The dictionary that a replay is at: its row is full, with the terms `names`. -/
structure Full (d : Dictionary ox fst) (held : List (Option (Term ox))) (names : List (Term ox)) :
    Prop where
  holds : Holds d held 0
  row : d.row held = names.map some

variable {d d' : Dictionary ox fst} {held : List (Option (Term ox))} {names : List (Term ox)}

theorem Full.start : Full (new : Dictionary ox fst) [] [] := ⟨Holds.start, rfl⟩

theorem Full.length (h : Full d held names) : names.length = d.len := by
  have := h.holds.length_row
  rw [h.row, List.length_map] at this
  exact this

theorem Full.slot (h : Full d held names) (i : Nat) (t : Term ox) :
    (d.row held)[i]? = some (some t) ↔ names[i]? = some t := by
  rw [h.row, List.getElem?_map]
  simp

theorem Full.nodup (h : Full d held names) : names.Nodup := by
  rw [List.nodup_iff_getElem?_ne_getElem?]
  intro i j hij hj heq
  rw [List.getElem?_eq_getElem hj] at heq
  have hi := (h.slot i _).mpr heq
  have hj := (h.slot j _).mpr (List.getElem?_eq_getElem hj)
  have := h.holds.single i j _ hi hj
  omega

theorem Full.stored (h : Full d held names) {t : Term ox} (ht : t ∈ names) : Stored t := by
  obtain ⟨i, hi⟩ := List.mem_iff_getElem?.mp ht
  exact h.holds.row_stored ((h.slot i t).mpr hi)

/-- The terms that came after the base are those of the overlay. -/
theorem Full.overlay (h : Full d held names) : d.terms = (names.drop d.base_len).map some := by
  have hrow := congrArg (List.drop d.base_len) h.row
  rw [Dictionary.row, List.drop_append_of_le_length, List.drop_of_length_le, List.nil_append,
    ← List.map_drop] at hrow
  · exact hrow
  · rw [length_alive, ← h.holds.base_len]
  · rw [length_alive, ← h.holds.base_len]

theorem Full.keyed (h : Full d held names) {t : Term ox} (ht : t ∈ names.drop d.base_len) :
    ∃ k, d.tables.key t = some k := by
  have hmem : some t ∈ d.terms := by
    rw [h.overlay]
    exact List.mem_map_of_mem ht
  obtain ⟨i, hi⟩ := List.mem_iff_getElem?.mp hmem
  exact h.holds.keyed i t hi

/-- The row after an intern, and where the id that was given stands in it. -/
theorem Full.intern (h : Full d held names) (hprint : ox.Printable) {t : Term ox}
    (hfits : (encode_term t).length < 2 ^ 64)
    (hroom : try_inline_int t = none → d.tables.Room t) :
    ∃ more, Full (d.intern t).1 held (names ++ more) ∧
      ∀ id, (d.intern t).2 = .ok id → try_inline_int t = some id ∨
        ∃ i : Nat, (names ++ more)[i]? = some t ∧ id = slot_id t i := by
  obtain ⟨hholds, hinterned⟩ := h.holds.intern hprint hfits hroom
  generalize hrow : (d.intern t).1.row held = row' at hinterned
  generalize hout : (d.intern t).2 = out at hinterned ⊢
  have hsame : (names ++ ([] : List (Term ox))) = names := List.append_nil _
  cases hinterned with
  | inline hid =>
    refine ⟨[], ⟨hholds, by rw [hsame, hrow, h.row]⟩, fun id' hid' => ?_⟩
    cases hid'
    exact Or.inl hid
  | @held i hi =>
    refine ⟨[], ⟨hholds, by rw [hsame, hrow, h.row]⟩, fun id' hid' => ?_⟩
    cases hid'
    exact Or.inr ⟨i, by rw [hsame]; exact (h.slot i t).mp hi, rfl⟩
  | added _ _ =>
    refine ⟨[t], ⟨hholds, by rw [hrow, h.row, List.map_append]; rfl⟩, fun id' hid' => ?_⟩
    cases hid'
    refine Or.inr ⟨names.length, by simp, ?_⟩
    rw [h.row, List.length_map]
  | failed e => exact ⟨[], ⟨hholds, by rw [hsame, hrow, h.row]⟩, nofun⟩

theorem Full.replay_term (h : Full d held names) (hprint : ox.Printable) {t : Term ox}
    (hnew : t ∉ names) (hfits : (encode_term t).length < 2 ^ 64) {big : Tables} (hbig : big.Good)
    (hkeyed : ∃ k, big.key t = some k) (hwithin : d.tables.Within big) {first : UInt64} {i : Nat}
    (hrun : Store.replay_term first d (t, i) = .ok d') :
    Full d' held (names ++ [t]) ∧ d'.tables.Within big := by
  obtain ⟨k, hk⟩ := hkeyed
  unfold Store.replay_term at hrun
  dsimp only at hrun
  obtain ⟨hholds, hreplayed⟩ := h.holds.replay_append hprint hfits
    (fun _ => hwithin.room hbig hk) (first + UInt64.ofNat i).toNat
  have htables : (d.replay_append (first + UInt64.ofNat i).toNat t).2 = .ok () → _ :=
    replay_append_tables
  generalize d.replay_append (first + UInt64.ofNat i).toNat t = r at *
  obtain ⟨d₁, out⟩ := r
  cases out with
  | error e => cases hrun
  | ok u =>
    cases hrun
    dsimp only at hholds hreplayed htables
    refine ⟨⟨hholds, ?_⟩, ?_⟩
    · generalize hrow : d'.row held = row' at hreplayed
      cases hreplayed with
      | fresh _ _ _ => rw [h.row, List.map_append]; rfl
      | stale _ _ hi =>
        -- A term of the row is never logged again.
        exact absurd (List.mem_of_getElem? ((h.slot _ t).mp hi)) hnew
    · rw [htables rfl]
      exact hwithin.encode_into hbig hk

theorem Full.replay_terms (hprint : ox.Printable) {big : Tables} (hbig : big.Good)
    {first : UInt64} (ts : List (Term ox)) (hkeyed : ∀ t ∈ ts, ∃ k, big.key t = some k)
    (hfits : ∀ t ∈ ts, (encode_term t).length < 2 ^ 64) :
    ∀ {d : Dictionary ox fst} {names : List (Term ox)} (i : Nat), Full d held names →
      (names ++ ts).Nodup → d.tables.Within big →
      (ts.zipIdx i).foldlM (Store.replay_term first) d = .ok d' →
        Full d' held (names ++ ts) ∧ d'.tables.Within big := by
  induction ts with
  | nil =>
    intro d names i h _ hwithin hrun
    cases hrun
    rw [List.append_nil]
    exact ⟨h, hwithin⟩
  | cons t ts ih =>
    intro d names i h hnodup hwithin hrun
    rw [List.zipIdx_cons, List.foldlM_cons] at hrun
    obtain ⟨d₁, hfirst, hrest⟩ := bind_eq_ok hrun
    have hnew : t ∉ names := fun hmem =>
      List.disjoint_of_nodup_append hnodup hmem List.mem_cons_self
    obtain ⟨h₁, hwithin₁⟩ := h.replay_term hprint hnew (hfits t List.mem_cons_self) hbig
      (hkeyed t List.mem_cons_self) hwithin hfirst
    have hassoc : names ++ t :: ts = (names ++ [t]) ++ ts := by simp
    rw [hassoc] at hnodup ⊢
    exact ih (fun u hu => hkeyed u (List.mem_cons_of_mem _ hu))
      (fun u hu => hfits u (List.mem_cons_of_mem _ hu)) (i + 1) h₁ hnodup hwithin₁ hrest

end Dictionary

/-! ## Records -/

/-- The terms that an entry of the log spells out. -/
def Entry.terms : Entry ox → List (Term ox)
  | .Batch rec => rec.dict
  | _ => []

/-- The circuit input that an entry is. -/
def Entry.input : Entry ox → Option InputRecord
  | .Input rec => some rec
  | _ => none

@[simp] theorem Entry.terms_input (rec : InputRecord) : (Entry.Input rec : Entry ox).terms = [] := rfl

@[simp] theorem Entry.terms_tick (version last_seq : UInt64) :
    (Entry.TickCommit version last_seq : Entry ox).terms = [] := rfl

namespace RecoveredInputs

theorem inputs_push (r : RecoveredInputs) (rec : InputRecord) :
    (r.push_input rec).inputs = r.inputs ++ [rec] := by
  simp [push_input, inputs]

theorem inputs_close (r : RecoveredInputs) : r.close_tick.inputs = r.inputs := by
  unfold close_tick
  split
  · rfl
  · simp [inputs]

end RecoveredInputs

namespace Store

open Dictionary

/-- A replay that has brought back the terms `names` and the inputs `ins`. -/
structure Recovering (st : Replay ox fst) (held : List (Option (Term ox)))
    (names : List (Term ox)) (big : Tables) (ins : List InputRecord) : Prop where
  full : Full st.store.dictionary held names
  within : st.store.dictionary.tables.Within big
  inputs : st.recovered.inputs = ins

variable {st st' : Replay ox fst} {held : List (Option (Term ox))} {names : List (Term ox)}
  {big : Tables} {ins : List InputRecord}

theorem Recovering.replay (h : Recovering st held names big ins) (hprint : ox.Printable)
    (hbig : big.Good) (e : Entry ox) (hkeyed : ∀ t ∈ e.terms, ∃ k, big.key t = some k)
    (hfits : ∀ t ∈ e.terms, (encode_term t).length < 2 ^ 64) (hnodup : (names ++ e.terms).Nodup)
    (hrun : Store.replay st e.record = .ok st') :
    Recovering st' held (names ++ e.terms) big (ins ++ e.input.toList) := by
  cases e with
  | Batch rec =>
    obtain ⟨d, hd, hrun⟩ := bind_eq_ok hrun
    obtain ⟨out, _, hrun⟩ := bind_eq_ok hrun
    cases hrun
    obtain ⟨hfull, hwithin⟩ := Full.replay_terms hprint hbig rec.dict hkeyed hfits 0 h.full
      hnodup h.within hd
    exact ⟨hfull, hwithin, by rw [h.inputs]; exact (List.append_nil _).symm⟩
  | Input rec =>
    cases hrun
    refine ⟨?_, h.within, ?_⟩
    · rw [Entry.terms_input, List.append_nil]
      exact h.full
    · show (st.recovered.push_input rec).inputs = _
      rw [RecoveredInputs.inputs_push, h.inputs]
      rfl
  | TickCommit version last_seq =>
    cases hrun
    refine ⟨?_, h.within, ?_⟩
    · rw [Entry.terms_tick, List.append_nil]
      exact h.full
    · show (st.recovered.close_tick).inputs = _
      rw [RecoveredInputs.inputs_close, h.inputs]
      exact (List.append_nil _).symm

/-- A replayed log brings back the terms that its records spell out, and its inputs. -/
theorem Recovering.replay_all (hprint : ox.Printable) (hbig : big.Good) (entries : List (Entry ox))
    (hkeyed : ∀ t ∈ entries.flatMap Entry.terms, ∃ k, big.key t = some k)
    (hfits : ∀ t ∈ entries.flatMap Entry.terms, (encode_term t).length < 2 ^ 64) :
    ∀ {st : Replay ox fst} {names : List (Term ox)} {ins : List InputRecord},
      Recovering st held names big ins → (names ++ entries.flatMap Entry.terms).Nodup →
      (entries.map Entry.record).foldlM Store.replay st = .ok st' →
        Recovering st' held (names ++ entries.flatMap Entry.terms) big
          (ins ++ entries.filterMap Entry.input) := by
  induction entries with
  | nil =>
    intro st names ins h _ hrun
    cases hrun
    rw [List.flatMap_nil, List.append_nil, List.filterMap_nil, List.append_nil]
    exact h
  | cons e entries ih =>
    intro st names ins h hnodup hrun
    rw [List.map_cons, List.foldlM_cons] at hrun
    obtain ⟨st₁, hfirst, hrest⟩ := bind_eq_ok hrun
    rw [List.flatMap_cons] at hkeyed hfits hnodup ⊢
    rw [← List.append_assoc] at hnodup ⊢
    have hstep := h.replay hprint hbig e (fun t ht => hkeyed t (List.mem_append_left _ ht))
      (fun t ht => hfits t (List.mem_append_left _ ht)) (List.nodup_append.mp hnodup).1 hfirst
    have hall := ih (fun t ht => hkeyed t (List.mem_append_right _ ht))
      (fun t ht => hfits t (List.mem_append_right _ ht)) hstep hnodup hrest
    have hinputs : (e :: entries).filterMap Entry.input =
        e.input.toList ++ entries.filterMap Entry.input := by
      cases hin : e.input <;> simp [hin]
    rw [hinputs, ← List.append_assoc]
    exact hall

/-! ## Opening -/

variable {store : Store ox fst}

/-- Opening what a crash left of a log replays the records of its whole frames, and keeps
the bytes of just these. -/
theorem open_cut {entries : List (Entry ox)} {gen : UInt64} {dict : Option (MappedBase fst)}
    {bytes cut : Bytes} (hframed : Wal.Framed entries bytes) (hcut : cut <+: bytes)
    {policy : SyncPolicy} (hopen : open_with ⟨gen, dict, cut⟩ policy = .ok store) :
    ∃ k ≤ entries.length, (cut = bytes → k = entries.length) ∧ ∃ kept d st,
      Wal.Framed (entries.take k) kept ∧ open_dictionary ⟨gen, dict, cut⟩ = .ok d ∧
      ((entries.take k).map Entry.record).foldlM replay ⟨with_dictionary d, false, .empty⟩ =
        .ok st ∧
      store = { st.store with
        wal := some
          { gen := gen
            file := kept
            policy := policy
            dirty := false
            dict := dict
            logged_len := st.store.dictionary.len
            recovered := st.recovered } } := by
  obtain ⟨k, hk, kept, torn, hkept, hsplit, htorn, hmax⟩ := hframed.cut hcut
  obtain ⟨d, hd, hopen⟩ := bind_eq_ok hopen
  dsimp only at hopen
  obtain ⟨⟨st, log⟩, hreplayed, hopen⟩ := bind_eq_ok hopen
  have hc := Wal.replay_checked (w := ⟨gen, cut, policy, false⟩) hkept hsplit hreplayed
  rw [Wal.replay_framed hkept hc htorn ⟨gen, cut, policy, false⟩ hsplit] at hreplayed
  obtain ⟨st₁, hrun, hlog⟩ := bind_eq_ok hreplayed
  cases hlog
  cases hopen
  refine ⟨k, hk, fun hall => ?_, kept, d, st, hkept, hd, hrun, rfl⟩
  refine Nat.le_antisymm hk (hmax _ (Nat.le_refl _) bytes ?_ (hall ▸ List.prefix_refl _))
  rwa [List.take_length]

/-! ## Appending -/

/-- A log that no crash cut is replayed whole. -/
theorem open_framed {entries : List (Entry ox)} {dir : Dir fst} (hframed : Wal.Framed entries dir.wal)
    (hc : ∀ e ∈ entries, e.Checked) (policy : SyncPolicy) :
    open_with dir policy = (do
      let d ← open_dictionary dir
      let st ← (entries.map Entry.record).foldlM replay
        (⟨with_dictionary d, false, .empty⟩ : Replay ox fst)
      pure { st.store with
        wal := some
          { gen := dir.gen
            file := dir.wal
            policy := policy
            dirty := false
            dict := dir.dict
            logged_len := st.store.dictionary.len
            recovered := st.recovered } }) := by
  unfold open_with
  dsimp only
  rw [funext fun d => congrArg (· >>= _) (Wal.replay_framed hframed hc (Or.inl rfl)
    ⟨dir.gen, dir.wal, policy, false⟩ (List.append_nil _).symm _)]
  simp only [bind_assoc]
  rfl

/-- The log with one more entry. -/
structure Appended (log log' : StoreWal fst) (e : Entry ox) : Prop where
  framed : ∃ body, e.encode = .ok body ∧ body.length < 2 ^ 32 ∧
    log'.file = log.file ++ frame body
  gen : log'.gen = log.gen
  dict : log'.dict = log.dict
  recovered : log'.recovered = log.recovered

/-- An append writes the frame and leaves the generation. -/
theorem append_gen {w w' : Wal} {body : Bytes} {elapsed : Nat}
    (h : w.append body elapsed = .ok w') : w'.gen = w.gen := by
  have hsync : ∀ w : Wal, w.sync.gen = w.gen := by
    intro w
    unfold Wal.sync
    split <;> rfl
  unfold Wal.append at h
  obtain ⟨file, _, h⟩ := bind_eq_ok h
  dsimp only at h
  split at h
  · cases h
    exact hsync _
  · split at h
    · cases h
      exact hsync _
    · cases h
      rfl

variable {log log' : StoreWal fst} {e : Entry ox}

theorem Appended.entries (h : Appended log log' e) {entries : List (Entry ox)}
    (hframed : Wal.Framed entries log.file) : Wal.Framed (entries ++ [e]) log'.file := by
  obtain ⟨body, hencoded, hfits, hfile⟩ := h.framed
  rw [hfile]
  apply hframed.append
  rw [← List.append_nil (frame body)]
  exact .cons hencoded hfits .nil

theorem append_record_spec {kind : Kind} {dels adds : List RawQuad} {elapsed : Nat}
    (hkind : kind = .Insert ∨ kind = .Apply ∨ kind = .Checkpoint)
    (h : store.append_record log kind dels adds elapsed = .ok log') :
    ∃ rec : BatchRecord ox, Appended log log' (.Batch rec) ∧
      store.dictionary.terms_after log.logged_len = .ok rec.dict ∧
      rec.bnode_doc_tag = store.bnode_doc_tag ∧
      log'.logged_len = log.logged_len + rec.dict.length := by
  obtain ⟨terms, hterms, h⟩ := bind_eq_ok h
  obtain ⟨body, hbody, h⟩ := bind_eq_ok h
  obtain ⟨file, hfile, h⟩ := bind_eq_ok h
  cases h
  obtain ⟨hfits, hframe⟩ := Wal.append_spec hfile
  exact ⟨⟨kind, _, _, _, terms, dels, adds, hkind⟩,
    ⟨⟨body, hbody, hfits, hframe⟩, append_gen hfile, rfl, rfl⟩, hterms, rfl, rfl⟩

/-- A write through the log keeps the dictionary and the tag, and appends a record or
nothing. -/
theorem logged_spec {α : Type} {kind : Kind} {dels adds : List RawQuad} {elapsed : Nat}
    {write : MemoryTier → MemoryTier × α} {out : Store ox fst × α}
    (h : store.logged kind dels adds elapsed write = .ok out) :
    out.1.dictionary = store.dictionary ∧ out.1.bnode_doc_tag = store.bnode_doc_tag ∧
      (out.1.wal = store.wal ∨ ∃ log log', store.wal = some log ∧ out.1.wal = some log' ∧
        store.append_record log kind dels adds elapsed = .ok log') := by
  obtain ⟨wal, hwal, h⟩ := bind_eq_ok h
  cases h
  refine ⟨rfl, rfl, ?_⟩
  unfold log_batch at hwal
  split at hwal
  · rename_i hnone
    cases hwal
    exact Or.inl hnone.symm
  · rename_i log hlog
    split at hwal
    · cases hwal
      exact Or.inl hlog.symm
    · cases hrec : store.append_record log kind dels adds elapsed with
      | error e =>
        rw [hrec] at hwal
        cases hwal
      | ok log' =>
        rw [hrec] at hwal
        cases hwal
        exact Or.inr ⟨log, log', hlog, rfl, hrec⟩

theorem wal_or_err_ok (h : store.wal_or_err = .ok log) : store.wal = some log := by
  unfold wal_or_err at h
  split at h
  · cases h
    assumption
  · cases h

/-- The file of a new generation holds checkpoint records, which spell out no term. -/
theorem checkpoint_records {version tag : UInt64} (chunks : List (List RawQuad)) :
    ∀ {file file' : Bytes} {entries : List (Entry ox)}, Wal.Framed entries file →
      chunks.foldlM (write_checkpoint_record ox version tag) file = .ok file' →
        ∃ more : List (BatchRecord ox), Wal.Framed (entries ++ more.map .Batch) file' ∧
          ∀ rec ∈ more, rec.dict = [] ∧ rec.bnode_doc_tag = tag := by
  induction chunks with
  | nil =>
    intro file file' entries hframed h
    cases h
    exact ⟨[], by rwa [List.map_nil, List.append_nil], nofun⟩
  | cons rows chunks ih =>
    intro file file' entries hframed h
    rw [List.foldlM_cons] at h
    obtain ⟨file₁, hfirst, hrest⟩ := bind_eq_ok h
    obtain ⟨body, hbody, hwritten⟩ := bind_eq_ok hfirst
    unfold write_record at hwritten
    split at hwritten
    · rename_i hfits
      cases hwritten
      obtain ⟨rec, hone, hdict, htag⟩ : ∃ rec : BatchRecord ox,
          Wal.Framed [Entry.Batch rec] (frame body) ∧ rec.dict = [] ∧ rec.bnode_doc_tag = tag := by
        refine ⟨⟨.Checkpoint, version, tag, 0, [], [], rows, Or.inr (Or.inr rfl)⟩, ?_, rfl, rfl⟩
        rw [← List.append_nil (frame body)]
        exact .cons hbody hfits .nil
      obtain ⟨more, hmore, hempty⟩ := ih (hframed.append hone) hrest
      refine ⟨rec :: more, ?_, List.forall_mem_cons.mpr ⟨⟨hdict, htag⟩, hempty⟩⟩
      rw [List.map_cons]
      rwa [List.append_assoc] at hmore
    · cases hwritten

theorem checkpoint_spec {store store' : Store ox fst} (h : store.checkpoint = .ok store') :
    ∃ (log : StoreWal fst) (gen : UInt64) (dict : MappedBase fst) (file : Bytes)
        (more : List (BatchRecord ox)),
      store.wal = some log ∧ gen ≠ 0 ∧ store.flush_dictionary = .ok dict ∧
      Wal.Framed (more.map .Batch) file ∧
      (∀ rec ∈ more, rec.dict = [] ∧ rec.bnode_doc_tag = store.bnode_doc_tag) ∧
      store' = { store with wal := some (commit_generation log gen dict file dict.slots) } := by
  obtain ⟨log, hlog, h⟩ := bind_eq_ok h
  obtain ⟨gen, hgen, h⟩ := bind_eq_ok h
  obtain ⟨dict, hdict, h⟩ := bind_eq_ok h
  obtain ⟨file, hfile, h⟩ := bind_eq_ok h
  cases h
  obtain ⟨more, hmore, hempty⟩ := checkpoint_records _ .nil hfile
  refine ⟨log, gen, dict, file, more, wal_or_err_ok hlog, ?_, hdict, hmore, hempty, rfl⟩
  unfold next_generation at hgen
  split at hgen
  · rename_i hlt
    cases hgen
    intro hzero
    have := congrArg UInt64.toNat hzero
    rw [UInt64.toNat_add] at this
    change (log.gen.toNat + 1) % 2 ^ 64 = 0 at this
    rw [Nat.mod_eq_of_lt hlt] at this
    omega
  · cases hgen

end Store

end horndb.storage
