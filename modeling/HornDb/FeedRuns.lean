-- The feed slot over runs of requests: what the feed graph holds after each of them, and which
-- requests the slot refuses.
import HornDb.ReservedRuns
import HornDb.SlotText

namespace horndb.sparql

open text

variable {ox : Library} {ω : Type}

/-! ## The slot's quads -/

def feed_graph : GraphId := .NamedNode FEED_GRAPH

def xsd_integer : Datatype where
  as_str := XSD_INTEGER.toList
  trimmed := by decide
  other := by decide

def xsd_datetime : Datatype where
  as_str := XSD_DATETIME.toList
  trimmed := by decide
  other := by decide

def slot_key (ox : Library) (pred : String) (l : Literal ox) : StoredQuad ox :=
  ⟨feed_graph, .NamedNode FEED_SLOT_SUBJECT, .NamedNode pred, .Literal l⟩

/-- The four quads of a slot as the store keeps them. -/
def slot_keys (ox : Library) (fp : FeedPosition) (now : String) :
    List (StoredQuad ox) :=
  [slot_key ox PRED_ID (.Simple fp.id.toList),
    slot_key ox PRED_GENERATION (.Typed ['0'] xsd_integer),
    slot_key ox PRED_POSITION (.Simple fp.position.toList),
    slot_key ox PRED_ADVANCED_AT (.Typed now.toList xsd_datetime)]

/-- What a run has left in the slot: a position, and the time of its advance. -/
abbrev Advance := FeedPosition × String

def kept_keys (ox : Library) (kept : Option Advance) : List (StoredQuad ox) :=
  (kept.map fun a => slot_keys ox a.1 a.2).getD []

/-- The feed graph holds the slot's quads and no others. -/
def SlotHolds (kept : Option Advance) (st : Store ox) : Prop :=
  ∀ k, k ∈ st.quads ∧ k.g = feed_graph ↔ k ∈ kept_keys ox kept

theorem slot_quads_keys (ox : Library) (fp : FeedPosition) (now : String) :
    (slot_quads ⟨fp.id, 0, fp.position, now⟩).map AlgebraQuad.key =
      (slot_keys ox fp now).map some := by
  have hid := parse_escape_literal ox fp.id
  have hgen := parse_typed_literal ox (toString (0 : Int)) XSD_INTEGER xsd_integer rfl
  have hpos := parse_escape_literal ox fp.position
  have hnow := parse_typed_literal ox now XSD_DATETIME xsd_datetime rfl
  simp only [slot_quads, slot_keys, List.map_cons, List.map_nil, AlgebraQuad.key, plain_literal,
    typed_literal, algebra_to_oxrdf, hid, hgen, hpos, hnow]
  rfl

variable {fp : FeedPosition} {now : String}

theorem mem_slot_keys {k : StoredQuad ox} :
    (∃ q ∈ slot_quads ⟨fp.id, 0, fp.position, now⟩, q.key = some k) ↔ k ∈ slot_keys ox fp now := by
  have h := slot_quads_keys ox fp now
  constructor
  · rintro ⟨q, hq, hkey⟩
    have hmem : some k ∈ (slot_quads ⟨fp.id, 0, fp.position, now⟩).map AlgebraQuad.key :=
      List.mem_map.mpr ⟨q, hq, hkey⟩
    rw [h] at hmem
    obtain ⟨k', hk', heq⟩ := List.mem_map.mp hmem
    rwa [← Option.some.inj heq]
  · intro hk
    have hmem := List.mem_map_of_mem (f := some) hk
    rw [← h] at hmem
    exact List.mem_map.mp hmem

theorem slot_keys_feed {k : StoredQuad ox} (h : k ∈ slot_keys ox fp now) : k.g = feed_graph := by
  simp only [slot_keys, List.mem_cons, List.not_mem_nil, or_false] at h
  rcases h with rfl | rfl | rfl | rfl <;> rfl

/-- The four predicates differ. -/
theorem slot_keys_nodup (fp : FeedPosition) (now : String) : (slot_keys ox fp now).Nodup := by
  have hpreds : ((slot_keys ox fp now).map fun k => k.p).Nodup := by
    have hnames : [PRED_ID, PRED_GENERATION, PRED_POSITION, PRED_ADVANCED_AT].Nodup := by
      decide
    exact hnames.map (f := OxTerm.NamedNode) fun a b h => by cases h; rfl
  exact hpreds.of_map _

/-! ## Reading the slot -/

/-- What the feed reads of a text that the store printed. -/
def reread_text (ox : Library) (s : String) : String :=
  String.ofList (s.toList.flatMap (reread ox))

theorem reread_text_iff {s : String} : reread_text ox s = s ↔ Legible ox s := by
  have h := decode_iff_legible (rfl : (Literal.Simple s.toList : Literal ox).value = s.toList)
  rw [decode_to_string, Option.some_inj] at h
  exact h

/-- A field that one of the triples sets, and no other changes to something else. -/
theorem foldl_field {α : Type} {π : SlotFields → Option α} {v : Option α}
    {t₀ : Term × Term × Term} (hset : ∀ f : SlotFields, π (f.read t₀) = v)
    {ts : List (Term × Term × Term)}
    (hrest : ∀ t ∈ ts, ∀ f : SlotFields, π (f.read t) = v ∨ π (f.read t) = π f)
    {f : SlotFields} (h : π f = v ∨ t₀ ∈ ts) : π (ts.foldl SlotFields.read f) = v := by
  induction ts generalizing f with
  | nil =>
    rcases h with h | h
    · exact h
    · exact absurd h List.not_mem_nil
  | cons t ts ih =>
    rw [List.forall_mem_cons] at hrest
    rw [List.foldl_cons]
    refine ih hrest.2 ?_
    rcases h with h | h
    · refine Or.inl ?_
      rcases hrest.1 f with heq | heq
      · exact heq
      · rw [heq, h]
    · rcases List.mem_cons.mp h with rfl | h
      · exact Or.inl (hset f)
      · exact Or.inr h

/-- A stored quad as the scan gives it. -/
def scanned (k : StoredQuad ox) : Term × Term × Term :=
  (oxrdf_to_algebra k.s, oxrdf_to_algebra k.p, oxrdf_to_algebra k.o)

def reread_value (l : Literal ox) : String := String.ofList (l.value.flatMap (reread ox))

theorem read_id (f : SlotFields) (l : Literal ox) :
    f.read (scanned (slot_key ox PRED_ID l)) = { f with id := some (reread_value l) } := by
  have hdecode := decode_to_string l
  simp only [SlotFields.read, scanned, slot_key, oxrdf_to_algebra, if_pos]
  exact congrArg (fun id => ({ f with id := id } : SlotFields)) hdecode

theorem read_generation (f : SlotFields) (l : Literal ox) :
    f.read (scanned (slot_key ox PRED_GENERATION l)) =
      { f with generation := parse_i64 (reread_value l) } := by
  have hdecode := congrArg (Option.bind · parse_i64) (decode_to_string l)
  have hid : PRED_GENERATION ≠ PRED_ID := by decide
  simp only [SlotFields.read, scanned, slot_key, oxrdf_to_algebra, if_neg hid, if_pos]
  exact congrArg (fun g => ({ f with generation := g } : SlotFields)) hdecode

theorem read_position (f : SlotFields) (l : Literal ox) :
    f.read (scanned (slot_key ox PRED_POSITION l)) =
      { f with position := some (reread_value l) } := by
  have hdecode := decode_to_string l
  have hid : PRED_POSITION ≠ PRED_ID := by decide
  have hgen : PRED_POSITION ≠ PRED_GENERATION := by decide
  simp only [SlotFields.read, scanned, slot_key, oxrdf_to_algebra, if_neg hid, if_neg hgen, if_pos]
  exact congrArg (fun p => ({ f with position := p } : SlotFields)) hdecode

theorem read_advanced_at (f : SlotFields) (l : Literal ox) :
    f.read (scanned (slot_key ox PRED_ADVANCED_AT l)) =
      { f with advanced_at := some (reread_value l) } := by
  have hdecode := decode_to_string l
  have hid : PRED_ADVANCED_AT ≠ PRED_ID := by decide
  have hgen : PRED_ADVANCED_AT ≠ PRED_GENERATION := by decide
  have hpos : PRED_ADVANCED_AT ≠ PRED_POSITION := by decide
  simp only [SlotFields.read, scanned, slot_key, oxrdf_to_algebra, if_neg hid, if_neg hgen,
    if_neg hpos, if_pos]
  exact congrArg (fun t => ({ f with advanced_at := t } : SlotFields)) hdecode

/-- The slot as the feed reads it back, from its quads in any order. -/
theorem slot_of_keys {ts : List (Term × Term × Term)}
    (hts : ∀ t, t ∈ ts ↔ ∃ k ∈ slot_keys ox fp now, scanned k = t) (hzero : Legible ox "0") :
    slot_of ts =
      some ⟨reread_text ox fp.id, 0, reread_text ox fp.position, reread_text ox now⟩ := by
  have hmem {k : StoredQuad ox} (hk : k ∈ slot_keys ox fp now) : scanned k ∈ ts :=
    (hts _).mpr ⟨k, hk, rfl⟩
  have hcases {t : Term × Term × Term} (ht : t ∈ ts) :
      t = scanned (slot_key ox PRED_ID (.Simple fp.id.toList)) ∨
      t = scanned (slot_key ox PRED_GENERATION (.Typed ['0'] xsd_integer)) ∨
      t = scanned (slot_key ox PRED_POSITION (.Simple fp.position.toList)) ∨
      t = scanned (slot_key ox PRED_ADVANCED_AT (.Typed now.toList xsd_datetime)) := by
    obtain ⟨k, hk, rfl⟩ := (hts t).mp ht
    simp only [slot_keys, List.mem_cons, List.not_mem_nil, or_false] at hk
    rcases hk with rfl | rfl | rfl | rfl
    · exact Or.inl rfl
    · exact Or.inr (Or.inl rfl)
    · exact Or.inr (Or.inr (Or.inl rfl))
    · exact Or.inr (Or.inr (Or.inr rfl))
  have hid : (ts.foldl SlotFields.read {}).id = some (reread_text ox fp.id) := by
    have hread (f : SlotFields) : (f.read (scanned (slot_key ox PRED_ID
        (.Simple fp.id.toList)))).id = some (reread_text ox fp.id) := by
      rw [read_id]
      rfl
    refine foldl_field hread (fun t ht f => ?_) (Or.inr (hmem List.mem_cons_self))
    rcases hcases ht with rfl | rfl | rfl | rfl
    · exact Or.inl (hread f)
    · exact Or.inr (by rw [read_generation])
    · exact Or.inr (by rw [read_position])
    · exact Or.inr (by rw [read_advanced_at])
  have hgen : (ts.foldl SlotFields.read {}).generation = some 0 := by
    have hread (f : SlotFields) : (f.read (scanned (slot_key ox PRED_GENERATION
        (.Typed ['0'] xsd_integer)))).generation = some 0 := by
      rw [read_generation]
      change parse_i64 (reread_text ox "0") = some 0
      have hint : "0".toInt? = some 0 := Nat.toInt?_repr 0
      rw [reread_text_iff.mpr hzero, parse_i64, hint]
      rfl
    refine foldl_field hread (fun t ht f => ?_) (Or.inr (hmem (by simp [slot_keys])))
    rcases hcases ht with rfl | rfl | rfl | rfl
    · exact Or.inr (by rw [read_id])
    · exact Or.inl (hread f)
    · exact Or.inr (by rw [read_position])
    · exact Or.inr (by rw [read_advanced_at])
  have hpos : (ts.foldl SlotFields.read {}).position = some (reread_text ox fp.position) := by
    have hread (f : SlotFields) : (f.read (scanned (slot_key ox PRED_POSITION
        (.Simple fp.position.toList)))).position = some (reread_text ox fp.position) := by
      rw [read_position]
      rfl
    refine foldl_field hread (fun t ht f => ?_) (Or.inr (hmem (by simp [slot_keys])))
    rcases hcases ht with rfl | rfl | rfl | rfl
    · exact Or.inr (by rw [read_id])
    · exact Or.inr (by rw [read_generation])
    · exact Or.inl (hread f)
    · exact Or.inr (by rw [read_advanced_at])
  have hnow : (ts.foldl SlotFields.read {}).advanced_at = some (reread_text ox now) := by
    have hread (f : SlotFields) : (f.read (scanned (slot_key ox PRED_ADVANCED_AT
        (.Typed now.toList xsd_datetime)))).advanced_at = some (reread_text ox now) := by
      rw [read_advanced_at]
      rfl
    refine foldl_field hread (fun t ht f => ?_) (Or.inr (hmem (by simp [slot_keys])))
    rcases hcases ht with rfl | rfl | rfl | rfl
    · exact Or.inr (by rw [read_id])
    · exact Or.inr (by rw [read_generation])
    · exact Or.inr (by rw [read_position])
    · exact Or.inl (hread f)
  simp only [slot_of, hid, hgen, hpos, hnow, Option.getD_some]

/-! ## One advance -/

theorem scan_graph_call (fails : Faults) (st : Store ox) :
    st.scan_graph_quads fails (.NamedNode FEED_GRAPH) =
      if fails st.calls then
        (.error (.Executor "scan_graph"), { st with calls := st.calls + 1 })
      else (.ok ((st.quads.filter fun k => k.g == feed_graph).map scanned),
        { st with calls := st.calls + 1 }) := by
  unfold Store.scan_graph_quads Store.call
  cases fails st.calls <;> rfl

variable {kept : Option Advance} {st : Store ox}

/-- The slot is read back as it was left, but for the escapes that stay. -/
theorem read_slot_holds (h : SlotHolds kept st) (hzero : Legible ox "0") (fails : Faults) :
    read_slot fails st =
      if fails st.calls then
        (.error (.Executor "scan_graph"), { st with calls := st.calls + 1 })
      else (.ok (kept.map fun a =>
          ⟨reread_text ox a.1.id, 0, reread_text ox a.1.position, reread_text ox a.2⟩),
        { st with calls := st.calls + 1 }) := by
  have hslot : slot_of ((st.quads.filter fun k => k.g == feed_graph).map scanned) =
      kept.map fun a =>
        ⟨reread_text ox a.1.id, 0, reread_text ox a.1.position, reread_text ox a.2⟩ := by
    cases kept with
    | none =>
      have hnone : st.quads.filter (fun k => k.g == feed_graph) = [] := by
        rw [List.filter_eq_nil_iff]
        intro k hk hg
        exact absurd ((h k).mp ⟨hk, beq_iff_eq.mp hg⟩) List.not_mem_nil
      rw [hnone]
      rfl
    | some a =>
      suffices hkeys : ∀ t, t ∈ _ ↔ ∃ k ∈ slot_keys ox a.1 a.2, scanned k = t from
        slot_of_keys hkeys hzero
      intro t
      simp only [List.mem_map, List.mem_filter, beq_iff_eq]
      exact exists_congr fun k => and_congr_left fun _ => h k
  rw [read_slot, scan_graph_call]
  cases fails st.calls with
  | true => rfl
  | false => simp only [Bool.false_eq_true, if_false, hslot]

/-- What a run has left is legible, so that the feed deletes it by its text. -/
def Advance.Legible (ox : Library) (a : Advance) : Prop :=
  horndb.sparql.Legible ox a.1.id ∧ horndb.sparql.Legible ox a.1.position ∧
    horndb.sparql.Legible ox a.2

theorem reread_slot (h : ∀ a, kept = some a → a.Legible ox) :
    (kept.map fun a => (⟨reread_text ox a.1.id, 0, reread_text ox a.1.position,
      reread_text ox a.2⟩ : Slot)) = kept.map fun a => ⟨a.1.id, 0, a.1.position, a.2⟩ := by
  cases kept with
  | none => rfl
  | some a =>
    obtain ⟨hid, hpos, hnow⟩ := h a rfl
    rw [Option.map_some, reread_text_iff.mpr hid, reread_text_iff.mpr hpos,
      reread_text_iff.mpr hnow]
    rfl

theorem mem_kept_keys {k : StoredQuad ox} :
    (∃ q ∈ ((kept.map fun a => (⟨a.1.id, 0, a.1.position, a.2⟩ : Slot)).map slot_quads).getD [],
      q.key = some k) ↔ k ∈ kept_keys ox kept := by
  cases kept with
  | none => simp [kept_keys]
  | some a => exact mem_slot_keys

/-- An advance replaces the slot, or its batch fails and the slot stays. -/
theorem advance_slot_holds (h : SlotHolds kept st) (hlegible : ∀ a, kept = some a → a.Legible ox)
    (hzero : Legible ox "0") (fails : Faults) (now : String) (fp : FeedPosition) :
    ((advance_slot fails now st fp).1 = .ok () ∧
      SlotHolds (some (fp, now)) (advance_slot fails now st fp).2) ∨
    ((∃ e, (advance_slot fails now st fp).1 = .error e) ∧
      SlotHolds kept (advance_slot fails now st fp).2) := by
  unfold advance_slot
  rw [read_slot_holds h hzero, reread_slot hlegible]
  cases fails st.calls with
  | true => exact Or.inr ⟨⟨_, rfl⟩, h⟩
  | false =>
    simp only [Bool.false_eq_true, if_false, Store.apply_quads, call_eq]
    cases fails (st.calls + 1) with
    | true => exact Or.inr ⟨⟨_, rfl⟩, h⟩
    | false =>
      refine Or.inl ⟨rfl, fun k => ?_⟩
      simp only [Bool.false_eq_true, if_false, mem_apply_batch, slot_delta]
      have hadd : (∃ q ∈ slot_quads ⟨fp.id, 0, fp.position, now⟩, q.key = some k) ↔
          k ∈ slot_keys ox fp now := mem_slot_keys
      rw [hadd]
      constructor
      · rintro ⟨⟨hk, hdel⟩ | hk, hg⟩
        · -- what was in the feed graph is deleted by its key
          obtain ⟨q, hq, hkey⟩ := mem_kept_keys.mpr ((h k).mp ⟨hk, hg⟩)
          exact absurd hkey (hdel q hq)
        · exact hk
      · intro hk
        exact ⟨Or.inr hk, slot_keys_feed hk⟩

/-! ## Requests -/

/-- A request that carries a position, and what it runs with. -/
structure Request (ox : Library) (ω : Type) where
  env : Env ox ω
  update : ParsedUpdate ω
  feed : FeedPosition

variable [DecidableEq ω]

def Request.serve (r : Request ox ω) (st : Store ox) :
    Result Unit × Store ox :=
  apply_update_with_feed r.env r.update (some r.feed) st

/-- A LOAD without INTO that is applied, and whose batch succeeds, reads no document that names the
feed graph. -/
def Request.AvoidsFeed (r : Request ox ω) (st : Store ox) : Prop :=
  ∀ silent source s, Applied r.env r.update (some r.feed) st (.Load silent source none) s →
    r.env.fails s.store.calls = false →
    ∀ quads, fetch_and_parse r.env.docs s.store.bnode_doc_tag source = .ok quads →
      ∀ q ∈ quads, q.g ≠ some FEED_GRAPH

omit [DecidableEq ω] in
theorem SlotHolds.congr {st st' : Store ox} (h : SlotHolds kept st)
    (heq : ∀ k : StoredQuad ox, k.g = feed_graph → (k ∈ st'.quads ↔ k ∈ st.quads)) :
    SlotHolds kept st' := fun k =>
  (and_congr_left fun hg => heq k hg).trans (h k)

omit [DecidableEq ω] in
theorem feed_graph_reserved (g : GraphId) (h : g = feed_graph) : g.Reserved := by
  rw [h]
  change is_reserved_graph FEED_GRAPH = true
  decide

/-- A request advances the slot where it succeeds, and leaves it where it fails. -/
theorem serve_holds (r : Request ox ω) (h : SlotHolds kept st)
    (hlegible : ∀ a, kept = some a → a.Legible ox) (hzero : Legible ox "0")
    (hload : r.AvoidsFeed st) :
    ((r.serve st).1 = .ok () ∧ SlotHolds (some (r.feed, r.env.now)) (r.serve st).2) ∨
      ((∃ e, (r.serve st).1 = .error e) ∧ SlotHolds kept (r.serve st).2) := by
  unfold Request.serve apply_update_with_feed
  have hq := preflight_quads r.env r.update (some r.feed) st
  cases hpre : preflight r.env r.update (some r.feed) st with
  | mk res st₁ =>
    rw [hpre] at hq
    have h₁ : SlotHolds kept st₁ := h.congr fun k _ => by rw [hq]
    cases res with
    | error e => exact Or.inr ⟨⟨e, rfl⟩, h₁⟩
    | ok u =>
      have havoid : LoadsAvoid (· = feed_graph) r.env
          (locate_amc_hints r.update.amc_hints r.update.operations) 0 r.update.operations
          ⟨st₁, .new (decide (r.update.operations.length > 1))⟩ := by
        rintro op s happ hok silent source rfl quads hread q hq hg
        refine hload silent source s ⟨st₁, hpre, happ⟩ hok quads hread q hq ?_
        cases hname : q.g with
        | none =>
          rw [hname] at hg
          cases hg
        | some iri =>
          rw [hname] at hg
          cases hg
          rfl
      have hrun : Spared (· = feed_graph) st₁.quads (run_request r.env r.update st₁).2 :=
        run_ops_spared feed_graph_reserved (preflight_ok hpre) havoid
          ⟨fun _ _ => Iff.rfl, by simp [Journal.new]⟩
      dsimp only
      cases hreq : run_request r.env r.update st₁ with
      | mk res s =>
        rw [hreq] at hrun
        cases res with
        | error e =>
          exact Or.inr ⟨⟨e, rfl⟩, h₁.congr fun k hk => rollback_spared hrun hk⟩
        | ok u =>
          exact advance_slot_holds (h₁.congr hrun.same) hlegible hzero r.env.fails r.env.now r.feed

/-- The slot refuses a request for another feed, and nothing else changes. -/
theorem serve_refuses {a : Advance} (r : Request ox ω) (h : SlotHolds (some a) st)
    (hlegible : a.Legible ox) (hzero : Legible ox "0") (hid : a.1.id ≠ r.feed.id) :
    (∃ e, (r.serve st).1 = .error e) ∧ (r.serve st).2.quads = st.quads ∧
      (r.serve st).2.bnode_doc_tag = st.bnode_doc_tag := by
  have hread := read_slot_holds h hzero r.env.fails
  rw [reread_slot (fun b hb => by cases hb; exact hlegible)] at hread
  unfold Request.serve apply_update_with_feed preflight check_feed_id
  rw [hread]
  cases r.env.fails st.calls with
  | true => exact ⟨⟨_, rfl⟩, rfl, rfl⟩
  | false =>
    simp only [Bool.false_eq_true, if_false, Option.map_some, if_pos hid]
    exact ⟨⟨_, rfl⟩, trivial, trivial⟩

omit [DecidableEq ω] in
/-- The slot's own feed passes its check, unless the scan itself fails. -/
theorem check_passes (fails : Faults) (h : SlotHolds kept st)
    (hlegible : ∀ a, kept = some a → a.Legible ox) (hzero : Legible ox "0")
    (hid : ∀ a, kept = some a → a.1.id = fp.id) (hok : fails st.calls = false) :
    (check_feed_id fails st fp).1 = .ok () := by
  unfold check_feed_id
  rw [read_slot_holds h hzero, reread_slot hlegible, hok]
  cases kept with
  | none => rfl
  | some a =>
    simp only [Bool.false_eq_true, if_false, Option.map_some, ne_eq, hid a rfl,
      not_true_eq_false]

/-! ## Runs -/

/-- The store after the requests, and what the last one that succeeded left in the slot. -/
def run_feed : List (Request ox ω) → Store ox → Option Advance →
    Store ox × Option Advance
  | [], st, kept => (st, kept)
  | r :: rs, st, kept =>
    match r.serve st with
    | (.ok (), st) => run_feed rs st (some (r.feed, r.env.now))
    | (.error _, st) => run_feed rs st kept

/-- Every request meets the condition in the store that it finds. -/
def EachMeets (P : Request ox ω → Store ox → Prop) :
    List (Request ox ω) → Store ox → Prop
  | [], _ => True
  | r :: rs, st => P r st ∧ EachMeets P rs (r.serve st).2

/-- The characters of an RFC 3339 time. -/
def clock_char (c : Char) : Bool :=
  (0x30 ≤ c.toNat && c.toNat ≤ 0x39) || ['-', ':', 'T', 'Z', '.', '+'].contains c

/-- The clock gives RFC 3339 times. -/
def Request.Timed (r : Request ox ω) : Prop := ∀ c ∈ r.env.now.toList, clock_char c = true

/-- The library prints the characters of a time as they are. -/
def PrintsTimes (ox : Library) : Prop := ∀ c, clock_char c = true → ox.numeric c = false

def Request.Legible (r : Request ox ω) : Prop :=
  horndb.sparql.Legible ox r.feed.id ∧ horndb.sparql.Legible ox r.feed.position

omit [DecidableEq ω] in
theorem PrintsTimes.legible (hox : PrintsTimes ox) {s : String}
    (h : ∀ c ∈ s.toList, clock_char c = true) : Legible ox s := by
  intro c hc
  have hclock := h c hc
  have hne {d : Char} (hd : clock_char d = false) : c ≠ d := by
    rintro rfl
    rw [hclock] at hd
    cases hd
  have h1 : c ≠ '\x08' := hne rfl
  have h2 : c ≠ '\t' := hne rfl
  have h3 : c ≠ '\n' := hne rfl
  have h4 : c ≠ '\x0C' := hne rfl
  have h5 : c ≠ '\r' := hne rfl
  have h6 : c ≠ '"' := hne rfl
  have h7 : c ≠ '\\' := hne rfl
  rw [print_char, if_neg h1, if_neg h2, if_neg h3, if_neg h4, if_neg h5, if_neg h6, if_neg h7,
    if_neg (by rw [hox c hclock]; exact Bool.false_ne_true), escape_char, if_neg h7, if_neg h6,
    if_neg h3, if_neg h5, if_neg h2]

/-- The feed graph holds one slot, of four quads, and the feed reads the position back. -/
def HoldsSlot (fp : FeedPosition) (st : Store ox) : Prop :=
  ∃ now, (slot_keys ox fp now).length = 4 ∧ (slot_keys ox fp now).Nodup ∧
    SlotHolds (some (fp, now)) st ∧ ∀ fails, fails st.calls = false →
      (read_slot fails st).1 = .ok (some ⟨fp.id, 0, fp.position, now⟩)

/-- What a request and the slot that it finds do to each other. -/
structure SlotRight (kept : Option Advance) (r : Request ox ω) (st : Store ox) :
    Prop where
  advanced : (r.serve st).1 = .ok () → HoldsSlot r.feed (r.serve st).2
  passed : (∀ a, kept = some a → a.1.id = r.feed.id) → r.env.fails st.calls = false →
    (check_feed_id r.env.fails st r.feed).1 = .ok ()
  refused : ∀ a, kept = some a → a.1.id ≠ r.feed.id → (∃ e, (r.serve st).1 = .error e) ∧
    (r.serve st).2.quads = st.quads ∧ (r.serve st).2.bnode_doc_tag = st.bnode_doc_tag
  replayed : ∀ a, kept = some a → a.1 = r.feed → HoldsSlot r.feed (r.serve st).2

omit [DecidableEq ω] in
theorem SlotHolds.holdsSlot (h : SlotHolds (some (fp, now)) st)
    (hlegible : Advance.Legible ox (fp, now)) (hzero : Legible ox "0") : HoldsSlot fp st := by
  refine ⟨now, rfl, slot_keys_nodup fp now, h, fun fails hok => ?_⟩
  rw [read_slot_holds h hzero, reread_slot (fun a ha => by cases ha; exact hlegible), hok]
  rfl

theorem SlotHolds.slotRight {r : Request ox ω} (h : SlotHolds kept st)
    (hlegible : ∀ a, kept = some a → a.Legible ox) (hzero : Legible ox "0")
    (hnow : horndb.sparql.Legible ox r.env.now) (hr : r.Legible) (hload : r.AvoidsFeed st) :
    SlotRight kept r st := by
  have hserve := serve_holds r h hlegible hzero hload
  refine ⟨fun hok => ?_, check_passes r.env.fails h hlegible hzero, ?_, ?_⟩
  · rcases hserve with ⟨-, hst⟩ | ⟨⟨e, he⟩, -⟩
    · exact hst.holdsSlot ⟨hr.1, hr.2, hnow⟩ hzero
    · rw [he] at hok
      cases hok
  · rintro a rfl hid
    exact serve_refuses r h (hlegible a rfl) hzero hid
  · rintro ⟨fp, now⟩ rfl rfl
    rcases hserve with ⟨-, hst⟩ | ⟨-, hst⟩
    · exact hst.holdsSlot ⟨hr.1, hr.2, hnow⟩ hzero
    · exact hst.holdsSlot (hlegible _ rfl) hzero

/-- What a run of requests leaves in the slot, it can delete. -/
theorem run_feed_holds (hox : PrintsTimes ox) {rs : List (Request ox ω)} (h : SlotHolds kept st)
    (hlegible : ∀ a, kept = some a → a.Legible ox) (hzero : Legible ox "0")
    (htimed : ∀ r ∈ rs, r.Timed)
    (hmeets : EachMeets (fun r st => r.Legible ∧ r.AvoidsFeed st) rs st) :
    SlotHolds (run_feed rs st kept).2 (run_feed rs st kept).1 ∧
      ∀ a, (run_feed rs st kept).2 = some a → a.Legible ox := by
  induction rs generalizing st kept with
  | nil => exact ⟨h, hlegible⟩
  | cons r rs ih =>
    rw [List.forall_mem_cons] at htimed
    obtain ⟨⟨hr, hload⟩, hrest⟩ := hmeets
    have hserve := serve_holds r h hlegible hzero hload
    rw [run_feed]
    revert hserve hrest
    rcases r.serve st with ⟨res, st'⟩
    intro hrest hserve
    cases res with
    | ok u =>
      rcases hserve with ⟨-, hst⟩ | ⟨⟨e, he⟩, -⟩
      · refine ih hst ?_ htimed.2 hrest
        rintro a ha
        cases ha
        exact ⟨hr.1, hr.2, hox.legible htimed.1⟩
      · cases he
    | error e =>
      rcases hserve with ⟨hok, -⟩ | ⟨-, hst⟩
      · cases hok
      · exact ih hst hlegible htimed.2 hrest

omit [DecidableEq ω] in
theorem SlotHolds.legible_of_holdsSlot {r : Request ox ω} (h : SlotHolds (some (r.feed, now)) st)
    (hzero : horndb.sparql.Legible ox "0") (hslot : HoldsSlot r.feed st) : r.Legible := by
  obtain ⟨now, -, -, -, hread⟩ := hslot
  have heq := hread (fun _ => false) rfl
  rw [read_slot_holds h hzero] at heq
  simp only [Bool.false_eq_true, if_false, Option.map_some, Except.ok.injEq, Option.some.injEq,
    Slot.mk.injEq] at heq
  exact ⟨reread_text_iff.mp heq.1, reread_text_iff.mp heq.2.2.1⟩

/-- In every run whose requests have legible ids and positions and load no document that names the
feed graph: the next such request and the slot behave as they should. Of its id and position this
is what it takes: where it succeeds, the slot is right if and only if they are legible. -/
theorem feed_slot_runs (hox : PrintsTimes ox) (rs : List (Request ox ω)) (r : Request ox ω)
    (st : Store ox) (hempty : ∀ k ∈ st.quads, k.g ≠ .NamedNode FEED_GRAPH)
    (htimed : ∀ q ∈ rs ++ [r], q.Timed)
    (hmeets : EachMeets (fun r st => r.Legible ∧ r.AvoidsFeed st) rs st)
    (hload : r.AvoidsFeed (run_feed rs st none).1) :
    (r.Legible → SlotRight (run_feed rs st none).2 r (run_feed rs st none).1) ∧
      ((r.serve (run_feed rs st none).1).1 = .ok () →
        (HoldsSlot r.feed (r.serve (run_feed rs st none).1).2 ↔ r.Legible)) := by
  have hzero : Legible ox "0" := hox.legible fun c hc => by
    rw [List.mem_singleton.mp hc]
    rfl
  have hstart : SlotHolds none st :=
    fun k => ⟨fun hk => absurd hk.2 (hempty k hk.1), fun hk => absurd hk List.not_mem_nil⟩
  have hnow : Legible ox r.env.now := hox.legible (htimed r (by simp))
  obtain ⟨h, hlegible⟩ := run_feed_holds hox hstart (fun a ha => by cases ha) hzero
    (fun q hq => htimed q (List.mem_append_left _ hq)) hmeets
  have hright (hr : r.Legible) := h.slotRight hlegible hzero hnow hr hload
  refine ⟨hright, fun hok => ⟨?_, fun hr => (hright hr).advanced hok⟩⟩
  rcases serve_holds r h hlegible hzero hload with ⟨-, hst⟩ | ⟨⟨e, he⟩, -⟩
  · exact hst.legible_of_holdsSlot hzero
  · rw [he] at hok
    cases hok

/-! ## Requests without operations -/

def quiet_env : Env ascii Unit where
  fails _ := false
  query := ⟨Unit, fun _ => .error (.UnsupportedAlgebra "pattern"), fun _ _ _ => .ok []⟩
  docs := forged_docs
  now := "2026-01-01T00:00:00Z"

def beat (id position : String) : Request ascii Unit := ⟨quiet_env, ⟨[], []⟩, ⟨id, position⟩⟩

theorem beat_avoids (id position : String) (st : Store ascii) :
    (beat id position).AvoidsFeed st := by
  rintro silent source s ⟨st₁, -, happ⟩
  cases happ

theorem ascii_prints_times : PrintsTimes ascii := by
  intro c h
  simp only [clock_char, Bool.or_eq_true, Bool.and_eq_true, decide_eq_true_eq,
    List.contains_eq_mem, List.mem_cons, List.not_mem_nil, or_false] at h
  rcases h with h | rfl | rfl | rfl | rfl | rfl | rfl
  · simp only [ascii, Bool.or_eq_false_iff, decide_eq_false_iff_not, beq_eq_false_iff_ne]
    omega
  all_goals rfl

theorem beat_timed (id position : String) : (beat id position).Timed := by
  intro c hc
  have hall : "2026-01-01T00:00:00Z".toList.all clock_char = true := by decide
  exact List.all_eq_true.mp hall c hc

theorem beat_legible {id position : String} (hid : id.toList.all clock_char = true)
    (hpos : position.toList.all clock_char = true) : (beat id position).Legible :=
  ⟨ascii_prints_times.legible (List.all_eq_true.mp hid),
    ascii_prints_times.legible (List.all_eq_true.mp hpos)⟩

/-- Two positions of one feed, and the second of them again. -/
theorem three_beats : SlotRight (run_feed [beat "7" "1", beat "7" "2"] ⟨[], 0, 0⟩ none).2
    (beat "7" "2") (run_feed [beat "7" "1", beat "7" "2"] ⟨[], 0, 0⟩ none).1 :=
  (feed_slot_runs ascii_prints_times [beat "7" "1", beat "7" "2"] (beat "7" "2") ⟨[], 0, 0⟩
    (fun k hk => absurd hk List.not_mem_nil)
    (fun q hq => by
      simp only [List.cons_append, List.nil_append, List.mem_cons, List.not_mem_nil,
        or_false] at hq
      rcases hq with rfl | rfl | rfl <;> exact beat_timed _ _)
    ⟨⟨beat_legible (by decide) (by decide), beat_avoids _ _ _⟩,
      ⟨beat_legible (by decide) (by decide), beat_avoids _ _ _⟩, trivial⟩
    (beat_avoids _ _ _)).1 (beat_legible (by decide) (by decide))

/-- A bell in the id: the request succeeds, its id is not read back, and the same request again is
refused as another feed's. -/
theorem bell_not_kept :
    ((beat "\x07" "1").serve ⟨[], 0, 0⟩).1 = .ok () ∧
      ¬HoldsSlot ⟨"\x07", "1"⟩ ((beat "\x07" "1").serve ⟨[], 0, 0⟩).2 ∧
      ∃ id, ((beat "\x07" "1").serve ((beat "\x07" "1").serve ⟨[], 0, 0⟩).2).1 =
        .error (.FeedIdMismatch id "\x07") := by
  have hok : ((beat "\x07" "1").serve ⟨[], 0, 0⟩).1 = .ok () := rfl
  have hzero : Legible ascii "0" := ascii_prints_times.legible fun c hc => by
    rw [List.mem_singleton.mp hc]
    rfl
  have hstart : SlotHolds none (⟨[], 0, 0⟩ : Store ascii) :=
    fun k => ⟨fun hk => absurd hk.1 List.not_mem_nil, fun hk => absurd hk List.not_mem_nil⟩
  have hbell : ¬Legible ascii "\x07" := fun h => absurd (h '\x07' List.mem_cons_self) (by decide)
  rcases serve_holds (beat "\x07" "1") hstart (fun a ha => by cases ha) hzero
    (beat_avoids _ _ _) with ⟨-, hst⟩ | ⟨⟨e, he⟩, -⟩
  · refine ⟨hok, fun hslot => hbell (hst.legible_of_holdsSlot hzero hslot).1,
      reread_text ascii "\x07", ?_⟩
    have hread := read_slot_holds hst hzero quiet_env.fails
    have hne : reread_text ascii "\x07" ≠ "\x07" := fun heq => hbell (reread_text_iff.mp heq)
    generalize ((beat "\x07" "1").serve ⟨[], 0, 0⟩).2 = st at hread
    unfold Request.serve apply_update_with_feed preflight check_feed_id
    dsimp only [beat] at hread ⊢
    rw [hread]
    simp only [quiet_env, Bool.false_eq_true, if_false, Option.map_some, ne_eq, if_pos hne]
  · rw [he] at hok
    cases hok

end horndb.sparql
