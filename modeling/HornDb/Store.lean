-- A durable store: the dictionary, the tier, and the log that both are recovered from. The
-- cold files, the lock of the directory, the counter of changes and the metrics are left out.
import HornDb.Wal
import HornDb.Dictionary
import HornDb.MemoryTier

open HornDb.Lib.Wire

namespace horndb.storage

/-! ## The log of a store -/

/-- The circuit inputs that were recovered: the batches that a tick closed, and the rest. -/
structure RecoveredInputs where
  ticks : List (List InputRecord)
  pending : List InputRecord
deriving DecidableEq

namespace RecoveredInputs

def empty : RecoveredInputs := ⟨[], []⟩

def push_input (r : RecoveredInputs) (rec : InputRecord) : RecoveredInputs :=
  { r with pending := r.pending ++ [rec] }

/-- A marker with nothing pending adds no batch. -/
def close_tick (r : RecoveredInputs) : RecoveredInputs :=
  if r.pending.isEmpty then r else ⟨r.ticks ++ [r.pending], []⟩

/-- Every input, in the order it was logged. -/
def inputs (r : RecoveredInputs) : List InputRecord := r.ticks.flatten ++ r.pending

end RecoveredInputs

/-- The log of an open store, with the base file of its generation. A record has carried the
dictionary indices up to `logged_len`, or the base holds them. -/
structure StoreWal (fst : FstLib) extends Wal where
  dict : Option (MappedBase fst)
  logged_len : Nat
  recovered : RecoveredInputs

/-- What a directory holds of the generation that its manifest names. The files of any other
generation are removed before the log is read. -/
structure Dir (fst : FstLib) where
  gen : UInt64
  dict : Option (MappedBase fst)
  wal : Bytes

def StoreWal.dir {fst : FstLib} (log : StoreWal fst) : Dir fst := ⟨log.gen, log.dict, log.file⟩

def Dir.empty {fst : FstLib} : Dir fst := ⟨0, none, []⟩

/-! ## The store -/

structure Store (ox : Oxrdf) (fst : FstLib) where
  dictionary : Dictionary ox fst
  tier : MemoryTier
  bnode_doc_tag : UInt64
  wal : Option (StoreWal fst)

/-- The quad of a record. -/
def RawQuad.quad (q : RawQuad) : Quad :=
  ⟨q.graph.toNat, q.subject.toNat, q.predicate.toNat, q.object.toNat⟩

/-- The quad in a record. -/
def Quad.raw (q : Quad) : RawQuad :=
  ⟨.ofNat q.graph, .ofNat q.subject, .ofNat q.predicate, .ofNat q.object⟩

variable {ox : Oxrdf} {fst : FstLib}

def Dictionary.base_bnode_doc_tag (d : Dictionary ox fst) : Nat :=
  d.base.elim 0 (·.next_bnode_doc_tag)

/-- The terms behind the index `logged`. A slot that was reclaimed cannot be logged any more. -/
def Dictionary.terms_after (d : Dictionary ox fst) (logged : Nat) : Outcome (List (Term ox)) :=
  if logged < d.base_len then
    .error (wal_err ("logged " ++ toString logged ++ " indices but the base holds " ++
      toString d.base_len))
  else
    (d.terms.drop (logged - d.base_len)).zipIdx.mapM fun e =>
      match e.1 with
      | some term => .ok term
      | none => .error (wal_err ("dictionary index " ++ toString (logged + e.2 + 1) ++
          " was reclaimed before it was logged"))

namespace MemoryTier

def version (t : MemoryTier) : Nat := t.current.version

def insert_at (t : MemoryTier) (quads : List RawQuad) (version : Option Nat) : MemoryTier :=
  { t with current := t.current.insert_at (quads.map RawQuad.quad) version }

def apply_at (t : MemoryTier) (dels adds : List RawQuad) (version : Option Nat) :
    MemoryTier × ApplyReport :=
  let (current, report) :=
    t.current.apply_at (dels.map RawQuad.quad) (adds.map RawQuad.quad) version
  ({ t with current }, report)

def retract_quad_batch (t : MemoryTier) (quads : List RawQuad) : MemoryTier × Nat :=
  let (current, retracted) := t.current.retract_quad_batch (quads.map RawQuad.quad)
  ({ t with current }, retracted)

def set_version (t : MemoryTier) (version : Nat) : MemoryTier :=
  { t with current := t.current.set_version version }

end MemoryTier

/-- The graphs that hold a live row, in order. -/
def TierSnapshot.live_graphs (t : TierSnapshot) : List GraphId :=
  (t.graphs.toList.filter fun e => e.2.toList.any fun p => decide (0 < p.2.live_len)).map (·.1)

/-- The triples of a graph that are visible now, predicate after predicate. -/
def TierSnapshot.iter_graph_term_ids (t : TierSnapshot) (g : GraphId) :
    List (TermId × TermId × TermId) :=
  (t.graphs.getD g ∅).toList.flatMap fun e =>
    (e.2.scan_at t.version).map fun row => ((ofLex row).1, e.1, (ofLex row).2)

namespace Store

def with_dictionary (dictionary : Dictionary ox fst) : Store ox fst :=
  ⟨dictionary, .new, .ofNat dictionary.base_bnode_doc_tag, none⟩

def in_memory : Store ox fst := with_dictionary .new

/-- The tag of a new document. The counter starts again after the last tag. -/
def next_bnode_doc_tag (store : Store ox fst) : UInt64 × Store ox fst :=
  (store.bnode_doc_tag, { store with bnode_doc_tag := store.bnode_doc_tag + 1 })

def intern (store : Store ox fst) (term : Term ox) : Store ox fst × Outcome TermId :=
  let (dictionary, out) := store.dictionary.intern term
  ({ store with dictionary }, out)

/-! ## Replay -/

/-- A store that is being recovered. -/
structure Replay (ox : Oxrdf) (fst : FstLib) where
  store : Store ox fst
  seen_batch : Bool
  recovered : RecoveredInputs

def replay_term (dict_first : UInt64) (d : Dictionary ox fst) (e : Term ox × Nat) :
    Outcome (Dictionary ox fst) :=
  match d.replay_append (dict_first + .ofNat e.2).toNat e.1 with
  | (d, .ok ()) => .ok d
  | (_, .error h) => .error h

def bad_record (what : String) (version cur : Nat) : Halt :=
  wal_err (what ++ " record at version " ++ toString version ++ " after version " ++ toString cur)

/-- What a replayed batch does to the tier. -/
def replay_rows (tier : MemoryTier) (seen_batch : Bool) (rec : BatchRecord ox) :
    Outcome (MemoryTier × Bool) :=
  let cur := tier.version
  let version := rec.version.toNat
  match rec.kind with
  | .Checkpoint =>
    if seen_batch ∨ (cur ≠ 0 ∧ cur ≠ version) then .error (bad_record "checkpoint" version cur)
    else
      let tier := if rec.adds.isEmpty then tier else tier.insert_at rec.adds (some version)
      .ok (tier.set_version version, seen_batch)
  | .Insert =>
    if version ≠ cur + 1 then .error (bad_record "batch" version cur)
    else .ok (tier.insert_at rec.adds (some version), true)
  | .Apply =>
    if version ≠ cur + 1 then .error (bad_record "batch" version cur)
    else .ok ((tier.apply_at rec.dels rec.adds (some version)).1, true)
  | _ => .error (bad_record "circuit" version cur)

def replay (st : Replay ox fst) : Record ox → Outcome (Replay ox fst)
  | .Input rec => .ok { st with recovered := st.recovered.push_input rec }
  | .TickCommit => .ok { st with recovered := st.recovered.close_tick }
  | .Batch rec => do
    let dictionary ← rec.dict.zipIdx.foldlM (replay_term rec.dict_first) st.store.dictionary
    let bnode_doc_tag := max st.store.bnode_doc_tag rec.bnode_doc_tag
    let (tier, seen_batch) ← replay_rows st.store.tier st.seen_batch rec
    pure { st with store := { st.store with dictionary, bnode_doc_tag, tier }, seen_batch }

/-- The dictionary that a directory is opened on. -/
def open_dictionary (dir : Dir fst) : Outcome (Dictionary ox fst) :=
  if dir.gen = 0 then .ok .new
  else
    match dir.dict with
    | some base => Dictionary.open_file base
    | none => .error (.error (.Io "dictionary base: no such file"))

def open_with (dir : Dir fst) (policy : SyncPolicy) : Outcome (Store ox fst) := do
  let dictionary ← open_dictionary dir
  let log : Wal := ⟨dir.gen, dir.wal, policy, false⟩
  let (st, log) ← log.replay replay ⟨with_dictionary dictionary, false, .empty⟩
  pure { st.store with
    wal := some
      { toWal := log
        dict := dir.dict
        logged_len := st.store.dictionary.len
        recovered := st.recovered } }

/-! ## Writing through the log -/

/-- Log every index that was interned since the last record, with the batch about to be
written. `elapsed` is the time since the last sync. -/
def append_record (store : Store ox fst) (log : StoreWal fst) (kind : Kind)
    (dels adds : List RawQuad) (elapsed : Nat) : Outcome (StoreWal fst) := do
  let terms ← store.dictionary.terms_after log.logged_len
  let body ← encode kind (.ofNat (store.tier.version + 1)) store.bnode_doc_tag
    (.ofNat (log.logged_len + 1)) terms dels adds
  let file ← log.append body elapsed
  pure { log with toWal := file, logged_len := log.logged_len + terms.length }

/-- The log after the record of a batch. Without rows there is no record. -/
def log_batch (store : Store ox fst) (kind : Kind) (dels adds : List RawQuad) (elapsed : Nat) :
    Outcome (Option (StoreWal fst)) :=
  match store.wal with
  | none => .ok none
  | some log =>
    if dels.isEmpty && adds.isEmpty then .ok (some log)
    else some <$> store.append_record log kind dels adds elapsed

/-- The record goes first, then the write. -/
def logged {α : Type} (store : Store ox fst) (kind : Kind) (dels adds : List RawQuad)
    (elapsed : Nat) (write : MemoryTier → MemoryTier × α) : Outcome (Store ox fst × α) := do
  let wal ← store.log_batch kind dels adds elapsed
  let (tier, out) := write store.tier
  pure ({ store with wal, tier }, out)

def insert_quad_batch (store : Store ox fst) (quads : List RawQuad) (elapsed : Nat) :
    Outcome (Store ox fst × Unit) :=
  store.logged .Insert [] quads elapsed fun tier => (tier.insert_at quads none, ())

def apply_quad_ids (store : Store ox fst) (dels adds : List RawQuad) (elapsed : Nat) :
    Outcome (Store ox fst × ApplyReport) :=
  store.logged .Apply dels adds elapsed fun tier => tier.apply_at dels adds none

/-- The rows of the triples whose terms the dictionary has. -/
def known_triples (store : Store ox fst) (triples : List (Term ox × Term ox × Term ox)) :
    List RawQuad :=
  triples.filterMap fun t => do
    let s ← store.dictionary.get t.1
    let p ← store.dictionary.get t.2.1
    let o ← store.dictionary.get t.2.2
    pure (Quad.raw ⟨DEFAULT_GRAPH, s, p, o⟩)

def retract_triples (store : Store ox fst) (triples : List (Term ox × Term ox × Term ox))
    (elapsed : Nat) : Outcome (Store ox fst × Nat) :=
  store.logged .Apply (store.known_triples triples) [] elapsed fun tier =>
    tier.retract_quad_batch (store.known_triples triples)

def wal_or_err (store : Store ox fst) : Outcome (StoreWal fst) :=
  match store.wal with
  | some log => .ok log
  | none => .error (wal_err "store has no write-ahead log")

/-- The input is appended as it is: no record spells out the ids that it names. -/
def log_input (store : Store ox fst) (rec : InputRecord) (elapsed : Nat) :
    Outcome (Store ox fst) := do
  let log ← store.wal_or_err
  let file ← log.append (encode_input rec) elapsed
  pure { store with wal := some { log with toWal := file } }

/-- The marker is always synced. -/
def log_tick_commit (store : Store ox fst) (last_seq : UInt64) (elapsed : Nat) :
    Outcome (Store ox fst) := do
  let log ← store.wal_or_err
  let file ← log.append (encode_tick_commit (.ofNat store.tier.version) last_seq) elapsed
  pure { store with wal := some { log with toWal := file.sync } }

/-- What was recovered is handed out once. -/
def take_recovered_inputs (store : Store ox fst) : RecoveredInputs × Store ox fst :=
  match store.wal with
  | some log => (log.recovered, { store with wal := some { log with recovered := .empty } })
  | none => (.empty, store)

/-! ## Checkpoints -/

def flush_dictionary (store : Store ox fst) : Outcome (MappedBase fst) :=
  store.dictionary.flush store.bnode_doc_tag.toNat

/-- Rows of one checkpoint record. -/
def CHUNK : Nat := 2 ^ 20

/-- The rows visible now, graph after graph. -/
def checkpoint_rows (store : Store ox fst) : List RawQuad :=
  store.tier.current.live_graphs.flatMap fun g =>
    (store.tier.current.iter_graph_term_ids g).map fun t =>
      Quad.raw ⟨g, t.1, t.2.1, t.2.2⟩

/-- The full chunks and one more, which may be empty. -/
def row_chunks (rows : List RawQuad) : List (List RawQuad) :=
  if CHUNK ≤ rows.length then rows.take CHUNK :: row_chunks (rows.drop CHUNK) else [rows]
termination_by rows.length
decreasing_by
  rw [List.length_drop]
  have : 0 < CHUNK := Nat.two_pow_pos 20
  omega

variable (ox) in
def write_checkpoint_record (version bnode_doc_tag : UInt64) (file : Bytes)
    (rows : List RawQuad) : Outcome Bytes := do
  let body ← encode .Checkpoint version bnode_doc_tag 0 ([] : List (Term ox)) [] rows
  write_record file body

/-- The log of a generation made current. -/
def commit_generation (log : StoreWal fst) (gen : UInt64) (dict : MappedBase fst) (file : Bytes)
    (logged_len : Nat) : StoreWal fst where
  gen := gen
  file := file
  policy := log.policy
  dirty := false
  dict := some dict
  logged_len := logged_len
  recovered := .empty

/-- It panics when the generations are used up. -/
def next_generation (log : StoreWal fst) : Outcome UInt64 :=
  if log.gen.toNat + 1 < 2 ^ 64 then .ok (log.gen + 1) else .error .panic

def checkpoint (store : Store ox fst) : Outcome (Store ox fst) := do
  let log ← store.wal_or_err
  let gen ← next_generation log
  let dict ← store.flush_dictionary
  let file ← (row_chunks store.checkpoint_rows).foldlM
    (write_checkpoint_record ox (.ofNat store.tier.version) store.bnode_doc_tag) []
  pure { store with wal := some (commit_generation log gen dict file dict.slots) }

/-! ## Compaction -/

/-- The ids that stand in the tier, dead rows included. -/
def TierSnapshot.term_ids (t : TierSnapshot) : List TermId :=
  t.graphs.toList.flatMap fun g =>
    g.1 :: g.2.toList.flatMap fun p =>
      p.1 :: p.2.scan.flatMap fun row => [(ofLex row).1, (ofLex row).2]

/-- The id is that of slot `i`. -/
def marks_slot (i : Nat) (id : TermId) : Bool :=
  TermId.kind id ≠ some .InlineInt && TermId.payload id = i + 1

/-- A slot is live when the tier still names it. -/
def marks (store : Store ox fst) : List Bool :=
  (List.range store.dictionary.len).map fun i =>
    (TierSnapshot.term_ids store.tier.current).any (marks_slot i)

def gc_dictionary (store : Store ox fst) : Store ox fst :=
  { store with dictionary := (store.dictionary.gc store.marks).1 }

/-- The rows are reclaimed in any case, the terms only when their slots could be logged. -/
def compact (store : Store ox fst) (elapsed : Nat) : Store ox fst :=
  let store := { store with tier := store.tier.compact }
  match store.wal with
  | none => store.gc_dictionary
  | some log =>
    match store.append_record log .Apply [] [] elapsed with
    | .ok log => { store with wal := some log }.gc_dictionary
    | .error _ => store

end Store

end horndb.storage
