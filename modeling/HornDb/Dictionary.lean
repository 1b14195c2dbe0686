-- The term dictionary: an immutable base, the terms interned since, and the small integers
-- that are their own ids. The gauges of the heap bytes are left out.
import HornDb.DictBase

open Std HornDb.Lib HornDb.Lib.Wire

namespace horndb.storage

/-- Indices up to `base_len` resolve through the base, the later ones through `terms`. A slot
of `terms` is empty when its term was reclaimed; of the base, `base_dead` says which. -/
structure Dictionary (ox : Oxrdf) (fst : FstLib) where
  forward : ExtTreeMap Bytes TermId
  terms : List (Option (Term ox))
  base_dead : ExtTreeSet Nat
  freed : Nat
  base : Option (MappedBase fst)
  base_len : Nat
  tables : Tables

namespace Dictionary

variable {ox : Oxrdf} {fst : FstLib}

def with_base (base : Option (MappedBase fst)) : Dictionary ox fst where
  forward := ∅
  terms := []
  base_dead := ∅
  freed := base.elim 0 (·.freed)
  base := base
  base_len := base.elim 0 (·.slots)
  tables := .new

def new : Dictionary ox fst := with_base none

def open_file (file : MappedBase fst) : Outcome (Dictionary ox fst) := do
  let base ← file.open_file
  pure (with_base (some base))

def len (d : Dictionary ox fst) : Nat := d.base_len + d.terms.length

def live_len (d : Dictionary ox fst) : Nat := d.len - d.freed

/-! ## Interning and lookup -/

/-- The base half of a probe: none for a term that was reclaimed since. -/
def base_get (d : Dictionary ox fst) (term : Term ox) : Option TermId :=
  match d.base with
  | none => none
  | some base =>
    match base.get (encode_term term) with
    | none => none
    | some id => if TermId.payload id ∈ d.base_dead then none else some id

/-- Append a term that no probe found. -/
def intern_miss (d : Dictionary ox fst) (key : Bytes) (term : Term ox) :
    Dictionary ox fst × Outcome TermId :=
  match d.forward[key]? with
  | some existing => (d, .ok existing)
  | none =>
    let next_index := d.base_len + d.terms.length + 1
    if MAX_DICT_INDEX ≤ next_index then (d, .error (.error (.DictionaryFull next_index)))
    else
      let id := TermId.new (kind_of term) next_index
      ({ d with terms := d.terms ++ [some term], forward := d.forward.insert key id }, .ok id)

/-- The text of the term, that the source puts behind the message, is left out: interning
always has a key. -/
def no_key : Halt := .error (.InvalidTerm "term key could not be encoded: ")

def intern (d : Dictionary ox fst) (term : Term ox) : Dictionary ox fst × Outcome TermId :=
  match try_inline_int term with
  | some id => (d, .ok id)
  | none =>
    match d.tables.encode_into .Intern term with
    | (tables, none) => ({ d with tables }, .error no_key)
    | (tables, some key) =>
      let d := { d with tables }
      match d.forward[key]? with
      | some existing => (d, .ok existing)
      | none =>
        match d.base_get term with
        | some existing => (d, .ok existing)
        | none => d.intern_miss key term

/-- The id of a term, without interning it. -/
def get (d : Dictionary ox fst) (term : Term ox) : Option TermId :=
  match try_inline_int term with
  | some id => some id
  | none =>
    match (d.tables.key term).bind fun key => d.forward[key]? with
    | some id => some id
    | none => d.base_get term

/-- The term of a dictionary index. -/
def resolve (d : Dictionary ox fst) (idx : Nat) : Option (Term ox) :=
  if idx = 0 then none
  else if idx ≤ d.base_len then
    if idx ∈ d.base_dead then none
    else
      match d.base.bind (·.term_bytes idx) with
      | some bytes => (decode_term ox bytes).toOption
      | none => none
  else d.terms[idx - 1 - d.base_len]?.join

/-- The term of an id. It panics on an id with a reserved tag. -/
def lookup (d : Dictionary ox fst) (id : TermId) : Outcome (Option (Term ox)) :=
  match TermId.kind id with
  | none => .error .panic
  | some .InlineInt =>
    match TermId.as_inline_int id with
    | some v => (integer_term ox v).map some
    | none => .error .panic
  | some _ => .ok (d.resolve (TermId.payload id))

/-! ## Reclaiming -/

/-- The sweep at work: the dictionary, and the slots freed so far. -/
structure Sweep (ox : Oxrdf) (fst : FstLib) where
  dict : Dictionary ox fst
  freed : Nat

def gc_base_slot (s : Sweep ox fst) (e : Bool × Nat) : Sweep ox fst :=
  let idx := e.2 + 1
  let held := (s.dict.base.bind (·.term_bytes idx)).isSome
  if !e.1 && held && !s.dict.base_dead.contains idx then
    ⟨{ s.dict with base_dead := s.dict.base_dead.insert idx }, s.freed + 1⟩
  else s

/-- Drop the key of a term when it still names the slot. -/
def remove_key (d : Dictionary ox fst) (term : Term ox) (id : TermId) : Dictionary ox fst :=
  match d.tables.key term with
  | some key =>
    if d.forward[key]? = some id then { d with forward := d.forward.erase key } else d
  | none => d

def gc_slot (s : Sweep ox fst) (e : Bool × Nat) : Sweep ox fst :=
  if e.1 then s
  else
    let slot := e.2 - s.dict.base_len
    match s.dict.terms[slot]? with
    | some (some term) =>
      let d := { s.dict with terms := s.dict.terms.set slot none }
      ⟨d.remove_key term (TermId.new (kind_of term) (e.2 + 1)), s.freed + 1⟩
    | _ => s -- past the end, or already freed

/-- Free every slot whose mark in `live` is false. Slots past the marks are left alone. -/
def gc (d : Dictionary ox fst) (live : List Bool) : Dictionary ox fst × Nat :=
  let s := (live.zipIdx.take d.base_len).foldl gc_base_slot ⟨d, 0⟩
  let s := (live.zipIdx.drop d.base_len).foldl gc_slot s
  ({ s.dict with freed := s.dict.freed + s.freed }, s.freed)

/-! ## Persistence -/

def base_slot (d : Dictionary ox fst) (idx : Nat) : Outcome MappedBase.Slot :=
  if idx ∈ d.base_dead then .ok none
  else
    match d.base with
    | none => .error (.error (.Snapshot ("dictionary base: index " ++ toString idx ++ " has no base")))
    | some base => do
      match ← base.slot idx with
      | none => pure none
      | some bytes =>
        match encoded_kind bytes with
        | some kind => pure (some (bytes, TermId.new kind idx))
        | none =>
          .error (.error (.Snapshot ("dictionary base: index " ++ toString idx ++
            ": unknown term tag")))

def overlay_slot (base_len : Nat) (e : Option (Term ox) × Nat) : Outcome MappedBase.Slot :=
  match e.1 with
  | none => .ok none
  | some term => .ok (some (encode_term term, TermId.new (kind_of term) (base_len + e.2 + 1)))

/-- Write every index that was issued as one new base file. -/
def flush (d : Dictionary ox fst) (next_bnode_doc_tag : Nat) : Outcome (MappedBase fst) :=
  MappedBase.write fst
    (((List.range d.base_len).map fun i => d.base_slot (i + 1)) ++
      d.terms.zipIdx.map (overlay_slot d.base_len))
    next_bnode_doc_tag

/-- Free the slot that the key names, with the number of slots freed. -/
def free_stale (d : Dictionary ox fst) (key : Bytes) : List (Option (Term ox)) × Nat :=
  match d.forward[key]? with
  | some old =>
    let slot := TermId.payload old - d.base_len - 1
    match d.terms[slot]? with
    | some (some _) => (d.terms.set slot none, 1)
    | _ => (d.terms, 0)
  | none => (d.terms, 0)

def free_stale_base (d : Dictionary ox fst) (stale_base : Option TermId) : ExtTreeSet Nat × Nat :=
  match stale_base with
  | some old =>
    if TermId.payload old ∈ d.base_dead then (d.base_dead, 0)
    else (d.base_dead.insert (TermId.payload old), 1)
  | none => (d.base_dead, 0)

/-- Put a logged term at exactly its index. A slot that still holds the term is freed, as
the sweep before the log was written freed it. -/
def replay_append (d : Dictionary ox fst) (index : Nat) (term : Term ox) :
    Dictionary ox fst × Outcome Unit :=
  match try_inline_int term with
  | some _ =>
    (d, .error (.error (.Wal ("inline term logged as a dictionary append at index " ++
      toString index))))
  | none =>
    match d.tables.encode_into .Intern term with
    | (tables, none) => ({ d with tables }, .error no_key)
    | (tables, some key) =>
      let d := { d with tables }
      let next := d.base_len + d.terms.length + 1
      if next ≠ index then
        (d, .error (.error (.Wal ("dictionary append logged at index " ++ toString index ++
          " replayed as " ++ toString next))))
      else if MAX_DICT_INDEX ≤ next then (d, .error (.error (.DictionaryFull next)))
      else
        let (terms, freed) := d.free_stale key
        let (base_dead, base_freed) := d.free_stale_base (d.base_get term)
        ({ d with
            terms := terms ++ [some term]
            forward := d.forward.insert key (TermId.new (kind_of term) next)
            base_dead
            freed := d.freed + (freed + base_freed) }, .ok ())

end Dictionary

end horndb.storage
