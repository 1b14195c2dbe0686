-- The records of the write-ahead log and the bytes of their bodies. Every body that is
-- written is read back, no part of it is, and no bytes make the reader panic.
import HornDb.TermCodec

open HornDb.Lib HornDb.Lib.Wire

namespace horndb.storage

/-- Term ids as they stand in a record, the graph first. -/
structure RawQuad where
  graph : UInt64
  subject : UInt64
  predicate : UInt64
  object : UInt64
deriving DecidableEq, Repr

inductive Kind where
  | Insert
  | Apply
  | Checkpoint
  | Input
  | TickCommit
deriving DecidableEq, Repr

def Kind.tag : Kind → UInt8
  | .Insert => 1
  | .Apply => 2
  | .Checkpoint => 3
  | .Input => 4
  | .TickCommit => 5

structure InputRecord where
  seq : UInt64
  triple : UInt64 × UInt64 × UInt64
  mult : Int64
  kind_tag : UInt64
deriving DecidableEq

/-- A committed batch. Its kind is one of the three that carry rows. -/
structure BatchRecord (ox : Oxrdf) where
  kind : Kind
  version : UInt64
  bnode_doc_tag : UInt64
  dict_first : UInt64
  dict : List (Term ox)
  dels : List RawQuad
  adds : List RawQuad
  carries_rows : kind = .Insert ∨ kind = .Apply ∨ kind = .Checkpoint

/-- A decoded record. Of a tick marker only the mark is kept. -/
inductive Record (ox : Oxrdf) where
  | Batch (rec : BatchRecord ox)
  | Input (rec : InputRecord)
  | TickCommit

def wal_err (msg : String) : Halt := .error (.Wal msg)

/-! ## Encoding -/

def u32_le (n : Nat) : Bytes := leBytes 4 n

def u64_le (n : UInt64) : Bytes := leBytes 8 n.toNat

def put_u32 (n : Nat) (what : String) : Outcome Bytes :=
  if n < 2 ^ 32 then .ok (u32_le n)
  else .error (wal_err (what ++ ": " ++ toString n ++ " does not fit a record"))

def quad_bytes (q : RawQuad) : Bytes :=
  u64_le q.graph ++ (u64_le q.subject ++ (u64_le q.predicate ++ u64_le q.object))

def put_quads (quads : List RawQuad) (what : String) : Outcome Bytes := do
  let count ← put_u32 quads.length what
  pure (count ++ quads.flatMap quad_bytes)

variable {ox : Oxrdf}

def put_terms : List (Term ox) → Outcome Bytes
  | [] => pure []
  | term :: dict => do
    let term_buf := encode_term term
    let len ← put_u32 term_buf.length "term length"
    let rest ← put_terms dict
    pure (len ++ (term_buf ++ rest))

def encode (kind : Kind) (version bnode_doc_tag dict_first : UInt64) (dict : List (Term ox))
    (dels adds : List RawQuad) : Outcome Bytes := do
  let n_dict ← put_u32 dict.length "dictionary appends"
  let terms ← put_terms dict
  let dels ← put_quads dels "deletions"
  let adds ← put_quads adds "insertions"
  pure (kind.tag :: (u64_le version ++ (u64_le bnode_doc_tag ++ (u64_le dict_first ++
    (n_dict ++ (terms ++ (dels ++ adds)))))))

def encode_input (rec : InputRecord) : Bytes :=
  Kind.Input.tag :: (u64_le rec.seq ++ (u64_le rec.triple.1 ++ (u64_le rec.triple.2.1 ++
    (u64_le rec.triple.2.2 ++ (u64_le rec.mult.toUInt64 ++ u64_le rec.kind_tag)))))

def encode_tick_commit (version last_seq : UInt64) : Bytes :=
  Kind.TickCommit.tag :: (u64_le version ++ u64_le last_seq)

/-! ## Decoding -/

/-- Cut the bytes in two. It panics when the cut is past the end. -/
def split_at (bytes : Bytes) (n : Nat) : Outcome (Bytes × Bytes) :=
  if n ≤ bytes.length then .ok (bytes.take n, bytes.drop n) else .error .panic

/-- The bytes as an array of `n`. It panics on any other number of them. -/
def to_array (n : Nat) (bytes : Bytes) : Outcome Bytes :=
  if bytes.length = n then .ok bytes else .error .panic

/-- A step that reads nothing. -/
def lift {α : Type} (o : Outcome α) : Reader Halt α := fun bytes => o >>= fun a => .ok (a, bytes)

namespace Cursor

def SHORT : Halt := wal_err "record body shorter than its fields"

def take (n : Nat) : Reader Halt Bytes := fun bytes =>
  if bytes.length < n then .error SHORT else split_at bytes n

def u8 : Reader Halt UInt8 := do
  let bytes ← take 1
  lift (match bytes with
    | [] => .error .panic
    | b :: _ => .ok b)

def u32 : Reader Halt Nat := do
  let bytes ← take 4
  let bytes ← lift (to_array 4 bytes)
  pure (ofLe bytes)

def u64 : Reader Halt UInt64 := do
  let bytes ← take 8
  let bytes ← lift (to_array 8 bytes)
  pure (UInt64.ofNat (ofLe bytes))

def quad : Reader Halt RawQuad := do
  let graph ← u64
  let subject ← u64
  let predicate ← u64
  let object ← u64
  pure ⟨graph, subject, predicate, object⟩

def quads : Reader Halt (List RawQuad) := do
  let n ← u32
  many n quad

variable (ox)

def term : Reader Halt (Term ox) := do
  let len ← u32
  let bytes ← take len
  lift (decode_term ox bytes)

end Cursor

variable (ox)

open Cursor

def decode_batch (kind : Kind) (h : kind = .Insert ∨ kind = .Apply ∨ kind = .Checkpoint) :
    Reader Halt (Record ox) := do
  let version ← u64
  let bnode_doc_tag ← u64
  let dict_first ← u64
  let n_dict ← u32
  let dict ← many n_dict (term ox)
  let dels ← quads
  let adds ← quads
  pure (.Batch ⟨kind, version, bnode_doc_tag, dict_first, dict, dels, adds, h⟩)

def decode_input : Reader Halt (Record ox) := do
  let seq ← u64
  let s ← u64
  let p ← u64
  let o ← u64
  let mult ← u64
  let kind_tag ← u64
  pure (.Input ⟨seq, (s, p, o), mult.toInt64, kind_tag⟩)

def decode_tick_commit : Reader Halt (Record ox) := do
  let _version ← u64
  let _last_seq ← u64
  pure .TickCommit

def decode_kind (k : UInt8) : Reader Halt (Record ox) :=
  if k = 1 then decode_batch ox .Insert (Or.inl rfl)
  else if k = 2 then decode_batch ox .Apply (Or.inr (Or.inl rfl))
  else if k = 3 then decode_batch ox .Checkpoint (Or.inr (Or.inr rfl))
  else if k = 4 then decode_input ox
  else if k = 5 then decode_tick_commit ox
  else lift (.error (wal_err ("unknown record kind " ++ toString k.toNat)))

/-- The record, when nothing of the body is left. -/
def finish (rest : Bytes) (rec : Record ox) : Outcome (Record ox) :=
  if !rest.isEmpty then .error (wal_err "trailing bytes in record body") else .ok rec

def decode (body : Bytes) : Outcome (Record ox) := do
  let (rec, rest) ← (u8 >>= decode_kind ox) body
  finish ox rest rec

/-! ## Fields read back -/

variable {ox}

theorem take_eq (n : Nat) : Cursor.take n = Wire.take SHORT n := by
  funext bytes
  unfold Cursor.take Wire.take split_at
  split
  · rfl
  · rename_i h
    rw [if_pos (Nat.not_lt.mp h)]

theorem reads_take (bytes : Bytes) : Reads (Cursor.take bytes.length) bytes bytes := by
  rw [take_eq]
  exact Reads.take SHORT bytes

theorem reads_lift {α : Type} {o : Outcome α} {a : α} (h : o = .ok a) : Reads (lift o) [] a := by
  subst h
  exact Reads.pure a

theorem reads_u8 (b : UInt8) : Reads u8 [b] b := by
  unfold u8
  exact Reads.bind (reads_take [b]) (reads_lift rfl)

/-- A field of `n` bytes that is read off an array of them. -/
theorem reads_array {α : Type} {n : Nat} {bytes : Bytes} (h : bytes.length = n) (f : Bytes → α) :
    Reads (Cursor.take n >>= fun b => lift (to_array n b) >>= fun b => pure (f b)) bytes
      (f bytes) := by
  have harray : to_array n bytes = .ok bytes := if_pos h
  have hread := (reads_take bytes).bind
    (k := fun b => lift (to_array n b) >>= fun b => pure (f b))
    ((reads_lift harray).bind (Reads.pure (f bytes)))
  rw [List.append_nil, List.append_nil, h] at hread
  exact hread

theorem reads_u32 {n : Nat} (h : n < 2 ^ 32) : Reads u32 (u32_le n) n := by
  have hread := reads_array (length_leBytes 4 n) ofLe
  rw [ofLe_leBytes, Nat.mod_eq_of_lt (by omega)] at hread
  exact hread

theorem reads_u64 (n : UInt64) : Reads u64 (u64_le n) n := by
  have hread := reads_array (length_leBytes 8 n.toNat) fun b => UInt64.ofNat (ofLe b)
  have hmod : n.toNat % 256 ^ 8 = n.toNat := Nat.mod_eq_of_lt n.toNat_lt
  rw [ofLe_leBytes, hmod, UInt64.ofNat_toNat] at hread
  exact hread

theorem reads_quad (q : RawQuad) : Reads quad (quad_bytes q) q := by
  unfold quad quad_bytes
  apply (reads_u64 q.graph).bind
  apply (reads_u64 q.subject).bind
  apply (reads_u64 q.predicate).bind
  exact (reads_u64 q.object).map fun object =>
    (⟨q.graph, q.subject, q.predicate, object⟩ : RawQuad)

theorem put_u32_ok {n : Nat} {what : String} {bytes : Bytes} (h : put_u32 n what = .ok bytes) :
    n < 2 ^ 32 ∧ bytes = u32_le n := by
  unfold put_u32 at h
  split at h
  · rename_i hn
    cases h
    exact ⟨hn, rfl⟩
  · cases h

theorem reads_quads {l : List RawQuad} {what : String} {bytes : Bytes}
    (h : put_quads l what = .ok bytes) : Reads quads bytes l := by
  unfold put_quads at h
  obtain ⟨count, hcount, h⟩ := bind_eq_ok h
  obtain ⟨hlt, rfl⟩ := put_u32_ok hcount
  cases h
  unfold quads
  apply (reads_u32 hlt).bind
  exact Reads.many l fun q _ => reads_quad q

theorem reads_term {t : Term ox} {len : Bytes} (hc : t.Checked)
    (h : put_u32 (encode_term t).length "term length" = .ok len) :
    Reads (term ox) (len ++ encode_term t) t := by
  obtain ⟨hlt, rfl⟩ := put_u32_ok h
  have hdecode := (decode_term_encode t (by omega)).eq hc
  have hread := (reads_u32 hlt).bind
    (k := fun len => Cursor.take len >>= fun bytes => lift (decode_term ox bytes))
    ((reads_take (encode_term t)).bind (reads_lift hdecode))
  rw [List.append_nil] at hread
  exact hread

theorem refuses_term {t : Term ox} {len : Bytes} (hnot : ¬t.Checked)
    (h : put_u32 (encode_term t).length "term length" = .ok len) :
    Refuses (term ox) (len ++ encode_term t) := by
  obtain ⟨hlt, rfl⟩ := put_u32_ok h
  obtain ⟨hc, -⟩ | ⟨-, e, he⟩ := decode_term_encode t (by omega)
  · exact absurd hc hnot
  · apply (reads_u32 hlt).refuses
    intro rest
    rw [bind_ok ((reads_take (encode_term t)).back rest), he]
    exact ⟨e, rfl⟩

theorem reads_terms {dict : List (Term ox)} (hc : ∀ t ∈ dict, t.Checked) :
    ∀ {bytes : Bytes}, put_terms dict = .ok bytes → Reads (many dict.length (term ox)) bytes dict := by
  induction dict with
  | nil =>
    intro bytes h
    cases h
    exact Reads.pure []
  | cons t dict ih =>
    intro bytes h
    rw [List.forall_mem_cons] at hc
    unfold put_terms at h
    obtain ⟨len, hlen, h⟩ := bind_eq_ok h
    obtain ⟨rest, hrest, h⟩ := bind_eq_ok h
    cases h
    rw [← List.append_assoc, List.length_cons, many]
    apply (reads_term hc.1 hlen).bind
    exact (ih hc.2 hrest).map (t :: ·)

theorem refuses_terms {dict : List (Term ox)} (hnot : ¬∀ t ∈ dict, t.Checked) :
    ∀ {bytes : Bytes}, put_terms dict = .ok bytes → Refuses (many dict.length (term ox)) bytes := by
  induction dict with
  | nil => exact absurd (fun _ h => nomatch h) hnot
  | cons t dict ih =>
    intro bytes h
    unfold put_terms at h
    obtain ⟨len, hlen, h⟩ := bind_eq_ok h
    obtain ⟨rest, hrest, h⟩ := bind_eq_ok h
    cases h
    rw [← List.append_assoc, List.length_cons, many]
    by_cases ht : t.Checked
    · apply (reads_term ht hlen).refuses
      rw [← List.append_nil rest]
      exact (ih (fun hall => hnot (List.forall_mem_cons.mpr ⟨ht, hall⟩)) hrest).bind _ []
    · exact (refuses_term ht hlen).bind _ rest

/-! ## The record read back -/

/-- What is appended to the log: a batch, an input, or the marker of a tick. -/
inductive Entry (ox : Oxrdf) where
  | Batch (rec : BatchRecord ox)
  | Input (rec : InputRecord)
  | TickCommit (version last_seq : UInt64)

def Entry.encode : Entry ox → Outcome Bytes
  | .Batch rec =>
    storage.encode rec.kind rec.version rec.bnode_doc_tag rec.dict_first rec.dict rec.dels rec.adds
  | .Input rec => .ok (encode_input rec)
  | .TickCommit version last_seq => .ok (encode_tick_commit version last_seq)

/-- The record that replay makes of it. -/
def Entry.record : Entry ox → Record ox
  | .Batch rec => .Batch rec
  | .Input rec => .Input rec
  | .TickCommit _ _ => .TickCommit

/-- The checks of the library pass every text of the dictionary section. -/
def Entry.Checked : Entry ox → Prop
  | .Batch rec => ∀ t ∈ rec.dict, t.Checked
  | _ => True

theorem decode_kind_batch {kind : Kind} (h : kind = .Insert ∨ kind = .Apply ∨ kind = .Checkpoint) :
    decode_kind ox kind.tag = decode_batch ox kind h := by
  rcases h with rfl | rfl | rfl <;> rfl

theorem reads_batch (rec : BatchRecord ox) (hc : ∀ t ∈ rec.dict, t.Checked) {bytes : Bytes}
    (h : storage.encode rec.kind rec.version rec.bnode_doc_tag rec.dict_first rec.dict rec.dels
      rec.adds = .ok bytes) :
    Reads (u8 >>= decode_kind ox) bytes (.Batch rec) := by
  obtain ⟨kind, version, tag, first, dict, dels, adds, hkind⟩ := rec
  unfold storage.encode at h
  obtain ⟨n_dict, hn, h⟩ := bind_eq_ok h
  obtain ⟨terms, hterms, h⟩ := bind_eq_ok h
  obtain ⟨dbytes, hdels, h⟩ := bind_eq_ok h
  obtain ⟨abytes, hadds, h⟩ := bind_eq_ok h
  cases h
  dsimp only at *
  obtain ⟨hlt, rfl⟩ := put_u32_ok hn
  have hbody : Reads (decode_batch ox kind hkind)
      (u64_le version ++ (u64_le tag ++ (u64_le first ++ (u32_le dict.length ++
        (terms ++ (dbytes ++ abytes))))))
      (.Batch ⟨kind, version, tag, first, dict, dels, adds, hkind⟩) := by
    unfold decode_batch
    apply (reads_u64 version).bind
    apply (reads_u64 tag).bind
    apply (reads_u64 first).bind
    apply (reads_u32 hlt).bind
    apply (reads_terms hc hterms).bind
    apply (reads_quads hdels).bind
    exact (reads_quads hadds).map fun adds =>
      Record.Batch ⟨kind, version, tag, first, dict, dels, adds, hkind⟩
  exact (reads_u8 kind.tag).bind (decode_kind_batch hkind ▸ hbody)

/-- A batch with a text that its check does not pass cannot be read. -/
theorem refuses_batch (rec : BatchRecord ox) (hnot : ¬∀ t ∈ rec.dict, t.Checked) {bytes : Bytes}
    (h : storage.encode rec.kind rec.version rec.bnode_doc_tag rec.dict_first rec.dict rec.dels
      rec.adds = .ok bytes) :
    Refuses (u8 >>= decode_kind ox) bytes := by
  obtain ⟨kind, version, tag, first, dict, dels, adds, hkind⟩ := rec
  unfold storage.encode at h
  obtain ⟨n_dict, hn, h⟩ := bind_eq_ok h
  obtain ⟨terms, hterms, h⟩ := bind_eq_ok h
  obtain ⟨dbytes, hdels, h⟩ := bind_eq_ok h
  obtain ⟨abytes, hadds, h⟩ := bind_eq_ok h
  cases h
  dsimp only at *
  obtain ⟨hlt, rfl⟩ := put_u32_ok hn
  apply (reads_u8 kind.tag).refuses
  rw [decode_kind_batch hkind]
  unfold decode_batch
  apply (reads_u64 version).refuses
  apply (reads_u64 tag).refuses
  apply (reads_u64 first).refuses
  apply (reads_u32 hlt).refuses
  exact (refuses_terms hnot hterms).bind _ (dbytes ++ abytes)

theorem reads_input (rec : InputRecord) :
    Reads (u8 >>= decode_kind ox) (encode_input rec) (.Input rec) := by
  obtain ⟨seq, ⟨s, p, o⟩, mult, tag⟩ := rec
  have hbody : Reads (decode_input ox)
      (u64_le seq ++ (u64_le s ++ (u64_le p ++ (u64_le o ++ (u64_le mult.toUInt64 ++ u64_le tag)))))
      (.Input ⟨seq, (s, p, o), mult.toUInt64.toInt64, tag⟩) := by
    unfold decode_input
    apply (reads_u64 seq).bind
    apply (reads_u64 s).bind
    apply (reads_u64 p).bind
    apply (reads_u64 o).bind
    apply (reads_u64 mult.toUInt64).bind
    exact (reads_u64 tag).map fun tag =>
      Record.Input ⟨seq, (s, p, o), mult.toUInt64.toInt64, tag⟩
  rw [Int64.toInt64_toUInt64] at hbody
  exact (reads_u8 Kind.Input.tag).bind hbody

theorem reads_tick_commit (version last_seq : UInt64) :
    Reads (u8 >>= decode_kind ox) (encode_tick_commit version last_seq) .TickCommit := by
  have hbody : Reads (decode_tick_commit ox) (u64_le version ++ u64_le last_seq)
      .TickCommit := by
    unfold decode_tick_commit
    apply (reads_u64 version).bind
    exact (reads_u64 last_seq).map fun _ => (Record.TickCommit : Record ox)
  exact (reads_u8 Kind.TickCommit.tag).bind hbody

theorem reads_entry (e : Entry ox) (hc : e.Checked) {body : Bytes} (h : e.encode = .ok body) :
    Reads (u8 >>= decode_kind ox) body e.record := by
  cases e with
  | Batch rec => exact reads_batch rec hc h
  | Input rec =>
    cases h
    exact reads_input rec
  | TickCommit version last_seq =>
    cases h
    exact reads_tick_commit version last_seq

/-- An entry is read back from its body when every text passes its check, and is refused when one
does not. -/
theorem decode_encode (e : Entry ox) {body : Bytes} (h : e.encode = .ok body) :
    Reread e.Checked e.record (decode ox body) := by
  by_cases hc : e.Checked
  · refine Or.inl ⟨hc, ?_⟩
    rw [decode, (reads_entry e hc h).whole]
    rfl
  · refine Or.inr ⟨hc, ?_⟩
    cases e with
    | Batch rec =>
      obtain ⟨err, herr⟩ := refuses_batch rec hc h []
      rw [List.append_nil] at herr
      exact ⟨err, by rw [decode, herr]; rfl⟩
    | Input rec => exact absurd trivial hc
    | TickCommit version last_seq => exact absurd trivial hc

/-! ## Any bytes -/

/-- The reader gives a value or an error, and never panics. -/
def Calm {α : Type} (r : Reader Halt α) : Prop := FailsIn (· ≠ .panic) r

theorem calm_lift {α : Type} {o : Outcome α} (h : NoPanic o) : Calm (lift o) := by
  intro bytes e he hpanic
  subst hpanic
  cases o with
  | ok a => cases he
  | error e =>
    cases he
    exact h rfl

theorem calm_take (n : Nat) : Calm (Cursor.take n) := by
  rw [take_eq]
  exact FailsIn.take nofun n

/-- What `take` gives has the length asked for. -/
theorem take_length {n : Nat} {bytes out rest : Bytes} (h : Cursor.take n bytes = .ok (out, rest)) :
    out.length = n := by
  rw [take_eq] at h
  unfold Wire.take at h
  split at h
  · cases h
  · rename_i hlen
    cases h
    rw [List.length_take]
    omega

/-- A field whose bytes are used at their length only. -/
theorem calm_field {α : Type} {n : Nat} {k : Bytes → Reader Halt α}
    (hk : ∀ b, b.length = n → Calm (k b)) : Calm (Cursor.take n >>= k) := by
  intro bytes e he
  cases hr : Cursor.take n bytes with
  | error e' =>
    rw [bind_error hr] at he
    cases he
    exact calm_take n bytes _ hr
  | ok out =>
    rw [bind_ok hr] at he
    exact hk out.1 (take_length hr) out.2 e he

theorem calm_array {α : Type} {n : Nat} (f : Bytes → α) :
    Calm (Cursor.take n >>= fun b => lift (to_array n b) >>= fun b => pure (f b)) := by
  apply calm_field
  intro b hb
  have harray : to_array n b = .ok b := if_pos hb
  rw [harray]
  exact FailsIn.bind (calm_lift (.ok b)) fun _ => .pure _

theorem calm_u8 : Calm u8 := by
  apply calm_field
  intro b hb
  match b, hb with
  | [x], _ => exact calm_lift (.ok x)

theorem calm_u32 : Calm u32 := calm_array ofLe

theorem calm_u64 : Calm u64 := calm_array fun b => UInt64.ofNat (ofLe b)

theorem calm_quads : Calm quads := by
  unfold quads
  apply FailsIn.bind calm_u32
  intro n
  apply FailsIn.many
  unfold quad
  apply FailsIn.bind calm_u64
  intro _
  apply FailsIn.bind calm_u64
  intro _
  apply FailsIn.bind calm_u64
  intro _
  exact FailsIn.bind calm_u64 fun _ => .pure _

theorem calm_term : Calm (term ox) := by
  unfold term
  apply FailsIn.bind calm_u32
  intro n
  exact FailsIn.bind (calm_take n) fun b => calm_lift (no_panic_decode_term b)

theorem calm_decode_batch (kind : Kind)
    (h : kind = .Insert ∨ kind = .Apply ∨ kind = .Checkpoint) : Calm (decode_batch ox kind h) := by
  unfold decode_batch
  apply FailsIn.bind calm_u64
  intro _
  apply FailsIn.bind calm_u64
  intro _
  apply FailsIn.bind calm_u64
  intro _
  apply FailsIn.bind calm_u32
  intro n
  apply FailsIn.bind (FailsIn.many calm_term n)
  intro _
  apply FailsIn.bind calm_quads
  intro _
  exact FailsIn.bind calm_quads fun _ => .pure _

theorem calm_decode_input : Calm (decode_input ox) := by
  unfold decode_input
  apply FailsIn.bind calm_u64
  intro _
  apply FailsIn.bind calm_u64
  intro _
  apply FailsIn.bind calm_u64
  intro _
  apply FailsIn.bind calm_u64
  intro _
  apply FailsIn.bind calm_u64
  intro _
  exact FailsIn.bind calm_u64 fun _ => .pure _

theorem calm_decode_kind (k : UInt8) : Calm (decode_kind ox k) := by
  unfold decode_kind
  split
  · exact calm_decode_batch _ _
  split
  · exact calm_decode_batch _ _
  split
  · exact calm_decode_batch _ _
  split
  · exact calm_decode_input
  split
  · exact FailsIn.bind calm_u64 fun _ => FailsIn.bind calm_u64 fun _ => .pure _
  · exact calm_lift nofun

theorem no_panic_decode (body : Bytes) : NoPanic (decode ox body) := by
  unfold decode
  apply NoPanic.bind
  · intro h
    exact FailsIn.bind calm_u8 calm_decode_kind body _ h rfl
  · intro out _
    dsimp only
    unfold finish
    split
    · exact nofun
    · exact .ok _

/-- What is no panic is a value or an error. -/
theorem NoPanic.cases {α : Type} {o : Outcome α} (h : NoPanic o) :
    (∃ a, o = .ok a) ∨ ∃ e, o = .error (.error e) := by
  match o, h with
  | .ok a, _ => exact Or.inl ⟨a, rfl⟩
  | .error (.error e), _ => exact Or.inr ⟨e, rfl⟩
  | .error .panic, h => exact absurd rfl h

/-! ## The codec -/

/-- A record is read back from its body, from no strict prefix of it and from nothing longer, just
when the checks of the library pass every text of its dictionary section. Any bytes give a value or
an error. -/
theorem record_codec (ox : Oxrdf) :
    (∀ (e : Entry ox) (body : Bytes), e.encode = .ok body →
      (decode ox body = .ok e.record ∧
        (∀ p, p <+: body → p ≠ body → ∃ err, decode ox p = .error (.error err)) ∧
        (∀ extra, extra ≠ [] → ∃ err, decode ox (body ++ extra) = .error (.error err)) ↔
      e.Checked)) ∧
    ∀ bytes, (∃ rec, decode ox bytes = .ok rec) ∨ ∃ err, decode ox bytes = .error (.error err) := by
  refine ⟨fun e body h => ⟨fun hback => ((decode_encode e h).back hback.1).1, fun hc =>
    ⟨(decode_encode e h).eq hc, fun p hp hne => ?_, fun extra hextra => ?_⟩⟩,
    fun bytes => (no_panic_decode bytes).cases⟩
  · refine (no_panic_decode p).cases.resolve_left fun ⟨rec, hrec⟩ => ?_
    obtain ⟨err, herr⟩ := (reads_entry e hc h).short p hp hne
    rw [decode, herr] at hrec
    cases hrec
  · refine ⟨.Wal "trailing bytes in record body", ?_⟩
    rw [decode, (reads_entry e hc h).back extra]
    refine if_pos ?_
    cases extra with
    | nil => exact absurd rfl hextra
    | cons b extra => rfl

/-- A triple term in a triple term, with a blank node and a language tag in them. -/
def quoted : Term .plain :=
  .Triple (.BlankNode ⟨"b", Oxrdf.held_b⟩) ⟨"ex:p", Oxrdf.held_ex_p⟩
    (.Triple (.NamedNode ⟨"ex:s", Oxrdf.held_ex_s⟩) ⟨"ex:p", Oxrdf.held_ex_p⟩
      (.Literal (.LanguageTagged "x" ⟨"en", Oxrdf.plain_en⟩)))

def quoted_batch : BatchRecord .plain where
  kind := .Apply
  version := 7
  bnode_doc_tag := 3
  dict_first := 20
  dict := [quoted]
  dels := [⟨1, 2, 3, 4⟩]
  adds := [⟨1, 2, 3, 20⟩]
  carries_rows := by decide

theorem quoted_batch_codec : ∃ body, (Entry.Batch quoted_batch).encode = .ok body ∧
    decode .plain body = .ok (.Batch quoted_batch) := by
  have hwritten : (Entry.Batch quoted_batch).encode.isOk = true := by decide +kernel
  have hchecked : (Entry.Batch quoted_batch).Checked := by
    intro t ht
    rw [List.mem_singleton.mp ht]
    exact ⟨Oxrdf.plain_b, Oxrdf.plain_ex_p, Oxrdf.plain_ex_s, Oxrdf.plain_ex_p, trivial⟩
  cases h : (Entry.Batch quoted_batch).encode with
  | ok body => exact ⟨body, rfl, (((record_codec .plain).1 _ body h).mpr hchecked).1⟩
  | error e =>
    rw [h] at hwritten
    cases hwritten

/-- The name of a graph of a document, which was a blank node there. -/
def graph_node : Term .plain := .NamedNode ⟨"hdb0_g", .inr Oxrdf.plain_hdb0_g⟩

theorem graph_node_unchecked : ¬graph_node.Checked :=
  (by decide : Oxrdf.plain.iri "hdb0_g" ≠ .ok ())

def graph_batch : BatchRecord .plain := { quoted_batch with dict := [graph_node] }

theorem graph_batch_unchecked : ¬(Entry.Batch graph_batch).Checked := fun h =>
  graph_node_unchecked (h graph_node (List.mem_singleton_self _))

/-- The batch that spells the name of the graph out is written and cannot be read back. -/
theorem graph_batch_refused : ∃ body err, (Entry.Batch graph_batch).encode = .ok body ∧
    decode .plain body = .error err := by
  have hwritten : (Entry.Batch graph_batch).encode.isOk = true := by decide +kernel
  cases h : (Entry.Batch graph_batch).encode with
  | ok body =>
    obtain ⟨hc, -⟩ | ⟨-, err, herr⟩ := decode_encode _ h
    · exact absurd hc graph_batch_unchecked
    · exact ⟨body, err, rfl, herr⟩
  | error e =>
    rw [h] at hwritten
    cases hwritten

end horndb.storage
