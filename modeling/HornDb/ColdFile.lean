-- The file of a cold partition: a header, and then the rows as gaps, subject after subject.
-- It is checked by one decode pass when it is opened; each read is a decode pass of its own.
import HornDb.WalRecord
import HornDb.PartitionReads

open HornDb.Lib HornDb.Lib.Wire

namespace horndb.storage

/-! ## Writing -/

def MAGIC : Bytes := [0x48, 0x44, 0x42, 0x43, 0x4F, 0x4C, 0x44, 0x01]

def FORMAT_VERSION : Nat := 1

def HEADER_LEN : Nat := 44

/-- The ids of a row. -/
abbrev ColdRow := UInt64 × UInt64

def ColdRow.pair (r : ColdRow) : Pair := toLex (r.1.toNat, r.2.toNat)

/-- The gap after the value before, which must not be larger. -/
def checked_gap (value prev : UInt64) (msg : String) : Outcome Nat :=
  if value.toNat < prev.toNat then .error (snap_err msg) else .ok (value.toNat - prev.toNat)

def subject_msg (s prev_s : UInt64) : String :=
  "cold encoding requires strictly ascending subjects: " ++ toString s.toNat ++ " after " ++
    toString prev_s.toNat

def object_msg (o prev_o : UInt64) : String :=
  "cold encoding requires strictly ascending objects within a subject: " ++ toString o.toNat ++
    " after " ++ toString prev_o.toNat

def write_objects (prev_o : UInt64) : List UInt64 → Outcome Bytes
  | [] => .ok []
  | o :: objects => do
    let gap_o ← checked_gap o prev_o (object_msg o prev_o)
    let rest ← write_objects o objects
    pure (write_uvarint gap_o ++ rest)

/-- The rows of the first subject, and the rest. -/
def write_subjects (prev_s : UInt64) : List ColdRow → Outcome Bytes
  | [] => .ok []
  | (s, o) :: rows => do
    let gap_s ← checked_gap s prev_s (subject_msg s prev_s)
    let objects := o :: (rows.takeWhile fun r => decide (r.1 = s)).map Prod.snd
    let bytes ← write_objects 0 objects
    let rest ← write_subjects s (rows.dropWhile fun r => decide (r.1 = s))
    pure (write_uvarint gap_s ++ (write_uvarint objects.length ++ (bytes ++ rest)))
termination_by rows => rows.length
decreasing_by
  have hle := (List.dropWhile_sublist (l := rows) fun r => decide (r.1 = s)).length_le
  rw [List.length_cons]
  omega

/-- One more than the neighbours that differ, and none for no row. -/
def num_subjects (rows : List ColdRow) : Nat :=
  ((rows.zip rows.tail).filter fun w => decide (w.1.1 ≠ w.2.1)).length +
    if rows.isEmpty then 0 else 1

/-- The bytes of the file. Nothing is put in its place when a row is refused. -/
def write_cold (graph predicate version : UInt64) (rows : List ColdRow) : Outcome Bytes := do
  let block ← write_subjects 0 rows
  pure (MAGIC ++ (leBytes 4 FORMAT_VERSION ++ (u64_le graph ++ (u64_le predicate ++
    (leBytes 8 rows.length ++ (u64_le version ++ (write_uvarint (num_subjects rows) ++ block)))))))

/-! ## The decode pass -/

/-- What is left of the bytes after a value was read, or after the byte that no value has. -/
def uvarint_left (shift : Nat) : Bytes → Bytes
  | [] => []
  | byte :: rest =>
    if 64 ≤ shift ∨ (shift = 63 ∧ 1 < byte.toNat % 128) then rest
    else if byte.toNat < 128 then rest else uvarint_left (shift + 7) rest

/-- A forward cursor over the rows. Nothing is read before the first row is asked for. -/
structure ColdScan where
  cursor : Bytes
  subjects_left : Nat
  subject : Nat
  objects_left : Nat
  prev_o : Nat
  started : Bool
deriving DecidableEq

namespace ColdScan

def exhausted (st : ColdScan) : Bool :=
  st.cursor.isEmpty && st.subjects_left == 0 && st.objects_left == 0

/-- The next value, or the cursor where the decode ends. -/
def read_gap (st : ColdScan) : Except ColdScan (Nat × ColdScan) :=
  match read_uvarint st.cursor with
  | .ok (value, rest) => .ok (value, { st with cursor := rest })
  | .error _ => .error { st with cursor := uvarint_left 0 st.cursor }

theorem read_gap_lt {st st' : ColdScan} {value : Nat} (h : st.read_gap = .ok (value, st')) :
    st'.cursor.length < st.cursor.length := by
  unfold read_gap at h
  split at h
  · rename_i value' rest hread
    cases h
    cases hbytes : st.cursor with
    | nil =>
      rw [hbytes] at hread
      cases hread
    | cons byte bytes =>
      rw [hbytes] at hread
      unfold read_uvarint at hread
      rw [read_uvarint_from] at hread
      split at hread
      · cases hread
      · dsimp only at hread
        split at hread
        · cases hread
          exact Nat.lt_succ_self _
        · exact Nat.lt_succ_of_le (read_uvarint_from_length hread)
  · cases h

/-- Go on to a subject that has objects left. -/
def advance (st : ColdScan) : Except ColdScan ColdScan :=
  if st.objects_left ≠ 0 then .ok st
  else if st.subjects_left = 0 then .error st
  else
    match _hgap : read_gap { st with subjects_left := st.subjects_left - 1 } with
    | .error stop => .error stop
    | .ok (gap, st₁) =>
      match checked_add st₁.subject gap with
      | none => .error st₁
      | some subject =>
        match _hcount : read_gap { st₁ with subject } with
        | .error stop => .error stop
        | .ok (objects, st₂) => advance { st₂ with objects_left := objects, prev_o := 0 }
termination_by st.cursor.length
decreasing_by
  have h1 := read_gap_lt _hgap
  have h2 := read_gap_lt _hcount
  dsimp only at h1 h2 ⊢
  omega

/-- The count of the subjects is read before the first row. -/
def start (st : ColdScan) : Except ColdScan ColdScan :=
  if st.started then .ok st
  else do
    let (count, st) ← read_gap { st with started := true }
    pure { st with subjects_left := count }

/-- The next row. A decode error ends the rows. -/
def next (st : ColdScan) : Except ColdScan (Pair × ColdScan) := do
  let st ← st.start
  let st ← st.advance
  let (gap, st) ← read_gap { st with objects_left := st.objects_left - 1 }
  match checked_add st.prev_o gap with
  | none => .error st
  | some prev_o => pure (toLex (st.subject, prev_o), { st with prev_o })

theorem advance_le {st st' : ColdScan} (h : st.advance = .ok st') :
    st'.cursor.length ≤ st.cursor.length := by
  fun_induction advance st with
  | case1 st =>
    cases h
    exact Nat.le_refl _
  | case2 => cases h
  | case3 => cases h
  | case4 => cases h
  | case5 => cases h
  | case6 st _ _ gap st₁ hgap subject _ objects st₂ hcount ih =>
    have h1 := read_gap_lt hgap
    have h2 := read_gap_lt hcount
    have h3 := ih h
    dsimp only at h1 h2 h3
    omega

theorem start_le {st st' : ColdScan} (h : st.start = .ok st') :
    st'.cursor.length ≤ st.cursor.length := by
  unfold start at h
  split at h
  · cases h
    exact Nat.le_refl _
  · obtain ⟨⟨count, st₁⟩, hread, h⟩ := bind_eq_ok h
    cases h
    exact (read_gap_lt hread).le

/-- Every row takes a byte at least, so the pass ends. -/
theorem next_lt {st st' : ColdScan} {p : Pair} (h : st.next = .ok (p, st')) :
    st'.cursor.length < st.cursor.length := by
  unfold next at h
  obtain ⟨st₁, hstart, h⟩ := bind_eq_ok h
  obtain ⟨st₂, hadvance, h⟩ := bind_eq_ok h
  obtain ⟨⟨gap, st₃⟩, hread, h⟩ := bind_eq_ok h
  dsimp only at h
  split at h
  · cases h
  · cases h
    have h1 := start_le hstart
    have h2 := advance_le hadvance
    have h3 := read_gap_lt hread
    dsimp only at h3 ⊢
    omega

/-- All rows from the cursor on, and the cursor where they end. -/
def drain (st : ColdScan) : List Pair × ColdScan :=
  match _h : st.next with
  | .error stop => ([], stop)
  | .ok (p, st') =>
    let rest := drain st'
    (p :: rest.1, rest.2)
termination_by st.cursor.length
decreasing_by exact next_lt _h

end ColdScan

/-! ## The partition -/

/-- A file that is mapped, with the fields of its header. -/
structure ColdFile where
  mmap : Bytes
  rows : Nat
  version : Nat
  graph : Nat
  predicate : Nat
  headed : HEADER_LEN ≤ mmap.length

namespace ColdFile

def scan (file : ColdFile) : ColdScan :=
  ⟨file.mmap.drop HEADER_LEN, 2 ^ 64 - 1, 0, 0, 0, false⟩

/-- The rows that a pass over the file gives. -/
def scanned (file : ColdFile) : List Pair := file.scan.drain.1

/-- The little-endian field of `width` bytes at `start`. It panics when the file ends before. -/
def field_at (bytes : Bytes) (start width : Nat) : Outcome Nat := do
  let tail ← slice_from bytes start
  let field ← slice_to tail width
  pure (ofLe field)

/-- Map a file and check it. -/
def open_cold (path : String) (bytes : Bytes) : Outcome ColdFile :=
  if hbad : bytes.length < HEADER_LEN ∨ bytes.take 8 ≠ MAGIC then
    .error (snap_err ("not a cold partition file: " ++ path))
  else do
    let version ← field_at bytes 8 4
    if version ≠ FORMAT_VERSION then
      .error (snap_err ("unsupported cold partition version " ++ toString version))
    else
      let rows ← field_at bytes 28 8
      let written_at ← field_at bytes 36 8
      let graph ← field_at bytes 12 8
      let predicate ← field_at bytes 20 8
      let part : ColdFile :=
        ⟨bytes, rows, written_at, graph, predicate, Nat.not_lt.mp fun h => hbad (Or.inl h)⟩
      let decoded := part.scan.drain
      if decoded.1.length ≠ part.rows ∨ decoded.2.exhausted = false then
        .error (snap_err ("cold partition row count mismatch: header " ++ toString part.rows ++
          ", decoded " ++ toString decoded.1.length))
      else .ok part

/-- The loop of `contains` over the rows of a pass. -/
def contains_in (subject object : TermId) : List Pair → Bool
  | [] => false
  | p :: rows =>
    if subject < (ofLex p).1 then false
    else if p = toLex (subject, object) then true else contains_in subject object rows

def contains (file : ColdFile) (subject object : TermId) : Bool :=
  contains_in subject object file.scanned

def ordered (file : ColdFile) (ord : Ordering) : OrderedColumns :=
  match ord.axis with
  | .SubjectMajor => ⟨.SubjectMajor, file.scanned.map ofLex⟩
  | .ObjectMajor =>
    let rows : List Pair := file.scanned.map fun p => toLex ((ofLex p).2, (ofLex p).1)
    ⟨.ObjectMajor, (rows.insertionSort (· ≤ ·)).map ofLex⟩

/-- What the tier sees of the file. -/
def partition (file : ColdFile) : ColdPartition := ⟨file.scanned, file.version⟩

def promote (file : ColdFile) : PredicatePartition := file.partition.promote

end ColdFile

end horndb.storage
