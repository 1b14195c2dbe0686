-- The file of a dictionary base, byte by byte: a header, the table of offsets, the bytes of the
-- terms and the map. Whatever the bytes are, opening and reading them is an error or a value.
import HornDb.DictBase

open HornDb.Lib.Wire

namespace horndb.storage.base_file

/-! ## The library of maps -/

/-- The library of maps in a file, by the bytes of a map. Keys are inserted in ascending order,
any other order is refused, and the bytes that are built open as a map that verifies and finds
each key with its value. -/
structure FstFile where
  Map : Type
  build : List (Bytes × TermId) → Except String Bytes
  open_map : Bytes → Except String Map
  get : Map → Bytes → Option TermId
  verify : Map → Except String Unit
  builds : ∀ l, l.Pairwise (fun a b => a.1 < b.1) → ∃ bytes, build l = .ok bytes
  ascending : ∀ l bytes, build l = .ok bytes → l.Pairwise fun a b => a.1 < b.1
  opens : ∀ l bytes, build l = .ok bytes → ∃ m, open_map bytes = .ok m ∧ verify m = .ok () ∧
    ∀ k id, get m k = some id ↔ (k, id) ∈ l

/-- The bytes of a number, as many as it takes. -/
def number_bytes (n : Nat) : Bytes := (Nat.digits 256 n).map UInt8.ofNat

theorem ofLe_number_bytes (n : Nat) : ofLe (number_bytes n) = n := by
  have hdigits (l : List Nat) (h : ∀ d ∈ l, d < 256) :
      ofLe (l.map UInt8.ofNat) = Nat.ofDigits 256 l := by
    induction l with
    | nil => rfl
    | cons d l ih =>
      rw [List.forall_mem_cons] at h
      rw [List.map_cons, ofLe, ih h.2, Nat.ofDigits_cons, UInt8.toNat_ofNat',
        Nat.mod_eq_of_lt h.1]
  rw [number_bytes, hdigits _ fun d hd => Nat.digits_lt_base (by decide) hd, Nat.ofDigits_digits]

def FstFile.row_numbers (l : List (Bytes × TermId)) : List (List Nat × Nat) :=
  l.map fun e => (e.1.map UInt8.toNat, e.2)

def FstFile.number_rows (l : List (List Nat × Nat)) : List (Bytes × TermId) :=
  l.map fun e => (e.1.map UInt8.ofNat, e.2)

theorem FstFile.number_rows_back (l : List (Bytes × TermId)) : number_rows (row_numbers l) = l := by
  rw [number_rows, row_numbers, List.map_map]
  refine (List.map_congr_left fun e _ => ?_).trans (List.map_id l)
  simp only [Function.comp, List.map_map]
  have hbytes : e.1.map (UInt8.ofNat ∘ UInt8.toNat) = e.1 :=
    (List.map_congr_left fun b _ => UInt8.ofNat_toNat).trans (List.map_id _)
  rw [hbytes]
  rfl

/-- A plain library, to run the model on: the bytes are the rows as one number. -/
def FstFile.rows : FstFile where
  Map := List (Bytes × TermId)
  build l :=
    if l.Pairwise fun a b => a.1 < b.1 then
      .ok (number_bytes (Encodable.encode (row_numbers l)))
    else .error "duplicate key or keys out of order"
  open_map bytes :=
    match (Encodable.decode (ofLe bytes) : Option (List (List Nat × Nat))) with
    | some l => .ok (number_rows l)
    | none => .error "invalid format"
  get m k := (m.find? fun e => e.1 == k).map (·.2)
  verify _ := .ok ()
  builds l h := ⟨_, if_pos h⟩
  ascending l bytes h := by
    split at h
    · assumption
    · cases h
  opens l bytes h := by
    have hasc : l.Pairwise fun a b => a.1 < b.1 := by
      by_contra hnot
      rw [if_neg hnot] at h
      cases h
    rw [if_pos hasc] at h
    cases h
    refine ⟨l, ?_, rfl, fun k id => ?_⟩
    · rw [ofLe_number_bytes, Encodable.encodek]
      exact congrArg Except.ok (number_rows_back l)
    · exact FstLib.rows.get_build l l (if_pos hasc) k id

/-! ## Slices and addresses -/

/-- A range of bytes that has to be there. -/
def slice (bytes : Bytes) (start stop : Nat) : Outcome Bytes :=
  match get_range bytes start stop with
  | some r => .ok r.1
  | none => .error .panic

/-- A sum of addresses that has to fit one. -/
def add_usize (a b : Nat) : Outcome Nat :=
  match checked_add a b with
  | some n => .ok n
  | none => .error .panic

def checked_mul (a b : Nat) : Option Nat := if a * b < 2 ^ 64 then some (a * b) else none

/-! ## Opening -/

def MAGIC : Bytes := [0x48, 0x44, 0x42, 0x44, 0x49, 0x43, 0x54, 0]

def VERSION : Nat := 1

def HEADER_LEN : Nat := 64

/-- A mapped file, and where its sections are. -/
structure MappedBase (fst : FstFile) where
  mmap : Bytes
  slots : Nat
  freed : Nat
  next_bnode_doc_tag : Nat
  offsets : Nat × Nat
  arena : Nat × Nat
  map : fst.Map

variable {fst : FstFile}

def MappedBase.offset (b : MappedBase fst) (i : Nat) : Option Nat := do
  let at_byte ← checked_add b.offsets.1 (← checked_mul i 8)
  let raw ← get_range b.mmap at_byte (← checked_add at_byte 8)
  pure (ofLe raw.1)

def u32_at (bytes : Bytes) (at_byte : Nat) : Outcome Nat := do
  let raw ← slice bytes at_byte (at_byte + 4)
  pure (ofLe raw)

def u64_at (bytes : Bytes) (at_byte : Nat) : Outcome Nat := do
  let raw ← slice bytes at_byte (at_byte + 8)
  pure (ofLe raw)

def want_offsets (slots : Nat) : Option Nat := (checked_add slots 1).bind fun n => checked_mul n 8

/-- The length that the header tells of the file. -/
def total_len (slots arena_len fst_len : Nat) : Option Nat := do
  let o ← want_offsets slots
  let t ← checked_add o HEADER_LEN
  let t ← checked_add t arena_len
  checked_add t fst_len

def open_bytes (fst : FstFile) (bytes : Bytes) : Outcome (MappedBase fst) := do
  if bytes.length < HEADER_LEN then .error (bad "not a dictionary base file")
  else if (← slice bytes 0 8) ≠ MAGIC then .error (bad "not a dictionary base file")
  else
    let version ← u32_at bytes 8
    if version ≠ VERSION then .error (bad ("unsupported version " ++ toString version))
    else
      let slots ← u64_at bytes 16
      let freed ← u64_at bytes 24
      let offsets_len ← u64_at bytes 32
      let arena_len ← u64_at bytes 40
      let fst_len ← u64_at bytes 48
      let next_bnode_doc_tag ← u64_at bytes 56
      if want_offsets slots ≠ some offsets_len ∨
          total_len slots arena_len fst_len ≠ some bytes.length ∨ slots < freed then
        .error (bad "section lengths do not match the file")
      else
        let offsets := (HEADER_LEN, ← add_usize HEADER_LEN offsets_len)
        let arena := (offsets.2, ← add_usize offsets.2 arena_len)
        let fst_range := (arena.2, ← add_usize arena.2 fst_len)
        match fst.open_map (← slice bytes fst_range.1 fst_range.2) with
        | .error e => .error (bad e)
        | .ok map =>
          let base : MappedBase fst :=
            ⟨bytes, slots, freed, next_bnode_doc_tag, offsets, arena, map⟩
          if base.offset 0 ≠ some 0 ∨ base.offset slots ≠ some arena_len then
            .error (bad "offset table does not span the arena")
          else .ok base

namespace MappedBase

/-! ## Reading -/

/-- The bytes of a slot, none for a tombstone. -/
def slot (b : MappedBase fst) (index : Nat) : Outcome (Option Bytes) :=
  if index = 0 ∨ b.slots < index then
    .error (bad ("index " ++ toString index ++ " is outside 1..=" ++ toString b.slots))
  else do
    let bytes ← match b.offset (index - 1), b.offset index with
      | some start, some stop => do
        let arena ← slice b.mmap b.arena.1 b.arena.2
        pure ((get_range arena start stop).map (·.1))
      | _, _ => pure none
    match bytes with
    | some [] => .ok none
    | some bytes => .ok (some bytes)
    | none => .error (bad ("index " ++ toString index ++ ": offsets outside the arena"))

/-- A tombstone, a damaged slot and no slot at all are the same. -/
def term_bytes (b : MappedBase fst) (index : Nat) : Outcome (Option Bytes) :=
  match b.slot index with
  | .ok bytes => .ok bytes
  | .error .panic => .error .panic
  | .error (.error _) => .ok none

def get (b : MappedBase fst) (codec_bytes : Bytes) : Option TermId := fst.get b.map codec_bytes

def verify_offset (b : MappedBase fst) (prev i : Nat) : Outcome Nat :=
  match b.offset i with
  | none => .error (bad "offset table truncated")
  | some off =>
    if off < prev ∨ b.arena.2 - b.arena.1 < off then
      .error (bad ("offset " ++ toString i ++ " out of order or past the arena"))
    else .ok off

def verify (b : MappedBase fst) : Outcome Unit := do
  let _ ← (List.range (b.slots + 1)).foldlM b.verify_offset 0
  match fst.verify b.map with
  | .ok () => .ok ()
  | .error e => .error (bad ("fst: " ++ e))

end MappedBase

/-! ## Whatever the bytes are -/

variable {bytes : Bytes}

theorem slice_ok {start stop : Nat} (h : start ≤ stop) (hstop : stop ≤ bytes.length) :
    slice bytes start stop = .ok ((bytes.take stop).drop start) := by
  rw [slice, get_range, if_pos ⟨h, hstop⟩]

theorem add_usize_ok {a b : Nat} (h : a + b < 2 ^ 64) : add_usize a b = .ok (a + b) := by
  rw [add_usize, checked_add_fits h]

theorem u64_at_ok {at_byte : Nat} (h : at_byte + 8 ≤ bytes.length) :
    u64_at bytes at_byte = .ok (ofLe ((bytes.take (at_byte + 8)).drop at_byte)) := by
  rw [u64_at, slice_ok (Nat.le_add_right _ _) h]
  rfl

theorem u32_at_ok {at_byte : Nat} (h : at_byte + 4 ≤ bytes.length) :
    u32_at bytes at_byte = .ok (ofLe ((bytes.take (at_byte + 4)).drop at_byte)) := by
  rw [u32_at, slice_ok (Nat.le_add_right _ _) h]
  rfl

theorem checked_add_eq {a b n : Nat} (h : checked_add a b = some n) : n = a + b ∧ n < 2 ^ 64 := by
  unfold checked_add at h
  split at h
  · cases h
    exact ⟨rfl, by assumption⟩
  · cases h

theorem want_offsets_eq {slots n : Nat} (h : want_offsets slots = some n) :
    n = (slots + 1) * 8 ∧ n < 2 ^ 64 := by
  obtain ⟨m, hm, hn⟩ := Option.bind_eq_some_iff.mp h
  obtain ⟨rfl, -⟩ := checked_add_eq hm
  unfold checked_mul at hn
  split at hn
  · cases hn
    exact ⟨rfl, by assumption⟩
  · cases hn

theorem total_len_eq {slots arena_len fst_len n : Nat}
    (h : total_len slots arena_len fst_len = some n) :
    n = (slots + 1) * 8 + 64 + arena_len + fst_len ∧ n < 2 ^ 64 := by
  obtain ⟨o, ho, h⟩ := Option.bind_eq_some_iff.mp h
  obtain ⟨t, ht, h⟩ := Option.bind_eq_some_iff.mp h
  obtain ⟨u, hu, h⟩ := Option.bind_eq_some_iff.mp h
  obtain ⟨rfl, -⟩ := want_offsets_eq ho
  obtain ⟨rfl, -⟩ := checked_add_eq ht
  obtain ⟨rfl, -⟩ := checked_add_eq hu
  exact checked_add_eq h

/-- The sections stand one behind the other in the file, and the table spans the arena. -/
structure Mapped (b : MappedBase fst) : Prop where
  offsets : b.offsets = (64, 64 + (b.slots + 1) * 8)
  arena_start : b.arena.1 = b.offsets.2
  arena_stop : b.arena.1 ≤ b.arena.2
  arena_in : b.arena.2 ≤ b.mmap.length
  fits : b.mmap.length < 2 ^ 64
  first : b.offset 0 = some 0
  last : b.offset b.slots = some (b.arena.2 - b.arena.1)

/-- Opening is an error, or a base whose sections are in the file. -/
theorem open_mapped (fst : FstFile) (bytes : Bytes) :
    (∃ e, open_bytes fst bytes = .error (.error e)) ∨
      ∃ b, open_bytes fst bytes = .ok b ∧ Mapped b := by
  unfold open_bytes
  by_cases hshort : bytes.length < HEADER_LEN
  · rw [if_pos hshort]
    exact Or.inl ⟨_, rfl⟩
  rw [if_neg hshort]
  unfold HEADER_LEN at hshort
  rw [slice_ok (by omega) (by omega), ok_bind]
  split
  · exact Or.inl ⟨_, rfl⟩
  rw [u32_at_ok (by omega), ok_bind]
  split
  · exact Or.inl ⟨_, rfl⟩
  rw [u64_at_ok (by omega), ok_bind, u64_at_ok (by omega), ok_bind, u64_at_ok (by omega), ok_bind,
    u64_at_ok (by omega), ok_bind, u64_at_ok (by omega), ok_bind, u64_at_ok (by omega), ok_bind]
  generalize ofLe ((bytes.take (16 + 8)).drop 16) = slots
  generalize ofLe ((bytes.take (24 + 8)).drop 24) = freed
  generalize ofLe ((bytes.take (32 + 8)).drop 32) = offsets_len
  generalize ofLe ((bytes.take (40 + 8)).drop 40) = arena_len
  generalize ofLe ((bytes.take (48 + 8)).drop 48) = fst_len
  split
  · exact Or.inl ⟨_, rfl⟩
  rename_i hsections
  simp only [not_or, ne_eq, not_not] at hsections
  obtain ⟨hoffsets, htotal, -⟩ := hsections
  obtain ⟨rfl, -⟩ := want_offsets_eq hoffsets
  obtain ⟨hlen, hfits⟩ := total_len_eq htotal
  rw [add_usize_ok (by unfold HEADER_LEN; omega), ok_bind]
  dsimp only
  rw [add_usize_ok (by unfold HEADER_LEN; omega), ok_bind,
    add_usize_ok (by unfold HEADER_LEN; omega), ok_bind,
    slice_ok (by omega) (by unfold HEADER_LEN; omega), ok_bind]
  split
  · exact Or.inl ⟨_, rfl⟩
  split
  · exact Or.inl ⟨_, rfl⟩
  rename_i hspan
  simp only [not_or, ne_eq, not_not] at hspan
  refine Or.inr ⟨_, rfl, rfl, rfl, ?_, ?_, hfits, hspan.1, ?_⟩
  · exact Nat.le_add_right _ _
  · show HEADER_LEN + (slots + 1) * 8 + arena_len ≤ bytes.length
    unfold HEADER_LEN
    omega
  · refine hspan.2.trans (congrArg some ?_)
    exact (Nat.add_sub_cancel_left ..).symm

namespace MappedBase

variable {b : MappedBase fst}

theorem slot_no_panic (h : Mapped b) (index : Nat) : NoPanic (b.slot index) := by
  unfold slot
  split
  · exact nofun
  · rw [slice_ok h.arena_stop h.arena_in]
    split
    · rw [ok_bind]
      simp only [pure, Except.pure]
      rw [ok_bind]
      split
      · exact .ok _
      · exact .ok _
      · exact nofun
    · exact nofun

theorem term_bytes_no_panic (h : Mapped b) (index : Nat) : NoPanic (b.term_bytes index) := by
  have hslot := slot_no_panic h index
  unfold term_bytes
  split
  · exact .ok _
  · rename_i hpanic
    exact absurd hpanic hslot
  · exact .ok _

/-! ## What `verify` says -/

/-- The arena of the file. -/
def arena_bytes (b : MappedBase fst) : Bytes := (b.mmap.take b.arena.2).drop b.arena.1

/-- The bytes that a slot reads. -/
def read (b : MappedBase fst) (index : Nat) : Bytes :=
  match b.slot index with
  | .ok (some bytes) => bytes
  | _ => []

/-- Every slot reads without an error, and the slots make up the arena one after the other. -/
def Partitioned (b : MappedBase fst) : Prop :=
  (∀ i < b.slots, ∃ bytes, b.slot (i + 1) = .ok bytes) ∧
    (List.range b.slots).flatMap (fun i => b.read (i + 1)) = b.arena_bytes

def offset_at (b : MappedBase fst) (i : Nat) : Nat := (b.offset i).getD 0

/-- The first offsets are there, in the arena and in order. -/
structure InOrder (b : MappedBase fst) (k : Nat) : Prop where
  here : ∀ i < k, b.offset i = some (b.offset_at i)
  inside : ∀ i < k, b.offset_at i ≤ b.arena.2 - b.arena.1
  ordered : ∀ i, i + 1 < k → b.offset_at i ≤ b.offset_at (i + 1)

theorem verify_offset_ok {prev i off : Nat} (h : b.verify_offset prev i = .ok off) :
    b.offset i = some off ∧ prev ≤ off ∧ off ≤ b.arena.2 - b.arena.1 := by
  unfold verify_offset at h
  split at h
  · cases h
  · rename_i off' hoff
    split at h
    · cases h
    · rename_i hin
      cases h
      exact ⟨hoff, by omega, by omega⟩

theorem verify_offsets_ok (k : Nat) :
    ∀ {last : Nat}, (List.range (k + 1)).foldlM b.verify_offset 0 = .ok last →
      InOrder b (k + 1) ∧ last = b.offset_at k := by
  induction k with
  | zero =>
    intro last h
    obtain ⟨off, hoff, hlast⟩ := bind_eq_ok h
    cases hlast
    obtain ⟨hoff, -, hin⟩ := verify_offset_ok hoff
    have hat : b.offset_at 0 = last := by rw [offset_at, hoff]; rfl
    refine ⟨⟨fun i hi => ?_, fun i hi => ?_, fun i hi => by omega⟩, hat.symm⟩
    · rw [Nat.lt_one_iff.mp hi, hat, hoff]
    · rw [Nat.lt_one_iff.mp hi, hat]
      exact hin
  | succ k ih =>
    intro last h
    rw [List.range_succ, List.foldlM_append] at h
    obtain ⟨prev, hprev, hlast⟩ := bind_eq_ok h
    obtain ⟨off, hoff, hlast⟩ := bind_eq_ok hlast
    cases hlast
    obtain ⟨hall, rfl⟩ := ih hprev
    obtain ⟨hoff, hle, hin⟩ := verify_offset_ok hoff
    have hat : b.offset_at (k + 1) = last := by rw [offset_at, hoff]; rfl
    refine ⟨⟨fun i hi => ?_, fun i hi => ?_, fun i hi => ?_⟩, hat.symm⟩
    · rcases Nat.lt_succ_iff_lt_or_eq.mp hi with hi | rfl
      · exact hall.here i hi
      · rw [hat, hoff]
    · rcases Nat.lt_succ_iff_lt_or_eq.mp hi with hi | rfl
      · exact hall.inside i hi
      · rw [hat]
        exact hin
    · rcases Nat.lt_succ_iff_lt_or_eq.mp hi with hi | hi
      · exact hall.ordered i hi
      · cases hi
        rw [hat]
        exact hle

theorem slice_arena (hm : Mapped b) :
    slice b.mmap b.arena.1 b.arena.2 = .ok b.arena_bytes := slice_ok hm.arena_stop hm.arena_in

/-- No bytes stand for a tombstone. -/
def slot_value (bytes : Bytes) : Option Bytes := if bytes = [] then none else some bytes

/-- A slot reads the bytes between its two offsets. -/
theorem slot_between (hm : Mapped b) {i start stop : Nat} (hi : i < b.slots)
    (hstart : b.offset i = some start) (hstop : b.offset (i + 1) = some stop)
    (hbytes : (get_range b.arena_bytes start stop).map (·.1) = some bytes) :
    b.slot (i + 1) = .ok (slot_value bytes) := by
  unfold slot
  rw [if_neg (by omega), Nat.add_sub_cancel, hstart, hstop]
  dsimp only
  rw [slice_arena hm, ok_bind]
  dsimp only [pure, Except.pure]
  rw [hbytes, ok_bind]
  unfold slot_value
  cases bytes with
  | nil => rfl
  | cons c bytes => rfl

theorem read_value {index : Nat} (h : b.slot index = .ok (slot_value bytes)) :
    b.read index = bytes := by
  rw [read, h]
  cases bytes with
  | nil => rfl
  | cons c bytes => rfl

theorem slot_in_order (hm : Mapped b) (h : InOrder b (b.slots + 1)) {i : Nat} (hi : i < b.slots) :
    b.slot (i + 1) = .ok (slot_value
      ((b.arena_bytes.take (b.offset_at (i + 1))).drop (b.offset_at i))) := by
  have hlen : b.arena_bytes.length = b.arena.2 - b.arena.1 := by
    rw [arena_bytes, List.length_drop, List.length_take, Nat.min_eq_left hm.arena_in]
  refine slot_between hm hi (h.here i (by omega)) (h.here (i + 1) (by omega)) ?_
  rw [get_range, if_pos ⟨h.ordered i (by omega), by rw [hlen]; exact h.inside _ (by omega)⟩]
  rfl

/-- A file that verifies has slots that make up its arena. -/
theorem partitioned_of_verify (hm : Mapped b) (h : b.verify = .ok ()) : b.Partitioned := by
  obtain ⟨last, hlast, -⟩ := bind_eq_ok h
  obtain ⟨horder, -⟩ := verify_offsets_ok b.slots hlast
  refine ⟨fun i hi => ⟨_, slot_in_order hm horder hi⟩, ?_⟩
  have hprefix (k : Nat) (hk : k ≤ b.slots) :
      (List.range k).flatMap (fun i => b.read (i + 1)) = b.arena_bytes.take (b.offset_at k) := by
    induction k with
    | zero =>
      have hzero : b.offset_at 0 = 0 := by rw [offset_at, hm.first]; rfl
      rw [hzero]
      rfl
    | succ k ih =>
      rw [List.range_succ, List.flatMap_append, ih (by omega), List.flatMap_singleton,
        read_value (slot_in_order hm horder (by omega))]
      have hle := horder.ordered k (by omega)
      conv_rhs => rw [← List.take_append_drop (b.offset_at k)
        (b.arena_bytes.take (b.offset_at (k + 1))), List.take_take, Nat.min_eq_left hle]
  have hlen : b.arena_bytes.length = b.arena.2 - b.arena.1 := by
    rw [arena_bytes, List.length_drop, List.length_take, Nat.min_eq_left hm.arena_in]
  have hall : b.offset_at b.slots = b.arena_bytes.length := by
    rw [offset_at, hm.last, hlen]
    rfl
  rw [ hprefix b.slots (Nat.le_refl _), hall, List.take_length]

end MappedBase

end horndb.storage.base_file
