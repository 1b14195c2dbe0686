-- The base of a persistent dictionary: the bytes of the terms slot by slot, and a map from
-- the bytes to the ids. The file is kept by its sections, not byte by byte.
import HornDb.DictKey

open Std HornDb.Lib HornDb.Lib.Wire

namespace horndb.storage

/-- The library of maps in a file. A map is built key by key in ascending order, any other
order is refused, and a lookup finds the value that was inserted. -/
structure FstLib where
  Map : Type
  build : List (Bytes × TermId) → Except String Map
  get : Map → Bytes → Option TermId
  ascending : ∀ l m, build l = .ok m → l.Pairwise fun a b => a.1 < b.1
  get_build : ∀ l m, build l = .ok m → ∀ k id, get m k = some id ↔ (k, id) ∈ l

/-- A plain library, to run the model on: the map is the list of its rows. -/
def FstLib.rows : FstLib where
  Map := List (Bytes × TermId)
  build l :=
    if l.Pairwise fun a b => a.1 < b.1 then .ok l else .error "duplicate key or keys out of order"
  get m k := (m.find? fun e => e.1 == k).map (·.2)
  ascending l m h := by
    split at h
    · assumption
    · cases h
  get_build l m h k id := by
    split at h
    · rename_i hasc
      cases h
      refine ⟨fun hget => ?_, fun hmem => ?_⟩
      · obtain ⟨e, he, rfl⟩ := Option.map_eq_some_iff.mp hget
        have hkey : e.1 = k := by simpa using List.find?_some he
        rw [← hkey]
        exact List.mem_of_find?_eq_some he
      · cases hfind : l.find? fun e => e.1 == k with
        | none => simpa using List.find?_eq_none.mp hfind _ hmem
        | some e =>
          have hkey : e.1 = k := by simpa using List.find?_some hfind
          have hnodup : (l.map Prod.fst).Nodup :=
            List.pairwise_map.mpr (hasc.imp fun h => Std.ne_of_lt h)
          have heq : e = (k, id) := by
            apply List.inj_on_of_nodup_map hnodup (List.mem_of_find?_eq_some hfind) hmem
            exact hkey
          rw [heq]
          rfl
    · cases h

structure MappedBase (fst : FstLib) where
  slots : Nat
  freed : Nat
  next_bnode_doc_tag : Nat
  offsets : List Nat
  arena : Bytes
  map : fst.Map

def bad (msg : String) : Halt := .error (.Snapshot ("dictionary base: " ++ msg))

namespace MappedBase

variable {fst : FstLib}

/-! ## Reading -/

def offset (b : MappedBase fst) (i : Nat) : Option Nat := b.offsets[i]?

/-- The bytes of a slot, none for a tombstone. -/
def slot (b : MappedBase fst) (index : Nat) : Outcome (Option Bytes) :=
  if index = 0 ∨ b.slots < index then
    .error (bad ("index " ++ toString index ++ " is outside 1..=" ++ toString b.slots))
  else
    let bytes := do
      let start ← b.offset (index - 1)
      let stop ← b.offset index
      let bytes ← get_range b.arena start stop
      pure bytes.1
    match bytes with
    | some [] => .ok none
    | some bytes => .ok (some bytes)
    | none => .error (bad ("index " ++ toString index ++ ": offsets outside the arena"))

/-- A slot as lookups see it: a tombstone, a damaged slot and no slot at all are the same. -/
def term_bytes (b : MappedBase fst) (index : Nat) : Option Bytes :=
  match b.slot index with
  | .ok bytes => bytes
  | .error _ => none

def get (b : MappedBase fst) (codec_bytes : Bytes) : Option TermId := fst.get b.map codec_bytes

/-- Take a file when its sections fit together. -/
def open_file (b : MappedBase fst) : Outcome (MappedBase fst) :=
  if b.offsets.length ≠ b.slots + 1 ∨ b.slots < b.freed then
    .error (bad "section lengths do not match the file")
  else if b.offset 0 ≠ some 0 ∨ b.offset b.slots ≠ some b.arena.length then
    .error (bad "offset table does not span the arena")
  else .ok b

/-! ## Writing -/

/-- The slots that are written so far. -/
structure Written where
  offsets : List Nat
  keys : List (Bytes × TermId)
  freed : Nat
  arena_len : Nat

/-- A value of a slot: the bytes of a term and its id, or a tombstone. -/
abbrev Slot := Option (Bytes × TermId)

def write_slot (w : Written) (slot : Outcome Slot) : Outcome Written := do
  match ← slot with
  | some (bytes, id) =>
    match TermId.kind id with
    | none => .error .panic
    | some .InlineInt =>
      .error (bad ("index " ++ toString w.offsets.length ++
        ": inline integers are never interned (NF3)"))
    | some _ =>
      let arena_len := w.arena_len + bytes.length
      pure { w with arena_len, keys := w.keys ++ [(bytes, id)], offsets := w.offsets ++ [arena_len] }
  | none => pure { w with freed := w.freed + 1, offsets := w.offsets ++ [w.arena_len] }

def write (fst : FstLib) (slots : List (Outcome Slot)) (next_bnode_doc_tag : Nat) :
    Outcome (MappedBase fst) := do
  let w ← slots.foldlM write_slot ⟨[0], [], 0, 0⟩
  let keys := w.keys.mergeSort fun a b => a.1 ≤ b.1
  match fst.build keys with
  | .ok map =>
    pure ⟨w.offsets.length - 1, w.freed, next_bnode_doc_tag, w.offsets, w.keys.flatMap (·.1), map⟩
  | .error e => .error (bad e)

/-! ## What is read of what was written -/

/-- The bytes that a slot takes of the arena. -/
def slot_bytes : Slot → Bytes
  | some (bytes, _) => bytes
  | none => []

/-- The sections after the slots `vals`. -/
structure Wrote (vals : List Slot) (w : Written) : Prop where
  offsets : w.offsets =
    (List.range (vals.length + 1)).map fun i => ((vals.take i).flatMap slot_bytes).length
  keys : w.keys = vals.filterMap id
  freed : w.freed = vals.countP Option.isNone
  arena_len : w.arena_len = (vals.flatMap slot_bytes).length

theorem Wrote.start : Wrote [] ⟨[0], [], 0, 0⟩ := ⟨rfl, rfl, rfl, rfl⟩

theorem take_of_lt {vals : List Slot} (v : Slot) {i : Nat} (h : i < vals.length + 1) :
    (vals ++ [v]).take i = vals.take i := by
  rw [List.take_append_of_le_length (Nat.le_of_lt_succ h)]

theorem Wrote.offsets_snoc {vals : List Slot} {w : Written} (h : Wrote vals w) (v : Slot) :
    w.offsets ++ [((vals ++ [v]).flatMap slot_bytes).length] =
      (List.range ((vals ++ [v]).length + 1)).map fun i =>
        (((vals ++ [v]).take i).flatMap slot_bytes).length := by
  rw [List.length_append, List.length_singleton, List.range_succ, List.map_append, h.offsets]
  congr 1
  · apply List.map_congr_left
    intro i hi
    rw [take_of_lt v (List.mem_range.mp hi)]
  · rw [List.map_singleton, List.take_of_length_le (by rw [List.length_append]; simp)]

theorem Wrote.snoc {vals : List Slot} {w w' : Written} (h : Wrote vals w) {slot : Outcome Slot}
    (hw : write_slot w slot = .ok w') : ∃ v, slot = .ok v ∧ Wrote (vals ++ [v]) w' := by
  unfold write_slot at hw
  obtain ⟨v, hslot, hval⟩ := bind_eq_ok hw
  refine ⟨v, hslot, ?_⟩
  have hoffsets := h.offsets_snoc v
  rw [List.flatMap_append, List.length_append, ← h.arena_len] at hoffsets
  cases v with
  | none =>
    cases hval
    refine ⟨?_, ?_, ?_, ?_⟩
    · rw [← hoffsets]
      rfl
    · rw [List.filterMap_append, ← h.keys]
      simp
    · rw [List.countP_append, ← h.freed]
      rfl
    · rw [List.flatMap_append, List.length_append, ← h.arena_len]
      rfl
  | some e =>
    obtain ⟨bytes, id⟩ := e
    dsimp only at hval
    split at hval
    · cases hval
    · cases hval
    · cases hval
      have hbytes : List.flatMap slot_bytes [some (bytes, id)] = bytes := by simp [slot_bytes]
      rw [hbytes] at hoffsets
      refine ⟨hoffsets, ?_, ?_, ?_⟩
      · rw [List.filterMap_append, ← h.keys]
        rfl
      · rw [List.countP_append, ← h.freed]
        rfl
      · rw [List.flatMap_append, List.length_append, ← h.arena_len, hbytes]

theorem wrote_slots {slots : List (Outcome Slot)} :
    ∀ {vals : List Slot} {w w' : Written}, Wrote vals w → slots.foldlM write_slot w = .ok w' →
      ∃ more, slots = more.map .ok ∧ Wrote (vals ++ more) w' := by
  induction slots with
  | nil =>
    intro vals w w' h hw
    cases hw
    exact ⟨[], rfl, by rwa [List.append_nil]⟩
  | cons slot slots ih =>
    intro vals w w' h hw
    rw [List.foldlM_cons] at hw
    obtain ⟨w₁, hfirst, hrest⟩ := bind_eq_ok hw
    obtain ⟨v, rfl, hv⟩ := h.snoc hfirst
    obtain ⟨more, rfl, hmore⟩ := ih hv hrest
    refine ⟨v :: more, rfl, ?_⟩
    rwa [List.append_assoc] at hmore

theorem arena_eq (vals : List Slot) :
    (vals.filterMap id).flatMap (·.1) = vals.flatMap slot_bytes := by
  induction vals with
  | nil => rfl
  | cons v vals ih =>
    cases v with
    | none => simpa [slot_bytes] using ih
    | some e => simpa [slot_bytes] using ih

/-- The bytes of a slot stand in the arena between the two offsets. -/
theorem slot_range {vals : List Slot} {i : Nat} {v : Slot} (h : vals[i]? = some v) :
    ∃ r, get_range (vals.flatMap slot_bytes) ((vals.take i).flatMap slot_bytes).length
      ((vals.take (i + 1)).flatMap slot_bytes).length = some r ∧ r.1 = slot_bytes v := by
  obtain ⟨hi, hv⟩ := List.getElem?_eq_some_iff.mp h
  have hsplit : vals.flatMap slot_bytes = (vals.take i).flatMap slot_bytes ++
      (slot_bytes v ++ (vals.drop (i + 1)).flatMap slot_bytes) := by
    conv_lhs => rw [← List.take_append_drop i vals, List.drop_eq_getElem_cons hi, hv]
    rw [List.flatMap_append, List.flatMap_cons]
  apply get_range_middle hsplit _ _ rfl
  rw [List.take_add_one, h, List.flatMap_append, List.length_append]
  simp

/-- The file of the slots `vals`. -/
structure FileOf (vals : List Slot) (b : MappedBase fst) : Prop where
  slots : b.slots = vals.length
  freed : b.freed = vals.countP Option.isNone
  offsets : ∀ i ≤ vals.length, b.offset i = some ((vals.take i).flatMap slot_bytes).length
  table : b.offsets.length = vals.length + 1
  arena : b.arena = vals.flatMap slot_bytes
  ids : ∀ k id, b.get k = some id ↔ some (k, id) ∈ vals

theorem write_file {slots : List (Outcome Slot)} {tag : Nat} {b : MappedBase fst}
    (h : write fst slots tag = .ok b) :
    ∃ vals : List Slot, slots = vals.map .ok ∧ FileOf vals b ∧ b.next_bnode_doc_tag = tag := by
  unfold write at h
  obtain ⟨w, hfold, hbuilt⟩ := bind_eq_ok h
  obtain ⟨vals, hslots, hw⟩ := wrote_slots .start hfold
  rw [List.nil_append] at hw
  dsimp only at hbuilt
  split at hbuilt
  · rename_i map hbuild
    cases hbuilt
    have htable : w.offsets.length = vals.length + 1 := by
      rw [hw.offsets, List.length_map, List.length_range]
    refine ⟨vals, hslots, ⟨?_, hw.freed, ?_, htable, ?_, ?_⟩, rfl⟩
    · rw [htable, Nat.add_sub_cancel]
    · intro i hi
      show w.offsets[i]? = _
      rw [hw.offsets, List.getElem?_map, List.getElem?_range (Nat.lt_succ_of_le hi)]
      rfl
    · show w.keys.flatMap _ = _
      rw [hw.keys, arena_eq]
    · intro k id
      show fst.get map k = some id ↔ _
      rw [fst.get_build _ _ hbuild, List.mem_mergeSort, hw.keys, List.mem_filterMap]
      simp
  · cases hbuilt

namespace FileOf

variable {vals : List Slot} {b : MappedBase fst}

theorem opens (h : FileOf vals b) : b.open_file = .ok b := by
  have hfirst : b.offset 0 = some 0 := h.offsets 0 (Nat.zero_le _)
  have hlast : b.offset b.slots = some b.arena.length := by
    rw [h.slots, h.offsets _ (Nat.le_refl _), List.take_length, h.arena]
  have hfreed : b.freed ≤ b.slots := by
    rw [h.freed, h.slots]
    exact List.countP_le_length
  rw [open_file, h.table, if_neg (by rw [h.slots] at hfreed ⊢; omega),
    if_neg (by rw [hfirst, hlast]; exact not_or.mpr ⟨fun h => h rfl, fun h => h rfl⟩)]

theorem slot_eq (h : FileOf vals b) {i : Nat} {v : Slot} (hv : vals[i]? = some v) :
    b.slot (i + 1) = .ok (match slot_bytes v with | [] => none | bytes => some bytes) := by
  obtain ⟨hi, _⟩ := List.getElem?_eq_some_iff.mp hv
  obtain ⟨r, hr, hbytes⟩ := slot_range hv
  unfold slot
  rw [if_neg (by rw [h.slots]; omega), Nat.add_sub_cancel, h.offsets i (Nat.le_of_lt hi),
    h.offsets (i + 1) hi, h.arena]
  dsimp only [bind, Option.bind, pure]
  rw [hr]
  dsimp only
  rw [hbytes]
  cases slot_bytes v <;> rfl

end FileOf

end MappedBase

end horndb.storage
