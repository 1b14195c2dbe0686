-- A base that was written opens as what was written, a list that may not be written leaves the
-- file, and no file makes the reader panic.
import HornDb.BaseFileWrites

open HornDb.Lib.Wire

namespace horndb.storage.base_file

variable {fst : FstFile}

/-! ## Numbers in the file -/

theorem length_numbers (l : List Nat) : (l.flatMap (leBytes 8)).length = 8 * l.length := by
  induction l with
  | nil => rfl
  | cons n l ih =>
    rw [List.flatMap_cons, List.length_append, length_leBytes, ih, List.length_cons]
    omega

/-- A number of a table is read where it stands. -/
theorem number_at {l : List Nat} {i n : Nat} (h : l[i]? = some n) (hn : n < 2 ^ 64)
    (front back : Bytes) {k : Nat} (hk : k = front.length + 8 * i) :
    ∃ r, get_range (front ++ (l.flatMap (leBytes 8) ++ back)) k (k + 8) = some r ∧
      ofLe r.1 = n := by
  obtain ⟨hi, hval⟩ := List.getElem?_eq_some_iff.mp h
  have hsplit : l = l.take i ++ n :: l.drop (i + 1) := by
    rw [← hval, ← List.drop_eq_getElem_cons hi, List.take_append_drop]
  have hbytes : front ++ (l.flatMap (leBytes 8) ++ back) =
      (front ++ (l.take i).flatMap (leBytes 8)) ++
        (leBytes 8 n ++ ((l.drop (i + 1)).flatMap (leBytes 8) ++ back)) := by
    conv_lhs => rw [hsplit]
    simp
  have hlen : (front ++ (l.take i).flatMap (leBytes 8)).length = k := by
    rw [List.length_append, length_numbers, List.length_take, Nat.min_eq_left (Nat.le_of_lt hi), hk]
  obtain ⟨r, hr, hr1⟩ := get_range_middle hbytes k (k + 8) hlen.symm
    (by rw [hlen, length_leBytes])
  refine ⟨r, hr, ?_⟩
  rw [hr1, ofLe_leBytes]
  exact Nat.mod_eq_of_lt hn

theorem slice_middle {bytes before mid after : Bytes} (h : bytes = before ++ (mid ++ after))
    {start stop : Nat} (hstart : start = before.length)
    (hstop : stop = before.length + mid.length) : slice bytes start stop = .ok mid := by
  obtain ⟨r, hr, hval⟩ := get_range_middle h start stop hstart hstop
  rw [slice, hr]
  exact congrArg Except.ok hval

theorem u64_at_number {l : List Nat} {i n : Nat} (h : l[i]? = some n) (hn : n < 2 ^ 64)
    (front back : Bytes) {k : Nat} (hk : k = front.length + 8 * i) :
    u64_at (front ++ (l.flatMap (leBytes 8) ++ back)) k = .ok n := by
  obtain ⟨r, hr, hval⟩ := number_at h hn front back hk
  rw [u64_at, slice, hr]
  exact congrArg Except.ok hval

theorem offset_number {b : MappedBase fst} {l : List Nat} {i n : Nat} (h : l[i]? = some n)
    (hn : n < 2 ^ 64) {front back : Bytes} (hmap : b.mmap = front ++ (l.flatMap (leBytes 8) ++ back))
    (hstart : b.offsets.1 = front.length) (hfits : b.mmap.length < 2 ^ 64) :
    b.offset i = some n := by
  obtain ⟨hi, -⟩ := List.getElem?_eq_some_iff.mp h
  have hlen := congrArg List.length hmap
  rw [List.length_append, List.length_append, length_numbers] at hlen
  obtain ⟨r, hr, hval⟩ : ∃ r, get_range b.mmap (front.length + i * 8) (front.length + i * 8 + 8) =
      some r ∧ ofLe r.1 = n := by
    rw [hmap]
    exact number_at h hn front back (by omega)
  have hmul : checked_mul i 8 = some (i * 8) := if_pos (by omega)
  unfold MappedBase.offset
  rw [hmul, Option.bind_eq_bind, Option.bind_some, hstart, checked_add_fits (by omega),
    Option.bind_eq_bind, Option.bind_some, checked_add_fits (by omega), Option.bind_some, hr]
  exact congrArg some hval

/-! ## What is written opens -/

variable {w : MappedBase.Written}

theorem length_offsets {vals : List MappedBase.Slot} (h : MappedBase.Wrote vals w) :
    w.offsets.length = vals.length + 1 := by
  rw [h.offsets, List.length_map, List.length_range]

theorem offset_of {vals : List MappedBase.Slot} (h : MappedBase.Wrote vals w) {i : Nat}
    (hi : i ≤ vals.length) :
    w.offsets[i]? = some ((vals.take i).flatMap MappedBase.slot_bytes).length := by
  rw [h.offsets, List.getElem?_map, List.getElem?_range (Nat.lt_succ_of_le hi)]
  rfl

theorem arena_of {vals : List MappedBase.Slot} (h : MappedBase.Wrote vals w) :
    w.keys.flatMap (·.1) = vals.flatMap MappedBase.slot_bytes := by
  rw [h.keys, MappedBase.arena_eq]

theorem take_length_le (vals : List MappedBase.Slot) (i : Nat) :
    ((vals.take i).flatMap MappedBase.slot_bytes).length ≤
      (vals.flatMap MappedBase.slot_bytes).length := by
  conv_rhs => rw [← List.take_append_drop i vals, List.flatMap_append, List.length_append]
  exact Nat.le_add_right _ _

/-- The base that the file of the slots `vals` opens as. -/
structure Opened (fst : FstFile) (vals : List MappedBase.Slot) (tag : UInt64)
    (b : MappedBase fst) : Prop where
  mapped : Mapped b
  slots : b.slots = vals.length
  freed : b.freed = vals.countP Option.isNone
  tag : b.next_bnode_doc_tag = tag.toNat
  arena : b.arena_bytes = vals.flatMap MappedBase.slot_bytes
  offsets : ∀ i ≤ vals.length,
    b.offset i = some ((vals.take i).flatMap MappedBase.slot_bytes).length
  found : ∀ k id, b.get k = some id ↔ some (k, id) ∈ vals
  verifies : fst.verify b.map = .ok ()

variable {slots : List SlotIn}

theorem open_image {tag : UInt64} {map bytes : Bytes} (h : Image fst slots tag w map bytes)
    (hfits : bytes.length < 2 ^ 63) :
    ∃ vals b, slots.map SlotIn.outcome = vals.map .ok ∧ MappedBase.Wrote vals w ∧
      open_bytes fst bytes = .ok b ∧ Opened fst vals tag b := by
  obtain ⟨vals, hvals, hw⟩ := MappedBase.wrote_slots .start h.written
  rw [List.nil_append] at hw
  obtain ⟨m, hopen, hverify, hget⟩ := fst.opens _ _ h.built
  have hn := length_offsets hw
  have harena := arena_of hw
  have hlen : (sections w map).length =
      8 * (vals.length + 1) + (w.arena_len + map.length) := by
    rw [sections, List.length_append, List.length_append, length_numbers, hn, harena,
      ← hw.arena_len]
  have hbytes : bytes = header vals.length w.freed w.arena_len map.length tag.toNat ++
      sections w map := by
    rw [h.bytes_eq, hlen, hn, Nat.add_sub_cancel]
    congr 2
    omega
  have htotal : bytes.length = 64 + (8 * (vals.length + 1) + (w.arena_len + map.length)) := by
    rw [hbytes, List.length_append, length_header, hlen]
  have hfreed : w.freed ≤ vals.length := by
    rw [hw.freed]
    exact List.countP_le_length
  -- The header is the magic bytes and the version, and then a table of numbers.
  have hhead : bytes = (MAGIC ++ (leBytes 4 VERSION ++ List.replicate 4 0)) ++
      ([vals.length, w.freed, (vals.length + 1) * 8, w.arena_len, map.length,
        tag.toNat].flatMap (leBytes 8) ++ sections w map) := by
    rw [hbytes, header, List.append_assoc, List.append_assoc, List.append_assoc,
      List.append_assoc, List.append_assoc]
  have hheadlen : (MAGIC ++ (leBytes 4 VERSION ++ List.replicate 4 0)).length = 16 := by
    simp [MAGIC, length_leBytes]
  have hnumber (i n : Nat)
      (hi : [vals.length, w.freed, (vals.length + 1) * 8, w.arena_len, map.length,
        tag.toNat][i]? = some n) (hn : n < 2 ^ 64) : u64_at bytes (16 + 8 * i) = .ok n := by
    rw [hhead]
    exact u64_at_number hi hn _ _ (by rw [hheadlen])
  obtain ⟨rest, hrest⟩ : ∃ rest, bytes =
      MAGIC ++ (leBytes 4 VERSION ++ (List.replicate 4 0 ++ rest)) :=
    ⟨_, by rw [hhead, List.append_assoc, List.append_assoc]⟩
  have hmagic : slice bytes 0 8 = .ok MAGIC := @slice_middle _ [] _ _ hrest _ _ rfl rfl
  have hversion : u32_at bytes 8 = .ok VERSION := by
    have hslice : slice bytes 8 (8 + 4) = .ok (leBytes 4 VERSION) := slice_middle hrest rfl rfl
    rw [u32_at, hslice, ok_bind]
    rfl
  have hmap : slice bytes (64 + (vals.length + 1) * 8 + w.arena_len)
      (64 + (vals.length + 1) * 8 + w.arena_len + map.length) = .ok map := by
    refine @slice_middle _ (header vals.length w.freed w.arena_len map.length tag.toNat ++
      (w.offsets.flatMap (leBytes 8) ++ w.keys.flatMap (·.1))) map [] ?_ _ _ ?_ ?_
    · rw [hbytes, sections, List.append_nil, List.append_assoc, List.append_assoc]
    · rw [List.length_append, List.length_append, length_header, length_numbers, hn, harena,
        ← hw.arena_len]
      omega
    · rw [List.length_append, List.length_append, length_header, length_numbers, hn, harena,
        ← hw.arena_len]
      omega
  generalize hb : (⟨bytes, vals.length, w.freed, tag.toNat, (64, 64 + (vals.length + 1) * 8),
    (64 + (vals.length + 1) * 8, 64 + (vals.length + 1) * 8 + w.arena_len), m⟩ :
      MappedBase fst) = b
  have hoffset (i : Nat) (hi : i ≤ vals.length) :
      b.offset i = some ((vals.take i).flatMap MappedBase.slot_bytes).length := by
    have hle := take_length_le vals i
    rw [← hw.arena_len] at hle
    have hmmap : b.mmap = header vals.length w.freed w.arena_len map.length tag.toNat ++
        (w.offsets.flatMap (leBytes 8) ++ (w.keys.flatMap (·.1) ++ map)) := by
      rw [← hb]
      exact hbytes
    refine offset_number (offset_of hw hi) (by omega) hmmap ?_ ?_
    · rw [← hb, length_header]
    · rw [← hb]
      exact show bytes.length < 2 ^ 64 by omega
  have hfirst : b.offset 0 = some 0 := hoffset 0 (Nat.zero_le _)
  have hlast : b.offset vals.length = some w.arena_len := by
    rw [hoffset _ (Nat.le_refl _), List.take_length, hw.arena_len]
  have hopened : open_bytes fst bytes = .ok b := by
    have hwant : want_offsets vals.length = some ((vals.length + 1) * 8) := by
      rw [want_offsets, checked_add_fits (by omega), Option.bind_some]
      exact if_pos (by omega)
    have htotal_len : total_len vals.length w.arena_len map.length = some bytes.length := by
      rw [total_len, hwant, Option.bind_eq_bind, Option.bind_some,
        checked_add_fits (by unfold HEADER_LEN; omega), Option.bind_some,
        checked_add_fits (by unfold HEADER_LEN; omega), Option.bind_some,
        checked_add_fits (by unfold HEADER_LEN; omega), htotal]
      unfold HEADER_LEN
      exact congrArg some (by omega)
    unfold open_bytes
    rw [if_neg (by unfold HEADER_LEN; omega), hmagic, ok_bind, if_neg (fun h => h rfl), hversion,
      ok_bind, if_neg (fun h => h rfl), hnumber 0 _ rfl (by omega), ok_bind,
      hnumber 1 _ rfl (by omega), ok_bind, hnumber 2 _ rfl (by omega), ok_bind,
      hnumber 3 _ rfl (by omega), ok_bind, hnumber 4 _ rfl (by omega), ok_bind,
      hnumber 5 _ rfl tag.toNat_lt, ok_bind]
    rw [if_neg (by rw [hwant, htotal_len]; simp [hfreed]), HEADER_LEN, add_usize_ok (by omega),
      ok_bind]
    dsimp only
    rw [add_usize_ok (by omega), ok_bind, add_usize_ok (by omega), ok_bind, hmap, ok_bind, hopen]
    dsimp only
    rw [hb, hfirst, hlast, if_neg (by simp)]
  have hmapped : Mapped b := by
    rcases open_mapped fst bytes with ⟨e, he⟩ | ⟨b', hb', hmapped⟩
    · rw [hopened] at he
      cases he
    · rw [hopened] at hb'
      cases hb'
      exact hmapped
  have harena_bytes : b.arena_bytes = w.keys.flatMap (·.1) := by
    have hslice := MappedBase.slice_arena hmapped
    have hmiddle : slice b.mmap b.arena.1 b.arena.2 = .ok (w.keys.flatMap (·.1)) := by
      rw [← hb]
      refine @slice_middle _ (header vals.length w.freed w.arena_len map.length
        tag.toNat ++ w.offsets.flatMap (leBytes 8)) (w.keys.flatMap (·.1)) map ?_ _ _ ?_ ?_
      · exact hbytes.trans (by rw [sections, List.append_assoc])
      · rw [List.length_append, length_header, length_numbers, hn]
        exact show 64 + (vals.length + 1) * 8 = _ by omega
      · rw [List.length_append, length_header, length_numbers, hn, harena, ← hw.arena_len]
        exact show 64 + (vals.length + 1) * 8 + w.arena_len = _ by omega
    rw [hmiddle] at hslice
    exact (Except.ok.inj hslice).symm
  refine ⟨vals, b, hvals, hw, hopened, hmapped, ?_, ?_, ?_, harena_bytes.trans harena, hoffset,
    fun k id => ?_, ?_⟩
  · rw [← hb]
  · rw [← hb]
    exact hw.freed
  · rw [← hb]
  · rw [← hb]
    change fst.get m k = some id ↔ _
    rw [hget, sorted, List.mem_mergeSort, hw.keys, List.mem_filterMap]
    simp
  · rw [← hb]
    exact hverify

namespace Opened

variable {vals : List MappedBase.Slot} {tag : UInt64} {b : MappedBase fst}

theorem slot_eq (h : Opened fst vals tag b) {i : Nat} {v : MappedBase.Slot}
    (hv : vals[i]? = some v) :
    b.slot (i + 1) = .ok (MappedBase.slot_value (MappedBase.slot_bytes v)) := by
  obtain ⟨hi, -⟩ := List.getElem?_eq_some_iff.mp hv
  obtain ⟨r, hr, hval⟩ := MappedBase.slot_range hv
  refine MappedBase.slot_between h.mapped (by rw [h.slots]; exact hi)
    (h.offsets i (Nat.le_of_lt hi)) (h.offsets (i + 1) hi) ?_
  have hread : (get_range (vals.flatMap MappedBase.slot_bytes)
      ((vals.take i).flatMap MappedBase.slot_bytes).length
      ((vals.take (i + 1)).flatMap MappedBase.slot_bytes).length).map (·.1) =
        some (MappedBase.slot_bytes v) := by
    rw [hr, Option.map_some, hval]
  rw [← h.arena] at hread
  exact hread

theorem in_order (h : Opened fst vals tag b) : b.InOrder (b.slots + 1) := by
  have hat (i : Nat) (hi : i ≤ vals.length) :
      b.offset_at i = ((vals.take i).flatMap MappedBase.slot_bytes).length := by
    rw [MappedBase.offset_at, h.offsets i hi]
    rfl
  have harena : b.arena.2 - b.arena.1 = (vals.flatMap MappedBase.slot_bytes).length := by
    have hlast := h.mapped.last
    rw [h.slots, h.offsets _ (Nat.le_refl _), List.take_length] at hlast
    exact (Option.some.inj hlast).symm
  rw [h.slots]
  refine ⟨fun i hi => ?_, fun i hi => ?_, fun i hi => ?_⟩
  · rw [hat i (by omega), h.offsets i (by omega)]
  · rw [hat i (by omega), harena]
    exact take_length_le vals i
  · rw [hat i (by omega), hat (i + 1) (by omega), List.take_add_one, List.flatMap_append,
      List.length_append]
    exact Nat.le_add_right _ _

theorem verify_eq (h : Opened fst vals tag b) : b.verify = .ok () := by
  have horder := h.in_order
  have hprefix (k : Nat) (hk : k ≤ b.slots) :
      (List.range (k + 1)).foldlM b.verify_offset 0 = .ok (b.offset_at k) := by
    have hstep (prev i : Nat) (hi : i ≤ b.slots) (hprev : prev ≤ b.offset_at i) :
        b.verify_offset prev i = .ok (b.offset_at i) := by
      have hin := horder.inside i (by omega)
      rw [MappedBase.verify_offset, horder.here i (by omega)]
      exact if_neg (by omega)
    induction k with
    | zero =>
      change (b.verify_offset 0 0 >>= pure) = _
      rw [hstep 0 0 hk (Nat.zero_le _)]
      rfl
    | succ k ih =>
      rw [List.range_succ, List.foldlM_append, ih (by omega), ok_bind]
      change (b.verify_offset _ (k + 1) >>= pure) = _
      rw [hstep _ _ hk (horder.ordered k (by omega))]
      rfl
  rw [MappedBase.verify, hprefix _ (Nat.le_refl _), ok_bind, h.verifies]

end Opened

/-! ## Lists of slots -/

/-- The encodings that are handed to the writer. -/
def encodings (slots : List SlotIn) : List Bytes :=
  slots.filterMap fun
    | .ok (some e) => some e.1
    | _ => none

/-- An error, an inline integer or an encoding that is there twice. -/
def Refused (slots : List SlotIn) : Prop :=
  (∃ e, (Except.error e : SlotIn) ∈ slots) ∨
    (∃ bytes id, (Except.ok (some (bytes, id)) : SlotIn) ∈ slots ∧
      TermId.kind id.1 = some .InlineInt) ∨
    ¬(encodings slots).Nodup

/-- Encodings that are not empty and differ, and tombstones. -/
structure Slots where
  slots : List SlotIn
  accepted : ¬Refused slots
  nonempty : [] ∉ encodings slots

theorem write_slot_ok {w w' : MappedBase.Written} {slot : SlotIn}
    (h : MappedBase.write_slot w slot.outcome = .ok w') :
    (∀ e, slot ≠ .error e) ∧
      ∀ bytes id, slot = .ok (some (bytes, id)) → TermId.kind id.1 ≠ some .InlineInt := by
  refine ⟨?_, ?_⟩
  · rintro e rfl
    cases h
  · rintro bytes id rfl hkind
    unfold MappedBase.write_slot SlotIn.outcome at h
    dsimp only [Option.map_some] at h
    rw [ok_bind] at h
    dsimp only at h
    rw [hkind] at h
    cases h

theorem write_slots_ok {w w' : MappedBase.Written}
    (h : (slots.map SlotIn.outcome).foldlM MappedBase.write_slot w = .ok w') :
    ∀ slot ∈ slots, (∀ e, slot ≠ .error e) ∧
      ∀ bytes id, slot = .ok (some (bytes, id)) → TermId.kind id.1 ≠ some .InlineInt := by
  induction slots generalizing w with
  | nil => exact fun slot hslot => absurd hslot List.not_mem_nil
  | cons slot slots ih =>
    rw [List.map_cons, List.foldlM_cons] at h
    obtain ⟨w₁, hfirst, hrest⟩ := bind_eq_ok h
    rw [List.forall_mem_cons]
    exact ⟨write_slot_ok hfirst, ih hrest⟩

/-- Slots without errors and inline integers are all taken. -/
theorem write_slots_accepted
    (h : ∀ slot ∈ slots, (∀ e, slot ≠ .error e) ∧
      ∀ bytes id, slot = .ok (some (bytes, id)) → TermId.kind id.1 ≠ some .InlineInt)
    (w : MappedBase.Written) :
    ∃ w', (slots.map SlotIn.outcome).foldlM MappedBase.write_slot w = .ok w' := by
  induction slots generalizing w with
  | nil => exact ⟨w, rfl⟩
  | cons slot slots ih =>
    rw [List.forall_mem_cons] at h
    obtain ⟨⟨herror, hinline⟩, hrest⟩ := h
    obtain ⟨w₁, hfirst⟩ : ∃ w₁, MappedBase.write_slot w slot.outcome = .ok w₁ := by
      cases slot with
      | error e => exact absurd rfl (herror e)
      | ok slot =>
        cases slot with
        | none => exact ⟨_, rfl⟩
        | some e =>
          obtain ⟨bytes, id, hkind⟩ := e
          obtain ⟨kind, hk⟩ := Option.isSome_iff_exists.mp hkind
          have hne := hinline bytes ⟨id, hkind⟩ rfl
          unfold MappedBase.write_slot SlotIn.outcome
          rw [hk] at hne
          dsimp only [Option.map_some]
          rw [ok_bind]
          dsimp only
          rw [hk]
          cases kind with
          | InlineInt => exact absurd rfl hne
          | _ => exact ⟨_, rfl⟩
    obtain ⟨w', hw'⟩ := ih hrest w₁
    refine ⟨w', ?_⟩
    rw [List.map_cons, List.foldlM_cons, hfirst]
    exact hw'

/-- The keys of the map are the encodings. -/
theorem keys_of_slots {vals : List MappedBase.Slot} (h : slots.map SlotIn.outcome = vals.map .ok) :
    (vals.filterMap id).map Prod.fst = encodings slots := by
  induction slots generalizing vals with
  | nil =>
    rw [List.map_nil, eq_comm, List.map_eq_nil_iff] at h
    rw [h]
    rfl
  | cons slot slots ih =>
    cases vals with
    | nil => cases h
    | cons v vals =>
      rw [List.map_cons, List.map_cons] at h
      obtain ⟨hv, hrest⟩ := List.cons.inj h
      have hkeys := ih hrest
      cases slot with
      | error e => cases hv
      | ok slot =>
        have hval : slot.map (fun e => (e.1, e.2.1)) = v := Except.ok.inj hv
        rw [← hval]
        cases slot with
        | none => exact hkeys
        | some e => exact congrArg (e.1 :: ·) hkeys

/-! ## Writing and opening -/

theorem not_refused (h : ¬Refused slots) : (∀ slot ∈ slots, (∀ e, slot ≠ .error e) ∧
      ∀ bytes id, slot = .ok (some (bytes, id)) → TermId.kind id.1 ≠ some .InlineInt) ∧
    (encodings slots).Nodup := by
  unfold Refused at h
  simp only [not_or, not_not] at h
  obtain ⟨herror, hinline, hdistinct⟩ := h
  refine ⟨fun slot hslot => ⟨?_, ?_⟩, hdistinct⟩
  · rintro e rfl
    exact herror ⟨e, hslot⟩
  · rintro bytes id rfl hkind
    exact hinline ⟨bytes, id, hslot, hkind⟩

theorem perm_sorted (keys : List (Bytes × TermId)) : (sorted keys).Perm keys :=
  List.mergeSort_perm keys _

theorem sorted_ascending {keys : List (Bytes × TermId)} (h : (keys.map Prod.fst).Nodup) :
    (sorted keys).Pairwise fun a b => a.1 < b.1 := by
  have hsorted : (sorted keys).Pairwise fun a b => a.1 ≤ b.1 := by
    have htrans (a b c : Bytes × TermId) (hab : decide (a.1 ≤ b.1) = true)
        (hbc : decide (b.1 ≤ c.1) = true) : decide (a.1 ≤ c.1) = true :=
      decide_eq_true (Std.le_trans (of_decide_eq_true hab) (of_decide_eq_true hbc))
    have htotal (a b : Bytes × TermId) : (decide (a.1 ≤ b.1) || decide (b.1 ≤ a.1)) = true := by
      rcases Std.le_total (a := a.1) (b := b.1) with hle | hle
      · simp [hle]
      · simp [hle]
    have hpair := List.pairwise_mergeSort htrans htotal keys
    exact hpair.imp of_decide_eq_true
  have hne : (sorted keys).Pairwise fun a b => a.1 ≠ b.1 := by
    rw [← List.pairwise_map (f := Prod.fst) (R := (· ≠ ·))]
    exact ((perm_sorted keys).map Prod.fst).nodup_iff.mpr h
  refine (hsorted.and hne).imp fun {a b} hab => ?_
  exact Std.lt_of_le_of_ne hab.1 hab.2

/-- The files of a refused list: none is written for it. -/
theorem not_image_of_refused (h : Refused slots) {tag : UInt64} {map bytes : Bytes} :
    ¬Image fst slots tag w map bytes := by
  intro himage
  have hslots := write_slots_ok himage.written
  rcases h with ⟨e, he⟩ | ⟨bytes, id, hmem, hkind⟩ | hrepeated
  · exact (hslots _ he).1 e rfl
  · exact (hslots _ hmem).2 bytes id rfl hkind
  · refine hrepeated ?_
    obtain ⟨vals, hvals, hw⟩ := MappedBase.wrote_slots .start himage.written
    rw [List.nil_append] at hw
    rw [← keys_of_slots hvals, ← hw.keys]
    have hascending := fst.ascending _ _ himage.built
    have hnodup : ((sorted w.keys).map Prod.fst).Nodup :=
      List.pairwise_map.mpr (hascending.imp fun hlt => Std.ne_of_lt hlt)
    exact ((perm_sorted w.keys).map Prod.fst).nodup_iff.mp hnodup

theorem tmp_name_ne (env : Env) (parent : Option String) (name : String) (counter : Nat) :
    (parent, tmp_name env name counter) ≠ ((parent, name) : FileName) := by
  intro h
  have hname := congrArg String.length (Prod.mk.inj h).2
  rw [tmp_name, String.length_append] at hname
  have hdot : 0 < ("." ++ toString env.pid ++ "." ++ toString counter ++ ".tmp").length := by
    rw [String.length_append]
    exact Nat.lt_of_lt_of_le (by decide) (Nat.le_add_left _ _)
  omega

theorem write_via_image {env : Env} {tmp path : FileName} (hne : tmp ≠ path) {tag : UInt64}
    {fs fs' : Fs} {stats : BaseStats}
    (h : write_via fst env tmp path slots tag fs = (.ok stats, fs')) :
    ∃ w map bytes, Image fst slots tag w map bytes ∧ fs'.files path = some bytes ∧
      bytes.length ≤ env.limit := by
  obtain ⟨_, fs₁, htmp, h⟩ := Io.bind_ok h
  obtain ⟨_, fs₂, hrename, h⟩ := Io.bind_ok h
  obtain ⟨_, fs₃, hsync, h⟩ := Io.bind_ok h
  cases h
  obtain ⟨w, map, bytes, himage, hfile, hfits⟩ := write_tmp_image htmp
  refine ⟨w, map, bytes, himage, ?_, hfits⟩
  unfold rename at hrename
  unfold sync_dir at hsync
  split at hrename
  · cases hrename
  · cases hrename
    split at hsync
    · cases hsync
    · cases hsync
      exact (put_other _ _ hne.symm).trans ((put_files _ _ _).trans hfile)

theorem write_image {env : Env} {parent : Option String} {name : String} {tag : UInt64}
    {fs fs' : Fs} {stats : BaseStats}
    (h : write fst env ⟨parent, some name⟩ slots tag fs = (.ok stats, fs')) :
    ∃ w map bytes, Image fst slots tag w map bytes ∧ fs'.files (parent, name) = some bytes ∧
      bytes.length ≤ env.limit := by
  unfold write at h
  dsimp only at h
  split at h
  · rename_i hvia
    cases h
    exact write_via_image (tmp_name_ne env parent name _) hvia
  · cases h

/-- The file has room for the slots. -/
def Fits (fst : FstFile) (env : Env) (slots : List SlotIn) : Prop :=
  ∀ w map, (slots.map SlotIn.outcome).foldlM MappedBase.write_slot ⟨[0], [], 0, 0⟩ = .ok w →
    fst.build (sorted w.keys) = .ok map → 64 + (sections w map).length ≤ env.limit

theorem write_succeeds (fst : FstFile) {env : Env} (hquiet : env.Quiet) (h : ¬Refused slots)
    (hfits : Fits fst env slots) (fs : Fs) (parent : Option String) (name : String) (tag : UInt64) :
    ∃ stats fs', write fst env ⟨parent, some name⟩ slots tag fs = (.ok stats, fs') := by
  obtain ⟨haccepted, hdistinct⟩ := not_refused h
  obtain ⟨w, hw⟩ := write_slots_accepted haccepted ⟨[0], [], 0, 0⟩
  obtain ⟨vals, hvals, hwrote⟩ := MappedBase.wrote_slots .start hw
  rw [List.nil_append] at hwrote
  rw [← keys_of_slots hvals, ← hwrote.keys] at hdistinct
  obtain ⟨map, hmap⟩ := fst.builds _ (sorted_ascending hdistinct)
  obtain ⟨stats, fs₁, htmp⟩ := @write_tmp_quiet _ _ hquiet
    (parent, tmp_name env name fs.tmp_counter) _ _ _ hw hmap (hfits w map hw hmap) tag
    { fs with tmp_counter := fs.tmp_counter + 1 }
  refine ⟨stats, ?_⟩
  unfold write
  dsimp only
  have hrename : ∃ fs₂, rename env (parent, tmp_name env name fs.tmp_counter) (parent, name) fs₁ =
      (.ok (), fs₂) := by
    unfold rename
    rw [hquiet]
    exact ⟨_, rfl⟩
  obtain ⟨fs₂, hrename⟩ := hrename
  have hsync : sync_dir env fs₂ = (.ok (), fs₂.next) := by
    unfold sync_dir
    rw [hquiet]
  have hvia : write_via fst env (parent, tmp_name env name fs.tmp_counter) (parent, name) slots tag
      { fs with tmp_counter := fs.tmp_counter + 1 } = (.ok stats, fs₂.next) :=
    (Io.bind_eq htmp _).trans ((Io.bind_eq hrename _).trans (Io.bind_eq hsync _))
  rw [hvia]
  exact ⟨_, rfl⟩

/-- A refused list leaves the file that was there. -/
theorem write_refused (fst : FstFile) (env : Env) (h : Refused slots) (fs : Fs)
    (parent : Option String) (name : String) (tag : UInt64) :
    ∃ e fs', write fst env ⟨parent, some name⟩ slots tag fs = (.error (.error e), fs') ∧
      fs'.files (parent, name) = fs.files (parent, name) := by
  have hne := tmp_name_ne env parent name fs.tmp_counter
  obtain ⟨hpanic, hkeeps⟩ := tame_write_tmp fst env (parent, tmp_name env name fs.tmp_counter)
    slots tag { fs with tmp_counter := fs.tmp_counter + 1 }
  have hkept := hkeeps (parent, name) hne.symm
  cases hrun : write_tmp fst env (parent, tmp_name env name fs.tmp_counter) slots tag
      { fs with tmp_counter := fs.tmp_counter + 1 } with
  | mk o fs₁ =>
    rw [hrun] at hpanic hkept
    cases o with
    | ok stats =>
      obtain ⟨w, map, bytes, himage, -⟩ := write_tmp_image hrun
      exact absurd himage (not_image_of_refused h)
    | error halt =>
      cases halt with
      | panic => exact absurd rfl hpanic
      | error e =>
        have hvia : write_via fst env (parent, tmp_name env name fs.tmp_counter) (parent, name)
            slots tag { fs with tmp_counter := fs.tmp_counter + 1 } =
              (.error (.error e), fs₁) := by
          change Io.bind _ _ _ = _
          rw [Io.bind, hrun]
        have hremove : (remove_file env (parent, tmp_name env name fs.tmp_counter) fs₁).2.files
            (parent, name) = fs₁.files (parent, name) := by
          unfold remove_file
          split
          · rfl
          · exact put_other _ _ hne.symm
        refine ⟨e, _, ?_, hremove.trans hkept⟩
        unfold write
        dsimp only
        rw [hvia]

def is_tombstone : SlotIn → Bool
  | .ok none => true
  | _ => false

/-- The base has the slots that were handed to the writer. -/
structure Holds (slots : List SlotIn) (tag : UInt64) (b : MappedBase fst) : Prop where
  slots_eq : b.slots = slots.length
  freed_eq : b.freed = slots.countP is_tombstone
  tag_eq : b.next_bnode_doc_tag = tag.toNat
  slot_eq : ∀ i v, slots[i]? = some (.ok v) → b.slot (i + 1) = .ok (v.map (·.1))
  get_eq : ∀ k id, b.get k = some id ↔
    ∃ h, (Except.ok (some (k, ⟨id, h⟩)) : SlotIn) ∈ slots
  verify_eq : b.verify = .ok ()

theorem slot_of_vals {vals : List MappedBase.Slot} (h : slots.map SlotIn.outcome = vals.map .ok)
    {i : Nat} {v : MappedBase.Slot} :
    vals[i]? = some v ↔ ∃ slot, slots[i]? = some slot ∧ slot.outcome = .ok v := by
  have hi := congrArg (·[i]?) h
  rw [List.getElem?_map, List.getElem?_map] at hi
  constructor
  · intro hv
    rw [hv, Option.map_some] at hi
    exact Option.map_eq_some_iff.mp hi
  · rintro ⟨slot, hslot, hout⟩
    rw [hslot, Option.map_some, hout] at hi
    obtain ⟨v', hv', hok⟩ := Option.map_eq_some_iff.mp hi.symm
    cases hok
    exact hv'

theorem countP_of_vals {vals : List MappedBase.Slot} (h : slots.map SlotIn.outcome = vals.map .ok) :
    vals.countP Option.isNone = slots.countP is_tombstone := by
  induction slots generalizing vals with
  | nil =>
    rw [List.map_nil, eq_comm, List.map_eq_nil_iff] at h
    rw [h]
    rfl
  | cons slot slots ih =>
    cases vals with
    | nil => cases h
    | cons v vals =>
      rw [List.map_cons, List.map_cons] at h
      obtain ⟨hv, hrest⟩ := List.cons.inj h
      rw [List.countP_cons, List.countP_cons, ih hrest]
      have htomb : Option.isNone v = is_tombstone slot := by
        rcases slot with _ | _ | _
        · cases hv
        · cases hv
          rfl
        · cases hv
          rfl
      rw [htomb]

/-- Encodings that are not empty are no tombstones. -/
theorem slot_value_of (h : [] ∉ encodings slots) {slot : SlotIn} (hslot : slot ∈ slots)
    {v : MappedBase.Slot} (hv : slot.outcome = .ok v) :
    MappedBase.slot_value (MappedBase.slot_bytes v) = v.map (·.1) := by
  cases v with
  | none => rfl
  | some e =>
    refine if_neg fun hempty : e.1 = [] => h ?_
    rw [← hempty, encodings, List.mem_filterMap]
    refine ⟨slot, hslot, ?_⟩
    rcases slot with _ | _ | e'
    · cases hv
    · cases hv
    · cases hv
      rfl

/-- The base that opens has what was handed to the writer. -/
theorem Opened.holds {vals : List MappedBase.Slot} {tag : UInt64} {b : MappedBase fst}
    (h : Opened fst vals tag b) (hvals : slots.map SlotIn.outcome = vals.map .ok)
    (hempty : [] ∉ encodings slots) : Holds slots tag b := by
  refine ⟨?_, ?_, h.tag, fun i v hv => ?_, fun k id => ?_, h.verify_eq⟩
  · have hlen := congrArg List.length hvals
    rw [List.length_map, List.length_map] at hlen
    rw [h.slots, hlen]
  · rw [h.freed, countP_of_vals hvals]
  · have hread := h.slot_eq ((slot_of_vals hvals).mpr ⟨.ok v, hv, rfl⟩)
    rw [hread, slot_value_of hempty (List.mem_of_getElem? hv) rfl, Option.map_map]
    rfl
  · rw [h.found]
    constructor
    · intro hmem
      obtain ⟨i, hi⟩ := List.mem_iff_getElem?.mp hmem
      obtain ⟨slot, hslot, hout⟩ := (slot_of_vals hvals).mp hi
      rcases slot with _ | _ | ⟨bytes, id', hkind⟩
      · cases hout
      · cases hout
      · cases hout
        exact ⟨hkind, List.mem_of_getElem? hslot⟩
    · rintro ⟨hkind, hmem⟩
      obtain ⟨i, hi⟩ := List.mem_iff_getElem?.mp hmem
      exact List.mem_of_getElem? ((slot_of_vals hvals).mpr ⟨_, hi, rfl⟩)

/-- A place where no operation fails. -/
def quiet_env : Env := ⟨1, fun _ => none, 2 ^ 63 - 1, by decide⟩

/-- Two terms, the greater one first, and a tombstone between them. -/
def two_terms : Slots where
  slots := [.ok (some ([2], ⟨1, by decide⟩)), .ok none, .ok (some ([1], ⟨3, by decide⟩))]
  accepted := by
    rintro (⟨e, he⟩ | ⟨bytes, id, hmem, hkind⟩ | hrepeated)
    · simp at he
    · simp only [List.mem_cons, Except.ok.injEq, Option.some.injEq, Prod.mk.injEq, reduceCtorEq,
        List.not_mem_nil, or_false, false_or] at hmem
      rcases hmem with ⟨-, rfl⟩ | ⟨-, rfl⟩
      · cases hkind
      · cases hkind
    · exact hrepeated (by decide)
  nonempty := by decide

theorem two_terms_map : FstFile.rows.build (sorted [([2], 1), ([1], 3)]) =
    .ok (number_bytes (Encodable.encode (FstFile.row_numbers [([1], 3), ([2], 1)]))) := by
  have hasc : ([([1], 3), ([2], 1)] : List (Bytes × TermId)).Pairwise fun a b => a.1 < b.1 :=
    List.pairwise_pair.mpr (by decide)
  have hperm : (sorted [([2], 1), ([1], 3)]).Perm [([1], 3), ([2], 1)] :=
    (perm_sorted _).trans (List.Perm.swap _ _ _)
  have hsorted : sorted [([2], 1), ([1], 3)] = [([1], 3), ([2], 1)] := by
    apply List.Perm.eq_of_pairwise _ (sorted_ascending (by simp)) hasc hperm
    intro a b _ _ hab hba
    exact absurd hba (List.lt_asymm hab)
  rw [hsorted]
  unfold FstFile.rows
  dsimp only
  rw [if_pos hasc]

end horndb.storage.base_file
