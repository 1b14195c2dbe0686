-- What a dictionary holds: a row of numbered slots. Every operation reads the row, appends
-- a new term to it, or empties slots of it.
import HornDb.Dictionary
import HornDb.Lib.Slots

open Std HornDb.Lib HornDb.Lib.Wire HornDb.Lib.Slots

namespace horndb.storage

variable {ox : Oxrdf} {fst : FstLib}

/-- A term that takes a slot: its bytes can be counted, and it is no small integer. -/
structure Stored (t : Term ox) : Prop where
  fits : (encode_term t).length < 2 ^ 64
  slotted : try_inline_int t = none

theorem encode_term_inj {t u : Term ox} (hu : Stored u) (hc : u.Checked)
    (h : encode_term t = encode_term u) : t = u := by
  have ht := decode_term_encode t (by rw [h]; exact hu.fits)
  rw [h] at ht
  exact (ht.back ((decode_term_encode u hu.fits).eq hc)).2.symm

theorem encode_term_ne_nil (t : Term ox) : encode_term t ≠ [] := by
  cases t with
  | Literal lit => cases lit <;> exact nofun
  | _ => exact nofun

theorem kind_of_ne (t : Term ox) : kind_of t ≠ .InlineInt := by
  cases t with
  | Literal lit => cases lit <;> exact nofun
  | _ => exact nofun

/-- The id of the term in slot `i`, counted from zero. -/
def slot_id (t : Term ox) (i : Nat) : TermId := TermId.new (kind_of t) (i + 1)

/-- A base file that holds the row `held`. -/
structure BaseHolds (b : MappedBase fst) (held : List (Option (Term ox))) : Prop where
  slots : b.slots = held.length
  freed : b.freed = free held
  term : ∀ i t, held[i]? = some (some t) → b.slot (i + 1) = .ok (some (encode_term t))
  tombstone : ∀ i : Nat, held[i]? = some none → b.slot (i + 1) = .ok none
  ids : ∀ k id, b.get k = some id ↔
    ∃ (i : Nat) (t : Term ox), held[i]? = some (some t) ∧ k = encode_term t ∧ id = slot_id t i

theorem BaseHolds.term_bytes {b : MappedBase fst} {held : List (Option (Term ox))}
    (h : BaseHolds b held) {i : Nat} {o : Option (Term ox)} (ho : held[i]? = some o) :
    b.term_bytes (i + 1) = o.map encode_term := by
  unfold MappedBase.term_bytes
  cases o with
  | none => rw [h.tombstone i ho]; rfl
  | some t => rw [h.term i t ho]; rfl

namespace Dictionary

/-- The row of the base, without what was reclaimed since. -/
def alive (d : Dictionary ox fst) (held : List (Option (Term ox))) : List (Option (Term ox)) :=
  clear (fun i => d.base_dead.contains (i + 1)) held

def row (d : Dictionary ox fst) (held : List (Option (Term ox))) : List (Option (Term ox)) :=
  d.alive held ++ d.terms

/-- The dictionary holds its row over a base that holds `held`, and `extra` slots are freed
that it has not counted yet. -/
structure Holds (d : Dictionary ox fst) (held : List (Option (Term ox))) (extra : Nat) :
    Prop where
  base : d.base.elim (held = []) fun b => BaseHolds b held
  base_len : d.base_len = held.length
  tables : d.tables.Good
  forward : ∀ k id, d.forward[k]? = some id ↔
    ∃ (i : Nat) (t : Term ox), d.terms[i]? = some (some t) ∧ d.tables.key t = some k ∧
      id = slot_id t (d.base_len + i)
  keyed : ∀ (i : Nat) t, d.terms[i]? = some (some t) → ∃ k, d.tables.key t = some k
  stored : ∀ t, some t ∈ held ++ d.terms → Stored t
  single : Single (d.row held)
  counted : d.freed + extra = free (d.row held)
  small : d.len < MAX_DICT_INDEX
  checked : ∀ t, some t ∈ held → t.Checked

variable {d : Dictionary ox fst} {held : List (Option (Term ox))} {extra : Nat}

/-! ## The row -/

theorem length_alive : (d.alive held).length = held.length := length_clear _ _

theorem Holds.length_row (h : Holds d held extra) : (d.row held).length = d.len := by
  rw [row, List.length_append, length_alive, ← h.base_len]
  rfl

theorem alive_eq_some {i : Nat} {t : Term ox} :
    (d.alive held)[i]? = some (some t) ↔ (i + 1) ∉ d.base_dead ∧ held[i]? = some (some t) := by
  rw [alive, clear_eq_some, ← Bool.not_eq_true, ExtTreeSet.contains_iff_mem]

theorem Holds.row_base (h : Holds d held extra) {i : Nat} (hi : i < d.base_len) :
    (d.row held)[i]? = (d.alive held)[i]? := by
  rw [row, List.getElem?_append_left (by rwa [length_alive, ← h.base_len])]

theorem Holds.row_terms (h : Holds d held extra) (i : Nat) :
    (d.row held)[d.base_len + i]? = d.terms[i]? := by
  rw [row, List.getElem?_append_right (by rw [length_alive, ← h.base_len]; omega), length_alive,
    ← h.base_len, Nat.add_sub_cancel_left]

/-- A term of the row stands in the base or among the terms. -/
theorem Holds.row_eq_some (h : Holds d held extra) {i : Nat} {t : Term ox} :
    (d.row held)[i]? = some (some t) ↔
      (d.alive held)[i]? = some (some t) ∨
        ∃ j, i = d.base_len + j ∧ d.terms[j]? = some (some t) := by
  by_cases hi : i < d.base_len
  · rw [h.row_base hi]
    refine ⟨Or.inl, fun hor => hor.resolve_right fun ⟨j, hj, _⟩ => by omega⟩
  · obtain ⟨j, rfl⟩ := Nat.exists_eq_add_of_le (Nat.not_lt.mp hi)
    rw [h.row_terms j]
    refine ⟨fun hj => Or.inr ⟨j, rfl, hj⟩, fun hor => ?_⟩
    rcases hor with hbase | ⟨j', hj', ht⟩
    · obtain ⟨hlt, _⟩ := List.getElem?_eq_some_iff.mp hbase
      rw [length_alive, ← h.base_len] at hlt
      omega
    · rwa [Nat.add_left_cancel hj']

theorem Holds.index_lt (h : Holds d held extra) {i : Nat} {t : Term ox}
    (ht : (d.row held)[i]? = some (some t)) : i + 1 < MAX_DICT_INDEX := by
  obtain ⟨hi, _⟩ := List.getElem?_eq_some_iff.mp ht
  have hsmall := h.small
  rw [h.length_row] at hi
  omega

theorem Holds.row_stored (h : Holds d held extra) {i : Nat} {t : Term ox}
    (ht : (d.row held)[i]? = some (some t)) : Stored t := by
  apply h.stored
  rw [List.mem_append]
  rcases h.row_eq_some.mp ht with hbase | ⟨j, _, hj⟩
  · exact Or.inl (List.mem_of_getElem? (alive_eq_some.mp hbase).2)
  · exact Or.inr (List.mem_of_getElem? hj)

theorem payload_slot_id {t : Term ox} {i : Nat} (h : i + 1 < MAX_DICT_INDEX) :
    TermId.payload (slot_id t i) = i + 1 := TermId.payload_new h

theorem kind_slot_id {t : Term ox} {i : Nat} (h : i + 1 < MAX_DICT_INDEX) :
    TermId.kind (slot_id t i) = some (kind_of t) := TermId.kind_new h

/-! ## Probes -/

theorem Holds.base_get_eq (h : Holds d held extra) (t : Term ox) (id : TermId) :
    d.base_get t = some id ↔
      ∃ i : Nat, (d.alive held)[i]? = some (some t) ∧ id = slot_id t i := by
  have hbase := h.base
  unfold base_get
  cases hb : d.base with
  | none =>
    rw [hb] at hbase
    refine ⟨nofun, fun ⟨i, hi, _⟩ => ?_⟩
    rw [alive_eq_some, show held = [] from hbase] at hi
    cases hi.2
  | some b =>
    rw [hb] at hbase
    have hholds : BaseHolds b held := hbase
    dsimp only
    refine ⟨fun hget => ?_, fun ⟨i, hi, hid⟩ => ?_⟩
    · split at hget
      · cases hget
      · rename_i id' hid'
        obtain ⟨i, u, hu, henc, rfl⟩ := (hholds.ids _ _).mp hid'
        have hmem := List.mem_of_getElem? hu
        obtain rfl := encode_term_inj (h.stored u (List.mem_append_left _ hmem)) (h.checked u hmem) henc
        have hlt : i + 1 < MAX_DICT_INDEX := by
          obtain ⟨hi, _⟩ := List.getElem?_eq_some_iff.mp hu
          have hsmall := h.small
          unfold len at hsmall
          rw [h.base_len] at hsmall
          omega
        rw [payload_slot_id hlt] at hget
        split at hget
        · cases hget
        · rename_i hdead
          cases hget
          exact ⟨i, alive_eq_some.mpr ⟨hdead, hu⟩, rfl⟩
    · obtain ⟨hdead, hu⟩ := alive_eq_some.mp hi
      have hlt : i + 1 < MAX_DICT_INDEX := h.index_lt (h.row_eq_some.mpr (Or.inl hi))
      rw [(hholds.ids _ _).mpr ⟨i, t, hu, rfl, rfl⟩]
      dsimp only
      rw [payload_slot_id hlt, if_neg hdead, hid]

/-- The key of a term names its slot among the terms, and no other key does. -/
theorem Holds.forward_key (h : Holds d held extra) (hprint : ox.Printable) {t : Term ox}
    {k : Bytes} (hk : d.tables.key t = some k) (id : TermId) :
    d.forward[k]? = some id ↔
      ∃ i : Nat, d.terms[i]? = some (some t) ∧ id = slot_id t (d.base_len + i) := by
  rw [h.forward]
  refine ⟨fun ⟨i, u, hu, hku, hid⟩ => ?_, fun ⟨i, hi, hid⟩ => ⟨i, t, hi, hk, hid⟩⟩
  obtain rfl := h.tables.key_inj hprint hku hk
  exact ⟨i, hu, hid⟩

theorem Holds.probe (h : Holds d held extra) (hprint : ox.Printable) (t : Term ox) (id : TermId) :
    (d.tables.key t).bind (fun k => d.forward[k]?) = some id ↔
      ∃ i : Nat, d.terms[i]? = some (some t) ∧ id = slot_id t (d.base_len + i) := by
  cases hk : d.tables.key t with
  | none =>
    refine ⟨nofun, fun ⟨i, hi, _⟩ => ?_⟩
    obtain ⟨k, hk'⟩ := h.keyed i t hi
    rw [hk] at hk'
    cases hk'
  | some k => exact h.forward_key hprint hk id

/-- The dictionary gives a term the id of the slot that it stands in, or of its own value. -/
theorem Holds.get_eq (h : Holds d held extra) (hprint : ox.Printable) (t : Term ox) (id : TermId) :
    d.get t = some id ↔
      try_inline_int t = some id ∨
        ∃ i : Nat, (d.row held)[i]? = some (some t) ∧ id = slot_id t i := by
  unfold get
  cases hinline : try_inline_int t with
  | some v =>
    refine ⟨Or.inl, fun hor => hor.resolve_right fun ⟨i, hi, _⟩ => ?_⟩
    rw [(h.row_stored hi).slotted] at hinline
    cases hinline
  | none =>
    dsimp only
    have hrow : (∃ i : Nat, (d.row held)[i]? = some (some t) ∧ id = slot_id t i) ↔
        (∃ i : Nat, d.terms[i]? = some (some t) ∧ id = slot_id t (d.base_len + i)) ∨
          ∃ i : Nat, (d.alive held)[i]? = some (some t) ∧ id = slot_id t i := by
      refine ⟨fun ⟨i, hi, hid⟩ => ?_, fun hor => ?_⟩
      · rcases h.row_eq_some.mp hi with hbase | ⟨j, rfl, hj⟩
        · exact Or.inr ⟨i, hbase, hid⟩
        · exact Or.inl ⟨j, hj, hid⟩
      · rcases hor with ⟨i, hi, hid⟩ | ⟨i, hi, hid⟩
        · exact ⟨_, h.row_eq_some.mpr (Or.inr ⟨i, rfl, hi⟩), hid⟩
        · exact ⟨i, h.row_eq_some.mpr (Or.inl hi), hid⟩
    rw [hrow, ← h.probe hprint, ← h.base_get_eq]
    simp only [reduceCtorEq, false_or]
    split
    · rename_i id' hid'
      rw [hid']
      refine ⟨Or.inl, fun hor => hor.elim (·) fun hbase => ?_⟩
      -- A term in both places would stand in two slots.
      obtain ⟨i, hi, _⟩ := (h.probe hprint t id').mp hid'
      obtain ⟨j, hj, _⟩ := (h.base_get_eq t id).mp hbase
      have heq := h.single _ _ t (h.row_eq_some.mpr (Or.inr ⟨i, rfl, hi⟩))
        (h.row_eq_some.mpr (Or.inl hj))
      obtain ⟨hlt, _⟩ := List.getElem?_eq_some_iff.mp hj
      rw [length_alive, ← h.base_len] at hlt
      omega
    · rename_i hnone
      rw [hnone]
      simp

/-- An index resolves to the term in its slot. -/
theorem Holds.resolve_eq (h : Holds d held extra) (idx : Nat) :
    d.resolve idx = if idx = 0 then none else (d.row held)[idx - 1]?.join := by
  unfold resolve
  by_cases hzero : idx = 0
  · rw [if_pos hzero, if_pos hzero]
  · obtain ⟨i, rfl⟩ := Nat.exists_eq_succ_of_ne_zero hzero
    rw [if_neg hzero, if_neg hzero, Nat.succ_eq_add_one, Nat.add_sub_cancel]
    by_cases hle : i + 1 ≤ d.base_len
    · have hi : i < held.length := by rw [← h.base_len]; exact hle
      have hslot : held[i]? = some held[i] := List.getElem?_eq_getElem hi
      rw [if_pos hle, h.row_base hle, alive, getElem?_clear, hslot]
      by_cases hdead : i + 1 ∈ d.base_dead
      · rw [if_pos hdead, Option.map_some, if_pos (ExtTreeSet.contains_iff_mem.mpr hdead)]
        rfl
      · rw [if_neg hdead, Option.map_some,
          if_neg (fun hc => hdead (ExtTreeSet.contains_iff_mem.mp hc))]
        have hbase := h.base
        cases hb : d.base with
        | none =>
          rw [hb] at hbase
          rw [show held = [] from hbase] at hi
          cases hi
        | some b =>
          rw [hb] at hbase
          have hholds : BaseHolds b held := hbase
          rw [Option.bind_some, hholds.term_bytes hslot]
          cases ht : held[i] with
          | none => rfl
          | some t =>
            have hmem : some t ∈ held := ht ▸ List.getElem_mem hi
            rw [Option.map_some]
            dsimp only
            have hstored := h.stored t (List.mem_append_left _ hmem)
            rw [(decode_term_encode t hstored.fits).eq (h.checked t hmem)]
            rfl
    · obtain ⟨j, rfl⟩ := Nat.exists_eq_add_of_le (Nat.le_of_lt_succ (Nat.not_le.mp hle))
      rw [if_neg hle, h.row_terms, Nat.add_sub_cancel_left]

/-- The row shows what the indices resolve to. -/
theorem Holds.row_checked (h : Holds d held extra)
    (hc : ∀ idx t, d.resolve idx = some t → t.Checked) (t : Term ox) (ht : some t ∈ d.row held) :
    t.Checked := by
  obtain ⟨i, hi⟩ := List.mem_iff_getElem?.mp ht
  refine hc (i + 1) t ?_
  rw [h.resolve_eq, if_neg (Nat.succ_ne_zero i), Nat.add_sub_cancel, hi]
  rfl

theorem Holds.lookup_slot (h : Holds d held extra) {t : Term ox} {i : Nat} (hi : i < d.len) :
    d.lookup (slot_id t i) = .ok (d.row held)[i]?.join := by
  have hlt : i + 1 < MAX_DICT_INDEX := Nat.lt_of_le_of_lt hi h.small
  unfold lookup
  rw [kind_slot_id hlt]
  have hne := kind_of_ne t
  cases hk : kind_of t with
  | InlineInt => exact absurd hk hne
  | _ =>
    dsimp only
    rw [payload_slot_id hlt, h.resolve_eq, if_neg (Nat.succ_ne_zero i), Nat.add_sub_cancel]

theorem lookup_inline {v : Int32} {t : Term ox} (h : integer_term ox v = .ok t) :
    d.lookup (TermId.inline_int v) = .ok (some t) := by
  unfold lookup
  rw [TermId.kind_inline_int, TermId.as_inline_int_inline_int]
  dsimp only
  rw [h]
  rfl

/-! ## Interning -/

theorem Holds.start : Holds (new : Dictionary ox fst) [] 0 := by
  refine ⟨rfl, rfl, Tables.new_good, fun k id => ?_, nofun, nofun, nofun, rfl,
    Nat.two_pow_pos 60, nofun⟩
  refine ⟨fun hk => ?_, fun ⟨i, t, hi, _⟩ => nomatch hi⟩
  rw [show (new : Dictionary ox fst).forward = ∅ from rfl, ExtTreeMap.getElem?_empty] at hk
  cases hk

/-- New ids in the side tables change no key that is in use. -/
theorem Holds.grow (h : Holds d held extra) {t : Term ox} (hroom : d.tables.Room t) :
    Holds { d with tables := (d.tables.encode_into .Intern t).1 } held extra := by
  refine ⟨h.base, h.base_len, h.tables.encode_into hroom, fun k id => ?_, fun i u hu => ?_,
    h.stored, h.single, h.counted, h.small, h.checked⟩
  · rw [h.forward]
    refine exists_congr fun i => exists_congr fun u => and_congr_right fun hu => ?_
    obtain ⟨k', hk'⟩ := h.keyed i u hu
    rw [Tables.key_of_intern hk', hk']
  · obtain ⟨k, hk⟩ := h.keyed i u hu
    exact ⟨k, Tables.key_of_intern hk⟩

/-- What interning a term does to the row, and the id that it gives. -/
inductive Interned (row : List (Option (Term ox))) (t : Term ox) :
    List (Option (Term ox)) → Outcome TermId → Prop
  | inline {id : TermId} (h : try_inline_int t = some id) : Interned row t row (.ok id)
  | held {i : Nat} (h : row[i]? = some (some t)) : Interned row t row (.ok (slot_id t i))
  | added (slotted : try_inline_int t = none) (h : ∀ i : Nat, row[i]? ≠ some (some t)) :
    Interned row t (row ++ [some t]) (.ok (slot_id t row.length))
  | failed (e : Halt) : Interned row t row (.error e)

/-- A term with no slot takes the next one. -/
theorem Holds.append (h : Holds d held extra) (hprint : ox.Printable) {t : Term ox} {k : Bytes}
    (hstored : Stored t) (hk : d.tables.key t = some k)
    (hnew : ∀ i : Nat, (d.row held)[i]? ≠ some (some t)) (hsmall : d.len + 1 < MAX_DICT_INDEX) :
    Holds { d with
        terms := d.terms ++ [some t]
        forward := d.forward.insert k (slot_id t d.len) } held extra ∧
      ({ d with
        terms := d.terms ++ [some t]
        forward := d.forward.insert k (slot_id t d.len) } : Dictionary ox fst).row held =
          d.row held ++ [some t] := by
  have hrow : ({ d with
      terms := d.terms ++ [some t]
      forward := d.forward.insert k (slot_id t d.len) } : Dictionary ox fst).row held =
        d.row held ++ [some t] := (List.append_assoc _ _ _).symm
  refine ⟨⟨h.base, h.base_len, h.tables, fun k' id => ?_, fun i u hu => ?_, fun u hu => ?_, ?_, ?_,
    ?_, h.checked⟩, hrow⟩
  · dsimp only
    rw [ExtTreeMap.getElem?_insert]
    by_cases hkk : k = k'
    · subst hkk
      rw [if_pos (by simp)]
      refine ⟨fun hid => ?_, fun ⟨i, u, hu, hku, hid⟩ => ?_⟩
      · cases hid
        exact ⟨d.terms.length, t, snoc_eq_some.mpr (Or.inr ⟨rfl, rfl⟩), hk, rfl⟩
      · obtain rfl := h.tables.key_inj hprint hku hk
        rcases snoc_eq_some.mp hu with hold | ⟨rfl, _⟩
        · exact absurd (h.row_eq_some.mpr (Or.inr ⟨i, rfl, hold⟩)) (hnew _)
        · rw [hid]
          rfl
    · rw [if_neg (by simpa using hkk), h.forward]
      refine exists_congr fun i => exists_congr fun u => ?_
      refine ⟨fun ⟨hu, hrest⟩ => ⟨snoc_eq_some.mpr (Or.inl hu), hrest⟩, fun ⟨hu, hku, hid⟩ => ?_⟩
      rcases snoc_eq_some.mp hu with hold | ⟨_, rfl⟩
      · exact ⟨hold, hku, hid⟩
      · rw [hk] at hku
        exact absurd (Option.some.inj hku) hkk
  · rcases snoc_eq_some.mp hu with hold | ⟨_, rfl⟩
    · exact h.keyed i u hold
    · exact ⟨k, hk⟩
  · rw [← List.append_assoc, List.mem_append, List.mem_singleton] at hu
    rcases hu with hold | hnew
    · exact h.stored u hold
    · cases hnew
      exact hstored
  · rw [hrow]
    exact h.single.snoc hnew
  · rw [hrow, free_append, h.counted]
    rfl
  · show d.base_len + (d.terms ++ [some t]).length < MAX_DICT_INDEX
    rw [List.length_append]
    exact hsmall

theorem Holds.intern (h : Holds d held extra) (hprint : ox.Printable) {t : Term ox}
    (hfits : (encode_term t).length < 2 ^ 64)
    (hroom : try_inline_int t = none → d.tables.Room t) :
    Holds (d.intern t).1 held extra ∧
      Interned (d.row held) t ((d.intern t).1.row held) (d.intern t).2 := by
  unfold Dictionary.intern
  split
  · rename_i id hid
    exact ⟨h, .inline hid⟩
  · rename_i hinline
    have hgrown := h.grow (hroom hinline)
    obtain ⟨k, hk, hkey⟩ := d.tables.encode_into_intern t
    split
    · rename_i tables heq
      rw [heq] at hk
      cases hk
    · rename_i tables key heq
      rw [heq] at hk hkey hgrown
      cases hk
      dsimp only at hkey hgrown ⊢
      split
      · rename_i id hid
        obtain ⟨i, hi, rfl⟩ := (hgrown.forward_key hprint hkey id).mp hid
        exact ⟨hgrown, .held (hgrown.row_eq_some.mpr (Or.inr ⟨i, rfl, hi⟩))⟩
      · rename_i hmiss
        split
        · rename_i id hid
          obtain ⟨i, hi, rfl⟩ := (hgrown.base_get_eq t id).mp hid
          exact ⟨hgrown, .held (hgrown.row_eq_some.mpr (Or.inl hi))⟩
        · rename_i hbase
          -- Neither probe has the term, so no slot has it.
          have hnew : ∀ i : Nat, (d.row held)[i]? ≠ some (some t) := by
            intro i hi
            rcases hgrown.row_eq_some.mp hi with hi | ⟨j, _, hj⟩
            · rw [(hgrown.base_get_eq t _).mpr ⟨i, hi, rfl⟩] at hbase
              cases hbase
            · have hfound := (hgrown.forward_key hprint hkey _).mpr ⟨j, hj, rfl⟩
              dsimp only at hfound
              rw [hmiss] at hfound
              cases hfound
          unfold intern_miss
          dsimp only
          rw [hmiss]
          dsimp only
          split
          · exact ⟨hgrown, .failed _⟩
          · rename_i hsmall
            have happend := hgrown.append hprint ⟨hfits, hinline⟩ hkey hnew
              (Nat.not_le.mp hsmall)
            refine ⟨happend.1, ?_⟩
            have hid : slot_id t d.len = slot_id t (d.row held).length := by rw [h.length_row]
            have hadded := Interned.added hinline hnew
            rw [← hid] at hadded
            rw [← show ({ d with tables } : Dictionary ox fst).row held = d.row held from rfl,
              ← happend.2] at hadded
            exact hadded

/-! ## Freeing a slot -/

theorem Holds.count (h : Holds d held extra) :
    Holds { d with freed := d.freed + extra } held 0 :=
  ⟨h.base, h.base_len, h.tables, h.forward, h.keyed, h.stored, h.single, h.counted, h.small, h.checked⟩

/-- A slot of the base is emptied. -/
theorem Holds.drop_base (h : Holds d held extra) {i : Nat} {t : Term ox}
    (ht : (d.alive held)[i]? = some (some t)) :
    Holds { d with base_dead := d.base_dead.insert (i + 1) } held (extra + 1) ∧
      ({ d with base_dead := d.base_dead.insert (i + 1) } : Dictionary ox fst).row held =
        (d.row held).set i none := by
  have hlt : i < (d.alive held).length := (List.getElem?_eq_some_iff.mp ht).1
  have halive : ({ d with base_dead := d.base_dead.insert (i + 1) } : Dictionary ox fst).alive held =
      (d.alive held).set i none := by
    refine clear_set fun j => ?_
    dsimp only
    rw [Bool.eq_iff_iff, Bool.or_eq_true, ExtTreeSet.contains_iff_mem, ExtTreeSet.contains_iff_mem,
      ExtTreeSet.mem_insert, decide_eq_true_iff, Std.compare_eq_iff_eq, Nat.add_right_cancel_iff]
    tauto
  have hrow : ({ d with base_dead := d.base_dead.insert (i + 1) } : Dictionary ox fst).row held =
      (d.row held).set i none := by
    rw [row, row, halive, List.set_append_left _ _ hlt]
  refine ⟨⟨h.base, h.base_len, h.tables, h.forward, h.keyed, h.stored, ?_, ?_, h.small, h.checked⟩, hrow⟩
  · rw [hrow]
    exact h.single.set i
  · rw [hrow, free_set (h.row_eq_some.mpr (Or.inl ht)), ← h.counted]
    rfl

/-- A slot among the terms is emptied, and its key goes with it. -/
theorem Holds.drop_term (h : Holds d held extra) (hprint : ox.Printable) {i : Nat} {t : Term ox}
    {k : Bytes} (ht : d.terms[i]? = some (some t)) (hk : d.tables.key t = some k) :
    Holds { d with terms := d.terms.set i none, forward := d.forward.erase k } held (extra + 1) ∧
      ({ d with terms := d.terms.set i none, forward := d.forward.erase k } :
        Dictionary ox fst).row held = (d.row held).set (d.base_len + i) none := by
  have hrow : ({ d with terms := d.terms.set i none, forward := d.forward.erase k } :
      Dictionary ox fst).row held = (d.row held).set (d.base_len + i) none := by
    rw [row, row, List.set_append_right _ _ (by rw [length_alive, ← h.base_len]; omega),
      length_alive, ← h.base_len, Nat.add_sub_cancel_left]
    rfl
  refine ⟨⟨h.base, h.base_len, h.tables, fun k' id => ?_, fun j u hu => ?_, fun u hu => ?_, ?_, ?_,
    ?_, h.checked⟩, hrow⟩
  · dsimp only
    rw [ExtTreeMap.getElem?_erase]
    by_cases hkk : k = k'
    · subst hkk
      rw [if_pos (by simp)]
      refine ⟨nofun, fun ⟨j, u, hu, hku, _⟩ => ?_⟩
      -- Only the term that is dropped has the key.
      obtain rfl := h.tables.key_inj hprint hku hk
      obtain ⟨hne, hold⟩ := set_eq_some.mp hu
      have hsame := h.single _ _ u (h.row_eq_some.mpr (Or.inr ⟨i, rfl, ht⟩))
        (h.row_eq_some.mpr (Or.inr ⟨j, rfl, hold⟩))
      exact absurd (Nat.add_left_cancel hsame) hne
    · rw [if_neg (by simpa using hkk), h.forward]
      refine exists_congr fun j => exists_congr fun u => ?_
      refine ⟨fun ⟨hu, hku, hid⟩ => ⟨set_eq_some.mpr ⟨?_, hu⟩, hku, hid⟩,
        fun ⟨hu, hrest⟩ => ⟨(set_eq_some.mp hu).2, hrest⟩⟩
      intro hij
      subst hij
      rw [ht] at hu
      cases hu
      rw [hk] at hku
      exact hkk (Option.some.inj hku)
  · exact h.keyed j u (set_eq_some.mp hu).2
  · rw [List.mem_append] at hu
    rcases hu with hbase | hterms
    · exact h.stored u (List.mem_append_left _ hbase)
    · refine h.stored u (List.mem_append_right _ ?_)
      exact (List.mem_or_eq_of_mem_set hterms).resolve_right nofun
  · rw [hrow]
    exact h.single.set _
  · rw [hrow, free_set (h.row_eq_some.mpr (Or.inr ⟨i, rfl, ht⟩)), ← h.counted]
    rfl
  · show d.base_len + (d.terms.set i none).length < MAX_DICT_INDEX
    rw [List.length_set]
    exact h.small

/-! ## The sweep -/

theorem gc_base_slot_spec {s : Sweep ox fst} {e : Bool × Nat} (h : Holds s.dict held s.freed)
    (he : e.2 < s.dict.base_len) :
    Holds (gc_base_slot s e).dict held (gc_base_slot s e).freed ∧
      (gc_base_slot s e).dict.row held =
        (if e.1 then s.dict.row held else (s.dict.row held).set e.2 none) ∧
      (gc_base_slot s e).dict.base_len = s.dict.base_len := by
  obtain ⟨marked, i⟩ := e
  dsimp only at he
  unfold gc_base_slot
  dsimp only
  cases marked with
  | true => exact ⟨h, rfl, rfl⟩
  | false =>
    -- The slot holds a term exactly when the base has bytes for it and it is not dead.
    have hheld : (s.dict.base.bind (·.term_bytes (i + 1))).isSome = true ↔
        ∃ t, held[i]? = some (some t) := by
      have hbase := h.base
      have hi : i < held.length := by rwa [← h.base_len]
      cases hb : s.dict.base with
      | none =>
        rw [hb] at hbase
        rw [show held = [] from hbase] at hi
        cases hi
      | some b =>
        rw [hb] at hbase
        have hholds : BaseHolds b held := hbase
        rw [Option.bind_some, hholds.term_bytes (List.getElem?_eq_getElem hi),
          List.getElem?_eq_getElem hi]
        cases held[i] <;> simp
    by_cases hslot : ∃ t, (s.dict.alive held)[i]? = some (some t)
    · obtain ⟨t, ht⟩ := hslot
      obtain ⟨hdead, hsome⟩ := alive_eq_some.mp ht
      have hlive : s.dict.base_dead.contains (i + 1) = false := by
        rw [← Bool.not_eq_true, ExtTreeSet.contains_iff_mem]
        exact hdead
      rw [hheld.mpr ⟨t, hsome⟩, hlive]
      exact ⟨(h.drop_base ht).1, (h.drop_base ht).2, rfl⟩
    · have hskip : ((s.dict.base.bind (·.term_bytes (i + 1))).isSome &&
          !s.dict.base_dead.contains (i + 1)) = false := by
        rw [← Bool.not_eq_true, Bool.and_eq_true, hheld]
        intro ⟨⟨t, ht⟩, hlive⟩
        refine hslot ⟨t, alive_eq_some.mpr ⟨fun hdead => ?_, ht⟩⟩
        rw [ExtTreeSet.contains_iff_mem.mpr hdead] at hlive
        cases hlive
      rw [Bool.not_false, Bool.true_and, hskip]
      refine ⟨h, ?_, rfl⟩
      rw [if_neg Bool.false_ne_true, if_neg Bool.false_ne_true, set_of_none]
      intro t ht
      rw [h.row_base he] at ht
      exact hslot ⟨t, ht⟩

theorem gc_slot_spec {s : Sweep ox fst} {e : Bool × Nat} (h : Holds s.dict held s.freed)
    (hprint : ox.Printable) (he : s.dict.base_len ≤ e.2) :
    Holds (gc_slot s e).dict held (gc_slot s e).freed ∧
      (gc_slot s e).dict.row held =
        (if e.1 then s.dict.row held else (s.dict.row held).set e.2 none) ∧
      (gc_slot s e).dict.base_len = s.dict.base_len := by
  obtain ⟨marked, n⟩ := e
  obtain ⟨i, rfl⟩ := Nat.exists_eq_add_of_le he
  unfold gc_slot
  dsimp only
  cases marked with
  | true => exact ⟨h, rfl, rfl⟩
  | false =>
    rw [if_neg Bool.false_ne_true, if_neg Bool.false_ne_true, Nat.add_sub_cancel_left]
    split
    · rename_i t ht
      obtain ⟨k, hk⟩ := h.keyed i t ht
      have hnamed : s.dict.forward[k]? =
          some (TermId.new (kind_of t) (s.dict.base_len + i + 1)) :=
        (h.forward_key hprint hk _).mpr ⟨i, ht, rfl⟩
      have hdrop := h.drop_term hprint ht hk
      unfold remove_key
      dsimp only
      rw [hk]
      dsimp only
      rw [if_pos hnamed]
      exact ⟨hdrop.1, hdrop.2, rfl⟩
    · rename_i hnone
      refine ⟨h, ?_, rfl⟩
      rw [set_of_none]
      intro t ht
      rw [h.row_terms] at ht
      exact hnone t ht

theorem sweep_fold {f : Sweep ox fst → Bool × Nat → Sweep ox fst} {marks : List (Bool × Nat)}
    {P : Nat → Nat → Prop}
    (hf : ∀ {s e}, Holds s.dict held s.freed → P s.dict.base_len e.2 →
      Holds (f s e).dict held (f s e).freed ∧
        (f s e).dict.row held = (if e.1 then s.dict.row held else (s.dict.row held).set e.2 none) ∧
        (f s e).dict.base_len = s.dict.base_len) :
    ∀ {s : Sweep ox fst}, Holds s.dict held s.freed → (∀ e ∈ marks, P s.dict.base_len e.2) →
      Holds (marks.foldl f s).dict held (marks.foldl f s).freed ∧
        (marks.foldl f s).dict.row held = sweep marks (s.dict.row held) ∧
        (marks.foldl f s).dict.base_len = s.dict.base_len := by
  induction marks with
  | nil => exact fun h _ => ⟨h, rfl, rfl⟩
  | cons e marks ih =>
    intro s h hp
    obtain ⟨hstep, hrow, hlen⟩ := hf h (hp e List.mem_cons_self)
    obtain ⟨hrest, hrow', hlen'⟩ := ih hstep fun e' he' => by
      rw [hlen]
      exact hp e' (List.mem_cons_of_mem _ he')
    rw [List.foldl_cons]
    refine ⟨hrest, ?_, hlen'.trans hlen⟩
    rw [hrow', hrow]
    rfl

theorem Holds.gc (h : Holds d held 0) (hprint : ox.Printable) (live : List Bool) :
    Holds (d.gc live).1 held 0 ∧
      (d.gc live).1.row held = clear (fun i => live[i]? == some false) (d.row held) := by
  have hbase : ∀ e ∈ live.zipIdx.take d.base_len, e.2 < d.base_len := by
    intro e he
    obtain ⟨i, hi, rfl⟩ := List.mem_take_iff_getElem.mp he
    rw [List.getElem_zipIdx]
    simp only
    omega
  have hterms : ∀ e ∈ live.zipIdx.drop d.base_len, d.base_len ≤ e.2 := by
    intro e he
    obtain ⟨i, hi, rfl⟩ := List.mem_drop_iff_getElem.mp he
    rw [List.getElem_zipIdx]
    simp only
    omega
  obtain ⟨h1, hrow1, hlen1⟩ := sweep_fold (P := fun base_len i => i < base_len)
    (fun hs he => gc_base_slot_spec hs he) (s := ⟨d, 0⟩) h hbase
  obtain ⟨h2, hrow2, _⟩ := sweep_fold (P := fun base_len i => base_len ≤ i)
    (fun hs he => gc_slot_spec hs hprint he) h1 (by rw [hlen1]; exact hterms)
  refine ⟨h2.count, ?_⟩
  rw [← sweep_zipIdx, ← List.take_append_drop d.base_len live.zipIdx, sweep_append]
  rw [hrow1] at hrow2
  exact hrow2

/-! ## Replay -/

/-- What replaying a term at an index does to the row. -/
inductive Replayed (row : List (Option (Term ox))) (t : Term ox) (index : Nat) :
    List (Option (Term ox)) → Outcome Unit → Prop
  | fresh (slotted : try_inline_int t = none) (next : index = row.length + 1)
    (h : ∀ i : Nat, row[i]? ≠ some (some t)) : Replayed row t index (row ++ [some t]) (.ok ())
  | stale {i : Nat} (slotted : try_inline_int t = none) (next : index = row.length + 1)
    (h : row[i]? = some (some t)) : Replayed row t index (row.set i none ++ [some t]) (.ok ())
  | failed (e : Halt) : Replayed row t index row (.error e)

/-- With a term in no slot, the term is put in the next one. -/
theorem Holds.put (h : Holds d held extra) (hprint : ox.Printable) {t : Term ox} {k : Bytes}
    (hstored : Stored t) (hk : d.tables.key t = some k)
    (hnew : ∀ i : Nat, (d.row held)[i]? ≠ some (some t)) (hsmall : d.len + 1 < MAX_DICT_INDEX)
    (d' : Dictionary ox fst)
    (hd' : d' = { d with
      terms := d.terms ++ [some t]
      forward := d.forward.insert k (slot_id t d.len)
      freed := d.freed + extra }) :
    Holds d' held 0 ∧ d'.row held = d.row held ++ [some t] := by
  obtain ⟨happend, hrow⟩ := h.append hprint hstored hk hnew hsmall
  subst hd'
  exact ⟨happend.count, hrow⟩

theorem insert_erase (m : ExtTreeMap Bytes TermId) (k : Bytes) (id : TermId) :
    (m.erase k).insert k id = m.insert k id := by
  apply ExtTreeMap.ext_getElem?
  intro k'
  rw [ExtTreeMap.getElem?_insert, ExtTreeMap.getElem?_insert, ExtTreeMap.getElem?_erase]
  split <;> rfl

/-- A replayed term leaves the slot that it stood in and takes the next one. -/
theorem Holds.replay_put (h : Holds d held 0) (hprint : ox.Printable) {t : Term ox} {k : Bytes}
    (hstored : Stored t) (hk : d.tables.key t = some k) (hsmall : d.len + 1 < MAX_DICT_INDEX)
    {d' : Dictionary ox fst}
    (hd' : d' = { d with
      terms := (d.free_stale k).1 ++ [some t]
      forward := d.forward.insert k (slot_id t d.len)
      base_dead := (d.free_stale_base (d.base_get t)).1
      freed := d.freed + ((d.free_stale k).2 + (d.free_stale_base (d.base_get t)).2) }) :
    Holds d' held 0 ∧
      Replayed (d.row held) t ((d.row held).length + 1) (d'.row held) (.ok ()) := by
  cases hterm : d.forward[k]? with
  | some old =>
    obtain ⟨i, hi, rfl⟩ := (h.forward_key hprint hk old).mp hterm
    have hrow : (d.row held)[d.base_len + i]? = some (some t) :=
      h.row_eq_some.mpr (Or.inr ⟨i, rfl, hi⟩)
    have hbase : d.base_get t = none := by
      cases hget : d.base_get t with
      | none => rfl
      | some id =>
        obtain ⟨j, hj, _⟩ := (h.base_get_eq t id).mp hget
        have heq := h.single _ _ t hrow (h.row_eq_some.mpr (Or.inl hj))
        obtain ⟨hlt, _⟩ := List.getElem?_eq_some_iff.mp hj
        rw [length_alive, ← h.base_len] at hlt
        omega
    have hslot : TermId.payload (slot_id t (d.base_len + i)) - d.base_len - 1 = i := by
      rw [payload_slot_id (h.index_lt hrow)]
      omega
    have hstale : d.free_stale k = (d.terms.set i none, 1) := by
      unfold free_stale
      rw [hterm]
      dsimp only
      rw [hslot, hi]
    rw [hbase, hstale] at hd'
    obtain ⟨hdrop, hdropped⟩ := h.drop_term hprint hi hk
    have hnew : ∀ j : Nat, ((d.row held).set (d.base_len + i) none)[j]? ≠ some (some t) := by
      intro j hj
      obtain ⟨hne, hold⟩ := set_eq_some.mp hj
      exact hne (h.single _ _ t hrow hold)
    have hlen : ({ d with terms := d.terms.set i none, forward := d.forward.erase k } :
        Dictionary ox fst).len = d.len := by
      show d.base_len + (d.terms.set i none).length = _
      rw [List.length_set]
      rfl
    have hput := hdrop.put hprint hstored hk (by rw [hdropped]; exact hnew) (by rwa [hlen]) d'
      (by rw [hd', hlen, insert_erase]; rfl)
    refine ⟨hput.1, ?_⟩
    rw [hput.2, hdropped]
    exact .stale hstored.slotted rfl hrow
  | none =>
    have hnone : ∀ i : Nat, d.terms[i]? ≠ some (some t) := by
      intro i hi
      rw [(h.forward_key hprint hk _).mpr ⟨i, hi, rfl⟩] at hterm
      cases hterm
    have hstale : d.free_stale k = (d.terms, 0) := by
      unfold free_stale
      rw [hterm]
    cases hget : d.base_get t with
    | some id =>
      obtain ⟨i, hi, rfl⟩ := (h.base_get_eq t id).mp hget
      have hrow : (d.row held)[i]? = some (some t) := h.row_eq_some.mpr (Or.inl hi)
      have hdead : d.free_stale_base (some (slot_id t i)) =
          (d.base_dead.insert (i + 1), 1) := by
        unfold free_stale_base
        dsimp only
        rw [payload_slot_id (h.index_lt hrow), if_neg (alive_eq_some.mp hi).1]
      rw [hget, hstale, hdead] at hd'
      obtain ⟨hdrop, hdropped⟩ := h.drop_base hi
      have hnew : ∀ j : Nat, ((d.row held).set i none)[j]? ≠ some (some t) := by
        intro j hj
        obtain ⟨hne, hold⟩ := set_eq_some.mp hj
        exact hne (h.single _ _ t hrow hold)
      have hput := hdrop.put hprint hstored hk (by rw [hdropped]; exact hnew) hsmall d' hd'
      refine ⟨hput.1, ?_⟩
      rw [hput.2, hdropped]
      exact .stale hstored.slotted rfl hrow
    | none =>
      have hnew : ∀ i : Nat, (d.row held)[i]? ≠ some (some t) := by
        intro i hi
        rcases h.row_eq_some.mp hi with hi | ⟨j, _, hj⟩
        · rw [(h.base_get_eq t _).mpr ⟨i, hi, rfl⟩] at hget
          cases hget
        · exact hnone j hj
      rw [hget, hstale] at hd'
      have hput := h.put hprint hstored hk hnew hsmall d' hd'
      refine ⟨hput.1, ?_⟩
      rw [hput.2]
      exact .fresh hstored.slotted rfl hnew

theorem Holds.replay_append (h : Holds d held 0) (hprint : ox.Printable) {t : Term ox}
    (hfits : (encode_term t).length < 2 ^ 64)
    (hroom : try_inline_int t = none → d.tables.Room t) (index : Nat) :
    Holds (d.replay_append index t).1 held 0 ∧
      Replayed (d.row held) t index ((d.replay_append index t).1.row held)
        (d.replay_append index t).2 := by
  unfold Dictionary.replay_append
  split
  · exact ⟨h, .failed _⟩
  · rename_i hinline
    have hgrown := h.grow (hroom hinline)
    obtain ⟨k, hk, hkey⟩ := d.tables.encode_into_intern t
    split
    · rename_i tables heq
      rw [heq] at hk
      cases hk
    · rename_i tables key heq
      rw [heq] at hk hkey hgrown
      cases hk
      dsimp only at hkey hgrown ⊢
      split
      · exact ⟨hgrown, .failed _⟩
      · rename_i hindex
        split
        · exact ⟨hgrown, .failed _⟩
        · rename_i hsmall
          have hstored : Stored t := ⟨hfits, hinline⟩
          have hnext : index = (d.row held).length + 1 := by
            rw [h.length_row]
            exact (not_not.mp hindex).symm
          have hput := hgrown.replay_put hprint hstored hkey (Nat.not_le.mp hsmall) rfl
          refine ⟨hput.1, ?_⟩
          rw [hnext]
          exact hput.2

/-! ## Flush and reopen -/

/-- What a flush writes for a slot. -/
def slot_value (i : Nat) (o : Option (Term ox)) : MappedBase.Slot :=
  o.map fun t => (encode_term t, slot_id t i)

theorem Holds.base_slot_eq (h : Holds d held extra) {i : Nat} (hi : i < d.base_len) :
    ∃ o, (d.row held)[i]? = some o ∧ d.base_slot (i + 1) = .ok (slot_value i o) := by
  have hlen : i < held.length := by rwa [← h.base_len]
  have hslot : held[i]? = some held[i] := List.getElem?_eq_getElem hlen
  unfold base_slot
  rw [h.row_base hi, alive, getElem?_clear, hslot]
  by_cases hdead : i + 1 ∈ d.base_dead
  · rw [if_pos hdead, Option.map_some, if_pos (ExtTreeSet.contains_iff_mem.mpr hdead)]
    exact ⟨none, rfl, rfl⟩
  · rw [if_neg hdead, Option.map_some,
      if_neg (fun hc => hdead (ExtTreeSet.contains_iff_mem.mp hc))]
    refine ⟨_, rfl, ?_⟩
    have hbase := h.base
    cases hb : d.base with
    | none =>
      rw [hb] at hbase
      rw [show held = [] from hbase] at hlen
      cases hlen
    | some b =>
      rw [hb] at hbase
      have hholds : BaseHolds b held := hbase
      dsimp only
      cases ho : held[i] with
      | none =>
        rw [hholds.tombstone i (by rw [hslot, ho])]
        rfl
      | some t =>
        rw [hholds.term i t (by rw [hslot, ho]), ok_bind]
        dsimp only
        rw [encoded_kind_encode]
        rfl

/-- The values that a flush writes are those of the row. -/
theorem Holds.flushed (h : Holds d held extra) {vals : List MappedBase.Slot}
    (hvals : ((List.range d.base_len).map fun i => d.base_slot (i + 1)) ++
      d.terms.zipIdx.map (overlay_slot d.base_len) = vals.map .ok) (i : Nat) :
    vals[i]? = (d.row held)[i]?.map (slot_value i) := by
  have hget := congrArg (·[i]?) hvals
  simp only [List.getElem?_map] at hget
  apply Option.map_injective (f := (Except.ok : MappedBase.Slot → Outcome MappedBase.Slot))
    (fun _ _ => Except.ok.inj)
  rw [← hget]
  by_cases hi : i < d.base_len
  · obtain ⟨o, ho, hslot⟩ := h.base_slot_eq hi
    rw [List.getElem?_append_left (by simpa using hi), List.getElem?_map,
      List.getElem?_range hi, ho, Option.map_some, hslot]
    rfl
  · obtain ⟨j, rfl⟩ := Nat.exists_eq_add_of_le (Nat.not_lt.mp hi)
    rw [List.getElem?_append_right (by simp), List.length_map, List.length_range,
      Nat.add_sub_cancel_left, List.getElem?_map, List.getElem?_zipIdx, h.row_terms j, Nat.zero_add]
    cases d.terms[j]? with
    | none => rfl
    | some o => cases o <;> rfl

theorem Holds.base_holds (_h : Holds d held extra) {vals : List MappedBase.Slot}
    {b : MappedBase fst} (hb : MappedBase.FileOf vals b)
    (hvals : ∀ i : Nat, vals[i]? = (d.row held)[i]?.map (slot_value i)) :
    BaseHolds b (d.row held) := by
  have hisNone : vals.map Option.isNone = (d.row held).map Option.isNone := by
    apply List.ext_getElem?
    intro i
    rw [List.getElem?_map, List.getElem?_map, hvals]
    cases (d.row held)[i]? with
    | none => rfl
    | some o => cases o <;> rfl
  have hlen : vals.length = (d.row held).length := by
    simpa using congrArg List.length hisNone
  refine ⟨hb.slots.trans hlen, ?_, fun i t ht => ?_, fun i hi => ?_, fun k id => ?_⟩
  · have hcount := congrArg (List.countP (· = true)) hisNone
    rw [List.countP_map, List.countP_map] at hcount
    rw [hb.freed, free]
    simpa [Function.comp_def] using hcount
  · have hbytes : MappedBase.slot_bytes (slot_value i (some t)) = encode_term t := rfl
    rw [hb.slot_eq (by rw [hvals, ht]; rfl), hbytes]
    have hne := encode_term_ne_nil t
    cases henc : encode_term t with
    | nil => exact absurd henc hne
    | cons b bs => rfl
  · rw [hb.slot_eq (by rw [hvals, hi]; rfl)]
    rfl
  · rw [hb.ids, List.mem_iff_getElem?]
    refine exists_congr fun i => ?_
    rw [hvals]
    cases (d.row held)[i]? with
    | none => simp
    | some o =>
      cases o with
      | none => simp [slot_value]
      | some t => simp [slot_value, eq_comm]

/-- A dictionary opened on what was flushed holds the same row, when the texts in it pass their
checks. -/
theorem Holds.flush (h : Holds d held 0) (hc : ∀ t, some t ∈ d.row held → t.Checked) {tag : Nat}
    {b : MappedBase fst} (hflush : d.flush tag = .ok b) :
    open_file b = .ok (with_base (some b) : Dictionary ox fst) ∧
      Holds (with_base (some b) : Dictionary ox fst) (d.row held) 0 ∧
      (with_base (some b) : Dictionary ox fst).row (d.row held) = d.row held := by
  obtain ⟨vals, hslots, hfile, _⟩ := MappedBase.write_file hflush
  have hbase := h.base_holds hfile (h.flushed hslots)
  have hrow : (with_base (some b) : Dictionary ox fst).row (d.row held) = d.row held := by
    rw [row, alive, show (with_base (some b) : Dictionary ox fst).terms = [] from rfl,
      List.append_nil]
    convert clear_none (d.row held) using 2
    funext i
    rw [← Bool.not_eq_true, ExtTreeSet.contains_iff_mem]
    exact ExtTreeSet.not_mem_empty
  refine ⟨?_, ⟨hbase, hbase.slots, Tables.new_good, fun k id => ?_, nofun, fun t ht => ?_, ?_, ?_, ?_,
    hc⟩, hrow⟩
  · rw [open_file, hfile.opens]
    rfl
  · refine ⟨fun hk => ?_, fun ⟨i, t, hi, _⟩ => nomatch hi⟩
    rw [show (with_base (some b) : Dictionary ox fst).forward = ∅ from rfl,
      ExtTreeMap.getElem?_empty] at hk
    cases hk
  · rw [show (with_base (some b) : Dictionary ox fst).terms = [] from rfl, List.append_nil] at ht
    obtain ⟨i, hi⟩ := List.mem_iff_getElem?.mp ht
    exact h.row_stored hi
  · rw [hrow]
    exact h.single
  · rw [hrow]
    exact hbase.freed
  · show b.slots + 0 < MAX_DICT_INDEX
    rw [Nat.add_zero, hbase.slots, h.length_row]
    exact h.small

end Dictionary

end horndb.storage
