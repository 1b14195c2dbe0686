-- Runs of a dictionary: what was issued, what was collected, and that an id is never the id
-- of another term, as long as the side tables have an id for every text.
import HornDb.DictionarySpec

open Std HornDb.Lib HornDb.Lib.Wire HornDb.Lib.Slots

namespace horndb.storage.Dictionary

/-- A term in memory: its bytes are fewer than an address can count. -/
structure MemTerm (ox : Oxrdf) where
  term : Term ox
  fits : (encode_term term).length < 2 ^ 64

/-- An operation on a dictionary, with the live marks of a sweep and the tag of a flush. -/
inductive Op (ox : Oxrdf) where
  | intern (t : MemTerm ox)
  | get (t : Term ox)
  | lookup (id : TermId)
  | gc (live : List Bool)
  | flush_and_reopen (next_bnode_doc_tag : Nat)
  | replay_append (index : Nat) (t : MemTerm ox)

/-- The dictionary of a run, each id that it issued with the term, and which ids it has
collected since. -/
structure History (ox : Oxrdf) (fst : FstLib) where
  dict : Dictionary ox fst
  issued : List (TermId × Term ox)
  collected : TermId → Prop

namespace History

variable {ox : Oxrdf} {fst : FstLib}

def start : History ox fst := ⟨new, [], fun _ => False⟩

/-- A sweep collects the issued ids without a live mark. -/
def swept (h : History ox fst) (live : List Bool) (id : TermId) : Prop :=
  (∃ t, (id, t) ∈ h.issued) ∧ TermId.kind id ≠ some .InlineInt ∧
    live[TermId.payload id - 1]? = some false

/-- One operation. A failed one issues and collects nothing; a read changes nothing. -/
def step (h : History ox fst) : Op ox → History ox fst
  | .intern t =>
    match h.dict.intern t.term with
    | (dict, .ok id) => { h with dict, issued := h.issued ++ [(id, t.term)] }
    | (dict, .error _) => { h with dict }
  | .get _ => h
  | .lookup _ => h
  | .gc live =>
    { h with
      dict := (h.dict.gc live).1
      collected := fun id => h.collected id ∨ h.swept live id }
  | .flush_and_reopen tag =>
    match h.dict.flush tag >>= Dictionary.open_file with
    | .ok dict => { h with dict }
    | .error _ => h
  | .replay_append index t =>
    match h.dict.replay_append index t.term with
    | (dict, .ok ()) =>
      { dict
        issued := h.issued ++ [(TermId.new (kind_of t.term) index, t.term)]
        collected := fun id => h.collected id ∨ (id, t.term) ∈ h.issued }
    | (dict, .error _) => { h with dict }

variable (fst) in
def run (ops : List (Op ox)) : History ox fst := ops.foldl step start

/-- A term is live under an id that was issued, or that is the value of a small integer. -/
def Live (h : History ox fst) (id : TermId) (t : Term ox) : Prop :=
  h.dict.lookup id = .ok (some t) ∧ ((∃ v, id = TermId.inline_int v) ∨ ∃ u, (id, u) ∈ h.issued)

structure Sound (h : History ox fst) : Prop where
  one_term : ∀ id t u, (id, t) ∈ h.issued → (id, u) ∈ h.issued → t = u
  until_collected : ∀ id t, (id, t) ∈ h.issued → ¬ h.collected id →
    h.dict.lookup id = .ok (some t)
  once_collected : ∀ id t, (id, t) ∈ h.issued → h.collected id → h.dict.lookup id = .ok none
  got : ∀ id t, h.dict.get t = some id ↔ h.Live id t
  one_live_term : ∀ id t u, h.Live id t → h.Live id u → t = u
  one_live_id : ∀ id id' t, h.Live id t → h.Live id' t → id = id'
  counted : h.dict.freed =
    ((List.range h.dict.len).filter fun i => (h.dict.resolve (i + 1)).isNone).length

/-- The side tables have an id for the text that the operation may bring, and the checks of the
library pass every text of the live terms that it writes to a base. -/
def Room (h : History ox fst) : Op ox → Prop
  | .intern t => try_inline_int t.term = none → h.dict.tables.Room t.term
  | .replay_append _ t => try_inline_int t.term = none → h.dict.tables.Room t.term
  | .flush_and_reopen _ => ∀ id t, (id, t) ∈ h.issued → ¬ h.collected id → t.Checked
  | _ => True

variable (fst) in
/-- Every operation of the run has room. -/
def Roomy (ops : List (Op ox)) : Prop :=
  ∀ pre op, pre ++ [op] <+: ops → (run fst pre).Room op

/-! ## What a run keeps -/

/-- Each slot has the name of the term that took it. A slot that is not empty shows its
name, and an issued id that takes a slot is collected exactly when the slot is empty. -/
structure Kept (h : History ox fst) (held : List (Option (Term ox))) (names : List (Term ox)) :
    Prop where
  holds : Holds h.dict held 0
  named : names.length = (h.dict.row held).length
  shows : ∀ (i : Nat) t, (h.dict.row held)[i]? = some (some t) →
    names[i]? = some t ∧ (slot_id t i, t) ∈ h.issued
  issued : ∀ id t, (id, t) ∈ h.issued →
    (try_inline_int t = some id ∧ ¬ h.collected id) ∨
      ∃ i : Nat, names[i]? = some t ∧ id = slot_id t i ∧
        (¬ h.collected id → (h.dict.row held)[i]? = some (some t)) ∧
        (h.collected id → (h.dict.row held)[i]? = some none)
  dead : ∀ id, h.collected id → ∃ (i : Nat) (t : Term ox), names[i]? = some t ∧ id = slot_id t i

variable {h : History ox fst} {held : List (Option (Term ox))} {names : List (Term ox)}

theorem Kept.index_lt (k : Kept h held names) {i : Nat} {t : Term ox}
    (hi : names[i]? = some t) : i + 1 < MAX_DICT_INDEX := by
  obtain ⟨hlt, _⟩ := List.getElem?_eq_some_iff.mp hi
  rw [k.named, k.holds.length_row] at hlt
  exact Nat.lt_of_le_of_lt hlt k.holds.small

/-- The id of a slot names the slot. -/
theorem Kept.slot_inj (k : Kept h held names) {i j : Nat} {t u : Term ox}
    (hi : names[i]? = some t) (hj : names[j]? = some u) (hid : slot_id t i = slot_id u j) :
    i = j := by
  have hpayload := congrArg TermId.payload hid
  rw [payload_slot_id (k.index_lt hi), payload_slot_id (k.index_lt hj)] at hpayload
  exact Nat.succ.inj hpayload

theorem Kept.not_inline (k : Kept h held names) {i : Nat} {t : Term ox} (hi : names[i]? = some t)
    (v : Int32) : slot_id t i ≠ TermId.inline_int v := by
  intro heq
  have hkind := congrArg TermId.kind heq
  rw [kind_slot_id (k.index_lt hi), TermId.kind_inline_int] at hkind
  exact kind_of_ne t (Option.some.inj hkind)

theorem start_kept : Kept (start : History ox fst) [] [] :=
  ⟨Holds.start, rfl, nofun, nofun, nofun⟩

/-- An issued term that is no small integer has its slot. -/
theorem Kept.slot (k : Kept h held names) {id : TermId} {t : Term ox} (hid : (id, t) ∈ h.issued)
    (ht : try_inline_int t = none) :
    ∃ i : Nat, names[i]? = some t ∧ id = slot_id t i ∧
      (¬ h.collected id → (h.dict.row held)[i]? = some (some t)) ∧
      (h.collected id → (h.dict.row held)[i]? = some none) := by
  refine (k.issued id t hid).resolve_left fun ⟨hinline, _⟩ => ?_
  rw [ht] at hinline
  cases hinline

theorem Kept.one_term (k : Kept h held names) {id : TermId} {t u : Term ox}
    (ht : (id, t) ∈ h.issued) (hu : (id, u) ∈ h.issued) : t = u := by
  rcases k.issued id t ht with ⟨ht, _⟩ | ⟨i, hi, rfl, _⟩
  · obtain ⟨v, rfl, hv⟩ := try_inline_int_eq ht
    rcases k.issued _ u hu with ⟨hu, _⟩ | ⟨j, hj, hid, _⟩
    · obtain ⟨w, hw, hterm⟩ := try_inline_int_eq hu
      rw [TermId.inline_int_inj hw, hterm] at hv
      exact (Except.ok.inj hv).symm
    · exact absurd hid.symm (k.not_inline hj v)
  · rcases k.issued _ u hu with ⟨hu, _⟩ | ⟨j, hj, hid, _⟩
    · obtain ⟨v, hv, _⟩ := try_inline_int_eq hu
      exact absurd hv (k.not_inline hi v)
    · rw [k.slot_inj hi hj hid, hj] at hi
      exact (Option.some.inj hi).symm

/-! ## One operation -/

theorem Kept.same_row (k : Kept h held names) {dict : Dictionary ox fst}
    {held' : List (Option (Term ox))} (hholds : Holds dict held' 0)
    (hrow : dict.row held' = h.dict.row held) : Kept { h with dict } held' names := by
  refine ⟨hholds, ?_, ?_, ?_, k.dead⟩
  · rw [hrow]
    exact k.named
  · rw [hrow]
    exact k.shows
  · rw [hrow]
    exact k.issued

/-- The next slot is taken by a term that no slot of `row₁` holds, where `row₁` is the row
with the slot of that term emptied. -/
theorem Kept.put (k : Kept h held names) {dict : Dictionary ox fst} (hholds : Holds dict held 0)
    {t : Term ox} {row₁ : List (Option (Term ox))} (hrow : dict.row held = row₁ ++ [some t])
    (hlen : row₁.length = (h.dict.row held).length)
    (hkeep : ∀ (i : Nat) u, (h.dict.row held)[i]? = some (some u) → u ≠ t →
      row₁[i]? = some (some u))
    (hgone : ∀ i : Nat, (h.dict.row held)[i]? = some (some t) → row₁[i]? = some none)
    (hnone : ∀ i : Nat, (h.dict.row held)[i]? = some none → row₁[i]? = some none)
    (hslotted : try_inline_int t = none) {collected : TermId → Prop}
    (hcollected : ∀ id, collected id ↔ h.collected id ∨
      (id, t) ∈ h.issued ∧ ∃ i : Nat, (h.dict.row held)[i]? = some (some t) ∧ id = slot_id t i) :
    Kept ⟨dict, h.issued ++ [(slot_id t row₁.length, t)], collected⟩ held (names ++ [t]) := by
  have hnames : names.length = row₁.length := k.named.trans hlen.symm
  have hold : ∀ {i : Nat} {u : Term ox}, names[i]? = some u → (names ++ [t])[i]? = some u := by
    intro i u hi
    obtain ⟨hlt, _⟩ := List.getElem?_eq_some_iff.mp hi
    rw [List.getElem?_append_left hlt, hi]
  have hlast : (names ++ [t])[row₁.length]? = some t := by rw [← hnames]; simp
  -- What the emptied row shows, the row showed.
  have hback : ∀ {i : Nat} {u : Term ox}, row₁[i]? = some (some u) →
      (h.dict.row held)[i]? = some (some u) ∧ u ≠ t := by
    intro i u hi
    obtain ⟨hlt, _⟩ := List.getElem?_eq_some_iff.mp hi
    rw [hlen] at hlt
    have hget : (h.dict.row held)[i]? = some (h.dict.row held)[i] := List.getElem?_eq_getElem hlt
    cases ho : (h.dict.row held)[i] with
    | none =>
      rw [hnone i (by rw [hget, ho])] at hi
      cases hi
    | some w =>
      rw [ho] at hget
      by_cases hw : w = t
      · subst hw
        rw [hgone i hget] at hi
        cases hi
      · rw [hkeep i w hget hw] at hi
        cases hi
        exact ⟨hget, hw⟩
  have hnew : row₁.length + 1 < MAX_DICT_INDEX := by
    have hsmall := hholds.small
    rw [← hholds.length_row, hrow, List.length_append, List.length_singleton] at hsmall
    exact hsmall
  have hunused : ∀ {i : Nat} {u : Term ox}, names[i]? = some u →
      slot_id t row₁.length ≠ slot_id u i := by
    intro i u hi hid
    have hpayload := congrArg TermId.payload hid
    rw [payload_slot_id hnew, payload_slot_id (k.index_lt hi)] at hpayload
    obtain ⟨hlt, _⟩ := List.getElem?_eq_some_iff.mp hi
    omega
  refine ⟨hholds, ?_, fun i u hi => ?_, fun id u hid => ?_, fun id hid => ?_⟩
  · rw [hrow, List.length_append, List.length_append, hnames]
    rfl
  · rw [hrow, snoc_eq_some] at hi
    rw [List.mem_append, List.mem_singleton]
    rcases hi with hi | ⟨rfl, rfl⟩
    · obtain ⟨hname, hmem⟩ := k.shows i u (hback hi).1
      exact ⟨hold hname, Or.inl hmem⟩
    · exact ⟨hlast, Or.inr rfl⟩
  · rw [List.mem_append, List.mem_singleton] at hid
    rcases hid with hid | hid
    · rcases k.issued id u hid with ⟨hinline, hlive⟩ | ⟨i, hi, rfl, hlive, hdead⟩
      · refine Or.inl ⟨hinline, fun hc => ?_⟩
        rcases (hcollected id).mp hc with hc | ⟨_, i, hi, rfl⟩
        · exact hlive hc
        · obtain ⟨v, hv, _⟩ := try_inline_int_eq hinline
          exact k.not_inline (k.shows i t hi).1 v hv
      · obtain ⟨hlt, _⟩ := List.getElem?_eq_some_iff.mp hi
        rw [hnames] at hlt
        refine Or.inr ⟨i, hold hi, rfl, fun hc => ?_, fun hc => ?_⟩
        · change ¬ collected _ at hc
          rw [hcollected, not_or] at hc
          rw [hrow, List.getElem?_append_left hlt]
          refine hkeep i u (hlive hc.1) fun hut => hc.2 ?_
          subst hut
          exact ⟨hid, i, hlive hc.1, rfl⟩
        · rw [hrow, List.getElem?_append_left hlt]
          rcases (hcollected _).mp hc with hc | ⟨_, j, hj, hslot⟩
          · exact hnone i (hdead hc)
          · rw [k.slot_inj hi (k.shows j t hj).1 hslot]
            exact hgone j hj
    · cases hid
      refine Or.inr ⟨row₁.length, hlast, rfl, fun _ => ?_, fun hc => ?_⟩
      · rw [hrow]
        simp
      · rcases (hcollected _).mp hc with hc | ⟨_, j, hj, hslot⟩
        · obtain ⟨i, w, hi, hslot⟩ := k.dead _ hc
          exact absurd hslot (hunused hi)
        · exact absurd hslot (hunused (k.shows j t hj).1)
  · rcases (hcollected id).mp hid with hc | ⟨_, i, hi, hslot⟩
    · obtain ⟨i, u, hi, hslot⟩ := k.dead id hc
      exact ⟨i, u, hold hi, hslot⟩
    · exact ⟨i, t, hold (k.shows i t hi).1, hslot⟩

theorem Kept.gc (k : Kept h held names) (hprint : ox.Printable) (live : List Bool) :
    Kept (h.step (.gc live)) held names := by
  obtain ⟨hholds, hrow⟩ := k.holds.gc hprint live
  have hswept : ∀ {i : Nat} {t : Term ox}, names[i]? = some t → (slot_id t i, t) ∈ h.issued →
      (h.swept live (slot_id t i) ↔ live[i]? = some false) := by
    intro i t hi hid
    have hlt := k.index_lt hi
    unfold swept
    rw [payload_slot_id hlt, kind_slot_id hlt, Nat.add_sub_cancel]
    exact ⟨fun hs => hs.2.2,
      fun hs => ⟨⟨t, hid⟩, fun hkind => kind_of_ne t (Option.some.inj hkind), hs⟩⟩
  refine ⟨hholds, ?_, fun i t hi => ?_, fun id t hid => ?_, fun id hid => ?_⟩
  · show _ = ((h.dict.gc live).1.row held).length
    rw [hrow, length_clear]
    exact k.named
  · change ((h.dict.gc live).1.row held)[i]? = _ at hi
    rw [hrow, clear_eq_some] at hi
    exact k.shows i t hi.2
  · rcases k.issued id t hid with ⟨hinline, hlive⟩ | ⟨i, hi, rfl, hlive, hdead⟩
    · refine Or.inl ⟨hinline, fun hc => ?_⟩
      rcases hc with hc | ⟨_, hkind, _⟩
      · exact hlive hc
      · obtain ⟨v, rfl, _⟩ := try_inline_int_eq hinline
        exact hkind (TermId.kind_inline_int v)
    · refine Or.inr ⟨i, hi, rfl, fun hc => ?_, fun hc => ?_⟩
      · obtain ⟨hc, hs⟩ := not_or.mp hc
        rw [hswept hi hid] at hs
        show ((h.dict.gc live).1.row held)[i]? = _
        rw [hrow, clear_eq_some]
        exact ⟨by simpa using hs, hlive hc⟩
      · show ((h.dict.gc live).1.row held)[i]? = _
        rw [hrow, getElem?_clear]
        obtain ⟨hlt, _⟩ := List.getElem?_eq_some_iff.mp hi
        rw [k.named] at hlt
        rcases hc with hc | hs
        · rw [hdead hc]
          simp
        · rw [List.getElem?_eq_getElem hlt, (hswept hi hid).mp hs]
          rfl
  · rcases hid with hc | ⟨⟨t, ht⟩, hkind, _⟩
    · exact k.dead id hc
    · rcases k.issued id t ht with ⟨hinline, _⟩ | ⟨i, hi, rfl, _⟩
      · obtain ⟨v, rfl, _⟩ := try_inline_int_eq hinline
        exact absurd (TermId.kind_inline_int v) hkind
      · exact ⟨i, t, hi, rfl⟩

theorem Kept.intern (k : Kept h held names) (hprint : ox.Printable) {t : MemTerm ox}
    (hroom : try_inline_int t.term = none → h.dict.tables.Room t.term) :
    ∃ names', Kept (h.step (.intern t)) held names' := by
  obtain ⟨hholds, hinterned⟩ := k.holds.intern hprint t.fits hroom
  unfold History.step
  dsimp only
  generalize h.dict.intern t.term = r at *
  obtain ⟨dict, out⟩ := r
  dsimp only at hholds hinterned ⊢
  generalize hrow : dict.row held = row' at hinterned
  cases hinterned with
  | @inline id hinline =>
    refine ⟨names, ?_⟩
    have hsame := k.same_row hholds hrow
    refine ⟨hholds, hsame.named, fun i u hi => ?_, fun id' u hid => ?_, hsame.dead⟩
    · obtain ⟨hname, hmem⟩ := hsame.shows i u hi
      exact ⟨hname, List.mem_append_left _ hmem⟩
    · rw [List.mem_append, List.mem_singleton] at hid
      rcases hid with hid | hid
      · exact hsame.issued id' u hid
      · cases hid
        refine Or.inl ⟨hinline, fun hc => ?_⟩
        obtain ⟨i, u, hi, hslot⟩ := k.dead _ hc
        obtain ⟨v, hv, _⟩ := try_inline_int_eq hinline
        exact k.not_inline hi v (hslot.symm.trans hv)
  | @held i hi =>
    refine ⟨names, ?_⟩
    have hsame := k.same_row hholds hrow
    refine ⟨hholds, hsame.named, fun j u hj => ?_, fun id' u hid => ?_, hsame.dead⟩
    · obtain ⟨hname, hmem⟩ := hsame.shows j u hj
      exact ⟨hname, List.mem_append_left _ hmem⟩
    · rw [List.mem_append, List.mem_singleton] at hid
      rcases hid with hid | hid
      · exact hsame.issued id' u hid
      · -- The pair was issued when the term took the slot.
        cases hid
        exact hsame.issued _ _ (k.shows i t.term hi).2
  | added hslotted hnew =>
    refine ⟨names ++ [t.term], ?_⟩
    apply k.put hholds hrow rfl (fun _ _ hi _ => hi) (fun i hi => absurd hi (hnew i))
      (fun _ hi => hi) hslotted
    exact fun id => (or_iff_left fun ⟨_, i, hi, _⟩ => hnew i hi).symm
  | failed e => exact ⟨names, k.same_row hholds hrow⟩

theorem Kept.replay_append (k : Kept h held names) (hprint : ox.Printable) {t : MemTerm ox}
    (hroom : try_inline_int t.term = none → h.dict.tables.Room t.term) (index : Nat) :
    ∃ names', Kept (h.step (.replay_append index t)) held names' := by
  obtain ⟨hholds, hreplayed⟩ := k.holds.replay_append hprint t.fits hroom index
  have hcollected : try_inline_int t.term = none → ∀ id,
      (h.collected id ∨ (id, t.term) ∈ h.issued) ↔ h.collected id ∨ (id, t.term) ∈ h.issued ∧
        ∃ i : Nat, (h.dict.row held)[i]? = some (some t.term) ∧ id = slot_id t.term i := by
    intro hslotted id
    refine ⟨fun hor => ?_, fun hor => hor.imp_right And.left⟩
    by_cases hc : h.collected id
    · exact Or.inl hc
    · obtain ⟨i, _, hslot, hlive, _⟩ := k.slot (hor.resolve_left hc) hslotted
      exact Or.inr ⟨hor.resolve_left hc, i, hlive hc, hslot⟩
  unfold History.step
  dsimp only
  generalize h.dict.replay_append index t.term = r at *
  obtain ⟨dict, out⟩ := r
  dsimp only at hholds hreplayed ⊢
  generalize hrow : dict.row held = row' at hreplayed
  cases hreplayed with
  | fresh hslotted hnext hnew =>
    refine ⟨names ++ [t.term], ?_⟩
    subst hnext
    exact k.put hholds hrow rfl (fun _ _ hi _ => hi) (fun i hi => absurd hi (hnew i))
      (fun _ hi => hi) hslotted (hcollected hslotted)
  | @stale i hslotted hnext hi =>
    refine ⟨names ++ [t.term], ?_⟩
    subst hnext
    have hput := k.put hholds hrow List.length_set (fun j u hj hne => ?_) (fun j hj => ?_)
      (fun j hj => ?_) hslotted (hcollected hslotted)
    · rw [List.length_set] at hput
      exact hput
    · refine set_eq_some.mpr ⟨fun hij => hne ?_, hj⟩
      subst hij
      rw [hi] at hj
      exact (Option.some.inj (Option.some.inj hj)).symm
    · rw [k.holds.single i j t.term hi hj] at *
      obtain ⟨hlt, _⟩ := List.getElem?_eq_some_iff.mp hj
      rw [List.getElem?_set, if_pos rfl, if_pos hlt]
    · rw [List.getElem?_set]
      split
      · obtain ⟨hlt, _⟩ := List.getElem?_eq_some_iff.mp hi
        rw [if_pos hlt]
      · exact hj
  | failed e => exact ⟨names, k.same_row hholds hrow⟩

/-- What the row shows is live. -/
theorem Kept.live_checked (k : Kept h held names)
    (hc : ∀ id t, (id, t) ∈ h.issued → ¬ h.collected id → t.Checked) (t : Term ox)
    (ht : some t ∈ h.dict.row held) : t.Checked := by
  obtain ⟨i, hi⟩ := List.mem_iff_getElem?.mp ht
  obtain ⟨hname, hissued⟩ := k.shows i t hi
  refine hc _ t hissued fun hdead => ?_
  rcases k.issued _ t hissued with ⟨-, hlive⟩ | ⟨j, hj, hid, -, hempty⟩
  · exact hlive hdead
  · obtain rfl := k.slot_inj hname hj hid
    rw [hempty hdead] at hi
    cases hi

theorem Kept.step (k : Kept h held names) (hprint : ox.Printable) {op : Op ox}
    (hroom : h.Room op) : ∃ held' names', Kept (h.step op) held' names' := by
  cases op with
  | intern t => exact ⟨held, k.intern hprint hroom⟩
  | get t => exact ⟨held, names, k⟩
  | lookup id => exact ⟨held, names, k⟩
  | gc live => exact ⟨held, names, k.gc hprint live⟩
  | flush_and_reopen tag =>
    unfold History.step
    dsimp only
    split
    · rename_i dict hopened
      obtain ⟨file, hflush, hopen⟩ := bind_eq_ok hopened
      obtain ⟨hopens, hholds, hrow⟩ := k.holds.flush (k.live_checked hroom) hflush
      rw [hopens] at hopen
      cases hopen
      exact ⟨_, names, k.same_row hholds hrow⟩
    · exact ⟨held, names, k⟩
  | replay_append index t => exact ⟨held, k.replay_append hprint hroom index⟩

/-! ## Runs -/

theorem Kept.lookup (k : Kept h held names) {i : Nat} {t : Term ox} (hi : names[i]? = some t) :
    h.dict.lookup (slot_id t i) = .ok (h.dict.row held)[i]?.join := by
  apply k.holds.lookup_slot
  obtain ⟨hlt, _⟩ := List.getElem?_eq_some_iff.mp hi
  rwa [k.named, k.holds.length_row] at hlt

theorem Kept.got (k : Kept h held names) (hprint : ox.Printable) (id : TermId) (t : Term ox) :
    h.dict.get t = some id ↔ h.Live id t := by
  have hinline : ∀ {v : Int32}, h.dict.lookup (TermId.inline_int v) = .ok (some t) →
      h.dict.get t = some (TermId.inline_int v) := by
    intro v hlookup
    rw [k.holds.get_eq hprint]
    refine Or.inl (try_inline_int_term ?_)
    unfold Dictionary.lookup at hlookup
    rw [TermId.kind_inline_int, TermId.as_inline_int_inline_int] at hlookup
    dsimp only at hlookup
    cases hterm : integer_term ox v with
    | error e =>
      rw [hterm] at hlookup
      cases hlookup
    | ok u =>
      rw [hterm] at hlookup
      rw [Option.some.inj (Except.ok.inj hlookup)]
  refine ⟨fun hget => ?_, fun ⟨hlookup, hissued⟩ => ?_⟩
  · rcases (k.holds.get_eq hprint t id).mp hget with ht | ⟨i, hi, rfl⟩
    · obtain ⟨v, rfl, hterm⟩ := try_inline_int_eq ht
      exact ⟨lookup_inline hterm, Or.inl ⟨v, rfl⟩⟩
    · obtain ⟨hname, hmem⟩ := k.shows i t hi
      refine ⟨?_, Or.inr ⟨t, hmem⟩⟩
      rw [k.lookup hname, hi]
      rfl
  · rcases hissued with ⟨v, rfl⟩ | ⟨u, hu⟩
    · exact hinline hlookup
    · rcases k.issued id u hu with ⟨hu, _⟩ | ⟨i, hi, rfl, _⟩
      · obtain ⟨v, rfl, _⟩ := try_inline_int_eq hu
        exact hinline hlookup
      · rw [k.lookup hi] at hlookup
        have hrow : (h.dict.row held)[i]? = some (some t) := by
          simpa [Option.join_eq_some_iff] using hlookup
        obtain rfl : u = t := Option.some.inj (hi.symm.trans (k.shows i t hrow).1)
        rw [k.holds.get_eq hprint]
        exact Or.inr ⟨i, hrow, rfl⟩

theorem Kept.counted (k : Kept h held names) : h.dict.freed =
    ((List.range h.dict.len).filter fun i => (h.dict.resolve (i + 1)).isNone).length := by
  have hrow : (List.range h.dict.len).map (fun i => (h.dict.resolve (i + 1)).isNone) =
      (h.dict.row held).map Option.isNone := by
    apply List.ext_getElem?
    intro i
    rw [List.getElem?_map, List.getElem?_map]
    by_cases hi : i < h.dict.len
    · have hlt : i < (h.dict.row held).length := by rwa [k.holds.length_row]
      rw [List.getElem?_range hi, Option.map_some, k.holds.resolve_eq,
        if_neg (Nat.succ_ne_zero i), Nat.add_sub_cancel, List.getElem?_eq_getElem hlt]
      rfl
    · rw [List.getElem?_eq_none (by simpa using hi),
        List.getElem?_eq_none (by rw [k.holds.length_row]; exact Nat.not_lt.mp hi)]
      rfl
  have hcount := congrArg (List.countP (· = true)) hrow
  rw [List.countP_map, List.countP_map] at hcount
  have hcounted := k.holds.counted
  rw [Nat.add_zero] at hcounted
  rw [hcounted, ← List.countP_eq_length_filter, free]
  simpa [Function.comp_def] using hcount.symm

theorem Kept.sound (k : Kept h held names) (hprint : ox.Printable) : h.Sound where
  one_term _ _ _ ht hu := k.one_term ht hu
  until_collected id t hid hc := by
    rcases k.issued id t hid with ⟨ht, _⟩ | ⟨i, hi, rfl, hlive, _⟩
    · obtain ⟨v, rfl, hterm⟩ := try_inline_int_eq ht
      exact lookup_inline hterm
    · rw [k.lookup hi, hlive hc]
      rfl
  once_collected id t hid hc := by
    rcases k.issued id t hid with ⟨_, hlive⟩ | ⟨i, hi, rfl, _, hdead⟩
    · exact absurd hc hlive
    · rw [k.lookup hi, hdead hc]
      rfl
  got := k.got hprint
  one_live_term id t u ht hu := by
    have heq := ht.1.symm.trans hu.1
    exact Option.some.inj (Except.ok.inj heq)
  one_live_id id id' t ht ht' := by
    have heq := ((k.got hprint id t).mpr ht).symm.trans ((k.got hprint id' t).mpr ht')
    exact Option.some.inj heq
  counted := k.counted

theorem run_snoc (ops : List (Op ox)) (op : Op ox) : run fst (ops ++ [op]) = (run fst ops).step op :=
  List.foldl_concat ..

theorem run_kept (hprint : ox.Printable) (ops : List (Op ox)) (hroom : Roomy fst ops) :
    ∃ held names, Kept (run fst ops) held names := by
  induction ops using List.reverseRecOn with
  | nil => exact ⟨[], [], start_kept⟩
  | append_singleton ops op ih =>
    obtain ⟨held, names, k⟩ := ih fun pre op' hpre => hroom pre op' (hpre.trans (List.prefix_append _ _))
    rw [run_snoc]
    exact k.step hprint (hroom ops op (List.prefix_refl _))

/-- In every run whose operations find an id for the text that they bring, and that flushes checked
terms only, every state is sound. -/
theorem runs_keep_ids (hprint : ox.Printable) (ops : List (Op ox)) (hroom : Roomy fst ops) :
    ∀ pre, pre <+: ops → (run fst pre).Sound := by
  intro pre hpre
  obtain ⟨held, names, k⟩ := run_kept hprint pre fun pre' op h => hroom pre' op (h.trans hpre)
  exact k.sound hprint

/-- Every issued id was issued for a term that an operation brought. -/
theorem issued_brought {P : Term ox → Prop} (ops : List (Op ox))
    (hintern : ∀ t, .intern t ∈ ops → P t.term)
    (hreplay : ∀ index t, .replay_append index t ∈ ops → P t.term) :
    ∀ e ∈ (run fst ops).issued, P e.2 := by
  induction ops using List.reverseRecOn with
  | nil => exact nofun
  | append_singleton ops op ih =>
    rw [run_snoc]
    have hbefore := ih (fun t ht => hintern t (List.mem_append_left _ ht))
      fun index t ht => hreplay index t (List.mem_append_left _ ht)
    have hlast : op ∈ ops ++ [op] := List.mem_append_right _ (List.mem_singleton_self op)
    intro e he
    unfold step at he
    split at he
    · split at he
      · rcases List.mem_append.mp he with he | he
        · exact hbefore e he
        · rw [List.mem_singleton.mp he]
          exact hintern _ hlast
      · exact hbefore e he
    · exact hbefore e he
    · exact hbefore e he
    · exact hbefore e he
    · split at he
      · exact hbefore e he
      · exact hbefore e he
    · split at he
      · rcases List.mem_append.mp he with he | he
        · exact hbefore e he
        · rw [List.mem_singleton.mp he]
          exact hreplay _ _ hlast
      · exact hbefore e he

def node : MemTerm .plain := ⟨.NamedNode ⟨"ex:s", Oxrdf.held_ex_s⟩, by decide⟩

/-- A term is interned, collected, interned again, and read back after a reopening. -/
def collected_node : List (Op .plain) :=
  [.intern node, .gc [false], .intern node, .flush_and_reopen 1, .replay_append 3 node]

theorem collected_node_sound : (run .rows collected_node).Sound := by
  refine runs_keep_ids Oxrdf.plain_printable collected_node (fun pre op hpre => ?_) collected_node
    (List.prefix_refl _)
  have hop : op ∈ collected_node := hpre.subset (List.mem_append_right _ (List.mem_singleton_self _))
  -- An IRI brings no text to the side tables.
  have hnode : ∀ tables : Tables, tables.Room node.term := fun _ _ _ h => nomatch h
  have hsub : ∀ op' ∈ pre, op' ∈ collected_node := fun op' h =>
    hpre.subset (List.mem_append_left _ h)
  have hissued : ∀ e ∈ (run .rows pre).issued, e.2 = node.term := by
    refine issued_brought (P := (· = node.term)) pre (fun t ht => ?_) fun index t ht => ?_
    · have hmem := hsub _ ht
      simp only [collected_node, List.mem_cons, Op.intern.injEq, reduceCtorEq, List.not_mem_nil,
        or_false, false_or, or_self] at hmem
      rw [hmem]
    · have hmem := hsub _ ht
      simp only [collected_node, List.mem_cons, Op.replay_append.injEq, reduceCtorEq,
        List.not_mem_nil, or_false, false_or] at hmem
      rw [hmem.2]
  simp only [collected_node, List.mem_cons, List.not_mem_nil, or_false] at hop
  rcases hop with rfl | rfl | rfl | rfl | rfl
  · exact fun _ => hnode _
  · trivial
  · exact fun _ => hnode _
  · intro id t hid _
    have hterm : t = node.term := hissued _ hid
    rw [hterm]
    exact Oxrdf.plain_ex_s
  · exact fun _ => hnode _

/-! ## A side table runs over -/

theorem numbered_bytes (i : UInt64) :
    as_bytes ("t:" ++ toString i.toNat) = 116 :: 58 :: as_bytes (toString i.toNat) := by
  rw [as_bytes_append]
  rfl

theorem numbered_checked (i : UInt64) :
    Oxrdf.plain.iri ("t:" ++ toString i.toNat) = .ok () := by
  refine if_pos ?_
  rw [Bool.and_eq_true, numbered_bytes]
  refine ⟨by rw [String.toList_append]; rfl, ?_⟩
  rw [List.all_cons, List.all_cons, List.all_eq_true.mpr]
  · rfl
  · intro b hb
    exact decide_eq_true (Nat.le_trans (by decide) (digit_bytes _ b hb).1)

theorem numbered_ne (i : UInt64) {s : String} (h : (as_bytes s).head? ≠ some 116) :
    "t:" ++ toString i.toNat ≠ s := by
  intro heq
  rw [← heq, numbered_bytes] at h
  exact h rfl

theorem numbered_typed (i : UInt64) : "t:" ++ toString i.toNat ≠ XSD_STRING :=
  numbered_ne i (by decide)

/-- The text `x` of the type `t:i`. -/
def numbered_term (i : UInt64) : Term .plain :=
  .Literal (.Typed "x" ⟨"t:" ++ toString i.toNat, .inl (numbered_checked i)⟩ (numbered_typed i))

theorem numbered_fits (i : UInt64) : (encode_term (numbered_term i)).length < 2 ^ 64 := by
  have hlen := length_as_bytes_toString (n := i.toNat) (k := 20) (by decide)
    (Nat.lt_trans i.toNat_lt (by decide))
  have hvarint : (write_uvarint (as_bytes ("t:" ++ toString i.toNat)).length).length ≤ 1 := by
    apply length_write_uvarint 0
    rw [numbered_bytes]
    simp only [List.length_cons]
    omega
  have hx : (as_bytes "x").length = 1 := by decide
  simp only [numbered_term, encode_term, encode_literal, List.length_cons, List.length_append]
  rw [numbered_bytes] at hvarint ⊢
  simp only [List.length_cons] at hvarint ⊢
  omega

def numbered (i : UInt64) : MemTerm .plain := ⟨numbered_term i, numbered_fits i⟩

def numbered_text (i : UInt64) : String := "t:" ++ toString i.toNat

/-- The first `n` of the numbered terms are interned. -/
def intern_numbered (n : Nat) : List (Op .plain) :=
  (List.range n).map fun i => .intern (numbered (UInt64.ofNat i))

theorem numbered_slotted (i : UInt64) : try_inline_int (numbered i).term = none := by
  unfold try_inline_int numbered numbered_term
  dsimp only
  rw [if_neg (numbered_ne i (by decide))]

theorem numbered_text_inj {i j : Nat} (hi : i < 2 ^ 64) (hj : j < 2 ^ 64)
    (h : numbered_text (UInt64.ofNat i) = numbered_text (UInt64.ofNat j)) : i = j := by
  have hlist := congrArg String.toList h
  rw [numbered_text, numbered_text, String.toList_append, String.toList_append] at hlist
  have hrepr := Nat.repr_injective (String.toList_inj.mp (List.append_cancel_left hlist))
  rw [UInt64.toNat_ofNat', UInt64.toNat_ofNat', Nat.mod_eq_of_lt hi, Nat.mod_eq_of_lt hj] at hrepr
  exact hrepr

theorem intern_frame (d : Dictionary ox fst) {t : Term ox} (ht : try_inline_int t = none) :
    (d.intern t).1.tables = (d.tables.encode_into .Intern t).1 ∧ (d.intern t).1.base = d.base := by
  obtain ⟨k, hk, _⟩ := d.tables.encode_into_intern t
  unfold Dictionary.intern
  rw [ht]
  dsimp only
  split
  · rename_i tables heq
    rw [heq]
    exact ⟨rfl, rfl⟩
  · rename_i tables key heq
    rw [heq]
    dsimp only
    split
    · exact ⟨rfl, rfl⟩
    · split
      · exact ⟨rfl, rfl⟩
      · unfold intern_miss
        split
        · exact ⟨rfl, rfl⟩
        · dsimp only
          split <;> exact ⟨rfl, rfl⟩

theorem step_intern (h : History ox fst) (t : MemTerm ox) :
    (h.step (.intern t)).dict = (h.dict.intern t.term).1 ∧
      (h.step (.intern t)).collected = h.collected ∧ h.issued ⊆ (h.step (.intern t)).issued ∧
      ∀ id, (h.dict.intern t.term).2 = .ok id → (id, t.term) ∈ (h.step (.intern t)).issued := by
  unfold History.step
  dsimp only
  generalize h.dict.intern t.term = r
  obtain ⟨dict, out⟩ := r
  cases out with
  | ok id =>
    refine ⟨rfl, rfl, List.subset_append_left _ _, fun id' hid => ?_⟩
    cases hid
    exact List.mem_append_right _ (List.mem_singleton_self _)
  | error e => exact ⟨rfl, rfl, List.Subset.refl _, nofun⟩

/-- After the first `n` numbered terms the side table holds just their types, in order. -/
structure Numbering (n : Nat) (h : History .plain .rows) : Prop where
  base : h.dict.base = none
  placed : ∀ i < n, h.dict.tables.datatypes.get (numbered_text (UInt64.ofNat i)) =
    some (UInt32.ofNat i)
  only : ∀ s, h.dict.tables.datatypes.get s ≠ none → ∃ i < n, s = numbered_text (UInt64.ofNat i)
  count : h.dict.tables.datatypes.order.length = n
  live : ∀ id, ¬ h.collected id

theorem intern_numbered_succ (n : Nat) :
    run .rows (intern_numbered (n + 1)) =
      (run .rows (intern_numbered n)).step (.intern (numbered (UInt64.ofNat n))) := by
  rw [← run_snoc, intern_numbered, List.range_succ, List.map_append]
  rfl

theorem aux_text_numbered (i : UInt64) :
    aux_text (numbered i).term = some (.Datatype, numbered_text i) := rfl

/-- The next numbered term brings a new type. -/
theorem Numbering.step {n : Nat} {h : History .plain .rows} (hnum : Numbering n h)
    (hn : n < 2 ^ 32) : Numbering (n + 1) (h.step (.intern (numbered (UInt64.ofNat n)))) := by
  obtain ⟨hdict, hcollected, _⟩ := step_intern h (numbered (UInt64.ofNat n))
  obtain ⟨htables, hbase⟩ := intern_frame h.dict (numbered_slotted (UInt64.ofNat n))
  have hnew : h.dict.tables.datatypes.get (numbered_text (UInt64.ofNat n)) = none := by
    by_contra hsome
    obtain ⟨i, hi, htext⟩ := hnum.only _ hsome
    have := numbered_text_inj (by omega) (by omega) htext
    omega
  have htable : (h.step (.intern (numbered (UInt64.ofNat n)))).dict.tables.datatypes =
      (h.dict.tables.datatypes.intern (numbered_text (UInt64.ofNat n))).1 := by
    rw [hdict, htables, Tables.encode_into_eq, aux_text_numbered]
    rfl
  unfold AuxTable.intern at htable
  rw [hnew, hnum.count] at htable
  dsimp only at htable
  refine ⟨by rw [hdict, hbase, hnum.base], fun i hi => ?_, fun s hs => ?_, ?_, ?_⟩
  · rw [htable, AuxTable.get, ExtTreeMap.getElem?_insert]
    split
    · rename_i heq
      have htext : numbered_text (UInt64.ofNat n) = numbered_text (UInt64.ofNat i) := by
        simpa using heq
      rw [numbered_text_inj (by omega) (by omega) htext]
    · rename_i hne
      have hlt : i < n := by
        rcases Nat.lt_succ_iff_lt_or_eq.mp hi with hlt | rfl
        · exact hlt
        · exact absurd ReflCmp.compare_self hne
      exact hnum.placed i hlt
  · rw [htable, AuxTable.get, ExtTreeMap.getElem?_insert] at hs
    split at hs
    · rename_i heq
      exact ⟨n, Nat.lt_succ_self n, (by simpa using heq : numbered_text _ = s).symm⟩
    · obtain ⟨i, hi, hs⟩ := hnum.only s hs
      exact ⟨i, Nat.lt_succ_of_lt hi, hs⟩
  · rw [htable, List.length_append, hnum.count]
    rfl
  · rw [hcollected]
    exact hnum.live

theorem numbering (n : Nat) (hn : n ≤ 2 ^ 32) :
    Numbering n (run .rows (intern_numbered n)) ∧ Roomy .rows (intern_numbered n) := by
  induction n with
  | zero =>
    refine ⟨⟨rfl, nofun, fun s hs => ?_, rfl, fun _ => id⟩, fun pre op hpre => ?_⟩
    · refine absurd ?_ hs
      exact ExtTreeMap.getElem?_empty
    · have := hpre.length_le
      simp [intern_numbered] at this
  | succ n ih =>
    obtain ⟨hnum, hroomy⟩ := ih (Nat.le_of_succ_le hn)
    refine ⟨?_, fun pre op hpre => ?_⟩
    · rw [intern_numbered_succ]
      exact hnum.step hn
    · have hops : intern_numbered (n + 1) =
          intern_numbered n ++ [.intern (numbered (UInt64.ofNat n))] := by
        rw [intern_numbered, List.range_succ, List.map_append]
        rfl
      rw [hops, List.prefix_concat_iff] at hpre
      rcases hpre with heq | hpre
      · obtain ⟨rfl, hop⟩ := List.append_inj' heq rfl
        cases hop
        intro _ aux s haux
        rw [aux_text_numbered] at haux
        cases haux
        intro _
        rw [show (run .rows (intern_numbered n)).dict.tables.table .Datatype =
          (run .rows (intern_numbered n)).dict.tables.datatypes from rfl, hnum.count]
        exact hn
      · exact hroomy pre op hpre

theorem first_issued (n : Nat) :
    ∃ id, (id, (numbered 0).term) ∈ (run .rows (intern_numbered (n + 1))).issued := by
  induction n with
  | zero =>
    have hone := step_intern (start : History .plain .rows) (numbered 0)
    have hok : ((start : History .plain .rows).dict.intern (numbered 0).term).2.isOk = true := by
      decide
    cases hout : ((start : History .plain .rows).dict.intern (numbered 0).term).2 with
    | ok id => exact ⟨id, hone.2.2.2 id hout⟩
    | error e =>
      rw [hout] at hok
      cases hok
  | succ n ih =>
    obtain ⟨id, hid⟩ := ih
    rw [intern_numbered_succ]
    exact ⟨id, (step_intern _ _).2.2.1 hid⟩

/-- The table is full and gives the next type the id of the first one, so the probe finds the
first term. -/
theorem Numbering.wraps {n : Nat} (hn : n = 2 ^ 32) {h : History .plain .rows}
    (hnum : Numbering n h)
    (hforward : ∀ k id, h.dict.tables.key (numbered 0).term = some k →
      h.dict.get (numbered 0).term = some id → h.dict.forward[k]? = some id)
    {id : TermId} (hget : h.dict.get (numbered 0).term = some id) :
    (h.dict.intern (numbered (UInt64.ofNat n)).term).2 = .ok id := by
  have hfirst : h.dict.tables.key (numbered 0).term = some (key_with 0 (numbered 0).term) := by
    rw [Tables.key_eq, aux_text_numbered]
    have hplaced := hnum.placed 0 (by omega)
    change h.dict.tables.datatypes.get (numbered_text 0) = some 0 at hplaced
    show (h.dict.tables.datatypes.get (numbered_text 0)).map _ = _
    rw [hplaced]
    rfl
  have hnew : h.dict.tables.datatypes.get (numbered_text (UInt64.ofNat n)) = none := by
    by_contra hsome
    obtain ⟨i, hi, htext⟩ := hnum.only _ hsome
    have := numbered_text_inj (by omega) (by omega) htext
    omega
  have hkey : (h.dict.tables.encode_into .Intern (numbered (UInt64.ofNat n)).term).2 =
      some (key_with 0 (numbered 0).term) := by
    rw [Tables.encode_into_eq, aux_text_numbered]
    show some (key_with (h.dict.tables.datatypes.intern _).2 _) = _
    unfold AuxTable.intern
    have hzero : UInt32.ofNat n = 0 := by
      rw [hn]
      rfl
    rw [hnew, hnum.count]
    dsimp only
    rw [hzero]
    rfl
  unfold Dictionary.intern
  rw [numbered_slotted]
  dsimp only
  split
  · rename_i tables heq
    rw [heq] at hkey
    cases hkey
  · rename_i tables key heq
    rw [heq] at hkey
    cases hkey
    rw [hforward _ id hfirst hget]

theorem runs_over {n : Nat} (hn : n = 2 ^ 32) : ¬ (run .rows (intern_numbered (n + 1))).Sound := by
  obtain ⟨hnum, hroomy⟩ := numbering n (Nat.le_of_eq hn)
  obtain ⟨held, names, k⟩ := run_kept Oxrdf.plain_printable _ hroomy
  obtain ⟨id, hid⟩ := first_issued (n - 1)
  rw [Nat.sub_add_cancel (by omega)] at hid
  intro hsound
  rw [intern_numbered_succ] at hsound
  generalize run .rows (intern_numbered n) = h at *
  obtain ⟨i, _, rfl, hrow, _⟩ := k.slot hid (numbered_slotted 0)
  have hget : h.dict.get (numbered 0).term = some (slot_id (numbered 0).term i) :=
    (k.holds.get_eq Oxrdf.plain_printable _ _).mpr (Or.inr ⟨i, hrow (hnum.live _), rfl⟩)
  have hforward : ∀ key id, h.dict.tables.key (numbered 0).term = some key →
      h.dict.get (numbered 0).term = some id → h.dict.forward[key]? = some id := by
    intro key id hkey hid
    unfold Dictionary.get base_get at hid
    rw [numbered_slotted, hkey, hnum.base] at hid
    dsimp only [Option.bind_some] at hid
    split at hid
    · rename_i id' hid'
      rw [hid', hid]
    · cases hid
  obtain ⟨_, _, hsub, hissued⟩ := step_intern h (numbered (UInt64.ofNat n))
  have hterm := hsound.one_term _ _ _ (hsub hid) (hissued _ (hnum.wraps hn hforward hget))
  have haux := congrArg aux_text hterm
  rw [aux_text_numbered, aux_text_numbered] at haux
  have htext : numbered_text (UInt64.ofNat 0) = numbered_text (UInt64.ofNat n) :=
    (Prod.mk.inj (Option.some.inj haux)).2
  have := numbered_text_inj (by omega) (by omega) htext
  omega

/-- One type more than there are ids: the last term is given the id of the first. -/
theorem types_run_over : ¬ (run .rows (intern_numbered (2 ^ 32 + 1))).Sound := runs_over rfl

end History

end horndb.storage.Dictionary
