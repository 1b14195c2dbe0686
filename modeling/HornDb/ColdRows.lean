-- What a cold file gives back: every list of rows that ascends. Rows that descend are
-- refused, and bytes that no list of rows has are refused or read to their count.
import HornDb.ColdFile
import HornDb.PartitionBatches

open HornDb.Lib HornDb.Lib.Wire

namespace horndb.storage

/-! ## One pass over what was written -/

namespace ColdScan

theorem drain_next {st st' : ColdScan} {p : Pair} (h : st.next = .ok (p, st')) :
    st.drain = (p :: st'.drain.1, st'.drain.2) := by
  rw [drain]
  split
  · rename_i stop hstop
    rw [h] at hstop
    cases hstop
  · rename_i p' st₁ hnext
    rw [h] at hnext
    cases hnext
    rfl

theorem drain_stop {st stop : ColdScan} (h : st.next = .error stop) : st.drain = ([], stop) := by
  rw [drain]
  split
  · rename_i stop' hstop
    rw [h] at hstop
    cases hstop
    rfl
  · rename_i p' st₁ hnext
    rw [h] at hnext
    cases hnext

theorem drain_congr {st st' : ColdScan} (h : st.next = st'.next) : st.drain = st'.drain := by
  cases hnext : st.next with
  | error stop =>
    rw [h] at hnext
    rw [drain_stop hnext, drain_stop (h.trans hnext)]
  | ok out =>
    obtain ⟨p, after⟩ := out
    rw [h] at hnext
    rw [drain_next hnext, drain_next (h.trans hnext)]

theorem read_gap_write {st : ColdScan} {value : Nat} {rest : Bytes} (hvalue : value < 2 ^ 64)
    (hcursor : st.cursor = write_uvarint value ++ rest) :
    st.read_gap = .ok (value, { st with cursor := rest }) := by
  have hread : read_uvarint st.cursor = .ok (value, rest) := by
    rw [hcursor]
    exact (read_uvarint_write hvalue).back rest
  rw [read_gap, hread]

/-- The next object of the subject. -/
theorem next_object {st : ColdScan} {n gap : Nat} {rest : Bytes} (hstarted : st.started = true)
    (hleft : st.objects_left = n + 1) (hcursor : st.cursor = write_uvarint gap ++ rest)
    (hfits : st.prev_o + gap < 2 ^ 64) :
    st.next = .ok (toLex (st.subject, st.prev_o + gap),
      { st with cursor := rest, objects_left := n, prev_o := st.prev_o + gap }) := by
  have hstart : st.start = .ok st := if_pos hstarted
  have hadvance : st.advance = .ok st := by
    rw [advance, if_pos (by omega)]
  have hread : read_gap { st with objects_left := st.objects_left - 1 } =
      .ok (gap, { st with cursor := rest, objects_left := n }) := by
    rw [hleft]
    exact read_gap_write (by omega) hcursor
  have hsum : checked_add st.prev_o gap = some (st.prev_o + gap) := if_pos hfits
  unfold next
  rw [hstart]
  show (st.advance >>= _) = _
  rw [hadvance]
  show (read_gap { st with objects_left := st.objects_left - 1 } >>= _) = _
  rw [hread]
  simp only [bind, Except.bind, hsum]
  rfl

theorem checked_gap_ok {value prev : UInt64} {msg : String} {gap : Nat}
    (h : checked_gap value prev msg = .ok gap) :
    prev.toNat + gap = value.toNat := by
  unfold checked_gap at h
  split at h
  · cases h
  · cases h
    omega

/-- The objects of a subject, read where they were written. -/
theorem drain_objects (objects : List UInt64) :
    ∀ {prev_o : UInt64} {bytes rest : Bytes} {st : ColdScan},
      write_objects prev_o objects = .ok bytes → st.started = true →
      st.objects_left = objects.length → st.cursor = bytes ++ rest → st.prev_o = prev_o.toNat →
        ∃ last, st.drain =
          let after := drain { st with cursor := rest, objects_left := 0, prev_o := last }
          (objects.map (fun o => toLex (st.subject, o.toNat)) ++ after.1, after.2) := by
  induction objects with
  | nil =>
    intro prev_o bytes rest st hwrite hstarted hleft hcursor hprev
    cases hwrite
    refine ⟨st.prev_o, ?_⟩
    have hsame : ({ st with cursor := rest, objects_left := 0 } : ColdScan) = st := by
      rw [List.nil_append] at hcursor
      have hnone : st.objects_left = 0 := hleft
      rw [← hcursor, ← hnone]
    dsimp only
    rw [hsame]
    rfl
  | cons o objects ih =>
    intro prev_o bytes rest st hwrite hstarted hleft hcursor hprev
    obtain ⟨gap, hgap, hwrite⟩ := bind_eq_ok hwrite
    obtain ⟨more, hmore, hwrite⟩ := bind_eq_ok hwrite
    cases hwrite
    have hsum := checked_gap_ok hgap
    rw [List.append_assoc] at hcursor
    have hfits : st.prev_o + gap < 2 ^ 64 := by
      rw [hprev, hsum]
      exact o.toNat_lt
    have hnext := next_object hstarted hleft hcursor hfits
    rw [hprev, hsum] at hnext
    have hrest := @ih o more rest { st with
      cursor := more ++ rest
      objects_left := objects.length
      prev_o := o.toNat } hmore hstarted rfl rfl rfl
    obtain ⟨last, hlast⟩ := hrest
    refine ⟨last, ?_⟩
    rw [drain_next hnext, hlast]
    rfl

/-- The pass goes on to the next subject. -/
theorem next_subject {st : ColdScan} {left objects gap : Nat} {rest : Bytes}
    (hstarted : st.started = true) (hnone : st.objects_left = 0)
    (hleft : st.subjects_left = left + 1)
    (hcursor : st.cursor = write_uvarint gap ++ (write_uvarint objects ++ rest))
    (hfits : st.subject + gap < 2 ^ 64) (hobjects : objects < 2 ^ 64) :
    st.drain = drain { st with
      cursor := rest
      subjects_left := left
      subject := st.subject + gap
      objects_left := objects
      prev_o := 0 } := by
  have hadvance : st.advance = advance { st with
      cursor := rest
      subjects_left := left
      subject := st.subject + gap
      objects_left := objects
      prev_o := 0 } := by
    have hgap : read_gap { st with subjects_left := st.subjects_left - 1 } =
        .ok (gap, { st with
          cursor := write_uvarint objects ++ rest
          subjects_left := left }) := by
      rw [hleft]
      exact read_gap_write (by omega) hcursor
    have hcount : read_gap { st with
        cursor := write_uvarint objects ++ rest
        subjects_left := left
        subject := st.subject + gap } = .ok (objects, { st with
          cursor := rest
          subjects_left := left
          subject := st.subject + gap }) := read_gap_write hobjects rfl
    have hsum : checked_add st.subject gap = some (st.subject + gap) := if_pos hfits
    rw [advance, if_neg (by omega), if_neg (by omega)]
    split
    · rename_i stop hstop
      rw [hgap] at hstop
      cases hstop
    · rename_i gap' st₁ hread
      rw [hgap] at hread
      cases hread
      dsimp only
      rw [hsum]
      dsimp only
      split
      · rename_i stop hstop
        rw [hcount] at hstop
        cases hstop
      · rename_i objects' st₂ hread
        rw [hcount] at hread
        cases hread
        rfl
  apply drain_congr
  unfold next start
  rw [if_pos hstarted, if_pos hstarted]
  show (st.advance >>= _) = (advance _ >>= _)
  rw [hadvance]

/-- A fresh pass reads the count of the subjects first. -/
theorem next_start {st : ColdScan} {count : Nat} {rest : Bytes} (hfresh : st.started = false)
    (hcount : count < 2 ^ 64) (hcursor : st.cursor = write_uvarint count ++ rest) :
    st.next = next { st with cursor := rest, subjects_left := count, started := true } := by
  have hread : read_gap { st with started := true } =
      .ok (count, { st with cursor := rest, started := true }) := read_gap_write hcount hcursor
  have hstart : st.start =
      .ok { st with cursor := rest, subjects_left := count, started := true } := by
    unfold start
    rw [if_neg (by rw [hfresh]; nofun), hread]
    rfl
  have hstart' : start { st with cursor := rest, subjects_left := count, started := true } =
      .ok { st with cursor := rest, subjects_left := count, started := true } := if_pos rfl
  unfold next
  rw [hstart, hstart']

/-- The pass ends where no subject is left. -/
theorem drain_end {st : ColdScan} (hstarted : st.started = true) (hnone : st.objects_left = 0)
    (hleft : st.subjects_left = 0) : st.drain = ([], st) := by
  apply drain_stop
  unfold next start
  rw [if_pos hstarted]
  show (st.advance >>= _) = _
  rw [advance, if_neg (by omega), if_pos hleft]
  rfl

end ColdScan

/-! ## The groups of a list of rows -/

theorem num_subjects_cons (s o : UInt64) (rows : List ColdRow) :
    num_subjects ((s, o) :: rows) =
      num_subjects (rows.dropWhile fun r => decide (r.1 = s)) + 1 := by
  induction rows generalizing o with
  | nil => rfl
  | cons r rows ih =>
    have hstep : num_subjects ((s, o) :: r :: rows) =
        num_subjects (r :: rows) + if s = r.1 then 0 else 1 := by
      unfold num_subjects
      rw [List.tail_cons, List.zip_cons_cons, List.filter_cons]
      by_cases h : s = r.1
      · simp [h]
      · simp [h]
    rw [hstep, List.dropWhile_cons]
    by_cases h : r.1 = s
    · rw [if_pos h.symm, if_pos (decide_eq_true h), ← ih r.2, ← h]
      rfl
    · rw [if_neg (Ne.symm h), if_neg (by simpa using h)]

theorem num_subjects_le (rows : List ColdRow) : num_subjects rows ≤ rows.length := by
  unfold num_subjects
  cases rows with
  | nil => exact Nat.le_refl 0
  | cons r rows =>
    have hle := List.length_filter_le (fun w : ColdRow × ColdRow => decide (w.1.1 ≠ w.2.1))
      ((r :: rows).zip rows)
    rw [List.length_zip, List.length_cons] at hle
    rw [List.tail_cons, List.length_cons, List.isEmpty_cons, if_neg Bool.false_ne_true]
    omega

theorem group_split (s o : UInt64) (rows : List ColdRow) :
    ((s, o) :: rows).map ColdRow.pair =
      (o :: (rows.takeWhile fun r => decide (r.1 = s)).map Prod.snd).map
          (fun o => toLex (s.toNat, o.toNat)) ++
        (rows.dropWhile fun r => decide (r.1 = s)).map ColdRow.pair := by
  rw [List.map_cons, List.map_cons, List.cons_append]
  congr 1
  rw [List.map_map]
  have hgroup : (rows.takeWhile fun r => decide (r.1 = s)).map
      ((fun o : UInt64 => (toLex (s.toNat, o.toNat) : Pair)) ∘ Prod.snd) =
        (rows.takeWhile fun r => decide (r.1 = s)).map ColdRow.pair := by
    refine List.map_congr_left fun r hr => ?_
    have hs : r.1 = s := of_decide_eq_true (List.mem_takeWhile_imp hr :)
    rw [ColdRow.pair, hs]
    rfl
  rw [hgroup, ← List.map_append, List.takeWhile_append_dropWhile]

/-- The rows that were written, read where they were written. -/
theorem ColdScan.drain_subjects {prev_s : UInt64} {rows : List ColdRow} {bytes : Bytes}
    (hrows : rows.length < 2 ^ 64) (hwrite : write_subjects prev_s rows = .ok bytes) :
    ∀ {st : ColdScan}, st.started = true → st.objects_left = 0 →
      st.subjects_left = num_subjects rows → st.cursor = bytes → st.subject = prev_s.toNat →
        st.drain.1 = rows.map ColdRow.pair ∧ st.drain.2.exhausted = true := by
  fun_induction write_subjects prev_s rows generalizing bytes with
  | case1 prev_s =>
    intro st hstarted hnone hleft hcursor _
    cases hwrite
    rw [drain_end hstarted hnone hleft]
    refine ⟨rfl, ?_⟩
    unfold exhausted
    rw [hcursor, hnone, show st.subjects_left = 0 from hleft]
    rfl
  | case2 prev_s s o rows ih =>
    intro st hstarted hnone hleft hcursor hsubject
    obtain ⟨gap, hgap, hwrite⟩ := bind_eq_ok hwrite
    obtain ⟨group, hgroup, hwrite⟩ := bind_eq_ok hwrite
    obtain ⟨more, hmore, hwrite⟩ := bind_eq_ok hwrite
    cases hwrite
    have hsum := checked_gap_ok hgap
    rw [group_split]
    have hshort : (o :: (rows.takeWhile fun r => decide (r.1 = s)).map Prod.snd).length <
        2 ^ 64 := by
      have hle := (List.takeWhile_sublist (l := rows) fun r => decide (r.1 = s)).length_le
      rw [List.length_cons] at hrows
      rw [List.length_cons, List.length_map]
      omega
    generalize o :: (rows.takeWhile fun r => decide (r.1 = s)).map Prod.snd = objects at *
    have hfits : st.subject + gap < 2 ^ 64 := by
      rw [hsubject, hsum]
      exact s.toNat_lt
    rw [num_subjects_cons] at hleft
    rw [next_subject hstarted hnone hleft hcursor hfits hshort, hsubject, hsum]
    obtain ⟨last, hlast⟩ := @drain_objects objects 0 group more { st with
      cursor := group ++ more
      subjects_left := num_subjects (rows.dropWhile fun r => decide (r.1 = s))
      subject := s.toNat
      objects_left := objects.length
      prev_o := 0 } hgroup hstarted rfl rfl rfl
    have hrest : (rows.dropWhile fun r => decide (r.1 = s)).length < 2 ^ 64 := by
      have hle := (List.dropWhile_sublist (l := rows) fun r => decide (r.1 = s)).length_le
      rw [List.length_cons] at hrows
      omega
    obtain ⟨hdrain, hend⟩ := @ih more hrest hmore { st with
      cursor := more
      subjects_left := num_subjects (rows.dropWhile fun r => decide (r.1 = s))
      subject := s.toNat
      objects_left := 0
      prev_o := last } hstarted rfl rfl rfl rfl
    rw [hlast]
    dsimp only
    rw [hdrain]
    exact ⟨rfl, hend⟩

/-! ## Rows that are refused -/

/-- The result is there, or an error is; nothing panics. -/
def Returns {α : Type} (o : Outcome α) : Prop := (∃ a, o = .ok a) ∨ ∃ e, o = .error (.error e)

theorem Returns.bind {α β : Type} {o : Outcome α} {f : α → Outcome β} (h : Returns o)
    (hf : ∀ a, o = .ok a → Returns (f a)) : Returns (o >>= f) := by
  rcases h with ⟨a, ha⟩ | ⟨e, he⟩
  · rw [ha]
    exact hf a ha
  · rw [he]
    exact Or.inr ⟨e, rfl⟩

theorem checked_gap_returns (value prev : UInt64) (msg : String) :
    Returns (checked_gap value prev msg) := by
  unfold checked_gap
  split
  · exact Or.inr ⟨_, rfl⟩
  · exact Or.inl ⟨_, rfl⟩

theorem checked_gap_iff (value prev : UInt64) (msg : String) :
    (∃ gap, checked_gap value prev msg = .ok gap) ↔ prev.toNat ≤ value.toNat := by
  unfold checked_gap
  split
  · rename_i h
    exact iff_of_false nofun (Nat.not_le.mpr h)
  · rename_i h
    exact iff_of_true ⟨_, rfl⟩ (Nat.not_lt.mp h)

/-- A sequence succeeds just when its parts do. -/
theorem bind_ok_iff {α β : Type} {o : Outcome α} {f : α → Outcome β} :
    (∃ b, (o >>= f) = .ok b) ↔ ∃ a, o = .ok a ∧ ∃ b, f a = .ok b := by
  constructor
  · rintro ⟨b, hb⟩
    obtain ⟨a, ha, hb⟩ := bind_eq_ok hb
    exact ⟨a, ha, b, hb⟩
  · rintro ⟨a, ha, b, hb⟩
    exact ⟨b, by rw [ha]; exact hb⟩

theorem write_objects_returns (objects : List UInt64) (prev_o : UInt64) :
    Returns (write_objects prev_o objects) := by
  induction objects generalizing prev_o with
  | nil => exact Or.inl ⟨_, rfl⟩
  | cons o objects ih =>
    exact (checked_gap_returns _ _ _).bind fun _ _ => (ih o).bind fun _ _ => Or.inl ⟨_, rfl⟩

theorem write_subjects_returns (prev_s : UInt64) (rows : List ColdRow) :
    Returns (write_subjects prev_s rows) := by
  fun_induction write_subjects prev_s rows with
  | case1 => exact Or.inl ⟨_, rfl⟩
  | case2 prev_s s o rows ih =>
    exact (checked_gap_returns _ _ _).bind fun _ _ =>
      (write_objects_returns _ _).bind fun _ _ => ih.bind fun _ _ => Or.inl ⟨_, rfl⟩

theorem write_objects_iff (objects : List UInt64) (prev_o : UInt64) :
    (∃ bytes, write_objects prev_o objects = .ok bytes) ↔
      (prev_o :: objects).IsChain fun a b => a.toNat ≤ b.toNat := by
  induction objects generalizing prev_o with
  | nil => exact iff_of_true ⟨_, rfl⟩ (List.isChain_singleton _)
  | cons o objects ih =>
    rw [List.isChain_cons_cons, ← checked_gap_iff o prev_o (object_msg o prev_o), ← ih]
    rw [write_objects, bind_ok_iff]
    simp only [bind_ok_iff]
    constructor
    · rintro ⟨gap, hgap, rest, hrest, _⟩
      exact ⟨⟨gap, hgap⟩, rest, hrest⟩
    · rintro ⟨⟨gap, hgap⟩, rest, hrest⟩
      exact ⟨gap, hgap, rest, hrest, _, rfl⟩

theorem pair_le_iff {s o s' o' : Nat} :
    (toLex (s, o) : Pair) ≤ toLex (s', o') ↔ s < s' ∨ s = s' ∧ o ≤ o' :=
  Prod.Lex.toLex_le_toLex

/-- The rows after those of a subject are above it, where they ascend and none is below it. -/
theorem above_group {s : UInt64} {rows : List ColdRow}
    (hsorted : ((rows.dropWhile fun r => decide (r.1 = s)).map ColdRow.pair).Pairwise (· ≤ ·))
    (hle : ∀ r ∈ rows.dropWhile fun r => decide (r.1 = s), s.toNat ≤ r.1.toNat) :
    ∀ r ∈ rows.dropWhile fun r => decide (r.1 = s), s.toNat < r.1.toNat := by
  cases hrest : rows.dropWhile fun r => decide (r.1 = s) with
  | nil => nofun
  | cons b rest =>
    have hb : b.1 ≠ s := by
      have hhead := List.head?_dropWhile_not (fun r : ColdRow => decide (r.1 = s)) rows
      rw [hrest] at hhead
      simpa using hhead
    rw [hrest] at hsorted hle
    have hlt : s.toNat < b.1.toNat :=
      lt_of_le_of_ne (hle b List.mem_cons_self) fun h => hb (UInt64.toNat_inj.mp h.symm)
    intro r hr
    rcases List.mem_cons.mp hr with rfl | hr
    · exact hlt
    · rw [List.map_cons, List.pairwise_cons] at hsorted
      rcases pair_le_iff.mp (hsorted.1 _ (List.mem_map_of_mem hr)) with h | ⟨h, _⟩
      · exact hlt.trans h
      · rwa [← h]

/-- The rows are taken just when none is below the one before it. -/
theorem write_subjects_iff (prev_s : UInt64) (rows : List ColdRow) :
    (∃ bytes, write_subjects prev_s rows = .ok bytes) ↔
      (rows.map ColdRow.pair).Pairwise (· ≤ ·) ∧ ∀ r ∈ rows, prev_s.toNat ≤ r.1.toNat := by
  fun_induction write_subjects prev_s rows with
  | case1 => exact iff_of_true ⟨_, rfl⟩ ⟨.nil, nofun⟩
  | case2 prev_s s o rows ih =>
    have hparts : (∃ bytes, (do
        let gap_s ← checked_gap s prev_s (subject_msg s prev_s)
        let objects := o :: (rows.takeWhile fun r => decide (r.1 = s)).map Prod.snd
        let bytes ← write_objects 0 objects
        let rest ← write_subjects s (rows.dropWhile fun r => decide (r.1 = s))
        pure (write_uvarint gap_s ++ (write_uvarint objects.length ++ (bytes ++ rest)))) =
          (.ok bytes : Outcome Bytes)) ↔
        prev_s.toNat ≤ s.toNat ∧
        (o :: (rows.takeWhile fun r => decide (r.1 = s)).map Prod.snd).Pairwise
          (fun a b => a.toNat ≤ b.toNat) ∧
        ((rows.dropWhile fun r => decide (r.1 = s)).map ColdRow.pair).Pairwise (· ≤ ·) ∧
          ∀ r ∈ rows.dropWhile fun r => decide (r.1 = s), s.toNat ≤ r.1.toNat := by
      rw [← ih, ← checked_gap_iff s prev_s (subject_msg s prev_s)]
      have hchain : (o :: (rows.takeWhile fun r => decide (r.1 = s)).map Prod.snd).Pairwise
          (fun a b => a.toNat ≤ b.toNat) ↔
          ∃ bytes, write_objects 0 (o :: (rows.takeWhile fun r => decide (r.1 = s)).map Prod.snd) =
            .ok bytes := by
        have : Trans (fun a b : UInt64 => a.toNat ≤ b.toNat) (fun a b : UInt64 => a.toNat ≤ b.toNat)
            (fun a b : UInt64 => a.toNat ≤ b.toNat) := ⟨fun h h' => Nat.le_trans h h'⟩
        have hzero : (0 : UInt64).toNat ≤ o.toNat := Nat.zero_le _
        rw [write_objects_iff, List.isChain_cons_cons, and_iff_right hzero,
          List.isChain_iff_pairwise]
      rw [hchain, bind_ok_iff]
      simp only [bind_ok_iff]
      constructor
      · rintro ⟨gap, hgap, group, hgroup, rest, hrest, _⟩
        exact ⟨⟨gap, hgap⟩, ⟨group, hgroup⟩, rest, hrest⟩
      · rintro ⟨⟨gap, hgap⟩, ⟨group, hgroup⟩, rest, hrest⟩
        exact ⟨gap, hgap, group, hgroup, rest, hrest, _, rfl⟩
    have hsame : ((o :: (rows.takeWhile fun r => decide (r.1 = s)).map Prod.snd).map
        fun o => (toLex (s.toNat, o.toNat) : Pair)).Pairwise (· ≤ ·) ↔
          (o :: (rows.takeWhile fun r => decide (r.1 = s)).map Prod.snd).Pairwise
            (fun a b => a.toNat ≤ b.toNat) := by
      rw [List.pairwise_map]
      refine List.Pairwise.iff fun a b => ?_
      rw [pair_le_iff]
      omega
    refine hparts.trans ?_
    rw [group_split, List.pairwise_append, hsame]
    constructor
    · rintro ⟨hprev, hgroup, hrest, hle⟩
      have habove := above_group hrest hle
      refine ⟨⟨hgroup, hrest, fun a ha b hb => ?_⟩, fun r hr => ?_⟩
      · obtain ⟨o', _, rfl⟩ := List.mem_map.mp ha
        obtain ⟨r, hr, rfl⟩ := List.mem_map.mp hb
        exact pair_le_iff.mpr (Or.inl (habove r hr))
      · rcases List.mem_cons.mp hr with rfl | hr
        · exact hprev
        · have hsplit := List.takeWhile_append_dropWhile (p := fun r : ColdRow => decide (r.1 = s))
            (l := rows)
          rw [← hsplit, List.mem_append] at hr
          rcases hr with hr | hr
          · have hs : r.1 = s := of_decide_eq_true (List.mem_takeWhile_imp hr :)
            rwa [hs]
          · exact hprev.trans (hle r hr)
    · rintro ⟨⟨hgroup, hrest, hcross⟩, hprev⟩
      refine ⟨hprev _ List.mem_cons_self, hgroup, hrest, fun r hr => ?_⟩
      have hfirst : (toLex (s.toNat, o.toNat) : Pair) ≤ r.pair := by
        refine hcross _ ?_ _ (List.mem_map_of_mem hr)
        exact List.mem_map_of_mem List.mem_cons_self
      rcases pair_le_iff.mp hfirst with h | ⟨h, _⟩
      · exact h.le
      · exact h.le

/-! ## The file read back -/

theorem write_cold_iff (graph predicate version : UInt64) (rows : List ColdRow) :
    (∃ bytes, write_cold graph predicate version rows = .ok bytes) ↔
      (rows.map ColdRow.pair).Pairwise (· ≤ ·) := by
  unfold write_cold
  rw [bind_ok_iff]
  constructor
  · rintro ⟨block, hblock, _⟩
    exact ((write_subjects_iff 0 rows).mp ⟨block, hblock⟩).1
  · intro h
    obtain ⟨block, hblock⟩ := (write_subjects_iff 0 rows).mpr ⟨h, fun r _ => Nat.zero_le _⟩
    exact ⟨block, hblock, _, rfl⟩

theorem write_cold_returns (graph predicate version : UInt64) (rows : List ColdRow) :
    Returns (write_cold graph predicate version rows) :=
  (write_subjects_returns 0 rows).bind fun _ _ => Or.inl ⟨_, rfl⟩

namespace ColdFile

theorem field_at_here {field rest : Bytes} {width : Nat} (hwidth : field.length = width) :
    field_at (field ++ rest) 0 width = .ok (ofLe field) := by
  have hto : slice_to (field ++ rest) width = .ok field := by
    rw [slice_to, if_pos (by rw [List.length_append]; omega), ← hwidth, List.take_left]
  rw [field_at, slice_from, if_pos (Nat.zero_le _), List.drop_zero]
  show (slice_to (field ++ rest) width >>= _) = _
  rw [hto]
  rfl

/-- A field behind another one. -/
theorem field_at_skip {field rest : Bytes} {k : Nat} (hk : field.length = k) (start width : Nat) :
    field_at (field ++ rest) (k + start) width = field_at rest start width := by
  have hfrom : slice_from (field ++ rest) (k + start) = slice_from rest start := by
    unfold slice_from
    rw [List.length_append, ← List.drop_drop, ← hk, List.drop_left]
    by_cases h : start ≤ rest.length
    · rw [if_pos h, if_pos (by omega)]
    · rw [if_neg h, if_neg (by omega)]
  rw [field_at, hfrom]
  rfl

theorem ofLe_u64 (n : UInt64) : ofLe (u64_le n) = n.toNat := by
  rw [u64_le, ofLe_leBytes]
  exact Nat.mod_eq_of_lt n.toNat_lt

/-- What `write_cold` writes, with the block of the rows last. -/
def laid_out (graph predicate version : UInt64) (count : Nat) (body : Bytes) : Bytes :=
  MAGIC ++ (leBytes 4 FORMAT_VERSION ++ (u64_le graph ++ (u64_le predicate ++
    (leBytes 8 count ++ (u64_le version ++ body)))))

section laid_out

variable (graph predicate version : UInt64) (count : Nat) (body : Bytes)

theorem length_u64 (n : UInt64) : (u64_le n).length = 8 := length_leBytes 8 _

theorem magic_length : MAGIC.length = 8 := rfl

theorem version_length : (leBytes 4 FORMAT_VERSION).length = 4 := length_leBytes 4 _

theorem count_length : (leBytes 8 count).length = 8 := length_leBytes 8 _

theorem read_version : field_at (laid_out graph predicate version count body) 8 4 =
    .ok FORMAT_VERSION := by
  show field_at _ (8 + 0) 4 = _
  rw [laid_out, field_at_skip magic_length, field_at_here version_length]
  rfl

theorem read_graph : field_at (laid_out graph predicate version count body) 12 8 =
    .ok graph.toNat := by
  show field_at _ (8 + (4 + 0)) 8 = _
  rw [laid_out, field_at_skip magic_length, field_at_skip version_length,
    field_at_here (length_u64 graph), ofLe_u64]

theorem read_predicate : field_at (laid_out graph predicate version count body) 20 8 =
    .ok predicate.toNat := by
  show field_at _ (8 + (4 + (8 + 0))) 8 = _
  rw [laid_out, field_at_skip magic_length, field_at_skip version_length,
    field_at_skip (length_u64 graph), field_at_here (length_u64 predicate), ofLe_u64]

theorem read_count (hcount : count < 2 ^ 64) :
    field_at (laid_out graph predicate version count body) 28 8 = .ok count := by
  show field_at _ (8 + (4 + (8 + (8 + 0)))) 8 = _
  rw [laid_out, field_at_skip magic_length, field_at_skip version_length,
    field_at_skip (length_u64 graph), field_at_skip (length_u64 predicate),
    field_at_here (count_length count), ofLe_leBytes, Nat.mod_eq_of_lt (by exact hcount)]

theorem read_written_at : field_at (laid_out graph predicate version count body) 36 8 =
    .ok version.toNat := by
  show field_at _ (8 + (4 + (8 + (8 + (8 + 0))))) 8 = _
  rw [laid_out, field_at_skip magic_length, field_at_skip version_length,
    field_at_skip (length_u64 graph), field_at_skip (length_u64 predicate),
    field_at_skip (count_length count), field_at_here (length_u64 version), ofLe_u64]

theorem laid_out_length :
    (laid_out graph predicate version count body).length = HEADER_LEN + body.length := by
  simp only [laid_out, List.length_append, magic_length, version_length, length_u64, count_length]
  unfold HEADER_LEN
  omega

theorem laid_out_drop : (laid_out graph predicate version count body).drop HEADER_LEN = body := by
  have hsplit : laid_out graph predicate version count body =
      (laid_out graph predicate version count []) ++ body := by
    simp only [laid_out, List.append_assoc, List.nil_append]
  have hlen := laid_out_length graph predicate version count []
  rw [List.length_nil, Nat.add_zero] at hlen
  rw [hsplit, ← hlen, List.drop_left]

end laid_out

/-- The file of rows that ascend is opened, and a pass over it gives them. -/
theorem open_written {graph predicate version : UInt64} {rows : List ColdRow} {bytes : Bytes}
    (hrows : rows.length < 2 ^ 64)
    (hwrite : write_cold graph predicate version rows = .ok bytes) (path : String) :
    ∃ file, open_cold path bytes = .ok file ∧ file.scanned = rows.map ColdRow.pair ∧
      file.version = version.toNat := by
  obtain ⟨block, hblock, hwrite⟩ := bind_eq_ok hwrite
  cases hwrite
  show ∃ file, open_cold path (laid_out graph predicate version rows.length
    (write_uvarint (num_subjects rows) ++ block)) = .ok file ∧ _
  generalize hbody : write_uvarint (num_subjects rows) ++ block = body
  have hheaded : ¬ ((laid_out graph predicate version rows.length body).length < HEADER_LEN ∨
      (laid_out graph predicate version rows.length body).take 8 ≠ MAGIC) := by
    rintro (h | h)
    · rw [laid_out_length] at h
      omega
    · apply h
      rw [laid_out, ← magic_length, List.take_left]
  let file : ColdFile := ⟨laid_out graph predicate version rows.length body, rows.length,
    version.toNat, graph.toNat, predicate.toNat, Nat.not_lt.mp fun h => hheaded (Or.inl h)⟩
  have hdrain : file.scan.drain.1 = rows.map ColdRow.pair ∧
      file.scan.drain.2.exhausted = true := by
    have hcursor : file.scan.cursor = write_uvarint (num_subjects rows) ++ block := by
      rw [hbody]
      exact laid_out_drop graph predicate version rows.length body
    have hcount : num_subjects rows < 2 ^ 64 := (num_subjects_le rows).trans_lt hrows
    obtain ⟨hpairs, hend⟩ := @ColdScan.drain_subjects 0 rows block hrows hblock
      ⟨block, num_subjects rows, 0, 0, 0, true⟩ rfl rfl rfl rfl rfl
    have hstart : file.scan.drain = ColdScan.drain ⟨block, num_subjects rows, 0, 0, 0, true⟩ := by
      apply ColdScan.drain_congr
      exact ColdScan.next_start rfl hcount hcursor
    rw [hstart]
    exact ⟨hpairs, hend⟩
  refine ⟨file, ?_, hdrain.1, rfl⟩
  unfold open_cold
  rw [dif_neg hheaded, read_version, read_count _ _ _ _ _ hrows, read_written_at, read_graph,
    read_predicate]
  simp only [ok_bind]
  rw [if_neg (not_not.mpr rfl)]
  refine if_neg ?_
  rintro (h | h)
  · apply h
    rw [hdrain.1, List.length_map]
  · rw [hdrain.2] at h
    cases h

/-! ## Any bytes -/

theorem field_at_ok {bytes : Bytes} {start width : Nat} (h : start + width ≤ bytes.length) :
    field_at bytes start width = .ok (ofLe ((bytes.drop start).take width)) := by
  have hto : slice_to (bytes.drop start) width = .ok ((bytes.drop start).take width) := by
    rw [slice_to, if_pos (by rw [List.length_drop]; omega)]
  rw [field_at, slice_from, if_pos (by omega)]
  show (slice_to (bytes.drop start) width >>= _) = _
  rw [hto]
  rfl

/-- Whatever the bytes are, opening returns, and a file that is opened has the rows that its
header counts. -/
theorem open_any (path : String) (bytes : Bytes) :
    (∃ e, open_cold path bytes = .error (.error e)) ∨
      ∃ file, open_cold path bytes = .ok file ∧ file.mmap = bytes ∧
        file.rows = ofLe ((bytes.drop 28).take 8) ∧ file.scanned.length = file.rows := by
  unfold open_cold
  split
  · exact Or.inl ⟨_, rfl⟩
  · rename_i hheaded
    have hlong : HEADER_LEN ≤ bytes.length := Nat.not_lt.mp fun h => hheaded (Or.inl h)
    unfold HEADER_LEN at hlong
    rw [field_at_ok (by omega), field_at_ok (by omega), field_at_ok (by omega),
      field_at_ok (by omega), field_at_ok (by omega)]
    simp only [ok_bind]
    split
    · exact Or.inl ⟨_, rfl⟩
    · split
      · exact Or.inl ⟨_, rfl⟩
      · rename_i hcount
        rw [not_or, not_not] at hcount
        exact Or.inr ⟨_, rfl, rfl, rfl, hcount.1⟩

/-! ## The reads -/

theorem contains_in_iff {rows : List Pair} (h : rows.Pairwise (· ≤ ·)) (s o : TermId) :
    contains_in s o rows = true ↔ toLex (s, o) ∈ rows := by
  induction rows with
  | nil => exact iff_of_false nofun List.not_mem_nil
  | cons p rows ih =>
    rw [List.pairwise_cons] at h
    rw [contains_in]
    split
    · -- The rows are past the subject.
      rename_i hpast
      refine iff_of_false nofun fun hmem => ?_
      have hle : p ≤ toLex (s, o) := by
        rcases List.mem_cons.mp hmem with heq | hmem
        · exact heq.symm.le
        · exact h.1 _ hmem
      rcases pair_le_iff.mp hle with hlt | ⟨heq, _⟩
      · exact absurd hlt (Nat.not_lt.mpr hpast.le)
      · exact absurd heq hpast.ne'
    · split
      · rename_i heq
        exact iff_of_true rfl (heq ▸ List.mem_cons_self)
      · rename_i hne
        rw [ih h.2, List.mem_cons]
        exact (or_iff_right fun heq => hne heq.symm).symm

/-- The reads of a file give just the rows. -/
structure ReadsBack (file : ColdFile) (rows : List Pair) : Prop where
  scanned : file.scanned = rows
  found : ∀ s o, file.contains s o = true ↔ toLex (s, o) ∈ rows
  ordered : ∀ ord, (file.ordered ord).subject_object.Perm rows ∧
    ((file.ordered ord).scan.map toLex).Pairwise (· < ·)
  promoted : ∀ at_version, file.version ≤ at_version → file.promote.scan_at at_version = rows
  unpromoted : ∀ at_version, at_version < file.version → file.promote.scan_at at_version = []

theorem ordered_reads (file : ColdFile) (h : file.scanned.Pairwise (· < ·)) (ord : Ordering) :
    (file.ordered ord).subject_object.Perm file.scanned ∧
      ((file.ordered ord).scan.map toLex).Pairwise (· < ·) := by
  unfold ordered OrderedColumns.subject_object OrderedColumns.scan
  cases ord.axis with
  | SubjectMajor =>
    dsimp only
    rw [List.map_map, show (toLex ∘ ofLex : Pair → Pair) = id from rfl, List.map_id]
    exact ⟨List.Perm.refl _, h⟩
  | ObjectMajor =>
    dsimp only
    have hperm := List.perm_insertionSort (· ≤ ·)
      (file.scanned.map fun p => (toLex ((ofLex p).2, (ofLex p).1) : Pair))
    refine ⟨?_, ?_⟩
    · rw [List.map_map]
      refine (hperm.map _).trans ?_
      rw [List.map_map]
      exact List.Perm.of_eq (List.map_id _)
    · rw [List.map_map, show (toLex ∘ ofLex : Pair → Pair) = id from rfl, List.map_id]
      have hnodup : (file.scanned.map fun p => (toLex ((ofLex p).2, (ofLex p).1) : Pair)).Nodup := by
        have hinj : Function.Injective fun p : Pair => (toLex ((ofLex p).2, (ofLex p).1) : Pair) := by
          intro p q hpq
          obtain ⟨ho, hs⟩ := Prod.mk.inj (toLex.injective hpq)
          exact ofLex.injective (Prod.ext hs ho)
        exact List.Nodup.map hinj (h.imp fun hlt => hlt.ne)
      exact ((List.pairwise_insertionSort (· ≤ ·) _).and (hperm.nodup_iff.mpr hnodup)).imp
        fun hle => lt_of_le_of_ne hle.1 hle.2

/-- A promoted file holds its rows as they are, live from its version on. -/
theorem promote_rows (file : ColdFile) (h : file.scanned.Pairwise (· < ·)) :
    file.promote.merged_cols.rows = file.scanned.map (live_row file.version) := by
  have hkept : KeptAt (some file.promote) file.version :=
    insert_rows_kept (KeptAt.none file.version) (Nat.le_refl _) fun r hr => by
      obtain ⟨q, _, rfl⟩ := List.mem_map.mp hr
      exact ⟨rfl, Nat.le_refl _, Nat.le_refl _⟩
  have hlive : InOrder (file.scanned.map (live_row file.version)) := by
    refine ⟨?_, ?_, file.version, stamped_live file.version file.scanned⟩
    · exact List.pairwise_map.mpr (h.imp fun hlt => Row.key_le_iff.mpr (Or.inl hlt))
    · exact List.pairwise_map.mpr (h.imp fun hlt heq => absurd heq hlt.ne)
  exact hkept.in_order.unique hlive (SameRows.sort_dedup _)

theorem reads_back (file : ColdFile) {rows : List Pair} (hscan : file.scanned = rows)
    (h : rows.Pairwise (· < ·)) : ReadsBack file rows := by
  subst hscan
  have hscan_at : ∀ at_version, file.promote.scan_at at_version =
      ((file.scanned.map (live_row file.version)).filter fun r => r.visible at_version).map
        Row.pair := by
    intro at_version
    rw [PredicatePartition.scan_at_eq, file.promote_rows h]
  refine ⟨rfl, contains_in_iff (h.imp fun hlt => hlt.le), file.ordered_reads h,
    fun v hv => ?_, fun v hv => ?_⟩
  · rw [hscan_at, List.filter_eq_self.mpr, List.map_map]
    · exact List.map_id _
    · intro r hr
      obtain ⟨q, _, rfl⟩ := List.mem_map.mp hr
      exact (Row.visible_of_live rfl).mpr hv
  · rw [hscan_at, List.filter_eq_nil_iff.mpr, List.map_nil]
    intro r hr hvis
    obtain ⟨q, _, rfl⟩ := List.mem_map.mp hr
    exact absurd ((Row.visible_of_live rfl).mp hvis) (Nat.not_le.mpr hv)

end ColdFile

/-! ## The cold tier -/

/-- Rows that ascend strictly are given back by every read of their file, and any other rows
are refused with an error. -/
def ColdRight (rows : List ColdRow) : Prop :=
  ∀ (graph predicate version : UInt64) (path : String),
    ((rows.map ColdRow.pair).Pairwise (· < ·) →
      ∃ bytes file, write_cold graph predicate version rows = .ok bytes ∧
        ColdFile.open_cold path bytes = .ok file ∧ file.version = version.toNat ∧
        file.ReadsBack (rows.map ColdRow.pair)) ∧
    (¬ (rows.map ColdRow.pair).Pairwise (· < ·) →
      ∃ e, write_cold graph predicate version rows = .error (.error e))

/-- A row stands next to itself in rows that ascend otherwise. -/
def Repeats (rows : List ColdRow) : Prop :=
  (rows.map ColdRow.pair).Pairwise (· ≤ ·) ∧ ¬ (rows.map ColdRow.pair).Nodup

theorem strict_iff {rows : List ColdRow} :
    (rows.map ColdRow.pair).Pairwise (· < ·) ↔
      (rows.map ColdRow.pair).Pairwise (· ≤ ·) ∧ (rows.map ColdRow.pair).Nodup := by
  constructor
  · exact fun h => ⟨h.imp fun hlt => hlt.le, h.imp fun hlt => hlt.ne⟩
  · exact fun h => (h.1.and h.2).imp fun hle => lt_of_le_of_ne hle.1 hle.2

theorem cold_right {rows : List ColdRow} (hrows : rows.length < 2 ^ 64) (h : ¬ Repeats rows) :
    ColdRight rows := by
  intro graph predicate version path
  refine ⟨fun hstrict => ?_, fun hnot => ?_⟩
  · obtain ⟨bytes, hwrite⟩ :=
      (write_cold_iff graph predicate version rows).mpr (strict_iff.mp hstrict).1
    obtain ⟨file, hopen, hscan, hversion⟩ := ColdFile.open_written hrows hwrite path
    exact ⟨bytes, file, hwrite, hopen, hversion, file.reads_back hscan hstrict⟩
  · rcases write_cold_returns graph predicate version rows with hok | herror
    · have hle := (write_cold_iff graph predicate version rows).mp hok
      exact absurd (strict_iff.mpr ⟨hle, Classical.not_not.mp fun hn => h ⟨hle, hn⟩⟩) hnot
    · exact herror

theorem cold_wrong {rows : List ColdRow} (h : Repeats rows) : ¬ ColdRight rows := by
  intro hright
  obtain ⟨bytes, hwrite⟩ := (write_cold_iff 0 0 0 rows).mpr h.1
  obtain ⟨e, herror⟩ := (hright 0 0 0 "").2 fun hstrict => h.2 (strict_iff.mp hstrict).2
  rw [hwrite] at herror
  cases herror

/-- The cold tier is right on just the rows that do not repeat one in their order. Of any
bytes, opening gives an error or a file with as many rows as its header counts. -/
theorem cold_right_iff {rows : List ColdRow} (hrows : rows.length < 2 ^ 64) :
    (ColdRight rows ↔ ¬ Repeats rows) ∧
    ∀ path bytes, (∃ e, ColdFile.open_cold path bytes = .error (.error e)) ∨
      ∃ file, ColdFile.open_cold path bytes = .ok file ∧ file.mmap = bytes ∧
        file.rows = ofLe ((bytes.drop 28).take 8) ∧ file.scanned.length = file.rows :=
  ⟨⟨fun hright hrep => cold_wrong hrep hright, cold_right hrows⟩, ColdFile.open_any⟩

theorem three_rows_right : ColdRight [(1, 2), (1, 5), (3, 1)] :=
  (cold_right_iff (by decide)).1.mpr fun h => h.2 (by decide)

/-- A row given twice is written twice. -/
theorem row_written_twice : ¬ ColdRight [(1, 2), (1, 2)] :=
  cold_wrong ⟨by decide, by decide⟩

end horndb.storage
