-- What replay makes of a log whose file was extended before its last frame was written: the
-- whole frames, and then nothing but zero bytes.
import HornDb.StoreReplay

open HornDb.Lib HornDb.Lib.Wire

namespace horndb.storage

namespace Wal

/-- The bytes of an extension of the file that nothing was written to. -/
def zeros (n : Nat) : Bytes := List.replicate n 0

@[simp] theorem zeros_length (n : Nat) : (zeros n).length = n := List.length_replicate

theorem zeros_add (k n : Nat) : zeros (k + n) = zeros k ++ zeros n := List.replicate_add k n 0

/-- The checksum of an empty body is zero, so a header of zeros is its whole frame. -/
theorem frame_nil : frame [] = zeros HEADER := by decide

variable {ox : Oxrdf} {gen : UInt64} {σ : Type} {apply : σ → Record ox → Outcome σ}

/-- No record has an empty body. -/
theorem decode_nil : decode ox [] = .error Cursor.SHORT := rfl

/-- Fewer zeros than a header has bytes are the start of a frame that was cut short. -/
theorem few_zeros_torn {n : Nat} (hn : n < HEADER) :
    ∃ body : Bytes, body.length < 2 ^ 32 ∧ zeros n <+: frame body ∧ zeros n ≠ frame body := by
  refine ⟨[], Nat.two_pow_pos 32, ?_, ?_⟩
  · obtain ⟨k, hk⟩ := Nat.exists_eq_add_of_lt hn
    rw [frame_nil, hk, Nat.add_assoc, zeros_add]
    exact List.prefix_append _ _
  · intro heq
    have hlen := congrArg List.length heq
    rw [frame_nil, zeros_length, zeros_length] at hlen
    omega

/-- From a header of zeros on, the loop reads the frame of an empty body and stops at it. -/
theorem replay_from_zeros {file before : Bytes} {n : Nat} (s : σ)
    (hfile : file = before ++ zeros n) (hn : HEADER ≤ n) :
    replay_from ox gen apply file before.length s = .error Cursor.SHORT := by
  have hframe : file = before ++ (frame [] ++ zeros (n - HEADER)) := by
    rw [hfile, frame_nil, ← zeros_add, Nat.add_sub_cancel' hn]
  obtain ⟨hheader, hbody⟩ := header_read hframe
  have hfits : ([] : Bytes).length < 2 ^ 32 := Nat.two_pow_pos 32
  obtain ⟨hl, hc⟩ := header_fields hfits
  have htotal : file.length = before.length + n := by
    rw [hfile, List.length_append, zeros_length]
  rw [replay_from]
  dsimp only
  rw [hheader, hl, hc, hbody, dif_neg (by omega), List.length_nil, if_neg (Nat.not_lt_zero _),
    if_neg (not_not.mpr rfl), decode_nil]
  rfl

variable {entries : List (Entry ox)} {kept : Bytes} {n : Nat}

/-- The records of the frames are handed on, and then replay fails at the zeros. -/
theorem replay_zeros (h : Framed entries kept) (hc : ∀ e ∈ entries, e.Checked) (hn : HEADER ≤ n)
    (w : Wal)
    (hfile : w.file = kept ++ zeros n) (s : σ) :
    w.replay apply s =
      (entries.map Entry.record).foldlM apply s >>= fun _ => .error Cursor.SHORT := by
  have hframes : replay_from ox w.gen apply w.file 0 s =
      (entries.map Entry.record).foldlM apply s >>= fun s =>
        replay_from ox w.gen apply w.file kept.length s := by
    have hstart : w.file = [] ++ (kept ++ zeros n) := hfile
    exact replay_from_framed h hc s hstart
  rw [replay, hframes, bind_assoc]
  congr 1
  funext s
  rw [replay_from_zeros s hfile hn]
  rfl

end Wal

namespace Store

variable {ox : Oxrdf} {fst : FstLib} {entries : List (Entry ox)} {kept : Bytes} {n : Nat}
  {gen : UInt64} {dict : Option (MappedBase fst)} {policy : SyncPolicy} {store : Store ox fst}

/-- Zeros that fill a header keep a directory from being opened. -/
theorem open_zeros (h : Wal.Framed entries kept)
    (hopen : open_with ⟨gen, dict, kept⟩ policy = .ok store) (hn : HEADER ≤ n) :
    (open_with ⟨gen, dict, kept ++ Wal.zeros n⟩ policy : Outcome (Store ox fst)) =
      .error Cursor.SHORT := by
  obtain ⟨d, hd, hopen⟩ := bind_eq_ok hopen
  obtain ⟨out, hreplayed, _⟩ := bind_eq_ok hopen
  have hwhole : kept = kept ++ [] := (List.append_nil kept).symm
  have hc := Wal.replay_checked (w := ⟨gen, kept, policy, false⟩) h hwhole hreplayed
  rw [Wal.replay_framed h hc (Or.inl rfl) ⟨gen, kept, policy, false⟩ hwhole] at hreplayed
  obtain ⟨st, hrun, _⟩ := bind_eq_ok hreplayed
  have hdict : open_dictionary ⟨gen, dict, kept ++ Wal.zeros n⟩ = .ok d := hd
  unfold open_with
  rw [hdict, ok_bind]
  dsimp only
  rw [Wal.replay_zeros h hc hn ⟨gen, kept ++ Wal.zeros n, policy, false⟩ rfl, hrun]
  rfl

/-- Fewer zeros are cut off, and the directory opens as without them. -/
theorem open_few_zeros (h : Wal.Framed entries kept)
    (hopen : open_with ⟨gen, dict, kept⟩ policy = .ok store) (hn : n < HEADER) :
    open_with ⟨gen, dict, kept ++ Wal.zeros n⟩ policy = .ok store := by
  obtain ⟨d, hd, hopen⟩ := bind_eq_ok hopen
  have hdict : open_dictionary ⟨gen, dict, kept ++ Wal.zeros n⟩ = .ok d := hd
  have hwhole : kept = kept ++ [] := (List.append_nil kept).symm
  dsimp only at hopen
  obtain ⟨out, hreplayed, _⟩ := bind_eq_ok hopen
  have hc := Wal.replay_checked (w := ⟨gen, kept, policy, false⟩) h hwhole hreplayed
  rw [Wal.replay_framed h hc (Or.inl rfl) ⟨gen, kept, policy, false⟩ hwhole] at hopen
  unfold open_with
  rw [hdict, ok_bind]
  dsimp only
  rw [Wal.replay_framed h hc (Or.inr (Wal.few_zeros_torn hn))
    ⟨gen, kept ++ Wal.zeros n, policy, false⟩ rfl]
  exact hopen

end Store

/-! ## The zero area -/

/-- The log of an input and its tick. -/
theorem input_tick_framed :
    ∃ w, (Wal.created 0 .EveryBatch).append_all Wal.input_tick = .ok w ∧
      Wal.Framed (Wal.input_tick.map Prod.fst) w.file := by
  have hok : ((Wal.created 0 .EveryBatch).append_all Wal.input_tick).isOk = true := by
    decide
  cases hwritten : (Wal.created 0 .EveryBatch).append_all Wal.input_tick with
  | error e =>
    rw [hwritten] at hok
    cases hok
  | ok w =>
    obtain ⟨bytes, hframed, hfile⟩ := Wal.append_all_framed hwritten
    refine ⟨w, rfl, ?_⟩
    rw [hfile]
    exact hframed

theorem input_tick_checked : ∀ e ∈ Wal.input_tick.map Prod.fst, e.Checked := by
  simp [Wal.input_tick, Entry.Checked]

end horndb.storage
