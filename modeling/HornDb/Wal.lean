-- The log file: frames of a length, a checksum and a body, one after the other. Replay
-- takes the complete frames in order and cuts off what a crash left of the next one.
import HornDb.WalRecord

open HornDb.Lib HornDb.Lib.Wire

set_option maxRecDepth 4096

namespace horndb.storage

/-! ## The checksum -/

/-- Eight steps of the division by the Castagnoli polynomial. -/
def crc_entry (i : UInt32) : UInt32 :=
  (List.range 8).foldl
    (fun c _ => if c &&& 1 ≠ 0 then (0x82F63B78 : UInt32) ^^^ (c >>> 1) else c >>> 1) i

def CRC_TABLE : Vector UInt32 256 := Vector.ofFn fun i => crc_entry (UInt32.ofNat i)

def crc32c (bytes : Bytes) : UInt32 :=
  ~~~ bytes.foldl
    (fun c b => CRC_TABLE.get (Fin.ofNat 256 ((c ^^^ b.toUInt32) &&& 0xff).toNat) ^^^ (c >>> 8))
    (~~~ (0 : UInt32))

example : crc32c (as_bytes "123456789") = 0xE3069283 := by decide

/-! ## The file -/

def HEADER : Nat := 8

def frame (body : Bytes) : Bytes :=
  u32_le body.length ++ (u32_le (crc32c body).toNat ++ body)

def write_record (file body : Bytes) : Outcome Bytes :=
  if body.length < 2 ^ 32 then .ok (file ++ frame body)
  else .error (wal_err "record body over 4 GiB")

/-- When an appended record is made durable. The interval is in nanoseconds. -/
inductive SyncPolicy where
  | EveryBatch
  | Every (d : Nat)
deriving DecidableEq, Repr

/-- An open log: the bytes of its file, and whether some of them are not synced yet. -/
structure Wal where
  gen : UInt64
  file : Bytes
  policy : SyncPolicy
  dirty : Bool
deriving DecidableEq, Repr

namespace Wal

def sync (w : Wal) : Wal := if w.dirty then { w with dirty := false } else w

/-- Append one record. `elapsed` is the time since the last sync. -/
def append (w : Wal) (body : Bytes) (elapsed : Nat) : Outcome Wal := do
  let file ← write_record w.file body
  let w := { w with file, dirty := true }
  match w.policy with
  | .EveryBatch => pure w.sync
  | .Every d => if d ≤ elapsed then pure w.sync else pure w

variable {σ : Type} (ox : Oxrdf) (gen : UInt64) (apply : σ → Record ox → Outcome σ)

/-- The loop of `replay`, from the frame at `good_end` on. -/
def replay_from (file : Bytes) (good_end : Nat) (s : σ) : Outcome (σ × Nat) :=
  let total := file.length
  let remaining := total - good_end
  if _hheader : remaining < HEADER then .ok (s, good_end) -- the clean end, or a torn header
  else
    let header := (file.drop good_end).take HEADER
    let len := ofLe (header.take 4)
    let crc := ofLe (header.drop 4)
    if remaining - HEADER < len then .ok (s, good_end) -- a torn body
    else
      let body := (file.drop (good_end + HEADER)).take len
      let frame_end := good_end + HEADER + len
      if (crc32c body).toNat ≠ crc then
        if frame_end = total then .ok (s, good_end) -- the length landed, the body did not
        else .error (wal_err ("checksum mismatch in record at byte " ++ toString good_end ++
          " of wal." ++ toString gen.toNat))
      else do
        let rec ← decode ox body
        let s ← apply s rec
        replay_from file frame_end s
termination_by file.length - good_end
decreasing_by
  unfold HEADER at *
  omega

variable {ox}

/-- Hand every complete record to `apply` in order, then truncate a torn tail. The file was
opened just before, so it is read from its start. -/
def replay (w : Wal) (apply : σ → Record ox → Outcome σ) (s : σ) : Outcome (σ × Wal) := do
  let (s, good_end) ← replay_from ox w.gen apply w.file 0 s
  if good_end < w.file.length then pure (s, { w with file := w.file.take good_end })
  else pure (s, w)

/-! ## One frame -/

variable {gen : UInt64} {apply : σ → Record ox → Outcome σ}

theorem frame_length (body : Bytes) : (frame body).length = HEADER + body.length := by
  unfold frame u32_le HEADER
  simp only [List.length_append, length_leBytes]
  omega

/-- What the loop sees of a file whose next frame starts at `good_end`. -/
theorem header_read {file before body rest : Bytes} (hfile : file = before ++ (frame body ++ rest)) :
    (file.drop before.length).take HEADER =
        u32_le body.length ++ u32_le (crc32c body).toNat ∧
      (file.drop (before.length + HEADER)).take body.length = body := by
  have hhead : (u32_le body.length ++ u32_le (crc32c body).toNat).length = HEADER := by
    rw [List.length_append, u32_le, u32_le, length_leBytes, length_leBytes]
    rfl
  have hfile' : file = before ++ ((u32_le body.length ++ u32_le (crc32c body).toNat) ++
      (body ++ rest)) := by
    rw [hfile, frame]
    simp only [List.append_assoc]
  have hdrop : file.drop before.length =
      (u32_le body.length ++ u32_le (crc32c body).toNat) ++ (body ++ rest) := by
    rw [hfile', List.drop_left]
  refine ⟨?_, ?_⟩
  · rw [hdrop, ← hhead, List.take_left]
  · rw [← List.drop_drop, hdrop, ← hhead, List.drop_left, List.take_left]

/-- The length and the checksum of a header. -/
theorem header_fields {body : Bytes} (h : body.length < 2 ^ 32) :
    ofLe ((u32_le body.length ++ u32_le (crc32c body).toNat).take 4) = body.length ∧
      ofLe ((u32_le body.length ++ u32_le (crc32c body).toNat).drop 4) =
        (crc32c body).toNat := by
  have hlen : (u32_le body.length).length = 4 := length_leBytes 4 _
  refine ⟨?_, ?_⟩
  · rw [← hlen, List.take_left, u32_le, ofLe_leBytes]
    exact Nat.mod_eq_of_lt h
  · rw [← hlen, List.drop_left, u32_le, ofLe_leBytes]
    exact Nat.mod_eq_of_lt (crc32c body).toNat_lt

/-- A complete frame: its record is decoded and applied, and the loop goes on behind it. -/
theorem replay_from_frame {file before body rest : Bytes} (s : σ)
    (hfile : file = before ++ (frame body ++ rest)) (hlen : body.length < 2 ^ 32) :
    replay_from ox gen apply file before.length s =
      decode ox body >>= fun rec => apply s rec >>= fun s =>
        replay_from ox gen apply file (before ++ frame body).length s := by
  obtain ⟨hheader, hbody⟩ := header_read hfile
  obtain ⟨hl, hc⟩ := header_fields hlen
  have htotal : file.length = before.length + (HEADER + body.length + rest.length) := by
    rw [hfile, List.length_append, List.length_append, frame_length]
  have hnext : before.length + HEADER + body.length = (before ++ frame body).length := by
    rw [List.length_append, frame_length, Nat.add_assoc]
  rw [replay_from]
  dsimp only
  rw [hheader, hl, hc, hbody, hnext, dif_neg (by omega), if_neg (by omega),
    if_neg (not_not.mpr rfl)]

/-- A frame cut short: the loop ends in front of it. -/
theorem replay_from_torn {file before body p : Bytes} (s : σ) (hfile : file = before ++ p)
    (hlen : body.length < 2 ^ 32) (hp : p <+: frame body) (hne : p ≠ frame body) :
    replay_from ox gen apply file before.length s = .ok (s, before.length) := by
  have htotal : file.length = before.length + p.length := by rw [hfile, List.length_append]
  have hshort : p.length < HEADER + body.length := by
    rw [← frame_length]
    exact lt_of_le_of_ne hp.length_le fun h => hne (hp.eq_of_length h)
  rw [replay_from]
  dsimp only
  by_cases hhead : file.length - before.length < HEADER
  · rw [dif_pos hhead]
  · -- The header is whole, so the length that it gives is not there.
    obtain ⟨rest, hrest⟩ := hp
    have hdrop : file.drop before.length = p := by rw [hfile, List.drop_left]
    have hread : (file.drop before.length).take HEADER =
        u32_le body.length ++ u32_le (crc32c body).toNat := by
      have hwhole := (header_read (rfl : before ++ (frame body ++ []) = _)).1
      rw [List.drop_left, List.append_nil, ← hrest] at hwhole
      rw [hdrop, ← hwhole, List.take_append_of_le_length (by omega)]
    rw [dif_neg hhead, hread, (header_fields hlen).1, if_pos (by omega)]

theorem replay_from_end {file : Bytes} (s : σ) :
    replay_from ox gen apply file file.length s = .ok (s, file.length) := by
  rw [replay_from]
  dsimp only
  rw [dif_pos (by unfold HEADER; omega)]

/-! ## A row of frames -/

/-- The bytes are the frames of the entries, in their order. -/
inductive Framed : List (Entry ox) → Bytes → Prop
  | nil : Framed [] []
  | cons {e : Entry ox} {body : Bytes} {entries : List (Entry ox)} {bytes : Bytes}
      (encoded : e.encode = .ok body) (fits : body.length < 2 ^ 32)
      (rest : Framed entries bytes) : Framed (e :: entries) (frame body ++ bytes)

namespace Framed

theorem append {entries more : List (Entry ox)} {bytes bytes' : Bytes} (h : Framed entries bytes)
    (h' : Framed more bytes') : Framed (entries ++ more) (bytes ++ bytes') := by
  induction h with
  | nil => exact h'
  | cons hencoded hfits _ ih =>
    rw [List.cons_append, List.append_assoc]
    exact .cons hencoded hfits ih

theorem unique {entries : List (Entry ox)} {bytes bytes' : Bytes} (h : Framed entries bytes)
    (h' : Framed entries bytes') : bytes = bytes' := by
  induction h generalizing bytes' with
  | nil =>
    cases h'
    rfl
  | cons hencoded _ _ ih =>
    cases h' with
    | cons hencoded' _ hrest' =>
      rw [hencoded] at hencoded'
      cases hencoded'
      rw [ih hrest']

/-- A prefix of the bytes holds the frames of the first entries, as many as fit in it, and
then a strict part of one more frame or nothing. -/
theorem cut {entries : List (Entry ox)} {bytes p : Bytes} (h : Framed entries bytes)
    (hp : p <+: bytes) :
    ∃ k ≤ entries.length, ∃ kept torn, Framed (entries.take k) kept ∧ p = kept ++ torn ∧
      (torn = [] ∨ ∃ body, body.length < 2 ^ 32 ∧ torn <+: frame body ∧ torn ≠ frame body) ∧
      ∀ j ≤ entries.length, ∀ b, Framed (entries.take j) b → b <+: p → j ≤ k := by
  induction h generalizing p with
  | nil =>
    rw [List.prefix_nil] at hp
    exact ⟨0, Nat.le_refl 0, [], [], .nil, hp, Or.inl rfl, fun j hj _ _ _ => hj⟩
  | @cons e body entries bytes hencoded hfits _ ih =>
    -- Every row of frames that starts with this entry starts with this frame.
    have hstarts : ∀ {j : Nat} {b : Bytes}, Framed ((e :: entries).take (j + 1)) b →
        ∃ b', Framed (entries.take j) b' ∧ b = frame body ++ b' := by
      intro j b hb
      rw [List.take_succ_cons] at hb
      cases hb with
      | cons hencoded' _ hrest =>
        rw [hencoded] at hencoded'
        cases hencoded'
        exact ⟨_, hrest, rfl⟩
    by_cases hwhole : frame body <+: p
    · obtain ⟨p', rfl⟩ := hwhole
      rw [List.prefix_append_right_inj] at hp
      obtain ⟨k, hk, kept, torn, hkept, rfl, htorn, hmax⟩ := ih hp
      refine ⟨k + 1, Nat.succ_le_succ hk, frame body ++ kept, torn, ?_, ?_, htorn, ?_⟩
      · rw [List.take_succ_cons]
        exact .cons hencoded hfits hkept
      · rw [List.append_assoc]
      · intro j hj b hb hpre
        match j with
        | 0 => exact Nat.zero_le _
        | j + 1 =>
          obtain ⟨b', hb', rfl⟩ := hstarts hb
          rw [List.prefix_append_right_inj] at hpre
          exact Nat.succ_le_succ (hmax j (Nat.le_of_succ_le_succ hj) b' hb' hpre)
    · have htorn : p <+: frame body :=
        (List.prefix_or_prefix_of_prefix hp (List.prefix_append _ _)).resolve_right hwhole
      refine ⟨0, Nat.zero_le _, [], p, .nil, rfl, Or.inr ⟨body, hfits, htorn, ?_⟩, ?_⟩
      · intro heq
        exact hwhole (heq ▸ List.prefix_refl _)
      · intro j _ b hb hpre
        match j with
        | 0 => exact Nat.le_refl 0
        | j + 1 =>
          obtain ⟨b', _, rfl⟩ := hstarts hb
          exact absurd ((List.prefix_append _ _).trans hpre) hwhole

end Framed

theorem replay_from_framed {entries : List (Entry ox)} {bytes : Bytes} (h : Framed entries bytes)
    (hc : ∀ e ∈ entries, e.Checked) :
    ∀ {file before rest : Bytes} (s : σ), file = before ++ (bytes ++ rest) →
      replay_from ox gen apply file before.length s =
        (entries.map Entry.record).foldlM apply s >>= fun s =>
          replay_from ox gen apply file (before ++ bytes).length s := by
  induction h with
  | nil =>
    intro file before rest s _
    rw [List.append_nil]
    rfl
  | @cons e body entries bytes hencoded hfits _ ih =>
    intro file before rest s hfile
    rw [List.forall_mem_cons] at hc
    rw [List.append_assoc] at hfile
    rw [replay_from_frame s hfile hfits, (decode_encode e hencoded).eq hc.1, ok_bind,
      List.map_cons, List.foldlM_cons, bind_assoc, ← List.append_assoc]
    congr 1
    funext s
    apply ih hc.2
    rw [hfile, List.append_assoc]

/-- A replay that goes through has read every frame back. -/
theorem checked_of_replay {entries : List (Entry ox)} {bytes : Bytes} (h : Framed entries bytes) :
    ∀ {file before rest : Bytes} {s : σ} {out : σ × Nat}, file = before ++ (bytes ++ rest) →
      replay_from ox gen apply file before.length s = .ok out → ∀ e ∈ entries, e.Checked := by
  induction h with
  | nil => exact fun _ _ _ h => nomatch h
  | @cons e body entries bytes hencoded hfits _ ih =>
    intro file before rest s out hfile hreplay
    rw [List.append_assoc] at hfile
    rw [replay_from_frame s hfile hfits] at hreplay
    obtain ⟨rec, hrec, hreplay⟩ := bind_eq_ok hreplay
    obtain ⟨s', -, hreplay⟩ := bind_eq_ok hreplay
    refine List.forall_mem_cons.mpr ⟨((decode_encode e hencoded).back hrec).1, ?_⟩
    exact ih (by rw [hfile, List.append_assoc]) hreplay

/-! ## The log -/

theorem fold_units (l : List (Record ox)) (f : Unit → Outcome α) :
    (l.foldlM (fun _ _ => .ok ()) () : Outcome Unit) >>= f = f () := by
  have hfold : (l.foldlM (fun _ _ => .ok ()) () : Outcome Unit) = .ok () := by
    induction l with
    | nil => rfl
    | cons rec l ih => exact ih
  rw [hfold, ok_bind]

/-- Append the entries one after the other, each at its time since the last sync. -/
def append_all (w : Wal) (entries : List (Entry ox × Nat)) : Outcome Wal :=
  entries.foldlM (fun w e => e.1.encode >>= fun body => w.append body e.2) w

/-- The records that replay makes of the entries. -/
def records (entries : List (Entry ox × Nat)) : List (Record ox) :=
  (entries.map Prod.fst).map Entry.record

/-- The log of a generation just created. -/
def created (gen : UInt64) (policy : SyncPolicy) : Wal := ⟨gen, [], policy, false⟩

/-- The log opened on what a crash left of its file. -/
def reopened (w : Wal) (file : Bytes) : Wal := { w with file, dirty := false }

theorem append_spec {w w' : Wal} {body : Bytes} {elapsed : Nat}
    (h : w.append body elapsed = .ok w') :
    body.length < 2 ^ 32 ∧ w'.file = w.file ++ frame body := by
  unfold append at h
  obtain ⟨file, hwritten, h⟩ := bind_eq_ok h
  unfold write_record at hwritten
  split at hwritten
  · rename_i hfits
    cases hwritten
    refine ⟨hfits, ?_⟩
    have hsync : ∀ w : Wal, w.sync.file = w.file := by
      intro w
      unfold sync
      split <;> rfl
    dsimp only at h
    split at h
    · cases h
      exact hsync _
    · split at h
      · cases h
        exact hsync _
      · cases h
        rfl
  · cases hwritten

theorem append_all_framed {entries : List (Entry ox × Nat)} {w w' : Wal}
    (h : w.append_all entries = .ok w') :
    ∃ bytes, Framed (entries.map Prod.fst) bytes ∧ w'.file = w.file ++ bytes := by
  induction entries generalizing w with
  | nil =>
    cases h
    exact ⟨[], .nil, (List.append_nil _).symm⟩
  | cons e entries ih =>
    unfold append_all at h
    rw [List.foldlM_cons] at h
    obtain ⟨w₁, hfirst, h⟩ := bind_eq_ok h
    obtain ⟨body, hencoded, hwritten⟩ := bind_eq_ok hfirst
    obtain ⟨hfits, hfile⟩ := append_spec hwritten
    obtain ⟨bytes, hbytes, hfile'⟩ := ih h
    refine ⟨frame body ++ bytes, .cons hencoded hfits hbytes, ?_⟩
    rw [hfile', hfile, List.append_assoc]

theorem append_all_take {entries : List (Entry ox × Nat)} {w w' : Wal}
    (h : w.append_all entries = .ok w') (k : Nat) :
    ∃ written, w.append_all (entries.take k) = .ok written := by
  unfold append_all at h
  rw [← List.take_append_drop k entries, List.foldlM_append] at h
  obtain ⟨written, hwritten, _⟩ := bind_eq_ok h
  exact ⟨written, hwritten⟩

/-- Frames and then a strict part of a frame: replay applies the records of the frames, and
keeps the frames. -/
theorem replay_framed {entries : List (Entry ox)} {kept torn : Bytes} (h : Framed entries kept)
    (hc : ∀ e ∈ entries, e.Checked)
    (htorn : torn = [] ∨
      ∃ body, body.length < 2 ^ 32 ∧ torn <+: frame body ∧ torn ≠ frame body)
    (w : Wal) (hfile : w.file = kept ++ torn) (s : σ) :
    w.replay apply s =
      (entries.map Entry.record).foldlM apply s >>= fun s => pure (s, { w with file := kept }) := by
  have hframes : replay_from ox w.gen apply w.file 0 s =
      (entries.map Entry.record).foldlM apply s >>= fun s =>
        replay_from ox w.gen apply w.file kept.length s := by
    have hstart : w.file = [] ++ (kept ++ torn) := hfile
    exact replay_from_framed h hc s hstart
  have hend : ∀ s, replay_from ox w.gen apply w.file kept.length s = .ok (s, kept.length) := by
    intro s
    rcases htorn with rfl | ⟨body, hfits, hpre, hne⟩
    · rw [List.append_nil] at hfile
      rw [← hfile]
      exact replay_from_end s
    · exact replay_from_torn s hfile hfits hpre hne
  rw [replay, hframes, bind_assoc]
  congr 1
  funext s
  rw [hend s, ok_bind]
  dsimp only
  split
  · rw [hfile, List.take_left]
  · -- Nothing was torn, so the file is the frames already.
    rename_i hshort
    rw [hfile, List.length_append] at hshort
    have hnone : torn = [] := List.eq_nil_of_length_eq_zero (by omega)
    rw [hnone, List.append_nil] at hfile
    rw [← hfile]

theorem replay_checked {entries : List (Entry ox)} {kept rest : Bytes} (h : Framed entries kept)
    {w : Wal} (hfile : w.file = kept ++ rest) {s : σ} {out : σ × Wal}
    (hreplay : w.replay apply s = .ok out) : ∀ e ∈ entries, e.Checked := by
  obtain ⟨_, hfrom, -⟩ := bind_eq_ok hreplay
  have hstart : w.file = [] ++ (kept ++ rest) := hfile
  exact checked_of_replay h hstart hfrom

/-- Replay of any prefix of a log applies the records of the longest row of frames in it, in
order, and leaves the file that appending just these entries would have left, just when the checks
of the library pass every text of these records. With the same proviso, what is appended to that
file is replayed after them. -/
theorem replay_cut (gen : UInt64) (policy : SyncPolicy) (entries : List (Entry ox × Nat))
    (w : Wal) (hwritten : (created gen policy).append_all entries = .ok w) (n : Nat) :
    ∃ k ≤ entries.length, ∃ written,
      (created gen policy).append_all (entries.take k) = .ok written ∧
      written.file <+: w.file.take n ∧
      (∀ j ≤ entries.length, ∀ w', (created gen policy).append_all (entries.take j) = .ok w' →
        w'.file <+: w.file.take n → j ≤ k) ∧
      ((∀ (σ : Type) (apply : σ → Record ox → Outcome σ) (s : σ),
        (w.reopened (w.file.take n)).replay apply s =
          (records (entries.take k)).foldlM apply s >>= fun s =>
            pure (s, w.reopened written.file)) ↔ ∀ e ∈ entries.take k, e.1.Checked) ∧
      ∀ more w', (w.reopened written.file).append_all more = .ok w' →
        ((∀ (σ : Type) (apply : σ → Record ox → Outcome σ) (s : σ),
          (w'.reopened w'.file).replay apply s =
            (records (entries.take k ++ more)).foldlM apply s >>= fun s =>
              pure (s, w'.reopened w'.file)) ↔ ∀ e ∈ entries.take k ++ more, e.1.Checked) := by
  obtain ⟨bytes, hbytes, hfile⟩ := append_all_framed hwritten
  rw [created, List.nil_append] at hfile
  have hprefix : w.file.take n <+: bytes := hfile ▸ List.take_prefix n w.file
  obtain ⟨k, hk, kept, torn, hkept, hcut, htorn, hmax⟩ := hbytes.cut hprefix
  rw [List.length_map] at hk hmax
  obtain ⟨written, htake⟩ := append_all_take hwritten k
  -- The frames of the first entries are the bytes that appending them writes.
  have hfirst : ∀ {j : Nat} {w' : Wal}, (created gen policy).append_all (entries.take j) = .ok w' →
      Framed ((entries.map Prod.fst).take j) w'.file := by
    intro j w' hw'
    obtain ⟨b, hb, hfile'⟩ := append_all_framed hw'
    rw [created, List.nil_append] at hfile'
    rw [hfile', ← List.map_take]
    exact hb
  have hsame : written.file = kept := (hfirst htake).unique hkept
  rw [← List.map_take] at hkept
  refine ⟨k, hk, written, htake, ?_, ?_, ?_, ?_⟩
  · rw [hsame, hcut]
    exact List.prefix_append _ _
  · intro j hj w' hw' hpre
    exact hmax j hj w'.file (hfirst hw') hpre
  · refine ⟨fun hreplay => ?_, fun hc σ apply s => ?_⟩
    · have hgood := hreplay Unit (fun _ _ => .ok ()) ()
      rw [fold_units] at hgood
      exact List.forall_mem_map.mp (replay_checked hkept hcut hgood)
    · rw [replay_framed hkept (List.forall_mem_map.mpr hc) htorn (w.reopened (w.file.take n)) hcut s,
        hsame]
      rfl
  · intro more w' hmore
    obtain ⟨b, hb, hfile'⟩ := append_all_framed hmore
    have hall := hkept.append hb
    rw [← List.map_append] at hall
    have hwhole : (w'.reopened w'.file).file = (kept ++ b) ++ [] := by
      rw [List.append_nil, ← hsame]
      exact hfile'
    refine ⟨fun hreplay => ?_, fun hc σ apply s => ?_⟩
    · have hgood := hreplay Unit (fun _ _ => .ok ()) ()
      rw [fold_units] at hgood
      exact List.forall_mem_map.mp (replay_checked hall hwhole hgood)
    · rw [replay_framed hall (List.forall_mem_map.mpr hc) (Or.inl rfl) (w'.reopened w'.file) hwhole s]
      rw [List.append_nil] at hwhole
      rw [← hwhole]
      rfl

/-- An input and the marker of its tick. -/
def input_tick : List (Entry .plain × Nat) :=
  [(.Input ⟨1, (20, 21, 22), 1, 0⟩, 0), (.TickCommit 1 1, 0)]

def input_frame : Bytes := frame (encode_input ⟨1, (20, 21, 22), 1, 0⟩)

/-- The log of the two, cut inside the second frame, is replayed up to that frame. -/
theorem cut_marker_replay :
    ∃ w w', (created 0 .EveryBatch).append_all input_tick = .ok w ∧
      (w.reopened (w.file.take 60)).replay
        (fun seen (rec : Record .plain) => .ok (seen ++ [rec])) [] =
          .ok ((records input_tick).take 1, w') := by
  have hall : (created 0 .EveryBatch).append_all input_tick =
      .ok ⟨0, input_frame ++ frame (encode_tick_commit 1 1), .EveryBatch, false⟩ := rfl
  have hone : (created 0 .EveryBatch).append_all (input_tick.take 1) =
      .ok ⟨0, input_frame, .EveryBatch, false⟩ := rfl
  have hlen : input_frame.length = 57 := rfl
  obtain ⟨k, hk, written, htake, hpre, hmax, hreplay, _⟩ := replay_cut 0 .EveryBatch _ _ hall 60
  match k, hk with
  | 0, _ =>
    have hfits : input_frame <+: (input_frame ++ frame (encode_tick_commit 1 1)).take 60 :=
      List.prefix_take_iff.mpr ⟨List.prefix_append _ _, by omega⟩
    exact absurd (hmax 1 (by decide) _ hone hfits) (by decide)
  | 1, _ =>
    refine ⟨_, _, hall, ((hreplay.mpr fun e he => ?_) _ _ _).trans rfl⟩
    rw [List.mem_singleton.mp he]
    trivial
  | 2, _ =>
    cases hall.symm.trans htake
    have hlong := hpre.length_le
    rw [List.length_take, List.length_append, hlen] at hlong
    have htick : (frame (encode_tick_commit 1 1)).length = 25 := rfl
    omega

/-- A batch whose dictionary section names the graph of a document. -/
def graph_log : List (Entry .plain × Nat) := [(.Batch graph_batch, 0)]

/-- The batch is appended, and the replay of the whole log is an error. -/
theorem graph_log_refused :
    ∃ w err, (created 0 .EveryBatch).append_all graph_log = .ok w ∧
      (w.reopened w.file).replay (fun seen (rec : Record .plain) => .ok (seen ++ [rec])) [] =
        .error err := by
  have hok : ((created 0 .EveryBatch).append_all graph_log).isOk = true := by decide +kernel
  cases h : (created 0 .EveryBatch).append_all graph_log with
  | error e =>
    rw [h] at hok
    cases hok
  | ok w =>
    cases hreplay : (w.reopened w.file).replay
        (fun seen (rec : Record .plain) => .ok (seen ++ [rec])) [] with
    | error err => exact ⟨w, err, rfl, hreplay⟩
    | ok out =>
      obtain ⟨bytes, hbytes, hfile⟩ := append_all_framed h
      have hwhole : (w.reopened w.file).file = bytes ++ [] := by
        rw [List.append_nil]
        exact hfile
      exact absurd (replay_checked hbytes hwhole hreplay _ (List.mem_singleton_self _))
        graph_batch_unchecked

end Wal

end horndb.storage
