-- A dictionary base is written beside its place and renamed into it, over file operations that may
-- each fail: a write that succeeds opens as what was written, and a write that is refused
-- leaves the file that was there.
import HornDb.BaseFile

open HornDb.Lib.Wire

namespace horndb.storage.base_file

/-! ## Files -/

/-- A file by its directory and its name. -/
abbrev FileName := Option String × String

structure Path where
  parent : Option String
  file_name : Option String

/-- The files, the operations so far, and the counter of temporary names. -/
structure Fs where
  files : FileName → Option Bytes
  ops : Nat
  tmp_counter : Nat

/-- The process, which operations fail and what they leave in the file they write, and the
length that a file may have. -/
structure Env where
  pid : Nat
  fault : Nat → Option (String × Bytes)
  limit : Nat
  limit_lt : limit < 2 ^ 63

/-- A program over the files. It keeps what it has done when it stops. -/
def Io (α : Type) := Fs → Outcome α × Fs

namespace Io

variable {α β : Type}

def pure (a : α) : Io α := fun fs => (.ok a, fs)

def bind (x : Io α) (f : α → Io β) : Io β := fun fs =>
  match x fs with
  | (.ok a, fs) => f a fs
  | (.error e, fs) => (.error e, fs)

instance : Monad Io where
  pure := Io.pure
  bind := Io.bind

def stop (e : Halt) : Io α := fun fs => (.error e, fs)

def of (o : Outcome α) : Io α := fun fs => (o, fs)

end Io

def Fs.put (fs : Fs) (name : FileName) (content : Option Bytes) : Fs :=
  { fs with files := fun other => if other = name then content else fs.files other }

def Fs.next (fs : Fs) : Fs := { fs with ops := fs.ops + 1 }

def io_error (msg : String) : Halt := .error (.Io msg)

/-- An operation on the file `name` that changes what is in it. -/
def attempt (env : Env) (name : FileName) (change : Bytes → Bytes) : Io Unit := fun fs =>
  match env.fault fs.ops with
  | some (msg, left) => (.error (io_error msg), fs.next.put name (some left))
  | none =>
    let content := change ((fs.files name).getD [])
    if content.length ≤ env.limit then (.ok (), fs.next.put name (some content))
    else (.error (io_error "File too large"), fs.next)

def create (env : Env) (name : FileName) : Io Unit := attempt env name fun _ => []

def write_all (env : Env) (name : FileName) (bytes : Bytes) : Io Unit :=
  attempt env name fun content => content ++ bytes

/-- Bytes that are written over the start of the file. -/
def write_front (env : Env) (name : FileName) (bytes : Bytes) : Io Unit :=
  attempt env name fun content => bytes ++ content.drop bytes.length

def flush (env : Env) (name : FileName) : Io Unit := attempt env name id

def sync_all (env : Env) (name : FileName) : Io Unit := attempt env name id

def stream_position (env : Env) (name : FileName) : Io Nat := do
  attempt env name id
  fun fs => (.ok ((fs.files name).getD []).length, fs)

/-- Nothing is moved when the rename fails. -/
def rename (env : Env) (tmp path : FileName) : Io Unit := fun fs =>
  match env.fault fs.ops with
  | some (msg, _) => (.error (io_error msg), fs.next)
  | none => (.ok (), (fs.next.put path (fs.files tmp)).put tmp none)

def sync_dir (env : Env) : Io Unit := fun fs =>
  match env.fault fs.ops with
  | some (msg, _) => (.error (io_error msg), fs.next)
  | none => (.ok (), fs.next)

/-- The outcome is not looked at. -/
def remove_file (env : Env) (name : FileName) : Io Unit := fun fs =>
  match env.fault fs.ops with
  | some _ => (.ok (), fs.next)
  | none => (.ok (), fs.next.put name none)

/-! ## Writing -/

structure BaseStats where
  slots : Nat
  freed : Nat
  arena_bytes : Nat
  fst_bytes : Nat
  total_bytes : Nat
deriving DecidableEq, Repr

/-- One slot that is handed to the writer: its bytes and an id that has a kind, a tombstone, or an
error. -/
abbrev SlotIn := Except StorageError (Option (Bytes × {id : TermId // (TermId.kind id).isSome = true}))

def SlotIn.outcome : SlotIn → Outcome MappedBase.Slot
  | .ok slot => .ok (slot.map fun e => (e.1, e.2.1))
  | .error e => .error (.error e)

/-- The magic bytes, the version, four bytes of nothing, and six numbers. -/
def header (n_slots freed arena_len fst_len next_bnode_doc_tag : Nat) : Bytes :=
  MAGIC ++ (leBytes 4 VERSION ++ (List.replicate 4 0 ++
    [n_slots, freed, (n_slots + 1) * 8, arena_len, fst_len, next_bnode_doc_tag].flatMap
      (leBytes 8)))

def sorted (keys : List (Bytes × TermId)) : List (Bytes × TermId) :=
  keys.mergeSort fun a b => a.1 ≤ b.1

/-- All of the file, under its temporary name. -/
def write_tmp (fst : FstFile) (env : Env) (tmp : FileName) (slots : List SlotIn)
    (next_bnode_doc_tag : UInt64) : Io BaseStats := do
  let w ← Io.of ((slots.map SlotIn.outcome).foldlM MappedBase.write_slot ⟨[0], [], 0, 0⟩)
  let n_slots := w.offsets.length - 1
  create env tmp
  write_all env tmp (List.replicate HEADER_LEN 0)
  w.offsets.forM fun off => write_all env tmp (leBytes 8 off)
  w.keys.forM fun key => write_all env tmp key.1
  match fst.build (sorted w.keys) with
  | .error e => Io.stop (bad e)
  | .ok map => do
    write_all env tmp map
    let position ← stream_position env tmp
    let fst_start := HEADER_LEN + (n_slots + 1) * 8 + w.arena_len
    let fst_len := position - fst_start
    write_front env tmp
      (header n_slots w.freed w.arena_len fst_len next_bnode_doc_tag.toNat)
    flush env tmp
    sync_all env tmp
    pure ⟨n_slots, w.freed, w.arena_len, fst_len, fst_start + fst_len⟩

def write_via (fst : FstFile) (env : Env) (tmp path : FileName) (slots : List SlotIn)
    (next_bnode_doc_tag : UInt64) : Io BaseStats := do
  let stats ← write_tmp fst env tmp slots next_bnode_doc_tag
  rename env tmp path
  sync_dir env
  pure stats

def tmp_name (env : Env) (name : String) (counter : Nat) : String :=
  name ++ ("." ++ toString env.pid ++ "." ++ toString counter ++ ".tmp")

/-- The temporary file is removed when the write fails. -/
def write (fst : FstFile) (env : Env) (path : Path) (slots : List SlotIn)
    (next_bnode_doc_tag : UInt64) : Io BaseStats :=
  match path.file_name with
  | none => Io.stop (bad "path has no file name")
  | some name => fun fs =>
    let tmp := (path.parent, tmp_name env name fs.tmp_counter)
    let fs := { fs with tmp_counter := fs.tmp_counter + 1 }
    match write_via fst env tmp (path.parent, name) slots next_bnode_doc_tag fs with
    | (.ok stats, fs) => (.ok stats, fs)
    | (.error e, fs) => (.error e, (remove_file env tmp fs).2)

/-! ## Programs over one file -/

namespace Io

variable {α β : Type}

theorem bind_ok {x : Io α} {f : α → Io β} {b : β} {fs fs' : Fs}
    (h : (x >>= f) fs = (.ok b, fs')) : ∃ a fs₁, x fs = (.ok a, fs₁) ∧ f a fs₁ = (.ok b, fs') := by
  change Io.bind x f fs = _ at h
  unfold Io.bind at h
  split at h
  · rename_i a fs₁ hx
    exact ⟨a, fs₁, hx, h⟩
  · cases h

theorem bind_eq {x : Io α} {a : α} {fs fs₁ : Fs} (h : x fs = (.ok a, fs₁)) (f : α → Io β) :
    (x >>= f) fs = f a fs₁ := by
  change Io.bind x f fs = _
  unfold Io.bind
  rw [h]

end Io

/-- The program does not panic, and leaves all files but one. -/
def Tame {α : Type} (name : FileName) (x : Io α) : Prop :=
  ∀ fs, NoPanic (x fs).1 ∧ ∀ other, other ≠ name → (x fs).2.files other = fs.files other

namespace Tame

variable {α β : Type} {name : FileName}

theorem pure (a : α) : Tame name (Pure.pure a : Io α) := fun _ => ⟨.ok a, fun _ _ => rfl⟩

theorem stop (e : StorageError) : Tame name (Io.stop (.error e) : Io α) :=
  fun _ => ⟨nofun, fun _ _ => rfl⟩

theorem of {o : Outcome α} (h : NoPanic o) : Tame name (Io.of o) := fun _ => ⟨h, fun _ _ => rfl⟩

theorem bind {x : Io α} {f : α → Io β} (h : Tame name x) (hf : ∀ a, Tame name (f a)) :
    Tame name (x >>= f) := by
  intro fs
  obtain ⟨hpanic, hkeeps⟩ := h fs
  change NoPanic (Io.bind x f fs).1 ∧ ∀ other, other ≠ name → (Io.bind x f fs).2.files other = _
  unfold Io.bind
  cases hx : x fs with
  | mk o fs₁ =>
    rw [hx] at hpanic hkeeps
    cases o with
    | ok a =>
      obtain ⟨hpanic', hkeeps'⟩ := hf a fs₁
      exact ⟨hpanic', fun other hne => (hkeeps' other hne).trans (hkeeps other hne)⟩
    | error e => exact ⟨fun he => hpanic (by cases he; rfl), hkeeps⟩

theorem forM {f : α → Io Unit} (h : ∀ a, Tame name (f a)) (l : List α) : Tame name (l.forM f) := by
  induction l with
  | nil => exact pure ()
  | cons a l ih =>
    exact bind (h a) fun _ => ih

end Tame

theorem put_files (fs : Fs) (name : FileName) (content : Option Bytes) :
    (fs.put name content).files name = content := if_pos rfl

theorem put_other (fs : Fs) {name other : FileName} (content : Option Bytes) (h : other ≠ name) :
    (fs.put name content).files other = fs.files other := if_neg h

theorem tame_attempt (env : Env) (name : FileName) (change : Bytes → Bytes) :
    Tame name (attempt env name change) := by
  intro fs
  unfold attempt
  split
  · exact ⟨nofun, fun other hne => put_other _ _ hne⟩
  · dsimp only
    split
    · exact ⟨.ok _, fun other hne => put_other _ _ hne⟩
    · exact ⟨nofun, fun _ _ => rfl⟩

theorem tame_position (env : Env) (name : FileName) : Tame name (stream_position env name) :=
  (tame_attempt env name id).bind fun _ _ => ⟨.ok _, fun _ _ => rfl⟩

/-- No id that is handed to the writer is without a kind. -/
theorem no_panic_write_slot (w : MappedBase.Written) (slot : SlotIn) :
    NoPanic (MappedBase.write_slot w slot.outcome) := by
  cases slot with
  | error e => exact nofun
  | ok slot =>
    cases slot with
    | none => exact .ok _
    | some e =>
      obtain ⟨bytes, id, hkind⟩ := e
      obtain ⟨kind, hk⟩ := Option.isSome_iff_exists.mp hkind
      unfold SlotIn.outcome MappedBase.write_slot
      simp only [bind, Except.bind, Option.map_some, hk]
      cases kind with
      | InlineInt => exact nofun
      | _ => exact .ok _

theorem no_panic_write_slots (slots : List SlotIn) (w : MappedBase.Written) :
    NoPanic ((slots.map SlotIn.outcome).foldlM MappedBase.write_slot w) := by
  induction slots generalizing w with
  | nil => exact .ok w
  | cons slot slots ih =>
    rw [List.map_cons, List.foldlM_cons]
    exact (no_panic_write_slot w slot).bind fun w' _ => ih w'

theorem tame_write_tmp (fst : FstFile) (env : Env) (tmp : FileName) (slots : List SlotIn)
    (tag : UInt64) : Tame tmp (write_tmp fst env tmp slots tag) := by
  refine (Tame.of (no_panic_write_slots slots _)).bind fun w => ?_
  refine (tame_attempt env tmp _).bind fun _ => (tame_attempt env tmp _).bind fun _ => ?_
  refine (Tame.forM (fun off => tame_attempt env tmp _) _).bind fun _ => ?_
  refine (Tame.forM (fun key => tame_attempt env tmp _) _).bind fun _ => ?_
  cases fst.build (sorted w.keys) with
  | error e => exact Tame.stop _
  | ok map =>
    refine (tame_attempt env tmp _).bind fun _ => (tame_position env tmp).bind fun position => ?_
    exact (tame_attempt env tmp _).bind fun _ => (tame_attempt env tmp _).bind fun _ =>
      (tame_attempt env tmp _).bind fun _ => Tame.pure _

/-! ## What is in the temporary file -/

/-- The bytes of a file, none of a file that is not there. -/
def content (fs : Fs) (name : FileName) : Bytes := (fs.files name).getD []

theorem attempt_ok {env : Env} {name : FileName} {change : Bytes → Bytes} {fs fs' : Fs} {u : Unit}
    (h : attempt env name change fs = (.ok u, fs')) :
    fs'.files name = some (change (content fs name)) ∧
      (change (content fs name)).length ≤ env.limit := by
  unfold attempt at h
  split at h
  · cases h
  · dsimp only at h
    split at h
    · rename_i hlen
      cases h
      exact ⟨put_files _ _ _, hlen⟩
    · cases h

theorem attempt_content {env : Env} {name : FileName} {change : Bytes → Bytes} {fs fs' : Fs}
    {u : Unit} (h : attempt env name change fs = (.ok u, fs')) :
    content fs' name = change (content fs name) := by
  rw [content, (attempt_ok h).1]
  rfl

theorem writes_ok {α : Type} {env : Env} {name : FileName} (f : α → Bytes) :
    ∀ {l : List α} {fs fs' : Fs} {u : Unit},
      (l.forM fun a => write_all env name (f a)) fs = (.ok u, fs') →
        content fs' name = content fs name ++ l.flatMap f
  | [], fs, fs', u, h => by
    cases h
    rw [List.flatMap_nil, List.append_nil]
  | a :: l, fs, fs', u, h => by
    obtain ⟨_, fs₁, hfirst, hrest⟩ := Io.bind_ok h
    rw [writes_ok f hrest, attempt_content hfirst, List.append_assoc, List.flatMap_cons]

theorem length_header (n_slots freed arena_len fst_len tag : Nat) :
    (header n_slots freed arena_len fst_len tag).length = 64 := by
  simp [header, MAGIC, length_leBytes]

/-- The sections behind the header. -/
def sections (w : MappedBase.Written) (map : Bytes) : Bytes :=
  w.offsets.flatMap (leBytes 8) ++ (w.keys.flatMap (·.1) ++ map)

/-- A file that was written: what the slots came to, the bytes of the map, and the whole. -/
structure Image (fst : FstFile) (slots : List SlotIn) (tag : UInt64) (w : MappedBase.Written)
    (map bytes : Bytes) : Prop where
  written : (slots.map SlotIn.outcome).foldlM MappedBase.write_slot ⟨[0], [], 0, 0⟩ = .ok w
  built : fst.build (sorted w.keys) = .ok map
  bytes_eq : bytes = header (w.offsets.length - 1) w.freed w.arena_len
    ((64 + (sections w map).length) - (64 + (w.offsets.length - 1 + 1) * 8 + w.arena_len))
    tag.toNat ++ sections w map

theorem write_tmp_image {fst : FstFile} {env : Env} {tmp : FileName} {slots : List SlotIn}
    {tag : UInt64} {fs fs' : Fs} {stats : BaseStats}
    (h : write_tmp fst env tmp slots tag fs = (.ok stats, fs')) :
    ∃ w map bytes, Image fst slots tag w map bytes ∧ fs'.files tmp = some bytes ∧
      bytes.length ≤ env.limit := by
  obtain ⟨w, fs₁, hw, h⟩ := Io.bind_ok h
  obtain ⟨hwritten, rfl⟩ := Prod.mk.inj hw
  obtain ⟨_, fs₂, hcreate, h⟩ := Io.bind_ok h
  obtain ⟨_, fs₃, hzeros, h⟩ := Io.bind_ok h
  obtain ⟨_, fs₄, htable, h⟩ := Io.bind_ok h
  obtain ⟨_, fs₅, harena, h⟩ := Io.bind_ok h
  cases hbuilt : fst.build (sorted w.keys) with
  | error e =>
    rw [hbuilt] at h
    cases h
  | ok map =>
    rw [hbuilt] at h
    obtain ⟨_, fs₆, hmap, h⟩ := Io.bind_ok h
    obtain ⟨position, fs₇, hposition, h⟩ := Io.bind_ok h
    obtain ⟨_, fs₈, hheader, h⟩ := Io.bind_ok h
    obtain ⟨_, fs₉, hflush, h⟩ := Io.bind_ok h
    obtain ⟨_, fs₁₀, hsync, h⟩ := Io.bind_ok h
    cases h
    obtain ⟨_, fs₁₁, hid, hlen⟩ := Io.bind_ok hposition
    obtain ⟨hpos, hstate⟩ := Prod.mk.inj hlen
    cases hstate
    have hbody : content fs₆ tmp = List.replicate 64 0 ++ sections w map := by
      rw [attempt_content hmap, writes_ok _ harena, writes_ok _ htable, attempt_content hzeros,
        attempt_content hcreate]
      simp [sections, HEADER_LEN]
    have hposition : position = 64 + (sections w map).length := by
      rw [← Except.ok.inj hpos]
      change (content fs₇ tmp).length = _
      rw [attempt_content hid, id, hbody, List.length_append, List.length_replicate]
    obtain ⟨hfile, hfits⟩ := attempt_ok hsync
    rw [attempt_content hflush, attempt_content hheader, attempt_content hid] at hfile hfits
    refine ⟨w, map, _, ⟨hwritten, hbuilt, ?_⟩, hfile, hfits⟩
    rw [id, id, id, hbody, length_header, hposition]
    rw [List.drop_append_of_le_length (by simp), List.drop_eq_nil_of_le (by simp), List.nil_append]
    rfl

/-! ## Writes that no operation stops -/

def Env.Quiet (env : Env) : Prop := ∀ n, env.fault n = none

/-- The program succeeds when the file has room, and makes the file longer by `n`. It is run when
the file has the length `low` at least. -/
def Adds {α : Type} (env : Env) (name : FileName) (low : Nat) (x : Io α) (n : Nat) : Prop :=
  ∀ fs, low ≤ (content fs name).length → (content fs name).length + n ≤ env.limit →
    ∃ a fs', x fs = (.ok a, fs') ∧ (content fs' name).length = (content fs name).length + n

namespace Adds

variable {α β : Type} {env : Env} {name : FileName} {low : Nat}

theorem pure (a : α) : Adds env name low (Pure.pure a : Io α) 0 :=
  fun fs _ _ => ⟨a, fs, rfl, rfl⟩

theorem bind {x : Io α} {f : α → Io β} {n m : Nat} (h : Adds env name low x n)
    (hf : ∀ a, Adds env name (low + n) (f a) m) : Adds env name low (x >>= f) (n + m) := by
  intro fs hlow hroom
  obtain ⟨a, fs₁, hx, hlen⟩ := h fs hlow (by omega)
  obtain ⟨b, fs₂, hb, hlen'⟩ := hf a fs₁ (by omega) (by omega)
  exact ⟨b, fs₂, (Io.bind_eq hx f).trans hb, by omega⟩

theorem attempt (h : env.Quiet) {change : Bytes → Bytes} {n : Nat}
    (hlen : ∀ c, low ≤ c.length → (change c).length = c.length + n) :
    Adds env name low (attempt env name change) n := by
  intro fs hlow hroom
  have hfits : (change (content fs name)).length ≤ env.limit := by
    rw [hlen _ hlow]
    exact hroom
  have hrun : base_file.attempt env name change fs =
      (.ok (), fs.next.put name (some (change ((fs.files name).getD [])))) := by
    unfold base_file.attempt
    rw [h]
    exact if_pos hfits
  refine ⟨(), _, hrun, ?_⟩
  rw [attempt_content hrun, hlen _ hlow]

theorem write_all (h : env.Quiet) (bytes : Bytes) :
    Adds env name low (write_all env name bytes) bytes.length :=
  attempt h fun _ _ => List.length_append

theorem forM (h : env.Quiet) (f : α → Bytes) : ∀ (l : List α) {low : Nat},
    Adds env name low (l.forM fun a => base_file.write_all env name (f a)) (l.flatMap f).length
  | [], _ => pure ()
  | a :: l, _ => by
    rw [List.flatMap_cons, List.length_append]
    exact (write_all h (f a)).bind fun _ => forM h f l

theorem position (h : env.Quiet) : Adds env name low (stream_position env name) 0 := by
  have hlength : Adds env name (low + 0)
      (fun fs => (.ok ((fs.files name).getD []).length, fs) : Io Nat) 0 :=
    fun fs _ _ => ⟨_, fs, rfl, rfl⟩
  exact (@attempt _ _ _ h id 0 fun _ _ => rfl).bind fun _ => hlength

end Adds

theorem write_tmp_quiet {fst : FstFile} {env : Env} (h : env.Quiet) {tmp : FileName}
    {slots : List SlotIn} {w : MappedBase.Written} {map : Bytes}
    (hw : (slots.map SlotIn.outcome).foldlM MappedBase.write_slot ⟨[0], [], 0, 0⟩ = .ok w)
    (hmap : fst.build (sorted w.keys) = .ok map)
    (hfits : 64 + (sections w map).length ≤ env.limit) (tag : UInt64) (fs : Fs) :
    ∃ stats fs', write_tmp fst env tmp slots tag fs = (.ok stats, fs') := by
  have hwritten : Io.of ((slots.map SlotIn.outcome).foldlM MappedBase.write_slot
      ⟨[0], [], 0, 0⟩) fs = (.ok w, fs) := by rw [Io.of, hw]
  have hcreate : create env tmp fs = (.ok (), fs.next.put tmp (some [])) := by
    unfold create attempt
    rw [h]
    exact if_pos (Nat.zero_le _)
  have hempty : content (fs.next.put tmp (some [])) tmp = [] := attempt_content hcreate
  suffices hrest : ∀ n, n = 64 + (sections w map).length → ∀ fst_start, Adds env tmp 0 (do
      write_all env tmp (List.replicate HEADER_LEN 0)
      w.offsets.forM fun off => write_all env tmp (leBytes 8 off)
      w.keys.forM fun key => write_all env tmp key.1
      write_all env tmp map
      let position ← stream_position env tmp
      write_front env tmp (header (w.offsets.length - 1) w.freed w.arena_len
        (position - fst_start) tag.toNat)
      flush env tmp
      sync_all env tmp
      pure (⟨w.offsets.length - 1, w.freed, w.arena_len, position - fst_start,
        fst_start + (position - fst_start)⟩ : BaseStats)) n by
    obtain ⟨stats, fs', hrun, -⟩ := hrest _ rfl
      (HEADER_LEN + (w.offsets.length - 1 + 1) * 8 + w.arena_len) (fs.next.put tmp (some []))
      (Nat.zero_le _) (by rw [hempty, List.length_nil]; omega)
    refine ⟨stats, fs', (Io.bind_eq hwritten _).trans ((Io.bind_eq hcreate _).trans ?_)⟩
    rw [hmap]
    exact hrun
  intro n hn fst_start
  have hsum : n = (List.replicate HEADER_LEN (0 : UInt8)).length +
      ((w.offsets.flatMap (leBytes 8)).length +
        ((w.keys.flatMap (·.1)).length + (map.length + (0 + (0 + (0 + (0 + 0))))))) := by
    rw [hn, sections, List.length_append, List.length_append, List.length_replicate]
    rfl
  rw [hsum]
  refine (Adds.write_all h _).bind fun _ => (Adds.forM h _ _).bind fun _ => ?_
  refine (Adds.forM h _ _).bind fun _ => (Adds.write_all h _).bind fun _ => ?_
  refine (Adds.position h).bind fun position => ?_
  refine (Adds.attempt h fun c hlow => ?_).bind fun _ => ?_
  · rw [List.length_append, List.length_drop, length_header]
    rw [List.length_replicate] at hlow
    unfold HEADER_LEN at hlow
    omega
  · refine (@Adds.attempt _ _ _ h id 0 fun _ _ => rfl).bind fun _ => ?_
    exact (@Adds.attempt _ _ _ h id 0 fun _ _ => rfl).bind fun _ => Adds.pure _

end horndb.storage.base_file
