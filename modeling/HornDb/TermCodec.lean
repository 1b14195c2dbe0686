-- The canonical bytes of a term: a kind tag, then the texts of the term, all but the last
-- with their lengths. Decoding reads them back, and no bytes make it panic.
import HornDb.Rdf
import HornDb.Varint

open HornDb.Lib.Wire

namespace horndb.storage

def KIND_URI : UInt8 := 0x00
def KIND_BLANK : UInt8 := 0x01
def KIND_PLAIN : UInt8 := 0x02
def KIND_LANG : UInt8 := 0x03
def KIND_TYPED : UInt8 := 0x04
def KIND_INLINE_INT : UInt8 := 0x05
def KIND_TRIPLE : UInt8 := 0x06
def KIND_DIR_LANG : UInt8 := 0x07

def snap_err (msg : String) : Halt := .error (.Snapshot msg)

/-- The error of a callee as an error of the snapshot. -/
def map_snap {α : Type} : Except String α → Outcome α
  | .ok a => .ok a
  | .error msg => .error (snap_err msg)

def ok_or_snap {α : Type} (o : Option α) (msg : String) : Outcome α :=
  match o with
  | some a => .ok a
  | none => .error (snap_err msg)

/-! ## Slices -/

/-- The bytes from `start` on. It panics when `start` is past the end. -/
def slice_from (bytes : Bytes) (start : Nat) : Outcome Bytes :=
  if start ≤ bytes.length then .ok (bytes.drop start) else .error .panic

/-- The bytes before `stop`. It panics when `stop` is past the end. -/
def slice_to (bytes : Bytes) (stop : Nat) : Outcome Bytes :=
  if stop ≤ bytes.length then .ok (bytes.take stop) else .error .panic

/-- The bytes of a range, none when it is not within them. -/
def get_range (bytes : Bytes) (start stop : Nat) : Option {s : Bytes // s.length ≤ bytes.length} :=
  if start ≤ stop ∧ stop ≤ bytes.length then
    some ⟨(bytes.take stop).drop start, by
      rw [List.length_drop, List.length_take]
      omega⟩
  else none

/-- The sum of two addresses, none when it does not fit one. -/
def checked_add (a b : Nat) : Option Nat := if a + b < 2 ^ 64 then some (a + b) else none

variable {ox : Oxrdf}

/-! ## Encoding -/

def encode_named_node (n : NamedNode ox) : Bytes := KIND_URI :: as_bytes n.as_str

def encode_blank_node (b : BlankNode ox) : Bytes := KIND_BLANK :: as_bytes b.as_str

def direction_byte : BaseDirection → UInt8
  | .Ltr => 0
  | .Rtl => 1

def encode_literal : Literal ox → Bytes
  | .DirectionalLanguageTagged value lang dir =>
    KIND_DIR_LANG :: direction_byte dir ::
      (write_uvarint (as_bytes lang.as_str).length ++ (as_bytes lang.as_str ++ as_bytes value))
  | .LanguageTagged value lang =>
    KIND_LANG ::
      (write_uvarint (as_bytes lang.as_str).length ++ (as_bytes lang.as_str ++ as_bytes value))
  | .Simple value => KIND_PLAIN :: as_bytes value
  | .Typed value dt _ =>
    KIND_TYPED ::
      (write_uvarint (as_bytes dt.as_str).length ++ (as_bytes dt.as_str ++ as_bytes value))

/-- The bytes of a subject are those of the term that it is. -/
def encode_subject : NamedOrBlankNode ox → Bytes
  | .NamedNode n => encode_named_node n
  | .BlankNode b => encode_blank_node b

def encode_term : Term ox → Bytes
  | .NamedNode n => encode_named_node n
  | .BlankNode b => encode_blank_node b
  | .Literal lit => encode_literal lit
  | .Triple s p o =>
    KIND_TRIPLE ::
      (write_uvarint (encode_subject s).length ++ (encode_subject s ++
        (write_uvarint (encode_named_node p).length ++ (encode_named_node p ++ encode_term o))))

def encode_inline_int (value : Int32) : Bytes :=
  KIND_INLINE_INT :: write_uvarint (zigzag_encode value).toNat

/-! ## Decoding -/

variable (ox)

def decode_uri (rest : Bytes) : Outcome (Term ox × Bytes) := do
  let s ← map_snap (ox.from_utf8 rest)
  let n ← map_snap (ox.named_node s)
  pure (.NamedNode n, [])

def decode_blank (rest : Bytes) : Outcome (Term ox × Bytes) := do
  let s ← map_snap (ox.from_utf8 rest)
  let b ← map_snap (ox.blank_node s)
  pure (.BlankNode b, [])

def decode_plain (rest : Bytes) : Outcome (Term ox × Bytes) := do
  let s ← map_snap (ox.from_utf8 rest)
  pure (.Literal (.Simple s), [])

/-- A text with its length before it, and the text that runs to the end. -/
def decode_pair (rest : Bytes) (truncated : String) : Outcome (String × String) := do
  let (len, body) ← map_snap (read_uvarint rest)
  if body.length < len then .error (snap_err truncated)
  else
    let head ← slice_to body len
    let first ← map_snap (ox.from_utf8 head)
    let tail ← slice_from body len
    let value ← map_snap (ox.from_utf8 tail)
    pure (first, value)

def decode_lang (rest : Bytes) : Outcome (Term ox × Bytes) := do
  let (lang, value) ← decode_pair ox rest "lang literal truncated"
  let tag ← map_snap (ox.language_tag lang)
  pure (.Literal (.LanguageTagged value tag), [])

def base_direction (dir_byte : UInt8) : Outcome BaseDirection :=
  if dir_byte = 0 then .ok .Ltr
  else if dir_byte = 1 then .ok .Rtl
  else .error (snap_err "invalid base direction byte")

def decode_dir_lang : Bytes → Outcome (Term ox × Bytes)
  | [] => .error (snap_err "dir-lang literal missing direction byte")
  | dir_byte :: after_dir => do
    let dir ← base_direction dir_byte
    let (lang, value) ← decode_pair ox after_dir "dir-lang literal truncated"
    let tag ← map_snap (ox.language_tag lang)
    pure (.Literal (.DirectionalLanguageTagged value tag dir), [])

def decode_typed (rest : Bytes) : Outcome (Term ox × Bytes) := do
  let (dt, value) ← decode_pair ox rest "typed literal truncated"
  let dt_node ← map_snap (ox.named_node dt)
  pure (.Literal (ox.typed_literal value dt_node), [])

/-- The IRI of the integer type. It panics when the library does not take it. -/
def integer_node : Outcome (NamedNode ox) :=
  match ox.named_node XSD_INTEGER with
  | .ok n => .ok n
  | .error _ => .error .panic

def decode_inline_int (rest : Bytes) : Outcome (Term ox × Bytes) := do
  let (zz, tail) ← map_snap (read_uvarint rest)
  let v := zigzag_decode (UInt64.ofNat zz)
  let integer ← integer_node ox
  pure (.Literal (ox.typed_literal (toString v.toInt) integer), tail)

def triple_subject : Term ox → Outcome (NamedOrBlankNode ox)
  | .NamedNode n => .ok (.NamedNode n)
  | .BlankNode b => .ok (.BlankNode b)
  | .Triple _ _ _ => .error (snap_err "triple-term in triple-term subject")
  | .Literal _ => .error (snap_err "literal in triple-term subject")

def triple_predicate : Term ox → Outcome (NamedNode ox)
  | .NamedNode n => .ok n
  | _ => .error (snap_err "non-IRI triple-term predicate")

/-- Where the subject of a triple term ends, with its bytes. -/
def subject_part (rest : Bytes) : Outcome (Nat × {s : Bytes // s.length ≤ rest.length}) := do
  let (s_len, tail) ← map_snap (read_uvarint rest)
  let after_slen := rest.length - tail.length
  let s_end ← ok_or_snap (checked_add after_slen s_len) "triple subject length overflow"
  let s_bytes ← ok_or_snap (get_range rest after_slen s_end) "triple subject truncated"
  pure (s_end, s_bytes)

/-- Where the predicate ends after a subject that ends at `s_end`, with its bytes. -/
def predicate_part (rest : Bytes) (s_end : Nat) :
    Outcome (Nat × {s : Bytes // s.length ≤ rest.length}) := do
  let after ← slice_from rest s_end
  let (p_len, tail) ← map_snap (read_uvarint after)
  let p_off ← ok_or_snap (checked_add s_end (after.length - tail.length))
    "triple predicate offset overflow"
  let p_end ← ok_or_snap (checked_add p_off p_len) "triple predicate length overflow"
  let p_bytes ← ok_or_snap (get_range rest p_off p_end) "triple predicate truncated"
  pure (p_end, p_bytes)

/-- One term off the front of the bytes, and what it leaves of them. The kinds that end
with a text run to the end of the bytes. -/
def decode_term_prefix (bytes : Bytes) : Outcome (Term ox × Bytes) :=
  match bytes with
  | [] => .error (snap_err "empty term encoding")
  | kind :: rest =>
    if kind = KIND_URI then decode_uri ox rest
    else if kind = KIND_BLANK then decode_blank ox rest
    else if kind = KIND_PLAIN then decode_plain ox rest
    else if kind = KIND_LANG then decode_lang ox rest
    else if kind = KIND_DIR_LANG then decode_dir_lang ox rest
    else if kind = KIND_TYPED then decode_typed ox rest
    else if kind = KIND_INLINE_INT then decode_inline_int ox rest
    else if kind = KIND_TRIPLE then do
      let (s_end, s_bytes) ← subject_part rest
      let (s_term, _) ← decode_term_prefix s_bytes.1
      let (p_end, p_bytes) ← predicate_part rest s_end
      let (p_term, _) ← decode_term_prefix p_bytes.1
      let o_bytes ← ok_or_snap (get_range rest p_end rest.length) "triple object truncated"
      let (o_term, _) ← decode_term_prefix o_bytes.1
      let subject ← triple_subject ox s_term
      let predicate ← triple_predicate ox p_term
      pure (.Triple subject predicate o_term, [])
    else .error (snap_err ("unknown term kind tag " ++ toString kind.toNat))
termination_by bytes.length
decreasing_by
  · have := s_bytes.2
    simp only [List.length_cons]
    omega
  · have := p_bytes.2
    simp only [List.length_cons]
    omega
  · have := o_bytes.2
    simp only [List.length_cons]
    omega

/-- The whole of the bytes is one term. -/
def decode_term (bytes : Bytes) : Outcome (Term ox) := do
  let (term, rest) ← decode_term_prefix ox bytes
  if !rest.isEmpty then .error (snap_err "trailing bytes after term") else pure term

/-! ## The round trip -/

variable {ox}

theorem ok_bind {α β : Type} (a : α) (f : α → Outcome β) : (Except.ok a >>= f) = f a := rfl

theorem map_snap_uvarint {value : Nat} (h : value < 2 ^ 64) (rest : Bytes) :
    map_snap (read_uvarint (write_uvarint value ++ rest)) = .ok (value, rest) := by
  rw [(read_uvarint_write h).back]
  rfl

theorem map_snap_text (s : String) : map_snap (ox.from_utf8 (as_bytes s)) = .ok s := by
  rw [ox.from_utf8_as_bytes]
  rfl

theorem slice_to_left (a b : Bytes) : slice_to (a ++ b) a.length = .ok a := by
  rw [slice_to, if_pos (by simp), List.take_left]

theorem slice_from_left (a b : Bytes) : slice_from (a ++ b) a.length = .ok b := by
  rw [slice_from, if_pos (by simp), List.drop_left]

/-- A range that is written out in the bytes. -/
theorem get_range_middle {bytes before s after : Bytes} (h : bytes = before ++ (s ++ after))
    (start stop : Nat) (hstart : start = before.length) (hstop : stop = before.length + s.length) :
    ∃ r, get_range bytes start stop = some r ∧ r.1 = s := by
  subst h hstart hstop
  refine ⟨⟨s, by simp; omega⟩, ?_, rfl⟩
  rw [get_range, if_pos (by simp)]
  congr 2
  rw [← List.append_assoc, ← List.length_append, List.take_left, List.drop_left]

theorem checked_add_fits {a b : Nat} (h : a + b < 2 ^ 64) : checked_add a b = some (a + b) :=
  if_pos h

theorem decode_pair_encode {first value : String} (h : (as_bytes first).length < 2 ^ 64)
    (truncated : String) :
    decode_pair ox (write_uvarint (as_bytes first).length ++ (as_bytes first ++ as_bytes value))
      truncated = .ok (first, value) := by
  unfold decode_pair
  rw [map_snap_uvarint h, ok_bind]
  dsimp only
  rw [if_neg (by simp), slice_to_left, ok_bind, map_snap_text, ok_bind, slice_from_left, ok_bind,
    map_snap_text]
  rfl

/-- Reading the bytes of `a` back gives it when its texts pass their checks, and an error when
they do not. -/
def Reread {α : Type} (checked : Prop) (a : α) (o : Outcome α) : Prop :=
  checked ∧ o = .ok a ∨ ¬checked ∧ ∃ e, o = .error e

namespace Reread

variable {α β : Type} {checked more : Prop} {o : Outcome α} {a : α}

theorem eq (h : Reread checked a o) (hc : checked) : o = .ok a := by
  rcases h with ⟨-, ho⟩ | ⟨hnot, -⟩
  · exact ho
  · exact absurd hc hnot

theorem back (h : Reread checked a o) {b : α} (ho : o = .ok b) : checked ∧ b = a := by
  rcases h with ⟨hc, ho'⟩ | ⟨-, e, ho'⟩
  · exact ⟨hc, Except.ok.inj (ho.symm.trans ho')⟩
  · rw [ho'] at ho
    cases ho

theorem map (h : Reread checked a o) {f : α → Outcome β} {b : β} (hf : f a = .ok b) :
    Reread checked b (o >>= f) := by
  rcases h with ⟨hc, rfl⟩ | ⟨hnot, e, rfl⟩
  · exact Or.inl ⟨hc, hf⟩
  · exact Or.inr ⟨hnot, e, rfl⟩

theorem bind (h : Reread checked a o) {f : α → Outcome β} {b : β} (hf : Reread more b (f a)) :
    Reread (checked ∧ more) b (o >>= f) := by
  rcases h with ⟨hc, rfl⟩ | ⟨hnot, e, rfl⟩
  · rcases hf with ⟨hm, hb⟩ | ⟨hnot, he⟩
    · exact Or.inl ⟨⟨hc, hm⟩, hb⟩
    · exact Or.inr ⟨fun hall => hnot hall.2, he⟩
  · exact Or.inr ⟨fun hall => hnot hall.1, e, rfl⟩

end Reread

theorem reread_named_node (n : NamedNode ox) :
    Reread n.Checked n (map_snap (ox.named_node n.as_str)) := by
  unfold Oxrdf.named_node NamedNode.Checked
  split
  · rename_i h
    exact Or.inl ⟨h, rfl⟩
  · rename_i msg h
    exact Or.inr ⟨by rw [h]; exact nofun, _, rfl⟩

theorem reread_blank_node (b : BlankNode ox) :
    Reread b.Checked b (map_snap (ox.blank_node b.as_str)) := by
  unfold Oxrdf.blank_node BlankNode.Checked
  split
  · rename_i h
    exact Or.inl ⟨h, rfl⟩
  · rename_i msg h
    exact Or.inr ⟨by rw [h]; exact nofun, _, rfl⟩

theorem decode_literal_encode (lit : Literal ox) (h : (encode_literal lit).length < 2 ^ 64) :
    Reread lit.Checked (.Literal lit, []) <| decode_term_prefix ox (encode_literal lit) := by
  cases lit with
  | Simple value =>
    rw [encode_literal, decode_term_prefix, if_neg (by decide), if_neg (by decide), if_pos rfl,
      decode_plain, map_snap_text]
    exact Or.inl ⟨trivial, rfl⟩
  | LanguageTagged value lang =>
    have hlen : (as_bytes lang.as_str).length < 2 ^ 64 := by
      simp only [encode_literal, List.length_cons, List.length_append] at h
      omega
    rw [encode_literal, decode_term_prefix, if_neg (by decide), if_neg (by decide),
      if_neg (by decide), if_pos rfl, decode_lang, decode_pair_encode hlen, ok_bind]
    dsimp only
    rw [ox.language_tag_as_str]
    exact Or.inl ⟨trivial, rfl⟩
  | DirectionalLanguageTagged value lang dir =>
    have hlen : (as_bytes lang.as_str).length < 2 ^ 64 := by
      simp only [encode_literal, List.length_cons, List.length_append] at h
      omega
    have hdir : base_direction (direction_byte dir) = .ok dir := by
      cases dir <;> rfl
    rw [encode_literal, decode_term_prefix, if_neg (by decide), if_neg (by decide), if_neg (by decide),
      if_neg (by decide), if_pos rfl, decode_dir_lang, decode_pair_encode hlen, hdir, ok_bind,
      ok_bind]
    dsimp only
    rw [ox.language_tag_as_str]
    exact Or.inl ⟨trivial, rfl⟩
  | Typed value dt hother =>
    have hlen : (as_bytes dt.as_str).length < 2 ^ 64 := by
      simp only [encode_literal, List.length_cons, List.length_append] at h
      omega
    rw [encode_literal, decode_term_prefix, if_neg (by decide), if_neg (by decide),
      if_neg (by decide), if_neg (by decide), if_neg (by decide), if_pos rfl, decode_typed,
      decode_pair_encode hlen, ok_bind]
    dsimp only
    apply (reread_named_node dt).map
    rw [ox.typed_literal_of_ne hother]
    rfl

theorem decode_named_node_encode (n : NamedNode ox) :
    Reread n.Checked (.NamedNode n, []) <| decode_term_prefix ox (encode_named_node n) := by
  rw [encode_named_node, decode_term_prefix, if_pos rfl, decode_uri, map_snap_text, ok_bind]
  exact (reread_named_node n).map rfl

theorem decode_subject_encode (s : NamedOrBlankNode ox) :
    Reread s.Checked (subject_to_term s, []) <| decode_term_prefix ox (encode_subject s) := by
  cases s with
  | NamedNode n => exact decode_named_node_encode n
  | BlankNode b =>
    rw [encode_subject, encode_blank_node, decode_term_prefix, if_neg (by decide), if_pos rfl,
      decode_blank, map_snap_text, ok_bind]
    exact (reread_blank_node b).map rfl

theorem triple_subject_subject (s : NamedOrBlankNode ox) :
    triple_subject ox (subject_to_term s) = .ok s := by
  cases s <;> rfl

/-- Decoding takes a term whose bytes fit an address back, when its texts pass their checks. -/
theorem decode_term_prefix_encode (t : Term ox) (h : (encode_term t).length < 2 ^ 64) :
    Reread t.Checked (t, []) <| decode_term_prefix ox (encode_term t) := by
  induction t with
  | NamedNode n => exact decode_named_node_encode n
  | BlankNode b => exact decode_subject_encode (.BlankNode b)
  | Literal lit => exact decode_literal_encode lit h
  | Triple s p o ih =>
    rw [encode_term] at h ⊢
    simp only [List.length_cons, List.length_append] at h
    have ho := ih (by omega)
    generalize hs : encode_subject s = sb at *
    generalize hp : encode_named_node p = pb at *
    generalize encode_term o = ob at *
    have hds := decode_subject_encode s
    have hdp := decode_named_node_encode p
    rw [hs] at hds
    rw [hp] at hdp
    -- The parts are found where they were written.
    generalize hrest : write_uvarint sb.length ++ (sb ++ (write_uvarint pb.length ++ (pb ++ ob))) =
      rest
    have hlen : rest.length = (write_uvarint sb.length).length + (sb.length +
        ((write_uvarint pb.length).length + (pb.length + ob.length))) := by
      rw [← hrest]
      simp only [List.length_append]
    have hbeforep : rest = (write_uvarint sb.length ++ (sb ++ write_uvarint pb.length)) ++
        (pb ++ ob) := by
      rw [← hrest]
      simp only [List.append_assoc]
    have hbeforeo : rest = (write_uvarint sb.length ++ (sb ++ (write_uvarint pb.length ++ pb))) ++
        (ob ++ []) := by
      rw [← hrest]
      simp only [List.append_assoc, List.append_nil]
    obtain ⟨sr, hsr, hsv⟩ := get_range_middle hrest.symm (write_uvarint sb.length).length
      ((write_uvarint sb.length).length + sb.length) rfl rfl
    obtain ⟨pr, hpr, hpv⟩ := get_range_middle hbeforep
      ((write_uvarint sb.length).length + sb.length + (write_uvarint pb.length).length)
      ((write_uvarint sb.length).length + sb.length + (write_uvarint pb.length).length +
        pb.length)
      (by simp only [List.length_append]; omega) (by simp only [List.length_append]; omega)
    obtain ⟨orr, hor, hov⟩ := get_range_middle hbeforeo
      ((write_uvarint sb.length).length + sb.length + (write_uvarint pb.length).length +
        pb.length) rest.length
      (by simp only [List.length_append]; omega) (by rw [hlen]; simp only [List.length_append]; omega)
    have hsubject : subject_part rest =
        .ok ((write_uvarint sb.length).length + sb.length, sr) := by
      have hread : map_snap (read_uvarint rest) =
          .ok (sb.length, sb ++ (write_uvarint pb.length ++ (pb ++ ob))) := by
        rw [← hrest, map_snap_uvarint (by omega)]
      unfold subject_part
      rw [hread, ok_bind]
      dsimp only
      have hpos : rest.length - (sb ++ (write_uvarint pb.length ++ (pb ++ ob))).length =
          (write_uvarint sb.length).length := by
        rw [hlen]
        simp only [List.length_append]
        omega
      rw [hpos, checked_add_fits (by omega), ok_or_snap, ok_bind, hsr]
      rfl
    have hpredicate : predicate_part rest ((write_uvarint sb.length).length + sb.length) =
        .ok ((write_uvarint sb.length).length + sb.length + (write_uvarint pb.length).length +
          pb.length, pr) := by
      unfold predicate_part
      have hafter : slice_from rest ((write_uvarint sb.length).length + sb.length) =
          .ok (write_uvarint pb.length ++ (pb ++ ob)) := by
        rw [← hrest, ← List.append_assoc, ← List.length_append, slice_from_left]
      rw [hafter, ok_bind, map_snap_uvarint (by omega), ok_bind]
      dsimp only
      have hpos : (write_uvarint pb.length ++ (pb ++ ob)).length - (pb ++ ob).length =
          (write_uvarint pb.length).length := by
        simp only [List.length_append]
        omega
      rw [hpos, checked_add_fits (by omega), ok_or_snap, ok_bind, checked_add_fits (by omega),
        ok_or_snap, ok_bind, hpr]
      rfl
    unfold decode_term_prefix
    rw [if_neg (by decide), if_neg (by decide), if_neg (by decide), if_neg (by decide),
      if_neg (by decide), if_neg (by decide), if_neg (by decide), if_pos rfl, hsubject, ok_bind]
    dsimp only
    rw [hsv]
    apply hds.bind
    dsimp only
    rw [hpredicate, ok_bind]
    dsimp only
    rw [hpv]
    apply hdp.bind
    dsimp only
    rw [hor, ok_or_snap, ok_bind, hov]
    apply ho.map
    dsimp only
    rw [triple_subject_subject, ok_bind]
    rfl

theorem decode_term_encode (t : Term ox) (h : (encode_term t).length < 2 ^ 64) :
    Reread t.Checked t (decode_term ox (encode_term t)) := (decode_term_prefix_encode t h).map rfl

/-! ## No panic -/

/-- A value or an error, but no panic. -/
def NoPanic {α : Type} (o : Outcome α) : Prop := o ≠ .error .panic

theorem NoPanic.ok {α : Type} (a : α) : NoPanic (.ok a : Outcome α) := nofun

theorem NoPanic.snap {α : Type} (msg : String) : NoPanic (.error (snap_err msg) : Outcome α) :=
  nofun

theorem NoPanic.bind {α β : Type} {o : Outcome α} {f : α → Outcome β} (h : NoPanic o)
    (hf : ∀ a, o = .ok a → NoPanic (f a)) : NoPanic (o >>= f) := by
  cases o with
  | ok a => exact hf a rfl
  | error e =>
    intro he
    cases he
    exact h rfl

theorem no_panic_map_snap {α : Type} (o : Except String α) : NoPanic (map_snap o) := by
  cases o with
  | ok a => exact .ok a
  | error msg => exact .snap msg

theorem no_panic_ok_or_snap {α : Type} (o : Option α) (msg : String) :
    NoPanic (ok_or_snap o msg) := by
  cases o with
  | some a => exact .ok a
  | none => exact .snap msg

theorem no_panic_decode_pair (rest : Bytes) (truncated : String) :
    NoPanic (decode_pair ox rest truncated) := by
  unfold decode_pair
  apply NoPanic.bind (no_panic_map_snap _)
  intro p _
  dsimp only
  split
  · exact .snap _
  · -- The length was checked, so both slices are within the body.
    rename_i hlen
    rw [slice_to, if_pos (Nat.not_lt.mp hlen), slice_from, if_pos (Nat.not_lt.mp hlen)]
    apply NoPanic.bind (.ok _)
    intro _ _
    apply NoPanic.bind (no_panic_map_snap _)
    intro _ _
    apply NoPanic.bind (.ok _)
    intro _ _
    exact NoPanic.bind (no_panic_map_snap _) fun _ _ => .ok _

theorem no_panic_decode_dir_lang (rest : Bytes) : NoPanic (decode_dir_lang ox rest) := by
  cases rest with
  | nil => exact .snap _
  | cons dir_byte after_dir =>
    rw [decode_dir_lang]
    apply NoPanic.bind
    · unfold base_direction
      split
      · exact .ok _
      · split
        · exact .ok _
        · exact .snap _
    · intro _ _
      apply NoPanic.bind (no_panic_decode_pair _ _)
      intro _ _
      exact NoPanic.bind (no_panic_map_snap _) fun _ _ => .ok _

theorem no_panic_decode_inline_int (rest : Bytes) : NoPanic (decode_inline_int ox rest) := by
  unfold decode_inline_int
  apply NoPanic.bind (no_panic_map_snap _)
  intro _ _
  have hinteger : integer_node ox = .ok ⟨XSD_INTEGER, .inl ox.integer_checked⟩ := by
    rw [integer_node, ox.named_node_ok ox.integer_checked]
  dsimp only
  rw [hinteger]
  exact NoPanic.bind (.ok _) fun _ _ => .ok _

/-- A part of a triple term ends within the bytes. -/
theorem get_range_stop {bytes : Bytes} {start stop : Nat}
    {r : {s : Bytes // s.length ≤ bytes.length}} {msg : String}
    (h : ok_or_snap (get_range bytes start stop) msg = .ok r) : stop ≤ bytes.length := by
  unfold get_range at h
  split at h
  · rename_i hin
    exact hin.2
  · cases h

theorem bind_eq_ok {ε α β : Type} {o : Except ε α} {f : α → Except ε β} {b : β}
    (h : (o >>= f) = .ok b) : ∃ a, o = .ok a ∧ f a = .ok b := by
  cases o with
  | ok a => exact ⟨a, rfl, h⟩
  | error e => cases h

theorem subject_part_stop {rest : Bytes} {s_end : Nat}
    {s_bytes : {s : Bytes // s.length ≤ rest.length}}
    (h : subject_part rest = .ok (s_end, s_bytes)) : s_end ≤ rest.length := by
  unfold subject_part at h
  obtain ⟨_, _, h⟩ := bind_eq_ok h
  obtain ⟨stop, _, h⟩ := bind_eq_ok h
  obtain ⟨_, hrange, h⟩ := bind_eq_ok h
  cases h
  exact get_range_stop hrange

theorem no_panic_predicate_part {rest : Bytes} {s_end : Nat} (h : s_end ≤ rest.length) :
    NoPanic (predicate_part rest s_end) := by
  unfold predicate_part
  rw [slice_from, if_pos h]
  apply NoPanic.bind (.ok _)
  intro _ _
  apply NoPanic.bind (no_panic_map_snap _)
  intro _ _
  apply NoPanic.bind (no_panic_ok_or_snap _ _)
  intro _ _
  apply NoPanic.bind (no_panic_ok_or_snap _ _)
  intro _ _
  exact NoPanic.bind (no_panic_ok_or_snap _ _) fun _ _ => .ok _

theorem no_panic_subject_part (rest : Bytes) : NoPanic (subject_part rest) := by
  unfold subject_part
  apply NoPanic.bind (no_panic_map_snap _)
  intro _ _
  apply NoPanic.bind (no_panic_ok_or_snap _ _)
  intro _ _
  exact NoPanic.bind (no_panic_ok_or_snap _ _) fun _ _ => .ok _

theorem no_panic_decode_term_at (bytes : Bytes) : NoPanic <| decode_term_prefix ox bytes := by
  induction hn : bytes.length using Nat.strongRecOn generalizing bytes with
  | ind n ih =>
    cases bytes with
    | nil =>
      unfold decode_term_prefix
      exact .snap _
    | cons kind rest =>
      have hpart : ∀ s : {s : Bytes // s.length ≤ rest.length},
          NoPanic <| decode_term_prefix ox s.1 := by
        intro s
        have hs := s.2
        rw [List.length_cons] at hn
        exact ih s.1.length (by omega) s.1 rfl
      unfold decode_term_prefix
      split
      · apply NoPanic.bind (no_panic_map_snap _)
        intro _ _
        exact NoPanic.bind (no_panic_map_snap _) fun _ _ => .ok _
      split
      · apply NoPanic.bind (no_panic_map_snap _)
        intro _ _
        exact NoPanic.bind (no_panic_map_snap _) fun _ _ => .ok _
      split
      · exact NoPanic.bind (no_panic_map_snap _) fun _ _ => .ok _
      split
      · apply NoPanic.bind (no_panic_decode_pair _ _)
        intro _ _
        exact NoPanic.bind (no_panic_map_snap _) fun _ _ => .ok _
      split
      · exact no_panic_decode_dir_lang rest
      split
      · apply NoPanic.bind (no_panic_decode_pair _ _)
        intro _ _
        exact NoPanic.bind (no_panic_map_snap _) fun _ _ => .ok _
      split
      · exact no_panic_decode_inline_int rest
      split
      · apply NoPanic.bind (no_panic_subject_part rest)
        intro s hs
        apply NoPanic.bind (hpart s.2)
        intro _ _
        apply NoPanic.bind (no_panic_predicate_part (subject_part_stop hs))
        intro p _
        apply NoPanic.bind (hpart p.2)
        intro _ _
        apply NoPanic.bind (no_panic_ok_or_snap _ _)
        intro o _
        apply NoPanic.bind (hpart o)
        intro _ _
        apply NoPanic.bind
        · unfold triple_subject
          split <;> first | exact .ok _ | exact .snap _
        intro _ _
        apply NoPanic.bind
        · unfold triple_predicate
          split
          · exact .ok _
          · exact .snap _
        intro _ _
        exact .ok _
      · exact .snap _

theorem no_panic_decode_term (bytes : Bytes) : NoPanic (decode_term ox bytes) := by
  unfold decode_term
  apply NoPanic.bind (no_panic_decode_term_at bytes)
  intro _ _
  dsimp only
  split
  · exact .snap _
  · exact .ok _

end horndb.storage
