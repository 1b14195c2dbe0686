-- The names of inferred graphs read back: which names decode to a source, and which of these
-- no source mints.
import HornDb.ReasoningViews
import HornDb.TurtleSplit

open horndb.storage (as_bytes as_bytes_inj as_bytes_ofList)
open horndb.storage.turtle (ascii)
open HornDb.Lib.Hex HornDb.Lib.Utf8 HornDb.Lib.Wire

namespace horndb.sparql.reasoning

/-! ## Decoding -/

/-- No character goes on with the bytes that are left. -/
def is_char_boundary (rest : Bytes) : Bool := rest.head?.all starts

/-- A plus sign in front of a number is not part of its digits. -/
def strip_sign : List Char → List Char
  | '+' :: d :: digits => d :: digits
  | src => src

/-- A number of base sixteen that fits a byte. -/
def from_str_radix (src : List Char) : Option UInt8 :=
  if strip_sign src = [] then none
  else (hex_number 0 (strip_sign src)).bind fun n => if n < 256 then some n.toUInt8 else none

def byte_char (b : UInt8) : Char := Char.ofNat b.toNat

def percent_decode_bytes : Bytes → Option Bytes
  | [] => some []
  | b :: rest =>
    if b = ascii '%' then
      match rest with
      | x :: y :: tail =>
        if is_char_boundary tail then
          match from_str_radix [byte_char x, byte_char y] with
          | some n => (percent_decode_bytes tail).map (n :: ·)
          | none => none
        else none
      | _ => none
    else (percent_decode_bytes rest).map (b :: ·)

def percent_decode_segment (s : Bytes) : Option String :=
  (percent_decode_bytes s).bind fun out => String.fromUTF8? ⟨out.toArray⟩

def strip_prefix (start s : Bytes) : Option Bytes :=
  if start.isPrefixOf s then some (s.drop start.length) else none

def source_of_inferred_graph (iri : String) : Option ViewSource := do
  let segment ← strip_prefix (as_bytes INFERRED_GRAPH_PREFIX) (as_bytes iri)
  if segment = as_bytes DEFAULT_SOURCE_SEGMENT then pure .Default
  else do
    let segment ← strip_prefix (as_bytes NAMED_SOURCE_SEGMENT) segment
    (percent_decode_segment segment).map .Named

/-! ## What decodes -/

/-- A digit of base sixteen, in either case. -/
structure HexDigit where
  char : Char
  value : Nat
  reads : hex_value char = some value

/-- A piece of a segment: a character, an escape, or an escape with a sign. -/
inductive Piece where
  | raw (c : Char) (h : c ≠ '%')
  | pair (hi lo : HexDigit)
  | signed (lo : HexDigit)

namespace Piece

def text : Piece → List Char
  | raw c _ => [c]
  | pair hi lo => ['%', hi.char, lo.char]
  | signed lo => ['%', '+', lo.char]

def bytes : Piece → Bytes
  | raw c _ => String.utf8EncodeChar c
  | pair hi lo => [(16 * hi.value + lo.value).toUInt8]
  | signed lo => [lo.value.toUInt8]

/-- How the encoder writes its bytes. -/
def minted : Piece → Prop
  | raw c _ => Narrow c ∧ unreserved (ascii c) = true
  | pair hi lo =>
    hi.char ≤ 'F' ∧ lo.char ≤ 'F' ∧ unreserved (16 * hi.value + lo.value).toUInt8 = false
  | signed _ => False

end Piece

/-- The graph name decodes to the source, and not all of it is how the encoder writes it. -/
def Misspells (iri : String) (src : ViewSource) : Prop :=
  ∃ ps : List Piece, ∃ s, src = .Named s ∧
    iri.toList = INFERRED_GRAPH_PREFIX.toList ++ NAMED_SOURCE_SEGMENT.toList ++
      ps.flatMap Piece.text ∧
    as_bytes s = ps.flatMap Piece.bytes ∧ ∃ p ∈ ps, ¬p.minted

/-! ## Bytes and characters -/

theorem as_bytes_eq (s : String) : as_bytes s = encode s.toList := by
  rw [← toByteArray_ofList, String.ofList_toList]
  rfl

theorem fromUTF8_iff {out : Bytes} {s : String} :
    String.fromUTF8? ⟨out.toArray⟩ = some s ↔ as_bytes s = out := by
  unfold String.fromUTF8?
  constructor
  · intro h
    split at h
    · cases h
      rfl
    · cases h
  · intro h
    subst h
    rw [dif_pos (by rw [as_bytes, Array.toArray_toList]; exact s.isValidUTF8)]
    rfl

theorem byte_char_narrow {c : Char} (h : Narrow c) : byte_char (UInt8.ofNat c.val.toNat) = c := by
  rw [byte_char, toNat_narrow h]
  exact Char.ofNat_toNat c

theorem hex_value_bound {c : Char} {n : Nat} (h : hex_value c = some n) : Narrow c ∧ n < 16 := by
  have hval {a b : Char} (hab : a ≤ b) : a.val.toNat ≤ b.val.toNat := hab
  unfold hex_value at h
  unfold Narrow
  split_ifs at h with hdigit hupper hlower
  · have h1 := hval hdigit.1
    have h2 := hval hdigit.2
    have hn : c.val.toNat - 48 = n := Option.some.inj h
    exact ⟨h2.trans (by decide), by change 48 ≤ _ at h1; change _ ≤ 57 at h2; omega⟩
  · have h1 := hval hupper.1
    have h2 := hval hupper.2
    have hn : c.val.toNat - 55 = n := Option.some.inj h
    exact ⟨h2.trans (by decide), by change 65 ≤ _ at h1; change _ ≤ 70 at h2; omega⟩
  · have h1 := hval hlower.1
    have h2 := hval hlower.2
    have hn : c.val.toNat - 87 = n := Option.some.inj h
    exact ⟨h2.trans (by decide), by change 97 ≤ _ at h1; change _ ≤ 102 at h2; omega⟩

theorem encode_narrow_text {start cs : List Char} {rest : Bytes} (h : ∀ c ∈ start, Narrow c)
    (heq : encode cs = encode start ++ rest) : ∃ tail, cs = start ++ tail ∧ encode tail = rest := by
  induction start generalizing cs with
  | nil => exact ⟨cs, rfl, heq⟩
  | cons c start ih =>
    rw [List.forall_mem_cons] at h
    rw [encode_cons, encode_narrow h.1] at heq
    obtain ⟨d, cs', rfl, hval, hrest⟩ := encode_head heq (by
      rw [toNat_narrow h.1]
      exact Nat.lt_succ_of_le h.1)
    obtain ⟨tail, rfl, htail⟩ := ih h.2 hrest
    rw [toNat_narrow h.1] at hval
    have hchar : d = c := Char.toNat_inj.mp hval
    exact ⟨tail, by rw [hchar]; rfl, htail⟩

theorem strip_prefix_iff {start cs : List Char} (h : ∀ c ∈ start, Narrow c) {rest : Bytes} :
    strip_prefix (encode start) (encode cs) = some rest ↔
      ∃ tail, cs = start ++ tail ∧ rest = encode tail := by
  unfold strip_prefix
  constructor
  · intro hstrip
    split at hstrip
    · rename_i hpre
      obtain ⟨more, hmore⟩ := List.isPrefixOf_iff_prefix.mp hpre
      obtain ⟨tail, rfl, htail⟩ := encode_narrow_text h hmore.symm
      rw [← hmore, List.drop_left] at hstrip
      exact ⟨tail, rfl, by rw [htail, Option.some.inj hstrip]⟩
    · cases hstrip
  · rintro ⟨tail, rfl, rfl⟩
    rw [encode_append, if_pos (List.isPrefixOf_iff_prefix.mpr (List.prefix_append _ _)),
      List.drop_left]

/-! ## Decoding pieces -/

theorem decode_raw {bs : Bytes} (h : ∀ b ∈ bs, b ≠ ascii '%') (rest : Bytes) :
    percent_decode_bytes (bs ++ rest) = (percent_decode_bytes rest).map (bs ++ ·) := by
  induction bs with
  | nil => exact Option.map_id'.symm
  | cons b bs ih =>
    rw [List.forall_mem_cons] at h
    rw [List.cons_append, percent_decode_bytes.eq_def]
    dsimp only
    rw [if_neg h.1, ih h.2, Option.map_map]
    rfl

theorem decode_escape {x y : UInt8} {tail : Bytes} (h : is_char_boundary tail = true) :
    percent_decode_bytes (ascii '%' :: x :: y :: tail) =
      (from_str_radix [byte_char x, byte_char y]).bind fun n =>
        (percent_decode_bytes tail).map (n :: ·) := by
  rw [percent_decode_bytes, if_pos rfl, if_pos h]
  cases from_str_radix [byte_char x, byte_char y] with
  | none => rfl
  | some n => rfl

theorem boundary_encode (cs : List Char) : is_char_boundary (encode cs) = true := by
  unfold is_char_boundary
  cases h : encode cs with
  | nil => rfl
  | cons b bs => exact encode_starts_text h

theorem raw_bytes {c : Char} (h : c ≠ '%') : ∀ b ∈ String.utf8EncodeChar c, b ≠ ascii '%' := by
  intro b hb heq
  by_cases hc : Narrow c
  · rw [encode_narrow hc, List.mem_singleton] at hb
    rw [hb] at heq
    have hnat := congrArg UInt8.toNat heq
    rw [toNat_narrow hc] at hnat
    exact h (Char.toNat_inj.mp hnat)
  · have hwide := encode_wide hc b hb
    rw [heq] at hwide
    exact absurd hwide (by decide)

theorem plus_no_digit {c : Char} {n : Nat} (h : hex_value c = some n) : c ≠ '+' := by
  rintro rfl
  cases h

theorem radix_unsigned {c : Char} (h : c ≠ '+') (cs : List Char) :
    from_str_radix (c :: cs) =
      (hex_number 0 (c :: cs)).bind fun n => if n < 256 then some n.toUInt8 else none := by
  have hstrip : strip_sign (c :: cs) = c :: cs := by
    unfold strip_sign
    split
    · rename_i heq
      exact absurd (List.cons.inj heq).1 h
    · rfl
  rw [from_str_radix, hstrip, if_neg (List.cons_ne_nil _ _)]

theorem radix_pair (hi lo : HexDigit) :
    from_str_radix [hi.char, lo.char] = some (16 * hi.value + lo.value).toUInt8 := by
  have hhi := (hex_value_bound hi.reads).2
  have hlo := (hex_value_bound lo.reads).2
  rw [radix_unsigned (plus_no_digit hi.reads), hex_number, hi.reads, Option.bind_some, hex_number,
    lo.reads, Option.bind_some,
    hex_number, Option.bind_some, if_pos (by omega), Nat.mul_zero, Nat.zero_add]

theorem radix_signed (lo : HexDigit) :
    from_str_radix ['+', lo.char] = some lo.value.toUInt8 := by
  have hlo := (hex_value_bound lo.reads).2
  change (hex_number 0 [lo.char]).bind _ = _
  rw [hex_number, lo.reads, Option.bind_some, hex_number, Option.bind_some, if_pos (by omega),
    Nat.mul_zero, Nat.zero_add]

/-- Both digits of an escape are read, or its sign and its digit. -/
theorem radix_iff {x y : Char} {n : UInt8} (h : from_str_radix [x, y] = some n) :
    (∃ hi lo : HexDigit, x = hi.char ∧ y = lo.char) ∨
      (x = '+' ∧ ∃ lo : HexDigit, y = lo.char) := by
  by_cases hplus : x = '+'
  · subst hplus
    refine Or.inr ⟨rfl, ?_⟩
    change (hex_number 0 [y]).bind _ = _ at h
    rw [hex_number] at h
    cases hy : hex_value y with
    | none =>
      rw [hy] at h
      cases h
    | some d => exact ⟨⟨y, d, hy⟩, rfl⟩
  · refine Or.inl ?_
    rw [radix_unsigned hplus, hex_number] at h
    cases hx : hex_value x with
    | none =>
      rw [hx] at h
      cases h
    | some d =>
      rw [hx, Option.bind_some, hex_number] at h
      cases hy : hex_value y with
      | none =>
        rw [hy] at h
        cases h
      | some e => exact ⟨⟨x, d, hx⟩, ⟨y, e, hy⟩, rfl, rfl⟩

theorem byte_char_toNat (b : UInt8) : (byte_char b).val.toNat = b.toNat := by
  have hvalid : b.toNat.isValidChar := Or.inl (by have := b.toNat_lt; omega)
  rw [byte_char, Char.ofNat, dif_pos hvalid]
  exact Char.toNat_ofNatAux hvalid

theorem narrow_of_radix {x y n : UInt8} (h : from_str_radix [byte_char x, byte_char y] = some n) :
    x.toNat < 0x80 ∧ y.toNat < 0x80 := by
  have hnarrow {b : UInt8} (hb : Narrow (byte_char b)) : b.toNat < 0x80 := by
    rw [Narrow, byte_char_toNat] at hb
    omega
  rcases radix_iff h with ⟨hi, lo, hx, hy⟩ | ⟨hx, lo, hy⟩
  · refine ⟨hnarrow ?_, hnarrow ?_⟩
    · rw [hx]
      exact (hex_value_bound hi.reads).1
    · rw [hy]
      exact (hex_value_bound lo.reads).1
  · refine ⟨hnarrow ?_, hnarrow ?_⟩
    · rw [hx]
      decide
    · rw [hy]
      exact (hex_value_bound lo.reads).1

theorem decode_two {x y : Char} (hx : Narrow x) (hy : Narrow y) (cs : List Char) :
    percent_decode_bytes (encode ('%' :: x :: y :: cs)) =
      (from_str_radix [x, y]).bind fun n => (percent_decode_bytes (encode cs)).map (n :: ·) := by
  have henc : encode ('%' :: x :: y :: cs) =
      ascii '%' :: UInt8.ofNat x.val.toNat :: UInt8.ofNat y.val.toNat :: encode cs := by
    rw [encode_cons, encode_cons, encode_cons, encode_narrow hx, encode_narrow hy]
    rfl
  rw [henc, decode_escape (boundary_encode cs), byte_char_narrow hx, byte_char_narrow hy]

/-- A segment that is made of pieces decodes to their bytes. -/
theorem decode_text (ps : List Piece) :
    percent_decode_bytes (encode (ps.flatMap Piece.text)) = some (ps.flatMap Piece.bytes) := by
  induction ps with
  | nil => rfl
  | cons p ps ih =>
    rw [List.flatMap_cons, List.flatMap_cons]
    cases p with
    | raw c h =>
      change percent_decode_bytes (encode (c :: ps.flatMap Piece.text)) = _
      rw [encode_cons, decode_raw (raw_bytes h), ih]
      rfl
    | pair hi lo =>
      change percent_decode_bytes (encode
        ('%' :: hi.char :: lo.char :: ps.flatMap Piece.text)) = _
      rw [decode_two (hex_value_bound hi.reads).1 (hex_value_bound lo.reads).1, radix_pair, ih]
      rfl
    | signed lo =>
      change percent_decode_bytes (encode ('%' :: '+' :: lo.char :: ps.flatMap Piece.text)) = _
      rw [decode_two (by decide) (hex_value_bound lo.reads).1, radix_signed, ih]
      rfl

/-- An escape that decodes is two characters that are read as a number. -/
theorem escape_of_decode {cs : List Char} {out : Bytes}
    (h : percent_decode_bytes (encode ('%' :: cs)) = some out) :
    ∃ x y cs', cs = x :: y :: cs' ∧ ∃ n, from_str_radix [x, y] = some n ∧
      ∃ out', percent_decode_bytes (encode cs') = some out' ∧ out = n :: out' := by
  have hpercent : encode ('%' :: cs) = ascii '%' :: encode cs := rfl
  rw [hpercent] at h
  match hbytes : encode cs with
  | [] =>
    rw [hbytes] at h
    cases h
  | [x] =>
    rw [hbytes] at h
    cases h
  | x :: y :: tail =>
    rw [hbytes, percent_decode_bytes, if_pos rfl] at h
    split at h
    · split at h
      · rename_i n hn
        obtain ⟨out', hout, rfl⟩ := Option.map_eq_some_iff.mp h
        obtain ⟨hx, hy⟩ := narrow_of_radix hn
        obtain ⟨c, cs₁, rfl, hc, hrest⟩ := encode_head hbytes hx
        obtain ⟨d, cs₂, rfl, hd, hrest⟩ := encode_head hrest hy
        rw [byte_char, byte_char, ← hc, ← hd] at hn
        refine ⟨c, d, cs₂, rfl, n, ?_, out', by rwa [hrest], rfl⟩
        rwa [← Char.ofNat_toNat c, ← Char.ofNat_toNat d]
      · cases h
    · cases h

/-- Whatever decodes is made of pieces. -/
theorem text_of_decode : ∀ {cs : List Char} {out : Bytes},
    percent_decode_bytes (encode cs) = some out →
      ∃ ps : List Piece, cs = ps.flatMap Piece.text ∧ out = ps.flatMap Piece.bytes
  | [], out, h => ⟨[], rfl, (Option.some.inj h).symm⟩
  | c :: cs, out, h => by
    by_cases hc : c = '%'
    · subst hc
      obtain ⟨x, y, cs', rfl, n, hn, out', hout, rfl⟩ := escape_of_decode h
      obtain ⟨ps, rfl, rfl⟩ := text_of_decode hout
      rcases radix_iff hn with ⟨hi, lo, rfl, rfl⟩ | ⟨rfl, lo, rfl⟩
      · rw [radix_pair] at hn
        exact ⟨.pair hi lo :: ps, rfl, by rw [← Option.some.inj hn]; rfl⟩
      · rw [radix_signed] at hn
        exact ⟨.signed lo :: ps, rfl, by rw [← Option.some.inj hn]; rfl⟩
    · rw [encode_cons, decode_raw (raw_bytes hc)] at h
      obtain ⟨out', hout, rfl⟩ := Option.map_eq_some_iff.mp h
      obtain ⟨ps, rfl, rfl⟩ := text_of_decode hout
      exact ⟨.raw c hc :: ps, rfl, rfl⟩

/-! ## What is minted -/

theorem hex_digit_le {n : Nat} (h : n < 16) : hex_digit n ≤ 'F' := by
  interval_cases n <;> decide

def digit_of (n : Nat) : HexDigit :=
  ⟨hex_digit (n % 16), n % 16, hex_value_digit (Nat.mod_lt _ (by decide))⟩

/-- The piece that the encoder writes for a byte. -/
theorem piece_of_byte (b : UInt8) :
    ∃ p : Piece, p.text = percent_encode_byte b ∧ p.bytes = [b] := by
  unfold percent_encode_byte
  split
  · rename_i h
    obtain ⟨hval, hne⟩ := toNat_unreserved h
    have hnarrow : Narrow (Char.ofNat b.toNat) := by
      change (Char.ofNat b.toNat).toNat ≤ 0x7F
      rw [hval]
      simp only [unreserved, Bool.or_eq_true, Bool.and_eq_true, decide_eq_true_eq,
        beq_iff_eq] at h
      omega
    refine ⟨.raw (Char.ofNat b.toNat) fun hc => hne ?_, rfl, ?_⟩
    · rw [← hval, hc]
      rfl
    · rw [Piece.bytes, encode_narrow hnarrow]
      change [UInt8.ofNat (Char.ofNat b.toNat).toNat] = _
      rw [hval, UInt8.ofNat_toNat]
  · refine ⟨.pair (digit_of (b.toNat / 16)) (digit_of b.toNat), rfl, ?_⟩
    have hlt := b.toNat_lt
    have hnat : 16 * (b.toNat / 16 % 16) + b.toNat % 16 = b.toNat := by omega
    change [(16 * (b.toNat / 16 % 16) + b.toNat % 16).toUInt8] = [b]
    rw [hnat]
    exact congrArg (· :: []) UInt8.ofNat_toNat

theorem pieces_of_bytes (bs : Bytes) :
    ∃ ps : List Piece, ps.flatMap Piece.text = bs.flatMap percent_encode_byte ∧
      ps.flatMap Piece.bytes = bs := by
  induction bs with
  | nil => exact ⟨[], rfl, rfl⟩
  | cons b bs ih =>
    obtain ⟨ps, htext, hbytes⟩ := ih
    obtain ⟨p, hp, hb⟩ := piece_of_byte b
    refine ⟨p :: ps, ?_, ?_⟩
    · rw [List.flatMap_cons, List.flatMap_cons, hp, htext]
    · rw [List.flatMap_cons, hb, hbytes]
      rfl

theorem encode_reserved {b : UInt8} (h : unreserved b = false) :
    percent_encode_byte b = ['%', hex_digit (b.toNat / 16 % 16), hex_digit (b.toNat % 16)] := by
  rw [percent_encode_byte, h]
  rfl

/-- A digit that is no lower-case letter is the one that is written for its value. -/
theorem hex_digit_of_value {c : Char} {n : Nat} (h : hex_value c = some n) (hle : c ≤ 'F') :
    c = hex_digit n := by
  have hval {a b : Char} (hab : a ≤ b) : a.toNat ≤ b.toNat := hab
  have hback {n : Nat} (hn : c.toNat = n) : c = Char.ofNat n := by rw [← hn, Char.ofNat_toNat]
  have hF : c.toNat ≤ 70 := hval hle
  unfold hex_value at h
  split_ifs at h with hdec hupper hlower
  · have h1 : 48 ≤ c.toNat := hval hdec.1
    have h2 : c.toNat ≤ 57 := hval hdec.2
    have hn : c.toNat - 48 = n := Option.some.inj h
    rw [hex_digit, if_pos (by omega)]
    exact hback (by omega)
  · have h1 : 65 ≤ c.toNat := hval hupper.1
    have hn : c.toNat - 55 = n := Option.some.inj h
    rw [hex_digit, if_neg (by omega)]
    exact hback (by omega)
  · have h1 : 97 ≤ c.toNat := hval hlower.1
    omega

theorem text_minted {p : Piece} (h : p.minted) :
    p.text = p.bytes.flatMap percent_encode_byte := by
  cases p with
  | raw c hc =>
    obtain ⟨hnarrow, hun⟩ := h
    rw [Piece.text, Piece.bytes, encode_narrow hnarrow, List.flatMap_singleton,
      percent_encode_byte]
    change [c] = if unreserved (ascii c) then _ else _
    rw [if_pos hun, toNat_narrow hnarrow]
    exact congrArg (· :: []) (Char.ofNat_toNat c).symm
  | pair hi lo =>
    obtain ⟨hhi, hlo, hres⟩ := h
    have h1 := (hex_value_bound hi.reads).2
    have h2 := (hex_value_bound lo.reads).2
    have hnat : (16 * hi.value + lo.value).toUInt8.toNat = 16 * hi.value + lo.value := by
      change (UInt8.ofNat _).toNat = _
      rw [UInt8.toNat_ofNat']
      omega
    have hdiv : (16 * hi.value + lo.value) / 16 % 16 = hi.value := by omega
    have hmod : (16 * hi.value + lo.value) % 16 = lo.value := by omega
    rw [Piece.text, Piece.bytes, List.flatMap_singleton, encode_reserved hres, hnat, hdiv, hmod,
      hex_digit_of_value hi.reads hhi, hex_digit_of_value lo.reads hlo]
  | signed lo => exact h.elim

/-- A piece that reads as the encoder writes is minted. -/
theorem minted_of_text {p : Piece} {rest more : List Char}
    (h : p.text ++ rest = p.bytes.flatMap percent_encode_byte ++ more) :
    p.minted ∧ rest = more := by
  cases p with
  | raw c hc =>
    by_cases hnarrow : Narrow c
    · rw [Piece.bytes, encode_narrow hnarrow, List.flatMap_singleton] at h
      by_cases hun : unreserved (ascii c) = true
      · change [c] ++ rest = percent_encode_byte (ascii c) ++ more at h
        rw [percent_encode_byte, if_pos hun] at h
        exact ⟨⟨hnarrow, hun⟩, (List.cons.inj h).2⟩
      · change [c] ++ rest = percent_encode_byte (ascii c) ++ more at h
        rw [encode_reserved (Bool.not_eq_true _ ▸ hun)] at h
        exact absurd (List.cons.inj h).1 hc
    · obtain ⟨b, bs, henc, -⟩ := encode_starts c
      have hwide := encode_wide hnarrow b (by rw [henc]; exact List.mem_cons_self)
      have hres : unreserved b = false := by
        rw [Bool.eq_false_iff]
        intro hun
        simp only [unreserved, Bool.or_eq_true, Bool.and_eq_true, decide_eq_true_eq,
          beq_iff_eq] at hun
        omega
      rw [Piece.bytes, henc, List.flatMap_cons, encode_reserved hres] at h
      exact absurd (List.cons.inj h).1 hc
  | pair hi lo =>
    rw [Piece.bytes, List.flatMap_singleton] at h
    by_cases hun : unreserved (16 * hi.value + lo.value).toUInt8 = true
    · rw [percent_encode_byte, if_pos hun] at h
      have hchar := congrArg Char.toNat (List.cons.inj h).1
      rw [(toNat_unreserved hun).1] at hchar
      exact absurd hchar.symm (toNat_unreserved hun).2
    · rw [Bool.not_eq_true] at hun
      rw [encode_reserved hun] at h
      obtain ⟨-, h⟩ := List.cons.inj h
      obtain ⟨hhi, h⟩ := List.cons.inj h
      obtain ⟨hlo, h⟩ := List.cons.inj h
      refine ⟨⟨?_, ?_, hun⟩, h⟩
      · rw [hhi]
        exact hex_digit_le (Nat.mod_lt _ (by decide))
      · rw [hlo]
        exact hex_digit_le (Nat.mod_lt _ (by decide))
  | signed lo =>
    have hlt := (hex_value_bound lo.reads).2
    have hnat : lo.value.toUInt8.toNat = lo.value := by
      change (UInt8.ofNat _).toNat = _
      rw [UInt8.toNat_ofNat']
      omega
    have hres : unreserved lo.value.toUInt8 = false := by
      rw [Bool.eq_false_iff]
      intro hun
      simp only [unreserved, Bool.or_eq_true, Bool.and_eq_true, decide_eq_true_eq, beq_iff_eq,
        hnat] at hun
      omega
    rw [Piece.bytes, List.flatMap_singleton, encode_reserved hres, hnat] at h
    have hdigit := (List.cons.inj (List.cons.inj h).2).1
    rw [Nat.div_eq_of_lt hlt] at hdigit
    exact absurd hdigit (by decide)

theorem minted_of_texts {ps : List Piece}
    (h : ps.flatMap Piece.text = (ps.flatMap Piece.bytes).flatMap percent_encode_byte) :
    ∀ p ∈ ps, p.minted := by
  induction ps with
  | nil => exact fun p hp => absurd hp List.not_mem_nil
  | cons p ps ih =>
    rw [List.flatMap_cons, List.flatMap_cons, List.flatMap_append] at h
    obtain ⟨hp, hrest⟩ := minted_of_text h
    rw [List.forall_mem_cons]
    exact ⟨hp, ih hrest⟩

theorem texts_minted {ps : List Piece} (h : ∀ p ∈ ps, p.minted) :
    ps.flatMap Piece.text = (ps.flatMap Piece.bytes).flatMap percent_encode_byte := by
  induction ps with
  | nil => rfl
  | cons p ps ih =>
    rw [List.forall_mem_cons] at h
    rw [List.flatMap_cons, List.flatMap_cons, List.flatMap_append, text_minted h.1, ih h.2]

/-! ## Sources of graph names -/

theorem narrow_start :
    (INFERRED_GRAPH_PREFIX.toList.all fun c => decide (Narrow c)) = true ∧
      (NAMED_SOURCE_SEGMENT.toList.all fun c => decide (Narrow c)) = true := by
  decide

theorem strip_text {start : String} (h : (start.toList.all fun c => decide (Narrow c)) = true)
    {cs : List Char} {rest : Bytes} :
    strip_prefix (as_bytes start) (encode cs) = some rest ↔
      ∃ tail, cs = start.toList ++ tail ∧ rest = encode tail := by
  rw [as_bytes_eq]
  exact strip_prefix_iff fun c hc => of_decide_eq_true (List.all_eq_true.mp h c hc)

theorem encode_inj {a b : List Char} (h : encode a = encode b) : a = b := by
  rw [← String.toList_ofList (l := a), ← String.toList_ofList (l := b)]
  refine congrArg String.toList (as_bytes_inj ?_)
  rw [as_bytes_eq, as_bytes_eq, String.toList_ofList, String.toList_ofList, h]

theorem source_of_eq (iri : String) : source_of_inferred_graph iri =
    (do
      let segment ← strip_prefix (as_bytes INFERRED_GRAPH_PREFIX) (encode iri.toList)
      if segment = as_bytes DEFAULT_SOURCE_SEGMENT then some .Default
      else
        let segment ← strip_prefix (as_bytes NAMED_SOURCE_SEGMENT) segment
        (percent_decode_segment segment).map .Named) := by
  rw [← as_bytes_eq]
  rfl

theorem toList_inferred_graph (src : ViewSource) :
    src.inferred_graph.toList = INFERRED_GRAPH_PREFIX.toList ++ src.segment :=
  String.toList_ofList

theorem source_default (iri : String) :
    source_of_inferred_graph iri = some .Default ↔ iri = ViewSource.Default.inferred_graph := by
  rw [source_of_eq]
  constructor
  · intro h
    obtain ⟨rest, hstrip, h⟩ := Option.bind_eq_some_iff.mp h
    obtain ⟨tail, hiri, rfl⟩ := (strip_text narrow_start.1).mp hstrip
    split at h
    · rename_i htail
      rw [as_bytes_eq] at htail
      rw [← String.toList_inj, hiri, toList_inferred_graph, encode_inj htail]
      rfl
    · obtain ⟨segment, -, h⟩ := Option.bind_eq_some_iff.mp h
      obtain ⟨s, -, h⟩ := Option.map_eq_some_iff.mp h
      cases h
  · rintro rfl
    refine Option.bind_eq_some_iff.mpr ⟨_, (strip_text narrow_start.1).mpr
      ⟨_, toList_inferred_graph _, rfl⟩, if_pos ?_⟩
    rw [as_bytes_eq]
    rfl

theorem source_named (iri s : String) :
    source_of_inferred_graph iri = some (.Named s) ↔
      ∃ ps : List Piece, iri.toList = INFERRED_GRAPH_PREFIX.toList ++ NAMED_SOURCE_SEGMENT.toList ++
        ps.flatMap Piece.text ∧ as_bytes s = ps.flatMap Piece.bytes := by
  rw [source_of_eq]
  constructor
  · intro h
    obtain ⟨rest, hstrip, h⟩ := Option.bind_eq_some_iff.mp h
    obtain ⟨tail, hiri, rfl⟩ := (strip_text narrow_start.1).mp hstrip
    split at h
    · cases h
    · obtain ⟨segment, hnamed, h⟩ := Option.bind_eq_some_iff.mp h
      obtain ⟨tail, rfl, rfl⟩ := (strip_text narrow_start.2).mp hnamed
      obtain ⟨s', hdecode, hs⟩ := Option.map_eq_some_iff.mp h
      cases hs
      obtain ⟨out, hout, hutf8⟩ := Option.bind_eq_some_iff.mp hdecode
      obtain ⟨ps, rfl, rfl⟩ := text_of_decode hout
      exact ⟨ps, by rw [hiri, List.append_assoc], fromUTF8_iff.mp hutf8⟩
  · rintro ⟨ps, hiri, hs⟩
    rw [List.append_assoc] at hiri
    refine Option.bind_eq_some_iff.mpr ⟨_, (strip_text narrow_start.1).mpr ⟨_, hiri, rfl⟩, ?_⟩
    rw [if_neg]
    · refine Option.bind_eq_some_iff.mpr ⟨_, (strip_text narrow_start.2).mpr ⟨_, rfl, rfl⟩, ?_⟩
      refine Option.map_eq_some_iff.mpr ⟨s, ?_, rfl⟩
      exact Option.bind_eq_some_iff.mpr ⟨_, decode_text ps, fromUTF8_iff.mpr hs⟩
    · intro heq
      rw [as_bytes_eq] at heq
      exact absurd (List.cons.inj (encode_inj heq)).1 (by decide)

/-- A name is told apart from the one its source mints by a piece that is not minted. -/
theorem inferred_graph_iff {iri s : String} {ps : List Piece}
    (hiri : iri.toList = INFERRED_GRAPH_PREFIX.toList ++ NAMED_SOURCE_SEGMENT.toList ++
      ps.flatMap Piece.text) (hs : as_bytes s = ps.flatMap Piece.bytes) :
    iri = (ViewSource.Named s).inferred_graph ↔ ∀ p ∈ ps, p.minted := by
  have hnamed : (ViewSource.Named s).inferred_graph.toList = INFERRED_GRAPH_PREFIX.toList ++
      NAMED_SOURCE_SEGMENT.toList ++ (ps.flatMap Piece.bytes).flatMap percent_encode_byte := by
    rw [toList_inferred_graph, ← hs, List.append_assoc]
    rfl
  rw [← String.toList_inj, hiri, hnamed]
  constructor
  · intro h
    exact minted_of_texts (List.append_cancel_left h)
  · intro h
    rw [texts_minted h]

theorem decode_encode_segment (s : String) :
    percent_decode_segment (as_bytes (String.ofList (percent_encode_segment s))) = some s := by
  obtain ⟨ps, htext, hbytes⟩ := pieces_of_bytes (as_bytes s)
  refine Option.bind_eq_some_iff.mpr ⟨as_bytes s, ?_, fromUTF8_iff.mpr rfl⟩
  rw [as_bytes_eq, String.toList_ofList, percent_encode_segment, ← htext, decode_text, hbytes]

theorem source_of_minted (src : ViewSource) :
    source_of_inferred_graph src.inferred_graph = some src := by
  cases src with
  | Default => exact (source_default _).mpr rfl
  | Named s =>
    obtain ⟨ps, htext, hbytes⟩ := pieces_of_bytes (as_bytes s)
    refine (source_named _ _).mpr ⟨ps, ?_, hbytes.symm⟩
    rw [toList_inferred_graph, htext, List.append_assoc]
    rfl

/-- Minting has an inverse, and the decoder is this inverse but for the names that decode to a
source in another spelling. -/
theorem source_of_inferred_graph_exact (iri : String) (src : ViewSource) :
    ((source_of_inferred_graph iri = some src ↔ iri = src.inferred_graph) ↔ ¬Misspells iri src) ∧
      Function.Injective ViewSource.inferred_graph ∧
      ∀ s, percent_decode_segment (as_bytes (String.ofList (percent_encode_segment s))) =
        some s := by
  refine ⟨?_, fun a b h => ViewSource.inferred_graph_inj h, decode_encode_segment⟩
  constructor
  · rintro h ⟨ps, s, rfl, hiri, hs, p, hp, hnot⟩
    have hminted := h.mp ((source_named iri s).mpr ⟨ps, hiri, hs⟩)
    exact hnot ((inferred_graph_iff hiri hs).mp hminted p hp)
  · intro hnot
    constructor
    · intro h
      cases src with
      | Default => exact (source_default iri).mp h
      | Named s =>
        obtain ⟨ps, hiri, hs⟩ := (source_named iri s).mp h
        refine (inferred_graph_iff hiri hs).mpr fun p hp => ?_
        by_contra hp'
        exact hnot ⟨ps, s, rfl, hiri, hs, p, hp, hp'⟩
    · rintro rfl
      exact source_of_minted src

def slash : Piece := .pair ⟨'2', 2, rfl⟩ ⟨'f', 15, rfl⟩

/-- An escape in lower case decodes, and is not minted. -/
theorem source_of_lower_case :
    source_of_inferred_graph "https://horndb.io/graph/inferred/g/%2f" = some (.Named "/") ∧
      "https://horndb.io/graph/inferred/g/%2f" ≠ (ViewSource.Named "/").inferred_graph := by
  have hiri : "https://horndb.io/graph/inferred/g/%2f".toList = INFERRED_GRAPH_PREFIX.toList ++
      NAMED_SOURCE_SEGMENT.toList ++ [slash].flatMap Piece.text := by decide
  have hs : as_bytes "/" = [slash].flatMap Piece.bytes := by decide
  refine ⟨(source_named _ _).mpr ⟨_, hiri, hs⟩, fun h => ?_⟩
  have hminted := (inferred_graph_iff hiri hs).mp h slash List.mem_cons_self
  exact absurd hminted.2.1 (by decide)

end horndb.sparql.reasoning
