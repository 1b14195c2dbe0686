-- Texts cut at byte positions: a cut inside a character stops the program. The loops that look
-- for a closing quote byte by byte only cut where characters meet.
import HornDb.Expressions

open HornDb.Lib.Utf8

namespace horndb.sparql.text

/-! ## Cuts -/

/-- The text in front of a byte position and behind it. There is none when the position is inside
a character or behind the end. -/
def split_at : Nat → List Char → Option (List Char × List Char)
  | 0, cs => some ([], cs)
  | _ + 1, [] => none
  | n + 1, c :: cs =>
    let width := (String.utf8EncodeChar c).length
    if width ≤ n + 1 then (split_at (n + 1 - width) cs).map fun r => (c :: r.1, r.2) else none

def slice (cs : List Char) (start stop : Nat) : Option (List Char) := do
  let (_, rest) ← split_at start cs
  if start ≤ stop then do
    let (part, _) ← split_at (stop - start) rest
    some part
  else none

def slice_from (cs : List Char) (start : Nat) : Option (List Char) :=
  (split_at start cs).map Prod.snd

def slice_to (cs : List Char) (stop : Nat) : Option (List Char) :=
  (split_at stop cs).map Prod.fst

theorem split_at_append (a b : List Char) : split_at (encode a).length (a ++ b) = some (a, b) := by
  induction a with
  | nil =>
    rw [encode_nil, List.length_nil, split_at]
    rfl
  | cons c a ih =>
    obtain ⟨b', bs, henc, -⟩ := encode_starts c
    have hlen : (encode (c :: a)).length =
        (bs.length + (encode a).length) + 1 := by
      rw [encode_cons, List.length_append, henc, List.length_cons]
      omega
    rw [hlen, List.cons_append, split_at, henc, List.length_cons, if_pos (by omega),
      show bs.length + (encode a).length + 1 - (bs.length + 1) = (encode a).length by omega, ih]
    rfl

theorem split_at_eq {n : Nat} {cs a b : List Char} (h : split_at n cs = some (a, b)) :
    cs = a ++ b ∧ n = (encode a).length := by
  induction cs generalizing n a with
  | nil =>
    cases n with
    | zero =>
      rw [split_at] at h
      cases h
      exact ⟨rfl, rfl⟩
    | succ n =>
      rw [split_at] at h
      cases h
  | cons c cs ih =>
    cases n with
    | zero =>
      rw [split_at] at h
      cases h
      exact ⟨rfl, rfl⟩
    | succ n =>
      rw [split_at] at h
      obtain ⟨hwidth, h⟩ := Option.ite_none_right_eq_some.mp h
      obtain ⟨r, hr, heq⟩ := Option.map_eq_some_iff.mp h
      cases heq
      obtain ⟨rfl, hn⟩ := ih hr
      refine ⟨rfl, ?_⟩
      rw [encode_cons, List.length_append, ← hn]
      omega

/-- A character starts at the byte position, or the text ends there. -/
def Boundary (cs : List Char) (n : Nat) : Prop := ∃ a b, cs = a ++ b ∧ (encode a).length = n

theorem boundary_iff {cs : List Char} {n : Nat} : Boundary cs n ↔ split_at n cs ≠ none := by
  rw [Option.ne_none_iff_exists']
  constructor
  · rintro ⟨a, b, rfl, rfl⟩
    exact ⟨(a, b), split_at_append a b⟩
  · rintro ⟨⟨a, b⟩, h⟩
    obtain ⟨rfl, rfl⟩ := split_at_eq h
    exact ⟨a, b, rfl, rfl⟩

instance (cs : List Char) (n : Nat) : Decidable (Boundary cs n) :=
  decidable_of_iff _ boundary_iff.symm

theorem slice_from_eq_none {cs : List Char} {n : Nat} :
    slice_from cs n = none ↔ ¬Boundary cs n := by
  rw [slice_from, Option.map_eq_none_iff, boundary_iff, not_not]

/-- What lies between two boundaries can be cut out. -/
theorem slice_some {cs : List Char} {start stop : Nat} (hstart : Boundary cs start)
    (hstop : Boundary cs stop) (hle : start ≤ stop) : ∃ part, slice cs start stop = some part := by
  obtain ⟨a, b, rfl, rfl⟩ := hstart
  obtain ⟨c, d, heq, rfl⟩ := hstop
  have hpre : a <+: c := by
    rcases List.append_eq_append_iff.mp heq with ⟨m, rfl, -⟩ | ⟨m, rfl, -⟩
    · exact List.prefix_append _ _
    · rw [encode_append, List.length_append] at hle
      have hnil : encode m = [] := List.length_eq_zero_iff.mp (by omega)
      cases m with
      | nil => rw [List.append_nil]
      | cons x m =>
        obtain ⟨y, ys, henc, -⟩ := encode_starts x
        rw [encode_cons, henc] at hnil
        cases hnil
  obtain ⟨m, rfl⟩ := hpre
  rw [List.append_assoc] at heq
  have hb : b = m ++ d := List.append_cancel_left heq
  refine ⟨m, ?_⟩
  unfold slice
  rw [split_at_append, Option.bind_eq_bind, Option.bind_some]
  dsimp only
  rw [if_pos hle, encode_append, List.length_append, Nat.add_sub_cancel_left, hb, split_at_append]
  rfl

/-- A byte below 0x80 is a character, with a boundary in front of it and behind it. -/
theorem boundary_of_byte {cs : List Char} {n : Nat} {b : UInt8} (h : (encode cs)[n]? = some b)
    (hb : b.toNat < 0x80) : Boundary cs n ∧ Boundary cs (n + 1) := by
  induction cs generalizing n with
  | nil => cases h
  | cons c cs ih =>
    rw [encode_cons] at h
    by_cases hlt : n < (String.utf8EncodeChar c).length
    · rw [List.getElem?_append_left hlt] at h
      by_cases hc : Narrow c
      · rw [encode_narrow hc] at hlt h
        have hn : n = 0 := by
          rw [List.length_singleton] at hlt
          omega
        refine ⟨⟨[], c :: cs, rfl, by rw [hn]; rfl⟩, [c], cs, rfl, ?_⟩
        rw [hn, encode_cons, encode_narrow hc]
        rfl
      · have hwide := encode_wide hc b (List.mem_of_getElem? h)
        omega
    · rw [List.getElem?_append_right (by omega)] at h
      obtain ⟨⟨a, b, rfl, ha⟩, a', b', heq, ha'⟩ := ih h
      refine ⟨⟨c :: a, b, rfl, ?_⟩, c :: a', b', by rw [heq]; rfl, ?_⟩
      · rw [encode_cons, List.length_append, ha]
        omega
      · rw [encode_cons, List.length_append, ha']
        omega

/-! ## The closing quote -/

/-- Where the closing quote is, from the bytes at `i` on. A backslash takes the next byte with
it. -/
def find_quote (i : Nat) : List UInt8 → Option Nat
  | 0x5C :: _ :: bytes => find_quote (i + 2) bytes
  | b :: bytes => if b = 0x22 then some i else find_quote (i + 1) bytes
  | [] => none

theorem find_quote_cons {b : UInt8} (hslash : b ≠ 0x5C) (i : Nat) (bytes : List UInt8) :
    find_quote i (b :: bytes) = if b = 0x22 then some i else find_quote (i + 1) bytes := by
  rw [find_quote]
  exact fun _ _ h _ => hslash h

/-- The bytes of a wide character are passed over. -/
theorem find_quote_wide {bs : List UInt8} (h : ∀ b ∈ bs, 0x80 ≤ b.toNat) (i : Nat)
    (rest : List UInt8) : find_quote i (bs ++ rest) = find_quote (i + bs.length) rest := by
  induction bs generalizing i with
  | nil => rfl
  | cons b bs ih =>
    have hb := h b List.mem_cons_self
    have hslash : b ≠ 0x5C := by
      rintro rfl
      exact absurd hb (by decide)
    have hquote : b ≠ 0x22 := by
      rintro rfl
      exact absurd hb (by decide)
    rw [List.cons_append, find_quote_cons hslash, if_neg hquote,
      ih fun b' hb' => h b' (List.mem_cons_of_mem _ hb')]
    rw [List.length_cons]
    congr 1
    omega

theorem tail_wide {c : Char} {b : UInt8} {bs : List UInt8}
    (h : String.utf8EncodeChar c = b :: bs) : ∀ b' ∈ bs, 0x80 ≤ b'.toNat := by
  intro b' hb'
  by_cases hc : Narrow c
  · rw [encode_narrow hc] at h
    obtain ⟨-, rfl⟩ := List.cons.inj h
    cases hb'
  · exact encode_wide hc b' (by rw [h]; exact List.mem_cons_of_mem _ hb')

/-- The loop over the bytes finds the quote where the text is split. -/
theorem find_quote_encode (i : Nat) (cs : List Char) :
    find_quote i (encode cs) = (split_quoted cs).map fun r => i + (encode r.1).length := by
  induction cs using split_quoted.induct generalizing i with
  | case1 => rfl
  | case2 c cs ih =>
    obtain ⟨b, bs, henc, -⟩ := encode_starts c
    have hslash : encode ('\\' :: c :: cs) = 0x5C :: b :: (bs ++ encode cs) := by
      rw [encode_cons, encode_cons, henc]
      rfl
    rw [hslash, find_quote, find_quote_wide (tail_wide henc), ih, split_quoted_escape,
      Option.map_map]
    refine Option.map_congr fun r _ => ?_
    rw [Function.comp_apply, encode_cons, encode_cons, henc, List.length_append,
      List.length_append, List.length_cons]
    have hone : (String.utf8EncodeChar '\\').length = 1 := rfl
    omega
  | case3 cs =>
    rw [split_quoted]
    rfl
  | case4 c cs hslash hquote ih =>
    have hsplit : split_quoted (c :: cs) = (split_quoted cs).map fun r => (c :: r.1, r.2) := by
      rw [split_quoted]
      · exact hslash
      · exact hquote
    by_cases hc : c = '\\'
    · cases cs with
      | nil =>
        rw [hc]
        rfl
      | cons c' cs' => exact absurd rfl (hslash c' cs' hc)
    rw [hsplit, Option.map_map, encode_cons]
    have hnext (width : Nat) (hwidth : (String.utf8EncodeChar c).length = width) :
        find_quote (i + width) (encode cs) =
          (split_quoted cs).map ((fun r => i + (encode r.1).length) ∘ fun r => (c :: r.1, r.2)) := by
      rw [ih]
      refine Option.map_congr fun r _ => ?_
      rw [Function.comp_apply, encode_cons, List.length_append, hwidth, Nat.add_assoc]
    by_cases hnarrow : Narrow c
    · have hne {d : Char} (hd : Narrow d) (hcd : c ≠ d) :
          UInt8.ofNat c.val.toNat ≠ UInt8.ofNat d.val.toNat := by
        intro heq
        have hval := congrArg UInt8.toNat heq
        rw [toNat_narrow hnarrow, toNat_narrow hd] at hval
        exact hcd (Char.toNat_inj.mp hval)
      have hbackslash : UInt8.ofNat c.val.toNat ≠ 0x5C := hne (d := '\\') (by decide) hc
      have hdouble : UInt8.ofNat c.val.toNat ≠ 0x22 := hne (d := '"') (by decide) hquote
      rw [encode_narrow hnarrow, List.singleton_append, find_quote_cons hbackslash,
        if_neg hdouble]
      exact hnext 1 (by rw [encode_narrow hnarrow]; rfl)
    · rw [find_quote_wide (encode_wide hnarrow)]
      exact hnext _ rfl

/-! ## The loops over bytes -/

/-- The value of a literal's text, or the text itself. -/
def literal_lexical_bytes (raw : List Char) : Option (List Char) :=
  let raw := trim raw
  match raw with
  | '"' :: _ =>
    match find_quote 1 (encode raw).tail with
    | some i => (slice raw 1 i).map unescape_ntriples
    | none => some raw
  | _ => some raw

/-- The parts of a literal's text. -/
def literal_parts_bytes (raw : List Char) : Option Parts :=
  let raw := trim raw
  match raw with
  | '"' :: _ =>
    match find_quote 1 (encode raw).tail with
    | some i => do
      let value ← slice raw 1 i
      let tail ← slice_from raw (i + 1)
      some (suffix_parts value tail)
    | none => some { value := raw }
  | _ => some { value := raw }

theorem split_quoted_eq {cs : List Char} {r : List Char × List Char}
    (h : split_quoted cs = some r) : cs = r.1 ++ '"' :: r.2 := by
  induction cs using split_quoted.induct generalizing r with
  | case1 => cases h
  | case2 c cs ih =>
    rw [split_quoted_escape] at h
    obtain ⟨r, hr, rfl⟩ := Option.map_eq_some_iff.mp h
    rw [ih hr]
    rfl
  | case3 cs =>
    rw [split_quoted] at h
    cases h
    rfl
  | case4 c cs hslash hquote ih =>
    have hsplit : split_quoted (c :: cs) = (split_quoted cs).map fun r => (c :: r.1, r.2) := by
      rw [split_quoted]
      · exact hslash
      · exact hquote
    rw [hsplit] at h
    obtain ⟨r, hr, rfl⟩ := Option.map_eq_some_iff.mp h
    rw [ih hr]
    rfl

/-- Both cuts of the loops are at the quotes. -/
theorem cuts_at_quotes {cs : List Char} {r : List Char × List Char}
    (h : split_quoted cs = some r) :
    slice ('"' :: cs) 1 (1 + (encode r.1).length) = some r.1 ∧
      slice_from ('"' :: cs) (1 + (encode r.1).length + 1) = some r.2 := by
  have hone : encode ['"'] = [0x22] := rfl
  constructor
  · unfold slice
    have hfront : split_at 1 ('"' :: cs) = some (['"'], cs) := split_at_append ['"'] cs
    rw [hfront, Option.bind_eq_bind, Option.bind_some]
    dsimp only
    rw [if_pos (by omega), Nat.add_sub_cancel_left, split_quoted_eq h, split_at_append]
    rfl
  · have hback := split_at_append ('"' :: (r.1 ++ ['"'])) r.2
    have htext : '"' :: (r.1 ++ ['"']) ++ r.2 = '"' :: cs := by
      rw [split_quoted_eq h]
      simp
    have hlen : (encode ('"' :: (r.1 ++ ['"']))).length = 1 + (encode r.1).length + 1 := by
      rw [encode_cons, encode_append, hone, List.length_append, List.length_append]
      rfl
    rw [htext, hlen] at hback
    rw [slice_from, hback]
    rfl

theorem lexical_at_quote (cs : List Char) :
    (match (split_quoted cs).map fun r => 1 + (encode r.1).length with
      | some i => (slice ('"' :: cs) 1 i).map unescape_ntriples
      | none => some ('"' :: cs)) =
    some (match split_quoted cs with
      | some (value, _) => unescape_ntriples value
      | none => '"' :: cs) := by
  cases h : split_quoted cs with
  | none => rfl
  | some r =>
    rw [Option.map_some]
    dsimp only
    rw [(cuts_at_quotes h).1]
    rfl

theorem parts_at_quote (cs : List Char) :
    (match (split_quoted cs).map fun r => 1 + (encode r.1).length with
      | some i => do
        let value ← slice ('"' :: cs) 1 i
        let tail ← slice_from ('"' :: cs) (i + 1)
        some (suffix_parts value tail)
      | none => some { value := '"' :: cs }) =
    some (match split_quoted cs with
      | some (value, tail) => suffix_parts value tail
      | none => { value := '"' :: cs }) := by
  cases h : split_quoted cs with
  | none => rfl
  | some r =>
    rw [Option.map_some]
    dsimp only
    rw [(cuts_at_quotes h).1, (cuts_at_quotes h).2]
    rfl

/-- The loop of `literal_lexical` never cuts a character. -/
theorem literal_lexical_bytes_eq (raw : List Char) :
    literal_lexical_bytes raw = some (exec.literal_lexical raw) := by
  unfold literal_lexical_bytes exec.literal_lexical
  dsimp only
  split
  · rename_i cs heq
    rw [heq]
    have htail : (encode ('"' :: cs)).tail = encode cs := rfl
    rw [htail, find_quote_encode]
    exact lexical_at_quote cs
  · grind

/-- The loop of `literal_parts` never cuts a character. -/
theorem literal_parts_bytes_eq (raw : List Char) :
    literal_parts_bytes raw = some (literal_parts raw) := by
  unfold literal_parts_bytes literal_parts
  dsimp only
  split
  · rename_i cs heq
    rw [heq]
    have htail : (encode ('"' :: cs)).tail = encode cs := rfl
    rw [htail, find_quote_encode]
    exact parts_at_quote cs
  · grind

end horndb.sparql.text
