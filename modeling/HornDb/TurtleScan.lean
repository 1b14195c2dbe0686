-- The scan in step with a document: over the pieces of blank space and tokens it goes from the end
-- of one to the end of the next, so it meets the directives that stand behind them.
import HornDb.TurtleSyntax

open HornDb.Lib.Wire

namespace horndb.storage.turtle

/-! ## Where the scan comes by -/

/-- The scan comes by an offset, from a literal or not. -/
inductive Reaches (bytes : Bytes) : Nat → Bool → Prop where
  | start : Reaches bytes 0 false
  | step {i : Nat} {after : Bool} : Reaches bytes i after → i < bytes.length →
      Reaches bytes (scan_step bytes i after).1 (scan_step bytes i after).2.1

theorem scan_step_lt {bytes : Bytes} {i : Nat} (hi : i < bytes.length) (after : Bool) :
    i < (scan_step bytes i after).1 := by
  unfold scan_step
  dsimp only
  split
  · rename_i hb
    rw [List.getD_eq_getElem _ _ hi] at hb
    rw [List.drop_eq_getElem_cons hi, hb]
    simp [ascii]
  · split
    · unfold skip_iri
      dsimp only
      omega
    · split
      · unfold skip_literal
        dsimp only
        split <;> omega
      · split
        · exact Nat.lt_succ_self i
        · split
          · dsimp only
            omega
          · exact Nat.lt_succ_self i

theorem scan_from_succ (bytes : Bytes) (fuel i : Nat) (after : Bool) :
    scan_from bytes (fuel + 1) i after =
      if i < bytes.length then
        ((scan_step bytes i after).2.2.map fun kind => (i, kind)).toList ++
          scan_from bytes fuel (scan_step bytes i after).1 (scan_step bytes i after).2.1
      else [] := rfl

theorem scan_from_mono {bytes : Bytes} {x : Nat × Directive} (fuel more i : Nat) (after : Bool)
    (h : x ∈ scan_from bytes fuel i after) : x ∈ scan_from bytes (fuel + more) i after := by
  induction fuel generalizing i after with
  | zero => cases h
  | succ fuel ih =>
    rw [show fuel + 1 + more = fuel + more + 1 by omega, scan_from_succ]
    rw [scan_from_succ] at h
    split at h
    · rename_i hi
      rw [if_pos hi]
      rcases List.mem_append.mp h with h | h
      · exact List.mem_append_left _ h
      · exact List.mem_append_right _ (ih _ _ h)
    · cases h

theorem Reaches.rest {bytes : Bytes} {i : Nat} {after : Bool} (h : Reaches bytes i after) :
    ∀ x ∈ scan_from bytes (bytes.length - i) i after, x ∈ scan_directives bytes := by
  induction h with
  | start => exact fun x hx => hx
  | @step i after _ hi ih =>
    intro x hx
    have hlt := scan_step_lt hi after
    refine ih x ?_
    obtain ⟨fuel, hfuel⟩ : ∃ fuel, bytes.length - i = fuel + 1 := ⟨bytes.length - i - 1, by omega⟩
    rw [hfuel, scan_from_succ, if_pos hi]
    refine List.mem_append_right _ ?_
    have hmore := scan_from_mono _ (fuel - (bytes.length - (scan_step bytes i after).1)) _ _ hx
    rwa [Nat.add_sub_cancel' (by omega)] at hmore

/-- What the scan meets where it comes by is found. -/
theorem Reaches.found {bytes : Bytes} {i : Nat} {after : Bool} {kind : Directive}
    (h : Reaches bytes i after) (hi : i < bytes.length)
    (hkind : (scan_step bytes i after).2.2 = some kind) : (i, kind) ∈ scan_directives bytes := by
  refine h.rest _ ?_
  obtain ⟨fuel, hfuel⟩ : ∃ fuel, bytes.length - i = fuel + 1 := ⟨bytes.length - i - 1, by omega⟩
  rw [hfuel, scan_from_succ, if_pos hi]
  refine List.mem_append_left _ ?_
  rw [hkind]
  exact List.mem_singleton_self _

def is_quote (b : UInt8) : Bool := b = ascii '"' || b = ascii '\''

/-- The scan is in step with an offset: it comes by there, or steps over it inside a word. It comes
from a literal only behind a quote. -/
def InStep (bytes : Bytes) (p : Nat) : Prop :=
  ∃ j after, Reaches bytes j after ∧ p ≤ j ∧
    (∀ k, p ≤ k → k < j → is_name_byte (bytes.getD k 0) = true) ∧
    (p < j → 0 < p ∧ is_name_byte (bytes.getD (p - 1) 0) = true) ∧
    (after = true → 0 < j ∧ is_quote (bytes.getD (j - 1) 0) = true)

theorem in_step_start (bytes : Bytes) : InStep bytes 0 :=
  ⟨0, false, .start, le_refl 0, fun k _ h => by omega, fun h => by omega, fun h => by cases h⟩

/-- The scan comes by an offset that no word goes over. -/
theorem InStep.here {bytes : Bytes} {p : Nat} (h : InStep bytes p)
    (hword : is_name_byte (bytes.getD p 0) = false ∨ p = 0 ∨
      is_name_byte (bytes.getD (p - 1) 0) = false) :
    ∃ after, Reaches bytes p after ∧
      (after = true → 0 < p ∧ is_quote (bytes.getD (p - 1) 0) = true) := by
  obtain ⟨j, after, hreach, hle, hword', hback, hquote⟩ := h
  rcases Nat.eq_or_lt_of_le hle with rfl | hlt
  · exact ⟨after, hreach, hquote⟩
  · obtain ⟨hpos, hname⟩ := hback hlt
    have hfirst := hword' p (le_refl p) hlt
    rcases hword with hword | hword | hword
    · rw [hfirst] at hword
      cases hword
    · omega
    · rw [hname] at hword
      cases hword

/-- A step that comes from no literal, or ends behind a quote, is in step where it ends. -/
theorem in_step_of_reaches {bytes : Bytes} {p : Nat} {after : Bool} (h : Reaches bytes p after)
    (hquote : after = true → 0 < p ∧ is_quote (bytes.getD (p - 1) 0) = true) : InStep bytes p :=
  ⟨p, after, h, le_refl p, fun k h1 h2 => by omega, fun h => absurd h (lt_irrefl p), hquote⟩

/-! ## Pieces -/

/-- What the scan takes in one step: a byte, a comment up to its line feed, an IRI, a string
literal, or the bracket of a quoted triple. -/
inductive Piece where
  | byte (b : UInt8)
  | comment (body : Bytes)
  | iri (body : Bytes)
  | literal (q : UInt8) (long : Bool) (body : Bytes)
  | quoted (term : Bool)
deriving DecidableEq, Repr

namespace Piece

def bytes : Piece → Bytes
  | byte b => [b]
  | comment body => ascii '#' :: body
  | iri body => ascii '<' :: (body ++ [ascii '>'])
  | literal q long body => quotes q long ++ body ++ quotes q long
  | quoted term => open_quoted_bytes term

end Piece

/-- The bytes that start another piece. -/
def is_special (b : UInt8) : Bool := b = ascii '#' || b = ascii '<' || is_quote b

section Steps

variable {bytes front rest : Bytes}

theorem getD_front (b : UInt8) (s : Bytes) : (front ++ b :: s).getD front.length 0 = b := by
  simp

theorem word_bytes {i k : Nat} {p : UInt8 → Bool} (hlo : i ≤ k)
    (hhi : k < i + ((bytes.drop i).takeWhile p).length) : p (bytes.getD k 0) = true := by
  obtain ⟨m, rfl⟩ : ∃ m, k = i + m := ⟨k - i, by omega⟩
  have hpre := List.takeWhile_prefix (l := bytes.drop i) p
  have hle := hpre.length_le
  rw [List.length_drop] at hle
  have hlt : m < ((bytes.drop i).takeWhile p).length := by omega
  have hmem := List.getElem_mem hlt
  rw [hpre.getElem hlt, List.getElem_drop] at hmem
  rw [List.getD_eq_getElem _ _ (by omega)]
  exact List.mem_takeWhile_imp hmem

/-- Over a byte that starts nothing else. -/
theorem InStep.byte {b : UInt8} (h : InStep (front ++ b :: rest) front.length)
    (hb : is_special b = false) : InStep (front ++ b :: rest) (front.length + 1) := by
  obtain ⟨j, after, hreach, hle, hword, hback, hquote⟩ := h
  have hget : (front ++ b :: rest).getD front.length 0 = b := getD_front b rest
  rcases Nat.eq_or_lt_of_le hle with rfl | hlt
  · have hlen : front.length < (front ++ b :: rest).length := by simp
    have hnext := hreach.step hlen
    simp only [is_special, is_quote, Bool.or_eq_false_iff, decide_eq_false_iff_not] at hb
    obtain ⟨⟨hhash, hangle⟩, hdouble, hsingle⟩ := hb
    unfold scan_step at hnext
    dsimp only at hnext
    rw [hget, if_neg hhash, if_neg hangle, if_neg (by simp [hdouble, hsingle])] at hnext
    split at hnext
    · exact in_step_of_reaches hnext (fun h => by cases h)
    · split at hnext
      · rename_i hletter
        refine ⟨_, _, hnext, by dsimp only; omega, fun k h1 h2 => ?_, fun _ => ?_,
          fun h => by cases h⟩
        · exact word_bytes h1 h2
        · refine ⟨Nat.succ_pos _, ?_⟩
          rw [Nat.add_sub_cancel, hget]
          simp only [Bool.or_eq_true, decide_eq_true_eq] at hletter
          rcases hletter with ((rfl | rfl) | rfl) | rfl <;> decide
      · exact in_step_of_reaches hnext (fun h => by cases h)
  · refine ⟨j, after, hreach, hlt, fun k h1 h2 => hword k (by omega) h2, fun _ => ?_, hquote⟩
    have hname := hword front.length (le_refl _) hlt
    exact ⟨Nat.succ_pos _, hname⟩

/-- A step from where the scan comes by ends in step. -/
theorem InStep.jump {b : UInt8} {next : Nat} (h : InStep (front ++ b :: rest) front.length)
    (hb : is_name_byte b = false)
    (hnext : ∀ after, (scan_step (front ++ b :: rest) front.length after).1 = next)
    (hquote : ∀ after, (scan_step (front ++ b :: rest) front.length after).2.1 = true →
      0 < next ∧ is_quote ((front ++ b :: rest).getD (next - 1) 0) = true) :
    InStep (front ++ b :: rest) next := by
  obtain ⟨after, hreach, -⟩ := h.here (Or.inl (by rw [getD_front]; exact hb))
  have hstep := hreach.step (by simp)
  rw [hnext] at hstep
  exact in_step_of_reaches hstep (hquote after)

/-- Over a comment, up to the line feed behind it. -/
theorem InStep.comment {body : Bytes}
    (h : InStep (front ++ ascii '#' :: (body ++ rest)) front.length) (hbody : ascii '\n' ∉ body)
    (hrest : rest.head? = some (ascii '\n')) :
    InStep (front ++ ascii '#' :: (body ++ rest)) (front.length + (body.length + 1)) := by
  have hlen : ((ascii '#' :: (body ++ rest)).takeWhile (· ≠ ascii '\n')).length =
      body.length + 1 := by
    obtain ⟨more, rfl⟩ := List.head?_eq_some_iff.mp hrest
    rw [List.takeWhile_cons_of_pos (by decide), List.takeWhile_append_of_pos]
    · simp
    · intro b hb
      exact decide_eq_true fun heq => hbody (heq ▸ hb)
  have hstep : ∀ after, scan_step (front ++ ascii '#' :: (body ++ rest)) front.length after =
      (front.length + (body.length + 1), false, none) := by
    intro after
    unfold scan_step
    dsimp only
    rw [getD_front, if_pos rfl, List.drop_left, hlen]
  exact h.jump (by decide) (fun after => by rw [hstep]) fun after h => by
    rw [hstep] at h
    cases h

end Steps

/-! ## IRIs -/

section Iris

variable {s : Bytes}

theorem iri_len_plain {b : UInt8} (hslash : b ≠ ascii '\\') (hclose : b ≠ ascii '>')
    (hline : b ≠ ascii '\n') (s : Bytes) : iri_len (b :: s) = 1 + iri_len s := by
  cases s with
  | nil => simp [iri_len, hline]
  | cons c s => rw [iri_len, if_neg hslash, if_neg hclose, if_neg hline]

theorem iri_len_close (s : Bytes) : iri_len (ascii '>' :: s) = 1 := by
  cases s <;> rfl

theorem iri_len_escape (c : UInt8) (s : Bytes) :
    iri_len (ascii '\\' :: c :: s) = 2 + iri_len s := by
  rw [iri_len, if_pos rfl]

theorem hex_ne {b c : UInt8} (hb : is_hex b = true) (hc : is_hex c = false) : b ≠ c := by
  rintro rfl
  rw [hb] at hc
  cases hc

theorem iri_len_hex {hex : Bytes} (h : ∀ b ∈ hex, is_hex b = true) (s : Bytes) :
    iri_len (hex ++ s) = hex.length + iri_len s := by
  induction hex with
  | nil => simp
  | cons b hex ih =>
    have hb := h b List.mem_cons_self
    rw [List.cons_append, iri_len_plain (hex_ne hb (by decide)) (hex_ne hb (by decide))
      (hex_ne hb (by decide)), ih fun c hc => h c (List.mem_cons_of_mem b hc), List.length_cons]
    omega

/-- The escape of a code is stepped over as two bytes and the digits behind them. -/
theorem Uchar.split {code : Bytes} (h : Uchar code) :
    ∃ u hex, code = u :: hex ∧ ∀ b ∈ hex, is_hex b = true := by
  cases h with
  | four _ h => exact ⟨_, _, rfl, h⟩
  | eight _ h => exact ⟨_, _, rfl, h⟩

/-- An IRI ends at its bracket. -/
theorem iri_len_body {body : Bytes} (h : IriBody body) (s : Bytes) :
    iri_len (body ++ ascii '>' :: s) = body.length + 1 := by
  induction h with
  | nil => exact iri_len_close s
  | @char b rest hlow hout _ ih =>
    have hslash : b ≠ ascii '\\' := fun h => hout (h ▸ by decide)
    have hclose : b ≠ ascii '>' := fun h => hout (h ▸ by decide)
    have hline : b ≠ ascii '\n' := by
      rintro rfl
      exact absurd hlow (by decide)
    rw [List.cons_append, iri_len_plain hslash hclose hline, ih, List.length_cons]
    omega
  | @uchar code rest hcode _ ih =>
    obtain ⟨u, hex, rfl, hhex⟩ := hcode.split
    rw [List.cons_append, List.cons_append, List.cons_append, iri_len_escape, List.append_assoc,
      iri_len_hex hhex, ih]
    simp only [List.length_cons, List.length_append]
    omega

theorem InStep.iri {front body rest : Bytes}
    (h : InStep (front ++ ascii '<' :: (body ++ ascii '>' :: rest)) front.length)
    (hbody : IriBody body) : InStep (front ++ ascii '<' :: (body ++ ascii '>' :: rest))
      (front.length + (body.length + 2)) := by
  have hstep : ∀ after, scan_step (front ++ ascii '<' :: (body ++ ascii '>' :: rest)) front.length
      after = (front.length + (body.length + 2), false, none) := by
    intro after
    have hdrop : (front ++ ascii '<' :: (body ++ ascii '>' :: rest)).drop (front.length + 1) =
        body ++ ascii '>' :: rest := by
      rw [List.drop_append, List.drop_eq_nil_of_le (Nat.le_succ _), Nat.add_sub_cancel_left]
      rfl
    unfold scan_step
    dsimp only
    rw [getD_front, if_neg (by decide), if_pos rfl, skip_iri, hdrop, iri_len_body hbody,
      show front.length + 1 + (body.length + 1) = front.length + (body.length + 2) by omega]
  exact h.jump (by decide) (fun after => by rw [hstep]) fun after h => by
    rw [hstep] at h
    cases h

end Iris

/-! ## String literals -/

section Literals

variable {q : UInt8} {long : Bool}

theorem literal_len_plain {b : UInt8} (hslash : b ≠ ascii '\\') (hq : b ≠ q)
    (hline : long = true ∨ b ≠ ascii '\n') (s : Bytes) :
    literal_len q long (b :: s) = 1 + literal_len q long s := by
  have hstop : (decide (b = ascii '\n') && !long) = false := by
    rcases hline with hline | hline <;> simp [hline]
  cases s with
  | nil =>
    rw [literal_len, literal_len, Bool.and_assoc, hstop]
    simp
  | cons c s => rw [literal_len, if_neg hslash, if_neg hq, if_neg (by rw [hstop]; decide)]

theorem literal_len_escape (c : UInt8) (s : Bytes) :
    literal_len q long (ascii '\\' :: c :: s) = 2 + literal_len q long s := by
  rw [literal_len, if_pos rfl]

theorem literal_len_close_short (hq : q ≠ ascii '\\') (s : Bytes) :
    literal_len q false (q :: s) = 1 := by
  cases s with
  | nil => simp [literal_len]
  | cons c s => rw [literal_len, if_neg hq, if_pos rfl, if_pos (by decide)]

theorem literal_len_close_long (hq : q ≠ ascii '\\') (s : Bytes) :
    literal_len q true (q :: q :: q :: s) = 3 := by
  rw [literal_len, if_neg hq, if_pos rfl, if_neg (by decide), if_pos (by simp)]

/-- In a long string a quote that does not start its end is stepped over. -/
theorem literal_len_quote (hq : q ≠ ascii '\\') {c : UInt8} {s : Bytes}
    (hend : c = q → s.head? ≠ some q) :
    literal_len q true (q :: c :: s) = 1 + literal_len q true (c :: s) := by
  rw [literal_len, if_neg hq, if_pos rfl, if_neg (by decide), if_neg]
  simpa using hend

theorem quote_ne (hq : q = ascii '"' ∨ q = ascii '\'') :
    q ≠ ascii '\\' ∧ is_hex q = false ∧ is_special q = true ∧ is_name_byte q = false := by
  rcases hq with rfl | rfl <;> decide

theorem literal_len_hex {hex : Bytes} (h : ∀ b ∈ hex, is_hex b = true) (hq : is_hex q = false)
    (s : Bytes) : literal_len q long (hex ++ s) = hex.length + literal_len q long s := by
  induction hex with
  | nil => simp
  | cons b hex ih =>
    have hb := h b List.mem_cons_self
    rw [List.cons_append, literal_len_plain (hex_ne hb (by decide)) (hex_ne hb hq)
      (Or.inr (hex_ne hb (by decide))), ih fun c hc => h c (List.mem_cons_of_mem b hc),
      List.length_cons]
    omega

theorem literal_len_string_escape {code : Bytes} (h : StringEscape code) (hq : is_hex q = false)
    (s : Bytes) :
    literal_len q long (ascii '\\' :: (code ++ s)) = code.length + 1 + literal_len q long s := by
  cases h with
  | @echar b _ =>
    rw [List.singleton_append, literal_len_escape]
    rfl
  | uchar h =>
    obtain ⟨u, hex, rfl, hhex⟩ := h.split
    rw [List.cons_append, literal_len_escape, literal_len_hex hhex hq, List.length_cons]
    omega

/-- A short string ends at its quote. -/
theorem literal_len_short (hq : q = ascii '"' ∨ q = ascii '\'') {body : Bytes}
    (h : ShortBody q body) (s : Bytes) :
    literal_len q false (body ++ q :: s) = body.length + 1 := by
  obtain ⟨hslash, hhex, -, -⟩ := quote_ne hq
  induction h with
  | nil => exact literal_len_close_short hslash s
  | @char b rest hne hback heol _ ih =>
    have hline : b ≠ ascii '\n' := by
      rintro rfl
      exact absurd heol (by decide)
    rw [List.cons_append, literal_len_plain hback hne (Or.inr hline), ih, List.length_cons]
    omega
  | @escape code rest hcode _ ih =>
    rw [List.cons_append, List.append_assoc, literal_len_string_escape hcode hhex, ih,
      List.length_cons, List.length_append]
    omega

/-- One or two quotes in front of another byte are stepped over. -/
theorem literal_len_quotes (hq : q ≠ ascii '\\') {n : Nat} (hn : n ≤ 2) {b : UInt8} (hb : b ≠ q)
    (s : Bytes) :
    literal_len q true (List.replicate n q ++ b :: s) = n + literal_len q true (b :: s) := by
  have hone : literal_len q true (q :: b :: s) = 1 + literal_len q true (b :: s) :=
    literal_len_quote hq fun h => absurd h hb
  match n, hn with
  | 0, _ => simp
  | 1, _ => exact hone
  | 2, _ =>
    have htwo : literal_len q true (q :: q :: b :: s) = 1 + literal_len q true (q :: b :: s) :=
      literal_len_quote hq fun _ h => hb (Option.some.inj h)
    rw [show List.replicate 2 q ++ b :: s = q :: q :: b :: s from rfl, htwo, hone]
    omega

/-- A long string ends at its three quotes. -/
theorem literal_len_long (hq : q = ascii '"' ∨ q = ascii '\'') {body : Bytes}
    (h : LongBody q body) (s : Bytes) :
    literal_len q true (body ++ q :: q :: q :: s) = body.length + 3 := by
  obtain ⟨hslash, hhex, -, -⟩ := quote_ne hq
  induction h with
  | nil => exact literal_len_close_long hslash s
  | @char n b rest hn hne hback _ ih =>
    rw [List.append_assoc, List.cons_append, literal_len_quotes hslash hn hne,
      literal_len_plain hback hne (Or.inl rfl), ih]
    simp only [List.length_append, List.length_replicate, List.length_cons]
    omega
  | @escape n code rest hn hcode _ ih =>
    rw [List.append_assoc, List.cons_append, List.append_assoc,
      literal_len_quotes hslash hn hslash.symm, literal_len_string_escape hcode hhex, ih]
    simp only [List.length_append, List.length_replicate, List.length_cons]
    omega

theorem get_front (front s : Bytes) (k : Nat) : (front ++ s)[front.length + k]? = s[k]? := by
  rw [List.getElem?_append_right (Nat.le_add_right _ _), Nat.add_sub_cancel_left]

theorem drop_front (front s : Bytes) (k : Nat) :
    (front ++ s).drop (front.length + k) = s.drop k := by
  rw [List.drop_append, List.drop_eq_nil_of_le (Nat.le_add_right _ _), Nat.add_sub_cancel_left]
  rfl

variable {front rest : Bytes}

theorem skip_literal_short {s : Bytes} (h : s[0]? = some q → s[1]? ≠ some q) :
    skip_literal (front ++ q :: s) front.length = front.length + 1 + literal_len q false s := by
  have hlong : (decide ((front ++ q :: s)[front.length + 1]? = some q) &&
      decide ((front ++ q :: s)[front.length + 2]? = some q)) = false := by
    rw [get_front, get_front]
    simpa using h
  unfold skip_literal
  dsimp only
  rw [getD_front, hlong, if_neg (by decide), drop_front]
  rfl

theorem skip_literal_long (s : Bytes) :
    skip_literal (front ++ q :: q :: q :: s) front.length =
      front.length + 3 + literal_len q true s := by
  have hlong : (decide ((front ++ q :: q :: q :: s)[front.length + 1]? = some q) &&
      decide ((front ++ q :: q :: q :: s)[front.length + 2]? = some q)) = true := by
    rw [get_front, get_front]
    simp
  unfold skip_literal
  dsimp only
  rw [getD_front, hlong, if_pos rfl, drop_front]
  rfl

/-- From a quote where the literal is stepped over, to the quote that ends it. -/
theorem InStep.skip_literal {inner : Bytes} (hq : q = ascii '"' ∨ q = ascii '\'')
    (h : InStep (front ++ q :: (inner ++ q :: rest)) front.length)
    (hskip : skip_literal (front ++ q :: (inner ++ q :: rest)) front.length =
      front.length + (inner.length + 2)) :
    InStep (front ++ q :: (inner ++ q :: rest)) (front.length + (inner.length + 2)) := by
  have hstep : ∀ after, scan_step (front ++ q :: (inner ++ q :: rest)) front.length after =
      (front.length + (inner.length + 2), true, none) := by
    intro after
    unfold scan_step
    dsimp only
    rw [getD_front, if_neg (by rcases hq with rfl | rfl <;> decide),
      if_neg (by rcases hq with rfl | rfl <;> decide),
      if_pos (by rcases hq with rfl | rfl <;> decide), hskip]
  refine h.jump (quote_ne hq).2.2.2 (fun after => by rw [hstep]) fun _ _ => ⟨by omega, ?_⟩
  have hlast : front ++ q :: (inner ++ q :: rest) = (front ++ q :: inner) ++ q :: rest := by simp
  have hlen : front.length + (inner.length + 2) - 1 = (front ++ q :: inner).length := by simp
  rw [hlast, hlen, getD_front]
  rcases hq with rfl | rfl <;> decide

theorem InStep.short_literal {body : Bytes} (hq : q = ascii '"' ∨ q = ascii '\'')
    (hbody : ShortBody q body) (hempty : body = [] → rest.head? ≠ some q)
    (h : InStep (front ++ q :: (body ++ q :: rest)) front.length) :
    InStep (front ++ q :: (body ++ q :: rest)) (front.length + (body.length + 2)) := by
  refine h.skip_literal hq ?_
  have hopen : (body ++ q :: rest)[0]? = some q → (body ++ q :: rest)[1]? ≠ some q := by
    intro hfirst
    cases hbody with
    | nil => simpa [List.head?_eq_getElem?] using hempty rfl
    | char hne => exact absurd (Option.some.inj hfirst) hne
    | escape => exact absurd (Option.some.inj hfirst).symm (quote_ne hq).1
  rw [skip_literal_short hopen, literal_len_short hq hbody]
  omega

theorem InStep.long_literal {body : Bytes} (hq : q = ascii '"' ∨ q = ascii '\'')
    (hbody : LongBody q body)
    (h : InStep (front ++ q :: q :: q :: (body ++ q :: q :: q :: rest)) front.length) :
    InStep (front ++ q :: q :: q :: (body ++ q :: q :: q :: rest))
      (front.length + (body.length + 6)) := by
  have hshape : front ++ q :: q :: q :: (body ++ q :: q :: q :: rest) =
      front ++ q :: ((q :: q :: (body ++ [q, q])) ++ q :: rest) := by simp
  have hlen : body.length + 6 = (q :: q :: (body ++ [q, q])).length + 2 := by simp
  have hskip : turtle.skip_literal (front ++ q :: q :: q :: (body ++ q :: q :: q :: rest))
      front.length = front.length + 3 + literal_len q true (body ++ q :: q :: q :: rest) :=
    skip_literal_long _
  rw [literal_len_long hq hbody] at hskip
  rw [hshape] at h hskip ⊢
  rw [hlen]
  refine h.skip_literal hq ?_
  rw [hskip, ← hlen]
  omega

end Literals

/-! ## Over pieces -/

namespace Piece

/-- What is asked of a piece in front of other bytes for the scan to end where it does. -/
def Ok (after : Bytes) : Piece → Prop
  | byte b => is_special b = false
  | comment body => ascii '\n' ∉ body ∧ after.head? = some (ascii '\n')
  | iri body => IriBody body
  | literal q long body => (q = ascii '"' ∨ q = ascii '\'') ∧
      if long then LongBody q body else ShortBody q body ∧ (body = [] → after.head? ≠ some q)
  | quoted _ => True

def Quoted (p : Piece) : Prop := ∃ term, p = quoted term

end Piece

def bytes_of (ps : List Piece) : Bytes := ps.flatMap Piece.bytes

@[simp] theorem bytes_of_nil : bytes_of [] = [] := rfl

@[simp] theorem bytes_of_cons (p : Piece) (ps : List Piece) :
    bytes_of (p :: ps) = p.bytes ++ bytes_of ps := List.flatMap_cons

@[simp] theorem bytes_of_append (ps qs : List Piece) :
    bytes_of (ps ++ qs) = bytes_of ps ++ bytes_of qs := List.flatMap_append

def AllOk : List Piece → Bytes → Prop
  | [], _ => True
  | p :: ps, after => p.Ok (bytes_of ps ++ after) ∧ AllOk ps after

theorem all_ok_append {ps qs : List Piece} {after : Bytes} :
    AllOk (ps ++ qs) after ↔ AllOk ps (bytes_of qs ++ after) ∧ AllOk qs after := by
  induction ps with
  | nil => simp [AllOk]
  | cons p ps ih =>
    rw [List.cons_append, AllOk, AllOk, ih, bytes_of_append, List.append_assoc, and_assoc]

theorem InStep.piece {front : Bytes} {p : Piece} {after : Bytes}
    (h : InStep (front ++ (p.bytes ++ after)) front.length) (hok : p.Ok after) (hq : ¬ p.Quoted) :
    InStep (front ++ (p.bytes ++ after)) (front.length + p.bytes.length) := by
  cases p with
  | byte b => exact h.byte hok
  | comment body => exact h.comment hok.1 hok.2
  | iri body =>
    have hshape : (Piece.iri body).bytes ++ after = ascii '<' :: (body ++ ascii '>' :: after) := by
      simp [Piece.bytes]
    have hlen : (Piece.iri body).bytes.length = body.length + 2 := by simp [Piece.bytes]
    rw [hshape] at h ⊢
    rw [hlen]
    exact h.iri hok
  | literal q long body =>
    obtain ⟨hquote, hbody⟩ := hok
    cases long with
    | false =>
      have hshape : (Piece.literal q false body).bytes ++ after = q :: (body ++ q :: after) := by
        simp [Piece.bytes, quotes]
      have hlen : (Piece.literal q false body).bytes.length = body.length + 2 := by
        simp [Piece.bytes, quotes]
      rw [hshape] at h ⊢
      rw [hlen]
      exact h.short_literal hquote hbody.1 hbody.2
    | true =>
      have hshape : (Piece.literal q true body).bytes ++ after =
          q :: q :: q :: (body ++ q :: q :: q :: after) := by
        simp [Piece.bytes, quotes, List.replicate]
      have hlen : (Piece.literal q true body).bytes.length = body.length + 6 := by
        simp [Piece.bytes, quotes]
      rw [hshape] at h ⊢
      rw [hlen]
      exact h.long_literal hquote hbody
  | quoted term => exact absurd ⟨term, rfl⟩ hq

/-- Over the bracket of a quoted triple: up to the next closing bracket or line feed. -/
theorem InStep.quoted {front : Bytes} {term : Bool} {after : Bytes}
    (h : InStep (front ++ (open_quoted_bytes term ++ after)) front.length) :
    InStep (front ++ (open_quoted_bytes term ++ after))
      (skip_iri (front ++ (open_quoted_bytes term ++ after)) front.length) := by
  obtain ⟨more, hmore⟩ : ∃ more, open_quoted_bytes term ++ after = ascii '<' :: more := by
    cases term <;> exact ⟨_, rfl⟩
  rw [hmore] at h ⊢
  have hstep : ∀ from_literal, scan_step (front ++ ascii '<' :: more) front.length from_literal =
      (skip_iri (front ++ ascii '<' :: more) front.length, false, none) := by
    intro from_literal
    unfold scan_step
    dsimp only
    rw [getD_front, if_neg (by decide), if_pos rfl]
  exact h.jump (by decide) (fun from_literal => by rw [hstep]) fun from_literal h => by
    rw [hstep] at h
    cases h

/-- From the bracket of every quoted triple, the scan ends between two pieces. -/
def QuotedClear (bytes : Bytes) (ps : List Piece) : Prop :=
  ∀ front term back, ps = front ++ .quoted term :: back → ∃ passed more, back = passed ++ more ∧
    skip_iri bytes (bytes_of front).length = (bytes_of (front ++ .quoted term :: passed)).length

/-- Over pieces the scan is in step where the last one ends. The induction is on how many pieces
are left, since a quoted triple may take the scan over many of them. -/
theorem in_step_over {ps : List Piece} {after : Bytes} (hok : AllOk ps after)
    (hquoted : QuotedClear (bytes_of ps ++ after) ps) :
    InStep (bytes_of ps ++ after) (bytes_of ps).length := by
  suffices hover : ∀ n front back, back.length = n → ps = front ++ back →
      InStep (bytes_of ps ++ after) (bytes_of front).length →
      InStep (bytes_of ps ++ after) (bytes_of ps).length from
    hover ps.length [] ps rfl rfl (in_step_start _)
  intro n
  induction n using Nat.strong_induction_on with
  | h n ih =>
    intro front back hlen hps h
    cases back with
    | nil =>
      rw [List.append_nil] at hps
      rwa [hps] at h ⊢
    | cons p back =>
      rw [List.length_cons] at hlen
      have hbytes : bytes_of ps ++ after =
          bytes_of front ++ (p.bytes ++ (bytes_of back ++ after)) := by simp [hps]
      by_cases hq : p.Quoted
      · obtain ⟨term, rfl⟩ := hq
        obtain ⟨passed, more, rfl, hskip⟩ := hquoted front term back hps
        rw [List.length_append] at hlen
        refine ih more.length (by omega) (front ++ .quoted term :: passed) more rfl
          (by simp [hps]) ?_
        rw [← hskip]
        rw [hbytes] at h ⊢
        exact h.quoted
      · refine ih back.length (by omega) (front ++ [p]) back rfl (by simp [hps]) ?_
        have hpiece : p.Ok (bytes_of back ++ after) := by
          rw [hps] at hok
          exact (all_ok_append.mp hok).2.1
        have hend : (bytes_of (front ++ [p])).length =
            (bytes_of front).length + p.bytes.length := by
          simp
        rw [hend]
        rw [hbytes] at h ⊢
        exact h.piece hpiece hq

end horndb.storage.turtle
