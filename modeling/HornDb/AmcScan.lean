-- The scan for hints, byte by byte: what each step takes, and that what is left of an operation
-- without the verbs gives no token that the hints are made of.
import HornDb.TurtleScan
import HornDb.UpdateText

open HornDb.Lib.Wire (Bytes)
open horndb.storage
open horndb.storage.turtle hiding Token Lexeme

namespace horndb.sparql.update_text

/-! ## Bytes -/

section

set_option maxRecDepth 4000

theorem byte_all {p : UInt8 → Bool} (h : (List.range 256).all (fun n => p n.toUInt8) = true)
    (b : UInt8) : p b = true := by
  have hb := List.all_eq_true.mp h b.toNat (List.mem_range.mpr b.toNat_lt)
  simpa using hb

theorem byte_imp {p q : UInt8 → Bool}
    (h : (List.range 256).all (fun n => !p n.toUInt8 || q n.toUInt8) = true) {b : UInt8}
    (hb : p b = true) : q b = true := by
  have himp := byte_all (p := fun b => !p b || q b) h b
  simp only [hb, Bool.not_true, Bool.false_or] at himp
  exact himp

/-- A byte that the scan takes alone, and gives no keyword for. -/
def is_plain (b : UInt8) : Bool :=
  !is_pname_start b && b ≠ ascii '#' && b ≠ ascii '<' && b ≠ ascii '"' && b ≠ ascii '\''

theorem start_cont {b : UInt8} (h : is_pname_start b = true) : is_pname_cont b = true := by
  unfold is_pname_cont
  rw [h]
  rfl

theorem start_word {b : UInt8} (h : is_pname_start b = true) :
    (!is_ws b && b ≠ ascii '#' && b ≠ ascii '<' && b ≠ ascii '"' && b ≠ ascii '\'') = true :=
  byte_imp (q := fun b => !is_ws b && b ≠ ascii '#' && b ≠ ascii '<' && b ≠ ascii '"' &&
    b ≠ ascii '\'') (by decide) h

theorem ws_plain {b : UInt8} (h : is_ws b = true) : is_plain b = true := byte_imp (by decide) h

theorem joins_plain {b : UInt8} (h : joins b = true) : is_plain b = true := byte_imp (by decide) h

theorem cont_no_close {b : UInt8} (h : is_pname_cont b = true) : b ≠ ascii '>' := by
  rintro rfl
  exact absurd h (by decide)

theorem pn_char_cont {b : UInt8} (h : is_pn_char b = true) : is_pname_cont b = true :=
  byte_imp (by decide) h

theorem hex_iri_byte {b : UInt8} (h : is_hex b = true) : is_iri_byte b = true :=
  byte_imp (by decide) h

theorem iri_byte_of_plain {b : UInt8} (hlow : 0x20 < b) (hout : b ∉ iri_excluded) :
    is_iri_byte b = true :=
  byte_imp (p := fun b => decide (0x20 < b) && decide (b ∉ iri_excluded)) (by decide) (by
    simp only [hlow, hout, not_false_eq_true, decide_true, Bool.and_self])

end

theorem iri_body_bytes {body : Bytes} (h : IriBody body) : ∀ b ∈ body, is_iri_byte b = true := by
  induction h with
  | nil => simp
  | char hlow hout _ ih => exact List.forall_mem_cons.mpr ⟨iri_byte_of_plain hlow hout, ih⟩
  | @uchar code rest hcode _ ih =>
    have hcode : ∀ b ∈ code, is_iri_byte b = true := by
      cases hcode with
      | four _ hhex =>
        exact List.forall_mem_cons.mpr ⟨by decide, fun b hb => hex_iri_byte (hhex b hb)⟩
      | eight _ hhex =>
        exact List.forall_mem_cons.mpr ⟨by decide, fun b hb => hex_iri_byte (hhex b hb)⟩
    refine List.forall_mem_cons.mpr ⟨by decide, fun b hb => ?_⟩
    rcases List.mem_append.mp hb with hb | hb
    · exact hcode b hb
    · exact ih b hb

/-! ## Runs of bytes -/

/-- The byte in front is not in a run. -/
def Ends (p : UInt8 → Bool) (s : Bytes) : Prop := ∀ b, s.head? = some b → p b = false

theorem Ends.dropWhile {p : UInt8 → Bool} {s : Bytes} (h : Ends p s) : s.dropWhile p = s := by
  cases s with
  | nil => rfl
  | cons b s =>
    rw [List.dropWhile_cons_of_neg]
    rw [h b rfl]
    simp

theorem Ends.takeWhile {p : UInt8 → Bool} {s : Bytes} (h : Ends p s) : s.takeWhile p = [] := by
  cases s with
  | nil => rfl
  | cons b s =>
    rw [List.takeWhile_cons_of_neg]
    rw [h b rfl]
    simp

theorem Ends.takeWhile_head {p q : UInt8 → Bool} {s : Bytes} (h : Ends q s) :
    Ends q (s.takeWhile p) := by
  intro b hb
  cases s with
  | nil => cases hb
  | cons c s =>
    rw [List.takeWhile_cons] at hb
    split at hb
    · exact h b hb
    · cases hb

theorem Ends.imp {p q : UInt8 → Bool} {s : Bytes} (h : Ends p s)
    (himp : ∀ {b}, q b = true → p b = true) : Ends q s := by
  intro b hb
  by_contra hq
  have hp := himp (by simpa using hq : q b = true)
  rw [h b hb] at hp
  cases hp

theorem ends_dropWhile (p : UInt8 → Bool) (s : Bytes) : Ends p (s.dropWhile p) := by
  intro b hb
  have hne : s.dropWhile p ≠ [] := by
    intro hnil
    rw [hnil] at hb
    cases hb
  have hnot := List.head_dropWhile_not p hne
  rw [List.head?_eq_some_head hne, Option.some.injEq] at hb
  rwa [hb] at hnot

theorem takeWhile_run {p : UInt8 → Bool} {w : Bytes} (hw : ∀ b ∈ w, p b = true) (s : Bytes) :
    (w ++ s).takeWhile p = w ++ s.takeWhile p := List.takeWhile_append_of_pos hw

theorem dropWhile_run {p : UInt8 → Bool} {w : Bytes} (hw : ∀ b ∈ w, p b = true) (s : Bytes) :
    (w ++ s).dropWhile p = s.dropWhile p := List.dropWhile_append_of_pos hw

/-! ## Steps of the scan -/

variable {prev c : UInt8} {rest : Bytes}

theorem scan_ws (h : is_ws c = true) : amc_tokens prev (c :: rest) = amc_tokens c rest := by
  rw [amc_tokens, if_pos h]

theorem scan_comment :
    amc_tokens prev (ascii '#' :: rest) =
      amc_tokens (ascii '#') (rest.dropWhile (· ≠ ascii '\n')) := by
  rw [amc_tokens, if_neg (by decide), if_pos rfl]

theorem scan_iri {body : Bytes} (h : ∀ b ∈ body, is_iri_byte b = true) :
    amc_tokens prev (ascii '<' :: (body ++ ascii '>' :: rest)) =
      (if ascii '\\' ∈ body then .Escaped else .Iri body) :: amc_tokens (ascii '>') rest := by
  have hends : Ends is_iri_byte (ascii '>' :: rest) := by
    intro b hb
    rw [← Option.some.inj hb]
    decide
  rw [amc_tokens, if_neg (by decide), if_neg (by decide), if_pos rfl]
  split
  · rename_i d after heq
    rw [dropWhile_run h, hends.dropWhile] at heq
    obtain ⟨rfl, rfl⟩ := List.cons.inj heq
    rw [if_pos rfl, takeWhile_run h, hends.takeWhile, List.append_nil]
  · rename_i heq
    rw [dropWhile_run h, hends.dropWhile] at heq
    cases heq

/-- A `<` that no bracket closes is taken alone. -/
theorem scan_less (h : (rest.dropWhile is_iri_byte).head? ≠ some (ascii '>')) :
    amc_tokens prev (ascii '<' :: rest) = .Other :: amc_tokens (ascii '<') rest := by
  rw [amc_tokens, if_neg (by decide), if_neg (by decide), if_pos rfl]
  split
  · rename_i d after heq
    rw [heq] at h
    rw [if_neg]
    rintro rfl
    exact h rfl
  · rfl

theorem scan_quote (h : c = ascii '"' ∨ c = ascii '\'') :
    amc_tokens prev (c :: rest) = .Other :: amc_tokens c (amc_skip_string c rest) := by
  rw [amc_tokens]
  rcases h with rfl | rfl
  · rw [if_neg (by decide), if_neg (by decide), if_neg (by decide), if_pos (by decide)]
  · rw [if_neg (by decide), if_neg (by decide), if_neg (by decide), if_pos (by decide)]

theorem scan_run (prev : UInt8) (rest : Bytes) (h : is_pname_start c = true) :
    ∃ last, is_pname_cont last = true ∧ amc_tokens prev (c :: rest) =
      word_token prev (trim_dots (c :: rest.takeWhile is_pname_cont))
        (rest.dropWhile is_pname_cont).head? ::
      amc_tokens last (rest.dropWhile is_pname_cont) := by
  have hword := start_word h
  simp only [Bool.and_eq_true, Bool.not_eq_true', decide_eq_true_eq] at hword
  obtain ⟨⟨⟨⟨hws, hhash⟩, hless⟩, hdouble⟩, hsingle⟩ := hword
  refine ⟨(c :: rest.takeWhile is_pname_cont).getLastD c, ?_, ?_⟩
  · rw [List.getLastD_cons]
    rcases List.eq_nil_or_concat (rest.takeWhile is_pname_cont) with hnil | ⟨front, d, hrun⟩
    · rw [hnil]
      exact start_cont h
    · rw [hrun, List.concat_eq_append, List.getLastD_concat]
      apply List.mem_takeWhile_imp (l := rest)
      rw [hrun]
      simp
  · rw [amc_tokens, hws, if_neg (by decide), if_neg hhash, if_neg hless, if_neg (by simp [*]),
      if_pos h]

/-- A byte of no token that the scan knows. -/
theorem scan_byte (h : is_plain c = true) (hws : is_ws c = false) :
    amc_tokens prev (c :: rest) = .Other :: amc_tokens c rest := by
  simp only [is_plain, Bool.and_eq_true, Bool.not_eq_true', decide_eq_true_eq] at h
  obtain ⟨⟨⟨⟨hstart, hhash⟩, hless⟩, hdouble⟩, hsingle⟩ := h
  rw [amc_tokens, hws, if_neg (by decide), if_neg hhash, if_neg hless, if_neg (by simp [*]),
    hstart, if_neg (by decide)]

/-- Only a word is read against the byte before it. -/
theorem scan_prev (h : Ends is_pname_start rest) (other : UInt8) :
    amc_tokens prev rest = amc_tokens other rest := by
  cases rest with
  | nil => rw [amc_tokens, amc_tokens]
  | cons c rest =>
    have hstart := h c rfl
    rw [amc_tokens, amc_tokens, hstart, if_neg (c := false = true) (by decide),
      if_neg (c := false = true) (by decide)]

/-! ## Words -/

/-- A token that no hint and no prologue starts with. -/
def quiet : AmcTok → Bool
  | .Amc _ | .Prefix | .Base => false
  | _ => true

theorem word_token_quiet {prev : UInt8} {w : Bytes} {next : Option UInt8}
    (h : is_sigil prev = true ∨ next = some (ascii '\\') ∨ reserved w = false) :
    quiet (word_token prev w next) = true := by
  unfold word_token
  by_cases hsigil : (decide (prev = ascii '?') || decide (prev = ascii '$')) = true
  · rw [if_pos hsigil]
    rfl
  rw [if_neg hsigil]
  by_cases hescape : next = some (ascii '\\')
  · rw [if_pos hescape]
    rfl
  rw [if_neg hescape]
  have hw := (h.resolve_left hsigil).resolve_left hescape
  simp only [reserved, Bool.or_eq_false_iff] at hw
  obtain ⟨⟨⟨⟨hadd, hcopy⟩, hmove⟩, hpfx⟩, hbase⟩ := hw
  rw [hadd, hcopy, hmove, hpfx, hbase]
  simp only [Bool.false_eq_true, if_false]
  split
  · rfl
  · split
    · rfl
    · split
      · rfl
      · split <;> rfl

/-! ## What is left of an operation -/

/-- What is left of an operation, with `tail` behind it, at a byte where the scan is in step. -/
inductive InBody (tail : Bytes) : Bytes → Prop where
  | done : InBody tail tail
  | byte {b : UInt8} {rest : Bytes} : is_plain b = true → InBody tail rest → InBody tail (b :: rest)
  | run {b : UInt8} {w rest : Bytes} : is_pname_start b = true →
      (∀ c ∈ w, is_pname_cont c = true) → Ends is_pname_cont rest →
      (rest.head? = some (ascii '\\') ∨ reserved (trim_dots (b :: w)) = false) →
      InBody tail rest → InBody tail (b :: (w ++ rest))
  | var {sigil b : UInt8} {w rest : Bytes} : is_sigil sigil = true → is_pname_start b = true →
      (∀ c ∈ w, is_pname_cont c = true) → Ends is_pname_cont rest → InBody tail rest →
      InBody tail (sigil :: b :: (w ++ rest))
  | comment {body rest : Bytes} : ascii '\n' ∉ body → InBody tail (ascii '\n' :: rest) →
      InBody tail (ascii '#' :: (body ++ ascii '\n' :: rest))
  | string {q : UInt8} {inner : Bytes} : q = ascii '"' ∨ q = ascii '\'' →
      InBody tail (amc_skip_string q inner) → InBody tail (q :: inner)
  | iri {body rest : Bytes} : (∀ b ∈ body, is_iri_byte b = true) → InBody tail rest →
      InBody tail (ascii '<' :: (body ++ ascii '>' :: rest))
  /-- A comparison that is taken for an IRI ends within the operation. -/
  | less {rest : Bytes} :
      (∀ inner after, rest = inner ++ ascii '>' :: after → (∀ b ∈ inner, is_iri_byte b = true) →
        ascii '#' ∉ inner ∧ ascii '\'' ∉ inner ∧ tail.length ≤ after.length) →
      InBody tail rest → InBody tail (ascii '<' :: rest)

namespace InBody

variable {tail s : Bytes}

/-- Past the run of a word that is met in its middle. -/
theorem drop_run (h : InBody tail s) (htail : Ends is_pname_cont tail) :
    InBody tail (s.dropWhile is_pname_cont) := by
  induction h with
  | done =>
    rw [htail.dropWhile]
    exact .done
  | @byte b rest hb hrest ih =>
    by_cases hcont : is_pname_cont b = true
    · rwa [List.dropWhile_cons_of_pos hcont]
    · rw [List.dropWhile_cons_of_neg hcont]
      exact .byte hb hrest
  | @run b w rest hb hw hends _ hrest _ =>
    rw [List.dropWhile_cons_of_pos (start_cont hb), dropWhile_run hw, hends.dropWhile]
    exact hrest
  | @var sigil b w rest hsigil hb hw hends hrest _ =>
    rw [List.dropWhile_cons_of_neg]
    · exact .var hsigil hb hw hends hrest
    · simp only [is_sigil, Bool.or_eq_true, decide_eq_true_eq] at hsigil
      rcases hsigil with rfl | rfl <;> decide
  | comment hbody hrest _ =>
    rw [List.dropWhile_cons_of_neg (by decide)]
    exact .comment hbody hrest
  | string hq hrest _ =>
    rw [List.dropWhile_cons_of_neg (by rcases hq with rfl | rfl <;> decide)]
    exact .string hq hrest
  | iri hbody hrest _ =>
    rw [List.dropWhile_cons_of_neg (by decide)]
    exact .iri hbody hrest
  | less hless hrest _ =>
    rw [List.dropWhile_cons_of_neg (by decide)]
    exact .less hless hrest

/-- A list of bytes without `>` in front of another is in front of its `>` too. -/
theorem append_close {w rest inner after : Bytes} (hw : ∀ b ∈ w, b ≠ ascii '>')
    (h : w ++ rest = inner ++ ascii '>' :: after) :
    ∃ more, inner = w ++ more ∧ rest = more ++ ascii '>' :: after := by
  rcases List.append_eq_append_iff.mp h with ⟨more, hinner, hrest⟩ | ⟨more, hw', hafter⟩
  · exact ⟨more, hinner, hrest⟩
  · cases more with
    | nil => exact ⟨[], by simpa using hw'.symm, by simpa using hafter.symm⟩
    | cons c more =>
      rw [List.cons_append, List.cons.injEq] at hafter
      exact absurd hafter.1.symm (hw c (by rw [hw']; simp))

/-- Past the bracket of a comparison that is taken for an IRI. -/
theorem jump (h : InBody tail s) {inner after : Bytes} (hs : s = inner ++ ascii '>' :: after)
    (hinner : ∀ b ∈ inner, is_iri_byte b = true) (hhash : ascii '#' ∉ inner)
    (hquote : ascii '\'' ∉ inner) (hlen : tail.length ≤ after.length) : InBody tail after := by
  induction h generalizing inner with
  | done =>
    have hlength := congrArg List.length hs
    rw [List.length_append, List.length_cons] at hlength
    omega
  | @byte b rest _ hrest ih =>
    cases inner with
    | nil =>
      rw [List.nil_append, List.cons.injEq] at hs
      rwa [← hs.2]
    | cons c inner =>
      rw [List.cons_append, List.cons.injEq] at hs
      rw [List.forall_mem_cons] at hinner
      exact ih hs.2 hinner.2 (fun h => hhash (List.mem_cons_of_mem c h))
        fun h => hquote (List.mem_cons_of_mem c h)
  | @run b w rest hb hw _ _ _ ih =>
    obtain ⟨more, rfl, hrest⟩ := append_close (w := b :: w) (List.forall_mem_cons.mpr
      ⟨cont_no_close (start_cont hb), fun c hc => cont_no_close (hw c hc)⟩) hs
    exact ih hrest (fun b hb => hinner b (List.mem_append_right _ hb))
      (fun h => hhash (List.mem_append_right _ h)) fun h => hquote (List.mem_append_right _ h)
  | @var sigil b w rest hsigil hb hw _ _ ih =>
    have hclose : sigil ≠ ascii '>' := by
      simp only [is_sigil, Bool.or_eq_true, decide_eq_true_eq] at hsigil
      rcases hsigil with rfl | rfl <;> decide
    obtain ⟨more, rfl, hrest⟩ := append_close (w := sigil :: b :: w) (List.forall_mem_cons.mpr
      ⟨hclose, List.forall_mem_cons.mpr
        ⟨cont_no_close (start_cont hb), fun c hc => cont_no_close (hw c hc)⟩⟩) hs
    exact ih hrest (fun b hb => hinner b (List.mem_append_right _ hb))
      (fun h => hhash (List.mem_append_right _ h)) fun h => hquote (List.mem_append_right _ h)
  | comment =>
    cases inner with
    | nil => exact absurd (List.cons.inj hs).1 (by decide)
    | cons c inner =>
      rw [List.cons_append, List.cons.injEq] at hs
      exact absurd (hs.1 ▸ List.mem_cons_self) hhash
  | string hq =>
    cases inner with
    | nil =>
      have hclose := (List.cons.inj hs).1
      rcases hq with rfl | rfl <;> exact absurd hclose (by decide)
    | cons c inner =>
      rw [List.cons_append, List.cons.injEq] at hs
      rcases hq with rfl | rfl
      · exact absurd (hinner c List.mem_cons_self) (by rw [← hs.1]; decide)
      · exact absurd (hs.1 ▸ List.mem_cons_self) hquote
  | iri | less =>
    cases inner with
    | nil => exact absurd (List.cons.inj hs).1 (by decide)
    | cons c inner =>
      rw [List.cons_append, List.cons.injEq] at hs
      exact absurd (hinner c List.mem_cons_self) (by rw [← hs.1]; decide)

/-- The scan of an operation gives quiet tokens, and is in step behind it. -/
theorem scan (h : InBody tail s) (htail : Ends is_pname_start tail) (prev : UInt8) :
    ∃ qs, (∀ t ∈ qs, quiet t = true) ∧ amc_tokens prev s = qs ++ amc_tokens 0 tail := by
  induction hk : s.length using Nat.strong_induction_on generalizing s prev with
  | _ k ih =>
    subst hk
    cases h with
    | done => exact ⟨[], by simp, by rw [scan_prev htail 0, List.nil_append]⟩
    | @byte b rest hb hrest =>
      obtain ⟨qs, hqs, hscan⟩ := ih rest.length (by simp) hrest b rfl
      by_cases hws : is_ws b = true
      · exact ⟨qs, hqs, by rw [scan_ws hws, hscan]⟩
      · refine ⟨.Other :: qs, List.forall_mem_cons.mpr ⟨rfl, hqs⟩, ?_⟩
        rw [scan_byte hb (by simpa using hws), hscan, List.cons_append]
    | @run b w rest hb hw hends hquiet hrest =>
      obtain ⟨last, _, hstep⟩ := scan_run prev (w ++ rest) hb
      rw [takeWhile_run hw, dropWhile_run hw, hends.takeWhile, hends.dropWhile,
        List.append_nil] at hstep
      obtain ⟨qs, hqs, hscan⟩ := ih rest.length (by simp) hrest last rfl
      have hword : quiet (word_token prev (trim_dots (b :: w)) rest.head?) = true :=
        word_token_quiet (.inr hquiet)
      refine ⟨_ :: qs, List.forall_mem_cons.mpr ⟨hword, hqs⟩, ?_⟩
      rw [hstep, hscan, List.cons_append]
    | @var sigil b w rest hsigil hb hw hends hrest =>
      have hplain : is_plain sigil = true ∧ is_ws sigil = false := by
        have hs := hsigil
        simp only [is_sigil, Bool.or_eq_true, decide_eq_true_eq] at hs
        rcases hs with rfl | rfl <;> decide
      obtain ⟨last, _, hstep⟩ := scan_run sigil (w ++ rest) hb
      rw [takeWhile_run hw, dropWhile_run hw, hends.takeWhile, hends.dropWhile,
        List.append_nil] at hstep
      obtain ⟨qs, hqs, hscan⟩ := ih rest.length (by simp; omega) hrest last rfl
      have hword : quiet (word_token sigil (trim_dots (b :: w)) rest.head?) = true :=
        word_token_quiet (.inl hsigil)
      refine ⟨.Other :: _ :: qs, List.forall_mem_cons.mpr ⟨rfl, List.forall_mem_cons.mpr
        ⟨hword, hqs⟩⟩, ?_⟩
      rw [scan_byte hplain.1 hplain.2, hstep, hscan, List.cons_append, List.cons_append]
    | @comment body rest hbody hrest =>
      obtain ⟨qs, hqs, hscan⟩ := ih (ascii '\n' :: rest).length (by simp) hrest
        (ascii '#') rfl
      refine ⟨qs, hqs, ?_⟩
      rw [scan_comment, dropWhile_run, List.dropWhile_cons_of_neg (by simp), hscan]
      intro b hb
      simp only [ne_eq, decide_not, Bool.not_eq_true', decide_eq_false_iff_not]
      rintro rfl
      exact hbody hb
    | @string q inner hq hrest =>
      have hle := amc_skip_string_le q inner
      obtain ⟨qs, hqs, hscan⟩ := ih _ (by rw [List.length_cons]; omega) hrest q rfl
      exact ⟨.Other :: qs, List.forall_mem_cons.mpr ⟨rfl, hqs⟩, by rw [scan_quote hq, hscan]; rfl⟩
    | @iri body rest hbody hrest =>
      obtain ⟨qs, hqs, hscan⟩ := ih rest.length (by simp; omega) hrest (ascii '>') rfl
      refine ⟨_ :: qs, List.forall_mem_cons.mpr ⟨?_, hqs⟩, by rw [scan_iri hbody, hscan]; rfl⟩
      split <;> rfl
    | @less rest hless hrest =>
      by_cases hfake : (rest.dropWhile is_iri_byte).head? = some (ascii '>')
      · -- taken for an IRI
        obtain ⟨after, hafter⟩ : ∃ after, rest.dropWhile is_iri_byte = ascii '>' :: after :=
          List.head?_eq_some_iff.mp hfake
        have hsplit : rest = rest.takeWhile is_iri_byte ++ ascii '>' :: after := by
          rw [← hafter, List.takeWhile_append_dropWhile]
        have hinner : ∀ b ∈ rest.takeWhile is_iri_byte, is_iri_byte b = true :=
          fun b hb => List.mem_takeWhile_imp hb
        obtain ⟨hhash, hquote, hlen⟩ := hless _ _ hsplit hinner
        have hbody := hrest.jump hsplit hinner hhash hquote hlen
        have hlt : after.length < (ascii '<' :: rest).length := by
          have hlength := congrArg List.length hsplit
          rw [List.length_append, List.length_cons] at hlength
          rw [List.length_cons]
          omega
        obtain ⟨qs, hqs, hscan⟩ := ih _ hlt hbody (ascii '>') rfl
        have hstep : amc_tokens prev (ascii '<' :: (rest.takeWhile is_iri_byte ++
            ascii '>' :: after)) = _ := scan_iri hinner
        rw [← hsplit, hscan, ← List.cons_append] at hstep
        refine ⟨_, ?_, hstep⟩
        rw [List.forall_mem_cons]
        refine ⟨?_, hqs⟩
        split <;> rfl
      · obtain ⟨qs, hqs, hscan⟩ := ih rest.length (by simp) hrest (ascii '<') rfl
        exact ⟨.Other :: qs, List.forall_mem_cons.mpr ⟨rfl, hqs⟩, by
          rw [scan_less hfake, hscan]; rfl⟩

end InBody

end horndb.sparql.update_text
