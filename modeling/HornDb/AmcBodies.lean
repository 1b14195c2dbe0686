-- The tokens of an operation without the verbs, written out with their blank space, are a text
-- in which the scan stays in step.
import HornDb.AmcScan

open HornDb.Lib.Wire (Bytes)
open horndb.storage
open horndb.storage.turtle hiding Token Lexeme

namespace horndb.sparql.update_text

/-! ## Keywords -/

/-- The bytes that stand behind the backslash of a local name. -/
def escaped_bytes : Bytes :=
  ascii_text ['_', '~', '.', '-', '!', '$', '&', '\'', '(', ')', '*', '+', ',', ';', '=', '/', '?',
    '#', '@', '%']

section

set_option maxRecDepth 4000

variable {b : UInt8}

theorem lower_letter (h : is_letter (to_ascii_lowercase b) = true) :
    is_letter b = true := byte_imp (p := fun b => is_letter (to_ascii_lowercase b)) (by decide) h

theorem name_start (h : (is_pn_char b && b ≠ ascii '-') = true) : is_pname_start b = true :=
  byte_imp (p := fun b => is_pn_char b && b ≠ ascii '-') (by decide) h

theorem letter_start (h : is_letter b = true) : is_pname_start b = true :=
  byte_imp (by decide) h

theorem alphanumeric_cont (h : (is_ascii_alphanumeric b || b = ascii '_') = true) :
    is_pname_cont b = true :=
  byte_imp (p := fun b => is_ascii_alphanumeric b || b = ascii '_') (by decide) h

theorem tag_cont (h : (is_ascii_alphanumeric b || b = ascii '-') = true) : is_pname_cont b = true :=
  byte_imp (p := fun b => is_ascii_alphanumeric b || b = ascii '-') (by decide) h

theorem letter_alphanumeric (h : is_letter b = true) :
    is_ascii_alphanumeric b = true := byte_imp (by decide) h

/-- A byte behind a backslash is plain, but for three. -/
theorem escaped_plain (h : b ∈ escaped_bytes) (hline : b ≠ ascii '_') (hquote : b ≠ ascii '\'')
    (hhash : b ≠ ascii '#') : is_plain b = true :=
  byte_imp (p := fun b => b ∈ escaped_bytes && b ≠ ascii '_' && b ≠ ascii '\'' && b ≠ ascii '#')
    (by decide) (by simp [h, hline, hquote, hhash])

theorem letter_no_dot (h : is_letter b = true) : b ≠ ascii '.' := by
  rintro rfl
  exact absurd h (by decide)

theorem letter_sticks (h : is_letter b = true) : (is_pname_start b && b ≠ ascii ':') = true :=
  byte_imp (q := fun b => is_pname_start b && b ≠ ascii ':') (by decide) h

theorem word_no_dot (h : (is_ascii_alphanumeric b || b = ascii '_') = true) : b ≠ ascii '.' := by
  rintro rfl
  exact absurd h (by decide)

theorem tag_no_dot (h : (is_ascii_alphanumeric b || b = ascii '-') = true) : b ≠ ascii '.' := by
  rintro rfl
  exact absurd h (by decide)

/-- The bytes of a number are plain, or start a word that is no keyword. -/
theorem digit_cases
    (h : b ∈ ascii_text ['0', '1', '2', '3', '4', '5', '6', '7', '8', '9', '.', '+', '-', 'e', 'E']) :
    is_plain b = true ∨ is_pname_start b = true ∧
      (is_letter b = false ∨ to_ascii_lowercase b = ascii 'e') := by
  have hb := byte_imp (p := fun b => b ∈ ascii_text ['0', '1', '2', '3', '4', '5', '6', '7', '8',
    '9', '.', '+', '-', 'e', 'E']) (q := fun b => is_plain b || is_pname_start b &&
      (!is_letter b || to_ascii_lowercase b = ascii 'e')) (by decide) (decide_eq_true h)
  simpa using hb

theorem hex_cont (h : is_hex b = true) : is_pname_cont b = true :=
  byte_imp (by decide) h

end

variable {w : Bytes}

theorem spelled_letters {kw : List Char} (h : Spells w kw)
    (hkw : ((ascii_text kw).map to_ascii_lowercase).all is_letter = true) :
    ∀ b ∈ w, is_letter b = true := by
  intro b hb
  have hlower := List.mem_map_of_mem (f := to_ascii_lowercase) hb
  rw [of_decide_eq_true h] at hlower
  exact lower_letter (List.all_eq_true.mp hkw _ hlower)

theorem reserved_cases (h : reserved w = true) :
    Spells w ['A', 'D', 'D'] ∨ Spells w ['C', 'O', 'P', 'Y'] ∨ Spells w ['M', 'O', 'V', 'E'] ∨
      Spells w ['P', 'R', 'E', 'F', 'I', 'X'] ∨ Spells w ['B', 'A', 'S', 'E'] := by
  simp only [reserved, Bool.or_eq_true] at h
  unfold Spells
  tauto

theorem reserved_letters (h : reserved w = true) : ∀ b ∈ w, is_letter b = true := by
  rcases reserved_cases h with h | h | h | h | h
  all_goals exact spelled_letters h (by decide)

theorem not_reserved {b : UInt8} (hb : b ∈ w) (hletter : is_letter b = false) :
    reserved w = false := by
  by_contra h
  have hletters := reserved_letters (by simpa using h) b hb
  rw [hletter] at hletters
  cases hletters

/-- No keyword starts with this letter. -/
theorem not_reserved_e {b : UInt8} (hb : to_ascii_lowercase b = ascii 'e') :
    reserved (b :: w) = false := by
  by_contra h
  rcases reserved_cases (by simpa using h) with h | h | h | h | h
  all_goals
    have hhead := (List.cons.inj (of_decide_eq_true h)).1
    rw [hb] at hhead
    exact absurd hhead (by decide)

theorem trim_dots_all {g : Bytes} (h : ∀ b ∈ g, b = ascii '.') (w : Bytes) :
    trim_dots (w ++ g) = trim_dots w := by
  unfold trim_dots List.rdropWhile
  rw [List.reverse_append, List.dropWhile_append_of_pos]
  intro b hb
  rw [h b (List.mem_reverse.mp hb)]
  exact decide_eq_true rfl

theorem trim_dots_id (h : w.getLast? ≠ some (ascii '.')) : trim_dots w = w := by
  unfold trim_dots
  rcases List.eq_nil_or_concat w with rfl | ⟨front, c, rfl⟩
  · rfl
  · rw [List.concat_eq_append] at h ⊢
    rw [List.rdropWhile_concat_neg]
    simpa using h

theorem no_last_dot (h : ∀ b ∈ w, b ≠ ascii '.') : w.getLast? ≠ some (ascii '.') :=
  fun hlast => h _ (List.mem_of_getLast? hlast) rfl

theorem trim_dots_cons {b : UInt8} (hb : b ≠ ascii '.') (w : Bytes) :
    ∃ v, trim_dots (b :: w) = b :: v := by
  unfold trim_dots List.rdropWhile
  rw [List.reverse_cons, List.dropWhile_append]
  split
  · rw [List.dropWhile_cons_of_neg (by simpa using hb)]
    exact ⟨[], rfl⟩
  · exact ⟨(w.reverse.dropWhile (· = ascii '.')).reverse, by simp⟩

theorem mem_trim_dots {b : UInt8} (hb : b ∈ w) (hdot : b ≠ ascii '.') : b ∈ trim_dots w := by
  obtain ⟨front, back, rfl⟩ := List.append_of_mem hb
  unfold trim_dots List.rdropWhile
  rw [List.mem_reverse, List.reverse_append, List.reverse_cons, List.append_assoc,
    List.dropWhile_append]
  split
  · rw [List.singleton_append, List.dropWhile_cons_of_neg (by simpa using hdot)]
    exact List.mem_cons_self
  · simp

/-- A dot or a sign behind a word makes no keyword of it. -/
theorem not_reserved_glue {w g : Bytes} (hg : Ends is_letter g)
    (hw : reserved (trim_dots w) = false) : reserved (trim_dots (w ++ g)) = false := by
  by_cases hdots : ∀ b ∈ g, b = ascii '.'
  · rw [trim_dots_all hdots]
    exact hw
  · push Not at hdots
    obtain ⟨c, hc, hdot⟩ := hdots
    cases g with
    | nil => cases hc
    | cons b g =>
      have hletter := hg b rfl
      by_cases hb : b = ascii '.'
      · -- the dot stands in front of another byte
        obtain ⟨front, back, hg⟩ := List.append_of_mem hc
        refine not_reserved (b := b) ?_ hletter
        have hcut : w ++ b :: g = (w ++ front ++ [c]) ++ back := by simp [hg]
        have hmem : b ∈ w ++ front := by
          cases front with
          | nil => exact absurd ((List.cons.inj hg).1.symm.trans hb) hdot
          | cons d front =>
            rw [(List.cons.inj hg).1]
            simp
        unfold trim_dots List.rdropWhile
        rw [hcut, List.mem_reverse, List.reverse_append, List.dropWhile_append]
        split
        · rw [List.reverse_append, List.reverse_singleton, List.singleton_append,
            List.dropWhile_cons_of_neg (by simpa using hdot)]
          exact List.mem_cons_of_mem c (List.mem_reverse.mpr hmem)
        · exact List.mem_append_right _ (List.mem_reverse.mpr (List.mem_append_left _ hmem))
      · exact not_reserved (mem_trim_dots (by simp) hb) hletter

/-! ## Strings -/

section

variable {q : UInt8}

/-- Over an escape, by a step over a plain byte and one over a backslash and the byte behind it. -/
theorem over_escape {f : Bytes → Bytes}
    (hplain : ∀ b s, b ≠ ascii '\\' → b ≠ q → f (b :: s) = f s)
    (hback : ∀ c s, f (ascii '\\' :: c :: s) = f s) (hq : is_hex q = false) {code : Bytes}
    (h : StringEscape code) (s : Bytes) : f (ascii '\\' :: (code ++ s)) = f s := by
  cases h with
  | @echar b _ => exact hback b s
  | uchar h =>
    obtain ⟨u, hex, rfl, hhex⟩ := h.split
    rw [List.cons_append, hback]
    clear h
    induction hex with
    | nil => rfl
    | cons b hex ih =>
      rw [List.forall_mem_cons] at hhex
      rw [List.cons_append, hplain b _ (hex_ne hhex.1 (by decide)) (hex_ne hhex.1 hq), ih hhex.2]

theorem skip_short_plain (b : UInt8) (s : Bytes) (hback : b ≠ ascii '\\') (hq : b ≠ q) :
    skip_short q (b :: s) = skip_short q s := by
  cases s with
  | nil => rfl
  | cons c s => rw [skip_short, if_neg hback, if_neg hq]

theorem skip_short_close (hq : q ≠ ascii '\\') (s : Bytes) : skip_short q (q :: s) = s := by
  cases s with
  | nil => rfl
  | cons c s => rw [skip_short, if_neg hq, if_pos rfl]

theorem skip_short_body (hq : q = ascii '"' ∨ q = ascii '\'') {body : Bytes}
    (h : ShortBody q body) (s : Bytes) : skip_short q (body ++ q :: s) = s := by
  obtain ⟨hslash, hhex, -, -⟩ := quote_ne hq
  induction h with
  | nil => exact skip_short_close hslash s
  | char hne hback _ _ ih => rw [List.cons_append, skip_short_plain _ _ hback hne, ih]
  | escape hcode _ ih =>
    rw [List.cons_append, List.append_assoc, over_escape skip_short_plain
      (fun c s => by rw [skip_short, if_pos rfl]) hhex hcode, ih]

theorem skip_long_plain (b : UInt8) (s : Bytes) (hback : b ≠ ascii '\\') (hq : b ≠ q) :
    skip_long q (b :: s) = skip_long q s := by
  cases s with
  | nil => rfl
  | cons c s => rw [skip_long, if_neg hback, if_neg fun h => hq h.1]

theorem skip_long_quotes (hq : q ≠ ascii '\\') {n : Nat} (hn : n ≤ 2) {b : UInt8} (hb : b ≠ q)
    (s : Bytes) : skip_long q (List.replicate n q ++ b :: s) = skip_long q (b :: s) := by
  have hone : skip_long q (q :: b :: s) = skip_long q (b :: s) := by
    rw [skip_long, if_neg hq, if_neg fun h => hb h.2.1]
  match n, hn with
  | 0, _ => rfl
  | 1, _ => exact hone
  | 2, _ =>
    show skip_long q (q :: q :: b :: s) = _
    rw [skip_long, if_neg hq, if_neg fun h => hb (Option.some.inj h.2.2), hone]

theorem skip_long_body (hq : q = ascii '"' ∨ q = ascii '\'') {body : Bytes}
    (h : LongBody q body) (s : Bytes) : skip_long q (body ++ q :: q :: q :: s) = s := by
  obtain ⟨hslash, hhex, -, -⟩ := quote_ne hq
  induction h with
  | nil =>
    show skip_long q (q :: q :: q :: s) = s
    rw [skip_long, if_neg hslash, if_pos ⟨rfl, rfl, rfl⟩]
    rfl
  | char hn hne hback _ ih =>
    rw [List.append_assoc, List.cons_append, skip_long_quotes hslash hn hne,
      skip_long_plain _ _ hback hne, ih]
  | escape hn hcode _ ih =>
    rw [List.append_assoc, List.cons_append, List.append_assoc,
      skip_long_quotes hslash hn hslash.symm, over_escape skip_long_plain
      (fun c s => by rw [skip_long, if_pos rfl]) hhex hcode, ih]

/-- A short string is stepped over, unless it is empty in front of the same quote. -/
theorem skip_string_short (hq : q = ascii '"' ∨ q = ascii '\'') {body : Bytes}
    (h : ShortBody q body) {s : Bytes} (hs : body = [] → s.head? ≠ some q) :
    amc_skip_string q (body ++ q :: s) = s := by
  have hbody := skip_short_body hq h s
  obtain ⟨hslash, -⟩ := quote_ne hq
  unfold amc_skip_string
  split
  · rename_i b c rest heq
    rw [if_neg]
    · rw [← heq]
      exact hbody
    · rintro ⟨rfl, rfl⟩
      cases h with
      | nil =>
        rw [List.nil_append, List.cons.injEq] at heq
        rw [heq.2] at hs
        exact hs rfl rfl
      | char hne _ _ _ => exact hne (List.cons.inj heq).1
      | escape _ _ => exact hslash (List.cons.inj heq).1.symm
  · exact hbody

theorem skip_string_long (hq : q = ascii '"' ∨ q = ascii '\'') {body : Bytes}
    (h : LongBody q body) (s : Bytes) :
    amc_skip_string q (q :: q :: (body ++ q :: q :: q :: s)) = s := by
  rw [amc_skip_string, if_pos ⟨rfl, rfl⟩, skip_long_body hq h]

end

/-! ## Tokens in a body -/

namespace InBody

variable {tail s : Bytes}

theorem plain (hw : ∀ b ∈ w, is_plain b = true) (hs : InBody tail s) : InBody tail (w ++ s) := by
  induction w with
  | nil => exact hs
  | cons b w ih =>
    rw [List.forall_mem_cons] at hw
    exact .byte hw.1 (ih hw.2)

/-- A word in front, whose run may go on. -/
theorem word (htail : Ends is_pname_cont tail) {b : UInt8} (hb : is_pname_start b = true)
    (hw : ∀ c ∈ w, is_pname_cont c = true) (hs : InBody tail s)
    (hquiet : (s.dropWhile is_pname_cont).head? = some (ascii '\\') ∨
      reserved (trim_dots (b :: w ++ s.takeWhile is_pname_cont)) = false) :
    InBody tail (b :: w ++ s) := by
  have hsplit : b :: w ++ s = b :: ((w ++ s.takeWhile is_pname_cont) ++
      s.dropWhile is_pname_cont) := by
    rw [List.append_assoc, List.takeWhile_append_dropWhile, List.cons_append]
  rw [hsplit]
  refine .run hb ?_ (ends_dropWhile _ _) hquiet (hs.drop_run htail)
  intro c hc
  rcases List.mem_append.mp hc with hc | hc
  · exact hw c hc
  · exact List.mem_takeWhile_imp hc

theorem var_name (htail : Ends is_pname_cont tail) {sigil b : UInt8}
    (hsigil : is_sigil sigil = true) (hb : is_pname_start b = true)
    (hw : ∀ c ∈ w, is_pname_cont c = true) (hs : InBody tail s) :
    InBody tail (sigil :: b :: w ++ s) := by
  have hsplit : sigil :: b :: w ++ s = sigil :: b :: ((w ++ s.takeWhile is_pname_cont) ++
      s.dropWhile is_pname_cont) := by
    rw [List.append_assoc, List.takeWhile_append_dropWhile, List.cons_append, List.cons_append]
  rw [hsplit]
  refine .var hsigil hb ?_ (ends_dropWhile _ _) (hs.drop_run htail)
  intro c hc
  rcases List.mem_append.mp hc with hc | hc
  · exact hw c hc
  · exact List.mem_takeWhile_imp hc

/-- Bytes of names in front, of which the first may start no word. -/
theorem conts (htail : Ends is_pname_cont tail) (hw : ∀ c ∈ w, is_pname_cont c = true)
    (hs : InBody tail s)
    (hquiet : ∀ u, w.dropWhile joins = u → u ≠ [] →
      (s.dropWhile is_pname_cont).head? = some (ascii '\\') ∨
        reserved (trim_dots (u ++ s.takeWhile is_pname_cont)) = false) :
    InBody tail (w ++ s) := by
  induction w with
  | nil => exact hs
  | cons b w ih =>
    rw [List.forall_mem_cons] at hw
    by_cases hb : is_pname_start b = true
    · have hdrop : (b :: w).dropWhile joins = b :: w := by
        rw [List.dropWhile_cons_of_neg]
        simp [joins, hb]
      exact hs.word htail hb hw.2 (hquiet _ hdrop (List.cons_ne_nil b w))
    · have hjoins : joins b = true := by
        unfold joins
        rw [hw.1]
        simpa using hb
      refine .byte (joins_plain hjoins) (ih hw.2 fun u hu => hquiet u ?_)
      rw [List.dropWhile_cons_of_pos hjoins]
      exact hu

theorem blank {g : Bytes} (h : Blank g) (hs : InBody tail s) : InBody tail (g ++ s) := by
  induction h with
  | nil => exact hs
  | ws hb _ ih => exact .byte (ws_plain hb) ih
  | @comment body rest hbody _ ih =>
    rw [List.cons_append, List.append_assoc, List.cons_append]
    exact .comment hbody (.byte (by decide) ih)

end InBody

/-! ## Names and signs -/

theorem name_cont {ns : Bytes} (h : turtle.Token.Name ns) : ∀ b ∈ ns, is_pname_cont b = true := by
  intro b hb
  have hname := h.2 b hb
  rw [Bool.or_eq_true, decide_eq_true_eq] at hname
  rcases hname with hname | rfl
  · exact pn_char_cont hname
  · decide

theorem ns_start {b : UInt8} {ns : Bytes} (h : turtle.Token.Name (b :: ns))
    (hdash : (b :: ns).head? ≠ some (ascii '-')) : is_pname_start b = true := by
  have hname := h.2 b List.mem_cons_self
  rw [Bool.or_eq_true, decide_eq_true_eq] at hname
  refine name_start ?_
  rw [hname.resolve_right fun hdot => h.1 (congrArg some hdot), Bool.true_and, decide_eq_true_eq]
  exact fun heq => hdash (congrArg some heq)

/-- A sign is of plain bytes, but for the `<` that a comparison starts with. -/
theorem sign_cases {s : Bytes} (h : s ∈ signs) :
    (∀ b ∈ s, is_plain b = true) ∨
      ∃ rest, s = ascii '<' :: rest ∧ ∀ b ∈ rest, is_plain b = true := by
  have hall : signs.all (fun s => s.all is_plain ||
      s.head? = some (ascii '<') && s.tail.all is_plain) = true := by decide
  have hs := List.all_eq_true.mp hall s h
  rw [Bool.or_eq_true, Bool.and_eq_true, decide_eq_true_eq] at hs
  rcases hs with hs | ⟨hhead, hs⟩
  · exact .inl (List.all_eq_true.mp hs)
  · obtain ⟨rest, rfl⟩ := List.head?_eq_some_iff.mp hhead
    exact .inr ⟨rest, rfl, List.all_eq_true.mp hs⟩

/-! ## Local names -/

/-- A local name up to its first escape. -/
theorem local_split {loc : Bytes} (h : LocalName loc) :
    (∀ b ∈ loc, is_pname_cont b = true) ∨ ∃ w b back, loc = w ++ ascii '\\' :: b :: back ∧
      (∀ c ∈ w, is_pname_cont c = true) ∧ b ∈ escaped_bytes ∧ LocalName back := by
  induction h with
  | nil => exact .inl (by simp)
  | @cons piece rest hpiece hrest ih =>
    have more (hcont : ∀ b ∈ piece, is_pname_cont b = true) :
        (∀ b ∈ piece ++ rest, is_pname_cont b = true) ∨
          ∃ w b back, piece ++ rest = w ++ ascii '\\' :: b :: back ∧
            (∀ c ∈ w, is_pname_cont c = true) ∧ b ∈ escaped_bytes ∧ LocalName back := by
      rcases ih with ih | ⟨w, b, back, rfl, hw, hb, hback⟩
      · exact .inl (List.forall_mem_append.mpr ⟨hcont, ih⟩)
      · exact .inr ⟨piece ++ w, b, back, by simp, List.forall_mem_append.mpr ⟨hcont, hw⟩, hb, hback⟩
    cases hpiece with
    | @char b hb =>
      refine more (List.forall_mem_singleton.mpr ?_)
      simp only [Bool.or_eq_true, decide_eq_true_eq] at hb
      rcases hb with (hb | rfl) | rfl
      · exact pn_char_cont hb
      · decide
      · decide
    | percent hb hc =>
      refine more (List.forall_mem_cons.mpr ⟨by decide, List.forall_mem_cons.mpr
        ⟨hex_cont hb, List.forall_mem_singleton.mpr (hex_cont hc)⟩⟩)
    | @escape b hb => exact .inr ⟨[], b, rest, rfl, by simp, hb, hrest⟩

theorem local_drop {w back : Bytes} {b : UInt8} (hw : ∀ c ∈ w, is_pname_cont c = true) :
    (w ++ ascii '\\' :: b :: back).dropWhile is_pname_cont = ascii '\\' :: b :: back := by
  rw [dropWhile_run hw, List.dropWhile_cons_of_neg (by decide)]

theorem Token.Clear.behind {ns w back : Bytes} {b : UInt8}
    (h : (Token.pname ns (w ++ ascii '\\' :: b :: back)).Clear) : (Token.pname ns back).Clear := by
  intro front c more hback
  refine h (w ++ ascii '\\' :: b :: front) c more ?_
  rw [hback]
  simp

/-- The word behind an escape is none of the keywords with what follows it. -/
theorem not_reserved_behind {b : UInt8} {back s u : Bytes}
    (hs : Ends is_letter s)
    (hsigil : (is_sigil b && back.head?.any is_pname_start) = false)
    (h : reserved (word_behind b back) = false) (hback : LocalName back)
    (hu : (back.takeWhile is_pname_cont).dropWhile joins = u) :
    ((back.dropWhile is_pname_cont ++ s).dropWhile is_pname_cont).head? = some (ascii '\\') ∨
      reserved (trim_dots (u ++ (back.dropWhile is_pname_cont ++ s).takeWhile is_pname_cont)) =
        false := by
  rcases local_split hback with hall | ⟨w, c, more, rfl, hw, -, -⟩
  · -- the word goes on to the end of the name
    right
    have htake : back.takeWhile is_pname_cont = back := List.takeWhile_eq_self_iff.mpr hall
    have hdrop : back.dropWhile is_pname_cont = [] := List.dropWhile_eq_nil_iff.mpr hall
    rw [htake] at hu
    have hucont : ∀ c ∈ u, is_pname_cont c = true := by
      intro c hc
      rw [← hu] at hc
      exact hall c ((List.dropWhile_sublist joins).subset hc)
    rw [hdrop, List.nil_append]
    refine not_reserved_glue (Ends.takeWhile_head hs) ?_
    unfold word_behind at h
    dsimp only at h
    rw [hsigil, hu, List.takeWhile_eq_self_iff.mpr hucont, List.dropWhile_eq_nil_iff.mpr hucont]
      at h
    exact h
  · -- the word ends at another escape
    left
    rw [local_drop hw, List.cons_append, List.dropWhile_cons_of_neg (by decide)]
    rfl

namespace InBody

variable {tail s : Bytes}

/-- A local name from its first escape on. -/
theorem local_name (htail : Ends is_pname_cont tail) {loc : Bytes} (h : LocalName loc)
    (hclear : (Token.pname [] loc).Clear) (hletter : Ends is_letter s)
    (hs : InBody tail s) : InBody tail (loc.dropWhile is_pname_cont ++ s) := by
  induction hk : loc.length using Nat.strong_induction_on generalizing loc with
  | _ k ih =>
    subst hk
    rcases local_split h with hall | ⟨w, b, back, rfl, hw, hb, hback⟩
    · rw [List.dropWhile_eq_nil_iff.mpr hall]
      exact hs
    · rw [local_drop hw]
      have hrest := ih back.length (by simp; omega) hback (Token.Clear.behind hclear) rfl
      obtain ⟨hquote, hhash, hword⟩ := hclear w b back rfl
      have hsplit : back ++ s =
          back.takeWhile is_pname_cont ++ (back.dropWhile is_pname_cont ++ s) := by
        rw [← List.append_assoc, List.takeWhile_append_dropWhile]
      have htake : ∀ c ∈ back.takeWhile is_pname_cont, is_pname_cont c = true :=
        fun c hc => List.mem_takeWhile_imp hc
      refine .byte (by decide) ?_
      show InBody tail (b :: (back ++ s))
      rw [hsplit]
      by_cases hline : b = ascii '_'
      · -- an underscore starts a word of its own
        refine hrest.word htail (by rw [hline]; decide) htake (.inr ?_)
        refine not_reserved (mem_trim_dots (b := b) ?_ ?_) ?_
        · simp
        · rw [hline]
          decide
        · rw [hline]
          decide
      · have hplain := escaped_plain hb hline hquote hhash
        by_cases hsigil : (is_sigil b && back.head?.any is_pname_start) = true
        · -- read as a variable
          rw [Bool.and_eq_true] at hsigil
          cases back with
          | nil => exact absurd hsigil.2 (by decide)
          | cons c back =>
            have hc : is_pname_start c = true := by simpa using hsigil.2
            rw [List.takeWhile_cons_of_pos (start_cont hc)] at htake ⊢
            rw [List.forall_mem_cons] at htake
            exact hrest.var_name htail hsigil.1 hc htake.2
        · refine .byte hplain (hrest.conts htail htake fun u hu _ => ?_)
          exact not_reserved_behind hletter (by simpa using hsigil) (hword.resolve_left hline)
            hback hu

/-- A token in front, where it is no keyword and nothing is read as part of it. -/
theorem token (htail : Ends is_pname_cont tail) {t : Token} (hvalid : t.Valid) (hclear : t.Clear)
    (hword : ∀ w, t = .word w → reserved w = false) (hstick : Ends t.sticks s)
    (hless : t.is_less = true → ∀ inner after, t.bytes.tail ++ s = inner ++ ascii '>' :: after →
      (∀ b ∈ inner, is_iri_byte b = true) →
        ascii '#' ∉ inner ∧ ascii '\'' ∉ inner ∧ tail.length ≤ after.length)
    (hs : InBody tail s) : InBody tail (t.bytes ++ s) := by
  cases hvalid with
  | @word b w hb hw =>
    refine hs.word htail (letter_start hb) (fun c hc => alphanumeric_cont (hw c hc)) (.inr ?_)
    refine not_reserved_glue (Ends.takeWhile_head (hstick.imp fun h => letter_start h)) ?_
    rw [trim_dots_id]
    · exact hword _ rfl
    · refine no_last_dot (List.forall_mem_cons.mpr ⟨letter_no_dot hb, fun c hc => ?_⟩)
      exact word_no_dot (hw c hc)
  | @iriref body hbody =>
    show InBody tail (ascii '<' :: (body ++ [ascii '>']) ++ s)
    rw [List.cons_append, List.append_assoc, List.singleton_append]
    exact .iri (iri_body_bytes hbody) hs
  | @pname ns loc hns hdash hloc _ =>
    have hrest := hs.local_name htail hloc hclear (hstick.imp letter_sticks)
    have hsplit : (Token.pname ns loc).bytes ++ s = ns ++ ascii ':' ::
        loc.takeWhile is_pname_cont ++ (loc.dropWhile is_pname_cont ++ s) := by
      rw [Token.bytes, List.append_assoc, List.cons_append, List.append_assoc, List.cons_append,
        ← List.append_assoc (loc.takeWhile _), List.takeWhile_append_dropWhile]
    have hloccont : ∀ c ∈ loc.takeWhile is_pname_cont, is_pname_cont c = true :=
      fun c hc => List.mem_takeWhile_imp hc
    rw [hsplit]
    cases ns with
    | nil =>
      refine hrest.word htail (by decide) hloccont (.inr ?_)
      exact not_reserved (mem_trim_dots (b := ascii ':') (by simp) (by decide)) (by decide)
    | cons b ns =>
      refine hrest.word htail (ns_start hns hdash) ?_ (.inr ?_)
      · refine List.forall_mem_append.mpr ⟨fun c hc => ?_, List.forall_mem_cons.mpr
          ⟨by decide, hloccont⟩⟩
        exact name_cont hns c (List.mem_cons_of_mem b hc)
      · exact not_reserved (mem_trim_dots (b := ascii ':') (by simp) (by decide)) (by decide)
  | @blank_label label hlabel _ =>
    refine hs.word htail (b := ascii '_') (w := ascii ':' :: label) (by decide) ?_ (.inr ?_)
    · exact List.forall_mem_cons.mpr ⟨by decide, name_cont hlabel⟩
    · exact not_reserved (mem_trim_dots (b := ascii '_') (by simp) (by decide)) (by decide)
  | @var sigil b name hsigil hname =>
    rw [List.forall_mem_cons] at hname
    exact hs.var_name htail hsigil (name_start hname.1) fun c hc =>
      start_cont (name_start (hname.2 c hc))
  | @langtag b tag hb htag =>
    refine .byte (by decide) ?_
    refine hs.word htail (letter_start hb) (fun c hc => tag_cont (htag c hc)) (.inr ?_)
    refine not_reserved_glue (Ends.takeWhile_head (hstick.imp fun h => letter_alphanumeric h)) ?_
    rw [trim_dots_id]
    · exact hclear
    · refine no_last_dot (List.forall_mem_cons.mpr ⟨letter_no_dot hb, fun c hc => ?_⟩)
      exact tag_no_dot (htag c hc)
  | @number digits hdigits hfull =>
    show InBody tail (digits ++ s)
    clear hfull hclear hword hstick hless
    induction digits with
    | nil => exact hs
    | cons b digits ih =>
      rw [List.forall_mem_cons] at hdigits
      have hrest := ih hdigits.2
      rw [List.cons_append]
      rcases digit_cases hdigits.1 with hplain | ⟨hb, hne⟩
      · exact .byte hplain hrest
      · refine hrest.word htail (w := []) hb (by simp) (.inr ?_)
        obtain ⟨w, hw⟩ := trim_dots_cons (b := b) (by rintro rfl; exact absurd hb (by decide))
          (List.takeWhile is_pname_cont (digits ++ s))
        show reserved (trim_dots (b :: List.takeWhile is_pname_cont (digits ++ s))) = false
        rw [hw]
        rcases hne with hletter | he
        · exact not_reserved List.mem_cons_self hletter
        · exact not_reserved_e he
  | @short q body hq hbody =>
    have hskip := skip_string_short hq hbody (s := s) fun hnil hhead => by
      have hq' := hstick q hhead
      rw [hnil] at hq'
      exact absurd hq' (by simp [Token.sticks])
    show InBody tail ([q] ++ body ++ [q] ++ s)
    rw [List.append_assoc, List.append_assoc, List.singleton_append, List.singleton_append]
    refine .string hq ?_
    rw [hskip]
    exact hs
  | @long q body hq hbody =>
    have hskip := skip_string_long hq hbody s
    show InBody tail ([q, q, q] ++ body ++ [q, q, q] ++ s)
    have hsplit : [q, q, q] ++ body ++ [q, q, q] ++ s =
        q :: q :: q :: (body ++ q :: q :: q :: s) := by simp
    rw [hsplit]
    refine .string hq ?_
    rw [hskip]
    exact hs
  | @sign sign hsign =>
    rcases sign_cases hsign with hplain | ⟨rest, rfl, hplain⟩
    · exact hs.plain hplain
    · exact .less (hless rfl) (hs.plain hplain)

end InBody

end horndb.sparql.update_text
