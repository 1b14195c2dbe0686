-- The scan over the lexemes of an update: blank space, keywords, IRIs, prefixed names and
-- operands, each with the tokens that it gives and what has to stand behind it.
import HornDb.AmcBodies

open HornDb.Lib.Wire (Bytes)
open horndb.storage
open horndb.storage.turtle hiding Token Lexeme

namespace horndb.sparql.update_text

/-! ## What stands behind a token -/

def unbounded (b : UInt8) : Bool := !(is_ws b || b = ascii '#' || b = ascii ';')

/-- White space, a comment or a semicolon is in front, or nothing. -/
def Bounded (s : Bytes) : Prop := Ends unbounded s

section

set_option maxRecDepth 4000

theorem cont_unbounded {b : UInt8} (h : is_pname_cont b = true) : unbounded b = true :=
  byte_imp (by decide) h

end

variable {s : Bytes}

theorem Bounded.cont (h : Bounded s) : Ends is_pname_cont s := h.imp cont_unbounded

theorem Bounded.sticks (h : Bounded s) {t : Token} (ht : t.Valid) : Ends t.sticks s := by
  intro b hb
  have hend := h b hb
  cases ht with
  | word => exact Ends.imp h.cont start_cont b hb
  | pname =>
    refine Ends.imp h.cont (fun h => ?_) b hb
    exact start_cont (Bool.and_eq_true_iff.mp h).1
  | langtag =>
    refine Ends.imp h.cont (fun h => ?_) b hb
    have hb : is_ascii_alphanumeric _ = true := h
    exact alphanumeric_cont (by rw [hb, Bool.true_or])
  | @short q body hq _ =>
    cases body with
    | nil =>
      refine decide_eq_false ?_
      rintro rfl
      rcases hq with rfl | rfl <;> exact absurd hend (by decide)
    | cons => rfl
  | iriref | blank_label | var | number | long | sign => rfl

theorem Gap.bounded {g : Bytes} (h : Gap g) (hs : g = [] → Bounded s) : Bounded (g ++ s) := by
  cases h with
  | nil => exact hs rfl
  | ws hb _ =>
    intro c hc
    rw [← Option.some.inj hc]
    unfold unbounded
    rw [hb]
    rfl
  | comment =>
    intro c hc
    rw [← Option.some.inj hc]
    decide

theorem Tail.bounded (h : Tail s) : Bounded s := by
  rcases h with h | ⟨g, body, hg, -, rfl⟩
  · rw [← List.append_nil s]
    exact Gap.bounded h fun _ b hb => by cases hb
  · refine Gap.bounded hg fun _ b hb => ?_
    rw [← Option.some.inj hb]
    decide

/-! ## The end of the text -/

/-- Blank space gives no token, even where a comment hides more of it than its line. -/
theorem scan_gap_end {g s : Bytes} (h : Gap g)
    (hs : ∀ prev, amc_tokens prev s = [] ∧
      amc_tokens prev (s.dropWhile (· ≠ ascii '\n')) = []) (prev : UInt8) :
    amc_tokens prev (g ++ s) = [] ∧
      amc_tokens prev ((g ++ s).dropWhile (· ≠ ascii '\n')) = [] := by
  induction h generalizing prev with
  | nil => exact hs prev
  | @ws b rest hb _ ih =>
    have hstep : ∀ prev, amc_tokens prev (b :: (rest ++ s)) = [] := fun prev =>
      (scan_ws hb).trans (ih b).1
    refine ⟨hstep prev, ?_⟩
    rw [List.cons_append, List.dropWhile_cons]
    split
    · exact (ih prev).2
    · exact hstep prev
  | @comment body rest eol hbody heol _ ih =>
    have hline : ∀ prev,
        amc_tokens prev ((eol :: (rest ++ s)).dropWhile (· ≠ ascii '\n')) = [] := by
      intro prev
      rw [List.dropWhile_cons]
      split
      · exact (ih prev).2
      · rename_i heq
        have heol : eol = ascii '\n' := by simpa using heq
        rw [heol, scan_ws (by decide)]
        exact (ih _).1
    have hdrop : (body ++ eol :: (rest ++ s)).dropWhile (· ≠ ascii '\n') =
        (eol :: (rest ++ s)).dropWhile (· ≠ ascii '\n') := by
      refine List.dropWhile_append_of_pos fun b hb => ?_
      have hnot := hbody b hb
      simp only [ne_eq, decide_not, Bool.not_eq_true', decide_eq_false_iff_not]
      rintro rfl
      exact absurd hnot (by decide)
    rw [List.cons_append, List.append_assoc, List.cons_append]
    refine ⟨?_, ?_⟩
    · rw [scan_comment, hdrop]
      exact hline _
    · rw [List.dropWhile_cons_of_pos (by decide), hdrop]
      exact hline prev

theorem scan_tail (h : Tail s) (prev : UInt8) : amc_tokens prev s = [] := by
  have hnil : ∀ prev, amc_tokens prev [] = [] := fun prev => by rw [amc_tokens]
  rcases h with h | ⟨g, body, hg, hbody, rfl⟩
  · rw [← List.append_nil s]
    exact (scan_gap_end h (fun prev => ⟨hnil prev, hnil prev⟩) prev).1
  · have hdrop : body.dropWhile (· ≠ ascii '\n') = [] := by
      refine List.dropWhile_eq_nil_iff.mpr fun b hb => ?_
      have hnot := hbody b hb
      simp only [ne_eq, decide_not, Bool.not_eq_true', decide_eq_false_iff_not]
      rintro rfl
      exact absurd hnot (by decide)
    refine (scan_gap_end hg (fun prev => ⟨?_, ?_⟩) prev).1
    · rw [scan_comment, hdrop]
      exact hnil _
    · rw [List.dropWhile_cons_of_pos (by decide), hdrop]
      exact hnil prev

/-! ## Lexemes -/

/-- The scan of these lexemes gives tokens of this kind, and goes on with the text behind them. -/
def Scans (ls : List Lexeme) (s : Bytes) (kind : List AmcTok → Prop) : Prop :=
  ∀ prev, is_sigil prev = false → ∃ toks last, kind toks ∧ is_sigil last = false ∧
    amc_tokens prev (spelled ls ++ s) = toks ++ amc_tokens last s

theorem spelled_cons (l : Lexeme) (ls : List Lexeme) : spelled (l :: ls) = l.bytes ++ spelled ls :=
  List.flatMap_cons

theorem spelled_append (ls more : List Lexeme) :
    spelled (ls ++ more) = spelled ls ++ spelled more := List.flatMap_append

theorem Scans.append {ls more : List Lexeme} {kind rest : List AmcTok → Prop}
    (h : Scans ls (spelled more ++ s) kind) (hmore : Scans more s rest) :
    Scans (ls ++ more) s fun ts => ∃ us vs, ts = us ++ vs ∧ kind us ∧ rest vs := by
  intro prev hprev
  obtain ⟨us, last, hus, hlast, hscan⟩ := h prev hprev
  obtain ⟨vs, final, hvs, hfinal, hrest⟩ := hmore last hlast
  refine ⟨us ++ vs, final, ⟨us, vs, rfl, hus, hvs⟩, hfinal, ?_⟩
  rw [spelled_append, List.append_assoc, hscan, hrest, List.append_assoc]

theorem Scans.imp {ls : List Lexeme} {kind other : List AmcTok → Prop} (h : Scans ls s kind)
    (himp : ∀ ts, kind ts → other ts) : Scans ls s other := by
  intro prev hprev
  obtain ⟨ts, last, hts, hlast, hscan⟩ := h prev hprev
  exact ⟨ts, last, himp ts hts, hlast, hscan⟩

section

set_option maxRecDepth 4000

theorem ws_sigil {b : UInt8} (h : is_ws b = true) : is_sigil b = false := by
  have hb := byte_imp (q := fun b => !is_sigil b) (by decide) h
  simpa using hb

theorem cont_sigil {b : UInt8} (h : is_pname_cont b = true) : is_sigil b = false := by
  have hb := byte_imp (q := fun b => !is_sigil b) (by decide) h
  simpa using hb

end

theorem scan_blank {g : Bytes} (h : Blank g) (s : Bytes) {prev : UInt8}
    (hprev : is_sigil prev = false) :
    ∃ last, is_sigil last = false ∧ amc_tokens prev (g ++ s) = amc_tokens last s := by
  induction h generalizing prev with
  | nil => exact ⟨prev, hprev, rfl⟩
  | @ws b rest hb _ ih =>
    obtain ⟨last, hlast, hscan⟩ := ih (ws_sigil hb)
    exact ⟨last, hlast, by rw [List.cons_append, scan_ws hb, hscan]⟩
  | @comment body rest hbody _ ih =>
    obtain ⟨last, hlast, hscan⟩ := ih (show is_sigil (ascii '\n') = false by decide)
    refine ⟨last, hlast, ?_⟩
    rw [List.cons_append, List.append_assoc, List.cons_append, scan_comment,
      List.dropWhile_append_of_pos, List.dropWhile_cons_of_neg (by decide), scan_ws (by decide),
      hscan]
    intro b hb
    simp only [ne_eq, decide_not, Bool.not_eq_true', decide_eq_false_iff_not]
    rintro rfl
    exact hbody hb

/-- One lexeme, by the scan of its token. -/
theorem scans_token {l : Lexeme} {kind : List AmcTok → Prop} (hgap : Blank l.gap)
    (h : ∀ prev, is_sigil prev = false → ∃ toks last, kind toks ∧ is_sigil last = false ∧
      amc_tokens prev (l.token.bytes ++ s) = toks ++ amc_tokens last s) :
    Scans [l] s kind := by
  intro prev hprev
  obtain ⟨mid, hmid, hblank⟩ := scan_blank hgap (l.token.bytes ++ s) hprev
  obtain ⟨toks, last, hkind, hlast, hscan⟩ := h mid hmid
  refine ⟨toks, last, hkind, hlast, ?_⟩
  rw [spelled_cons, spelled, List.flatMap_nil, List.append_nil, Lexeme.bytes, List.append_assoc,
    hblank, hscan]

/-! ## Keywords and operands -/

/-- A byte that goes on in a name, or breaks it off. -/
def joined (b : UInt8) : Bool := is_pname_cont b || b = ascii '\\'

section

set_option maxRecDepth 4000

theorem joined_unbounded {b : UInt8} (h : joined b = true) : unbounded b = true :=
  byte_imp (by decide) h

end

theorem Bounded.joined (h : Bounded s) : Ends joined s := h.imp joined_unbounded

theorem joined_cont (h : Ends joined s) : Ends is_pname_cont s := h.imp fun hb => by
  unfold update_text.joined
  rw [hb, Bool.true_or]

theorem joined_next (h : Ends joined s) : s.head? ≠ some (ascii '\\') :=
  fun hb => absurd (h _ hb) (by decide)

/-- A keyword in any case has the token of the keyword. -/
theorem word_token_spelled {prev : UInt8} {w : Bytes} {next : Option UInt8} {kw : List Char}
    (h : Spells w kw) (hkw : ((ascii_text kw).map to_ascii_lowercase).all is_letter = true)
    (hprev : is_sigil prev = false) (hnext : next ≠ some (ascii '\\')) :
    word_token prev w next = word_token 0 (ascii_text kw) none := by
  have hself : Spells (ascii_text kw) kw := decide_eq_true rfl
  have hcolon : ∀ v, Spells v kw → ascii ':' ∉ v := fun v hv hmem =>
    absurd (spelled_letters hv hkw _ hmem) (by decide)
  have hlower := of_decide_eq_true h
  have hzero : ¬(decide ((0 : UInt8) = ascii '?') || decide ((0 : UInt8) = ascii '$')) = true := by
    decide
  have hnone : ¬(none : Option UInt8) = some (ascii '\\') := by simp
  unfold is_sigil at hprev
  unfold word_token eq_ignore_ascii_case
  rw [hprev, if_neg Bool.false_ne_true, if_neg hnext, if_neg (hcolon w h), hlower, if_neg hzero,
    if_neg hnone, if_neg (hcolon _ hself)]

theorem scans_word {l : Lexeme} {s w : Bytes} {kw : List Char} (hgap : Blank l.gap)
    (ht : l.token = .word w) (h : Spells w kw)
    (hkw : ((ascii_text kw).map to_ascii_lowercase).all is_letter = true) (hs : Ends joined s) :
    Scans [l] s (· = [word_token 0 (ascii_text kw) none]) := by
  refine scans_token hgap fun prev hprev => ?_
  have hvalid := l.token_ok
  have hletters := spelled_letters h hkw
  rw [ht] at hvalid ⊢
  cases hvalid with
  | @word b w hb hw =>
    have hwcont : ∀ c ∈ w, is_pname_cont c = true := fun c hc => alphanumeric_cont (hw c hc)
    obtain ⟨last, hlast, hstep⟩ := scan_run prev (w ++ s) (letter_start hb)
    rw [takeWhile_run hwcont, dropWhile_run hwcont, (joined_cont hs).takeWhile,
      (joined_cont hs).dropWhile, List.append_nil, trim_dots_id (no_last_dot fun c hc =>
        letter_no_dot (hletters c hc)), word_token_spelled h hkw hprev (joined_next hs)] at hstep
    exact ⟨_, last, rfl, cont_sigil hlast, hstep⟩

theorem scans_iri {l : Lexeme} {s body : Bytes} (hgap : Blank l.gap)
    (ht : l.token = .iriref body) :
    Scans [l] s (· = [if ascii '\\' ∈ body then .Escaped else .Iri body]) := by
  refine scans_token hgap fun prev _ => ?_
  have hvalid := l.token_ok
  rw [ht] at hvalid ⊢
  cases hvalid with
  | iriref hbody =>
    refine ⟨_, ascii '>', rfl, by decide, ?_⟩
    show amc_tokens prev (ascii '<' :: (body ++ [ascii '>']) ++ s) = _
    rw [List.cons_append, List.append_assoc, List.singleton_append,
      scan_iri (iri_body_bytes hbody), List.singleton_append]

/-- The word of a prefixed name, up to its first escape. -/
theorem scan_name (prev : UInt8) {ns w s : Bytes} (hns : turtle.Token.Name ns)
    (hdash : ns.head? ≠ some (ascii '-')) (hw : ∀ c ∈ w, is_pname_cont c = true)
    (hs : Ends is_pname_cont s) :
    ∃ last, is_pname_cont last = true ∧ amc_tokens prev (ns ++ ascii ':' :: w ++ s) =
      word_token prev (trim_dots (ns ++ ascii ':' :: w)) s.head? :: amc_tokens last s := by
  have hcolon : ∀ c ∈ ascii ':' :: w, is_pname_cont c = true :=
    List.forall_mem_cons.mpr ⟨by decide, hw⟩
  cases ns with
  | nil =>
    obtain ⟨last, hlast, hstep⟩ := scan_run prev (c := ascii ':') (w ++ s) (by decide)
    rw [takeWhile_run hw, dropWhile_run hw, hs.takeWhile, hs.dropWhile, List.append_nil] at hstep
    exact ⟨last, hlast, hstep⟩
  | cons b ns =>
    have hrest : ∀ c ∈ ns ++ ascii ':' :: w, is_pname_cont c = true :=
      List.forall_mem_append.mpr
        ⟨fun c hc => name_cont hns c (List.mem_cons_of_mem b hc), hcolon⟩
    obtain ⟨last, hlast, hstep⟩ := scan_run prev ((ns ++ ascii ':' :: w) ++ s)
      (ns_start hns hdash)
    rw [takeWhile_run hrest, dropWhile_run hrest, hs.takeWhile, hs.dropWhile, List.append_nil]
      at hstep
    exact ⟨last, hlast, hstep⟩

theorem scans_pname {l : Lexeme} {s ns loc : Bytes} (hgap : Blank l.gap)
    (ht : l.token = .pname ns loc) (hplain : ascii '\\' ∉ loc) (hs : Ends joined s) :
    Scans [l] s (· = [.PName (ns ++ ascii ':' :: loc)]) := by
  refine scans_token hgap fun prev hprev => ?_
  have hvalid := l.token_ok
  rw [ht] at hvalid ⊢
  cases hvalid with
  | pname hns hdash hloc hdot =>
    have hcont : ∀ c ∈ loc, is_pname_cont c = true := by
      rcases local_split hloc with hall | ⟨w, b, back, rfl, -⟩
      · exact hall
      · exact absurd (by simp) hplain
    have hlast : (ns ++ ascii ':' :: loc).getLast? ≠ some (ascii '.') := by
      rcases List.eq_nil_or_concat loc with rfl | ⟨front, c, rfl⟩
      · rw [List.getLast?_concat]
        decide
      · rw [List.concat_eq_append] at *
        rintro hlast
        rw [← List.cons_append, ← List.append_assoc, List.getLast?_concat] at hlast
        rw [Option.some.inj hlast] at hdot hplain
        exact hplain (List.mem_append_left _ (List.mem_of_getLast? (hdot front rfl)))
    obtain ⟨last, hend, hstep⟩ := scan_name prev hns hdash hcont (joined_cont hs)
    rw [trim_dots_id hlast] at hstep
    have htoken : word_token prev (ns ++ ascii ':' :: loc) s.head? =
        .PName (ns ++ ascii ':' :: loc) := by
      unfold is_sigil at hprev
      unfold word_token
      rw [hprev, if_neg Bool.false_ne_true, if_neg (joined_next hs), if_pos (by simp)]
    rw [htoken] at hstep
    exact ⟨_, last, rfl, cont_sigil hend, hstep⟩

/-- Behind the escape of a prefixed name, the rest of it gives quiet tokens. -/
theorem scans_escaped {l : Lexeme} {s ns loc : Bytes} (hgap : Blank l.gap)
    (hclear : l.token.Clear) (ht : l.token = .pname ns loc) (hescape : ascii '\\' ∈ loc)
    (hs : Bounded s) :
    Scans [l] s fun ts => ∃ qs, ts = .Escaped :: qs ∧ ∀ t ∈ qs, quiet t = true := by
  refine scans_token hgap fun prev hprev => ?_
  have hvalid := l.token_ok
  rw [ht] at hvalid hclear ⊢
  cases hvalid with
  | pname hns hdash hloc _ =>
    have hletter : Ends is_letter s := hs.cont.imp fun h => start_cont (letter_start h)
    have hrest := (InBody.done : InBody s s).local_name hs.cont hloc hclear hletter
    rcases local_split hloc with hall | ⟨w, b, back, rfl, hw, -⟩
    · exact absurd (hall _ hescape) (by decide)
    · rw [local_drop hw] at hrest
      have hends : Ends is_pname_cont (ascii '\\' :: b :: back ++ s) := by
        intro c hc
        rw [← Option.some.inj hc]
        decide
      obtain ⟨last, -, hstep⟩ := scan_name prev hns hdash hw hends
      obtain ⟨qs, hqs, hscan⟩ := hrest.scan (hs.cont.imp start_cont) last
      have htoken : word_token prev (trim_dots (ns ++ ascii ':' :: w))
          (ascii '\\' :: b :: back ++ s).head? = .Escaped := by
        unfold is_sigil at hprev
        unfold word_token
        rw [hprev, if_neg Bool.false_ne_true]
        exact if_pos rfl
      rw [htoken, hscan] at hstep
      refine ⟨_, 0, ⟨qs, rfl, hqs⟩, by decide, ?_⟩
      rw [List.cons_append, ← hstep]
      simp [Token.bytes]

theorem scans_semicolon {l : Lexeme} (hgap : Blank l.gap) (ht : l.token = semicolon) :
    Scans [l] s (· = [.Other]) := by
  refine scans_token hgap fun prev _ => ⟨_, ascii ';', rfl, by decide, ?_⟩
  rw [ht]
  exact scan_byte (c := ascii ';') (by decide) (by decide)

/-! ## Lexemes that stand apart -/

theorem token_bytes_ne {t : Token} (h : t.Valid) : t.bytes ≠ [] := by
  cases h with
  | sign hs =>
    have hall : signs.all (fun s => !s.isEmpty) = true := by decide
    simpa [Token.bytes] using List.all_eq_true.mp hall _ hs
  | number _ hne => exact hne
  | _ => simp [Token.bytes, quotes, ascii_text]

theorem lexeme_head (l : Lexeme) (s : Bytes) : (l.bytes ++ s).head? = l.bytes.head? := by
  refine List.head?_append_of_ne_nil _ ?_
  unfold Lexeme.bytes
  simp [token_bytes_ne l.token_ok]

variable {l l' : Lexeme}

theorem Apart.ends (h : Apart l l') (s : Bytes) : Ends l.token.sticks (l'.bytes ++ s) := by
  intro b hb
  rw [lexeme_head] at hb
  exact h b hb

/-- Blank space bounds what is in front of it. -/
theorem lexeme_bounded (l : Lexeme) (s : Bytes) : Bounded (l.bytes ++ s) ∨ l.gap = [] := by
  by_cases hgap : l.gap = []
  · exact .inr hgap
  · refine .inl ?_
    unfold Lexeme.bytes
    rw [List.append_assoc]
    exact Gap.bounded l.gap_ok fun h => absurd h hgap

/-- A keyword, an IRI or a prefixed name. -/
def Token.is_operand : Token → Bool
  | word _ | iriref _ | pname _ _ => true
  | _ => false

theorem word_then {w : Bytes} (hl : l.token = .word w) (h : Apart l l')
    (hkind : l'.token.is_operand = true) (s : Bytes) : Ends joined (l'.bytes ++ s) := by
  rcases lexeme_bounded l' s with hbound | hgap
  · exact hbound.joined
  intro b hb
  have hstick := h.ends s b hb
  have hvalid := l'.token_ok
  rw [hl] at hstick
  unfold Lexeme.bytes at hb
  rw [hgap, List.nil_append] at hb
  generalize l'.token = t at hkind hvalid hb
  cases hvalid with
  | word hletter =>
    rw [← Option.some.inj hb] at hstick
    exact absurd (letter_start hletter) (by rw [show is_pname_start _ = false from hstick]; simp)
  | iriref =>
    rw [← Option.some.inj hb]
    decide
  | @pname ns loc hns hdash =>
    cases ns with
    | nil =>
      rw [← Option.some.inj hb] at hstick
      exact absurd hstick (by simp [Token.sticks]; decide)
    | cons c ns =>
      rw [← Option.some.inj hb] at hstick
      exact absurd (ns_start hns hdash) (by rw [show is_pname_start _ = false from hstick]; simp)
  | _ => cases hkind

/-- A keyword in front of a keyword, an IRI or a prefixed name. -/
theorem scans_keyword (rest : List Lexeme) {s w : Bytes} {kw : List Char} (hgap : Blank l.gap)
    (hl : l.token = .word w) (h : Spells w kw)
    (hkw : ((ascii_text kw).map to_ascii_lowercase).all is_letter = true) (hapart : Apart l l')
    (hkind : l'.token.is_operand = true) :
    Scans [l] (spelled (l' :: rest) ++ s) (· = [word_token 0 (ascii_text kw) none]) := by
  refine scans_word hgap hl h hkw ?_
  rw [spelled_cons, List.append_assoc]
  exact word_then hl hapart hkind _

theorem name_then {ns loc w : Bytes} (hl : l.token = .pname ns loc) (h : Apart l l')
    (hl' : l'.token = .word w) (s : Bytes) : Bounded (l'.bytes ++ s) := by
  refine (lexeme_bounded l' s).resolve_right fun hgap => ?_
  have hvalid := l'.token_ok
  rw [hl'] at hvalid
  cases hvalid with
  | @word b w hletter =>
    have hstick := h b (by rw [Lexeme.bytes, hgap, hl']; rfl)
    rw [hl] at hstick
    have hname : (is_pname_start b && b ≠ ascii ':') = false := hstick
    rw [letter_sticks hletter] at hname
    cases hname

/-- The last lexeme of an operand stands apart from the text behind it. -/
def Closed (l : Lexeme) (s : Bytes) : Prop :=
  match l.token with
  | .word _ => Ends joined s
  | .pname _ _ => Bounded s
  | _ => True

theorem closed_bounded (l : Lexeme) (hs : Bounded s) : Closed l s := by
  unfold Closed
  split
  · exact hs.joined
  · exact hs
  · trivial

theorem closed_word {w : Bytes} (h : Apart l l') (hl' : l'.token = .word w) (s : Bytes) :
    Closed l (l'.bytes ++ s) := by
  unfold Closed
  split
  · rename_i hl
    exact word_then hl h (by rw [hl']; rfl) s
  · rename_i hl
    exact name_then hl h hl' s
  · trivial

/-! ## Operands -/

/-- The tokens of a graph. -/
inductive GraphToks : Operand → List AmcTok → Prop where
  | iri (body : Bytes) :
      GraphToks (.iri body) [if ascii '\\' ∈ body then .Escaped else .Iri body]
  | pname {ns loc : Bytes} : ascii ':' ∉ ns → ascii '\\' ∉ loc →
      GraphToks (.pname ns loc) [.PName (ns ++ ascii ':' :: loc)]
  | escaped {ns loc : Bytes} {qs : List AmcTok} : ascii '\\' ∈ loc → (∀ t ∈ qs, quiet t = true) →
      GraphToks (.pname ns loc) (.Escaped :: qs)

inductive OperandToks : Operand → List AmcTok → Prop where
  | default : OperandToks .default_graph [.Default]
  | bare {o : Operand} {ts : List AmcTok} : GraphToks o ts → OperandToks o ts
  | graph {o : Operand} {ts : List AmcTok} : GraphToks o ts → OperandToks o (.Graph :: ts)

theorem name_no_colon {ns : Bytes} (h : turtle.Token.Name ns) : ascii ':' ∉ ns :=
  fun hmem => absurd (h.2 _ hmem) (by decide)

theorem scans_graph {fl : List Lexeme} {o : Operand} (h : ReadsGraph (fl.map (·.token)) o)
    (hblank : ∀ l ∈ fl, Blank l.gap) (hclear : ∀ l ∈ fl, l.token.Clear)
    (hclose : ∀ l, fl.getLast? = some l → Closed l s) : Scans fl s (GraphToks o) := by
  generalize hts : fl.map (·.token) = ts at h
  cases h with
  | iri body =>
    obtain ⟨l, rfl, hl⟩ := List.map_eq_singleton_iff.mp hts
    refine (scans_iri (hblank l (by simp)) hl).imp fun ts h => ?_
    rw [h]
    exact .iri body
  | pname ns loc =>
    obtain ⟨l, rfl, hl⟩ := List.map_eq_singleton_iff.mp hts
    have hbound : Bounded s := by
      have hclosed := hclose l rfl
      unfold Closed at hclosed
      rw [hl] at hclosed
      exact hclosed
    have hvalid := l.token_ok
    rw [hl] at hvalid
    cases hvalid with
    | pname hns =>
      by_cases hescape : ascii '\\' ∈ loc
      · refine (scans_escaped (hblank l (by simp)) (hclear l (by simp)) hl hescape hbound).imp
          fun ts h => ?_
        obtain ⟨qs, rfl, hqs⟩ := h
        exact .escaped hescape hqs
      · refine (scans_pname (hblank l (by simp)) hl hescape hbound.joined).imp fun ts h => ?_
        rw [h]
        exact .pname (name_no_colon hns) hescape

theorem reads_graph_opens {ts : List Token} {o : Operand} (h : ReadsGraph ts o) :
    ∃ t rest, ts = t :: rest ∧ t.is_operand = true := by
  cases h with
  | iri body => exact ⟨_, _, rfl, rfl⟩
  | pname ns loc => exact ⟨_, _, rfl, rfl⟩

theorem reads_operand_opens {ts : List Token} {o : Operand} (h : ReadsOperand ts o) :
    ∃ t rest, ts = t :: rest ∧ t.is_operand = true := by
  cases h with
  | default => exact ⟨_, _, rfl, rfl⟩
  | bare h => exact reads_graph_opens h
  | graph => exact ⟨_, _, rfl, rfl⟩

theorem scans_operand {fl : List Lexeme} {o : Operand} (h : ReadsOperand (fl.map (·.token)) o)
    (hblank : ∀ l ∈ fl, Blank l.gap) (hclear : ∀ l ∈ fl, l.token.Clear)
    (hchain : fl.IsChain Apart) (hclose : ∀ l, fl.getLast? = some l → Closed l s) :
    Scans fl s (OperandToks o) := by
  generalize hts : fl.map (·.token) = ts at h
  cases h with
  | default hw =>
    obtain ⟨l, rfl, hl⟩ := List.map_eq_singleton_iff.mp hts
    have hclosed := hclose l rfl
    unfold Closed at hclosed
    rw [hl] at hclosed
    refine (scans_word (hblank l (by simp)) hl hw (by decide) hclosed).imp fun ts h => ?_
    rw [h]
    exact .default
  | bare h =>
    rw [← hts] at h
    exact (scans_graph h hblank hclear hclose).imp fun ts => .bare
  | graph hw h =>
    obtain ⟨l, fl, rfl, hl, hfl⟩ := List.map_eq_cons_iff.mp hts
    obtain ⟨t, rest, hopen, hkind⟩ := reads_graph_opens h
    rw [← hfl] at h
    rw [hopen] at hfl
    obtain ⟨l', fl', rfl, hl', -⟩ := List.map_eq_cons_iff.mp hfl
    rw [List.forall_mem_cons] at hblank hclear
    have hapart := (List.isChain_cons_cons.mp hchain).1
    have hword := scans_keyword fl' (s := s) hblank.1 hl hw (by decide) hapart
      (by rw [hl']; exact hkind)
    refine (hword.append (scans_graph h hblank.2 hclear.2 ?_)).imp ?_
    · intro last hlast
      exact hclose last (by rw [List.getLast?_cons_cons]; exact hlast)
    · rintro ts ⟨us, vs, rfl, rfl, hvs⟩
      exact .graph hvs

end horndb.sparql.update_text
