-- The directives of a document in the scan: over the pieces in front of a directive the scan stays
-- in step, so it comes by the directive and reports it. What puts it out of step is named.
import HornDb.TurtleScan

open HornDb.Lib.Wire

set_option maxRecDepth 4096

namespace horndb.storage.turtle

/-! ## Blank space as pieces -/

/-- The pieces of blank space, as the scan cuts it: a comment goes up to a line feed. -/
def gap_pieces : Option Bytes → Bytes → List Piece
  | none, [] => []
  | none, b :: rest =>
    if b = ascii '#' then gap_pieces (some []) rest else .byte b :: gap_pieces none rest
  | some body, [] => [.comment body]
  | some body, b :: rest =>
    if b = ascii '\n' then .comment body :: .byte b :: gap_pieces none rest
    else gap_pieces (some (body ++ [b])) rest

/-- Every comment of blank space ends at a line feed of that space. -/
def Clean (g : Bytes) : Prop := ∀ front back, g = front ++ ascii '#' :: back → ascii '\n' ∈ back

theorem Clean.tail {b : UInt8} {g : Bytes} (h : Clean (b :: g)) : Clean g :=
  fun front back hg => h (b :: front) back (by rw [hg]; rfl)

theorem Clean.back {f g : Bytes} (h : Clean (f ++ g)) : Clean g :=
  fun front back hg => h (f ++ front) back (by rw [hg, List.append_assoc])

theorem Clean.append {f g : Bytes} (hf : Clean f) (hg : Clean g) : Clean (f ++ g) := by
  intro front back h
  rcases List.append_eq_append_iff.mp h with ⟨more, rfl, hmore⟩ | ⟨more, rfl, hmore⟩
  · exact hg more back hmore
  · cases more with
    | nil => exact hg [] back hmore.symm
    | cons b more =>
      obtain ⟨rfl, rfl⟩ := List.cons.inj hmore
      exact List.mem_append_left _ (hf front more rfl)

theorem clean_of_no_comment {g : Bytes} (h : ascii '#' ∉ g) : Clean g :=
  fun _ _ hg => absurd (hg ▸ by simp) h

theorem gap_pieces_bytes (mode : Option Bytes) (g : Bytes) :
    bytes_of (gap_pieces mode g) = (mode.elim [] fun body => ascii '#' :: body) ++ g := by
  induction g generalizing mode with
  | nil => cases mode <;> simp [gap_pieces, Piece.bytes]
  | cons b g ih =>
    cases mode with
    | none =>
      rw [gap_pieces]
      split
      · rename_i hb
        rw [ih, hb]
        rfl
      · rw [bytes_of_cons, ih]
        rfl
    | some body =>
      rw [gap_pieces]
      split
      · rw [bytes_of_cons, bytes_of_cons, ih]
        simp [Piece.bytes]
      · rw [ih]
        simp

/-- Inside a comment, bytes of its line go to the comment. -/
theorem gap_pieces_line {line : Bytes} (h : ascii '\n' ∉ line) (body rest : Bytes) :
    gap_pieces (some body) (line ++ rest) = gap_pieces (some (body ++ line)) rest := by
  induction line generalizing body with
  | nil => simp
  | cons b line ih =>
    rw [List.mem_cons, not_or] at h
    rw [List.cons_append, gap_pieces, if_neg fun hb => h.1 hb.symm, ih h.2, List.append_assoc]
    rfl

theorem not_line_feed {line : Bytes} (h : ∀ b ∈ line, is_eol b = false) : ascii '\n' ∉ line :=
  fun hmem => absurd (h _ hmem) (by decide)

theorem is_eol_cases {b : UInt8} (h : is_eol b = true) : b = ascii '\r' ∨ b = ascii '\n' := by
  simpa [is_eol] using h

theorem is_ws_cases {b : UInt8} (h : is_ws b = true) :
    b = ascii ' ' ∨ b = ascii '\t' ∨ b = ascii '\r' ∨ b = ascii '\n' := by
  simpa [is_ws, or_assoc] using h

/-- From within a comment or not, the pieces of clean blank space are as the scan wants them. -/
theorem gap_pieces_ok {g : Bytes} (hg : Gap g) (hclean : Clean g) (after : Bytes) :
    AllOk (gap_pieces none g) after ∧ ∀ body, ascii '\n' ∉ body → ascii '\n' ∈ g →
      AllOk (gap_pieces (some body) g) after := by
  induction hg with
  | nil => exact ⟨trivial, fun body _ h => absurd h List.not_mem_nil⟩
  | @ws b rest hb _ ih =>
    obtain ⟨ih_text, ih_comment⟩ := ih hclean.tail
    have hspecial : is_special b = false := by
      rcases is_ws_cases hb with rfl | rfl | rfl | rfl <;> decide
    constructor
    · rw [gap_pieces, if_neg]
      · exact ⟨hspecial, ih_text⟩
      · rintro rfl
        exact absurd hspecial (by decide)
    · intro body hbody hline
      rw [gap_pieces]
      split
      · rename_i hb
        exact ⟨⟨hbody, by simp [Piece.bytes, hb]⟩, hspecial, ih_text⟩
      · rename_i hb
        refine ih_comment _ ?_ ((List.mem_cons.mp hline).resolve_left fun h => hb h.symm)
        rw [List.mem_append, List.mem_singleton, not_or]
        exact ⟨hbody, fun h => hb h.symm⟩
  | @comment line rest eol hline heol _ ih =>
    have hrest : Clean rest :=
      Clean.back (f := ascii '#' :: (line ++ [eol])) (by simpa using hclean)
    obtain ⟨ih_text, ih_comment⟩ := ih hrest
    have hfeed := not_line_feed hline
    -- from within a comment, or from the mark of this one
    have hinside : ∀ body, ascii '\n' ∉ body → ascii '\n' ∈ line ++ eol :: rest →
        AllOk (gap_pieces (some body) (line ++ eol :: rest)) after := by
      intro body hbody hmem
      rw [gap_pieces_line hfeed, gap_pieces]
      have hfront : ascii '\n' ∉ body ++ line := by
        rw [List.mem_append, not_or]
        exact ⟨hbody, hfeed⟩
      split
      · rename_i heq
        refine ⟨⟨hfront, by simp [Piece.bytes, heq]⟩, ?_, ih_text⟩
        rw [Piece.Ok, heq]
        decide
      · rename_i hne
        refine ih_comment _ ?_ ?_
        · rw [List.mem_append, List.mem_singleton, not_or]
          exact ⟨hfront, fun h => hne h.symm⟩
        · rcases List.mem_append.mp hmem with h | h
          · exact absurd h hfeed
          · exact (List.mem_cons.mp h).resolve_left fun h => hne h.symm
    constructor
    · rw [gap_pieces, if_pos rfl]
      exact hinside [] List.not_mem_nil (hclean [] _ rfl)
    · intro body hbody hmem
      rw [gap_pieces, if_neg (by decide)]
      refine hinside _ ?_ ((List.mem_cons.mp hmem).resolve_left (by decide))
      rw [List.mem_append, List.mem_singleton, not_or]
      exact ⟨hbody, by decide⟩

/-- Blank space ends with white space. -/
theorem Gap.last {g : Bytes} (h : Gap g) :
    g = [] ∨ ∃ front b, g = front ++ [b] ∧ is_ws b = true := by
  induction h with
  | nil => exact Or.inl rfl
  | @ws b rest hb _ ih =>
    right
    rcases ih with rfl | ⟨front, c, rfl, hc⟩
    · exact ⟨[], b, rfl, hb⟩
    · exact ⟨b :: front, c, rfl, hc⟩
  | @comment line rest eol _ heol _ ih =>
    right
    rcases ih with rfl | ⟨front, c, rfl, hc⟩
    · refine ⟨ascii '#' :: line, eol, rfl, ?_⟩
      rcases is_eol_cases heol with rfl | rfl <;> decide
    · exact ⟨ascii '#' :: (line ++ eol :: front), c, by simp, hc⟩

/-! ## Tokens as pieces -/

namespace Token

def pieces : Token → List Piece
  | iriref body => [.iri body]
  | string q long body => [.literal q long body]
  | open_quoted term => [.quoted term]
  | t => t.bytes.map .byte

/-- No escape in a prefixed name starts another piece. -/
def Scannable (t : Token) : Prop := ∀ ns loc, t = pname_ln ns loc → ∀ b ∈ loc, is_special b = false

theorem bytes_of_byte (bs : Bytes) : bytes_of (bs.map .byte) = bs := by
  induction bs with
  | nil => rfl
  | cons b bs ih =>
    rw [List.map_cons, bytes_of_cons, ih]
    rfl

@[simp] theorem pieces_bytes (t : Token) : bytes_of t.pieces = t.bytes := by
  cases t with
  | iriref => exact List.append_nil _
  | string => exact List.append_nil _
  | open_quoted => exact List.append_nil _
  | boolean value => cases value <;> exact bytes_of_byte _
  | _ => exact bytes_of_byte _

end Token

theorem not_special {b : UInt8}
    (h : b ≠ ascii '#' ∧ b ≠ ascii '<' ∧ b ≠ ascii '"' ∧ b ≠ ascii '\'') :
    is_special b = false := by
  simp [is_special, is_quote, h]

/-- A special byte is none of the bytes told by a test that fails on all four. -/
theorem not_special_of {p : UInt8 → Bool} {b : UInt8} (h : p b = true)
    (hhash : p (ascii '#') = false) (hangle : p (ascii '<') = false)
    (hdouble : p (ascii '"') = false) (hsingle : p (ascii '\'') = false) :
    is_special b = false := by
  refine not_special ⟨?_, ?_, ?_, ?_⟩
  all_goals
    rintro rfl
    simp_all

theorem Token.Name.plain {ns : Bytes} (h : Token.Name ns) : ∀ b ∈ ns, is_special b = false :=
  fun b hb => not_special_of (p := fun b => is_pn_char b || b = ascii '.') (h.2 b hb)
    (by decide) (by decide) (by decide) (by decide)

theorem to_lower_special {b : UInt8} (h : is_special b = true) : to_ascii_lowercase b = b := by
  simp only [is_special, is_quote, Bool.or_eq_true, decide_eq_true_eq] at h
  rcases h with (rfl | rfl) | rfl | rfl <;> decide

theorem plain_of_lower {kw word : Bytes} (h : kw.map to_ascii_lowercase = word)
    (hword : ∀ b ∈ word, is_special b = false) : ∀ b ∈ kw, is_special b = false := by
  intro b hb
  by_contra hspecial
  rw [Bool.not_eq_false] at hspecial
  have hmem : to_ascii_lowercase b ∈ word := h ▸ List.mem_map_of_mem hb
  rw [to_lower_special hspecial] at hmem
  rw [hword b hmem] at hspecial
  cases hspecial

theorem bytes_plain {bs : Bytes} (h : ∀ b ∈ bs, is_special b = false) (after : Bytes) :
    AllOk (bs.map .byte) after := by
  induction bs with
  | nil => exact trivial
  | cons b bs ih => exact ⟨h b List.mem_cons_self, ih fun c hc => h c (List.mem_cons_of_mem b hc)⟩

theorem plain_append {f g : Bytes} (hf : ∀ b ∈ f, is_special b = false)
    (hg : ∀ b ∈ g, is_special b = false) : ∀ b ∈ f ++ g, is_special b = false :=
  fun b hb => (List.mem_append.mp hb).elim (hf b) (hg b)

theorem punctuation_plain (p : Punctuation) : ∀ b ∈ p.bytes, is_special b = false := by
  cases p <;> decide

theorem Token.pieces_ok {t : Token} (hvalid : t.Valid) (hscan : t.Scannable) {after : Bytes}
    (hafter : ∀ q, t = .string q false [] → after.head? ≠ some q) : AllOk t.pieces after := by
  cases hvalid with
  | iriref hbody => exact ⟨hbody, trivial⟩
  | @short q body hq hbody =>
    exact ⟨⟨hq, hbody, fun hnil => by simpa using hafter q (by rw [hnil])⟩, trivial⟩
  | long hq hbody => exact ⟨⟨hq, hbody⟩, trivial⟩
  | open_quoted => exact ⟨trivial, trivial⟩
  | pname_ns hns => exact bytes_plain (plain_append hns.plain (by decide)) after
  | @pname_ln ns loc hns _ _ =>
    refine bytes_plain (plain_append hns.plain fun b hb => ?_) after
    rcases List.mem_cons.mp hb with rfl | hb
    · decide
    · exact hscan ns loc rfl b hb
  | blank_label hlabel _ => exact bytes_plain (plain_append (by decide) hlabel.plain) after
  | @langtag tag htag _ =>
    refine bytes_plain (fun b hb => ?_) after
    rcases List.mem_cons.mp hb with rfl | hb
    · decide
    · exact not_special_of (p := fun b => is_ascii_alphanumeric b || b = ascii '-') (htag b hb)
        (by decide) (by decide) (by decide) (by decide)
  | number hdigits _ =>
    refine bytes_plain (fun b hb => ?_) after
    have hdigit := decide_eq_true (hdigits b hb)
    exact not_special_of (p := fun b => decide (b ∈ _)) hdigit
      (by decide) (by decide) (by decide) (by decide)
  | word_a => exact bytes_plain (by decide) after
  | @boolean value => cases value <;> exact bytes_plain (by decide) after
  | prefix_at => exact bytes_plain (by decide) after
  | base_at => exact bytes_plain (by decide) after
  | version_at => exact bytes_plain (by decide) after
  | prefix_word hkw => exact bytes_plain (plain_of_lower hkw (by decide)) after
  | base_word hkw => exact bytes_plain (plain_of_lower hkw (by decide)) after
  | version_word hkw => exact bytes_plain (plain_of_lower hkw (by decide)) after
  | @punct p => exact bytes_plain (punctuation_plain p) after

/-! ## Statements as pieces -/

def Lexeme.pieces (l : Lexeme) : List Piece := gap_pieces none l.gap ++ l.token.pieces

def Lexeme.Clear (l : Lexeme) : Prop := Clean l.gap ∧ l.token.Scannable

theorem Lexeme.pieces_bytes (l : Lexeme) : bytes_of l.pieces = l.bytes := by
  rw [Lexeme.pieces, bytes_of_append, gap_pieces_bytes, Token.pieces_bytes]
  rfl

theorem lexemes_bytes (ls : List Lexeme) :
    bytes_of (ls.flatMap Lexeme.pieces) = ls.flatMap Lexeme.bytes := by
  induction ls with
  | nil => rfl
  | cons l ls ih => rw [List.flatMap_cons, bytes_of_append, l.pieces_bytes, ih, List.flatMap_cons]

theorem Lexeme.pieces_ok {l : Lexeme} (h : l.Clear) {after : Bytes}
    (hafter : ∀ q, l.token = .string q false [] → after.head? ≠ some q) : AllOk l.pieces after :=
  all_ok_append.mpr ⟨(gap_pieces_ok l.gap_ok h.1 _).1, l.token.pieces_ok l.token_ok h.2 hafter⟩

theorem Token.bytes_ne_nil {t : Token} (h : t.Valid) : t.bytes ≠ [] := by
  cases h with
  | prefix_word hkw =>
    rintro rfl
    cases hkw
  | base_word hkw =>
    rintro rfl
    cases hkw
  | version_word hkw =>
    rintro rfl
    cases hkw
  | number _ hne => exact hne
  | @short q body => simp [Token.bytes, quotes]
  | @long q body => simp [Token.bytes, quotes, List.replicate]
  | @boolean value => cases value <;> exact List.cons_ne_nil _ _
  | @open_quoted term => cases term <;> exact List.cons_ne_nil _ _
  | @punct p => cases p <;> exact List.cons_ne_nil _ _
  | @pname_ns ns => simp [Token.bytes]
  | @pname_ln ns => simp [Token.bytes]
  | _ => exact List.cons_ne_nil _ _

theorem Lexeme.bytes_ne_nil (l : Lexeme) : l.bytes ≠ [] :=
  fun h => Token.bytes_ne_nil l.token_ok (List.append_eq_nil_iff.mp h).2

theorem lexemes_ok {ls : List Lexeme} (hapart : ls.IsChain Apart) (hclear : ∀ l ∈ ls, l.Clear)
    {after : Bytes}
    (hafter : ∀ l ∈ ls.getLast?, ∀ q, l.token = .string q false [] → after.head? ≠ some q) :
    AllOk (ls.flatMap Lexeme.pieces) after := by
  induction hapart with
  | nil => exact trivial
  | singleton l =>
    rw [List.flatMap_singleton]
    exact l.pieces_ok (hclear l List.mem_cons_self) (hafter l rfl)
  | @cons_cons l l' ls hnext _ ih =>
    rw [List.flatMap_cons]
    have hrest : AllOk ((l' :: ls).flatMap Lexeme.pieces) after :=
      ih (fun m hm => hclear m (List.mem_cons_of_mem l hm)) hafter
    refine all_ok_append.mpr ⟨l.pieces_ok (hclear l List.mem_cons_self) fun q h => ?_, hrest⟩
    obtain ⟨b, more, hbytes⟩ := List.exists_cons_of_ne_nil l'.bytes_ne_nil
    have hhead := hnext.2 q h
    rw [lexemes_bytes, List.flatMap_cons, hbytes]
    rwa [hbytes] at hhead

/-- What a statement can end with: a dot, or the IRI or the string of a directive. -/
def Token.Ends (t : Token) : Prop :=
  t = .punct .dot ∨ (∃ iri, t = .iriref iri) ∨ ∃ q text, t = .string q false text

theorem Production.last {kind : Kind} {ts : List Token} (h : Production kind ts) :
    ∃ front t, ts = front ++ [t] ∧ t.Ends := by
  cases h with
  | prefix_id ns iri => exact ⟨[.prefix_at, .pname_ns ns, .iriref iri], _, rfl, Or.inl rfl⟩
  | base iri => exact ⟨[.base_at, .iriref iri], _, rfl, Or.inl rfl⟩
  | prefix_word kw ns iri =>
    exact ⟨[.prefix_word kw, .pname_ns ns], _, rfl, Or.inr (Or.inl ⟨iri, rfl⟩)⟩
  | base_word kw iri => exact ⟨[.base_word kw], _, rfl, Or.inr (Or.inl ⟨iri, rfl⟩)⟩
  | version q text => exact ⟨[.version_at, .string q false text], _, rfl, Or.inl rfl⟩
  | version_word kw q text => exact ⟨[.version_word kw], _, rfl, Or.inr (Or.inr ⟨q, text, rfl⟩)⟩
  | @triples ts _ => exact ⟨ts, _, rfl, Or.inl rfl⟩

namespace Statement

def pieces (s : Statement) : List Piece := s.lexemes.flatMap Lexeme.pieces

theorem pieces_bytes (s : Statement) : bytes_of s.pieces = s.bytes := lexemes_bytes s.lexemes

theorem last (s : Statement) : ∃ front l, s.lexemes = front ++ [l] ∧ l.token.Ends := by
  obtain ⟨front, t, hts, ht⟩ := s.production.last
  obtain ⟨ls, more, hls, -, hmore⟩ := List.map_eq_append_iff.mp hts
  obtain ⟨l, rfl, rfl⟩ := List.map_eq_singleton_iff.mp hmore
  exact ⟨ls, l, hls, ht⟩

end Statement

/-- The bytes that a statement or blank space can end with. -/
def is_end (b : UInt8) : Bool := b = ascii '.' || b = ascii '>' || is_quote b || is_ws b

theorem is_end_no_name {b : UInt8} (h : is_end b = true) : is_name_byte b = false := by
  simp only [is_end, is_quote, Bool.or_eq_true, decide_eq_true_eq] at h
  rcases h with ((rfl | rfl) | rfl | rfl) | h
  · decide
  · decide
  · decide
  · decide
  · rcases is_ws_cases h with rfl | rfl | rfl | rfl <;> decide

theorem Statement.ends (s : Statement) : ∃ front b, s.bytes = front ++ [b] ∧ is_end b = true := by
  obtain ⟨front, l, hls, ht⟩ := s.last
  have hbytes : s.bytes = front.flatMap Lexeme.bytes ++ (l.gap ++ l.token.bytes) := by
    rw [Statement.bytes, hls, List.flatMap_append, List.flatMap_singleton]
    rfl
  have hvalid := l.token_ok
  rcases ht with ht | ⟨iri, ht⟩ | ⟨q, text, ht⟩
  · refine ⟨front.flatMap Lexeme.bytes ++ l.gap, ascii '.', ?_, by decide⟩
    rw [hbytes, ht, List.append_assoc]
    rfl
  · refine ⟨front.flatMap Lexeme.bytes ++ (l.gap ++ ascii '<' :: iri), ascii '>', ?_, by decide⟩
    rw [hbytes, ht]
    simp [Token.bytes]
  · refine ⟨front.flatMap Lexeme.bytes ++ (l.gap ++ q :: text), q, ?_, ?_⟩
    · rw [hbytes, ht]
      simp [Token.bytes, quotes]
    · rw [ht] at hvalid
      cases hvalid with
      | short hq _ => rcases hq with rfl | rfl <;> decide

/-! ## Documents -/

namespace Document

def front_bytes (d : Document) (k : Nat) : Bytes := (d.statements.take k).flatMap Statement.bytes

/-- The blank space in front of a statement. -/
def gap (d : Document) (k : Nat) : Bytes :=
  ((d.statements[k]?.bind fun s => s.lexemes.head?).map Lexeme.gap).getD []

/-- Where the first token of a statement is. -/
def offset (d : Document) (k : Nat) : Nat := (d.front_bytes k ++ d.gap k).length

/-- The pieces in front of the first token of a statement. -/
def front_pieces (d : Document) (k : Nat) : List Piece :=
  (d.statements.take k).flatMap Statement.pieces ++ gap_pieces none (d.gap k)

/-- Nothing puts the scan out of step in front of a statement, no comment is glued to the keyword
that it starts with, and a directive that starts with an at sign is not glued to a version. -/
structure Clear (d : Document) (k : Nat) : Prop where
  lexemes : ∀ s ∈ d.statements.take k, ∀ l ∈ s.lexemes, l.Clear
  gap : Clean (d.gap k)
  quoted : QuotedClear d.bytes (d.front_pieces k)
  keyword : ∀ s, d.statements[k]? = some s → ∀ l l' ls, s.lexemes = l :: l' :: ls →
    (∃ kw, l.token = .prefix_word kw ∨ l.token = .base_word kw) →
    l'.gap.head? ≠ some (ascii '#')
  version : ∀ s, d.statements[k]? = some s → ∀ l ls, s.lexemes = l :: ls →
    l.token = .prefix_at ∨ l.token = .base_at →
    ∀ b, (d.front_bytes k ++ d.gap k).getLast? = some b → is_quote b = false

variable {d : Document} {k : Nat} {s : Statement} {l : Lexeme} {ls : List Lexeme}

def back_bytes (d : Document) (k : Nat) : Bytes :=
  (d.statements.drop (k + 1)).flatMap Statement.bytes ++ d.tail

theorem gap_eq (hs : d.statements[k]? = some s) (hl : s.lexemes = l :: ls) : d.gap k = l.gap := by
  simp [gap, hs, hl]

/-- A document around the first token of a statement. -/
theorem split (hs : d.statements[k]? = some s) (hl : s.lexemes = l :: ls) :
    d.bytes = (d.front_bytes k ++ d.gap k) ++
      (l.token.bytes ++ (ls.flatMap Lexeme.bytes ++ d.back_bytes k)) := by
  obtain ⟨hk, hget⟩ := List.getElem?_eq_some_iff.mp hs
  have hstatements : d.statements = d.statements.take k ++ s :: d.statements.drop (k + 1) := by
    rw [← hget, ← List.drop_eq_getElem_cons hk, List.take_append_drop]
  have hs_bytes : s.bytes = l.gap ++ (l.token.bytes ++ ls.flatMap Lexeme.bytes) := by
    rw [Statement.bytes, hl, List.flatMap_cons, Lexeme.bytes, List.append_assoc]
  rw [gap_eq hs hl, Document.bytes, hstatements, List.flatMap_append, List.flatMap_cons, hs_bytes,
    front_bytes, back_bytes]
  simp only [List.append_assoc]

theorem statements_bytes (ss : List Statement) :
    bytes_of (ss.flatMap Statement.pieces) = ss.flatMap Statement.bytes := by
  induction ss with
  | nil => rfl
  | cons s ss ih => rw [List.flatMap_cons, bytes_of_append, s.pieces_bytes, ih, List.flatMap_cons]

theorem statements_pieces (ss : List Statement) :
    ss.flatMap Statement.pieces = (ss.flatMap (·.lexemes)).flatMap Lexeme.pieces := by
  rw [List.flatMap_assoc]
  rfl

/-- The tokens in front of a statement stand apart from its first one. -/
theorem apart_front (hs : d.statements[k]? = some s) (hl : s.lexemes = l :: ls) :
    ((d.statements.take k).flatMap (·.lexemes)).IsChain Apart ∧
      ∀ m ∈ ((d.statements.take k).flatMap (·.lexemes)).getLast?, Apart m l := by
  obtain ⟨hk, hget⟩ := List.getElem?_eq_some_iff.mp hs
  have hstatements : d.statements = d.statements.take k ++ s :: d.statements.drop (k + 1) := by
    rw [← hget, ← List.drop_eq_getElem_cons hk, List.take_append_drop]
  have hchain := d.apart
  rw [hstatements, List.flatMap_append, List.flatMap_cons, hl, List.cons_append,
    List.isChain_append] at hchain
  exact ⟨hchain.1, fun m hm => hchain.2.2 m hm l rfl⟩

/-- The pieces in front of a statement are as the scan wants them. -/
theorem front_ok (hs : d.statements[k]? = some s) (hl : s.lexemes = l :: ls)
    (hclear : ∀ s ∈ d.statements.take k, ∀ l ∈ s.lexemes, l.Clear) (hgap : Clean l.gap)
    (after : Bytes) :
    AllOk ((d.statements.take k).flatMap Statement.pieces ++ gap_pieces none l.gap)
      (l.token.bytes ++ after) := by
  obtain ⟨hchain, hlast⟩ := apart_front hs hl
  refine all_ok_append.mpr ⟨?_, (gap_pieces_ok l.gap_ok hgap _).1⟩
  rw [statements_pieces]
  refine lexemes_ok hchain (fun m hm => ?_) fun m hm q hq => ?_
  · obtain ⟨s', hs', hm⟩ := List.mem_flatMap.mp hm
    exact hclear s' hs' m hm
  · obtain ⟨b, more, hbytes⟩ := List.exists_cons_of_ne_nil l.bytes_ne_nil
    have hhead := (hlast m hm).2 q hq
    have hshape : bytes_of (gap_pieces none l.gap) ++ (l.token.bytes ++ after) =
        l.bytes ++ after := by
      rw [gap_pieces_bytes, Lexeme.bytes, ← List.append_assoc]
      rfl
    rw [hshape, hbytes]
    rwa [hbytes] at hhead

theorem front_pieces_bytes (d : Document) (k : Nat) :
    bytes_of (d.front_pieces k) = d.front_bytes k ++ d.gap k := by
  rw [front_pieces, bytes_of_append, statements_bytes, gap_pieces_bytes]
  rfl

theorem statements_end (ss : List Statement) : ss.flatMap Statement.bytes = [] ∨
    ∃ front b, ss.flatMap Statement.bytes = front ++ [b] ∧ is_end b = true := by
  rcases List.eq_nil_or_concat ss with rfl | ⟨ss, s, rfl⟩
  · exact Or.inl rfl
  · obtain ⟨front, b, hs, hb⟩ := s.ends
    refine Or.inr ⟨ss.flatMap Statement.bytes ++ front, b, ?_, hb⟩
    rw [List.concat_eq_append, List.flatMap_append, List.flatMap_singleton, hs, List.append_assoc]

/-- In front of the first token of a statement no word ends. -/
theorem front_end (hs : d.statements[k]? = some s) (hl : s.lexemes = l :: ls) :
    d.front_bytes k ++ d.gap k = [] ∨
      ∃ front b, d.front_bytes k ++ d.gap k = front ++ [b] ∧ is_end b = true := by
  rw [gap_eq hs hl]
  rcases l.gap_ok.last with hnil | ⟨front, b, hgap, hb⟩
  · rw [hnil, List.append_nil]
    exact statements_end _
  · refine Or.inr ⟨d.front_bytes k ++ front, b, by rw [hgap, List.append_assoc], ?_⟩
    simp [is_end, hb]

/-- The scan comes by the first token of a statement, from a string only behind a quote. -/
theorem Clear.reaches (h : d.Clear k) (hs : d.statements[k]? = some s) (hl : s.lexemes = l :: ls) :
    (d.offset k = 0 ∨ is_name_byte (d.bytes.getD (d.offset k - 1) 0) = false) ∧
      ∃ after, Reaches d.bytes (d.offset k) after ∧ (after = true →
        ∃ b, (d.front_bytes k ++ d.gap k).getLast? = some b ∧ is_quote b = true) := by
  have hbytes := split hs hl
  have hfront := front_pieces_bytes d k
  have hok : AllOk (d.front_pieces k)
      (l.token.bytes ++ (ls.flatMap Lexeme.bytes ++ d.back_bytes k)) := by
    rw [front_pieces, gap_eq hs hl]
    exact front_ok hs hl h.lexemes (gap_eq hs hl ▸ h.gap) _
  have hquoted := h.quoted
  rw [hbytes, ← hfront] at hquoted
  have hin := in_step_over hok hquoted
  rw [hfront, ← hbytes] at hin
  have hprevious : ∀ front b, d.front_bytes k ++ d.gap k = front ++ [b] →
      d.bytes.getD (d.offset k - 1) 0 = b := by
    intro front b hend
    rw [offset, hbytes, hend, List.length_append, List.length_singleton, Nat.add_sub_cancel,
      List.append_assoc, List.singleton_append, getD_front]
  have hname : d.offset k = 0 ∨ is_name_byte (d.bytes.getD (d.offset k - 1) 0) = false := by
    rcases front_end hs hl with hnil | ⟨front, b, hend, hb⟩
    · exact Or.inl (by rw [offset, hnil]; rfl)
    · exact Or.inr (by rw [hprevious front b hend]; exact is_end_no_name hb)
  obtain ⟨after, hreach, hafter⟩ := hin.here (Or.inr hname)
  refine ⟨hname, after, hreach, fun htrue => ?_⟩
  obtain ⟨hpos, hquote⟩ := hafter htrue
  rcases front_end hs hl with hnil | ⟨front, b, hend, _⟩
  · rw [hnil] at hpos
    exact absurd hpos (lt_irrefl 0)
  · refine ⟨b, by rw [hend, List.getLast?_append]; rfl, ?_⟩
    rw [← hprevious front b hend]
    exact hquote

end Document

/-! ## Keywords -/

section Keywords

variable {front rest : Bytes}

theorem lower_cases {b w : UInt8} (h : to_ascii_lowercase b = w) : b = w ∨ b = w - 32 := by
  unfold to_ascii_lowercase at h
  split at h
  · exact Or.inr (eq_sub_of_add_eq h)
  · exact Or.inl h

/-- A keyword in front of white space or a bracket is told, in any case. -/
theorem keyword_at_front {kw word : Bytes} (hkw : kw.map to_ascii_lowercase = word) {c : UInt8}
    (hc : is_ascii_whitespace c = true ∨ c = ascii '<') :
    keyword_at word (kw ++ c :: rest) = true := by
  have hlen : word.length = kw.length := by rw [← hkw, List.length_map]
  have hnext : (kw ++ c :: rest)[kw.length]? = some c := by simp
  rw [keyword_at, hlen, List.take_left, hkw, hnext]
  simpa using hc

/-- A word that starts otherwise is not the keyword. -/
theorem keyword_at_other {word : Bytes} {b w : UInt8} (hword : word.head? = some w)
    (hb : to_ascii_lowercase b ≠ w) : keyword_at word (b :: rest) = false := by
  obtain ⟨more, rfl⟩ := List.head?_eq_some_iff.mp hword
  simp [keyword_at, hb]

theorem prefix_directive {kw : Bytes}
    (hkw : kw.map to_ascii_lowercase = ascii_text ['p', 'r', 'e', 'f', 'i', 'x']) {c : UInt8}
    (hc : is_ascii_whitespace c = true ∨ c = ascii '<') :
    sparql_directive (kw ++ c :: rest) = some .Prefix := by
  rw [sparql_directive, if_pos (keyword_at_front hkw hc)]

theorem base_directive {kw : Bytes}
    (hkw : kw.map to_ascii_lowercase = ascii_text ['b', 'a', 's', 'e']) {c : UInt8}
    (hc : is_ascii_whitespace c = true ∨ c = ascii '<') :
    sparql_directive (kw ++ c :: rest) = some .Base := by
  obtain ⟨b, more, rfl, hb, -⟩ := List.map_eq_cons_iff.mp hkw
  rw [sparql_directive, if_neg, if_pos (keyword_at_front hkw hc)]
  rw [List.cons_append, keyword_at_other (w := ascii 'p') rfl (by rw [hb]; decide)]
  decide

theorem meets_prefix_at :
    (scan_step (front ++ (prefix_at ++ rest)) front.length false).2.2 = some .Prefix := by
  have hget : (front ++ (prefix_at ++ rest)).getD front.length 0 = ascii '@' := by
    simp [prefix_at, ascii_text]
  unfold scan_step
  dsimp only
  rw [hget, if_neg (by decide), if_neg (by decide), if_neg (by decide), if_pos rfl, List.drop_left]
  simp

theorem meets_base_at :
    (scan_step (front ++ (base_at ++ rest)) front.length false).2.2 = some .Base := by
  have hget : (front ++ (base_at ++ rest)).getD front.length 0 = ascii '@' := by
    simp [base_at, ascii_text]
  have hother : ¬ prefix_at <+: base_at ++ rest := by
    simp [prefix_at, base_at, ascii_text, ascii]
  unfold scan_step
  dsimp only
  rw [hget, if_neg (by decide), if_neg (by decide), if_neg (by decide), if_pos rfl, List.drop_left]
  simp [hother]

/-- A keyword of a directive is met where no name ends in front of it. -/
theorem meets_keyword {kw word : Bytes} {kind : Directive}
    (hkw : kw.map to_ascii_lowercase = word)
    (hword : word.head? = some (ascii 'p') ∨ word.head? = some (ascii 'b'))
    (hkind : sparql_directive (kw ++ rest) = some kind)
    (hname : front.length = 0 ∨
      is_name_byte ((front ++ (kw ++ rest)).getD (front.length - 1) 0) = false) (after : Bool) :
    (scan_step (front ++ (kw ++ rest)) front.length after).2.2 = some kind := by
  obtain ⟨b, more, rfl, hb⟩ : ∃ b more, kw = b :: more ∧ (b = ascii 'p' ∨ b = ascii 'P' ∨
      b = ascii 'b' ∨ b = ascii 'B') := by
    cases kw with
    | nil =>
      rw [← hkw] at hword
      simp at hword
    | cons b more =>
      refine ⟨b, more, rfl, ?_⟩
      rw [← hkw] at hword
      rcases hword with h | h
      · exact (lower_cases (Option.some.inj h)).elim Or.inl fun h => Or.inr (Or.inl h)
      · exact (lower_cases (Option.some.inj h)).elim (fun h => Or.inr (Or.inr (Or.inl h)))
          fun h => Or.inr (Or.inr (Or.inr h))
  have hget : (front ++ (b :: more ++ rest)).getD front.length 0 = b := by simp
  have hletter : (decide (b = ascii 'p') || decide (b = ascii 'P') || decide (b = ascii 'b') ||
      decide (b = ascii 'B')) = true := by simpa [or_assoc] using hb
  have hnot : b ≠ ascii '#' ∧ b ≠ ascii '<' ∧
      (decide (b = ascii '"') || decide (b = ascii '\'')) = false ∧ b ≠ ascii '@' := by
    rcases hb with rfl | rfl | rfl | rfl <;> decide
  have hpreceded : (decide (front.length > 0) &&
      is_name_byte ((front ++ (b :: more ++ rest)).getD (front.length - 1) 0)) = false := by
    rcases hname with h | h
    · simp [h]
    · rw [h, Bool.and_false]
  unfold scan_step
  dsimp only
  rw [hget, if_neg hnot.1, if_neg hnot.2.1, hnot.2.2.1, if_neg (by decide), if_neg hnot.2.2.2,
    if_pos hletter, hpreceded, if_neg (by decide), List.drop_left]
  exact hkind

end Keywords

/-! ## Directives -/

theorem Gap.front {g : Bytes} (h : Gap g) (hne : g ≠ []) (hcomment : g.head? ≠ some (ascii '#')) :
    ∃ b rest, g = b :: rest ∧ is_ascii_whitespace b = true := by
  cases h with
  | nil => exact absurd rfl hne
  | @ws b rest hb _ =>
    refine ⟨b, rest, rfl, ?_⟩
    rcases is_ws_cases hb with rfl | rfl | rfl | rfl <;> decide
  | comment => exact absurd rfl hcomment

namespace Document

variable {d : Document} {k : Nat} {s : Statement} {l l' : Lexeme} {ls : List Lexeme}

theorem apart_next (hs : d.statements[k]? = some s) (hl : s.lexemes = l :: l' :: ls) :
    Apart l l' := by
  obtain ⟨hk, hget⟩ := List.getElem?_eq_some_iff.mp hs
  have hchain := d.apart
  rw [← List.take_append_drop k d.statements, List.drop_eq_getElem_cons hk, hget,
    List.flatMap_append, List.flatMap_cons, hl, List.isChain_append] at hchain
  exact (List.isChain_cons_cons.mp hchain.2.1).1

theorem found_of (hs : d.statements[k]? = some s) (hl : s.lexemes = l :: ls)
    {kind : Directive} {after : Bool} (hreach : Reaches d.bytes (d.offset k) after)
    (hmeets : (scan_step ((d.front_bytes k ++ d.gap k) ++
      (l.token.bytes ++ (ls.flatMap Lexeme.bytes ++ d.back_bytes k)))
      (d.front_bytes k ++ d.gap k).length after).2.2 = some kind) :
    (d.offset k, kind) ∈ scan_directives d.bytes := by
  have hbytes := split hs hl
  refine hreach.found ?_ (by rw [hbytes]; exact hmeets)
  have hpos := List.length_pos_of_ne_nil (Token.bytes_ne_nil l.token_ok)
  rw [hbytes, List.length_append, offset]
  simp only [List.length_append]
  omega

/-- A directive that starts with an at sign is met when it is told. -/
theorem Clear.at_found (h : d.Clear k) (hs : d.statements[k]? = some s) (hl : s.lexemes = l :: ls)
    (htoken : l.token = .prefix_at ∨ l.token = .base_at) {kind : Directive}
    (hmeets : ∀ front rest : Bytes,
      (scan_step (front ++ (l.token.bytes ++ rest)) front.length false).2.2 = some kind) :
    (d.offset k, kind) ∈ scan_directives d.bytes := by
  obtain ⟨-, after, hreach, hafter⟩ := h.reaches hs hl
  cases after with
  | false => exact found_of hs hl hreach (hmeets _ _)
  | true =>
    obtain ⟨b, hlast, hquote⟩ := hafter rfl
    rw [h.version s hs l ls hl htoken b hlast] at hquote
    cases hquote

/-- A directive that starts with a keyword is met when the keyword is told. -/
theorem Clear.keyword_found (h : d.Clear k) (hs : d.statements[k]? = some s)
    (hl : s.lexemes = l :: l' :: ls) {kw word : Bytes} {kind : Directive}
    (htoken : l.token = .prefix_word kw ∨ l.token = .base_word kw)
    (hkw : kw.map to_ascii_lowercase = word)
    (hword : word.head? = some (ascii 'p') ∨ word.head? = some (ascii 'b'))
    (hkind : ∀ c rest, is_ascii_whitespace c = true ∨ c = ascii '<' →
      sparql_directive (kw ++ c :: rest) = some kind)
    (hnext : l'.gap = [] → ∃ rest, l'.bytes = ascii '<' :: rest) :
    (d.offset k, kind) ∈ scan_directives d.bytes := by
  have hbytes : l.token.bytes = kw := by
    rcases htoken with htoken | htoken <;> rw [htoken] <;> rfl
  have hcomment := h.keyword s hs l l' ls hl ⟨kw, htoken⟩
  obtain ⟨c, rest, hc, hnext⟩ : ∃ c rest,
      (is_ascii_whitespace c = true ∨ c = ascii '<') ∧ l'.bytes = c :: rest := by
    by_cases hgap : l'.gap = []
    · obtain ⟨rest, hrest⟩ := hnext hgap
      exact ⟨ascii '<', rest, Or.inr rfl, hrest⟩
    · obtain ⟨c, rest, hrest, hc⟩ := l'.gap_ok.front hgap hcomment
      exact ⟨c, rest ++ l'.token.bytes, Or.inl hc, by rw [Lexeme.bytes, hrest]; rfl⟩
  obtain ⟨hname, after, hreach, -⟩ := h.reaches hs hl
  rw [split hs hl, hbytes] at hname
  refine found_of hs hl hreach ?_
  rw [hbytes]
  refine meets_keyword hkw hword ?_ hname after
  rw [List.flatMap_cons, hnext]
  exact hkind c _ hc

/-- A directive with nothing in front of it that puts the scan out of step is found. -/
theorem Clear.found (h : d.Clear k) (hs : d.statements[k]? = some s)
    (hkind : s.kind = .Prefix ∨ s.kind = .Base) :
    ∃ kind, (d.offset k, kind) ∈ scan_directives d.bytes ∧ (s.kind = .Base → kind = .Base) := by
  have hproduction := s.production
  generalize hk : s.kind = kd at hproduction hkind
  generalize hts : s.lexemes.map (·.token) = ts at hproduction
  cases hproduction with
  | triples => simp at hkind
  | version => simp at hkind
  | version_word => simp at hkind
  | prefix_id ns iri =>
    obtain ⟨l, ls, hl, hl_token, -⟩ := List.map_eq_cons_iff.mp hts
    refine ⟨.Prefix, h.at_found hs hl (Or.inl hl_token) fun front rest => ?_, fun h => by cases h⟩
    rw [hl_token]
    exact meets_prefix_at
  | base iri =>
    obtain ⟨l, ls, hl, hl_token, -⟩ := List.map_eq_cons_iff.mp hts
    refine ⟨.Base, h.at_found hs hl (Or.inr hl_token) fun front rest => ?_, fun _ => rfl⟩
    rw [hl_token]
    exact meets_base_at
  | prefix_word kw ns iri =>
    obtain ⟨l, ls, hl, hl_token, hts⟩ := List.map_eq_cons_iff.mp hts
    obtain ⟨l', ls', rfl, -, -⟩ := List.map_eq_cons_iff.mp hts
    have hkw : kw.map to_ascii_lowercase = ascii_text ['p', 'r', 'e', 'f', 'i', 'x'] := by
      have hvalid := l.token_ok
      rw [hl_token] at hvalid
      cases hvalid with
      | prefix_word hkw => exact hkw
    have hapart : l'.gap ≠ [] := by
      exact (apart_next hs hl).1 kw hl_token
    exact ⟨.Prefix, h.keyword_found hs hl (Or.inl hl_token) hkw (Or.inl rfl)
      (fun c rest hc => prefix_directive hkw hc) (fun hnil => absurd hnil hapart),
      fun h => by cases h⟩
  | base_word kw iri =>
    obtain ⟨l, ls, hl, hl_token, hts⟩ := List.map_eq_cons_iff.mp hts
    obtain ⟨l', ls', rfl, hl'_token, -⟩ := List.map_eq_cons_iff.mp hts
    have hkw : kw.map to_ascii_lowercase = ascii_text ['b', 'a', 's', 'e'] := by
      have hvalid := l.token_ok
      rw [hl_token] at hvalid
      cases hvalid with
      | base_word hkw => exact hkw
    refine ⟨.Base, h.keyword_found hs hl (Or.inr hl_token) hkw (Or.inr rfl)
      (fun c rest hc => base_directive hkw hc) fun hnil => ?_, fun _ => rfl⟩
    exact ⟨iri ++ [ascii '>'], by rw [Lexeme.bytes, hnil, hl'_token]; rfl⟩

end Document

end horndb.storage.turtle
