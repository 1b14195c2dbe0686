-- When a document that is called safe to cut has no misplaced directive, and a document that is
-- called safe and has one.
import HornDb.TurtleLeading

open HornDb.Lib.Wire

set_option maxRecDepth 4096

namespace horndb.storage.turtle

/-! ## The first token of a triple -/

/-- The tokens that a triple can start with. -/
inductive Token.Starts : Token → Prop where
  | iriref (body : Bytes) : Starts (.iriref body)
  | pname_ns (ns : Bytes) : Starts (.pname_ns ns)
  | pname_ln (ns loc : Bytes) : Starts (.pname_ln ns loc)
  | blank_label (label : Bytes) : Starts (.blank_label label)
  | open_quoted (term : Bool) : Starts (.open_quoted term)
  | open_bracket : Starts (.punct .open_bracket)
  | open_paren : Starts (.punct .open_paren)

def Nonterminal.leads : Nonterminal → Bool
  | triples | subject | collection | blank_node_property_list | iri | blank_node | reified_triple =>
    true
  | _ => false

theorem Phrase.starts {n : Nonterminal} {ts : List Token} (h : Phrase n ts) :
    n.leads = true → ∃ t rest, ts = t :: rest ∧ t.Starts := by
  induction h with
  | iri_full body => exact fun _ => ⟨_, _, rfl, .iriref body⟩
  | iri_ln ns loc => exact fun _ => ⟨_, _, rfl, .pname_ln ns loc⟩
  | iri_ns ns => exact fun _ => ⟨_, _, rfl, .pname_ns ns⟩
  | blank_label label => exact fun _ => ⟨_, _, rfl, .blank_label label⟩
  | anonymous => exact fun _ => ⟨_, _, rfl, .open_bracket⟩
  | collection => exact fun _ => ⟨_, _, rfl, .open_paren⟩
  | property_list => exact fun _ => ⟨_, _, rfl, .open_bracket⟩
  | reified_bare => exact fun _ => ⟨_, _, rfl, .open_quoted false⟩
  | reified_named => exact fun _ => ⟨_, _, rfl, .open_quoted false⟩
  | subject_iri _ ih => exact fun _ => ih rfl
  | subject_blank _ ih => exact fun _ => ih rfl
  | subject_collection _ ih => exact fun _ => ih rfl
  | triples_properties _ ih => exact fun _ => ih rfl
  | triples_reified _ ih => exact fun _ => ih rfl
  | triples_subject _ _ ih =>
    intro _
    obtain ⟨t, rest, rfl, ht⟩ := ih rfl
    exact ⟨t, _, rfl, ht⟩
  | triples_properties_more _ _ ih =>
    intro _
    obtain ⟨t, rest, rfl, ht⟩ := ih rfl
    exact ⟨t, _, rfl, ht⟩
  | triples_reified_more _ _ ih =>
    intro _
    obtain ⟨t, rest, rfl, ht⟩ := ih rfl
    exact ⟨t, _, rfl, ht⟩
  | _ => exact fun h => by cases h

/-- A prefix name is no keyword: its colon comes before white space. -/
theorem keyword_at_name {word ns : Bytes} (hns : Token.Name ns)
    (hword : ∀ b ∈ word, b ≠ ascii ':') (rest : Bytes) :
    keyword_at word (ns ++ ascii ':' :: rest) = false := by
  by_contra hkeyword
  rw [Bool.not_eq_false, keyword_at, Bool.and_eq_true, decide_eq_true_eq] at hkeyword
  obtain ⟨htake, hnext⟩ := hkeyword
  rcases Nat.lt_trichotomy ns.length word.length with hlt | heq | hgt
  · have hcolon : word[ns.length]? = some (ascii ':') := by
      rw [← htake, List.getElem?_map, List.getElem?_take_of_lt hlt]
      simp [to_ascii_lowercase, ascii]
    exact hword _ (List.mem_of_getElem? hcolon) rfl
  · rw [← heq] at hnext
    simp [is_ascii_whitespace, ascii] at hnext
  · rw [List.getElem?_append_left hgt, List.getElem?_eq_getElem hgt] at hnext
    have hname := hns.2 _ (List.getElem_mem hgt)
    generalize ns[word.length] = b at hnext hname
    have hstop : is_pn_char b = false ∧ b ≠ ascii '.' := by
      simp only [is_ascii_whitespace, Bool.or_eq_true, decide_eq_true_eq] at hnext
      rcases hnext with ((((rfl | rfl) | rfl) | rfl) | rfl) | rfl <;> decide
    simp [hstop] at hname

/-- A byte that is none of these starts no directive, nor a word of a directive. -/
theorem no_directive_of_byte {b : UInt8} {s : Bytes} (hws : is_ascii_whitespace b = false)
    (hnot : b ≠ ascii '#' ∧ b ≠ ascii '.' ∧ b ≠ ascii '@')
    (hkeyword : sparql_directive (b :: s) = none) : NoDirective (b :: s) where
  blank := blank_len_stop hws hnot.1 s
  dot := fun h => hnot.2.1 (Option.some.inj h)
  prefix_at := fun h => hnot.2.2 (List.cons_prefix_cons.mp h).1.symm
  base_at := fun h => hnot.2.2 (List.cons_prefix_cons.mp h).1.symm
  keyword := hkeyword

theorem sparql_directive_other {b : UInt8} (s : Bytes) (hp : to_ascii_lowercase b ≠ ascii 'p')
    (hb : to_ascii_lowercase b ≠ ascii 'b') : sparql_directive (b :: s) = none := by
  rw [sparql_directive, keyword_at_other (w := ascii 'p') rfl hp,
    keyword_at_other (w := ascii 'b') rfl hb]
  rfl

theorem no_directive_name {ns : Bytes} (hns : Token.Name ns) (s : Bytes) :
    NoDirective (ns ++ ascii ':' :: s) := by
  have hkeyword : sparql_directive (ns ++ ascii ':' :: s) = none := by
    rw [sparql_directive, keyword_at_name hns (by decide),
      keyword_at_name hns (by decide)]
    rfl
  cases ns with
  | nil => exact no_directive_of_byte (by decide) (by decide) hkeyword
  | cons b ns =>
    have hdot : b ≠ ascii '.' := fun h => hns.1 (by rw [h]; rfl)
    have hname : is_pn_char b = true := by simpa [hdot] using hns.2 b List.mem_cons_self
    have hnot : is_ascii_whitespace b = false ∧ b ≠ ascii '#' ∧ b ≠ ascii '@' := by
      refine ⟨?_, ?_, ?_⟩
      · by_contra hws
        simp only [Bool.not_eq_false, is_ascii_whitespace, Bool.or_eq_true,
          decide_eq_true_eq] at hws
        rcases hws with (((rfl | rfl) | rfl) | rfl) | rfl <;> exact absurd hname (by decide)
      · rintro rfl
        exact absurd hname (by decide)
      · rintro rfl
        exact absurd hname (by decide)
    exact no_directive_of_byte hnot.1 ⟨hnot.2.1, hdot, hnot.2.2⟩ hkeyword

theorem Token.Starts.no_directive {t : Token} (h : t.Starts) (hvalid : t.Valid) (s : Bytes) :
    NoDirective (t.bytes ++ s) := by
  have hother : ∀ (b : UInt8) (more : Bytes), b ∈ ascii_text ['<', '[', '(', '_'] →
      NoDirective (b :: more) := by
    intro b more hb
    have hcases : b = ascii '<' ∨ b = ascii '[' ∨ b = ascii '(' ∨ b = ascii '_' := by
      simpa [ascii_text] using hb
    rcases hcases with rfl | rfl | rfl | rfl <;>
      exact no_directive_of_byte (by decide) (by decide)
        (sparql_directive_other more (by decide) (by decide))
  cases h with
  | iriref body => exact hother _ _ (by decide)
  | pname_ns ns =>
    cases hvalid with
    | pname_ns hns =>
      rw [Token.bytes, List.append_assoc]
      exact no_directive_name hns s
  | pname_ln ns loc =>
    cases hvalid with
    | pname_ln hns _ _ =>
      rw [Token.bytes, List.append_assoc]
      exact no_directive_name hns (loc ++ s)
  | blank_label label => exact hother _ _ (by decide)
  | open_quoted term => cases term <;> exact hother _ _ (by decide)
  | open_bracket => exact hother _ _ (by decide)
  | open_paren => exact hother _ _ (by decide)

/-! ## Statements in front of a triple -/

theorem Lead.of_name {ns : Bytes} (h : Token.Name ns) : Lead (ns ++ [ascii ':']) := by
  refine Lead.of_plain fun b hb => ?_
  rcases List.mem_append.mp hb with hb | hb
  · have hname := h.2 b hb
    constructor
    · rintro rfl
      exact absurd hname (by decide)
    · rintro rfl
      exact absurd hname (by decide)
  · obtain rfl := List.mem_singleton.mp hb
    decide

theorem Lead.of_keyword {kw word : Bytes} (h : kw.map to_ascii_lowercase = word)
    (hword : ∀ b ∈ word, b ≠ ascii '#' ∧ b ≠ ascii '\\') : Lead kw := by
  refine Lead.of_plain fun b hb => ?_
  have hmem : to_ascii_lowercase b ∈ word := h ▸ List.mem_map_of_mem hb
  constructor
  · rintro rfl
    exact (hword _ hmem).1 rfl
  · rintro rfl
    exact (hword _ hmem).2 rfl

variable {limit : Nat} {rest : Bytes}

theorem Lexeme.lead_gap (l : Lexeme) (h : Clean l.gap) : Lead l.gap := .of_gap l.gap_ok h

theorem Lexeme.iri_body {l : Lexeme} {iri : Bytes} (h : l.token = .iriref iri) : IriBody iri := by
  have hvalid := l.token_ok
  rw [h] at hvalid
  cases hvalid with
  | iriref hbody => exact hbody

theorem Lexeme.name {l : Lexeme} {ns : Bytes} (h : l.token = .pname_ns ns) :
    Lead (ns ++ [ascii ':']) := by
  have hvalid := l.token_ok
  rw [h] at hvalid
  cases hvalid with
  | pname_ns hns => exact .of_name hns

/-- An IRI behind what leads to it, in front of a triple. -/
theorem ahead_iri {lead : Bytes} (hlead : Lead lead) {l : Lexeme} {iri : Bytes}
    (hl : l.token = .iriref iri) (hclean : Clean l.gap) (hrest : Ahead limit rest) :
    Ahead limit (lead ++ (l.bytes ++ rest)) := by
  have hshape : lead ++ (l.bytes ++ rest) =
      (lead ++ l.gap) ++ ascii '<' :: (iri ++ ascii '>' :: rest) := by
    rw [Lexeme.bytes, hl]
    simp [Token.bytes]
  rw [hshape]
  exact .directive (hlead.append (l.lead_gap hclean)) (Lexeme.iri_body hl) hrest

theorem ahead_dot {l : Lexeme} (hl : l.token = .punct .dot) (hclean : Clean l.gap)
    (hrest : Ahead limit rest) : Ahead limit (l.bytes ++ rest) := by
  rw [Lexeme.bytes, hl, List.append_assoc]
  exact .dot l.gap_ok hclean hrest

/-- A directive in front of what is in front of a triple. -/
theorem Statement.ahead {s : Statement} (hclean : ∀ l ∈ s.lexemes, Clean l.gap)
    (hkind : s.kind = .Prefix ∨ s.kind = .Base) (hrest : Ahead limit rest) :
    Ahead limit (s.bytes ++ rest) := by
  have hproduction := s.production
  rw [Statement.bytes]
  generalize s.kind = kd at hproduction hkind
  generalize hls : s.lexemes = ls at hproduction hclean
  generalize hts : ls.map (·.token) = ts at hproduction
  cases hproduction with
  | triples => simp at hkind
  | version => simp at hkind
  | version_word => simp at hkind
  | prefix_id ns iri =>
    obtain ⟨l, ls, rfl, hl, hts⟩ := List.map_eq_cons_iff.mp hts
    obtain ⟨l_ns, ls, rfl, hns, hts⟩ := List.map_eq_cons_iff.mp hts
    obtain ⟨l_iri, ls, rfl, hiri, hts⟩ := List.map_eq_cons_iff.mp hts
    obtain ⟨l_dot, rfl, hdot⟩ := List.map_eq_singleton_iff.mp hts
    have hword : Lead (l.gap ++ turtle.prefix_at) :=
      (l.lead_gap (hclean l (by simp))).append (.of_plain (by decide))
    have hname : Lead (l_ns.gap ++ (ns ++ [ascii ':'])) :=
      (l_ns.lead_gap (hclean l_ns (by simp))).append (Lexeme.name hns)
    have hahead := ahead_iri (hword.append hname) hiri (hclean l_iri (by simp))
      (ahead_dot hdot (hclean l_dot (by simp)) hrest)
    simpa [Lexeme.bytes, hl, hns, Token.bytes] using hahead
  | base iri =>
    obtain ⟨l, ls, rfl, hl, hts⟩ := List.map_eq_cons_iff.mp hts
    obtain ⟨l_iri, ls, rfl, hiri, hts⟩ := List.map_eq_cons_iff.mp hts
    obtain ⟨l_dot, rfl, hdot⟩ := List.map_eq_singleton_iff.mp hts
    have hword : Lead (l.gap ++ turtle.base_at) :=
      (l.lead_gap (hclean l (by simp))).append (.of_plain (by decide))
    have hahead := ahead_iri hword hiri (hclean l_iri (by simp))
      (ahead_dot hdot (hclean l_dot (by simp)) hrest)
    simpa [Lexeme.bytes, hl, Token.bytes] using hahead
  | prefix_word kw ns iri =>
    obtain ⟨l, ls, rfl, hl, hts⟩ := List.map_eq_cons_iff.mp hts
    obtain ⟨l_ns, ls, rfl, hns, hts⟩ := List.map_eq_cons_iff.mp hts
    obtain ⟨l_iri, rfl, hiri⟩ := List.map_eq_singleton_iff.mp hts
    have hkw : Lead kw := by
      have hvalid := l.token_ok
      rw [hl] at hvalid
      cases hvalid with
      | prefix_word hkw => exact .of_keyword hkw (by decide)
    have hname : Lead (l_ns.gap ++ (ns ++ [ascii ':'])) :=
      (l_ns.lead_gap (hclean l_ns (by simp))).append (Lexeme.name hns)
    have hahead := ahead_iri (((l.lead_gap (hclean l (by simp))).append hkw).append hname) hiri
      (hclean l_iri (by simp)) hrest
    simpa [Lexeme.bytes, hl, hns, Token.bytes] using hahead
  | base_word kw iri =>
    obtain ⟨l, ls, rfl, hl, hts⟩ := List.map_eq_cons_iff.mp hts
    obtain ⟨l_iri, rfl, hiri⟩ := List.map_eq_singleton_iff.mp hts
    have hkw : Lead kw := by
      have hvalid := l.token_ok
      rw [hl] at hvalid
      cases hvalid with
      | base_word hkw => exact .of_keyword hkw (by decide)
    have hahead := ahead_iri ((l.lead_gap (hclean l (by simp))).append hkw) hiri
      (hclean l_iri (by simp)) hrest
    simpa [Lexeme.bytes, hl, Token.bytes] using hahead

theorem no_directive_version (rest : Bytes) : NoDirective (Token.version_at.bytes ++ rest) where
  blank := blank_len_stop (by decide) (by decide) _
  dot := by simp [Token.bytes, ascii_text, ascii]
  prefix_at := by simp [Token.bytes, prefix_at, ascii_text, ascii]
  base_at := by simp [Token.bytes, base_at, ascii_text, ascii]
  keyword := sparql_directive_other _ (by decide) (by decide)

theorem no_directive_version_word {kw : Bytes}
    (hkw : kw.map to_ascii_lowercase = ascii_text ['v', 'e', 'r', 's', 'i', 'o', 'n'])
    (rest : Bytes) : NoDirective (kw ++ rest) := by
  obtain ⟨b, more, rfl, hb, -⟩ := List.map_eq_cons_iff.mp hkw
  have hother : sparql_directive (b :: (more ++ rest)) = none :=
    sparql_directive_other _ (by rw [hb]; decide) (by rw [hb]; decide)
  rcases lower_cases hb with rfl | rfl
  · exact no_directive_of_byte (by decide) (by decide) hother
  · exact no_directive_of_byte (by decide) (by decide) hother

theorem ahead_lexeme {l : Lexeme} {ls : List Lexeme} (hclean : Clean l.gap)
    (hfirst : NoDirective (l.token.bytes ++ (ls.flatMap Lexeme.bytes ++ rest)))
    (hlimit : limit ≤ rest.length) :
    Ahead limit ((l :: ls).flatMap Lexeme.bytes ++ rest) := by
  rw [List.flatMap_cons, Lexeme.bytes, List.append_assoc, List.append_assoc]
  refine .triples l.gap_ok hclean hfirst ?_
  simp only [List.length_append]
  omega

/-- A version or a triple ends the leading directives. -/
theorem Statement.ahead_other {s : Statement} (hclean : ∀ l ∈ s.lexemes, Clean l.gap)
    (hkind : ¬ (s.kind = .Prefix ∨ s.kind = .Base)) (hlimit : limit ≤ rest.length) :
    Ahead limit (s.bytes ++ rest) := by
  have hproduction := s.production
  rw [Statement.bytes]
  generalize s.kind = kd at hproduction hkind
  generalize hls : s.lexemes = ls at hproduction hclean
  generalize hts : ls.map (·.token) = ts at hproduction
  cases hproduction with
  | triples hphrase =>
    obtain ⟨t, more, rfl, hstarts⟩ := hphrase.starts rfl
    obtain ⟨l, ls, rfl, rfl, -⟩ := List.map_eq_cons_iff.mp hts
    exact ahead_lexeme (hclean l List.mem_cons_self) (hstarts.no_directive l.token_ok _) hlimit
  | version q text =>
    obtain ⟨l, ls, rfl, hl, -⟩ := List.map_eq_cons_iff.mp hts
    exact ahead_lexeme (hclean l List.mem_cons_self) (hl ▸ no_directive_version _) hlimit
  | version_word kw q text =>
    obtain ⟨l, ls, rfl, hl, -⟩ := List.map_eq_cons_iff.mp hts
    have hvalid := l.token_ok
    rw [hl] at hvalid
    cases hvalid with
    | version_word hkw =>
      exact ahead_lexeme (hclean l List.mem_cons_self) (hl ▸ no_directive_version_word hkw _) hlimit
  | _ => simp at hkind

/-- Statements with a triple among them, in front of the rest. -/
theorem statements_ahead {ss : List Statement} (hclean : ∀ s ∈ ss, ∀ l ∈ s.lexemes, Clean l.gap)
    (htriple : ∃ s ∈ ss, s.kind = .Triples) (rest : Bytes) :
    Ahead rest.length (ss.flatMap Statement.bytes ++ rest) := by
  induction ss with
  | nil =>
    obtain ⟨s, hs, -⟩ := htriple
    cases hs
  | cons s ss ih =>
    rw [List.flatMap_cons, List.append_assoc]
    by_cases hkind : s.kind = .Prefix ∨ s.kind = .Base
    · refine Statement.ahead (hclean s List.mem_cons_self) hkind
        (ih (fun s' hs' => hclean s' (List.mem_cons_of_mem s hs')) ?_)
      obtain ⟨s', hs', hkind'⟩ := htriple
      rcases List.mem_cons.mp hs' with rfl | hs'
      · simp [hkind'] at hkind
      · exact ⟨s', hs', hkind'⟩
    · refine Statement.ahead_other (hclean s List.mem_cons_self) hkind ?_
      rw [List.length_append]
      exact Nat.le_add_left _ _

/-! ## Documents -/

namespace Document

variable {d : Document} {k : Nat}

/-- Behind a triple, the block of leading directives has ended. -/
theorem Clear.leading_end_le (h : d.Clear k) {s : Statement} (hs : d.statements[k]? = some s)
    (htriple : ∃ j < k, ∃ s', d.statements[j]? = some s' ∧ s'.kind = .Triples) :
    leading_directive_block_end d.bytes ≤ d.offset k := by
  obtain ⟨l, ls, hl⟩ : ∃ l ls, s.lexemes = l :: ls := by
    obtain ⟨front, last, hlast, -⟩ := s.last
    exact List.exists_cons_of_ne_nil (by rw [hlast]; simp)
  have hclean : ∀ s ∈ d.statements.take k, ∀ l ∈ s.lexemes, Clean l.gap :=
    fun s hs l hl => (h.lexemes s hs l hl).1
  have htake : ∃ s ∈ d.statements.take k, s.kind = .Triples := by
    obtain ⟨j, hj, s', hs', hkind⟩ := htriple
    have hget : (d.statements.take k)[j]? = some s' := by
      rw [List.getElem?_take_of_lt hj]
      exact hs'
    exact ⟨s', List.mem_of_getElem? hget, hkind⟩
  have hsplit := split hs hl
  rw [List.append_assoc] at hsplit
  have hahead := statements_ahead hclean htake
    (d.gap k ++ (l.token.bytes ++ (ls.flatMap Lexeme.bytes ++ d.back_bytes k)))
  have hfront : (d.statements.take k).flatMap Statement.bytes = d.front_bytes k := rfl
  rw [hfront, ← hsplit] at hahead
  have hend : _ ≤ (d.bytes.drop (leading_from d.bytes (d.bytes.length + 1) 0)).length :=
    leading_from_ahead (d.bytes.length + 1) hahead
  have hlen := congrArg List.length hsplit
  have hpos := List.length_pos_of_ne_nil (Token.bytes_ne_nil l.token_ok)
  rw [List.length_drop] at hend
  simp only [List.length_append] at hend hlen
  rw [leading_directive_block_end, offset, List.length_append]
  omega

/-- A misplaced directive with nothing in front of it that puts the scan out of step is told. -/
theorem Clear.not_safe (h : d.Clear k) (hk : d.Misplaced k) :
    turtle_split_is_safe d.bytes = false := by
  obtain ⟨s, hs, hmisplaced⟩ := hk
  have hkind : s.kind = .Prefix ∨ s.kind = .Base :=
    hmisplaced.elim Or.inr fun h => Or.inl h.1
  obtain ⟨kind, hfound, hbase⟩ := h.found hs hkind
  unfold turtle_split_is_safe
  dsimp only
  rw [Bool.not_eq_false', List.any_eq_true]
  refine ⟨(d.offset k, kind), hfound, ?_⟩
  rcases hmisplaced with hmisplaced | ⟨-, htriple⟩
  · simp [hbase hmisplaced]
  · have hle := h.leading_end_le hs htriple
    simp [hle]

end Document

/-- A document that is called safe has no base directive and no prefix directive behind a triple,
when of those that it may have one has nothing in front of it that puts the scan out of step. -/
theorem safe_has_none_misplaced (d : Document)
    (hclear : (∃ k, d.Misplaced k) → ∃ k, d.Misplaced k ∧ d.Clear k) :
    turtle_split_is_safe d.bytes = true → ∀ k, ¬ d.Misplaced k := by
  intro hsafe k hk
  obtain ⟨k, hk, hclear⟩ := hclear ⟨k, hk⟩
  have hnot := hclear.not_safe hk
  rw [hsafe] at hnot
  cases hnot

/-! ## A base behind an escape -/

theorem iri_body_of {body : Bytes} (h : ∀ b ∈ body, 0x20 < b ∧ b ∉ iri_excluded) :
    IriBody body := by
  induction body with
  | nil => exact .nil
  | cons b body ih =>
    obtain ⟨hlow, hout⟩ := h b List.mem_cons_self
    exact .char hlow hout (ih fun c hc => h c (List.mem_cons_of_mem b hc))

/-- A token behind a space. -/
def spaced (token : Token) (token_ok : token.Valid) : Lexeme where
  gap := [ascii ' ']
  token := token
  gap_ok := .ws (by decide) .nil
  token_ok := token_ok

/-- The tokens that something may not be glued to. -/
def Token.stands_apart : Token → Bool
  | prefix_word _ => true
  | string _ false [] => true
  | _ => false

theorem apart_of {ls : List Lexeme} (h : ∀ l ∈ ls, l.token.stands_apart = false) :
    ls.IsChain Apart := by
  refine (List.pairwise_of_forall_mem_list fun l hl l' _ => ?_).isChain
  have hl := h l hl
  refine ⟨fun kw hkw => ?_, fun q hq => ?_⟩
  · rw [hkw] at hl
    cases hl
  · rw [hq] at hl
    cases hl

def a_ns : Bytes := ascii_text ['a']

theorem a_ns_ok : Token.Name a_ns := ⟨by decide, by decide⟩

def a_iri : Bytes := ascii_text ['h', 't', 't', 'p', ':', '/', '/', 'a', '/']

def b_iri : Bytes := ascii_text ['h', 't', 't', 'p', ':', '/', '/', 'b', '/']

theorem a_iri_ok : IriBody a_iri := iri_body_of (by decide)

theorem b_iri_ok : IriBody b_iri := iri_body_of (by decide)

def x_loc : Bytes := [ascii 'x']

theorem x_loc_ok : LocalName x_loc := .cons (.char (by decide)) .nil

def escaped_quote : Bytes := [ascii '\\', ascii '\'']

theorem escaped_quote_ok : LocalPiece escaped_quote := .escape (by decide)

/-- The name `it's`, with its quote escaped. -/
def its_loc : Bytes := [ascii 'i'] ++ ([ascii 't'] ++ (escaped_quote ++ ([ascii 's'] ++ [])))

theorem its_loc_ok : LocalName its_loc :=
  .cons (.char (by decide)) (.cons (.char (by decide)) (.cons escaped_quote_ok
    (.cons (.char (by decide)) .nil)))

/-- `@prefix a: <http://a/> .` -/
def a_names : Statement where
  kind := .Prefix
  lexemes := [spaced .prefix_at .prefix_at, spaced (.pname_ns a_ns) (.pname_ns a_ns_ok),
    spaced (.iriref a_iri) (.iriref a_iri_ok), spaced (.punct .dot) .punct]
  production := .prefix_id _ _

/-- `@base <http://b/> .` -/
def b_base : Statement where
  kind := .Base
  lexemes := [spaced .base_at .base_at, spaced (.iriref b_iri) (.iriref b_iri_ok),
    spaced (.punct .dot) .punct]
  production := .base _

/-- A triple of names: `a:x a:x a:object .` -/
def x_triple (loc : Bytes) (hloc : LocalName loc) (hne : loc ≠ []) : Statement where
  kind := .Triples
  lexemes := [spaced (.pname_ln a_ns x_loc) (.pname_ln a_ns_ok x_loc_ok (by decide)),
    spaced (.pname_ln a_ns x_loc) (.pname_ln a_ns_ok x_loc_ok (by decide)),
    spaced (.pname_ln a_ns loc) (.pname_ln a_ns_ok hloc hne), spaced (.punct .dot) .punct]
  production := .triples (.triples_subject (.subject_iri (.iri_ln _ _))
    (.predicate_object_list (.verb_iri (.iri_ln _ _))
      (.object_list (.object_iri (.iri_ln _ _)) .annotations_nil .more_objects_nil)
      .more_predicates_nil))

/-- A base behind a triple, on one line. -/
def late_base (loc : Bytes) (hloc : LocalName loc) (hne : loc ≠ []) : Document where
  statements := [a_names, x_triple loc hloc hne, b_base]
  apart := apart_of (by simp [a_names, x_triple, b_base, spaced, Token.stands_apart])
  tail := []
  tail_ok := Or.inl .nil

/-- The quote of an escape is taken for a string, and the base behind it is stepped over. -/
theorem escape_hides_base : ¬ ∀ d : Document, turtle_split_is_safe d.bytes = true →
    ∀ k, ¬ d.Misplaced k := by
  intro h
  have hsafe : turtle_split_is_safe (late_base its_loc its_loc_ok (by decide)).bytes = true := by
    decide
  exact h _ hsafe 2 ⟨b_base, rfl, Or.inl rfl⟩

theorem spaced_clear {token : Token} {token_ok : token.Valid} (h : token.Scannable) :
    (spaced token token_ok).Clear :=
  ⟨clean_of_no_comment (show ascii '#' ∉ [ascii ' '] by decide), h⟩

theorem x_name_scannable : (Token.pname_ln a_ns x_loc).Scannable := by
  intro ns loc h
  obtain ⟨rfl, rfl⟩ := Token.pname_ln.inj h
  decide

theorem late_base_clear : (late_base x_loc x_loc_ok (by decide)).Clear 2 where
  lexemes := by
    intro s hs l hl
    have hcases : s = a_names ∨ s = x_triple x_loc x_loc_ok (by decide) := by
      simpa [late_base] using hs
    rcases hcases with rfl | rfl
    · have hl_cases := hl
      simp only [a_names, List.mem_cons, List.not_mem_nil, or_false] at hl_cases
      rcases hl_cases with rfl | rfl | rfl | rfl <;>
        exact spaced_clear fun ns loc h => by cases h
    · have hl_cases := hl
      simp only [x_triple, List.mem_cons, List.not_mem_nil, or_false] at hl_cases
      rcases hl_cases with rfl | rfl | rfl | rfl
      · exact spaced_clear x_name_scannable
      · exact spaced_clear x_name_scannable
      · exact spaced_clear x_name_scannable
      · exact spaced_clear fun ns loc h => by cases h
  gap := clean_of_no_comment (by decide)
  quoted := by
    intro front term back hps
    have hmem : Piece.quoted term ∈ (late_base x_loc x_loc_ok (by decide)).front_pieces 2 :=
      hps ▸ by simp
    cases term <;> exact absurd hmem (by decide)
  keyword := by
    intro s hs l l' ls hls hkw
    obtain rfl : b_base = s := Option.some.inj hs
    obtain ⟨rfl, -⟩ := List.cons.inj hls
    obtain ⟨kw, h | h⟩ := hkw <;> cases h
  version := by
    intro s hs l ls hls htoken b hb
    have hlast : ((late_base x_loc x_loc_ok (by decide)).front_bytes 2 ++
        (late_base x_loc x_loc_ok (by decide)).gap 2).getLast? = some (ascii ' ') := by
      decide
    rw [hlast] at hb
    obtain rfl := Option.some.inj hb
    decide

/-- With no quote to escape, the base behind the triple is not in hiding. -/
theorem late_base_told : (late_base x_loc x_loc_ok (by decide)).Misplaced 2 ∧
    (turtle_split_is_safe (late_base x_loc x_loc_ok (by decide)).bytes = true →
      ∀ k, ¬ (late_base x_loc x_loc_ok (by decide)).Misplaced k) :=
  have hbase : (late_base x_loc x_loc_ok (by decide)).Misplaced 2 := ⟨b_base, rfl, Or.inl rfl⟩
  ⟨hbase, safe_has_none_misplaced _ fun _ => ⟨2, hbase, late_base_clear⟩⟩

end horndb.storage.turtle
