-- The hints that are recovered from the text of an update are those of its ADD, COPY and MOVE
-- operations, wherever the scan reads the text as the grammar does.
import HornDb.AmcLexemes

open HornDb.Lib.Wire (Bytes)
open horndb.storage
open horndb.storage.turtle hiding Token Lexeme

namespace horndb.sparql.update_text

/-! ## Hints from tokens -/

variable {lib : Iris}

theorem split_once_name {ns : Bytes} (h : ascii ':' ∉ ns) (loc : Bytes) :
    split_once (ns ++ ascii ':' :: loc) = some (ns, loc) := by
  have hns : ∀ b ∈ ns, (decide (b ≠ ascii ':')) = true := by
    intro b hb
    refine decide_eq_true ?_
    rintro rfl
    exact h hb
  have hcolon : Ends (fun b => decide (b ≠ ascii ':')) (ascii ':' :: loc) := by
    intro b hb
    rw [← Option.some.inj hb]
    decide
  unfold split_once
  rw [dropWhile_run hns, takeWhile_run hns, hcolon.dropWhile, hcolon.takeWhile, List.append_nil]

theorem told_escaped (p : Prologue lib) {o : Operand} (h : o.escaped = true) :
    o.told p = .Unknown := if_pos h

theorem told_plain (p : Prologue lib) {o : Operand} (h : o.escaped = false) :
    o.told p = o.graph p := if_neg (by rw [h]; exact Bool.false_ne_true)

theorem parse_graph {p : Prologue lib} {o : Operand} {ts : List AmcTok} (h : GraphToks o ts)
    (rest : List AmcTok) :
    ∃ after, amc_parse_operand p (ts ++ rest) = (o.told p, some after) ∧
      amc_parse_operand p (.Graph :: (ts ++ rest)) = (o.told p, some after) ∧
      ((∀ ns loc, o = .pname ns loc → ascii '\\' ∉ loc) → after = rest) := by
  cases h with
  | iri body =>
    refine ⟨rest, ?_⟩
    by_cases hescape : ascii '\\' ∈ body
    · rw [if_pos hescape, told_escaped p (o := .iri body) (decide_eq_true hescape)]
      exact ⟨rfl, rfl, fun _ => rfl⟩
    · rw [if_neg hescape, told_plain p (o := .iri body) (decide_eq_false hescape)]
      exact ⟨rfl, rfl, fun _ => rfl⟩
  | @pname ns loc hcolon hescape =>
    have hexpand : expand_pname (ns ++ ascii ':' :: loc) p.prefixes =
        (Operand.pname ns loc).graph p := by
      unfold expand_pname
      rw [split_once_name hcolon]
      rfl
    rw [told_plain p (o := .pname ns loc) (decide_eq_false hescape), ← hexpand]
    exact ⟨rest, rfl, rfl, fun _ => rfl⟩
  | @escaped ns loc qs hescape _ =>
    rw [told_escaped p (o := .pname ns loc) (decide_eq_true hescape)]
    exact ⟨qs ++ rest, rfl, rfl, fun h => absurd hescape (h ns loc rfl)⟩

theorem parse_operand {p : Prologue lib} {o : Operand} {ts : List AmcTok} (h : OperandToks o ts)
    (rest : List AmcTok) :
    ∃ after, amc_parse_operand p (ts ++ rest) = (o.told p, some after) ∧
      ((∀ ns loc, o = .pname ns loc → ascii '\\' ∉ loc) → after = rest) := by
  cases h with
  | default => exact ⟨rest, rfl, fun _ => rfl⟩
  | bare h =>
    obtain ⟨after, hbare, -, hafter⟩ := parse_graph h rest
    exact ⟨after, hbare, hafter⟩
  | graph h =>
    obtain ⟨after, -, hgraph, hafter⟩ := parse_graph h rest
    exact ⟨after, hgraph, hafter⟩

theorem operand_toks_quiet {o : Operand} {ts : List AmcTok} (h : OperandToks o ts) :
    (∀ t ∈ ts, quiet t = true) ∧ ts.head? ≠ some .Silent ∧ ts ≠ [] := by
  have hgraph : ∀ ts, GraphToks o ts →
      (∀ t ∈ ts, quiet t = true) ∧ ts.head? ≠ some .Silent ∧ ts ≠ [] := by
    intro ts h
    cases h with
    | iri body => split <;> simp [quiet]
    | pname => simp [quiet]
    | escaped _ hqs => exact ⟨List.forall_mem_cons.mpr ⟨rfl, hqs⟩, by simp⟩
  cases h with
  | default => simp [quiet]
  | bare h => exact hgraph ts h
  | graph h => exact ⟨List.forall_mem_cons.mpr ⟨rfl, (hgraph _ h).1⟩, by simp⟩

/-- The tokens behind a verb tell its hint. -/
theorem hint_tells (p : Prologue lib) (verb : Verb) (silent : Bool) {source dest : Operand}
    {us vs : List AmcTok} (hus : OperandToks source us) (hvs : OperandToks dest vs)
    (rest : List AmcTok) :
    Tells p verb silent source dest (amc_hint p verb.op_count
      ((if silent then [.Silent] else []) ++ (us ++ .Other :: (vs ++ rest)))) := by
  obtain ⟨after, hsource, hafter⟩ := parse_operand (p := p) hus (.Other :: (vs ++ rest))
  obtain ⟨final, hdest, -⟩ := parse_operand (p := p) hvs rest
  obtain ⟨-, hhead, hne⟩ := operand_toks_quiet hus
  have hsilent : (((if silent then [AmcTok.Silent] else []) ++
      (us ++ .Other :: (vs ++ rest))).head? = some .Silent) ↔ silent = true := by
    cases silent with
    | true => simp
    | false =>
      rw [if_neg Bool.false_ne_true, List.nil_append, List.head?_append_of_ne_nil _ hne]
      simpa using hhead
  have htoks : (if silent then ((if silent then [AmcTok.Silent] else []) ++
      (us ++ .Other :: (vs ++ rest))).tail else ((if silent then [AmcTok.Silent] else []) ++
      (us ++ .Other :: (vs ++ rest)))) = us ++ .Other :: (vs ++ rest) := by
    cases silent <;> rfl
  unfold amc_hint
  simp only [hsilent, htoks, hsource, Bool.decide_eq_true]
  refine ⟨rfl, rfl, rfl, rfl, fun hplain => ?_, rfl⟩
  rw [hafter hplain]
  exact congrArg Prod.fst hdest

theorem hints_quiet (p : Prologue lib) {qs : List AmcTok} (h : ∀ t ∈ qs, quiet t = true)
    (rest : List AmcTok) : hints_from p (qs ++ rest) = hints_from p rest := by
  induction qs with
  | nil => rfl
  | cons t qs ih =>
    rw [List.forall_mem_cons] at h
    rw [List.cons_append, ← ih h.2]
    cases t with
    | Amc | Prefix | Base => cases h.1
    | _ => simp [hints_from]

/-! ## Operations -/

theorem InBody.lexemes {tail : Bytes} (htail : Bounded tail) {ls : List Lexeme}
    (hblank : ∀ l ∈ ls, Blank l.gap) (hclear : ∀ l ∈ ls, l.token.Clear)
    (hchain : ls.IsChain Apart) (hword : ∀ l ∈ ls, ∀ w, l.token = .word w → reserved w = false)
    (hless : ∀ front l back, ls = front ++ l :: back → l.token.is_less = true →
      ∀ inner after, l.token.bytes.tail ++ (spelled back ++ tail) = inner ++ ascii '>' :: after →
        (∀ b ∈ inner, is_iri_byte b = true) →
          ascii '#' ∉ inner ∧ ascii '\'' ∉ inner ∧ tail.length ≤ after.length) :
    InBody tail (spelled ls ++ tail) := by
  induction ls with
  | nil => exact .done
  | cons l ls ih =>
    rw [List.forall_mem_cons] at hblank hclear hword
    have hrest := ih hblank.2 hclear.2 hchain.tail hword.2 fun front l' back h =>
      hless (l :: front) l' back (by rw [h, List.cons_append])
    have hstick : Ends l.token.sticks (spelled ls ++ tail) := by
      cases ls with
      | nil => exact htail.sticks l.token_ok
      | cons l' ls =>
        rw [spelled_cons, List.append_assoc]
        exact (List.isChain_cons_cons.mp hchain).1.ends _
    rw [spelled_cons, Lexeme.bytes, List.append_assoc, List.append_assoc]
    exact .blank hblank.1 (.token htail.cont l.token_ok hclear.1 hword.1 hstick
      (hless [] l ls rfl) hrest)

theorem spelled_brace {ls : List Lexeme} (h : close_brace ∈ ls.map (·.token)) :
    ∃ x y, spelled ls = x ++ ascii '}' :: y := by
  obtain ⟨l, hl, htoken⟩ := List.mem_map.mp h
  obtain ⟨front, back, rfl⟩ := List.append_of_mem hl
  refine ⟨spelled front ++ l.gap, spelled back, ?_⟩
  rw [spelled_append, spelled_cons, Lexeme.bytes, htoken]
  simp [close_brace, Token.bytes, ascii_text]

/-- A comparison in a group that is taken for an IRI ends in the group. -/
theorem less_within {w inner after tail : Bytes} {back post : List Lexeme}
    (hbrace : close_brace ∈ back.map (·.token))
    (hclear : ascii '#' ∉ mistaken_iri (w ++ spelled (back ++ post)) ∧
      ascii '\'' ∉ mistaken_iri (w ++ spelled (back ++ post)))
    (heq : w ++ (spelled back ++ tail) = inner ++ ascii '>' :: after)
    (hinner : ∀ b ∈ inner, is_iri_byte b = true) :
    ascii '#' ∉ inner ∧ ascii '\'' ∉ inner ∧ tail.length ≤ after.length := by
  obtain ⟨x, y, hback⟩ := spelled_brace hbrace
  have hout : ascii '}' ∉ inner := fun h => absurd (hinner _ h) (by decide)
  rw [hback] at heq
  have heq : (w ++ x) ++ ascii '}' :: (y ++ tail) = inner ++ ascii '>' :: after := by
    rw [← heq]
    simp
  rcases List.append_eq_append_iff.mp heq with ⟨more, rfl, hmore⟩ | ⟨more, hwx, hmore⟩
  · cases more with
    | nil => exact absurd (List.cons.inj hmore).1 (by decide)
    | cons c more =>
      rw [List.cons_append, List.cons.injEq] at hmore
      exact absurd (by rw [hmore.1]; simp) hout
  · cases more with
    | nil => exact absurd (List.cons.inj hmore).1 (by decide)
    | cons c more =>
      rw [List.cons_append, List.cons.injEq] at hmore
      obtain ⟨rfl, rfl⟩ := hmore
      have hends : Ends is_iri_byte (ascii '>' :: (more ++ ascii '}' :: (y ++ spelled post))) := by
        intro b hb
        rw [← Option.some.inj hb]
        decide
      have htext : w ++ spelled (back ++ post) =
          inner ++ ascii '>' :: (more ++ ascii '}' :: (y ++ spelled post)) := by
        rw [spelled_append, hback, ← List.append_assoc, ← List.append_assoc, hwx]
        simp
      have hmistaken : mistaken_iri (w ++ spelled (back ++ post)) = inner := by
        unfold mistaken_iri
        rw [htext, dropWhile_run hinner, takeWhile_run hinner, hends.dropWhile, hends.takeWhile,
          List.head?_cons, if_pos rfl, List.append_nil]
      rw [hmistaken] at hclear
      refine ⟨hclear.1, hclear.2, ?_⟩
      simp only [List.length_append, List.length_cons]
      omega

/-- The text of another operation gives quiet tokens. -/
theorem scans_other {ls post : List Lexeme} {s : Bytes} (hclear : ClearText (ls ++ post))
    (hword : ∀ w, .word w ∈ ls.map (·.token) → reserved w = false)
    (hless : ∀ front t back, ls.map (·.token) = front ++ t :: back → t.is_less = true →
      close_brace ∈ back) (hs : Bounded s) :
    Scans ls s fun ts => ∀ t ∈ ts, quiet t = true := by
  have hbody : InBody s (spelled ls ++ s) := by
    refine .lexemes hs (fun l hl => hclear.blank l (List.mem_append_left post hl))
      (fun l hl => hclear.token l (List.mem_append_left post hl))
      (List.isChain_append.mp hclear.apart).1 ?_ ?_
    · intro l hl w hw
      refine hword w ?_
      rw [← hw]
      exact List.mem_map_of_mem hl
    · intro front l back hsplit hlt inner after heq hinner
      refine less_within ?_ (hclear.less front l (back ++ post) ?_ hlt) heq hinner
      · exact hless (front.map (·.token)) l.token (back.map (·.token)) (by rw [hsplit]; simp) hlt
      · rw [hsplit]
        simp
  intro prev _
  obtain ⟨qs, hqs, hscan⟩ := hbody.scan (hs.cont.imp start_cont) prev
  exact ⟨qs, 0, hqs, by decide, hscan⟩

/-- The tokens of a verb with its operands. -/
def VerbToks (verb : Verb) (silent : Bool) (source dest : Operand) (ts : List AmcTok) : Prop :=
  ∃ us vs, OperandToks source us ∧ OperandToks dest vs ∧
    ts = .Amc verb.op_count :: ((if silent then [.Silent] else []) ++ (us ++ .Other :: vs))

theorem scans_operands {fl dl : List Lexeme} {t : Lexeme} {w s : Bytes} {source dest : Operand}
    (hblank : ∀ l ∈ fl ++ t :: dl, Blank l.gap) (hclear : ∀ l ∈ fl ++ t :: dl, l.token.Clear)
    (hchain : (fl ++ t :: dl).IsChain Apart) (hsource : ReadsOperand (fl.map (·.token)) source)
    (ht : t.token = .word w) (hw : Spells w ['T', 'O'])
    (hdest : ReadsOperand (dl.map (·.token)) dest) (hs : Bounded s) :
    Scans (fl ++ t :: dl) s fun ts =>
      ∃ us vs, OperandToks source us ∧ OperandToks dest vs ∧ ts = us ++ .Other :: vs := by
  obtain ⟨hfl, htdl, hapart⟩ := List.isChain_append.mp hchain
  rw [List.forall_mem_append, List.forall_mem_cons] at hblank hclear
  obtain ⟨token, rest, hopen, hkind⟩ := reads_operand_opens hdest
  obtain ⟨l', dl', rfl, hl', -⟩ := List.map_eq_cons_iff.mp hopen
  have hto := scans_keyword dl' (s := s) hblank.2.1 ht hw (by decide)
    (List.isChain_cons_cons.mp htdl).1 (by rw [hl']; exact hkind)
  have hfrom := scans_operand (s := spelled (t :: l' :: dl') ++ s) hsource hblank.1 hclear.1 hfl
    fun l hl => by
      rw [spelled_cons, List.append_assoc]
      exact closed_word (hapart l hl t rfl) ht _
  have hback := scans_operand hdest hblank.2.2 hclear.2.2 htdl.tail fun l _ => closed_bounded l hs
  refine (hfrom.append (hto.append hback)).imp ?_
  rintro ts ⟨us, ts', rfl, hus, vs', vs, rfl, rfl, hvs⟩
  exact ⟨us, vs, hus, hvs, rfl⟩

theorem scans_verb {ls : List Lexeme} {s w t : Bytes} {ss fs ds : List Token} {verb : Verb}
    {silent : Bool} {source dest : Operand} (hblank : ∀ l ∈ ls, Blank l.gap)
    (hclear : ∀ l ∈ ls, l.token.Clear) (hchain : ls.IsChain Apart)
    (hls : ls.map (·.token) = .word w :: ss ++ fs ++ .word t :: ds) (hw : Spells w verb.keyword)
    (hsilent : ReadsSilent ss silent) (hsource : ReadsOperand fs source)
    (ht : Spells t ['T', 'O']) (hdest : ReadsOperand ds dest) (hs : Bounded s) :
    Scans ls s (VerbToks verb silent source dest) := by
  obtain ⟨cl, bl, rfl, hcl, hbl⟩ := List.map_eq_append_iff.mp
    (hls.trans (List.append_assoc (.word w :: ss) fs _))
  obtain ⟨c, sl, rfl, hc, rfl⟩ := List.map_eq_cons_iff.mp hcl
  obtain ⟨fl, tl, rfl, rfl, htl⟩ := List.map_eq_append_iff.mp hbl
  obtain ⟨t', dl, rfl, ht', rfl⟩ := List.map_eq_cons_iff.mp htl
  rw [List.forall_mem_append] at hblank hclear
  have hrest := scans_operands hblank.2 hclear.2 (List.isChain_append.mp hchain).2.1 hsource ht' ht
    hdest hs
  have hkw : ((ascii_text verb.keyword).map to_ascii_lowercase).all is_letter = true := by
    cases verb <;> decide
  have htoken : word_token 0 (ascii_text verb.keyword) none = .Amc verb.op_count := by
    cases verb <;> decide
  obtain ⟨token, rest, hopen, hkind⟩ := reads_operand_opens hsource
  obtain ⟨l', fl', rfl, hl', -⟩ := List.map_eq_cons_iff.mp hopen
  have hl'kind : l'.token.is_operand = true := by
    rw [hl']
    exact hkind
  generalize hsl : sl.map (·.token) = ss at hsilent
  cases hsilent with
  | loud =>
    obtain rfl := List.map_eq_nil_iff.mp hsl
    have hchain' : (c :: l' :: (fl' ++ t' :: dl)).IsChain Apart := hchain
    have hverb := scans_keyword (fl' ++ t' :: dl) (s := s) (hblank.1 c (by simp)) hc hw hkw
      (List.isChain_cons_cons.mp hchain').1 hl'kind
    refine (hverb.append hrest).imp ?_
    rintro ts ⟨us, ts', rfl, rfl, us', vs, hus, hvs, rfl⟩
    exact ⟨us', vs, hus, hvs, by rw [htoken]; rfl⟩
  | silent hword =>
    obtain ⟨x, rfl, hx⟩ := List.map_eq_singleton_iff.mp hsl
    have hchain' : (c :: x :: l' :: (fl' ++ t' :: dl)).IsChain Apart := hchain
    rw [List.isChain_cons_cons] at hchain'
    have hverb := scans_keyword (l' :: fl' ++ t' :: dl) (s := s) (hblank.1 c (by simp)) hc
      hw hkw hchain'.1 (by rw [hx]; rfl)
    have hquiet := scans_keyword (fl' ++ t' :: dl) (s := s) (hblank.1 x (by simp)) hx hword
      (by decide) (List.isChain_cons_cons.mp hchain'.2).1 hl'kind
    refine (hverb.append (hquiet.append hrest)).imp ?_
    rintro ts ⟨us, ts', rfl, rfl, ss', ts'', rfl, rfl, us', vs, hus, hvs, rfl⟩
    exact ⟨us', vs, hus, hvs, by rw [htoken]; rfl⟩

/-- The tokens of an operation. -/
def StepToks (ts : List AmcTok) : Step → Prop
  | .amc verb silent source dest => VerbToks verb silent source dest ts
  | .other => ∀ t ∈ ts, quiet t = true
  | _ => False

theorem scans_operation {ls post : List Lexeme} {s : Bytes} {step : Step}
    (h : ReadsOperation (ls.map (·.token)) step) (hclear : ClearText (ls ++ post))
    (hs : Bounded s) : Scans ls s fun ts => StepToks ts step := by
  generalize hts : ls.map (·.token) = ts at h
  cases h with
  | amc hw hsilent hsource ht hdest =>
    exact scans_verb (fun l hl => hclear.blank l (List.mem_append_left post hl))
      (fun l hl => hclear.token l (List.mem_append_left post hl))
      (List.isChain_append.mp hclear.apart).1 hts hw hsilent hsource ht hdest hs
  | other hword hless =>
    rw [← hts] at hword hless
    exact scans_other hclear hword hless hs

theorem told_step {p : Prologue lib} {ts rest : List AmcTok} {step : Step} {steps : List Step}
    (h : StepToks ts step) (hrest : Told p steps (hints_from p rest)) :
    Told p (step :: steps) (hints_from p (ts ++ rest)) := by
  cases step with
  | base | pfx => cases h
  | other =>
    rw [hints_quiet p h]
    exact .other hrest
  | amc verb silent source dest =>
    obtain ⟨us, vs, hus, hvs, rfl⟩ := h
    have hquiet : ∀ t ∈ (if silent then [AmcTok.Silent] else []) ++ (us ++ .Other :: vs),
        quiet t = true := by
      have hvsq := (operand_toks_quiet hvs).1
      refine List.forall_mem_append.mpr ⟨?_, List.forall_mem_append.mpr
        ⟨(operand_toks_quiet hus).1, List.forall_mem_cons.mpr ⟨rfl, hvsq⟩⟩⟩
      cases silent <;> simp [quiet]
    have htells := hint_tells p verb silent hus hvs rest
    rw [List.cons_append, hints_from, hints_quiet p hquiet]
    refine .amc ?_ hrest
    simpa using htells

/-! ## Requests -/

theorem ClearText.right {ls more : List Lexeme} (h : ClearText (ls ++ more)) : ClearText more where
  blank l hl := h.blank l (List.mem_append_right ls hl)
  token l hl := h.token l (List.mem_append_right ls hl)
  apart := (List.isChain_append.mp h.apart).2.1
  less front l back hsplit := h.less (ls ++ front) l back (by rw [hsplit, List.append_assoc])

theorem declare_pfx_name (p : Prologue lib) {ns : Bytes} (h : ascii ':' ∉ ns) (raw : Bytes) :
    declare_pfx p (ns ++ [ascii ':']) raw = declare_pfx p ns raw := by
  have hns : ∀ b ∈ ns, decide (b ≠ ascii ':') = true := by
    intro b hb
    refine decide_eq_true ?_
    rintro rfl
    exact h hb
  unfold declare_pfx
  rw [takeWhile_run hns, List.takeWhile_eq_self_iff.mpr hns, List.takeWhile_cons_of_neg (by decide),
    List.append_nil]

theorem iri_then {l : Lexeme} {body : Bytes} (hl : l.token = .iriref body) (s : Bytes) :
    Ends joined (l.bytes ++ s) := by
  rcases lexeme_bounded l s with hbound | hgap
  · exact hbound.joined
  · intro b hb
    rw [Lexeme.bytes, hgap, hl] at hb
    rw [← Option.some.inj hb]
    decide

/-- A declaration, and the prologue that it leaves to what follows. -/
theorem told_decl {dl rest : List Lexeme} {d : Step} {steps : List Step} {s : Bytes}
    (hd : ReadsDecl (dl.map (·.token)) d) (hclear : ClearText (dl ++ rest)) (hstep : d.Clear)
    (hrest : ∀ (p : Prologue lib) prev, is_sigil prev = false →
      Told p steps (hints_from p (amc_tokens prev (spelled rest ++ s))))
    (p : Prologue lib) {prev : UInt8} (hprev : is_sigil prev = false) :
    Told p (d :: steps) (hints_from p (amc_tokens prev (spelled (dl ++ rest) ++ s))) := by
  have hblank : ∀ l ∈ dl, Blank l.gap := fun l hl => hclear.blank l (List.mem_append_left rest hl)
  have hchain := (List.isChain_append.mp hclear.apart).1
  rw [spelled_append, List.append_assoc]
  generalize hts : dl.map (·.token) = ts at hd
  cases hd with
  | base body hw =>
    obtain ⟨c, dl', rfl, hc, hdl'⟩ := List.map_eq_cons_iff.mp hts
    obtain ⟨i, rfl, hi⟩ := List.map_eq_singleton_iff.mp hdl'
    have hkw := scans_keyword [] (s := spelled rest ++ s) (hblank c (by simp)) hc hw
      (by decide) (List.isChain_cons_cons.mp hchain).1 (by rw [hi]; rfl)
    have hiri := scans_iri (s := spelled rest ++ s) (hblank i (by simp)) hi
    obtain ⟨ts, last, ⟨us, vs, rfl, rfl, rfl⟩, hlast, hscan⟩ := (hkw.append hiri) prev hprev
    rw [if_neg (show ascii '\\' ∉ body from hstep)] at hscan
    have hmore := hrest (adopt_base p body) last hlast
    refine .base ?_
    rw [show spelled (c :: [i]) = spelled ([c] ++ [i]) from rfl, hscan]
    exact hmore
  | pfx ns body hw =>
    obtain ⟨c, dl', rfl, hc, hdl'⟩ := List.map_eq_cons_iff.mp hts
    obtain ⟨n, dl'', rfl, hn, hdl''⟩ := List.map_eq_cons_iff.mp hdl'
    obtain ⟨i, rfl, hi⟩ := List.map_eq_singleton_iff.mp hdl''
    have hcolon : ascii ':' ∉ ns := by
      have hvalid := n.token_ok
      rw [hn] at hvalid
      cases hvalid with
      | pname hns => exact name_no_colon hns
    have hkw := scans_keyword [i] (s := spelled rest ++ s) (hblank c (by simp)) hc hw
      (by decide) (List.isChain_cons_cons.mp hchain).1 (by rw [hn]; rfl)
    have hname := scans_pname (s := spelled [i] ++ (spelled rest ++ s)) (hblank n (by simp)) hn
      (by simp) (by
        rw [spelled_cons, List.append_assoc]
        exact iri_then hi _)
    have hiri := scans_iri (s := spelled rest ++ s) (hblank i (by simp)) hi
    obtain ⟨ts, last, ⟨us, vs, rfl, rfl, us', vs', rfl, rfl, rfl⟩, hlast, hscan⟩ :=
      (hkw.append (hname.append hiri)) prev hprev
    rw [if_neg (show ascii '\\' ∉ body from hstep)] at hscan
    have hmore := hrest (declare_pfx p (ns ++ [ascii ':']) body) last hlast
    refine .pfx ?_
    rw [show spelled (c :: n :: [i]) = spelled ([c] ++ [n, i]) from rfl, hscan,
      ← declare_pfx_name p hcolon]
    exact hmore

theorem told_from {ls : List Lexeme} {steps : List Step} {tail : Bytes}
    (h : ReadsRequest (ls.map (·.token)) steps) (hclear : ClearText ls)
    (hsteps : ∀ step ∈ steps, step.Clear) (htail : Tail tail) (p : Prologue lib) {prev : UInt8}
    (hprev : is_sigil prev = false) :
    Told p steps (hints_from p (amc_tokens prev (spelled ls ++ tail))) := by
  generalize hts : ls.map (·.token) = ts at h
  induction h generalizing ls p prev with
  | nil =>
    rw [List.map_eq_nil_iff] at hts
    rw [hts]
    show Told p [] (hints_from p (amc_tokens prev tail))
    rw [scan_tail htail]
    exact .nil
  | decl hd _ ih =>
    obtain ⟨dl, rest, rfl, rfl, hrest⟩ := List.map_eq_append_iff.mp hts
    rw [List.forall_mem_cons] at hsteps
    exact told_decl hd hclear hsteps.1 (fun p prev hprev =>
      ih hclear.right hsteps.2 p hprev hrest) p hprev
  | last ho =>
    rw [← hts] at ho
    rw [← List.append_nil ls] at hclear
    obtain ⟨ts, last, hstep, -, hscan⟩ :=
      scans_operation ho hclear (Tail.bounded htail) prev hprev
    rw [hscan, scan_tail htail]
    exact told_step hstep .nil
  | operation ho _ ih =>
    obtain ⟨ol, rest, rfl, rfl, hrest⟩ := List.map_eq_append_iff.mp hts
    obtain ⟨semi, rest, rfl, hsemi, hrest⟩ := List.map_eq_cons_iff.mp hrest
    rw [List.forall_mem_cons] at hsteps
    have hright := hclear.right
    have hbound : Bounded (spelled (semi :: rest) ++ tail) := by
      rw [spelled_cons, Lexeme.bytes, List.append_assoc, List.append_assoc]
      refine Gap.bounded semi.gap_ok fun _ b hb => ?_
      rw [hsemi] at hb
      rw [← Option.some.inj hb]
      decide
    have hop := scans_operation ho hclear hbound
    have hcolon := scans_semicolon (s := spelled rest ++ tail) (hright.blank semi (by simp)) hsemi
    obtain ⟨ts, mid, hstep, hmid, hscan⟩ := hop prev hprev
    obtain ⟨us, last, rfl, hlast, hscan'⟩ := hcolon mid hmid
    have hmore := ih (show ClearText ([semi] ++ rest) from hright).right hsteps.2 p hlast hrest
    rw [spelled_append, List.append_assoc, hscan]
    refine told_step hstep ?_
    rw [show spelled (semi :: rest) = spelled [semi] ++ spelled rest from
      spelled_append [semi] rest, List.append_assoc, hscan']
    exact hmore

/-- Every ADD, COPY and MOVE of a request has its hint, in order, and nothing else has one. -/
theorem recovered_hints (r : Request) (h : Clear r) (base_iri : Option lib.Iri) :
    Told ⟨base_iri, fun _ => none⟩ r.steps (recover_amc_hints r.bytes base_iri) :=
  told_from r.reads h.text h.steps r.tail_ok _ (by decide)

end horndb.sparql.update_text
