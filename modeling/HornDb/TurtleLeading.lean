-- The leading directives of a document. What the block's end may be is told by the bytes that are
-- left: in front of a triple they stay in front of it, whatever the comments in between say.
import HornDb.TurtleDirectives

open HornDb.Lib.Wire

namespace horndb.storage.turtle

/-! ## Blank space -/

theorem blank_len_stop {b : UInt8} (hws : is_ascii_whitespace b = false) (hhash : b ≠ ascii '#')
    (s : Bytes) : blank_len false (b :: s) = 0 := by
  simp [blank_len, hws, hhash]

theorem blank_len_ws {b : UInt8} (hb : is_ws b = true) (s : Bytes) :
    blank_len false (b :: s) = 1 + blank_len false s := by
  have hws : is_ascii_whitespace b = true := by
    rcases is_ws_cases hb with rfl | rfl | rfl | rfl <;> decide
  rw [blank_len, if_neg (by decide), if_pos hws]

theorem blank_len_comment (b : UInt8) (s : Bytes) :
    blank_len true (b :: s) = 1 + blank_len (b ≠ ascii '\n') s := by
  rw [blank_len, if_pos rfl]

theorem blank_len_mark (s : Bytes) : blank_len false (ascii '#' :: s) = 1 + blank_len true s := by
  rw [blank_len, if_neg (by decide), if_neg (by decide), if_pos rfl]

/-- Inside a comment, the bytes of its line are stepped over. -/
theorem blank_len_line {line : Bytes} (h : ascii '\n' ∉ line) (s : Bytes) :
    blank_len true (line ++ s) = line.length + blank_len true s := by
  induction line with
  | nil => simp
  | cons b line ih =>
    rw [List.mem_cons, not_or] at h
    rw [List.cons_append, blank_len_comment, decide_eq_true (Ne.symm h.1), ih h.2,
      List.length_cons]
    omega

/-- Clean blank space is stepped over, from within a comment or not. -/
theorem blank_len_gap {g s : Bytes} (hg : Gap g) (hclean : Clean g) (hs : blank_len false s = 0) :
    blank_len false (g ++ s) = g.length ∧
      (ascii '\n' ∈ g → blank_len true (g ++ s) = g.length) := by
  induction hg with
  | nil => exact ⟨hs, fun h => absurd h List.not_mem_nil⟩
  | @ws b rest hb _ ih =>
    obtain ⟨ih_text, ih_comment⟩ := ih hclean.tail
    constructor
    · rw [List.cons_append, blank_len_ws hb, ih_text, List.length_cons]
      omega
    · intro hline
      rw [List.cons_append, blank_len_comment, List.length_cons]
      by_cases hfeed : b = ascii '\n'
      · rw [decide_eq_false (not_not.mpr hfeed), ih_text]
        omega
      · rw [decide_eq_true hfeed,
          ih_comment ((List.mem_cons.mp hline).resolve_left fun h => hfeed h.symm)]
        omega
  | @comment line rest eol hline heol _ ih =>
    have hrest : Clean rest :=
      Clean.back (f := ascii '#' :: (line ++ [eol])) (by simpa using hclean)
    obtain ⟨ih_text, ih_comment⟩ := ih hrest
    have hinside : ascii '\n' ∈ line ++ eol :: rest →
        blank_len true (line ++ eol :: (rest ++ s)) = line.length + 1 + rest.length := by
      intro hmem
      rw [blank_len_line (not_line_feed hline), blank_len_comment]
      by_cases hfeed : eol = ascii '\n'
      · rw [decide_eq_false (not_not.mpr hfeed), ih_text]
        omega
      · have hback := (List.mem_append.mp hmem).resolve_left (not_line_feed hline)
        have hmem_rest : ascii '\n' ∈ rest :=
          (List.mem_cons.mp hback).resolve_left fun h => hfeed h.symm
        rw [decide_eq_true hfeed, ih_comment hmem_rest]
        omega
    have hshape : ascii '#' :: (line ++ eol :: rest) ++ s =
        ascii '#' :: (line ++ eol :: (rest ++ s)) := by simp
    have hlen : (ascii '#' :: (line ++ eol :: rest)).length =
        line.length + 1 + rest.length + 1 := by
      simp
      omega
    rw [hshape, hlen]
    constructor
    · rw [blank_len_mark, hinside (hclean [] _ rfl)]
      omega
    · intro hmem
      rw [blank_len_comment, decide_eq_true (by decide),
        hinside ((List.mem_cons.mp hmem).resolve_left (by decide))]
      omega

/-! ## In front of an IRI -/

/-- What may stand in front of the IRI of a directive: its comments end there, and no backslash
is the last byte. -/
structure Lead (lead : Bytes) : Prop where
  clean : Clean lead
  last : lead.getLast? ≠ some (ascii '\\')

theorem Lead.back {f g : Bytes} (h : Lead (f ++ g)) : Lead g := by
  refine ⟨h.clean.back, fun hlast => h.last ?_⟩
  rw [List.getLast?_append, hlast]
  rfl

theorem Lead.append {f g : Bytes} (hf : Lead f) (hg : Lead g) : Lead (f ++ g) := by
  refine ⟨hf.clean.append hg.clean, fun hlast => ?_⟩
  rw [List.getLast?_append] at hlast
  cases hback : g.getLast? with
  | none =>
    rw [hback] at hlast
    exact hf.last hlast
  | some b =>
    rw [hback] at hlast
    exact hg.last (hback.trans hlast)

theorem Lead.of_gap {g : Bytes} (hg : Gap g) (hclean : Clean g) : Lead g := by
  refine ⟨hclean, fun hlast => ?_⟩
  rcases hg.last with rfl | ⟨front, b, rfl, hb⟩
  · cases hlast
  · rw [List.getLast?_append, List.getLast?_singleton] at hlast
    obtain rfl : b = ascii '\\' := Option.some.inj hlast
    exact absurd hb (by decide)

theorem Lead.of_plain {bs : Bytes} (h : ∀ b ∈ bs, b ≠ ascii '#' ∧ b ≠ ascii '\\') : Lead bs :=
  ⟨clean_of_no_comment fun hmem => (h _ hmem).1 rfl,
    fun hlast => (h _ (List.mem_of_getLast? hlast)).2 rfl⟩

/-- From in front of an IRI, blank space does not go over its bracket. -/
theorem blank_len_lead {lead : Bytes} (h : Clean lead) (s : Bytes) :
    blank_len false (lead ++ ascii '<' :: s) ≤ lead.length ∧
      (ascii '\n' ∈ lead → blank_len true (lead ++ ascii '<' :: s) ≤ lead.length) := by
  induction lead with
  | nil => exact ⟨(blank_len_stop (by decide) (by decide) s).le, fun h => absurd h List.not_mem_nil⟩
  | cons b lead ih =>
    obtain ⟨ih_text, ih_comment⟩ := ih h.tail
    rw [List.cons_append, List.length_cons]
    constructor
    · rw [blank_len, if_neg (by decide)]
      split
      · omega
      · split
        · rename_i hmark
          have hline := h [] lead (by rw [hmark]; rfl)
          have hle := ih_comment hline
          omega
        · omega
    · intro hline
      rw [blank_len_comment]
      by_cases hfeed : b = ascii '\n'
      · rw [decide_eq_false (not_not.mpr hfeed)]
        omega
      · have hle := ih_comment ((List.mem_cons.mp hline).resolve_left fun h => hfeed h.symm)
        rw [decide_eq_true hfeed]
        omega

/-- An IRI that is taken to start in front of an IRI ends in front of it, or where it ends. -/
theorem iri_len_lead {body : Bytes} (hbody : IriBody body) (s : Bytes) :
    ∀ lead : Bytes, lead.getLast? ≠ some (ascii '\\') →
      iri_len (lead ++ ascii '<' :: (body ++ ascii '>' :: s)) ≤ lead.length ∨
        iri_len (lead ++ ascii '<' :: (body ++ ascii '>' :: s)) = lead.length + (body.length + 2)
  | [], _ => by
    right
    rw [List.nil_append, iri_len_plain (by decide) (by decide) (by decide), iri_len_body hbody,
      List.length_nil]
    omega
  | [b], hlast => by
    have hslash : b ≠ ascii '\\' := fun h => hlast (by rw [h]; rfl)
    have hnext := iri_len_lead hbody s [] (by simp)
    rw [List.nil_append, List.length_nil] at hnext
    rw [List.singleton_append, iri_len, if_neg hslash, List.length_singleton]
    split
    · exact Or.inl (le_refl 1)
    · split
      · exact Or.inl (Nat.zero_le 1)
      · omega
  | b :: c :: lead, hlast => by
    have hback : (c :: lead).getLast? ≠ some (ascii '\\') := hlast
    have hskipped : lead.getLast? ≠ some (ascii '\\') := by
      intro h
      refine hback ?_
      rw [List.getLast?_cons, h]
      rfl
    have hplain := iri_len_lead hbody s (c :: lead) hback
    have hescape := iri_len_lead hbody s lead hskipped
    rw [List.cons_append] at hplain
    rw [List.cons_append, List.cons_append, iri_len]
    simp only [List.length_cons] at hplain ⊢
    split
    · omega
    · split
      · left
        omega
      · split
        · left
          omega
        · omega

/-! ## What is left -/

/-- Bytes that no directive starts. -/
structure NoDirective (bytes : Bytes) : Prop where
  blank : blank_len false bytes = 0
  dot : bytes.head? ≠ some (ascii '.')
  prefix_at : ¬ prefix_at <+: bytes
  base_at : ¬ base_at <+: bytes
  keyword : sparql_directive bytes = none

/-- What is left of directives with a triple behind them, and how much there is at least from that
triple on. -/
inductive Ahead (limit : Nat) : Bytes → Prop where
  | directive {lead body rest : Bytes} : Lead lead → IriBody body → Ahead limit rest →
      Ahead limit (lead ++ ascii '<' :: (body ++ ascii '>' :: rest))
  | dot {g rest : Bytes} : Gap g → Clean g → Ahead limit rest →
      Ahead limit (g ++ ascii '.' :: rest)
  | triples {g first : Bytes} : Gap g → Clean g → NoDirective first → limit ≤ first.length →
      Ahead limit (g ++ first)

/-- The same behind blank space. -/
inductive Next (limit : Nat) : Bytes → Prop where
  | directive {lead body rest : Bytes} : Lead lead → IriBody body → Ahead limit rest →
      Next limit (lead ++ ascii '<' :: (body ++ ascii '>' :: rest))
  | dot {rest : Bytes} : Ahead limit rest → Next limit (ascii '.' :: rest)
  | triples {first : Bytes} : NoDirective first → limit ≤ first.length → Next limit first

variable {limit : Nat} {bytes : Bytes}

theorem Ahead.limit_le (h : Ahead limit bytes) : limit ≤ bytes.length := by
  induction h with
  | directive _ _ _ ih =>
    simp only [List.length_append, List.length_cons]
    omega
  | dot _ _ _ ih =>
    simp only [List.length_append, List.length_cons]
    omega
  | triples _ _ _ hle =>
    rw [List.length_append]
    omega

theorem Next.limit_le (h : Next limit bytes) : limit ≤ bytes.length := by
  cases h with
  | directive hlead hbody hrest => exact (Ahead.directive hlead hbody hrest).limit_le
  | dot hrest => exact hrest.limit_le.trans (Nat.le_succ _)
  | triples _ hle => exact hle

/-- Over blank space. -/
theorem Ahead.next (h : Ahead limit bytes) : Next limit (bytes.drop (blank_len false bytes)) := by
  cases h with
  | @directive lead body rest hlead hbody hrest =>
    have hle := (blank_len_lead hlead.clean (body ++ ascii '>' :: rest)).1
    rw [List.drop_append_of_le_length hle]
    refine .directive ?_ hbody hrest
    exact Lead.back (f := lead.take _) (by rwa [List.take_append_drop])
  | @dot g rest hg hclean hrest =>
    rw [(blank_len_gap hg hclean (blank_len_stop (by decide) (by decide) rest)).1, List.drop_left]
    exact .dot hrest
  | triples hg hclean hfirst hle =>
    rw [(blank_len_gap hg hclean hfirst.blank).1, List.drop_left]
    exact .triples hfirst hle

theorem Ahead.skip_ws {i : Nat} (h : Ahead limit (bytes.drop i)) :
    Next limit (bytes.drop (skip_ws_and_comments bytes i)) := by
  rw [skip_ws_and_comments, ← List.drop_drop]
  exact h.next

theorem find_bracket {front : Bytes} (h : ascii '<' ∉ front) (s : Bytes) :
    (front ++ ascii '<' :: s).findIdx? (· = ascii '<') = some front.length := by
  have hnone : front.findIdx? (fun b => decide (b = ascii '<')) = none := by
    rw [List.findIdx?_eq_none_iff]
    intro b hb
    exact decide_eq_false fun heq => h (heq ▸ hb)
  rw [List.findIdx?_append, hnone, List.findIdx?_cons, if_pos (decide_eq_true rfl)]
  simp

theorem drop_iri (lead body rest : Bytes) :
    (lead ++ ascii '<' :: (body ++ ascii '>' :: rest)).drop (lead.length + (body.length + 2)) =
      rest := by
  rw [drop_front, List.drop_succ_cons, drop_front]
  rfl

/-- From where an IRI is looked for in front of one: to what is left in front of it, or behind. -/
theorem skip_to_iri_end_lead {i n : Nat} {lead body rest : Bytes} (hlead : Lead lead)
    (hbody : IriBody body) (hrest : Ahead limit rest)
    (hbytes : bytes.drop i = lead ++ ascii '<' :: (body ++ ascii '>' :: rest))
    (h : skip_to_iri_end bytes i = some n) : Ahead limit (bytes.drop n) := by
  obtain ⟨o, ho, hn⟩ := Option.bind_eq_some_iff.mp h
  dsimp only at hn
  split at hn
  · obtain rfl := Option.some.inj hn
    have hskip : bytes.drop (skip_iri bytes (i + o)) =
        (bytes.drop i).drop (o + (1 + iri_len ((bytes.drop i).drop (o + 1)))) := by
      rw [skip_iri, List.drop_drop, List.drop_drop, Nat.add_assoc i o 1]
      congr 1
      omega
    rw [hskip]
    rw [hbytes] at ho ⊢
    by_cases hmem : ascii '<' ∈ lead
    · obtain ⟨front, back, rfl, hfront⟩ := List.eq_append_cons_of_mem hmem
      have hback : Lead back := Lead.back (f := front ++ [ascii '<']) (by simpa using hlead)
      rw [List.append_assoc, List.cons_append] at ho ⊢
      rw [find_bracket hfront] at ho
      obtain rfl := Option.some.inj ho
      rw [drop_front, drop_front, List.drop_succ_cons, List.drop_zero, Nat.add_comm 1,
        List.drop_succ_cons]
      rcases iri_len_lead hbody rest back hback.last with hle | heq
      · rw [List.drop_append_of_le_length hle]
        refine .directive ?_ hbody hrest
        exact Lead.back (f := back.take _) (by rwa [List.take_append_drop])
      · rw [heq, drop_iri]
        exact hrest
    · rw [find_bracket hmem] at ho
      obtain rfl := Option.some.inj ho
      have hlen : iri_len (body ++ ascii '>' :: rest) = body.length + 1 := iri_len_body hbody rest
      have hinside : (lead ++ ascii '<' :: (body ++ ascii '>' :: rest)).drop (lead.length + 1) =
          body ++ ascii '>' :: rest := by
        rw [drop_front]
        rfl
      rw [hinside, hlen, show 1 + (body.length + 1) = body.length + 2 by omega, drop_iri]
      exact hrest
  · cases hn

theorem drop_succ_of_get {n : Nat} {b : UInt8} {s : Bytes} (h : bytes.drop n = b :: s) :
    bytes[n]? = some b ∧ bytes.drop (n + 1) = s := by
  constructor
  · rw [← List.head?_drop, h]
    rfl
  · rw [← List.drop_drop, h]
    rfl

/-- Over the dot that is looked for behind an IRI. -/
theorem skip_dot {i : Nat} (h : Ahead limit (bytes.drop i))
    (hdot : bytes[skip_ws_and_comments bytes i]? = some (ascii '.')) :
    Ahead limit (bytes.drop (skip_ws_and_comments bytes i + 1)) := by
  have hnext := h.skip_ws
  generalize skip_ws_and_comments bytes i = n at hnext hdot
  generalize hleft : bytes.drop n = left at hnext
  cases hnext with
  | @directive lead body rest hlead hbody hrest =>
    cases lead with
    | nil =>
      obtain ⟨hget, -⟩ := drop_succ_of_get hleft
      rw [hdot] at hget
      exact absurd (Option.some.inj hget) (by decide)
    | cons b lead =>
      rw [(drop_succ_of_get hleft).2]
      exact .directive (Lead.back (f := [b]) hlead) hbody hrest
  | dot hrest =>
    rw [(drop_succ_of_get hleft).2]
    exact hrest
  | triples hfirst _ =>
    rw [← List.head?_drop, hleft] at hdot
    exact absurd hdot hfirst.dot

theorem no_directive_dot (rest : Bytes) :
    ¬ prefix_at <+: ascii '.' :: rest ∧ ¬ base_at <+: ascii '.' :: rest ∧
      sparql_directive (ascii '.' :: rest) = none := by
  refine ⟨by simp [prefix_at, ascii_text, ascii], by simp [base_at, ascii_text, ascii], ?_⟩
  rw [sparql_directive, keyword_at_other (w := ascii 'p') rfl (by decide),
    keyword_at_other (w := ascii 'b') rfl (by decide)]
  rfl

theorem skip_directive_none {i : Nat} {left : Bytes} (hleft : bytes.drop i = left)
    (h : ¬ prefix_at <+: left ∧ ¬ base_at <+: left ∧ sparql_directive left = none) :
    skip_directive bytes i = none := by
  unfold skip_directive
  dsimp only
  rw [hleft, if_neg (by simp [h.1, h.2.1]), h.2.2, if_neg (by decide)]

/-- What a step over a directive leaves is still in front of the triple. -/
theorem Next.over_directive {i n : Nat} (h : Next limit (bytes.drop i))
    (hn : skip_directive bytes i = some n) : Ahead limit (bytes.drop n) := by
  generalize hleft : bytes.drop i = left at h
  cases h with
  | directive hlead hbody hrest =>
    unfold skip_directive at hn
    dsimp only at hn
    split at hn
    · obtain ⟨after_iri, hiri, hdot⟩ := Option.bind_eq_some_iff.mp hn
      dsimp only at hdot
      split at hdot
      · rename_i hget
        obtain rfl := Option.some.inj hdot
        exact skip_dot (skip_to_iri_end_lead hlead hbody hrest hleft hiri) hget
      · cases hdot
    · split at hn
      · exact skip_to_iri_end_lead hlead hbody hrest hleft hn
      · cases hn
  | @dot rest _ =>
    rw [skip_directive_none hleft (no_directive_dot rest)] at hn
    cases hn
  | triples hfirst _ =>
    rw [skip_directive_none hleft ⟨hfirst.prefix_at, hfirst.base_at, hfirst.keyword⟩] at hn
    cases hn

/-- The leading directives end in front of the triple. -/
theorem leading_from_ahead (fuel : Nat) {i : Nat} (h : Ahead limit (bytes.drop i)) :
    limit ≤ (bytes.drop (leading_from bytes fuel i)).length := by
  induction fuel generalizing i with
  | zero => exact h.limit_le
  | succ fuel ih =>
    have hnext := h.skip_ws
    rw [leading_from]
    split
    · exact hnext.limit_le
    · split
      · rename_i n hn
        exact ih (hnext.over_directive hn)
      · exact hnext.limit_le

end horndb.storage.turtle
