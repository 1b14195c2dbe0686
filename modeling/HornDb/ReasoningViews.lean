-- Reasoning views: what a configuration selects, the names of the graphs that reasoning writes,
-- and the catalog of the views, which knows the stale ones.
import HornDb.DictKey
import HornDb.QuadStore
import HornDb.Lib.Hex

open horndb.storage (as_bytes as_bytes_inj)
open HornDb.Lib.Hex

namespace horndb.sparql.reasoning

/-! ## Configuration -/

inductive ViewSelect where
  | Keyword
  | Patterns (patterns : List String)
deriving DecidableEq, Repr

inductive ViewOutput where
  | Graph
  | None
deriving DecidableEq, Repr

structure Views where
  select : ViewSelect
  include_spine : Bool
  output : ViewOutput
deriving DecidableEq, Repr

structure Reasoning where
  enabled : Bool
  spine : List String
  views : Views
  default_dataset_includes_inferred : Bool
deriving DecidableEq, Repr

/-- The text starts with the pattern. -/
def pattern_matches (pattern iri : String) : Bool := pattern.toList.isPrefixOf iri.toList

def select_patterns (cfg : Reasoning) : List String :=
  match cfg.views.select with
  | .Keyword => []
  | .Patterns p => p

/-- A pattern that reaches into the reserved namespace. -/
def reaches_reserved (pattern : String) : Bool :=
  pattern_matches pattern RESERVED_GRAPH_PREFIX || pattern_matches RESERVED_GRAPH_PREFIX pattern

def reserved_pattern_error (key pattern : String) : String :=
  key ++ " pattern " ++ pattern.quote ++ " matches the reserved namespace " ++
    RESERVED_GRAPH_PREFIX.quote ++ ", which HornDB writes its own derived graphs into"

def both_error (spine select : String) : String :=
  "[reasoning].spine pattern " ++ spine.quote ++ " and [reasoning].views.select pattern " ++
    select.quote ++
    " select the same graphs; a graph is either spine or a view source, never both"

/-- The first complaint about a configuration, or the warnings. -/
def validate (cfg : Reasoning) : Except String (List String) :=
  let keyed := cfg.spine.map (fun p => ("[reasoning].spine", p)) ++
    (select_patterns cfg).map fun p => ("[reasoning].views.select", p)
  match keyed.find? fun e => reaches_reserved e.2 with
  | some (key, pattern) => .error (reserved_pattern_error key pattern)
  | none =>
    let pairs := cfg.spine.flatMap fun spine => (select_patterns cfg).map fun sel => (spine, sel)
    match pairs.find? fun e => pattern_matches e.1 e.2 || pattern_matches e.2 e.1 with
    | some (spine, sel) => .error (both_error spine sel)
    | none =>
      if cfg.views.output = .None then
        .error ("[reasoning].views.output = \"none\" (virtual, backward-chained views) " ++
          "is SPEC-29 P4 and not implemented; use \"graph\"")
      else if cfg.enabled && cfg.spine.isEmpty then
        .ok ["[reasoning].enabled is set with an empty [reasoning].spine: every view will " ++
          "derive only from its own graph, so no shared vocabulary axiom (rdfs:subClassOf and " ++
          "friends) will fire. This is legal but rarely intended."]
      else .ok []

theorem validate_spine {cfg : Reasoning} {warnings : List String}
    (h : validate cfg = .ok warnings) {p : String} (hp : p ∈ cfg.spine) :
    reaches_reserved p = false := by
  unfold validate at h
  dsimp only at h
  split at h
  · cases h
  · rename_i hnone
    rw [List.find?_eq_none] at hnone
    have hkeyed := hnone ("[reasoning].spine", p)
      (List.mem_append_left _ (List.mem_map_of_mem hp))
    exact Bool.eq_false_iff.mpr hkeyed

/-! ## Names -/

def INFERRED_GRAPH_PREFIX : String := "https://horndb.io/graph/inferred/"

def SPINE_CLOSURE_GRAPH : String := "https://horndb.io/graph/spine-closure"

def VIEWS_GRAPH : String := "https://horndb.io/graph/views"

def NS : String := "https://horndb.io/ns/reasoning#"

def DEFAULT_SOURCE_SEGMENT : String := "default"

def NAMED_SOURCE_SEGMENT : String := "g/"

/-- The graph that a view reasons over. -/
inductive ViewSource where
  | Default
  | Named (iri : String)
deriving DecidableEq, Repr

/-- The default graph comes first, and named ones in the order of their IRIs. -/
def ViewSource.key : ViewSource → WithBot String
  | .Default => ⊥
  | .Named iri => iri

theorem ViewSource.key_inj : Function.Injective ViewSource.key := by
  intro a b h
  cases a with
  | Default =>
    cases b with
    | Default => rfl
    | Named b => exact absurd h WithBot.bot_ne_coe
  | Named a =>
    cases b with
    | Default => exact absurd h WithBot.coe_ne_bot
    | Named b => exact congrArg Named (WithBot.coe_inj.mp h)

instance : LinearOrder ViewSource := LinearOrder.lift' ViewSource.key ViewSource.key_inj

def ViewSource.graph_name : ViewSource → GraphName
  | .Default => none
  | .Named iri => some iri

def unreserved (b : UInt8) : Bool :=
  (0x41 ≤ b.toNat && b.toNat ≤ 0x5A) || (0x61 ≤ b.toNat && b.toNat ≤ 0x7A) ||
    (0x30 ≤ b.toNat && b.toNat ≤ 0x39) || b.toNat == 0x2D || b.toNat == 0x2E || b.toNat == 0x5F ||
    b.toNat == 0x7E

def percent_encode_byte (b : UInt8) : List Char :=
  if unreserved b then [Char.ofNat b.toNat] else '%' :: hex_digits 2 b.toNat

def percent_encode_segment (s : String) : List Char := (as_bytes s).flatMap percent_encode_byte

def ViewSource.segment : ViewSource → List Char
  | .Default => DEFAULT_SOURCE_SEGMENT.toList
  | .Named iri => NAMED_SOURCE_SEGMENT.toList ++ percent_encode_segment iri

def ViewSource.inferred_graph (src : ViewSource) : String :=
  String.ofList (INFERRED_GRAPH_PREFIX.toList ++ src.segment)

/-- A graph that reasoning writes. -/
def is_reasoning_output (iri : String) : Bool := is_reserved_graph iri

theorem toNat_unreserved {b : UInt8} (h : unreserved b = true) :
    (Char.ofNat b.toNat).toNat = b.toNat ∧ b.toNat ≠ 0x25 := by
  constructor
  · have hvalid : b.toNat.isValidChar := Or.inl (by have := b.toNat_lt; omega)
    rw [Char.ofNat, dif_pos hvalid]
    exact Char.toNat_ofNatAux hvalid
  · intro heq
    rw [unreserved, heq] at h
    exact absurd h (by decide)

theorem percent_encode_byte_inj {b b' : UInt8} {cs cs' : List Char}
    (h : percent_encode_byte b ++ cs = percent_encode_byte b' ++ cs') : b = b' ∧ cs = cs' := by
  have hraw (b : UInt8) {cs cs' : List Char} (hb : unreserved b = true)
      (h : Char.ofNat b.toNat :: cs = '%' :: cs') : False := by
    have hchar := congrArg Char.toNat (List.cons.inj h).1
    rw [(toNat_unreserved hb).1] at hchar
    exact (toNat_unreserved hb).2 hchar
  unfold percent_encode_byte at h
  split_ifs at h with hb hb' hb'
  · obtain ⟨hhead, htail⟩ := List.cons.inj h
    have hnat := congrArg Char.toNat hhead
    rw [(toNat_unreserved hb).1, (toNat_unreserved hb').1] at hnat
    exact ⟨UInt8.toNat_inj.mp hnat, htail⟩
  · exact absurd h fun h => hraw b hb h
  · exact absurd h.symm fun h => hraw b' hb' h
  · have htail := (List.cons.inj h).2
    obtain ⟨hdigits, hrest⟩ := List.append_inj htail (by rw [length_hex_digits, length_hex_digits])
    have hnumber := congrArg (hex_number 0) hdigits
    rw [hex_number_digits 2 _ b.toNat_lt, hex_number_digits 2 _ b'.toNat_lt] at hnumber
    exact ⟨UInt8.toNat_inj.mp (Option.some.inj hnumber), hrest⟩

theorem percent_encode_byte_ne_nil (b : UInt8) : percent_encode_byte b ≠ [] := by
  unfold percent_encode_byte
  split
  · exact List.cons_ne_nil _ _
  · exact List.cons_ne_nil _ _

theorem percent_encode_bytes_inj {a b : List UInt8}
    (h : a.flatMap percent_encode_byte = b.flatMap percent_encode_byte) : a = b := by
  induction a generalizing b with
  | nil =>
    cases b with
    | nil => rfl
    | cons y b =>
      rw [List.flatMap_nil, List.flatMap_cons] at h
      exact absurd (List.append_eq_nil_iff.mp h.symm).1 (percent_encode_byte_ne_nil y)
  | cons x a ih =>
    cases b with
    | nil =>
      rw [List.flatMap_nil, List.flatMap_cons] at h
      exact absurd (List.append_eq_nil_iff.mp h).1 (percent_encode_byte_ne_nil x)
    | cons y b =>
      rw [List.flatMap_cons, List.flatMap_cons] at h
      obtain ⟨hxy, htail⟩ := percent_encode_byte_inj h
      rw [hxy, ih htail]

/-- No two sources share an inferred graph. -/
theorem ViewSource.inferred_graph_inj {a b : ViewSource}
    (h : a.inferred_graph = b.inferred_graph) : a = b := by
  have hsegment : a.segment = b.segment :=
    List.append_cancel_left (String.ofList_injective h)
  cases a with
  | Default =>
    cases b with
    | Default => rfl
    | Named b => exact absurd (List.cons.inj hsegment).1 (by decide)
  | Named a =>
    cases b with
    | Default => exact absurd (List.cons.inj hsegment).1 (by decide)
    | Named b =>
      exact congrArg Named (as_bytes_inj (percent_encode_bytes_inj
        (List.append_cancel_left hsegment)))

theorem inferred_graph_reserved (src : ViewSource) :
    is_reserved_graph src.inferred_graph = true := by
  have hstart : INFERRED_GRAPH_PREFIX.toList =
      RESERVED_GRAPH_PREFIX.toList ++ "inferred/".toList := by decide
  rw [is_reserved_graph, ViewSource.inferred_graph, String.toList_ofList, hstart,
    List.append_assoc]
  exact List.isPrefixOf_iff_prefix.mpr (List.prefix_append _ _)

theorem spine_closure_reserved : is_reserved_graph SPINE_CLOSURE_GRAPH = true := by
  decide

theorem views_reserved : is_reserved_graph VIEWS_GRAPH = true := by decide

/-- The other two graphs are no inferred graphs. -/
theorem inferred_graph_ne (src : ViewSource) :
    src.inferred_graph ≠ SPINE_CLOSURE_GRAPH ∧ src.inferred_graph ≠ VIEWS_GRAPH := by
  have hstart {iri : String} (h : src.inferred_graph = iri) :
      INFERRED_GRAPH_PREFIX.toList <+: iri.toList := by
    rw [← h, ViewSource.inferred_graph, String.toList_ofList]
    exact List.prefix_append _ _
  refine ⟨fun h => absurd (hstart h) ?_, fun h => absurd (hstart h) ?_⟩
  · decide
  · decide

theorem spine_closure_ne_views : SPINE_CLOSURE_GRAPH ≠ VIEWS_GRAPH := by decide

end horndb.sparql.reasoning
