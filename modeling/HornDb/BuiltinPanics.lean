-- When the evaluation of an expression stops the program. It does so at the time zone of an
-- instant with a character across the end of its seconds, and at a substring that starts at the
-- smallest word, and nowhere else.
import HornDb.BuiltinCalls

open HornDb.Lib.Utf8
open horndb.sparql.text

namespace horndb.sparql.exec.builtins

open algebra (Expr)

/-! ## Functions that end -/

/-- The bytes that are looked up are there. -/
theorem is_instant_some (v : List Char) : ∃ r, is_instant v = some r := by
  unfold is_instant
  dsimp only
  split
  · exact ⟨false, rfl⟩
  · rename_i h
    have hget (i : Nat) (hi : i < 19) : ∃ b, (encode v)[i]? = some b :=
      ⟨_, List.getElem?_eq_getElem (by omega)⟩
    obtain ⟨b4, h4⟩ := hget 4 (by decide)
    obtain ⟨b7, h7⟩ := hget 7 (by decide)
    obtain ⟨b10, h10⟩ := hget 10 (by decide)
    obtain ⟨b13, h13⟩ := hget 13 (by decide)
    obtain ⟨b16, h16⟩ := hget 16 (by decide)
    rw [h4, h7, h10, h13, h16]
    exact ⟨_, rfl⟩

/-- Around each separator of an instant there is a boundary. -/
theorem instant_boundaries {v : List Char} (h : is_instant v = some true) :
    ∀ n ∈ [0, 4, 5, 7, 8, 10, 11, 13, 14, 16, 17], Boundary v n := by
  unfold is_instant at h
  dsimp only at h
  split at h
  · cases h
  · obtain ⟨b4, h4, h⟩ := Option.bind_eq_some_iff.mp h
    obtain ⟨b7, h7, h⟩ := Option.bind_eq_some_iff.mp h
    obtain ⟨b10, h10, h⟩ := Option.bind_eq_some_iff.mp h
    obtain ⟨b13, h13, h⟩ := Option.bind_eq_some_iff.mp h
    obtain ⟨b16, h16, h⟩ := Option.bind_eq_some_iff.mp h
    obtain ⟨e4, e7, e10, e13, e16, -⟩ := of_decide_eq_true (Option.some.inj h)
    subst e4 e7 e13 e16
    have hten : b10.toNat < 0x80 := by
      rcases e10 with rfl | rfl <;> decide
    have h4 := boundary_of_byte h4 (by decide)
    have h7 := boundary_of_byte h7 (by decide)
    have h10 := boundary_of_byte h10 hten
    have h13 := boundary_of_byte h13 (by decide)
    have h16 := boundary_of_byte h16 (by decide)
    intro n hn
    simp only [List.mem_cons, List.not_mem_nil, or_false] at hn
    rcases hn with rfl | rfl | rfl | rfl | rfl | rfl | rfl | rfl | rfl | rfl | rfl
    · exact ⟨[], v, rfl, rfl⟩
    · exact h4.1
    · exact h4.2
    · exact h7.1
    · exact h7.2
    · exact h10.1
    · exact h10.2
    · exact h13.1
    · exact h13.2
    · exact h16.1
    · exact h16.2

/-- A literal that the accessors are defined on. -/
def Instant (t : Term) : Prop :=
  (term_parts t).datatype = some DATE_TIME ∧ is_instant (term_parts t).value = some true

theorem instant_of_eq (t : Term) :
    (instant_of t = some (some (term_parts t).value) ∧ Instant t) ∨
      (instant_of t = some none ∧ ¬Instant t) := by
  unfold instant_of
  by_cases hdt : (term_parts t).datatype = some DATE_TIME
  · rw [if_neg (not_not.mpr hdt)]
    obtain ⟨r, hr⟩ := is_instant_some (term_parts t).value
    rw [hr]
    cases r with
    | true => exact Or.inl ⟨rfl, hdt, hr⟩
    | false =>
      refine Or.inr ⟨rfl, fun h => ?_⟩
      have htrue := h.2
      rw [hr] at htrue
      cases htrue
  · rw [if_pos hdt]
    exact Or.inr ⟨rfl, fun h => hdt h.1⟩

theorem accessor_some {start stop : Nat}
    (hstart : start ∈ [0, 4, 5, 7, 8, 10, 11, 13, 14, 16, 17])
    (hstop : stop ∈ [0, 4, 5, 7, 8, 10, 11, 13, 14, 16, 17]) (hle : start ≤ stop) (t : Term) :
    accessor start stop t ≠ none := by
  unfold accessor
  rcases instant_of_eq t with ⟨h, hinstant⟩ | ⟨h, -⟩
  · have hbounds := instant_boundaries hinstant.2
    obtain ⟨part, hpart⟩ := slice_some (hbounds _ hstart) (hbounds _ hstop) hle
    rw [h]
    simp [instant_field, hpart]
  · rw [h]
    simp

variable {Pattern : Type} {env : Env Pattern}

theorem seconds_some (t : Term) : seconds env t ≠ none := by
  unfold seconds
  rcases instant_of_eq t with ⟨h, hinstant⟩ | ⟨h, -⟩
  · have hbound := instant_boundaries hinstant.2 17 (by decide)
    rw [h]
    cases htail : slice_from (term_parts t).value 17 with
    | none => exact absurd hbound (slice_from_eq_none.mp htail)
    | some tail => simp [htail]
  · rw [h]
    simp

/-- An instant with a character across the position where its time zone would start. -/
def Torn (t : Term) : Prop := Instant t ∧ ¬Boundary (term_parts t).value 19

theorem timezone_suffix_none {v : List Char} : timezone_suffix v = none ↔ ¬Boundary v 19 := by
  rw [← slice_from_eq_none]
  unfold timezone_suffix
  cases slice_from v 19 <;> simp

theorem tz_none {t : Term} : tz t = none ↔ Torn t := by
  unfold tz Torn
  rcases instant_of_eq t with ⟨h, hinstant⟩ | ⟨h, hnot⟩
  · rw [h, ← timezone_suffix_none]
    cases hsuffix : timezone_suffix (term_parts t).value <;> simp [hinstant, hsuffix]
  · rw [h]
    simp [hnot]

/-- A time zone starts with a letter or a sign, which can be cut off. -/
theorem duration_some {v suffix : List Char} (h : timezone_suffix v = some suffix) :
    day_time_duration suffix ≠ none := by
  unfold timezone_suffix at h
  obtain ⟨tail, -, h⟩ := Option.bind_eq_some_iff.mp h
  cases h
  unfold day_time_duration
  generalize tail.dropWhile digit_or_point = rest
  split
  · rename_i hhead
    cases rest with
    | nil => simp
    | cons c rest =>
      have hsplit : split_at 1 (c :: rest) = some ([c], rest) := by
        have hnarrow : encode [c] = [UInt8.ofNat c.val.toNat] := by
          rw [encode_cons, encode_narrow, encode_nil, List.append_nil]
          simp only [List.head?_cons, Option.some.injEq] at hhead
          rcases hhead with rfl | rfl | rfl <;> decide
        have happ := split_at_append [c] rest
        rw [hnarrow] at happ
        exact happ
      rw [hsplit]
      split
      · simp
      · split <;> simp
  · simp

theorem timezone_none {t : Term} : timezone t = none ↔ Torn t := by
  unfold timezone Torn
  rcases instant_of_eq t with ⟨h, hinstant⟩ | ⟨h, hnot⟩
  · rw [h, ← timezone_suffix_none]
    cases hsuffix : timezone_suffix (term_parts t).value with
    | none => simp [hinstant, hsuffix]
    | some suffix =>
      cases hduration : day_time_duration suffix with
      | none => exact absurd hduration (duration_some hsuffix)
      | some d => simp [hsuffix, hduration]
  · rw [h]
    simp [hnot]

theorem find_some {needle hay : List Char} {i : Nat} (h : find needle hay = some i) :
    ∃ a b, hay = a ++ (needle ++ b) ∧ (encode a).length = i := by
  induction hay generalizing i with
  | nil =>
    unfold find at h
    obtain ⟨rfl, heq⟩ := Option.ite_none_right_eq_some.mp h
    cases heq
    exact ⟨[], [], rfl, rfl⟩
  | cons c cs ih =>
    unfold find at h
    split at h
    · rename_i hpre
      cases h
      obtain ⟨b, hb⟩ := List.isPrefixOf_iff_prefix.mp hpre
      exact ⟨[], b, hb.symm, rfl⟩
    · obtain ⟨n, hn, rfl⟩ := Option.map_eq_some_iff.mp h
      obtain ⟨a, b, rfl, rfl⟩ := ih hn
      exact ⟨c :: a, b, rfl, by rw [encode_cons, List.length_append]⟩

/-- Both ends of an occurrence are boundaries. -/
theorem str_before_after_some (hay needle : Term) (before : Bool) :
    str_before_after hay needle before ≠ none := by
  unfold str_before_after
  split
  · split
    · simp
    · cases hfind : find (value needle) (value hay) with
      | none => simp
      | some i =>
        obtain ⟨a, b, hhay, rfl⟩ := find_some hfind
        have hfront : slice_to (value hay) (encode a).length = some a := by
          rw [hhay, slice_to, split_at_append]
          rfl
        have hback : slice_from (value hay) ((encode a).length + (encode (value needle)).length) =
            some b := by
          have happ := split_at_append (a ++ value needle) b
          rw [List.append_assoc, ← hhay, encode_append, List.length_append] at happ
          rw [slice_from, happ]
          rfl
        cases before <;> simp [hfront, hback]
  · simp

theorem low_hex_narrow {n : Nat} (h : n < 16) : Narrow (low_hex n) := by
  unfold low_hex
  interval_cases n <;> decide

theorem boundary_narrow {cs : List Char} (h : ∀ c ∈ cs, Narrow c) {n : Nat} (hn : n ≤ cs.length) :
    Boundary cs n := by
  refine ⟨cs.take n, cs.drop n, (List.take_append_drop n cs).symm, ?_⟩
  have hlen (l : List Char) (hl : ∀ c ∈ l, Narrow c) : (encode l).length = l.length := by
    induction l with
    | nil => rfl
    | cons c l ih =>
      rw [List.forall_mem_cons] at hl
      rw [encode_cons, encode_narrow hl.1, List.length_append, ih hl.2, List.length_singleton,
        List.length_cons, Nat.add_comm]
  rw [hlen _ fun c hc => h c (List.mem_of_mem_take hc), List.length_take, Nat.min_eq_left hn]

/-- Sixteen bytes have thirty-two digits of one byte each. -/
theorem uuid_v4_some (b : Vector UInt8 16) : uuid_v4 b ≠ none := by
  unfold uuid_v4
  dsimp only
  generalize hv : (b.set 6 _ _).set 8 _ _ = v
  have hnarrow (c : Char) (hc : c ∈ hex_encode v.toList) : Narrow c := by
    obtain ⟨x, -, hx⟩ := List.mem_flatMap.mp hc
    have hlt := x.toNat_lt
    simp only [List.mem_cons, List.not_mem_nil, or_false] at hx
    rcases hx with rfl | rfl
    · exact low_hex_narrow (by omega)
    · exact low_hex_narrow (by omega)
  have hlen : (hex_encode v.toList).length = 32 := by
    have hflat (l : List UInt8) : (hex_encode l).length = 2 * l.length := by
      induction l with
      | nil => rfl
      | cons x l ih =>
        rw [hex_encode, List.flatMap_cons, List.length_append, ← hex_encode, ih, List.length_cons]
        simp only [List.length_cons, List.length_nil]
        omega
    rw [hflat, Vector.length_toList]
  have hcut {start stop : Nat} (hle : start ≤ stop) (hstop : stop ≤ 32) :
      ∃ part, slice (hex_encode v.toList) start stop = some part := by
    rw [← hlen] at hstop
    exact slice_some (boundary_narrow hnarrow (hle.trans hstop)) (boundary_narrow hnarrow hstop) hle
  obtain ⟨p1, h1⟩ := @hcut 0 8 (by decide) (by decide)
  obtain ⟨p2, h2⟩ := @hcut 8 12 (by decide) (by decide)
  obtain ⟨p3, h3⟩ := @hcut 12 16 (by decide) (by decide)
  obtain ⟨p4, h4⟩ := @hcut 16 20 (by decide) (by decide)
  obtain ⟨p5, h5⟩ := @hcut 20 32 (by decide) (by decide)
  simp [h1, h2, h3, h4, h5]

theorem arith_some {op : Numeric env.numbers → Numeric env.numbers →
      Option (Option (Numeric env.numbers))} (h : ∀ a b, op a b ≠ none) (x y : Option Term) :
    arith env op x y ≠ none := by
  unfold arith
  split
  · simp [h]
  · simp

theorem combine_ne {x : Oxsdatatypes} (int dec flt dbl) (a b : Numeric x) :
    Numeric.combine int dec flt dbl a b ≠ none := by
  obtain ⟨r, hr⟩ := Numeric.combine_some int dec flt dbl a b
  rw [hr]
  simp

/-- A word is no less than the smallest, so that only one below it is no word. -/
theorem sub_one_none (x : Float) : sub_i64 (to_i64 x) 1 = none ↔ to_i64 x = -2 ^ 63 := by
  unfold sub_i64
  have hlow := Int64.le_toInt x.toInt64
  have hhigh := Int64.toInt_lt x.toInt64
  rw [ite_eq_right_iff]
  unfold to_i64
  simp only [reduceCtorEq, imp_false, not_and, not_lt]
  omega

/-! ## Computations that stop -/

section Stops

variable {σ α β : Type} {m : Eval σ α} {f : α → Eval σ β} {s : σ}

def Panics (m : Eval σ α) (s : σ) : Prop := m s = .panicked

theorem panics_bind :
    Panics (m >>= f) s ↔ Panics m s ∨ ∃ a s', m s = .done (a, s') ∧ Panics (f a) s' := by
  unfold Panics
  rw [Eval.bind_run]
  cases h : m s with
  | done r =>
    obtain ⟨a, s'⟩ := r
    simp
  | failed e => simp
  | panicked => simp

@[simp]
theorem panics_pure (a : α) : Panics (pure a : Eval σ α) s ↔ False :=
  iff_false_intro fun h => by cases h

@[simp]
theorem panics_lift {o : Option α} : Panics (Eval.lift o : Eval σ α) s ↔ o = none := by
  cases o <;> simp [Panics, Eval.lift]

@[simp]
theorem panics_step (g : σ → α × σ) : Panics (Eval.step g) s ↔ False :=
  iff_false_intro fun h => by cases h

/-- Of two steps that cannot stop the program the second may still. -/
theorem panics_bind_pure {g : α → β} : Panics (m >>= fun a => pure (g a)) s ↔ Panics m s := by
  rw [panics_bind]
  simp

end Stops

/-! ## What an evaluation comes to -/

namespace Env

variable (env) (b : Bindings)

/-- What is evaluated next, after a computation that ends. -/
def after {α β : Type} (m : Run env α) (s : QueryScope env)
    (k : α → QueryScope env → List β) : List β :=
  match m s with
  | .done (a, s) => k a s
  | _ => []

/-- The expression, and what is evaluated after it. -/
def then_ (e : Expr Func Pattern) (s : QueryScope env)
    (k : Evaluation → QueryScope env → List (Expr Func Pattern × QueryScope env)) :
    List (Expr Func Pattern × QueryScope env) :=
  (e, s) :: env.after (env.evaluate b e) s k

/-- An argument that is asked for, and what is evaluated after it. -/
def ask (args : List (Expr Func Pattern)) (i : Nat) (s : QueryScope env)
    (k : Option Term → QueryScope env → List (Expr Func Pattern × QueryScope env)) :
    List (Expr Func Pattern × QueryScope env) :=
  match args[i]? with
  | none => k none s
  | some e => env.then_ b e s fun x s => k x.term s

/-- The members of a list that are compared. -/
def in_steps (x : Term) : List (Expr Func Pattern) → QueryScope env →
    List (Expr Func Pattern × QueryScope env)
  | [], _ => []
  | item :: list, s =>
    env.then_ b item s fun y s => if y.term.any (in_equal x) then [] else in_steps x list s

def coalesce_steps : List (Expr Func Pattern) → QueryScope env →
    List (Expr Func Pattern × QueryScope env)
  | [], _ => []
  | a :: args, s =>
    env.then_ b a s fun x s => if x.term.isSome then [] else coalesce_steps args s

def concat_steps (args : List (Expr Func Pattern)) : List Nat → QueryScope env →
    List (Expr Func Pattern × QueryScope env)
  | [], _ => []
  | i :: rest, s =>
    env.ask b args i s fun t s => if (t.bind str_kind).isSome then concat_steps args rest s else []

/-- The arguments that a call evaluates, each with the scope it is evaluated in. -/
def asked (f : Func) (args : List (Expr Func Pattern)) (s : QueryScope env) :
    List (Expr Func Pattern × QueryScope env) :=
  match f with
  | .Rand | .Uuid | .StrUuid | .Now => []
  | .LangMatches | .StrStarts | .StrEnds | .Contains | .StrBefore | .StrAfter =>
    env.ask b args 0 s fun _ s => env.ask b args 1 s fun _ _ => []
  | .SubStr =>
    env.ask b args 0 s fun source s => env.ask b args 1 s fun start s =>
      if (source.bind str_kind).isSome ∧ (start.bind numeric_value).isSome ∧ args.length = 3 then
        env.ask b args 2 s fun _ _ => []
      else []
  | .Concat => env.concat_steps b args (List.range args.length) s
  | .Replace =>
    env.ask b args 0 s fun source s => env.ask b args 1 s fun pat s =>
      env.ask b args 2 s fun repl s =>
        if (source.bind str_kind).isSome ∧ pat.isSome ∧ repl.isSome ∧ args.length = 4 then
          env.ask b args 3 s fun _ _ => []
        else []
  | .Regex =>
    env.ask b args 0 s fun text s => env.ask b args 1 s fun pat s =>
      if text.isSome ∧ pat.isSome ∧ args.length = 3 then env.ask b args 2 s fun _ _ => [] else []
  | .BNode => if args.length = 0 then [] else env.ask b args 0 s fun _ _ => []
  | .StrDt | .StrLang =>
    env.ask b args 0 s fun t s =>
      if t.bind str_kind = some .Simple then env.ask b args 1 s fun _ _ => [] else []
  | .Cast =>
    env.ask b args 0 s fun t s =>
      match t with
      | some (.Iri _) => env.ask b args 1 s fun _ _ => []
      | _ => []
  | _ => env.ask b args 0 s fun _ _ => []

/-- The parts of an expression that its evaluation evaluates, each with the scope it is evaluated
in. -/
def steps (e : Expr Func Pattern) (s : QueryScope env) :
    List (Expr Func Pattern × QueryScope env) :=
  match e with
  | .Term _ | .Bound _ | .Exists _ => []
  | .Eq a c | .SameTerm a c | .Ne a c | .Lt a c | .Gt a c | .Le a c | .Ge a c
  | .Add a c | .Sub a c | .Mul a c | .Div a c =>
    env.then_ b a s fun _ s => env.then_ b c s fun _ _ => []
  | .And a c =>
    env.then_ b a s fun x s => if x.test then env.then_ b c s fun _ _ => [] else []
  | .Or a c =>
    env.then_ b a s fun x s => if x.test then [] else env.then_ b c s fun _ _ => []
  | .Not a | .Neg a => env.then_ b a s fun _ _ => []
  | .In a list =>
    env.then_ b a s fun x s =>
      match x.term with
      | none => []
      | some x => env.in_steps b x list s
  | .If c t f =>
    env.then_ b c s fun c s =>
      match c.term.map ebv with
      | some true => env.then_ b t s fun _ _ => []
      | some false => env.then_ b f s fun _ _ => []
      | none => []
  | .Coalesce args => env.coalesce_steps b args s
  | .Func f args => env.asked b f args s

/-- What the evaluation comes to, part after part. -/
def Reaches (p p' : Expr Func Pattern × QueryScope env) : Prop :=
  Relation.ReflTransGen (fun p p' => p' ∈ env.steps b p.1 p.2) p p'

/-- A time zone of a torn instant, a substring that starts at the smallest word, or an EXISTS whose
pattern stops the program. -/
def Faulty (e : Expr Func Pattern) (s : QueryScope env) : Prop :=
  match e with
  | .Func .Tz args | .Func .Timezone args =>
    ∃ t s', env.nth_arg b args 0 s = .done (some t, s') ∧ Torn t
  | .Func .SubStr args =>
    ∃ source s₁ start s₂ x, env.nth_arg b args 0 s = .done (some source, s₁) ∧
      env.nth_arg b args 1 s₁ = .done (some start, s₂) ∧ (str_kind source).isSome ∧
      numeric_value start = some x ∧ to_i64 x.round = -2 ^ 63
  | .Exists p => env.exists_pattern p b = .panicked
  | _ => False

/-! ## One step -/

section Step

variable {env b} {α β : Type} {s : QueryScope env}

/-- One of the evaluations stops the program. -/
def Fails (env : Env Pattern) (b : Bindings)
    (l : List (Expr Func Pattern × QueryScope env)) : Prop :=
  ∃ p ∈ l, Panics (env.evaluate b p.1) p.2

@[simp]
theorem fails_nil : Fails env b [] ↔ False := by simp [Fails]

@[simp]
theorem fails_ite (c : Prop) [Decidable c] (l l' : List (Expr Func Pattern × QueryScope env)) :
    Fails env b (if c then l else l') ↔ if c then Fails env b l else Fails env b l' := by
  split <;> rfl

/-- An evaluation, and what is done with its value. -/
theorem panics_then {k : Evaluation → Run env β} {L : Evaluation → QueryScope env → Prop}
    {R : Evaluation → QueryScope env → List (Expr Func Pattern × QueryScope env)}
    (hk : ∀ x s', Panics (k x) s' ↔ L x s' ∨ Fails env b (R x s')) (e : Expr Func Pattern) :
    Panics (env.evaluate b e >>= k) s ↔
      (∃ x s', env.evaluate b e s = .done (x, s') ∧ L x s') ∨ Fails env b (env.then_ b e s R) := by
  rw [panics_bind]
  unfold Fails then_ after
  cases h : env.evaluate b e s with
  | done r =>
    obtain ⟨x, s'⟩ := r
    have hnext := hk x s'
    simp only [Panics, Fails] at hnext
    simp [Panics, h, hnext]
  | failed e => simp [Panics, h]
  | panicked => simp [Panics, h]

theorem bind_pure_bind {m : Run env α} {g : α → β} {γ : Type} {k : β → Run env γ} :
    (m >>= fun a => pure (g a)) >>= k = m >>= fun a => k (g a) := by
  funext s
  rw [Eval.bind_run, Eval.bind_run, Eval.bind_run]
  cases m s <;> rfl

theorem nth_arg_eq (args : List (Expr Func Pattern)) (i : Nat) :
    env.nth_arg b args i =
      match args[i]? with
      | none => pure none
      | some e => env.evaluate b e >>= fun x => pure x.term := by
  induction args generalizing i with
  | nil => rfl
  | cons a args ih =>
    cases i with
    | zero => rfl
    | succ i =>
      rw [nth_arg, ih]
      rfl

/-- An argument that is asked for, and what is done with its value. -/
theorem panics_ask {k : Option Term → Run env β} {L : Option Term → QueryScope env → Prop}
    {R : Option Term → QueryScope env → List (Expr Func Pattern × QueryScope env)}
    (hk : ∀ t s', Panics (k t) s' ↔ L t s' ∨ Fails env b (R t s'))
    (args : List (Expr Func Pattern)) (i : Nat) :
    Panics (env.nth_arg b args i >>= k) s ↔
      (∃ t s', env.nth_arg b args i s = .done (t, s') ∧ L t s') ∨
        Fails env b (env.ask b args i s R) := by
  rw [nth_arg_eq, ask]
  cases args[i]? with
  | none =>
    refine (hk none s).trans (or_congr_left ⟨fun h => ⟨none, s, rfl, h⟩, ?_⟩)
    rintro ⟨t, s', heq, h⟩
    cases heq
    exact h
  | some e =>
    dsimp only
    rw [bind_pure_bind, panics_then fun x s' => hk x.term s']
    refine or_congr_left ⟨?_, ?_⟩
    · rintro ⟨x, s', hx, h⟩
      refine ⟨x.term, s', ?_, h⟩
      rw [Eval.bind_run, hx]
      rfl
    · rintro ⟨t, s', ht, h⟩
      rw [Eval.bind_run] at ht
      cases hx : env.evaluate b e s with
      | done r =>
        rw [hx] at ht
        cases ht
        exact ⟨r.1, r.2, rfl, h⟩
      | failed e =>
        rw [hx] at ht
        cases ht
      | panicked =>
        rw [hx] at ht
        cases ht

/-- Nothing is done with the value that could stop the program on its own. -/
theorem panics_then_plain {k : Evaluation → Run env β}
    {R : Evaluation → QueryScope env → List (Expr Func Pattern × QueryScope env)}
    (hk : ∀ x s', Panics (k x) s' ↔ Fails env b (R x s')) (e : Expr Func Pattern) :
    Panics (env.evaluate b e >>= k) s ↔ Fails env b (env.then_ b e s R) := by
  have hplain (x : Evaluation) (s' : QueryScope env) :
      Panics (k x) s' ↔ False ∨ Fails env b (R x s') := by rw [hk, false_or]
  rw [panics_then hplain]
  simp

theorem panics_ask_plain {k : Option Term → Run env β}
    {R : Option Term → QueryScope env → List (Expr Func Pattern × QueryScope env)}
    (hk : ∀ t s', Panics (k t) s' ↔ Fails env b (R t s')) (args : List (Expr Func Pattern))
    (i : Nat) :
    Panics (env.nth_arg b args i >>= k) s ↔ Fails env b (env.ask b args i s R) := by
  have hplain (t : Option Term) (s' : QueryScope env) :
      Panics (k t) s' ↔ False ∨ Fails env b (R t s') := by rw [hk, false_or]
  rw [panics_ask hplain]
  simp

/-! ### Calls -/

variable (args : List (Expr Func Pattern))

theorem panics_unary (g : Term → Option (Option Term)) :
    Panics (unary (env.nth_arg b args) g) s ↔
      (∃ t s', env.nth_arg b args 0 s = .done (some t, s') ∧ g t = none) ∨
        Fails env b (env.ask b args 0 s fun _ _ => []) := by
  unfold unary
  rw [panics_ask (L := fun t _ => ∃ t', t = some t' ∧ g t' = none) fun t s' => ?_]
  · refine or_congr_left ⟨?_, ?_⟩
    · rintro ⟨t, s', ht, t', rfl, hg⟩
      exact ⟨t', s', ht, hg⟩
    · rintro ⟨t, s', ht, hg⟩
      exact ⟨some t, s', ht, t, rfl, hg⟩
  · cases t <;> simp

/-- A function that ends for every term. -/
theorem panics_unary_plain {g : Term → Option (Option Term)} (hg : ∀ t, g t ≠ none) :
    Panics (unary (env.nth_arg b args) g) s ↔
      Fails env b (env.ask b args 0 s fun _ _ => []) := by
  rw [panics_unary]
  simp [hg]

theorem panics_binary_plain {g : Term → Term → Option (Option Term)} (hg : ∀ t u, g t u ≠ none) :
    Panics (binary (env.nth_arg b args) g) s ↔
      Fails env b (env.ask b args 0 s fun _ s => env.ask b args 1 s fun _ _ => []) := by
  unfold binary
  refine panics_ask_plain (fun t s' => panics_ask_plain (fun u s'' => ?_) args 1) args 0
  cases t <;> cases u <;> simp [hg]

theorem panics_flags {k : Option (List Char) → Run env β} (hk : ∀ flags s', ¬Panics (k flags) s')
    (given : Bool) (i : Nat) :
    Panics (flags_arg (env.nth_arg b args) given i >>= k) s ↔
      Fails env b (if given then env.ask b args i s fun _ _ => [] else []) := by
  unfold flags_arg
  cases given with
  | true =>
    rw [if_pos rfl, if_pos rfl, bind_pure_bind]
    exact panics_ask_plain (fun t s' => by simp [hk]) args i
  | false =>
    rw [if_neg Bool.false_ne_true, if_neg Bool.false_ne_true, fails_nil]
    exact iff_false_intro (hk _ s)

/-- With the source and the start at hand, what is left may panic for the start or the length. -/
theorem panics_sub_str_cut (source start : Option Term) (s₂ : QueryScope env) :
    Panics (match source, start.bind numeric_value with
      | some source, some start =>
        match str_kind source with
        | none => pure none
        | some kind => do
          let start ← Eval.lift (sub_i64 (to_i64 start.round) 1)
          let taken := (value source).drop (max start 0).toNat
          if args.length = 2 then pure (some (literal_with_kind taken kind))
          else if args.length = 3 then do
            let len ← env.nth_arg b args 2
            match len.bind numeric_value with
            | some l =>
              pure (some (literal_with_kind (taken.take (to_usize (max_zero l.round))) kind))
            | none => pure none
          else pure none
      | _, _ => pure none : Run env (Option Term)) s₂ ↔
    (∃ t u x, source = some t ∧ start = some u ∧ (str_kind t).isSome ∧
      numeric_value u = some x ∧ to_i64 x.round = -2 ^ 63) ∨
      Fails env b (if (source.bind str_kind).isSome ∧ (start.bind numeric_value).isSome ∧
        args.length = 3 then env.ask b args 2 s₂ fun _ _ => [] else []) := by
  cases source with
  | none => simp
  | some t =>
    cases start with
    | none => simp
    | some u =>
      cases hnum : numeric_value u with
      | none => simp [hnum]
      | some x =>
        cases hkind : str_kind t with
        | none => simp [hnum, hkind]
        | some kind =>
          simp only [Option.bind_some, hnum, hkind]
          rw [panics_bind, panics_lift, sub_one_none]
          have hrest (start : Int) (s' : QueryScope env) :
              Panics (if args.length = 2 then
                  pure (some (literal_with_kind ((value t).drop (max start 0).toNat) kind))
                else if args.length = 3 then do
                  let len ← env.nth_arg b args 2
                  match len.bind numeric_value with
                  | some l => pure (some (literal_with_kind (((value t).drop
                      (max start 0).toNat).take (to_usize (max_zero l.round))) kind))
                  | none => pure none
                else pure none : Run env (Option Term)) s' ↔
              Fails env b (if args.length = 3 then env.ask b args 2 s' fun _ _ => [] else []) := by
            by_cases htwo : args.length = 2
            · rw [if_pos htwo, if_neg (by omega)]
              simp
            · rw [if_neg htwo]
              split
              · refine panics_ask_plain (fun len s'' => ?_) args 2
                cases len.bind numeric_value <;> simp
              · simp
          cases hsub : sub_i64 (to_i64 x.round) 1 with
          | none =>
            have hmin := (sub_one_none x.round).mp hsub
            simp [Eval.lift, hkind, hnum, hmin]
          | some start =>
            have hmin : ¬to_i64 x.round = -2 ^ 63 := fun h => by
              rw [(sub_one_none x.round).mpr h] at hsub
              cases hsub
            have hlift : (Eval.lift (some start) : Run env Int) s₂ = .done (start, s₂) := rfl
            rw [hlift]
            simp only [hmin, Outcome.done.injEq, Prod.mk.injEq, false_or]
            simp [hrest, hkind, hnum]
            intro h
            exact absurd (h.trans (by norm_num)) hmin

theorem panics_sub_str :
    Panics (sub_str args.length (env.nth_arg b args)) s ↔
      env.Faulty b (.Func .SubStr args) s ∨ Fails env b (env.asked b .SubStr args s) := by
  unfold sub_str asked Faulty
  refine (panics_ask (fun source _ => panics_ask (panics_sub_str_cut args source) args 1) args 0).trans
    (or_congr_left ⟨?_, ?_⟩)
  · rintro ⟨source, s₁, hsource, start, s₂, hstart, t, u, x, rfl, rfl, hkind, hnum, hmin⟩
    exact ⟨t, s₁, u, s₂, x, hsource, hstart, hkind, hnum, hmin⟩
  · rintro ⟨t, s₁, u, s₂, x, hsource, hstart, hkind, hnum, hmin⟩
    exact ⟨some t, s₁, hsource, some u, s₂, hstart, t, u, x, rfl, rfl, hkind, hnum, hmin⟩

/-- The arguments in a row are asked for up to the first that is no string. -/
theorem panics_concat_args (is : List Nat) (out : List Char) (kinds : List StrKind) :
    Panics (concat_args (env.nth_arg b args) is out kinds) s ↔
      Fails env b (env.concat_steps b args is s) := by
  induction is generalizing out kinds s with
  | nil =>
    rw [concat_steps, fails_nil]
    exact panics_pure _
  | cons i is ih =>
    rw [concat_args, concat_steps]
    refine panics_ask_plain (fun t s' => ?_) args i
    cases t with
    | none => simp
    | some t =>
      cases hkind : str_kind t with
      | none => simp [hkind]
      | some kind => simp [hkind, ih]

theorem panics_concat :
    Panics (concat args.length (env.nth_arg b args)) s ↔
      Fails env b (env.asked b .Concat args s) := by
  unfold concat
  rw [panics_bind, panics_concat_args]
  simp only [asked, or_iff_left_iff_imp]
  rintro ⟨r, s', -, h⟩
  cases r with
  | none => cases (panics_pure _).mp h
  | some r => cases (panics_pure _).mp h

theorem panics_replace :
    Panics (replace args.length (env.nth_arg b args)) s ↔
      Fails env b (env.asked b .Replace args s) := by
  unfold replace asked
  refine panics_ask_plain (fun source s₁ => panics_ask_plain (fun pat s₂ =>
    panics_ask_plain (fun repl s₃ => ?_) args 2) args 1) args 0
  cases source with
  | none => simp
  | some source =>
    cases pat with
    | none => simp
    | some pat =>
      cases repl with
      | none => simp
      | some repl =>
        cases hkind : str_kind source with
        | none => simp [hkind]
        | some kind =>
          dsimp only
          rw [hkind]
          dsimp only
          rw [panics_flags]
          · simp [hkind]
          · intro flags s'
            cases flags <;> simp

theorem panics_regex :
    Panics (regex args.length (env.nth_arg b args)) s ↔
      Fails env b (env.asked b .Regex args s) := by
  unfold regex asked
  refine panics_ask_plain (fun text s₁ => panics_ask_plain (fun pat s₂ => ?_) args 1) args 0
  cases text with
  | none => simp
  | some text =>
    cases pat with
    | none => simp
    | some pat =>
      dsimp only
      rw [panics_flags]
      · simp
      · intro flags s'
        cases flags <;> simp

theorem panics_bnode_call :
    Panics (bnode_call args.length (env.nth_arg b args) b) s ↔
      Fails env b (env.asked b .BNode args s) := by
  unfold bnode_call
  simp only [asked, fails_ite, fails_nil]
  split
  · simp [panics_bind_pure]
  · refine panics_ask_plain (fun t s' => ?_) args 0
    cases t with
    | none => simp
    | some t =>
      dsimp only
      split
      · simp [panics_bind_pure]
      · simp

theorem panics_tagged (g : List Char → Term → Option Term) :
    Panics (tagged (env.nth_arg b args) g) s ↔ Fails env b (env.asked b .StrDt args s) := by
  unfold tagged asked
  refine panics_ask_plain (fun t s' => ?_) args 0
  cases hkind : t.bind str_kind with
  | none => simp
  | some kind =>
    cases kind with
    | Simple =>
      rw [if_pos rfl]
      exact panics_ask_plain (fun tag s'' => by simp) args 1
    | _ => simp

theorem panics_cast_call :
    Panics (cast_call (env.nth_arg b args)) s ↔ Fails env b (env.asked b .Cast args s) := by
  unfold cast_call asked
  refine panics_ask_plain (fun t s' => ?_) args 0
  split
  · exact panics_ask_plain (fun src s'' => by simp) args 1
  · cases t with
    | none => simp
    | some t => cases t <;> simp_all

theorem not_panics_uuid : ¬Panics (uuid_text : Run env (List Char)) s := by
  unfold uuid_text
  rw [panics_bind]
  rintro (h | ⟨v, s', -, h⟩)
  · exact (panics_step _).mp h
  · exact uuid_v4_some v (panics_lift.mp h)

theorem panics_tz {g : Term → Option (Option Term)} (hg : ∀ t, g t = none ↔ Torn t) :
    Panics (unary (env.nth_arg b args) g) s ↔
      (∃ t s', env.nth_arg b args 0 s = .done (some t, s') ∧ Torn t) ∨
        Fails env b (env.ask b args 0 s fun _ _ => []) := by
  rw [panics_unary]
  simp only [hg]

theorem never_faulty {p q : Prop} (h : p ↔ q) : p ↔ False ∨ q := h.trans (iff_of_eq (false_or q).symm)

/-- A call stops the program when it is faulty, or when one of its arguments does. -/
theorem panics_eval_func (f : Func) :
    Panics (eval_func args.length (env.nth_arg b args) f b) s ↔
      env.Faulty b (.Func f args) s ∨ Fails env b (env.asked b f args s) := by
  cases f with
  | SubStr => exact panics_sub_str args
  | Tz => exact panics_tz args fun t => tz_none
  | Timezone => exact panics_tz args fun t => timezone_none
  | Concat => exact never_faulty (panics_concat args)
  | Replace => exact never_faulty (panics_replace args)
  | Regex => exact never_faulty (panics_regex args)
  | BNode => exact never_faulty (panics_bnode_call args)
  | StrDt => exact never_faulty (panics_tagged args str_dt)
  | StrLang => exact never_faulty (panics_tagged args str_lang)
  | Cast => exact never_faulty (panics_cast_call args)
  | LangMatches | StrStarts | StrEnds | Contains =>
    exact never_faulty (panics_binary_plain args fun t u => by simp)
  | StrBefore =>
    exact never_faulty (panics_binary_plain args fun t u => str_before_after_some t u true)
  | StrAfter =>
    exact never_faulty (panics_binary_plain args fun t u => str_before_after_some t u false)
  | Year | Month | Day | Hours | Minutes =>
    exact never_faulty (panics_unary_plain args
      (accessor_some (by decide) (by decide) (by decide)))
  | Seconds => exact never_faulty (panics_unary_plain args seconds_some)
  | Rand =>
    change Panics (Eval.step QueryScope.random >>= fun x => pure _) s ↔ False ∨ Fails env b []
    rw [panics_bind_pure]
    simp
  | Now =>
    change Panics (Eval.step QueryScope.get_now >>= fun t => pure _) s ↔ False ∨ Fails env b []
    rw [panics_bind_pure]
    simp
  | Uuid | StrUuid =>
    change Panics (uuid_text >>= fun text => pure _) s ↔ False ∨ Fails env b []
    rw [panics_bind_pure]
    simp [not_panics_uuid]
  | Str | Lang | Datatype | StrLen | UCase | LCase | Abs | Ceil | Floor | Round | IsIri | IsBlank
  | IsLiteral | IsNumeric | Md5 | Sha1 | Sha256 | Sha384 | Sha512 | Iri | EncodeForUri =>
    exact never_faulty (panics_unary_plain args fun t => by simp [str_op, numeric_op, hash])

/-! ### Expressions -/

theorem panics_both {k : Evaluation → Evaluation → Run env β} (hk : ∀ x y s', ¬Panics (k x y) s')
    (x y : Expr Func Pattern) :
    Panics (env.evaluate b x >>= fun x => env.evaluate b y >>= k x) s ↔
      Fails env b (env.then_ b x s fun _ s => env.then_ b y s fun _ _ => []) :=
  panics_then_plain (fun x s' => panics_then_plain (fun y s'' => by simp [hk]) y) x

theorem panics_in_list (x : Term) (list : List (Expr Func Pattern)) :
    Panics (env.in_list b x list) s ↔ Fails env b (env.in_steps b x list s) := by
  induction list generalizing s with
  | nil =>
    rw [in_list, in_steps, fails_nil]
    exact panics_pure _
  | cons item list ih =>
    rw [in_list, in_steps]
    refine panics_then_plain (fun y s' => ?_) item
    split
    · simp
    · exact ih

theorem panics_coalesce :
    Panics (env.coalesce b args) s ↔ Fails env b (env.coalesce_steps b args s) := by
  induction args generalizing s with
  | nil =>
    rw [coalesce, coalesce_steps, fails_nil]
    exact panics_pure _
  | cons a args ih =>
    rw [coalesce, coalesce_steps]
    refine panics_then_plain (fun x s' => ?_) a
    cases x.term with
    | none => exact ih
    | some t => simp

/-- An evaluation stops the program when the expression is faulty, or when one of its parts
does. -/
theorem panics_evaluate (e : Expr Func Pattern) :
    Panics (env.evaluate b e) s ↔ env.Faulty b e s ∨ Fails env b (env.steps b e s) := by
  cases e with
  | Term t => cases t <;> simp [evaluate, steps, Faulty]
  | Bound v => simp [evaluate, steps, Faulty]
  | Exists p =>
    rw [evaluate, panics_bind_pure]
    simp only [steps, fails_nil, or_false, Faulty, Panics, exists_call]
    cases env.exists_pattern p b <;> simp
  | Eq a c | SameTerm a c | Ne a c | Lt a c | Gt a c | Le a c | Ge a c =>
    rw [evaluate]
    exact never_faulty (panics_both (fun x y s' => by simp) a c)
  | Add a c | Sub a c | Mul a c | Div a c =>
    rw [evaluate]
    refine never_faulty (panics_both (fun x y s' => ?_) a c)
    rw [panics_bind_pure, panics_lift]
    exact arith_some (combine_ne _ _ _ _) x.term y.term
  | And a c =>
    rw [evaluate]
    refine never_faulty (panics_then_plain (fun x s' => ?_) a)
    split
    · exact panics_then_plain (fun y s'' => by simp) c
    · simp
  | Or a c =>
    rw [evaluate]
    refine never_faulty (panics_then_plain (fun x s' => ?_) a)
    split
    · simp
    · exact panics_then_plain (fun y s'' => by simp) c
  | Not a | Neg a =>
    rw [evaluate]
    exact never_faulty (panics_then_plain (fun x s' => by simp) a)
  | In a list =>
    rw [evaluate]
    refine never_faulty (panics_then_plain (fun x s' => ?_) a)
    cases x.term with
    | none => simp
    | some t =>
      dsimp only
      rw [panics_bind_pure]
      exact panics_in_list t list
  | If c t f =>
    rw [evaluate]
    refine never_faulty (panics_then_plain (fun x s' => ?_) c)
    cases x.term.map ebv with
    | none => simp
    | some v =>
      cases v with
      | true => exact panics_then_plain (fun y s'' => by simp) t
      | false => exact panics_then_plain (fun y s'' => by simp) f
  | Coalesce args =>
    rw [evaluate, panics_bind_pure]
    exact never_faulty (panics_coalesce args)
  | Func f args =>
    rw [evaluate, panics_bind_pure]
    exact panics_eval_func args f

/-! ## Evaluations -/

variable {p : Expr Func Pattern × QueryScope env}

theorem mem_then {e : Expr Func Pattern}
    {R : Evaluation → QueryScope env → List (Expr Func Pattern × QueryScope env)}
    (h : p ∈ env.then_ b e s R) : p.1 = e ∨ ∃ x s', p ∈ R x s' := by
  unfold then_ after at h
  rcases List.mem_cons.mp h with rfl | h
  · exact Or.inl rfl
  · split at h
    · exact Or.inr ⟨_, _, h⟩
    · cases h

theorem mem_ask {args : List (Expr Func Pattern)} {i : Nat}
    {R : Option Term → QueryScope env → List (Expr Func Pattern × QueryScope env)}
    (h : p ∈ env.ask b args i s R) : p.1 ∈ args ∨ ∃ t s', p ∈ R t s' := by
  unfold ask at h
  split at h
  · exact Or.inr ⟨_, _, h⟩
  · rename_i e he
    rcases mem_then h with rfl | ⟨x, s', h⟩
    · exact Or.inl (List.mem_of_getElem? he)
    · exact Or.inr ⟨_, _, h⟩

theorem mem_ask_last {args : List (Expr Func Pattern)} {i : Nat}
    (h : p ∈ env.ask b args i s fun _ _ => []) : p.1 ∈ args := by
  rcases mem_ask h with h | ⟨t, s', h⟩
  · exact h
  · cases h

theorem mem_concat_steps {args : List (Expr Func Pattern)} {is : List Nat}
    (h : p ∈ env.concat_steps b args is s) : p.1 ∈ args := by
  induction is generalizing s with
  | nil => cases h
  | cons i is ih =>
    rcases mem_ask h with h | ⟨t, s', h⟩
    · exact h
    · split at h
      · exact ih h
      · cases h

/-- Only arguments are asked for. -/
theorem mem_asked {f : Func} {args : List (Expr Func Pattern)} (h : p ∈ env.asked b f args s) :
    p.1 ∈ args := by
  unfold asked at h
  cases f with
  | Rand | Uuid | StrUuid | Now => cases h
  | LangMatches | StrStarts | StrEnds | Contains | StrBefore | StrAfter =>
    rcases mem_ask h with h | ⟨t, s', h⟩
    · exact h
    · exact mem_ask_last h
  | SubStr | Regex =>
    rcases mem_ask h with h | ⟨t, s', h⟩
    · exact h
    · rcases mem_ask h with h | ⟨u, s'', h⟩
      · exact h
      · split at h
        · exact mem_ask_last h
        · cases h
  | Concat => exact mem_concat_steps h
  | Replace =>
    rcases mem_ask h with h | ⟨t, s', h⟩
    · exact h
    · rcases mem_ask h with h | ⟨u, s'', h⟩
      · exact h
      · rcases mem_ask h with h | ⟨v, s''', h⟩
        · exact h
        · split at h
          · exact mem_ask_last h
          · cases h
  | BNode =>
    change p ∈ (if args.length = 0 then [] else env.ask b args 0 s fun _ _ => []) at h
    split at h
    · cases h
    · exact mem_ask_last h
  | StrDt | StrLang | Cast =>
    rcases mem_ask h with h | ⟨t, s', h⟩
    · exact h
    · split at h
      · exact mem_ask_last h
      · cases h
  | _ => exact mem_ask_last h

theorem mem_in_steps {x : Term} {list : List (Expr Func Pattern)}
    (h : p ∈ env.in_steps b x list s) : p.1 ∈ list := by
  induction list generalizing s with
  | nil => cases h
  | cons item list ih =>
    rcases mem_then h with h | ⟨y, s', h⟩
    · rw [h]
      exact List.mem_cons_self
    · split at h
      · cases h
      · exact List.mem_cons_of_mem _ (ih h)

theorem mem_coalesce_steps {args : List (Expr Func Pattern)} (h : p ∈ env.coalesce_steps b args s) :
    p.1 ∈ args := by
  induction args generalizing s with
  | nil => cases h
  | cons a args ih =>
    rcases mem_then h with h | ⟨x, s', h⟩
    · rw [h]
      exact List.mem_cons_self
    · split at h
      · cases h
      · exact List.mem_cons_of_mem _ (ih h)

/-- The parts are smaller. -/
theorem steps_lt {e : Expr Func Pattern} (h : p ∈ env.steps b e s) : sizeOf p.1 < sizeOf e := by
  have hargs {l : List (Expr Func Pattern)} (h : p.1 ∈ l) : sizeOf p.1 < sizeOf l :=
    List.sizeOf_lt_of_mem h
  have hlast {e : Expr Func Pattern} {s : QueryScope env}
      (h : p ∈ env.then_ b e s fun _ _ => []) : p.1 = e := by
    rcases mem_then h with h | ⟨x, s', h⟩
    · exact h
    · cases h
  cases e with
  | Term t | Bound v | Exists q => cases h
  | Eq a c | SameTerm a c | Ne a c | Lt a c | Gt a c | Le a c | Ge a c
  | Add a c | Sub a c | Mul a c | Div a c =>
    rcases mem_then h with h | ⟨x, s', h⟩
    · rw [h]
      simp
      omega
    · rw [hlast h]
      simp
  | And a c =>
    rcases mem_then h with h | ⟨x, s', h⟩
    · rw [h]
      simp
      omega
    · split at h
      · rw [hlast h]
        simp
      · cases h
  | Or a c =>
    rcases mem_then h with h | ⟨x, s', h⟩
    · rw [h]
      simp
      omega
    · split at h
      · cases h
      · rw [hlast h]
        simp
  | Not a | Neg a =>
    rw [hlast h]
    simp
  | In a list =>
    rcases mem_then h with h | ⟨x, s', h⟩
    · rw [h]
      simp
      omega
    · split at h
      · cases h
      · have hlt := hargs (mem_in_steps h)
        simp
        omega
  | If c t f =>
    rcases mem_then h with h | ⟨x, s', h⟩
    · rw [h]
      simp
      omega
    · split at h
      · rw [hlast h]
        simp
        omega
      · rw [hlast h]
        simp
      · cases h
  | Coalesce args =>
    have hlt := hargs (mem_coalesce_steps h)
    simp
    omega
  | Func f args =>
    have hlt := hargs (mem_asked h)
    simp
    omega

/-- An evaluation stops the program exactly when it comes to a faulty expression. -/
theorem panics_iff (e : Expr Func Pattern) (s : QueryScope env) :
    Panics (env.evaluate b e) s ↔
      ∃ p, env.Reaches b (e, s) p ∧ env.Faulty b p.1 p.2 := by
  constructor
  · intro h
    induction hn : sizeOf e using Nat.strong_induction_on generalizing e s with
    | _ n ih =>
      rcases (panics_evaluate e).mp h with hfaulty | ⟨p, hp, hpanics⟩
      · exact ⟨(e, s), .refl, hfaulty⟩
      · obtain ⟨p', hreaches, hfaulty⟩ :=
          ih (sizeOf p.1) (hn ▸ steps_lt hp) p.1 p.2 hpanics rfl
        exact ⟨p', .head hp hreaches, hfaulty⟩
  · rintro ⟨p, hreaches, hfaulty⟩
    have hrun (q : Expr Func Pattern × QueryScope env) (h : env.Reaches b q p) :
        Panics (env.evaluate b q.1) q.2 := by
      induction h using Relation.ReflTransGen.head_induction_on with
      | refl => exact (panics_evaluate p.1).mpr (Or.inl hfaulty)
      | head hstep _ ih => exact (panics_evaluate _).mpr (Or.inr ⟨_, hstep, ih⟩)
    exact hrun (e, s) hreaches

end Step

end Env

/-! ## Every expression -/

/-- The look at single bytes gives what the look at a text gives. -/
theorem is_instant_eq (s : String) : is_instant s.toList = some (datetime_key s).isSome := by
  have hbytes : s.toList.flatMap String.utf8EncodeChar = encode s.toList := rfl
  have hiff (p : Prop) [Decidable p] : (if p then some s else none).isSome = decide p := by
    split <;> simp_all
  have hbyte {b c : UInt8} : b = c ↔ b.toNat = c.toNat := UInt8.toNat_inj.symm
  unfold is_instant datetime_key
  rw [hbytes]
  generalize encode s.toList = bytes
  dsimp only
  rw [List.length_map]
  by_cases hlen : bytes.length < 19
  · rw [if_pos hlen, if_pos hlen]
    rfl
  rw [if_neg hlen, if_neg hlen, hiff]
  have hget (i : Nat) (hi : i < 19) :
      ∃ b, bytes[i]? = some b ∧ (bytes.map UInt8.toNat).getD i 0 = b.toNat := by
    refine ⟨bytes[i], List.getElem?_eq_getElem _, ?_⟩
    rw [List.getD_eq_getElem?_getD, List.getElem?_map, List.getElem?_eq_getElem]
    rfl
  obtain ⟨b4, h4, e4⟩ := hget 4 (by decide)
  obtain ⟨b7, h7, e7⟩ := hget 7 (by decide)
  obtain ⟨b10, h10, e10⟩ := hget 10 (by decide)
  obtain ⟨b13, h13, e13⟩ := hget 13 (by decide)
  obtain ⟨b16, h16, e16⟩ := hget 16 (by decide)
  rw [h4, h7, h10, h13, h16, e4, e7, e10, e13, e16]
  match bytes, hlen with
  | c0 :: c1 :: c2 :: c3 :: rest, _ =>
    simp only [Option.bind_eq_bind, Option.bind_some, Option.some.injEq, decide_eq_decide, hbyte,
      UInt8.le_iff_toNat_le, List.take_succ_cons, List.take_zero, List.all_cons, List.all_nil]
    simp
  | [], h => simp at h
  | [_], h => simp at h
  | [_, _], h => simp at h
  | [_, _, _], h => simp at h

/-- The loops over the bytes of a literal end without a cut through a character, and an evaluation
stops the program exactly when it comes to the time zone of a torn instant, to a substring that
starts at the smallest word, or to an EXISTS whose pattern stops the program. -/
theorem evaluation_panics_iff (env : Env Pattern) (b : Bindings) :
    (∀ raw, literal_lexical_bytes raw = some (literal_lexical raw)) ∧
    (∀ raw, literal_parts_bytes raw = some (literal_parts raw)) ∧
    (∀ s, is_instant s.toList = some (datetime_key s).isSome) ∧
    ∀ (e : Expr Func Pattern) (q : QueryScope env),
      env.evaluate b e q = .panicked ↔
        ∃ p, env.Reaches b (e, q) p ∧ env.Faulty b p.1 p.2 :=
  ⟨literal_lexical_bytes_eq, literal_parts_bytes_eq, is_instant_eq,
    fun e q => Env.panics_iff e q⟩

/-! ## A torn instant -/

/-- `TZ("2024-01-01T00:00:0é"^^xsd:dateTime)`. -/
def torn_instant : Term :=
  literal (typed "2024-01-01T00:00:0é".toList DATE_TIME)

set_option maxRecDepth 4000 in
theorem term_parts_torn : term_parts torn_instant =
    { value := "2024-01-01T00:00:0é".toList, datatype := some DATE_TIME } := by
  unfold torn_instant term_parts literal lex
  rw [String.toList_ofList]
  decide

theorem torn_instant_torn : Torn torn_instant := by
  unfold Torn Instant
  rw [term_parts_torn, boundary_iff]
  decide

/-- A number library that reads no text. -/
def no_numbers : Oxsdatatypes where
  Integer := {
    Value := Empty, from_str _ := none, to_string _ := [], add _ _ := none, sub _ _ := none,
    mul _ _ := none, neg _ := none, abs _ := none }
  Decimal := {
    Value := Unit, from_str _ := none, to_string _ := [], add _ _ := none, sub _ _ := none,
    mul _ _ := none, neg _ := none, abs _ := none, div _ _ := none, ceil _ := none,
    floor _ := none, round _ := none }
  Single := {
    Value := Float, from_str _ := none, to_f64 x := x, add x y := x + y, sub x y := x - y,
    mul x y := x * y, div x y := x / y, neg x := -x, abs := Float.abs, ceil := Float.ceil,
    floor := Float.floor, round := Float.round }
  Double := {
    Value := Float, from_str _ := none, to_f64 x := x, add x y := x + y, sub x y := x - y,
    mul x y := x * y, div x y := x / y, neg x := -x, abs := Float.abs, ceil := Float.ceil,
    floor := Float.floor, round := Float.round }
  integer_decimal v := nomatch v
  integer_single v := nomatch v
  integer_double v := nomatch v
  decimal_single _ := 0
  decimal_double _ := 0
  single_double x := x
  double_of_f64 x := x

def bare_env : Env Empty where
  numbers := no_numbers
  to_uppercase s := s.map Char.toUpper
  to_lowercase s := s.map Char.toLower
  display _ := []
  upper_exp _ := []
  Regex := Empty
  build _ _ := none
  is_match _ _ := false
  replace_all _ s _ := s
  md5 _ := []
  sha1 _ := []
  sha256 _ := []
  sha384 _ := []
  sha512 _ := []
  parse_iri s := some s
  resolve_iri _ s := some s
  World := Unit
  random_f64 w := (0, w)
  random_bytes w := (.replicate 16 0, w)
  clock w := ([], w)
  base := none
  Key := List Char
  key_eq := inferInstance
  key_of _ s := s
  exists_pattern p := nomatch p

/-- The time zone of a torn instant stops the program. -/
theorem tz_of_torn_panics :
    bare_env.evaluate (fun _ => none) (.Func .Tz [.Term torn_instant])
      { now := none, bnodes := [], minted := 0, world := () } = .panicked :=
  (Env.panics_evaluate (.Func .Tz [.Term torn_instant])).mpr
    (Or.inl ⟨torn_instant, _, rfl, torn_instant_torn⟩)

end horndb.sparql.exec.builtins
