-- A plan built from a rule body counts the matches of the body: an intermediate keeps
-- what the later patterns and the head need, and the planner uses every pattern once.
import HornDb.PlanMeaning

open HornDb.Lib.Pairing

namespace horndb.incremental

/-! ## Tables that agree on what is needed -/

theorem bind_slots_congr {N : Nat → Prop} (slots : List (Term × Nat))
    (hslots : ∀ v, slot_vars slots v → N v) {b c : Bindings} (h : ∀ v, N v → b v = c v) :
    (bind_slots slots b = none ∧ bind_slots slots c = none) ∨
      ∃ b' c', bind_slots slots b = some b' ∧ bind_slots slots c = some c' ∧
        ∀ v, N v → b' v = c' v := by
  induction slots generalizing b c with
  | nil => exact Or.inr ⟨b, c, rfl, rfl, h⟩
  | cons e rest ih =>
    obtain ⟨t, val⟩ := e
    have hrest : ∀ v, slot_vars rest v → N v :=
      fun v ⟨n, hn⟩ => hslots v ⟨n, List.mem_cons_of_mem _ hn⟩
    cases t with
    | Bound id =>
      simp only [bind_slots]
      split
      · exact ih hrest h
      · exact Or.inl ⟨rfl, rfl⟩
    | Var v =>
      have hv : b v = c v := h v (hslots v ⟨val, List.mem_cons_self⟩)
      simp only [bind_slots, Bindings.set, hv]
      cases hc : c v with
      | some n =>
        dsimp only
        by_cases hn : n = val
        · rw [if_pos hn, if_pos hn]
          exact ih hrest h
        · rw [if_neg hn, if_neg hn]
          exact Or.inl ⟨rfl, rfl⟩
      | none =>
        dsimp only
        refine ih hrest fun w hw => ?_
        by_cases hwv : w = v
        · subst hwv
          rw [Function.update_self, Function.update_self]
        · rw [Function.update_of_ne hwv, Function.update_of_ne hwv, h w hw]

theorem eval_head_congr {head : TriplePattern} {b c : Bindings}
    (h : ∀ v ∈ vars_in head, b v = c v) : eval_head head b = eval_head head c := by
  have hterm : ∀ t : Term, (t = head.s ∨ t = head.p ∨ t = head.o) →
      eval_term b t = eval_term c t := by
    intro t ht
    cases t with
    | Bound id => rfl
    | Var v => rw [eval_term, eval_term, h v (mem_vars_in.mpr ht)]
  rw [eval_head, eval_head, hterm head.s (Or.inl rfl), hterm head.p (Or.inr (Or.inl rfl)),
    hterm head.o (Or.inr (Or.inr rfl))]

/-- A count reads only the variables of the patterns and of the head. -/
theorem countFrom_congr {E : TripleId →₀ ℤ} {head : TriplePattern} {t : TripleId}
    {qs : List TriplePattern} {b c : Bindings} (hhead : ∀ v ∈ vars_in head, b v = c v)
    (hqs : ∀ q ∈ qs, ∀ v ∈ vars_in q, b v = c v) :
    countFrom E head t b qs = countFrom E head t c qs := by
  induction qs generalizing b c with
  | nil => rw [countFrom, countFrom, eval_head_congr hhead]
  | cons q qs ih =>
    rw [countFrom, countFrom]
    refine congrArg (weigh E) (funext fun y => ?_)
    have hagree : ∀ v, (v ∈ vars_in head ∨ ∃ q' ∈ q :: qs, v ∈ vars_in q') → b v = c v := by
      rintro v (hv | ⟨q', hq', hv⟩)
      · exact hhead v hv
      · exact hqs q' hq' v hv
    rcases bind_slots_congr (q.slots y)
      (fun v hv => Or.inr ⟨q, List.mem_cons_self, slot_vars_slots.mp hv⟩) hagree with
      ⟨hb, hc⟩ | ⟨b', c', hb, hc, h⟩
    · rw [hb, hc]
    · rw [hb, hc, Option.elim_some, Option.elim_some]
      exact ih (fun v hv => h v (Or.inl hv))
        fun q' hq' v hv => h v (Or.inr ⟨q', List.mem_cons_of_mem _ hq', hv⟩)

/-- Matching a pattern against the row it wrote binds its variables back. -/
theorem bind_slots_eval (b : Bindings) (slots : List (Term × Nat))
    (hval : ∀ e ∈ slots, eval_term b e.1 = e.2) (hbound : ∀ v, slot_vars slots v → (b v).isSome)
    {c : Bindings} (hc : ∀ v n, c v = some n → b v = some n) :
    ∃ d, bind_slots slots c = some d ∧ (∀ v n, d v = some n → b v = some n) ∧
      ∀ v, slot_vars slots v → d v = b v := by
  induction slots generalizing c with
  | nil => exact ⟨c, rfl, hc, fun v ⟨_, h⟩ => nomatch h⟩
  | cons e rest ih =>
    obtain ⟨t, val⟩ := e
    rw [List.forall_mem_cons] at hval
    have hrest : ∀ v, slot_vars rest v → (b v).isSome :=
      fun v ⟨n, hn⟩ => hbound v ⟨n, List.mem_cons_of_mem _ hn⟩
    cases t with
    | Bound id =>
      obtain ⟨d, hd, hsub, hvars⟩ := ih hval.2 hrest hc
      refine ⟨d, ?_, hsub, ?_⟩
      · rw [bind_slots, if_pos (show id = val from hval.1), hd]
      · rintro v ⟨n, hn⟩
        rcases List.mem_cons.mp hn with heq | hn
        · cases heq
        · exact hvars v ⟨n, hn⟩
    | Var w =>
      obtain ⟨n, hn⟩ := Option.isSome_iff_exists.mp (hbound w ⟨val, List.mem_cons_self⟩)
      have hnval : n = val := by simpa [eval_term, hn] using hval.1
      subst hnval
      have hset : ∃ c', c.set w n = some c' ∧ (∀ v m, c' v = some m → b v = some m) ∧
          c' w = some n := by
        rw [Bindings.set]
        cases hcw : c w with
        | some m =>
          have hm : m = n := Option.some.inj ((hc w m hcw).symm.trans hn)
          exact ⟨c, if_pos hm, hc, by rw [hcw, hm]⟩
        | none =>
          refine ⟨_, rfl, ?_, Function.update_self ..⟩
          intro v m hv
          by_cases hvw : v = w
          · subst hvw
            rw [Function.update_self] at hv
            rw [hn, hv]
          · rw [Function.update_of_ne hvw] at hv
            exact hc v m hv
      obtain ⟨c', hset, hc', hcw⟩ := hset
      obtain ⟨d, hd, hsub, hvars⟩ := ih hval.2 hrest hc'
      refine ⟨d, ?_, hsub, ?_⟩
      · rw [bind_slots, hset]
        exact hd
      · rintro v ⟨m, hm⟩
        rcases List.mem_cons.mp hm with heq | hm
        · cases heq
          rw [bind_slots_extends hd hcw, hn]
        · exact hvars v ⟨m, hm⟩

theorem bind_row_eval {q : TriplePattern} {b : Bindings}
    (hbound : ∀ v ∈ vars_in q, (b v).isSome) :
    ∃ d, bind_row q (eval_head q b) = some d ∧ (∀ v ∈ vars_in q, d v = b v) ∧
      ∀ v, v ∉ vars_in q → d v = none := by
  obtain ⟨d, hd, _, hvars⟩ := bind_slots_eval b (q.slots (eval_head q b))
    (by simp [TriplePattern.slots, eval_head])
    (fun v hv => hbound v (slot_vars_slots.mp hv)) (c := .default) (fun v n h => nomatch h)
  refine ⟨d, hd, fun v hv => hvars v (slot_vars_slots.mpr hv), fun v hv => ?_⟩
  have : _ ↔ v ∈ vars_in q := bind_row_bound hd v
  rw [Option.eq_none_iff_forall_ne_some]
  intro n hn
  exact hv (this.mp (by rw [hn]; rfl))

/-! ## The shape of an intermediate -/

theorem mem_push_vars {vars more : List Nat} {v : Nat} :
    v ∈ push_vars vars more ↔ v ∈ vars ∨ v ∈ more := by
  unfold push_vars
  induction more generalizing vars with
  | nil => simp
  | cons w more ih =>
    rw [List.foldl_cons, ih, List.mem_cons]
    split
    · rename_i hw
      rw [List.contains_iff_mem] at hw
      constructor
      · rintro (h | h)
        · exact Or.inl h
        · exact Or.inr (Or.inr h)
      · rintro (h | rfl | h)
        · exact Or.inl h
        · exact Or.inl hw
        · exact Or.inr h
    · rw [List.mem_append, List.mem_singleton, or_assoc]

theorem mem_still_needed {body : List TriplePattern} {rest : List Nat} {head : TriplePattern}
    {v : Nat} : v ∈ still_needed body rest head ↔
      v ∈ vars_in head ∨ ∃ i ∈ rest, v ∈ vars_in (body_at body i) := by
  have run : ∀ (rest : List Nat) (needed : List Nat),
      v ∈ rest.foldl (fun needed i => push_vars needed (vars_in (body_at body i))) needed ↔
        v ∈ needed ∨ ∃ i ∈ rest, v ∈ vars_in (body_at body i) := by
    intro rest
    induction rest with
    | nil => simp
    | cons i rest ih =>
      intro needed
      rw [List.foldl_cons, ih, mem_push_vars]
      simp [or_assoc]
  exact run rest (vars_in head)

/-- The shape holds exactly the variables that are bound and still needed. -/
theorem intermediate_shape_vars {left right head shape : TriplePattern}
    {body : List TriplePattern} {rest : List Nat}
    (h : intermediate_shape left right body rest head = .ok shape) (v : Nat) :
    v ∈ vars_in shape ↔ (v ∈ vars_in left ∨ v ∈ vars_in right) ∧
      (v ∈ vars_in head ∨ ∃ i ∈ rest, v ∈ vars_in (body_at body i)) := by
  unfold intermediate_shape at h
  dsimp only at h
  generalize hlive : push_vars [] ((vars_in left ++ vars_in right).filter fun v =>
    (still_needed body rest head).contains v) = live at h
  have hmem : v ∈ live ↔ (v ∈ vars_in left ∨ v ∈ vars_in right) ∧
      (v ∈ vars_in head ∨ ∃ i ∈ rest, v ∈ vars_in (body_at body i)) := by
    rw [← hlive, mem_push_vars, List.mem_filter, List.mem_append, List.contains_iff_mem,
      mem_still_needed]
    simp
  rw [← hmem]
  split at h
  · cases h
  · rename_i hlen
    cases h
    rw [mem_vars_in]
    have hslot : ∀ i : Nat, Term.Var v = (live[i]?).elim (Term.Bound INTERMEDIATE_PAD) Term.Var ↔
        live[i]? = some v := by
      intro i
      cases live[i]? with
      | none => simp
      | some w => simp [eq_comm]
    rw [hslot, hslot, hslot, List.mem_iff_getElem?]
    constructor
    · rintro (h | h | h)
      · exact ⟨_, h⟩
      · exact ⟨_, h⟩
      · exact ⟨_, h⟩
    · rintro ⟨i, hi⟩
      have hlt := (List.getElem?_eq_some_iff.mp hi).1
      rcases i with _ | _ | _ | i
      · exact Or.inl hi
      · exact Or.inr (Or.inl hi)
      · exact Or.inr (Or.inr hi)
      · omega

theorem HashJoinRule.new_ok {id : RuleId} {left right head : TriplePattern} {r : HashJoinRule}
    (h : HashJoinRule.new id left right head = .ok r) :
    r.left = left ∧ r.right = right ∧ r.head = head := by
  unfold HashJoinRule.new at h
  split at h
  · cases h
  · split at h
    · cases h
    · cases h
      exact ⟨rfl, rfl, rfl⟩

/-! ## The joins of a plan -/

namespace NaryPlan

/-- The joins after a left input, as products over the whole extent. -/
noncomputable def chain (E : TripleId →₀ ℤ) : (TripleId →₀ ℤ) → List HashJoinRule → TripleId →₀ ℤ
  | I, [] => I
  | I, r :: rules => chain E (pairing r.pair I E) rules

theorem foldl_next_full_val (base : PredExtent) (rules : List HashJoinRule) (int : Zset TripleId) :
    (rules.foldl (next_full base) int).val = chain base.all.val int.val rules := by
  induction rules generalizing int with
  | nil => rfl
  | cons r rules ih => rw [List.foldl_cons, ih, next_full_val, chain]

theorem except_bind_ok {ε α β : Type} {x : Except ε α} {f : α → Except ε β} {b : β} :
    x >>= f = .ok b ↔ ∃ a, x = .ok a ∧ f a = .ok b := by
  cases x with
  | error e => exact ⟨fun h => (nomatch h), fun ⟨_, h, _⟩ => (nomatch h)⟩
  | ok a => exact ⟨fun h => ⟨a, rfl, h⟩, fun ⟨_, h, hf⟩ => by cases h; exact hf⟩

/-- One join of the build, and the joins after it. -/
theorem build_joins_cons {id : RuleId} {body : List TriplePattern} {head left : TriplePattern}
    {i : Nat} {rest : List Nat} {rules : List HashJoinRule}
    (h : build_joins id body head left (i :: rest) = .ok rules) :
    ∃ shape r rules', step_head left (body_at body i) body rest head = .ok shape ∧
      HashJoinRule.new id left (body_at body i) shape = .ok r ∧
      build_joins id body head shape rest = .ok rules' ∧ rules = r :: rules' := by
  rw [build_joins] at h
  obtain ⟨shape, hshape, h⟩ := except_bind_ok.mp h
  obtain ⟨r, hnew, h⟩ := except_bind_ok.mp h
  obtain ⟨rules', hrules, h⟩ := except_bind_ok.mp h
  cases h
  exact ⟨shape, r, rules', hshape, hnew, hrules, rfl⟩

/-- The product of one join, weighed: each pair of rows that bind gives the value of the
head's row. -/
theorem weigh_pair {r : HashJoinRule} (I E : TripleId →₀ ℤ) (f : TripleId → ℤ) :
    weigh (pairing r.pair I E) f = weigh I fun x => (bind_row r.left x).elim 0 fun b =>
      weigh E fun y => (bind_slots (r.right.slots y) b).elim 0 fun c => f (eval_head r.head c) := by
  rw [weigh_pairing]
  refine congrArg (weigh I) (funext fun x => ?_)
  simp only [HashJoinRule.pair]
  cases bind_row r.left x with
  | none =>
    simp only [Option.bind_none, Option.elim_none]
    exact Finset.sum_eq_zero fun y _ => mul_zero _
  | some b =>
    rw [Option.elim_some]
    refine congrArg (weigh E) (funext fun y => ?_)
    rw [Option.bind_some]
    cases bind_slots (r.right.slots y) b <;> rfl

/-- The joins built after the left input `left` count the matches of the other patterns
on top of the rows of `left`, and each head variable is bound on the way. -/
theorem chain_build_joins {id : RuleId} {body : List TriplePattern} {head : TriplePattern}
    (E : TripleId →₀ ℤ) (t : TripleId) :
    ∀ {rest : List Nat} {left : TriplePattern} {rules : List HashJoinRule} (I : TripleId →₀ ℤ),
      rest ≠ [] → build_joins id body head left rest = .ok rules →
      chain E I rules t = weigh I (fun x => (bind_row left x).elim 0 fun b =>
        countFrom E head t b (rest.map (body_at body))) ∧
      ∀ v ∈ vars_in head, v ∈ vars_in left ∨ ∃ i ∈ rest, v ∈ vars_in (body_at body i) := by
  intro rest
  induction rest with
  | nil => exact fun _ h => absurd rfl h
  | cons i rest ih =>
    intro left rules I _ hbuild
    obtain ⟨shape, r, rules', hshape, hnew, hrules, rfl⟩ := build_joins_cons hbuild
    obtain ⟨rfl, hright, rfl⟩ := HashJoinRule.new_ok hnew
    rw [← hright] at hshape
    cases hrest : rest with
    | nil =>
      subst hrest
      cases hshape
      cases hrules
      refine ⟨?_, ?_⟩
      · rw [chain, chain, ← weigh_indicator (pairing r.pair I E) t, weigh_pair]
        simp only [List.map_cons, List.map_nil, countFrom, hright]
      · intro v hv
        refine (r.head_bound v hv).imp_right fun h => ⟨i, List.mem_singleton.mpr rfl, ?_⟩
        rwa [hright] at h
    | cons j rest' =>
      have hne : rest ≠ [] := by rw [hrest]; exact List.cons_ne_nil _ _
      have hempty : rest.isEmpty = false := by rw [hrest]; rfl
      rw [← hrest]
      clear hrest
      rw [step_head, hempty, if_neg Bool.false_ne_true] at hshape
      have hvars := intermediate_shape_vars hshape
      obtain ⟨hcount, hhead⟩ := ih (pairing r.pair I E) hne hrules
      have hmap : ∀ w, (∃ k ∈ rest, w ∈ vars_in (body_at body k)) ↔
          ∃ q ∈ rest.map (body_at body), w ∈ vars_in q := by
        intro w
        simp
      refine ⟨?_, ?_⟩
      · rw [chain, hcount, weigh_pair]
        refine weigh_congr fun x _ => ?_
        cases hb : bind_row r.left x with
        | none => rfl
        | some b =>
          rw [Option.elim_some, Option.elim_some, List.map_cons, countFrom, hright]
          refine congrArg (weigh E) (funext fun y => ?_)
          cases hc : bind_slots ((body_at body i).slots y) b with
          | none => rfl
          | some c =>
            rw [Option.elim_some, Option.elim_some]
            -- The table carries over: what the shape drops, no later pattern reads.
            have hcbound : ∀ v, (c v).isSome ↔ v ∈ vars_in r.left ∨ v ∈ vars_in r.right := by
              intro v
              rw [bind_slots_bound hc, bind_row_bound hb, slot_vars_slots, hright]
            obtain ⟨d, hd, hin, hout⟩ := bind_row_eval (q := r.head) (b := c) fun v hv =>
              (hcbound v).mpr ((hvars v).mp hv).1
            rw [hd, Option.elim_some]
            have hagree : ∀ v, (v ∈ vars_in head ∨ ∃ k ∈ rest, v ∈ vars_in (body_at body k)) →
                d v = c v := by
              intro v hv
              by_cases hsh : v ∈ vars_in r.head
              · exact hin v hsh
              · rw [hout v hsh, eq_comm, Option.eq_none_iff_forall_ne_some]
                intro n hn
                exact hsh ((hvars v).mpr ⟨(hcbound v).mp (by rw [hn]; rfl), hv⟩)
            refine countFrom_congr (fun v hv => hagree v (Or.inl hv)) fun q hq v hv => ?_
            exact hagree v (Or.inr ((hmap v).mpr ⟨q, hq, hv⟩))
      · intro v hv
        rcases hhead v hv with h | ⟨k, hk, h⟩
        · rcases ((hvars v).mp h).1 with h | h
          · exact Or.inl h
          · rw [hright] at h
            exact Or.inr ⟨i, List.mem_cons_self, h⟩
        · exact Or.inr ⟨k, List.mem_cons_of_mem _ hk, h⟩

end NaryPlan

end horndb.incremental
