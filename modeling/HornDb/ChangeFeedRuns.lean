-- The feed over every schedule: a subscriber has, in order and without a gap, the first of the
-- records published since it came, and it is removed only after a send that found it full or gone.
import HornDb.ChangeFeed

open HornDb.Lib

namespace horndb.incremental.change_feed

variable {X : Channels DeltaRecord}

/-- The sender stands in the list. -/
abbrev Serves (l : List Subscriber) (tx : Nat) : Prop := tx ∈ l.map Subscriber.tx

/-- The senders still to be served by the publish under way. -/
def World.targets (w : World X) : List Subscriber := (w.publishing.map Publishing.targets).getD []

def World.failed (w : World X) : List Nat := (w.publishing.map Publishing.failed).getD []

/-- The record that the publish under way still owes to a sender. -/
def World.owed (w : World X) (tx : Nat) : List DeltaRecord :=
  match w.publishing with
  | some p => if Serves p.targets tx then [p.record] else []
  | none => []

/-- What an endpoint has and what it misses are the records published since it came. While it is
subscribed and no send failed, it misses only the record that it is still owed. -/
structure Flows (w : World X) (tx : Nat) (e : Endpoint X) : Prop where
  since : e.since ≤ w.published.length
  received : e.received <+: w.published.drop e.since
  queued : X.dropped e.channel = false → ∃ missing,
    e.received ++ X.queue e.channel ++ missing = w.published.drop e.since ∧
      (Serves w.subscribers tx → tx ∉ w.failed → missing = w.owed tx)

/-- What every schedule keeps. -/
structure Valid (w : World X) : Prop where
  known : ∀ tx, Serves w.subscribers tx → tx < w.endpoints.length
  failed : ∀ tx ∈ w.failed, tx < w.endpoints.length
  nodup : (w.subscribers.map Subscriber.tx).Nodup
  targets : ∀ tx, Serves w.targets tx → Serves w.subscribers tx ∧ tx ∉ w.failed
  targets_nodup : (w.targets.map Subscriber.tx).Nodup
  flows : ∀ tx e, w.endpoints[tx]? = some e → Flows w tx e

theorem new_valid : Valid (World.new X) where
  known tx h := by cases h
  failed tx h := by cases h
  nodup := List.nodup_nil
  targets tx h := by cases h
  targets_nodup := List.nodup_nil
  flows tx e h := by simp [World.new] at h

/-! ## One step -/

variable {w w' : World X}

theorem owed_of_not_served {tx : Nat} (h : ¬Serves w.targets tx) : w.owed tx = [] := by
  unfold World.owed
  cases hp : w.publishing with
  | none => rfl
  | some p =>
    have hno : ¬Serves p.targets tx := by
      rw [World.targets, hp] at h
      exact h
    exact if_neg hno

theorem Valid.push_subscriber (h : Valid w) {channel : X.Channel}
    (hnew : X.queue channel = []) (policy : LagPolicy) :
    Valid (w.push_subscriber channel policy) := by
  have hserves : ∀ tx, Serves (w.push_subscriber channel policy).subscribers tx ↔
      Serves w.subscribers tx ∨ tx = w.endpoints.length := by
    intro tx
    simp [World.push_subscriber, @eq_comm _ tx]
  have hlength : (w.push_subscriber channel policy).endpoints.length = w.endpoints.length + 1 := by
    simp [World.push_subscriber]
  have hfresh : ∀ l : List Subscriber, (∀ tx, Serves l tx → Serves w.subscribers tx) →
      ¬Serves l w.endpoints.length := fun l hl hin => Nat.lt_irrefl _ (h.known _ (hl _ hin))
  refine ⟨?_, ?_, ?_, ?_, h.targets_nodup, ?_⟩
  · intro tx htx
    rw [hlength]
    rcases (hserves tx).mp htx with htx | rfl
    · exact Nat.lt_succ_of_lt (h.known tx htx)
    · exact Nat.lt_succ_self _
  · intro tx htx
    rw [hlength]
    exact Nat.lt_succ_of_lt (h.failed tx htx)
  · have hlist : (w.push_subscriber channel policy).subscribers.map Subscriber.tx =
        w.subscribers.map Subscriber.tx ++ [w.endpoints.length] := by
      simp [World.push_subscriber]
    rw [hlist, List.nodup_append]
    refine ⟨h.nodup, List.nodup_singleton _, ?_⟩
    rintro u hu v hv rfl
    rw [List.mem_singleton] at hv
    exact hfresh w.subscribers (fun _ => id) (hv ▸ hu)
  · intro tx htx
    exact ⟨(hserves tx).mpr (Or.inl (h.targets tx htx).1), (h.targets tx htx).2⟩
  · intro tx e he
    have hcases : w.endpoints[tx]? = some e ∨
        (tx = w.endpoints.length ∧ e = ⟨channel, [], w.published.length⟩) := by
      rw [World.push_subscriber, List.getElem?_append] at he
      split at he
      · exact Or.inl he
      · rename_i hout
        rw [List.getElem?_singleton] at he
        split at he
        · exact Or.inr ⟨by omega, (Option.some.inj he).symm⟩
        · cases he
    rcases hcases with hold | ⟨rfl, rfl⟩
    · obtain ⟨hsince, hreceived, hqueued⟩ := h.flows tx e hold
      refine ⟨hsince, hreceived, fun hdropped => ?_⟩
      obtain ⟨missing, hmissing, howed⟩ := hqueued hdropped
      refine ⟨missing, hmissing, fun hs hf => howed ?_ hf⟩
      rcases (hserves tx).mp hs with hs | rfl
      · exact hs
      · exact absurd (List.getElem?_eq_some_iff.mp hold).1 (Nat.lt_irrefl _)
    · have hnone : w.published.drop w.published.length = [] := List.drop_length
      refine ⟨le_rfl, List.nil_prefix, fun _ => ⟨[], ?_, fun _ _ => ?_⟩⟩
      · dsimp only
        rw [hnew]
        exact hnone.symm
      · exact (owed_of_not_served (hfresh w.targets fun u hu => (h.targets u hu).1)).symm

theorem Valid.publish_record (h : Valid w) {rec : DeltaRecord}
    (hw : w.publish_record rec = some w') : Valid w' := by
  unfold World.publish_record at hw
  split at hw
  · cases hw
  · rename_i hidle
    cases hw
    have hfailed : w.failed = [] := by rw [World.failed, hidle]; rfl
    refine ⟨h.known, fun tx htx => (by cases htx), h.nodup,
      fun tx htx => ⟨htx, List.not_mem_nil⟩, h.nodup, ?_⟩
    intro tx e he
    obtain ⟨hsince, hreceived, hqueued⟩ := h.flows tx e he
    have hdrop : (w.published ++ [rec]).drop e.since = w.published.drop e.since ++ [rec] :=
      List.drop_append_of_le_length hsince
    refine ⟨?_, ?_, fun hdropped => ?_⟩
    · dsimp only
      rw [List.length_append]
      exact Nat.le_add_right_of_le hsince
    · dsimp only
      rw [hdrop]
      exact hreceived.trans (List.prefix_append _ _)
    · obtain ⟨missing, hmissing, howed⟩ := hqueued hdropped
      refine ⟨missing ++ [rec], ?_, fun hs _ => ?_⟩
      · dsimp only
        rw [hdrop, ← hmissing, List.append_assoc _ missing]
      · have hnone : missing = [] := by
          rw [howed hs (by rw [hfailed]; exact List.not_mem_nil), World.owed, hidle]
        rw [hnone, List.nil_append]
        exact (if_pos hs).symm

/-- A step of a receiver changes its own endpoint. -/
theorem Valid.on_receiver (h : Valid w) {tx : Nat} {f : Endpoint X → Option (Endpoint X)}
    (hf : ∀ e e', f e = some e' → e'.since = e.since ∧
      (Flows w tx e → X.dropped e.channel = false → Flows w tx e'))
    (hw : w.on_receiver tx f = some w') : Valid w' := by
  unfold World.on_receiver at hw
  cases he : w.endpoints[tx]? with
  | none =>
    rw [he] at hw
    cases hw
  | some e =>
    rw [he] at hw
    simp only [Option.bind_eq_bind, Option.bind_some] at hw
    split at hw
    · cases hw
    · rename_i hthere
      rw [Bool.not_eq_true] at hthere
      obtain ⟨e', he', hw⟩ := Option.bind_eq_some_iff.mp hw
      cases hw
      obtain ⟨-, hflows⟩ := hf e e' he'
      refine ⟨fun u hu => ?_, fun u hu => ?_, h.nodup, h.targets, h.targets_nodup,
        fun u d hd => ?_⟩
      · rw [List.length_set]
        exact h.known u hu
      · rw [List.length_set]
        exact h.failed u hu
      · rw [List.getElem?_set] at hd
        split at hd
        · rename_i hu
          subst hu
          split at hd
          · cases hd
            obtain ⟨hsince, hreceived, hqueued⟩ := hflows (h.flows tx e he) hthere
            exact ⟨hsince, hreceived, hqueued⟩
          · cases hd
        · obtain ⟨hsince, hreceived, hqueued⟩ := h.flows u d hd
          exact ⟨hsince, hreceived, hqueued⟩

theorem Valid.drain (h : Valid w) {tx : Nat} (hw : w.drain tx = some w') : Valid w' := by
  refine h.on_receiver (fun e e' he => ?_) hw
  obtain ⟨⟨channel, rec⟩, hrecv, he⟩ := Option.bind_eq_some_iff.mp he
  cases he
  obtain ⟨hqueue, -, hdropped⟩ := X.recv_takes hrecv
  refine ⟨rfl, fun hflows hthere => ?_⟩
  obtain ⟨missing, hmissing, howed⟩ := hflows.queued hthere
  have hmoved : e.received ++ [rec] ++ X.queue channel ++ missing = w.published.drop e.since := by
    rw [← hmissing, hqueue]
    simp
  refine ⟨hflows.since, ?_, fun _ => ⟨missing, hmoved, howed⟩⟩
  rw [List.append_assoc] at hmoved
  exact ⟨_, hmoved⟩

theorem Valid.wait (h : Valid w) {tx : Nat} (hw : w.wait tx = some w') : Valid w' := by
  refine h.on_receiver (fun e e' he => ?_) hw
  cases he
  obtain ⟨hqueue, -, hdropped⟩ := X.wait_keeps e.channel
  refine ⟨rfl, fun hflows _ => ⟨hflows.since, hflows.received, fun hthere => ?_⟩⟩
  dsimp only at hthere ⊢
  rw [hdropped] at hthere
  rw [hqueue]
  exact hflows.queued hthere

theorem Valid.drop_receiver (h : Valid w) {tx : Nat} (hw : w.drop_receiver tx = some w') :
    Valid w' := by
  refine h.on_receiver (fun e e' he => ?_) hw
  cases he
  refine ⟨rfl, fun hflows _ => ⟨hflows.since, hflows.received, fun hthere => ?_⟩⟩
  rw [(X.drop_drops e.channel).2] at hthere
  cases hthere

/-- Why a send fails: the subscriber does not block and its queue is full, or its receiver is
gone. -/
def Refused (X : Channels DeltaRecord) (policy : LagPolicy) (channel : X.Channel) : Prop :=
  policy = .DisconnectSlow ∧ X.Full channel ∨ X.dropped channel = true

theorem deliver_spec {policy : LagPolicy} {channel channel' : X.Channel} {rec : DeltaRecord}
    {delivered : Bool} {lagged : Nat}
    (h : deliver policy channel rec = some (channel', delivered, lagged)) :
    (delivered = true ∧ X.queue channel' = X.queue channel ++ [rec] ∧
        X.dropped channel' = X.dropped channel) ∨
      (delivered = false ∧ channel' = channel ∧ Refused X policy channel) := by
  cases policy with
  | Block =>
    obtain ⟨⟨c, sent⟩, hsend, heq⟩ := Option.map_eq_some_iff.mp h
    cases heq
    cases sent with
    | true =>
      obtain ⟨hqueue, -, hdropped⟩ := X.send_sent hsend
      exact Or.inl ⟨rfl, hqueue, hdropped⟩
    | false =>
      obtain ⟨hsame, hdropped⟩ := X.send_disconnected hsend
      exact Or.inr ⟨rfl, hsame, Or.inr hdropped⟩
  | DisconnectSlow =>
    unfold deliver at h
    dsimp only at h
    split at h
    · rename_i hsend
      cases h
      obtain ⟨hqueue, -, hdropped⟩ := X.try_send_sent hsend
      exact Or.inl ⟨rfl, hqueue, hdropped⟩
    · rename_i hsend
      cases h
      obtain ⟨hsame, hfull⟩ := X.try_send_full hsend
      exact Or.inr ⟨rfl, hsame, Or.inl ⟨rfl, hfull⟩⟩
    · rename_i hsend
      cases h
      obtain ⟨hsame, hdropped⟩ := X.try_send_disconnected hsend
      exact Or.inr ⟨rfl, hsame, Or.inr hdropped⟩

/-- The parts of a send: the sender that is served, its endpoint, and what comes of it. -/
theorem send_next_cases (hw : w.send_next = some w') :
    ∃ p s targets e channel delivered lagged, w.publishing = some p ∧ p.targets = s :: targets ∧
      w.endpoints[s.tx]? = some e ∧
      deliver s.policy e.channel p.record = some (channel, delivered, lagged) ∧
      w' = { w with
        endpoints := w.endpoints.set s.tx { e with channel := channel }
        publishing := some { p with
          targets := targets
          failed := if delivered then p.failed else p.failed ++ [s.tx]
          dropped_for_lag := p.dropped_for_lag + lagged } } := by
  obtain ⟨p, hp, hw⟩ := Option.bind_eq_some_iff.mp hw
  cases ht : p.targets with
  | nil =>
    rw [ht] at hw
    cases hw
  | cons s targets =>
    rw [ht] at hw
    obtain ⟨e, he, hw⟩ := Option.bind_eq_some_iff.mp hw
    obtain ⟨⟨channel, delivered, lagged⟩, hdeliver, hw⟩ := Option.bind_eq_some_iff.mp hw
    cases hw
    exact ⟨p, s, targets, e, channel, delivered, lagged, hp, ht, he, hdeliver, rfl⟩

theorem Valid.send_next (h : Valid w) (hw : w.send_next = some w') : Valid w' := by
  obtain ⟨p, s, targets, e, channel, delivered, lagged, hp, ht, he, hdeliver, rfl⟩ :=
    send_next_cases hw
  have htargets : w.targets = s :: targets := by rw [World.targets, hp, ← ht]; rfl
  have hfailed : w.failed = p.failed := by rw [World.failed, hp]; rfl
  have hnodup := h.targets_nodup
  rw [htargets, List.map_cons, List.nodup_cons] at hnodup
  have hfails : ∀ tx, tx ∉ (if delivered = true then p.failed else p.failed ++ [s.tx]) ↔
      tx ∉ p.failed ∧ (delivered = false → tx ≠ s.tx) := by
    intro tx
    cases delivered <;> simp
  refine ⟨fun u hu => ?_, fun u hu => ?_, h.nodup, fun u hu => ?_, hnodup.2,
    fun u d hd => ?_⟩
  · rw [List.length_set]
    exact h.known u hu
  · rw [List.length_set]
    by_contra hout
    refine (hfails u).mpr ⟨fun hin => hout (h.failed u (hfailed ▸ hin)), fun _ heq => ?_⟩ hu
    exact hout (heq ▸ (List.getElem?_eq_some_iff.mp he).1)
  · obtain ⟨hserves, hnot⟩ := h.targets u (by rw [htargets]; exact List.mem_cons_of_mem _ hu)
    refine ⟨hserves, (hfails u).mpr ⟨hfailed ▸ hnot, fun _ heq => ?_⟩⟩
    exact hnodup.1 (heq ▸ hu)
  · rw [List.getElem?_set] at hd
    split at hd
    · -- the subscriber that is served
      rename_i hu
      subst hu
      split at hd
      · cases hd
        obtain ⟨hsince, hreceived, hqueued⟩ := h.flows s.tx e he
        refine ⟨hsince, hreceived, fun hthere => ?_⟩
        have howed : w.owed s.tx = [p.record] := by
          rw [World.owed, hp]
          exact if_pos (by rw [ht]; exact List.mem_cons_self)
        have hpaid : (if Serves targets s.tx then [p.record] else []) = [] := if_neg hnodup.1
        rcases deliver_spec hdeliver with ⟨hsent, hqueue, hdropped⟩ | ⟨hlost, hsame, -⟩
        · dsimp only at hthere ⊢
          rw [hdropped] at hthere
          obtain ⟨missing, hmissing, howes⟩ := hqueued hthere
          obtain ⟨hserves, hnot⟩ := h.targets s.tx (by rw [htargets]; exact List.mem_cons_self)
          rw [howes hserves hnot, howed] at hmissing
          refine ⟨[], ?_, fun _ _ => hpaid.symm⟩
          rw [hqueue, List.append_nil, ← hmissing, List.append_assoc]
        · dsimp only at hthere ⊢
          rw [hsame] at hthere ⊢
          obtain ⟨missing, hmissing, -⟩ := hqueued hthere
          refine ⟨missing, hmissing, fun _ hf => ?_⟩
          exact absurd rfl (((hfails s.tx).mp hf).2 hlost)
      · cases hd
    · rename_i hu
      obtain ⟨hsince, hreceived, hqueued⟩ := h.flows u d hd
      refine ⟨hsince, hreceived, fun hthere => ?_⟩
      obtain ⟨missing, hmissing, howes⟩ := hqueued hthere
      refine ⟨missing, hmissing, fun hserves hf => ?_⟩
      rw [howes hserves (by rw [hfailed]; exact ((hfails u).mp hf).1), World.owed, World.owed, hp]
      have hsame : Serves p.targets u ↔ Serves targets u := by
        rw [Serves, ht, List.map_cons, List.mem_cons]
        exact or_iff_right fun heq => hu heq.symm
      exact if_congr hsame rfl rfl

theorem reap_cases (hw : w.reap = some w') :
    ∃ p, w.publishing = some p ∧ p.targets = [] ∧ w' = { w with
      subscribers := w.subscribers.filter fun s => s.tx ∉ p.failed
      publishing := none
      dropped_subscribers := w.dropped_subscribers + p.dropped_for_lag } := by
  obtain ⟨p, hp, hw⟩ := Option.bind_eq_some_iff.mp hw
  cases ht : p.targets with
  | nil =>
    rw [ht] at hw
    cases hw
    exact ⟨p, hp, ht, rfl⟩
  | cons s targets =>
    rw [ht] at hw
    cases hw

/-- The subscribers that a reap leaves are those whose send did not fail. -/
theorem serves_reaped {l : List Subscriber} {failed : List Nat} {tx : Nat} :
    Serves (l.filter fun s => s.tx ∉ failed) tx ↔ Serves l tx ∧ tx ∉ failed := by
  simp only [Serves, List.mem_map, List.mem_filter, decide_eq_true_eq]
  constructor
  · rintro ⟨s, ⟨hs, hnot⟩, rfl⟩
    exact ⟨⟨s, hs, rfl⟩, hnot⟩
  · rintro ⟨⟨s, hs, rfl⟩, hnot⟩
    exact ⟨s, ⟨hs, hnot⟩, rfl⟩

theorem Valid.reap (h : Valid w) (hw : w.reap = some w') : Valid w' := by
  obtain ⟨p, hp, ht, rfl⟩ := reap_cases hw
  refine ⟨fun u hu => h.known u (serves_reaped.mp hu).1, fun u hu => (by cases hu), ?_,
    fun u hu => (by cases hu), List.nodup_nil, fun u d hd => ?_⟩
  · exact h.nodup.sublist (List.filter_sublist.map _)
  · obtain ⟨hsince, hreceived, hqueued⟩ := h.flows u d hd
    refine ⟨hsince, hreceived, fun hthere => ?_⟩
    obtain ⟨missing, hmissing, howes⟩ := hqueued hthere
    refine ⟨missing, hmissing, fun hserves _ => ?_⟩
    obtain ⟨hserves, hnot⟩ := serves_reaped.mp hserves
    rw [howes hserves (by rw [World.failed, hp]; exact hnot)]
    refine (owed_of_not_served ?_).trans rfl
    rw [World.targets, hp]
    simp [ht]

/-- Every step keeps the flows. -/
theorem Valid.act (h : Valid w) {a : Action} (hw : w.act a = some w') : Valid w' := by
  cases a with
  | subscribe =>
    cases hw
    exact h.push_subscriber X.unbounded_new.1 _
  | subscribe_bounded capacity policy =>
    cases hw
    exact h.push_subscriber (X.bounded_new capacity).1 _
  | publish_record rec => exact h.publish_record hw
  | send_next => exact h.send_next hw
  | reap => exact h.reap hw
  | drain tx => exact h.drain hw
  | wait tx => exact h.wait hw
  | drop_receiver tx => exact h.drop_receiver hw

/-! ## Runs -/

theorem after_snoc {actions : List Action} {a : Action} :
    after X (actions ++ [a]) = some w' ↔ ∃ w, after X actions = some w ∧ w.act a = some w' := by
  unfold after
  rw [List.foldlM_append]
  simp only [List.foldlM_cons, List.foldlM_nil, Option.bind_eq_bind, Option.bind_eq_some_iff]
  constructor
  · rintro ⟨w, hw, w₁, hact, heq⟩
    cases heq
    exact ⟨w, hw, hact⟩
  · rintro ⟨w, hw, hact⟩
    exact ⟨w, hw, w', hact, rfl⟩

theorem after_valid (actions : List Action) :
    ∀ {w : World X}, after X actions = some w → Valid w := by
  induction actions using List.reverseRecOn with
  | nil =>
    intro w hw
    cases hw
    exact new_valid
  | append_singleton actions a ih =>
    intro w hw
    obtain ⟨w₁, hw₁, hact⟩ := after_snoc.mp hw
    exact (ih hw₁).act hact

/-- The next send is to `tx`, and it finds the queue full or the receiver gone. -/
def Refuses (w : World X) (tx : Nat) : Prop :=
  ∃ p s targets e, w.publishing = some p ∧ p.targets = s :: targets ∧ s.tx = tx ∧
    w.endpoints[tx]? = some e ∧ Refused X s.policy e.channel

/-- At some earlier point of the actions a send to `tx` was refused. -/
def WasRefused (X : Channels DeltaRecord) (actions : List Action) (tx : Nat) : Prop :=
  ∃ before rest w, actions = before ++ .send_next :: rest ∧ after X before = some w ∧ Refuses w tx

theorem WasRefused.snoc {actions : List Action} {tx : Nat} (h : WasRefused X actions tx)
    (a : Action) : WasRefused X (actions ++ [a]) tx := by
  obtain ⟨before, rest, w, rfl, hw, hrefuses⟩ := h
  exact ⟨before, rest ++ [a], w, by simp, hw, hrefuses⟩

theorem serves_pushed {channel : X.Channel} {policy : LagPolicy} {tx : Nat}
    (h : Serves w.subscribers tx) : Serves (w.push_subscriber channel policy).subscribers tx := by
  unfold World.push_subscriber Serves
  rw [List.map_append]
  exact List.mem_append_left _ h

theorem publish_record_frame {rec : DeltaRecord} (hw : w.publish_record rec = some w') :
    w'.subscribers = w.subscribers ∧ w'.failed = [] := by
  unfold World.publish_record at hw
  split at hw
  · cases hw
  · cases hw
    exact ⟨rfl, rfl⟩

theorem on_receiver_frame {tx : Nat} {f : Endpoint X → Option (Endpoint X)}
    (hw : w.on_receiver tx f = some w') :
    w'.subscribers = w.subscribers ∧ w'.failed = w.failed := by
  obtain ⟨e, he, hw⟩ := Option.bind_eq_some_iff.mp hw
  split at hw
  · cases hw
  · obtain ⟨e', -, hw⟩ := Option.bind_eq_some_iff.mp hw
    cases hw
    exact ⟨rfl, rfl⟩

/-- The step at which an endpoint stops being a subscriber, or fails, is a refused send. -/
theorem act_lost {a : Action} (hw : w.act a = some w') {tx : Nat}
    (hserves : Serves w.subscribers tx) (hkept : tx ∉ w.failed)
    (hlost : ¬Serves w'.subscribers tx ∨ tx ∈ w'.failed) : a = .send_next ∧ Refuses w tx := by
  cases a with
  | send_next =>
    obtain ⟨p, s, targets, e, channel, delivered, lagged, hp, ht, he, hdeliver, rfl⟩ :=
      send_next_cases hw
    have hfailed : w.failed = p.failed := by rw [World.failed, hp]; rfl
    rw [hfailed] at hkept
    have hin : tx ∈ if delivered = true then p.failed else p.failed ++ [s.tx] :=
      hlost.resolve_left fun hno => hno hserves
    refine ⟨rfl, ?_⟩
    rcases deliver_spec hdeliver with ⟨hsent, -⟩ | ⟨hnot, -, hrefused⟩
    · rw [if_pos hsent] at hin
      exact absurd hin hkept
    · rw [hnot] at hin
      rcases List.mem_append.mp hin with hin | hin
      · exact absurd hin hkept
      · rw [List.mem_singleton] at hin
        subst hin
        exact ⟨p, s, targets, e, hp, ht, rfl, he, hrefused⟩
  | reap =>
    obtain ⟨p, hp, ht, rfl⟩ := reap_cases hw
    have hfailed : w.failed = p.failed := by rw [World.failed, hp]; rfl
    rw [hfailed] at hkept
    rcases hlost with hlost | hlost
    · exact absurd (serves_reaped.mpr ⟨hserves, hkept⟩) hlost
    · cases hlost
  | subscribe =>
    cases hw
    exact absurd hlost (not_or.mpr ⟨fun hno => hno (serves_pushed hserves), hkept⟩)
  | subscribe_bounded capacity policy =>
    cases hw
    exact absurd hlost (not_or.mpr ⟨fun hno => hno (serves_pushed hserves), hkept⟩)
  | publish_record rec =>
    obtain ⟨hsubscribers, hfailed⟩ := publish_record_frame hw
    rw [hsubscribers, hfailed] at hlost
    exact absurd hlost (not_or.mpr ⟨fun hno => hno hserves, List.not_mem_nil⟩)
  | drain tx =>
    obtain ⟨hsubscribers, hfailed⟩ := on_receiver_frame hw
    rw [hsubscribers, hfailed] at hlost
    exact absurd hlost (not_or.mpr ⟨fun hno => hno hserves, hkept⟩)
  | wait tx =>
    obtain ⟨hsubscribers, hfailed⟩ := on_receiver_frame hw
    rw [hsubscribers, hfailed] at hlost
    exact absurd hlost (not_or.mpr ⟨fun hno => hno hserves, hkept⟩)
  | drop_receiver tx =>
    obtain ⟨hsubscribers, hfailed⟩ := on_receiver_frame hw
    rw [hsubscribers, hfailed] at hlost
    exact absurd hlost (not_or.mpr ⟨fun hno => hno hserves, hkept⟩)

/-- A new endpoint is a subscriber, and the others stay in their places. -/
theorem act_endpoints {a : Action} (hw : w.act a = some w') {tx : Nat}
    (htx : tx < w'.endpoints.length) : tx < w.endpoints.length ∨
      (Serves w'.subscribers tx ∧ w'.publishing = w.publishing ∧ tx = w.endpoints.length) := by
  have hpushed : ∀ (channel : X.Channel) policy,
      tx < (w.push_subscriber channel policy).endpoints.length → tx < w.endpoints.length ∨
        (Serves (w.push_subscriber channel policy).subscribers tx ∧
          (w.push_subscriber channel policy).publishing = w.publishing ∧
          tx = w.endpoints.length) := by
    intro channel policy hlt
    unfold World.push_subscriber at hlt ⊢
    rw [List.length_append, List.length_singleton] at hlt
    rcases Nat.lt_succ_iff_lt_or_eq.mp hlt with hlt | rfl
    · exact Or.inl hlt
    · exact Or.inr ⟨by simp, rfl, rfl⟩
  have hreceiver : ∀ {u f}, w.on_receiver u f = some w' → tx < w.endpoints.length := by
    intro u f hf
    obtain ⟨e, he, hf⟩ := Option.bind_eq_some_iff.mp hf
    split at hf
    · cases hf
    · obtain ⟨e', -, hf⟩ := Option.bind_eq_some_iff.mp hf
      cases hf
      rwa [List.length_set] at htx
  cases a with
  | subscribe =>
    cases hw
    exact hpushed _ _ htx
  | subscribe_bounded capacity policy =>
    cases hw
    exact hpushed _ _ htx
  | publish_record rec =>
    unfold World.act World.publish_record at hw
    dsimp only at hw
    split at hw
    · cases hw
    · cases hw
      exact Or.inl htx
  | send_next =>
    obtain ⟨p, s, targets, e, channel, delivered, lagged, -, -, -, -, rfl⟩ := send_next_cases hw
    rw [List.length_set] at htx
    exact Or.inl htx
  | reap =>
    obtain ⟨p, -, -, rfl⟩ := reap_cases hw
    exact Or.inl htx
  | drain u => exact Or.inl (hreceiver hw)
  | wait u => exact Or.inl (hreceiver hw)
  | drop_receiver u => exact Or.inl (hreceiver hw)

/-- An endpoint that is no subscriber, or whose send failed, was refused a send. -/
theorem lost_was_refused (actions : List Action) :
    ∀ {w : World X}, after X actions = some w → ∀ tx < w.endpoints.length,
      ¬Serves w.subscribers tx ∨ tx ∈ w.failed → WasRefused X actions tx := by
  induction actions using List.reverseRecOn with
  | nil =>
    intro w hw tx htx
    cases hw
    exact absurd htx (Nat.not_lt_zero _)
  | append_singleton actions a ih =>
    intro w hw tx htx hlost
    obtain ⟨w₁, hw₁, hact⟩ := after_snoc.mp hw
    have hvalid := after_valid actions hw₁
    rcases act_endpoints hact htx with hold | ⟨hserves, hsame, hlast⟩
    · by_cases hbefore : ¬Serves w₁.subscribers tx ∨ tx ∈ w₁.failed
      · exact (ih hw₁ tx hold hbefore).snoc a
      · rw [not_or, not_not] at hbefore
        obtain ⟨rfl, hrefuses⟩ := act_lost hact hbefore.1 hbefore.2 hlost
        exact ⟨actions, [], w₁, rfl, hw₁, hrefuses⟩
    · -- a subscriber that just came has failed no send
      rcases hlost with hlost | hlost
      · exact absurd hserves hlost
      · rw [World.failed, hsame] at hlost
        have hlt := hvalid.failed tx hlost
        omega

/-- Under every schedule a subscriber has received, in order and without a gap, the first of the
records published since it came; what it has received and what waits in its queue are together all
of them when no publish is under way and it is subscribed. An endpoint that is no subscriber any
more was refused a send, its queue being full or its receiver gone. -/
theorem subscribers_miss_nothing (X : Channels DeltaRecord) (actions : List Action) (w : World X)
    (hw : after X actions = some w) (tx : Nat) (e : Endpoint X)
    (he : w.endpoints[tx]? = some e) :
    e.received <+: w.published.drop e.since ∧
      (X.dropped e.channel = false →
        e.received ++ X.queue e.channel <+: w.published.drop e.since) ∧
      (X.dropped e.channel = false → w.publishing = none → Serves w.subscribers tx →
        e.received ++ X.queue e.channel = w.published.drop e.since) ∧
      (¬Serves w.subscribers tx → WasRefused X actions tx) := by
  obtain ⟨hsince, hreceived, hqueued⟩ := (after_valid actions hw).flows tx e he
  refine ⟨hreceived, fun hthere => ?_, fun hthere hidle hserves => ?_, fun hlost => ?_⟩
  · obtain ⟨missing, hmissing, -⟩ := hqueued hthere
    exact ⟨missing, hmissing⟩
  · obtain ⟨missing, hmissing, howes⟩ := hqueued hthere
    have hnone : missing = [] := by
      rw [howes hserves (by rw [World.failed, hidle]; exact List.not_mem_nil), World.owed, hidle]
    rwa [hnone, List.append_nil] at hmissing
  · exact lost_was_refused actions hw tx (List.getElem?_eq_some_iff.mp he).1 (Or.inl hlost)

/-- The second of two records finds a buffer of one full; the first is still delivered. -/
theorem slow_subscriber_keeps_a_prefix :
    let record (n : Nat) : DeltaRecord := ⟨⟨n, 1, n⟩, 1, n, .Asserted⟩
    let actions : List Action := [.subscribe_bounded 1 .DisconnectSlow, .publish_record (record 1),
      .send_next, .reap, .publish_record (record 2), .send_next, .reap, .drain 0]
    ∃ w e, after (Channels.fifo DeltaRecord) actions = some w ∧ w.endpoints[0]? = some e ∧
      e.received = [record 1] ∧ e.received <+: w.published.drop e.since ∧
      WasRefused (Channels.fifo DeltaRecord) actions 0 := by
  intro record actions
  refine ⟨_, _, rfl, rfl, rfl, ?_⟩
  obtain ⟨hreceived, -, -, hlost⟩ := subscribers_miss_nothing (Channels.fifo DeltaRecord) actions
    _ rfl 0 _ rfl
  exact ⟨hreceived, hlost List.not_mem_nil⟩

end horndb.incremental.change_feed
