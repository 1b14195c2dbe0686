-- The feed of committed records: each subscriber has a channel of its own and a policy for when it
-- is full. A publish reads the subscribers, sends without the lock, and then removes those whose
-- send failed; subscribers come, drain and go between any two of these steps.
import HornDb.Triples
import HornDb.Lib.Channel

open HornDb.Lib

namespace horndb.incremental.change_feed

/-- What the feed does when the buffer of a subscriber is full. -/
inductive LagPolicy where
  | Block
  | DisconnectSlow
deriving DecidableEq, Repr

/-- A sender and its policy. A channel is known by its number, which is its identity. -/
structure Subscriber where
  tx : Nat
  policy : LagPolicy
deriving DecidableEq, Repr

/-- A publish under way: the record, the senders still to be served and those that failed. -/
structure Publishing where
  record : DeltaRecord
  targets : List Subscriber
  failed : List Nat
  dropped_for_lag : Nat

variable (X : Channels DeltaRecord)

/-- A channel, with what its receiver has taken and how many records came before it. -/
structure Endpoint where
  channel : X.Channel
  received : List DeltaRecord
  since : Nat

/-- The feed, the channels it made, the publish under way and the records published so far. -/
structure World where
  subscribers : List Subscriber
  endpoints : List (Endpoint X)
  publishing : Option Publishing
  published : List DeltaRecord
  dropped_subscribers : Nat

variable {X} in
/-- The outcome of one send: the channel after it, whether the record was delivered, and whether
the subscriber lagged. Nothing while the send waits. -/
def deliver (policy : LagPolicy) (channel : X.Channel) (rec : DeltaRecord) :
    Option (X.Channel × Bool × Nat) :=
  match policy with
  | .Block => (X.send channel rec).map fun out => (out.1, out.2, 0)
  | .DisconnectSlow =>
    match X.try_send channel rec with
    | (channel, .Sent) => some (channel, true, 0)
    | (channel, .Full) => some (channel, false, 1)
    | (channel, .Disconnected) => some (channel, false, 0)

namespace World

def new : World X := ⟨[], [], none, [], 0⟩

variable {X}

def push_subscriber (w : World X) (channel : X.Channel) (policy : LagPolicy) : World X :=
  { w with
    subscribers := w.subscribers ++ [⟨w.endpoints.length, policy⟩]
    endpoints := w.endpoints ++ [⟨channel, [], w.published.length⟩] }

/-- An unbounded channel is never full, so the policy never fires. -/
def subscribe (w : World X) : World X := w.push_subscriber X.unbounded .DisconnectSlow

def subscribe_bounded (w : World X) (capacity : Nat) (policy : LagPolicy) : World X :=
  w.push_subscriber (X.bounded capacity) policy

/-- The start of a publish: the senders are read under the lock. One publisher at a time. -/
def publish_record (w : World X) (rec : DeltaRecord) : Option (World X) :=
  match w.publishing with
  | some _ => none
  | none =>
    some { w with
      publishing := some ⟨rec, w.subscribers, [], 0⟩
      published := w.published ++ [rec] }

/-- Serve the next sender of the publish under way. -/
def send_next (w : World X) : Option (World X) := do
  let p ← w.publishing
  match p.targets with
  | [] => none
  | s :: targets =>
    let e ← w.endpoints[s.tx]?
    let (channel, delivered, lagged) ← deliver s.policy e.channel p.record
    return { w with
      endpoints := w.endpoints.set s.tx { e with channel := channel }
      publishing := some { p with
        targets := targets
        failed := if delivered then p.failed else p.failed ++ [s.tx]
        dropped_for_lag := p.dropped_for_lag + lagged } }

/-- The end of a publish: those whose send failed are removed, under the lock again. -/
def reap (w : World X) : Option (World X) := do
  let p ← w.publishing
  match p.targets with
  | _ :: _ => none
  | [] =>
    return { w with
      subscribers := w.subscribers.filter fun s => s.tx ∉ p.failed
      publishing := none
      dropped_subscribers := w.dropped_subscribers + p.dropped_for_lag }

/-- A receiver that is not gone changes its channel. -/
def on_receiver (w : World X) (tx : Nat) (f : Endpoint X → Option (Endpoint X)) :
    Option (World X) := do
  let e ← w.endpoints[tx]?
  if X.dropped e.channel then none
  else do
    let e ← f e
    return { w with endpoints := w.endpoints.set tx e }

/-- The receiver takes the next record. -/
def drain (w : World X) (tx : Nat) : Option (World X) :=
  w.on_receiver tx fun e => do
    let (channel, rec) ← X.recv e.channel
    return { e with channel := channel, received := e.received ++ [rec] }

def wait (w : World X) (tx : Nat) : Option (World X) :=
  w.on_receiver tx fun e => some { e with channel := X.wait e.channel }

def drop_receiver (w : World X) (tx : Nat) : Option (World X) :=
  w.on_receiver tx fun e => some { e with channel := X.drop_receiver e.channel }

end World

/-- A step of the publisher, of a subscriber or of the feed. -/
inductive Action where
  | subscribe
  | subscribe_bounded (capacity : Nat) (policy : LagPolicy)
  | publish_record (rec : DeltaRecord)
  | send_next
  | reap
  | drain (tx : Nat)
  | wait (tx : Nat)
  | drop_receiver (tx : Nat)
deriving DecidableEq, Repr

variable {X}

def World.act (w : World X) : Action → Option (World X)
  | .subscribe => some w.subscribe
  | .subscribe_bounded capacity policy => some (w.subscribe_bounded capacity policy)
  | .publish_record rec => w.publish_record rec
  | .send_next => w.send_next
  | .reap => w.reap
  | .drain tx => w.drain tx
  | .wait tx => w.wait tx
  | .drop_receiver tx => w.drop_receiver tx

/-- The world after the actions, oldest first; nothing when one of them could not be taken. -/
def after (X : Channels DeltaRecord) (actions : List Action) : Option (World X) :=
  actions.foldlM World.act (World.new X)

end horndb.incremental.change_feed
