-- Channels of one receiver as a library gives them: bounded or not, with a send that waits and one
-- that does not. Only what the operations promise about the queue is stated, so that any channel
-- with these promises may stand in.
import Mathlib

namespace HornDb.Lib

/-- What a send that does not wait comes to. -/
inductive TrySend where
  | Sent
  | Full
  | Disconnected
deriving DecidableEq, Repr

/-- The operations on a channel and what they promise. `wait` is a receiver that waits for the
next record; a channel of capacity 0 hands a record over only to such a receiver. -/
structure Channels (ρ : Type) where
  Channel : Type
  unbounded : Channel
  bounded : Nat → Channel
  try_send : Channel → ρ → Channel × TrySend
  send : Channel → ρ → Option (Channel × Bool)
  recv : Channel → Option (Channel × ρ)
  wait : Channel → Channel
  drop_receiver : Channel → Channel
  queue : Channel → List ρ
  capacity : Channel → Option Nat
  dropped : Channel → Bool
  unbounded_new : queue unbounded = [] ∧ capacity unbounded = none ∧ dropped unbounded = false
  bounded_new : ∀ n, queue (bounded n) = [] ∧ capacity (bounded n) = some n ∧
    dropped (bounded n) = false
  try_send_sent : ∀ {c c' x}, try_send c x = (c', .Sent) →
    queue c' = queue c ++ [x] ∧ capacity c' = capacity c ∧ dropped c' = dropped c
  try_send_full : ∀ {c c' x}, try_send c x = (c', .Full) →
    c' = c ∧ ∃ n, capacity c = some n ∧ n ≤ (queue c).length
  try_send_disconnected : ∀ {c c' x}, try_send c x = (c', .Disconnected) →
    c' = c ∧ dropped c = true
  send_sent : ∀ {c c' x}, send c x = some (c', true) →
    queue c' = queue c ++ [x] ∧ capacity c' = capacity c ∧ dropped c' = dropped c
  send_disconnected : ∀ {c c' x}, send c x = some (c', false) → c' = c ∧ dropped c = true
  recv_takes : ∀ {c c' x}, recv c = some (c', x) →
    queue c = x :: queue c' ∧ capacity c' = capacity c ∧ dropped c' = dropped c
  wait_keeps : ∀ c, queue (wait c) = queue c ∧ capacity (wait c) = capacity c ∧
    dropped (wait c) = dropped c
  drop_drops : ∀ c, capacity (drop_receiver c) = capacity c ∧ dropped (drop_receiver c) = true

namespace Channels

variable {ρ : Type} (X : Channels ρ)

/-- The queue holds as many records as the channel has room for. -/
def Full (c : X.Channel) : Prop := ∃ n, X.capacity c = some n ∧ n ≤ (X.queue c).length

/-! ## First in, first out -/

/-- A queue in memory. `waiting` is set while a receiver waits. -/
structure Fifo (ρ : Type) where
  records : List ρ
  room : Option Nat
  waiting : Bool
  gone : Bool
deriving DecidableEq, Repr

namespace Fifo

/-- The queue takes a record: it has room, or it has none at all and a receiver waits. -/
def takes (c : Fifo ρ) : Bool :=
  match c.room with
  | none => true
  | some 0 => c.waiting && c.records.isEmpty
  | some n => c.records.length < n

def push (c : Fifo ρ) (x : ρ) : Fifo ρ :=
  { c with records := c.records ++ [x], waiting := false }

theorem full_of_not_takes {c : Fifo ρ} (h : c.takes = false) :
    ∃ n, c.room = some n ∧ n ≤ c.records.length := by
  unfold takes at h
  split at h
  · cases h
  · rename_i hroom
    exact ⟨0, hroom, Nat.zero_le _⟩
  · rename_i n _ hroom
    exact ⟨n, hroom, by simpa using h⟩

end Fifo

def fifo (ρ : Type) : Channels ρ where
  Channel := Fifo ρ
  unbounded := ⟨[], none, false, false⟩
  bounded n := ⟨[], some n, false, false⟩
  try_send c x :=
    if c.gone then (c, .Disconnected) else if c.takes then (c.push x, .Sent) else (c, .Full)
  send c x := if c.gone then some (c, false) else if c.takes then some (c.push x, true) else none
  recv c :=
    match c.records with
    | [] => none
    | x :: records => some ({ c with records := records }, x)
  wait c := { c with waiting := true }
  drop_receiver c := { c with records := [], gone := true }
  queue := Fifo.records
  capacity := Fifo.room
  dropped := Fifo.gone
  unbounded_new := ⟨rfl, rfl, rfl⟩
  bounded_new _ := ⟨rfl, rfl, rfl⟩
  try_send_sent {c c' x} h := by
    split at h
    · cases h
    · split at h
      · cases h
        exact ⟨rfl, rfl, rfl⟩
      · cases h
  try_send_full {c c' x} h := by
    split at h
    · cases h
    · split at h
      · cases h
      · rename_i htakes
        cases h
        exact ⟨rfl, Fifo.full_of_not_takes (by simpa using htakes)⟩
  try_send_disconnected {c c' x} h := by
    split at h
    · rename_i hgone
      cases h
      exact ⟨rfl, hgone⟩
    · split at h <;> cases h
  send_sent {c c' x} h := by
    split at h
    · cases h
    · split at h
      · cases h
        exact ⟨rfl, rfl, rfl⟩
      · cases h
  send_disconnected {c c' x} h := by
    split at h
    · rename_i hgone
      cases h
      exact ⟨rfl, hgone⟩
    · split at h <;> cases h
  recv_takes {c c' x} h := by
    cases hrecords : c.records with
    | nil =>
      rw [hrecords] at h
      cases h
    | cons y records =>
      rw [hrecords] at h
      cases h
      exact ⟨rfl, rfl, rfl⟩
  wait_keeps _ := ⟨rfl, rfl, rfl⟩
  drop_drops _ := ⟨rfl, rfl⟩

end Channels

end HornDb.Lib
