-- Readers of bytes: a reader takes its value off the front of the bytes that are left, or
-- stops with an error. What it reads back of what was written composes field by field.
import Mathlib

namespace HornDb.Lib.Wire

abbrev Bytes := List UInt8

abbrev Reader (ε α : Type) := StateT Bytes (Except ε) α

variable {ε α β : Type}

/-- The reader takes exactly `bytes` for `a`, whatever follows them, and stops in every
strict prefix of them. -/
structure Reads (r : Reader ε α) (bytes : Bytes) (a : α) : Prop where
  back : ∀ rest, r (bytes ++ rest) = .ok (a, rest)
  short : ∀ p, p <+: bytes → p ≠ bytes → ∃ e, r p = .error e

/-- Every error of the reader is of the kind `P`. -/
def FailsIn (P : ε → Prop) (r : Reader ε α) : Prop := ∀ bytes e, r bytes = .error e → P e

/-! ## Composition -/

variable {r : Reader ε α} {k : α → Reader ε β}

theorem bind_ok {bytes rest : Bytes} {a : α} (h : r bytes = .ok (a, rest)) :
    (r >>= k) bytes = k a rest := by
  show (r bytes >>= fun p => k p.1 p.2) = k a rest
  rw [h]
  rfl

theorem bind_error {bytes : Bytes} {e : ε} (h : r bytes = .error e) :
    (r >>= k) bytes = .error e := by
  show (r bytes >>= fun p => k p.1 p.2) = .error e
  rw [h]
  rfl

theorem Reads.pure (a : α) : Reads (Pure.pure a : Reader ε α) [] a :=
  ⟨fun _ => rfl, fun _ hp hne => absurd (List.prefix_nil.mp hp) hne⟩

theorem Reads.bind {bytes more : Bytes} {a : α} {b : β} (h : Reads r bytes a)
    (hk : Reads (k a) more b) : Reads (r >>= k) (bytes ++ more) b := by
  refine ⟨fun rest => ?_, fun p hp hne => ?_⟩
  · rw [List.append_assoc, bind_ok (h.back _), hk.back]
  · obtain ⟨rest, hrest⟩ := hp
    rcases List.append_eq_append_iff.mp hrest with ⟨us, hus, _⟩ | ⟨us, hus, hmore⟩
    · by_cases hnil : us = []
      · -- The cut is at the end of the first field.
        rw [hnil, List.append_nil] at hus
        rw [← hus, bind_ok (by simpa using h.back [])]
        refine hk.short [] List.nil_prefix fun hnone => hne ?_
        rw [← hus, ← hnone, List.append_nil]
      · obtain ⟨e, he⟩ := h.short p ⟨us, hus.symm⟩ fun heq => hnil (by simpa [heq] using hus)
        exact ⟨e, bind_error he⟩
    · rw [hus, bind_ok (h.back us)]
      refine hk.short us ⟨rest, hmore.symm⟩ fun heq => hne ?_
      rw [hus, heq]

theorem Reads.map {bytes : Bytes} {a : α} (h : Reads r bytes a) (f : α → β) :
    Reads (r >>= fun x => Pure.pure (f x)) bytes (f a) := by
  have := h.bind (k := fun x => Pure.pure (f x)) (Reads.pure (f a))
  rwa [List.append_nil] at this

/-- The reader stops with an error in `bytes`, whatever follows them. -/
def Refuses (r : Reader ε α) (bytes : Bytes) : Prop := ∀ rest, ∃ e, r (bytes ++ rest) = .error e

theorem Refuses.bind {bytes : Bytes} (h : Refuses r bytes) (k : α → Reader ε β) (more : Bytes) :
    Refuses (r >>= k) (bytes ++ more) := by
  intro rest
  rw [List.append_assoc]
  obtain ⟨e, he⟩ := h (more ++ rest)
  exact ⟨e, bind_error he⟩

theorem Reads.refuses {bytes more : Bytes} {a : α} (h : Reads r bytes a) (hk : Refuses (k a) more) :
    Refuses (r >>= k) (bytes ++ more) := by
  intro rest
  rw [List.append_assoc, bind_ok (h.back _)]
  exact hk rest

variable {P : ε → Prop}

theorem FailsIn.pure (a : α) : FailsIn P (Pure.pure a : Reader ε α) :=
  fun _ _ h => nomatch h

theorem FailsIn.bind (h : FailsIn P r) (hk : ∀ a, FailsIn P (k a)) : FailsIn P (r >>= k) := by
  intro bytes e he
  cases hr : r bytes with
  | error e' =>
    rw [bind_error hr] at he
    cases he
    exact h bytes _ hr
  | ok out =>
    rw [bind_ok hr] at he
    exact hk out.1 out.2 e he

/-! ## Counted lists -/

/-- Read `n` values in a row. -/
def many : Nat → Reader ε α → Reader ε (List α)
  | 0, _ => Pure.pure []
  | n + 1, r => do
    let a ← r
    let rest ← many n r
    Pure.pure (a :: rest)

theorem Reads.many {write : α → Bytes} (l : List α) (h : ∀ a ∈ l, Reads r (write a) a) :
    Reads (many l.length r) (l.flatMap write) l := by
  induction l with
  | nil => exact Reads.pure []
  | cons a l ih =>
    rw [List.forall_mem_cons] at h
    rw [List.flatMap_cons]
    exact h.1.bind ((ih h.2).map (a :: ·))

theorem FailsIn.many (h : FailsIn P r) (n : Nat) : FailsIn P (many n r) := by
  induction n with
  | zero => exact .pure []
  | succ n ih => exact h.bind fun _ => ih.bind fun _ => .pure _

/-! ## Fields of a fixed width -/

/-- The next `n` bytes. -/
def take (short : ε) (n : Nat) : Reader ε Bytes := fun bytes =>
  if bytes.length < n then .error short else .ok (bytes.take n, bytes.drop n)

theorem Reads.take (short : ε) (bytes : Bytes) :
    Reads (take short bytes.length) bytes bytes := by
  refine ⟨fun rest => ?_, fun p hp hne => ⟨short, ?_⟩⟩
  · have hlen : ¬ (bytes ++ rest).length < bytes.length := by
      rw [List.length_append]
      omega
    rw [Wire.take, if_neg hlen, List.take_left, List.drop_left]
  · refine if_pos ?_
    have hle := hp.length_le
    by_contra hno
    exact hne (hp.eq_of_length_le (Nat.not_lt.mp hno))

theorem FailsIn.take {short : ε} (h : P short) (n : Nat) : FailsIn P (take short n) := by
  intro bytes e he
  unfold Wire.take at he
  split at he
  · cases he
    exact h
  · cases he

/-- The low `width` bytes of `n`, the lowest first. -/
def leBytes : Nat → Nat → Bytes
  | 0, _ => []
  | width + 1, n => UInt8.ofNat n :: leBytes width (n / 256)

def ofLe : Bytes → Nat
  | [] => 0
  | b :: bytes => b.toNat + 256 * ofLe bytes

theorem length_leBytes (width n : Nat) : (leBytes width n).length = width := by
  induction width generalizing n with
  | zero => rfl
  | succ width ih => rw [leBytes, List.length_cons, ih]

theorem ofLe_leBytes (width n : Nat) : ofLe (leBytes width n) = n % 256 ^ width := by
  induction width generalizing n with
  | zero => rw [leBytes, ofLe, Nat.pow_zero, Nat.mod_one]
  | succ width ih =>
    have hmod : n % 256 ^ (width + 1) = n % 256 + 256 * (n / 256 % 256 ^ width) := by
      rw [Nat.pow_succ, Nat.mul_comm (256 ^ width), Nat.mod_mul]
    rw [leBytes, ofLe, ih, UInt8.toNat_ofNat', hmod]

/-- Bytes that end a message: a reader that is asked for them and no more. -/
theorem Reads.whole {bytes : Bytes} {a : α} (h : Reads r bytes a) : r bytes = .ok (a, []) := by
  simpa using h.back []

end HornDb.Lib.Wire
