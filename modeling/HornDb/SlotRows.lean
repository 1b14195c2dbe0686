-- The rows of the executor: cells that hold a dictionary id, a term by its text, or nothing.
import HornDb.QuadStore
import HornDb.TermIds

open horndb.storage (TermId)

namespace horndb.sparql.exec

/-! ## Cells and rows -/

abbrev Var := String

inductive Slot where
  | Id (id : TermId)
  | Term (t : Term)
  | Unbound
deriving DecidableEq

abbrev Row := List Slot

/-- Rows are as long as their schema, so the default is never read. -/
def Row.at (row : Row) (i : Nat) : Slot := row.getD i .Unbound

/-- What each variable is bound to, if it is. -/
abbrev Bindings := Var → Option Term

inductive KeyPart where
  | Id (id : Nat)
  | Lex (s : String)
  | Unbound
deriving DecidableEq

def lex : Term → String
  | .Iri s | .Literal s | .BlankNode s => s
  | .Var name => name
  | .Triple _ _ _ => ""

def Slot.key_part : Slot → KeyPart
  | .Id id => .Id id
  | .Term t => .Lex (lex t)
  | .Unbound => .Unbound

structure Batch where
  schema : List Var
  rows : List Row

/-! ## Chunks -/

/-- The rows that wait to be handed out, some at a time. -/
def next_chunk (batch_rows : Nat) (rows : List Row) : Option (List Row × List Row) :=
  let chunk := rows.take batch_rows
  if chunk.isEmpty then none else some (chunk, rows.drop batch_rows)

theorem next_chunk_eq_some {n : Nat} {rows chunk rest : List Row}
    (h : next_chunk n rows = some (chunk, rest)) :
    rows = chunk ++ rest ∧ chunk ≠ [] ∧ chunk.length ≤ n := by
  simp only [next_chunk] at h
  split at h
  · cases h
  · rename_i hne
    cases h
    refine ⟨(List.take_append_drop n rows).symm, ?_, List.length_take_le n rows⟩
    simpa using hne

end horndb.sparql.exec
