import Folio.Store.Basic
import Folio.Syntax.Grammar

/-!
# Reading a document's body

A body is a sequence of definitions of indirect objects. What is no definition is skipped byte by
byte, and of several definitions with one reference the last counts.
-/

namespace Folio.Store

open Syntax

/-- The store with the definitions in some data added, in at most `fuel` steps. -/
def scan : Nat → Store → Bytes → Store
  | 0, s, _ => s
  | fuel + 1, s, data =>
    match skipSpace data with
    | [] => s
    | b :: rest =>
      match readIndirect? (b :: rest) with
      | some ((target, o), rest) => scan fuel (s.put target o) rest
      | none => scan fuel s rest

/-- The store of a body. Data without any definition is an error. -/
def ofBody (data : Bytes) : Except Error Store :=
  let s := scan data.length .empty data
  if s.isEmpty && !data.isEmpty then .error .noIndirectObjects else .ok s

end Folio.Store
