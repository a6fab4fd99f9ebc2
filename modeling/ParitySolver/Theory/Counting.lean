import ParitySolver.Theory.Context

/-
  This file defines the counting theory. It counts the open
  variables of each constraint and reports a constraint whose
  last variable was assigned so that it is false.

  Key definitions include:
    * `Counting`
    * `Counting.begin`
    * `Counting.assign`
    * `Counting.unassign`
-/

namespace ParitySolver

/-
  For each constraint the number of its variables without a
  value, and the sum of the others.
-/
structure Counting where
  remaining : Array Nat
  folded : Array Bool
deriving DecidableEq, Repr

namespace Counting

/- Nothing is assigned. -/
def ofStore
    (store : Store) : Counting :=
  ⟨store.constraints.map fun c => c.vars.length,
    Array.replicate store.size false⟩

/- The constraints that are false without any assignment. -/
def begin
    (ctx : Context) : Findings :=
  ⟨ctx.store.constraints.toList.zipIdx.filterMap fun (c, position) =>
      if c.vars.isEmpty && c.rhs then
        some (.conflict (.constraint position))
      else
        none,
    []⟩

/- Count an assigned variable in its constraints. -/
def assignRows
    (store : Store)
    (value : Bool) : List Nat → Counting → Except Fault (Counting × List Event)
  | [], t => .ok (t, [])
  | r :: rs, t => do
      let remaining ← Table.get t.remaining r
      require (0 < remaining) (.countUnderflow r)
      let folded ← Table.get t.folded r
      let c ← Table.get store.constraints r
      let (t, events) ← assignRows store value rs
        ⟨t.remaining.setIfInBounds r (remaining - 1),
          t.folded.setIfInBounds r (folded ^^ value)⟩
      if remaining - 1 = 0 && (folded ^^ value) != c.rhs then
        return (t, .conflict (.constraint r) :: events)
      else
        return (t, events)

/- Take in the newest literal of the trail. -/
def assign
    (t : Counting)
    (ctx : Context) : Except Fault (Counting × Findings) := do
  let l ← ctx.newest
  let (t, events) ← assignRows ctx.store l.value (ctx.store.constraintsOf l.index) t
  return (t, ⟨events, []⟩)

/- Forget a variable in one of its constraints. -/
def unassignRow
    (value : Bool)
    (t : Counting)
    (r : Nat) : Except Fault Counting := do
  let remaining ← Table.modify t.remaining r (· + 1)
  let folded ← Table.modify t.folded r (· ^^ value)
  return ⟨remaining, folded⟩

/- Give the newest literal back. -/
def unassign
    (t : Counting)
    (ctx : Context)
    (l : Literal) : Except Fault Counting :=
  (ctx.store.constraintsOf l.index).foldlM (unassignRow l.value) t

end Counting

end ParitySolver
