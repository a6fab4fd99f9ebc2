import ParitySolver.Fault

/-
  This file defines checked access to tables: arrays that
  are read and written at a position that has to exist. A
  table also has to fit in half of the address space. The
  memory itself is taken to be unbounded.

  Key definitions include:
    * `Table.Fits`
    * `Table.requireRoom`
    * `Table.get`
    * `Table.set`
    * `Table.modify`
    * `Table.swap`

  Correctness is proven by:
    * `Table.requireRoom_eq_ok_iff`
    * `Table.get_eq_ok_iff`
    * `Table.set_of_lt`
-/

namespace ParitySolver.Table

variable {α : Type}

------------------------------------------------------------
-- Sizes
------------------------------------------------------------

/- Can there be a table of so many entries of so many bytes each? -/
def Fits
    (width size : Nat) : Prop :=
  width * size < 0x8000000000000000

instance
    (width size : Nat) :
    Decidable (Fits width size) :=
  inferInstanceAs (Decidable (_ < _))

/- Refuse a size for which there can be no table. -/
def requireRoom
    (width size : Nat) : Except Fault Unit :=
  require (Fits width size) (.capacityOverflow size)

theorem requireRoom_of_fits
    {width size : Nat}
    (hFits : Fits width size) :
    requireRoom width size = .ok () := by
  simp [requireRoom, require, hFits]

theorem requireRoom_eq_ok_iff
    {width size : Nat}
    {u : Unit} :
    requireRoom width size = .ok u ↔ Fits width size := by
  cases u
  rw [requireRoom, require_eq_ok_iff, decide_eq_true_iff]

theorem requireRoom_of_not_fits
    {width size : Nat}
    (hNot : ¬ Fits width size) :
    requireRoom width size = .error (.capacityOverflow size) := by
  simp [requireRoom, require, hNot]

------------------------------------------------------------
-- Checked access
------------------------------------------------------------

/- The entry at a position. -/
def get
    (table : Array α)
    (i : Nat) : Except Fault α :=
  match table[i]? with
  | some a => .ok a
  | none => .error (.outOfRange i table.size)

/- The table with another entry at a position. -/
def set
    (table : Array α)
    (i : Nat)
    (a : α) : Except Fault (Array α) :=
  if i < table.size then
    .ok (table.setIfInBounds i a)
  else
    .error (.outOfRange i table.size)

/- The table with the entry at a position changed. -/
def modify
    (table : Array α)
    (i : Nat)
    (f : α → α) : Except Fault (Array α) :=
  if i < table.size then
    .ok (table.modify i f)
  else
    .error (.outOfRange i table.size)

/- The table with two entries exchanged. -/
def swap
    (table : Array α)
    (i j : Nat) : Except Fault (Array α) :=
  if i < table.size && j < table.size then
    .ok (table.swapIfInBounds i j)
  else
    .error (.outOfRange (max i j) table.size)

------------------------------------------------------------
-- Basic facts
------------------------------------------------------------

theorem get_eq_ok_iff
    {table : Array α}
    {i : Nat}
    {a : α} :
    get table i = .ok a ↔ table[i]? = some a := by
  unfold get
  cases table[i]? <;> simp

theorem get_of_lt
    {table : Array α}
    {i : Nat}
    (hLt : i < table.size) :
    get table i = .ok table[i] := by
  simp [get, hLt]

theorem set_of_lt
    {table : Array α}
    {i : Nat}
    (a : α)
    (hLt : i < table.size) :
    set table i a = .ok (table.setIfInBounds i a) := by
  simp [set, hLt]

end ParitySolver.Table
