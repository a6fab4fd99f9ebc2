import Mathlib.Data.List.Forall2
import ParitySolver.Table

/-
  Facts about computations that may end in a fault: when a
  sequence of computations succeeds, and what a loop keeps
  if each of its rounds keeps it.

  Main declarations:
    * `bind_eq_ok`
    * `foldlM_keeps`
    * `exists_foldlM`
    * `foldlM_of_view`
    * `exists_of_foldlM_eq_error`
    * `mapM_eq_ok_iff`
    * `exists_of_mapM_eq_error`
    * `Table.modify_eq_ok_iff`
    * `Table.swap_eq_ok_iff`
-/

namespace ParitySolver

------------------------------------------------------------
-- Sequences
------------------------------------------------------------

variable {ε α β : Type}

/- A sequence succeeds if both of its parts do. -/
theorem bind_eq_ok
    {x : Except ε α}
    {f : α → Except ε β}
    {b : β} :
    (x >>= f) = .ok b ↔ ∃ a, x = .ok a ∧ f a = .ok b := by
  cases x with
  | error e => simp [bind, Except.bind]
  | ok a => simp [bind, Except.bind]

/- A sequence fails in the first of its parts that does. -/
theorem bind_eq_error
    {x : Except ε α}
    {f : α → Except ε β}
    {e : ε} :
    (x >>= f) = .error e ↔
      x = .error e ∨ ∃ a, x = .ok a ∧ f a = .error e := by
  cases x with
  | error e => simp [bind, Except.bind]
  | ok a => simp [bind, Except.bind]

theorem pure_eq_ok
    {a b : α} :
    (pure a : Except ε α) = .ok b ↔ a = b := by
  simp [pure, Except.pure]

theorem throw_ne_ok
    {e : ε}
    {a : α} :
    (throw e : Except ε α) ≠ .ok a := by
  intro hEq
  cases hEq

theorem map_eq_ok
    {x : Except ε α}
    {f : α → β}
    {b : β} :
    x.map f = .ok b ↔ ∃ a, x = .ok a ∧ f a = b := by
  cases x with
  | error e => simp [Except.map]
  | ok a => simp [Except.map]

theorem mapError_eq_ok
    {ε' : Type}
    {x : Except ε α}
    {f : ε → ε'}
    {a : α} :
    x.mapError f = .ok a ↔ x = .ok a := by
  cases x with
  | error e => simp [Except.mapError]
  | ok b => simp [Except.mapError]

/- A computation that passes a test succeeds. -/
theorem exists_ok_of_any
    {x : Except ε α}
    {p : α → Bool}
    (hAny : x.toOption.any p = true) :
    ∃ a, x = .ok a ∧ p a = true := by
  cases x with
  | error fault => cases hAny
  | ok a => exact ⟨a, rfl, hAny⟩

/- A demand succeeds if it is met. -/
theorem require_eq_ok
    {condition : Bool}
    {fault : Fault}
    {u : Unit} :
    require condition fault = .ok u ↔ condition = true := by
  cases u
  exact require_eq_ok_iff

------------------------------------------------------------
-- Loops
------------------------------------------------------------

/- What each round of a loop keeps, the loop keeps. -/
theorem foldlM_keeps
    {f : β → α → Except ε β}
    (P : β → Prop)
    {as : List α}
    (hStep : ∀ a ∈ as, ∀ b c, P b → f b a = .ok c → P c)
    {b c : β}
    (hStart : P b)
    (hRun : as.foldlM f b = .ok c) :
    P c := by
  induction as generalizing b with
  | nil =>
      rw [List.foldlM_nil, pure_eq_ok] at hRun
      exact hRun ▸ hStart
  | cons a as ih =>
      rw [List.foldlM_cons, bind_eq_ok] at hRun
      rcases hRun with ⟨middle, hFirst, hRest⟩
      apply ih
      · intro a' hMem
        exact hStep a' (List.mem_cons_of_mem a hMem)
      · exact hStep a List.mem_cons_self b middle hStart hFirst
      · exact hRest

/-
  If each round of a loop comes to its end and keeps
  something, so does the loop.
-/
theorem exists_foldlM
    {f : β → α → Except ε β}
    (P : β → Prop)
    {as : List α}
    (hStep : ∀ a ∈ as, ∀ b, P b → ∃ c, f b a = .ok c ∧ P c)
    {b : β}
    (hStart : P b) :
    ∃ c, as.foldlM f b = .ok c ∧ P c := by
  induction as generalizing b with
  | nil => exact ⟨b, rfl, hStart⟩
  | cons a as ih =>
      rcases hStep a List.mem_cons_self b hStart with
        ⟨middle, hFirst, hMiddle⟩
      have hRest : ∀ a' ∈ as, ∀ b, P b →
          ∃ c, f b a' = .ok c ∧ P c := by
        intro a' hMem
        exact hStep a' (List.mem_cons_of_mem a hMem)
      rcases ih hRest hMiddle with ⟨c, hRun, hEnd⟩
      refine ⟨c, ?_, hEnd⟩
      rw [List.foldlM_cons, bind_eq_ok]
      exact ⟨middle, hFirst, hRun⟩

/-
  If each round of a loop is also made by another loop, after
  a change of view, so is the whole loop.
-/
theorem foldlM_of_view
    {γ : Type}
    {f : β → α → Except ε β}
    {g : γ → α → Except ε γ}
    (view : β → γ)
    (hStep : ∀ {a b c}, f b a = .ok c → g (view b) a = .ok (view c))
    {as : List α}
    {b c : β}
    (hRun : as.foldlM f b = .ok c) :
    as.foldlM g (view b) = .ok (view c) := by
  induction as generalizing b with
  | nil =>
      rw [List.foldlM_nil, pure_eq_ok] at hRun
      rw [hRun]
      rfl
  | cons a as ih =>
      rw [List.foldlM_cons, bind_eq_ok] at hRun
      rcases hRun with ⟨middle, hFirst, hRest⟩
      rw [List.foldlM_cons, hStep hFirst]
      exact ih hRest

/-
  A loop fails in the first of its rounds that does, and those
  before it come to their end.
-/
theorem exists_of_foldlM_eq_error
    {f : β → α → Except ε β}
    {as : List α}
    {b : β}
    {e : ε}
    (hRun : as.foldlM f b = .error e) :
    ∃ before a after c, as = before ++ a :: after ∧
      before.foldlM f b = .ok c ∧ f c a = .error e := by
  induction as generalizing b with
  | nil => cases hRun
  | cons a as ih =>
      rw [List.foldlM_cons, bind_eq_error] at hRun
      rcases hRun with hHead | ⟨middle, hHead, hRest⟩
      · exact ⟨[], a, as, b, rfl, rfl, hHead⟩
      · rcases ih hRest with ⟨before, a', after, c, rfl, hBefore, hLast⟩
        refine ⟨a :: before, a', after, c, rfl, ?_, hLast⟩
        rw [List.foldlM_cons, bind_eq_ok]
        exact ⟨middle, hHead, hBefore⟩

/- Demands that are all met. -/
theorem forM_of_ok
    {f : α → Except ε PUnit}
    {as : List α}
    (hEach : ∀ a ∈ as, f a = .ok ()) :
    as.forM f = .ok () := by
  induction as with
  | nil => rfl
  | cons a as ih =>
      rcases List.forall_mem_cons.mp hEach with ⟨hHead, hTail⟩
      refine bind_eq_ok.mpr ⟨(), hHead, ?_⟩
      exact ih hTail

/- The first demand that is not met is reported. -/
theorem forM_of_error
    {f : α → Except ε PUnit}
    {before after : List α}
    {a : α}
    {e : ε}
    (hBefore : ∀ a' ∈ before, f a' = .ok ())
    (hLast : f a = .error e) :
    (before ++ a :: after).forM f = .error e := by
  induction before with
  | nil => exact bind_eq_error.mpr (.inl hLast)
  | cons a' before ih =>
      rcases List.forall_mem_cons.mp hBefore with ⟨hHead, hTail⟩
      exact bind_eq_error.mpr (.inr ⟨(), hHead, ih hTail⟩)

/-
  A list of computations succeeds if each of them does, and
  the results are those of the computations in order.
-/
theorem mapM_eq_ok_iff
    {f : α → Except ε β}
    {as : List α}
    {bs : List β} :
    as.mapM f = .ok bs ↔
      List.Forall₂ (fun a b => f a = .ok b) as bs := by
  induction as generalizing bs with
  | nil =>
      rw [List.mapM_nil, pure_eq_ok]
      constructor
      · rintro rfl
        exact .nil
      · intro hAll
        cases hAll
        rfl
  | cons a as ih =>
      rw [List.mapM_cons, bind_eq_ok]
      constructor
      · rintro ⟨b, hHead, hRest⟩
        rw [bind_eq_ok] at hRest
        rcases hRest with ⟨rest, hTail, hEq⟩
        rw [pure_eq_ok] at hEq
        exact hEq ▸ .cons hHead (ih.mp hTail)
      · intro hAll
        cases hAll with
        | cons hHead hTail =>
            refine ⟨_, hHead, ?_⟩
            rw [bind_eq_ok]
            exact ⟨_, ih.mpr hTail, rfl⟩

/-
  A list of computations fails in the first of them that
  does, and those before it succeed.
-/
theorem exists_of_mapM_eq_error
    {f : α → Except ε β}
    {as : List α}
    {e : ε}
    (hRun : as.mapM f = .error e) :
    ∃ before a after, as = before ++ a :: after ∧
      (∀ a' ∈ before, ∃ b, f a' = .ok b) ∧ f a = .error e := by
  induction as with
  | nil => cases hRun
  | cons a as ih =>
      rw [List.mapM_cons, bind_eq_error] at hRun
      rcases hRun with hHead | ⟨b, hHead, hRest⟩
      · exact ⟨[], a, as, rfl, nofun, hHead⟩
      · rcases bind_eq_error.mp hRest with hTail | ⟨_, _, hEnd⟩
        · rcases ih hTail with ⟨before, a', after, rfl, hBefore, hLast⟩
          refine ⟨a :: before, a', after, rfl, ?_, hLast⟩
          exact List.forall_mem_cons.mpr ⟨⟨b, hHead⟩, hBefore⟩
        · cases hEnd

/- The results of computations that give the same up to a view. -/
theorem mapM_of_view
    {γ : Type}
    {f : α → Except ε β}
    {g : α → Except ε γ}
    (view : β → γ)
    (hEach : ∀ {a b}, f a = .ok b → g a = .ok (view b))
    {as : List α}
    {bs : List β}
    (hRun : as.mapM f = .ok bs) :
    as.mapM g = .ok (bs.map view) := by
  rw [mapM_eq_ok_iff] at hRun ⊢
  rw [List.forall₂_map_right_iff]
  exact hRun.imp fun _ _ => hEach

theorem exists_mapM
    {f : α → Except ε β}
    {as : List α}
    (hEach : ∀ a ∈ as, ∃ b, f a = .ok b) :
    ∃ bs, as.mapM f = .ok bs := by
  induction as with
  | nil => exact ⟨[], rfl⟩
  | cons a as ih =>
      rcases List.forall_mem_cons.mp hEach with ⟨⟨b, hHead⟩, hTail⟩
      rcases ih hTail with ⟨bs, hRest⟩
      refine ⟨b :: bs, mapM_eq_ok_iff.mpr ?_⟩
      exact .cons hHead (mapM_eq_ok_iff.mp hRest)

/- If each result is known, a map with failures is a plain map. -/
theorem eq_map_of_mapM
    {f : α → Except ε β}
    {g : α → β}
    {as : List α}
    {bs : List β}
    (hRun : as.mapM f = .ok bs)
    (hEach : ∀ a ∈ as, ∀ b, f a = .ok b → b = g a) :
    bs = as.map g := by
  have hAll := mapM_eq_ok_iff.mp hRun
  clear hRun
  induction hAll with
  | nil => rfl
  | cons hHead _ ih =>
      rcases List.forall_mem_cons.mp hEach with ⟨hFirst, hRest⟩
      rw [List.map_cons, hFirst _ hHead, ih hRest]

/- Each result of a list of computations is the result of one of them. -/
theorem exists_of_forall₂_of_mem
    {R : α → β → Prop}
    {as : List α}
    {bs : List β}
    (hAll : List.Forall₂ R as bs)
    {b : β}
    (hMem : b ∈ bs) :
    ∃ a ∈ as, R a b := by
  induction hAll with
  | nil => cases hMem
  | cons hHead _ ih =>
      rcases List.mem_cons.mp hMem with rfl | hTail
      · exact ⟨_, List.mem_cons_self, hHead⟩
      · rcases ih hTail with ⟨a, hIn, hRel⟩
        exact ⟨a, List.mem_cons_of_mem _ hIn, hRel⟩

/- The results of a list of computations, by position. -/
theorem getElem?_of_forall₂
    {R : α → β → Prop}
    {as : List α}
    {bs : List β}
    (hAll : List.Forall₂ R as bs)
    {i : Nat}
    {b : β}
    (hGet : bs[i]? = some b) :
    ∃ a, as[i]? = some a ∧ R a b := by
  induction hAll generalizing i with
  | nil => cases hGet
  | cons hHead _ ih =>
      cases i with
      | zero =>
          cases hGet
          exact ⟨_, rfl, hHead⟩
      | succ i => exact ih hGet

------------------------------------------------------------
-- Tables
------------------------------------------------------------

namespace Table

theorem set_eq_ok_iff
    {table result : Array α}
    {i : Nat}
    {a : α} :
    set table i a = .ok result ↔
      i < table.size ∧ table.setIfInBounds i a = result := by
  unfold set
  by_cases hLt : i < table.size
  · simp [hLt]
  · simp [hLt]

theorem modify_eq_ok_iff
    {table result : Array α}
    {i : Nat}
    {f : α → α} :
    modify table i f = .ok result ↔
      i < table.size ∧ table.modify i f = result := by
  unfold modify
  by_cases hLt : i < table.size
  · simp [hLt]
  · simp [hLt]

theorem swap_eq_ok_iff
    {table result : Array α}
    {i j : Nat} :
    swap table i j = .ok result ↔
      (i < table.size ∧ j < table.size) ∧
        table.swapIfInBounds i j = result := by
  unfold swap
  by_cases hLt : i < table.size ∧ j < table.size
  · simp [hLt]
  · rw [if_neg (by simpa using hLt)]
    simp [hLt]

/- Setting an entry to what it is changes nothing. -/
theorem setIfInBounds_self
    {table : Array α}
    {i : Nat}
    {a : α}
    (hAt : table[i]? = some a) :
    table.setIfInBounds i a = table := by
  apply Array.ext_getElem?
  intro j
  by_cases hEq : i = j
  · subst hEq
    have hLt := (Array.getElem?_eq_some_iff.mp hAt).1
    rw [Array.getElem?_setIfInBounds_self_of_lt hLt, hAt]
  · rw [Array.getElem?_setIfInBounds_ne hEq]

/- Setting an entry to what it was restores the table. -/
theorem setIfInBounds_restore
    {table : Array α}
    {i : Nat}
    {a : α}
    (f : α → α)
    (hAt : table[i]? = some a) :
    (table.modify i f).setIfInBounds i a = table := by
  apply Array.ext_getElem?
  intro j
  by_cases hEq : i = j
  · subst hEq
    have hLt := (Array.getElem?_eq_some_iff.mp hAt).1
    rw [Array.getElem?_setIfInBounds_self_of_lt (by simpa using hLt),
      hAt]
  · rw [Array.getElem?_setIfInBounds_ne hEq, Array.getElem?_modify,
      if_neg hEq]

theorem setIfInBounds_eq_modify
    {table : Array α}
    {i : Nat}
    {a : α}
    (f : α → α)
    (hAt : table[i]? = some a) :
    table.setIfInBounds i (f a) = table.modify i f := by
  apply Array.ext_getElem?
  intro j
  rw [Array.getElem?_modify]
  by_cases hEq : i = j
  · subst hEq
    have hLt := (Array.getElem?_eq_some_iff.mp hAt).1
    rw [Array.getElem?_setIfInBounds_self_of_lt hLt, if_pos rfl, hAt]
    rfl
  · rw [Array.getElem?_setIfInBounds_ne hEq, if_neg hEq]

/- Exchanging two entries twice changes nothing. -/
theorem swapIfInBounds_swapIfInBounds
    (table : Array α)
    (i j : Nat) :
    (table.swapIfInBounds i j).swapIfInBounds i j = table := by
  apply Array.ext_getElem?
  intro k
  grind [Array.swapIfInBounds]

/- Taking the last entry off again restores the table. -/
theorem modify_pop_modify_push
    (table : Array (Array α))
    (i : Nat)
    (a : α) :
    (table.modify i (·.push a)).modify i Array.pop = table := by
  apply Array.ext_getElem?
  intro j
  rw [Array.getElem?_modify, Array.getElem?_modify]
  by_cases hEq : i = j
  · simp only [if_pos hEq, Option.map_map]
    cases table[j]? with
    | none => rfl
    | some entry => simp
  · simp only [if_neg hEq]

------------------------------------------------------------
-- Changing several entries
------------------------------------------------------------

theorem getElem?_foldl_modify
    (f : α → α)
    {is : List Nat}
    (hNodup : is.Nodup)
    (table : Array α)
    (j : Nat) :
    (is.foldl (fun table i => table.modify i f) table)[j]? =
      if j ∈ is then table[j]?.map f else table[j]? := by
  induction is generalizing table with
  | nil => simp
  | cons i is ih =>
      rw [List.nodup_cons] at hNodup
      rw [List.foldl_cons, ih hNodup.2, Array.getElem?_modify]
      by_cases hEq : i = j
      · subst hEq
        simp [hNodup.1]
      · simp [hEq, Ne.symm hEq]

/- Changing the same entries back restores the table. -/
theorem foldl_modify_foldl_modify
    {f g : α → α}
    {is : List Nat}
    (hNodup : is.Nodup)
    {table : Array α}
    (hBack : ∀ i ∈ is, ∀ a, table[i]? = some a → g (f a) = a) :
    is.foldl (fun table i => table.modify i g)
        (is.foldl (fun table i => table.modify i f) table) =
      table := by
  apply Array.ext_getElem?
  intro j
  rw [getElem?_foldl_modify g hNodup, getElem?_foldl_modify f hNodup]
  by_cases hMem : j ∈ is
  · simp only [if_pos hMem, Option.map_map]
    cases hGet : table[j]? with
    | none => rfl
    | some a => exact congrArg some (hBack j hMem a hGet)
  · simp only [if_neg hMem]

theorem size_foldl_modify
    (f : α → α)
    (is : List Nat)
    (table : Array α) :
    (is.foldl (fun table i => table.modify i f) table).size =
      table.size := by
  induction is generalizing table with
  | nil => rfl
  | cons i is ih => rw [List.foldl_cons, ih, Array.size_modify]

theorem foldlM_modify_eq_ok_iff
    {f : α → α}
    {is : List Nat}
    {table result : Array α} :
    is.foldlM (fun table i => modify table i f) table =
        .ok result ↔
      (∀ i ∈ is, i < table.size) ∧
        is.foldl (fun table i => table.modify i f) table =
          result := by
  induction is generalizing table with
  | nil =>
      simp only [List.foldlM_nil, pure_eq_ok, List.foldl_nil,
        List.not_mem_nil, false_implies, implies_true, true_and]
  | cons i is ih =>
      simp only [List.foldlM_cons, bind_eq_ok, modify_eq_ok_iff,
        List.foldl_cons, List.forall_mem_cons]
      constructor
      · rintro ⟨_, ⟨hLt, rfl⟩, hRest⟩
        rcases ih.mp hRest with ⟨hAll, hEq⟩
        rw [Array.size_modify] at hAll
        exact ⟨⟨hLt, hAll⟩, hEq⟩
      · rintro ⟨⟨hLt, hAll⟩, hEq⟩
        refine ⟨_, ⟨hLt, rfl⟩, ih.mpr ⟨?_, hEq⟩⟩
        rw [Array.size_modify]
        exact hAll

end Table

end ParitySolver
