import ParitySolver.Proofs.Outcome
import ParitySolver.Trail

/-
  Facts about trails. Taking in a literal gives its variable
  a value and nothing else, and dropping it gives the former
  trail back. A trail that was built by taking in literals
  has in its table what its entries say.

  Key definitions include:
    * `Trail.Orderly`

  Main declarations:
    * `Trail.push_eq_ok`
    * `Trail.popAbove?_of_push`
    * `Trail.Orderly.push`
-/

namespace ParitySolver

namespace Trail

variable {t t' : Trail}

------------------------------------------------------------
-- Reading
------------------------------------------------------------

theorem value_of_read
    {v : Nat}
    {value? : Option Bool}
    (hRead : t.read v = .ok value?) :
    t.value v = value? := by
  have hGet := Table.get_eq_ok_iff.mp hRead
  unfold Trail.value
  rw [Array.getD_eq_getD_getElem?, hGet]
  rfl

theorem isSome_value_of_isAssigned
    {v : Nat}
    {b : Bool}
    (hAssigned : t.isAssigned v = .ok b) :
    (t.value v).isSome = b := by
  rcases map_eq_ok.mp hAssigned with ⟨value?, hRead, hSome⟩
  rw [value_of_read hRead, hSome]

@[simp]
theorem value_empty
    (numVariables v : Nat) :
    (empty numVariables).value v = none := by
  unfold empty value
  rw [Array.getD_eq_getD_getElem?, Array.getElem?_replicate]
  split
  · rfl
  · rfl

------------------------------------------------------------
-- Taking in and dropping
------------------------------------------------------------

theorem push_eq_ok
    {l : Literal}
    {level : Nat}
    (hPush : t.push l level = .ok t') :
    t.values[l.index]? = some none ∧
      t.level ≤ level ∧
      t' = ⟨t.values.setIfInBounds l.index (some l.value),
        ⟨l, level⟩ :: t.entries⟩ := by
  simp only [push, bind_eq_ok, pure_eq_ok, require_eq_ok,
    exists_const, Table.set_eq_ok_iff] at hPush
  rcases hPush with ⟨value?, hRead, hNone, hLevel, _, ⟨_, hSet⟩, hEq⟩
  cases value? with
  | some b => cases hNone
  | none =>
      refine ⟨Table.get_eq_ok_iff.mp hRead, ?_, ?_⟩
      · exact of_decide_eq_true hLevel
      · rw [← hEq, ← hSet]

theorem value_eq_none_of_push
    {l : Literal}
    {level : Nat}
    (hPush : t.push l level = .ok t') :
    t.value l.index = none :=
  value_of_read (Table.get_eq_ok_iff.mpr (push_eq_ok hPush).1)

theorem value_of_push
    {l : Literal}
    {level : Nat}
    (hPush : t.push l level = .ok t')
    (w : Nat) :
    t'.value w =
      if w = l.index then some l.value else t.value w := by
  rcases push_eq_ok hPush with ⟨hGet, _, rfl⟩
  have hLt : l.index < t.values.size :=
    (Array.getElem?_eq_some_iff.mp hGet).1
  simp only [value, Array.getD_eq_getD_getElem?]
  by_cases hEq : w = l.index
  · subst hEq
    rw [Array.getElem?_setIfInBounds_self_of_lt hLt, if_pos rfl]
    rfl
  · rw [Array.getElem?_setIfInBounds_ne (Ne.symm hEq), if_neg hEq]

theorem entries_of_push
    {l : Literal}
    {level : Nat}
    (hPush : t.push l level = .ok t') :
    t'.entries = ⟨l, level⟩ :: t.entries := by
  rw [(push_eq_ok hPush).2.2]

theorem size_values_of_push
    {l : Literal}
    {level : Nat}
    (hPush : t.push l level = .ok t') :
    t'.values.size = t.values.size := by
  rcases push_eq_ok hPush with ⟨_, _, rfl⟩
  exact Array.size_setIfInBounds

theorem last?_of_push
    {l : Literal}
    {level : Nat}
    (hPush : t.push l level = .ok t') :
    t'.last? = some l := by
  rw [last?, entries_of_push hPush]
  rfl

/- What was pushed last, and onto what, can be read off. -/
theorem eq_of_push
    {t₁ t₂ t : Trail}
    {l₁ l₂ : Literal}
    {level₁ level₂ : Nat}
    (hFirst : t₁.push l₁ level₁ = .ok t)
    (hSecond : t₂.push l₂ level₂ = .ok t) :
    t₁ = t₂ := by
  have hEntries :=
    (entries_of_push hFirst).symm.trans (entries_of_push hSecond)
  simp only [List.cons.injEq, TrailEntry.mk.injEq] at hEntries
  rcases hEntries with ⟨⟨rfl, rfl⟩, hOlder⟩
  have hValues : ∀ {u : Trail}, u.push l₁ level₁ = .ok t →
      u.values = t.values.setIfInBounds l₁.index none := by
    intro u hPush
    rcases push_eq_ok hPush with ⟨hOpen, _, rfl⟩
    simp only [Array.setIfInBounds_setIfInBounds]
    exact (Table.setIfInBounds_self hOpen).symm
  rcases t₁ with ⟨values₁, entries₁⟩
  rcases t₂ with ⟨values₂, entries₂⟩
  simp only [Trail.mk.injEq]
  exact ⟨(hValues hFirst).trans (hValues hSecond).symm, hOlder⟩

/- Dropping undoes taking in. -/
theorem popAbove?_of_push
    {l : Literal}
    {level : Nat}
    (hPush : t.push l level = .ok t')
    (bound : Nat) :
    t'.popAbove? bound =
      if level ≤ bound then .ok none else .ok (some (l, t)) := by
  rcases push_eq_ok hPush with ⟨hGet, _, rfl⟩
  have hLt : l.index < t.values.size :=
    (Array.getElem?_eq_some_iff.mp hGet).1
  have hRestore :
      (t.values.setIfInBounds l.index (some l.value)).setIfInBounds
        l.index none = t.values := by
    rw [Array.setIfInBounds_setIfInBounds,
      Table.setIfInBounds_self hGet]
  unfold popAbove?
  by_cases hLe : level ≤ bound
  · simp only [if_pos hLe]
  · simp only [if_neg hLe]
    rw [Table.set_of_lt none (by simpa using hLt), hRestore]
    rfl

------------------------------------------------------------
-- Orderly trails
------------------------------------------------------------

/- The table has what the entries say, and levels ascend. -/
structure Orderly (t : Trail) : Prop where
  value_iff :
    ∀ v b, t.value v = some b ↔
      ∃ entry ∈ t.entries, entry.literal = ⟨v, b⟩
  distinct :
    (t.entries.map fun entry => entry.literal.index).Nodup
  levels :
    t.entries.Pairwise fun newer older => older.level ≤ newer.level

theorem orderly_empty
    (numVariables : Nat) :
    (empty numVariables).Orderly := by
  constructor
  · intro v b
    rw [value_empty]
    simp only [empty, List.not_mem_nil, false_and, exists_false, reduceCtorEq]
  · exact List.nodup_nil
  · exact List.Pairwise.nil

theorem Orderly.level_le
    (hTrail : t.Orderly)
    {entry : TrailEntry}
    (hMem : entry ∈ t.entries) :
    entry.level ≤ t.level := by
  have hLevels := hTrail.levels
  unfold Trail.level
  cases hEntries : t.entries with
  | nil =>
      rw [hEntries] at hMem
      cases hMem
  | cons newest older =>
      rw [hEntries] at hMem hLevels
      rcases List.mem_cons.mp hMem with rfl | hOlder
      · exact Nat.le_refl _
      · exact List.rel_of_pairwise_cons hLevels hOlder

theorem Orderly.push
    (hTrail : t.Orderly)
    {l : Literal}
    {level : Nat}
    (hPush : t.push l level = .ok t') :
    t'.Orderly := by
  have hOpen := value_eq_none_of_push hPush
  have hEntries := entries_of_push hPush
  have hNew : ∀ entry ∈ t.entries, entry.literal.index ≠ l.index := by
    intro entry hMem hEq
    have hValue :=
      (hTrail.value_iff entry.literal.index entry.literal.value).mpr
        ⟨entry, hMem, rfl⟩
    rw [hEq, hOpen] at hValue
    cases hValue
  constructor
  · intro v b
    rw [value_of_push hPush, hEntries]
    by_cases hEq : v = l.index
    · subst hEq
      rw [if_pos rfl]
      constructor
      · intro hValue
        cases hValue
        exact ⟨⟨l, level⟩, List.mem_cons_self, rfl⟩
      · rintro ⟨entry, hMem, hLiteral⟩
        rcases List.mem_cons.mp hMem with rfl | hOld
        · exact congrArg (some ∘ Literal.value) hLiteral
        · exact absurd (congrArg Literal.index hLiteral) (hNew entry hOld)
    · rw [if_neg hEq, hTrail.value_iff]
      constructor
      · rintro ⟨entry, hMem, hLiteral⟩
        exact ⟨entry, List.mem_cons_of_mem _ hMem, hLiteral⟩
      · rintro ⟨entry, hMem, hLiteral⟩
        rcases List.mem_cons.mp hMem with rfl | hOld
        · exact absurd (congrArg Literal.index hLiteral).symm hEq
        · exact ⟨entry, hOld, hLiteral⟩
  · rw [hEntries, List.map_cons, List.nodup_cons]
    refine ⟨?_, hTrail.distinct⟩
    intro hMem
    rcases List.mem_map.mp hMem with ⟨entry, hOld, hEq⟩
    exact hNew entry hOld hEq
  · rw [hEntries, List.pairwise_cons]
    refine ⟨?_, hTrail.levels⟩
    intro entry hMem
    exact Nat.le_trans (hTrail.level_le hMem) (push_eq_ok hPush).2.1

end Trail

end ParitySolver
