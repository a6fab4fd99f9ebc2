import ParitySolver.Proofs.Meaning
import ParitySolver.Proofs.Universe

/-
  The tables of a store agree with its constraints: the
  occurrences of a variable are the constraints that have it,
  and columns and relevant variables number each other.

  Key definitions include:
    * `Store.WellFormed`

  Main declarations:
    * `Store.wellFormed_of_ofNamed`
    * `Store.exists_normalize_of_mem`
    * `Store.WellFormed.holds_iff_defect`
-/

namespace ParitySolver

namespace Store

------------------------------------------------------------
-- Occurrences
------------------------------------------------------------

/- The positions, among some, of the constraints with a variable. -/
def positionsWith
    (w : Nat)
    (numbered : List (StoredConstraint × Nat)) : List Nat :=
  (numbered.filter fun entry => decide (w ∈ entry.1.vars)).map
    Prod.snd

theorem getElem?_occurrences
    (numVariables w : Nat)
    (numbered : List (StoredConstraint × Nat))
    (hNodup : ∀ entry ∈ numbered, entry.1.vars.Nodup) :
    (numbered.foldr
        (fun (c, position) table =>
          c.vars.foldl
            (fun table v => table.modify v (position :: ·)) table)
        (Array.replicate numVariables []))[w]? =
      if w < numVariables then some (positionsWith w numbered)
      else none := by
  induction numbered with
  | nil =>
      simp [positionsWith, Array.getElem?_replicate]
  | cons entry numbered ih =>
      rcases entry with ⟨c, position⟩
      have hHead := hNodup (c, position) List.mem_cons_self
      have hTail := ih fun other hMem =>
        hNodup other (List.mem_cons_of_mem _ hMem)
      rw [List.foldr_cons, Table.getElem?_foldl_modify _ hHead,
        hTail]
      by_cases hLt : w < numVariables
      · by_cases hIn : w ∈ c.vars
        · simp [hLt, hIn, positionsWith]
        · simp [hLt, hIn, positionsWith]
      · simp [hLt]

theorem mem_positionsWith
    {cs : List StoredConstraint}
    {w r : Nat} :
    r ∈ positionsWith w cs.zipIdx ↔
      ∃ c, cs[r]? = some c ∧ w ∈ c.vars := by
  unfold positionsWith
  rw [List.mem_map]
  constructor
  · rintro ⟨⟨c, position⟩, hMem, rfl⟩
    rw [List.mem_filter, List.mem_zipIdx_iff_getElem?] at hMem
    exact ⟨c, hMem.1, by simpa using hMem.2⟩
  · rintro ⟨c, hGet, hIn⟩
    refine ⟨(c, r), ?_, rfl⟩
    rw [List.mem_filter, List.mem_zipIdx_iff_getElem?]
    exact ⟨hGet, by simpa using hIn⟩

theorem pairwise_positionsWith
    (cs : List StoredConstraint)
    (w : Nat) :
    (positionsWith w cs.zipIdx).Pairwise (· < ·) := by
  have hNumbers :
      (cs.zipIdx.map Prod.snd).Pairwise (· < ·) := by
    rw [List.zipIdx_map_snd]
    exact List.pairwise_lt_range'
  exact hNumbers.sublist (List.filter_sublist.map Prod.snd)

------------------------------------------------------------
-- Columns
------------------------------------------------------------

/- A numbering leaves the other entries of its table alone. -/
theorem getElem?_numbering_of_notMem
    {w : Nat}
    {numbered : List (Nat × Nat)}
    (hNotMem : ∀ entry ∈ numbered, entry.1 ≠ w)
    (table : Array (Option Nat)) :
    (numbered.foldl
        (fun table (v, column) =>
          table.setIfInBounds v (some column)) table)[w]? =
      table[w]? := by
  induction numbered generalizing table with
  | nil => rfl
  | cons entry numbered ih =>
      rcases entry with ⟨v, column⟩
      have hHead : v ≠ w :=
        hNotMem (v, column) List.mem_cons_self
      have hTail : ∀ other ∈ numbered, other.1 ≠ w :=
        fun other hMem =>
          hNotMem other (List.mem_cons_of_mem _ hMem)
      rw [List.foldl_cons, ih hTail,
        Array.getElem?_setIfInBounds, if_neg hHead]

theorem getElem?_numbering_of_mem
    {w c : Nat}
    {numbered : List (Nat × Nat)}
    (hNodup : (numbered.map Prod.fst).Nodup)
    (hMem : (w, c) ∈ numbered)
    (table : Array (Option Nat))
    (hLt : w < table.size) :
    (numbered.foldl
        (fun table (v, column) =>
          table.setIfInBounds v (some column)) table)[w]? =
      some (some c) := by
  induction numbered generalizing table with
  | nil => cases hMem
  | cons entry numbered ih =>
      rcases entry with ⟨v, column⟩
      rw [List.map_cons, List.nodup_cons] at hNodup
      rw [List.foldl_cons]
      rcases List.mem_cons.mp hMem with hHead | hTail
      · cases hHead
        rw [getElem?_numbering_of_notMem]
        · simp [hLt]
        · intro other hOther hEq
          apply hNodup.1
          rw [List.mem_map]
          exact ⟨other, hOther, hEq⟩
      · exact ih hNodup.2 hTail _ (by simpa using hLt)

/- In a numbering of distinct variables each has its own number. -/
theorem numbering_eq_some_iff
    {numVariables w c : Nat}
    {vs : List Nat}
    (hNodup : vs.Nodup)
    (hLt : ∀ v ∈ vs, v < numVariables) :
    (numbering numVariables vs).getD w none = some c ↔
      vs[c]? = some w := by
  have hFirst : (vs.zipIdx.map Prod.fst).Nodup := by
    rw [List.zipIdx_map_fst]
    exact hNodup
  unfold numbering
  rw [Array.getD_eq_getD_getElem?]
  constructor
  · intro hGet
    by_cases hIn : w ∈ vs
    · rcases List.mem_iff_getElem?.mp hIn with ⟨d, hAt⟩
      have hPair : (w, d) ∈ vs.zipIdx :=
        List.mem_zipIdx_iff_getElem?.mpr hAt
      rw [getElem?_numbering_of_mem hFirst hPair _
        (by simpa using hLt w hIn)] at hGet
      have hSame : d = c := by simpa using hGet
      exact hSame ▸ hAt
    · rw [getElem?_numbering_of_notMem] at hGet
      · simp only [Array.getElem?_replicate] at hGet
        split at hGet <;> cases hGet
      · rintro ⟨v, d⟩ hMem rfl
        have hAt : vs[d]? = some v :=
          List.mem_zipIdx_iff_getElem?.mp hMem
        exact hIn (List.mem_of_getElem? hAt)
  · intro hAt
    have hIn : w ∈ vs := List.mem_of_getElem? hAt
    have hPair : (w, c) ∈ vs.zipIdx :=
      List.mem_zipIdx_iff_getElem?.mpr hAt
    rw [getElem?_numbering_of_mem hFirst hPair _
      (by simpa using hLt w hIn)]
    rfl

------------------------------------------------------------
-- Well-formed stores
------------------------------------------------------------

/-
  What the rest of the library relies on about a store.
-/
structure WellFormed (s : Store) : Prop where
  /- The variables of a constraint ascend. -/
  vars_ascend :
    ∀ c ∈ s.constraints, c.vars.Pairwise (· < ·)
  /- The variables of a constraint are variables of the store. -/
  vars_lt :
    ∀ c ∈ s.constraints, ∀ v ∈ c.vars, v < s.numVariables
  /- The normal form says what was given. -/
  given_iff :
    ∀ c ∈ s.constraints, ∀ a : Assignment,
      c.given.Holds a ↔ c.defect a = false
  /- The occurrences of a variable are where it occurs. -/
  mem_constraintsOf :
    ∀ v r, r ∈ s.constraintsOf v ↔
      ∃ c, s.constraints[r]? = some c ∧ v ∈ c.vars
  /- The occurrences of a variable ascend. -/
  constraintsOf_ascend :
    ∀ v, (s.constraintsOf v).Pairwise (· < ·)
  /- Columns and relevant variables number each other. -/
  columnOf?_eq_some_iff :
    ∀ v column, s.columnOf? v = some column ↔
      s.variableTable[column]? = some v
  /- The relevant variables are those that occur. -/
  isRelevant_iff :
    ∀ v, s.isRelevant v = true ↔
      ∃ c ∈ s.constraints, v ∈ c.vars

theorem constraintsOf_build
    (numVariables : Nat)
    (cs : List StoredConstraint)
    (hNodup : ∀ c ∈ cs, c.vars.Nodup)
    (v : Nat) :
    (build numVariables cs).constraintsOf v =
      if v < numVariables then positionsWith v cs.zipIdx
      else [] := by
  have hEntries : ∀ entry ∈ cs.zipIdx, entry.1.vars.Nodup := by
    rintro ⟨c, position⟩ hMem
    have hAt : cs[position]? = some c :=
      List.mem_zipIdx_iff_getElem?.mp hMem
    exact hNodup c (List.mem_of_getElem? hAt)
  have hGet := getElem?_occurrences numVariables v cs.zipIdx hEntries
  unfold constraintsOf
  rw [Array.getD_eq_getD_getElem?]
  change ((occurrenceTable numVariables cs)[v]?).getD [] = _
  unfold occurrenceTable
  rw [hGet]
  split <;> rfl

theorem mem_constraintsOf_build
    {numVariables : Nat}
    {cs : List StoredConstraint}
    (hNodup : ∀ c ∈ cs, c.vars.Nodup)
    (hLt : ∀ c ∈ cs, ∀ v ∈ c.vars, v < numVariables)
    {v r : Nat} :
    r ∈ (build numVariables cs).constraintsOf v ↔
      ∃ c, cs[r]? = some c ∧ v ∈ c.vars := by
  rw [constraintsOf_build numVariables cs hNodup]
  by_cases hBound : v < numVariables
  · rw [if_pos hBound]
    exact mem_positionsWith
  · rw [if_neg hBound]
    constructor
    · intro hMem
      cases hMem
    · rintro ⟨c, hGet, hIn⟩
      exact absurd (hLt c (List.mem_of_getElem? hGet) v hIn)
        hBound

/- The variables that have a column, in the order of the columns. -/
theorem variableTable_build
    (numVariables : Nat)
    (cs : List StoredConstraint) :
    (build numVariables cs).variableTable.toList =
      (List.range (build numVariables cs).occurrences.size).filter
        fun v =>
          !((build numVariables cs).constraintsOf v).isEmpty :=
  rfl

theorem size_occurrences_build
    (numVariables : Nat)
    (cs : List StoredConstraint)
    (hNodup : ∀ c ∈ cs, c.vars.Nodup) :
    (build numVariables cs).occurrences.size = numVariables := by
  have hEntries : ∀ entry ∈ cs.zipIdx, entry.1.vars.Nodup := by
    rintro ⟨c, position⟩ hMem
    have hAt : cs[position]? = some c :=
      List.mem_zipIdx_iff_getElem?.mp hMem
    exact hNodup c (List.mem_of_getElem? hAt)
  have hGet : ∀ w,
      (build numVariables cs).occurrences[w]? =
        if w < numVariables then
          some (positionsWith w cs.zipIdx)
        else none :=
    fun w => getElem?_occurrences numVariables w cs.zipIdx hEntries
  apply Nat.le_antisymm
  · have hEnd := hGet numVariables
    rw [if_neg (Nat.lt_irrefl numVariables),
      Array.getElem?_eq_none_iff] at hEnd
    exact hEnd
  · apply Nat.le_of_not_lt
    intro hShort
    have hEnd := hGet (build numVariables cs).occurrences.size
    rw [if_pos hShort, Array.getElem?_eq_none (Nat.le_refl _)]
      at hEnd
    cases hEnd

/- The tables that are built for constraints agree with them. -/
theorem wellFormed_build
    {numVariables : Nat}
    {cs : List StoredConstraint}
    (hAscend : ∀ c ∈ cs, c.vars.Pairwise (· < ·))
    (hLt : ∀ c ∈ cs, ∀ v ∈ c.vars, v < numVariables)
    (hGiven : ∀ c ∈ cs, ∀ a : Assignment,
      c.given.Holds a ↔ c.defect a = false) :
    (build numVariables cs).WellFormed := by
  have hNodup : ∀ c ∈ cs, c.vars.Nodup := fun c hMem =>
    (hAscend c hMem).imp fun hLess => Nat.ne_of_lt hLess
  have hOccurs : ∀ {v r : Nat},
      r ∈ (build numVariables cs).constraintsOf v ↔
        ∃ c, cs[r]? = some c ∧ v ∈ c.vars :=
    mem_constraintsOf_build hNodup hLt
  have hSize := size_occurrences_build numVariables cs hNodup
  have hTable := variableTable_build numVariables cs
  have hRelevant : ∀ v,
      v ∈ (build numVariables cs).variableTable.toList ↔
        ∃ c ∈ cs, v ∈ c.vars := by
    intro v
    rw [hTable, List.mem_filter, List.mem_range, hSize]
    constructor
    · rintro ⟨-, hSome⟩
      have hNonempty :
          (build numVariables cs).constraintsOf v ≠ [] := by
        simpa using hSome
      rcases List.exists_mem_of_ne_nil _ hNonempty with ⟨r, hMem⟩
      rcases hOccurs.mp hMem with ⟨c, hGet, hIn⟩
      exact ⟨c, List.mem_of_getElem? hGet, hIn⟩
    · rintro ⟨c, hMem, hIn⟩
      refine ⟨hLt c hMem v hIn, ?_⟩
      rcases List.mem_iff_getElem?.mp hMem with ⟨r, hGet⟩
      have hPosition := hOccurs.mpr ⟨c, hGet, hIn⟩
      have hNonempty := List.ne_nil_of_mem hPosition
      simpa using hNonempty
  have hColumns : ∀ v column,
      (build numVariables cs).columnOf? v = some column ↔
        (build numVariables cs).variableTable[column]? =
          some v := by
    intro v column
    have hDistinct :
        (build numVariables cs).variableTable.toList.Nodup := by
      rw [hTable]
      exact List.nodup_range.filter _
    have hBound : ∀ w ∈ (build numVariables cs).variableTable.toList,
        w < numVariables := by
      intro w hMem
      rcases (hRelevant w).mp hMem with ⟨c, hIn, hVar⟩
      exact hLt c hIn w hVar
    rw [← Array.getElem?_toList]
    exact numbering_eq_some_iff hDistinct hBound
  refine ⟨?_, ?_, ?_, ?_, ?_, hColumns, ?_⟩
  · exact fun c hMem => hAscend c (List.mem_toArray.mp hMem)
  · exact fun c hMem => hLt c (List.mem_toArray.mp hMem)
  · exact fun c hMem => hGiven c (List.mem_toArray.mp hMem)
  · intro v r
    rw [hOccurs]
    simp [build]
  · intro v
    rw [constraintsOf_build numVariables cs hNodup]
    split
    · exact pairwise_positionsWith cs v
    · exact List.Pairwise.nil
  · intro v
    unfold isRelevant
    rw [Option.isSome_iff_exists]
    constructor
    · rintro ⟨column, hColumn⟩
      have hAt := (hColumns v column).mp hColumn
      have hMem :
          v ∈ (build numVariables cs).variableTable.toList :=
        Array.mem_toList_iff.mpr (Array.mem_of_getElem? hAt)
      rcases (hRelevant v).mp hMem with ⟨c, hIn, hVar⟩
      exact ⟨c, List.mem_toArray.mpr hIn, hVar⟩
    · rintro ⟨c, hIn, hVar⟩
      have hMem :=
        (hRelevant v).mpr ⟨c, List.mem_toArray.mp hIn, hVar⟩
      rcases List.mem_iff_getElem?.mp hMem with ⟨column, hAt⟩
      refine ⟨column, (hColumns v column).mpr ?_⟩
      rwa [Array.getElem?_toList] at hAt

------------------------------------------------------------
-- Stores of named constraints
------------------------------------------------------------

theorem ofCollected_eq_ok_iff
    {u : Universe}
    {named : List (Nat × Constraint)}
    {s : Store} :
    ofCollected u named = .ok s ↔
      ∃ stored,
        List.Forall₂
          (fun entry c =>
            StoredConstraint.normalize u entry.1 entry.2 = .ok c)
          named stored ∧
        Table.Fits 24 u.bound ∧
        build u.bound stored = s := by
  unfold ofCollected
  simp only [bind_eq_ok, pure_eq_ok, mapM_eq_ok_iff, mapError_eq_ok,
    Table.requireRoom_eq_ok_iff, exists_const]

/- What it takes to store named constraints. -/
theorem ofNamed_eq_ok_iff
    {declared : List Literal}
    {named : List (Nat × Constraint)}
    {s : Store} :
    ofNamed declared named = .ok s ↔
      Universe.HasRoom declared ∧ ∃ stored,
        List.Forall₂
          (fun entry c =>
            StoredConstraint.normalize
              (Universe.ofLiterals declared) entry.1 entry.2 =
                .ok c)
          named stored ∧
        build (Universe.ofLiterals declared).bound stored = s := by
  rw [ofNamed, bind_eq_ok]
  simp only [Universe.collect_eq_ok_iff, ofCollected_eq_ok_iff]
  constructor
  · rintro ⟨_, ⟨_, rfl⟩, stored, hAll, hFits, hBuild⟩
    exact ⟨Universe.fits_bound_iff.mp hFits, stored, hAll, hBuild⟩
  · rintro ⟨hRoom, stored, hAll, hBuild⟩
    exact ⟨_, ⟨fun _ => hRoom.lt_capacity, rfl⟩, stored, hAll,
      Universe.fits_bound_iff.mpr hRoom, hBuild⟩

/- A store has room for an entry for each variable. -/
theorem fits_of_ofNamed
    {declared : List Literal}
    {named : List (Nat × Constraint)}
    {s : Store}
    (hStore : ofNamed declared named = .ok s) :
    Table.Fits 24 s.numVariables := by
  rcases ofNamed_eq_ok_iff.mp hStore with ⟨hRoom, _, _, rfl⟩
  exact Universe.fits_bound_iff.mpr hRoom

/- Each constraint of a store is the normal form of a given one. -/
theorem exists_normalize_of_mem
    {declared : List Literal}
    {named : List (Nat × Constraint)}
    {s : Store}
    (hStore : ofNamed declared named = .ok s)
    {c : StoredConstraint}
    (hMem : c ∈ s.constraints) :
    ∃ entry ∈ named,
      StoredConstraint.normalize (Universe.ofLiterals declared)
        entry.1 entry.2 = .ok c := by
  rcases ofNamed_eq_ok_iff.mp hStore with ⟨_, stored, hAll, rfl⟩
  exact exists_of_forall₂_of_mem hAll (List.mem_toArray.mp hMem)

/- The literals of a stored constraint are of variables of the store. -/
theorem lt_of_mem_literals
    {declared : List Literal}
    {named : List (Nat × Constraint)}
    {s : Store}
    (hStore : ofNamed declared named = .ok s)
    {c : StoredConstraint}
    (hMem : c ∈ s.constraints)
    {l : Literal}
    (hLiteral : l ∈ c.given.literals) :
    l.index < s.numVariables := by
  rcases exists_normalize_of_mem hStore hMem with ⟨entry, _, hNormal⟩
  rcases StoredConstraint.normalize_eq_ok hNormal with
    ⟨hGiven, _, _, hDeclared⟩
  rw [hGiven] at hLiteral
  rcases ofNamed_eq_ok_iff.mp hStore with ⟨_, _, _, rfl⟩
  exact Universe.lt_bound_of_contains (hDeclared l hLiteral)

/- A store is well formed however it was made. -/
theorem wellFormed_of_ofNamed
    {declared : List Literal}
    {named : List (Nat × Constraint)}
    {s : Store}
    (hStore : ofNamed declared named = .ok s) :
    s.WellFormed := by
  rcases ofNamed_eq_ok_iff.mp hStore with ⟨-, stored, -, rfl⟩
  have hFrom : ∀ c ∈ stored, ∃ entry ∈ named,
      StoredConstraint.normalize (Universe.ofLiterals declared)
        entry.1 entry.2 = .ok c :=
    fun c hMem =>
      exists_normalize_of_mem hStore (List.mem_toArray.mpr hMem)
  apply wellFormed_build
  · intro c hMem
    rcases hFrom c hMem with ⟨entry, -, hOk⟩
    rw [(StoredConstraint.normalize_eq_ok hOk).2.1]
    exact StoredConstraint.pairwise_oddVariables _
  · intro c hMem v hIn
    rcases hFrom c hMem with ⟨entry, -, hOk⟩
    rcases StoredConstraint.normalize_eq_ok hOk with
      ⟨-, hVars, -, hDeclared⟩
    rw [hVars] at hIn
    rcases StoredConstraint.exists_literal_of_mem_oddVariables
        hIn with ⟨l, hLiteral, rfl⟩
    exact Universe.lt_bound_of_contains (hDeclared l hLiteral)
  · intro c hMem a
    rcases hFrom c hMem with ⟨entry, -, hOk⟩
    exact StoredConstraint.holds_iff_of_normalize hOk a

namespace WellFormed

variable {s : Store}

/- A store holds if no normal form fails. -/
theorem holds_iff_defect
    (hStore : s.WellFormed)
    (a : Assignment) :
    s.Holds a ↔ ∀ c ∈ s.constraints, c.defect a = false := by
  constructor
  · intro hHolds c hMem
    exact (hStore.given_iff c hMem a).mp (hHolds c hMem)
  · intro hZero c hMem
    exact (hStore.given_iff c hMem a).mpr (hZero c hMem)

/- The variables of a constraint are distinct. -/
theorem nodup_vars
    (hStore : s.WellFormed)
    {c : StoredConstraint}
    (hMem : c ∈ s.constraints) :
    c.vars.Nodup :=
  (hStore.vars_ascend c hMem).imp fun hLess =>
    Nat.ne_of_lt hLess

/- The occurrences of a variable are distinct. -/
theorem nodup_constraintsOf
    (hStore : s.WellFormed)
    (v : Nat) :
    (s.constraintsOf v).Nodup :=
  (hStore.constraintsOf_ascend v).imp fun hLess =>
    Nat.ne_of_lt hLess

end WellFormed

/- There are no more columns than variables. -/
theorem numColumns_le_of_ofNamed
    {declared : List Literal}
    {named : List (Nat × Constraint)}
    {s : Store}
    (hStore : ofNamed declared named = .ok s) :
    s.numColumns ≤ s.numVariables := by
  have hWell := wellFormed_of_ofNamed hStore
  rcases ofNamed_eq_ok_iff.mp hStore with ⟨_, stored, _, rfl⟩
  have hSize :=
    size_occurrences_build (Universe.ofLiterals declared).bound stored
      fun c hMem => hWell.nodup_vars (List.mem_toArray.mpr hMem)
  rw [numColumns, ← Array.length_toList, variableTable_build, hSize]
  exact Nat.le_trans (List.length_filter_le ..)
    (Nat.le_of_eq List.length_range)

end Store

end ParitySolver
