import Mathlib.Data.List.Nodup
import ParitySolver.Proofs.Theory.Watching

/-
  The watch lists and the rows agree: a variable's list holds
  the watched positions at which the variable stands, each of
  them once. So taking in a literal never meets an entry that
  does not fit, and it finds every row that the literal made
  false or left with one open variable.

  The second part rests on what the watched positions of a
  row are for. As long as there is an open variable that is
  not watched, all watched ones are open.

  Key definitions include:
    * `Watching.Enlisted`
    * `WatchRow.Guarded`
    * `Watching.GuardedBut`

  Main declarations:
    * `Watching.exists_ofStore`
    * `Watching.Enlisted.exists_assign`
    * `Watching.Guarded.assign`
    * `Watching.mem_begin_of_reveals`
-/

namespace ParitySolver

theorem Trail.exists_isAssigned
    {t : Trail}
    {v : Nat}
    (hLt : v < t.values.size) :
    ∃ b, t.isAssigned v = .ok b := by
  refine ⟨t.values[v].isSome, ?_⟩
  unfold isAssigned read
  rw [Table.get_of_lt hLt]
  rfl

namespace Watching

variable {t t' : Watching} {trail : Trail} {s : Store}

------------------------------------------------------------
-- Taking an entry out of a list
------------------------------------------------------------

/- Taking an entry out of a list removes just this entry. -/
theorem perm_takeSlot
    {ws : Array Watcher}
    {slot : Nat}
    {watcher : Watcher}
    (hAt : ws[slot]? = some watcher) :
    (watcher :: (takeSlot ws slot).toList).Perm ws.toList := by
  have hLt : slot < ws.size := (Array.getElem?_eq_some_iff.mp hAt).1
  have hSize : ((takeSlot ws slot).push watcher).size = ws.size := by
    rw [Array.size_push, size_takeSlot]
    omega
  have hSwap := swap_push_takeSlot hAt
  rw [Array.swapIfInBounds, dif_pos (by omega), dif_pos (by omega)]
    at hSwap
  have hFirst : slot < ((takeSlot ws slot).push watcher).size := by
    omega
  have hLast :
      ws.size - 1 < ((takeSlot ws slot).push watcher).size := by
    omega
  have hPerm := (Array.swap_perm hFirst hLast).toList
  rw [hSwap, Array.toList_push] at hPerm
  exact (List.perm_append_singleton watcher _).symm.trans hPerm.symm

/- The entries before the gap stay where they are. -/
theorem getElem?_takeSlot
    {ws : Array Watcher}
    {i slot : Nat}
    (hBefore : i < slot)
    (hLt : slot < ws.size) :
    (takeSlot ws slot)[i]? = ws[i]? := by
  unfold takeSlot
  grind [Array.swapIfInBounds]

------------------------------------------------------------
-- Watch lists
------------------------------------------------------------

/-
  The list of a variable holds the watched positions at
  which it stands, each once.
-/
structure Enlisted
    (s : Store)
    (t : Watching) : Prop where
  rows : t.rows.size = s.size
  watchers : t.watchers.size = s.numVariables
  distinct :
    ∀ (v : Nat) (ws : Array Watcher), t.watchers[v]? = some ws →
      ws.toList.Nodup
  mem_iff :
    ∀ (v : Nat) (ws : Array Watcher), t.watchers[v]? = some ws →
      ∀ w, w ∈ ws.toList ↔
        ∃ row : WatchRow, t.rows[w.row]? = some row ∧
          w.position < row.watched ∧
          row.vars[w.position]? = some v

/- The entries that a constraint gives to the watch lists. -/
def seatsOf
    (entry : StoredConstraint × Nat) : List (Nat × Watcher) :=
  (entry.1.vars.take 2).zipIdx.map fun (v, position) =>
    (v, ⟨entry.2, position⟩)

/- Entries go to the ends of their lists. -/
theorem exists_seats
    {seats : List (Nat × Watcher)}
    {lists : Array (Array Watcher)}
    (hRange : ∀ seat ∈ seats, seat.1 < lists.size) :
    ∃ lists', seats.foldlM
        (fun lists seat =>
          Table.modify lists seat.1 (·.push seat.2)) lists =
        .ok lists' ∧
      lists'.size = lists.size ∧
      ∀ v, lists'[v]? = lists[v]?.map fun ws =>
        ws ++ ((seats.filter fun seat => seat.1 == v).map
          Prod.snd).toArray := by
  induction seats generalizing lists with
  | nil =>
      refine ⟨lists, rfl, rfl, ?_⟩
      intro v
      simp
  | cons seat seats ih =>
      rcases List.forall_mem_cons.mp hRange with ⟨hHead, hTail⟩
      have hStep : Table.modify lists seat.1 (·.push seat.2) =
          .ok (lists.modify seat.1 (·.push seat.2)) :=
        Table.modify_eq_ok_iff.mpr ⟨hHead, rfl⟩
      have hNext : ∀ other ∈ seats,
          other.1 < (lists.modify seat.1 (·.push seat.2)).size := by
        intro other hMem
        rw [Array.size_modify]
        exact hTail other hMem
      rcases ih hNext with ⟨lists', hRun, hSize, hEach⟩
      refine ⟨lists', ?_, ?_, ?_⟩
      · rw [List.foldlM_cons, hStep]
        exact hRun
      · rw [hSize, Array.size_modify]
      · intro v
        rw [hEach v, Array.getElem?_modify]
        by_cases hEq : seat.1 = v
        · rw [if_pos hEq, Option.map_map]
          congr 1
          funext ws
          apply Array.toList_inj.mp
          simp [hEq]
        · simp [hEq]

/- Enlisting constraints one by one seats all their entries. -/
theorem foldlM_enlist
    (numbered : List (StoredConstraint × Nat))
    (lists : Array (Array Watcher)) :
    numbered.foldlM (fun lists (c, r) => enlist lists r c) lists =
      (numbered.flatMap seatsOf).foldlM
        (fun lists seat =>
          Table.modify lists seat.1 (·.push seat.2)) lists := by
  induction numbered generalizing lists with
  | nil => rfl
  | cons entry numbered ih =>
      rw [List.foldlM_cons, List.flatMap_cons, List.foldlM_append]
      simp only [ih]
      congr 1
      unfold seatsOf
      rw [List.foldlM_map]
      rfl

theorem mem_seats
    {cs : List StoredConstraint}
    {v : Nat}
    {w : Watcher} :
    (v, w) ∈ cs.zipIdx.flatMap seatsOf ↔
      ∃ c, cs[w.row]? = some c ∧ w.position < min c.vars.length 2 ∧
        c.vars[w.position]? = some v := by
  simp only [List.mem_flatMap, seatsOf, List.mem_map, Prod.exists,
    List.mem_zipIdx_iff_getElem?, List.getElem?_take, Prod.mk.injEq]
  constructor
  · rintro ⟨c, r, hRow, x, p, hAt, rfl, rfl⟩
    split at hAt
    · rename_i hTwo
      have hLt := (List.getElem?_eq_some_iff.mp hAt).1
      exact ⟨c, hRow, by simp only; omega, hAt⟩
    · cases hAt
  · rintro ⟨c, hRow, hLt, hAt⟩
    refine ⟨c, w.row, hRow, v, w.position, ?_, rfl, rfl⟩
    rw [if_pos (by omega)]
    exact hAt

theorem nodup_seats
    (cs : List StoredConstraint) :
    ((cs.zipIdx.flatMap seatsOf).map Prod.snd).Nodup := by
  rw [List.map_flatMap, List.nodup_flatMap]
  have hRow : ∀ entry : StoredConstraint × Nat,
      ∀ w ∈ (seatsOf entry).map Prod.snd, w.row = entry.2 := by
    intro entry w hMem
    simp only [seatsOf, List.map_map, List.mem_map] at hMem
    rcases hMem with ⟨_, _, rfl⟩
    rfl
  refine ⟨?_, ?_⟩
  · rintro entry _
    have hPositions :
        ((seatsOf entry).map Prod.snd).map Watcher.position =
          List.range' 0 (entry.1.vars.take 2).length := by
      rw [← List.zipIdx_map_snd 0 (entry.1.vars.take 2), seatsOf,
        List.map_map, List.map_map]
      rfl
    apply List.Nodup.of_map Watcher.position
    rw [hPositions]
    exact List.nodup_range'
  · have hIndices : (cs.zipIdx.map Prod.snd).Nodup := by
      rw [List.zipIdx_map_snd]
      exact List.nodup_range'
    rw [List.Nodup, List.pairwise_map] at hIndices
    apply hIndices.imp
    intro first second hNe w hFirst hSecond
    exact hNe ((hRow first w hFirst).symm.trans (hRow second w hSecond))

/- The watch lists of a store can be made, and they agree. -/
theorem exists_ofStore
    (hStore : s.WellFormed) :
    ∃ t, ofStore s = .ok t ∧ t.Enlisted s := by
  have hRange : ∀ seat ∈ s.constraints.toList.zipIdx.flatMap seatsOf,
      seat.1 < (Array.replicate s.numVariables
        (#[] : Array Watcher)).size := by
    rintro ⟨v, w⟩ hMem
    rcases mem_seats.mp hMem with ⟨c, hRow, _, hVar⟩
    rw [Array.size_replicate]
    rw [Array.getElem?_toList] at hRow
    exact hStore.vars_lt c (Array.mem_of_getElem? hRow) v
      (List.mem_of_getElem? hVar)
  rcases exists_seats hRange with ⟨lists, hRun, hSize, hEach⟩
  have hList : ∀ (v : Nat) (ws : Array Watcher),
      lists[v]? = some ws →
        ws.toList = (((s.constraints.toList.zipIdx.flatMap
          seatsOf).filter fun seat => seat.1 == v).map Prod.snd) := by
    intro v ws hWs
    rw [hEach v, Array.getElem?_replicate] at hWs
    split at hWs
    · cases hWs
      simp
    · cases hWs
  refine ⟨⟨s.constraints.map WatchRow.ofConstraint, lists, []⟩, ?_,
    ?_, ?_, ?_, ?_⟩
  · simp only [ofStore, bind_eq_ok, pure_eq_ok]
    exact ⟨lists, (foldlM_enlist _ _).trans hRun, rfl⟩
  · exact Array.size_map
  · rw [hSize, Array.size_replicate]
  · intro v ws hWs
    rw [hList v ws hWs]
    exact (nodup_seats _).sublist (List.filter_sublist.map _)
  · intro v ws hWs w
    have hMem : w ∈ ws.toList ↔
        (v, w) ∈ s.constraints.toList.zipIdx.flatMap seatsOf := by
      rw [hList v ws hWs, List.mem_map]
      constructor
      · rintro ⟨⟨x, w'⟩, hIn, rfl⟩
        rw [List.mem_filter] at hIn
        have hEq : x = v := by simpa using hIn.2
        exact hEq ▸ hIn.1
      · intro hIn
        refine ⟨(v, w), ?_, rfl⟩
        rw [List.mem_filter]
        exact ⟨hIn, by simp⟩
    rw [hMem, mem_seats, Array.getElem?_toList]
    simp only [Array.getElem?_map]
    constructor
    · rintro ⟨c, hRow, hLt, hVar⟩
      refine ⟨WatchRow.ofConstraint c, by rw [hRow]; rfl, hLt, ?_⟩
      rw [WatchRow.ofConstraint, List.getElem?_toArray]
      exact hVar
    · rintro ⟨row, hRow, hLt, hVar⟩
      rcases Option.map_eq_some_iff.mp hRow with ⟨c, hAt, rfl⟩
      rw [WatchRow.ofConstraint, List.getElem?_toArray] at hVar
      exact ⟨c, hAt, hLt, hVar⟩

------------------------------------------------------------
-- Taking in a literal
------------------------------------------------------------

theorem Enlisted.foldRows
    (hEnlisted : t.Enlisted s)
    {b : Bool}
    {rs : List Nat}
    (hNodup : rs.Nodup)
    (hFold : t.foldRows b rs = .ok t') :
    t'.Enlisted s := by
  rcases foldRows_eq_ok_iff.mp hFold with ⟨_, rfl⟩
  refine ⟨?_, hEnlisted.watchers, hEnlisted.distinct, ?_⟩
  · rw [Table.size_foldl_modify]
    exact hEnlisted.rows
  · intro v ws hWs w
    rw [hEnlisted.mem_iff v ws hWs w,
      Table.getElem?_foldl_modify _ hNodup]
    split
    · constructor
      · rintro ⟨row, hRow, hLt, hVar⟩
        exact ⟨row.plus b, by rw [hRow]; rfl, hLt, hVar⟩
      · rintro ⟨row, hRow, hLt, hVar⟩
        rcases Option.map_eq_some_iff.mp hRow with ⟨old, hOld, rfl⟩
        exact ⟨old, hOld, hLt, hVar⟩
    · exact Iff.rfl

section Visit

variable {v slot place : Nat} {ws : Array Watcher}
variable {watcher : Watcher} {row : WatchRow}

/- What an entry of a list says about its row. -/
theorem Enlisted.row_of_slot
    (hEnlisted : t.Enlisted s)
    (hWs : t.watchers[v]? = some ws)
    (hSlot : ws[slot]? = some watcher) :
    ∃ row : WatchRow, t.rows[watcher.row]? = some row ∧
      watcher.position < row.watched ∧
      row.vars[watcher.position]? = some v := by
  apply (hEnlisted.mem_iff v ws hWs watcher).mp
  exact Array.mem_toList_iff.mpr (Array.mem_of_getElem? hSlot)

/- The watched position of a watcher shows a variable. -/
def Shows
    (rows : Array WatchRow)
    (w : Watcher)
    (x : Nat) : Prop :=
  ∃ row : WatchRow, rows[w.row]? = some row ∧
    w.position < row.watched ∧ row.vars[w.position]? = some x

theorem Shows.unique
    {rows : Array WatchRow}
    {w : Watcher}
    {x y : Nat}
    (hLeft : Shows rows w x)
    (hRight : Shows rows w y) :
    x = y := by
  rcases hLeft with ⟨row, hRow, _, hX⟩
  rcases hRight with ⟨same, hSame, _, hY⟩
  cases hRow.symm.trans hSame
  exact Option.some.inj (hX.symm.trans hY)

/-
  After a swap the watcher's position shows what stood at the
  other place, and all other positions show what they did.
-/
theorem shows_swap_iff
    {rows : Array WatchRow}
    (hRow : rows[watcher.row]? = some row)
    (hWatched : watcher.position < row.watched)
    (hPosition : watcher.position < row.vars.size)
    (hPlace : row.watched ≤ place)
    {candidate : Nat}
    (hCandidate : row.vars[place]? = some candidate)
    (w : Watcher)
    (x : Nat) :
    Shows
        (rows.setIfInBounds watcher.row
          { row with
            vars := row.vars.swapIfInBounds watcher.position place })
        w x ↔
      if w = watcher then x = candidate else Shows rows w x := by
  have hRowLt := (Array.getElem?_eq_some_iff.mp hRow).1
  have hPlaceLt := (Array.getElem?_eq_some_iff.mp hCandidate).1
  unfold Shows
  by_cases hSame : watcher.row = w.row
  · rw [← hSame, Array.getElem?_setIfInBounds_self_of_lt hRowLt]
    by_cases hEq : w = watcher
    · subst hEq
      have hGet : (row.vars.swapIfInBounds w.position place)[
          w.position]? = some candidate := by
        rw [← hCandidate]
        grind [Array.swapIfInBounds]
      simp only [if_true, Option.some.injEq, exists_eq_left',
        hGet, hWatched, true_and]
      exact eq_comm
    · have hPos : w.position ≠ watcher.position := by
        intro hPos
        apply hEq
        cases w
        cases watcher
        simp_all
      have hStay : w.position < row.watched →
          (row.vars.swapIfInBounds watcher.position place)[
            w.position]? = row.vars[w.position]? := by
        intro hLt
        grind [Array.swapIfInBounds]
      rw [if_neg hEq, hRow]
      simp only [Option.some.injEq, exists_eq_left']
      apply and_congr_right
      intro hLt
      rw [hStay hLt]
  · have hEq : w ≠ watcher := fun hEq => hSame (by rw [hEq])
    rw [Array.getElem?_setIfInBounds_ne hSame, if_neg hEq]

/-
  After a move the watcher is in the list of the candidate
  only, and the other entries are where they were.
-/
theorem Enlisted.mem_moved_iff
    (hEnlisted : t.Enlisted s)
    (hWs : t.watchers[v]? = some ws)
    (hSlot : ws[slot]? = some watcher)
    {candidate : Nat}
    (hNe : candidate ≠ v)
    {x : Nat}
    {xs : Array Watcher}
    (hXs :
      ((t.watchers.modify v (takeSlot · slot)).modify candidate
        (·.push watcher))[x]? = some xs) :
    xs.toList.Nodup ∧ ∀ w, w ∈ xs.toList ↔
      if w = watcher then x = candidate else Shows t.rows w x := by
  have hShows : Shows t.rows watcher v := hEnlisted.row_of_slot hWs hSlot
  have hElsewhere : ∀ {y : Nat} {ys : Array Watcher}, y ≠ v →
      t.watchers[y]? = some ys → watcher ∉ ys.toList := by
    intro y ys hY hYs hMem
    have hThere : Shows t.rows watcher y :=
      (hEnlisted.mem_iff y ys hYs watcher).mp hMem
    exact hY (hThere.unique hShows)
  simp only [Array.getElem?_modify] at hXs
  by_cases hCand : candidate = x
  · -- The watcher is new in the list of the candidate.
    subst hCand
    rw [if_pos rfl, if_neg (Ne.symm hNe)] at hXs
    rcases Option.map_eq_some_iff.mp hXs with ⟨old, hOld, rfl⟩
    have hAbsent := hElsewhere hNe hOld
    rw [Array.toList_push]
    constructor
    · rw [List.nodup_append]
      refine ⟨hEnlisted.distinct candidate old hOld, by simp, ?_⟩
      intro a hA b hB
      rw [List.mem_singleton] at hB
      rintro rfl
      exact hAbsent (hB ▸ hA)
    · intro w
      rw [List.mem_append, List.mem_singleton]
      by_cases hEq : w = watcher
      · simp [hEq]
      · simp only [hEq, or_false, if_false]
        exact hEnlisted.mem_iff candidate old hOld w
  rw [if_neg hCand] at hXs
  by_cases hV : v = x
  · -- It has left the list of the variable.
    subst hV
    rw [if_pos rfl, hWs] at hXs
    cases hXs
    have hPerm := perm_takeSlot hSlot
    have hNodup : (watcher :: (takeSlot ws slot).toList).Nodup :=
      hPerm.nodup_iff.mpr (hEnlisted.distinct v ws hWs)
    rw [List.nodup_cons] at hNodup
    refine ⟨hNodup.2, ?_⟩
    intro w
    by_cases hEq : w = watcher
    · subst hEq
      simp [hNodup.1, Ne.symm hNe]
    · have hOld := hEnlisted.mem_iff v ws hWs w
      rw [← hPerm.mem_iff, List.mem_cons] at hOld
      rw [if_neg hEq, Shows, ← hOld]
      simp [hEq]
  · rw [if_neg hV] at hXs
    refine ⟨hEnlisted.distinct x xs hXs, ?_⟩
    intro w
    by_cases hEq : w = watcher
    · subst hEq
      have hAbsent := hElsewhere (Ne.symm hV) hXs
      simp [hAbsent, Ne.symm hCand]
    · rw [if_neg hEq]
      exact hEnlisted.mem_iff x xs hXs w

/- The lists and the rows still agree after a watcher was moved. -/
theorem Enlisted.moveWatch
    (hEnlisted : t.Enlisted s)
    (hWs : t.watchers[v]? = some ws)
    (hSlot : ws[slot]? = some watcher)
    (hRow : t.rows[watcher.row]? = some row)
    (hPlace : row.watched ≤ place)
    (hOther : row.vars[place]? ≠ some v)
    (hMove : t.moveWatch v slot place watcher row = .ok t') :
    t'.Enlisted s := by
  rcases hEnlisted.row_of_slot hWs hSlot with
    ⟨found, hFound, hWatched, _⟩
  cases hRow.symm.trans hFound
  rcases moveWatch_eq_ok hMove with
    ⟨candidate, hCandidate, hPosition, _, _, _, rfl⟩
  have hNe : candidate ≠ v := by
    rintro rfl
    exact hOther hCandidate
  refine ⟨?_, ?_, ?_, ?_⟩
  · rw [Array.size_setIfInBounds]
    exact hEnlisted.rows
  · rw [Array.size_modify, Array.size_modify]
    exact hEnlisted.watchers
  · intro x xs hXs
    exact (hEnlisted.mem_moved_iff hWs hSlot hNe hXs).1
  · intro x xs hXs w
    rw [(hEnlisted.mem_moved_iff hWs hSlot hNe hXs).2 w]
    exact (shows_swap_iff hRow hWatched hPosition hPlace hCandidate
      w x).symm

theorem mem_of_firstOpen?
    {ps : List Nat}
    {p : Nat}
    (hFirst : row.firstOpen? trail ps = .ok (some p)) :
    p ∈ ps := by
  induction ps with
  | nil => cases hFirst
  | cons q qs ih =>
      unfold WatchRow.firstOpen? at hFirst
      simp only [bind_eq_ok] at hFirst
      rcases hFirst with ⟨_, _, b, _, hFirst⟩
      split at hFirst
      · exact List.mem_cons_of_mem _ (ih hFirst)
      · rw [pure_eq_ok] at hFirst
        cases hFirst
        exact List.mem_cons_self

theorem exists_firstOpen?
    (hVars : ∀ w ∈ row.vars, w < trail.values.size)
    {ps : List Nat}
    (hRange : ∀ p ∈ ps, p < row.vars.size) :
    ∃ place?, row.firstOpen? trail ps = .ok place? := by
  induction ps with
  | nil => exact ⟨none, rfl⟩
  | cons p ps ih =>
      rcases List.forall_mem_cons.mp hRange with ⟨hHead, hTail⟩
      rcases ih hTail with ⟨place?, hRest⟩
      have hLt := hVars _ (Array.getElem_mem hHead)
      rcases Trail.exists_isAssigned hLt with ⟨b, hAssigned⟩
      unfold WatchRow.firstOpen?
      rw [Table.get_of_lt hHead]
      cases b with
      | true =>
          refine ⟨place?, ?_⟩
          simp [bind, Except.bind, hAssigned, hRest]
      | false =>
          refine ⟨some p, ?_⟩
          simp [bind, Except.bind, hAssigned, pure, Except.pure]

/- A watcher can move to a place of its row. -/
theorem exists_moveWatch
    (hV : v < t.watchers.size)
    (hRow : watcher.row < t.rows.size)
    (hPosition : watcher.position < row.vars.size)
    (hPlace : place < row.vars.size)
    (hCandidate : row.vars[place] < t.watchers.size) :
    ∃ next, t.moveWatch v slot place watcher row = .ok next := by
  have hAt : row.vars[place]? = some row.vars[place] :=
    Array.getElem?_eq_getElem hPlace
  unfold Watching.moveWatch
  simp only [bind, Except.bind, Table.get_eq_ok_iff.mpr hAt,
    Table.swap, Table.set, Table.modify, hPosition, hPlace, hRow, hV,
    Array.size_modify, hCandidate, decide_true, Bool.and_self, if_true,
    pure, Except.pure]
  exact ⟨_, rfl⟩

/- A row without a place to move to can be read. -/
theorem exists_rowFindings
    (hVars : ∀ w ∈ row.vars, w < trail.values.size)
    (hWatched : watcher.position < row.watched)
    (hSize : row.watched ≤ row.vars.size) :
    ∃ found, rowFindings trail watcher row = .ok found := by
  have hOther : ∃ other?, row.otherOpen? trail watcher = .ok other? := by
    unfold WatchRow.otherOpen?
    by_cases hTwo : row.watched = 2
    · have hIn : 1 - watcher.position < row.vars.size := by omega
      have hLeOne : watcher.position ≤ 1 := by omega
      rcases Trail.exists_isAssigned
          (hVars _ (Array.getElem_mem hIn)) with ⟨b, hAssigned⟩
      rw [if_pos hTwo, require_of_true (decide_eq_true hLeOne),
        Table.get_of_lt hIn]
      simp only [bind, Except.bind, hAssigned, pure, Except.pure]
      exact ⟨_, rfl⟩
    · rw [if_neg hTwo]
      exact ⟨none, rfl⟩
  rcases hOther with ⟨other?, hOther⟩
  unfold rowFindings
  rw [hOther]
  simp only [bind, Except.bind]
  cases other? with
  | some w => exact ⟨_, rfl⟩
  | none =>
      simp only
      split
      · exact ⟨_, rfl⟩
      · exact ⟨_, rfl⟩

/- A visit of a slot comes to its end. -/
theorem Enlisted.exists_visitSlot
    (hStore : s.WellFormed)
    (hEnlisted : t.Enlisted s)
    (hFollows : t.Follows s trail.value)
    (hTrail : trail.values.size = s.numVariables)
    (hWs : t.watchers[v]? = some ws)
    (hLt : slot < ws.size) :
    ∃ next found, t.visitSlot trail v slot = .ok (next, found) := by
  have hSlot : ws[slot]? = some ws[slot] :=
    Array.getElem?_eq_getElem hLt
  generalize ws[slot] = watcher at hSlot
  rcases hEnlisted.row_of_slot hWs hSlot with
    ⟨row, hRow, hWatched, hVar⟩
  rcases hFollows _ row hRow with ⟨c, hAt, hRowFollows⟩
  have hVars : ∀ w ∈ row.vars, w < s.numVariables := by
    intro w hMem
    have hIn : w ∈ c.vars :=
      hRowFollows.vars.mem_iff.mp (Array.mem_toList_iff.mpr hMem)
    exact hStore.vars_lt c (Array.mem_of_getElem? hAt) w hIn
  have hVarsTrail : ∀ w ∈ row.vars, w < trail.values.size := by
    rw [hTrail]
    exact hVars
  have hRange : ∀ p ∈ List.range' row.watched
      (row.vars.size - row.watched), p < row.vars.size := by
    intro p hMem
    rw [List.mem_range'_1] at hMem
    omega
  rcases exists_firstOpen? hVarsTrail hRange with
    ⟨place?, hReplacement⟩
  unfold visitSlot WatchRow.replacement?
  rw [Table.get_eq_ok_iff.mpr hWs]
  simp only [bind, Except.bind, Table.get_eq_ok_iff.mpr hSlot,
    Table.get_eq_ok_iff.mpr hRow, Table.get_eq_ok_iff.mpr hVar,
    hReplacement, beq_self_eq_true, require_of_true]
  cases place? with
  | some place =>
      have hPlace := hRange place (mem_of_firstOpen? hReplacement)
      have hCandidate : row.vars[place] < t.watchers.size := by
        rw [hEnlisted.watchers]
        exact hVars _ (Array.getElem_mem hPlace)
      have hMove : ∃ next,
          t.moveWatch v slot place watcher row = .ok next :=
        exists_moveWatch (Array.getElem?_eq_some_iff.mp hWs).1
          (Array.getElem?_eq_some_iff.mp hRow).1
          (Array.getElem?_eq_some_iff.mp hVar).1 hPlace hCandidate
      rcases hMove with ⟨next, hMove⟩
      refine ⟨next, .none, ?_⟩
      simp only [hMove, pure, Except.pure]
  | none =>
      have hSize : row.watched ≤ row.vars.size := by
        have hLength : row.vars.size = c.vars.length :=
          hRowFollows.vars.length_eq
        rw [hRowFollows.watched, hLength]
        exact Nat.min_le_left _ _
      rcases exists_rowFindings hVarsTrail hWatched hSize with
        ⟨found, hFound⟩
      refine ⟨t, found, ?_⟩
      simp only [hFound, pure, Except.pure]

/-
  What a visit of a slot changes: no other row, and no entry
  before the slot.
-/
theorem Enlisted.visitSlot
    (hEnlisted : t.Enlisted s)
    (hAssigned : (trail.value v).isSome = true)
    (hWs : t.watchers[v]? = some ws)
    (hSlot : ws[slot]? = some watcher)
    {found : Findings}
    (hVisit : t.visitSlot trail v slot = .ok (t', found)) :
    t'.Enlisted s ∧
      (∀ r, r ≠ watcher.row → t'.rows[r]? = t.rows[r]?) ∧
      ∃ ws', t'.watchers[v]? = some ws' ∧ slot ≤ ws'.size ∧
        ∀ i < slot, ws'[i]? = ws[i]? := by
  have hLt := (Array.getElem?_eq_some_iff.mp hSlot).1
  rcases visitSlot_eq_ok hVisit with
    ⟨ws', watcher', row, hWs', hSlot', hRow, hVar, hCase⟩
  cases hWs.symm.trans hWs'
  cases hSlot.symm.trans hSlot'
  rcases hCase with ⟨place, hPlace, hMove, _⟩ | ⟨_, rfl, _⟩
  · rcases firstOpen?_eq_ok hPlace with ⟨open', hOpenAt, hOpen⟩
    have hNotV : row.vars[place]? ≠ some v := by
      rw [hOpenAt]
      intro hEq
      cases hEq
      rw [hOpen] at hAssigned
      cases hAssigned
    have hIn := mem_of_firstOpen? hPlace
    rw [List.mem_range'_1] at hIn
    refine ⟨hEnlisted.moveWatch hWs hSlot hRow hIn.1 hNotV hMove,
      ?_, ?_⟩
    · intro r hNe
      rcases moveWatch_eq_ok hMove with ⟨_, _, _, _, _, _, rfl⟩
      rw [Array.getElem?_setIfInBounds_ne (Ne.symm hNe)]
    · rcases moveWatch_eq_ok hMove with
        ⟨candidate, hCandidate, _, _, _, _, rfl⟩
      have hNe : candidate ≠ v := by
        rintro rfl
        exact hNotV hCandidate
      refine ⟨takeSlot ws slot, ?_, ?_, ?_⟩
      · rw [Array.getElem?_modify, if_neg hNe, Array.getElem?_modify,
          if_pos rfl, hWs]
        rfl
      · rw [size_takeSlot]
        omega
      · intro i hBefore
        exact getElem?_takeSlot hBefore hLt
  · exact ⟨hEnlisted, fun _ _ => rfl, ws, hWs, Nat.le_of_lt hLt,
      fun _ _ => rfl⟩

/- The visits of the slots below a bound come to their end. -/
theorem Enlisted.exists_visitSlots
    {slots : Nat}
    (hStore : s.WellFormed)
    (hEnlisted : t.Enlisted s)
    (hFollows : t.Follows s trail.value)
    (hTrail : trail.values.size = s.numVariables)
    (hAssigned : (trail.value v).isSome = true)
    (hWs : t.watchers[v]? = some ws)
    (hSlots : slots ≤ ws.size) :
    ∃ last found, visitSlots trail v slots t = .ok (last, found) ∧
      last.Enlisted s := by
  induction slots generalizing t ws with
  | zero => exact ⟨t, .none, rfl, hEnlisted⟩
  | succ slot ih =>
      have hLt : slot < ws.size := by
        omega
      have hSlot : ws[slot]? = some ws[slot] :=
        Array.getElem?_eq_getElem hLt
      rcases hEnlisted.exists_visitSlot hStore hFollows hTrail hWs hLt
        with ⟨next, first, hVisit⟩
      rcases hEnlisted.visitSlot hAssigned hWs hSlot hVisit with
        ⟨hNext, _, ws', hWs', hSlots', _⟩
      rcases ih hNext (hFollows.visitSlot hVisit) hWs' hSlots' with
        ⟨last, rest, hRest, hLast⟩
      refine ⟨last, first ++ rest, ?_, hLast⟩
      simp only [visitSlots, bind_eq_ok, pure_eq_ok, Prod.exists]
      exact ⟨next, first, hVisit, last, rest, hRest, rfl⟩

end Visit

/- Taking in a literal comes to its end, and the lists agree. -/
theorem Enlisted.exists_assign
    {ctx : Context}
    {l : Literal}
    {value : Nat → Option Bool}
    (hStore : ctx.store.WellFormed)
    (hEnlisted : t.Enlisted ctx.store)
    (hFollows : t.Follows ctx.store value)
    (hTrail : ctx.trail.values.size = ctx.store.numVariables)
    (hLt : l.index < ctx.store.numVariables)
    (hLast : ctx.trail.last? = some l)
    (hNew : ∀ w, ctx.trail.value w =
      if w = l.index then some l.value else value w)
    (hOpen : value l.index = none) :
    ∃ t' found, t.assign ctx = .ok (t', found) ∧
      t'.Enlisted ctx.store := by
  have hStart : Enlisted ctx.store { t with frames := [] :: t.frames } :=
    ⟨hEnlisted.rows, hEnlisted.watchers, hEnlisted.distinct,
      hEnlisted.mem_iff⟩
  have hRows : ∀ r ∈ ctx.store.constraintsOf l.index,
      r < t.rows.size := by
    intro r hMem
    rcases (hStore.mem_constraintsOf _ _).mp hMem with ⟨c, hAt, _⟩
    rw [hEnlisted.rows]
    exact (Array.getElem?_eq_some_iff.mp hAt).1
  have hFold := foldRows_eq_ok_iff
    (t := { t with frames := [] :: t.frames }) (b := l.value)
    |>.mpr ⟨hRows, rfl⟩
  have hMiddle :=
    hStart.foldRows (hStore.nodup_constraintsOf l.index) hFold
  have hMiddleFollows : Watching.Follows ctx.store ctx.trail.value _ :=
    Follows.foldRows hStore
      (t := { t with frames := [] :: t.frames }) hFollows hNew hOpen
      hFold
  have hWatchersLt : l.index < t.watchers.size := by
    rw [hEnlisted.watchers]
    exact hLt
  have hAssigned : (ctx.trail.value l.index).isSome = true := by
    rw [hNew, if_pos rfl]
    rfl
  rcases hMiddle.exists_visitSlots hStore hMiddleFollows hTrail
      hAssigned (Array.getElem?_eq_getElem hWatchersLt)
      (Nat.le_refl _) with ⟨last, found, hVisit, hEnd⟩
  refine ⟨last, found, ?_, hEnd⟩
  unfold assign Context.newest
  rw [hLast]
  simp only [bind_eq_ok, Except.ok.injEq, exists_eq_left']
  exact ⟨_, hFold, _, Table.get_of_lt hWatchersLt, hVisit⟩

end Watching

------------------------------------------------------------
-- What the watched positions are for
------------------------------------------------------------

/-
  All watched variables of the row are open, or all of the
  others are assigned.
-/
def WatchRow.Guarded
    (value : Nat → Option Bool)
    (row : WatchRow) : Prop :=
  (∀ p v, p < row.watched → row.vars[p]? = some v →
    value v = none) ∨
  ∀ p v, row.watched ≤ p → row.vars[p]? = some v → value v ≠ none

namespace WatchRow

variable {value : Nat → Option Bool} {row : WatchRow}

/- In a row without repetitions a variable stands at one place. -/
theorem eq_of_getElem?_vars
    (hNodup : row.vars.toList.Nodup)
    {p q v : Nat}
    (hFirst : row.vars[p]? = some v)
    (hSecond : row.vars[q]? = some v) :
    p = q := by
  have hLt : p < row.vars.toList.length :=
    (Array.getElem?_eq_some_iff.mp hFirst).1
  apply (List.getElem?_inj hLt hNodup).mp
  rw [Array.getElem?_toList, Array.getElem?_toList, hFirst, hSecond]

/- A literal leaves rows guarded that do not watch its variable. -/
theorem Guarded.assign_of_unwatched
    {l : Literal}
    {after : Nat → Option Bool}
    (hGuarded : row.Guarded value)
    (hNew : ∀ w, after w = if w = l.index then some l.value else value w)
    (hUnwatched : ∀ p, p < row.watched → row.vars[p]? ≠ some l.index) :
    row.Guarded after := by
  rcases hGuarded with hAll | hRest
  · refine Or.inl ?_
    intro p x hLt hX
    have hNe : x ≠ l.index := by
      rintro rfl
      exact hUnwatched p hLt hX
    rw [hNew, if_neg hNe]
    exact hAll p x hLt hX
  · refine Or.inr ?_
    intro p x hGe hX
    rw [hNew]
    split
    · nofun
    · exact hRest p x hGe hX

/-
  An open variable of a guarded row is watched, if at most one
  other is open.
-/
theorem Guarded.watched_of_open
    {after : Nat → Option Bool}
    {c : StoredConstraint}
    {p v : Nat}
    (hGuarded : row.Guarded value)
    (hFollows : row.Follows after c)
    (hNodup : row.vars.toList.Nodup)
    (hOpen : value v = none)
    (hOther : ∀ w ∈ row.vars, ∀ u ∈ row.vars, w ≠ v → u ≠ v →
      value w = none → value u = none → w = u)
    (hVar : row.vars[p]? = some v) :
    p < row.watched := by
  by_contra hNot
  have hLt := (Array.getElem?_eq_some_iff.mp hVar).1
  have hLength : row.vars.size = c.vars.length :=
    hFollows.vars.length_eq
  have hCount := hFollows.watched
  rcases hGuarded with hAll | hRest
  · -- The variables at the first two places are watched, so
    -- these are open too.
    have hTwo : row.watched = 2 := by omega
    have hWatched : ∀ q (hBelow : q < row.vars.size), q < 2 →
        row.vars[q] ≠ v ∧ value row.vars[q] = none := by
      intro q hBelow hFirst
      have hAt := Array.getElem?_eq_getElem hBelow
      refine ⟨?_, hAll q _ (by omega) hAt⟩
      intro hEq
      rw [hEq] at hAt
      have hPlace := eq_of_getElem?_vars hNodup hAt hVar
      omega
    have hZero : 0 < row.vars.size := by omega
    have hOne : 1 < row.vars.size := by omega
    rcases hWatched 0 hZero (by omega) with ⟨hNe, hNone⟩
    rcases hWatched 1 hOne (by omega) with ⟨hNe', hNone'⟩
    have hSame := hOther _ (Array.getElem_mem hZero) _
      (Array.getElem_mem hOne) hNe hNe' hNone hNone'
    have hAt := Array.getElem?_eq_getElem hZero
    rw [hSame] at hAt
    have hPlace := eq_of_getElem?_vars hNodup hAt
      (Array.getElem?_eq_getElem hOne)
    omega
  · exact hRest p v (by omega) hVar hOpen

end WatchRow

namespace Watching

variable {t t' : Watching} {trail : Trail} {s : Store}
variable {value : Nat → Option Bool}

/- All rows are guarded. -/
def Guarded
    (value : Nat → Option Bool)
    (t : Watching) : Prop :=
  ∀ (r : Nat) (row : WatchRow), t.rows[r]? = some row →
    row.Guarded value

/- With nothing assigned all watched variables are open. -/
theorem guarded_of_empty
    (hEmpty : ∀ v, value v = none) :
    t.Guarded value := by
  intro r row _
  exact Or.inl fun _ v _ _ => hEmpty v

theorem Follows.nodup_vars
    (hStore : s.WellFormed)
    (hFollows : t.Follows s value)
    {r : Nat}
    {row : WatchRow}
    (hRow : t.rows[r]? = some row) :
    row.vars.toList.Nodup := by
  rcases hFollows r row hRow with ⟨c, hAt, hRowFollows⟩
  rw [hRowFollows.vars.nodup_iff]
  exact hStore.nodup_vars (Array.mem_of_getElem? hAt)

section Visit

variable {v slot : Nat} {ws : Array Watcher} {watcher : Watcher}
variable {row : WatchRow} {b : Bool}

/- A visited row is guarded again. -/
theorem guarded_of_visitSlot
    (hNew : ∀ w, trail.value w = if w = v then some b else value w)
    (hRow : t.rows[watcher.row]? = some row)
    (hNodup : row.vars.toList.Nodup)
    (hGuarded : row.Guarded trail.value ∨ row.Guarded value)
    (hWatched : watcher.position < row.watched)
    (hVar : row.vars[watcher.position]? = some v)
    (hCase :
      (∃ place,
          row.replacement? trail = .ok (some place) ∧
            t.moveWatch v slot place watcher row = .ok t') ∨
        (row.replacement? trail = .ok none ∧ t' = t)) :
    ∃ next, t'.rows[watcher.row]? = some next ∧
      next.Guarded trail.value := by
  have hAssigned : trail.value v = some b := by
    rw [hNew, if_pos rfl]
  rcases hCase with ⟨place, hPlace, hMove⟩ | ⟨hNone, rfl⟩
  · rcases firstOpen?_eq_ok hPlace with ⟨candidate, hAt, hOpen⟩
    have hIn := mem_of_firstOpen? hPlace
    rw [List.mem_range'_1] at hIn
    rcases moveWatch_eq_ok hMove with ⟨_, _, _, hRowLt, _, _, rfl⟩
    have hCandidate : value candidate = none := by
      rw [hNew] at hOpen
      split at hOpen
      · cases hOpen
      · exact hOpen
    -- There is an open variable that was not watched, so before
    -- this literal all watched ones were open.
    have hBefore : ∀ p x, p < row.watched → row.vars[p]? = some x →
        value x = none := by
      rcases hGuarded with (hAll | hRest) | (hAll | hRest)
      · rw [hAll _ v hWatched hVar] at hAssigned
        cases hAssigned
      · exact absurd hOpen (hRest place candidate hIn.1 hAt)
      · exact hAll
      · exact absurd hCandidate (hRest place candidate hIn.1 hAt)
    refine ⟨_, Array.getElem?_setIfInBounds_self_of_lt hRowLt,
      Or.inl ?_⟩
    intro p x hLt hX
    simp only at hLt hX
    by_cases hEq : p = watcher.position
    · have hSwap : (row.vars.swapIfInBounds watcher.position place)[
          watcher.position]? = row.vars[place]? := by
        have hPosition := (Array.getElem?_eq_some_iff.mp hVar).1
        have hPlaceLt := (Array.getElem?_eq_some_iff.mp hAt).1
        grind [Array.swapIfInBounds]
      rw [hEq, hSwap, hAt] at hX
      cases hX
      exact hOpen
    · have hSwap : (row.vars.swapIfInBounds watcher.position place)[
          p]? = row.vars[p]? := by
        grind [Array.swapIfInBounds]
      rw [hSwap] at hX
      have hOther : x ≠ v := by
        rintro rfl
        exact hEq (WatchRow.eq_of_getElem?_vars hNodup hX hVar)
      rw [hNew, if_neg hOther]
      exact hBefore p x hLt hX
  · refine ⟨row, hRow, Or.inr ?_⟩
    intro p x hGe hX
    have hLt := (Array.getElem?_eq_some_iff.mp hX).1
    have hIn : p ∈ List.range' row.watched
        (row.vars.size - row.watched) := by
      rw [List.mem_range'_1]
      omega
    rcases firstOpen?_eq_ok hNone p hIn with ⟨w, hW, hSome⟩
    cases hX.symm.trans hW
    intro hOpen
    rw [hOpen] at hSome
    cases hSome

/- A visit of a row reports what its constraint shows. -/
theorem mem_of_visitSlot
    {c : StoredConstraint}
    {found : Findings}
    {event : Event}
    (hNew : ∀ w, trail.value w = if w = v then some b else value w)
    (hNodup : row.vars.toList.Nodup)
    (hFollows : row.Follows trail.value c)
    (hGuarded : row.Guarded value)
    (hVar : row.vars[watcher.position]? = some v)
    (hReveals : c.Reveals trail.value watcher.row event)
    (hCase :
      (∃ place,
          row.replacement? trail = .ok (some place) ∧
            t.moveWatch v slot place watcher row = .ok t' ∧
            found = .none) ∨
        (row.replacement? trail = .ok none ∧ t' = t ∧
          rowFindings trail watcher row = .ok found)) :
    event ∈ found.events := by
  have hRowMem : ∀ w, w ∈ row.vars → w ∈ c.vars := by
    intro w hMem
    exact hFollows.vars.mem_iff.mp (Array.mem_toList_iff.mpr hMem)
  rcases hCase with ⟨place, hPlace, _⟩ | ⟨hNone, _, hFound⟩
  · -- A replacement would be open, and with the variable that
    -- was assigned the row would have watched it already.
    rcases firstOpen?_eq_ok hPlace with ⟨w, hAt, hOpen⟩
    have hIn := mem_of_firstOpen? hPlace
    rw [List.mem_range'_1] at hIn
    have hBefore : value w = none := by
      rw [hNew] at hOpen
      split at hOpen
      · cases hOpen
      · exact hOpen
    have hOnlyV : ∀ x ∈ row.vars, x ≠ w → value x = none → x = v := by
      intro x hMem hNe hNone
      by_contra hNotV
      apply hNe
      apply hReveals.open_unique (hRowMem x hMem)
        (hRowMem w (Array.mem_of_getElem? hAt)) _ hOpen
      rw [hNew, if_neg hNotV, hNone]
    have hWatched := hGuarded.watched_of_open hFollows hNodup hBefore
      (fun x hX y hY hNeX hNeY hNoneX hNoneY =>
        (hOnlyV x hX hNeX hNoneX).trans (hOnlyV y hY hNeY hNoneY).symm)
      hAt
    omega
  · have hAssigned : (trail.value v).isSome = true := by
      rw [hNew, if_pos rfl]
      rfl
    exact (mem_rowFindings_iff hFollows hVar hAssigned hNone hFound
      event).mpr hReveals

/-
  All rows are guarded, but for those that were guarded before
  and have an entry among the first slots.
-/
def GuardedBut
    (before after : Nat → Option Bool)
    (ws : Array Watcher)
    (slots : Nat)
    (t : Watching) : Prop :=
  ∀ (r : Nat) (row : WatchRow), t.rows[r]? = some row →
    row.Guarded after ∨
      (row.Guarded before ∧
        ∃ slot < slots, ∃ watcher, ws[slot]? = some watcher ∧
          watcher.row = r)

/- Each row has at most one entry in the list of a variable. -/
theorem Enlisted.slot_eq_of_row_eq
    (hEnlisted : t.Enlisted s)
    (hWs : t.watchers[v]? = some ws)
    (hRow : t.rows[watcher.row]? = some row)
    (hNodup : row.vars.toList.Nodup)
    (hSlot : ws[slot]? = some watcher)
    {i : Nat}
    {w : Watcher}
    (hAt : ws[i]? = some w)
    (hSame : w.row = watcher.row) :
    i = slot := by
  rcases hEnlisted.row_of_slot hWs hSlot with ⟨first, hFirst, _, hVar⟩
  cases hRow.symm.trans hFirst
  rcases hEnlisted.row_of_slot hWs hAt with ⟨second, hSecond, _, hVar'⟩
  rw [hSame] at hSecond
  cases hRow.symm.trans hSecond
  have hPosition := WatchRow.eq_of_getElem?_vars hNodup hVar' hVar
  have hWatcher : w = watcher := by
    cases w
    cases watcher
    simp_all
  have hLt : i < ws.toList.length :=
    (Array.getElem?_eq_some_iff.mp hAt).1
  apply (List.getElem?_inj hLt (hEnlisted.distinct v ws hWs)).mp
  rw [Array.getElem?_toList, Array.getElem?_toList, hAt, hSlot,
    hWatcher]

/- After the visit of a slot the rows of the slots before remain. -/
theorem GuardedBut.visitSlot
    {found : Findings}
    {ws' : Array Watcher}
    (hStore : s.WellFormed)
    (hEnlisted : t.Enlisted s)
    (hFollows : t.Follows s trail.value)
    (hNew : ∀ w, trail.value w = if w = v then some b else value w)
    (hWs : t.watchers[v]? = some ws)
    (hRows : t.GuardedBut value trail.value ws (slot + 1))
    (hSlot : ws[slot]? = some watcher)
    (hVisit : t.visitSlot trail v slot = .ok (t', found))
    (hOthers : ∀ r, r ≠ watcher.row → t'.rows[r]? = t.rows[r]?)
    (hStay : ∀ i < slot, ws'[i]? = ws[i]?) :
    t'.GuardedBut value trail.value ws' slot := by
  rcases visitSlot_eq_ok hVisit with
    ⟨same, watcher', row, hSame, hSlot', hRow, hVar, hCase⟩
  cases hWs.symm.trans hSame
  cases hSlot.symm.trans hSlot'
  rcases hEnlisted.row_of_slot hWs hSlot with
    ⟨again, hAgain, hWatched, _⟩
  cases hRow.symm.trans hAgain
  have hHere : ∃ next, t'.rows[watcher.row]? = some next ∧
      next.Guarded trail.value := by
    apply guarded_of_visitSlot hNew hRow
      (hFollows.nodup_vars hStore hRow)
      ((hRows _ row hRow).imp_right And.left) hWatched hVar
    rcases hCase with ⟨place, hPlace, hMove, _⟩ | ⟨hNone, hEq, _⟩
    · exact Or.inl ⟨place, hPlace, hMove⟩
    · exact Or.inr ⟨hNone, hEq⟩
  intro r other hOther
  by_cases hEq : r = watcher.row
  · subst hEq
    rcases hHere with ⟨next, hNext, hGuarded⟩
    cases hOther.symm.trans hNext
    exact Or.inl hGuarded
  · rw [hOthers r hEq] at hOther
    rcases hRows r other hOther with
      hGuarded | ⟨hGuarded, i, hLt, w, hAt, rfl⟩
    · exact Or.inl hGuarded
    · have hNe : i ≠ slot := by
        rintro rfl
        cases hAt.symm.trans hSlot
        exact hEq rfl
      have hBefore : i < slot := by omega
      refine Or.inr ⟨hGuarded, i, hBefore, w, ?_, rfl⟩
      rw [hStay i hBefore]
      exact hAt

/- Visiting all slots that remain leaves all rows guarded. -/
theorem GuardedBut.visitSlots
    {slots : Nat}
    {found : Findings}
    (hStore : s.WellFormed)
    (hEnlisted : t.Enlisted s)
    (hFollows : t.Follows s trail.value)
    (hNew : ∀ w, trail.value w = if w = v then some b else value w)
    (hWs : t.watchers[v]? = some ws)
    (hRows : t.GuardedBut value trail.value ws slots)
    (hVisit : visitSlots trail v slots t = .ok (t', found)) :
    t'.Guarded trail.value := by
  have hAssigned : (trail.value v).isSome = true := by
    rw [hNew, if_pos rfl]
    rfl
  induction slots generalizing t ws found with
  | zero =>
      cases hVisit
      intro r row hRow
      rcases hRows r row hRow with hGuarded | ⟨_, slot, hLt, _⟩
      · exact hGuarded
      · exact absurd hLt (Nat.not_lt_zero slot)
  | succ slot ih =>
      simp only [Watching.visitSlots, bind_eq_ok, pure_eq_ok,
        Prod.mk.injEq, Prod.exists] at hVisit
      rcases hVisit with
        ⟨middle, first, hFirst, last, rest, hRest, rfl, rfl⟩
      rcases visitSlot_eq_ok hFirst with
        ⟨same, watcher, row, hSame, hSlot, _⟩
      cases hWs.symm.trans hSame
      rcases hEnlisted.visitSlot hAssigned hWs hSlot hFirst
        with ⟨hMiddle, hOthers, ws', hMiddleWs, _, hStay⟩
      exact ih hMiddle (hFollows.visitSlot hFirst) hMiddleWs
        (hRows.visitSlot hStore hEnlisted hFollows hNew hWs hSlot hFirst
          hOthers hStay) hRest

/- Visiting the slots reports what the constraints of the rows show. -/
theorem mem_of_visitSlots
    {slots : Nat}
    {c : StoredConstraint}
    {found : Findings}
    {event : Event}
    (hStore : s.WellFormed)
    (hEnlisted : t.Enlisted s)
    (hFollows : t.Follows s trail.value)
    (hNew : ∀ w, trail.value w = if w = v then some b else value w)
    (hWs : t.watchers[v]? = some ws)
    (hVisit : visitSlots trail v slots t = .ok (t', found))
    (hLt : slot < slots)
    (hSlot : ws[slot]? = some watcher)
    (hRow : t.rows[watcher.row]? = some row)
    (hRowFollows : row.Follows trail.value c)
    (hGuarded : row.Guarded value)
    (hReveals : c.Reveals trail.value watcher.row event) :
    event ∈ found.events := by
  have hAssigned : (trail.value v).isSome = true := by
    rw [hNew, if_pos rfl]
    rfl
  induction slots generalizing t ws found with
  | zero => exact absurd hLt (Nat.not_lt_zero slot)
  | succ last ih =>
      simp only [visitSlots, bind_eq_ok, pure_eq_ok, Prod.mk.injEq,
        Prod.exists] at hVisit
      rcases hVisit with
        ⟨middle, first, hFirst, end', rest, hRest, rfl, rfl⟩
      rcases visitSlot_eq_ok hFirst with
        ⟨same, visited, row', hSame, hVisited, hRow', hVar, hCase⟩
      cases hWs.symm.trans hSame
      by_cases hEq : slot = last
      · subst hEq
        cases hSlot.symm.trans hVisited
        cases hRow.symm.trans hRow'
        exact List.mem_append_left _
          (mem_of_visitSlot hNew (hFollows.nodup_vars hStore hRow)
            hRowFollows hGuarded hVar hReveals hCase)
      · have hBefore : slot < last := by omega
        -- The slot visited here is about another row.
        have hRowNe : watcher.row ≠ visited.row := by
          intro hRowEq
          exact hEq (hEnlisted.slot_eq_of_row_eq hWs hRow'
            (hFollows.nodup_vars hStore hRow') hVisited hSlot hRowEq)
        rcases hEnlisted.visitSlot hAssigned hWs hVisited hFirst with
          ⟨hMiddle, hOthers, ws', hMiddleWs, _, hStay⟩
        rw [← hStay slot hBefore] at hSlot
        rw [← hOthers watcher.row hRowNe] at hRow
        exact List.mem_append_right _
          (ih hMiddle (hFollows.visitSlot hFirst) hMiddleWs hRest
            hBefore hSlot hRow)

end Visit

section Assign

variable {l : Literal} {ws : Array Watcher} {row : WatchRow} {r p : Nat}

/- What a row watches has its entry in the list of the variable. -/
theorem Enlisted.exists_slot
    (hEnlisted : t.Enlisted s)
    {v : Nat}
    (hWs : t.watchers[v]? = some ws)
    (hRow : t.rows[r]? = some row)
    (hLt : p < row.watched)
    (hVar : row.vars[p]? = some v) :
    ∃ slot < ws.size, ws[slot]? = some ⟨r, p⟩ := by
  have hIn := (hEnlisted.mem_iff _ ws hWs ⟨r, p⟩).mpr
    ⟨row, hRow, hLt, hVar⟩
  rcases Array.mem_iff_getElem?.mp (Array.mem_toList_iff.mp hIn) with
    ⟨slot, hSlot⟩
  exact ⟨slot, (Array.getElem?_eq_some_iff.mp hSlot).1, hSlot⟩

theorem Guarded.foldRows
    {b : Bool}
    {rows : List Nat}
    (hGuarded : t.Guarded value)
    (hNodup : rows.Nodup)
    (hFold : t.foldRows b rows = .ok t') :
    t'.Guarded value := by
  rcases foldRows_eq_ok_iff.mp hFold with ⟨_, rfl⟩
  intro r row hRow
  rw [Table.getElem?_foldl_modify _ hNodup] at hRow
  split at hRow
  · rcases Option.map_eq_some_iff.mp hRow with ⟨old, hOld, rfl⟩
    exact hGuarded r old hOld
  · exact hGuarded r row hRow

theorem Guarded.guardedBut
    (hGuarded : t.Guarded value)
    (hEnlisted : t.Enlisted s)
    (hNew : ∀ w, trail.value w =
      if w = l.index then some l.value else value w)
    (hWs : t.watchers[l.index]? = some ws) :
    t.GuardedBut value trail.value ws ws.size := by
  intro r row hRow
  by_cases hWatched : ∃ p, p < row.watched ∧ row.vars[p]? = some l.index
  · rcases hWatched with ⟨p, hLt, hVar⟩
    rcases hEnlisted.exists_slot hWs hRow hLt hVar with
      ⟨slot, hIn, hSlot⟩
    exact Or.inr ⟨hGuarded r row hRow, slot, hIn, ⟨r, p⟩, hSlot, rfl⟩
  · left
    apply (hGuarded r row hRow).assign_of_unwatched hNew
    intro p hLt hVar
    exact hWatched ⟨p, hLt, hVar⟩

/-
  Taking in a literal adds it to the sums of its rows and then
  visits its watchers. The sums do not touch the watch lists.
-/
theorem exists_visits_of_assign
    {ctx : Context}
    {found : Findings}
    (hStore : ctx.store.WellFormed)
    (hEnlisted : t.Enlisted ctx.store)
    (hFollows : t.Follows ctx.store value)
    (hLast : ctx.trail.last? = some l)
    (hNew : ∀ w, ctx.trail.value w =
      if w = l.index then some l.value else value w)
    (hOpen : value l.index = none)
    (hAssign : t.assign ctx = .ok (t', found)) :
    ∃ middle ws,
      middle.Enlisted ctx.store ∧
        middle.Follows ctx.store ctx.trail.value ∧
        (∀ values, t.Guarded values → middle.Guarded values) ∧
        middle.watchers[l.index]? = some ws ∧
        visitSlots ctx.trail l.index ws.size middle =
          .ok (t', found) := by
  unfold Watching.assign Context.newest at hAssign
  rw [hLast] at hAssign
  simp only [bind_eq_ok, Except.ok.injEq, exists_eq_left',
    Table.get_eq_ok_iff] at hAssign
  rcases hAssign with ⟨middle, hFold, ws, hWs, hVisit⟩
  have hOnce := hStore.nodup_constraintsOf l.index
  have hStart : Enlisted ctx.store { t with frames := [] :: t.frames } :=
    ⟨hEnlisted.rows, hEnlisted.watchers, hEnlisted.distinct,
      hEnlisted.mem_iff⟩
  refine ⟨middle, ws, hStart.foldRows hOnce hFold, ?_, ?_, hWs, hVisit⟩
  · exact Follows.foldRows hStore
      (t := { t with frames := [] :: t.frames }) hFollows hNew hOpen
      hFold
  · intro values hGuarded
    exact Guarded.foldRows (t := { t with frames := [] :: t.frames })
      hGuarded hOnce hFold

/-
  Taking in a literal leaves all rows guarded and reports what
  the constraints with its variable show.
-/
theorem Guarded.assign
    {ctx : Context}
    {found : Findings}
    (hStore : ctx.store.WellFormed)
    (hGuarded : t.Guarded value)
    (hEnlisted : t.Enlisted ctx.store)
    (hFollows : t.Follows ctx.store value)
    (hLast : ctx.trail.last? = some l)
    (hNew : ∀ w, ctx.trail.value w =
      if w = l.index then some l.value else value w)
    (hOpen : value l.index = none)
    (hAssign : t.assign ctx = .ok (t', found)) :
    t'.Guarded ctx.trail.value ∧
      ∀ (r : Nat) (c : StoredConstraint) (event : Event),
        ctx.store.constraints[r]? = some c → l.index ∈ c.vars →
          c.Reveals ctx.trail.value r event → event ∈ found.events := by
  rcases exists_visits_of_assign hStore hEnlisted hFollows hLast hNew
    hOpen hAssign with
    ⟨middle, ws, hMiddle, hMiddleFollows, hStill, hWs, hVisit⟩
  have hBefore := hStill value hGuarded
  constructor
  · exact (hBefore.guardedBut hMiddle hNew hWs).visitSlots hStore
      hMiddle hMiddleFollows hNew hWs hVisit
  intro r c event hAt hIn hReveals
  have hRowLt : r < middle.rows.size := by
    rw [hMiddle.rows]
    exact (Array.getElem?_eq_some_iff.mp hAt).1
  have hRow : middle.rows[r]? = some middle.rows[r] :=
    Array.getElem?_eq_getElem hRowLt
  generalize middle.rows[r] = row at hRow
  rcases hMiddleFollows r row hRow with ⟨same, hSame, hRowFollows⟩
  cases hAt.symm.trans hSame
  have hRowMem : ∀ w, w ∈ row.vars ↔ w ∈ c.vars := by
    intro w
    rw [← Array.mem_toList_iff]
    exact hRowFollows.vars.mem_iff
  have hOthers : ∀ {w}, w ≠ l.index → value w = none →
      ctx.trail.value w = none := by
    intro w hNe hNone
    rw [hNew, if_neg hNe, hNone]
  rcases Array.mem_iff_getElem?.mp ((hRowMem l.index).mpr hIn) with
    ⟨p, hVar⟩
  have hWatched : p < row.watched :=
    (hBefore r row hRow).watched_of_open hRowFollows
      (hMiddleFollows.nodup_vars hStore hRow) hOpen
      (fun w hW u hU hNeW hNeU hNoneW hNoneU =>
        hReveals.open_unique ((hRowMem w).mp hW) ((hRowMem u).mp hU)
          (hOthers hNeW hNoneW) (hOthers hNeU hNoneU))
      hVar
  rcases hMiddle.exists_slot hWs hRow hWatched hVar with
    ⟨slot, hLt, hSlot⟩
  exact mem_of_visitSlots hStore hMiddle hMiddleFollows hNew hWs
    hVisit hLt hSlot hRow hRowFollows (hBefore r row hRow) hReveals

end Assign

/- With nothing assigned a constraint shows little. -/
theorem vars_of_reveals
    (hEmpty : ∀ v, value v = none)
    {c : StoredConstraint}
    (hNodup : c.vars.Nodup)
    {r : Nat}
    {event : Event}
    (hReveals : c.Reveals value r event) :
    (c.vars = [] ∧ c.rhs = true ∧ event = .conflict (.constraint r)) ∨
      ∃ v, c.vars = [v] ∧
        event = .propagation ⟨v, c.rhs⟩ (.constraint r) := by
  have hZero : assignedSum value c.vars = false := by
    rw [funext hEmpty, assignedSum_none]
  have hNever : ∀ v, ¬ (value v).isSome = true := by
    intro v
    simp [hEmpty v]
  cases hReveals with
  | @unit v hMem _ hOthers =>
      refine .inr ⟨v, ?_, by rw [hZero, Bool.xor_false]⟩
      apply List.perm_singleton.mp
      apply (List.perm_ext_iff_of_nodup hNodup
        (List.nodup_singleton v)).mpr
      intro w
      rw [List.mem_singleton]
      constructor
      · intro hIn
        by_contra hNe
        exact hNever w (hOthers w hIn hNe)
      · rintro rfl
        exact hMem
  | failed hAll hFalse =>
      rw [hZero] at hFalse
      refine .inl ⟨?_, by simpa using hFalse.symm, rfl⟩
      exact List.eq_nil_iff_forall_not_mem.mpr fun w hMem =>
        hNever w (hAll w hMem)

/- The first look reports what the constraints show. -/
theorem mem_begin_of_reveals
    (hStore : s.WellFormed)
    (hEnlisted : t.Enlisted s)
    (hFollows : t.Follows s value)
    (hEmpty : ∀ v, value v = none)
    {r : Nat}
    {c : StoredConstraint}
    (hAt : s.constraints[r]? = some c)
    {event : Event}
    (hReveals : c.Reveals value r event) :
    event ∈ t.begin.events := by
  have hLt : r < t.rows.size := by
    rw [hEnlisted.rows]
    exact (Array.getElem?_eq_some_iff.mp hAt).1
  have hRow : t.rows[r]? = some t.rows[r] :=
    Array.getElem?_eq_getElem hLt
  rcases hFollows r _ hRow with ⟨same, hSame, hRowFollows⟩
  cases hAt.symm.trans hSame
  have hVars := hRowFollows.vars
  simp only [begin, List.mem_filterMap, Prod.exists,
    List.mem_zipIdx_iff_getElem?, Array.getElem?_toList]
  refine ⟨_, r, hRow, ?_⟩
  unfold beginRow
  rcases vars_of_reveals hEmpty
      (hStore.nodup_vars (Array.mem_of_getElem? hAt)) hReveals with
    ⟨hNil, hRhs, rfl⟩ | ⟨v, hSingle, rfl⟩
  · rw [hNil] at hVars
    rw [List.perm_nil.mp hVars, hRowFollows.rhs, hRhs]
    rfl
  · rw [hSingle] at hVars
    rw [List.perm_singleton.mp hVars, hRowFollows.rhs]

end Watching

end ParitySolver
