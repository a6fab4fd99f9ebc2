import ParitySolver.Engine.Resolution
import ParitySolver.Proofs.Reason

/-
  The verdict on valid events is sound: forced literals
  follow from their reasons, and the constraints contradict
  the reason of a conflict. A verdict that nothing follows
  means that the host has every forced literal already.

  Key definitions include:
    * `Host.Covers`
    * `Store.Refutes`
    * `Propagation.Justified`
    * `Verdict.Sound`
    * `Verdict.news`

  Main declarations:
    * `resolve_sound`
    * `resolve_without_conflict`
    * `resolve_of_conflicts`
-/

namespace ParitySolver

------------------------------------------------------------
-- What the host knows
------------------------------------------------------------

namespace Host

/- The host has all values of a partial assignment. -/
def Covers
    (h : Host)
    (value : Nat → Option Bool) : Prop :=
  ∀ v b, value v = some b → h.read v = .ok (some b)

theorem isTrue_eq_ok
    {h : Host}
    {l : Literal}
    {b : Bool} :
    h.isTrue l = .ok b ↔
      ∃ value?, h.read l.index = .ok value? ∧
        (value? == some l.value) = b :=
  map_eq_ok

theorem isFalse_eq_ok
    {h : Host}
    {l : Literal}
    {b : Bool} :
    h.isFalse l = .ok b ↔
      ∃ value?, h.read l.index = .ok value? ∧
        (value? == some !l.value) = b :=
  map_eq_ok

/- A host holds a literal if it reads its value. -/
theorem isTrue_iff_read
    {h : Host}
    {l : Literal} :
    h.isTrue l = .ok true ↔
      h.read l.index = .ok (some l.value) := by
  rw [isTrue_eq_ok]
  constructor
  · rintro ⟨value?, hRead, hSame⟩
    rw [hRead, beq_iff_eq.mp hSame]
  · intro hRead
    exact ⟨_, hRead, by simp⟩

theorem isTrue_negate_of_isFalse
    {h : Host}
    {l : Literal}
    (hFalse : h.isFalse l = .ok true) :
    h.isTrue l.negate = .ok true :=
  hFalse

/- A variable that is neither true nor false has no value. -/
theorem read_eq_none
    {h : Host}
    {l : Literal}
    (hTrue : h.isTrue l = .ok false)
    (hFalse : h.isFalse l = .ok false) :
    h.read l.index = .ok none := by
  rcases isTrue_eq_ok.mp hTrue with ⟨value?, hRead, hNotTrue⟩
  rcases isFalse_eq_ok.mp hFalse with ⟨other?, hAgain, hNotFalse⟩
  have hSame : value? = other? := by
    rw [hRead] at hAgain
    exact Except.ok.inj hAgain
  subst hSame
  rw [hRead]
  cases value? with
  | none => rfl
  | some b =>
      cases b <;> cases hValue : l.value <;>
        simp [hValue] at hNotTrue hNotFalse

end Host

------------------------------------------------------------
-- Sound verdicts
------------------------------------------------------------

/-
  The reason of a conflict: it ascends, the host holds it,
  and the constraints contradict it.
-/
structure Store.Refutes
    (s : Store)
    (h : Host)
    (reason : List Literal) : Prop where
  ascending : Ascending reason
  held : ∀ l ∈ reason, h.isTrue l = .ok true
  refuted : ∀ a, s.Holds a → ¬ ∀ l ∈ reason, l.Holds a

/-
  A forced literal is news to the host, and the constraints
  and its reason, which is on the trail, entail it.
-/
structure Propagation.Justified
    (s : Store)
    (t : Trail)
    (h : Host)
    (p : Propagation) : Prop where
  relevant : s.isRelevant p.literal.index = true
  offTrail : t.value p.literal.index = none
  isNews : h.read p.literal.index = .ok none
  ascending : Ascending p.reason
  onTrail : ∀ l ∈ p.reason, t.value l.index = some l.value
  elsewhere : ∀ l ∈ p.reason, l.index ≠ p.literal.index
  entailed :
    ∀ a, s.Holds a → (∀ l ∈ p.reason, l.Holds a) →
      p.literal.Holds a

/- What a verdict promises. -/
def Verdict.Sound
    (s : Store)
    (t : Trail)
    (h : Host) : Verdict → Prop
  | .nothing => True
  | .forced ps =>
      ps ≠ [] ∧
        (ps.map fun p => p.literal.index).Nodup ∧
        ∀ p ∈ ps, p.Justified s t h
  | .conflict reason => s.Refutes h reason

/- The literals that a verdict forces. -/
def Verdict.news : Verdict → List Literal
  | .forced ps => ps.map Propagation.literal
  | _ => []

------------------------------------------------------------
-- Clashes
------------------------------------------------------------

theorem mem_insertByIndex
    {l k : Literal}
    {ls : List Literal} :
    k ∈ insertByIndex l ls ↔ k = l ∨ k ∈ ls := by
  induction ls with
  | nil => simp [insertByIndex]
  | cons first ls ih =>
      unfold insertByIndex
      split
      · simp
      · rw [List.mem_cons, ih, List.mem_cons]
        exact or_left_comm

/- A literal of a new variable goes into its place. -/
theorem ascending_insertByIndex
    {l : Literal}
    {ls : List Literal}
    (hAscending : Ascending ls)
    (hNew : ∀ k ∈ ls, k.index ≠ l.index) :
    Ascending (insertByIndex l ls) := by
  unfold Ascending at *
  rw [List.pairwise_map] at *
  induction ls with
  | nil => exact List.pairwise_singleton _ _
  | cons first ls ih =>
      rw [List.pairwise_cons] at hAscending
      have hFirst := hNew first List.mem_cons_self
      unfold insertByIndex
      split
      · rename_i hLe
        have hLess : l.index < first.index :=
          Nat.lt_of_le_of_ne hLe fun hSame => hFirst hSame.symm
        refine List.pairwise_cons.mpr
          ⟨?_, List.pairwise_cons.mpr hAscending⟩
        intro k hMem
        rcases List.mem_cons.mp hMem with rfl | hTail
        · exact hLess
        · exact Nat.lt_trans hLess (hAscending.1 k hTail)
      · rename_i hGt
        have hTail := ih hAscending.2 fun k hMem =>
          hNew k (List.mem_cons_of_mem first hMem)
        refine List.pairwise_cons.mpr ⟨?_, hTail⟩
        intro k hMem
        rcases mem_insertByIndex.mp hMem with rfl | hOld
        · exact Nat.lt_of_not_le hGt
        · exact hAscending.1 k hOld

section Verdicts

variable {s : Store} {t : Trail} {h : Host}

/- Literals on the trail are true in a host that covers it. -/
theorem Host.Covers.held
    (hCovers : h.Covers t.value)
    {reason : List Literal}
    (hValues : ∀ l ∈ reason, t.value l.index = some l.value) :
    ∀ l ∈ reason, h.isTrue l = .ok true := by
  intro l hMem
  rw [Host.isTrue_iff_read]
  exact hCovers l.index l.value (hValues l hMem)

/- The reason of a valid conflict is refuted. -/
theorem refutes_of_valid_conflict
    (hStore : s.WellFormed)
    (hCovers : h.Covers t.value)
    {origin : Origin}
    {reason : List Literal}
    (hValid : Event.Valid s t.value (.conflict origin))
    (hExplain : origin.explain s t none = .ok reason) :
    s.Refutes h reason := by
  rcases Origin.explain_eq_ok hExplain with
    ⟨hAscending, hValues, -, -⟩
  refine ⟨hAscending, hCovers.held hValues, ?_⟩
  intro a hHolds
  exact Event.refutes_of_conflict hStore hValid hExplain hHolds

/- A forced literal that the host holds false is refuted. -/
theorem refutes_of_forced_false
    (hStore : s.WellFormed)
    (hCovers : h.Covers t.value)
    {l : Literal}
    {origin : Origin}
    {reason : List Literal}
    (hValid : Event.Valid s t.value (.propagation l origin))
    (hOpen : t.value l.index = none)
    (hFalse : h.isFalse l = .ok true)
    (hExplain :
      origin.explain s t (some l.index) = .ok reason) :
    s.Refutes h (insertByIndex l.negate reason) := by
  rcases Origin.explain_eq_ok hExplain with
    ⟨hAscending, hValues, hOther, -⟩
  refine ⟨?_, ?_, ?_⟩
  · apply ascending_insertByIndex hAscending
    intro k hMem hSame
    exact hOther k hMem (congrArg some hSame.symm)
  · intro k hMem
    rcases mem_insertByIndex.mp hMem with rfl | hOld
    · exact Host.isTrue_negate_of_isFalse hFalse
    · exact hCovers.held hValues k hOld
  · intro a hHolds hAgree
    have hForced : l.Holds a := by
      apply Event.entails_of_propagation hStore hValid hOpen
        hExplain hHolds
      intro k hMem
      exact hAgree k (mem_insertByIndex.mpr (Or.inr hMem))
    have hNegated : l.negate.Holds a :=
      hAgree l.negate (mem_insertByIndex.mpr (Or.inl rfl))
    unfold Literal.Holds at hForced hNegated
    rw [Literal.negate_index, hForced, Literal.negate_value]
      at hNegated
    cases hValue : l.value <;> simp [hValue] at hNegated

------------------------------------------------------------
-- Sifting
------------------------------------------------------------

/- Literals that wait to be reported. -/
structure PendingSound
    (s : Store)
    (t : Trail)
    (h : Host)
    (pending : List (Literal × Origin)) : Prop where
  distinct : (pending.map fun entry => entry.1.index).Nodup
  valid :
    ∀ entry ∈ pending,
      Event.Valid s t.value (.propagation entry.1 entry.2)
  offTrail : ∀ entry ∈ pending, t.value entry.1.index = none
  isNews : ∀ entry ∈ pending, h.read entry.1.index = .ok none

theorem PendingSound.nil :
    PendingSound s t h [] := by
  refine ⟨List.nodup_nil, ?_, ?_, ?_⟩ <;>
    · intro entry hMem
      cases hMem

theorem PendingSound.snoc
    {pending : List (Literal × Origin)}
    (hPending : PendingSound s t h pending)
    {l : Literal}
    {origin : Origin}
    (hNew : ∀ entry ∈ pending, entry.1.index ≠ l.index)
    (hValid : Event.Valid s t.value (.propagation l origin))
    (hOpen : t.value l.index = none)
    (hNews : h.read l.index = .ok none) :
    PendingSound s t h (pending ++ [(l, origin)]) := by
  refine ⟨?_, ?_, ?_, ?_⟩
  · rw [List.map_append, List.nodup_append]
    refine ⟨hPending.distinct, by simp, ?_⟩
    intro i hOld j hLast
    rw [List.mem_map] at hOld
    rcases hOld with ⟨entry, hMem, rfl⟩
    have hEq : j = l.index := by simpa using hLast
    rw [hEq]
    exact hNew entry hMem
  · intro entry hMem
    rcases List.mem_append.mp hMem with hOld | hLast
    · exact hPending.valid entry hOld
    · rw [List.mem_singleton.mp hLast]
      exact hValid
  · intro entry hMem
    rcases List.mem_append.mp hMem with hOld | hLast
    · exact hPending.offTrail entry hOld
    · rw [List.mem_singleton.mp hLast]
      exact hOpen
  · intro entry hMem
    rcases List.mem_append.mp hMem with hOld | hLast
    · exact hPending.isNews entry hOld
    · rw [List.mem_singleton.mp hLast]
      exact hNews

/- What sifting leaves: a refuted reason, or sound literals. -/
def Sifted.Sound
    (s : Store)
    (t : Trail)
    (h : Host) : Sifted → Prop
  | .clash reason _ => s.Refutes h reason
  | .pending forced => PendingSound s t h forced

/- Two literals of a variable are the same or complements. -/
theorem Literal.eq_negate_of_ne
    {k l : Literal}
    (hIndex : k.index = l.index)
    (hNe : k ≠ l) :
    k = l.negate := by
  rcases k with ⟨i, b⟩
  rcases l with ⟨j, c⟩
  cases hIndex
  have hValue : b ≠ c := by
    rintro rfl
    exact hNe rfl
  rw [Literal.negate, Bool.eq_not_of_ne hValue]

/- The steps of sifting one forced literal. -/
theorem sift_propagation_eq_ok
    {pending : List (Literal × Origin)}
    {l : Literal}
    {origin : Origin}
    {events : List Event}
    {sifted : Sifted}
    (hSift :
      sift s t h pending (.propagation l origin :: events) =
        .ok sifted) :
    t.value l.index = none ∧
      ((h.isTrue l = .ok true ∧
          sift s t h pending events = .ok sifted) ∨
        (∃ reason,
          h.isFalse l = .ok true ∧
            origin.explain s t (some l.index) = .ok reason ∧
            ∃ note,
              sifted =
                .clash (insertByIndex l.negate reason) note) ∨
        (h.read l.index = .ok none ∧
          (((∀ entry ∈ pending, entry.1.index ≠ l.index) ∧
              sift s t h (pending ++ [(l, origin)]) events =
                .ok sifted) ∨
            (∃ first ∈ pending,
              first.1 = l ∧
                sift s t h pending events = .ok sifted) ∨
            (∃ first ∈ pending, ∃ both reason note,
              first.1 = l.negate ∧
                first.2.combine origin s.size = .ok both ∧
                both.explain s t none = .ok reason ∧
                sifted = .clash reason note)))) := by
  unfold sift at hSift
  simp only [bind_eq_ok, require_eq_ok, exists_const] at hSift
  rcases hSift with ⟨assigned, hAssigned, hOff, isTrue, hTrue, hSift⟩
  have hOpen : t.value l.index = none := by
    have hSome := Trail.isSome_value_of_isAssigned hAssigned
    rw [Bool.not_eq_eq_eq_not.mp hOff] at hSome
    exact Option.isNone_iff_eq_none.mp
      (Option.isSome_eq_false_iff.mp hSome)
  refine ⟨hOpen, ?_⟩
  cases isTrue with
  | true => exact Or.inl ⟨hTrue, by simpa using hSift⟩
  | false =>
      right
      simp only [Bool.false_eq_true, if_false, bind_eq_ok] at hSift
      rcases hSift with ⟨isFalse, hFalse, hSift⟩
      cases isFalse with
      | true =>
          left
          simp only [if_true, bind_eq_ok, pure_eq_ok] at hSift
          rcases hSift with ⟨reason, hExplain, rfl⟩
          exact ⟨reason, hFalse, hExplain, _, rfl⟩
      | false =>
          right
          refine ⟨Host.read_eq_none hTrue hFalse, ?_⟩
          simp only [Bool.false_eq_true, if_false] at hSift
          cases hFind :
              pending.find? fun entry =>
                entry.1.index == l.index with
          | none =>
              left
              rw [hFind] at hSift
              refine ⟨?_, hSift⟩
              intro entry hMem hSame
              have hNot := List.find?_eq_none.mp hFind entry hMem
              simp [hSame] at hNot
          | some first =>
              right
              rw [hFind] at hSift
              have hMem := List.mem_of_find?_eq_some hFind
              have hIndex : first.1.index = l.index := by
                simpa using List.find?_some hFind
              rcases first with ⟨k, firstOrigin⟩
              simp only at hSift hIndex
              by_cases hSame : k = l
              · left
                rw [if_pos hSame] at hSift
                exact ⟨_, hMem, hSame, hSift⟩
              · right
                simp only [if_neg hSame, bind_eq_ok, pure_eq_ok]
                  at hSift
                rcases hSift with
                  ⟨both, hBoth, reason, hExplain, rfl⟩
                exact ⟨_, hMem, both, reason, _,
                  Literal.eq_negate_of_ne hIndex hSame, hBoth,
                  hExplain, rfl⟩

/- Sifting valid events leaves something sound. -/
theorem sift_sound
    (hStore : s.WellFormed)
    (hCovers : h.Covers t.value)
    {events : List Event}
    (hValid : ∀ event ∈ events, event.Valid s t.value)
    {pending : List (Literal × Origin)}
    (hPending : PendingSound s t h pending)
    {sifted : Sifted}
    (hSift : sift s t h pending events = .ok sifted) :
    sifted.Sound s t h := by
  induction events generalizing pending with
  | nil =>
      unfold sift at hSift
      cases hSift
      exact hPending
  | cons event events ih =>
      have hHead := hValid event List.mem_cons_self
      have hTail : ∀ other ∈ events, other.Valid s t.value :=
        fun other hMem => hValid other (List.mem_cons_of_mem _ hMem)
      cases event with
      | conflict origin =>
          unfold sift at hSift
          exact ih hTail hPending hSift
      | propagation l origin =>
          rcases sift_propagation_eq_ok hSift with ⟨hOpen, hCases⟩
          rcases hCases with
            ⟨-, hRest⟩ | ⟨reason, hFalse, hExplain, note, rfl⟩ |
            ⟨hNews, hCases⟩
          · exact ih hTail hPending hRest
          · exact refutes_of_forced_false hStore hCovers hHead
              hOpen hFalse hExplain
          · rcases hCases with
              ⟨hNew, hRest⟩ | ⟨-, -, -, hRest⟩ |
              ⟨first, hMem, both, reason, note, hNegate, hBoth,
                hExplain, rfl⟩
            · exact ih hTail
                (hPending.snoc hNew hHead hOpen hNews) hRest
            · exact ih hTail hPending hRest
            · have hFirst := hPending.valid first hMem
              have hSecond : Event.Valid s t.value
                  (.propagation first.1.negate origin) := by
                rw [hNegate, Literal.negate_negate]
                exact hHead
              exact refutes_of_valid_conflict hStore hCovers
                (Event.valid_conflict_of_combine hFirst hSecond
                  hBoth)
                hExplain

/- Sifting drops no literal but those that the host holds. -/
theorem sift_pending_complete
    {events : List Event}
    {pending forced : List (Literal × Origin)}
    (hSift : sift s t h pending events = .ok (.pending forced)) :
    (∀ entry ∈ pending, entry ∈ forced) ∧
      ∀ l origin, Event.propagation l origin ∈ events →
        h.isTrue l = .ok true ∨
          ∃ entry ∈ forced, entry.1 = l := by
  induction events generalizing pending with
  | nil =>
      unfold sift at hSift
      cases hSift
      exact ⟨fun _ hMem => hMem, fun _ _ hMem => by cases hMem⟩
  | cons event events ih =>
      cases event with
      | conflict origin =>
          unfold sift at hSift
          rcases ih hSift with ⟨hKept, hAll⟩
          refine ⟨hKept, ?_⟩
          intro l other hMem
          rcases List.mem_cons.mp hMem with hHead | hTail
          · cases hHead
          · exact hAll l other hTail
      | propagation k origin =>
          have hSplit :
              ∀ {pending' : List (Literal × Origin)},
                sift s t h pending' events =
                    .ok (.pending forced) →
                  (∀ entry ∈ pending, entry ∈ pending') →
                    (h.isTrue k = .ok true ∨
                      ∃ entry ∈ pending', entry.1 = k) →
                      (∀ entry ∈ pending, entry ∈ forced) ∧
                        ∀ l origin',
                          Event.propagation l origin' ∈
                              Event.propagation k origin ::
                                events →
                            h.isTrue l = .ok true ∨
                              ∃ entry ∈ forced, entry.1 = l := by
            intro pending' hRest hSub hFound
            rcases ih hRest with ⟨hKept, hAll⟩
            refine ⟨fun entry hMem => hKept entry (hSub entry hMem),
              ?_⟩
            intro l other hMem
            rcases List.mem_cons.mp hMem with hHead | hTail
            · cases hHead
              rcases hFound with hTrue | ⟨entry, hIn, hSame⟩
              · exact Or.inl hTrue
              · exact Or.inr ⟨entry, hKept entry hIn, hSame⟩
            · exact hAll l other hTail
          rcases sift_propagation_eq_ok hSift with ⟨-, hCases⟩
          rcases hCases with
            ⟨hTrue, hRest⟩ | ⟨reason, -, -, note, hClash⟩ |
            ⟨-, hCases⟩
          · exact hSplit hRest (fun _ hMem => hMem)
              (Or.inl hTrue)
          · cases hClash
          · rcases hCases with
              ⟨-, hRest⟩ | ⟨first, hMem, hSame, hRest⟩ |
              ⟨_, _, _, _, _, _, _, _, hClash⟩
            · exact hSplit hRest
                (fun entry hMem => List.mem_append_left _ hMem)
                (Or.inr ⟨_, List.mem_append_right _
                  (List.mem_singleton_self _), rfl⟩)
            · exact hSplit hRest (fun _ hMem => hMem)
                (Or.inr ⟨first, hMem, hSame⟩)
            · cases hClash

------------------------------------------------------------
-- Verdicts
------------------------------------------------------------

theorem mem_of_firstConflict?
    {events : List Event}
    {origin : Origin}
    (hFirst : firstConflict? events = some origin) :
    Event.conflict origin ∈ events := by
  induction events with
  | nil => cases hFirst
  | cons event events ih =>
      cases event with
      | conflict first =>
          cases hFirst
          exact List.mem_cons_self
      | propagation l other =>
          exact List.mem_cons_of_mem _ (ih hFirst)

theorem not_conflict_of_firstConflict?
    {events : List Event}
    (hNone : firstConflict? events = none)
    {event : Event}
    (hMem : event ∈ events) :
    ∃ l origin, event = .propagation l origin := by
  induction events with
  | nil => cases hMem
  | cons first events ih =>
      cases first with
      | conflict origin => cases hNone
      | propagation l origin =>
          rcases List.mem_cons.mp hMem with rfl | hTail
          · exact ⟨l, origin, rfl⟩
          · exact ih hNone hTail

/- The ways to a verdict. -/
theorem resolve_eq_ok
    {events : List Event}
    {verdict : Verdict}
    {notes : List Note}
    (hResolve : resolve s t h events = .ok (verdict, notes)) :
    (∃ origin reason,
      firstConflict? events = some origin ∧
        origin.explain s t none = .ok reason ∧
        verdict = .conflict reason) ∨
      (firstConflict? events = none ∧
        ∃ sifted, sift s t h [] events = .ok sifted ∧
          ((∃ reason note,
              sifted = .clash reason note ∧
                verdict = .conflict reason) ∨
            (sifted = .pending [] ∧ verdict = .nothing) ∨
            (∃ forced ps,
              sifted = .pending forced ∧ forced ≠ [] ∧
                forced.mapM (justify s t) = .ok ps ∧
                verdict = .forced ps))) := by
  unfold resolve at hResolve
  cases hFirst : firstConflict? events with
  | some origin =>
      left
      simp only [hFirst, bind_eq_ok, pure_eq_ok,
        Prod.mk.injEq] at hResolve
      rcases hResolve with ⟨reason, hExplain, hVerdict, -⟩
      exact ⟨origin, reason, rfl, hExplain, hVerdict.symm⟩
  | none =>
      right
      refine ⟨rfl, ?_⟩
      simp only [hFirst, bind_eq_ok] at hResolve
      rcases hResolve with ⟨sifted, hSift, hResolve⟩
      refine ⟨sifted, hSift, ?_⟩
      cases sifted with
      | clash reason note =>
          simp only [pure_eq_ok, Prod.mk.injEq] at hResolve
          exact Or.inl ⟨reason, note, rfl, hResolve.1.symm⟩
      | pending forced =>
          cases forced with
          | nil =>
              simp only [pure_eq_ok, Prod.mk.injEq] at hResolve
              exact Or.inr (Or.inl ⟨rfl, hResolve.1.symm⟩)
          | cons entry rest =>
              simp only [bind_eq_ok, pure_eq_ok,
                Prod.mk.injEq] at hResolve
              rcases hResolve with ⟨ps, hAll, hVerdict, -⟩
              exact Or.inr (Or.inr
                ⟨_, ps, rfl, by simp, hAll, hVerdict.symm⟩)

theorem justify_eq_ok
    {entry : Literal × Origin}
    {p : Propagation}
    (hJustify : justify s t entry = .ok p) :
    p.literal = entry.1 ∧
      entry.2.explain s t (some entry.1.index) =
        .ok p.reason := by
  simp only [justify, bind_eq_ok, pure_eq_ok] at hJustify
  rcases hJustify with ⟨reason, hExplain, rfl⟩
  exact ⟨rfl, hExplain⟩

/- Justifying literals keeps them in order. -/
theorem map_literal_of_justify
    {pending : List (Literal × Origin)}
    {ps : List Propagation}
    (hEach :
      List.Forall₂ (fun entry p => justify s t entry = .ok p)
        pending ps) :
    ps.map Propagation.literal = pending.map Prod.fst := by
  induction hEach with
  | nil => rfl
  | cons hHead _ ih =>
      rw [List.map_cons, List.map_cons, ih,
        (justify_eq_ok hHead).1]

/- A waiting literal with its reason is justified. -/
theorem PendingSound.justified
    (hStore : s.WellFormed)
    {pending : List (Literal × Origin)}
    (hPending : PendingSound s t h pending)
    {entry : Literal × Origin}
    (hMem : entry ∈ pending)
    {p : Propagation}
    (hJustify : justify s t entry = .ok p) :
    p.Justified s t h := by
  rcases justify_eq_ok hJustify with ⟨hLiteral, hExplain⟩
  rcases Origin.explain_eq_ok hExplain with
    ⟨hAscending, hValues, hOther, -⟩
  have hValid := hPending.valid entry hMem
  have hOpen := hPending.offTrail entry hMem
  refine ⟨?_, ?_, ?_, hAscending, hValues, ?_, ?_⟩
  · rw [hLiteral]
    exact hValid.1
  · rw [hLiteral]
    exact hOpen
  · rw [hLiteral]
    exact hPending.isNews entry hMem
  · intro l hIn hSame
    rw [hLiteral] at hSame
    exact hOther l hIn (congrArg some hSame.symm)
  · intro a hHolds hAgree
    rw [hLiteral]
    exact Event.entails_of_propagation hStore hValid hOpen
      hExplain hHolds hAgree

/- The verdict on valid events is sound. -/
theorem resolve_sound
    (hStore : s.WellFormed)
    (hCovers : h.Covers t.value)
    {events : List Event}
    (hValid : ∀ event ∈ events, event.Valid s t.value)
    {verdict : Verdict}
    {notes : List Note}
    (hResolve : resolve s t h events = .ok (verdict, notes)) :
    verdict.Sound s t h := by
  rcases resolve_eq_ok hResolve with
    ⟨origin, reason, hFirst, hExplain, rfl⟩ |
    ⟨-, sifted, hSift, hCases⟩
  · exact refutes_of_valid_conflict hStore hCovers
      (hValid _ (mem_of_firstConflict? hFirst)) hExplain
  · have hSound :=
      sift_sound hStore hCovers hValid PendingSound.nil hSift
    rcases hCases with
      ⟨reason, note, rfl, rfl⟩ | ⟨rfl, rfl⟩ |
      ⟨forced, ps, rfl, hNonempty, hAll, rfl⟩
    · exact hSound
    · trivial
    · have hEach := mapM_eq_ok_iff.mp hAll
      have hPending : PendingSound s t h forced := hSound
      have hIndices : ps.map (fun p => p.literal.index) =
          forced.map fun entry => entry.1.index := by
        have hLiterals := congrArg (List.map Literal.index)
          (map_literal_of_justify hEach)
        rwa [List.map_map, List.map_map] at hLiterals
      refine ⟨?_, ?_, ?_⟩
      · rintro rfl
        cases hEach
        exact hNonempty rfl
      · rw [hIndices]
        exact hPending.distinct
      · intro p hMem
        rcases exists_of_forall₂_of_mem hEach hMem with
          ⟨entry, hIn, hJustify⟩
        exact hPending.justified hStore hIn hJustify

/-
  Without a conflict the host holds every literal that was
  found, or the verdict forces it.
-/
theorem resolve_without_conflict
    {events : List Event}
    {verdict : Verdict}
    {notes : List Note}
    (hResolve : resolve s t h events = .ok (verdict, notes))
    (hQuiet : ∀ reason, verdict ≠ .conflict reason) :
    ∀ event ∈ events, ∃ l origin,
      event = .propagation l origin ∧
        (h.isTrue l = .ok true ∨ l ∈ verdict.news) := by
  rcases resolve_eq_ok hResolve with
    ⟨_, reason, _, _, hVerdict⟩ | ⟨hNone, sifted, hSift, hCases⟩
  · exact absurd hVerdict (hQuiet reason)
  · intro event hMem
    rcases not_conflict_of_firstConflict? hNone hMem with
      ⟨l, origin, rfl⟩
    refine ⟨l, origin, rfl, ?_⟩
    rcases hCases with
      ⟨reason, _, _, hVerdict⟩ | ⟨rfl, _⟩ |
        ⟨forced, ps, rfl, _, hAll, rfl⟩
    · exact absurd hVerdict (hQuiet reason)
    · rcases (sift_pending_complete hSift).2 l origin hMem with
        hTrue | ⟨entry, hIn, -⟩
      · exact .inl hTrue
      · cases hIn
    · rcases (sift_pending_complete hSift).2 l origin hMem with
        hTrue | ⟨entry, hIn, rfl⟩
      · exact .inl hTrue
      · right
        rw [Verdict.news, map_literal_of_justify
          (mapM_eq_ok_iff.mp hAll)]
        exact List.mem_map_of_mem hIn

/- If nothing follows, the host holds every forced literal. -/
theorem resolve_nothing
    {events : List Event}
    {notes : List Note}
    (hResolve : resolve s t h events = .ok (.nothing, notes)) :
    ∀ event ∈ events, ∃ l origin,
      event = .propagation l origin ∧
        h.isTrue l = .ok true := by
  intro event hMem
  rcases resolve_without_conflict hResolve nofun event hMem with
    ⟨l, origin, hEvent, hTrue | hNews⟩
  · exact ⟨l, origin, hEvent, hTrue⟩
  · cases hNews

/- Conflicts alone force no literal. -/
theorem resolve_of_conflicts
    {events : List Event}
    (hConflicts :
      ∀ event ∈ events, ∃ origin, event = .conflict origin)
    {verdict : Verdict}
    {notes : List Note}
    (hResolve : resolve s t h events = .ok (verdict, notes))
    (ps : List Propagation) :
    verdict ≠ .forced ps := by
  rintro rfl
  rcases resolve_eq_ok hResolve with
    ⟨_, _, _, _, hVerdict⟩ | ⟨hNone, sifted, hSift, hCases⟩
  · cases hVerdict
  · have hNil : events = [] := by
      cases events with
      | nil => rfl
      | cons event events =>
          rcases hConflicts event List.mem_cons_self with
            ⟨origin, rfl⟩
          cases hNone
    subst hNil
    unfold sift at hSift
    cases hSift
    rcases hCases with
      ⟨_, _, hSifted, _⟩ | ⟨_, hVerdict⟩ |
      ⟨forced, _, hSifted, hNonempty, _, _⟩
    · cases hSifted
    · cases hVerdict
    · cases hSifted
      exact hNonempty rfl

end Verdicts

end ParitySolver
