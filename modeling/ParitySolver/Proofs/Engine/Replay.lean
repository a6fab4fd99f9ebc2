import Mathlib.Data.List.Induction
import ParitySolver.Engine
import ParitySolver.Proofs.Resolution
import ParitySolver.Proofs.Theory

/-
  The state of an engine depends on its trail only: it is the
  state of a fresh theory that has taken in the literals of
  the trail, oldest first. Going back drops the newest
  entries and does not fail.

  Key definitions include:
    * `Engine.replay`
    * `Engine.Faithful`

  Main declarations:
    * `Engine.replay_spec`
    * `Engine.Faithful.undo`
-/

namespace ParitySolver

namespace Engine

------------------------------------------------------------
-- Replaying a trail
------------------------------------------------------------

/- What a theory may read under a trail. -/
def contextOf
    (config : Config)
    (store : Store)
    (trail : Trail) : Context :=
  { store
    trail
    eliminate := config.cutoff.admits trail.size store.numColumns
    display := config.display }

/- Take in one entry of a trail. -/
def replayEntry
    (config : Config)
    (store : Store)
    (state : Trail × Theory)
    (entry : TrailEntry) : Except Fault (Trail × Theory) := do
  let trail ← state.1.push entry.literal entry.level
  let (theory, _) ← state.2.assign (contextOf config store trail)
  return (trail, theory)

/- A fresh theory that takes in entries in order. -/
def replay
    (config : Config)
    (store : Store)
    (entries : List TrailEntry) : Except Fault (Trail × Theory) := do
  let theory ← Theory.ofStore config.strategy store
  entries.foldlM (replayEntry config store)
    (Trail.empty store.numVariables, theory)

variable {config : Config} {store : Store}

theorem replayEntry_eq_ok_iff
    {state : Trail × Theory}
    {entry : TrailEntry}
    {trail : Trail}
    {theory : Theory} :
    replayEntry config store state entry = .ok (trail, theory) ↔
      state.1.push entry.literal entry.level = .ok trail ∧
        ∃ found,
          state.2.assign (contextOf config store trail) =
            .ok (theory, found) := by
  simp only [replayEntry, bind_eq_ok, pure_eq_ok, Prod.exists,
    Prod.mk.injEq]
  constructor
  · rintro ⟨_, hPush, _, found, hAssign, rfl, rfl⟩
    exact ⟨hPush, found, hAssign⟩
  · rintro ⟨hPush, found, hAssign⟩
    exact ⟨_, hPush, _, found, hAssign, rfl, rfl⟩

theorem replay_nil_eq_ok_iff
    {trail : Trail}
    {theory : Theory} :
    replay config store [] = .ok (trail, theory) ↔
      trail = Trail.empty store.numVariables ∧
        Theory.ofStore config.strategy store = .ok theory := by
  simp only [replay, bind_eq_ok, List.foldlM_nil, pure_eq_ok,
    Prod.mk.injEq]
  constructor
  · rintro ⟨_, hTheory, rfl, rfl⟩
    exact ⟨rfl, hTheory⟩
  · rintro ⟨rfl, hTheory⟩
    exact ⟨theory, hTheory, rfl, rfl⟩

theorem replay_snoc_eq_ok_iff
    {entries : List TrailEntry}
    {entry : TrailEntry}
    {state : Trail × Theory} :
    replay config store (entries ++ [entry]) = .ok state ↔
      ∃ before, replay config store entries = .ok before ∧
        replayEntry config store before entry = .ok state := by
  simp only [replay, bind_eq_ok, List.foldlM_append,
    List.foldlM_cons, List.foldlM_nil, pure_eq_ok]
  constructor
  · rintro ⟨theory, hTheory, before, hBefore, _, hEntry, rfl⟩
    exact ⟨before, ⟨theory, hTheory, hBefore⟩, hEntry⟩
  · rintro ⟨before, ⟨theory, hTheory, hBefore⟩, hEntry⟩
    exact ⟨theory, hTheory, before, hBefore, state, hEntry, rfl⟩

/- The context right after an entry was taken in. -/
theorem takesIn_of_push
    {trail trail' : Trail}
    {l : Literal}
    {level : Nat}
    (hPush : trail.push l level = .ok trail') :
    Theory.TakesIn (contextOf config store trail') trail.value l where
  last := by
    simp only [contextOf, Trail.last?, Trail.entries_of_push hPush,
      List.head?_cons, Option.map_some]
  new := Trail.value_of_push hPush
  isOpen := Trail.value_eq_none_of_push hPush

/- What is true of a state that a replay leads to. -/
structure Consistent
    (config : Config)
    (store : Store)
    (trail : Trail)
    (theory : Theory) : Prop where
  orderly : trail.Orderly
  follows : theory.Follows store trail.value
  eliminates :
    theory.eliminates = config.strategy.usesElimination
  counts :
    theory.counts = decide (config.strategy = .countCheck)

theorem replay_spec
    (hStore : store.WellFormed)
    {entries : List TrailEntry}
    {trail : Trail}
    {theory : Theory}
    (hReplay : replay config store entries = .ok (trail, theory)) :
    trail.entries = entries.reverse ∧
      Consistent config store trail theory := by
  induction entries using List.reverseRecOn
    generalizing trail theory with
  | nil =>
      rcases replay_nil_eq_ok_iff.mp hReplay with ⟨rfl, hTheory⟩
      have hKind := Theory.ofStore_eq_ok hTheory
      exact ⟨rfl, Trail.orderly_empty _,
        Theory.follows_ofStore hStore hTheory (Trail.value_empty _),
        hKind.1, hKind.2⟩
  | append_singleton entries entry ih =>
      rcases replay_snoc_eq_ok_iff.mp hReplay with
        ⟨⟨trail₀, theory₀⟩, hBefore, hEntry⟩
      rcases ih hBefore with ⟨hEntries, hConsistent⟩
      rcases replayEntry_eq_ok_iff.mp hEntry with
        ⟨hPush, found, hAssign⟩
      have hKind := Theory.kind_of_assign hAssign
      refine ⟨?_, hConsistent.orderly.push hPush, ?_, ?_, ?_⟩
      · rw [Trail.entries_of_push hPush, hEntries,
          List.reverse_append]
        rfl
      · exact Theory.Follows.assign hStore hConsistent.follows
          (takesIn_of_push hPush) hAssign
      · exact hKind.1.trans hConsistent.eliminates
      · exact hKind.2.trans hConsistent.counts

------------------------------------------------------------
-- Faithful engines
------------------------------------------------------------

/- The engine is what its trail leads to. -/
def Faithful
    (e : Engine) : Prop :=
  replay e.config e.store e.trail.entries.reverse =
    .ok (e.trail, e.theory)

theorem Faithful.consistent
    {e : Engine}
    (hStore : e.store.WellFormed)
    (hFaithful : e.Faithful) :
    Consistent e.config e.store e.trail e.theory :=
  (replay_spec hStore hFaithful).2

theorem faithful_ofStore
    {e : Engine}
    (hEngine : ofStore store config = .ok e) :
    e.Faithful ∧ e.config = config ∧ e.store = store ∧
      e.trail = Trail.empty store.numVariables ∧
      e.state = .ready ∧ e.highestLevel = 0 := by
  simp only [ofStore, bind_eq_ok, pure_eq_ok] at hEngine
  rcases hEngine with ⟨theory, hTheory, rfl⟩
  refine ⟨?_, rfl, rfl, rfl, rfl, rfl⟩
  exact replay_nil_eq_ok_iff.mpr ⟨rfl, hTheory⟩

/- The engine after taking in a literal is what its trail leads to. -/
theorem Faithful.takeIn
    {e : Engine}
    (hFaithful : e.Faithful)
    {l : Literal}
    {level : Nat}
    {trail : Trail}
    {theory : Theory}
    {found : Findings}
    (hPush : e.trail.push l level = .ok trail)
    (hAssign :
      e.theory.assign (contextOf e.config e.store trail) =
        .ok (theory, found)) :
    replay e.config e.store trail.entries.reverse =
      .ok (trail, theory) := by
  rw [Trail.entries_of_push hPush, List.reverse_cons]
  exact replay_snoc_eq_ok_iff.mpr ⟨_, hFaithful,
    replayEntry_eq_ok_iff.mpr ⟨hPush, found, hAssign⟩⟩

/- The entries that are left when a trail goes back to a level. -/
def entriesUpTo
    (level : Nat)
    (entries : List TrailEntry) : List TrailEntry :=
  entries.dropWhile fun entry => decide (level < entry.level)

/-
  Giving back does not fail. What is left is faithful and has
  the entries up to the level.
-/
theorem Faithful.giveBack
    {e : Engine}
    (hStore : e.store.WellFormed)
    (hFaithful : e.Faithful)
    (level : Nat)
    {fuel : Nat}
    (hFuel : e.trail.entries.length ≤ fuel) :
    ∃ trail theory,
      giveBack level fuel e = .ok { e with trail, theory } ∧
        trail.entries = entriesUpTo level e.trail.entries ∧
        replay e.config e.store trail.entries.reverse =
          .ok (trail, theory) := by
  induction fuel generalizing e with
  | zero =>
      have hNil : e.trail.entries = [] := by
        simpa using hFuel
      refine ⟨e.trail, e.theory, rfl, ?_, hFaithful⟩
      rw [hNil]
      rfl
  | succ fuel ih =>
      cases hEntries : e.trail.entries with
      | nil =>
          refine ⟨e.trail, e.theory, ?_, hEntries, hFaithful⟩
          simp only [Engine.giveBack, Trail.popAbove?, hEntries, bind,
            Except.bind, pure, Except.pure]
      | cons entry entries =>
          have hReplay := hFaithful
          rw [Faithful, hEntries, List.reverse_cons] at hReplay
          rcases replay_snoc_eq_ok_iff.mp hReplay with
            ⟨⟨trail, theory⟩, hBefore, hEntry⟩
          rcases replayEntry_eq_ok_iff.mp hEntry with
            ⟨hPush, found, hAssign⟩
          have hPop := Trail.popAbove?_of_push hPush level
          by_cases hLe : entry.level ≤ level
          · rw [if_pos hLe] at hPop
            refine ⟨e.trail, e.theory, ?_, ?_, hFaithful⟩
            · simp only [Engine.giveBack, hPop, bind, Except.bind,
                pure, Except.pure]
            · rw [hEntries, entriesUpTo, List.dropWhile_cons_of_neg]
              simpa using hLe
          · rw [if_neg hLe] at hPop
            have hOlder : trail.entries = entries := by
              have hSame := Trail.entries_of_push hPush
              rw [hEntries] at hSame
              exact (List.cons.inj hSame).2.symm
            have hUndo :
                e.theory.unassign
                    ⟨e.store, trail, false, e.config.display⟩
                    entry.literal = .ok theory :=
              Theory.unassign_of_assign hStore
                (takesIn_of_push hPush) rfl hAssign
            have hRest : Faithful { e with trail, theory } := by
              rw [Faithful]
              simp only [hOlder]
              exact hBefore
            rcases ih (e := { e with trail, theory }) hStore hRest
              (by simp only [hOlder]; simpa [hEntries] using hFuel)
              with ⟨trail', theory', hGive, hLeft, hEnd⟩
            refine ⟨trail', theory', ?_, ?_, hEnd⟩
            · simp only [Engine.giveBack, hPop, bind, Except.bind,
                hUndo]
              exact hGive
            · rw [hLeft, hOlder, entriesUpTo, entriesUpTo,
                List.dropWhile_cons_of_pos]
              simpa using hLe

/- Going back to a level that was reached does not fail. -/
theorem Faithful.undo
    {e : Engine}
    (hStore : e.store.WellFormed)
    (hFaithful : e.Faithful)
    {level : Nat}
    (hLevel : level ≤ e.highestLevel) :
    ∃ trail theory,
      (e.undo level).outcome = .ok () ∧
        (e.undo level).engine =
          { e with
            trail, theory
            state := stateAfterUndo e.state level
            highestLevel := level } ∧
        trail.entries = entriesUpTo level e.trail.entries ∧
        replay e.config e.store trail.entries.reverse =
          .ok (trail, theory) := by
  rcases hFaithful.giveBack hStore level (Nat.le_refl _) with
    ⟨trail, theory, hGive, hLeft, hReplay⟩
  have hUndo : e.undo level =
      ⟨{ e with
          trail, theory
          state := stateAfterUndo e.state level
          highestLevel := level },
        [.undone level trail.size], .ok ()⟩ := by
    have hGiven : Engine.giveBack level e.trail.size e =
        .ok { e with trail, theory } := hGive
    unfold Engine.undo
    rw [if_pos hLevel, hGiven]
  rw [hUndo]
  exact ⟨trail, theory, rfl, rfl, hLeft, hReplay⟩

end Engine

end ParitySolver
