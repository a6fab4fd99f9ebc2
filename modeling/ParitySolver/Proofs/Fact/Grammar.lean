import Mathlib.Data.List.Basic
import Mathlib.Data.List.TakeWhile
import Mathlib.Data.Nat.Digits.Defs
import ParitySolver.Fact.Grammar

/-
  The lines that the notation of facts allows, and why exactly
  these are read up to their end.

  What may be written is described by relations between a text
  and what it says. They leave open where the blanks around an
  argument end and whether a blank after a comment belongs to
  it; readers take as much as they can. For each reader there
  is one statement that what it takes off a text was written
  as described, and that it takes off all of it.

  Key definitions include:
    * `Grammar.Digits`
    * `Grammar.Padded`
    * `Grammar.Written`
    * `Grammar.Item`
    * `Grammar.Line`
    * `Grammar.Reads`

  Main declarations:
    * `Grammar.Reads.argument_iff`
    * `Grammar.fact?_eq_some_iff`
    * `Grammar.comment?_eq_some_iff`
    * `Grammar.exists_line?`
    * `Grammar.line?_eq_some_nil_iff`
-/

namespace ParitySolver

namespace Grammar

------------------------------------------------------------
-- What may be written
------------------------------------------------------------

/- Blanks and tabs, or nothing. -/
def Blanks
    (cs : List Char) : Prop :=
  ∀ c ∈ cs, c = ' ' ∨ c = '\t'

/- Digits, and the number that they denote in base ten. -/
structure Digits
    (cs : List Char)
    (n : Nat) : Prop where
  nonempty : cs ≠ []
  each : ∀ c ∈ cs, c.isDigit = true
  value :
    Nat.ofDigits 10 (cs.reverse.map fun c => c.toNat - '0'.toNat) = n

/- Digits after a sign or without one. -/
inductive SignedDigits : List Char → Int → Prop where
  | unsigned
      {cs : List Char}
      {n : Nat}
      (hDigits : Digits cs n) :
      SignedDigits cs n
  | plus
      {cs : List Char}
      {n : Nat}
      (hDigits : Digits cs n) :
      SignedDigits ('+' :: cs) n
  | minus
      {cs : List Char}
      {n : Nat}
      (hDigits : Digits cs n) :
      SignedDigits ('-' :: cs) (-n)

/- The name of a constraint has 64 bits at most. -/
structure Name
    (cs : List Char)
    (n : Nat) : Prop where
  digits : Digits cs n
  lt : n < 2 ^ 64

/- A literal is a signed number of 64 bits other than zero. -/
structure Number
    (cs : List Char)
    (n : Int) : Prop where
  digits : SignedDigits cs n
  nonzero : n ≠ 0
  lower : -2 ^ 63 ≤ n
  upper : n < 2 ^ 63

inductive ParityName : List Char → Parity → Prop where
  | even : ParityName "even".toList .even
  | odd : ParityName "odd".toList .odd

/- Something with blanks around it. -/
def Padded
    {α : Type}
    (written : List Char → α → Prop)
    (cs : List Char)
    (a : α) : Prop :=
  ∃ before middle after,
    cs = before ++ (middle ++ after) ∧
      Blanks before ∧ written middle a ∧ Blanks after

/- A fact, with blanks around its arguments. -/
def Written
    (cs : List Char)
    (f : Fact) : Prop :=
  ∃ name parity number,
    cs =
        "__parity(".toList ++ (name ++ (",".toList ++
          (parity ++ (",".toList ++ (number ++ ").".toList))))) ∧
      Padded Name name f.id ∧
      Padded ParityName parity f.parity ∧
      Padded Number number f.number

/- What a line may hold: nothing, a comment or a fact. -/
inductive Item : List Char → Option Fact → Prop where
  | blank : Item [] none
  | comment
      {body : List Char}
      (hBody : ∀ c ∈ body, c ≠ '\r' ∧ c ≠ '\n') :
      Item ('%' :: body) none
  | fact
      {cs : List Char}
      {f : Fact}
      (hFact : Written cs f) :
      Item cs (some f)

/- The end of a line, which the last line may lack. -/
def LineEnd
    (cs : List Char) : Prop :=
  cs = [] ∨ cs = ['\n'] ∨ cs = ['\r', '\n']

/- A line, and the fact that it holds, if it holds one. -/
def Line
    (cs : List Char)
    (item : Option Fact) : Prop :=
  ∃ content ending,
    cs = content ++ ending ∧
      Padded Item content item ∧ LineEnd ending

------------------------------------------------------------
-- Blanks and words
------------------------------------------------------------

/- The text does not begin with a character of a kind. -/
def Stops
    (p : Char → Bool)
    (cs : List Char) : Prop :=
  ∀ c ∈ cs.head?, p c = false

theorem dropWhile_of_stops
    {p : Char → Bool}
    {rest : List Char}
    (hStops : Stops p rest) :
    rest.dropWhile p = rest := by
  cases rest with
  | nil => rfl
  | cons c rest =>
      have hNot : p c = false := hStops c rfl
      rw [List.dropWhile_cons_of_neg (Bool.not_eq_true _ ▸ hNot)]

/- Characters of a kind are dropped up to where they stop. -/
theorem dropWhile_append
    {p : Char → Bool}
    {cs rest : List Char}
    (hEach : ∀ c ∈ cs, p c = true)
    (hStops : Stops p rest) :
    (cs ++ rest).dropWhile p = rest := by
  rw [List.dropWhile_append_of_pos hEach, dropWhile_of_stops hStops]

theorem takeWhile_append
    {p : Char → Bool}
    {cs rest : List Char}
    (hEach : ∀ c ∈ cs, p c = true)
    (hStops : Stops p rest) :
    (cs ++ rest).takeWhile p = cs := by
  have hSplit := List.takeWhile_append_dropWhile (p := p) (l := cs ++ rest)
  rw [dropWhile_append hEach hStops] at hSplit
  exact List.append_cancel_right hSplit

theorem isBlank_iff
    {c : Char} :
    isBlank c = true ↔ c = ' ' ∨ c = '\t' := by
  rw [isBlank, Bool.or_eq_true, decide_eq_true_iff, decide_eq_true_iff]

/- Blanks stand before what is left when they are skipped. -/
theorem exists_blanks
    (cs : List Char) :
    ∃ before, Blanks before ∧ cs = before ++ skipBlanks cs := by
  refine ⟨cs.takeWhile isBlank, ?_, ?_⟩
  · intro c hMem
    exact isBlank_iff.mp (List.mem_takeWhile_imp hMem)
  · exact List.takeWhile_append_dropWhile.symm

theorem skipBlanks_append
    {before rest : List Char}
    (hBlanks : Blanks before)
    (hStops : Stops isBlank rest) :
    skipBlanks (before ++ rest) = rest :=
  dropWhile_append (fun c hMem => isBlank_iff.mpr (hBlanks c hMem))
    hStops

theorem word?_eq_some_iff
    {word : String}
    {cs rest : List Char} :
    word? word cs = some rest ↔ cs = word.toList ++ rest := by
  rw [word?, List.isPrefixOf?_eq_some_iff_append_eq, eq_comm]

------------------------------------------------------------
-- Arguments
------------------------------------------------------------

/-
  A reader takes off a text what may be written for a value,
  as long as no digit follows. It does not begin with a blank.
-/
structure Reads
    {α : Type}
    (read? : List Char → Option (α × List Char))
    (written : List Char → α → Prop) : Prop where
  sound :
    ∀ {cs rest : List Char} {a : α}, read? cs = some (a, rest) →
      ∃ text, cs = text ++ rest ∧ written text a
  complete :
    ∀ {text rest : List Char} {a : α}, written text a →
      Stops Char.isDigit rest → read? (text ++ rest) = some (a, rest)
  solid :
    ∀ {text : List Char} {a : α}, written text a →
      ∃ c cs, text = c :: cs ∧ isBlank c = false

theorem digitsToNat_eq_ofDigits
    (cs : List Char) :
    digitsToNat cs =
      Nat.ofDigits 10 (cs.reverse.map fun c => c.toNat - '0'.toNat) := by
  rw [digitsToNat, Nat.ofDigits_eq_foldr, List.foldr_map,
    List.foldr_reverse]
  congr
  funext n c
  rw [Nat.cast_id, Nat.add_comm]

theorem isBlank_of_isDigit
    {c : Char}
    (hDigit : c.isDigit = true) :
    isBlank c = false := by
  rw [← Bool.not_eq_true, isBlank_iff]
  rintro (rfl | rfl)
  · exact absurd hDigit (by decide)
  · exact absurd hDigit (by decide)

theorem isDigit_of_isBlank
    {c : Char}
    (hBlank : isBlank c = true) :
    c.isDigit = false := by
  rcases isBlank_iff.mp hBlank with rfl | rfl
  · rfl
  · rfl

theorem Digits.exists_cons
    {cs : List Char}
    {n : Nat}
    (hDigits : Digits cs n) :
    ∃ c rest, cs = c :: rest ∧ c.isDigit = true := by
  rcases List.exists_cons_of_ne_nil hDigits.nonempty with
    ⟨c, rest, rfl⟩
  exact ⟨c, rest, rfl, hDigits.each c List.mem_cons_self⟩

theorem reads_digits :
    Reads digits? Digits where
  sound := by
    intro cs rest n hRead
    simp only [digits?, Option.ite_none_left_eq_some] at hRead
    rcases hRead with ⟨hEmpty, hEq⟩
    cases hEq
    refine ⟨cs.takeWhile Char.isDigit,
      List.takeWhile_append_dropWhile.symm, ?_, ?_, ?_⟩
    · rw [List.isEmpty_iff] at hEmpty
      exact hEmpty
    · intro c hMem
      exact List.mem_takeWhile_imp hMem
    · rw [digitsToNat_eq_ofDigits]
  complete := by
    intro text rest n hDigits hStops
    have hEmpty : text.isEmpty = false :=
      List.isEmpty_eq_false_iff.mpr hDigits.nonempty
    simp only [digits?, takeWhile_append hDigits.each hStops,
      dropWhile_append hDigits.each hStops, hEmpty,
      digitsToNat_eq_ofDigits, hDigits.value]
    rfl
  solid := by
    intro text n hDigits
    rcases hDigits.exists_cons with ⟨c, rest, hEq, hDigit⟩
    exact ⟨c, rest, hEq, isBlank_of_isDigit hDigit⟩

theorem reads_name :
    Reads name? Name where
  sound := by
    intro cs rest n hRead
    simp only [name?, Option.bind_eq_bind, Option.bind_eq_some_iff,
      Option.ite_none_right_eq_some, Prod.exists] at hRead
    rcases hRead with ⟨_, _, hDigits, hLt, hEq⟩
    cases hEq
    rcases reads_digits.sound hDigits with ⟨text, hText, hWritten⟩
    exact ⟨text, hText, hWritten, hLt⟩
  complete := by
    intro text rest n hName hStops
    simp only [name?, reads_digits.complete hName.digits hStops]
    exact if_pos hName.lt
  solid := fun hName => reads_digits.solid hName.digits

/- What is left without a sign are the digits. -/
theorem signedDigits_of_splitSign
    {cs digits rest : List Char}
    {n : Nat}
    (hSplit : (splitSign cs).2 = digits ++ rest)
    (hDigits : Digits digits n) :
    ∃ text, cs = text ++ rest ∧
      SignedDigits text
        (if (splitSign cs).1 then -(n : Int) else n) := by
  unfold splitSign at hSplit ⊢
  split at hSplit
  next tail =>
    refine ⟨'-' :: digits, ?_, .minus hDigits⟩
    rw [List.cons_append, ← hSplit]
  next tail =>
    refine ⟨'+' :: digits, ?_, .plus hDigits⟩
    rw [List.cons_append, ← hSplit]
  next => exact ⟨digits, hSplit, .unsigned hDigits⟩

theorem SignedDigits.exists_split
    {text : List Char}
    {number : Int}
    (hSigned : SignedDigits text number)
    (rest : List Char) :
    ∃ digits n, (splitSign (text ++ rest)).2 = digits ++ rest ∧
      Digits digits n ∧
      number =
        if (splitSign (text ++ rest)).1 then -(n : Int) else n := by
  cases hSigned with
  | plus hDigits => exact ⟨_, _, rfl, hDigits, rfl⟩
  | minus hDigits => exact ⟨_, _, rfl, hDigits, rfl⟩
  | unsigned hDigits =>
      rcases hDigits.exists_cons with ⟨c, cs, rfl, hDigit⟩
      have hSplit : splitSign (c :: cs ++ rest) =
          (false, c :: cs ++ rest) := by
        rw [List.cons_append]
        unfold splitSign
        split
        next hEq =>
          cases hEq
          cases hDigit
        next hEq =>
          cases hEq
          cases hDigit
        next => rfl
      rw [hSplit]
      exact ⟨_, _, rfl, hDigits, rfl⟩

theorem SignedDigits.exists_cons
    {text : List Char}
    {number : Int}
    (hSigned : SignedDigits text number) :
    ∃ c cs, text = c :: cs ∧ isBlank c = false := by
  cases hSigned with
  | plus hDigits => exact ⟨_, _, rfl, rfl⟩
  | minus hDigits => exact ⟨_, _, rfl, rfl⟩
  | unsigned hDigits => exact reads_digits.solid hDigits

theorem reads_number :
    Reads number? Number where
  sound := by
    intro cs rest number hRead
    simp only [number?, Option.bind_eq_bind, Option.bind_eq_some_iff,
      Option.ite_none_right_eq_some, Bool.and_eq_true,
      decide_eq_true_eq, Prod.exists] at hRead
    rcases hRead with ⟨n, _, hRead, ⟨⟨hNonzero, hLower⟩, hUpper⟩, hEq⟩
    cases hEq
    rcases reads_digits.sound hRead with ⟨digits, hSplit, hDigits⟩
    rcases signedDigits_of_splitSign hSplit hDigits with
      ⟨text, hText, hSigned⟩
    exact ⟨text, hText, hSigned, hNonzero, hLower, hUpper⟩
  complete := by
    intro text rest number hNumber hStops
    rcases hNumber.digits.exists_split rest with
      ⟨digits, n, hSplit, hDigits, rfl⟩
    simp only [number?, hSplit, reads_digits.complete hDigits hStops]
    apply if_pos
    rw [Bool.and_eq_true, Bool.and_eq_true, decide_eq_true_iff,
      decide_eq_true_iff, decide_eq_true_iff]
    exact ⟨⟨hNumber.nonzero, hNumber.lower⟩, hNumber.upper⟩
  solid := fun hNumber => hNumber.digits.exists_cons

theorem reads_parity :
    Reads parity? ParityName where
  sound := by
    intro cs rest parity hRead
    unfold parity? at hRead
    split at hRead
    next hWord =>
      cases hRead
      exact ⟨_, word?_eq_some_iff.mp hWord, .even⟩
    next =>
      rcases Option.map_eq_some_iff.mp hRead with ⟨_, hWord, hEq⟩
      cases hEq
      exact ⟨_, word?_eq_some_iff.mp hWord, .odd⟩
  complete := by
    intro text rest parity hName _
    cases hName with
    | even => rfl
    | odd => rfl
  solid := by
    intro text parity hName
    cases hName with
    | even => exact ⟨_, _, rfl, rfl⟩
    | odd => exact ⟨_, _, rfl, rfl⟩

/- What follows blanks or follows at once is not a digit. -/
theorem stops_isDigit_append
    {after : List Char}
    (hBlanks : Blanks after)
    {c : Char}
    (hDigit : c.isDigit = false)
    (cs : List Char) :
    Stops Char.isDigit (after ++ c :: cs) := by
  cases after with
  | nil =>
      intro d hHead
      cases hHead
      exact hDigit
  | cons b after =>
      intro d hHead
      cases hHead
      exact isDigit_of_isBlank
        (isBlank_iff.mpr (hBlanks b List.mem_cons_self))

theorem stops_isBlank_cons
    {c : Char}
    (hBlank : isBlank c = false)
    (cs : List Char) :
    Stops isBlank (c :: cs) := by
  intro d hHead
  cases hHead
  exact hBlank

/- A word that begins neither with a blank nor with a digit. -/
def Delimiter
    (word : String) : Prop :=
  ∃ c cs, word.toList = c :: cs ∧
    isBlank c = false ∧ c.isDigit = false

theorem delimiter_comma :
    Delimiter "," :=
  ⟨',', [], rfl, rfl, rfl⟩

theorem delimiter_close :
    Delimiter ")." :=
  ⟨')', ['.'], rfl, rfl, rfl⟩

/-
  An argument with blanks around it, up to the word after it.
  The reader and the blanks stop where they should, because
  the word begins with something else.
-/
theorem Reads.argument_iff
    {α : Type}
    {read? : List Char → Option (α × List Char)}
    {written : List Char → α → Prop}
    (hReads : Reads read? written)
    {word : String}
    (hDelimiter : Delimiter word)
    {text tail : List Char}
    {a : α} :
    (∃ rest, read? (skipBlanks text) = some (a, rest) ∧
        word? word (skipBlanks rest) = some tail) ↔
      ∃ argument, text = argument ++ (word.toList ++ tail) ∧
        Padded written argument a := by
  rcases hDelimiter with ⟨c, cs, hWord, hBlank, hDigit⟩
  constructor
  · rintro ⟨rest, hRead, hTail⟩
    rcases exists_blanks text with ⟨before, hBefore, hText⟩
    rcases hReads.sound hRead with ⟨middle, hMiddle, hWritten⟩
    rcases exists_blanks rest with ⟨after, hAfter, hRest⟩
    rw [word?_eq_some_iff.mp hTail] at hRest
    refine ⟨before ++ (middle ++ after), ?_, before, middle, after,
      rfl, hBefore, hWritten, hAfter⟩
    rw [hText, hMiddle, hRest, List.append_assoc, List.append_assoc]
  · rintro ⟨argument, rfl, before, middle, after, rfl, hBefore,
      hWritten, hAfter⟩
    refine ⟨after ++ (word.toList ++ tail), ?_, ?_⟩
    · rcases hReads.solid hWritten with ⟨d, ds, rfl, hSolid⟩
      have hStops : Stops isBlank
          (d :: ds ++ (after ++ (word.toList ++ tail))) :=
        stops_isBlank_cons hSolid _
      rw [List.append_assoc, List.append_assoc,
        skipBlanks_append hBefore hStops]
      apply hReads.complete hWritten
      rw [hWord]
      exact stops_isDigit_append hAfter hDigit _
    · rw [word?_eq_some_iff, hWord]
      exact skipBlanks_append hAfter (stops_isBlank_cons hBlank _)

------------------------------------------------------------
-- Facts and comments
------------------------------------------------------------

/- A fact is read if it is written at the beginning of a text. -/
theorem fact?_eq_some_iff
    {cs rest : List Char}
    {f : Fact} :
    fact? cs = some (f, rest) ↔
      ∃ text, cs = text ++ rest ∧ Written text f := by
  simp only [fact?, Option.bind_eq_bind, Option.pure_def,
    Option.bind_eq_some_iff, Prod.exists]
  constructor
  · rintro ⟨_, hOpen, id, _, hName, _, hComma, parity, _, hParity, _,
      hComma', number, _, hNumber, _, hClose, hEq⟩
    cases hEq
    rcases (reads_name.argument_iff delimiter_comma).mp
      ⟨_, hName, hComma⟩ with ⟨first, rfl, hFirst⟩
    rcases (reads_parity.argument_iff delimiter_comma).mp
      ⟨_, hParity, hComma'⟩ with ⟨second, rfl, hSecond⟩
    rcases (reads_number.argument_iff delimiter_close).mp
      ⟨_, hNumber, hClose⟩ with ⟨third, rfl, hThird⟩
    refine ⟨_, ?_, first, second, third, rfl, hFirst, hSecond, hThird⟩
    rw [word?_eq_some_iff.mp hOpen]
    simp only [List.append_assoc]
  · rintro ⟨_, rfl, first, second, third, rfl, hFirst, hSecond,
      hThird⟩
    rcases (reads_number.argument_iff delimiter_close).mpr
      ⟨third, rfl, hThird⟩ with ⟨_, hNumber, hClose⟩
    rcases (reads_parity.argument_iff delimiter_comma).mpr
      ⟨second, rfl, hSecond⟩ with ⟨_, hParity, hComma'⟩
    rcases (reads_name.argument_iff delimiter_comma).mpr
      ⟨first, rfl, hFirst⟩ with ⟨_, hName, hComma⟩
    refine ⟨_, ?_, _, _, hName, _, hComma, _, _, hParity, _, hComma',
      _, _, hNumber, _, hClose, rfl⟩
    rw [word?_eq_some_iff]
    simp only [List.append_assoc]

theorem Written.exists_cons
    {text : List Char}
    {f : Fact}
    (hFact : Written text f) :
    ∃ cs, text = '_' :: cs := by
  rcases hFact with ⟨_, _, _, rfl, _⟩
  exact ⟨_, rfl⟩

theorem lineEnd?_eq_some_iff
    {cs rest : List Char}
    {u : Unit} :
    lineEnd? cs = some (u, rest) ↔
      cs = '\n' :: rest ∨ cs = '\r' :: '\n' :: rest := by
  constructor
  · intro hEnd
    unfold lineEnd? at hEnd
    split at hEnd
    next =>
      cases hEnd
      exact .inl rfl
    next =>
      cases hEnd
      exact .inr rfl
    next => cases hEnd
  · rintro (rfl | rfl)
    · rfl
    · rfl

/- A comment is read if it reaches up to the end of the line. -/
theorem comment?_eq_some_iff
    {cs rest : List Char} :
    comment? cs = some rest ↔
      ∃ body, cs = '%' :: (body ++ rest) ∧
        (∀ c ∈ body, c ≠ '\r' ∧ c ≠ '\n') ∧
        (rest = [] ∨ (lineEnd? rest).isSome = true) := by
  have hKind {c : Char} :
      (c != '\r' && c != '\n') = true ↔ c ≠ '\r' ∧ c ≠ '\n' := by
    rw [Bool.and_eq_true, bne_iff_ne, bne_iff_ne]
  constructor
  · intro hRead
    unfold comment? at hRead
    split at hRead
    next tail =>
      simp only [Option.ite_none_right_eq_some, Bool.or_eq_true,
        List.isEmpty_iff] at hRead
      rcases hRead with ⟨hEnd, hEq⟩
      cases hEq
      refine ⟨_, congrArg _ List.takeWhile_append_dropWhile.symm,
        ?_, hEnd⟩
      intro c hMem
      have hTaken := List.mem_takeWhile_imp hMem
      exact hKind.mp hTaken
    next => cases hRead
  · rintro ⟨body, rfl, hBody, hEnd⟩
    have hStops :
        Stops (fun c => c != '\r' && c != '\n') rest := by
      rcases hEnd with rfl | hEnd
      · nofun
      · rcases Option.isSome_iff_exists.mp hEnd with ⟨⟨_, _⟩, hEnd⟩
        rcases lineEnd?_eq_some_iff.mp hEnd with rfl | rfl
        · rintro c ⟨⟩
          rfl
        · rintro c ⟨⟩
          rfl
    have hRest := dropWhile_append
      (fun c hMem => hKind.mpr (hBody c hMem)) hStops
    simp only [comment?, hRest, Option.ite_none_right_eq_some,
      Bool.or_eq_true, List.isEmpty_iff]
    exact ⟨hEnd, trivial⟩

------------------------------------------------------------
-- Lines
------------------------------------------------------------

theorem optional_eq_some_iff
    {α : Type}
    {read? : List Char → Option (α × List Char)}
    {cs rest : List Char}
    {found : Option α} :
    optional read? cs = some (found, rest) ↔
      (∃ a, found = some a ∧ read? cs = some (a, rest)) ∨
        (found = none ∧ read? cs = none ∧ rest = cs) := by
  unfold optional
  cases hRead : read? cs with
  | none => grind
  | some pair => grind

/- Reading something that may be missing does not fail. -/
theorem exists_optional
    {α : Type}
    (read? : List Char → Option (α × List Char))
    (cs : List Char) :
    ∃ found rest, optional read? cs = some (found, rest) := by
  cases hRead : read? cs with
  | none => exact ⟨_, _, optional_eq_some_iff.mpr (.inr ⟨rfl, hRead, rfl⟩)⟩
  | some pair => exact ⟨_, _, optional_eq_some_iff.mpr (.inl ⟨_, rfl, hRead⟩)⟩

theorem line?_eq_some_iff
    {cs rest : List Char}
    {item : Option Fact} :
    line? cs = some (item, rest) ↔
      ∃ found middle ending,
        optional item? (skipBlanks cs) = some (found, middle) ∧
          optional lineEnd? (skipBlanks middle) =
            some (ending, rest) ∧
          found.join = item := by
  simp only [line?, Option.bind_eq_bind, Option.pure_def,
    Option.bind_eq_some_iff, Prod.exists, Option.some.injEq,
    Prod.mk.injEq]
  constructor
  · rintro ⟨found, middle, hItem, ending, _, hEnd, rfl, rfl⟩
    exact ⟨found, middle, ending, hItem, hEnd, rfl⟩
  · rintro ⟨found, middle, ending, hItem, hEnd, rfl⟩
    exact ⟨found, middle, hItem, ending, rest, hEnd, rfl, rfl⟩

/- What is read on a line is something that it may hold. -/
theorem item_of_optional
    {cs rest : List Char}
    {found : Option (Option Fact)}
    (hRead : optional item? cs = some (found, rest)) :
    ∃ text, cs = text ++ rest ∧ Item text found.join := by
  rcases optional_eq_some_iff.mp hRead with
    ⟨item, rfl, hItem⟩ | ⟨rfl, _, rfl⟩
  · unfold item? at hItem
    split at hItem
    next hComment =>
      cases hItem
      rcases comment?_eq_some_iff.mp hComment with
        ⟨body, rfl, hBody, _⟩
      exact ⟨'%' :: body, rfl, .comment hBody⟩
    next =>
      rcases Option.map_eq_some_iff.mp hItem with ⟨_, hFact, hEq⟩
      cases hEq
      rcases fact?_eq_some_iff.mp hFact with ⟨text, rfl, hWritten⟩
      exact ⟨text, rfl, .fact hWritten⟩
  · exact ⟨[], rfl, .blank⟩

theorem lineEnd_of_optional
    {cs rest : List Char}
    {found : Option Unit}
    (hRead : optional lineEnd? cs = some (found, rest)) :
    ∃ ending, cs = ending ++ rest ∧ LineEnd ending := by
  rcases optional_eq_some_iff.mp hRead with
    ⟨_, rfl, hEnd⟩ | ⟨rfl, _, rfl⟩
  · rcases lineEnd?_eq_some_iff.mp hEnd with rfl | rfl
    · exact ⟨['\n'], rfl, .inr (.inl rfl)⟩
    · exact ⟨['\r', '\n'], rfl, .inr (.inr rfl)⟩
  · exact ⟨[], rfl, .inl rfl⟩

/- What is read of a line could be a line of its own. -/
theorem line_of_line?
    {cs rest : List Char}
    {item : Option Fact}
    (hRead : line? cs = some (item, rest)) :
    ∃ text, cs = text ++ rest ∧ Line text item := by
  rcases line?_eq_some_iff.mp hRead with
    ⟨found, middle, _, hItem, hEnd, rfl⟩
  rcases exists_blanks cs with ⟨before, hBefore, hCs⟩
  rcases item_of_optional hItem with ⟨content, hContent, hHolds⟩
  rcases exists_blanks middle with ⟨after, hAfter, hMiddle⟩
  rcases lineEnd_of_optional hEnd with ⟨ending, hEnding, hLineEnd⟩
  refine ⟨before ++ (content ++ after) ++ ending, ?_, _, ending, rfl,
    ⟨before, content, after, rfl, hBefore, hHolds, hAfter⟩, hLineEnd⟩
  rw [hCs, hContent, hMiddle, hEnding]
  simp only [List.append_assoc]

/-
  A line is always read. What is read could be a line of its
  own, and something may be left over.
-/
theorem exists_line?
    (cs : List Char) :
    ∃ item taken rest, cs = taken ++ rest ∧ Line taken item ∧
      line? cs = some (item, rest) := by
  rcases exists_optional item? (skipBlanks cs) with
    ⟨found, middle, hItem⟩
  rcases exists_optional lineEnd? (skipBlanks middle) with
    ⟨ending, rest, hEnd⟩
  have hRead := line?_eq_some_iff.mpr
    ⟨found, middle, ending, hItem, hEnd, rfl⟩
  rcases line_of_line? hRead with ⟨taken, hSplit, hLine⟩
  exact ⟨_, taken, rest, hSplit, hLine, hRead⟩

theorem LineEnd.stops
    {ending : List Char}
    (hEnd : LineEnd ending) :
    Stops isBlank ending := by
  rcases hEnd with rfl | rfl | rfl
  · nofun
  · exact stops_isBlank_cons rfl _
  · exact stops_isBlank_cons rfl _

/- Nothing is left over after blanks and the end of a line. -/
theorem LineEnd.exists_optional
    {ending : List Char}
    (hEnd : LineEnd ending)
    {after : List Char}
    (hBlanks : Blanks after) :
    ∃ found, optional lineEnd? (skipBlanks (after ++ ending)) =
      some (found, []) := by
  rw [skipBlanks_append hBlanks hEnd.stops]
  rcases hEnd with rfl | rfl | rfl
  · exact ⟨_, rfl⟩
  · exact ⟨_, rfl⟩
  · exact ⟨_, rfl⟩

theorem LineEnd.item?_eq_none
    {ending : List Char}
    (hEnd : LineEnd ending) :
    item? ending = none := by
  rcases hEnd with rfl | rfl | rfl
  · rfl
  · rfl
  · rfl

theorem item?_comment
    {body ending : List Char}
    (hBody : ∀ c ∈ body, c ≠ '\r' ∧ c ≠ '\n')
    (hEnd : LineEnd ending) :
    item? ('%' :: (body ++ ending)) = some (none, ending) := by
  have hClosed : ending = [] ∨ (lineEnd? ending).isSome = true := by
    rcases hEnd with rfl | rfl | rfl
    · exact .inl rfl
    · exact .inr rfl
    · exact .inr rfl
  have hRead := comment?_eq_some_iff.mpr ⟨body, rfl, hBody, hClosed⟩
  rw [item?, hRead]

theorem item?_fact
    {text : List Char}
    {f : Fact}
    (hWritten : Written text f)
    (rest : List Char) :
    item? (text ++ rest) = some (some f, rest) := by
  have hRead : fact? (text ++ rest) = some (f, rest) :=
    fact?_eq_some_iff.mpr ⟨text, rfl, hWritten⟩
  rcases hWritten.exists_cons with ⟨cs, rfl⟩
  rw [item?, hRead]
  rfl

/-
  What a line may hold is read on it. Blanks after a comment
  belong to the comment, and those on an empty line have been
  skipped before.
-/
theorem Item.exists_optional
    {content : List Char}
    {item : Option Fact}
    (hItem : Item content item)
    {before after ending : List Char}
    (hBefore : Blanks before)
    (hAfter : Blanks after)
    (hEnd : LineEnd ending) :
    ∃ found blanks,
      optional item?
          (skipBlanks (before ++ (content ++ (after ++ ending)))) =
        some (found, blanks ++ ending) ∧
      Blanks blanks ∧ found.join = item := by
  cases hItem with
  | blank =>
      have hBlanks : Blanks (before ++ after) :=
        List.forall_mem_append.mpr ⟨hBefore, hAfter⟩
      rw [List.nil_append, ← List.append_assoc,
        skipBlanks_append hBlanks hEnd.stops]
      exact ⟨none, [], optional_eq_some_iff.mpr
        (.inr ⟨rfl, hEnd.item?_eq_none, rfl⟩), nofun, rfl⟩
  | @comment body hBody =>
      have hAll : ∀ c ∈ body ++ after, c ≠ '\r' ∧ c ≠ '\n' := by
        refine List.forall_mem_append.mpr ⟨hBody, fun c hMem => ?_⟩
        rcases hAfter c hMem with rfl | rfl
        · decide
        · decide
      have hRead := item?_comment hAll hEnd
      rw [List.append_assoc] at hRead
      rw [List.cons_append, skipBlanks_append hBefore
        (stops_isBlank_cons rfl _)]
      exact ⟨some none, [], optional_eq_some_iff.mpr
        (.inl ⟨none, rfl, hRead⟩), nofun, rfl⟩
  | @fact _ f hWritten =>
      have hRead := item?_fact hWritten (after ++ ending)
      rcases hWritten.exists_cons with ⟨cs, rfl⟩
      have hStops : Stops isBlank ('_' :: cs ++ (after ++ ending)) :=
        stops_isBlank_cons rfl _
      rw [skipBlanks_append hBefore hStops]
      exact ⟨some (some f), after, optional_eq_some_iff.mpr
        (.inl ⟨some f, rfl, hRead⟩), hAfter, rfl⟩

/- A line is read up to its end if it is written as it should be. -/
theorem line?_eq_some_nil_iff
    {cs : List Char}
    {item : Option Fact} :
    line? cs = some (item, []) ↔ Line cs item := by
  constructor
  · intro hRead
    rcases line_of_line? hRead with ⟨text, hText, hLine⟩
    rw [List.append_nil] at hText
    exact hText ▸ hLine
  · rintro ⟨_, ending, rfl, ⟨before, content, after, rfl, hBefore,
      hHolds, hAfter⟩, hEnd⟩
    rcases hHolds.exists_optional hBefore hAfter hEnd with
      ⟨found, blanks, hItem, hBlanks, hJoin⟩
    rcases hEnd.exists_optional hBlanks with ⟨_, hEnding⟩
    rw [List.append_assoc, List.append_assoc]
    exact line?_eq_some_iff.mpr ⟨_, _, _, hItem, hEnding, hJoin⟩

end Grammar

end ParitySolver
