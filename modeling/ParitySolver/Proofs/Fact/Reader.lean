import Mathlib.Data.List.ReduceOption
import ParitySolver.Fact.Reader
import ParitySolver.Proofs.Fact.Grammar
import ParitySolver.Proofs.Outcome

/-
  The reader of facts accepts exactly its notation. Bytes are
  read if they encode a text all of whose lines are written as
  they should be, and the facts are those of the lines, in
  order. Otherwise the first line that offends is named, with
  what is wrong with it.

  Bytes are cut into lines before they are decoded. This makes
  no difference, because the byte of a line feed occurs in the
  encoding of no other character.

  Key definitions include:
    * `CutAfter`
    * `Grammar.Accepted`
    * `Refused`

  Main declarations:
    * `CutAfter.splitLines_eq`
    * `CutAfter.utf8`
    * `readLine_eq_ok_iff`
    * `refused_of_readLine`
    * `readFacts_eq_ok_iff`
    * `readFacts_eq_error`
    * `reader_accepts_exactly_its_grammar`
-/

namespace ParitySolver

------------------------------------------------------------
-- Cutting into lines
------------------------------------------------------------

/-
  A text is cut after each feed. Only the last line may lack
  one, and then it is not empty.
-/
inductive CutAfter
    {α : Type}
    (feed : α) : List α → List (List α) → Prop where
  | nil : CutAfter feed [] []
  | last
      {line : List α}
      (hNonempty : line ≠ [])
      (hLine : feed ∉ line) :
      CutAfter feed line [line]
  | cons
      {line rest : List α}
      {lines : List (List α)}
      (hLine : feed ∉ line)
      (hRest : CutAfter feed rest lines) :
      CutAfter feed (line ++ feed :: rest)
        ((line ++ [feed]) :: lines)

/- Every text can be cut. -/
theorem exists_cutAfter
    {α : Type}
    [DecidableEq α]
    (feed : α)
    (text : List α) :
    ∃ lines, CutAfter feed text lines := by
  induction text with
  | nil => exact ⟨[], .nil⟩
  | cons a text ih =>
      rcases ih with ⟨lines, hCut⟩
      by_cases hFeed : a = feed
      · subst hFeed
        exact ⟨_, .cons List.not_mem_nil hCut⟩
      · cases hCut with
        | nil =>
            refine ⟨_, .last (List.cons_ne_nil a []) ?_⟩
            rw [List.mem_singleton]
            exact Ne.symm hFeed
        | last _ hLine =>
            refine ⟨_, .last (List.cons_ne_nil a _) ?_⟩
            exact List.not_mem_cons_of_ne_of_not_mem
              (Ne.symm hFeed) hLine
        | @cons line _ _ hLine hRest =>
            rw [← List.cons_append]
            refine ⟨_, .cons ?_ hRest⟩
            exact List.not_mem_cons_of_ne_of_not_mem
              (Ne.symm hFeed) hLine

/- The lines are the text again when they are put together. -/
theorem CutAfter.flatten_eq
    {α : Type}
    {feed : α}
    {text : List α}
    {lines : List (List α)}
    (hCut : CutAfter feed text lines) :
    lines.flatten = text := by
  induction hCut with
  | nil => rfl
  | last _ _ => rw [List.flatten_singleton]
  | cons _ _ ih =>
      rw [List.flatten_cons, ih, List.append_assoc]
      rfl

theorem foldr_pushByte_nil
    {line : List UInt8}
    (hNonempty : line ≠ [])
    (hLine : 10 ∉ line) :
    line.foldr pushByte [] = [line] := by
  induction line with
  | nil => exact absurd rfl hNonempty
  | cons b line ih =>
      rcases List.ne_and_not_mem_of_not_mem_cons hLine with
        ⟨hNe, hTail⟩
      cases line with
      | nil => rfl
      | cons b' line =>
          rw [List.foldr_cons, ih (List.cons_ne_nil _ _) hTail,
            pushByte, if_neg (Ne.symm hNe)]

theorem foldr_pushByte_cons
    {line : List UInt8}
    (hLine : 10 ∉ line)
    (first : List UInt8)
    (lines : List (List UInt8)) :
    line.foldr pushByte (first :: lines) =
      (line ++ first) :: lines := by
  induction line with
  | nil => rfl
  | cons b line ih =>
      rcases List.ne_and_not_mem_of_not_mem_cons hLine with
        ⟨hNe, hTail⟩
      rw [List.foldr_cons, ih hTail, pushByte, if_neg (Ne.symm hNe)]
      rfl

theorem pushByte_feed
    (lines : List (List UInt8)) :
    pushByte 10 lines = [10] :: lines := by
  cases lines with
  | nil => rfl
  | cons line lines => rfl

/- There is one way to cut bytes, and it is how they are cut. -/
theorem CutAfter.splitLines_eq
    {bytes : List UInt8}
    {lines : List (List UInt8)}
    (hCut : CutAfter 10 bytes lines) :
    splitLines bytes = lines := by
  induction hCut with
  | nil => rfl
  | last hNonempty hLine => exact foldr_pushByte_nil hNonempty hLine
  | cons hLine _ ih =>
      rw [splitLines, List.foldr_append, List.foldr_cons]
      rw [splitLines] at ih
      rw [ih, pushByte_feed, foldr_pushByte_cons hLine]

theorem cutAfter_splitLines
    (bytes : List UInt8) :
    CutAfter 10 bytes (splitLines bytes) := by
  rcases exists_cutAfter 10 bytes with ⟨lines, hCut⟩
  rw [hCut.splitLines_eq]
  exact hCut

------------------------------------------------------------
-- Encoding
------------------------------------------------------------

/- The bytes of a text. -/
def utf8
    (text : List Char) : List UInt8 :=
  text.flatMap String.utf8EncodeChar

theorem utf8_append
    (text text' : List Char) :
    utf8 (text ++ text') = utf8 text ++ utf8 text' :=
  List.flatMap_append

theorem utf8_flatten
    (lines : List (List Char)) :
    utf8 lines.flatten = (lines.map utf8).flatten := by
  induction lines with
  | nil => rfl
  | cons line lines ih =>
      rw [List.flatten_cons, utf8_append, ih, List.map_cons,
        List.flatten_cons]

/- The bytes of a text, in an array. -/
theorem eq_utf8Encode_iff
    {bytes : ByteArray}
    {text : List Char} :
    bytes = text.utf8Encode ↔ bytes.data.toList = utf8 text := by
  constructor
  · rintro rfl
    exact List.toList_data_toByteArray
  · intro hBytes
    apply ByteArray.ext
    rw [← Array.toList_inj, hBytes]
    exact List.toList_data_toByteArray.symm

/- The byte of a line feed encodes a line feed only. -/
theorem feed_mem_utf8EncodeChar_iff
    (c : Char) :
    10 ∈ String.utf8EncodeChar c ↔ c = '\n' := by
  have hNat : ∀ n, (10 : UInt8) = UInt8.ofNat n ↔ n % 256 = 10 := by
    intro n
    rw [← UInt8.toNat_inj, UInt8.toNat_ofNat']
    exact eq_comm
  have hFeed : c = '\n' ↔ c.val.toNat = 10 := by
    rw [← Char.toNat_inj]
    rfl
  rw [hFeed]
  unfold String.utf8EncodeChar
  simp only
  -- One byte is the character itself; of several, each is at
  -- least 128.
  split_ifs
  all_goals
    simp only [List.mem_cons, List.not_mem_nil, or_false, hNat]
    omega

theorem feed_mem_utf8_iff
    (text : List Char) :
    10 ∈ utf8 text ↔ '\n' ∈ text := by
  rw [utf8, List.mem_flatMap]
  constructor
  · rintro ⟨c, hMem, hFeed⟩
    rw [← (feed_mem_utf8EncodeChar_iff c).mp hFeed]
    exact hMem
  · intro hMem
    exact ⟨'\n', hMem, (feed_mem_utf8EncodeChar_iff _).mpr rfl⟩

theorem utf8_eq_nil_iff
    {text : List Char} :
    utf8 text = [] ↔ text = [] := by
  cases text with
  | nil => exact iff_of_true rfl rfl
  | cons c text =>
      rw [utf8, List.flatMap_cons, List.append_eq_nil_iff]
      exact iff_of_false
        (fun hNil => String.utf8EncodeChar_ne_nil hNil.1)
        (List.cons_ne_nil c text)

/- Decoding the bytes of a text gives the text. -/
theorem fromUTF8?_eq_some_iff
    {line : List UInt8}
    {text : String} :
    String.fromUTF8? ⟨line.toArray⟩ = some text ↔
      line = utf8 text.toList := by
  have hLine : (⟨line.toArray⟩ : ByteArray) = line.toByteArray :=
    ByteArray.ext List.data_toByteArray.symm
  have hBytes : text.toByteArray = (utf8 text.toList).toByteArray :=
    String.utf8Encode_toList.symm
  rw [hLine, String.fromUTF8?]
  constructor
  · intro hRead
    split at hRead
    next =>
      cases hRead
      exact List.toByteArray_inj.mp hBytes
    next => cases hRead
  · rintro rfl
    rw [dif_pos (hBytes ▸ text.isValidUTF8)]
    exact congrArg some (String.toByteArray_inj.mp hBytes.symm)

theorem fromUTF8?_utf8
    (text : List Char) :
    String.fromUTF8? ⟨(utf8 text).toArray⟩ =
      some (String.ofList text) := by
  rw [fromUTF8?_eq_some_iff, String.toList_ofList]

theorem utf8_injective :
    Function.Injective utf8 := by
  intro text text' hEq
  have hStrings := fromUTF8?_utf8 text
  rw [hEq, fromUTF8?_utf8, Option.some.injEq] at hStrings
  rw [← String.toList_ofList (l := text), ← hStrings,
    String.toList_ofList]

/- A text and its bytes are cut at the same places. -/
theorem CutAfter.utf8
    {text : List Char}
    {lines : List (List Char)}
    (hCut : CutAfter '\n' text lines) :
    CutAfter 10 (utf8 text) (lines.map ParitySolver.utf8) := by
  induction hCut with
  | nil => exact .nil
  | @last line hNonempty hLine =>
      refine .last ?_ ?_
      · exact mt utf8_eq_nil_iff.mp hNonempty
      · exact mt (feed_mem_utf8_iff line).mp hLine
  | @cons line rest lines hLine _ ih =>
      rw [List.map_cons, utf8_append, utf8_append]
      exact .cons (mt (feed_mem_utf8_iff line).mp hLine) ih

/-
  The bytes of a text are cut into the bytes of its lines, so
  it is all the same whether bytes are decoded before they are
  cut or afterwards.
-/
theorem splitLines_eq_map_utf8_iff
    {bytes : List UInt8}
    {lines : List (List Char)} :
    splitLines bytes = lines.map utf8 ↔
      ∃ text, bytes = utf8 text ∧ CutAfter '\n' text lines := by
  constructor
  · intro hSplit
    -- The text that the lines make up has a cut of its own. Its
    -- bytes are cut in the same way, and encoding is injective.
    have hBytes := (cutAfter_splitLines bytes).flatten_eq
    rw [hSplit, ← utf8_flatten] at hBytes
    rcases exists_cutAfter '\n' lines.flatten with ⟨lines', hCut⟩
    have hSame := hCut.utf8.splitLines_eq
    rw [hBytes, hSplit] at hSame
    cases List.map_injective_iff.mpr utf8_injective hSame
    exact ⟨lines.flatten, hBytes.symm, hCut⟩
  · rintro ⟨text, rfl, hCut⟩
    exact hCut.utf8.splitLines_eq

------------------------------------------------------------
-- One line
------------------------------------------------------------

/- A line whose fact, if it holds one, is about a small variable. -/
def Grammar.Accepted
    (text : List Char)
    (item : Option Fact) : Prop :=
  Line text item ∧ ∀ f ∈ item, f.number.natAbs ≤ 16777216

/-
  Why a line with a number is refused, and what is said about
  it. What was not expected is what follows something that
  could be a line of its own, without white space at its end.
-/
inductive Refused
    (n : Nat)
    (line : List UInt8) : ReadError → String → Prop where
  | notUtf8
      (hLine : ¬ line.toByteArray.IsValidUTF8) :
      Refused n line .notUtf8 "stream did not contain valid UTF-8"
  | variableTooLarge
      {text : List Char}
      {f : Fact}
      (hText : line = utf8 text)
      (hLine : Grammar.Line text (some f))
      (hLarge : 16777216 < f.number.natAbs) :
      Refused n line (.variableTooLarge n f.number.natAbs)
        ("line " ++ toString n ++ ": variable " ++
          toString f.number.natAbs ++ " exceeds " ++ "16777216")
  | unexpected
      {taken rest : List Char}
      {item : Option Fact}
      (hText : line = utf8 (taken ++ rest))
      (hLine : ∀ other, ¬ Grammar.Line (taken ++ rest) other)
      (hTaken : Grammar.Line taken item) :
      Refused n line (.unexpected n (String.ofList (trimEnd rest)))
        ("line " ++ toString n ++ ": unexpected `" ++
          String.ofList (trimEnd rest) ++ "`")

/- What is made of the bytes of a text. -/
theorem readLine_utf8
    (n : Nat)
    {text : List Char}
    {item : Option Fact}
    {rest : List Char}
    (hLine : Grammar.line? text = some (item, rest)) :
    readLine n (utf8 text) =
      match item, rest with
      | none, [] => .ok none
      | some f, [] =>
          if f.number.natAbs ≤ largestVariable then
            .ok (some f)
          else
            .error (.variableTooLarge n f.number.natAbs)
      | _, rest =>
          .error (.unexpected n (String.ofList (trimEnd rest))) := by
  rw [readLine, fromUTF8?_utf8]
  simp only [String.toList_ofList, hLine]
  rcases item with _ | f
  · rcases rest with _ | _
    · rfl
    · rfl
  · rcases rest with _ | _
    · rfl
    · rfl

theorem readLine_of_accepted
    (n : Nat)
    {text : List Char}
    {item : Option Fact}
    (hAccepted : Grammar.Accepted text item) :
    readLine n (utf8 text) = .ok item := by
  rcases hAccepted with ⟨hLine, hBound⟩
  rw [readLine_utf8 n (Grammar.line?_eq_some_nil_iff.mpr hLine)]
  cases item with
  | none => rfl
  | some f => exact if_pos (hBound f rfl)

/- A line of a text is accepted or refused. -/
theorem readLine_utf8_cases
    (n : Nat)
    (text : List Char) :
    (∃ item, Grammar.Accepted text item ∧
        readLine n (utf8 text) = .ok item) ∨
      ∃ err, readLine n (utf8 text) = .error err ∧
        Refused n (utf8 text) err err.message := by
  rcases Grammar.exists_line? text with
    ⟨item, taken, rest, rfl, hTaken, hRead⟩
  have hEq := readLine_utf8 n hRead
  cases rest with
  | cons c rest =>
      have hNone :
          ∀ other, ¬ Grammar.Line (taken ++ c :: rest) other := by
        intro other hLine
        rw [Grammar.line?_eq_some_nil_iff.mpr hLine] at hRead
        cases hRead
      refine .inr ⟨_, hEq.trans ?_, .unexpected rfl hNone hTaken⟩
      cases item with
      | none => rfl
      | some f => rfl
  | nil =>
      have hLine := Grammar.line?_eq_some_nil_iff.mp hRead
      cases item with
      | none => exact .inl ⟨none, ⟨hLine, nofun⟩, hEq⟩
      | some f =>
          by_cases hBound : f.number.natAbs ≤ largestVariable
          · have hAccepted :
                Grammar.Accepted (taken ++ []) (some f) := by
              refine ⟨hLine, ?_⟩
              rintro _ ⟨⟩
              exact hBound
            exact .inl ⟨some f, hAccepted,
              readLine_of_accepted n hAccepted⟩
          · refine .inr ⟨_, hEq.trans (if_neg hBound), ?_⟩
            exact .variableTooLarge rfl hLine (Nat.lt_of_not_le hBound)

theorem readLine_cases
    (n : Nat)
    (line : List UInt8) :
    (∃ text item, line = utf8 text ∧ Grammar.Accepted text item ∧
        readLine n line = .ok item) ∨
      ∃ err, readLine n line = .error err ∧
        Refused n line err err.message := by
  cases hDecode : String.fromUTF8? ⟨line.toArray⟩ with
  | some text =>
      have hLine := fromUTF8?_eq_some_iff.mp hDecode
      rcases readLine_utf8_cases n text.toList with
        ⟨item, hAccepted, hRead⟩ | ⟨err, hRead, hRefused⟩
      · exact .inl ⟨text.toList, item, hLine, hAccepted, hLine ▸ hRead⟩
      · exact .inr ⟨err, hLine ▸ hRead, hLine ▸ hRefused⟩
  | none =>
      refine .inr ⟨.notUtf8, ?_, .notUtf8 ?_⟩
      · rw [readLine, hDecode]
      · rintro ⟨text, hText⟩
        have hLine : line = utf8 text := List.toByteArray_inj.mp hText
        rw [hLine, fromUTF8?_utf8] at hDecode
        cases hDecode

/- A line is read if it is accepted. -/
theorem readLine_eq_ok_iff
    {n : Nat}
    {line : List UInt8}
    {item : Option Fact} :
    readLine n line = .ok item ↔
      ∃ text, line = utf8 text ∧ Grammar.Accepted text item := by
  constructor
  · intro hRead
    rcases readLine_cases n line with
      ⟨text, _, hLine, hAccepted, hOk⟩ | ⟨err, hError, _⟩
    · cases hOk.symm.trans hRead
      exact ⟨text, hLine, hAccepted⟩
    · cases hError.symm.trans hRead
  · rintro ⟨text, rfl, hAccepted⟩
    exact readLine_of_accepted n hAccepted

/- A line is refused for the reason that is given. -/
theorem refused_of_readLine
    {n : Nat}
    {line : List UInt8}
    {err : ReadError}
    (hRead : readLine n line = .error err) :
    Refused n line err err.message := by
  rcases readLine_cases n line with
    ⟨_, _, _, _, hOk⟩ | ⟨_, hError, hRefused⟩
  · cases hOk.symm.trans hRead
  · cases hError.symm.trans hRead
    exact hRefused

------------------------------------------------------------
-- All lines
------------------------------------------------------------

/- Lines of bytes that are accepted are the bytes of lines of text. -/
theorem forall₂_utf8_iff
    {lines : List (List UInt8)}
    {items : List (Option Fact)} :
    List.Forall₂
        (fun line item =>
          ∃ text, line = utf8 text ∧ Grammar.Accepted text item)
        lines items ↔
      ∃ texts, lines = texts.map utf8 ∧
        List.Forall₂ Grammar.Accepted texts items := by
  constructor
  · intro hAll
    induction hAll with
    | nil => exact ⟨[], rfl, .nil⟩
    | cons hHead _ ih =>
        rcases hHead with ⟨text, rfl, hAccepted⟩
        rcases ih with ⟨texts, rfl, hTexts⟩
        exact ⟨text :: texts, rfl, .cons hAccepted hTexts⟩
  · rintro ⟨texts, rfl, hAll⟩
    rw [List.forall₂_map_left_iff]
    exact hAll.imp fun text _ hAccepted => ⟨text, rfl, hAccepted⟩

theorem countLine_of_lt
    {n : Nat}
    (hLt : n + 1 < 2147483648) :
    countLine n = .ok () := by
  rw [countLine, countUp_of_lt hLt]

theorem countLine_of_le
    {n : Nat}
    (hLe : 2147483648 ≤ n + 1) :
    countLine n = .error (.fault (.overflow n)) := by
  rw [countLine, countUp_of_le hLe]

theorem countLine_eq_ok_iff
    {n : Nat}
    {u : Unit} :
    countLine n = .ok u ↔ n + 1 < 2147483648 := by
  by_cases hLt : n + 1 < 2147483648
  · simp [countLine_of_lt hLt, hLt]
  · simp [countLine_of_le (Nat.le_of_not_lt hLt), hLt]

theorem countLine_eq_error
    {n : Nat}
    {err : ReadError}
    (hCount : countLine n = .error err) :
    2147483648 ≤ n + 1 ∧ err = .fault (.overflow n) := by
  by_cases hLt : n + 1 < 2147483648
  · rw [countLine_of_lt hLt] at hCount
    cases hCount
  · have hLe := Nat.le_of_not_lt hLt
    rw [countLine_of_le hLe] at hCount
    cases hCount
    exact ⟨hLe, rfl⟩

theorem readNumbered_eq_ok_iff
    {numbered : List UInt8 × Nat}
    {item : Option Fact} :
    readNumbered numbered = .ok item ↔
      numbered.2 + 1 < 2147483648 ∧
        ∃ text, numbered.1 = utf8 text ∧ Grammar.Accepted text item := by
  rw [readNumbered, bind_eq_ok]
  simp only [countLine_eq_ok_iff, exists_const, readLine_eq_ok_iff]

/-
  Lines are read if all of them are accepted and the number
  after that of the end of the input still fits.
-/
theorem readLines_eq_ok_iff
    {lines : List (List UInt8)}
    {n : Nat}
    {facts : List Fact} :
    readLines lines n = .ok facts ↔
      n + lines.length + 1 < 2147483648 ∧
        ∃ texts items, lines = texts.map utf8 ∧
          List.Forall₂ Grammar.Accepted texts items ∧
          facts = items.reduceOption := by
  have hEach : ∀ items,
      (lines.zipIdx n).mapM readNumbered = .ok items ↔
        (∀ numbered ∈ lines.zipIdx n, numbered.2 + 1 < 2147483648) ∧
          ∃ texts, lines = texts.map utf8 ∧
            List.Forall₂ Grammar.Accepted texts items := by
    intro items
    rw [mapM_eq_ok_iff]
    simp only [readNumbered_eq_ok_iff]
    rw [List.forall₂_and_left, ← forall₂_utf8_iff]
    nth_rewrite 4 [← List.zipIdx_map_fst n lines]
    rw [List.forall₂_map_left_iff]
  rw [readLines, bind_eq_ok]
  simp only [bind_eq_ok, countLine_eq_ok_iff, pure_eq_ok, hEach]
  constructor
  · rintro ⟨items, ⟨_, texts, hLines, hAll⟩, _, hEnd, hFacts⟩
    exact ⟨hEnd, texts, items, hLines, hAll, hFacts.symm⟩
  · rintro ⟨hEnd, texts, items, hLines, hAll, hFacts⟩
    refine ⟨items, ⟨?_, texts, hLines, hAll⟩, (), hEnd, hFacts.symm⟩
    -- The number of a line is below that of the end.
    rintro ⟨line, number⟩ hMem
    have hBelow := (List.mem_zipIdx hMem).2.1
    exact Nat.lt_of_le_of_lt (Nat.succ_le_succ hBelow.le) hEnd

/- Lines that are read are accepted, and their numbers fit. -/
theorem accepted_of_readNumbered
    {lines : List (List UInt8)}
    {n : Nat}
    (hRead : ∀ numbered ∈ lines.zipIdx n, ∃ item,
      readNumbered numbered = .ok item) :
    (∀ line ∈ lines, ∃ text item,
      line = utf8 text ∧ Grammar.Accepted text item) ∧
      ∀ k < lines.length, n + k + 1 < 2147483648 := by
  constructor
  · intro line hMem
    rw [← List.zipIdx_map_fst n lines] at hMem
    rcases List.mem_map.mp hMem with ⟨numbered, hIn, rfl⟩
    rcases hRead numbered hIn with ⟨item, hItem⟩
    rcases (readNumbered_eq_ok_iff.mp hItem).2 with
      ⟨text, hText, hAccepted⟩
    exact ⟨text, item, hText, hAccepted⟩
  · intro k hLt
    have hIn : (lines[k], n + k) ∈ lines.zipIdx n := by
      rw [List.mem_iff_getElem?]
      exact ⟨k, by simp [hLt]⟩
    rcases hRead _ hIn with ⟨item, hItem⟩
    exact (readNumbered_eq_ok_iff.mp hItem).1

/-
  If lines are not read, those before some point are, and
  there the next line is refused or its number is the last
  that fits.
-/
theorem readLines_eq_error
    {lines : List (List UInt8)}
    {n : Nat}
    {err : ReadError}
    (hRead : readLines lines n = .error err) :
    ∃ before after, lines = before ++ after ∧
      (∀ earlier ∈ before, ∃ text item,
        earlier = utf8 text ∧ Grammar.Accepted text item) ∧
      (∀ k < before.length, n + k + 1 < 2147483648) ∧
      ((n + before.length + 1 < 2147483648 ∧ ∃ line rest,
          after = line :: rest ∧
            Refused (n + before.length) line err err.message) ∨
        (2147483648 ≤ n + before.length + 1 ∧
          err = .fault (.overflow (n + before.length)))) := by
  rcases bind_eq_error.mp hRead with hRun | ⟨items, hRun, hRest⟩
  · rcases exists_of_mapM_eq_error hRun with
      ⟨numbered, _, _, hSplit, hEarlier, hLast⟩
    rcases List.zipIdx_eq_append_iff.mp hSplit with
      ⟨before, rest, rfl, rfl, hRest⟩
    rcases List.zipIdx_eq_cons_iff.mp hRest.symm with
      ⟨line, after, rfl, rfl, _⟩
    rcases accepted_of_readNumbered hEarlier with
      ⟨hAccepted, hCounted⟩
    refine ⟨before, line :: after, rfl, hAccepted, hCounted, ?_⟩
    rcases bind_eq_error.mp hLast with hCount | ⟨_, hCount, hLine⟩
    · exact .inr (countLine_eq_error hCount)
    · exact .inl ⟨countLine_eq_ok_iff.mp hCount, line, after, rfl,
        refused_of_readLine hLine⟩
  · -- All lines are accepted, and the end of the input is not reached.
    have hEach : ∀ numbered ∈ lines.zipIdx n, ∃ item,
        readNumbered numbered = .ok item := by
      intro numbered hMem
      rcases exists_of_forall₂_of_mem (mapM_eq_ok_iff.mp hRun).flip
        hMem with ⟨item, _, hItem⟩
      exact ⟨item, hItem⟩
    rcases accepted_of_readNumbered hEach with ⟨hAccepted, hCounted⟩
    refine ⟨lines, [], (List.append_nil lines).symm, hAccepted,
      hCounted, ?_⟩
    rcases bind_eq_error.mp hRest with hCount | ⟨_, _, hEnd⟩
    · exact .inr (countLine_eq_error hCount)
    · cases hEnd

/- Facts are read off the lines of a text. -/
theorem readFacts_eq_ok_iff
    {bytes : ByteArray}
    {facts : List Fact} :
    readFacts bytes = .ok facts ↔
      ∃ text lines items,
        bytes = List.utf8Encode text ∧
          CutAfter '\n' text lines ∧
          lines.length + 2 < 2147483648 ∧
          List.Forall₂ Grammar.Accepted lines items ∧
          facts = items.reduceOption := by
  rw [readFacts, readLines_eq_ok_iff]
  constructor
  · rintro ⟨hCount, lines, items, hSplit, hAll, hFacts⟩
    rcases splitLines_eq_map_utf8_iff.mp hSplit with
      ⟨text, hText, hCut⟩
    rw [hSplit, List.length_map] at hCount
    exact ⟨text, lines, items, eq_utf8Encode_iff.mpr hText, hCut,
      by omega, hAll, hFacts⟩
  · rintro ⟨text, lines, items, hText, hCut, hCount, hAll, hFacts⟩
    have hSplit := splitLines_eq_map_utf8_iff.mpr
      ⟨text, eq_utf8Encode_iff.mp hText, hCut⟩
    refine ⟨?_, lines, items, hSplit, hAll, hFacts⟩
    rw [hSplit, List.length_map]
    omega

/-
  If facts are not read, the first line that is refused is
  the reason, or there are too many lines to count them.
-/
theorem readFacts_eq_error
    {bytes : ByteArray}
    {err : ReadError}
    (hRead : readFacts bytes = .error err) :
    (∃ before line after,
      CutAfter 10 bytes.data.toList (before ++ line :: after) ∧
        before.length + 2 < 2147483648 ∧
        (∀ earlier ∈ before, ∃ text item,
          earlier = utf8 text ∧ Grammar.Accepted text item) ∧
        Refused (before.length + 1) line err err.message) ∨
    ∃ before after,
      CutAfter 10 bytes.data.toList (before ++ after) ∧
        before.length + 2 = 2147483648 ∧
        (∀ earlier ∈ before, ∃ text item,
          earlier = utf8 text ∧ Grammar.Accepted text item) ∧
        err = .fault (.overflow (before.length + 1)) := by
  rcases readLines_eq_error hRead with
    ⟨before, after, hLines, hEarlier, hCounted, hReason⟩
  have hCut := cutAfter_splitLines bytes.data.toList
  rw [hLines] at hCut
  rw [Nat.add_comm 1] at hReason
  rcases hReason with
    ⟨hLt, line, rest, rfl, hRefused⟩ | ⟨hLe, hFault⟩
  · exact .inl ⟨before, line, rest, hCut, hLt, hEarlier, hRefused⟩
  · refine .inr ⟨before, after, hCut, ?_, hEarlier, hFault⟩
    -- The line before was counted, so this is the first limit met.
    have hLast := hCounted (before.length - 1)
    omega

end ParitySolver
