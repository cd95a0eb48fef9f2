import Mathlib.Data.List.TakeWhile
import StreamGrammar.Proofs.BundledBuilds

/-!
# What the grammar of number lists accepts

A text is accepted if it consists of runs of digits with single commas between them, and
perhaps a line feed at the end. Then its numbers are published in order, and the end is
announced. Every other text is read up to the first code point that cannot come there,
and only complete runs of digits are published before the parse fails.
-/

namespace StreamGrammar.Numbers

open BundledGrammar (numbers build_numbers)

/-- The text is a list of the numbers, each given by its digits. -/
structure IsList (runs : List (List Char)) (text : List Char) : Prop where
  nonempty : runs ≠ []
  digits : ∀ run ∈ runs, run ≠ [] ∧ ∀ character ∈ run, character.isDigit = true
  written : text = [','].intercalate runs ∨ text = [','].intercalate runs ++ ['\n']

/-- The runs of digits in a text, each as long as possible. -/
def digitRuns (text : List Char) : List (List Char) :=
  (text.splitOnP fun character => !character.isDigit).filter (· ≠ [])

/-- How a number is published. -/
def published (run : List Char) : Callback := .publish "number" (String.ofList run)

section DigitRuns

variable {run : List Char} {character : Char}

theorem digitRuns_append_cons (digits : ∀ digit ∈ run, digit.isDigit = true) (nonempty : run ≠ [])
    (other : character.isDigit = false) (rest : List Char) :
    digitRuns (run ++ character :: rest) = run :: digitRuns rest := by
  rw [digitRuns, List.splitOnP_append_cons_of_forall_mem]
  · simp [digitRuns, nonempty]
  · simpa using digits
  · simp [other]

theorem digitRuns_of_digits (digits : ∀ digit ∈ run, digit.isDigit = true) (nonempty : run ≠ []) :
    digitRuns run = [run] := by
  rw [digitRuns, List.splitOnP_eq_singleton]
  · simp [nonempty]
  · simpa using digits

end DigitRuns

/-- Where a number has to come. -/
abbrev atNumber : Frame := ⟨0, 0⟩

/-- After a number. -/
abbrev afterNumber : Frame := ⟨0, 1⟩

/-- After the line feed. -/
abbrev afterLine : Frame := ⟨0, 2⟩

/-- After a digit of a number. -/
abbrev inNumber : Frame := ⟨1, 2⟩

section Decisions

variable (strict : Bool)

/-- What is decided at the nodes. -/
structure Decisions : Prop where
  atNumber_eq : (numbers.grammar strict).choices atNumber =
    ⟨[([0], [.call 1 1, .goto 1, .consume 0 2])], none⟩
  afterNumber_eq : (numbers.grammar strict).choices afterNumber =
    ⟨[([1], [.consume 1 0]), ([2], [.consume 2 2])], some [.goto 3, .leave]⟩
  afterLine_eq : (numbers.grammar strict).choices afterLine =
    ⟨[], some [.goto 3, .leave]⟩
  inNumber_eq : (numbers.grammar strict).choices inNumber =
    ⟨[([0], [.consume 0 2])], some [.goto 3, .leave]⟩

theorem decisions : Decisions strict := by
  cases strict <;> constructor <;> decide +kernel

@[simp]
theorem accepts_digit (character : Char) :
    (numbers.grammar strict).accepts 0 (.char character) = character.isDigit := rfl

@[simp]
theorem accepts_comma (character : Char) :
    (numbers.grammar strict).accepts 1 (.char character) = (',' == character) := rfl

@[simp]
theorem accepts_lineFeed (character : Char) :
    (numbers.grammar strict).accepts 2 (.char character) = ('\n' == character) := rfl

end Decisions

section Moves

variable {strict : Bool} {told : List Callback} {run rest : List Char}

theorem moves_atNumber (digit : Char) (rest : List Char) (isDigit : digit.isDigit = true) :
    (numbers.grammar strict).Moves ⟨[atNumber], digit :: rest, none, told⟩
      ⟨[inNumber, afterNumber], rest, some [digit], told⟩ := by
  have decided : ((numbers.grammar strict).choices atNumber).path? (numbers.grammar strict).toGraph
      (digit :: rest) = some [.call 1 1, .goto 1, .consume 0 2] := by
    rw [(decisions strict).atNumber_eq]
    simp [isDigit]
  exact .intro rfl decided rfl

theorem moves_inNumber (digit : Char) (rest : List Char) (captured : Option (List Char))
    (isDigit : digit.isDigit = true) :
    (numbers.grammar strict).Moves ⟨[inNumber, afterNumber], digit :: rest, captured, told⟩
      ⟨[inNumber, afterNumber], rest, captured.map (· ++ [digit]), told⟩ := by
  have decided : ((numbers.grammar strict).choices inNumber).path? (numbers.grammar strict).toGraph
      (digit :: rest) = some [.consume 0 2] := by
    rw [(decisions strict).inNumber_eq]
    simp [isDigit]
  exact .intro rfl decided rfl

theorem moves_pastNumber (ended : ∀ character ∈ rest.head?, character.isDigit = false) :
    (numbers.grammar strict).Moves ⟨[inNumber, afterNumber], rest, some run, told⟩
      ⟨[afterNumber], rest, none, told ++ [published run]⟩ := by
  have decided : ((numbers.grammar strict).choices inNumber).path? (numbers.grammar strict).toGraph
      rest = some [.goto 3, .leave] := by
    rw [(decisions strict).inNumber_eq]
    simpa [Graph.fits_singleton] using ended
  exact .intro rfl decided rfl

theorem moves_comma :
    (numbers.grammar strict).Moves ⟨[afterNumber], ',' :: rest, none, told⟩
      ⟨[atNumber], rest, none, told⟩ := by
  have decided : ((numbers.grammar strict).choices afterNumber).path?
      (numbers.grammar strict).toGraph (',' :: rest) = some [.consume 1 0] := by
    rw [(decisions strict).afterNumber_eq]
    simp
  exact .intro rfl decided rfl

theorem moves_lineFeed :
    (numbers.grammar strict).Moves ⟨[afterNumber], '\n' :: rest, none, told⟩
      ⟨[afterLine], rest, none, told⟩ := by
  have decided : ((numbers.grammar strict).choices afterNumber).path?
      (numbers.grammar strict).toGraph ('\n' :: rest) = some [.consume 2 2] := by
    rw [(decisions strict).afterNumber_eq]
    simp
  exact .intro rfl decided rfl

theorem moves_afterNumber (noComma : rest.head? ≠ some ',') (noLineFeed : rest.head? ≠ some '\n') :
    (numbers.grammar strict).Moves ⟨[afterNumber], rest, none, told⟩
      ⟨[], rest, none, told ++ [.event "end"]⟩ := by
  have decided : ((numbers.grammar strict).choices afterNumber).path?
      (numbers.grammar strict).toGraph rest = some [.goto 3, .leave] := by
    rw [(decisions strict).afterNumber_eq]
    simp [Graph.fits_singleton, noComma, noLineFeed]
  exact .intro rfl decided rfl

theorem moves_afterLine :
    (numbers.grammar strict).Moves ⟨[afterLine], rest, none, told⟩
      ⟨[], rest, none, told ++ [.event "end"]⟩ := by
  have decided : ((numbers.grammar strict).choices afterLine).path?
      (numbers.grammar strict).toGraph rest = some [.goto 3, .leave] := by
    rw [(decisions strict).afterLine_eq]
    simp
  exact .intro rfl decided rfl

theorem refuses_atNumber (misses : ∀ character ∈ rest.head?, character.isDigit = false) :
    (numbers.grammar strict).Refuses ⟨[atNumber], rest, none, told⟩ := by
  apply Grammar.Refuses.unfit rfl
  rw [(decisions strict).atNumber_eq]
  simpa [Graph.fits_singleton] using misses

/-- A run of digits is published when it has come to its end. -/
theorem reaches_afterNumber (strict : Bool) (told : List Callback)
    (digits : ∀ digit ∈ run, digit.isDigit = true) (nonempty : run ≠ [])
    (rest : List Char) (ended : ∀ character ∈ rest.head?, character.isDigit = false) :
    (numbers.grammar strict).Reaches ⟨[atNumber], run ++ rest, none, told⟩
      ⟨[afterNumber], rest, none, told ++ [published run]⟩ := by
  have reads : (numbers.grammar strict).Reaches ⟨[atNumber], run ++ rest, none, told⟩
      ⟨[inNumber, afterNumber], rest, some run, told⟩ :=
    Grammar.reaches_of_run moves_atNumber moves_inNumber digits nonempty rest
  exact reads.tail (moves_pastNumber ended)

end Moves

section Lists

variable {run text : List Char} {runs : List (List Char)}

theorem IsList.single (digits : ∀ digit ∈ run, digit.isDigit = true) (nonempty : run ≠ [])
    (written : text = run ∨ text = run ++ ['\n']) : IsList [run] text where
  nonempty := List.cons_ne_nil _ _
  digits := by
    intro only only_mem
    obtain rfl := List.mem_singleton.mp only_mem
    exact ⟨nonempty, digits⟩
  written := by
    rw [List.intercalate_singleton]
    exact written

theorem IsList.cons (digits : ∀ digit ∈ run, digit.isDigit = true) (nonempty : run ≠ [])
    (isList : IsList runs text) : IsList (run :: runs) (run ++ ',' :: text) where
  nonempty := List.cons_ne_nil _ _
  digits := List.forall_mem_cons.mpr ⟨⟨nonempty, digits⟩, isList.digits⟩
  written := by
    rw [List.intercalate_cons_of_ne_nil isList.nonempty]
    rcases isList.written with rfl | rfl
    · simp
    · simp

/-- A list is one number, perhaps with a line feed, or a number, a comma and another list. -/
theorem IsList.cases (isList : IsList runs text) :
    ∃ run more, runs = run :: more ∧ run ≠ [] ∧ (∀ digit ∈ run, digit.isDigit = true) ∧
      ((more = [] ∧ (text = run ∨ text = run ++ ['\n'])) ∨
        ∃ rest, text = run ++ ',' :: rest ∧ IsList more rest) := by
  rcases isList with ⟨nonempty, digits, written⟩
  rcases List.exists_cons_of_ne_nil nonempty with ⟨run, more, rfl⟩
  rcases List.forall_mem_cons.mp digits with ⟨⟨runNonempty, runDigits⟩, moreDigits⟩
  refine ⟨run, more, rfl, runNonempty, runDigits, ?_⟩
  by_cases last : more = []
  · rw [last, List.intercalate_singleton] at written
    exact .inl ⟨last, written⟩
  · rw [List.intercalate_cons_of_ne_nil last] at written
    rcases written with rfl | rfl
    · exact .inr ⟨_, by simp, last, moreDigits, .inl rfl⟩
    · exact .inr ⟨_, by simp, last, moreDigits, .inr rfl⟩

/-- A list is read to its end, and its numbers are published. -/
theorem reaches_end (strict : Bool) (isList : IsList runs text) (told : List Callback) :
    (numbers.grammar strict).Reaches ⟨[atNumber], text, none, told⟩
      ⟨[], [], none, told ++ runs.map published ++ [.event "end"]⟩ := by
  induction runs generalizing text told with
  | nil => exact absurd rfl isList.nonempty
  | cons run more ih =>
      rcases isList.cases with ⟨_, _, ⟨⟩, nonempty, digits, ⟨rfl, rfl | rfl⟩ | ⟨rest, rfl, others⟩⟩
      · have reads := reaches_afterNumber strict told digits nonempty [] (by simp)
        rw [List.append_nil] at reads
        exact reads.tail (moves_afterNumber (by simp) (by simp))
      · have reads := reaches_afterNumber strict told digits nonempty ['\n'] (by simp)
        exact (reads.tail moves_lineFeed).tail moves_afterLine
      · have reads := reaches_afterNumber strict told digits nonempty (',' :: rest)
          (by simp)
        have goesOn := ih others (told ++ [published run])
        rw [List.append_assoc told] at goesOn
        exact (reads.tail moves_comma).trans goesOn

end Lists

/-- A parse that has told something is refused at a point, after what it read up to there. It has
published the numbers in that, and no number of which the text holds more. -/
structure IsRefused (strict : Bool) (text : List Char) (told : List Callback) (read : List Char)
    (point : Point) : Prop where
  text_eq : text = read ++ point.text
  reaches : (numbers.grammar strict).Reaches ⟨[atNumber], text, none, told⟩ point
  refuses : (numbers.grammar strict).Refuses point
  complete : digitRuns read <+: digitRuns text
  told : ∃ ended, (ended = [] ∨ ended = [.event "end"]) ∧
    point.told = told ++ (digitRuns read).map published ++ ended

section Refusals

variable {strict : Bool} {run rest read : List Char} {told : List Callback} {point : Point}

theorem IsRefused.atNumber (misses : ∀ character ∈ rest.head?, character.isDigit = false) :
    IsRefused strict rest told [] ⟨[atNumber], rest, none, told⟩ where
  text_eq := rfl
  reaches := .refl
  refuses := refuses_atNumber misses
  complete := List.nil_prefix
  told := ⟨[], .inl rfl, by simp [digitRuns]⟩

/-- What follows a whole list is refused. -/
theorem IsRefused.beyond (digits : ∀ digit ∈ run, digit.isDigit = true) (nonempty : run ≠ [])
    {beyond : List Char} (text_eq : run ++ rest = read ++ beyond) (more : beyond ≠ [])
    (ended : ∀ character ∈ rest.head?, character.isDigit = false)
    (onlyRun : digitRuns read = [run])
    (leaves : (numbers.grammar strict).Reaches
      ⟨[afterNumber], rest, none, told ++ [published run]⟩
      ⟨[], beyond, none, told ++ [published run] ++ [.event "end"]⟩) :
    IsRefused strict (run ++ rest) told read
      ⟨[], beyond, none, told ++ [published run] ++ [.event "end"]⟩ where
  text_eq := text_eq
  reaches := (reaches_afterNumber strict told digits nonempty rest ended).trans leaves
  refuses := .beyond rfl more
  complete := by
    rw [onlyRun]
    cases rest with
    | nil => simp [digitRuns_of_digits digits nonempty]
    | cons character rest => simp [digitRuns_append_cons digits nonempty (ended character rfl)]
  told := ⟨_, .inr rfl, by simp [onlyRun]⟩

theorem IsRefused.cons (digits : ∀ digit ∈ run, digit.isDigit = true) (nonempty : run ≠ [])
    (refused : IsRefused strict rest (told ++ [published run]) read point) :
    IsRefused strict (run ++ ',' :: rest) told (run ++ ',' :: read) point where
  text_eq := by rw [List.append_assoc, List.cons_append, ← refused.text_eq]
  reaches := ((reaches_afterNumber strict told digits nonempty (',' :: rest) (by simp)).tail
    moves_comma).trans refused.reaches
  refuses := refused.refuses
  complete := by
    rw [digitRuns_append_cons digits nonempty rfl, digitRuns_append_cons digits nonempty rfl]
    exact (List.prefix_cons_inj run).mpr refused.complete
  told := by
    rcases refused.told with ⟨ended, ended_cases, told_eq⟩
    refine ⟨ended, ended_cases, ?_⟩
    rw [told_eq, digitRuns_append_cons digits nonempty rfl]
    simp

/-- A text begins with a run of digits, which may be empty. -/
theorem exists_run (text : List Char) :
    ∃ run rest, text = run ++ rest ∧ (∀ digit ∈ run, digit.isDigit = true) ∧
      ∀ character ∈ rest.head?, character.isDigit = false := by
  refine ⟨text.takeWhile Char.isDigit, text.dropWhile Char.isDigit, ?_, ?_, ?_⟩
  · exact List.takeWhile_append_dropWhile.symm
  · intro digit digit_mem
    exact List.mem_takeWhile_imp digit_mem
  · intro character head_eq
    have ends := List.head?_dropWhile_not Char.isDigit text
    rw [head_eq] at ends
    simpa using ends

theorem isList_or_isRefused (strict : Bool) (text : List Char) (told : List Callback) :
    (∃ runs, IsList runs text) ∨ ∃ read point, IsRefused strict text told read point := by
  rcases exists_run text with ⟨run, rest, rfl, digits, ended⟩
  by_cases nonempty : run = []
  · rw [nonempty]
    exact .inr ⟨[], _, .atNumber ended⟩
  cases rest with
  | nil => exact .inl ⟨[run], .single digits nonempty (.inl (List.append_nil run))⟩
  | cons character rest =>
      by_cases comma : character = ','
      · rw [comma]
        rcases isList_or_isRefused strict rest (told ++ [published run]) with
          ⟨runs, isList⟩ | ⟨read, point, refused⟩
        · exact .inl ⟨run :: runs, .cons digits nonempty isList⟩
        · exact .inr ⟨run ++ ',' :: read, point, .cons digits nonempty refused⟩
      by_cases lineFeed : character = '\n'
      · rw [lineFeed] at ended ⊢
        by_cases last : rest = []
        · rw [last]
          exact .inl ⟨[run], .single digits nonempty (.inr rfl)⟩
        · refine .inr ⟨run ++ ['\n'], _, .beyond digits nonempty (by simp) last ended ?_
            (.tail (.single moves_lineFeed) moves_afterLine)⟩
          rw [digitRuns_append_cons digits nonempty rfl]
          rfl
      · exact .inr ⟨run, _, .beyond digits nonempty rfl (List.cons_ne_nil _ _) ended
          (digitRuns_of_digits digits nonempty)
          (.single (moves_afterNumber (by simp [comma]) (by simp [lineFeed])))⟩
termination_by text.length

end Refusals

/-- The grammar of number lists reads lists of numbers and nothing else. Of another text only whole
numbers are published, the first ones, before the parse fails. -/
theorem reads_exactly_lists (strict : Bool) (text : List Char) :
    ∃ grammar, (numbers.build strict).result = .ok grammar ∧
      (((Engine.ofGrammar grammar).parse grammar text).status = .succeeded ↔
        ∃ runs, IsList runs text) ∧
      ((∃ runs, IsList runs text ∧
          grammar.Reads text (runs.map published ++ [.event "end"])) ∨
        ∃ read rest ended, text = read ++ rest ∧
          grammar.FailsAt read rest ((digitRuns read).map published ++ ended) ∧
          digitRuns read <+: digitRuns text ∧ (ended = [] ∨ ended = [.event "end"])) := by
  have built := build_numbers strict
  rcases BundledGrammar.exists_isResolved built with ⟨limits, resolved⟩
  refine ⟨numbers.grammar strict, built, ?_⟩
  have reads (runs : List (List Char)) (isList : IsList runs text) :
      (numbers.grammar strict).Reads text (runs.map published ++ [.event "end"]) :=
    resolved.reads (numbers.action_entry strict) (reaches_end strict isList [])
  rcases isList_or_isRefused strict text [] with ⟨runs, isList⟩ | ⟨read, point, refused⟩
  · exact ⟨iff_of_true (reads runs isList).1 ⟨runs, isList⟩, .inl ⟨runs, isList, reads runs isList⟩⟩
  · rcases resolved.failsAt (numbers.action_entry strict) refused.reaches refused.refuses with
      ⟨_, text_eq, fails⟩
    rcases refused.told with ⟨ended, ended_cases, told_eq⟩
    obtain rfl := List.append_cancel_right (text_eq.symm.trans refused.text_eq)
    have status_ne := fails.status_ne
    rw [← text_eq] at status_ne
    rw [told_eq] at fails
    refine ⟨iff_of_false status_ne ?_, .inr ⟨_, _, ended, text_eq, fails, refused.complete,
      ended_cases⟩⟩
    rintro ⟨runs, isList⟩
    exact status_ne (reads runs isList).1

end StreamGrammar.Numbers
