import StreamGrammar.Proofs.BundledBuilds

/-!
# Reading configuration files back

A configuration file has headers of sections, entries, comments and blank lines, with
any of three line breaks after each. Its grammar reads every such file and publishes the
names of the sections, and the keys and values of the entries, in order. What is
published of a line may wait for the end of the line: `EndsLine` says what is pending at
the nodes where a line can end.
-/

namespace StreamGrammar.Ini

open BundledGrammar (ini build_ini)

/-- What names and keys consist of. -/
def IsKey (character : Char) : Prop :=
  ('a' ≤ character ∧ character ≤ 'z') ∨ ('A' ≤ character ∧ character ≤ 'Z') ∨
    ('0' ≤ character ∧ character ≤ '9') ∨ character = '_' ∨ character = '.' ∨ character = '-'

instance : DecidablePred IsKey := fun character => by
  unfold IsKey
  infer_instance

def IsNewline (character : Char) : Prop := character = '\r' ∨ character = '\n'

def IsBlank (character : Char) : Prop := character = ' ' ∨ character = '\t'

def IsMark (character : Char) : Prop := character = ';' ∨ character = '#'

/-- The name of a section, or the key of an entry. -/
abbrev Name : Type := { name : List Char // name ≠ [] ∧ ∀ character ∈ name, IsKey character }

abbrev Blanks : Type := { blanks : List Char // ∀ character ∈ blanks, IsBlank character }

/-- A value or the text of a comment. -/
abbrev Text : Type := { text : List Char // ∀ character ∈ text, ¬IsNewline character }

inductive Line
  | header (indent : Blanks) (name : Name)
  | entry (indent : Blanks) (key : Name) (value : Text)
  | comment (indent : Blanks) (mark : { mark : Char // IsMark mark }) (text : Text)
  | blank (blanks : Blanks)

namespace Line

def written : Line → List Char
  | header indent name => indent.1 ++ '[' :: name.1 ++ [']']
  | entry indent key value => indent.1 ++ key.1 ++ '=' :: value.1
  | comment indent mark text => indent.1 ++ mark.1 :: text.1
  | blank blanks => blanks.1

/-- What the consumer is told of the line. -/
def callbacks : Line → List Callback
  | header _ name => [.publish "section" (String.ofList name.1)]
  | entry _ key value =>
      [.publish "key" (String.ofList key.1), .publish "value" (String.ofList value.1)]
  | comment .. | blank _ => []

end Line

inductive LineBreak
  | lineFeed
  | carriageReturn
  | returnLineFeed

def LineBreak.text : LineBreak → List Char
  | lineFeed => ['\n']
  | carriageReturn => ['\r']
  | returnLineFeed => ['\r', '\n']

def writtenLines (ended : List (Line × LineBreak)) : List Char :=
  ended.flatMap fun (line, lineBreak) => line.written ++ lineBreak.text

/-- Lines with a break after each, and perhaps a last one without. -/
structure File where
  ended : List (Line × LineBreak)
  last : Option Line

namespace File

def lines (file : File) : List Line := file.ended.map Prod.fst ++ file.last.toList

def written (file : File) : List Char :=
  writtenLines file.ended ++ file.last.elim [] Line.written

example : written ⟨[(.comment ⟨[' '], by simp [IsBlank]⟩ ⟨';', .inl rfl⟩ ⟨['!'], by simp [IsNewline]⟩,
    .returnLineFeed)], some (.entry ⟨[], by simp⟩ ⟨['k'], by simp, by simp [IsKey]⟩ ⟨[], by simp⟩)⟩ =
      " ;!\r\nk=".toList := rfl

end File

section Decisions

/-- At the beginning of a line. -/
abbrev line : Frame := ⟨0, 0⟩

/-- After an opening bracket. -/
abbrev opened : Frame := ⟨0, 2⟩

/-- In the name of a section. -/
abbrev inName : Frame := ⟨0, 4⟩

/-- After a closing bracket. -/
abbrev closed : Frame := ⟨0, 5⟩

/-- In a comment. -/
abbrev inComment : Frame := ⟨0, 6⟩

/-- In a key. -/
abbrev inKey : Frame := ⟨1, 2⟩

/-- After an equals sign. -/
abbrev afterKey : Frame := ⟨1, 3⟩

/-- In a value that is not empty. -/
abbrev inValue : Frame := ⟨1, 5⟩

/-- After the line of an entry. -/
abbrev afterEntry : Frame := ⟨1, 6⟩

variable (strict : Bool)

/-- What is decided at the nodes. -/
structure Decisions : Prop where
  line_eq : (ini.grammar strict).choices line =
    ⟨[([1], [.consume 1 0]), ([2], [.consume 2 0]), ([0], [.call 1 0, .goto 1, .consume 0 2]),
      ([5], [.consume 5 2]), ([4], [.consume 4 6])], some [.goto 1, .leave]⟩
  opened_eq : (ini.grammar strict).choices opened =
    ⟨[([0], [.goto 3, .consume 0 4])], none⟩
  inName_eq : (ini.grammar strict).choices inName =
    ⟨[([0], [.consume 0 4]), ([6], [.consume 6 5])], none⟩
  closed_eq : (ini.grammar strict).choices closed =
    ⟨[([1], [.consume 1 0])], some [.goto 1, .leave]⟩
  inComment_eq : (ini.grammar strict).choices inComment =
    ⟨[([3], [.consume 3 6]), ([1], [.consume 1 0])], some [.goto 1, .leave]⟩
  inKey_eq : (ini.grammar strict).choices inKey =
    ⟨[([0], [.consume 0 2]), ([7], [.consume 7 3])], none⟩
  afterKey_eq : (ini.grammar strict).choices afterKey =
    ⟨[([3], [.goto 4, .goto 5, .consume 3 5]), ([1], [.goto 4, .goto 5, .consume 1 6])],
      some [.goto 4, .goto 5, .goto 7, .leave]⟩
  inValue_eq : (ini.grammar strict).choices inValue =
    ⟨[([3], [.consume 3 5]), ([1], [.consume 1 6])], some [.goto 7, .leave]⟩
  afterEntry_eq : (ini.grammar strict).choices afterEntry = ⟨[], some [.leave]⟩

theorem decisions : Decisions strict := by
  cases strict <;> constructor <;> decide +kernel

variable (character : Char)

@[simp]
theorem accepts_key :
    (ini.grammar strict).accepts 0 (.char character) = true ↔ IsKey character := by
  have accepts_eq : (ini.grammar strict).accepts 0 (.char character) =
      ((decide ('a' ≤ character) && decide (character ≤ 'z')) ||
        ((decide ('A' ≤ character) && decide (character ≤ 'Z')) ||
          ((decide ('0' ≤ character) && decide (character ≤ '9')) ||
            (['_', '.', '-'].contains character || false)))) := rfl
  simp [accepts_eq, IsKey]

@[simp]
theorem accepts_newline :
    (ini.grammar strict).accepts 1 (.char character) = true ↔ IsNewline character := by
  have accepts_eq : (ini.grammar strict).accepts 1 (.char character) =
      ['\r', '\n'].contains character := rfl
  simp [accepts_eq, IsNewline]

@[simp]
theorem accepts_blank :
    (ini.grammar strict).accepts 2 (.char character) = true ↔ IsBlank character := by
  have accepts_eq : (ini.grammar strict).accepts 2 (.char character) =
      [' ', '\t'].contains character := rfl
  simp [accepts_eq, IsBlank]

@[simp]
theorem accepts_text :
    (ini.grammar strict).accepts 3 (.char character) = true ↔ ¬IsNewline character := by
  have accepts_eq : (ini.grammar strict).accepts 3 (.char character) =
      !(['\r', '\n'].contains character) := rfl
  simp [accepts_eq, IsNewline]

@[simp]
theorem accepts_mark :
    (ini.grammar strict).accepts 4 (.char character) = true ↔ IsMark character := by
  have accepts_eq : (ini.grammar strict).accepts 4 (.char character) =
      [';', '#'].contains character := rfl
  simp [accepts_eq, IsMark]

@[simp]
theorem accepts_opening :
    (ini.grammar strict).accepts 5 (.char character) = true ↔ character = '[' :=
  beq_iff_eq.trans eq_comm

@[simp]
theorem accepts_closing :
    (ini.grammar strict).accepts 6 (.char character) = true ↔ character = ']' :=
  beq_iff_eq.trans eq_comm

@[simp]
theorem accepts_equals :
    (ini.grammar strict).accepts 7 (.char character) = true ↔ character = '=' :=
  beq_iff_eq.trans eq_comm

end Decisions

section Moves

-- What happens at a node is found by assembling the graph.
set_option maxRecDepth 4000

variable {strict : Bool} {told : List Callback} {rest : List Char} {character : Char}
  {captured : Option (List Char)} {text : List Char}

theorem IsKey.not_isNewline (isKey : IsKey character) : ¬IsNewline character := by
  rintro (rfl | rfl)
  · exact absurd isKey (by decide)
  · exact absurd isKey (by decide)

theorem IsKey.not_isBlank (isKey : IsKey character) : ¬IsBlank character := by
  rintro (rfl | rfl)
  · exact absurd isKey (by decide)
  · exact absurd isKey (by decide)

theorem moves_newline (isNewline : IsNewline character) :
    (ini.grammar strict).Moves ⟨[line], character :: rest, none, told⟩
      ⟨[line], rest, none, told⟩ := by
  have decided : ((ini.grammar strict).choices line).path? (ini.grammar strict).toGraph
      (character :: rest) = some [.consume 1 0] := by
    rw [(decisions strict).line_eq]
    simp [isNewline]
  exact .intro rfl decided rfl

theorem moves_blank (character : Char) (rest : List Char) (captured : Option (List Char))
    (isBlank : IsBlank character) :
    (ini.grammar strict).Moves ⟨[line], character :: rest, captured, told⟩
      ⟨[line], rest, captured.map (· ++ [character]), told⟩ := by
  have notNewline : ¬IsNewline character := by
    rcases isBlank with rfl | rfl
    · simp [IsNewline]
    · simp [IsNewline]
  have decided : ((ini.grammar strict).choices line).path? (ini.grammar strict).toGraph
      (character :: rest) = some [.consume 2 0] := by
    rw [(decisions strict).line_eq]
    simp [notNewline, isBlank]
  exact .intro rfl decided rfl

theorem moves_key (character : Char) (rest : List Char) (isKey : IsKey character) :
    (ini.grammar strict).Moves ⟨[line], character :: rest, none, told⟩
      ⟨[inKey, line], rest, some [character], told⟩ := by
  have decided : ((ini.grammar strict).choices line).path? (ini.grammar strict).toGraph
      (character :: rest) = some [.call 1 0, .goto 1, .consume 0 2] := by
    rw [(decisions strict).line_eq]
    simp [isKey, isKey.not_isNewline, isKey.not_isBlank]
  exact .intro rfl decided rfl

theorem moves_opening :
    (ini.grammar strict).Moves ⟨[line], '[' :: rest, none, told⟩
      ⟨[opened], rest, none, told⟩ := by
  have notKey : ¬IsKey '[' := by decide
  have decided : ((ini.grammar strict).choices line).path? (ini.grammar strict).toGraph
      ('[' :: rest) = some [.consume 5 2] := by
    rw [(decisions strict).line_eq]
    simp [notKey, IsNewline, IsBlank]
  exact .intro rfl decided rfl

theorem moves_mark (isMark : IsMark character) :
    (ini.grammar strict).Moves ⟨[line], character :: rest, none, told⟩
      ⟨[inComment], rest, none, told⟩ := by
  have others : ¬IsNewline character ∧ ¬IsBlank character ∧ ¬IsKey character ∧
      character ≠ '[' := by
    rcases isMark with rfl | rfl
    · exact ⟨by simp [IsNewline], by simp [IsBlank], by decide, by simp⟩
    · exact ⟨by simp [IsNewline], by simp [IsBlank], by decide, by simp⟩
  have decided : ((ini.grammar strict).choices line).path? (ini.grammar strict).toGraph
      (character :: rest) = some [.consume 4 6] := by
    rw [(decisions strict).line_eq]
    simp [others, isMark]
  exact .intro rfl decided rfl

theorem moves_name (character : Char) (rest : List Char) (isKey : IsKey character) :
    (ini.grammar strict).Moves ⟨[opened], character :: rest, none, told⟩
      ⟨[inName], rest, some [character], told⟩ := by
  have decided : ((ini.grammar strict).choices opened).path? (ini.grammar strict).toGraph
      (character :: rest) = some [.goto 3, .consume 0 4] := by
    rw [(decisions strict).opened_eq]
    simp [isKey]
  exact .intro rfl decided rfl

theorem moves_inName (character : Char) (rest : List Char) (captured : Option (List Char))
    (isKey : IsKey character) :
    (ini.grammar strict).Moves ⟨[inName], character :: rest, captured, told⟩
      ⟨[inName], rest, captured.map (· ++ [character]), told⟩ := by
  have decided : ((ini.grammar strict).choices inName).path? (ini.grammar strict).toGraph
      (character :: rest) = some [.consume 0 4] := by
    rw [(decisions strict).inName_eq]
    simp [isKey]
  exact .intro rfl decided rfl

theorem moves_closing :
    (ini.grammar strict).Moves ⟨[inName], ']' :: rest, some text, told⟩
      ⟨[closed], rest, none, told ++ [.publish "section" (String.ofList text)]⟩ := by
  have notKey : ¬IsKey ']' := by decide
  have decided : ((ini.grammar strict).choices inName).path? (ini.grammar strict).toGraph
      (']' :: rest) = some [.consume 6 5] := by
    rw [(decisions strict).inName_eq]
    simp [notKey]
  exact .intro rfl decided rfl

theorem moves_inComment (character : Char) (rest : List Char) (captured : Option (List Char))
    (isText : ¬IsNewline character) :
    (ini.grammar strict).Moves ⟨[inComment], character :: rest, captured, told⟩
      ⟨[inComment], rest, captured.map (· ++ [character]), told⟩ := by
  have decided : ((ini.grammar strict).choices inComment).path? (ini.grammar strict).toGraph
      (character :: rest) = some [.consume 3 6] := by
    rw [(decisions strict).inComment_eq]
    simp [isText]
  exact .intro rfl decided rfl

theorem moves_inKey (character : Char) (rest : List Char) (captured : Option (List Char))
    (isKey : IsKey character) :
    (ini.grammar strict).Moves ⟨[inKey, line], character :: rest, captured, told⟩
      ⟨[inKey, line], rest, captured.map (· ++ [character]), told⟩ := by
  have decided : ((ini.grammar strict).choices inKey).path? (ini.grammar strict).toGraph
      (character :: rest) = some [.consume 0 2] := by
    rw [(decisions strict).inKey_eq]
    simp [isKey]
  exact .intro rfl decided rfl

theorem moves_equals :
    (ini.grammar strict).Moves ⟨[inKey, line], '=' :: rest, some text, told⟩
      ⟨[afterKey, line], rest, none, told ++ [.publish "key" (String.ofList text)]⟩ := by
  have notKey : ¬IsKey '=' := by decide
  have decided : ((ini.grammar strict).choices inKey).path? (ini.grammar strict).toGraph
      ('=' :: rest) = some [.consume 7 3] := by
    rw [(decisions strict).inKey_eq]
    simp [notKey]
  exact .intro rfl decided rfl

theorem moves_value (character : Char) (rest : List Char) (isText : ¬IsNewline character) :
    (ini.grammar strict).Moves ⟨[afterKey, line], character :: rest, none, told⟩
      ⟨[inValue, line], rest, some [character], told⟩ := by
  have decided : ((ini.grammar strict).choices afterKey).path? (ini.grammar strict).toGraph
      (character :: rest) = some [.goto 4, .goto 5, .consume 3 5] := by
    rw [(decisions strict).afterKey_eq]
    simp [isText]
  exact .intro rfl decided rfl

theorem moves_inValue (character : Char) (rest : List Char) (captured : Option (List Char))
    (isText : ¬IsNewline character) :
    (ini.grammar strict).Moves ⟨[inValue, line], character :: rest, captured, told⟩
      ⟨[inValue, line], rest, captured.map (· ++ [character]), told⟩ := by
  have decided : ((ini.grammar strict).choices inValue).path? (ini.grammar strict).toGraph
      (character :: rest) = some [.consume 3 5] := by
    rw [(decisions strict).inValue_eq]
    simp [isText]
  exact .intro rfl decided rfl

theorem moves_afterEntry :
    (ini.grammar strict).Moves ⟨[afterEntry, line], rest, none, told⟩
      ⟨[line], rest, none, told⟩ := by
  have decided : ((ini.grammar strict).choices afterEntry).path? (ini.grammar strict).toGraph
      rest = some [.leave] := by
    rw [(decisions strict).afterEntry_eq]
    simp
  exact .intro rfl decided rfl

theorem moves_endOfFile :
    (ini.grammar strict).Moves ⟨[line], [], none, told⟩ ⟨[], [], none, told⟩ := by
  have decided : ((ini.grammar strict).choices line).path? (ini.grammar strict).toGraph [] =
      some [.goto 1, .leave] := by
    rw [(decisions strict).line_eq]
    simp
  exact .intro rfl decided rfl

end Moves

section LineEnds

set_option maxRecDepth 4000

/-- A line can end where these rules run and this has been captured. What is published then is
pending. -/
inductive EndsLine : List Frame → Option (List Char) → List Callback → Prop
  | blank : EndsLine [line] none []
  | header : EndsLine [closed] none []
  | comment : EndsLine [inComment] none []
  | noValue : EndsLine [afterKey, line] none [.publish "value" ""]
  | value (text : List Char) :
      EndsLine [inValue, line] (some text) [.publish "value" (String.ofList text)]

variable {strict : Bool} {stack : List Frame} {captured : Option (List Char)}
  {pending told : List Callback}

/-- The first code point of a line break ends the line. -/
theorem EndsLine.reaches_line (ends : EndsLine stack captured pending) {newline : Char}
    (isNewline : IsNewline newline) (rest : List Char) :
    (ini.grammar strict).Reaches ⟨stack, newline :: rest, captured, told⟩
      ⟨[line], rest, none, told ++ pending⟩ := by
  cases ends with
  | blank =>
      rw [List.append_nil]
      exact .single (moves_newline isNewline)
  | header =>
      have decided : ((ini.grammar strict).choices closed).path? (ini.grammar strict).toGraph
          (newline :: rest) = some [.consume 1 0] := by
        rw [(decisions strict).closed_eq]
        simp [isNewline]
      rw [List.append_nil]
      exact .single (.intro rfl decided rfl)
  | comment =>
      have decided : ((ini.grammar strict).choices inComment).path? (ini.grammar strict).toGraph
          (newline :: rest) = some [.consume 1 0] := by
        rw [(decisions strict).inComment_eq]
        simp [isNewline]
      rw [List.append_nil]
      exact .single (.intro rfl decided rfl)
  | noValue =>
      have decided : ((ini.grammar strict).choices afterKey).path? (ini.grammar strict).toGraph
          (newline :: rest) = some [.goto 4, .goto 5, .consume 1 6] := by
        rw [(decisions strict).afterKey_eq]
        simp [isNewline]
      exact .tail (.single (.intro rfl decided rfl)) moves_afterEntry
  | value text =>
      have decided : ((ini.grammar strict).choices inValue).path? (ini.grammar strict).toGraph
          (newline :: rest) = some [.consume 1 6] := by
        rw [(decisions strict).inValue_eq]
        simp [isNewline]
      exact .tail (.single (.intro rfl decided rfl)) moves_afterEntry

/-- The end of the file ends the line, too. -/
theorem EndsLine.reaches_end (ends : EndsLine stack captured pending) :
    (ini.grammar strict).Reaches ⟨stack, [], captured, told⟩ ⟨[], [], none, told ++ pending⟩ := by
  cases ends with
  | blank =>
      rw [List.append_nil]
      exact .single moves_endOfFile
  | header =>
      have decided : ((ini.grammar strict).choices closed).path? (ini.grammar strict).toGraph [] =
          some [.goto 1, .leave] := by
        rw [(decisions strict).closed_eq]
        simp
      rw [List.append_nil]
      exact .single (.intro rfl decided rfl)
  | comment =>
      have decided : ((ini.grammar strict).choices inComment).path?
          (ini.grammar strict).toGraph [] = some [.goto 1, .leave] := by
        rw [(decisions strict).inComment_eq]
        simp
      rw [List.append_nil]
      exact .single (.intro rfl decided rfl)
  | noValue =>
      have decided : ((ini.grammar strict).choices afterKey).path? (ini.grammar strict).toGraph [] =
          some [.goto 4, .goto 5, .goto 7, .leave] := by
        rw [(decisions strict).afterKey_eq]
        simp
      exact .tail (.single (.intro rfl decided rfl)) moves_endOfFile
  | value text =>
      have decided : ((ini.grammar strict).choices inValue).path? (ini.grammar strict).toGraph [] =
          some [.goto 7, .leave] := by
        rw [(decisions strict).inValue_eq]
        simp
      exact .tail (.single (.intro rfl decided rfl)) moves_endOfFile

end LineEnds

section Lines

variable {strict : Bool} {told : List Callback} {rest : List Char}

theorem reaches_pastBlanks (blanks : Blanks) (rest : List Char) :
    (ini.grammar strict).Reaches ⟨[line], blanks.1 ++ rest, none, told⟩
      ⟨[line], rest, none, told⟩ :=
  Grammar.reaches_of_loop moves_blank blanks.2 rest none

theorem reaches_pastName (name : Name) (rest : List Char) :
    (ini.grammar strict).Reaches ⟨[line], '[' :: (name.1 ++ ']' :: rest), none, told⟩
      ⟨[closed], rest, none, told ++ [.publish "section" (String.ofList name.1)]⟩ := by
  rcases name with ⟨name, nonempty, keys⟩
  have reads : (ini.grammar strict).Reaches ⟨[opened], name ++ ']' :: rest, none, told⟩
      ⟨[inName], ']' :: rest, some name, told⟩ :=
    Grammar.reaches_of_run moves_name moves_inName keys nonempty (']' :: rest)
  exact (reads.head moves_opening).tail moves_closing

theorem reaches_pastKey (key : Name) (rest : List Char) :
    (ini.grammar strict).Reaches ⟨[line], key.1 ++ '=' :: rest, none, told⟩
      ⟨[afterKey, line], rest, none, told ++ [.publish "key" (String.ofList key.1)]⟩ := by
  rcases key with ⟨key, nonempty, keys⟩
  have reads : (ini.grammar strict).Reaches ⟨[line], key ++ '=' :: rest, none, told⟩
      ⟨[inKey, line], '=' :: rest, some key, told⟩ :=
    Grammar.reaches_of_run moves_key moves_inKey keys nonempty ('=' :: rest)
  exact reads.tail moves_equals

/-- A value is read, and its publication is pending. -/
theorem reaches_pastValue (value : Text) (rest : List Char) :
    ∃ stack captured,
      EndsLine stack captured [.publish "value" (String.ofList value.1)] ∧
      (ini.grammar strict).Reaches ⟨[afterKey, line], value.1 ++ rest, none, told⟩
        ⟨stack, rest, captured, told⟩ := by
  rcases value with ⟨value, texts⟩
  by_cases nonempty : value = []
  · obtain rfl := nonempty
    exact ⟨_, _, .noValue, .refl⟩
  · exact ⟨_, _, .value value,
      Grammar.reaches_of_run moves_value moves_inValue texts nonempty rest⟩

theorem reaches_pastComment {mark : Char} (isMark : IsMark mark) (text : Text)
    (rest : List Char) :
    (ini.grammar strict).Reaches ⟨[line], mark :: (text.1 ++ rest), none, told⟩
      ⟨[inComment], rest, none, told⟩ := by
  have reads : (ini.grammar strict).Reaches ⟨[inComment], text.1 ++ rest, none, told⟩
      ⟨[inComment], rest, none, told⟩ :=
    Grammar.reaches_of_loop moves_inComment text.2 rest none
  exact reads.head (moves_mark isMark)

/-- A line is read up to where it can end. What is told of it by then and what is pending are its
callbacks. -/
theorem Line.reaches (current : Line) (rest : List Char) (told : List Callback) :
    ∃ stack captured before pending, EndsLine stack captured pending ∧
      before ++ pending = current.callbacks ∧
      (ini.grammar strict).Reaches ⟨[line], current.written ++ rest, none, told⟩
        ⟨stack, rest, captured, told ++ before⟩ := by
  cases current with
  | header indent name =>
      have written_eq : (header indent name).written ++ rest =
          indent.1 ++ '[' :: (name.1 ++ ']' :: rest) := by simp [written]
      rw [written_eq]
      exact ⟨_, _, _, [], .header, List.append_nil _,
        (reaches_pastBlanks indent _).trans (reaches_pastName name rest)⟩
  | entry indent key value =>
      have written_eq : (entry indent key value).written ++ rest =
          indent.1 ++ (key.1 ++ '=' :: (value.1 ++ rest)) := by simp [written]
      rcases reaches_pastValue value rest with ⟨stack, captured, ends, reads⟩
      rw [written_eq]
      exact ⟨stack, captured, _, _, ends, rfl, ((reaches_pastBlanks indent _).trans
        (reaches_pastKey key (value.1 ++ rest))).trans reads⟩
  | comment indent mark text =>
      have written_eq : (comment indent mark text).written ++ rest =
          indent.1 ++ mark.1 :: (text.1 ++ rest) := by simp [written]
      rw [written_eq]
      refine ⟨_, _, [], [], .comment, rfl, ?_⟩
      rw [List.append_nil]
      exact (reaches_pastBlanks indent _).trans (reaches_pastComment mark.2 text rest)
  | blank blanks =>
      refine ⟨_, _, [], [], .blank, rfl, ?_⟩
      rw [List.append_nil]
      exact reaches_pastBlanks blanks rest

theorem LineBreak.reaches (lineBreak : LineBreak) {stack : List Frame}
    {captured : Option (List Char)} {pending : List Callback}
    (ends : EndsLine stack captured pending) :
    (ini.grammar strict).Reaches ⟨stack, lineBreak.text ++ rest, captured, told⟩
      ⟨[line], rest, none, told ++ pending⟩ := by
  cases lineBreak with
  | lineFeed => exact ends.reaches_line (.inr rfl) rest
  | carriageReturn => exact ends.reaches_line (.inl rfl) rest
  | returnLineFeed =>
      exact (ends.reaches_line (.inl rfl) ('\n' :: rest)).tail (moves_newline (.inr rfl))

theorem Line.reaches_line (current : Line) (lineBreak : LineBreak) (rest : List Char)
    (told : List Callback) :
    (ini.grammar strict).Reaches
      ⟨[line], current.written ++ (lineBreak.text ++ rest), none, told⟩
      ⟨[line], rest, none, told ++ current.callbacks⟩ := by
  rcases current.reaches (lineBreak.text ++ rest) told with
    ⟨stack, captured, before, pending, ends, callbacks_eq, reads⟩
  rw [← callbacks_eq, ← List.append_assoc told]
  exact reads.trans (lineBreak.reaches ends)

theorem Line.reaches_end (current : Line) (told : List Callback) :
    (ini.grammar strict).Reaches ⟨[line], current.written, none, told⟩
      ⟨[], [], none, told ++ current.callbacks⟩ := by
  rcases current.reaches [] told with
    ⟨stack, captured, before, pending, ends, callbacks_eq, reads⟩
  rw [List.append_nil] at reads
  rw [← callbacks_eq, ← List.append_assoc told]
  exact reads.trans ends.reaches_end

theorem reaches_pastLines (ended : List (Line × LineBreak)) (rest : List Char)
    (told : List Callback) :
    (ini.grammar strict).Reaches ⟨[line], writtenLines ended ++ rest, none, told⟩
      ⟨[line], rest, none, told ++ (ended.map Prod.fst).flatMap Line.callbacks⟩ := by
  induction ended generalizing told with
  | nil =>
      rw [List.map_nil, List.flatMap_nil, List.append_nil]
      exact .refl
  | cons first ended ih =>
      have separated : writtenLines (first :: ended) ++ rest =
          first.1.written ++ (first.2.text ++ (writtenLines ended ++ rest)) := by
        simp [writtenLines]
      have reads := ih (told ++ first.1.callbacks)
      rw [List.append_assoc told] at reads
      rw [separated]
      exact (first.1.reaches_line first.2 _ told).trans reads

theorem reaches_end (last : Option Line) (told : List Callback) :
    (ini.grammar strict).Reaches ⟨[line], last.elim [] Line.written, none, told⟩
      ⟨[], [], none, told ++ last.toList.flatMap Line.callbacks⟩ := by
  cases last with
  | none =>
      rw [Option.toList_none, List.flatMap_nil, List.append_nil]
      exact .single moves_endOfFile
  | some last =>
      rw [Option.toList_some, List.flatMap_singleton]
      exact last.reaches_end told

end Lines

/-- A configuration file is read back. The names of its sections and the keys and values of its
entries are published in order, and nothing else. -/
theorem reads_configuration (strict : Bool) (file : File) :
    ∃ grammar, (ini.build strict).result = .ok grammar ∧
      grammar.Reads file.written (file.lines.flatMap Line.callbacks) := by
  have built := build_ini strict
  rcases BundledGrammar.exists_isResolved built with ⟨limits, resolved⟩
  refine ⟨ini.grammar strict, built, ?_⟩
  have reads : (ini.grammar strict).Reaches (.atStart (ini.grammar strict) file.written)
      ⟨[line], file.last.elim [] Line.written, none,
        (file.ended.map Prod.fst).flatMap Line.callbacks⟩ :=
    reaches_pastLines file.ended (file.last.elim [] Line.written) []
  apply resolved.reads (ini.action_entry strict)
  rw [File.lines, List.flatMap_append]
  exact reads.trans (reaches_end file.last _)

end StreamGrammar.Ini
