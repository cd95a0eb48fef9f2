import StreamGrammar.Proofs.BundledBuilds

/-!
# Reading comma separated values back

Records can be written with each field in quotes or not, and with either kind of line
break after each. The grammar of comma separated values reads them back: it publishes
what was written for the fields, in which a quoted field still has its quotes doubled,
and announces each record when all of its fields have been published.
-/

namespace StreamGrammar.Csv

open BundledGrammar (csv build_csv)

/-- What can stand in a field without quotes. -/
def IsPlain (character : Char) : Prop :=
  character ≠ ',' ∧ character ≠ '"' ∧ character ≠ '\r' ∧ character ≠ '\n'

/-- The text with two quotes for each. -/
def doubled (text : List Char) : List Char :=
  text.flatMap fun character => if character = '"' then ['"', '"'] else [character]

/-- A field, as it is to be written. -/
inductive Field
  | plain (text : List Char) (isPlain : ∀ character ∈ text, IsPlain character)
  | quoted (text : List Char)

namespace Field

def written : Field → List Char
  | plain text _ => text
  | quoted text => '"' :: doubled text ++ ['"']

/-- The text that is published for the field. -/
def published : Field → List Char
  | plain text _ => text
  | quoted text => doubled text

def callback (field : Field) : Callback :=
  .publish "field" (String.ofList field.published)

theorem callback_of_written_eq_nil {field : Field} (blank : field.written = []) :
    field.callback = .publish "field" "" := by
  cases field with
  | plain text isPlain =>
      obtain rfl : text = [] := blank
      rfl
  | quoted text => cases blank

end Field

/-- A record. Its line must not be blank, so an only field that is empty is in quotes. -/
structure Record where
  first : Field
  others : List Field
  notBlank : others = [] → first.written ≠ []

namespace Record

def fields (record : Record) : List Field := record.first :: record.others

def written (record : Record) : List Char :=
  [','].intercalate (record.fields.map Field.written)

/-- What the consumer is told of the record. -/
def callbacks (record : Record) : List Callback :=
  record.fields.map Field.callback ++ [.event "record"]

end Record

inductive LineBreak
  | lineFeed
  | returnLineFeed

def LineBreak.text : LineBreak → List Char
  | lineFeed => ['\n']
  | returnLineFeed => ['\r', '\n']

/-- What follows the first record in a file: a line break before each further record, and perhaps
one after the last. -/
def further (others : List (LineBreak × Record)) (last : Option LineBreak) : List Char :=
  (others.flatMap fun (lineBreak, record) => lineBreak.text ++ record.written) ++
    last.elim [] LineBreak.text

structure File where
  first : Record
  others : List (LineBreak × Record)
  last : Option LineBreak

namespace File

def records (file : File) : List Record := file.first :: file.others.map Prod.snd

def written (file : File) : List Char := file.first.written ++ further file.others file.last

example : written ⟨⟨.plain ['a'] (by simp [IsPlain]), [.quoted ['b', ',', '"']], by simp⟩,
    [(.lineFeed, ⟨.quoted [], [], by simp [Field.written]⟩)], some .returnLineFeed⟩ =
      "a,\"b,\"\"\"\n\"\"\r\n".toList := rfl

end File

abbrev grammar : Grammar := csv.grammar false

section Decisions

/-- Before the first record. -/
abbrev start : Frame := ⟨0, 0⟩

/-- After a record. -/
abbrev afterRecord : Frame := ⟨0, 1⟩

/-- After a carriage return. -/
abbrev afterReturn : Frame := ⟨0, 2⟩

/-- At the beginning of a further line. -/
abbrev line : Frame := ⟨0, 3⟩

/-- After a field that is not empty without quotes. -/
abbrev separator : Frame := ⟨1, 1⟩

/-- After a comma. -/
abbrev next : Frame := ⟨1, 2⟩

/-- After an opening quote. -/
abbrev opened : Frame := ⟨2, 1⟩

/-- In a quoted field. -/
abbrev inside : Frame := ⟨2, 3⟩

/-- After the first of two quotes. -/
abbrev quote : Frame := ⟨2, 4⟩

/-- After a closing quote. -/
abbrev closed : Frame := ⟨2, 5⟩

/-- In a plain field. -/
abbrev plain : Frame := ⟨2, 7⟩

/-- What is decided at the nodes. -/
structure Decisions : Prop where
  start_eq : grammar.choices start =
    ⟨[([5], [.call 1 1, .call 2 1, .consume 5 1]),
      ([0], [.call 1 1, .call 2 1, .goto 6, .consume 0 7]),
      ([4], [.call 1 1, .goto 4, .goto 5, .consume 4 2])], some [.goto 4, .leave]⟩
  afterRecord_eq : grammar.choices afterRecord =
    ⟨[([2], [.consume 2 3]), ([3], [.consume 3 2])], some [.goto 4, .leave]⟩
  afterReturn_eq : grammar.choices afterReturn =
    ⟨[([2], [.consume 2 3])], none⟩
  line_eq : grammar.choices line =
    ⟨[([2], [.consume 2 3]),
      ([5], [.call 1 1, .call 2 1, .consume 5 1]),
      ([0], [.call 1 1, .call 2 1, .goto 6, .consume 0 7]),
      ([4], [.call 1 1, .goto 4, .goto 5, .consume 4 2])], some [.goto 4, .leave]⟩
  separator_eq : grammar.choices separator =
    ⟨[([4], [.consume 4 2])], some [.goto 3, .leave]⟩
  next_eq : grammar.choices next =
    ⟨[([5], [.call 2 1, .consume 5 1]), ([0], [.call 2 1, .goto 6, .consume 0 7]),
      ([4], [.goto 6, .goto 7, .goto 1, .consume 4 2])],
      some [.goto 6, .goto 7, .goto 1, .goto 3, .leave]⟩
  opened_eq : grammar.choices opened =
    ⟨[([1], [.goto 2, .goto 3, .consume 1 3]), ([5, 5], [.goto 2, .goto 3, .consume 5 4]),
      ([5], [.goto 2, .goto 3, .consume 5 5])], none⟩
  inside_eq : grammar.choices inside =
    ⟨[([1], [.consume 1 3]), ([5, 5], [.consume 5 4]), ([5], [.consume 5 5])], none⟩
  quote_eq : grammar.choices quote = ⟨[([5], [.consume 5 3])], none⟩
  closed_eq : grammar.choices closed = ⟨[], some [.leave]⟩
  plain_eq : grammar.choices plain =
    ⟨[([0], [.consume 0 7])], some [.goto 8, .leave]⟩

theorem decisions : Decisions := by
  constructor <;> decide +kernel

variable (character : Char)

@[simp]
theorem accepts_plain : grammar.accepts 0 (.char character) = true ↔ IsPlain character := by
  have accepts_eq : grammar.accepts 0 (.char character) =
      !([',', '"', '\r', '\n'].contains character) := rfl
  simp [accepts_eq, IsPlain]

@[simp]
theorem accepts_quoted : grammar.accepts 1 (.char character) = true ↔ character ≠ '"' := by
  have accepts_eq : grammar.accepts 1 (.char character) = ('"' != character) := rfl
  rw [accepts_eq, bne_iff_ne]
  exact ne_comm

@[simp]
theorem accepts_lineFeed : grammar.accepts 2 (.char character) = true ↔ character = '\n' :=
  beq_iff_eq.trans eq_comm

@[simp]
theorem accepts_return : grammar.accepts 3 (.char character) = true ↔ character = '\r' :=
  beq_iff_eq.trans eq_comm

@[simp]
theorem accepts_comma : grammar.accepts 4 (.char character) = true ↔ character = ',' :=
  beq_iff_eq.trans eq_comm

@[simp]
theorem accepts_quote : grammar.accepts 5 (.char character) = true ↔ character = '"' :=
  beq_iff_eq.trans eq_comm

end Decisions

section Fields

-- What happens at a node is found by assembling the graph.
set_option maxRecDepth 4000

/-- The rules that run where a field can begin. -/
inductive BeginsField : List Frame → Prop
  | start : BeginsField [start]
  | line : BeginsField [line]
  | next : BeginsField [next, afterRecord]

variable {stack : List Frame} {told : List Callback} {rest : List Char} {character : Char}

theorem moves_quote (begins : BeginsField stack) :
    grammar.Moves ⟨stack, '"' :: rest, none, told⟩
      ⟨[opened, separator, afterRecord], rest, none, told⟩ := by
  cases begins with
  | start =>
      have decided : (grammar.choices start).path? grammar.toGraph ('"' :: rest) =
          some [.call 1 1, .call 2 1, .consume 5 1] := by
        rw [decisions.start_eq]
        simp
      exact .intro rfl decided rfl
  | line =>
      have decided : (grammar.choices line).path? grammar.toGraph ('"' :: rest) =
          some [.call 1 1, .call 2 1, .consume 5 1] := by
        rw [decisions.line_eq]
        simp
      exact .intro rfl decided rfl
  | next =>
      have decided : (grammar.choices next).path? grammar.toGraph ('"' :: rest) =
          some [.call 2 1, .consume 5 1] := by
        rw [decisions.next_eq]
        simp
      exact .intro rfl decided rfl

theorem moves_plain (begins : BeginsField stack) (character : Char) (rest : List Char)
    (isPlain : IsPlain character) :
    grammar.Moves ⟨stack, character :: rest, none, told⟩
      ⟨[plain, separator, afterRecord], rest, some [character], told⟩ := by
  rcases isPlain with ⟨noComma, noQuote, noReturn, noLineFeed⟩
  cases begins with
  | start =>
      have decided : (grammar.choices start).path? grammar.toGraph (character :: rest) =
          some [.call 1 1, .call 2 1, .goto 6, .consume 0 7] := by
        rw [decisions.start_eq]
        simp [IsPlain, noComma, noQuote, noReturn, noLineFeed]
      exact .intro rfl decided rfl
  | line =>
      have decided : (grammar.choices line).path? grammar.toGraph (character :: rest) =
          some [.call 1 1, .call 2 1, .goto 6, .consume 0 7] := by
        rw [decisions.line_eq]
        simp [IsPlain, noComma, noQuote, noReturn, noLineFeed]
      exact .intro rfl decided rfl
  | next =>
      have decided : (grammar.choices next).path? grammar.toGraph (character :: rest) =
          some [.call 2 1, .goto 6, .consume 0 7] := by
        rw [decisions.next_eq]
        simp [IsPlain, noComma, noQuote, noReturn, noLineFeed]
      exact .intro rfl decided rfl

/-- An empty field is published when the comma after it comes. -/
theorem moves_empty (begins : BeginsField stack) :
    grammar.Moves ⟨stack, ',' :: rest, none, told⟩
      ⟨[next, afterRecord], rest, none, told ++ [.publish "field" ""]⟩ := by
  cases begins with
  | start =>
      have decided : (grammar.choices start).path? grammar.toGraph (',' :: rest) =
          some [.call 1 1, .goto 4, .goto 5, .consume 4 2] := by
        rw [decisions.start_eq]
        simp [IsPlain]
      exact .intro rfl decided rfl
  | line =>
      have decided : (grammar.choices line).path? grammar.toGraph (',' :: rest) =
          some [.call 1 1, .goto 4, .goto 5, .consume 4 2] := by
        rw [decisions.line_eq]
        simp [IsPlain]
      exact .intro rfl decided rfl
  | next =>
      have decided : (grammar.choices next).path? grammar.toGraph (',' :: rest) =
          some [.goto 6, .goto 7, .goto 1, .consume 4 2] := by
        rw [decisions.next_eq]
        simp [IsPlain]
      exact .intro rfl decided rfl

theorem moves_inPlain (below : List Frame) (character : Char) (rest : List Char)
    (captured : Option (List Char)) (isPlain : IsPlain character) :
    grammar.Moves ⟨plain :: below, character :: rest, captured, told⟩
      ⟨plain :: below, rest, captured.map (· ++ [character]), told⟩ := by
  have decided : (grammar.choices plain).path? grammar.toGraph (character :: rest) =
      some [.consume 0 7] := by
    rw [decisions.plain_eq]
    simp [isPlain]
  exact .intro rfl decided rfl

theorem moves_pastPlain {text : List Char} (ended : ∀ character ∈ rest.head?, ¬IsPlain character) :
    grammar.Moves ⟨[plain, separator, afterRecord], rest, some text, told⟩
      ⟨[separator, afterRecord], rest, none,
        told ++ [.publish "field" (String.ofList text)]⟩ := by
  have decided : (grammar.choices plain).path? grammar.toGraph rest = some [.goto 8, .leave] := by
    rw [decisions.plain_eq]
    simpa [Graph.fits_singleton] using ended
  exact .intro rfl decided rfl

/-- Between the quotes of a field, of which some text has been read. The capture begins with the
first code point of the field, or with the closing quote. -/
inductive InQuotes : Frame → Option (List Char) → List Char → Prop
  | opened : InQuotes opened none []
  | inside (text : List Char) : InQuotes inside (some text) text

variable {frame : Frame} {captured : Option (List Char)} {text : List Char} (below : List Frame)

theorem moves_inQuotes (inQuotes : InQuotes frame captured text) (noQuote : character ≠ '"') :
    grammar.Moves ⟨frame :: below, character :: rest, captured, told⟩
      ⟨inside :: below, rest, some (text ++ [character]), told⟩ := by
  cases inQuotes with
  | opened =>
      have decided : (grammar.choices opened).path? grammar.toGraph (character :: rest) =
          some [.goto 2, .goto 3, .consume 1 3] := by
        rw [decisions.opened_eq]
        simp [noQuote]
      exact .intro rfl decided rfl
  | inside =>
      have decided : (grammar.choices inside).path? grammar.toGraph (character :: rest) =
          some [.consume 1 3] := by
        rw [decisions.inside_eq]
        simp [noQuote]
      exact .intro rfl decided rfl

theorem moves_firstQuote (inQuotes : InQuotes frame captured text) :
    grammar.Moves ⟨frame :: below, '"' :: '"' :: rest, captured, told⟩
      ⟨quote :: below, '"' :: rest, some (text ++ ['"']), told⟩ := by
  cases inQuotes with
  | opened =>
      have decided : (grammar.choices opened).path? grammar.toGraph ('"' :: '"' :: rest) =
          some [.goto 2, .goto 3, .consume 5 4] := by
        rw [decisions.opened_eq]
        simp
      exact .intro rfl decided rfl
  | inside =>
      have decided : (grammar.choices inside).path? grammar.toGraph ('"' :: '"' :: rest) =
          some [.consume 5 4] := by
        rw [decisions.inside_eq]
        simp
      exact .intro rfl decided rfl

theorem moves_secondQuote :
    grammar.Moves ⟨quote :: below, '"' :: rest, some text, told⟩
      ⟨inside :: below, rest, some (text ++ ['"']), told⟩ := by
  have decided : (grammar.choices quote).path? grammar.toGraph ('"' :: rest) =
      some [.consume 5 3] := by
    rw [decisions.quote_eq]
    simp
  exact .intro rfl decided rfl

/-- A quote that no other one follows closes the field. -/
theorem moves_closingQuote (inQuotes : InQuotes frame captured text)
    (noQuote : rest.head? ≠ some '"') :
    grammar.Moves ⟨frame :: below, '"' :: rest, captured, told⟩
      ⟨closed :: below, rest, none, told ++ [.publish "field" (String.ofList text)]⟩ := by
  cases inQuotes with
  | opened =>
      have decided : (grammar.choices opened).path? grammar.toGraph ('"' :: rest) =
          some [.goto 2, .goto 3, .consume 5 5] := by
        rw [decisions.opened_eq]
        simp [Graph.fits_singleton, noQuote]
      exact .intro rfl decided rfl
  | inside =>
      have decided : (grammar.choices inside).path? grammar.toGraph ('"' :: rest) =
          some [.consume 5 5] := by
        rw [decisions.inside_eq]
        simp [Graph.fits_singleton, noQuote]
      exact .intro rfl decided rfl

theorem moves_closed :
    grammar.Moves ⟨[closed, separator, afterRecord], rest, none, told⟩
      ⟨[separator, afterRecord], rest, none, told⟩ := by
  have decided : (grammar.choices closed).path? grammar.toGraph rest = some [.leave] := by
    rw [decisions.closed_eq]
    simp
  exact .intro rfl decided rfl

/-- The text of a quoted field is read with its quotes still doubled. -/
theorem reaches_closed (inQuotes : InQuotes frame captured text) (content : List Char)
    (noQuote : rest.head? ≠ some '"') :
    grammar.Reaches
      ⟨[frame, separator, afterRecord], doubled content ++ '"' :: rest, captured, told⟩
      ⟨[separator, afterRecord], rest, none,
        told ++ [.publish "field" (String.ofList (text ++ doubled content))]⟩ := by
  induction content generalizing frame captured text with
  | nil =>
      have closes : grammar.Moves ⟨[frame, separator, afterRecord], '"' :: rest, captured, told⟩
          ⟨[closed, separator, afterRecord], rest, none,
            told ++ [.publish "field" (String.ofList text)]⟩ :=
        moves_closingQuote _ inQuotes noQuote
      rw [doubled, List.flatMap_nil, List.append_nil]
      exact .tail (.single closes) moves_closed
  | cons character content ih =>
      by_cases isQuote : character = '"'
      · have twice : doubled (character :: content) = '"' :: '"' :: doubled content := by
          simp [doubled, isQuote]
        have reads := ih (.inside (text ++ ['"'] ++ ['"']))
        have whole : text ++ ['"'] ++ ['"'] ++ doubled content =
            text ++ '"' :: '"' :: doubled content := by simp
        rw [whole] at reads
        rw [twice]
        exact (reads.head (moves_secondQuote _)).head (moves_firstQuote _ inQuotes)
      · have once : doubled (character :: content) = character :: doubled content := by
          simp [doubled, isQuote]
        have reads := ih (.inside (text ++ [character]))
        rw [List.append_assoc] at reads
        rw [once]
        exact reads.head (moves_inQuotes _ inQuotes isQuote)

end Fields

section Records

set_option maxRecDepth 4000

/-- The text after a record. -/
def EndsRecord (rest : List Char) : Prop :=
  ∀ character ∈ rest.head?, character = '\r' ∨ character = '\n'

variable {stack : List Frame} {told : List Callback} {rest : List Char}

theorem EndsRecord.not_isPlain (ends : EndsRecord rest) :
    ∀ character ∈ rest.head?, ¬IsPlain character := by
  rintro character head_eq ⟨_, _, noReturn, noLineFeed⟩
  exact (ends character head_eq).elim noReturn noLineFeed

theorem EndsRecord.head?_ne (ends : EndsRecord rest) {character : Char}
    (noReturn : character ≠ '\r') (noLineFeed : character ≠ '\n') :
    rest.head? ≠ some character := by
  intro head_eq
  exact (ends character head_eq).elim noReturn noLineFeed

theorem moves_comma :
    grammar.Moves ⟨[separator, afterRecord], ',' :: rest, none, told⟩
      ⟨[next, afterRecord], rest, none, told⟩ := by
  have decided : (grammar.choices separator).path? grammar.toGraph (',' :: rest) =
      some [.consume 4 2] := by
    rw [decisions.separator_eq]
    simp
  exact .intro rfl decided rfl

theorem moves_pastFields (ends : EndsRecord rest) :
    grammar.Moves ⟨[separator, afterRecord], rest, none, told⟩
      ⟨[afterRecord], rest, none, told ++ [.event "record"]⟩ := by
  have noComma : rest.head? ≠ some ',' := ends.head?_ne (by simp) (by simp)
  have decided : (grammar.choices separator).path? grammar.toGraph rest =
      some [.goto 3, .leave] := by
    rw [decisions.separator_eq]
    simp [Graph.fits_singleton, noComma]
  exact .intro rfl decided rfl

/-- After a comma, an empty field at the end of the record is published. -/
theorem moves_lastEmpty (ends : EndsRecord rest) :
    grammar.Moves ⟨[next, afterRecord], rest, none, told⟩
      ⟨[afterRecord], rest, none, told ++ [.publish "field" ""] ++ [.event "record"]⟩ := by
  have noComma : rest.head? ≠ some ',' := ends.head?_ne (by simp) (by simp)
  have noQuote : rest.head? ≠ some '"' := ends.head?_ne (by simp) (by simp)
  have notPlain : ¬∃ character ∈ rest.head?, IsPlain character := by
    simpa using ends.not_isPlain
  have decided : (grammar.choices next).path? grammar.toGraph rest =
      some [.goto 6, .goto 7, .goto 1, .goto 3, .leave] := by
    rw [decisions.next_eq]
    simp only [Choices.path?_cons, Choices.path?_nil, Graph.fits_singleton, accepts_plain, notPlain]
    simp [noComma, noQuote]
  exact .intro rfl decided rfl

/-- A field that is not empty is read, and published. -/
theorem reaches_separator (begins : BeginsField stack) (field : Field)
    (filled : field.written ≠ []) (noQuote : rest.head? ≠ some '"')
    (notPlain : ∀ character ∈ rest.head?, ¬IsPlain character) :
    grammar.Reaches ⟨stack, field.written ++ rest, none, told⟩
      ⟨[separator, afterRecord], rest, none, told ++ [field.callback]⟩ := by
  cases field with
  | plain text isPlain =>
      have reads : grammar.Reaches ⟨stack, text ++ rest, none, told⟩
          ⟨[plain, separator, afterRecord], rest, some text, told⟩ :=
        Grammar.reaches_of_run (moves_plain begins) (moves_inPlain _) isPlain filled rest
      exact reads.tail (moves_pastPlain notPlain)
  | quoted text =>
      have written_eq : (Field.quoted text).written ++ rest =
          '"' :: (doubled text ++ '"' :: rest) := by
        simp [Field.written]
      rw [written_eq]
      exact (reaches_closed .opened text noQuote).head (moves_quote begins)

theorem reaches_next (begins : BeginsField stack) (field : Field) :
    grammar.Reaches ⟨stack, field.written ++ ',' :: rest, none, told⟩
      ⟨[next, afterRecord], rest, none, told ++ [field.callback]⟩ := by
  by_cases filled : field.written = []
  · rw [filled, field.callback_of_written_eq_nil filled]
    exact .single (moves_empty begins)
  · have reads : grammar.Reaches ⟨stack, field.written ++ ',' :: rest, none, told⟩
        ⟨[separator, afterRecord], ',' :: rest, none, told ++ [field.callback]⟩ :=
      reaches_separator begins field filled (by simp) (by simp [IsPlain])
    exact reads.tail moves_comma

theorem reaches_afterRecord (begins : BeginsField stack) (field : Field)
    (filled : field.written = [] → stack = [next, afterRecord]) (ends : EndsRecord rest) :
    grammar.Reaches ⟨stack, field.written ++ rest, none, told⟩
      ⟨[afterRecord], rest, none, told ++ [field.callback] ++ [.event "record"]⟩ := by
  by_cases blank : field.written = []
  · rw [filled blank, blank, field.callback_of_written_eq_nil blank]
    exact .single (moves_lastEmpty ends)
  · have noQuote : rest.head? ≠ some '"' := ends.head?_ne (by simp) (by simp)
    exact (reaches_separator begins field blank noQuote ends.not_isPlain).tail
      (moves_pastFields ends)

/-- Fields with commas between them are read to the end of the record. -/
theorem reaches_afterFields (begins : BeginsField stack) (first : Field) (others : List Field)
    (filled : others = [] → first.written = [] → stack = [next, afterRecord])
    (ends : EndsRecord rest) :
    grammar.Reaches
      ⟨stack, [','].intercalate ((first :: others).map Field.written) ++ rest, none, told⟩
      ⟨[afterRecord], rest, none,
        told ++ (first :: others).map Field.callback ++ [.event "record"]⟩ := by
  induction others generalizing first stack told with
  | nil =>
      rw [List.map_singleton, List.intercalate_singleton]
      exact reaches_afterRecord begins first (filled rfl) ends
  | cons second more ih =>
      have separated : [','].intercalate ((first :: second :: more).map Field.written) ++ rest =
          first.written ++
            ',' :: ([','].intercalate ((second :: more).map Field.written) ++ rest) := by
        simp [List.intercalate_cons_cons]
      have reads : grammar.Reaches ⟨[next, afterRecord], _, none, told ++ [first.callback]⟩ _ :=
        ih .next second (fun _ _ => rfl)
      rw [List.append_assoc told] at reads
      rw [separated]
      exact (reaches_next begins first).trans reads

/-- A record is read where its line begins, and its callbacks are made. -/
theorem Record.reaches (record : Record) (begins : stack = [start] ∨ stack = [line])
    (ends : EndsRecord rest) :
    grammar.Reaches ⟨stack, record.written ++ rest, none, told⟩
      ⟨[afterRecord], rest, none, told ++ record.callbacks⟩ := by
  have beginsField : BeginsField stack := by
    rcases begins with rfl | rfl
    · exact .start
    · exact .line
  have filled (single : record.others = []) (blank : record.first.written = []) :
      stack = [next, afterRecord] := absurd blank (record.notBlank single)
  rw [callbacks, ← List.append_assoc]
  exact reaches_afterFields beginsField record.first record.others filled ends

end Records

section Files

set_option maxRecDepth 4000

variable {told : List Callback} {rest : List Char}

theorem moves_lineFeed :
    grammar.Moves ⟨[afterRecord], '\n' :: rest, none, told⟩ ⟨[line], rest, none, told⟩ := by
  have decided : (grammar.choices afterRecord).path? grammar.toGraph ('\n' :: rest) =
      some [.consume 2 3] := by
    rw [decisions.afterRecord_eq]
    simp
  exact .intro rfl decided rfl

theorem moves_return :
    grammar.Moves ⟨[afterRecord], '\r' :: rest, none, told⟩ ⟨[afterReturn], rest, none, told⟩ := by
  have decided : (grammar.choices afterRecord).path? grammar.toGraph ('\r' :: rest) =
      some [.consume 3 2] := by
    rw [decisions.afterRecord_eq]
    simp
  exact .intro rfl decided rfl

theorem moves_returnLineFeed :
    grammar.Moves ⟨[afterReturn], '\n' :: rest, none, told⟩ ⟨[line], rest, none, told⟩ := by
  have decided : (grammar.choices afterReturn).path? grammar.toGraph ('\n' :: rest) =
      some [.consume 2 3] := by
    rw [decisions.afterReturn_eq]
    simp
  exact .intro rfl decided rfl

theorem moves_endOfRecords :
    grammar.Moves ⟨[afterRecord], [], none, told⟩ ⟨[], [], none, told⟩ := by
  have decided : (grammar.choices afterRecord).path? grammar.toGraph [] =
      some [.goto 4, .leave] := by
    rw [decisions.afterRecord_eq]
    simp
  exact .intro rfl decided rfl

theorem moves_endOfLines : grammar.Moves ⟨[line], [], none, told⟩ ⟨[], [], none, told⟩ := by
  have decided : (grammar.choices line).path? grammar.toGraph [] = some [.goto 4, .leave] := by
    rw [decisions.line_eq]
    simp
  exact .intro rfl decided rfl

theorem LineBreak.reaches_line (lineBreak : LineBreak) :
    grammar.Reaches ⟨[afterRecord], lineBreak.text ++ rest, none, told⟩
      ⟨[line], rest, none, told⟩ := by
  cases lineBreak with
  | lineFeed => exact .single moves_lineFeed
  | returnLineFeed => exact .tail (.single moves_return) moves_returnLineFeed

theorem LineBreak.endsRecord (lineBreak : LineBreak) (rest : List Char) :
    EndsRecord (lineBreak.text ++ rest) := by
  cases lineBreak with
  | lineFeed => simp [EndsRecord, text]
  | returnLineFeed => simp [EndsRecord, text]

theorem endsRecord_further (others : List (LineBreak × Record)) (last : Option LineBreak) :
    EndsRecord (further others last) := by
  cases others with
  | nil =>
      cases last with
      | none => simp [EndsRecord, further]
      | some lineBreak => simpa [further] using lineBreak.endsRecord []
  | cons other others =>
      simp only [further, List.flatMap_cons, List.append_assoc]
      exact other.1.endsRecord _

theorem reaches_end (others : List (LineBreak × Record)) (last : Option LineBreak)
    (told : List Callback) :
    grammar.Reaches ⟨[afterRecord], further others last, none, told⟩
      ⟨[], [], none, told ++ (others.map Prod.snd).flatMap Record.callbacks⟩ := by
  induction others generalizing told with
  | nil =>
      rw [List.map_nil, List.flatMap_nil, List.append_nil]
      cases last with
      | none => exact .single moves_endOfRecords
      | some lineBreak =>
          have breaks : grammar.Reaches ⟨[afterRecord], lineBreak.text ++ [], none, told⟩
              ⟨[line], [], none, told⟩ := lineBreak.reaches_line
          rw [List.append_nil] at breaks
          exact breaks.tail moves_endOfLines
  | cons other others ih =>
      have separated : further (other :: others) last =
          other.1.text ++ (other.2.written ++ further others last) := by
        simp [further]
      have reads := ih (told ++ other.2.callbacks)
      rw [List.append_assoc told] at reads
      rw [separated]
      exact (other.1.reaches_line.trans
        (other.2.reaches (.inr rfl) (endsRecord_further others last))).trans reads

end Files

/-- Records that have been written are read back. Each field is published and each record
announced, in order. -/
theorem reads_file (file : File) :
    ∃ grammar, (csv.build false).result = .ok grammar ∧
      grammar.Reads file.written (file.records.flatMap Record.callbacks) := by
  rcases BundledGrammar.exists_isResolved build_csv with ⟨limits, resolved⟩
  refine ⟨grammar, build_csv, ?_⟩
  have first : grammar.Reaches (.atStart grammar file.written)
      ⟨[afterRecord], further file.others file.last, none, file.first.callbacks⟩ :=
    file.first.reaches (.inl rfl) (endsRecord_further file.others file.last)
  apply resolved.reads (csv.action_entry false)
  exact first.trans (reaches_end file.others file.last file.first.callbacks)

end StreamGrammar.Csv
