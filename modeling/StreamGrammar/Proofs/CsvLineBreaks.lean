import StreamGrammar.Proofs.CsvRecords

/-!
# Line breaks and blank lines in comma separated values

The lines of a file are records, or blank. With a line feed after each line the records
are read back and the blank lines skipped. With a carriage return before each line feed
that is only so until the first blank line: it begins with a carriage return, with which
no line can begin, and so the parse fails there.
-/

namespace StreamGrammar.Csv

open BundledGrammar (csv build_csv)

/-- Lines are written with the same break after each. A line without a record is blank. -/
def writtenLines (lineBreak : LineBreak) (lines : List (Option Record)) : List Char :=
  lines.flatMap fun line => line.elim [] Record.written ++ lineBreak.text

def callbacksOfLines (lines : List (Option Record)) : List Callback :=
  lines.flatMap fun line => line.elim [] Record.callbacks

section Lines

set_option maxRecDepth 4000

variable {told : List Callback} {rest : List Char}

theorem moves_blank :
    grammar.Moves ⟨[line], '\n' :: rest, none, told⟩ ⟨[line], rest, none, told⟩ := by
  have decided : (grammar.choices line).path? grammar.toGraph ('\n' :: rest) =
      some [.consume 2 3] := by
    rw [decisions.line_eq]
    simp
  exact .intro rfl decided rfl

/-- A carriage return is no beginning of a line. -/
theorem moves_beyond :
    grammar.Moves ⟨[line], '\r' :: rest, none, told⟩ ⟨[], '\r' :: rest, none, told⟩ := by
  have decided : (grammar.choices line).path? grammar.toGraph ('\r' :: rest) =
      some [.goto 4, .leave] := by
    rw [decisions.line_eq]
    simp [IsPlain]
  exact .intro rfl decided rfl

/-- A record is read with the line break after it. -/
theorem Record.reaches_line (record : Record) (lineBreak : LineBreak) {stack : List Frame}
    (begins : stack = [start] ∨ stack = [line]) :
    grammar.Reaches ⟨stack, record.written ++ lineBreak.text ++ rest, none, told⟩
      ⟨[line], rest, none, told ++ record.callbacks⟩ := by
  rw [List.append_assoc]
  exact (record.reaches begins (lineBreak.endsRecord rest)).trans lineBreak.reaches_line

/-- Lines are read to their end if none is blank, or if it can be skipped. -/
theorem reaches_pastLines (lineBreak : LineBreak) (lines : List (Option Record))
    (readable : lineBreak = .lineFeed ∨ none ∉ lines) (rest : List Char) (told : List Callback) :
    grammar.Reaches ⟨[line], writtenLines lineBreak lines ++ rest, none, told⟩
      ⟨[line], rest, none, told ++ callbacksOfLines lines⟩ := by
  induction lines generalizing told with
  | nil =>
      rw [callbacksOfLines, List.flatMap_nil, List.append_nil]
      exact .refl
  | cons first lines ih =>
      have laterReadable : lineBreak = .lineFeed ∨ none ∉ lines :=
        readable.imp_right fun noBlank later => noBlank (List.mem_cons_of_mem first later)
      cases first with
      | none =>
          obtain rfl : lineBreak = .lineFeed := by simpa using readable
          exact (ih laterReadable told).head moves_blank
      | some record =>
          have separated : writtenLines lineBreak (some record :: lines) ++ rest =
              record.written ++ lineBreak.text ++ (writtenLines lineBreak lines ++ rest) := by
            simp [writtenLines]
          have reads := ih laterReadable (told ++ record.callbacks)
          rw [List.append_assoc told] at reads
          rw [separated]
          exact (record.reaches_line lineBreak (.inr rfl)).trans reads

/-- The same from the beginning of a text, where the first line is a record. -/
theorem reaches_pastFirstLines (lineBreak : LineBreak) (first : Record)
    (lines : List (Option Record)) (readable : lineBreak = .lineFeed ∨ none ∉ lines)
    (rest : List Char) :
    grammar.Reaches (.atStart grammar (writtenLines lineBreak (some first :: lines) ++ rest))
      ⟨[line], rest, none, callbacksOfLines (some first :: lines)⟩ := by
  have separated : writtenLines lineBreak (some first :: lines) ++ rest =
      first.written ++ lineBreak.text ++ (writtenLines lineBreak lines ++ rest) := by
    simp [writtenLines]
  rw [separated]
  have begun : grammar.Reaches
      (.atStart grammar (first.written ++ lineBreak.text ++ (writtenLines lineBreak lines ++ rest)))
      ⟨[line], writtenLines lineBreak lines ++ rest, none, first.callbacks⟩ :=
    first.reaches_line lineBreak (.inl rfl)
  exact begun.trans (reaches_pastLines lineBreak lines readable rest first.callbacks)

/-- With carriage returns before the line feeds, the parse fails at the first blank line. -/
theorem failsAt_blank (first : Record) (records : List Record) (lines : List (Option Record)) :
    grammar.FailsAt (writtenLines .returnLineFeed (some first :: records.map some))
      (writtenLines .returnLineFeed (none :: lines))
      (callbacksOfLines (some first :: records.map some)) := by
  rcases BundledGrammar.exists_isResolved build_csv with ⟨limits, resolved⟩
  have reads := reaches_pastFirstLines .returnLineFeed first (records.map some) (.inr (by simp))
    (writtenLines .returnLineFeed (none :: lines))
  rcases resolved.failsAt (csv.action_entry false) (reads.tail moves_beyond)
    (.beyond rfl (List.cons_ne_nil _ _)) with ⟨read, text_eq, fails⟩
  obtain rfl := List.append_cancel_right text_eq
  exact fails

theorem reads_lines (lineBreak : LineBreak) (first : Record) (lines : List (Option Record))
    (readable : lineBreak = .lineFeed ∨ none ∉ lines) :
    grammar.Reads (writtenLines lineBreak (some first :: lines))
      (callbacksOfLines (some first :: lines)) := by
  rcases BundledGrammar.exists_isResolved build_csv with ⟨limits, resolved⟩
  have reads := reaches_pastFirstLines lineBreak first lines readable []
  rw [List.append_nil] at reads
  exact resolved.reads (csv.action_entry false) (reads.tail moves_endOfLines)

end Lines

/-- Lines that are not all records are records up to the first blank one. -/
theorem exists_firstBlank {lines : List (Option Record)} (blank : none ∈ lines) :
    ∃ (records : List Record) (later : List (Option Record)),
      lines = records.map some ++ none :: later := by
  induction lines with
  | nil => cases blank
  | cons first lines ih =>
      cases first with
      | none => exact ⟨[], lines, rfl⟩
      | some record =>
          have laterBlank : none ∈ lines := by simpa using blank
          rcases ih laterBlank with ⟨records, later, rfl⟩
          exact ⟨record :: records, later, rfl⟩

/-- With line feeds alone, the records of any lines are read and blank lines are skipped. With
carriage returns before them the same is read exactly if no line is blank. Otherwise the parse fails
at the first blank line, after what comes before it has been read. -/
theorem reads_lines_alike_iff (first : Record) (lines : List (Option Record)) :
    ∃ grammar, (csv.build false).result = .ok grammar ∧
      grammar.Reads (writtenLines .lineFeed (some first :: lines))
        (callbacksOfLines (some first :: lines)) ∧
      (grammar.Reads (writtenLines .returnLineFeed (some first :: lines))
        (callbacksOfLines (some first :: lines)) ↔ none ∉ lines) ∧
      (none ∉ lines ∨ ∃ (records : List Record) (later : List (Option Record)),
        lines = records.map some ++ none :: later ∧
        grammar.FailsAt (writtenLines .returnLineFeed (some first :: records.map some))
          (writtenLines .returnLineFeed (none :: later))
          (callbacksOfLines (some first :: records.map some))) := by
  refine ⟨grammar, build_csv, reads_lines .lineFeed first lines (.inl rfl), ?_⟩
  by_cases blank : none ∈ lines
  · rcases exists_firstBlank blank with ⟨records, later, rfl⟩
    have fails := failsAt_blank first records later
    have written_eq :
        writtenLines .returnLineFeed (some first :: (records.map some ++ none :: later)) =
          writtenLines .returnLineFeed (some first :: records.map some) ++
            writtenLines .returnLineFeed (none :: later) := by simp [writtenLines]
    refine ⟨iff_of_false ?_ (not_not_intro blank), .inr ⟨records, later, rfl, fails⟩⟩
    intro reads
    rw [written_eq] at reads
    exact fails.status_ne reads.1
  · exact ⟨iff_of_true (reads_lines .returnLineFeed first lines (.inr blank)) blank, .inl blank⟩

/-- A blank line between two records is skipped with line feeds, and refused with carriage returns
before them. -/
theorem blank_line_depends_on_break :
    ∃ grammar, (csv.build false).result = .ok grammar ∧ ∃ first last : Record,
      writtenLines .lineFeed [some first, none, some last] = "a\n\nb\n".toList ∧
      writtenLines .returnLineFeed [some first, none, some last] = "a\r\n\r\nb\r\n".toList ∧
      ((Engine.ofGrammar grammar).parse grammar "a\n\nb\n".toList).status = .succeeded ∧
      ((Engine.ofGrammar grammar).parse grammar "a\r\n\r\nb\r\n".toList).status ≠ .succeeded := by
  let first : Record := ⟨.plain ['a'] (by simp [IsPlain]), [], by simp [Field.written]⟩
  let last : Record := ⟨.plain ['b'] (by simp [IsPlain]), [], by simp [Field.written]⟩
  have skipped := reads_lines .lineFeed first [none, some last] (.inl rfl)
  have refused := failsAt_blank first [] [some last]
  exact ⟨grammar, build_csv, first, last, rfl, rfl, skipped.1, refused.status_ne⟩

end StreamGrammar.Csv
