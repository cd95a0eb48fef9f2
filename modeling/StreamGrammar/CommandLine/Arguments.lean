import StreamGrammar.Bundled

/-!
# Command line arguments

A command line names at most one file and may give options, each at most once.
The value of an option is its next argument, or follows an equals sign. After a
double dash nothing is an option any more.
-/

namespace StreamGrammar.CommandLine

/-- What a command line asks for. -/
structure Arguments where
  /-- The file to parse, the standard input if there is none. -/
  file : Option String := none
  grammar : BundledGrammar := .numbers
  /-- The number of input units handed to the engine at a time. -/
  chunk : Nat := 4096
  /-- The input is handed over as 16-bit units. -/
  utf16 : Bool := false
  /-- The route table is printed, and nothing is parsed. -/
  routes : Bool := false
  /-- Decisions must not need the order of declaration. -/
  strict : Bool := false
  /-- Nothing that is published is printed. -/
  quiet : Bool := false
  /-- What was parsed is summed up. -/
  stats : Bool := false
deriving DecidableEq, Repr

/-- An option that takes no value. -/
inductive Switch where
  | utf16
  | routes
  | strict
  | quiet
  | stats
deriving DecidableEq, Repr

/-- An option that takes a value. -/
inductive Setting where
  | grammar
  | chunk
deriving DecidableEq, Repr

/-- An option. -/
inductive OptionName where
  | switch (name : Switch)
  | setting (name : Setting)
deriving DecidableEq, Repr

/-- The option that is spelled so after the two dashes. -/
def OptionName.ofText? : String → Option OptionName
  | "utf16" => some (.switch .utf16)
  | "routes" => some (.switch .routes)
  | "strict" => some (.switch .strict)
  | "quiet" => some (.switch .quiet)
  | "stats" => some (.switch .stats)
  | "grammar" => some (.setting .grammar)
  | "chunk" => some (.setting .chunk)
  | _ => none

/-- The largest number that an option can be given. -/
def maxCount : Nat := 18446744073709551615

/-- A number in decimal digits, perhaps after a plus sign. -/
def count? (text : String) : Option Nat :=
  let digits := match text.toList with
    | '+' :: rest => rest
    | all => all
  if digits.isEmpty || !digits.all Char.isDigit then none
  else
    let number := digits.foldl (fun value digit => value * 10 + (digit.toNat - '0'.toNat)) 0
    if number ≤ maxCount then some number else none

namespace Arguments

def turnOn (arguments : Arguments) : Switch → Arguments
  | .utf16 => { arguments with utf16 := true }
  | .routes => { arguments with routes := true }
  | .strict => { arguments with strict := true }
  | .quiet => { arguments with quiet := true }
  | .stats => { arguments with stats := true }

/-- Gives a setting its value, if the value is sound. -/
def assign? (arguments : Arguments) (setting : Setting) (value : String) : Option Arguments :=
  match setting with
  | .grammar => (BundledGrammar.ofName? value).map fun grammar => { arguments with grammar }
  | .chunk => (count? value).map fun chunk => { arguments with chunk }

/-- Names the file, unless one is named already. A name is not empty. -/
def nameFile? (arguments : Arguments) (file : String) : Option Arguments :=
  if file.isEmpty || arguments.file.isSome then none else some { arguments with file := some file }

end Arguments

/-- An argument that begins with two dashes: the name of an option, and its value if there is an
equals sign. -/
def splitOption (argument : String) : String × Option String :=
  let body := argument.toList.drop 2
  match body.dropWhile (· ≠ '=') with
  | [] => (String.ofList body, none)
  | _ :: value => (String.ofList (body.takeWhile (· ≠ '=')), some (String.ofList value))

def readArguments (given : List OptionName) (arguments : Arguments) :
    List String → Option Arguments
  | [] => some arguments
  | "--" :: files => files.foldlM Arguments.nameFile? arguments
  | argument :: rest =>
      if argument.startsWith "--" then
        let (text, value?) := splitOption argument
        match OptionName.ofText? text with
        | none => none
        | some option =>
            if given.contains option then none
            else
              match option, value?, rest with
              | .switch switch, none, rest =>
                  readArguments (option :: given) (arguments.turnOn switch) rest
              | .setting setting, some value, rest => do
                  readArguments (option :: given) (← arguments.assign? setting value) rest
              | .setting setting, none, value :: rest => do
                  readArguments (option :: given) (← arguments.assign? setting value) rest
              | _, _, _ => none
      else if argument.startsWith "-" && argument ≠ "-" then none
      else do readArguments given (← arguments.nameFile? argument) rest

def Arguments.ofList? (arguments : List String) : Option Arguments :=
  readArguments [] {} arguments

end StreamGrammar.CommandLine
