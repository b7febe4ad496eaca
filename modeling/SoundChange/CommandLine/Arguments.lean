import SoundChange.Order

/-!
# Arguments

How a command line is read. An option has a long name and can have a letter; letters can be put
together behind one hyphen, and a value follows its option as the next argument, behind an equals
sign, or right behind the letter. After two hyphens all arguments are positional.

The arguments are read from left to right (`Arguments.ofGiven`), so that a request for help is
answered even if something is wrong behind it, and not if something is wrong before it.
-/

namespace SoundChange.CommandLine

/-- What the value of an option can be. -/
inductive ValueKind where
  /-- The path of a file, which is not empty. -/
  | path
  /-- A number that fits into 64 bits. -/
  | number
  deriving DecidableEq, Repr

/-- An option that a program knows; one without a kind of value is a flag. -/
structure OptionForm where
  name : String
  letter : Option Char := none
  value : Option ValueKind := none
  about : String
  deriving Repr

/-- What a program accepts on its command line. -/
structure Grammar where
  options : List OptionForm
  /-- How many positional arguments there can be. -/
  positionals : Nat := 0
  /-- Flags that cannot be given together. -/
  exclusive : List (String × String) := []

/-- What is wrong with a command line. -/
inductive UsageError where
  | unknown (argument : Text)
  | missingValue (option : String)
  | needlessValue (option : String)
  | invalidValue (option : String) (value : Text)
  | repeated (option : String)
  | together (option other : String)
  deriving DecidableEq, Repr

/-- The sentence that reports a usage error. -/
def UsageError.message : UsageError → String
  | unknown argument => "unexpected argument '" ++ .ofList argument ++ "'"
  | missingValue option => "no value given for '--" ++ option ++ "'"
  | needlessValue option => "'--" ++ option ++ "' takes no value"
  | invalidValue option value =>
    "invalid value '" ++ .ofList value ++ "' for '" ++ option ++ "'"
  | repeated option => "'--" ++ option ++ "' is given more than once"
  | together option other => "'--" ++ option ++ "' cannot be used with '--" ++ other ++ "'"

/-- One thing given on a command line. -/
inductive Given where
  | flag (name : String)
  | option (name : String) (kind : ValueKind) (value : Text)
  | positional (text : Text)
  | faulty (error : UsageError)
  deriving DecidableEq, Repr

/-- What an argument looks like. -/
inductive Shape where
  /-- Two hyphens. -/
  | separator
  /-- A long name, with a value behind an equals sign if there is one. -/
  | long (name : Text) (value : Option Text)
  /-- Letters behind one hyphen. -/
  | letters (text : Text)
  /-- Anything else, a lone hyphen included. -/
  | plain
  deriving DecidableEq, Repr

namespace Shape

/-- A name and what stands behind its equals sign. -/
def splitValue : Text → Text × Option Text
  | [] => ([], none)
  | c :: cs =>
    if c = '=' then ([], some cs)
    else ((c :: (splitValue cs).1), (splitValue cs).2)

/-- The shape of an argument. -/
def ofArgument : Text → Shape
  | ['-', '-'] => separator
  | '-' :: '-' :: body => long (splitValue body).1 (splitValue body).2
  | '-' :: c :: cs => letters (c :: cs)
  | _ => plain

end Shape

namespace Grammar

/-- The option with a long name. -/
def named (g : Grammar) (name : Text) : Option OptionForm :=
  g.options.find? fun o => o.name.toList = name

/-- The option with a letter. -/
def lettered (g : Grammar) (c : Char) : Option OptionForm :=
  g.options.find? fun o => o.letter = some c

/-- Letters behind a hyphen, and the option that still waits for its value. -/
def readLetters (g : Grammar) : Text → List Given × Option (String × ValueKind)
  | [] => ([], none)
  | c :: cs =>
    match g.lettered c with
    | none => ([.faulty (.unknown ['-', c])], none)
    | some o =>
      match o.value with
      | none => ((.flag o.name :: (g.readLetters cs).1), (g.readLetters cs).2)
      | some kind =>
        match cs with
        | [] => ([], some (o.name, kind))
        | '=' :: value => ([.option o.name kind value], none)
        | value => ([.option o.name kind value], none)

/-- A long name, and the option if it still waits for its value. -/
def readLong (g : Grammar) (name : Text) (value : Option Text) :
    List Given × Option (String × ValueKind) :=
  match g.named name with
  | none => ([.faulty (.unknown ('-' :: '-' :: name))], none)
  | some o =>
    match o.value, value with
    | none, none => ([.flag o.name], none)
    | none, some _ => ([.faulty (.needlessValue o.name)], none)
    | some kind, some value => ([.option o.name kind value], none)
    | some kind, none => ([], some (o.name, kind))

/-- An option that got no value. -/
def unanswered : Option (String × ValueKind) → List Given
  | some (name, _) => [.faulty (.missingValue name)]
  | none => []

/-- What is given by some arguments, while an option may wait for its value. -/
def scan (g : Grammar) (waiting : Option (String × ValueKind)) : List Text → List Given
  | [] => unanswered waiting
  | argument :: rest =>
    match Shape.ofArgument argument with
    | .separator => unanswered waiting ++ rest.map .positional
    | .long name value =>
      let (given, later) := g.readLong name value
      unanswered waiting ++ given ++ g.scan later rest
    | .letters text =>
      let (given, later) := g.readLetters text
      unanswered waiting ++ given ++ g.scan later rest
    | .plain =>
      match waiting with
      | some (name, kind) => .option name kind argument :: g.scan none rest
      | none => .positional argument :: g.scan none rest

end Grammar

/-- The number that a text of digits stands for, if it fits into 64 bits; a plus may come first. -/
def number? (t : Text) : Option Nat :=
  let digits : Text := match t with
    | '+' :: rest => rest
    | _ => t
  let n := digits.foldl (fun n c => 10 * n + (c.toNat - '0'.toNat)) 0
  if digits ≠ [] ∧ digits.all Char.isDigit ∧ n < 0x10000000000000000 then some n else none

/-- The value is of the kind that an option takes. -/
def ValueKind.admits : ValueKind → Text → Bool
  | path, value => !value.isEmpty
  | number, value => (number? value).isSome

/-- Why a program ends before it has begun. -/
inductive Refusal where
  | usage (error : UsageError)
  /-- The user asks what the program accepts. -/
  | help
  /-- The user asks which program this is. -/
  | version
  deriving DecidableEq, Repr

/-- What a command line says. -/
structure Arguments where
  flags : List String := []
  values : List (String × Text) := []
  positionals : List Text := []
  deriving DecidableEq, Repr

namespace Arguments

/-- The flag is given. -/
def has (a : Arguments) (name : String) : Bool := a.flags.contains name

/-- The value given for an option. -/
def value? (a : Arguments) (name : String) : Option Text := a.values.lookup name

/-- Takes note of one thing given. -/
def add (g : Grammar) (a : Arguments) : Given → Except Refusal Arguments
  | .flag "help" => .error .help
  | .flag "version" => .error .version
  | .flag name =>
    if a.has name then .error (.usage (.repeated name))
    else .ok { a with flags := name :: a.flags }
  | .option name kind value =>
    if (a.value? name).isSome then .error (.usage (.repeated name))
    else if kind.admits value then .ok { a with values := (name, value) :: a.values }
    else .error (.usage (.invalidValue name value))
  | .positional text =>
    if g.positionals ≤ a.positionals.length then .error (.usage (.unknown text))
    else if ValueKind.path.admits text then
      .ok { a with positionals := a.positionals ++ [text] }
    else .error (.usage (.unknown text))
  | .faulty error => .error (.usage error)

/-- Takes note of all that is given, up to the first thing that ends the program. -/
def ofGiven (g : Grammar) (a : Arguments) : List Given → Except Refusal Arguments
  | [] => .ok a
  | given :: rest =>
    match a.add g given with
    | .ok a => ofGiven g a rest
    | .error r => .error r

/-- Reads a command line. -/
def read (g : Grammar) (arguments : List Text) : Except Refusal Arguments :=
  match ofGiven g {} (g.scan none arguments) with
  | .error r => .error r
  | .ok a =>
    match g.exclusive.find? fun (one, other) => a.has one && a.has other with
    | some (one, other) => .error (.usage (.together one other))
    | none => .ok a

end Arguments

end SoundChange.CommandLine
