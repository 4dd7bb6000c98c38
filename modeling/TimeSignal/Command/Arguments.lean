import TimeSignal.Decimal.Argument

/-!
# Command-line arguments

A command line names a subcommand, its expression and its options, in any order after the name.  A
value follows its option, or is joined to it by `=`.  After `--` every argument is an expression.
The arguments are read in order, and the first that cannot be accepted, or that asks for help or for
the version, ends the reading.

## Main definitions

* `Command`: a subcommand with its arguments.
* `Command.Stop`: the other ends of reading a command line.
* `Command.ofArguments`: the command of a list of arguments.
-/

namespace TimeSignal

/-- A subcommand with its arguments. -/
inductive Command where
  /-- Evaluate an expression at one time. -/
  | eval (expression : String) (time : Binary32) (seed : UInt64)
  /-- Print an expression in shading language. -/
  | shader (expression : String) (allowUnsupported : Bool)
  /-- Print the folded polynomial tree of an expression. -/
  | poly (expression : String)
  /-- Sample an expression at evenly spaced times. -/
  | sample (expression : String) (first last : Binary32) (steps : Nat) (seed : UInt64)
    (parallel : Bool) (threads : Option Nat)
deriving DecidableEq

namespace Command

/-- Why a command line is refused. -/
inductive UsageError where
  /-- No subcommand is named. -/
  | missingSubcommand
  /-- An argument has no meaning where it stands. -/
  | unexpected (argument : String)
  /-- An option has no value. -/
  | missingValue (option : String)
  /-- The value of an option is not of its kind. -/
  | invalidValue (option value : String)
  /-- An option is given twice. -/
  | repeated (option : String)
  /-- A required argument is not given. -/
  | missingArgument (name : String)
deriving DecidableEq

/-- The words of a refusal. -/
def UsageError.reason : UsageError → String
  | .missingSubcommand => "a subcommand is required"
  | .unexpected argument => "unexpected argument '" ++ argument ++ "' found"
  | .missingValue option => "a value is required for '--" ++ option ++ "'"
  | .invalidValue option value => "invalid value '" ++ value ++ "' for '--" ++ option ++ "'"
  | .repeated option => "the argument '--" ++ option ++ "' cannot be used multiple times"
  | .missingArgument name => "the argument '" ++ name ++ "' is required"

/-- An end of reading a command line without a command. -/
inductive Stop where
  /-- Help is asked for. -/
  | help (text : String)
  /-- The version is asked for. -/
  | version
  /-- The command line is refused. -/
  | usage (error : UsageError)
deriving DecidableEq

/-! ## Values -/

/-- A whole number below `2 ^ 64`, in digits with an optional plus sign. -/
def word? (text : String) : Option Nat :=
  let digits := match text.toList with
    | '+' :: rest => rest
    | rest => rest
  let value := Nat.ofDigitChars 10 digits 0
  if digits.isEmpty || !digits.all Char.isDigit || UInt64.size ≤ value then none else some value

/-- The text after a minus sign is a number: digits, with at most one point and one exponent letter
behind the first character, the point before the letter, and the letter not at the end. -/
def isNumberTail (text : List Char) : Bool :=
  let mantissa := text.takeWhile fun c => c != 'e' && c != 'E'
  let exponent := text.drop (mantissa.length + 1)
  let digitsOrPoint := mantissa.all fun c => c.isDigit || c == '.'
  let oneInnerPoint := mantissa.count '.' ≤ 1 && mantissa.head? != some '.'
  let noLetter := mantissa.length == text.length
  digitsOrPoint && oneInnerPoint &&
    (noLetter || (!mantissa.isEmpty && !exponent.isEmpty && exponent.all Char.isDigit))

/-! ## Subcommands -/

/-- An option of a subcommand. -/
structure OptionSpec where
  /-- The name, without the hyphens in front. -/
  name : String
  /-- A value belongs to the option. -/
  takesValue : Bool
  /-- The value may be a negative number in an argument of its own. -/
  allowsNegative : Bool
  /-- The value is of the option's kind. -/
  accepts : String → Bool

/-- An option without value. -/
def OptionSpec.flag (name : String) : OptionSpec := ⟨name, false, false, fun _ => true⟩

/-- An option with a number. -/
def OptionSpec.number (name : String) : OptionSpec :=
  ⟨name, true, true, fun text => (Binary32.ofString? text).isSome⟩

/-- An option with a whole number. -/
def OptionSpec.word (name : String) : OptionSpec :=
  ⟨name, true, false, fun text => (word? text).isSome⟩

/-- What has been read of a subcommand's arguments. -/
structure Given where
  /-- The expression. -/
  expression : Option String
  /-- The options with their values; an option without value has an empty one. -/
  options : List (String × String)

/-- The value of an option. -/
def Given.option? (given : Given) (name : String) : Option String :=
  (given.options.find? fun option => option.1 == name).map (·.2)

/-- The option is given. -/
def Given.has (given : Given) (name : String) : Bool := (given.option? name).isSome

/-- The expression, which is required. -/
def Given.requiredExpression (given : Given) : Except Stop String :=
  match given.expression with
  | some expression => .ok expression
  | none => .error (.usage (.missingArgument "<EXPR>"))

/-- The value of a required number option. -/
def Given.requiredNumber (given : Given) (name : String) : Except Stop Binary32 :=
  match (given.option? name).bind Binary32.ofString? with
  | some value => .ok value
  | none => .error (.usage (.missingArgument ("--" ++ name)))

/-- The value of a required option with a whole number. -/
def Given.requiredWord (given : Given) (name : String) : Except Stop Nat :=
  match (given.option? name).bind word? with
  | some value => .ok value
  | none => .error (.usage (.missingArgument ("--" ++ name)))

/-- The value of an option with a whole number, if it is given. -/
def Given.word? (given : Given) (name : String) : Option Nat :=
  (given.option? name).bind Command.word?

/-- The seed, zero unless it is given. -/
def Given.seed (given : Given) : UInt64 := UInt64.ofNat ((given.word? "seed").getD 0)

/-- A subcommand: its name, help and options, and the command of what is given. -/
structure Subcommand where
  /-- The name. -/
  name : String
  /-- One line about the subcommand. -/
  summary : String
  /-- The lines of its help that follow the summary. -/
  details : List String
  /-- The options. -/
  options : List OptionSpec
  /-- The command of the given arguments. -/
  build : Given → Except Stop Command

/-- The help of a subcommand. -/
def Subcommand.help (subcommand : Subcommand) : String :=
  "\n".intercalate (subcommand.summary :: "" :: subcommand.details) ++ "\n"

/-- The subcommand that evaluates. -/
def evalSubcommand : Subcommand where
  name := "eval"
  summary := "Interpret an expression at one time"
  details :=
    ["Usage: varying eval [OPTIONS] --t <T> <EXPR>", "",
      "Arguments:",
      "  <EXPR>  Expression, e.g. \"lerp(0, t, t)\"", "",
      "Options:",
      "  -v, --verbose...   Raise log verbosity (repeatable)",
      "      --t <T>        Time to evaluate at",
      "      --seed <SEED>  Seed for random draws [default: 0]",
      "  -h, --help         Print help"]
  options := [.number "t", .word "seed"]
  build given := do
    let expression ← given.requiredExpression
    let time ← given.requiredNumber "t"
    .ok (.eval expression time given.seed)

/-- The subcommand that prints in shading language. -/
def shaderSubcommand : Subcommand where
  name := "shader"
  summary := "Print the shader source for an expression"
  details :=
    ["Usage: varying shader [OPTIONS] <EXPR>", "",
      "Arguments:",
      "  <EXPR>  Expression to render", "",
      "Options:",
      "  -v, --verbose...         Raise log verbosity (repeatable)",
      "      --allow-unsupported  Print the output even when it contains the random sentinel",
      "  -h, --help               Print help"]
  options := [.flag "allow-unsupported"]
  build given := do
    let expression ← given.requiredExpression
    .ok (.shader expression (given.has "allow-unsupported"))

/-- The subcommand that prints the folded polynomial tree. -/
def polySubcommand : Subcommand where
  name := "poly"
  summary := "Print the optimized polynomial form as JSON"
  details :=
    ["Usage: varying poly [OPTIONS] <EXPR>", "",
      "Arguments:",
      "  <EXPR>  Expression to convert", "",
      "Options:",
      "  -v, --verbose...  Raise log verbosity (repeatable)",
      "  -h, --help        Print help"]
  options := []
  build given := do
    let expression ← given.requiredExpression
    .ok (.poly expression)

/-- The subcommand that samples. -/
def sampleSubcommand : Subcommand where
  name := "sample"
  summary := "Sample an expression over a range and print a JSON array"
  details :=
    ["Usage: varying sample [OPTIONS] --from <FROM> --to <TO> --steps <STEPS> <EXPR>", "",
      "Arguments:",
      "  <EXPR>  Expression to sample", "",
      "Options:",
      "  -v, --verbose...         Raise log verbosity (repeatable)",
      "      --from <FROM>        First sample time",
      "      --to <TO>            Last sample time",
      "      --steps <STEPS>      Number of evenly spaced samples, both ends included",
      "      --seed <SEED>        Seed for random draws [default: 0]",
      "      --parallel           Sample chunks on a thread pool",
      "      --threads <THREADS>  Worker threads when `--parallel` is set",
      "  -h, --help               Print help"]
  options :=
    [.number "from", .number "to", .word "steps", .word "seed", .flag "parallel", .word "threads"]
  build given := do
    let expression ← given.requiredExpression
    let first ← given.requiredNumber "from"
    let last ← given.requiredNumber "to"
    let steps ← given.requiredWord "steps"
    .ok (.sample expression first last steps given.seed (given.has "parallel")
      (given.word? "threads"))

/-- All subcommands. -/
def subcommands : List Subcommand :=
  [evalSubcommand, shaderSubcommand, polySubcommand, sampleSubcommand]

/-- The subcommand with a name. -/
def subcommand? (name : String) : Option Subcommand :=
  subcommands.find? fun subcommand => subcommand.name == name

/-- The help of the program. -/
def programHelp : String :=
  "\n".intercalate
    ["Usage: varying [OPTIONS] <COMMAND>", "",
      "Commands:",
      "  eval    Interpret an expression at one time",
      "  shader  Print the shader source for an expression",
      "  poly    Print the optimized polynomial form as JSON",
      "  sample  Sample an expression over a range and print a JSON array",
      "  help    Print this message or the help of the given subcommand(s)", "",
      "Options:",
      "  -v, --verbose...  Raise log verbosity (repeatable)",
      "  -h, --help        Print help",
      "  -V, --version     Print version"] ++ "\n"

/-! ## Reading -/

/-- The form of an argument. -/
inductive Form where
  /-- The mark after which every argument is an expression. -/
  | separator
  /-- A long option, with the value joined to it. -/
  | long (name : String) (value : Option String)
  /-- A cluster of short options. -/
  | short (letters : List Char)
  /-- Anything else. -/
  | plain
deriving DecidableEq

/-- The form of an argument.  A hyphen alone is plain. -/
def formOf (argument : String) : Form :=
  match argument.toList with
  | ['-', '-'] => .separator
  | '-' :: '-' :: rest =>
    let name := rest.takeWhile (· != '=')
    let value := rest.drop name.length
    .long (String.ofList name) (if value.isEmpty then none else some (String.ofList (value.drop 1)))
  | '-' :: c :: rest => .short (c :: rest)
  | _ => .plain

/-- The progress in a subcommand's arguments. -/
structure Progress where
  /-- What has been read. -/
  given : Given
  /-- The option whose value comes next. -/
  pending : Option OptionSpec
  /-- Every further argument is an expression. -/
  separated : Bool

/-- A refusal. -/
def refuse {α : Type} (error : UsageError) : Except Stop α := .error (.usage error)

/-- No option may be waiting for its value. -/
def Progress.settled (progress : Progress) : Except Stop Unit :=
  match progress.pending with
  | some option => refuse (.missingValue option.name)
  | none => .ok ()

/-- The progress after an option with its value. -/
def Progress.record (progress : Progress) (option : OptionSpec) (value : String) :
    Except Stop Progress :=
  if progress.given.has option.name then refuse (.repeated option.name)
  else if !option.accepts value then refuse (.invalidValue option.name value)
  else .ok { progress with
    given := { progress.given with options := progress.given.options ++ [(option.name, value)] }
    pending := none }

/-- The progress after an argument that is an expression. -/
def Progress.recordExpression (progress : Progress) (argument : String) : Except Stop Progress := do
  progress.settled
  match progress.given.expression with
  | some _ => refuse (.unexpected argument)
  | none => .ok { progress with given := { progress.given with expression := some argument } }

/-- The end of a cluster of short options, whose letters are verbosity and help, and at the top
level version. -/
def readLetters (help : String) (atTop : Bool) (argument : String) :
    List Char → Except Stop Unit
  | [] => .ok ()
  | 'v' :: rest => readLetters help atTop argument rest
  | 'h' :: _ => .error (.help help)
  | 'V' :: _ => if atTop then .error .version else refuse (.unexpected argument)
  | _ :: _ => refuse (.unexpected argument)

/-- The progress after a long option. -/
def Progress.readLong (subcommand : Subcommand) (progress : Progress) (argument name : String)
    (value : Option String) : Except Stop Progress := do
  match subcommand.options.find? fun option => option.name == name with
  | some option =>
    progress.settled
    match option.takesValue, value with
    | true, some value => progress.record option value
    | true, none => .ok { progress with pending := some option }
    | false, none => progress.record option ""
    | false, some _ => refuse (.unexpected argument)
  | none =>
    if value.isSome then refuse (.unexpected argument)
    else if name == "verbose" then
      progress.settled
      .ok progress
    else if name == "help" then
      progress.settled
      .error (.help subcommand.help)
    else refuse (.unexpected argument)

/-- The progress after one more argument of a subcommand. -/
def Progress.read (subcommand : Subcommand) (progress : Progress) (argument : String) :
    Except Stop Progress := do
  if progress.separated then progress.recordExpression argument
  else
    match formOf argument with
    | .separator => .ok { progress with separated := true }
    | .long name value => progress.readLong subcommand argument name value
    | .short letters =>
      match progress.pending with
      | some option =>
        -- A hyphen may start the value that the option waits for.
        if option.allowsNegative && isNumberTail letters then progress.record option argument
        else refuse (.missingValue option.name)
      | none =>
        readLetters subcommand.help false argument letters
        .ok progress
    | .plain =>
      match progress.pending with
      | some option => progress.record option argument
      | none => progress.recordExpression argument

/-- The command of a subcommand's arguments. -/
def readSubcommand (subcommand : Subcommand) (arguments : List String) : Except Stop Command := do
  let start : Progress := ⟨⟨none, []⟩, none, false⟩
  let progress ← arguments.foldlM (Progress.read subcommand) start
  progress.settled
  subcommand.build progress.given

/-- The help that the subcommand `help` shows. -/
def readHelp (arguments : List String) : Stop :=
  match arguments with
  | [] => .help programHelp
  | [name] =>
    match subcommand? name with
    | some subcommand => .help subcommand.help
    | none => if name = "help" then .help programHelp else .usage (.unexpected name)
  | _ :: name :: _ => .usage (.unexpected name)

/-- The command of a list of arguments. -/
def ofArguments : List String → Except Stop Command
  | [] => refuse .missingSubcommand
  | argument :: rest =>
    match subcommand? argument with
    | some subcommand => readSubcommand subcommand rest
    | none =>
      if argument = "help" then .error (readHelp rest)
      else
        match formOf argument with
        | .long "verbose" none => ofArguments rest
        | .long "help" none => .error (.help programHelp)
        | .long "version" none => .error .version
        | .short letters => do
          readLetters programHelp true argument letters
          ofArguments rest
        | _ => refuse (.unexpected argument)

end Command

end TimeSignal
