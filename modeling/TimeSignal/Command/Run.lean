import TimeSignal.Command.Arguments
import TimeSignal.Formula.Parse
import TimeSignal.Json.Tree
import TimeSignal.Sampler.Batch
import TimeSignal.Sampler.Compile
import TimeSignal.Signal.Shader

/-!
# Running a command

Running a command is a function of its arguments, and of how the machine builds pools of threads: it
yields an exit code and the texts for the two output streams.

## Main definitions

* `Command.Failure`: why a command fails, and its report.
* `Command.perform`: the text that a command prints.
* `Command.run`: the outcome of a list of arguments.
-/

namespace TimeSignal

namespace Command

/-- Why a command fails. -/
inductive Failure where
  /-- An expression is refused. -/
  | parse (expression : String) (refusal : Formula.Refusal)
  /-- A step of the work is refused. -/
  | fault (cause : Fault)
  /-- The shading-language text holds markers. -/
  | unsupportedShader (code : Shader)

/-- The report of a failure: what failed and, for an expression, the cause. -/
def Failure.report : Failure → String
  | .parse expression refusal =>
    "Error: parse expression '" ++ expression ++ "'\n\nCaused by:\n    "
      ++ refusal.toFault.message ++ "\n"
  | .fault cause => "Error: " ++ cause.message ++ "\n"
  | .unsupportedShader code =>
    "Error: shader output contains " ++ toString code.unsupported
      ++ " unsupported random draw(s): " ++ code.text ++ "\n"

/-- The signal of an expression. -/
def readExpression (expression : String) : Except Failure Signal :=
  match Formula.parse expression with
  | .ok e => .ok e
  | .error refusal => .error (.parse expression refusal)

/-- The texts that a command prints: its result, and a remark. -/
def perform (command : Command) (builder : Sampler.PoolBuilder := .inOrder) :
    Except Failure (String × String) :=
  match command with
  | eval expression time seed => do
    let e ← readExpression expression
    let (value, _) := e.eval time (SplitMix.ofSeed seed)
    .ok (String.ofList (value.text .plain) ++ "\n", "")
  | shader expression allowUnsupported => do
    let e ← readExpression expression
    let code := e.shader
    if code.isValid || allowUnsupported then .ok (code.text ++ "\n", "")
    else .error (.unsupportedShader code)
  | poly expression => do
    let e ← readExpression expression
    match Poly.ofSignal e with
    | .ok tree => .ok (tree.optimize.jsonText ++ "\n", "")
    | .error refused => .error (.fault refused.toFault)
  | sample expression first last steps seed parallel threads => do
    let e ← readExpression expression
    let options : Sampler.BatchOptions := { parallel, threads, seed }
    let batch := evenTimes first last steps >>= fun times =>
      e.compile.sampleBatch times options builder
    match batch with
    | .ok values =>
      .ok (Json.numbersText values ++ "\n",
        "sampled " ++ toString values.length ++ " point(s)\n")
    | .error refused => .error (.fault refused.toFault)

/-- What running the program leaves behind. -/
structure Outcome where
  /-- The exit code. -/
  exitCode : UInt8
  /-- The text on the standard output. -/
  output : String
  /-- The text on the standard error. -/
  report : String
deriving DecidableEq

/-- The version of the program. -/
def versionText : String := "varying 0.1.0\n"

/-- The outcome of running the program with a list of arguments. -/
def run (arguments : List String) (builder : Sampler.PoolBuilder := .inOrder) : Outcome :=
  match ofArguments arguments with
  | .error (.help text) => ⟨0, text, ""⟩
  | .error .version => ⟨0, versionText, ""⟩
  | .error (.usage error) =>
    ⟨2, "", "error: " ++ error.reason ++ "\n\nFor more information, try '--help'.\n"⟩
  | .ok command =>
    match command.perform builder with
    | .ok (output, remark) => ⟨0, output, remark⟩
    | .error failure => ⟨1, "", failure.report⟩

end Command

end TimeSignal
