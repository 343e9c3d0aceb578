import ExprLang.Command.RunOptions
import ExprLang.Expr.Parser
import ExprLang.Expr.Printer
import ExprLang.Session

namespace ExprLang

/-- What a command writes, and its exit status. -/
structure Report where
  status : Nat
  stdout : String
  stderr : String
deriving DecidableEq, Repr

/-- What to do with a source text. -/
inductive Task where
  | run (options : RunOptions)
  | lex
  | parse
  | format

inductive Command where
  /-- Nothing to read: the report is known. -/
  | report (r : Report)
  /-- A task for the text at a path; the path `-` is the standard input. -/
  | source (path : String) (task : Task)

/-- Why a source text cannot be read. -/
inductive ReadFault where
  | notFound
  | permissionDenied
  | invalidText
  | other (reason : String)
deriving DecidableEq, Repr

def ReadFault.message (path : String) : ReadFault → String
  | notFound => "cannot find file '" ++ path ++ "'"
  | permissionDenied => "permission denied reading '" ++ path ++ "'"
  | invalidText => "'" ++ path ++ "' contains invalid UTF-8 data"
  | other reason => "error reading '" ++ path ++ "': " ++ reason

namespace Report

def ok (stdout : String) : Report := ⟨0, stdout, ""⟩

def failure (stderr : String) : Report := ⟨1, "", stderr⟩

def error (message : String) : Report := failure ("error: " ++ message ++ "\n")

/-- An error of an evaluation: its message, its place and the calls that were under way. -/
def evalError (path : String) (e : EvalError) : String :=
  let place := match e.position with
    | some p => "  --> " ++ path ++ ":" ++ p.render ++ "\n"
    | none => ""
  let calls := e.backtrace.map fun a => "  " ++ a.describe ++ "\n"
  "error: " ++ e.message ++ "\n" ++ place ++ String.join calls

end Report

namespace Command

def usage : String := String.join (List.map (· ++ "\n") [
  "Weblang interpreter",
  "",
  "Usage: weblang <command> [options]",
  "",
  "Commands:",
  "  run <file|->       Evaluate a program (`-` reads stdin)",
  "  lex <file>         Tokenize and display tokens",
  "  parse <file>       Parse and display the program tree",
  "  fmt <file>         Print a program in canonical form",
  "  help               Show this help message",
  "  version            Show version information",
  "",
  "Run options:",
  "  --max-depth=<n>    Fail past <n> nested function calls",
  "  --time             Print total run time to stderr",
  "",
  "Environment:",
  "  RUST_LOG           Tracing filter, e.g. RUST_LOG=weblang_eval=trace",
  "  WEBLANG_LOG_TREE   Set to 1 for hierarchical trace output",
  "",
  "Examples:",
  "  weblang run fib.wl",
  "  echo 'println(fib(20))' | weblang run -",
  "  weblang run deep.wl --max-depth=10000"])

def version : String := "Weblang 0.1.0\n"

def onFile (name : String) (task : Task) : List String → Command
  | [] => .report (.failure ("Usage: weblang " ++ name ++ " <file>\n"))
  | path :: _ => .source path task

def run (arguments : List String) : Command :=
  match RunOptions.ofArguments arguments with
  | .error fault => .report (.error fault.message)
  | .ok options =>
    match options.path with
    | some path => .source path (.run options)
    | none =>
      .report (.failure ("error: missing file path\n" ++
        "Usage: weblang run <file|-> [--max-depth=<n>] [--time]\n"))

def ofArguments : List String → Command
  | [] => .report (.ok usage)
  | "run" :: arguments => run arguments
  | "lex" :: arguments => onFile "lex" .lex arguments
  | "parse" :: arguments => onFile "parse" .parse arguments
  | "fmt" :: arguments => onFile "fmt" .format arguments
  | name :: _ =>
    if ["help", "--help", "-h"].contains name then .report (.ok usage)
    else if ["version", "--version", "-V"].contains name then .report (.ok version)
    else .report ⟨1, usage, "Unknown command: " ++ name ++ "\n\n"⟩

def lexReport (path source : String) : Report :=
  match tokenize source with
  | .error e => .error e.message
  | .ok ts =>
    let lines := ts.map fun t =>
      "  " ++ t.position.render ++ " " ++ t.kind.label ++ " " ++ t.text ++ "\n"
    .ok ("Tokens for '" ++ path ++ "' (" ++ toString ts.length ++ " tokens):\n" ++
      String.join lines)

def statementCount : Expr → Nat
  | .block _ statements => statements.length
  | _ => 1

def parseReport (path source : String) : Report :=
  match ExprLang.parse source with
  | .error e => .error e.message
  | .ok program =>
    .ok ("Parse result for '" ++ path ++ "':\n  Statements: " ++
      toString (statementCount program) ++ "\n\n" ++ program.printProgram)

def formatReport (source : String) : Report :=
  match ExprLang.parse source with
  | .error e => .error e.message
  | .ok program => .ok program.printProgram

def configOf (options : RunOptions) : Config := ⟨.standard, options.limit⟩

/-- Starts a program in a session of its own, in a world with this time on the clock. -/
def start (options : RunOptions) (source : String) (now : Nat) : Except Report Machine :=
  match ExprLang.parse source with
  | .error e => .error (.error e.message)
  | .ok program =>
    .ok ((Session.new (configOf options) true ⟨.empty, .captured "", now⟩).evaluate program)

/-- The report of a run that has ended: the text printed and the value, unless that is `false`. -/
def finish (options : RunOptions) (path : String) (f : Machine.Finished) (elapsed : Nat) :
    Report :=
  let printed := f.world.output.text
  match f.result with
  | .error e => ⟨1, printed, Report.evalError path e⟩
  | .ok v =>
    let shown := match v with
      | .boolean false => ""
      | other => other.display.push '\n'
    ⟨0, printed ++ shown,
      if options.time then "Total: " ++ toString elapsed ++ "ms\n" else ""⟩

end Command

end ExprLang
