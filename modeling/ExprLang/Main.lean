import ExprLang.Command

namespace ExprLang

def clock : IO Nat := IO.monoMsNow

def decodeText (bytes : ByteArray) : Except ReadFault String :=
  match String.fromUTF8? bytes with
  | some text => .ok text
  | none => .error .invalidText

/-- The cause of a failed read; what is not a missing or a forbidden file keeps the system's words
and its number. -/
def readFault : IO.Error → ReadFault
  | .noFileOrDirectory .. => .notFound
  | .permissionDenied .. => .permissionDenied
  | .inappropriateType _ code details
  | .invalidArgument _ code details
  | .resourceExhausted _ code details
  | .otherError code details
  | .hardwareFault code details => .other s!"{details} (os error {code})"
  | e => .other (toString e)

partial def readAll (stream : IO.FS.Stream) (before : ByteArray) : IO ByteArray := do
  let more ← stream.read 65536
  if more.isEmpty then return before else readAll stream (before ++ more)

def readSource (path : String) : IO (Except ReadFault String) := do
  try
    if path == "-" then return decodeText (← readAll (← IO.getStdin) .empty)
    else return decodeText (← readAll (.ofHandle (← IO.FS.Handle.mk path .read)) .empty)
  catch e => return .error (readFault e)

def flush (w : World) : IO World := do
  let out ← IO.getStdout
  out.putStr w.output.text
  out.flush
  return ⟨w.store, w.output.clear, w.now⟩

partial def runMachine (cfg : Config) (m : Machine) : IO Machine.Finished := do
  match m.run cfg 1000 with
  | .done f => return f
  | .next m =>
    let w ← flush m.world
    runMachine cfg ⟨m.control, m.pending, m.depth, ⟨w.store, w.output, ← clock⟩⟩

def runSource (options : RunOptions) (path source : String) : IO Report := do
  let started ← clock
  match Command.start options source started with
  | .error report => return report
  | .ok m =>
    let f ← runMachine (Command.configOf options) m
    return Command.finish options path f ((← clock) - started)

def report (c : Command) : IO Report := do
  match c with
  | .report r => return r
  | .source path task =>
    match ← readSource path with
    | .error fault => return .error (fault.message path)
    | .ok source =>
      match task with
      | .run options => runSource options path source
      | .lex => return Command.lexReport path source
      | .parse => return Command.parseReport path source
      | .format => return Command.formatReport source

end ExprLang

def main (arguments : List String) : IO UInt32 := do
  let r ← ExprLang.report (ExprLang.Command.ofArguments arguments)
  (← IO.getStdout).putStr r.stdout
  (← IO.getStderr).putStr r.stderr
  return UInt32.ofNat r.status
