import PocketLisp.Program

/-!
# The executable

Reads the command line, files and the input, and writes what the program answers. A conversation is
answered line by line.
-/
namespace PocketLisp

/-- The engine of the executable. No run that fits the machine reaches its bounds. -/
def mainEngine : Engine := .core 1000000000 1000000000

def reportStop (stop : Stop) : IO UInt32 := do
  let text := match stop with
    | .fault f => (f.message?).getD "the file cannot be read"
    | .exhausted => "the bounds of the run are exhausted"
  IO.eprintln text
  return 1

def readFileLines (name : String) : IO (Except Fault (List String)) := do
  try
    let bytes ← IO.FS.readBinFile name
    match decodeLines? bytes with
    | some lines => return .ok lines
    | none => return .error .undecodable
  catch _ => return .error .missingFile

def converseOn (options : Options) (env : Env) : List String → Store → IO (Except Stop Store)
  | [], s => return .ok s
  | line :: lines, s => do
    match mainEngine.replyToInput env line s with
    | .error stop _ => return .error stop
    | .ok r s =>
      if options.verbose then IO.eprint (String.join r.notes)
      IO.print (r.line options.verbose ++ options.prompt)
      (← IO.getStdout).flush
      converseOn options env lines s

/-- Answers the lines of the input until it ends. -/
partial def converseOnInput (options : Options) (env : Env) (s : Store) : IO UInt32 := do
  let text ← (← IO.getStdin).getLine
  if text.isEmpty then return 0
  match ← converseOn options env (inputLines text) s with
  | .ok s => converseOnInput options env s
  | .error stop => reportStop stop

def writeOutcome (x : Run Outcome) : IO UInt32 := do
  match x Store.empty with
  | .error stop _ => reportStop stop
  | .ok o _ =>
    IO.eprint o.notes
    IO.print o.output
    match o.status with
    | .ok status => return status.toUInt32
    | .error f => reportStop (.fault f)

def runMain (arguments : List String) : IO UInt32 := do
  match parseCommandLine arguments with
  | .ok (.start options) =>
    match options.filename.filter (fun name => !name.isEmpty) with
    | some name =>
      let lines ← readFileLines name
      writeOutcome (mainEngine.runProgram arguments [] (fun _ => lines))
    | none =>
      match Env.newSession Store.empty with
      | .error stop _ => reportStop stop
      | .ok env s =>
        IO.print options.prompt
        (← IO.getStdout).flush
        converseOnInput options env s
  | _ => writeOutcome (mainEngine.runProgram arguments [] (fun _ => .error .missingFile))

end PocketLisp

def main (arguments : List String) : IO UInt32 :=
  PocketLisp.runMain arguments
