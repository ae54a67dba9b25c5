import PocketLisp.Interpreter
import PocketLisp.TextLines
import PocketLisp.CommandLine

/-!
# The program

The command line decides between help, a refusal, the run of a file and a conversation over the
input. A verbose run notes what it reads and evaluates apart from its output.
-/
namespace PocketLisp

def noteLabel : String := "DEBUG:minilisp.rep:"

/-- The notes on a line: text that was ignored, the form that was read, and its value. -/
def Transcript.notes (t : Transcript) : List String :=
  (if isBlankText t.ignored then []
    else [noteLabel ++ "ignoring text after first form: " ++ quotedText t.ignored ++ "\n"]) ++
  [noteLabel ++ "READ: " ++ t.form ++ "\n", noteLabel ++ "EVAL: " ++ t.value ++ "\n"]

def Reply.notes : Reply → List String
  | .value t => t.notes
  | .refusal _ => []

/-- The notes on a conversation, none unless it is verbose. -/
def Conversation.notes (c : Conversation) (verbose : Bool) : String :=
  if verbose then String.join (c.replies.flatMap Reply.notes) else ""

/-- What a run of the program comes to: an exit status or the fault that ended it, its output and
its notes. -/
structure Outcome where
  status : Except Fault Nat
  output : String
  notes : String

def Conversation.status (c : Conversation) : Except Fault Nat :=
  match c.fault with
  | some f => .error f
  | none => .ok 0

namespace Engine

/-- Runs a file of the given lines. Only the last answer is shown. -/
def runFile (e : Engine) (verbose : Bool) (lines : List String) : Run Outcome := do
  let c ← e.load (← Env.newSession) lines
  let output := match c.fault with
    | some _ => ""
    | none => c.last ++ "\n"
  return ⟨c.status, output, c.notes verbose⟩

def runInput (e : Engine) (verbose : Bool) (prompt : String) (lines : List String) :
    Run Outcome := do
  let c ← e.converse (← Env.newSession) lines
  return ⟨c.status, c.output verbose prompt, c.notes verbose⟩

/-- Runs the program on its arguments, with the lines of its input and of the files that there are.
A file without a name is no file. -/
def runProgram (e : Engine) (arguments : List String) (input : List String)
    (file : String → Except Fault (List String)) : Run Outcome :=
  match parseCommandLine arguments with
  | .error u => return ⟨.ok 2, "", u.report⟩
  | .ok .help => return ⟨.ok 0, helpText, ""⟩
  | .ok (.start options) =>
    match options.filename with
    | none => e.runInput options.verbose options.prompt input
    | some name =>
      if name.isEmpty then e.runInput options.verbose options.prompt input
      else match file name with
        | .error f => return ⟨.error f, "", ""⟩
        | .ok lines => e.runFile options.verbose lines

end Engine

end PocketLisp
