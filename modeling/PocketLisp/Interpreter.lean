import PocketLisp.Evaluation

/-!
# The interpreter

An interpreter answers lines: it reads the first form of a line, evaluates it in its global
environment and writes the value. A misuse that stops the evaluation becomes the answer to the
line; any other fault stops the interpreter too.
-/
namespace PocketLisp

/-- What became of a line: the text after its first form, and the written forms of what was read
and of its value. -/
structure Transcript where
  ignored : String
  form : String
  value : String
  deriving DecidableEq, Repr

inductive Reply where
  | value (t : Transcript)
  | refusal (message : String)
  deriving DecidableEq, Repr

def Reply.text : Reply → String
  | .value t => t.value
  | .refusal message => "ERROR: " ++ message

/-- Stands for the trace that follows a refusal in a verbose answer. -/
def traceMark : String := "<traceback>"

def Reply.line (verbose : Bool) : Reply → String
  | .value t => t.value ++ "\n"
  | .refusal message =>
    "ERROR: " ++ message ++ (if verbose then "\n" ++ traceMark else "") ++ "\n"

/-- The answers to some lines, and the fault that stopped the interpreter, if one did. -/
structure Conversation where
  replies : List Reply
  fault : Option Fault
  deriving DecidableEq, Repr

/-- What a conversation looks like: a prompt before each line and before the end. -/
def Conversation.output (c : Conversation) (verbose : Bool) (prompt : String) : String :=
  prompt ++ String.join (c.replies.map (fun r => r.line verbose ++ prompt))

/-- The last answer of a conversation, `nil` if there was none. -/
def Conversation.last (c : Conversation) : String :=
  match c.replies.getLast? with
  | some r => r.text
  | none => "nil"

def readText (env : Env) (text : String) : Run Value := do
  let (form, _) ← read env.table text.toList
  return form

def holdsNull (line : String) : Bool :=
  line.toList.contains '\x00'

/-- Adds a line to the history of the input, which ends a text at a null character and so takes no
line with one. The lines that it takes are not looked at again. -/
def remember (line : String) : Run Unit :=
  if holdsNull line then Run.fault .nullCharacter else return ⟨⟩

/-- Answers lines one after the other up to the first fault. -/
def answerLines (answer : String → Run Reply) : List String → Run Conversation
  | [] => return ⟨[], none⟩
  | line :: lines => do
    match ← (answer line).attempt with
    | .ok r =>
      let c ← answerLines answer lines
      return ⟨r :: c.replies, c.fault⟩
    | .error f => return ⟨[], some f⟩

namespace Engine

def transcribe (e : Engine) (env : Env) (text : String) : Run Transcript := do
  let (form, rest) ← read env.table text.toList
  let formText ← Run.look (·.print form)
  let value ← e.eval form env
  let valueText ← Run.look (·.print value)
  return ⟨String.ofList rest, formText, valueText⟩

def evalText (e : Engine) (env : Env) (text : String) : Run Value := do
  let form ← readText env text
  e.eval form env

def rep (e : Engine) (env : Env) (text : String) : Run String := do
  return (← e.transcribe env text).value

def reply (e : Engine) (env : Env) (line : String) : Run Reply := do
  match ← (e.transcribe env line).attempt with
  | .ok t => return .value t
  | .error (.misuse operand as) => return .refusal (as.message operand)
  | .error f => Run.fault f

/-- The answer to a line of the input, which goes to the history first. -/
def replyToInput (e : Engine) (env : Env) (line : String) : Run Reply := do
  remember line
  e.reply env line

def converse (e : Engine) (env : Env) (lines : List String) : Run Conversation :=
  answerLines (e.replyToInput env) lines

/-- Answers the lines of a file. Lines that hold nothing but white space are skipped, and none goes
to the history. -/
def load (e : Engine) (env : Env) (lines : List String) : Run Conversation :=
  answerLines (e.reply env) (lines.filter (fun line => !isBlankText line))

end Engine

end PocketLisp
