import PocketLisp.QuotedText
import PocketLisp.ScriptDigits

/-!
# The command line

Every argument is classified first, so an ambiguous option is refused whatever else is there. Then
the arguments are acted on from left to right: a request for help is granted when it is reached.
Options may be abbreviated, carry their value after an equals sign, and single letters may be
written together. Two dashes end the options. The first argument that is no option names the file
to run; any other is unrecognized.
-/
namespace PocketLisp

inductive Flag where
  | help
  | verbose
  | prompt
  deriving DecidableEq, Repr

namespace Flag

def all : List Flag := [.help, .verbose, .prompt]

def letter : Flag → Char
  | .help => 'h'
  | .verbose => 'v'
  | .prompt => 'p'

def long : Flag → String
  | .help => "--help"
  | .verbose => "--verbose"
  | .prompt => "--prompt"

def label (f : Flag) : String :=
  "-" ++ String.singleton f.letter ++ "/" ++ f.long

def ofLetter? (c : Char) : Option Flag :=
  all.find? (fun f => f.letter = c)

def ofLong? (text : List Char) : Option Flag :=
  all.find? (fun f => f.long.toList = text)

def abbreviated (text : List Char) : List Flag :=
  all.filter (fun f => text.isPrefixOf f.long.toList)

end Flag

inductive UsageError where
  | ambiguous (argument : String) (candidates : List Flag)
  | missingValue (f : Flag)
  | ignoredValue (f : Flag) (value : String)
  | unrecognized (arguments : List String)
  deriving DecidableEq, Repr

def UsageError.message : UsageError → String
  | .ambiguous argument candidates =>
    "ambiguous option: " ++ argument ++ " could match " ++
      ", ".intercalate (candidates.map Flag.long)
  | .missingValue f => "argument " ++ f.label ++ ": expected one argument"
  | .ignoredValue f value =>
    "argument " ++ f.label ++ ": ignored explicit argument " ++ quotedText value
  | .unrecognized arguments => "unrecognized arguments: " ++ " ".intercalate arguments

inductive Argument where
  | plain (text : String)
  | dashes
  | option (f : Flag) (isLong : Bool) (attached : Option (List Char))
  | unknown (text : String)
  deriving DecidableEq, Repr

def splitAtEquals (text : List Char) : List Char × Option (List Char) :=
  (text.takeWhile (· ≠ '='), match text.dropWhile (· ≠ '=') with
    | [] => none
    | _ :: value => some value)

/-- Whether a text is a negative number, which is no option. A line feed may follow it. -/
def isNegativeNumber (text : List Char) : Bool :=
  match text with
  | '-' :: rest =>
    let number := if rest.getLast? = some '\n' then rest.dropLast else rest
    let whole := number.takeWhile isScriptDigit
    match number.dropWhile isScriptDigit with
    | [] => !whole.isEmpty
    | '.' :: fraction => !fraction.isEmpty && fraction.all isScriptDigit
    | _ => false
  | _ => false

/-- The class of a text that starts with a dash but is no option that there is. -/
def classifyStranger (text : List Char) : Argument :=
  if isNegativeNumber text || text.contains ' ' then .plain (String.ofList text)
  else .unknown (String.ofList text)

/-- The class of an argument before the two dashes that end the options. -/
def classifyArgument (text : List Char) : Except UsageError Argument :=
  match text with
  | '-' :: '-' :: _ =>
    let (name, attached) := splitAtEquals text
    match Flag.ofLong? text, Flag.ofLong? name, Flag.abbreviated name with
    | some f, _, _ => .ok (.option f true none)
    | none, some f, _ => .ok (.option f true attached)
    | none, none, [] => .ok (classifyStranger text)
    | none, none, [f] => .ok (.option f true attached)
    | none, none, candidates => .error (.ambiguous (String.ofList text) candidates)
  | '-' :: c :: rest =>
    match Flag.ofLetter? c, rest with
    | some f, [] => .ok (.option f false none)
    | some f, '=' :: value => .ok (.option f false (some value))
    | some f, value => .ok (.option f false (some value))
    | none, _ => .ok (classifyStranger text)
  | _ => .ok (.plain (String.ofList text))

/-- The classes of the arguments. After two dashes every argument is plain. -/
def classifyArguments : List String → Except UsageError (List Argument)
  | [] => .ok []
  | arg :: args =>
    if arg = "--" then .ok (.dashes :: args.map .plain)
    else match classifyArgument arg.toList with
      | .error e => .error e
      | .ok a => match classifyArguments args with
        | .error e => .error e
        | .ok more => .ok (a :: more)

/-- What follows the options without a value in one argument: nothing, the value of the prompt, or
a prompt whose value is the next argument. -/
inductive Ending where
  | nothing
  | prompt (value : String)
  | promptNext
  deriving DecidableEq, Repr

/-- The prompt of a value that is attached to its option. Two dashes are no value, and no value is
shown as an empty list. -/
def attachedPrompt (value : List Char) : String :=
  if value = ['-', '-'] then "[]" else String.ofList value

/-- The options of one argument, in order, and how it ends. Text attached to a letter without a
value consists of further letters. -/
def expandOption (f : Flag) (isLong : Bool) (text : List Char) :
    Except UsageError (List Flag × Ending) :=
  if f = .prompt then .ok ([], .prompt (attachedPrompt text))
  else match text with
    | [] => .error (.ignoredValue f "")
    | c :: rest =>
      if isLong then .error (.ignoredValue f (String.ofList text))
      else match Flag.ofLetter? c, rest with
        | none, _ => .error (.ignoredValue f (String.ofList text))
        | some .prompt, [] => .ok ([f], .promptNext)
        | some g, [] => .ok ([f, g], .nothing)
        | some g, d :: more => (expandOption g false (d :: more)).map (fun r => (f :: r.1, r.2))
termination_by text.length

def Argument.expand (f : Flag) (isLong : Bool) :
    Option (List Char) → Except UsageError (List Flag × Ending)
  | some text => expandOption f isLong text
  | none => if f = .prompt then .ok ([], .promptNext) else .ok ([f], .nothing)

structure Options where
  verbose : Bool
  prompt : String
  filename : Option String
  deriving DecidableEq, Repr

def Options.default : Options := ⟨false, "> ", none⟩

inductive Invocation where
  | help
  | start (options : Options)
  deriving DecidableEq, Repr

/-- Acts on classified arguments from left to right. The file is named once; `strangers` holds the
unrecognized arguments so far, latest first. -/
def actOn (options : Options) (strangers : List String) :
    List Argument → Except UsageError Invocation
  | [] =>
    if strangers.isEmpty then .ok (.start options)
    else .error (.unrecognized strangers.reverse)
  | .plain text :: .dashes :: args =>
    if options.filename.isNone then actOn { options with filename := some text } strangers args
    else actOn options ("--" :: text :: strangers) args
  | .plain text :: args =>
    if options.filename.isNone then actOn { options with filename := some text } strangers args
    else actOn options (text :: strangers) args
  | .dashes :: .plain text :: args =>
    if options.filename.isNone then actOn { options with filename := some text } strangers args
    else actOn options (text :: "--" :: strangers) args
  | .dashes :: args =>
    if options.filename.isNone then actOn options strangers args
    else actOn options ("--" :: strangers) args
  | .unknown text :: args => actOn options (text :: strangers) args
  | .option f isLong attached :: args =>
    match Argument.expand f isLong attached with
    | .error e => .error e
    | .ok (flags, ending) =>
      let started := { options with verbose := options.verbose || flags.contains .verbose }
      match ending, args with
      | .promptNext, .plain value :: args =>
        if flags.contains .help then .ok .help
        else actOn { started with prompt := value } strangers args
      | .promptNext, _ => .error (.missingValue .prompt)
      | .prompt value, args =>
        if flags.contains .help then .ok .help
        else actOn { started with prompt := value } strangers args
      | .nothing, args =>
        if flags.contains .help then .ok .help else actOn started strangers args

def parseCommandLine (arguments : List String) : Except UsageError Invocation :=
  match classifyArguments arguments with
  | .error e => .error e
  | .ok args => actOn .default [] args

def usage : String :=
  "usage: minilisp [-h] [-v] [-p PROMPT] [filename]\n"

def UsageError.report (e : UsageError) : String :=
  usage ++ "minilisp: error: " ++ e.message ++ "\n"

def helpText : String :=
  usage ++ "\n" ++
  "Minimal Lisp\n" ++
  "\n" ++
  "positional arguments:\n" ++
  "  filename              File to run, one form per line\n" ++
  "\n" ++
  "options:\n" ++
  "  -h, --help            show this help message and exit\n" ++
  "  -v, --verbose         Verbose error messages and logging\n" ++
  "  -p PROMPT, --prompt PROMPT\n" ++
  "                        Prompt shown by the repl\n"

end PocketLisp
