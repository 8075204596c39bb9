import ScopedScript.Prompt
import ScopedScript.Text.Utf8

/-!
# The command line

With a file the program runs it as a script, without one it opens the prompt.  Two flags
ask for the tokens and the trees to be shown.

## Main definitions

* `Options`, `Options.ofArgs`: what the arguments ask for.
* `runScript`, `runPrompt`, `runCommand`: what the program prints and how it ends.
-/

namespace ScopedScript

/-- **What the arguments ask for.** -/
structure Options where
  file : Option String
  showTokens : Bool
  showTrees : Bool
deriving DecidableEq

/-- The options with a name. -/
inductive Flag where
  | help
  | tokens
  | trees
deriving DecidableEq

/-- How the options are spelled. -/
def flagNames : List (String × Flag) :=
  [("-h", .help), ("--help", .help), ("--tokens", .tokens), ("--ast", .trees)]

/-- What a single argument is: an option, a file, the mark `--` after which only files
come, or none of these.  An option with something attached to it is malformed. -/
inductive Argument where
  | flag (flag : Flag)
  | file (name : String)
  | mark
  | malformed
  | ambiguous
  | unknown
deriving DecidableEq

/-- A text without the newline at its end, if it has one. -/
def dropFinalNewline (chars : List Char) : List Char :=
  if chars.getLast? = some '\n' then chars.dropLast else chars

/-- Whether a text is a minus sign and a plain number, on a line of its own or not. -/
def isNegativeNumber (arg : String) : Bool :=
  match dropFinalNewline arg.toList with
  | '-' :: rest =>
    match rest.dropWhile Text.isDecimal with
    | [] => !rest.isEmpty
    | '.' :: digits => !digits.isEmpty && digits.all Text.isDecimal
    | _ => false
  | _ => false

/-- The options that a text with two dashes abbreviates. -/
def abbreviated (name : String) : List Flag :=
  (flagNames.filter fun entry => name.toList.isPrefixOf entry.1.toList).map Prod.snd

/-- What an argument that begins with `-h` is.  Short options may stand together, and `h`
is the only one there is. -/
def classifyShort (attached : List Char) : Argument :=
  let letters :=
    match attached with
    | '=' :: letters => letters
    | letters => letters
  if !letters.isEmpty && letters.all (· == 'h') then .flag .help else .malformed

/-- What an argument that begins with a dash and is not spelled like an option is: an
abbreviated option, a file if it cannot be meant as an option, or unknown. -/
def classifyDashed (arg : String) : Argument :=
  let name := String.ofList (arg.toList.takeWhile (· != '='))
  let flags := if "--".toList.isPrefixOf arg.toList then abbreviated name else []
  match flags with
  | [flag] => if name = arg then .flag flag else .malformed
  | _ :: _ :: _ => .ambiguous
  | [] =>
    match arg.toList with
    | '-' :: 'h' :: attached => classifyShort attached
    | chars => if isNegativeNumber arg || chars.contains ' ' then .file arg else .unknown

/-- What an argument before `--` is. -/
def classify (arg : String) : Argument :=
  match arg.toList with
  | [] => .file arg
  | ['-'] => .file arg
  | '-' :: _ =>
    match flagNames.lookup arg with
    | some flag => .flag flag
    | none => classifyDashed arg
  | _ => .file arg

/-- Why the program ends before it starts: the help text was asked for, or the arguments
make no sense. -/
inductive Refusal where
  | help
  | usage
deriving DecidableEq

namespace Options

/-- Options without anything asked for. -/
def none : Options := ⟨Option.none, false, false⟩

/-- Takes the arguments one by one.  Malformed options end the program at once; what is
left over ends it when all arguments are taken.  The mark belongs to the file next to it,
and is left over if the file stands further up. -/
def take (options : Options) (leftover afterFile : Bool) :
    List Argument → Except Refusal Options
  | [] => if leftover then .error .usage else .ok options
  | .flag .help :: _ => .error .help
  | .flag .tokens :: rest => take { options with showTokens := true } leftover false rest
  | .flag .trees :: rest => take { options with showTrees := true } leftover false rest
  | .mark :: rest =>
    take options (leftover || (options.file.isSome && !afterFile)) false rest
  | .malformed :: _ => .error .usage
  | .ambiguous :: _ => .error .usage
  | .unknown :: rest => take options true false rest
  | .file name :: rest =>
    match options.file with
    | Option.none => take { options with file := some name } leftover true rest
    | some _ => take options true false rest

/-- The arguments as what they are.  After the first `--` every argument is a file. -/
def classifyAll (args : List String) : List Argument :=
  let before := (args.takeWhile (· != "--")).map classify
  match args.dropWhile (· != "--") with
  | [] => before
  | _ :: after => before ++ .mark :: after.map .file

/-- **What the arguments ask for.**  An ambiguous option is refused before anything else. -/
def ofArgs (args : List String) : Except Refusal Options :=
  let arguments := classifyAll args
  if arguments.contains .ambiguous then .error .usage else take none false false arguments

end Options

/-- What `--help` says. -/
def usageText : String :=
  "usage: greenpoint [-h] [--tokens] [--ast] [file]\n\npositional arguments:\n" ++
    "  file        script to run (if empty, goes to command-line mode)\n\noptions:\n" ++
    "  -h, --help  show this help message and exit\n" ++
    "  --tokens    print scanned tokens before running\n" ++
    "  --ast       print parsed statements before running\n"

/-! ## Scripts -/

/-- The wording of a decoding fault. -/
def Text.DecodeFault.message (fault : Text.DecodeFault) : String :=
  let place :=
    if fault.size = 1 then
      "byte 0x" ++ String.ofList (Nat.toDigits 16 fault.byte) ++ " in position " ++
        toString fault.offset
    else
      "bytes in position " ++ toString fault.offset ++ "-" ++
        toString (fault.offset + fault.size - 1)
  let reason :=
    match fault.reason with
    | .start => "invalid start byte"
    | .continuation => "invalid continuation byte"
    | .truncated => "unexpected end of data"
  "UnicodeDecodeError: 'utf-8' codec can't decode " ++ place ++ ": " ++ reason

/-- The text of a script: `content` is what its file holds, if it can be opened.  No file
has a NUL character in its name. -/
def scriptSource (path : String) (content : Option (List UInt8)) : Except Trouble String :=
  let refuse (message : String) : Except Trouble String :=
    .error (.report (.single (.plain .general message)))
  if path = promptPath then refuse ("'" ++ promptPath ++ "' is a reserved filename")
  else if path.toList.contains '\x00' then .error (.unknown "ValueError: embedded null byte")
  else
    match content with
    | none => refuse ("'" ++ path ++ "' could not be opened")
    | some bytes =>
      match Text.decode bytes with
      | .ok text => .ok (Text.unifyNewlines text)
      | .error fault => .error (.unknown fault.message)

/-- **Runs a script**: what is printed, and how the program ends. -/
def runScript (options : Options) (path : String) (content : Option (List UInt8))
    (color : Bool) (clock : Clock) : String × Ending :=
  let reporter := Reporter.new true color
  match scriptSource path content with
  | .error trouble => reporter.handle trouble
  | .ok source =>
    let session := Session.new reporter (some path) options.showTokens options.showTrees clock
    match Session.run source session with
    | .ok _ session => (linesText session.takeOutput.1, .resumed)
    | .error failure session =>
      let (said, ending) := session.reporter.handle failure.trouble
      (linesText session.takeOutput.1 ++ said, ending)

/-! ## The prompt and the whole program -/

/-- The lines of an input, where only a newline ends a line. -/
def splitInput : List Char → List (List Char)
  | [] => []
  | c :: rest =>
    if c = '\n' then [] :: splitInput rest
    else
      match splitInput rest with
      | [] => [[c]]
      | line :: lines => (c :: line) :: lines

/-- `splitInput` on text. -/
def inputLines (input : String) : List String := (splitInput input.toList).map String.ofList

/-- The session that the prompt starts with. -/
def promptSession (options : Options) (color : Bool) (clock : Clock) : Session :=
  Session.new (.new false color) none options.showTokens options.showTrees clock

/-- **Opens the prompt** on an input: what is printed, and how the program ends. -/
def runPrompt (options : Options) (input : String) (color : Bool) (clock : Clock) :
    String × Ending :=
  let (said, ending) := converse (promptSession options color clock) (inputLines input)
  (greeting ++ said, ending)

/-- **The whole program**: what is printed, and how it ends.  `file?` tells what a file
holds, if it can be opened. -/
def runCommand (args : List String) (file? : String → Option (List UInt8)) (input : String)
    (color : Bool) (clock : Clock) : String × Ending :=
  match Options.ofArgs args with
  | .error .help => (usageText, .exited 0)
  | .error .usage => ("", .exited 2)
  | .ok options =>
    match options.file with
    | some path => runScript options path (file? path) color clock
    | none => runPrompt options input color clock

end ScopedScript
