import ScopedScript.Session
import ScopedScript.Text.Blank

/-!
# The prompt

At the prompt every line is run as a program of its own, apart from three commands:
`help`, `exit` and `EOF`.  A line counts as a command by the word it begins with.

## Main definitions

* `Command`, `Command.ofLine`: what a line asks for.
* `Session.respond`: the reply to a line.
* `converse`: the replies to all lines of an input.
-/

namespace ScopedScript

/-- What greets the user. -/
def greeting : String :=
  "Hello from beautiful Brooklyn, NY!\nGreenpoint interpreter :: Python backend\n" ++
    "Type 'help' for more information, 'exit' to leave.\n"

/-- What asks for a line. -/
def promptText : String := "» "

/-- What is said at the end. -/
def farewell : String := "Now leaving Brooklyn, fuggedaboutit\n"

/-- What `help` says. -/
def helpText : String :=
  "Welcome to the greenpoint interpreter!\n\n" ++
    "Greenpoint is a small dynamically-typed, C-like scripting language with first-class \n" ++
    "functions, closures and classes. Every line is run as a complete program, and globals \n" ++
    "persist from one line to the next.\n\n" ++
    "Try it out by typing 'var greeting = \"hello\";', then 'greeting + \" world\";'.\n"

/-- **What a line at the prompt asks for.** -/
inductive Command where
  | nothing
  | help
  | exit
  | endOfInput
  | code (source : String)
deriving DecidableEq

/-- What a line asks for.  Blanks around it do not count.  A question mark stands for the
command `help`, and the word that a line begins with decides whatever follows it. -/
def Command.ofLine (line : String) : Command :=
  let source := Text.trim line
  match source.toList with
  | [] => .nothing
  | '?' :: _ => .help
  | chars =>
    match String.ofList (chars.takeWhile isWordPart) with
    | "help" => .help
    | "exit" => .exit
    | "EOF" => .endOfInput
    | _ => .code source

/-- **The reply to a line**: what is printed, whether the conversation is over, and the
trouble that was passed on, if any. -/
structure Reply where
  output : String
  stop : Bool
  passedOn : Option Trouble
deriving DecidableEq

/-- A reply that only says something. -/
def Reply.say (output : String) : Reply := ⟨output, false, none⟩

/-- A reply that ends the conversation. -/
def Reply.leave (output : String) : Reply := ⟨output, true, none⟩

namespace Session

/-- Runs a line as a program and shows its value, if it has one. -/
def respondTo (session : Session) (source : String) : Reply × Session :=
  match run source session with
  | .ok value session =>
    let shown :=
      match value with
      | .nil => ""
      | value => value.text ++ "\n"
    let (printed, session) := session.takeOutput
    (.say (linesText printed ++ shown), session)
  | .error failure session =>
    let trouble := failure.trouble
    let (told, ending) := session.reporter.handle trouble
    let (printed, session) := session.takeOutput
    (⟨linesText printed ++ told, false, if ending = .raised then some trouble else none⟩,
      session)

/-- **The reply to a line** at the prompt. -/
def respond (session : Session) (line : String) : Reply × Session :=
  match Command.ofLine line with
  | .nothing => (.say "", session)
  | .help => (.say helpText, session)
  | .exit => (.leave farewell, session)
  | .endOfInput => (.leave ("\n" ++ farewell), session)
  | .code source => session.respondTo source

end Session

/-- Asks for one line after the other and replies, up to the line that ends the
conversation.  After the last line the input has ended.  Trouble that is passed on is
reported once more on the way out. -/
def converse (session : Session) : List String → String × Ending
  | [] => (promptText ++ (session.respond "EOF").1.output, .resumed)
  | line :: lines =>
    let (reply, session) := session.respond line
    let said := promptText ++ reply.output
    if reply.stop then (said, .resumed)
    else
      match reply.passedOn with
      | some trouble =>
        let (told, ending) := session.reporter.handle trouble
        (said ++ told, ending)
      | none =>
        let (rest, ending) := converse session lines
        (said ++ rest, ending)

end ScopedScript
