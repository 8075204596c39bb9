import ScopedScript.Diagnostic
import ScopedScript.Text.Lines
import ScopedScript.Text.Style

/-!
# Reporting

Diagnostics are shown with the place they are about, and below them the source line with
the offending text marked.  A reporter knows the source that is being run, whether to use
colours, and whether the first report ends the program.

## Main definitions

* `Reporter`: the source being run and the manner of reporting.
* `Reporter.location`, `Reporter.diagnosis?`, `Reporter.describe`: the parts of a report.
* `Trouble`, `Ending`, `Reporter.handle`: what is done about trouble.
* `exitCode`: the code that a report ends the program with.

## Main results

* `findText?_spec`: the marked text stands where it is marked.
-/

namespace ScopedScript

/-- How a source without a name is called. -/
def promptPath : String := "<in>"

/-- **A reporter**: whether a report ends the program, whether to use colours, and the
path and the lines of the source being run. -/
structure Reporter where
  fatal : Bool
  color : Bool
  path : Option String
  lines : List String

/-- Where `text` first stands in a list of characters. -/
def findText? (text : List Char) : List Char → Option Nat
  | [] => if text.isEmpty then some 0 else none
  | c :: rest =>
    if text.isPrefixOf (c :: rest) then some 0 else (findText? text rest).map (· + 1)

/-- The text found at a position stands there. -/
theorem findText?_spec {text chars : List Char} {start : Nat}
    (h : findText? text chars = some start) : text <+: chars.drop start := by
  induction chars generalizing start with
  | nil =>
    simp only [findText?] at h
    split at h
    · rename_i he
      rw [List.isEmpty_iff.1 he]
      exact List.nil_prefix
    · cases h
  | cons c rest ih =>
    simp only [findText?] at h
    split at h
    · rename_i hp
      cases h
      exact List.isPrefixOf_iff_prefix.1 hp
    · obtain ⟨before, hb, rfl⟩ := Option.map_eq_some_iff.1 h
      exact ih hb

namespace Reporter

/-- A reporter that knows no source yet. -/
def new (fatal color : Bool) : Reporter := ⟨fatal, color, none, []⟩

/-- Makes a source the one being run. -/
def register (reporter : Reporter) (path : Option String) (source : String) : Reporter :=
  { reporter with path := path, lines := Text.lines source }

/-- A line of the source being run, counted from one. -/
def sourceLine? (reporter : Reporter) (line : Int) : Option String :=
  if 0 < line then reporter.lines[line.toNat - 1]? else none

/-- How the source being run is called: an empty path counts as none. -/
def pathText (reporter : Reporter) : String :=
  match reporter.path with
  | some path => if path = "" then promptPath else path
  | none => promptPath

/-- The place that a diagnostic is about. -/
def location (reporter : Reporter) (d : Diagnostic) : String :=
  let line :=
    match d.line with
    | some line => ":" ++ toString line
    | none => ""
  Text.styled reporter.color .bold (reporter.pathText ++ line ++ ": ")

/-- A line with the text from `start` on marked, and a caret below it. -/
def marked (reporter : Reporter) (line : List Char) (start size : Nat) : String :=
  let alert (chars : List Char) := Text.styled reporter.color .alert (String.ofList chars)
  "  " ++ String.ofList (line.take start) ++ alert ((line.drop start).take size) ++
    String.ofList (line.drop (start + size)) ++ "\n" ++
    "  " ++ String.ofList (List.replicate start ' ') ++
    alert ('^' :: List.replicate (size - 1) '~')

/-- The source line that a diagnostic is about, with its subject marked where it first
stands in the line. -/
def diagnosis? (reporter : Reporter) (d : Diagnostic) : Option String := do
  let line ← reporter.sourceLine? (← d.line)
  let start? := if d.subject = "" then none else findText? d.subject.toList line.toList
  match start? with
  | some start => reporter.marked line.toList start d.subject.length
  | none => "  " ++ line

/-- A diagnostic as it is reported, with the source line below it unless it is internal. -/
def describe (reporter : Reporter) (d : Diagnostic) : String :=
  let alert := Text.styled reporter.color .alert
  let head := reporter.location d ++ (if d.internal then alert "[internal] " else "") ++
    alert (d.category.label ++ ": ") ++ d.message ++ "\n"
  match if d.internal then none else reporter.diagnosis? d with
  | some diagnosis => head ++ diagnosis ++ "\n"
  | none => head

/-- All diagnostics of a report in order. -/
def showReport (reporter : Reporter) (report : Report) : String :=
  String.join (report.diagnostics.map reporter.describe)

end Reporter

/-- **The code that a report ends the program with**: 65 for what is found before a
program runs, 70 for what is found while it runs, 1 for anything else. -/
def exitCode : Report → Nat
  | .batch _ => 65
  | .single d =>
    match d.category with
    | .scan | .parse | .resolve => 65
    | .runtime | .defect => 70
    | .general => 1

/-- **What can come out of running a program** instead of a result: a report, an
interruption, evaluation nested too deep, or something that no one foresaw. -/
inductive Trouble where
  | report (told : Report)
  | interrupted
  | tooDeep
  | unknown (description : String)
deriving DecidableEq

/-- The wording for evaluation that nests too deep. -/
def depthMessage : String := "maximum recursion depth exceeded"

/-- What is reported about trouble. -/
def Trouble.toReport : Trouble → Report
  | .report told => told
  | .interrupted => .single (.plain .general "keyboard interrupt")
  | .tooDeep => .single (.plain .runtime depthMessage)
  | .unknown description =>
    .single ⟨.general, "unknown error: '" ++ description ++ "'", none, "", true⟩

/-- **How a program ends** or goes on after trouble. -/
inductive Ending where
  | resumed
  | exited (code : Nat)
  | raised
deriving DecidableEq

/-- **Reports trouble**, and tells how the program goes on.  What no one foresaw is passed
on after it is reported. -/
def Reporter.handle (reporter : Reporter) (trouble : Trouble) : String × Ending :=
  let report := trouble.toReport
  (reporter.showReport report,
    if reporter.fatal then .exited (exitCode report)
    else
      match trouble with
      | .unknown _ => .raised
      | _ => .resumed)

end ScopedScript
