/-!
# Diagnostics

What every stage's faults come down to when they are shown: a category, a message, the
line if there is one, and the text that the fault is about.

## Main definitions

* `Category`: which stage a fault belongs to.
* `Diagnostic`: one fault, ready to be shown.  `Diagnostic.text` is its one-line form.
* `Report`: one diagnostic, or the batch of a stage that goes on after a fault.
-/

namespace ScopedScript

/-- **The categories of faults.**  A defect is a fault of the interpreter itself found
while a program runs. -/
inductive Category where
  | general
  | scan
  | parse
  | resolve
  | runtime
  | defect
deriving DecidableEq

/-- How a category is called in a report. -/
def Category.label : Category → String
  | .general => "error"
  | .scan => "scan error"
  | .parse => "parse error"
  | .resolve => "resolve error"
  | .runtime => "runtime error"
  | .defect => "runtime error"

/-- **A fault as it is shown.**  The subject is the text that the fault is about, empty
if there is none; `internal` marks what is not the program's own doing. -/
structure Diagnostic where
  category : Category
  message : String
  line : Option Int
  subject : String
  internal : Bool
deriving DecidableEq

namespace Diagnostic

/-- A diagnostic of the given category about `subject` on `line`. -/
def located (category : Category) (message : String) (line : Int) (subject : String) :
    Diagnostic :=
  ⟨category, message, some line, subject, false⟩

/-- A diagnostic that is about no line and no text. -/
def plain (category : Category) (message : String) : Diagnostic :=
  ⟨category, message, none, "", false⟩

/-- The one-line form: the line and the subject where there are any, then the
message. -/
def text (d : Diagnostic) : String :=
  let place :=
    match d.line with
    | some line => "[line " ++ toString line ++ "] "
    | none => ""
  let subject := if d.subject = "" then "" else d.subject ++ ": "
  place ++ subject ++ d.message

end Diagnostic

/-- **What is reported at once**: a single fault, or all faults of one pass. -/
inductive Report where
  | single (diagnostic : Diagnostic)
  | batch (diagnostics : List Diagnostic)
deriving DecidableEq

namespace Report

/-- The diagnostics of a report in order. -/
def diagnostics : Report → List Diagnostic
  | .single diagnostic => [diagnostic]
  | .batch diagnostics => diagnostics

/-- The one-line forms, one under the other. -/
def text (report : Report) : String :=
  String.intercalate "\n" (report.diagnostics.map Diagnostic.text)

/-- How the report's category is called: a batch by its first diagnostic. -/
def label : Report → String
  | .single diagnostic => diagnostic.category.label
  | .batch [] => Category.general.label
  | .batch (first :: _) => first.category.label

end Report

end ScopedScript
