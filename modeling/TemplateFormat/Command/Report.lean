import TemplateFormat.Command.Verdict

/-!
# The report of a formatting run

A report is what is printed about the verdicts, in the order of the files, and
how many files failed or are not formatted.
-/

namespace TemplateFormat.Command

open TemplateFormat.Layout

/-- What a run prints about its files. -/
structure Report where
  output : Text := []
  errors : Text := []
  failed : Nat := 0
  unformatted : Nat := 0
deriving DecidableEq, Repr

namespace Report

/-- The report of one file after another. -/
def append (a b : Report) : Report where
  output := a.output ++ b.output
  errors := a.errors ++ b.errors
  failed := a.failed + b.failed
  unformatted := a.unformatted + b.unformatted

/-- A line on the output. -/
def line (label : String) (path : Text) : Report :=
  { output := text label ++ text ": " ++ path ++ text "\n" }

/-- A content on the output, under the path of its file if there are several. -/
def printed (isOnly : Bool) (path content : Text) : Report :=
  { output := (if isOnly then [] else text "<!-- " ++ path ++ text " -->\n") ++ content }

/-- The report of a file that should be formatted and is not. -/
def notFormatted (path : Text) : Report :=
  { errors := text "ERROR: " ++ path ++ text " is not formatted\n", unformatted := 1 }

/-- The report of one verdict; `isOnly` tells that there is no other. -/
def ofVerdict (mode : Mode) (verbose isOnly : Bool) (path : Text) : Verdict → Report
  | .failed fault => { errors := path ++ text ": " ++ fault.message ++ text "\n", failed := 1 }
  | .cached content =>
    if mode = .print then printed isOnly path content
    else if verbose then line "Cached" path
    else {}
  | .formatted result =>
    if mode = .print then printed isOnly path result.content
    else if result.changed then
      if mode = .check then notFormatted path else line "Formatted" path
    else if verbose then line "Unchanged" path
    else {}

/-- The report of all verdicts. -/
def ofVerdicts (mode : Mode) (verbose : Bool) (verdicts : List (Text × Verdict)) : Report :=
  verdicts.foldl (fun report (path, verdict) =>
    report.append (ofVerdict mode verbose (verdicts.length ≤ 1) path verdict)) {}

end Report

end TemplateFormat.Command
