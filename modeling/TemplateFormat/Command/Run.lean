import TemplateFormat.Command.Flags
import TemplateFormat.Command.Report
import TemplateFormat.Command.Selection

/-!
# Running a command

`start` runs a command line on a workspace.  A command that formats, reports or
explains is done at once; the language server is only started, and goes on with
the messages of the editor.

The first argument is the command.  With no paths, templates are formatted from
the input to the output, or in the working directory if there is no input.
-/

namespace TemplateFormat.Command

open TemplateFormat.Layout TemplateFormat.Storage

/-- The version of the program. -/
def version : String := "0.1.0"

/-- What the program prints about itself. -/
def usageLines : List String := [
  "ngfmt - formatter for HTML templates with control blocks and interpolations",
  "",
  "Usage:",
  "  ngfmt <command> [options] [path...]",
  "",
  "Commands:",
  "  fmt         Format template files (stdin to stdout when no paths are given)",
  "  check       Report files that are not formatted",
  "  lsp         Start the language server (for editor integration)",
  "  version     Print version information",
  "  help        Show this help message",
  "",
  "Options:",
  "  -check        Check formatting without modifying files",
  "  -stdout       Print formatted output to stdout",
  "  -cache FILE   Skip files already recorded as formatted in FILE",
  "  -v            Verbose output",
  "",
  "Configuration:",
  "  Settings are read from the nearest .ngfmt.yaml or .ngfmt.yml above each",
  "  file. Set NGFMT_LOG to a file path to write debug logs.",
  "",
  "Examples:",
  "  ngfmt fmt ./...                   Recursively format all .html files",
  "  ngfmt fmt -check ./...            Check formatting without modifying",
  "  ngfmt fmt -stdout page.html       Print formatted output to stdout",
  "  ngfmt fmt -cache .ngfmt.db ./...  Skip unchanged files between runs",
  "  ngfmt lsp                         Start LSP server on stdio",
  "  ngfmt lsp -log /tmp/ngfmt.log     Start with debug logging"]

/-- What the program prints about itself, as one text. -/
def usage : Text := usageLines.flatMap fun l => text l ++ text "\n"

/-- The name that the settings for the input are looked up by. -/
def inputName : Text := text "<stdin>"

/-- Why a run fails. -/
inductive Fault where
  | noCommand
  | unknownCommand (name : Text)
  | journal (fault : Journal.OpenFault)
  | flags (fault : Flags.Fault)
  | checkAndPrint
  | selection (fault : Selection.Fault)
  | noTemplates
  | cache (fault : Cache.OpenFault)
  /-- The input cannot be formatted. -/
  | input (fault : FileFault)
  | inputNotFormatted
  | filesFailed (count : Nat)
  | filesNotFormatted (count : Nat)
deriving DecidableEq, Repr

/-- The wording of a fault. -/
def Fault.message : Fault → Text
  | .noCommand => text "no command given"
  | .unknownCommand name => text "unknown command: " ++ name
  | .journal fault => fault.message
  | .flags fault => fault.message
  | .checkAndPrint => text "--check and --stdout are mutually exclusive"
  | .selection fault => fault.message
  | .noTemplates => text "no template files found"
  | .cache fault => fault.message
  | .input fault => fault.message
  | .inputNotFormatted => text "not formatted"
  | .filesFailed count => Text.ofNat count ++ text " file(s) had errors"
  | .filesNotFormatted count => Text.ofNat count ++ text " file(s) not formatted"

/-- What a run leaves behind. -/
structure Outcome where
  output : Text := []
  errors : Text := []
  fault : Option Fault := none
  workspace : Workspace

/-- How a run starts. -/
inductive Start where
  /-- It is done already. -/
  | done (outcome : Outcome)
  /-- It serves an editor from now on. -/
  | serving (workspace : Workspace)

/-- A call of the program: its arguments, its input unless that is a terminal, and
the path of a log file, which may be empty. -/
structure Invocation where
  args : List Text
  input : Option Text := none
  logPath : Text := []

/-- The flags of the commands that format. -/
def formattingFlags (isCheck : Bool) : List Flag := [
  ⟨"cache", .value, "Skip files recorded as formatted in this cache database"⟩,
  ⟨"check", .switch isCheck, "Report unformatted files without modifying them"⟩,
  ⟨"stdout", .switch false, "Print formatted output instead of rewriting files"⟩,
  ⟨"v", .switch false, "Verbose output"⟩]

/-- The flags of the language server. -/
def serverFlags : List Flag := [⟨"log", .value, "Path to log file for debugging"⟩]

/-- What a formatting command is asked for. -/
structure Order where
  command : Text
  mode : Mode
  verbose : Bool
  cachePath : Text
  paths : List Text

/-- Reads what a formatting command is asked for. -/
def Order.ofFlags (command : Text) (isCheck : Bool) (p : Flags.Parsed) : Except Fault Order :=
  let check := p.isOn "check" isCheck
  let print := p.isOn "stdout" false
  if check && print then .error .checkAndPrint
  else .ok {
    command
    mode := if check then .check else if print then .print else .inPlace
    verbose := p.isOn "v" false
    cachePath := p.valueOf "cache"
    paths := p.operands }

/-- A run that fails without having printed anything. -/
def Outcome.failed (ws : Workspace) (fault : Fault) : Outcome :=
  { fault := some fault, workspace := ws }

/-- What becomes of an input that was formatted. -/
def Outcome.ofInput (mode : Mode) (ws : Workspace) (result : Formatted) : Outcome :=
  if mode = .check then
    if result.changed then
      { errors := (Report.notFormatted inputName).errors, fault := some .inputNotFormatted
        workspace := ws }
    else { workspace := ws }
  else { output := result.content, workspace := ws }

/-- Formats the input. -/
def formatInput (order : Order) (st : State) (input : Text) : Outcome :=
  match st.settingsFor inputName with
  | (.error fault, st) => .failed st.workspace (.input (.settings fault))
  | (.ok c, st) =>
    match c.options input with
    | .error fault => .failed st.workspace (.input (.options fault))
    | .ok o =>
      match formatCompared o input with
      | .error fault => .failed st.workspace (.input (.layout fault))
      | .ok result => .ofInput order.mode st.workspace result

/-- The outcome of a run with the given report. -/
def Outcome.ofReport (ws : Workspace) (report : Report) : Outcome where
  output := report.output
  errors := report.errors
  fault :=
    if 0 < report.failed then some (.filesFailed report.failed)
    else if 0 < report.unformatted then some (.filesNotFormatted report.unformatted)
    else none
  workspace := ws

/-- What the journal says when files are selected. -/
def Order.summary (order : Order) (count : Nat) : Text :=
  order.command ++ text ": " ++ Text.ofNat count ++ text " file(s), mode " ++
    Text.ofNat order.mode.number

/-- Formats the files that paths select. -/
def formatFiles (order : Order) (st : State) (paths : List Text) : Outcome :=
  match Selection.select st paths with
  | (.error fault, st) => .failed st.workspace (.selection fault)
  | (.ok files, st) =>
    if files.isEmpty then .failed st.workspace .noTemplates
    else
      let st := st.log .debug (order.summary files.length)
      match st.openCache order.cachePath with
      | .error fault => .failed st.workspace (.cache fault)
      | .ok st =>
        let (verdicts, st) := Verdict.ofFiles order.mode st files
        .ofReport st.workspace (.ofVerdicts order.mode order.verbose verdicts)

/-- Runs a formatting command. -/
def runFormatting (command : Text) (isCheck : Bool) (inv : Invocation) (ws : Workspace)
    (args : List Text) : Outcome :=
  let table := formattingFlags isCheck
  match Flags.parse table args with
  | .error fault =>
    { errors := Flags.complaint command table fault, fault := some (.flags fault)
      workspace := ws }
  | .ok parsed =>
    match Order.ofFlags command isCheck parsed with
    | .error fault => .failed ws fault
    | .ok order =>
      match order.paths, inv.input with
      | [], some input => formatInput order { workspace := ws } input
      | [], none => formatFiles order { workspace := ws } [Path.here]
      | paths, _ => formatFiles order { workspace := ws } paths

/-- Starts the language server. -/
def startServer (ws : Workspace) (args : List Text) : Start :=
  match Flags.parse serverFlags args with
  | .error fault =>
    .done { errors := Flags.complaint (text "lsp") serverFlags fault, fault := some (.flags fault)
            workspace := ws }
  | .ok parsed =>
    match ws.logToGiven (parsed.valueOf "log") with
    | .error fault => .done (.failed ws (.journal fault))
    | .ok ws => .serving (ws.log .server (text "starting on stdio"))

/-- Runs a command. -/
def dispatch (inv : Invocation) (ws : Workspace) (command : Text) (args : List Text) : Start :=
  if command = text "fmt" then .done (runFormatting command false inv ws args)
  else if command = text "check" then .done (runFormatting command true inv ws args)
  else if command = text "lsp" then startServer ws args
  else if command = text "version" then
    .done { output := text "ngfmt version " ++ text version ++ text "\n", workspace := ws }
  else if ["help", "-h", "--help"].any (text · = command) then
    .done { output := usage, workspace := ws }
  else .done { output := usage, fault := some (.unknownCommand command), workspace := ws }

/-- Starts a run. -/
def start (inv : Invocation) (ws : Workspace) : Start :=
  match inv.args with
  | [] => .done { output := usage, fault := some .noCommand, workspace := ws }
  | command :: args =>
    match ws.logToGiven inv.logPath with
    | .error fault => .done (.failed ws (.journal fault))
    | .ok ws => dispatch inv ws command args

end TemplateFormat.Command
