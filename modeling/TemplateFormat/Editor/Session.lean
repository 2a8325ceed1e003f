import TemplateFormat.Editor.Params
import TemplateFormat.Editor.Uri
import TemplateFormat.Journal
import TemplateFormat.Layout.Document
import TemplateFormat.Settings.Find

/-!
# A session with an editor

An editor opens documents, changes and closes them, and asks for edits that
format one or a span of one.  The session keeps the text of every open
document; edits are computed from that text and never from the disk, on which
only settings are looked up.

A request is refused if its method is unknown, if the session is shut down, or
if its parameters are malformed, and these are looked at in this order.  After
`exit` the session is closed, and nothing is answered any more.
-/

namespace TemplateFormat.Editor

open TemplateFormat.Layout TemplateFormat.Storage

/-- The methods of the server. -/
inductive Method where
  | start
  | shutdown
  | exit
  | didOpen
  | didChange
  | didClose
  | formatting
  | rangeFormatting
  /-- A method that is answered and has no effect. -/
  | acknowledged
deriving DecidableEq, Repr

/-- The methods by their names. -/
def Method.table : List (String × Method) := [
  ("initialize", .start),
  ("shutdown", .shutdown),
  ("exit", .exit),
  ("textDocument/didOpen", .didOpen),
  ("textDocument/didChange", .didChange),
  ("textDocument/didClose", .didClose),
  ("textDocument/formatting", .formatting),
  ("textDocument/rangeFormatting", .rangeFormatting),
  ("initialized", .acknowledged),
  ("textDocument/didSave", .acknowledged),
  ("workspace/didChangeWatchedFiles", .acknowledged),
  ("workspace/didChangeConfiguration", .acknowledged),
  ("$/cancelRequest", .acknowledged)]

/-- The method of the given name. -/
def Method.ofName? (name : Text) : Option Method :=
  (Method.table.find? fun (known, _) => text known = name).map (·.2)

/-- What an editor asks for. -/
structure Request where
  method : Text
  params : Option Json := none

/-- Why a request is refused. -/
inductive Refusal where
  | methodNotFound
  | shutDown
  | invalidParams
deriving DecidableEq, Repr

/-- The number of a refusal. -/
def Refusal.code : Refusal → Int
  | .methodNotFound => -32601
  | .shutDown => -32600
  | .invalidParams => -32602

/-- The wording of a refusal. -/
def Refusal.message : Refusal → String
  | .methodNotFound => "method not found"
  | .shutDown => "server is shut down"
  | .invalidParams => "invalid params"

/-- What a request is answered with. -/
inductive Answer where
  | nothing
  /-- What the server can do. -/
  | capabilities
  | edits (edits : List Edit)
deriving DecidableEq, Repr

/-- A reply to a request. -/
abbrev Reply := Except Refusal Answer

/-- The state of a session: the texts of the open documents by their URIs,
whether it is shut down, and whether it is closed. -/
structure Session where
  documents : List (Text × Text) := []
  isShutDown : Bool := false
  isClosed : Bool := false

namespace Session

/-- The session with a document open. -/
def openDocument (s : Session) (uri content : Text) : Session :=
  { s with documents := (uri, content) :: s.documents.filter (·.1 != uri) }

/-- The session with a document closed. -/
def closeDocument (s : Session) (uri : Text) : Session :=
  { s with documents := s.documents.filter (·.1 != uri) }

/-- The settings for a document: those of its file, or the defaults if it has
none or they cannot be loaded. -/
def settings (ws : Workspace) (uri : Text) : Settings × Workspace :=
  match Uri.filePath? uri with
  | none => ({}, ws)
  | some path =>
    match Settings.forFile ws.disk path with
    | .ok c => (c, ws)
    | .error fault =>
      ({}, ws.log .server (text "config for " ++ uri ++ text ": " ++ fault.message))

/-- The options for a document: its settings, over them the editor's
indentation, and over both the indentation found in the document. -/
def options (ws : Workspace) (f : Formatting) (content : Text) : Option Options × Workspace :=
  let (c, ws) := settings ws f.uri
  let c := if 0 < f.tabSize then c.withIndent f.tabSize f.insertSpaces else c
  match c.options content with
  | .ok o => (some o, ws)
  | .error fault =>
    (none, ws.log .server (text "options for " ++ f.uri ++ text ": " ++ fault.message))

/-- The edits that format a part of a document: one that replaces the span, or
none if the part is formatted already. -/
def editsFor (ws : Workspace) (o : Options) (span : Span) (part : Text) : List Edit × Workspace :=
  match formatCompared o part with
  | .error fault => ([], ws.log .server (text "formatting error: " ++ fault.message))
  | .ok f => (if f.changed then [{ span, newText := f.content }] else [], ws)

/-- The edits that format the span of a document that `select` gives, with the
part of the text that the span has. -/
def formatPart (s : Session) (ws : Workspace) (f : Formatting) (unknown : String)
    (select : Text → Span × Text) : List Edit × Workspace :=
  match s.documents.lookup f.uri with
  | none => ([], ws.log .server (text unknown ++ text " unknown document " ++ f.uri))
  | some content =>
    match options ws f content with
    | (none, ws) => ([], ws)
    | (some o, ws) =>
      let (span, part) := select content
      editsFor ws o span part

/-- What a call of a method does, and its reply. -/
def call (s : Session) (ws : Workspace) (method : Method) (params : Option Json) :
    Reply × Session × Workspace :=
  let invalid : Reply × Session × Workspace := (.error .invalidParams, s, ws)
  match method with
  | .start => (.ok .capabilities, s, ws)
  | .shutdown => (.ok .nothing, { s with isShutDown := true }, ws)
  | .exit => (.ok .nothing, { s with isClosed := true }, ws.log .server (text "exiting"))
  | .acknowledged => (.ok .nothing, s, ws)
  | .didOpen =>
    match params.bind (Document.openReader {}) with
    | none => invalid
    | some d => (.ok .nothing, s.openDocument d.uri d.content, ws)
  | .didChange =>
    match params.bind (Changes.reader {}) with
    | none => invalid
    | some changes =>
      match changes.texts.getLast? with
      | none => invalid
      | some content => (.ok .nothing, s.openDocument changes.uri content, ws)
  | .didClose =>
    match params.bind (closeReader []) with
    | none => invalid
    | some uri => (.ok .nothing, s.closeDocument uri, ws)
  | .formatting =>
    match params.bind (Formatting.reader {}) with
    | none => invalid
    | some f =>
      let (edits, ws) := s.formatPart ws f "formatting" fun doc => (Span.whole doc, doc)
      (.ok (.edits edits), s, ws)
  | .rangeFormatting =>
    match params.bind (Formatting.spanReader {}) with
    | none => invalid
    | some f =>
      let (edits, ws) := s.formatPart ws f "range formatting" fun doc =>
        (f.span, f.span.slice doc)
      (.ok (.edits edits), s, ws)

/-- The reply to a request, before it is known whether the session is closed by
it. -/
def reply (s : Session) (ws : Workspace) (r : Request) : Reply × Session × Workspace :=
  let ws := ws.log .server (text "<- " ++ r.method)
  match Method.ofName? r.method with
  | none => (.error .methodNotFound, s, ws)
  | some method =>
    if s.isShutDown && method != .exit then (.error .shutDown, s, ws)
    else s.call ws method r.params

/-- Handles a request.  There is no reply once the session is closed. -/
def handle (s : Session) (ws : Workspace) (r : Request) : Option Reply × Session × Workspace :=
  if s.isClosed then (none, s, ws)
  else
    let (reply, s, ws) := s.reply ws r
    (if s.isClosed then none else some reply, s, ws)

end Session

end TemplateFormat.Editor
