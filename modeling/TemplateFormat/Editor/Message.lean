import TemplateFormat.Editor.Session

/-!
# Messages between an editor and the server

A message is a JSON object.  One with an `id` asks for a reply, which carries
the same `id`; one without is a notification.  `Message.ofJson?` reads a
message, and `Message.replyJson` writes a reply.
-/

namespace TemplateFormat.Editor

/-- A request with the id its reply is to carry; a notification has none. -/
structure Message where
  id : Option Json := none
  request : Request

/-- The value of the last member of the given name. -/
def Json.member? (name : String) : Json → Option Json
  | .object members => (members.reverse.find? fun (n, _) => n = text name).map (·.2)
  | _ => none

/-- An object with the given members. -/
def Json.ofMembers (members : List (String × Json)) : Json :=
  .object (members.map fun (name, value) => (text name, value))

/-- Reads a message. -/
def Message.ofJson? (j : Json) : Option Message :=
  match j.member? "method" with
  | some (.string method) =>
    some { id := j.member? "id", request := { method, params := j.member? "params" } }
  | _ => none

/-- A position as a message holds it. -/
def Position.toJson (p : Position) : Json :=
  .ofMembers [("line", .ofInt p.line), ("character", .ofInt p.character)]

/-- An edit as a message holds it. -/
def Edit.toJson (e : Edit) : Json :=
  .ofMembers [
    ("range", .ofMembers [("start", e.span.start.toJson), ("end", e.span.stop.toJson)]),
    ("newText", .string e.newText)]

/-- What the server can do: it is sent whole documents, and formats documents
and spans of them. -/
def capabilitiesJson : Json :=
  .ofMembers [("capabilities", .ofMembers [
    ("textDocumentSync", .ofMembers [("openClose", .bool true), ("change", .ofInt 1)]),
    ("documentFormattingProvider", .bool true),
    ("documentRangeFormattingProvider", .bool true)])]

/-- An answer as a message holds it. -/
def Answer.toJson : Answer → Json
  | .nothing => .null
  | .capabilities => capabilitiesJson
  | .edits list => .array (list.map Edit.toJson)

/-- The member of a reply that tells how the request went. -/
def Reply.outcome : Reply → String × Json
  | .ok answer => ("result", answer.toJson)
  | .error refusal =>
    ("error", .ofMembers [
      ("code", .ofInt refusal.code),
      ("message", .string (text refusal.message))])

/-- The reply to the request with the given id. -/
def Message.replyJson (id : Json) (reply : Reply) : Json :=
  .ofMembers [("id", id), Reply.outcome reply, ("jsonrpc", .string (text "2.0"))]

/-- Handles a message, and returns what is sent back, if anything. -/
def Session.receive (s : Session) (ws : Workspace) (m : Message) :
    Option Json × Session × Workspace :=
  let (reply, s, ws) := s.handle ws m.request
  (match m.id, reply with
    | some id, some reply => some (Message.replyJson id reply)
    | _, _ => none, s, ws)

end TemplateFormat.Editor
