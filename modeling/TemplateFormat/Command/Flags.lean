import TemplateFormat.Text.Quoted

/-!
# Flags of a command line

A flag is an argument that starts with one or two dashes.  A switch stands
alone or has a truth value behind an equals sign; a flag with a value has it
behind an equals sign or in the next argument.  Flags end at the first argument
that is none, or behind a bare `--`.  A flag given twice counts as given last.

`Flags.parse` reads the flags of a table, and `Flags.usage` describes them.
-/

namespace TemplateFormat.Command

/-- What a flag takes. -/
inductive Flag.Kind where
  | switch (isOn : Bool)
  | value
deriving DecidableEq, Repr

/-- A flag that a command knows; a switch with its state when it is not
given. -/
structure Flag where
  name : String
  kind : Flag.Kind
  summary : String
deriving DecidableEq, Repr

namespace Flags

/-- Why flags are refused. -/
inductive Fault where
  | badSyntax (argument : Text)
  | unknown (name : Text)
  | missingValue (name : Text)
  | badTruth (value name : Text)
  /-- Nothing is wrong, but a description was asked for. -/
  | helpRequested
deriving DecidableEq, Repr

/-- The wording of a refusal. -/
def Fault.message : Fault → Text
  | .badSyntax argument => text "bad flag syntax: " ++ argument
  | .unknown name => text "flag provided but not defined: -" ++ name
  | .missingValue name => text "flag needs an argument: -" ++ name
  | .badTruth value name =>
    text "invalid boolean value " ++ value.quoted ++ text " for -" ++ name ++ text ": parse error"
  | .helpRequested => text "flag: help requested"

/-- What an argument is. -/
inductive Argument where
  | operand
  /-- The bare `--`. -/
  | stop
  | malformed
  | flag (name : Text) (value : Option Text)
deriving DecidableEq, Repr

/-- What follows the dashes of a flag. -/
def Argument.ofBody (body : Text) : Argument :=
  if body.isEmpty || body.startsWith (text "-") || body.startsWith (text "=") then .malformed
  else
    let (name, value) := body.cut (.char '=')
    .flag name value

/-- What an argument is, as it is written. -/
def Argument.ofText (s : Text) : Argument :=
  match Text.after? (text "--") s, Text.after? (text "-") s with
  | some body, _ => if body.isEmpty then .stop else .ofBody body
  | none, some body => if body.isEmpty then .operand else .ofBody body
  | none, none => .operand

/-- What a flag was set to. -/
inductive Setting where
  | truth (b : Bool)
  | value (s : Text)
deriving DecidableEq, Repr

/-- The flags that were given, the latest first, and the arguments behind
them. -/
structure Parsed where
  settings : List (String × Setting) := []
  operands : List Text := []
deriving DecidableEq, Repr

/-- The words for truth values. -/
def truth? (s : Text) : Option Bool :=
  if ["1", "t", "T", "true", "TRUE", "True"].any (text · = s) then some true
  else if ["0", "f", "F", "false", "FALSE", "False"].any (text · = s) then some false
  else none

/-- The fault of a flag that is not in the table. -/
def unknownFault (name : Text) : Fault :=
  if name = text "help" || name = text "h" then .helpRequested else .unknown name

/-- Reads flags, behind those that are set already. -/
def parseFrom (table : List Flag) (settings : List (String × Setting)) :
    List Text → Except Fault Parsed
  | [] => .ok { settings }
  | arg :: rest =>
    match Argument.ofText arg with
    | .operand => .ok { settings, operands := arg :: rest }
    | .stop => .ok { settings, operands := rest }
    | .malformed => .error (.badSyntax arg)
    | .flag name value =>
      match table.find? (text ·.name = name) with
      | none => .error (unknownFault name)
      | some flag =>
        match flag.kind, value with
        | .switch _, none => parseFrom table ((flag.name, .truth true) :: settings) rest
        | .switch _, some v =>
          match truth? v with
          | some b => parseFrom table ((flag.name, .truth b) :: settings) rest
          | none => .error (.badTruth v name)
        | .value, some v => parseFrom table ((flag.name, .value v) :: settings) rest
        | .value, none =>
          match rest with
          | [] => .error (.missingValue name)
          | v :: rest => parseFrom table ((flag.name, .value v) :: settings) rest

/-- Reads the flags at the start of a command line. -/
def parse (table : List Flag) (args : List Text) : Except Fault Parsed := parseFrom table [] args

/-- Whether a switch is on; `otherwise` is its state when it is not given. -/
def Parsed.isOn (p : Parsed) (name : String) (otherwise : Bool) : Bool :=
  match p.settings.lookup name with
  | some (.truth b) => b
  | _ => otherwise

/-- The value of a flag; empty when it is not given. -/
def Parsed.valueOf (p : Parsed) (name : String) : Text :=
  match p.settings.lookup name with
  | some (.value s) => s
  | _ => []

/-- The description of a flag.  Only that of a switch of one letter stands on the
line of its name. -/
def describe (flag : Flag) : Text :=
  let head := match flag.kind with
    | .switch _ => text "  -" ++ text flag.name
    | .value => text "  -" ++ text flag.name ++ text " string"
  let gap := if head.length ≤ 4 then text "\t" else text "\n    \t"
  let default := if flag.kind = .switch true then text " (default true)" else []
  head ++ gap ++ text flag.summary ++ default ++ text "\n"

/-- The description of the flags of a command. -/
def usage (command : Text) (table : List Flag) : Text :=
  text "Usage of " ++ command ++ text ":\n" ++ table.flatMap describe

/-- What is printed for flags that are refused: what is wrong, and the
description of the flags. -/
def complaint (command : Text) (table : List Flag) (fault : Fault) : Text :=
  (if fault = .helpRequested then [] else fault.message ++ text "\n") ++ usage command table

end Flags

end TemplateFormat.Command
