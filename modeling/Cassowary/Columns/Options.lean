import Cassowary.Columns
import Cassowary.Decimal.Reader

/-!
# Command-line options

An option is a name after two dashes. Some options take a value, after an equals sign or as the next
argument; a next argument that starts with a dash is an option of its own and no value. Every option
may be given once, and there are no arguments but options.

## Main definitions

* `Options` — what a command line asks for
* `Options.read?` — the options of a command line
-/

namespace Cassowary

/-- What a command line asks for. -/
structure Options where
  columns : Columns Float
  /-- The path of a document with settings. -/
  config : Option String
  /-- Whether to print the tableau. -/
  dump : Bool
  /-- Whether to print the counts. -/
  stats : Bool

namespace Options

/-- An option with the value it was given. -/
inductive Given where
  | flag (name : String)
  | valued (name value : String)
  deriving DecidableEq

/-- The name of an option. -/
def Given.name : Given → String
  | .flag name | .valued name _ => name

/-- The options that take a value. -/
def valuedNames : List String := ["width", "columns", "gap", "min-width", "drag", "config"]

/-- The options that take no value. -/
def flagNames : List String := ["dump", "stats"]

/-- Whether an argument cannot be the value of the option before it. -/
def startsOption (argument : String) : Bool := argument.startsWith "-" && argument ≠ "-"

/-- What an argument says after its two dashes: a name, and a value if there is an equals sign. -/
def splitName (text : List Char) : String × Option String :=
  match text.span (· ≠ '=') with
  | (name, []) => (String.ofList name, none)
  | (name, _ :: value) => (String.ofList name, some (String.ofList value))

/-- The options on a command line, unless it has anything else on it. -/
def given? : List String → Option (List Given)
  | [] => some []
  | argument :: rest => match argument.toList with
    | ['-', '-'] => if rest.isEmpty then some [] else none
    | '-' :: '-' :: text =>
      let (name, attached) := splitName text
      if name ∈ flagNames then
        if attached.isSome then none else (given? rest).map (.flag name :: ·)
      else if name ∈ valuedNames then match attached, rest with
        | some value, rest => (given? rest).map (.valued name value :: ·)
        | none, value :: rest =>
          if startsOption value then none else (given? rest).map (.valued name value :: ·)
        | none, [] => none
      else none
    | _ => none

/-- The value given for an option. -/
def valueOf (gs : List Given) (name : String) : Option String :=
  gs.findSome? fun
    | .valued n value => if n = name then some value else none
    | .flag _ => none

/-- The value given for an option as something else, or what stands for it if none is given. -/
def valueAs {β : Type} (gs : List Given) (name : String) (read? : String → Option β)
    (otherwise : β) : Option β :=
  match valueOf gs name with
  | some text => read? text
  | none => some otherwise

/-- The text of a path, which may not be empty. -/
def path? (text : String) : Option String := if text = "" then none else some text

/-- The options of a command line. -/
def read? (arguments : List String) : Option Options := do
  let gs ← given? arguments
  if !decide (gs.map (·.name)).Nodup then none
  let total ← valueAs gs "width" Decimal.readFloat? 80
  let count ← valueAs gs "columns" (Decimal.readNat? (1 <<< 32)) 3
  let gap ← valueAs gs "gap" Decimal.readFloat? 1
  let least ← valueAs gs "min-width" Decimal.readFloat? 10
  let drag ← valueAs gs "drag" (fun text => (Decimal.readFloat? text).map some) none
  let config ← valueAs gs "config" (fun text => (path? text).map some) none
  some
    { columns := ⟨count, total, gap, least, drag⟩
      config := config
      dump := .flag "dump" ∈ gs
      stats := .flag "stats" ∈ gs }

end Options

end Cassowary
