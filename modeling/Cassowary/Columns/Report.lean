import Cassowary.Columns.Options
import Cassowary.Decimal.Fixed

/-!
# The report on a split

What the program prints: a line for each column, then the tableau and the counts if they are asked
for. Nothing is printed when anything fails.

## Main definitions

* `Options.Failure` — why there is no report
* `Options.report` — the report, given the text of the settings
-/

namespace Cassowary

namespace Options

/-- Why there is no report. -/
inductive Failure where
  | noColumns
  | unreadable (path : String)
  | malformed (path : String)
  | unsolved (cause : SolverError)

/-- The text that tells of a failure. -/
def Failure.message : Failure → String
  | .noColumns => "Error: --columns must be at least 1"
  | .unreadable path => "Error: reading " ++ path
  | .malformed path => "Error: parsing " ++ path
  | .unsolved cause => "Error: " ++ cause.message

/-- Values are printed with two places. -/
def places : Nat := 2

/-- The line of a column. -/
def columnLine (s : Solver Float) (i : Nat) : String :=
  let value (x : Variable) : String := (s.read x).text (Decimal.writeFixed places)
  "column " ++ toString i ++ ": left = " ++ value (Columns.left i) ++ ", width = " ++
    value (Columns.width i) ++ "\n"

/-- The counts as a JSON object, a line for each. -/
def statsText (s : Stats) : String :=
  let field (name : String) (n : Nat) : String := "  \"" ++ name ++ "\": " ++ toString n
  let fields :=
    [field "constraints" s.constraints, field "rows" s.rows,
      field "edit_variables" s.editVariables, field "pivots" s.pivots,
      field "insertions" s.insertions, field "removals" s.removals,
      field "failures" s.failures]
  "\x7b\n" ++ String.intercalate ",\n" fields ++ "\n\x7d\n"

/-- The settings, given what can be read at the path that the options name. -/
def settings (o : Options) (file : Option String) : Except Failure (Config Float) :=
  match o.config, file with
  | none, _ => .ok .default
  | some path, none => .error (.unreadable path)
  | some path, some text => match Config.read? text with
    | some config => .ok config
    | none => .error (.malformed path)

/-- The report, given what can be read at the path that the options name. -/
def report (o : Options) (file : Option String) : Except Failure String := do
  if o.columns.count = 0 then throw .noColumns
  let config ← o.settings file
  match o.columns.solve config with
  | .error cause => throw (.unsolved cause)
  | .ok s =>
    let lines := (List.range o.columns.count).map (columnLine s)
    pure <| String.join lines ++ (if o.dump then s.dump Decimal.write else "") ++
      if o.stats then statsText s.stats else ""

end Options

end Cassowary
