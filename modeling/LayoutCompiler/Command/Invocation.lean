import LayoutCompiler.Command.Switch
import LayoutCompiler.Target
/-!
# Invocations

The commands of the program, and how they are asked for.
-/

namespace LayoutCompiler.Command

/-- What is chosen for a compilation by arguments. -/
structure Choices where
  target : Option Target := none
  rulePaths : List String := []
  /-- Texts for whole paths, each a key, an equals sign and a text. -/
  definitions : List String := []
  theme : Option String := none
  failFast : Bool := false
deriving Repr, DecidableEq

/-- The ways of listing rules. -/
inductive ListingFormat where
  | text
  | json
deriving Repr, DecidableEq

/-- What the program is asked to do. -/
inductive Task where
  /-- To compile the layouts of a resource folder, and perhaps to print statistics. -/
  | compile (root : String) (output : Option String) (printsStatistics : Bool)
  /-- To compile without writing anything, and to report the layouts that fail. -/
  | check (root : String)
  /-- To list the rules in use. -/
  | rules (format : ListingFormat)
  | nothing
deriving Repr, DecidableEq

/-- What the program is asked for. -/
structure Invocation where
  /-- The file with settings. -/
  settings : Option String := none
  task : Task
  choices : Choices := {}
deriving Repr, DecidableEq

namespace Invocation

/-! ## Switches -/

/-- The switch that asks for help. -/
def helpSwitch : Switch := { name := "help", letter := some 'h', query := some .help }

/-- The switch for a target. -/
def targetSwitch : Switch :=
  { name := "target", letter := some 't', takesValue := true
    accepts := fun text => (Target.names.lookup text).isSome }

/-- The switch for rule documents. -/
def rulesSwitch : Switch :=
  { name := "rules", letter := some 'R', takesValue := true, isRepeatable := true }

/-- The formats of listings by name. -/
def listingFormats : List (String × ListingFormat) := [("text", .text), ("json", .json)]

/-- The switches in front of a command. -/
def programSwitches : List Switch :=
  [{ name := "config", letter := some 'c', takesValue := true },
   { name := "verbose", letter := some 'v', isRepeatable := true }, helpSwitch,
   { name := "version", letter := some 'V', query := some .version }]

/-- What can be given to a command. -/
structure CommandForm where
  switches : List Switch
  /-- How many operands there can be. -/
  operands : Nat

/-- The commands by name. -/
def commands : List (String × CommandForm) :=
  [("translate",
    { switches :=
        [{ name := "output", letter := some 'o', takesValue := true }, targetSwitch, rulesSwitch,
         { name := "define", letter := some 'D', takesValue := true, isRepeatable := true },
         { name := "theme", takesValue := true }, { name := "fail-fast" }, { name := "stats" },
         helpSwitch]
      operands := 1 }),
   ("check", { switches := [targetSwitch, rulesSwitch, helpSwitch], operands := 1 }),
   ("rules",
    { switches :=
        [targetSwitch, rulesSwitch,
         { name := "format", letter := some 'f', takesValue := true
           accepts := fun text => (listingFormats.lookup text).isSome },
         helpSwitch]
      operands := 0 })]

/-! ## Reading -/

/-- The choices among what has been given to a command. -/
def choicesOf (g : Given) : Choices :=
  { target := (g.value? "target").bind fun text => Target.names.lookup text
    rulePaths := g.values "rules"
    definitions := g.values "define"
    theme := g.value? "theme"
    failFast := g.has "fail-fast" }

/-- The task of a command with what has been given to it. -/
def taskOf (command : String) (g : Given) : Except Halt Task :=
  match command, g.operands with
  | "translate", [root] => .ok (.compile root (g.value? "output") (g.has "stats"))
  | "check", [root] => .ok (.check root)
  | "rules", [] =>
    let format := (g.value? "format").bind fun text => listingFormats.lookup text
    .ok (.rules (format.getD .text))
  | _, _ => .error .invalid

/-- The command that explains the others. -/
def helpCommand : String := "help"

/-- What arguments ask for. -/
def read (arguments : List String) : Except Halt Invocation := do
  let isCommand (name : String) : Bool := name == helpCommand || (commands.lookup name).isSome
  let (program, command) ← readArguments programSwitches isCommand 0 {} arguments
  -- Switches of the program are not known behind a command.
  let settings := program.value? "config"
  match command with
  | none => pure { settings, task := .nothing }
  | some (name, rest) =>
    match commands.lookup name with
    | none => throw (.query .help)
    | some form =>
      let (given, _) ← readArguments form.switches (fun _ => false) form.operands {} rest
      pure { settings, task := ← taskOf name given, choices := choicesOf given }

end Invocation

end LayoutCompiler.Command
