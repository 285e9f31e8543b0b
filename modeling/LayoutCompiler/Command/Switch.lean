import LayoutCompiler.Text.Split
/-!
# Switches

Reading the arguments of a command. A switch is given by its name behind two dashes or by its
letter behind one; letters can be given together. The value of a switch follows an equals sign, or
directly the letter, or is the next argument. Arguments that are no switches are operands, and two
dashes make operands of everything behind them.
-/

namespace LayoutCompiler.Command

/-- What can be asked about the program. -/
inductive Query where
  | help
  | version
deriving Repr, DecidableEq

/-- A switch of a command. -/
structure Switch where
  name : String
  letter : Option Char := none
  takesValue : Bool := false
  /-- Whether the switch can be given more than once. -/
  isRepeatable : Bool := false
  /-- What the switch asks about the program, which ends the reading. -/
  query : Option Query := none
  /-- The values that can be given. -/
  accepts : String → Bool := fun _ => true

/-- What ends the reading of arguments early. -/
inductive Halt where
  | invalid
  /-- A question about the program. -/
  | query (q : Query)
deriving Repr, DecidableEq

/-- The switches that have been given with their values, and the operands, in order. -/
structure Given where
  switches : List (String × String) := []
  operands : List String := []

namespace Given

/-- The values of a switch. -/
def values (g : Given) (name : String) : List String :=
  (g.switches.filter fun entry => entry.1 == name).map Prod.snd

/-- The value of a switch that can be given once. -/
def value? (g : Given) (name : String) : Option String := (g.values name).head?

/-- Whether a switch has been given. -/
def has (g : Given) (name : String) : Bool := !(g.values name).isEmpty

/-- One more switch with its value. -/
def give (g : Given) (s : Switch) (value : String) : Except Halt Given :=
  match s.query with
  | some q => .error (.query q)
  | none =>
    if (!s.isRepeatable && g.has s.name) || !s.accepts value then .error .invalid
    else .ok { g with switches := g.switches ++ [(s.name, value)] }

end Given

/-- Reads the letters behind a dash. A switch at the end may have to wait for its value. -/
def readLetters (known : List Switch) (g : Given) : List Char → Except Halt (Given × Option Switch)
  | [] => .ok (g, none)
  | c :: cs =>
    match known.find? fun s => s.letter == some c with
    | none => .error .invalid
    | some s =>
      if s.takesValue then
        match cs with
        | [] => .ok (g, some s)
        | '=' :: value => (g.give s (String.ofList value)).map fun g => (g, none)
        | value => (g.give s (String.ofList value)).map fun g => (g, none)
      else
        match g.give s "" with
        | .ok g => readLetters known g cs
        | .error halt => .error halt

/-- Reads what stands behind two dashes. The switch may have to wait for its value. -/
def readName (known : List Switch) (g : Given) (text : String) :
    Except Halt (Given × Option Switch) :=
  let (name, value) := match Text.splitOnce '=' text with
    | some (name, value) => (name, some value)
    | none => (text, none)
  match known.find? (·.name == name), value with
  | none, _ => .error .invalid
  | some s, some value =>
    if s.takesValue then (g.give s value).map fun g => (g, none) else .error .invalid
  | some s, none =>
    if s.takesValue then .ok (g, some s) else (g.give s "").map fun g => (g, none)

/-- Whether an argument is no switch. -/
def isOperand (argument : String) : Bool := !Text.leads "-" argument || argument == "-"

/-- Reads one argument that is a switch. -/
def readSwitch (known : List Switch) (g : Given) (argument : String) :
    Except Halt (Given × Option Switch) :=
  match Text.stripLead? "--" argument with
  | some text => readName known g text
  | none => readLetters known g (argument.toList.drop 1)

/-- Some more operands, of which there can be at most so many. -/
def Given.addOperands (g : Given) (most : Nat) (operands : List String) : Except Halt Given :=
  if g.operands.length + operands.length ≤ most then
    .ok { g with operands := g.operands ++ operands }
  else .error .invalid

/-- Reads arguments up to the first operand that is the name of a command. Hands back the command
with the arguments behind it, if there is one. There can be at most so many other operands. -/
def readArguments (known : List Switch) (isCommand : String → Bool) (most : Nat) :
    Given → List String → Except Halt (Given × Option (String × List String))
  | g, [] => .ok (g, none)
  | g, argument :: rest =>
    if argument = "--" then (g.addOperands most rest).map fun g => (g, none)
    else if isOperand argument then
      if isCommand argument then .ok (g, some (argument, rest))
      else
        match g.addOperands most [argument] with
        | .ok g => readArguments known isCommand most g rest
        | .error halt => .error halt
    else
      match readSwitch known g argument, rest with
      | .error halt, _ => .error halt
      | .ok (g, none), rest => readArguments known isCommand most g rest
      | .ok (_, some _), [] => .error .invalid
      | .ok (g, some s), value :: rest =>
        if isOperand value then
          match g.give s value with
          | .ok g => readArguments known isCommand most g rest
          | .error halt => .error halt
        else .error .invalid

end LayoutCompiler.Command
