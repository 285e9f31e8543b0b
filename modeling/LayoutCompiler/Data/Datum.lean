import LayoutCompiler.Data.Moment
/-!
# Data

What a data document holds, whichever format it is written in. Tables keep their entries in the
order in which they are written, and may have several with one key.
-/

namespace LayoutCompiler

/-- A piece of data. -/
inductive Datum where
  | null
  | bool (b : Bool)
  | number (text : String)
  | string (s : String)
  /-- A date, a time or both. -/
  | moment (m : Moment)
  | list (items : List Datum)
  | table (entries : List (String × Datum))

namespace Datum

/-- A whole number. -/
def nat (n : Nat) : Datum := number (toString n)

/-- A text, or nothing. -/
def optional : Option String → Datum
  | some s => string s
  | none => null

end Datum

/-- The formats of data documents. -/
inductive DataFormat where
  | toml
  | json
deriving Repr, DecidableEq

namespace DataFormat

/-- The name of a format. -/
def name : DataFormat → String
  | toml => "toml"
  | json => "json"

end DataFormat

end LayoutCompiler
