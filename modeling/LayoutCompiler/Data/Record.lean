import LayoutCompiler.Data.Datum
import LayoutCompiler.SortedMap
/-!
# Records

Reading typed values out of data. A record is a table with named fields, or a list of its first
fields in order. A choice is the name of one of its cases, or a table with that name and nothing in
it. Where a table is expected, a moment is one with a single entry.
-/

namespace LayoutCompiler

/-- The result of reading a typed value, or the reason why there is none. -/
abbrev Decoding (β : Type) := Except String β

/-- The fields of a record that are present. -/
structure Fields where
  present : List (String × Datum)

namespace Datum

/-- A table with its entries in order of their keys. -/
def record (fields : List (String × Datum)) : Datum := table (SortedMap.ofList fields).entries

/-! ## Plain values -/

/-- A text. -/
def asText : Datum → Decoding String
  | string s => .ok s
  | _ => .error "a text is expected"

/-- A truth value. -/
def asBool : Datum → Decoding Bool
  | bool b => .ok b
  | _ => .error "a truth value is expected"

/-- A list. -/
def asList {β : Type} (read : Datum → Decoding β) : Datum → Decoding (List β)
  | list items => items.mapM read
  | _ => .error "a list is expected"

/-- The key of the one entry that a moment has as a table. -/
def momentKey : String := "$__toml_private_datetime"

/-- The entries of what is a table, or can stand for one: a moment has its text at a key that is
kept for it. -/
def entries? : Datum → Option (List (String × Datum))
  | table entries => some entries
  | moment m => some [(momentKey, string m.text)]
  | _ => none

/-- A map; of several entries with one key the last counts. -/
def asMap {β : Type} (read : Datum → Decoding β) (d : Datum) : Decoding (SortedMap β) :=
  match d.entries? with
  | some entries =>
    entries.foldlM (fun m (key, d) => (read d).map fun v => m.insert key v) SortedMap.empty
  | none => .error "a table is expected"

/-- Whether what stands behind the name of a case is nothing. -/
def isNothing (format : DataFormat) : Datum → Bool
  | null => format == .json
  | list items => format == .toml && items.isEmpty
  | table entries => format == .toml && entries.isEmpty
  | _ => false

/-- One of several cases. -/
def asChoice {β : Type} (format : DataFormat) (cases : List (String × β)) :
    Datum → Decoding β
  | string name => named name
  | table [(name, behind)] =>
    if isNothing format behind then named name else .error "a case has no content"
  | _ => .error "a case is expected"
where
  /-- The case with a name. -/
  named (name : String) : Decoding β :=
    match cases.lookup name with
    | some value => .ok value
    | none => .error "no such case"

/-- The fields of a record with these names. Fields with other names are refused when the record is
`strict`, and dropped when it is not. No field may be given twice. -/
def asFields (format : DataFormat) (strict : Bool) (names : List String) (d : Datum) :
    Decoding Fields :=
  match d with
  | list items =>
    -- TOML passes over what follows the last field.
    if format == .json && names.length < items.length then .error "too many fields"
    else .ok ⟨names.zip items⟩
  | d =>
    match d.entries? with
    | some entries =>
      let known := entries.filter fun e => names.contains e.1
      if strict && known.length != entries.length then .error "a field is unknown"
      else if names.any fun name => 1 < (known.filter fun e => e.1 == name).length then
        .error "a field is repeated"
      else .ok ⟨known⟩
    | none => .error "a record is expected"

end Datum

namespace Fields

variable {β : Type}

/-- A field that must be present. -/
def required (fs : Fields) (name : String) (read : Datum → Decoding β) : Decoding β :=
  match fs.present.lookup name with
  | some d => read d
  | none => .error "a field is missing"

/-- A field with a value for when it is missing. -/
def withDefault (fs : Fields) (name : String) (value : β) (read : Datum → Decoding β) :
    Decoding β :=
  match fs.present.lookup name with
  | some d => read d
  | none => .ok value

/-- A field that may be missing, or null. -/
def optional (fs : Fields) (name : String) (read : Datum → Decoding β) : Decoding (Option β) :=
  match fs.present.lookup name with
  | some .null => .ok none
  | some d => (read d).map some
  | none => .ok none

end Fields

end LayoutCompiler
