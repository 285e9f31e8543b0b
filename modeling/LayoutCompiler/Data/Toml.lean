import LayoutCompiler.Data.TomlText
/-!
# TOML

Documents as tables under construction. A table can be written in several places as long as no
place repeats what another one has said: headers open a table once, points in keys only reach into
tables that points have made, and lists and tables within a line are complete where they end.
-/

namespace LayoutCompiler.Toml

/-- How a table came about. -/
inductive Making where
  /-- On the way to another table's header. -/
  | implied
  /-- By a header of its own. -/
  | opened
  /-- By a key with points. -/
  | dotted
deriving Repr, DecidableEq

/-- What a key of a table under construction stands for. -/
inductive Entry where
  | complete (d : Datum)
  | table (making : Making) (entries : List (String × Entry))
  /-- A list of tables with headers; the last one is open. -/
  | tables (done : List (List (String × Entry))) (last : List (String × Entry))

/-- The entries of a table. -/
abbrev Entries := List (String × Entry)

mutual

/-- The data of an entry. -/
def Entry.datum : Entry → Datum
  | .complete d => d
  | .table _ entries => .table (entriesData entries)
  | .tables done last => .list (tablesData done ++ [.table (entriesData last)])

/-- The data of entries. -/
def entriesData : List (String × Entry) → List (String × Datum)
  | [] => []
  | (key, entry) :: rest => (key, entry.datum) :: entriesData rest

/-- The data of several tables. -/
def tablesData : List (List (String × Entry)) → List Datum
  | [] => []
  | entries :: rest => .table (entriesData entries) :: tablesData rest

end

/-- The entries with one of them replaced, or added at the end. -/
def put (key : String) (entry : Entry) : Entries → Entries
  | [] => [(key, entry)]
  | (k, e) :: rest => if k = key then (k, entry) :: rest else (k, e) :: put key entry rest

/-- Changes the table at the end of a path of headers, which is made where it is missing. -/
def descend (change : Entries → Option Entries) : List String → Entries → Option Entries
  | [], entries => change entries
  | key :: path, entries =>
    match entries.lookup key with
    | none => do
      let inner ← descend change path []
      pure (put key (.table .implied inner) entries)
    | some (.table making inner) => do
      let inner ← descend change path inner
      pure (put key (.table making inner) entries)
    | some (.tables done last) => do
      let last ← descend change path last
      pure (put key (.tables done last) entries)
    | some (.complete _) => none

/-- Opens a table by its header: it may have been implied, but not written before. -/
def openTable (key : String) (entries : Entries) : Option Entries :=
  match entries.lookup key with
  | none => some (put key (.table .opened []) entries)
  | some (.table .implied inner) => some (put key (.table .opened inner) entries)
  | _ => none

/-- Opens one more table of a list by its header. -/
def openAnother (key : String) (entries : Entries) : Option Entries :=
  match entries.lookup key with
  | none => some (put key (.tables [] []) entries)
  | some (.tables done last) => some (put key (.tables (done ++ [last]) []) entries)
  | _ => none

/-- Writes a value at a key with points. The first key is a new one, or a table made by points;
`reached` says whether a point has been passed. -/
def assign (value : Datum) : List String → Entries → Option Entries
  | [], _ => none
  | [key], entries =>
    match entries.lookup key with
    | none => some (put key (.complete value) entries)
    | some _ => none
  | key :: path, entries =>
    match entries.lookup key with
    | none => do
      let inner ← assign value path []
      pure (put key (.table .dotted inner) entries)
    | some (.table .dotted inner) => do
      let inner ← assign value path inner
      pure (put key (.table .dotted inner) entries)
    | some (.table .implied inner) =>
      match path with
      | [_] => none
      | _ => do
        let inner ← assign value path inner
        pure (put key (.table .implied inner) entries)
    | some (.tables done last) =>
      match path with
      | [_] => none
      | _ => do
        let last ← assign value path last
        pure (put key (.tables done last) entries)
    | some _ => none

/-! ## Values -/

/-- What follows white space, line breaks and comments. -/
def dropTrivia : Nat → List Char → List Char
  | 0, cs => cs
  | steps + 1, cs =>
    let cs := comment (skip cs)
    match newline? cs with
    | some cs => dropTrivia steps cs
    | none => cs

mutual

/-- A value, and what follows it. Each step takes a character. -/
def value? : Nat → Nat → List Char → Option (Datum × List Char)
  | 0, _, _ => none
  | steps + 1, depth, cs =>
    match cs with
    | '"' :: _ | '\'' :: _ => (string? cs).map fun (s, cs) => (.string s, cs)
    | '[' :: cs =>
      if depth = 0 then none
      else (items? steps (depth - 1) cs).map fun (items, cs) => (.list items, cs)
    | '\x7b' :: cs =>
      if depth = 0 then none
      else match skip cs with
        | '\x7d' :: cs => some (.table [], cs)
        | cs => (pairs? steps (depth - 1) [] cs).map fun (entries, cs) =>
          (.table (entriesData entries), cs)
    | cs => scalar? cs

/-- The items of a list up to its end. A comma may follow the last one. -/
def items? : Nat → Nat → List Char → Option (List Datum × List Char)
  | 0, _, _ => none
  | steps + 1, depth, cs =>
    match dropTrivia cs.length cs with
    | ']' :: cs => some ([], cs)
    | cs => do
      let (item, cs) ← value? steps depth cs
      match dropTrivia cs.length cs with
      | ',' :: cs => (items? steps depth cs).map fun (items, cs) => (item :: items, cs)
      | ']' :: cs => pure ([item], cs)
      | _ => none

/-- The entries of a table within a line up to its end, after those read before. -/
def pairs? : Nat → Nat → Entries → List Char → Option (Entries × List Char)
  | 0, _, _, _ => none
  | steps + 1, depth, entries, cs => do
    let (path, cs) ← key? cs
    let '=' :: cs := skip cs | none
    let (value, cs) ← value? steps depth (skip cs)
    let entries ← assign value path entries
    match skip cs with
    | ',' :: cs => pairs? steps depth entries cs
    | '\x7d' :: cs => pure (entries, cs)
    | _ => none

end

/-! ## Documents -/

/-- The document so far: its entries, and the path of the header that is open. -/
structure Draft where
  entries : Entries := []
  path : List String := []

/-- A header after its first bracket, and what follows it. -/
def header? (d : Draft) (cs : List Char) : Option (Draft × List Char) := do
  let (isAnother, cs) := match cs with
    | '[' :: cs => (true, cs)
    | cs => (false, cs)
  let (path, cs) ← key? cs
  let last ← path.getLast?
  let change := if isAnother then openAnother last else openTable last
  let entries ← descend change path.dropLast d.entries
  match isAnother, skip cs with
  | true, ']' :: ']' :: cs => pure ({ entries, path }, cs)
  | false, ']' :: cs => pure ({ entries, path }, cs)
  | _, _ => none

/-- A key with its value, and what follows it. -/
def pair? (d : Draft) (cs : List Char) : Option (Draft × List Char) := do
  let (path, cs) ← key? cs
  let '=' :: cs := skip cs | none
  let (value, cs) ← value? (2 * cs.length + 2) maxDepth (skip cs)
  let entries ← descend (assign value path) d.path d.entries
  pure ({ d with entries }, cs)

/-- The lines of a document. Each step takes one line. -/
def lines? : Nat → Draft → List Char → Option Draft
  | 0, d, _ => some d
  | steps + 1, d, cs => do
    let (d, cs) ← match skip cs with
      | '[' :: cs => header? d cs
      | '#' :: cs => some (d, '#' :: cs)
      | [] => some (d, [])
      | '\n' :: cs => some (d, '\n' :: cs)
      | '\r' :: cs => some (d, '\r' :: cs)
      | cs => pair? d cs
    match comment (skip cs) with
    | [] => pure d
    | cs => (newline? cs).bind (lines? steps d)

/-- The data of a document; a byte order mark in front of it does not count. -/
def read? (text : String) : Option Datum :=
  let cs := text.toList
  let cs := if cs.head? == some '\uFEFF' then cs.drop 1 else cs
  (lines? (cs.length + 1) {} cs).map fun d => .table (entriesData d.entries)

end LayoutCompiler.Toml
