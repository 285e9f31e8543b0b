import LayoutCompiler.Command.Settings
import LayoutCompiler.Project.Compile
/-!
# Reports

What the program does for an invocation, and what it says about it.
-/

namespace LayoutCompiler.Command

/-- What the program says: lines, and perhaps why it failed. -/
structure Report where
  lines : List String := []
  failure : Option Failure := none

namespace Report

/-- The lines of a report that has come to its end. -/
def said (lines : List String) : Report := { lines }

/-- A report that ends in a failure. -/
def failed (lines : List String) (e : Failure) : Report := { lines, failure := some e }

/-! ## Listing rules -/

/-- An element rule in a listing. -/
def elementLine (r : ElementRule) : String :=
  let parent := match r.parent with
    | some parent => " : " ++ parent
    | none => ""
  let template := match r.template with
    | some b => " -> <" ++ b.name ++ ">"
    | none => ""
  s!"   {r.id}{parent}{template}  [{r.priority} predicates, {r.origin}]"

/-- An attribute rule in a listing. -/
def attributeLine (r : AttributeRule) : String :=
  let guard := match r.equals with
    | some expected => " = " ++ expected
    | none => ""
  s!"   {r.id} on {r.element} ({r.kind.name}{guard})  [{r.emit.length} emissions, {r.origin}]"

/-- The rules of a book as lines. -/
def listingLines (target : Target) (book : RuleBook) : List String :=
  let elements := book.elementRules
  let attributes := book.attributeRules
  let counts := s!"{elements.length} element rules, {attributes.length} attribute rules"
  ["📋 " ++ counts ++ " for " ++ target.name, "", "Elements:"] ++ elements.map elementLine ++
    ["", "Attributes:"] ++ attributes.map attributeLine

/-- The rules of a book as data. -/
def listingDatum (target : Target) (book : RuleBook) : Datum :=
  .record
    [("target", .string target.name),
     ("elements", .list (book.elementRules.map ElementRule.toDatum)),
     ("attributes", .list (book.attributeRules.map AttributeRule.toDatum))]

/-- The listing of the rules of a book. -/
def listing (format : ListingFormat) (target : Target) (book : RuleBook) : List String :=
  match format with
  | .text => listingLines target book
  | .json => [Json.write (listingDatum target book)]

/-! ## Answers about the program -/

/-- How the program is used. -/
def usage : String := "Usage: droidc [-c FILE] [-v] [translate DIR | check DIR | rules]"

/-- The answer to a question about the program. -/
def ofQuery : Query → Report
  | .help => said [usage]
  | .version => said [Output.generator]

/-! ## Results -/

/-- The lines about a project that has been compiled. -/
def compilationLines (s : Statistics) : List String :=
  (if s.failureCount = 0 then ["✅ Translation successful!"]
    else
      s!"⚠️  Translation finished with {s.failureCount} failed layout files" ::
        s.failures.map ("   ❌ " ++ ·)) ++
    [s!"   Layouts: {s.layouts} ({s.variants} files)", s!"   Files written: {s.files}",
     s!"   Time: {s.milliseconds}ms"]

/-- The share of layout files that did not fail, in percent, when there are layout files. -/
def successLines (α : Type) [Scalar α] (s : Statistics) : List String :=
  if s.fileTotal = 0 then []
  else
    let rate : α := Scalar.nat s.variants / Scalar.nat s.fileTotal * Scalar.nat 100
    ["   Success rate: " ++ (Scalar.exact rate).fixedText 1 ++ "%"]

/-- The lines about a project that has been checked. -/
def checkLines (α : Type) [Scalar α] (s : Statistics) : List String :=
  s.failures.map ("❌ " ++ ·) ++
    ["", "📊 Check Summary:", s!"   Layout files: {s.fileTotal}",
     s!"   Files with errors: {s.failureCount}"] ++
    successLines α s

/-- The report about a project that has been checked. -/
def ofCheck (α : Type) [Scalar α] (head : String) (s : Statistics) : Report :=
  let lines := head :: checkLines α s
  if s.failureCount = 0 then said (lines ++ ["✅ No issues found"])
  else failed lines (.format (.failedFiles s.failureCount s.fileTotal))

end Report

/-! ## Running -/

/-- Where output goes when nobody says. -/
def defaultOutput : String := "out"

section

variable {m : Type → Type} [Monad m] [Storage m] [Clock m]

/-- Compiles a project. -/
def runCompile (α : Type) [Scalar α] (root output : String) (options : Options)
    (printsStatistics : Bool) : m Report := do
  let head := s!"🔨 Translating {root} -> {output} ({options.target.name})"
  match ← (Project.compile α root (some output) options).run with
  | .error e => pure (.failed [head] e)
  | .ok s =>
    let statistics := if printsStatistics then [Json.write s.toDatum] else []
    pure (.said (head :: Report.compilationLines s ++ statistics))

/-- Checks a project. -/
def runCheck (α : Type) [Scalar α] (root : String) (options : Options) : m Report := do
  let head := "🔍 Checking " ++ root
  match ← (Project.compile α root none { options with failFast := false }).run with
  | .error e => pure (.failed [head] e)
  | .ok s => pure (.ofCheck α head s)

/-- Lists rules. -/
def runRules (format : ListingFormat) (options : Options) : m Report := do
  match ← (RuleBook.ofOptions options).run with
  | .error e => pure (.failed [] e)
  | .ok book => pure (.said (Report.listing format options.target book))

/-- Does something with the options that arguments and settings choose. -/
def withOptions (settings : Settings) (c : Choices) (act : Options → m Report) : m Report :=
  match settings.options c with
  | .error e => pure (.failed [] e)
  | .ok options => act options

/-- Does what is asked for, with settings. -/
def runTask (α : Type) [Scalar α] (settings : Settings) (i : Invocation) : m Report :=
  match i.task with
  | .nothing => pure (.said ["No subcommand specified. Use --help for usage information."])
  | .compile root output printsStatistics =>
    withOptions settings i.choices fun options =>
      runCompile α root ((output.or settings.output).getD defaultOutput) options printsStatistics
  | .check root => withOptions settings i.choices (runCheck α root)
  | .rules format => withOptions settings i.choices (runRules format)

/-- Does what is asked for. -/
def run (α : Type) [Scalar α] (i : Invocation) : m Report := do
  match i.settings with
  | none => runTask α {} i
  | some path =>
    match ← (Settings.load path).run with
    | .error e => pure (.failed [] e)
    | .ok settings => runTask α settings i

end

end LayoutCompiler.Command
