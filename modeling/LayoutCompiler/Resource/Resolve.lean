import LayoutCompiler.Resource.Lookup
import LayoutCompiler.Resource.Raw
/-!
# Resolution

From raw resources to a table. Each definition is resolved once, when it is first needed, and kept;
the keys whose resolution is under way are on a stack, and meeting one of them again is a cycle.

A step of resolution answers one look-up, given the answers to those that it makes (`step`). Steps
are nested as deep as the references in definitions go (`lookUpWithin`).
-/

namespace LayoutCompiler

/-- What has been resolved, and the keys under resolution, outermost first. -/
structure Resolution (α : Type) where
  table : ResourceTable α
  visiting : List String := []

/-- A step of resolution. -/
abbrev Resolve (α β : Type) := ExceptT Failure (StateM (Resolution α)) β

/-- The answers to look-ups. -/
abbrev Answers (α : Type) := (l : Lookup) → Resolve α (l.Answer α)

namespace Resolve

variable {α β δ : Type}

/-! ## The stack and the table -/

/-- Does a step with a key on the stack, and takes the key off whatever comes of the step. -/
def under (key : String) (step : Resolve α β) : Resolve α β := fun s =>
  if s.visiting.contains key then
    (.error (.reference ("@" ++ key) (.circular (s.visiting ++ [key]))), s)
  else
    let (result, s') := step { s with visiting := s.visiting ++ [key] }
    (result, { s' with visiting := s'.visiting.dropLast })

/-- Follows one reference through the theme, with its text on the stack. -/
def throughTheme (raw : RawResources α) (text : String) (follow : String → Resolve α β) :
    Resolve α β := do
  let target ← Theme.attribute? raw.styles (← get).table.theme text
  -- The key is the text itself, so two spellings of one entry are two keys.
  under (Text.dropLeading '?' text) (follow target)

/-- The answer that the table holds, or else that of a step. -/
def recalled (l : Lookup) (otherwise : Resolve α (l.Answer α)) : Resolve α (l.Answer α) := do
  match (← get).table.answer? l with
  | some v => pure v
  | none => otherwise

/-- Keeps an answer in the table. -/
def keep (l : Lookup) (v : l.Answer α) : Resolve α Unit :=
  modify fun s => { s with table := s.table.store l v }

/-- Resolves the definition of a name, with its key on the stack, and keeps what comes of it. -/
def defined (l : Lookup) (kind : ResourceKind) (name : String) (definition : Option δ)
    (resolve : δ → Resolve α (l.Answer α)) : Resolve α (l.Answer α) :=
  match definition with
  | none => throw (ResourceTable.missing kind name)
  | some d => do
    let v ← under (kind.key name) (resolve d)
    keep l v
    pure v

/-! ## Steps -/

/-- The selector with a name, of items whose texts have to meet a need. -/
def selector (ask : Answers α) (need : Need) (kind : ResourceKind) (name : String)
    (items : RawSelector) : Resolve α (Selector (need.Answer α)) := do
  let resolved ← items.mapM fun (state, text) => do pure (state, ← ask (.text need text))
  match Selector.ofItems? resolved with
  | none => throw (.reference (kind.reference name) .emptySelector)
  | some states => pure states

/-- The color with a name, in the normal state. -/
def color (raw : RawResources α) (ask : Answers α) (name : String) : Resolve α Color :=
  recalled (.color name) <|
    -- A state list hides the plain color of the same name.
    if raw.colorStates.contains name then do
      let states ← ask (.colorState name)
      pure states.normal
    else defined (.color name) .color name (raw.colors.get? name) fun text =>
      ask (.text .color text)

/-- The colors of a state list. -/
def colorState (raw : RawResources α) (ask : Answers α) (name : String) :
    Resolve α (Selector Color) :=
  recalled (.colorState name) <|
    defined (.colorState name) .color name (raw.colorStates.get? name)
      (selector ask .color .color name)

/-- The color that a text stands for. -/
def colorText (raw : RawResources α) (ask : Answers α) (untrimmed : String) : Resolve α Color :=
  let text := Text.trim untrimmed
  if Text.leads "?" text then throughTheme raw text fun target => ask (.text .color target)
  else if Text.leads "#" text then
    match Color.read? text with
    | some c => pure c
    | none => throw (.reference text .colorLiteral)
  else match Text.stripLead? "@android:color/" text with
    | some name =>
      match Color.platform? name with
      | some c => pure c
      | none => throw (.reference text .systemColor)
    | none =>
      match Text.stripLead? "@color/" text with
      | some name => ask (.color name)
      | none => throw (.reference text .notColor)

/-- The text of a string resource. -/
def string (raw : RawResources α) (ask : Answers α) (name : String) : Resolve α String :=
  recalled (.string name) <|
    defined (.string name) .string name (raw.strings.get? name) fun text =>
      match Text.stripLead? "@string/" text with
      | some target => ask (.string target)
      | none => pure (Text.unescape text)

/-- The face of one member of a font family. -/
def face (ask : Answers α) (m : RawMember) : Resolve α Font := do
  match ← ask (.font m.target) with
  | .face f => pure (m.face f)
  | .family .. => throw (.reference m.font .nestedFamily)

/-- The font with a name. -/
def font (raw : RawResources α) (ask : Answers α) (name : String) : Resolve α FontResource :=
  recalled (.font name) <|
    defined (.font name) .font name (raw.fonts.get? name) fun
      | .file file => pure (.face { name, file := some file, weight := 400, italic := false })
      | .family members => do pure (.family name (← members.mapM (face ask)))

variable [Scalar α]

/-- The length with a name. -/
def dimen (raw : RawResources α) (ask : Answers α) (name : String) : Resolve α (Dimension α) :=
  recalled (.dimen name) <|
    defined (.dimen name) .dimen name (raw.dimens.get? name) fun text => ask (.text .length text)

/-- The length that a text stands for. -/
def lengthText (raw : RawResources α) (ask : Answers α) (untrimmed : String) :
    Resolve α (Dimension α) :=
  let text := Text.trim untrimmed
  match Text.stripLead? "@dimen/" text with
  | some name => ask (.dimen name)
  | none =>
    if Text.leads "?" text then throughTheme raw text fun target => ask (.text .length target)
    else match Dimension.literal? text with
      | some d => pure d
      | none => throw (.reference text .notDimension)

/-- The drawable of a definition. -/
def build (ask : Answers α) (name : String) : RawDrawable α → Resolve α (Drawable α)
  | .image file => pure (.bitmap name file)
  | .vector file => pure (.vector name file)
  | .shape form => do
    -- Of several faulty parts the first in this order is reported: paints before lengths.
    let solid ← form.solid.mapM fun text => ask (.text .paint text)
    let strokeColor ← form.strokeColor.mapM fun text => ask (.text .paint text)
    let strokeWidth ← form.strokeWidth.mapM fun text => ask (.text .length text)
    let cornerRadius ← form.cornerRadius.mapM fun text => ask (.text .length text)
    let gradient ← form.gradient.mapM fun g => do
      let start ← ask (.text .paint g.start)
      let finish ← ask (.text .paint g.finish)
      pure { start, finish, angle := g.angle }
    pure (.shape name
      { outline := form.outline, solid, strokeColor, gradient
        strokeWidth := strokeWidth.map (·.magnitude)
        cornerRadius := cornerRadius.map (·.magnitude) })
  | .layers texts => do pure (.layers name (← texts.mapM fun text => ask (.text .paint text)))
  | .selector items => do pure (.states name (← selector ask .paint .drawable name items))
  | .link target => do pure (.link name (← ask (.text .paint target)))

/-- The drawable with a name. -/
def drawable (raw : RawResources α) (ask : Answers α) (name : String) : Resolve α (Drawable α) :=
  recalled (.drawable name) <|
    defined (.drawable name) .drawable name (raw.drawables.get? name) (build ask name)

/-- The drawable that a text stands for. -/
def paint (raw : RawResources α) (ask : Answers α) (untrimmed : String) :
    Resolve α (Drawable α) :=
  let text := Text.trim untrimmed
  if Text.leads "?" text then throughTheme raw text fun target => ask (.text .paint target)
  else match (Text.stripLead? "@drawable/" text).or (Text.stripLead? "@mipmap/" text) with
    | some name => ask (.drawable name)
    | none =>
      match Text.stripLead? "@color/" text with
      | some name =>
        if raw.colorStates.contains name then do
          let states ← ask (.colorState name)
          pure (.stateColor name states)
        else do
          let c ← ask (.color name)
          pure (.namedColor name c)
      | none => do
        let c ← ask (.text .color text)
        pure (.color c)

/-- One step of resolution: the answer to a look-up, given the answers to those that it makes. -/
def step (raw : RawResources α) (ask : Answers α) : Answers α
  | .color name => color raw ask name
  | .colorState name => colorState raw ask name
  | .dimen name => dimen raw ask name
  | .string name => string raw ask name
  | .drawable name => drawable raw ask name
  | .font name => font raw ask name
  | .text .color text => colorText raw ask text
  | .text .length text => lengthText raw ask text
  | .text .paint text => paint raw ask text

/-! ## Nested steps -/

/-- What a look-up without any steps left is refused with. As many steps are granted as there can be
keys on the stack, so it does not come to this. -/
def exhausted : Failure := .reference "" (.circular [])

/-- The answers to look-ups when steps may be nested only so deep. -/
def lookUpWithin (raw : RawResources α) : Nat → Answers α
  | 0, _ => throw exhausted
  | steps + 1, l => step raw (lookUpWithin raw steps) l

end Resolve

namespace RawResources

variable {α : Type} [Scalar α]

/-- How deeply steps of resolution can be nested: a few for each key on the stack. -/
def stepCount (raw : RawResources α) : Nat := 8 * (raw.keyCount + 1)

/-- The look-ups of all definitions, in the order of kinds and of names. -/
def lookups (raw : RawResources α) : List Lookup :=
  raw.colors.keys.map .color ++ raw.colorStates.keys.map .colorState ++
    raw.dimens.keys.map .dimen ++ raw.strings.keys.map .string ++
    raw.drawables.keys.map .drawable ++ raw.fonts.keys.map .font

/-- What is resolved before any look-up: nothing. -/
def start (raw : RawResources α) : Resolution α :=
  { table := { theme := raw.themeName, layouts := raw.layouts } }

/-- The table of the resources when steps may be nested only so deep. -/
def resolveWithin (raw : RawResources α) (steps : Nat) : Outcome (ResourceTable α) :=
  let (result, s) :=
    (raw.lookups.forM fun l => discard (Resolve.lookUpWithin raw steps l)).run.run raw.start
  result.map fun _ => { s.table with styles := raw.styles }

/-- The table of the resources, or the first reference that stands for nothing. -/
def resolve (raw : RawResources α) : Outcome (ResourceTable α) := raw.resolveWithin raw.stepCount

end RawResources

end LayoutCompiler
