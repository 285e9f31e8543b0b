import LayoutCompiler.Style.Basic
/-!
# Theme attributes

A reference such as `?attr/colorPrimary` stands for an entry of the theme, which is a style.
-/

namespace LayoutCompiler.Theme

/-- The theme of a project that names none. -/
def default : String := "AppTheme"

/-- The entry that a theme reference names. -/
def key (reference : String) : String :=
  let bare := Text.dropLeading '?' reference
  match Text.stripLead? "android:attr/" bare with
  | some name => Attributes.platform name
  | none => (Text.stripLead? "attr/" bare).getD bare

/-- The other spelling of an entry: with the platform's namespace, or without. Both name the same
thing. -/
def otherSpelling (key : String) : String :=
  (Text.stripLead? "android:" key).getD (Attributes.platform key)

/-- The raw text that a reference stands for in a theme. -/
def attribute? (sheet : StyleSheet) (theme reference : String) : Outcome String :=
  match sheet.chain theme with
  | .error _ => .error (.reference reference (.themeUndefined theme))
  | .ok chain =>
    let name := key reference
    match (chain.get? name).or (chain.get? (otherSpelling name)) with
    | some raw => .ok raw
    | none => .error (.reference reference (.themeUnset theme name))

end LayoutCompiler.Theme
