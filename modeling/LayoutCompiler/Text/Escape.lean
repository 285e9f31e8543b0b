/-!
# Escapes in string resources

A backslash stands for itself at the end of a text; before `n` and `t` it makes a line feed and a
tab, and before any other character it is dropped.
-/

namespace LayoutCompiler.Text

/-- The characters that escaped characters denote. -/
def unescapeChars : List Char → List Char
  | [] => []
  | ['\\'] => ['\\']
  | '\\' :: c :: cs =>
    (if c = 'n' then '\n' else if c = 't' then '\t' else c) :: unescapeChars cs
  | c :: cs => c :: unescapeChars cs

/-- The text that an escaped text denotes. -/
def unescape (raw : String) : String := String.ofList (unescapeChars raw.toList)

end LayoutCompiler.Text
