import LayoutCompiler.Markup.Entity
/-!
# Writing markup

Markup as a tree, and the one function that makes a text of it. Each tag stands on a line of its
own, indented by its depth, except next to text: white space is added only between two tags.
-/

namespace LayoutCompiler.Markup

/-- Markup to be written. -/
inductive Fragment where
  | element (name : String) (attributes : List (String × String)) (content : List Fragment)
  | void (name : String) (attributes : List (String × String))
  | text (s : String)

/-- A piece of written markup. -/
inductive Piece where
  /-- The declaration at the head of a document. -/
  | declaration
  | start (name : String) (attributes : List (String × String))
  | void (name : String) (attributes : List (String × String))
  | finish (name : String)
  | text (s : String)
deriving Repr, DecidableEq

mutual

/-- The pieces of a tree, in order. -/
def Fragment.pieces : Fragment → List Piece
  | .element name attributes content => .start name attributes :: piecesOf content ++ [.finish name]
  | .void name attributes => [.void name attributes]
  | .text s => [.text s]

/-- The pieces of the trees of a list. -/
def piecesOf : List Fragment → List Piece
  | [] => []
  | f :: fs => f.pieces ++ piecesOf fs

end

namespace Piece

/-- The attributes of a tag, escaped. -/
def attributesText (attributes : List (String × String)) : String :=
  String.join (attributes.map fun (key, value) => " " ++ key ++ "=\"" ++ escape value ++ "\"")

/-- A piece by itself. -/
def written : Piece → String
  | declaration => "<?xml version=\"1.0\" encoding=\"UTF-8\"?>"
  | start name attributes => "<" ++ name ++ attributesText attributes ++ ">"
  | void name attributes => "<" ++ name ++ attributesText attributes ++ "/>"
  | finish name => "</" ++ name ++ ">"
  | text s => escape s

/-- Whether a piece is text. -/
def isText : Piece → Bool
  | text _ => true
  | _ => false

end Piece

/-- Where writing stands: the depth of open elements, and whether a tag has just been written. -/
structure Margin where
  depth : Nat := 0
  afterTag : Bool := false

/-- A piece with the white space in front of it, at a depth. -/
def indented (width depth : Nat) (afterTag : Bool) (p : Piece) : String :=
  if p.isText || !afterTag then p.written
  else "\n" ++ String.ofList (List.replicate (width * depth) ' ') ++ p.written

/-- The text of pieces, from a margin on. The depth grows after a start tag and shrinks before an
end tag. -/
def writePieces (width : Nat) : Margin → List Piece → List String
  | _, [] => []
  | m, p :: ps =>
    let depth := match p with
      | .finish _ => m.depth - 1
      | _ => m.depth
    let next := match p with
      | .start .. => depth + 1
      | _ => depth
    indented width depth m.afterTag p ::
      writePieces width { depth := next, afterTag := !p.isText } ps

/-- The text of pieces. -/
def write (width : Nat) (pieces : List Piece) : String := String.join (writePieces width {} pieces)

end LayoutCompiler.Markup
