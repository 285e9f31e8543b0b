import LayoutCompiler.Text.Blank
import LayoutCompiler.Text.Split
import LayoutCompiler.Tree.Constraint
/-!
# Axes, alignment and gravity

The two axes of a layout, the facets of a box that belong to each, and how a box asks to be
aligned on them.
-/

namespace LayoutCompiler

/-- The axes of a layout. -/
inductive Axis where
  | horizontal
  | vertical
deriving Repr, DecidableEq

namespace Axis

/-- Both axes, in the order in which they are laid out. -/
def both : List Axis := [horizontal, vertical]

/-- The other axis. -/
def cross : Axis → Axis
  | horizontal => vertical
  | vertical => horizontal

/-- The facet at which an axis begins. -/
def start : Axis → Facet
  | horizontal => .leading
  | vertical => .top

/-- The facet at which an axis ends. -/
def finish : Axis → Facet
  | horizontal => .trailing
  | vertical => .bottom

/-- The facet in the middle of an axis. -/
def center : Axis → Facet
  | horizontal => .centerX
  | vertical => .centerY

/-- The extent along an axis. -/
def extent : Axis → Facet
  | horizontal => .width
  | vertical => .height

/-- The name of an axis. -/
def name : Axis → String
  | horizontal => "horizontal"
  | vertical => "vertical"

end Axis

/-- The alignments of a box on one axis. -/
inductive Align where
  | start
  | center
  | finish
  | fill
deriving Repr, DecidableEq

/-- The alignments that a row of gravity flags asks for, on each axis. -/
structure Gravity where
  horizontal : Option Align := none
  vertical : Option Align := none
deriving Repr, DecidableEq

namespace Gravity

/-- The alignment on an axis. -/
def on (g : Gravity) : Axis → Option Align
  | .horizontal => g.horizontal
  | .vertical => g.vertical

/-- One more flag. A later flag for an axis wins; an unknown one changes nothing. -/
def flag (g : Gravity) (name : String) : Gravity :=
  match name with
  | "left" | "start" => { g with horizontal := some .start }
  | "right" | "end" => { g with horizontal := some .finish }
  | "center_horizontal" => { g with horizontal := some .center }
  | "fill_horizontal" => { g with horizontal := some .fill }
  | "top" => { g with vertical := some .start }
  | "bottom" => { g with vertical := some .finish }
  | "center_vertical" => { g with vertical := some .center }
  | "fill_vertical" => { g with vertical := some .fill }
  | "center" => ⟨some .center, some .center⟩
  | "fill" => ⟨some .fill, some .fill⟩
  | _ => g

/-- The gravity of a list of flags. -/
def ofFlags (flags : List String) : Gravity := flags.foldl flag {}

/-- The gravity that a text such as `center_vertical|end` asks for. -/
def read (raw : String) : Gravity := ofFlags ((Text.split '|' raw).map Text.trim)

end Gravity

end LayoutCompiler
