import LayoutCompiler.Markup.Document
import LayoutCompiler.Resource.Definition
import LayoutCompiler.Storage.Basic
/-!
# Resource folders

Reading the resources of a project from its folder. Resources are in files two levels deep; the
name of the folder between says what a file defines. Values are read for the default configuration
only, and of the drawables with one name the first is kept; layouts are read in all their variants.
-/

namespace LayoutCompiler

/-- What a resource folder holds. -/
structure ResourceFolder (α : Type) where
  raw : RawResources α := {}
  /-- The paths of the variants of each layout, those for the default configuration first. -/
  layouts : SortedMap (List String) := SortedMap.empty

/-- What the files of a folder define. -/
inductive ResourceRole where
  | values
  | colors
  | drawables
  | fonts
  /-- Layouts, perhaps for the default configuration. -/
  | layouts (isDefault : Bool)
  | none
deriving Repr, DecidableEq

/-- What the files of a folder with a name define. -/
def ResourceRole.ofName (folder : String) : ResourceRole :=
  if folder = "values" then .values
  else if folder = "color" then .colors
  else if Text.leads "drawable" folder || Text.leads "mipmap" folder then .drawables
  else if folder = "font" then .fonts
  else if folder = "layout" then .layouts true
  else if Text.leads "layout-" folder then .layouts false
  else .none

namespace ResourceFolder

variable {α : Type}

/-- How many layout files there are. -/
def layoutCount (d : ResourceFolder α) : Nat := d.layouts.values.flatten.length

/-- The folder with one more variant of a layout. -/
def addLayout (d : ResourceFolder α) (isDefault : Bool) (name path : String) :
    ResourceFolder α :=
  let known := (d.layouts.get? name).getD []
  { raw := { d.raw with layouts := d.raw.layouts.add name }
    layouts := d.layouts.insert name (if isDefault then path :: known else known ++ [path]) }

/-- The extensions of image files. -/
def imageExtensions : List String := ["png", "jpg", "jpeg", "webp", "gif"]

/-- The extensions of font files. -/
def fontExtensions : List String := ["ttf", "otf"]

/-- The extension of a file name, its plain letters in lower case. -/
def plainExtension (file : String) : String :=
  ((Path.extensionOfName? file).getD "").map Char.toLower

section

variable {m : Type → Type} [Monad m] [Storage m]

/-- The root of the document at a path. -/
def document (path : String) : Session m Element := do
  let text ← Session.attempt (Storage.read path)
  Session.ofOutcome (Markup.parse text path)

variable [Scalar α]

/-- The resources with what a file of drawables defines. -/
def readDrawable (raw : RawResources α) (file path : String) : Session m (RawResources α) := do
  let name := Path.stem file
  let extension := plainExtension file
  if raw.drawables.contains name then pure raw
  else if imageExtensions.contains extension then pure (raw.addDrawable name (some (.image file)))
  else if extension = "xml" then
    pure (raw.addDrawable name (RawDrawable.ofElement? file (← document path)))
  else pure raw

/-- The resources with what a file of fonts defines. -/
def readFont (raw : RawResources α) (file path : String) : Session m (RawResources α) := do
  let name := Path.stem file
  let extension := plainExtension file
  if fontExtensions.contains extension then pure (raw.addFont name (some (.file file)))
  else if extension = "xml" then pure (raw.addFont name (RawFont.ofElement? (← document path)))
  else pure raw

/-- The folder with what one more file defines. -/
def readFile (d : ResourceFolder α) (role : ResourceRole) (file path : String) :
    Session m (ResourceFolder α) := do
  match role with
  | .values => pure { d with raw := d.raw.addValues (← document path) }
  | .colors => pure { d with raw := d.raw.addColors (Path.stem file) (← document path) }
  | .drawables => pure { d with raw := ← readDrawable d.raw file path }
  | .fonts => pure { d with raw := ← readFont d.raw file path }
  | .layouts isDefault =>
    if Path.extensionOfName? file = some "xml" then
      pure (d.addLayout isDefault (Path.stem file) path)
    else pure d
  | .none => pure d

/-- Reads the folder at a path. -/
def read (root : String) : Session m (ResourceFolder α) := do
  if !(← Session.perform (Storage.isFolder root)) then throw (.notFound root)
  let folders ← Session.attempt (Storage.entries root)
  (folders.filter (·.2)).foldlM (fun d (folder, _) => do
    let path := Path.join root folder
    let files ← Session.attempt (Storage.entries path)
    (files.filter fun entry => !entry.2).foldlM (fun d (file, _) =>
      readFile d (ResourceRole.ofName folder) file (Path.join path file)) d) {}

end

end ResourceFolder

end LayoutCompiler
