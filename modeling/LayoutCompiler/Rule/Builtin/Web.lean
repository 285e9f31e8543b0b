import LayoutCompiler.Rule.Basic
/-!
# Rules for web pages

The rules that are always in use for web pages: elements of HTML, laid out by style declarations.
-/

namespace LayoutCompiler.Rule.Web

/-! ## Elements -/

/-- What the elements of layouts become. -/
def elements : List ElementRule := [
  { id := "View"
    template := some { name := "div", style := .ofList [("box-sizing", "border-box")] }
    outletType := some "HTMLDivElement" },
  { id := "LinearLayout"
    parent := some "View"
    template := some
      { name := "div"
        style := .ofList [("box-sizing", "border-box"), ("display", "flex"),
            ("flex-direction", "row")] }
    container := some .linear },
  { id := "LinearLayout"
    attributes := .ofList [("android:orientation", "vertical")]
    parent := some "View"
    template := some
      { name := "div"
        style := .ofList [("box-sizing", "border-box"), ("display", "flex"),
            ("flex-direction", "column")] }
    container := some .linear },
  { id := "FrameLayout"
    parent := some "View"
    template := some
      { name := "div"
        style := .ofList [("box-sizing", "border-box"), ("position", "relative")] }
    container := some .frame },
  { id := "ScrollView"
    parent := some "View"
    template := some
      { name := "div"
        style := .ofList [("box-sizing", "border-box"), ("overflow-y", "auto")] }
    container := some (.scroll .vertical) },
  { id := "HorizontalScrollView"
    parent := some "View"
    template := some
      { name := "div"
        style := .ofList [("box-sizing", "border-box"), ("overflow-x", "auto")] }
    container := some (.scroll .horizontal) },
  { id := "TextView"
    parent := some "View"
    template := some { name := "span" }
    outletType := some "HTMLSpanElement" },
  { id := "Button"
    parent := some "TextView"
    template := some { name := "button", attributes := .ofList [("type", "button")] }
    outletType := some "HTMLButtonElement" },
  { id := "EditText"
    parent := some "TextView"
    template := some { name := "input", attributes := .ofList [("type", "text")] }
    outletType := some "HTMLInputElement" },
  { id := "ImageView"
    parent := some "View"
    template := some { name := "img", attributes := .ofList [("alt", "")] }
    outletType := some "HTMLImageElement" },
  { id := "Switch"
    parent := some "View"
    template := some
      { name := "input"
        attributes := .ofList [("type", "checkbox"), ("role", "switch")] }
    outletType := some "HTMLInputElement" },
  { id := "CheckBox"
    parent := some "View"
    template := some { name := "input", attributes := .ofList [("type", "checkbox")] }
    outletType := some "HTMLInputElement" },
  { id := "ProgressBar"
    parent := some "View"
    template := some { name := "progress" }
    outletType := some "HTMLProgressElement" },
  { id := "Space"
    parent := some "View" },
  { id := "include"
    parent := some "View"
    template := some { name := "div", attributes := .ofList [("data-layout", "~layout.name~")] } }]

/-! ## Attributes -/

/-- What attributes of `View` write. -/
def viewAttributes : List AttributeRule := [
  { id := "android:background", element := "View", kind := .color
    emit := [{ path := "background-color", kind := .style, template := "~css~" }] },
  { id := "android:background", element := "View", kind := .bitmapDrawable
    emit := [{ path := "background-image", kind := .style, template := "url(~file~)" }] },
  { id := "android:background", element := "View", kind := .shapeDrawable
    emit :=
      [{ path := "background-color", kind := .style, template := "~solid.css~" },
       { path := "border-radius", kind := .style, template := "~cornerRadius~px" }] },
  { id := "android:alpha", element := "View", kind := .number
    emit := [{ path := "opacity", kind := .style, template := "~number~" }] },
  { id := "android:visibility", element := "View", equals := some "gone"
    emit := [{ path := "display", kind := .style, template := "none" }] },
  { id := "android:visibility", element := "View", equals := some "invisible"
    emit := [{ path := "visibility", kind := .style, template := "hidden" }] },
  { id := "android:padding", element := "View", kind := .dimension
    emit := [{ path := "padding", kind := .style, template := "~css~" }] },
  { id := "android:layout_margin", element := "View", kind := .dimension
    emit := [{ path := "margin", kind := .style, template := "~css~" }] },
  { id := "android:layout_width", element := "View", equals := some "match_parent"
    emit := [{ path := "width", kind := .style, template := "100%" }] },
  { id := "android:layout_width", element := "View", kind := .dimension
    emit := [{ path := "width", kind := .style, template := "~css~" }] },
  { id := "android:layout_height", element := "View", equals := some "match_parent"
    emit := [{ path := "height", kind := .style, template := "100%" }] },
  { id := "android:layout_height", element := "View", kind := .dimension
    emit := [{ path := "height", kind := .style, template := "~css~" }] },
  { id := "android:layout_weight", element := "View", kind := .number
    emit := [{ path := "flex-grow", kind := .style, template := "~number~" }] },
  { id := "android:minWidth", element := "View", kind := .dimension
    emit := [{ path := "min-width", kind := .style, template := "~css~" }] },
  { id := "android:minHeight", element := "View", kind := .dimension
    emit := [{ path := "min-height", kind := .style, template := "~css~" }] },
  { id := "android:elevation", element := "View", kind := .dimension
    emit :=
      [{ path := "box-shadow", kind := .style
         template := "0 ~number~px ~number~px rgba(0, 0, 0, 0.25)" }] },
  { id := "android:contentDescription", element := "View", kind := .text
    emit := [{ path := "aria-label", template := "~value~" }] },
  { id := "android:tag", element := "View", kind := .text
    emit := [{ path := "data-tag", template := "~value~" }] }]

/-- What attributes of `LinearLayout` write. -/
def linearLayoutAttributes : List AttributeRule := [
  { id := "android:gravity", element := "LinearLayout", equals := some "center"
    emit :=
      [{ path := "justify-content", kind := .style, template := "center" },
       { path := "align-items", kind := .style, template := "center" }] },
  { id := "android:gravity", element := "LinearLayout", equals := some "center_vertical"
    emit := [{ path := "align-items", kind := .style, template := "center" }] },
  { id := "android:gravity", element := "LinearLayout", equals := some "end"
    emit := [{ path := "justify-content", kind := .style, template := "flex-end" }] }]

/-- What attributes of `TextView` write. -/
def textViewAttributes : List AttributeRule := [
  { id := "android:text", element := "TextView", kind := .text
    emit := [{ kind := .text, template := "~value~" }] },
  { id := "android:textColor", element := "TextView", kind := .color
    emit := [{ path := "color", kind := .style, template := "~css~" }] },
  { id := "android:textSize", element := "TextView", kind := .dimension
    emit := [{ path := "font-size", kind := .style, template := "~css~" }] },
  { id := "android:textStyle", element := "TextView", equals := some "bold"
    emit := [{ path := "font-weight", kind := .style, template := "bold" }] },
  { id := "android:textStyle", element := "TextView", equals := some "italic"
    emit := [{ path := "font-style", kind := .style, template := "italic" }] },
  { id := "android:fontFamily", element := "TextView", kind := .font
    emit := [{ path := "font-family", kind := .style, template := "~family~" }] },
  { id := "android:gravity", element := "TextView", equals := some "center"
    emit := [{ path := "text-align", kind := .style, template := "center" }] },
  { id := "android:gravity", element := "TextView", equals := some "end"
    emit := [{ path := "text-align", kind := .style, template := "end" }] },
  { id := "android:singleLine", element := "TextView", equals := some "true"
    emit := [{ path := "white-space", kind := .style, template := "nowrap" }] }]

/-- What attributes of `Button` write. -/
def buttonAttributes : List AttributeRule := [
  { id := "android:enabled", element := "Button", equals := some "false"
    emit := [{ path := "disabled", template := "disabled" }] }]

/-- What attributes of `EditText` write. -/
def editTextAttributes : List AttributeRule := [
  { id := "android:text", element := "EditText", kind := .text
    emit := [{ path := "value", template := "~value~" }] },
  { id := "android:hint", element := "EditText", kind := .text
    emit := [{ path := "placeholder", template := "~value~" }] },
  { id := "android:inputType", element := "EditText", equals := some "textPassword"
    emit := [{ path := "type", template := "password" }] },
  { id := "android:inputType", element := "EditText", equals := some "textEmailAddress"
    emit := [{ path := "type", template := "email" }] },
  { id := "android:inputType", element := "EditText", equals := some "number"
    emit := [{ path := "type", template := "number" }] }]

/-- What attributes of `ImageView` write. -/
def imageViewAttributes : List AttributeRule := [
  { id := "android:src", element := "ImageView", kind := .bitmapDrawable
    emit := [{ path := "src", template := "~file~" }] },
  { id := "android:src", element := "ImageView", kind := .vectorDrawable
    emit := [{ path := "src", template := "~file~" }] },
  { id := "android:scaleType", element := "ImageView", equals := some "centerCrop"
    emit := [{ path := "object-fit", kind := .style, template := "cover" }] },
  { id := "android:scaleType", element := "ImageView", equals := some "fitXY"
    emit := [{ path := "object-fit", kind := .style, template := "fill" }] },
  { id := "android:scaleType", element := "ImageView", equals := some "fitCenter"
    emit := [{ path := "object-fit", kind := .style, template := "contain" }] }]

/-- What attributes of `Switch` write. -/
def switchAttributes : List AttributeRule := [
  { id := "android:checked", element := "Switch", equals := some "true"
    emit := [{ path := "checked", template := "checked" }] }]

/-- What attributes of `CheckBox` write. -/
def checkBoxAttributes : List AttributeRule := [
  { id := "android:checked", element := "CheckBox", equals := some "true"
    emit := [{ path := "checked", template := "checked" }] }]

/-- What attributes of `ProgressBar` write. -/
def progressBarAttributes : List AttributeRule := [
  { id := "android:progress", element := "ProgressBar", kind := .number
    emit := [{ path := "value", template := "~number~" }] },
  { id := "android:max", element := "ProgressBar", kind := .number
    emit := [{ path := "max", template := "~number~" }] }]

/-- What attributes write. -/
def attributes : List AttributeRule :=
  viewAttributes ++ linearLayoutAttributes ++ textViewAttributes ++ buttonAttributes ++
    editTextAttributes ++ imageViewAttributes ++ switchAttributes ++ checkBoxAttributes ++
    progressBarAttributes

end LayoutCompiler.Rule.Web
