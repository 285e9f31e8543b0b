import LayoutCompiler.Rule.Basic
/-!
# Rules for interface documents

The rules that are always in use for interface documents: views by the names that the document
format has for them.
-/

namespace LayoutCompiler.Rule.Ios

/-! ## Elements -/

/-- What the elements of layouts become. -/
def elements : List ElementRule := [
  { id := "View"
    template := some
      { name := "view"
        attributes := .ofList [("contentMode", "scaleToFill"),
            ("translatesAutoresizingMaskIntoConstraints", "NO")]
        holder := some "subviews" }
    outletType := some "UIView" },
  { id := "LinearLayout"
    parent := some "View"
    template := some
      { name := "stackView"
        attributes := .ofList [("translatesAutoresizingMaskIntoConstraints", "NO")]
        holder := some "subviews" }
    container := some .linear
    autoWrapFor := ["android:background"]
    outletType := some "UIStackView" },
  { id := "FrameLayout"
    parent := some "View"
    container := some .frame },
  { id := "ScrollView"
    parent := some "View"
    template := some
      { name := "scrollView"
        attributes := .ofList [("translatesAutoresizingMaskIntoConstraints", "NO"),
            ("showsHorizontalScrollIndicator", "NO")]
        holder := some "subviews" }
    container := some (.scroll .vertical)
    outletType := some "UIScrollView" },
  { id := "HorizontalScrollView"
    parent := some "View"
    template := some
      { name := "scrollView"
        attributes := .ofList [("translatesAutoresizingMaskIntoConstraints", "NO"),
            ("showsVerticalScrollIndicator", "NO")]
        holder := some "subviews" }
    container := some (.scroll .horizontal)
    outletType := some "UIScrollView" },
  { id := "TextView"
    parent := some "View"
    template := some
      { name := "label"
        attributes := .ofList [("translatesAutoresizingMaskIntoConstraints", "NO"),
            ("lineBreakMode", "tailTruncation"), ("numberOfLines", "0"),
            ("baselineAdjustment", "alignBaselines"), ("adjustsFontSizeToFit", "NO")] }
    autoWrapFor := ["android:padding"]
    outletType := some "UILabel" },
  { id := "Button"
    parent := some "TextView"
    template := some
      { name := "button"
        attributes := .ofList [("translatesAutoresizingMaskIntoConstraints", "NO"),
            ("buttonType", "system"), ("contentHorizontalAlignment", "center"),
            ("contentVerticalAlignment", "center"), ("lineBreakMode", "middleTruncation")] }
    outletType := some "UIButton" },
  { id := "EditText"
    parent := some "TextView"
    template := some
      { name := "textField"
        attributes := .ofList [("translatesAutoresizingMaskIntoConstraints", "NO"),
            ("borderStyle", "roundedRect"), ("contentHorizontalAlignment", "left"),
            ("contentVerticalAlignment", "center"), ("minimumFontSize", "17")] }
    outletType := some "UITextField" },
  { id := "ImageView"
    parent := some "View"
    template := some
      { name := "imageView"
        attributes := .ofList [("translatesAutoresizingMaskIntoConstraints", "NO"),
            ("contentMode", "scaleAspectFit"), ("userInteractionEnabled", "NO")] }
    outletType := some "UIImageView" },
  { id := "Switch"
    parent := some "View"
    template := some
      { name := "switch"
        attributes := .ofList [("translatesAutoresizingMaskIntoConstraints", "NO"),
            ("contentHorizontalAlignment", "center"), ("contentVerticalAlignment", "center")] }
    outletType := some "UISwitch" },
  { id := "CheckBox"
    parent := some "Switch" },
  { id := "ProgressBar"
    parent := some "View"
    template := some
      { name := "activityIndicatorView"
        attributes := .ofList [("translatesAutoresizingMaskIntoConstraints", "NO"),
            ("animating", "YES"), ("style", "medium")] }
    outletType := some "UIActivityIndicatorView" },
  { id := "ProgressBar"
    attributes := .ofList [("android:indeterminate", "false")]
    parent := some "View"
    template := some
      { name := "progressView"
        attributes := .ofList [("translatesAutoresizingMaskIntoConstraints", "NO"),
            ("progressViewStyle", "default")] }
    outletType := some "UIProgressView" },
  { id := "Space"
    parent := some "View"
    template := some
      { name := "view"
        attributes := .ofList [("translatesAutoresizingMaskIntoConstraints", "NO"),
            ("userInteractionEnabled", "NO")] } },
  { id := "include"
    parent := some "View"
    template := some
      { name := "view"
        attributes := .ofList [("translatesAutoresizingMaskIntoConstraints", "NO"),
            ("customClass", "~layout.className~")]
        holder := some "subviews" } }]

/-! ## Attributes -/

/-- What attributes of `View` write. -/
def viewAttributes : List AttributeRule := [
  { id := "android:background", element := "View", kind := .colorResource
    emit := [{ path := "color[key=backgroundColor]/name", template := "~name~" }] },
  { id := "android:background", element := "View", kind := .colorStateResource
    emit := [{ path := "color[key=backgroundColor]/name", template := "~name~" }] },
  { id := "android:background", element := "View", kind := .colorLiteral
    emit :=
      [{ path := "color[key=backgroundColor]/red", template := "~red~" },
       { path := "color[key=backgroundColor]/green", template := "~green~" },
       { path := "color[key=backgroundColor]/blue", template := "~blue~" },
       { path := "color[key=backgroundColor]/alpha", template := "~alpha~" },
       { path := "color[key=backgroundColor]/colorSpace", template := "custom" },
       { path := "color[key=backgroundColor]/customColorSpace", template := "sRGB" }] },
  { id := "android:background", element := "View", kind := .shapeDrawable
    emit :=
      [{ path := "clipsSubviews", template := "YES" },
       { path := "layer.cornerRadius", kind := .runtime
         template := "~cornerRadius~", runtimeType := some "number" }] },
  { id := "android:alpha", element := "View", kind := .number
    emit := [{ path := "alpha", template := "~number~" }] },
  { id := "android:visibility", element := "View", equals := some "gone"
    emit := [{ path := "hidden", template := "YES" }] },
  { id := "android:visibility", element := "View", equals := some "invisible"
    emit := [{ path := "alpha", template := "0" }] },
  { id := "android:clipChildren", element := "View", equals := some "true"
    emit := [{ path := "clipsSubviews", template := "YES" }] },
  { id := "android:enabled", element := "View", equals := some "false"
    emit := [{ path := "userInteractionEnabled", template := "NO" }] },
  { id := "android:contentDescription", element := "View", kind := .text
    emit :=
      [{ path := "accessibility[key=accessibilityConfiguration]/label", template := "~value~" }] },
  { id := "android:elevation", element := "View", kind := .dimension
    emit :=
      [{ path := "layer.shadowRadius", kind := .runtime
         template := "~number~", runtimeType := some "number" },
       { path := "layer.shadowOpacity", kind := .runtime
         template := "0.25", runtimeType := some "number" }] },
  { id := "android:tag", element := "View", kind := .text
    emit :=
      [{ path := "accessibilityIdentifier", kind := .runtime, template := "~value~" }] }]

/-- What attributes of `TextView` write. -/
def textViewAttributes : List AttributeRule := [
  { id := "android:text", element := "TextView", kind := .text
    emit := [{ path := "text", template := "~value~" }] },
  { id := "android:textColor", element := "TextView", kind := .colorResource
    emit := [{ path := "color[key=textColor]/name", template := "~name~" }] },
  { id := "android:textColor", element := "TextView", kind := .colorStateResource
    emit := [{ path := "color[key=textColor]/name", template := "~name~" }] },
  { id := "android:textColor", element := "TextView", kind := .colorLiteral
    emit :=
      [{ path := "color[key=textColor]/red", template := "~red~" },
       { path := "color[key=textColor]/green", template := "~green~" },
       { path := "color[key=textColor]/blue", template := "~blue~" },
       { path := "color[key=textColor]/alpha", template := "~alpha~" },
       { path := "color[key=textColor]/colorSpace", template := "custom" },
       { path := "color[key=textColor]/customColorSpace", template := "sRGB" }] },
  { id := "android:textSize", element := "TextView", kind := .dimension
    emit :=
      [{ path := "fontDescription[key=fontDescription]/type", template := "system" },
       { path := "fontDescription[key=fontDescription]/pointSize", template := "~number~" }] },
  { id := "android:textStyle", element := "TextView", equals := some "bold"
    emit :=
      [{ path := "fontDescription[key=fontDescription]/type", template := "boldSystem" }] },
  { id := "android:textStyle", element := "TextView", equals := some "italic"
    emit :=
      [{ path := "fontDescription[key=fontDescription]/type", template := "italicSystem" }] },
  { id := "android:fontFamily", element := "TextView", kind := .font
    emit :=
      [{ path := "fontDescription[key=fontDescription]/name", template := "~name~" },
       { path := "fontDescription[key=fontDescription]/family", template := "~family~" }] },
  { id := "android:gravity", element := "TextView", equals := some "center"
    emit := [{ path := "textAlignment", template := "center" }] },
  { id := "android:gravity", element := "TextView", equals := some "center_horizontal"
    emit := [{ path := "textAlignment", template := "center" }] },
  { id := "android:gravity", element := "TextView", equals := some "end"
    emit := [{ path := "textAlignment", template := "right" }] },
  { id := "android:maxLines", element := "TextView", kind := .number
    emit := [{ path := "numberOfLines", template := "~number~" }] },
  { id := "android:singleLine", element := "TextView", equals := some "true"
    emit := [{ path := "numberOfLines", template := "1" }] }]

/-- What attributes of `Button` write. -/
def buttonAttributes : List AttributeRule := [
  { id := "android:text", element := "Button", kind := .text
    emit := [{ path := "state[key=~state~]/title", kind := .state, template := "~value~" }] },
  { id := "android:textColor", element := "Button", kind := .color
    emit :=
      [{ path := "state[key=~state~]/color[key=titleColor]/red", kind := .state
         template := "~red~" },
       { path := "state[key=~state~]/color[key=titleColor]/green", kind := .state
         template := "~green~" },
       { path := "state[key=~state~]/color[key=titleColor]/blue", kind := .state
         template := "~blue~" },
       { path := "state[key=~state~]/color[key=titleColor]/alpha", kind := .state
         template := "~alpha~" },
       { path := "state[key=~state~]/color[key=titleColor]/colorSpace", kind := .state
         template := "custom" },
       { path := "state[key=~state~]/color[key=titleColor]/customColorSpace", kind := .state
         template := "sRGB" }] },
  { id := "android:enabled", element := "Button", equals := some "false"
    emit := [{ path := "enabled", template := "NO" }] }]

/-- What attributes of `EditText` write. -/
def editTextAttributes : List AttributeRule := [
  { id := "android:hint", element := "EditText", kind := .text
    emit := [{ path := "placeholder", template := "~value~" }] },
  { id := "android:inputType", element := "EditText", equals := some "textPassword"
    emit :=
      [{ path := "textInputTraits[key=textInputTraits]/secureTextEntry", template := "YES" }] },
  { id := "android:inputType", element := "EditText", equals := some "textEmailAddress"
    emit :=
      [{ path := "textInputTraits[key=textInputTraits]/keyboardType"
         template := "emailAddress" }] },
  { id := "android:inputType", element := "EditText", equals := some "number"
    emit :=
      [{ path := "textInputTraits[key=textInputTraits]/keyboardType", template := "numberPad" }] }]

/-- What attributes of `ImageView` write. -/
def imageViewAttributes : List AttributeRule := [
  { id := "android:src", element := "ImageView", kind := .bitmapDrawable
    emit := [{ path := "image", template := "~name~" }] },
  { id := "android:src", element := "ImageView", kind := .vectorDrawable
    emit := [{ path := "image", template := "~name~" }] },
  { id := "android:scaleType", element := "ImageView", equals := some "centerCrop"
    emit := [{ path := "contentMode", template := "scaleAspectFill" }] },
  { id := "android:scaleType", element := "ImageView", equals := some "fitXY"
    emit := [{ path := "contentMode", template := "scaleToFill" }] },
  { id := "android:scaleType", element := "ImageView", equals := some "center"
    emit := [{ path := "contentMode", template := "center" }] },
  { id := "android:tint", element := "ImageView", kind := .colorResource
    emit := [{ path := "color[key=tintColor]/name", template := "~name~" }] }]

/-- What attributes of `Switch` write. -/
def switchAttributes : List AttributeRule := [
  { id := "android:checked", element := "Switch", equals := some "true"
    emit := [{ path := "on", template := "YES" }] }]

/-- What attributes of `ScrollView` write. -/
def scrollViewAttributes : List AttributeRule := [
  { id := "android:scrollbars", element := "ScrollView", equals := some "none"
    emit := [{ path := "showsVerticalScrollIndicator", template := "NO" }] },
  { id := "android:fillViewport", element := "ScrollView", equals := some "true"
    emit := [{ path := "alwaysBounceVertical", template := "NO" }] }]

/-- What attributes of `ProgressBar` write. -/
def progressBarAttributes : List AttributeRule := [
  { id := "android:progress", element := "ProgressBar", kind := .number
    emit := [{ path := "progress", template := "~number~" }] }]

/-- What attributes write. -/
def attributes : List AttributeRule :=
  viewAttributes ++ textViewAttributes ++ buttonAttributes ++ editTextAttributes ++
    imageViewAttributes ++ switchAttributes ++ scrollViewAttributes ++ progressBarAttributes

end LayoutCompiler.Rule.Ios
