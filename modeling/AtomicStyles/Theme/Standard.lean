import AtomicStyles.Theme.Registry

/-!
# The standard theme

The theme for projects without design tokens of their own: colors, spacing,
sizes, type, layout and transitions on the common scales, with logical
directions, and conditions for dark and forced colors and for five widths of the
screen.
-/

namespace AtomicStyles.StandardTheme

/-- The named colors. -/
def colors : List (String × String) := [
  ("transparent", "transparent"), ("black", "black"), ("white", "white"), ("gray-50", "#f9fafb"),
  ("gray-100", "#f3f4f6"), ("gray-200", "#e5e7eb"), ("gray-300", "#d1d5db"),
  ("gray-400", "#9ca3af"), ("gray-500", "#6b7280"), ("gray-600", "#4b5563"),
  ("gray-700", "#374151"), ("gray-800", "#1f2937"), ("gray-900", "#111827"),
  ("red-100", "#fee2e2"), ("red-300", "#fca5a5"), ("red-500", "#ef4444"), ("red-700", "#b91c1c"),
  ("red-900", "#7f1d1d"), ("green-100", "#dcfce7"), ("green-300", "#86efac"),
  ("green-500", "#22c55e"), ("green-700", "#15803d"), ("green-900", "#14532d"),
  ("blue-100", "#dbeafe"), ("blue-300", "#93c5fd"), ("blue-500", "#3b82f6"),
  ("blue-700", "#1d4ed8"), ("blue-900", "#1e3a8a"), ("ButtonBorder", "ButtonBorder"),
  ("ButtonText", "ButtonText"), ("Field", "Field"), ("Highlight", "Highlight"),
  ("HighlightText", "HighlightText"), ("GrayText", "GrayText"), ("Mark", "Mark")]

/-- The steps of the spacing scale. -/
def spacing : List (String × String) := [
  ("px", "1px"), ("0", "0px"), ("0.5", "0.125rem"), ("1", "0.25rem"), ("1.5", "0.375rem"),
  ("2", "0.5rem"), ("2.5", "0.625rem"), ("3", "0.75rem"), ("4", "1rem"), ("5", "1.25rem"),
  ("6", "1.5rem"), ("8", "2rem"), ("10", "2.5rem"), ("12", "3rem"), ("16", "4rem"),
  ("20", "5rem"), ("24", "6rem"), ("32", "8rem")]

/-- Parts of the containing box. -/
def fractions : List (String × String) := [
  ("auto", "auto"), ("1/2", "50%"), ("1/3", "33.333333%"), ("2/3", "66.666667%"), ("1/4", "25%"),
  ("3/4", "75%"), ("full", "100%")]

/-- Sizes that come from the content or the screen. -/
def intrinsicSizes : List (String × String) := [
  ("screen", "100vh"), ("min", "min-content"), ("max", "max-content"), ("fit", "fit-content")]

/-- Widths of borders and outlines. -/
def borderWidths : List (String × String) := [
  ("0", "0px"), ("1", "1px"), ("2", "2px"), ("4", "4px"), ("8", "8px")]

/-- Radii of corners. -/
def radii : List (String × String) := [
  ("none", "0px"), ("sm", "0.125rem"), ("default", "0.25rem"), ("md", "0.375rem"),
  ("lg", "0.5rem"), ("xl", "0.75rem"), ("2xl", "1rem"), ("full", "9999px")]

/-- Lengths of time. -/
def durations : List (String × String) := [
  ("0", "0s"), ("75", "75ms"), ("100", "100ms"), ("150", "150ms"), ("200", "200ms"),
  ("300", "300ms"), ("500", "500ms"), ("700", "700ms"), ("1000", "1000ms")]

/-- The automatic size alone. -/
def automatic : List (String × String) := [
  ("auto", "auto")]

/-- The absence of a paint alone. -/
def nothing : List (String × String) := [
  ("none", "none")]

/-- Widths of a column of text. -/
def measures : List (String × String) := [
  ("none", "none"), ("sm", "24rem"), ("md", "28rem"), ("lg", "32rem"), ("xl", "36rem"),
  ("prose", "65ch")]

/-- The curve of a transition that asks for no other. -/
def easing : String := "cubic-bezier(0.4, 0, 0.2, 1)"

/-- Steps of a margin. -/
def margins : List (String × String) := spacing ++ automatic

/-- Steps of an offset. -/
def insets : List (String × String) := spacing ++ fractions

/-- Steps of a size. -/
def sizes : List (String × String) := spacing ++ fractions ++ intrinsicSizes

/-- Named values of the given logical property. -/
def logical (values : List (String × String)) (target : String) : PropertyDefinition :=
  (PropertyDefinition.ofValues values).targeting [target]

/-- Cuts text off at the end of its line. It can only be switched on. -/
def truncation : PropertyDefinition :=
  (PropertyDefinition.ofResolver fun value =>
    match value with
    | .bool true => some ""
    | _ => none).declaring [
      ("overflow", some "hidden"), ("text-overflow", some "ellipsis"),
      ("white-space", some "nowrap")]

/-- Cuts text off after a number of lines. -/
def lineClamp : PropertyDefinition :=
  (PropertyDefinition.ofResolver fun value =>
    match value with
    | .number n => some n.name
    | _ => none).declaring [
      ("overflow", some "hidden"), ("display", some "-webkit-box"),
      ("-webkit-box-orient", some "vertical"), ("-webkit-line-clamp", none)]

/-- The properties in transition, with the standard length and curve. -/
def transition : PropertyDefinition :=
  (PropertyDefinition.ofValues [
    ("default", "color, background-color, border-color, text-decoration-color, fill, " ++
      "stroke, opacity, box-shadow, transform"),
    ("colors", "color, background-color, border-color, text-decoration-color, fill, stroke"),
    ("opacity", "opacity"), ("shadow", "box-shadow"), ("transform", "transform"),
    ("all", "all"), ("none", "none")]).declaring [
      ("transition-property", none), ("transition-duration", some "150ms"),
      ("transition-timing-function", some easing)]

/-- Properties that take a color. -/
def colorProperties : List (String × PropertyDefinition) := [
  ("color", .ofColors colors),
  ("backgroundColor", .ofColors colors),
  ("borderColor", .ofColors colors),
  ("outlineColor", .ofColors colors),
  ("textDecorationColor", .ofColors colors),
  ("fill", .ofColors (nothing ++ colors)),
  ("stroke", .ofColors (nothing ++ colors))]

/-- Sizes, gaps, padding, margins and offsets. -/
def dimensionProperties : List (String × PropertyDefinition) := [
  ("width", .ofValues sizes),
  ("height", .ofValues sizes),
  ("minWidth", .ofValues sizes),
  ("minHeight", .ofValues sizes),
  ("maxWidth", .ofValues (sizes ++ measures)),
  ("maxHeight", .ofValues sizes),
  ("rowGap", .ofValues spacing),
  ("columnGap", .ofValues spacing),
  ("paddingTop", .ofValues spacing),
  ("paddingBottom", .ofValues spacing),
  ("paddingStart", logical spacing "paddingInlineStart"),
  ("paddingEnd", logical spacing "paddingInlineEnd"),
  ("marginTop", .ofValues margins),
  ("marginBottom", .ofValues margins),
  ("marginStart", logical margins "marginInlineStart"),
  ("marginEnd", logical margins "marginInlineEnd"),
  ("top", .ofValues insets),
  ("bottom", .ofValues insets),
  ("insetStart", logical insets "insetInlineStart"),
  ("insetEnd", logical insets "insetInlineEnd")]

/-- Borders, corners and outlines. -/
def borderProperties : List (String × PropertyDefinition) := [
  ("borderTopWidth", .ofValues borderWidths),
  ("borderBottomWidth", .ofValues borderWidths),
  ("borderStartWidth", logical borderWidths "borderInlineStartWidth"),
  ("borderEndWidth", logical borderWidths "borderInlineEndWidth"),
  ("borderStyle", .ofNames ["solid", "dashed", "dotted", "double", "hidden", "none"]),
  ("borderTopStartRadius", logical radii "borderStartStartRadius"),
  ("borderTopEndRadius", logical radii "borderStartEndRadius"),
  ("borderBottomStartRadius", logical radii "borderEndStartRadius"),
  ("borderBottomEndRadius", logical radii "borderEndEndRadius"),
  ("outlineStyle", .ofNames ["none", "solid", "dashed", "dotted", "double"]),
  ("outlineWidth", .ofValues borderWidths),
  ("outlineOffset", .ofValues borderWidths)]

/-- Fonts and text. -/
def textProperties : List (String × PropertyDefinition) := [
  ("fontFamily", .ofValues [
    ("sans", "ui-sans-serif, system-ui, sans-serif"),
    ("serif", "ui-serif, Georgia, Cambria, \"Times New Roman\", Times, serif"),
    ("mono", "ui-monospace, Menlo, Monaco, \"Courier New\", monospace")]),
  ("fontSize", .ofValues [
    ("xs", "0.75rem"), ("sm", "0.875rem"), ("base", "1rem"), ("lg", "1.125rem"),
    ("xl", "1.25rem"), ("2xl", "1.5rem"), ("3xl", "1.875rem"), ("4xl", "2.25rem")]),
  ("fontWeight", .ofValues [
    ("thin", "100"), ("light", "300"), ("normal", "400"), ("medium", "500"),
    ("semibold", "600"), ("bold", "700"), ("black", "900")]),
  ("fontStyle", .ofNames ["normal", "italic"]),
  ("lineHeight", .ofValues [
    ("none", "1"), ("tight", "1.25"), ("snug", "1.375"), ("normal", "1.5"),
    ("relaxed", "1.625"), ("loose", "2")]),
  ("textAlign", .ofNames ["start", "center", "end", "justify"]),
  ("textTransform", .ofNames ["uppercase", "lowercase", "capitalize", "none"]),
  ("textDecoration", .ofNames ["underline", "overline", "line-through", "none"]),
  ("textOverflow", .ofNames ["ellipsis", "clip"]),
  ("whitespace",
    (.ofNames ["normal", "nowrap", "pre", "pre-line", "pre-wrap"] : PropertyDefinition).targeting
      ["whiteSpace"]),
  ("truncate", truncation),
  ("lineClamp", lineClamp)]

/-- Shadows, opacity and rotation. -/
def effectProperties : List (String × PropertyDefinition) := [
  ("boxShadow", .ofValues [
    ("sm", "0 1px 2px 0 rgb(0 0 0 / 0.05)"),
    ("default", "0 1px 3px 0 rgb(0 0 0 / 0.1), 0 1px 2px -1px rgb(0 0 0 / 0.1)"),
    ("md", "0 4px 6px -1px rgb(0 0 0 / 0.1), 0 2px 4px -2px rgb(0 0 0 / 0.1)"), ("none", "none")]),
  ("opacity", .numeric ""),
  ("rotate", .numeric "deg"),
  ("forcedColorAdjust", .ofNames ["auto", "none"])]

/-- Transitions. -/
def transitionProperties : List (String × PropertyDefinition) := [
  ("transition", transition),
  ("transitionDuration", .ofValues durations),
  ("transitionDelay", .ofValues durations),
  ("transitionTimingFunction", .ofValues [
    ("default", easing), ("linear", "linear"), ("in", "cubic-bezier(0.4, 0, 1, 1)"),
    ("out", "cubic-bezier(0, 0, 0.2, 1)"), ("in-out", easing)])]

/-- Display, position, alignment and the like. -/
def layoutProperties : List (String × PropertyDefinition) := [
  ("display", .ofNames [
    "block", "inline-block", "inline", "flex", "inline-flex", "grid", "inline-grid", "contents",
    "none"]),
  ("position", .ofNames ["absolute", "fixed", "relative", "sticky", "static"]),
  ("alignItems", .ofNames ["start", "end", "center", "baseline", "stretch"]),
  ("alignContent", .ofNames ["normal", "center", "start", "end", "space-between", "stretch"]),
  ("alignSelf", .ofNames ["auto", "start", "end", "center", "stretch", "baseline"]),
  ("justifyContent", .ofNames ["normal", "start", "end", "center", "space-between", "stretch"]),
  ("justifyItems", .ofNames ["start", "end", "center", "stretch"]),
  ("justifySelf", .ofNames ["auto", "start", "end", "center", "stretch"]),
  ("flexDirection", .ofNames ["row", "column", "row-reverse", "column-reverse"]),
  ("flexWrap", .ofNames ["wrap", "wrap-reverse", "nowrap"]),
  ("flexGrow", .numeric ""),
  ("flexShrink", .numeric ""),
  ("order", .numeric ""),
  ("zIndex", .numeric ""),
  ("overflowX", .ofNames ["auto", "hidden", "clip", "visible", "scroll"]),
  ("overflowY", .ofNames ["auto", "hidden", "clip", "visible", "scroll"]),
  ("boxSizing", .ofNames ["border-box", "content-box"]),
  ("pointerEvents", .ofNames ["none", "auto"]),
  ("userSelect", .ofNames ["none", "text", "all", "auto"]),
  ("visibility", .ofNames ["visible", "hidden", "collapse"]),
  ("cursor", .ofNames [
    "auto", "default", "pointer", "wait", "text", "move", "not-allowed", "grab", "grabbing"])]

/-- The shorthands. -/
def shorthands : List (String × List String) := [
  ("padding", ["paddingTop", "paddingBottom", "paddingStart", "paddingEnd"]),
  ("paddingX", ["paddingStart", "paddingEnd"]),
  ("paddingY", ["paddingTop", "paddingBottom"]),
  ("margin", ["marginTop", "marginBottom", "marginStart", "marginEnd"]),
  ("marginX", ["marginStart", "marginEnd"]),
  ("marginY", ["marginTop", "marginBottom"]),
  ("borderWidth", ["borderTopWidth", "borderBottomWidth", "borderStartWidth", "borderEndWidth"]),
  ("borderXWidth", ["borderStartWidth", "borderEndWidth"]),
  ("borderYWidth", ["borderTopWidth", "borderBottomWidth"]),
  ("borderRadius", [
    "borderTopStartRadius", "borderTopEndRadius", "borderBottomStartRadius",
    "borderBottomEndRadius"]),
  ("insetX", ["insetStart", "insetEnd"]),
  ("insetY", ["top", "bottom"]),
  ("placeItems", ["alignItems", "justifyItems"]),
  ("placeContent", ["alignContent", "justifyContent"]),
  ("placeSelf", ["alignSelf", "justifySelf"]),
  ("gap", ["rowGap", "columnGap"]),
  ("size", ["width", "height"]),
  ("overflow", ["overflowX", "overflowY"])]

/-- The conditions, from the weakest cascade layer to the strongest. -/
def conditions : List (String × String) := [
  ("dark", "@media (prefers-color-scheme: dark)"),
  ("forcedColors", "@media (forced-colors: active)"),
  ("sm", "@media (min-width: 640px)"),
  ("md", "@media (min-width: 768px)"),
  ("lg", "@media (min-width: 1024px)"),
  ("xl", "@media (min-width: 1280px)"),
  ("2xl", "@media (min-width: 1536px)")]

/-- The entries of the theme. -/
def draft : ThemeDraft :=
  { properties :=
      colorProperties ++ dimensionProperties ++ borderProperties ++ textProperties
        ++ effectProperties ++ transitionProperties ++ layoutProperties
    conditions := conditions
    shorthands := shorthands }

/-- The theme. Its entries agree with each other, so building it succeeds. -/
def theme : Except StyleError Theme :=
  draft.build

end AtomicStyles.StandardTheme
