import StyleHoist.Text.Position

/-! What a scan of a document finds: `style` attributes with the tag around
them, and places that look like one but are left alone. -/
namespace StyleHoist.Markup

/-- A `class` attribute. Its value stands between two equal quotes, or bare. -/
structure ClassAttr where
  attr : Span
  value : Span
  quoted : Bool
deriving DecidableEq, Repr, Inhabited

/-- A double-quoted `style` attribute, its tag, and the first class attribute of that tag. -/
structure StyleAttr where
  /-- From the name through the closing quote. -/
  attr : Span
  /-- Between the quotes. -/
  value : Span
  /-- From the opening angle bracket through the closing one. -/
  tag : Span
  classAttr : Option ClassAttr
deriving DecidableEq, Repr, Inhabited

inductive Trouble where
  /-- No quote closes the value. -/
  | malformed
  /-- The attribute is not inside a tag that can be edited. -/
  | unbounded
  /-- A quote stands directly before the attribute. -/
  | unseparated
deriving DecidableEq, Repr

structure Warning where
  trouble : Trouble
  position : Position
deriving DecidableEq, Repr

def Trouble.text : Trouble → String
  | .malformed => "unterminated style attribute"
  | .unbounded => "style attribute is not inside a tag"
  | .unseparated => "style attribute is not separated from the previous attribute"

def Warning.text (warning : Warning) : String :=
  warning.position.text ++ ": " ++ warning.trouble.text

inductive Item where
  | style (attr : StyleAttr)
  | warning (found : Warning)
deriving DecidableEq, Repr

def Item.style? : Item → Option StyleAttr
  | .style attr => some attr
  | .warning _ => none

def Item.warning? : Item → Option Warning
  | .style _ => none
  | .warning found => some found

end StyleHoist.Markup
