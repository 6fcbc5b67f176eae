import StyleHoist.Declaration
import StyleHoist.Digest

/-! Names of generated classes: a marking text and the leading hexadecimal
digits of the digest of the declaration. -/
namespace StyleHoist

structure ClassId where
  text : Text
deriving DecidableEq, Repr, Inhabited

namespace ClassId

/-- How many digits a name keeps. Rules of earlier runs are recognised by it. -/
def digestLength : Nat := 8

/-- The marking text used unless the configuration names another. -/
def defaultClassPrefix : Text := "inl-".toList

def isHexDigit (c : Char) : Bool := Digest.hexDigits.contains c

def derive (classPrefix : Text) (declaration : Declaration) : ClassId :=
  ⟨classPrefix ++ (Digest.hex (declaration.text.flatMap String.utf8EncodeChar)).take digestLength⟩

end ClassId

/-- A declaration and the class that stands for it. -/
structure Binding where
  declaration : Declaration
  id : ClassId
deriving DecidableEq, Repr, Inhabited

end StyleHoist
