import Folio.Bytes

/-!
# Errors of encoded elements
-/

namespace Folio.Asn1

/-- Why an encoded element cannot be read. -/
inductive Error where
  | unexpectedEnd
  | invalidLength
  /-- An element has another tag than is expected. -/
  | unexpectedTag (expected found : UInt8)
  | invalidInteger
  | invalidObjectIdentifier
  | invalidTime
  /-- Elements are nested too deeply. -/
  | tooDeep
deriving DecidableEq

/-- A tag as text. -/
def tagText (tag : UInt8) : String := "0x" ++ (Bytes.toLatin1 (Bytes.toHex [tag])).map Char.toLower

/-- The wording of an error. -/
def Error.message : Error → String
  | unexpectedEnd => "unexpected end of data"
  | invalidLength => "invalid length"
  | unexpectedTag expected found =>
    "expected tag " ++ tagText expected ++ ", found " ++ tagText found
  | invalidInteger => "invalid integer"
  | invalidObjectIdentifier => "invalid object identifier"
  | invalidTime => "invalid time"
  | tooDeep => "elements are nested too deeply"

end Folio.Asn1
