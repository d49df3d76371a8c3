import Folio.Bits
import Folio.Error

/-!
# Fax images

The parameters of fax coding and the images it results in. An image is packed with one bit for each
pixel, rows beginning at whole bytes, and a bit that is set is black.
-/

namespace Folio.Fax

/-- The coding scheme of fax data. -/
inductive Scheme where
  /-- Rows of runs. -/
  | oneDimensional
  /-- A tag before each row selects how the row is coded. -/
  | mixed
  /-- Rows coded with respect to the row above. -/
  | twoDimensional
deriving DecidableEq

/-- The scheme that the parameter `K` selects by its sign. -/
def Scheme.ofK (k : Int) : Scheme :=
  if k < 0 then twoDimensional else if k = 0 then oneDimensional else mixed

/-- What the meaning of fax data depends on. -/
structure Params where
  scheme : Scheme := .oneDimensional
  columns : Nat := 1728
  /-- The number of rows, or zero if it is unknown. -/
  rows : Nat := 0
  /-- Whether each row starts at a whole byte. -/
  byteAligned : Bool := false

/-- The largest number of columns. -/
def maxColumns : Nat := 1 <<< 20

/-- Why fax data cannot be decoded. -/
inductive Error where
  | unexpectedEnd
  | invalidCode
  /-- A change of color would come before the previous one. -/
  | invalidRow
  | invalidColumns
deriving DecidableEq

/-- The wording of an error. -/
def Error.message : Error → String
  | unexpectedEnd => "unexpected end of data"
  | invalidCode => "invalid code"
  | invalidRow => "row does not match its reference row"
  | invalidColumns => "invalid number of columns"

/-- An error of fax data as one of the document. -/
def Error.report (_ : Error) : ErrorReport := ⟨.codec, "invalid CCITT data"⟩

/-- A decoded image. -/
structure Image where
  columns : Nat
  rows : Nat
  data : Bytes

namespace Image

/-- The number of bytes of a row. -/
def stride (i : Image) : Nat := (i.columns + 7) / 8

/-- Whether the bit at a position is set, where `x` may run on into the rows below. -/
def isBlack (i : Image) (x y : Nat) : Bool :=
  (i.data[y * i.stride + x / 8]?).any fun b => Bits.testBit b (x % 8)

end Image

end Folio.Fax
