import Folio.Text.Utf8

/-!
# Names

A name is a byte string that serves as an identifier. In a document it is written with the escapes
`#xx`, which `Name.unescape` resolves; an escape without two hexadecimal digits stands for itself.
-/

namespace Folio

/-- A name, with its escapes resolved. -/
structure Name where
  bytes : Bytes
deriving DecidableEq

namespace Name

/-- The name spelt by a text of ASCII characters. -/
def ofAscii (s : String) : Name := ⟨Bytes.ofAscii s⟩

instance : Coe String Name := ⟨ofAscii⟩

instance : Inhabited Name := ⟨⟨[]⟩⟩

/-- Names are ordered by their bytes. -/
instance : LT Name := ⟨fun a b => a.bytes < b.bytes⟩

instance (a b : Name) : Decidable (a < b) := inferInstanceAs (Decidable (a.bytes < b.bytes))

/-- The bytes of a name token with its escapes resolved. -/
def unescape : Bytes → Bytes
  | 35 :: high :: low :: rest =>
    match Bytes.hexValue? high, Bytes.hexValue? low with
    | some h, some l => (h * 16 + l) :: unescape rest
    | _, _ => 35 :: unescape (high :: low :: rest)
  | b :: rest => b :: unescape rest
  | [] => []

/-- The name that a token spells. -/
def ofEscaped (token : Bytes) : Name := ⟨unescape token⟩

/-- The name as text; malformed UTF-8 is replaced. -/
def text (n : Name) : String := Text.Utf8.decodeLossy n.bytes

end Name

end Folio
