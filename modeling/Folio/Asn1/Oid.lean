import Folio.Asn1.Error

/-!
# Object identifiers

An object identifier is a list of numbers, its arcs. It is encoded as numbers in base 128, the
highest digit first, where all digits of a number but the last are marked; the first two arcs share
one number.
-/

namespace Folio.Asn1

/-- An object identifier. -/
structure Oid where
  arcs : List Nat
deriving DecidableEq

namespace Oid

/-- The numbers that some bytes encode, the digits of the current one being given and whether there
are any. A number has no leading zeros and fits into 64 bits. -/
def decodeNumbers? : Nat → Bool → Bytes → Option (List Nat)
  | _, started, [] => if started then none else some []
  | value, started, b :: rest =>
    if !started && b == 0x80 then none
    else if UInt64.size ≤ value * 128 then none
    else
      let value := value * 128 + b.toNat % 128
      if b < 0x80 then (decodeNumbers? 0 false rest).map (value :: ·)
      else decodeNumbers? value true rest

/-- The two arcs that a first number stands for. -/
def splitFirst (number : Nat) : Nat × Nat :=
  let first := min (number / 40) 2
  (first, number - first * 40)

/-- The identifier that some bytes encode. -/
def decode (contents : Bytes) : Except Error Oid :=
  match decodeNumbers? 0 false contents with
  | some (number :: rest) =>
    let (first, second) := splitFirst number
    .ok ⟨first :: second :: rest⟩
  | _ => .error .invalidObjectIdentifier

/-- The identifier in its usual notation. -/
def text (o : Oid) : String := ".".intercalate (o.arcs.map toString)

/-- The content type of plain data. -/
def data : Oid := ⟨[1, 2, 840, 113549, 1, 7, 1]⟩

/-- The content type of signed data. -/
def signedData : Oid := ⟨[1, 2, 840, 113549, 1, 7, 2]⟩

/-- The content type of enveloped data. -/
def envelopedData : Oid := ⟨[1, 2, 840, 113549, 1, 7, 3]⟩

/-- The content type of digested data. -/
def digestedData : Oid := ⟨[1, 2, 840, 113549, 1, 7, 5]⟩

/-- The content type of encrypted data. -/
def encryptedData : Oid := ⟨[1, 2, 840, 113549, 1, 7, 6]⟩

/-- The content type of what a timestamp states. -/
def timestampInfo : Oid := ⟨[1, 2, 840, 113549, 1, 9, 16, 1, 4]⟩

/-- The attribute that holds the digest of the content. -/
def messageDigest : Oid := ⟨[1, 2, 840, 113549, 1, 9, 4]⟩

/-- The attribute that holds the time of signing. -/
def signingTime : Oid := ⟨[1, 2, 840, 113549, 1, 9, 5]⟩

/-- The attribute that holds a timestamp. -/
def timestampToken : Oid := ⟨[1, 2, 840, 113549, 1, 9, 16, 2, 14]⟩

/-- The part of a name that is its common name. -/
def commonName : Oid := ⟨[2, 5, 4, 3]⟩

/-- The digest MD5. -/
def md5 : Oid := ⟨[1, 2, 840, 113549, 2, 5]⟩

/-- The digest SHA-1. -/
def sha1 : Oid := ⟨[1, 3, 14, 3, 2, 26]⟩

/-- The digest SHA-256. -/
def sha256 : Oid := ⟨[2, 16, 840, 1, 101, 3, 4, 2, 1]⟩

/-- The digest SHA-384. -/
def sha384 : Oid := ⟨[2, 16, 840, 1, 101, 3, 4, 2, 2]⟩

/-- The digest SHA-512. -/
def sha512 : Oid := ⟨[2, 16, 840, 1, 101, 3, 4, 2, 3]⟩

/-- RSA signatures with MD5. -/
def md5WithRsa : Oid := ⟨[1, 2, 840, 113549, 1, 1, 4]⟩

/-- RSA signatures with SHA-1. -/
def sha1WithRsa : Oid := ⟨[1, 2, 840, 113549, 1, 1, 5]⟩

/-- RSA signatures with SHA-256. -/
def sha256WithRsa : Oid := ⟨[1, 2, 840, 113549, 1, 1, 11]⟩

/-- RSA signatures with SHA-384. -/
def sha384WithRsa : Oid := ⟨[1, 2, 840, 113549, 1, 1, 12]⟩

/-- RSA signatures with SHA-512. -/
def sha512WithRsa : Oid := ⟨[1, 2, 840, 113549, 1, 1, 13]⟩

/-- The identifiers that have a name of their own. -/
def names : List (Oid × String) := [
  (data, "data"), (signedData, "signedData"), (envelopedData, "envelopedData"),
  (digestedData, "digestedData"), (encryptedData, "encryptedData"), (timestampInfo, "tstInfo"),
  (messageDigest, "messageDigest"), (signingTime, "signingTime"),
  (timestampToken, "timeStampToken"), (commonName, "commonName"), (md5, "md5"), (sha1, "sha1"),
  (sha256, "sha256"), (sha384, "sha384"), (sha512, "sha512"),
  (⟨[1, 2, 840, 113549, 1, 1, 1]⟩, "rsaEncryption"), (md5WithRsa, "md5WithRSAEncryption"),
  (sha1WithRsa, "sha1WithRSAEncryption"), (sha256WithRsa, "sha256WithRSAEncryption"),
  (sha384WithRsa, "sha384WithRSAEncryption"), (sha512WithRsa, "sha512WithRSAEncryption"),
  (⟨[1, 2, 840, 10045, 4, 3, 2]⟩, "ecdsa-with-SHA256"),
  (⟨[1, 2, 840, 10045, 4, 3, 3]⟩, "ecdsa-with-SHA384"),
  (⟨[1, 2, 840, 10045, 4, 3, 4]⟩, "ecdsa-with-SHA512")]

/-- The name of a well-known identifier. -/
def name? (o : Oid) : Option String := (names.find? fun (known, _) => known = o).map (·.2)

/-- The identifier with its name after it, if it has one. -/
def describe (o : Oid) : String :=
  match o.name? with
  | some name => o.text ++ " (" ++ name ++ ")"
  | none => o.text

end Oid

end Folio.Asn1
