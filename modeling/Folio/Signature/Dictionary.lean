import Folio.Signature.Validation

/-!
# Signature dictionaries

The dictionary in a document that holds a signature and states what it covers.
-/

namespace Folio.Signature

/-- What a signature dictionary states. -/
structure Dictionary where
  /-- The handler for the signature. -/
  filter : Option Name
  /-- The encoding of the signature. -/
  subFilter : Option Name
  /-- The encoded signature with the zeros after it. -/
  contents : Bytes
  byteRange : ByteRange
  /-- The name of the signer. -/
  name : Option String
  reason : Option String
  location : Option String
  contactInfo : Option String
  signingTime : Option String

namespace Dictionary

/-- The text under a key, as it is where it cannot be decrypted. -/
def text? (store : Store) (d : Dict) (key : Name) : Option String :=
  (store.entry? Object.str? d key).map fun s =>
    match s.decryptedText store.security with
    | .ok text => text
    | .error _ => s.text

/-- The signature dictionary that a dictionary is. The signature itself is never encrypted. -/
def ofDict? (d : Dict) (store : Store) : Option Dictionary := do
  let contents ← store.entry? Object.str? d "Contents"
  let range ← d.get? "ByteRange"
  let byteRange ← ByteRange.ofObject? range store
  some
    { filter := store.entry? Object.name? d "Filter"
      subFilter := store.entry? Object.name? d "SubFilter"
      contents := contents.bytes
      byteRange
      name := text? store d "Name"
      reason := text? store d "Reason"
      location := text? store d "Location"
      contactInfo := text? store d "ContactInfo"
      signingTime := text? store d "M" }

/-- The signed data that the contents encode. -/
def signedData (d : Dictionary) : Except Error SignedData := SignedData.parse d.contents

end Dictionary

end Folio.Signature
