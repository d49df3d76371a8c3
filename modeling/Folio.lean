import Folio.Asn1.Element
import Folio.Asn1.Error
import Folio.Asn1.Oid
import Folio.Asn1.Time
import Folio.Bilevel.Arithmetic
import Folio.Bilevel.Basic
import Folio.Bilevel.Bitmap
import Folio.Bilevel.Decode
import Folio.Bilevel.Page
import Folio.Bilevel.Region
import Folio.Bilevel.Segment
import Folio.Bits
import Folio.Bytes
import Folio.Cipher.Aes
import Folio.Cipher.Rc4
import Folio.Color.Calibrated
import Folio.Color.Cmyk
import Folio.Color.Profile
import Folio.Color.Rgb
import Folio.Color.Space
import Folio.Content.InlineImage
import Folio.Content.Instruction
import Folio.Digest.Algorithm
import Folio.Digest.Md5
import Folio.Digest.Padding
import Folio.Digest.Sha1
import Folio.Digest.Sha2
import Folio.Draw.Command
import Folio.Draw.Execution
import Folio.Draw.Gallery
import Folio.Draw.Geometry
import Folio.Draw.Machine
import Folio.Draw.Operation
import Folio.Draw.Replay
import Folio.Error
import Folio.Fax.Basic
import Folio.Fax.Code
import Folio.Fax.Decode
import Folio.Fax.Row
import Folio.Filter.Ascii
import Folio.Filter.Basic
import Folio.Filter.Flate
import Folio.Filter.Inflate
import Folio.Filter.Predictor
import Folio.Filter.RunLength
import Folio.Function
import Folio.Image.Base
import Folio.Image.Bilevel
import Folio.Image.Color
import Folio.Image.Config
import Folio.Image.Fax
import Folio.Image.Jpeg
import Folio.Image.Jpeg2000
import Folio.Image.Mask
import Folio.Image.Masked
import Folio.Image.Object
import Folio.Image.Raster
import Folio.Image.Reader
import Folio.Image.Sample
import Folio.Jpeg.Baseline
import Folio.Jpeg.Marker
import Folio.Layer.Membership
import Folio.Layer.Visibility
import Folio.NameTree.Node
import Folio.NameTree.Search
import Folio.Object.Basic
import Folio.Object.Cast
import Folio.Object.Decimal
import Folio.Object.Name
import Folio.Object.Number
import Folio.Object.Reference
import Folio.Object.Str
import Folio.PrefixCode
import Folio.Resources
import Folio.Security.Basic
import Folio.Security.Standard
import Folio.Signature.Certificate
import Folio.Signature.Dictionary
import Folio.Signature.Error
import Folio.Signature.SignedData
import Folio.Signature.Validation
import Folio.Single
import Folio.Store.Basic
import Folio.Store.Body
import Folio.Store.Stream
import Folio.Syntax.Character
import Folio.Syntax.Cursor
import Folio.Syntax.Grammar
import Folio.Syntax.Numeral
import Folio.Syntax.Parser
import Folio.Text.Utf16
import Folio.Text.Utf8
import Folio.Proofs.NameTree.Height
import Folio.Proofs.NameTree.WellFormed
import Folio.Proofs.NameTree.Search
import Folio.Proofs.NameTree.Trace
import Folio.Proofs.NameTree.Soundness
import Folio.Proofs.NameTree.Recovery
import Folio.Proofs.NameTree.Termination
import Folio.Proofs.Bilevel.ArithmeticEncoder
import Folio.Proofs.Bilevel.ArithmeticInterval
import Folio.Proofs.Bilevel.ArithmeticRoundTrip
import Folio.Proofs.Bilevel.ArithmeticBounds
import Folio.Proofs.Bytes
import Folio.Proofs.Bilevel.Bitmap
import Folio.Proofs.Bilevel.Composition
import Folio.Proofs.Bilevel.Reader
import Folio.Proofs.Bilevel.SegmentFormat
import Folio.Proofs.Bilevel.HeaderRoundTrip
import Folio.Proofs.Bilevel.Organisations
import Folio.Proofs.Bilevel.RegionEncoder
import Folio.Proofs.Bilevel.RegionRoundTrip
import Folio.Proofs.Bilevel.StandardMarks
import Folio.Proofs.Bilevel.OpenLength
import Folio.Proofs.Bits
import Folio.Proofs.Fax.Changes
import Folio.Proofs.Fax.Reference
import Folio.Proofs.Fax.Words
import Folio.Proofs.Fax.Image
import Folio.Proofs.Fax.Encoding
import Folio.Proofs.Fax.RoundTrip
import Folio.Proofs.Syntax.Space
import Folio.Proofs.Syntax.Numeral
import Folio.Proofs.Syntax.Token
import Folio.Proofs.Object.Dictionary
import Folio.Proofs.Object.Ownership
import Folio.Proofs.Object.Hexadecimal
import Folio.Proofs.Syntax.Print
import Folio.Proofs.Syntax.Follow
import Folio.Proofs.Syntax.RoundTrip
import Folio.Proofs.Store.Body
import Folio.Proofs.Store.Adoption
import Folio.Proofs.Except
import Folio.Proofs.Store.Indirection
import Folio.Proofs.Function.Indirection
import Folio.Proofs.Layer.Membership
import Folio.Proofs.Asn1.Tree
import Folio.Proofs.Asn1.RoundTrip
import Folio.Proofs.Asn1.Extent
import Folio.Proofs.Asn1.Integer
import Folio.Proofs.Asn1.Oid
import Folio.Proofs.Asn1.Time
import Folio.Proofs.Asn1.Grammar
import Folio.Proofs.Asn1.Shape
import Folio.Proofs.Asn1.Calendar
import Folio.Proofs.Asn1.Rewriting
import Folio.Proofs.Filter.Ascii
import Folio.Proofs.Filter.RunLength
import Folio.Proofs.Filter.Chain
import Folio.Proofs.Filter.Prediction
import Folio.Proofs.Cipher.AesBlock
import Folio.Proofs.Cipher.AesChain
import Folio.Proofs.Cipher.Rc4
import Folio.Proofs.Security.RoundTrip
import Folio.Proofs.Content.Print
import Folio.Proofs.Content.RoundTrip
import Folio.Proofs.Signature.Anatomy
import Folio.Proofs.Signature.Placeholder
import Folio.Proofs.Signature.Written
import Folio.Proofs.Signature.RoundTrip
import Folio.Proofs.Signature.Binding
import Folio.Proofs.Signature.Identity
import Folio.Proofs.Signature.Unsigned
import Folio.Proofs.Draw.Steps
import Folio.Proofs.Draw.Moves
import Folio.Proofs.Content.Progress
import Folio.Proofs.Draw.Balance
import Folio.Proofs.Draw.Quantity
import Folio.Proofs.Draw.Notes
import Folio.Proofs.Draw.Mask
import Folio.Proofs.Draw.Construction
import Folio.Proofs.Draw.Session
import Folio.Proofs.Draw.Replay
import Folio.Proofs.Image.Cache
import Folio.Proofs.Image.Parameters
import Folio.Proofs.Image.WellFormed
import Folio.Proofs.Image.Declared
import Folio.Proofs.Image.Layout
import Folio.Proofs.Image.Bilevel
import Folio.Proofs.Image.Fax
import Folio.Proofs.Image.Unfiltered
import Folio.Proofs.Image.ColorKey
import Folio.Proofs.Fax.Invariant
import Folio.Proofs.Fax.Cut
import Folio.Proofs.Fax.Truncation
import Folio.Proofs.Fax.PixelAccess
import Folio.Proofs.Jpeg.Header
import Folio.Proofs.Text.Utf16
import Folio.Proofs.Syntax.Restoration
import Folio.Proofs.Single
import Folio.Proofs.Color.Indexed
import Folio.Proofs.NumberReader
