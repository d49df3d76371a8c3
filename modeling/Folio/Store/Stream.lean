import Folio.Filter.Basic
import Folio.Store.Basic

/-!
# Decoding streams

The data of a stream is decrypted, if the document is encrypted and the stream is an indirect
object, and then goes through its filters in order. Decoding stops at a filter for images.
-/

namespace Folio

/-- A filter and its parameters. -/
abbrev FilterStep := Filter × Option Dict

/-- The data of a stream, decoded up to a filter for images if there is one. -/
structure DecodedStream where
  data : Bytes
  imageFilter : Option FilterStep

namespace Stream

/-- A stream that is no indirect object. -/
def ofData (dict : Dict) (data : Bytes) : Stream := ⟨dict, data, none⟩

/-- The names of the filters, in the order in which they are undone. -/
def filterNames (s : Stream) (store : Store) : Except Error (List Name) :=
  match s.dict.get? "Filter" with
  | none => .ok []
  | some entry =>
    match store.resolve? entry with
    | some (.name n) => .ok [n]
    | some (.array items) => .ok (items.filterMap (store.resolveAs? Object.name?))
    | _ => .error .invalidFilterEntry

/-- The parameters of the filter at an index. A single dictionary belongs to the first filter. -/
def filterParams (s : Stream) (store : Store) (index : Nat) : Option Dict :=
  match (s.dict.get? "DecodeParms").bind store.resolve? with
  | some (.dict d) => if index = 0 then some d else none
  | some (.array items) => store.item? Object.dict? items index
  | _ => none

/-- The filters with their parameters, in the order in which they are undone. -/
def filters (s : Stream) (store : Store) : Except Error (List FilterStep) := do
  let names ← s.filterNames store
  names.zipIdx.mapM fun (n, index) =>
    match Filter.ofName? n with
    | some f => .ok (f, s.filterParams store index)
    | none => .error .unknownFilter

/-- Whether the stream holds the document's table of references, which is never encrypted. -/
def isReferenceTable (s : Stream) : Bool :=
  s.dict.getAs? Object.name? "Type" == some ("XRef" : Name)

/-- The data after decryption. -/
def decrypted (s : Stream) (store : Store) : Except Error Bytes :=
  match store.security, s.reference with
  | some security, some owner =>
    if s.isReferenceTable then .ok s.data else security.decryptStream owner s.data
  | _, _ => .ok s.data

/-- The data after filters are undone, up to one for images. -/
def applyFilters : List FilterStep → Bytes → Except Error DecodedStream
  | [], data => .ok ⟨data, none⟩
  | (f, params) :: rest, data =>
    if f.isForImages then .ok ⟨data, some (f, params)⟩
    else
      match f.decode? data params with
      | some data => applyFilters rest data
      | none => .error .filterFailed

/-- The data, decrypted and decoded up to a filter for images. -/
def decode (s : Stream) (store : Store) : Except Error DecodedStream := do
  let data ← s.decrypted store
  let filters ← s.filters store
  applyFilters filters data

/-- The data, decrypted and fully decoded. -/
def decoded (s : Stream) (store : Store) : Except Error Bytes := do
  let d ← s.decode store
  match d.imageFilter with
  | some _ => .error .imageFilter
  | none => .ok d.data

end Stream

end Folio
