import Folio.Bytes

/-!
# AES-128

The block cipher with a key of 16 bytes, and its use on data of any length: cipher block chaining,
the first block being the initialization vector. A block is a list of 16 bytes, column after
column.
-/

namespace Folio.Cipher.Aes

/-- The product of a byte and 2 in the field of 256 elements. -/
def double (b : UInt8) : UInt8 := if b < 0x80 then b <<< 1 else (b <<< 1) ^^^ 0x1b

/-- The product of two bytes in the field of 256 elements, by the lowest `count` bits of the
second. -/
def mulBits : Nat → UInt8 → UInt8 → UInt8
  | 0, _, _ => 0
  | count + 1, a, b => (if b % 2 = 1 then a else 0) ^^^ mulBits count (double a) (b / 2)

/-- The product of two bytes in the field of 256 elements. -/
def mul (a b : UInt8) : UInt8 := mulBits 8 a b

/-- A byte to the power 254, which is its inverse, and zero for zero. -/
def inverse (b : UInt8) : UInt8 :=
  let b2 := mul b b
  let b4 := mul b2 b2
  let b8 := mul b4 b4
  let b16 := mul b8 b8
  let b32 := mul b16 b16
  let b64 := mul b32 b32
  let b128 := mul b64 b64
  [b4, b8, b16, b32, b64, b128].foldl mul b2

/-- A byte rotated to the left. -/
def rotate (b n : UInt8) : UInt8 := (b <<< n) ||| (b >>> (8 - n))

/-- The substitution of a byte. -/
def substitute (b : UInt8) : UInt8 :=
  let i := inverse b
  i ^^^ rotate i 1 ^^^ rotate i 2 ^^^ rotate i 3 ^^^ rotate i 4 ^^^ 0x63

/-- The substitutions of all bytes. -/
def table : Array UInt8 := ((List.range 256).map fun n => substitute n.toUInt8).toArray

/-- The bytes whose substitutions are all bytes. -/
def inverseTable : Array UInt8 :=
  (List.range 256).foldl (fun t n => t.setIfInBounds (table.getD n 0).toNat n.toUInt8)
    (Array.replicate 256 0)

/-- All bytes of a block substituted by a table. -/
def substituteAll (table : Array UInt8) (block : Bytes) : Bytes :=
  block.map fun b => table.getD b.toNat 0

/-- The block with the bytes of row `r` taken `r * columns` columns further on. -/
def shiftRows (columns : Nat) (block : Bytes) : Bytes :=
  let block := block.toArray
  (List.range 16).map fun i => block.getD ((i + 4 * columns * (i % 4)) % 16) 0

/-- A column multiplied by the circulant matrix with the given first row. -/
def mixColumn (row column : Bytes) : Bytes :=
  let column := column.toArray
  let row := row.toArray
  (List.range 4).map fun i =>
    (List.range 4).foldl
      (fun sum j => sum ^^^ mul (row.getD ((j + 4 - i) % 4) 0) (column.getD j 0)) 0

/-- All columns multiplied by a circulant matrix. -/
def mixColumns (row block : Bytes) : Bytes := (Bytes.blocks 4 block).flatMap (mixColumn row)

/-- The exclusive or of two blocks. -/
def xor (a b : Bytes) : Bytes := List.zipWith (fun x y => x ^^^ y) a b

/-- The four words after the given ones in the expansion of a key. -/
def nextRoundKey (constant : UInt8) (key : Bytes) : Bytes :=
  let words := Bytes.blocks 4 key
  let last := words.getLastD []
  let turned := xor (substituteAll table (last.drop 1 ++ last.take 1)) [constant, 0, 0, 0]
  (words.foldl (fun (out, previous) word =>
    let word := xor previous word
    (out ++ word, word)) (([] : Bytes), turned)).1

/-- The round keys after a given one, of which there are `count`. -/
def expandKey : Nat → UInt8 → Bytes → List Bytes
  | 0, _, _ => []
  | count + 1, constant, key =>
    let next := nextRoundKey constant key
    next :: expandKey count (double constant) next

/-- The keys of the eleven rounds. -/
def roundKeys (key : Bytes) : List Bytes := key :: expandKey 10 1 key

/-- A block encrypted with a key of 16 bytes. -/
def encryptBlock (key block : Bytes) : Bytes :=
  match roundKeys key with
  | [] => block
  | first :: rest =>
    let mixed := rest.dropLast.foldl (fun s k =>
      xor (mixColumns [2, 3, 1, 1] (shiftRows 1 (substituteAll table s))) k) (xor block first)
    xor (shiftRows 1 (substituteAll table mixed)) (rest.getLastD [])

/-- A block decrypted with a key of 16 bytes. -/
def decryptBlock (key block : Bytes) : Bytes :=
  match (roundKeys key).reverse with
  | [] => block
  | last :: rest =>
    let undo (s : Bytes) := substituteAll inverseTable (shiftRows 3 s)
    let mixed := rest.dropLast.foldl (fun s k =>
      mixColumns [14, 11, 13, 9] (xor (undo s) k)) (xor block last)
    xor (undo mixed) (rest.getLastD [])

/-- Blocks encrypted in a chain that starts from a vector. -/
def encryptChain (key : Bytes) : Bytes → List Bytes → Bytes
  | _, [] => []
  | vector, block :: rest =>
    let out := encryptBlock key (xor block vector)
    out ++ encryptChain key out rest

/-- Blocks decrypted in a chain that starts from a vector. -/
def decryptChain (key : Bytes) : Bytes → List Bytes → Bytes
  | _, [] => []
  | vector, block :: rest => xor (decryptBlock key block) vector ++ decryptChain key block rest

/-- The data followed by as many bytes as complete the last block, at least one, each of which
holds their number. -/
def pad (data : Bytes) : Bytes :=
  let count := 16 - data.length % 16
  data ++ List.replicate count count.toUInt8

/-- The data without such bytes; data that does not end in them is left as it is. -/
def unpad (data : Bytes) : Bytes :=
  match data.getLast? with
  | none => data
  | some last =>
    let count := last.toNat
    if 1 ≤ count ∧ count ≤ 16 ∧ count ≤ data.length ∧
        (data.drop (data.length - count)).all (· == last) then
      data.take (data.length - count)
    else data

/-- The padded data encrypted in a chain, after the vector it starts from. -/
def encrypt? (key vector data : Bytes) : Option Bytes :=
  if key.length = 16 ∧ vector.length = 16 then
    some (vector ++ encryptChain key vector (Bytes.blocks 16 (pad data)))
  else none

/-- The data decrypted in a chain that starts from its first block. Nothing after that block is
empty data, whatever the key. -/
def decrypt? (key data : Bytes) : Option Bytes := do
  let (vector, data) ← data.splitAt? 16
  if data.isEmpty then some []
  else if data.length % 16 ≠ 0 ∨ key.length ≠ 16 then none
  else some (unpad (decryptChain key vector (Bytes.blocks 16 data)))

end Folio.Cipher.Aes
