import TileCompositor.Coverage.Target
/-!
# PNG files

A target as a PNG file of eight bits a channel: the signature, then the chunks
`IHDR`, `IDAT` and `IEND`. The rows are not compressed: the data chunk holds
them as stored blocks, each row behind a filter byte of zero.
-/
namespace TileCompositor.Png

/-- The bytes of a word, the highest first. -/
def word (v : UInt32) : ByteArray :=
  ⟨#[(v >>> 24).toUInt8, (v >>> 16).toUInt8, (v >>> 8).toUInt8, v.toUInt8]⟩

/-- One bit out of the remainder of a division by the polynomial of CRC-32. -/
def crcBit (c : UInt32) : UInt32 := if c &&& 1 = 1 then (c >>> 1) ^^^ 0xEDB88320 else c >>> 1

/-- One byte into the remainder. -/
def crcByte (c : UInt32) (b : UInt8) : UInt32 := Nat.repeat crcBit 8 (c ^^^ b.toUInt32)

/-- The CRC-32 of the bytes. -/
def crc32 (bytes : ByteArray) : UInt32 := bytes.foldl crcByte 0xFFFFFFFF ^^^ 0xFFFFFFFF

/-- The Adler-32 sum of the bytes: their sum and the sum of its values on the
way, each modulo the largest prime below `2 ^ 16`. -/
def adler32 (bytes : ByteArray) : UInt32 :=
  let (low, high) := bytes.foldl (fun (low, high) b =>
    let low := (low + b.toUInt32) % 65521
    (low, (high + low) % 65521)) ((1, 0) : UInt32 × UInt32)
  high <<< 16 ||| low

/-- A chunk: its length, its four letters, its data and a check sum of both. -/
def chunk (letters : String) (data : ByteArray) : ByteArray :=
  let body := letters.toUTF8 ++ data
  word data.size.toUInt32 ++ body ++ word (crc32 body)

/-- The most bytes that a stored block holds. -/
def blockSize : Nat := 65535

/-- A stored block: whether it is the last one, its length, the complement of
the length, and the bytes. -/
def storedBlock (last : Bool) (data : ByteArray) : ByteArray :=
  let n := data.size.toUInt16
  ⟨#[if last then 1 else 0, n.toUInt8, (n >>> 8).toUInt8, (~~~n).toUInt8, (~~~n >>> 8).toUInt8]⟩ ++ data

/-- The bytes as a stream of stored blocks between the header and the check sum
of the stream. -/
def stored (data : ByteArray) : ByteArray :=
  let last := data.size / blockSize
  let blocks := (List.range (last + 1)).foldl (fun out i =>
    out ++ storedBlock (i == last) (data.extract (i * blockSize) ((i + 1) * blockSize))) ByteArray.empty
  ⟨#[0x78, 0x01]⟩ ++ blocks ++ word (adler32 data)

/-- The rows of a target, each behind its filter byte. -/
def scanlines (t : Target) : ByteArray :=
  t.rows.foldl (fun out row =>
    row.foldl (fun out c => c.toRgba8.toList.foldl ByteArray.push out) (out.push 0)) ByteArray.empty

/-- Eight bits a channel, red, green, blue and alpha, no interlacing. -/
def header (t : Target) : ByteArray := word t.width ++ word t.height ++ ⟨#[8, 6, 0, 0, 0]⟩

def signature : ByteArray := ⟨#[0x89, 0x50, 0x4E, 0x47, 0x0D, 0x0A, 0x1A, 0x0A]⟩

/-- The file that shows the target. -/
def encode (t : Target) : ByteArray :=
  signature ++ chunk "IHDR" (header t) ++ chunk "IDAT" (stored (scanlines t)) ++
    chunk "IEND" ByteArray.empty

end TileCompositor.Png
