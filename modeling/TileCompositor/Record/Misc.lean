import TileCompositor.Scalar.Integral
/-!
# The packed table indices of a record

A record refers to its table entries by four numbers packed as floats:
transform, clip-in region, clip-out region and tile. The sign bit of the
fourth selects border-corner mode, so that -0 means "mode on, tile 0".

The packed form is kept as raw words, because the sign bit also counts on a
NaN. Unpacking truncates towards zero and saturates; NaN gives 0.
-/
namespace TileCompositor

/-- The four packed numbers as binary32 words. -/
structure PackedIndices where
  transform : UInt32 := 0
  clipIn : UInt32 := 0
  clipOut : UInt32 := 0
  tile : UInt32 := 0
deriving DecidableEq, Inhabited

/-- The table entries that a record refers to. -/
structure MiscIndices where
  transform : UInt32 := 0
  clipIn : UInt32 := 0
  clipOut : UInt32 := 0
  tile : UInt32 := 0
  borderCornerMode : Bool := false
deriving DecidableEq, Inhabited

/-- The index packed in a word; negative values give 0. -/
def indexOfWord (word : UInt32) : UInt32 := (Float32.ofBits word).toUInt32

/-- The word that an index is packed in, exact up to 2^24. -/
def wordOfIndex (index : UInt32) : UInt32 := index.toFloat32.toBits

/-- mirrors `decode`, instance/misc:62-71 -/
def PackedIndices.unpack (p : PackedIndices) : MiscIndices where
  transform := indexOfWord p.transform
  clipIn := indexOfWord p.clipIn
  clipOut := indexOfWord p.clipOut
  tile := (Float32.ofBits p.tile).abs.toUInt32
  borderCornerMode := p.tile >>> 31 == 1

/-- mirrors `encode`, instance/misc:76-84 -/
def MiscIndices.pack (m : MiscIndices) : PackedIndices where
  transform := wordOfIndex m.transform
  clipIn := wordOfIndex m.clipIn
  clipOut := wordOfIndex m.clipOut
  tile := if m.borderCornerMode then (-m.tile.toFloat32).toBits else wordOfIndex m.tile

/-- The low seven bits of a word; the caller shifts the field into place.
mirrors `low7`, instance/misc:24-26 -/
def low7 (word : UInt32) : UInt32 := word &&& 0x7f

end TileCompositor
