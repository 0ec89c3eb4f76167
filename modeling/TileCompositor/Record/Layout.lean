import TileCompositor.Record.Basic
/-!
# The memory layout of records

A record is handed to the vertex stage as fifteen attributes of 32-bit words,
one behind the other without padding. Attribute `k` has location `k`; offsets
and the stride follow from the formats.
-/
namespace TileCompositor

/-- The number format of an attribute. -/
inductive AttributeFormat where
  | float32
  | float32x4
  | uint32
deriving DecidableEq

def AttributeFormat.name : AttributeFormat → String
  | .float32 => "Float32"
  | .float32x4 => "Float32x4"
  | .uint32 => "Uint32"

/-- The number of 32-bit words of an attribute. -/
def AttributeFormat.words : AttributeFormat → Nat
  | .float32 => 1
  | .float32x4 => 4
  | .uint32 => 1

/-- The words of an attribute of some record. The misc words are floats too,
kept as words because the sign of a NaN counts there. -/
inductive AttributeValue where
  | float (x : Float32)
  | floats (v : Vec4)
  | packed (p : PackedIndices)
  | word (w : UInt32)

def AttributeValue.format : AttributeValue → AttributeFormat
  | .float _ => .float32
  | .floats _ => .float32x4
  | .packed _ => .float32x4
  | .word _ => .uint32

def AttributeValue.toWords : AttributeValue → List UInt32
  | .float x => [x.toBits]
  | .floats v => [v.x.toBits, v.y.toBits, v.z.toBits, v.w.toBits]
  | .packed p => [p.transform, p.clipIn, p.clipOut, p.tile]
  | .word w => [w]

/-- Two positions packed in one attribute. -/
def Vec4.ofPair (a b : Vec2) : Vec4 := ⟨a.x, a.y, b.x, b.y⟩

namespace InstanceRecord

/-- The attributes in the order of their locations. Texture positions are
packed in pairs: the top left and top right corner, then the bottom right and
bottom left one.
mirrors `InstanceRecord`, instance/record:32-48, and `pack_uvs`, instance/record:195-198 -/
def attributes (r : InstanceRecord) : List AttributeValue :=
  [.floats r.rect.toVec4,
   .floats r.colors.topLeft.toVec4,
   .floats r.colors.topRight.toVec4,
   .floats r.colors.bottomRight.toVec4,
   .floats r.colors.bottomLeft.toVec4,
   .floats (.ofPair r.colorUvs.topLeft r.colorUvs.topRight),
   .floats (.ofPair r.colorUvs.bottomRight r.colorUvs.bottomLeft),
   .floats (.ofPair r.maskUvs.topLeft r.maskUvs.topRight),
   .floats (.ofPair r.maskUvs.bottomRight r.maskUvs.bottomLeft),
   .floats r.border.toVec4,
   .floats r.borderRadii.toVec4,
   .floats (.ofPair r.sourceSize r.targetSize),
   .float r.blurRadius,
   .word r.aux,
   .packed r.misc]

/-- The whole record as words. -/
def toWords (r : InstanceRecord) : List UInt32 := r.attributes.flatMap AttributeValue.toWords

/-- The formats of the attributes, the same for every record. -/
def formats : List AttributeFormat := ({} : InstanceRecord).attributes.map AttributeValue.format

end InstanceRecord

/-- Where the vertex stage finds an attribute. -/
structure AttributeSlot where
  location : Nat
  /-- Distance from the start of the record, in bytes. -/
  offset : Nat
  format : AttributeFormat
deriving DecidableEq

/-- The slots of attributes of the given formats, from a location and offset on. -/
def slotsFrom (location offset : Nat) : List AttributeFormat → List AttributeSlot
  | [] => []
  | format :: rest =>
    ⟨location, offset, format⟩ :: slotsFrom (location + 1) (offset + 4 * format.words) rest

namespace InstanceRecord

/-- mirrors `ATTRS`, instance/record:51-67 -/
def slots : List AttributeSlot := slotsFrom 0 0 formats

/-- The bytes from one record to the next: where an attribute behind the last
one would start.
mirrors `layout`, instance/record:70-76 -/
def stride : Nat := formats.foldl (fun offset format => offset + 4 * format.words) 0

/-- The stride is the size of a whole record: nothing lies between two. -/
theorem stride_eq (r : InstanceRecord) : stride = 4 * r.toWords.length := by
  simp [stride, formats, toWords, attributes, AttributeValue.format, AttributeFormat.words,
    AttributeValue.toWords]

theorem format_attributes (r : InstanceRecord) : r.attributes.map AttributeValue.format = formats := rfl

end InstanceRecord

end TileCompositor
