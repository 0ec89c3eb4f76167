import Mathlib.Tactic.FinCases
import TileCompositor.Proofs.Record.Packing
import TileCompositor.Record.Layout
/-!
# Setters and the attributes of a record

A setter puts its values at some of the fifteen locations of a record and leaves the others alone.
So after any sequence of setters each attribute has the value that the last setter with something for
its location has put there, or the one it had before, and setters for different locations can change
places. Nothing is lost in the attributes: corners and table indices are read back as they were given.

Results:
* `ofAttributes?_attributes`, `eq_of_attributeAt`: attributes determine the record.
* `attributeAt_set`: what one setter leaves.
* `read_sets`: what a sequence of setters leaves, of whatever is read.
* `sets_comm`: sequences for different locations.
* `sets_read_back`: all of it together.
-/
namespace TileCompositor.InstanceRecord

variable {r r' : InstanceRecord} {setters others : List Setter}

/-! ## Attributes -/

/-- The attribute at a location. -/
def attributeAt (r : InstanceRecord) (location : Fin 15) : AttributeValue := r.attributes.get location

/-- The values at the corners that are packed in two attributes.
mirrors `select_uv`, instance/record:186-193 -/
def cornersOfPairs (top bottom : Vec4) : PerCorner Vec2 :=
  ⟨⟨top.x, top.y⟩, ⟨top.z, top.w⟩, ⟨bottom.x, bottom.y⟩, ⟨bottom.z, bottom.w⟩⟩

/-- mirrors `from_array`, paint/color:31-33 -/
def colorOfVec4 (v : Vec4) : Color := ⟨v.x, v.y, v.z, v.w⟩

/-- The record that has the given attributes. -/
def ofAttributes? : List AttributeValue → Option InstanceRecord
  | [.floats rect, .floats topLeft, .floats topRight, .floats bottomRight, .floats bottomLeft,
      .floats colorTop, .floats colorBottom, .floats maskTop, .floats maskBottom, .floats border,
      .floats radii, .floats sizes, .float blurRadius, .word aux, .packed misc] =>
    some {
      rect := .ofXYWH rect.x rect.y rect.z rect.w
      colors := PerCorner.map colorOfVec4 ⟨topLeft, topRight, bottomRight, bottomLeft⟩
      colorUvs := cornersOfPairs colorTop colorBottom
      maskUvs := cornersOfPairs maskTop maskBottom
      border := .ofXYWH border.x border.y border.z border.w
      borderRadii := ⟨radii.x, radii.y, radii.z, radii.w⟩
      sourceSize := ⟨sizes.x, sizes.y⟩
      targetSize := ⟨sizes.z, sizes.w⟩
      blurRadius
      aux
      misc }
  | _ => none

theorem ofAttributes?_attributes (r : InstanceRecord) : ofAttributes? r.attributes = some r := rfl

theorem eq_of_attributeAt (h : ∀ location, r.attributeAt location = r'.attributeAt location) : r = r' := by
  have hlist : r.attributes = r'.attributes :=
    List.ext_get rfl fun k hk _ => h ⟨k, hk⟩
  apply Option.some.inj
  rw [← ofAttributes?_attributes r, hlist, ofAttributes?_attributes]

/-! ## One setter -/

namespace Setter

/-- Corner colours at their locations. -/
def colorsWritten (c : PerCorner Color) : List (Fin 15 × AttributeValue) :=
  [(1, .floats c.topLeft.toVec4), (2, .floats c.topRight.toVec4), (3, .floats c.bottomRight.toVec4),
   (4, .floats c.bottomLeft.toVec4)]

/-- Texture positions, packed in pairs from a location on. -/
def uvsWritten (location : Fin 15) (uvs : PerCorner Vec2) : List (Fin 15 × AttributeValue) :=
  [(location, .floats ⟨uvs.topLeft.x, uvs.topLeft.y, uvs.topRight.x, uvs.topRight.y⟩),
   (location + 1, .floats ⟨uvs.bottomRight.x, uvs.bottomRight.y, uvs.bottomLeft.x, uvs.bottomLeft.y⟩)]

/-- The locations that a setter targets and the values that it puts there. -/
def written : Setter → List (Fin 15 × AttributeValue)
  | .color c => colorsWritten (.const c)
  | .colors c => colorsWritten c
  | .colorUvs uvs => uvsWritten 5 uvs
  | .maskUvs uvs => uvsWritten 7 uvs
  | .colorUvRect uv => uvsWritten 5 (.ofFn fun corner => uv.pointAt corner.unit)
  | .maskUvRect uv => uvsWritten 7 (.ofFn fun corner => uv.pointAt corner.unit)
  | .border rect radii =>
    [(9, .floats ⟨rect.origin.x, rect.origin.y, rect.size.x, rect.size.y⟩),
     (10, .floats ⟨radii.topLeft, radii.topRight, radii.bottomRight, radii.bottomLeft⟩)]
  | .textureSizes source target => [(11, .floats ⟨source.x, source.y, target.x, target.y⟩)]
  | .blurRadius radius => [(12, .float radius)]
  | .aux word => [(13, .word word)]
  | .misc m => [(14, .packed m.pack)]
  | .packedMisc p => [(14, .packed p)]

def targets (s : Setter) : List (Fin 15) := s.written.map Prod.fst

/-- What a setter puts at a location. -/
def valueAt (s : Setter) (location : Fin 15) : Option AttributeValue := s.written.lookup location

/-- The colour that a setter gives to a corner. -/
def cornerColor? (corner : Corner) : Setter → Option Color
  | .color c => some c
  | .colors c => some (c.get corner)
  | _ => none

/-- The position in the colour texture that a setter gives to a corner. -/
def colorUv? (corner : Corner) : Setter → Option Vec2
  | .colorUvs uvs => some (uvs.get corner)
  | .colorUvRect uv => some (uv.pointAt corner.unit)
  | _ => none

/-- The position in the alpha mask that a setter gives to a corner. -/
def maskUv? (corner : Corner) : Setter → Option Vec2
  | .maskUvs uvs => some (uvs.get corner)
  | .maskUvRect uv => some (uv.pointAt corner.unit)
  | _ => none

/-- The table indices that a setter gives. -/
def indices? : Setter → Option MiscIndices
  | .misc m => some m
  | .packedMisc p => some p.unpack
  | _ => none

theorem valueAt_of_not_mem {s : Setter} {location : Fin 15} (h : location ∉ s.targets) :
    s.valueAt location = none := by
  rw [valueAt, List.lookup_eq_none_iff]
  intro write hmem
  rw [bne_iff_ne]
  rintro rfl
  exact h (List.mem_map_of_mem hmem)

end Setter

theorem attributeAt_set (r : InstanceRecord) (s : Setter) (location : Fin 15) :
    (r.set s).attributeAt location = (s.valueAt location).getD (r.attributeAt location) := by
  -- a table of setters by locations, each entry of which computes
  cases s <;> fin_cases location <;> rfl

theorem cornerColor_set (r : InstanceRecord) (s : Setter) (corner : Corner) :
    (r.set s).colors.get corner = (s.cornerColor? corner).getD (r.colors.get corner) := by
  cases s with
  | color c => exact PerCorner.get_const c corner
  | _ => rfl

theorem colorUv_set (r : InstanceRecord) (s : Setter) (corner : Corner) :
    (r.set s).colorUvs.get corner = (s.colorUv? corner).getD (r.colorUvs.get corner) := by
  cases s with
  | colorUvRect uv => exact PerCorner.get_ofFn _ corner
  | _ => rfl

theorem maskUv_set (r : InstanceRecord) (s : Setter) (corner : Corner) :
    (r.set s).maskUvs.get corner = (s.maskUv? corner).getD (r.maskUvs.get corner) := by
  cases s with
  | maskUvRect uv => exact PerCorner.get_ofFn _ corner
  | _ => rfl

/-- Indices come back as they are packed; of what is unpacked, nothing is lost by that. -/
theorem indices_set (r : InstanceRecord) (s : Setter) :
    (r.set s).indices = (s.indices?.map fun m => m.pack.unpack).getD r.indices := by
  cases s with
  | packedMisc p => exact p.stable_unpack.unpack_pack.symm
  | _ => rfl

/-! ## Sequences -/

/-- What the last of the setters gives, of those that give something. -/
def lastGiven {α : Type} (given : Setter → Option α) (setters : List Setter) : Option α :=
  setters.reverse.findSome? given

section Last
variable {α β : Type} {given : Setter → Option α}

theorem lastGiven_cons (s : Setter) (setters : List Setter) :
    lastGiven given (s :: setters) = (lastGiven given setters).or (given s) := by
  rw [lastGiven, List.reverse_cons, List.findSome?_append, List.findSome?_singleton]
  rfl

theorem lastGiven_map (f : α → β) (setters : List Setter) :
    lastGiven (fun s => (given s).map f) setters = (lastGiven given setters).map f := by
  induction setters with
  | nil => rfl
  | cons s rest ih => rw [lastGiven_cons, lastGiven_cons, ih, Option.map_or]

/-- If one setter leaves what it gives, or else what was there, then a sequence leaves what the last
of its setters gives that gives something. -/
theorem read_sets (read : InstanceRecord → α) (hstep : ∀ r s, read (r.set s) = (given s).getD (read r))
    (r : InstanceRecord) (setters : List Setter) :
    read (r.sets setters) = (lastGiven given setters).getD (read r) := by
  induction setters generalizing r with
  | nil => rfl
  | cons s rest ih =>
    calc read (r.sets (s :: rest)) = (lastGiven given rest).getD (read (r.set s)) := ih (r.set s)
      _ = ((lastGiven given rest).or (given s)).getD (read r) := by
          rw [hstep]
          cases lastGiven given rest <;> rfl
      _ = (lastGiven given (s :: rest)).getD (read r) := by rw [lastGiven_cons]

end Last

theorem lastGiven_of_not_mem {location : Fin 15} (h : ∀ s ∈ setters, location ∉ s.targets) :
    lastGiven (·.valueAt location) setters = none := by
  rw [lastGiven, List.findSome?_eq_none_iff]
  exact fun s hs => Setter.valueAt_of_not_mem (h s (List.mem_reverse.mp hs))

theorem attributeAt_sets (r : InstanceRecord) (setters : List Setter) (location : Fin 15) :
    (r.sets setters).attributeAt location =
      (lastGiven (·.valueAt location) setters).getD (r.attributeAt location) :=
  read_sets (·.attributeAt location) (attributeAt_set · · location) r setters

/-- Sequences with no location in common can change places: at each location one of them gives
nothing. -/
theorem sets_comm (h : ∀ s ∈ setters, ∀ s' ∈ others, ∀ location ∈ s.targets, location ∉ s'.targets) :
    (r.sets setters).sets others = (r.sets others).sets setters := by
  apply eq_of_attributeAt
  intro location
  simp only [attributeAt_sets]
  by_cases hmem : ∃ s ∈ setters, location ∈ s.targets
  · obtain ⟨s, hs, hlocation⟩ := hmem
    have hnone : ∀ s' ∈ others, location ∉ s'.targets := fun s' hs' => h s hs s' hs' location hlocation
    rw [lastGiven_of_not_mem hnone]
    rfl
  · have hnone : ∀ s ∈ setters, location ∉ s.targets := fun s hs hlocation => hmem ⟨s, hs, hlocation⟩
    rw [lastGiven_of_not_mem hnone]
    rfl

/-- After any sequence of setters each of the fifteen attributes has the value that the last setter
for its location has put there, or its first one if there was none. Each corner has the colour and
the texture positions that were last given for it, and table indices of at most 2^24 are read back
as they were last given. All of this can be read off the attributes. Sequences that have no location
in common can change places. -/
theorem sets_read_back (r : InstanceRecord) (setters : List Setter) :
    (∀ location, (r.sets setters).attributeAt location =
      (lastGiven (·.valueAt location) setters).getD (r.attributeAt location)) ∧
    (∀ corner,
      (r.sets setters).colors.get corner =
        (lastGiven (·.cornerColor? corner) setters).getD (r.colors.get corner) ∧
      (r.sets setters).colorUvs.get corner =
        (lastGiven (·.colorUv? corner) setters).getD (r.colorUvs.get corner) ∧
      (r.sets setters).maskUvs.get corner =
        (lastGiven (·.maskUv? corner) setters).getD (r.maskUvs.get corner)) ∧
    (∀ m, lastGiven Setter.indices? setters = some m → m.Packable → (r.sets setters).indices = m) ∧
    ofAttributes? (r.sets setters).attributes = some (r.sets setters) ∧
    ∀ others, (∀ s ∈ setters, ∀ s' ∈ others, ∀ location ∈ s.targets, location ∉ s'.targets) →
      (r.sets setters).sets others = (r.sets others).sets setters := by
  refine ⟨attributeAt_sets r setters, fun corner => ⟨?_, ?_, ?_⟩, fun m hlast hpackable => ?_,
    ofAttributes?_attributes _, fun others h => sets_comm h⟩
  · exact read_sets (·.colors.get corner) (cornerColor_set · · corner) r setters
  · exact read_sets (·.colorUvs.get corner) (colorUv_set · · corner) r setters
  · exact read_sets (·.maskUvs.get corner) (maskUv_set · · corner) r setters
  · rw [read_sets indices indices_set, lastGiven_map, hlast, Option.map_some, Option.getD_some]
    exact hpackable.stable.unpack_pack

/-- Red, indices and the flipped mask, with other indices put in before. -/
def flippedGlyph : List Setter :=
  [.misc ⟨9, 9, 9, 9, false⟩, .color Color.red, .maskUvRect (Rect.ofXYWH 1.0 0.0 (-1.0) 1.0),
    .misc ⟨1, 2, 3, 16777216, true⟩]

/-- The indices that were put in last are read back, and the size of a texture can be set before or
after. -/
theorem flippedGlyph_read_back :
    lastGiven Setter.indices? flippedGlyph = some ⟨1, 2, 3, 16777216, true⟩ ∧
      (InstanceRecord.sets {} flippedGlyph).indices = ⟨1, 2, 3, 16777216, true⟩ ∧
      (InstanceRecord.sets {} flippedGlyph).maskUvs.get .topRight = ⟨0.0, 0.0⟩ ∧
      (InstanceRecord.sets {} flippedGlyph).sets [.textureSizes ⟨8.0, 8.0⟩ ⟨4.0, 4.0⟩] =
        (InstanceRecord.sets {} [.textureSizes ⟨8.0, 8.0⟩ ⟨4.0, 4.0⟩]).sets flippedGlyph := by
  obtain ⟨-, hcorners, hindices, -, hcomm⟩ := sets_read_back {} flippedGlyph
  obtain ⟨-, -, hmask⟩ := hcorners .topRight
  refine ⟨rfl, hindices _ rfl (by constructor <;> decide), hmask.trans (by decide +kernel), hcomm _ ?_⟩
  decide

end TileCompositor.InstanceRecord
