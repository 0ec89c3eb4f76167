import TileCompositor.Proofs.Gradient.Ramps
import TileCompositor.Proofs.Record.Lookup
import TileCompositor.Proofs.Record.Packing
import TileCompositor.Shading.Pass
/-!
# A gradient on its way through a record

The producer of a gradient bakes its stops into a ramp store and writes axis,
row number and `Extend` into a record; the pass reads them back from what the
record resolves to. The row number has seven bits and the store at most 128
rows, so nothing is lost on the way, and rows that are added later do not
move the one that the record refers to.

Results:
* `GradientAux.decode_encode`: the packed word.
* `resolve_linearGradientInstance`: the record of a gradient, resolved.
* `linearGradient_round_trip`: from the producer to the pass.
-/
namespace TileCompositor

/-! ## The packed word -/

theorem or_and_distrib (a b mask : UInt32) : (a ||| b) &&& mask = a &&& mask ||| b &&& mask := by
  apply UInt32.toNat_inj.mp
  simp only [UInt32.toNat_and, UInt32.toNat_or, Nat.and_or_distrib_right]

theorem low7_and (word mask : UInt32) : low7 word &&& mask = word &&& (0x7f &&& mask) :=
  UInt32.and_assoc _ _ _

theorem low7_of_lt {word : UInt32} (h : word.toNat < 128) : low7 word = word := by
  apply UInt32.toNat_inj.mp
  have hmask : (0x7f : UInt32).toNat = 2 ^ 7 - 1 := rfl
  rw [low7, UInt32.toNat_and, hmask, Nat.and_two_pow_sub_one_eq_mod, Nat.mod_eq_of_lt h]

namespace GradientAux

/-- The word keeps `Extend` and the low seven bits of the row. -/
theorem decode_encode (a : GradientAux) : decode (encode a) = ⟨low7 a.rampRow, a.extend⟩ := by
  have hrow (bit : UInt32) (hbit : bit &&& 0x7f = 0) : low7 (low7 a.rampRow ||| bit) = low7 a.rampRow := by
    rw [low7, or_and_distrib, low7_and, hbit, UInt32.or_zero]
    rfl
  have hflag (bit : UInt32) : (low7 a.rampRow ||| bit) &&& periodicBit = bit &&& periodicBit := by
    have hmask : (0x7f : UInt32) &&& periodicBit = 0 := rfl
    rw [or_and_distrib, low7_and, hmask, UInt32.and_zero, UInt32.zero_or]
  obtain ⟨row, extend⟩ := a
  unfold decode encode
  cases extend with
  | clamp =>
    simp only [hrow 0 rfl, hflag 0]
    rfl
  | periodic =>
    simp only [hrow periodicBit rfl, hflag periodicBit]
    rfl

end GradientAux

/-! ## The record -/

/-- Every index addresses an entry of its table. -/
structure MiscIndices.InRange (m : MiscIndices) (tables : UniformTables) : Prop where
  transform : m.transform.toNat < tables.transforms.length
  clipIn : m.clipIn.toNat < tables.clipRects.length
  clipOut : m.clipOut.toNat < tables.clipRects.length
  tile : m.tile.toNat < tables.tileParams.length

/-- The record of a gradient resolves to the tile that is named for it, with
what the gradient field reads. -/
theorem resolve_linearGradientInstance (rect : Rect) (g : LinearGradient) (row : UInt32)
    {misc : MiscIndices} {tables : UniformTables} (hpack : misc.Packable) (hrange : misc.InRange tables) :
    ∃ i tile, (linearGradientInstance rect g row misc).resolve tables = .ok i ∧
      tables.tileParams.get misc.tile = .ok tile ∧
      GradientField.ofFlat i.flat = ⟨tile, g.start, g.scaledDirection, low7 row, g.extend⟩ := by
  have hindices : (linearGradientInstance rect g row misc).indices = misc :=
    MiscIndices.unpack_pack hpack
  obtain ⟨transform, htransform⟩ := Table.exists_get hrange.transform
  obtain ⟨clipIn, hclipIn⟩ := Table.exists_get hrange.clipIn
  obtain ⟨clipOut, hclipOut⟩ := Table.exists_get hrange.clipOut
  obtain ⟨tile, htile⟩ := Table.exists_get hrange.tile
  refine ⟨_, tile, InstanceRecord.resolve_eq_ok_iff.mpr
    ⟨transform, clipIn, clipOut, tile, ?_, ?_, ?_, ?_, rfl⟩, htile, ?_⟩
  · rw [hindices, htransform]
  · rw [hindices, hclipIn]
  · rw [hindices, hclipOut]
  · rw [hindices, htile]
  · have haux := GradientAux.decode_encode ⟨row, g.extend⟩
    unfold GradientField.ofFlat
    change GradientField.mk tile g.start g.scaledDirection
      (GradientAux.decode (GradientAux.encode ⟨row, g.extend⟩)).rampRow
      (GradientAux.decode (GradientAux.encode ⟨row, g.extend⟩)).extend = _
    rw [haux]

/-! ## From the producer to the pass -/

/-- A gradient that was added to a store, whatever was added and cleared
before it and added after it: its record resolves, the pass accepts it and
reads back the axis, `Extend`, the row and the tile, and the row is the one
that was baked from its stops. -/
theorem linearGradient_round_trip {width maxRows : Nat} {fresh added : GradientRamps}
    {before : List GradientRamps.Edit} {g : LinearGradient} {row : UInt32}
    (hnew : GradientRamps.new width maxRows = .ok fresh)
    (hadd : (fresh.edits before).add g.stops = .ok (row, added)) (after : List (List ColorStop))
    {misc : MiscIndices} {tables : UniformTables} (hpack : misc.Packable)
    (hrange : misc.InRange tables) (rect : Rect) (dithering : Bool) :
    ∃ i tile colors,
      (linearGradientInstance rect g row misc).resolve tables = .ok i ∧
      (Pass.gradient (added.edits (after.map .add)) dithering).validate i.flat = .ok () ∧
      tables.tileParams.get misc.tile = .ok tile ∧
      GradientField.ofFlat i.flat = ⟨tile, g.start, g.scaledDirection, row, g.extend⟩ ∧
      (added.edits (after.map .add)).row row = .ok colors ∧
      colors.toArray = (fresh.bake g.stops).toArray := by
  have hfresh : fresh.Valid width := GradientRamps.valid_new hnew
  have hvalid : (fresh.edits before).Valid width := hfresh.edits before
  have hrow : low7 row = row := low7_of_lt (hvalid.toNat_index hadd).2
  obtain ⟨colors, hcolors, hbaked⟩ := hvalid.exists_row_of_add hadd after
  obtain ⟨i, tile, hres, htile, hfield⟩ := resolve_linearGradientInstance rect g row hpack hrange
  rw [hrow] at hfield
  have haux : (GradientAux.decode i.flat.aux).rampRow = row := congrArg GradientField.rampRow hfield
  refine ⟨i, tile, colors, hres, ?_, htile, hfield, hcolors, ?_⟩
  · rw [Pass.validate, haux, hcolors]
    rfl
  · rw [hbaked, GradientRamps.toArray_bake, hfresh.width_eq]

/-- Tables with one entry each. -/
def oneEntry : UniformTables where
  transforms := { kind := .transform, capacity := 1, entries := #[Mat4.identity], size_le := Nat.le_refl 1 }
  clipRects := { kind := .clipRect, capacity := 1, entries := #[ClipRect.empty], size_le := Nat.le_refl 1 }
  tileParams :=
    { kind := .tileParams, capacity := 1, entries := #[TileParams.unbounded], size_le := Nat.le_refl 1 }

/-- From black to white in one layout pixel, again and again. -/
def blackToWhite : LinearGradient where
  start := ⟨0.0, 0.0⟩
  finish := ⟨1.0, 0.0⟩
  stops := [⟨0.0, Color.black⟩, ⟨1.0, Color.white⟩]
  extend := .periodic

/-- It is read back after an addition that is rejected, too. -/
theorem blackToWhite_read_back :
    ∃ fresh added i tile, GradientRamps.new 2 2 = .ok fresh ∧
      fresh.add blackToWhite.stops = .ok (0, added) ∧
      (linearGradientInstance InstanceRecord.unitSquare blackToWhite 0 {}).resolve oneEntry = .ok i ∧
      (Pass.gradient (added.edits [.add []]) true).validate i.flat = .ok () ∧
      GradientField.ofFlat i.flat =
        ⟨tile, blackToWhite.start, blackToWhite.scaledDirection, 0, .periodic⟩ := by
  let fresh : GradientRamps := { width := 2, two_le_width := Nat.le_refl 2, maxRows := 2 }
  have hnew : GradientRamps.new 2 2 = .ok fresh := rfl
  have hstops : checkStops blackToWhite.stops = .ok () := by decide +kernel
  have hadd : (fresh.edits []).add blackToWhite.stops =
      .ok (0, { fresh with rows := #[fresh.bake blackToWhite.stops] }) :=
    GradientRamps.add_eq_ok_iff.mpr ⟨hstops, by decide, rfl, rfl⟩
  have hpack : ({} : MiscIndices).Packable := by constructor <;> decide
  have hrange : ({} : MiscIndices).InRange oneEntry := by constructor <;> decide
  obtain ⟨i, tile, -, hres, hval, -, hfield, -⟩ :=
    linearGradient_round_trip hnew hadd [[]] hpack hrange InstanceRecord.unitSquare true
  exact ⟨fresh, _, i, tile, hnew, hadd, hres, hval, hfield⟩

end TileCompositor
