import TileCompositor.Main
import TileCompositor.Record.Layout
import TileCompositor.Proofs.Coverage.Diagonal
import TileCompositor.Proofs.Coverage.Aligned
import TileCompositor.Proofs.Coverage.Opaque
import TileCompositor.Proofs.Coverage.ChannelRange
import TileCompositor.Proofs.Gradient.RoundTrip
import TileCompositor.Proofs.Gradient.Checked
import TileCompositor.Proofs.Gradient.Tiling
import TileCompositor.Proofs.Shading.Clipping
import TileCompositor.Proofs.Gradient.Ramps
import TileCompositor.Proofs.Coverage.Bounds
import TileCompositor.Proofs.Shading.Relevance
import TileCompositor.Proofs.Coverage.Weights
import TileCompositor.Proofs.Shading.Solid
import TileCompositor.Proofs.Tables.Interleaving
import TileCompositor.Proofs.Scene.Demo
import TileCompositor.Proofs.Binary32.Error
import TileCompositor.Proofs.Coverage.Interpolation
import TileCompositor.Proofs.Shading.AlignedClips
import TileCompositor.Proofs.Color.Lerp
import TileCompositor.Proofs.Gradient.Baking
import TileCompositor.Proofs.Gradient.Sampling
import TileCompositor.Proofs.Binary32.SignedZero
import TileCompositor.Proofs.Gradient.Periodicity
import TileCompositor.Proofs.Geometry.Containment
import TileCompositor.Proofs.Quad.LocalPosition
import TileCompositor.Proofs.Gradient.Axis
import TileCompositor.Proofs.Coverage.Winding
import TileCompositor.Proofs.Binary32.Order
import TileCompositor.Proofs.Geometry.Corners
import TileCompositor.Proofs.Color.Agreement
import TileCompositor.Proofs.Texture.Checked
import TileCompositor.Proofs.Texture.Sampling
import TileCompositor.Proofs.Texture.Centres
import TileCompositor.Proofs.Gradient.Stops
import TileCompositor.Proofs.Shading.Dithering
import TileCompositor.Proofs.Texture.Addressing
import TileCompositor.Proofs.Record.Setters
import TileCompositor.Proofs.Gradient.Piecewise
import TileCompositor.Proofs.Quad.Snapping
