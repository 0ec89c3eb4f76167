import TileCompositor.Scalar.Decimal
import TileCompositor.Scene.Builder
/-!
# The options of the studio

The arguments are split into options with their values, and the options are
applied one after the other to a request. The first thing that is wrong ends
the reading.
-/
namespace TileCompositor.Studio

/-- What the arguments ask for. -/
structure Request where
  scene : SceneKind := .solid
  width : UInt32 := 256
  height : UInt32 := 256
  output : String := "tilecomp.png"
  /-- Gradients repeat instead of holding their end colours. -/
  periodic : Bool := false
  dither : Bool := false
  devicePixelRatio : Float32 := 1.0
  list : Bool := false

/-- The options that the command line knows. -/
inductive CliOption where
  | scene
  | width
  | height
  | output
  | periodic
  | dither
  | dpr
  | logFilter
  | list
  | help
deriving DecidableEq

namespace CliOption

def all : List CliOption :=
  [.scene, .width, .height, .output, .periodic, .dither, .dpr, .logFilter, .list, .help]

def long : CliOption → String
  | .scene => "scene"
  | .width => "width"
  | .height => "height"
  | .output => "output"
  | .periodic => "repeat"
  | .dither => "dither"
  | .dpr => "dpr"
  | .logFilter => "log-filter"
  | .list => "list"
  | .help => "help"

def short? : CliOption → Option Char
  | .scene => some 's'
  | .output => some 'o'
  | .help => some 'h'
  | _ => none

def takesValue : CliOption → Bool
  | .scene | .width | .height | .output | .dpr | .logFilter => true
  | .periodic | .dither | .list | .help => false

def summary : CliOption → String
  | .scene => "Scene to render (solid, gradient, text or corners)"
  | .width => "Width of the image in pixels"
  | .height => "Height of the image in pixels"
  | .output => "Output file"
  | .periodic => "Use the repeat extend mode for gradients instead of clamp"
  | .dither => "Dither gradients with an 8x8 ordered matrix"
  | .dpr => "Device pixel ratio used for vertex snapping"
  | .logFilter => "Log filter"
  | .list => "Print the available scenes and exit"
  | .help => "Print help"

end CliOption

/-- What is wrong with the arguments. -/
inductive UsageError where
  | unexpected (arg : String)
  | unexpectedValue (option : CliOption) (value : String)
  | missingValue (option : CliOption)
  | invalidValue (option : CliOption) (value : String)
  | repeated (option : CliOption)
deriving DecidableEq

def UsageError.message : UsageError → String
  | .unexpected arg => s!"unexpected argument '{arg}' found"
  | .unexpectedValue option value =>
    s!"unexpected value '{value}' for '--{option.long}' found; no more were expected"
  | .missingValue option => s!"a value is required for '--{option.long}' but none was supplied"
  | .invalidValue option value => s!"invalid value '{value}' for '--{option.long}'"
  | .repeated option => s!"the argument '--{option.long}' cannot be used multiple times"

/-- The arguments as options with their values, or the first argument that is
none. A value stands behind `=`, directly behind a short option, or in the
next argument, which must not look like an option itself. -/
def splitOptions : List String → List (Except UsageError (CliOption × String))
  | [] => []
  | arg :: rest =>
    let valued (option : CliOption) (attached : Option String) :
        List (Except UsageError (CliOption × String)) :=
      match attached, rest with
      | some value, rest => .ok (option, value) :: splitOptions rest
      | none, value :: rest =>
        if value.startsWith "-" && value != "-" then [.error (.missingValue option)]
        else .ok (option, value) :: splitOptions rest
      | none, [] => [.error (.missingValue option)]
    let plain (option : CliOption) (attached : Option String) :
        List (Except UsageError (CliOption × String)) :=
      match attached with
      | some value => [.error (.unexpectedValue option value)]
      | none => .ok (option, "") :: splitOptions rest
    match arg.toList with
    | ['-', '-'] => rest.take 1 |>.map fun arg => .error (.unexpected arg)
    | '-' :: '-' :: body =>
      let name := String.ofList (body.takeWhile (· != '='))
      let attached := match body.dropWhile (· != '=') with
        | _ :: value => some (String.ofList value)
        | [] => none
      match CliOption.all.find? fun option => option.long == name with
      | some option => if option.takesValue then valued option attached else plain option attached
      | none => [.error (.unexpected arg)]
    | '-' :: letter :: body =>
      match CliOption.all.find? fun option => option.short? == some letter with
      | some option =>
        let attached := match body with
          | [] => none
          | '=' :: value => some (String.ofList value)
          | value => some (String.ofList value)
        if option.takesValue then valued option attached else plain option none
      | none => [.error (.unexpected arg)]
    | _ => [.error (.unexpected arg)]
termination_by args => args.length

/-- A whole number that fits 32 bits. -/
def readSize? (text : String) : Option UInt32 := do
  let n ← Scalar.readInt? text.toList
  if 0 ≤ n ∧ n ≤ 0xFFFFFFFF then return n.toNat.toUInt32 else none

/-- The request with one option applied. -/
def Request.set (r : Request) (option : CliOption) (value : String) : Except UsageError Request :=
  let checked (result : Option Request) : Except UsageError Request :=
    match result with
    | some r => .ok r
    | none => .error (.invalidValue option value)
  match option with
  | .scene => checked ((SceneKind.ofName? value).map fun scene => { r with scene })
  | .width => checked ((readSize? value).map fun width => { r with width })
  | .height => checked ((readSize? value).map fun height => { r with height })
  | .output => checked (if value.isEmpty then none else some { r with output := value })
  | .periodic => .ok { r with periodic := true }
  | .dither => .ok { r with dither := true }
  | .dpr => checked ((Scalar.read? value).map fun ratio => { r with devicePixelRatio := ratio })
  | .logFilter => .ok r
  | .list => .ok { r with list := true }
  | .help => .ok r

/-- The options applied in order, none of them twice. A request for help ends
the reading and gives no request. -/
def applyOptions (r : Request) (seen : List CliOption) :
    List (Except UsageError (CliOption × String)) → Except UsageError (Option Request)
  | [] => .ok (some r)
  | .error e :: _ => .error e
  | .ok (option, value) :: rest =>
    if option = .help then .ok none
    else if option ∈ seen then .error (.repeated option)
    else match r.set option value with
      | .error e => .error e
      | .ok r => applyOptions r (option :: seen) rest

end TileCompositor.Studio
