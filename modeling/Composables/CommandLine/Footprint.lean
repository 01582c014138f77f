import Composables.CommandLine.Arguments
import Composables.Project.Compile

/-
  The paths that a command looks at. They come to light step by step: a project file names directories, and the
  documents in these tell where modules go.
-/

namespace Composables

namespace Project

/-- Where modules may be written. -/
def outputs (fs : FileSystem) (p : Project) : List Path :=
  match p.preset with
  | .singleFile => [p.output]
  | .nearOperationFile =>
    (p.documents.flatMap (documentFiles fs)).map fun d => Layout.outputPath d p.extension

end Project

/-- The paths that a command looks at, as far as the files known by now tell. -/
def CommandLine.Command.footprint (fs : FileSystem) : CommandLine.Command → List Path
  | .init directory => [directory.join ⟨projectFile⟩]
  | .generate config => config :: ofProject config
  | .check config => config :: ofProject config
where
  ofProject (config : Path) : List Path :=
    match Project.load fs config with
    | .ok p => p.watched ++ p.outputs fs
    | .error _ => []

end Composables
