import Composables.Path.Relative

/-
  How one module names another in an import.
-/

namespace Composables

/-- A module path without its extension. -/
def dropExtension (path : String) : String :=
  match Text.dropSuffix? ".tsx".toList path.toList, Text.dropSuffix? ".ts".toList path.toList with
  | some front, _ => String.ofList front
  | none, some front => String.ofList front
  | none, none => path

/-- A step of a specifier; the root and `.` take none. -/
def Path.Component.step? : Path.Component → Option String
  | .up => some ".."
  | .name s => some s
  | _ => none

/-- Where a path's directory is; a path without a parent lies in the empty one. -/
def Path.directory (p : Path) : Path := p.parent?.getD ⟨""⟩

/-- The steps from the directory of one module to another module, which loses its extension. Where there is no
way, the other module counts as lying beside the first. -/
def specifierSteps (source target : Path) : List String :=
  ((target.directory.relativeTo? source.directory).getD []).filterMap Path.Component.step? ++
    [dropExtension (target.fileName?.getD "")]

/-- The specifier under which `source` imports `target`. It opens with `./` unless it opens with two dots. -/
def specifier (source target : Path) (jsExtension : Bool) : String :=
  let steps := "/".intercalate (specifierSteps source target)
  (if steps.startsWith ".." then steps else "./" ++ steps) ++ if jsExtension then ".js" else ""

end Composables
