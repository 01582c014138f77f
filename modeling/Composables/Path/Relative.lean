import Composables.Path.Basic

/-
  The way from one directory to another, as a list of components.
-/

namespace Composables.Path

/-- The way from `base` to `target`, once a step of it is there: a `.` of the base takes a step of the
target along, any other component of it costs a step up. `..` in the base cannot be undone. -/
def descend : List Component → List Component → Option (List Component)
  | target, [] => some target
  | [], _ :: base => (descend [] base).map (.up :: ·)
  | c :: target, .here :: base => (descend target base).map (c :: ·)
  | _ :: _, .up :: _ => none
  | c :: target, _ :: base => some (.up :: base.map (fun _ => .up) ++ c :: target)

/-- The way from `base` to `target`: components they begin with together are left out. -/
def climb : List Component → List Component → Option (List Component)
  | c :: target, d :: base => if c = d then climb target base else descend (c :: target) (d :: base)
  | target, base => descend target base

/-- The way from the directory `base` to `target`. An absolute target needs no base of its own kind; a
relative one cannot be reached from an absolute base. -/
def relativeTo? (target base : Path) : Option (List Component) :=
  if target.isAbsolute = base.isAbsolute then climb target.components base.components
  else if target.isAbsolute then some target.components
  else none

end Composables.Path
