import Relocate.Path.Basic

/-!
The normal form of a path and the operations stated through it. Normalising is lexical: `..`
removes the component before it, whatever the disk holds, and never leaves the root.
-/

namespace Relocate.Path

/-- The components kept so far, the last one first, after one more component. -/
def collapseStep (kept : List Component) : Component → List Component
  | .here => kept
  | .up =>
    match kept with
    | .name _ :: below => below
    | _ => kept
  | part => part :: kept

/-- The components of a normal form: no `.` and no `..`. -/
def collapse (parts : List Component) : List Component :=
  (parts.foldl collapseStep []).reverse

/-- The path without `.` and `..`; `.` itself when nothing is left. -/
def normalize (p : Path) : Path :=
  match collapse p.components with
  | [] => ⟨"."⟩
  | parts => ofComponents parts

/-- The normal form of `path` read from `base`. -/
def absolutize (base path : Path) : Path := (base.join path).normalize

/-- The path is `dir` or lies below it. -/
def isInDir (dir path : Path) : Bool := path.normalize.startsWith dir.normalize

/-- One `..` for each component. -/
def climb (parts : List Component) : List Component := parts.map fun _ => .up

/-- The steps that lead from the directory with components `source` to `target`, once a first
difference has been met. A `.` in `source` is no level to climb, and a `..` cannot be undone. -/
def stepsApart : (source target : List Component) → Option (List Component)
  | source, [] => some (climb source)
  | [], target => some target
  | .here :: source, part :: target => (stepsApart source target).map (part :: ·)
  | .up :: _, _ :: _ => none
  | source, target => some (climb source ++ target)

/-- The steps that lead from the directory with components `source` to `target`. -/
def stepsBetween : (source target : List Component) → Option (List Component)
  | a :: source, b :: target =>
    if a = b then stepsBetween source target else stepsApart (a :: source) (b :: target)
  | source, target => stepsApart source target

/-- The path that leads from the directory `source` to `target`, both taken in normal form. It is
`target` itself when only one of the two is absolute, and empty when they are the same. -/
def relative (source target : Path) : Path :=
  let source := source.normalize
  let target := target.normalize
  if source.isAbsolute != target.isAbsolute then target
  else ((stepsBetween source.components target.components).map ofComponents).getD target

end Relocate.Path
