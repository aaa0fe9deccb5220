import Relocate.Error
import Relocate.Index

/-!
The report of a move: what went where, which files were updated and which could not be. Files are
named by where they are at the end.
-/

namespace Relocate

/-- A file that was moved. -/
structure MovedFile where
  source : Path
  target : Path
  deriving DecidableEq, Repr, Inhabited

/-- A file whose imports could not be updated. -/
structure FailedFile where
  file : Path
  error : Error
  deriving DecidableEq, Repr

/-- The report of a move. -/
structure Report where
  moved : List MovedFile := []
  updated : List Path := []
  failed : List FailedFile := []
  deriving Repr, Inhabited

namespace Report

/-- Every file could be updated. -/
def isClean (r : Report) : Bool := r.failed.isEmpty

/-- Records that a file was updated. -/
def addUpdated (r : Report) (file : Path) : Report :=
  { r with updated := insertNew r.updated file }

/-- Records that a file could not be updated. -/
def addFailure (r : Report) (file : Path) (error : Error) : Report :=
  { r with failed := r.failed ++ [⟨file, error⟩] }

/-- Records that a file went from `source` to `target`: in the entry of the file that had come to
`source`, or else in one of its own. -/
def extendMoved (source target : Path) : List MovedFile → List MovedFile
  | [] => [⟨source, target⟩]
  | m :: rest =>
    if m.target == source then ⟨m.source, target⟩ :: rest else m :: extendMoved source target rest

/-- Where a file is after a move from `source` to `target`. -/
def relocated (source target file : Path) : Path := if file == source then target else file

/-- Records a move, and follows it in what was recorded of the file before. -/
def addMoved (r : Report) (source target : Path) : Report where
  moved := extendMoved source target r.moved
  updated := (r.updated.map (relocated source target)).foldl insertNew []
  failed := r.failed.map fun f => { f with file := relocated source target f.file }

end Report

end Relocate
