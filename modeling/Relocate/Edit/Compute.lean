import Relocate.Project.Resolver
import Relocate.Span

/-!
Which imports of a file to edit. A replacement speaks of every import that means the same module as
its old specifier does, however that import is spelled. Each import follows the first replacement
that speaks of it, and all of them are read as they stood before any edit.
-/

namespace Relocate.Resolver

/-- The spans that a replacement has spoken of so far, and the edits made for them. -/
structure Claims where
  spans : List Span
  edits : List TextEdit
  deriving Repr, Inhabited

/-- Lets a replacement by `new` claim an import if it means the module `wanted` and is unclaimed.
One that already reads `new` is claimed without an edit. -/
def Claims.consider (wanted : Identity) (new : String) (c : Claims)
    (found : Reference × Option Identity) : Claims :=
  let (reference, target) := found
  if target == some wanted && !c.spans.contains reference.span then
    ⟨reference.span :: c.spans,
      if reference.specifier = new then c.edits else c.edits ++ [⟨reference.span, new⟩]⟩
  else c

/-- Lets a replacement claim what it speaks of. -/
def Claims.follow (r : Resolver) (disk : Disk) (file : Path)
    (found : List (Reference × Option Identity)) (c : Claims) (replacement : Replacement) :
    Claims :=
  if replacement.isTrivial then c
  else
    match r.resolve? disk file replacement.old with
    | none => c
    | some wanted => found.foldl (Claims.consider wanted replacement.new) c

/-- The imports of a file with the modules they mean. -/
def targets (r : Resolver) (disk : Disk) (file : Path) (references : List Reference) :
    List (Reference × Option Identity) :=
  references.map fun reference => (reference, r.resolve? disk file reference.specifier)

/-- The edits that carry out replacements, for imports that are read as those of `file`. -/
def editsFor (r : Resolver) (disk : Disk) (file : Path) (references : List Reference)
    (replacements : List Replacement) : List TextEdit :=
  (replacements.foldl (Claims.follow r disk file (r.targets disk file references)) ⟨[], []⟩).edits

end Relocate.Resolver
