import Relocate.Disk.Basic

/-!
The operations that change a disk. Each returns how it went together with the disk it leaves
behind, because one that fails half-way may have created directories.
-/

namespace Relocate.Disk

/-- How an operation went, and the disk afterwards. -/
abbrev Outcome := Except IoCause Unit × Disk

/-- The steps of a path up to its last one, and the name that the last one is, if it is one. -/
def lastStep (path : Path) : List Component × Option String :=
  match (Text.splitAt '/' path.text.toList).reverse.dropWhile List.isEmpty with
  | [] => ([], none)
  | piece :: above =>
    (above.reverse.map fun piece => (Component.ofPiece? piece).getD .here,
      match Component.ofPiece? piece with
      | some (.name text) => some text
      | _ => none)

/-- The directory that the last step of a path starts from, and the name that step is, if it is
one. -/
def parentAndName (d : Disk) (path : Path) : Except IoCause (Location × Option String) :=
  let (above, name) := lastStep path
  (d.follow (d.startOf path) (above ++ [.here])).map fun place => (place, name)

/-- The path is written with a separator at its end, which only a directory may have. -/
def endsOpen (path : Path) : Bool := path.text.toList.getLast? == some '/'

/-- The last piece of a path is a dot, which asks for a directory and names none. -/
def endsInDot (path : Path) : Bool :=
  ((Text.splitAt '/' path.text.toList).reverse.dropWhile List.isEmpty).head? == some ['.']

/-- The place that a file to be written has or will have. -/
def placeToWrite (d : Disk) (path : Path) : Except IoCause Location :=
  if endsOpen path then
    ((checkText path).bind fun _ => d.parentAndName path).bind fun _ => .error .isDirectory
  else d.locate path

/-- Writes a file, which need not exist; its directory must. -/
def writeText (d : Disk) (path : Path) (text : String) : Outcome :=
  match d.placeToWrite path with
  | .error cause => (.error cause, d)
  | .ok place =>
    match d.entry? place with
    | some .directory => (.error .isDirectory, d)
    | _ => (.ok (), d.put place (.file (.text text)))

/-- The paths of what a directory holds, in the order of their names. -/
def readDir (d : Disk) (path : Path) : Except IoCause (List Path) :=
  match d.find path, d.locate path with
  | .ok .directory, .ok place => .ok ((d.namesIn place).map fun name => path.join ⟨name⟩)
  | .ok _, _ => .error .notDirectory
  | .error cause, _ => .error cause

/-- Removes the directory of a path that holds nothing any more. Its own name must be the last step
of the path; that the path no longer leads anywhere is no failure. -/
def removeEmptied (d : Disk) (path : Path) (place : Location) : Outcome :=
  match d.parentAndName path with
  | .error .notFound => (.ok (), d)
  | .error cause => (.error cause, d)
  | .ok (_, some _) => (.ok (), d.eraseTree place)
  | .ok (_, none) => (.error (if endsInDot path then .invalid else .notEmpty), d)

/-- Removes a directory and all that lies below it. -/
def removeTree (d : Disk) (path : Path) : Outcome :=
  match d.find path, d.locate path with
  | .ok .directory, .ok place => (d.eraseBelow place).removeEmptied path place
  | .ok _, _ => (.error .notDirectory, d)
  | .error cause, _ => (.error cause, d)

/-- Creates the directory that components lead to, given backwards. -/
def createDir (d : Disk) (start : Location) : List Component → Outcome
  | .name text :: parents =>
    match d.follow start (parents.reverse ++ [.here]) with
    | .error cause => (.error cause, d)
    | .ok place =>
      if isTooLong (.name text) then (.error .nameTooLong, d)
      else
        match d.entry? (place ++ [text]) with
        | some _ => (.error .alreadyThere, d)
        | none => (.ok (), d.put (place ++ [text]) .directory)
  | parts =>
    match d.follow start (parts.reverse ++ [.here]) with
    | .error cause => (.error cause, d)
    | .ok _ => (.error .alreadyThere, d)

/-- The components, given backwards, lead to a directory. -/
def leadsToDir (d : Disk) (start : Location) (parts : List Component) : Bool :=
  (d.follow start (parts.reverse ++ [.here])).isOk

/-- Creates the directory that components lead to, given backwards, by `createParents` and a second
attempt if its parent is missing. A directory that is there already will do. -/
def createAfter (start : Location) (parts : List Component) (createParents : Disk → Outcome)
    (d : Disk) : Outcome :=
  let settle : Outcome → Outcome
    | (.ok (), d) => (.ok (), d)
    | (.error cause, d) => if d.leadsToDir start parts then (.ok (), d) else (.error cause, d)
  match d.createDir start parts with
  | (.error .notFound, d) =>
    match createParents d with
    | (.error cause, d) => (.error cause, d)
    | (.ok (), d) => settle (d.createDir start parts)
  | outcome => settle outcome

/-- Creates the directory that components lead to, given backwards, and those on the way to it. -/
def createDirs (start : Location) : List Component → Disk → Outcome
  | [], d => (.ok (), d)
  | part :: parents, d => createAfter start (part :: parents) (createDirs start parents) d

/-- Makes sure that a directory exists, and with it those on the way to it. -/
def ensureDir (d : Disk) (path : Path) : Outcome :=
  let start := d.startOf path
  match path.components.reverse, checkText path with
  | [], _ => (.ok (), d)
  | _ :: _, .error cause => (.error cause, d)
  | part :: parents, .ok () =>
    let parts := if endsInDot path then .here :: part :: parents else part :: parents
    createAfter start parts (createDirs start parents) d

/-- Whether what `source` holds, `entry`, may take the place `target`. Only a directory may be named
as one. -/
def checkRename (d : Disk) (source target : Location) (entry : Entry) (asDirectory : Bool) :
    Except IoCause Unit :=
  if entry != .directory && asDirectory then .error .notDirectory
  else if source.isPrefixOf target && source != target then .error .invalid
  else if target.isPrefixOf source && source != target then .error .notEmpty
  else
    match entry, d.entry? target with
    | .file _, some .directory => .error .isDirectory
    | .file _, _ => .ok ()
    | .directory, some (.file _) => .error .notDirectory
    | .directory, some .directory =>
      if source == target || (d.namesIn target).isEmpty then .ok () else .error .notEmpty
    | .directory, none => .ok ()

/-- The places that a file or directory is to be taken from and put to. Both paths are read before
either is followed. -/
def renamePlaces (d : Disk) (source target : Path) :
    Except IoCause ((Location × String) × (Location × String)) := do
  checkCharacters source
  checkCharacters target
  checkLength source
  checkLength target
  match ← d.parentAndName source, ← d.parentAndName target with
  | (above, some name), (above', some name') => .ok ((above, name), (above', name'))
  | _, _ => .error .busy

/-- Puts a file or directory elsewhere. It replaces a file, or an empty directory, of its own
kind. -/
def rename (d : Disk) (source target : Path) : Outcome :=
  match d.renamePlaces source target with
  | .error cause => (.error cause, d)
  | .ok ((above, name), (above', name')) =>
    let source' := above ++ [name]
    let target' := above' ++ [name']
    if isTooLong (.name name) then (.error .nameTooLong, d)
    else
      match d.entry? source' with
      | none => (.error .notFound, d)
      | some entry =>
        if isTooLong (.name name') then (.error .nameTooLong, d)
        else
          match d.checkRename source' target' entry (endsOpen source || endsOpen target) with
          | .error cause => (.error cause, d)
          | .ok () =>
            if source' = target' then (.ok (), d)
            else (.ok (), (d.eraseTree target').relocateTree source' target')

end Relocate.Disk
