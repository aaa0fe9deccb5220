import Relocate.Error
import Relocate.Path.Normal

/-!
A disk: a finite tree of directories and files, as a list of the places that hold something. A
path is followed one component at a time, and every component but the last must lead into a
directory, so `..` behind a name that does not exist leads nowhere.
-/

namespace Relocate

/-- A place on a disk: the names that lead to it from the root directory. -/
abbrev Location := List String

/-- What a file holds. -/
inductive Content where
  | text (text : String)
  /-- Bytes that are no text. -/
  | bytes (bytes : List UInt8)
  deriving DecidableEq, Repr, Inhabited

/-- What a place holds. -/
inductive Entry where
  | file (content : Content)
  | directory
  deriving DecidableEq, Repr, Inhabited

/-- A disk, and the directory that relative paths start from. The root directory is not listed:
it always exists. -/
structure Disk where
  entries : List (Location × Entry)
  workingDir : Location
  deriving Repr, Inhabited

namespace Disk

/-- What the disk holds at a place. -/
def entry? (d : Disk) (place : Location) : Option Entry :=
  if place = [] then some .directory else d.entries.lookup place

/-- The disk with an entry at a place, in the stead of any that was there. -/
def put (d : Disk) (place : Location) (entry : Entry) : Disk :=
  if (d.entries.lookup place).isSome then
    { d with entries := d.entries.map fun (p, e) => if p = place then (p, entry) else (p, e) }
  else { d with entries := d.entries ++ [(place, entry)] }

/-- The disk without the place and all that lies below it. -/
def eraseTree (d : Disk) (place : Location) : Disk :=
  { d with entries := d.entries.filter fun (p, _) => !place.isPrefixOf p }

/-- The disk without what lies below the place. -/
def eraseBelow (d : Disk) (place : Location) : Disk :=
  { d with entries := d.entries.filter fun (p, _) => p == place || !place.isPrefixOf p }

/-- The disk with the place, and all that lies below it, put elsewhere. -/
def relocateTree (d : Disk) (source target : Location) : Disk :=
  { d with
    entries := d.entries.map fun (p, e) =>
      match List.isPrefixOf? source p with
      | some rest => (target ++ rest, e)
      | none => (p, e) }

/-- The names in a directory, in order. -/
def namesIn (d : Disk) (place : Location) : List String :=
  (d.entries.filterMap fun (p, _) =>
      match List.isPrefixOf? place p with
      | some [name] => some name
      | _ => none).mergeSort fun a b => decide (a ≤ b)

/-- The place a component leads to. -/
def stepFrom (place : Location) : Component → Location
  | .root => []
  | .here => place
  | .up => place.dropLast
  | .name text => place ++ [text]

/-- The component is a name that no entry can have, because it takes more than 255 bytes. -/
def isTooLong : Component → Bool
  | .name text => decide (255 < text.utf8ByteSize)
  | _ => false

/-- The place that components lead to; the places on the way are directories. -/
def follow (d : Disk) : Location → List Component → Except IoCause Location
  | place, [] => .ok place
  | place, part :: parts =>
    match d.entry? place with
    | none => .error .notFound
    | some (.file _) => .error .notDirectory
    | some .directory =>
      if isTooLong part then .error .nameTooLong else follow d (stepFrom place part) parts

/-- The components of a path with nothing left out: an empty piece, such as that behind a trailing
separator, asks for a directory just as `.` does. -/
def stepsOf (path : Path) : List Component :=
  (Text.splitAt '/' path.text.toList).map fun piece => (Component.ofPiece? piece).getD .here

/-- Where a path starts. -/
def startOf (d : Disk) (path : Path) : Location := if path.isAbsolute then [] else d.workingDir

/-- Accepts a text that can be handed to the operating system: it holds no null character. -/
def checkCharacters (path : Path) : Except IoCause Unit :=
  if path.text.toList.contains '\x00' then .error .nullCharacter else .ok ()

/-- Accepts a text that is not too long to be a path. -/
def checkLength (path : Path) : Except IoCause Unit :=
  if 4095 < path.text.utf8ByteSize then .error .nameTooLong else .ok ()

/-- Accepts a text that can be a path. -/
def checkText (path : Path) : Except IoCause Unit :=
  (checkCharacters path).bind fun _ => checkLength path

/-- The place that a path leads to, which may be empty. -/
def locate (d : Disk) (path : Path) : Except IoCause Location :=
  (checkText path).bind fun _ =>
    if path.text = "" then .error .notFound else d.follow (d.startOf path) (stepsOf path)

/-- What a path leads to. -/
def find (d : Disk) (path : Path) : Except IoCause Entry :=
  (d.locate path).bind fun place =>
    match d.entry? place with
    | none => .error .notFound
    | some entry => .ok entry

/-- The path leads to something. -/
def contains (d : Disk) (path : Path) : Bool := (d.find path).isOk

/-- The path leads to a directory. -/
def isDir (d : Disk) (path : Path) : Bool :=
  match d.find path with
  | .ok .directory => true
  | _ => false

/-- The path leads to a file. -/
def isFile (d : Disk) (path : Path) : Bool :=
  match d.find path with
  | .ok (.file _) => true
  | _ => false

/-- The text of a file. -/
def readText (d : Disk) (path : Path) : Except IoCause String :=
  match d.find path with
  | .ok (.file (.text text)) => .ok text
  | .ok (.file (.bytes _)) => .error .notText
  | .ok .directory => .error .isDirectory
  | .error cause => .error cause

end Disk

end Relocate
