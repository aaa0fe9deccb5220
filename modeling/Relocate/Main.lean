import Relocate.Cli.Run
import Relocate.Disk.Difference

/-!
The command. What it may look at is read into a disk, the command is run on that disk, and what
differs afterwards is written back.
-/

namespace Relocate.Cli

/-- The text of a place. -/
def placeText (place : Location) : String := "/" ++ "/".intercalate place

/-- The place that a path means, from a directory. -/
def placeFrom (dir : Location) (path : Path) : Location :=
  ((Path.ofComponents (.root :: dir.map .name)).absolutize path).components.filterMap fun
    | .name text => some text
    | _ => none

/-- What a file holds. -/
def readContent (place : Location) : IO Content := do
  let bytes ← IO.FS.readBinFile (placeText place)
  match String.fromUTF8? bytes with
  | some text => return .text text
  | none => return .bytes bytes.toList

/-- The entries at a place and, if `deep`, at all places below it. Otherwise only the files right
below it are read. What cannot be read is left out. -/
partial def readEntries (deep : Bool) (place : Location) : IO (List (Location × Entry)) := do
  try
    let path := (← IO.currentDir) / placeText place
    match (← path.symlinkMetadata).type with
    | .file => return [(place, .file (← readContent place))]
    | .dir =>
      let mut found := #[(place, Entry.directory)]
      for child in ← path.readDir do
        let below := place ++ [child.fileName]
        if deep then found := found ++ (← readEntries true below).toArray
        else if (← child.path.symlinkMetadata).type == .file then
          found := found ++ (← readEntries false below).toArray
      return found.toList
    | _ => return []
  catch _ => return []

/-- The places that a request may change or look at. -/
def placesOf (dir : Location) : Request → List Location
  | .move source target root _ =>
    let root := placeFrom dir root
    [root, placeFrom root source, placeFrom root target]
  | .refs _ root => [placeFrom dir root]
  | .help _ | .version => []

/-- The disk as far as a request is concerned: the trees at its places, and the files in the
directories above them. -/
def readDisk (dir : Location) (request : Option Request) : IO Disk := do
  let places := (request.map (placesOf dir)).getD []
  let above := (dir :: places).flatMap fun place => (List.range place.length).map place.take
  let mut disk : Disk := ⟨[], dir⟩
  for place in above ++ [dir] do
    for (place, entry) in ← readEntries false place do
      if place != [] then disk := disk.put place entry
  for place in places do
    for (place, entry) in ← readEntries true place do
      if place != [] then disk := disk.put place entry
  return disk

/-- Writes what has changed. New entries come first, from the top down, then the old ones go, from
the bottom up. -/
def writeChanges (changes : List (Location × Option Entry)) : IO Unit := do
  let sorted := changes.mergeSort fun a b => a.1.length ≤ b.1.length
  for (place, entry) in sorted do
    match entry with
    | some .directory => IO.FS.createDirAll (placeText place)
    | some (.file (.text text)) => IO.FS.writeFile (placeText place) text
    | some (.file (.bytes bytes)) => IO.FS.writeBinFile (placeText place) ⟨bytes.toArray⟩
    | none => pure ()
  for (place, entry) in sorted.reverse do
    if entry.isNone then
      if ← ((← IO.currentDir) / placeText place).isDir then IO.FS.removeDir (placeText place)
      else IO.FS.removeFile (placeText place)

/-- The variables of the environment. -/
def readEnvironment : IO (List (String × String)) := do
  try
    let bytes ← IO.FS.readBinFile "/proc/self/environ"
    let entries := Text.splitAt (0 : UInt8) bytes.toList
    return entries.filterMap fun entry =>
      (String.fromUTF8? ⟨entry.toArray⟩).bind fun text =>
        let (name, value) := splitOption text
        value.map fun value => (name, value)
  catch _ => return []

/-- Thirty-two hexadecimal digits that count on from a number. -/
def hexName (seed count : Nat) : String :=
  let digits := Nat.toDigits 16 ((seed + count) % 0x100000000000000000000000000000000)
  String.ofList (List.replicate (32 - digits.length) '0' ++ digits)

end Relocate.Cli

open Relocate.Cli in
/-- Runs the command line. -/
def main (arguments : List String) : IO UInt32 := do
  let dir := placeFrom [] ⟨(← IO.currentDir).toString⟩
  let before ← readDisk dir (request? arguments)
  let seed := (← IO.getRandomBytes 16).foldl (fun n byte => 256 * n + byte.toNat) 0
  let outcome := run (hexName seed) (← readEnvironment) before arguments
  writeChanges (before.changes outcome.disk)
  IO.print outcome.output
  outcome.complaints.forM fun complaint => IO.eprintln complaint
  return outcome.code.toUInt32
