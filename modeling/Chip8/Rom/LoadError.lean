import Chip8.Memory
import Chip8.Number.Notation

namespace Chip8

inductive LoadError
  | notFound (path : String)
  | openFailed (path message : String)
  | readFailed (path message : String)
  | tooLarge (size limit : Int)
  deriving DecidableEq, Repr

namespace LoadError

def checkSize (size : Int) : Except LoadError Unit :=
  if Memory.programLimit < size then .error (.tooLarge size Memory.programLimit) else .ok ()

def checkImage (image : Image) : Except LoadError Image :=
  (checkSize image.size).map fun _ ↦ image

def description : LoadError → String
  | notFound path => "ROM not found: " ++ path
  | openFailed path message => "Could not open ROM " ++ path ++ ": " ++ message
  | readFailed path message => "Could not read ROM " ++ path ++ ": " ++ message
  | tooLarge size limit =>
    "ROM is " ++ (Whole.nearest size).text ++ " bytes; at most " ++ (Whole.nearest limit).text ++
      " fit in memory"

def report : Except LoadError Int → String
  | .ok size => "Loaded " ++ (Whole.nearest size).text ++ " bytes"
  | .error e => e.description

end LoadError

end Chip8
