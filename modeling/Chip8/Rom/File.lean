import Chip8.Rom.LoadError

namespace Chip8

inductive Failure
  | error (code : Option String) (message : String)
  | value (text : String)
  deriving DecidableEq, Repr

namespace Failure

def message : Failure → String
  | error _ m => m
  | value t => t

def isMissing : Failure → Bool
  | error (some c) _ => c == "ENOENT" || c == "ENOTDIR"
  | _ => false

def report : Failure → String
  | error _ m => "Error: " ++ m
  | value t => t

end Failure

inductive ReadPlan
  | atMost (n : Int)
  | fails (f : Failure)
  deriving DecidableEq, Repr

def ReadPlan.deliver (wanted left : Nat) : Option ReadPlan → Except Failure Nat
  | none => .ok (min wanted left)
  | some (.atMost n) => .ok (min n.toNat (min wanted left))
  | some (.fails f) => .error f

theorem ReadPlan.le_of_deliver {wanted left n : Nat} {plan : Option ReadPlan}
    (h : deliver wanted left plan = .ok n) : n ≤ left := by
  unfold deliver at h
  split at h <;> injection h <;> omega

/-- How a file behaves. The size is what the file is said to have. When the plan of its reads is
used up, each read delivers all it can. -/
structure FileEntry where
  data : Image
  size : Int
  regular : Bool
  openFailure : Option Failure
  statFailure : Option Failure
  closeFailure : Option Failure
  reads : List ReadPlan
  mkdirFailure : Option Failure
  writeFailure : Option Failure

abbrev FileTable := String → Option FileEntry

inductive FileCall
  | openFile (path : String)
  | stat
  | read (offset length position : Nat)
  | close
  | mkdir (path : String)
  | create (path : String)
  deriving DecidableEq, Repr

namespace FileEntry

def readAll (data : Image) (size : Nat) (plan : List ReadPlan) (got : Image) :
    List FileCall × Except Failure Image :=
  if _h : got.size < size then
    let call := FileCall.read got.size (size - got.size) got.size
    match _hd : ReadPlan.deliver (size - got.size) (data.size - got.size) plan.head? with
    | .error f => ([call], .error f)
    | .ok 0 => ([call], .ok got)
    | .ok (n + 1) =>
      let (calls, r) :=
        readAll data size plan.tail (got ++ data.extract got.size (got.size + (n + 1)))
      (call :: calls, r)
  else ([], .ok got)
termination_by size - got.size
decreasing_by
  have hn := ReadPlan.le_of_deliver _hd
  rw [Array.size_append, Array.size_extract]
  omega

def invalidLength (size : Int) : String :=
  "Invalid typed array length: " ++ (Whole.nearest size).text

def readOpened (path : String) (f : FileEntry) : List FileCall × Except LoadError Image :=
  match f.statFailure with
  | some e => ([.stat], .error (.readFailed path e.message))
  | none =>
    if !f.regular then ([.stat], .error (.notFound path))
    else
      match LoadError.checkSize f.size with
      | .error e => ([.stat], .error e)
      | .ok () =>
        match f.size with
        | .negSucc _ => ([.stat], .error (.readFailed path (invalidLength f.size)))
        | .ofNat size =>
          match readAll f.data size f.reads #[] with
          | (calls, .error e) => (.stat :: calls, .error (.readFailed path e.message))
          | (calls, .ok image) =>
            if image.size = size then (.stat :: calls, .ok image)
            else
              (.stat :: calls, .error (.readFailed path
                ("read " ++ toString image.size ++ " of " ++ toString size ++ " bytes")))

end FileEntry

namespace FileTable

/-- Reads a program file. What was opened is closed last, whatever happened before; whether closing
fails does not matter. -/
def readProgram (files : FileTable) (path : String) : List FileCall × Except LoadError Image :=
  match files path with
  | none => ([.openFile path], .error (.notFound path))
  | some f =>
    match f.openFailure with
    | some e =>
      ([.openFile path],
        .error (if e.isMissing then .notFound path else .openFailed path e.message))
    | none =>
      let (calls, r) := f.readOpened path
      (.openFile path :: calls ++ [.close], r)

end FileTable

end Chip8
