import Chip8.Rom.File

namespace Chip8

structure Reading where
  plan : List ReadPlan
  buffer : Image
  calls : List FileCall

namespace Reading

abbrev Action := EStateM Failure Reading

def call (c : FileCall) (failure : Option Failure) : Action Unit := do
  modify fun s ↦ { s with calls := s.calls ++ [c] }
  match failure with
  | some e => throw e
  | none => return

def allocate : Int → Action Nat
  | .ofNat size => do
    modify fun s ↦ { s with buffer := Array.replicate size 0 }
    return size
  | .negSucc n => throw (.error none (FileEntry.invalidLength (.negSucc n)))

def overwrite (buffer : Image) (offset : Nat) (bytes : Image) : Image :=
  buffer.extract 0 offset ++ bytes ++ buffer.extract (offset + bytes.size)

def read (data : Image) (offset wanted position : Nat) : Action Nat := do
  call (.read offset wanted position) none
  let s ← get
  set { s with plan := s.plan.tail }
  match ReadPlan.deliver wanted (data.size - position) s.plan.head? with
  | .error e => throw e
  | .ok n =>
    modify fun s ↦
      { s with buffer := overwrite s.buffer offset (data.extract position (position + n)) }
    return n

def fill (data : Image) (size offset : Nat) : Action Nat :=
  if offset < size then do
    let n ← read data offset (size - offset) offset
    if n = 0 then return offset
    else fill data size (offset + n)
  else return offset
termination_by size - offset

def transfer (path : String) (f : FileEntry) : Action (Except LoadError Image) := do
  let size ← allocate f.size
  let got ← fill f.data size 0
  if got = size then return .ok (← get).buffer
  else return .error (.readFailed path
    ("read " ++ toString got ++ " of " ++ toString size ++ " bytes"))

def contents (path : String) (f : FileEntry) : Action (Except LoadError Image) := do
  call .stat f.statFailure
  if f.regular then
    match LoadError.checkSize f.size with
    | .error e => return .error e
    | .ok () => transfer path f
  else return .error (.notFound path)

/-- After a failed opening there is nothing to close. A failure of the closing is not told. -/
def program (path : String) (f : FileEntry) : Action (Except LoadError Image) := do
  let refusal ← try
      call (.openFile path) f.openFailure
      pure none
    catch e => pure (some e)
  match refusal with
  | some e => return .error (if e.isMissing then .notFound path else .openFailed path e.message)
  | none =>
    let r ← try contents path f catch e => pure (.error (.readFailed path e.message))
    try call .close f.closeFailure catch _ => pure ()
    return r

def start (f : FileEntry) : Reading := ⟨f.reads, #[], []⟩

end Reading

end Chip8
