import Chip8.Main
import Chip8.Dialect.Behaviour
import Chip8.Instruction.Encoding
import Chip8.Instruction.Assembly
import Chip8.Machine.Cycle
import Chip8.Machine.History
import Chip8.Picture.Reading
import Chip8.Rom.Reading
import Chip8.Session.History
import Chip8.Session.Watched
import Chip8.Proofs.Instruction.Listings
import Chip8.Proofs.Instruction.Texts
import Chip8.Proofs.Machine.Step
import Chip8.Proofs.Machine.Bounds
import Chip8.Proofs.Machine.Calls
import Chip8.Proofs.Machine.Footprint
import Chip8.Proofs.Machine.Timers
import Chip8.Proofs.Machine.Faults
import Chip8.Proofs.Machine.Arithmetic
import Chip8.Proofs.Machine.Control
import Chip8.Proofs.Machine.Transfers
import Chip8.Proofs.Machine.Sprites
import Chip8.Proofs.Machine.SelfJump
import Chip8.Proofs.Machine.Waiting
import Chip8.Proofs.Machine.Present
import Chip8.Proofs.Machine.Loading
import Chip8.Proofs.Machine.Dialects
import Chip8.Proofs.Screen.Flips
import Chip8.Proofs.Screen.Sprites
import Chip8.Proofs.Screen.Upscaling
import Chip8.Proofs.Screen.Pictures
import Chip8.Proofs.Rom.Splits
import Chip8.Proofs.Rom.Reading
import Chip8.Proofs.Run.EarlyExit
import Chip8.Proofs.Number.Binary64
import Chip8.Proofs.Number.Rounding
import Chip8.Proofs.Number.Decimal
import Chip8.Proofs.Number.Notation
import Chip8.Proofs.Session.Burst
import Chip8.Proofs.Session.Frames
import Chip8.Proofs.Session.Pacing
import Chip8.Proofs.Session.Modes
import Chip8.Proofs.Session.CleanStart
import Chip8.Proofs.Session.Pausing
import Chip8.Proofs.Session.Tracing
import Chip8.Proofs.Session.Watching
import Chip8.Proofs.Terminal.Actions
import Chip8.Proofs.Terminal.Moments
import Chip8.Proofs.Terminal.KeyNames
import Chip8.Proofs.Terminal.KeyLog
import Chip8.Proofs.Terminal.KeyHold
import Chip8.Proofs.Terminal.KeyPieces
import Chip8.Proofs.Terminal.Bell
import Chip8.Proofs.Terminal.Drawing
import Chip8.Proofs.Trace.Lines
import Chip8.Proofs.Dialect.Names
import Chip8.Proofs.Settings.Precedence
import Chip8.Proofs.Tool.Refusals
import Chip8.Proofs.Tool.ExitCodes
