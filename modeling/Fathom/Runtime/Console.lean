import Fathom.Lib.Word

/-!
# The console and the screen (`guest_console.cpp`, `GuestDisplay.swift`)

What is typed waits in `line` until it ends or the program asks for keys, and in `input`
until it is read.
-/

namespace Fathom

structure GuestConsole where
  input : List UInt8 := []
  line : List UInt8 := []
  rawMode : Bool := false
  nonblockingStdin : Bool := false
  inputClosed : Bool := false
  stopRequested : Bool := false
  deriving DecidableEq

/-- What `ReadInput` returns; `waits` where it would sleep on. -/
inductive InputRead where
  | bytes (out : List UInt8)
  | again
  | waits
  deriving DecidableEq

namespace GuestConsole

variable (c : GuestConsole)

/-- One key of a line that is being edited. -/
def key (c : GuestConsole) (key : UInt8) : GuestConsole :=
  if key = 0x0D ∨ key = 0x0A then { c with input := c.input ++ (c.line ++ [0x0A]), line := [] }
  else if key = 0x7F ∨ key = 0x08 then { c with line := c.line.dropLast }
  else if key = 0x04 then { c with input := c.input ++ c.line, line := [] }
  else { c with line := c.line ++ [key] }

def sendInput (bytes : List UInt8) : GuestConsole :=
  if c.rawMode then { c with input := c.input ++ bytes } else bytes.foldl key c

def setRawMode (raw : Bool) : GuestConsole :=
  let c := { c with rawMode := raw }
  if raw ∧ c.line ≠ [] then { c with input := c.input ++ c.line, line := [] } else c

def readInput (max : Nat) : InputRead × GuestConsole :=
  if c.input = [] then
    if c.stopRequested ∨ c.inputClosed then (.bytes [], c)
    else if c.nonblockingStdin then (.again, c)
    else (.waits, c)
  else (.bytes (c.input.take max), { c with input := c.input.drop max })

def inputAvailable : Bool := c.inputClosed || c.input ≠ []

def closeInput : GuestConsole := { c with inputClosed := true }

def setNonblockingStdin (value : Bool) : GuestConsole := { c with nonblockingStdin := value }

end GuestConsole

/-! ## The screen

A file the guest made, mapped by the app: an XWD header of big-endian fields, then the rows.
`none` is a trap, of an `Int` that does not fit or of a read that leaves the mapping. -/

structure GuestDisplay where
  mappedLength : Int
  pixels : Int
  height : Int
  bytesPerRow : Int
  lastChecksum : UInt64 := 0

namespace GuestDisplay

open Lib

structure Header where
  width : Int
  height : Int
  bytesPerRow : Int
  pixelOffset : Int

def int (n : Int) : Option Int :=
  if -0x8000000000000000 ≤ n ∧ n < 0x8000000000000000 then some n else none

/-- The bytes `[start, start + count)` of a mapping are read. -/
def inside (length start count : Int) : Option Unit :=
  if 0 ≤ start ∧ start + count ≤ length then some () else none

section

variable (length : Int) (mem : Nat → UInt8)

def field (index : Nat) : Option Int := do
  inside length (index * 4) 4
  return number (fun i => mem (index * 4 + (3 - i))) 4 0

def Header.init : Option (Option Header) := do
  let headerSize ← field length mem 0
  let format ← field length mem 2
  let depth ← field length mem 3
  let bitsPerPixel ← field length mem 11
  let ncolors ← field length mem 19
  if ¬ (headerSize ≥ 100 ∧ format = 2 ∧ (depth = 24 ∨ depth = 32) ∧ bitsPerPixel = 32) then
    return none
  let width ← field length mem 4
  let height ← field length mem 5
  let bytesPerRow ← field length mem 12
  let pixelOffset ← int (headerSize + (← int (ncolors * 12)))
  if ¬ (width > 0 ∧ height > 0 ∧ bytesPerRow ≥ (← int (width * 4))) then return none
  return some { width, height, bytesPerRow, pixelOffset }

/-- For a file of the given size and contents. -/
def map : Option (Option GuestDisplay) := do
  if ¬ length > 100 then return none
  let some header ← Header.init length mem | return none
  if ¬ (← int (header.pixelOffset + (← int (header.bytesPerRow * header.height)))) ≤ length then
    return none
  return some ⟨length, header.pixelOffset, header.height, header.bytesPerRow, 0⟩

end

variable (d : GuestDisplay) (mem : Nat → UInt8)

def sampleFrom (count index : Int) (checksum : UInt64) : Option UInt64 :=
  if index < count then
    let stride := max 1 (count / 4096)
    let start := d.pixels + index * 4
    match inside d.mappedLength start 4, int (index + stride) with
    | some _, some _ => sampleFrom count (index + stride)
        ((checksum ^^^ UInt64.ofNat (number mem 4 start.toNat)) * 1099511628211)
    | _, _ => none
  else some checksum
termination_by (count - index).toNat

def sample : Option UInt64 := do
  let count := (← int (d.bytesPerRow * d.height)) / 4
  if count > 0 then d.sampleFrom mem count 0 1469598103934665603 else return 0

def refresh : Option GuestDisplay := do
  let checksum ← d.sample mem
  if checksum = d.lastChecksum then return d
  inside d.mappedLength d.pixels (← int (d.bytesPerRow * d.height))
  return { d with lastChecksum := checksum }

end GuestDisplay

end Fathom
