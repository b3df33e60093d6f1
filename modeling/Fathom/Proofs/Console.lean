import Fathom.Runtime.Console

/-!
# The console's two buffers are a line discipline

The discipline is stated on what happened, in order: it has no queue, and hands each byte on
as soon as it can. A read moves bytes from the queue to the reader and leaves the two
together as they were.
-/

namespace Fathom

inductive ConsoleCall where
  | sendInput (bytes : List UInt8)
  | setRawMode (raw : Bool)
  | readInput (max : Nat)

/-- What the discipline sees of the calls. -/
inductive ConsoleEvent where
  | typed (byte : UInt8)
  | mode (raw : Bool)

def ConsoleCall.events : ConsoleCall → List ConsoleEvent
  | .sendInput bytes => bytes.map .typed
  | .setRawMode raw => [.mode raw]
  | .readInput _ => []

/-- What reaches the program of the events to come, in a mode and with an unfinished line. -/
def discipline (raw : Bool) (line : List UInt8) : List ConsoleEvent → List UInt8
  | [] => []
  | .mode true :: rest => line ++ discipline true [] rest
  | .mode false :: rest => discipline false line rest
  | .typed byte :: rest =>
    if raw then byte :: discipline raw line rest
    else if byte ∈ [0x0D, 0x0A] then line ++ 0x0A :: discipline raw [] rest
    else if byte ∈ [0x7F, 0x08] then discipline raw line.dropLast rest
    else if byte = 0x04 then line ++ discipline raw [] rest
    else discipline raw (line ++ [byte]) rest

namespace GuestConsole

variable (c : GuestConsole) (rest : List ConsoleEvent)

/-- A call, and the bytes it gives its caller. -/
def call : ConsoleCall → List UInt8 × GuestConsole
  | .sendInput bytes => ([], c.sendInput bytes)
  | .setRawMode raw => ([], c.setRawMode raw)
  | .readInput max =>
    match c.readInput max with
    | (.bytes out, c) => (out, c)
    | (_, c) => ([], c)

/-- The bytes read in a run of calls, and the console after it. -/
def run : GuestConsole → List ConsoleCall → List UInt8 × GuestConsole
  | c, [] => ([], c)
  | c, call :: calls =>
    let (out, c) := c.call call
    let (more, c) := c.run calls
    (out ++ more, c)

/-- What is in the queue or will come to it. -/
def coming : List UInt8 := c.input ++ discipline c.rawMode c.line rest

theorem key_same (key : UInt8) : ∃ input line, c.key key = { c with input, line } := by
  rw [GuestConsole.key]
  split_ifs <;> exact ⟨_, _, rfl⟩

theorem foldl_key_same (bytes : List UInt8) :
    ∃ input line, bytes.foldl key c = { c with input, line } := by
  induction bytes generalizing c with
  | nil => exact ⟨_, _, rfl⟩
  | cons byte _ ih =>
    obtain ⟨_, _, hkey⟩ := c.key_same byte
    obtain ⟨input, line, hrest⟩ := ih (c.key byte)
    exact ⟨input, line, hrest.trans (by rw [hkey])⟩

theorem coming_key (hc : c.rawMode = false) (key : UInt8) :
    (c.key key).coming rest = c.coming (.typed key :: rest) := by
  simp only [coming, hc, discipline, GuestConsole.key, List.mem_cons, List.not_mem_nil, or_false,
    Bool.false_eq_true, if_false]
  split_ifs <;> simp

theorem coming_sendInput (bytes : List UInt8) :
    (c.sendInput bytes).coming rest = c.coming (bytes.map .typed ++ rest) := by
  by_cases hc : c.rawMode
  · simp only [sendInput, hc, if_true, coming, List.append_assoc]
    congr 1
    induction bytes with
    | nil => rfl
    | cons _ _ ih => simp [discipline, ih]
  · simp only [sendInput, hc]
    induction bytes generalizing c with
    | nil => rfl
    | cons byte bytes ih =>
      have step := c.coming_key (bytes.map .typed ++ rest) (by simpa using hc) byte
      obtain ⟨_, _, hkey⟩ := c.key_same byte
      exact (ih _ (by rwa [hkey])).trans step

theorem coming_setRawMode (raw : Bool) :
    (c.setRawMode raw).coming rest = c.coming (.mode raw :: rest) := by
  cases raw with
  | false => simp [setRawMode, coming, discipline]
  | true => by_cases hl : c.line = [] <;> simp [setRawMode, coming, discipline, hl]

/-- Nothing overtakes, is lost or comes twice in a call. -/
theorem coming_call (call : ConsoleCall) :
    (c.call call).1 ++ (c.call call).2.coming rest = c.coming (call.events ++ rest) := by
  cases call with
  | sendInput bytes => exact c.coming_sendInput rest bytes
  | setRawMode raw => exact c.coming_setRawMode rest raw
  | readInput _ =>
    simp only [GuestConsole.call, readInput, ConsoleCall.events]
    split_ifs <;> simp [coming, ← List.append_assoc]

theorem coming_run (calls : List ConsoleCall) :
    (c.run calls).1 ++ (c.run calls).2.input = c.coming (calls.flatMap ConsoleCall.events) := by
  induction calls generalizing c with
  | nil => simp [run, coming, discipline]
  | cons call _ ih =>
    simp only [run, List.append_assoc, ih]
    exact c.coming_call _ call

theorem sendInput_append (first second : List UInt8) :
    (c.sendInput first).sendInput second = c.sendInput (first ++ second) := by
  by_cases hc : c.rawMode
  · simp [sendInput, hc]
  · obtain ⟨_, _, hkeys⟩ := c.foldl_key_same first
    simp [sendInput, hc, hkeys]

/-- Reads and queue are what the discipline makes of the events, and a cut in what is sent
changes nothing, in any state of the console. -/
theorem console_disciplined :
    (∀ calls : List ConsoleCall, let (out, c) := run { nonblockingStdin := true } calls
      out ++ c.input = discipline false [] (calls.flatMap ConsoleCall.events)) ∧
    ∀ (c : GuestConsole) (pieces : List (List UInt8)),
      pieces.foldl sendInput c = c.sendInput pieces.flatten := by
  refine ⟨coming_run _, fun c pieces => ?_⟩
  induction pieces generalizing c with
  | nil => simp [sendInput]
  | cons _ _ ih => rw [List.foldl_cons, ih, sendInput_append, List.flatten_cons]

end GuestConsole

/-! ## The end of input -/

/-- Any call but a request to stop. -/
inductive ConsoleStep where
  | call (made : ConsoleCall)
  | setNonblockingStdin (on : Bool)
  | closeInput

def ConsoleStep.events : ConsoleStep → List ConsoleEvent
  | .call made => made.events
  | _ => []

/-- The calls of a reader, and of a program that changes its terminal's mode. -/
inductive ReaderStep where
  | setRawMode (raw : Bool)
  | readInput (max : Nat)
  | setNonblockingStdin (on : Bool)
  | closeInput
  deriving DecidableEq

def ReaderStep.step : ReaderStep → ConsoleStep
  | .setRawMode raw => .call (.setRawMode raw)
  | .readInput max => .call (.readInput max)
  | .setNonblockingStdin on => .setNonblockingStdin on
  | .closeInput => .closeInput

namespace GuestConsole

variable (c : GuestConsole) (rest : List ConsoleEvent) (l : List ConsoleStep)

def step : ConsoleStep → List UInt8 × GuestConsole
  | .call made => c.call made
  | .setNonblockingStdin on => ([], c.setNonblockingStdin on)
  | .closeInput => ([], c.closeInput)

def steps : GuestConsole → List ConsoleStep → List UInt8 × GuestConsole
  | c, [] => ([], c)
  | c, s :: l =>
    let (out, c) := c.step s
    let (more, c) := c.steps l
    (out ++ more, c)

theorem coming_steps :
    (c.steps l).1 ++ (c.steps l).2.coming rest = c.coming (l.flatMap (·.events) ++ rest) := by
  induction l generalizing c with
  | nil => rfl
  | cons s l ih =>
    simp only [steps, List.append_assoc, ih, List.flatMap_cons]
    cases s with
    | call made => exact c.coming_call _ made
    | setNonblockingStdin on => simp [step, setNonblockingStdin, ConsoleStep.events, coming]
    | closeInput => simp [step, closeInput, ConsoleStep.events, coming]

/-- No call takes back that the input is closed, or asks to stop. -/
theorem call_flags (made : ConsoleCall) : (c.call made).2.inputClosed = c.inputClosed ∧
      (c.call made).2.stopRequested = c.stopRequested := by
  cases made with
  | sendInput bytes =>
    simp only [GuestConsole.call, sendInput]
    split
    · exact ⟨rfl, rfl⟩
    · obtain ⟨_, _, hkeys⟩ := c.foldl_key_same bytes
      rw [hkeys]
      exact ⟨rfl, rfl⟩
  | setRawMode raw =>
    simp only [GuestConsole.call, setRawMode]
    split_ifs <;> exact ⟨rfl, rfl⟩
  | readInput max =>
    simp only [GuestConsole.call, readInput]
    split_ifs <;> exact ⟨rfl, rfl⟩

theorem steps_flags : (c.inputClosed = true → (c.steps l).2.inputClosed = true) ∧
      (c.steps l).2.stopRequested = c.stopRequested := by
  induction l generalizing c with
  | nil => exact ⟨id, rfl⟩
  | cons s l ih =>
    have hstep : (c.inputClosed = true → (c.step s).2.inputClosed = true) ∧
        (c.step s).2.stopRequested = c.stopRequested := by
      cases s with
      | call made => exact ⟨(c.call_flags made).1.trans, (c.call_flags made).2⟩
      | setNonblockingStdin on => exact ⟨id, rfl⟩
      | closeInput => exact ⟨fun _ => rfl, rfl⟩
    exact ⟨fun h => (ih _).1 (hstep.1 h), (ih _).2.trans hstep.2⟩

theorem readInput_bytes {max : Nat} {out : List UInt8} {c' : GuestConsole}
    (h : c.readInput max = (.bytes out, c')) :
    c.input = out ++ c'.input ∧ c'.inputClosed = c.inputClosed := by
  rw [readInput] at h
  split at h
  next hinput =>
    split_ifs at h <;> cases h
    exact ⟨rfl, rfl⟩
  next =>
    cases h
    exact ⟨(List.take_append_drop max c.input).symm, rfl⟩

/-- The loop of a reader: what it gets until a read returns 0, if it never has to wait. -/
def readAll (max : Nat) (c : GuestConsole) : Option (List UInt8) :=
  match _h : c.readInput (max + 1) with
  | (.bytes [], _) => some []
  | (.bytes (byte :: out), c') => (readAll max c').map (byte :: out ++ ·)
  | (_, _) => none
termination_by c.input.length
decreasing_by
  rw [(readInput_bytes c _h).1, List.length_append, List.length_cons]
  omega

theorem readAll_closed (max : Nat) (hc : c.inputClosed = true) : c.readAll max = some c.input := by
  fun_induction readAll max c with
  | case1 c c' h =>
    simp only [readInput, hc, or_true, if_true] at h
    split at h
    next hinput => rw [hinput]
    next hinput => simp [hinput] at h
  | case2 c byte out c' h ih =>
    obtain ⟨hinput, hclosed⟩ := readInput_bytes c h
    rw [ih (hclosed.trans hc), hinput]
    rfl
  | case3 c read c' h₁ h₂ h =>
    simp only [readInput, hc, or_true, if_true] at h
    split at h
    · exact absurd (Prod.mk.inj h).1.symm h₁
    next hinput =>
      obtain ⟨byte, tail, hcons⟩ := List.exists_cons_of_ne_nil hinput
      rw [hcons] at h
      exact (h₂ _ _ (Prod.mk.inj h).1.symm).elim

/-- A change of mode is the only thing a reader can do to an unfinished line. -/
theorem discipline_reader (raw : Bool) (line : List UInt8) (after : List ReaderStep) :
    discipline raw line (after.flatMap (·.step.events)) =
      if .setRawMode true ∈ after then line else [] := by
  induction after generalizing raw line with
  | nil => rfl
  | cons s after ih =>
    cases s with
    | setRawMode on =>
      cases on with
      | false => exact (ih false line).trans (by simp)
      | true =>
        change line ++ discipline true [] (after.flatMap (·.step.events)) = _
        simp [ih]
    | readInput max => exact (ih raw line).trans (by simp)
    | setNonblockingStdin on => exact (ih raw line).trans (by simp)
    | closeInput => exact (ih raw line).trans (by simp)

/-- The reader has all that was typed, the unfinished line at its end, unless that line is not
empty and the mode is not changed after the end of input. And `InputAvailable` tells whether a
read would wait, unless there is nothing to read and reads do not wait. -/
theorem closed_input_read_iff (before : List ConsoleStep) (after : List ReaderStep) (max : Nat) :
    let (sent, c) := steps {} before
    let (got, c') := c.closeInput.steps (after.map (·.step))
    (∃ out, c'.readAll max = some out ∧
      (sent ++ got ++ out = discipline false [] (before.flatMap (·.events) ++ [.mode true]) ↔
        c.line = [] ∨ .setRawMode true ∈ after)) ∧
    ((c.inputAvailable = true ↔ (c.readInput max).1 ≠ .waits) ↔
      c.inputClosed = true ∨ c.input ≠ [] ∨ c.nonblockingStdin = false) := by
  have hsent := coming_steps {} [.mode true] before
  have hstop : (steps {} before).2.stopRequested = false := (steps_flags {} before).2
  generalize steps {} before = p at *
  obtain ⟨sent, c⟩ := p
  have hgot := c.closeInput.coming_steps [] (after.map (·.step))
  have hend := (c.closeInput.steps_flags (after.map (·.step))).1 rfl
  dsimp only at hstop ⊢
  generalize c.closeInput.steps (after.map (·.step)) = p at *
  obtain ⟨got, c'⟩ := p
  refine ⟨⟨_, c'.readAll_closed max hend, ?_⟩, ?_⟩
  · simp only [coming, discipline, List.flatMap_map, List.append_nil, discipline_reader, closeInput,
      List.nil_append] at hsent hgot
    rw [List.append_assoc, hgot, ← hsent]
    by_cases hraw : ReaderStep.setRawMode true ∈ after <;> simp [hraw]
  · simp only [inputAvailable, readInput, hstop]
    by_cases hinput : c.input = [] <;> cases hc : c.inputClosed <;>
      cases hn : c.nonblockingStdin <;> simp [hinput]

/-- A line without its end: the reader gets nothing of it. -/
theorem unfinished_line_lost :
    let (_, c) := steps {} [.call (.sendInput [0x61]), .closeInput]
    (c.readInput 1).1 = .bytes [] ∧ c.line = [0x61] := by
  decide

end GuestConsole

end Fathom
