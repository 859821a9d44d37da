import NonNative.Constraint.Report
import NonNative.Script.Operation

/-!
Sessions: a constraint system, possibly with an emulated field or a chip on
it, the log of what has been recorded, and the registers of a script. A step
resolves its arguments, carries out its call on the log and, if the call
succeeded, may set a register. A fault does not end the session.
-/

namespace NonNative

/-- What the operations of a session work on. -/
inductive Setting where
  | system (F : NativeField)
  | field (E : EmulatedField)
  | chip (C : Chip)

namespace Setting

def native : Setting → NativeField
  | .system F => F
  | .field E => E.native
  | .chip C => C.native

def field? : Setting → Option EmulatedField
  | .system _ => none
  | .field E => some E
  | .chip C => some C.field

def chip? : Setting → Option Chip
  | .chip C => some C
  | _ => none

/-- The notices given while the setting is built. -/
def notices (S : Setting) : List Notice :=
  let system := [.systemReady S.native.bits]
  let field := S.field?.toList.map fun E =>
    .emulationReady E.modulusBits E.limbCount E.limbBits E.maxOverflow
  let chip := S.chip?.toList.map fun C => .chipReady C.native.order
  system ++ field ++ chip

end Setting

/-- Reports, the only operations that read the log. -/
inductive Report where
  | unsatisfied
  | isSatisfied
  | check
  | numConstraints

/-- The notice of a check that succeeded. -/
def Log.checkNotices (log : Log) : List Notice :=
  match log.check with
  | .ok _ => [.allSatisfied log.length]
  | .error _ => []

/-- What a report finds in the given log. -/
def Report.run (log : Log) : Report → Run Value
  | .unsatisfied => ⟨[], [], log.unsatisfied.map fun failed => .list (failed.map .constraint)⟩
  | .isSatisfied => ⟨[], [], log.isSatisfied.map .bool⟩
  | .check => ⟨[], log.checkNotices.map .notice, log.check.map fun _ => .nothing⟩
  | .numConstraints => ⟨[], [], .ok (.int log.length)⟩

def Report.live : Report → Live Value
  | .unsatisfied => do
      let log ← Live.log
      let failed ← Live.ofExcept log.unsatisfied
      return .list (failed.map .constraint)
  | .isSatisfied => do
      let log ← Live.log
      .bool <$> Live.ofExcept log.isSatisfied
  | .check => do
      let log ← Live.log
      Live.ofExcept log.check
      Live.tell (.notice (.allSatisfied log.length))
      return .nothing
  | .numConstraints => do
      let log ← Live.log
      return .int log.length

/-- An operation with its arguments. -/
inductive Call where
  | gate (op : Gate Operand)
  | field (op : FieldOp Operand Element)
  | chip (op : ChipOp Operand Element ExtensionValue)
  | load (l : Literal)
  | loadExtension (ls : List Literal)
  | give (v : Value)
  | report (r : Report)

/-- Four literals as an extension value. Their number is looked at first. -/
def extensionOfLiterals (ls : List Literal) : Except Fault ExtensionValue :=
  match Quartic.ofList? ls with
  | none => .error (.coefficientCount ls.length)
  | some l => do return Chip.extensionConstant (← l.mapM (·.value))

/-- What a call records, says and returns after the given log: the run of its
circuit, or a report on the log. -/
def Call.run (S : Setting) (log : Log) : Call → Run Value
  | .gate op => (op.circuit S.native).run
  | .field op =>
      match S.field? with
      | some E => (op.circuit E).run
      | none => ⟨[], [], .error .wrongSort⟩
  | .chip op =>
      match S.chip? with
      | some C => (op.circuit C).run
      | none => ⟨[], [], .error .wrongSort⟩
  | .load l => ⟨[], [], l.value.map fun n => .element (Chip.constant n)⟩
  | .loadExtension ls => ⟨[], [], (extensionOfLiterals ls).map .extension⟩
  | .give v => ⟨[], [], .ok v⟩
  | .report r => r.run log

/-- Carries out a call. -/
def Call.live (S : Setting) : Call → Live Value
  | .gate op => op.live S.native
  | .field op =>
      match S.field? with
      | some E => op.live E
      | none => throw .wrongSort
  | .chip op =>
      match S.chip? with
      | some C => op.live C
      | none => throw .wrongSort
  | .load l => (fun n => .element (Chip.constant n)) <$> Live.ofExcept l.value
  | .loadExtension ls => .extension <$> Live.ofExcept (extensionOfLiterals ls)
  | .give v => return v
  | .report r => r.live

/-- A step: arguments, how their values make up a call, and the register that
takes the result. -/
structure Step where
  args : List Arg
  call : List Value → Except Fault Call
  target : Option String

structure Session where
  setting : Setting
  log : Log
  registers : Registers

namespace Session

def start (S : Setting) : Session := ⟨S, [], []⟩

/-- What a step asks for, its arguments looked up. -/
def request (s : Session) (st : Step) : Except Fault Call :=
  (s.registers.resolveAll st.args).bind st.call

/-- Carries out a step on the log of the session. -/
def perform (s : Session) (st : Step) : Execution Value :=
  match s.request st with
  | .ok call => (call.live s.setting).execute s.log
  | .error fault => ⟨.error fault, s.log, []⟩

/-- The session after a step with the given execution. -/
def advance (s : Session) (target : Option String) (e : Execution Value) : Session :=
  let registers :=
    match target, e.result with
    | some name, .ok v => (name, v) :: s.registers
    | _, _ => s.registers
  { s with log := e.log, registers }

/-- Makes a step, and tells how it went. -/
def step (s : Session) (st : Step) : Session × Execution Value :=
  let e := s.perform st
  (s.advance st.target e, e)

end Session

end NonNative
