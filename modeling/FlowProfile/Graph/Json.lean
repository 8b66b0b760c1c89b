import FlowProfile.Graph.Basic
import FlowProfile.Json.Decode

/-! Programs as documents. Every field is written, and those with a default may be left out. -/

namespace FlowProfile

open Json

/-! ### Writing -/

def Operand.toJson : Operand → Json
  | .const value => tagged "const" (.int value.toInt)
  | .var name => tagged "var" (.text name)
  | .global name => tagged "global" (.text name)

def Callee.toJson : Callee → Json
  | .direct name => tagged "direct" (.text name)
  | .indirect target => tagged "indirect" target.toJson

def Inst.toJson : Inst → Json
  | .op opcode dest operands => tagged "op" (record
      [("opcode", .text opcode), ("dest", dest.elim .null .text),
        ("operands", .array (operands.map Operand.toJson))])
  | .call callee args => tagged "call" (record
      [("callee", callee.toJson), ("args", .array (args.map Operand.toJson))])
  | .increment counters slot => tagged "increment" (record
      [("counters", .text counters), ("slot", .nat slot)])
  | .store counters slot value => tagged "store" (record
      [("counters", .text counters), ("slot", .nat slot), ("value", value.toJson)])
  | .accumulate counters slot count datatype => tagged "accumulate" (record
      [("counters", .text counters), ("slot", .nat slot), ("count", count.toJson),
        ("datatype", datatype.toJson)])
  | .addWeight counters slot value => tagged "add_weight" (record
      [("counters", .text counters), ("slot", .nat slot), ("value", value.toJson)])
  | .timerStart => .text "timer_start"
  | .timerStop counters slot => tagged "timer_stop" (record
      [("counters", .text counters), ("slot", .nat slot)])

def Terminator.toJson : Terminator → Json
  | .br target => tagged "br" (.nat target)
  | .condBr cond thenBlock elseBlock => tagged "cond_br" (record
      [("cond", cond.toJson), ("then_block", .nat thenBlock), ("else_block", .nat elseBlock)])
  | .switch value default cases => tagged "switch" (record
      [("value", value.toJson), ("default", .nat default),
        ("cases", .array (cases.map fun c => .array [.int c.1.toInt, .nat c.2]))])
  | .ret => .text "ret"
  | .unreachable => .text "unreachable"

def Block.toJson (b : Block) : Json := record
  [("name", .text b.name), ("insts", .array (b.insts.map Inst.toJson)),
    ("terminator", b.terminator.toJson)]

def Function.toJson (f : Function) : Json := record
  [("name", .text f.name), ("blocks", .array (f.blocks.map Block.toJson))]

def CounterType.name : CounterType → String
  | .u64 => "u64"
  | .i32 => "i32"
  | .f64 => "f64"

def Global.toJson (g : Global) : Json := record
  [("name", .text g.name), ("ty", .text g.type.name), ("len", .nat g.len),
    ("init", .int g.init.toInt)]

def Program.toJson (p : Program) : Json := record
  [("functions", .array (p.functions.map Function.toJson)),
    ("globals", .array (p.globals.map Global.toJson))]

/-! ### Reading -/

def Operand.ofJson? (j : Json) : Option Operand :=
  match j.alternative with
  | some ("const", some v) => v.asInt64.map .const
  | some ("var", some v) => v.asText.map .var
  | some ("global", some v) => v.asText.map .global
  | _ => none

def Callee.ofJson? (j : Json) : Option Callee :=
  match j.alternative with
  | some ("direct", some v) => v.asText.map .direct
  | some ("indirect", some v) => (Operand.ofJson? v).map .indirect
  | _ => none

def operands? : Json → Option (List Operand) := asList Operand.ofJson?

def opOfJson? (j : Json) : Option Inst := do
  match ← j.fields ["opcode", "dest", "operands"] with
  | [opcode, dest, operands] =>
    return .op (← opcode.required asText) (← dest.withDefault none (asNullable asText))
      (← operands.withDefault [] operands?)
  | _ => none

def callOfJson? (j : Json) : Option Inst := do
  match ← j.fields ["callee", "args"] with
  | [callee, args] =>
    return .call (← callee.required Callee.ofJson?) (← args.withDefault [] operands?)
  | _ => none

/-- A counter array and a slot of it. -/
def slotOfJson? (make : String → Nat → Inst) (j : Json) : Option Inst := do
  match ← j.fields ["counters", "slot"] with
  | [counters, slot] => return make (← counters.required asText) (← slot.required asWord)
  | _ => none

/-- A counter array, a slot of it, and a value. -/
def valueOfJson? (make : String → Nat → Operand → Inst) (j : Json) : Option Inst := do
  match ← j.fields ["counters", "slot", "value"] with
  | [counters, slot, value] =>
    return make (← counters.required asText) (← slot.required asWord)
      (← value.required Operand.ofJson?)
  | _ => none

def accumulateOfJson? (j : Json) : Option Inst := do
  match ← j.fields ["counters", "slot", "count", "datatype"] with
  | [counters, slot, count, datatype] =>
    return .accumulate (← counters.required asText) (← slot.required asWord)
      (← count.required Operand.ofJson?) (← datatype.required Operand.ofJson?)
  | _ => none

def Inst.ofJson? (j : Json) : Option Inst :=
  match j.alternative with
  | some ("op", some v) => opOfJson? v
  | some ("call", some v) => callOfJson? v
  | some ("increment", some v) => slotOfJson? .increment v
  | some ("store", some v) => valueOfJson? .store v
  | some ("accumulate", some v) => accumulateOfJson? v
  | some ("add_weight", some v) => valueOfJson? .addWeight v
  | some ("timer_start", v) => if isUnit v then some .timerStart else none
  | some ("timer_stop", some v) => slotOfJson? .timerStop v
  | _ => none

def condBrOfJson? (j : Json) : Option Terminator := do
  match ← j.fields ["cond", "then_block", "else_block"] with
  | [cond, thenBlock, elseBlock] =>
    return .condBr (← cond.required Operand.ofJson?) (← thenBlock.required asWord)
      (← elseBlock.required asWord)
  | _ => none

def switchOfJson? (j : Json) : Option Terminator := do
  match ← j.fields ["value", "default", "cases"] with
  | [value, default, cases] =>
    return .switch (← value.required Operand.ofJson?) (← default.required asWord)
      (← cases.required (asList (asPair asInt64 asWord)))
  | _ => none

def Terminator.ofJson? (j : Json) : Option Terminator :=
  match j.alternative with
  | some ("br", some v) => v.asWord.map .br
  | some ("cond_br", some v) => condBrOfJson? v
  | some ("switch", some v) => switchOfJson? v
  | some ("ret", v) => if isUnit v then some .ret else none
  | some ("unreachable", v) => if isUnit v then some .unreachable else none
  | _ => none

def Block.ofJson? (j : Json) : Option Block := do
  match ← j.fields ["name", "insts", "terminator"] with
  | [name, insts, terminator] =>
    return ⟨← name.withDefault "" asText, ← insts.withDefault [] (asList Inst.ofJson?),
      ← terminator.required Terminator.ofJson?⟩
  | _ => none

def Function.ofJson? (j : Json) : Option Function := do
  match ← j.fields ["name", "blocks"] with
  | [name, blocks] =>
    return ⟨← name.required asText, ← blocks.withDefault [] (asList Block.ofJson?)⟩
  | _ => none

def CounterType.ofJson? (j : Json) : Option CounterType :=
  match j.alternative with
  | some (name, v) => if isUnit v then [u64, i32, f64].find? (·.name == name) else none
  | none => none

def Global.ofJson? (j : Json) : Option Global := do
  match ← j.fields ["name", "ty", "len", "init"] with
  | [name, type, len, init] =>
    return ⟨← name.required asText, ← type.required CounterType.ofJson?, ← len.required asWord,
      ← init.withDefault 0 asInt64⟩
  | _ => none

def Program.ofJson? (j : Json) : Option Program := do
  match ← j.fields ["functions", "globals"] with
  | [functions, globals] =>
    return ⟨← functions.required (asList Function.ofJson?),
      ← globals.withDefault [] (asList Global.ofJson?)⟩
  | _ => none

end FlowProfile
