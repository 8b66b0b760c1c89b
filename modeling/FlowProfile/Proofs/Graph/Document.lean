import FlowProfile.Command.Execute
import FlowProfile.Proofs.Graph.Words
import FlowProfile.Proofs.Json.Pretty

/-!
# Programs in documents

A program is written as a document and read off the text of that document, if its slots, its
targets and the lengths of its counter arrays are numbers of 32 bits. Every program that was read
off a document is like that.
-/

namespace FlowProfile

open Json

/-! ### Documents of programs -/

theorem Operand.exact_toJson (o : Operand) : o.toJson.Exact := by
  cases o <;> simp [toJson]

theorem Callee.exact_toJson (c : Callee) : c.toJson.Exact := by
  cases c <;> simp [toJson, Operand.exact_toJson]

theorem Inst.exact_toJson (i : Inst) : i.toJson.Exact := by
  cases i with
  | op opcode dest os =>
      have hdest : (dest.elim Json.null Json.text).Exact := by cases dest <;> simp
      exact .tagged (.record (by simp [hdest, Operand.exact_toJson]))
  | call callee args =>
      exact .tagged (.record (by simp [callee.exact_toJson, Operand.exact_toJson]))
  | timerStart => exact .text _
  | _ => exact .tagged (.record (by simp [Operand.exact_toJson]))

theorem Terminator.exact_toJson (t : Terminator) : t.toJson.Exact := by
  cases t with
  | br target => exact .tagged (.nat target)
  | condBr cond _ _ => exact .tagged (.record (by simp [cond.exact_toJson]))
  | switch value _ cases =>
      have hcase : ∀ c ∈ cases, (Json.array [.int c.1.toInt, .nat c.2]).Exact :=
        fun c _ => .array (by simp)
      have hcases := Exact.array_map hcase
      exact .tagged (.record (by simp [value.exact_toJson, hcases]))
  | ret => exact .text _
  | unreachable => exact .text _

theorem Block.exact_toJson (b : Block) : b.toJson.Exact :=
  .record (by simp [Inst.exact_toJson, Terminator.exact_toJson])

theorem Function.exact_toJson (f : Function) : f.toJson.Exact :=
  .record (by simp [Block.exact_toJson])

theorem Global.exact_toJson (g : Global) : g.toJson.Exact := .record (by simp)

theorem Program.exact_toJson (p : Program) : p.toJson.Exact :=
  .record (by simp [Function.exact_toJson, Global.exact_toJson])

/-! ### Reading them -/

theorem Operand.ofJson?_toJson (o : Operand) : ofJson? o.toJson = some o := by
  cases o <;> simp [toJson, ofJson?]

theorem Callee.ofJson?_toJson (c : Callee) : ofJson? c.toJson = some c := by
  cases c <;> simp [toJson, ofJson?, Operand.ofJson?_toJson]

theorem operands?_toJson (os : List Operand) :
    operands? (.array (os.map Operand.toJson)) = some os :=
  asList_map fun o _ => o.ofJson?_toJson

theorem opOfJson?_toJson (opcode : String) (dest : Option String) (os : List Operand) :
    opOfJson? (record [("opcode", .text opcode), ("dest", dest.elim .null .text),
      ("operands", .array (os.map Operand.toJson))]) = some (.op opcode dest os) := by
  simp [opOfJson?, operands?_toJson]

theorem callOfJson?_toJson (callee : Callee) (args : List Operand) :
    callOfJson? (record [("callee", callee.toJson), ("args", .array (args.map Operand.toJson))]) =
      some (.call callee args) := by
  simp [callOfJson?, callee.ofJson?_toJson, operands?_toJson]

section

-- For any document that is read as the slot. If it is the number itself, checking the proof counts
-- up to the bound of a word.
variable {slot : ℕ} {j : Json} (h : j.asWord = some slot) (counters : String)

include h

theorem slotOfJson?_record (make : String → ℕ → Inst) :
    slotOfJson? make (record [("counters", .text counters), ("slot", j)]) =
      some (make counters slot) := by
  simp [slotOfJson?, h]

theorem valueOfJson?_record (make : String → ℕ → Operand → Inst) (value : Operand) :
    valueOfJson? make (record [("counters", .text counters), ("slot", j),
      ("value", value.toJson)]) = some (make counters slot value) := by
  simp [valueOfJson?, h, value.ofJson?_toJson]

theorem accumulateOfJson?_record (count datatype : Operand) :
    accumulateOfJson? (record [("counters", .text counters), ("slot", j),
      ("count", count.toJson), ("datatype", datatype.toJson)]) =
      some (.accumulate counters slot count datatype) := by
  simp [accumulateOfJson?, h, count.ofJson?_toJson, datatype.ofJson?_toJson]

end

theorem Inst.ofJson?_toJson {i : Inst} (h : ∀ slot ∈ i.slots, slot < 2 ^ 32) :
    ofJson? i.toJson = some i := by
  cases i with
  | op opcode dest os => exact opOfJson?_toJson opcode dest os
  | call callee args => exact callOfJson?_toJson callee args
  | increment counters slot =>
      exact slotOfJson?_record (asWord_nat (h slot List.mem_cons_self)) counters .increment
  | store counters slot value =>
      exact valueOfJson?_record (asWord_nat (h slot List.mem_cons_self)) counters .store value
  | accumulate counters slot count datatype =>
      have hslot := asWord_nat (h slot List.mem_cons_self)
      exact accumulateOfJson?_record hslot counters count datatype
  | addWeight counters slot value =>
      exact valueOfJson?_record (asWord_nat (h slot List.mem_cons_self)) counters .addWeight value
  | timerStart => rfl
  | timerStop counters slot =>
      exact slotOfJson?_record (asWord_nat (h slot List.mem_cons_self)) counters .timerStop

theorem condBrOfJson?_record {thenBlock elseBlock : BlockId} {j k : Json}
    (hj : j.asWord = some thenBlock) (hk : k.asWord = some elseBlock) (cond : Operand) :
    condBrOfJson? (record [("cond", cond.toJson), ("then_block", j), ("else_block", k)]) =
      some (.condBr cond thenBlock elseBlock) := by
  simp [condBrOfJson?, cond.ofJson?_toJson, hj, hk]

theorem switchOfJson?_record {default : BlockId} {cases : List (Int64 × BlockId)} {j k : Json}
    (hj : j.asWord = some default) (hk : asList (asPair asInt64 asWord) k = some cases)
    (value : Operand) :
    switchOfJson? (record [("value", value.toJson), ("default", j), ("cases", k)]) =
      some (.switch value default cases) := by
  simp [switchOfJson?, value.ofJson?_toJson, hj, hk]

theorem Terminator.ofJson?_toJson {t : Terminator} (h : ∀ b ∈ t.successors, b < 2 ^ 32) :
    ofJson? t.toJson = some t := by
  cases t with
  | br target =>
      have htarget : ((nat target).asWord.map Terminator.br) = some (.br target) := by
        rw [asWord_nat (h target List.mem_cons_self)]
        rfl
      exact htarget
  | condBr cond thenBlock elseBlock =>
      exact condBrOfJson?_record (asWord_nat (h _ (by simp [successors])))
        (asWord_nat (h _ (by simp [successors]))) cond
  | switch value default cases =>
      have hcase : ∀ c ∈ cases,
          asPair asInt64 asWord (.array [.int c.1.toInt, .nat c.2]) = some c := by
        intro c hc
        have hword := asWord_nat (h c.2 (List.mem_cons_of_mem _ (List.mem_map_of_mem hc)))
        rw [asPair, asInt64_int, hword]
        rfl
      have hdefault := asWord_nat (h default List.mem_cons_self)
      exact switchOfJson?_record hdefault (asList_map hcase) value
  | ret => rfl
  | unreachable => rfl

theorem Block.ofJson?_toJson {b : Block} (h : b.HasWords) : ofJson? b.toJson = some b := by
  have hinsts : asList Inst.ofJson? (.array (b.insts.map Inst.toJson)) = some b.insts :=
    asList_map fun i hi => Inst.ofJson?_toJson (h.1 i hi)
  simp [ofJson?, toJson, hinsts, Terminator.ofJson?_toJson h.2]

theorem Function.ofJson?_toJson {f : Function} (h : ∀ b ∈ f.blocks, b.HasWords) :
    ofJson? f.toJson = some f := by
  have hblocks : asList Block.ofJson? (.array (f.blocks.map Block.toJson)) = some f.blocks :=
    asList_map fun b hb => Block.ofJson?_toJson (h b hb)
  simp [ofJson?, toJson, hblocks]

theorem CounterType.ofJson?_text (t : CounterType) : ofJson? (.text t.name) = some t := by
  cases t <;> rfl

theorem Global.ofJson?_toJson {g : Global} (h : g.len < 2 ^ 32) : ofJson? g.toJson = some g := by
  have hrecord : ∀ j : Json, j.asWord = some g.len → ofJson? (record [("name", .text g.name),
      ("ty", .text g.type.name), ("len", j), ("init", .int g.init.toInt)]) = some g := by
    intro j hj
    simp [ofJson?, CounterType.ofJson?_text, hj]
  exact hrecord _ (asWord_nat h)

theorem Program.ofJson?_toJson {p : Program} (h : p.HasWords) : ofJson? p.toJson = some p := by
  have hfunctions : asList Function.ofJson? (.array (p.functions.map Function.toJson)) =
      some p.functions := asList_map fun f hf => Function.ofJson?_toJson (h.1 f hf)
  have hglobals : asList Global.ofJson? (.array (p.globals.map Global.toJson)) =
      some p.globals := asList_map fun g hg => Global.ofJson?_toJson (h.2 g hg)
  simp [ofJson?, toJson, hfunctions, hglobals]

/-! ### Files of programs -/

theorem Files.hasWords_of_parseProgram {bytes : Bytes} {p : Program}
    (h : parseProgram bytes = .ok p) : p.HasWords := by
  rw [parseProgram, Outcome.ofOption_eq_ok_iff, Option.bind_eq_some_iff] at h
  obtain ⟨j, -, hj⟩ := h
  exact Program.hasWords_of_ofJson? hj

/-- The programs that are read off their text are those whose numbers have 32 bits. -/
theorem Files.parseProgram_pretty_iff {p : Program} :
    parseProgram (Command.textBytes p.toJson.pretty) = .ok p ↔ p.HasWords := by
  refine ⟨hasWords_of_parseProgram, fun h => ?_⟩
  rw [parseProgram, Command.textBytes, readBytes_pretty p.exact_toJson, Option.bind_some,
    Program.ofJson?_toJson h]
  rfl

/-- A program that was read off any text is also read off its own. -/
theorem Files.parseProgram_again {bytes : Bytes} {p : Program} (h : parseProgram bytes = .ok p) :
    parseProgram (Command.textBytes p.toJson.pretty) = .ok p :=
  parseProgram_pretty_iff.mpr (hasWords_of_parseProgram h)

/-- A file that was written holds what was written. -/
theorem Files.read_of_write {fs fs' : Files} {path : String} {bytes : Bytes}
    (h : fs.write path bytes = .ok fs') : fs'.read path = .ok bytes := by
  unfold write at h
  split at h
  · obtain rfl := Except.ok.inj h
    simp [read]
  · cases h

/-- The text that is written for a program is read as that program. The file that holds the text
is the program if it is valid, and is refused for its first bad edge if it is not. -/
theorem Program.document_roundTrip {p : Program} (h : p.HasWords) :
    Files.parseProgram (Command.textBytes p.toJson.pretty) = .ok p ∧
      ∀ fs fs' path, Command.writeFile fs path (Command.textBytes p.toJson.pretty) = .ok fs' →
        fs'.program path = (do p.validate; return p) := by
  have hparse := Files.parseProgram_pretty_iff.mpr h
  refine ⟨hparse, fun fs fs' path hwrite => ?_⟩
  have hread := Files.read_of_write (Outcome.within_eq_ok_iff.mp hwrite)
  rw [Files.program, hread, Outcome.within_ok, Outcome.ok_bind, hparse, Outcome.within_ok,
    Outcome.ok_bind]

/-- Every kind of part, and names that take escapes. -/
def Program.specimen : Program where
  functions :=
    [⟨"main", [
        ⟨"entry \"\\\x01\n", [.op "add" (some "sömme") [.const (-1), .var "", .global "g"],
          .op "nop" none [], .call (.direct "f") [.const 3], .call (.indirect (.var "p")) [],
          .increment "g" 0, .store "r" 0 (.var "rank"), .accumulate "g" 1 (.var "n") (.const 4),
          .addWeight "w" 4294967295 (.const 2), .timerStart, .timerStop "w" 0],
          .condBr (.var "c") 1 2⟩,
        ⟨"", [], .switch (.var "v") 2 [(-9223372036854775808, 3), (9223372036854775807, 4)]⟩,
        ⟨"", [], .br 3⟩, ⟨"", [], .ret⟩, ⟨"", [], .unreachable⟩]⟩,
      ⟨"f", []⟩]
  globals := [⟨"g", .u64, 3, 0⟩, ⟨"r", .i32, 1, -1⟩, ⟨"w", .f64, 4294967295, 0⟩]

theorem Program.document_roundTrip_specimen :
    Files.parseProgram (Command.textBytes specimen.toJson.pretty) = .ok specimen ∧
      ∃ fs', Command.writeFile (Files.directory .empty) "p.json"
          (Command.textBytes specimen.toJson.pretty) = .ok fs' ∧
        fs'.program "p.json" = .ok specimen := by
  obtain ⟨hparse, hfile⟩ := document_roundTrip (p := specimen) (by decide)
  have hwrite : ∃ fs', Command.writeFile (Files.directory .empty) "p.json"
      (Command.textBytes specimen.toJson.pretty) = .ok fs' :=
    ⟨_, Outcome.within_eq_ok_iff.mpr (if_pos (by decide))⟩
  obtain ⟨fs', hfs'⟩ := hwrite
  have hvalid : specimen.validate = .ok () := specimen.validate_eq_ok_iff.mpr (by decide)
  refine ⟨hparse, fs', hfs', ?_⟩
  rw [hfile _ _ _ hfs', hvalid]
  rfl

end FlowProfile
