import FlowProfile.Proofs.Exec.Declared
import FlowProfile.Proofs.Exec.Places

/-!
# Payloads along a run

Two slots that one instruction alone changes hold how often a run came to that instruction, and
what the payloads add up to that it found there, but no more than a count can tell.
-/

namespace FlowProfile

/-- The bytes of a payload, by the values of its operands. A negative count stands for none. -/
def Variables.payload (vars : Variables) (count datatype : Operand) : Outcome ℕ := do
  let count ← vars.get count
  let datatype ← vars.get datatype
  return count.toInt.toNat * (Comm.datatypeSize datatype).toNat

/-- Does the instruction change a slot, or the next one? -/
def Inst.touches (counters : String) (slot : ℕ) : Inst → Bool
  | .increment name k => name = counters ∧ (k = slot ∨ k = slot + 1)
  | .accumulate name k _ _ => name = counters ∧ (k + 1 = slot ∨ k = slot ∨ k = slot + 1)
  | _ => false

namespace Machine

variable {σ : Type} {p : Program} {host : Host σ} {m m' : Machine σ} {inst : Inst}
  {counters : String} {slot : ℕ} {count datatype : Operand}

theorem toNat_payloadBytes (count datatype : Int64) :
    (payloadBytes count datatype).toNat =
      min (count.toInt.toNat * (Comm.datatypeSize datatype).toNat) (2 ^ 64 - 1) := by
  have hcount : (if 0 ≤ count then count.toUInt64 else 0).toNat = count.toInt.toNat := by
    split
    · rename_i hle
      exact Int64.toNat_toUInt64_of_le hle
    · rename_i hlt
      have hneg : count.toInt < 0 := by simpa [Int64.le_iff_toInt_le] using hlt
      simp [Int.toNat_of_nonpos hneg.le]
  rw [payloadBytes, Count.saturatingMul, Count.toNat_saturate, hcount]

theorem Executes.count_eq (h : Executes p m inst m') (hinst : inst.touches counters slot = false) :
    m'.counters.count counters slot = m.counters.count counters slot ∧
      m'.counters.count counters (slot + 1) = m.counters.count counters (slot + 1) := by
  cases h with
  | @increment name k n hn hlt =>
      simp only [Inst.touches, decide_eq_false_iff_not, not_and, not_or] at hinst
      rw [Counters.count_setU64 hn, Counters.count_setU64 hn, if_neg fun h => (hinst h.1).1 h.2,
        if_neg fun h => (hinst h.1).2 h.2]
      exact ⟨rfl, rfl⟩
  | @accumulate name k count datatype n old hn hlt hold bytes =>
      simp only [Inst.touches, decide_eq_false_iff_not, not_and, not_or] at hinst
      rw [Counters.count_setU64 hold, Counters.count_setU64 hold, Counters.count_setU64 hn,
        Counters.count_setU64 hn, if_neg fun h => (hinst h.1).1 h.2,
        if_neg fun h => (hinst h.1).2.1 h.2, if_neg fun h => (hinst h.1).2.1 (by omega),
        if_neg fun h => (hinst h.1).2.2 h.2]
      exact ⟨rfl, rfl⟩
  | store value => simp
  | addWeight sum => simp
  | timerStop state timer sum => simp
  | _ => exact ⟨rfl, rfl⟩

/-- A call is counted, and the bytes of its payload are added as far as a count can tell them. -/
theorem count_of_accumulate {depth : ℕ}
    (hnext : (m.execute p host depth (.accumulate counters slot count datatype)).next? = some m') :
    m'.counters.count counters slot = m.counters.count counters slot + 1 ∧
      ∃ bytes, m.vars.payload count datatype = .ok bytes ∧
        m'.counters.count counters (slot + 1) =
          min (m.counters.count counters (slot + 1) + bytes) (2 ^ 64 - 1) := by
  obtain ⟨n, hn, hnext⟩ := Effect.next?_of.mp hnext
  obtain ⟨d, hd, hnext⟩ := Effect.next?_of.mp hnext
  obtain ⟨calls, hcalls, hnext⟩ := Effect.next?_of.mp hnext
  obtain ⟨sum, hsum, hnext⟩ := Effect.next?_of.mp hnext
  obtain ⟨hlt, rfl⟩ := Count.add_eq_ok_iff.mp hsum
  obtain ⟨bytes, hbytes, hnext⟩ := Effect.next?_of.mp hnext
  obtain rfl := Option.some.inj hnext
  have hold : m.counters.count counters (slot + 1) = bytes.toNat := by
    rw [← Counters.count_of_u64Slot hbytes, Counters.count_setU64 hcalls, if_neg (by simp)]
  have hpayload : m.vars.payload count datatype =
      .ok (n.toInt.toNat * (Comm.datatypeSize d).toNat) := by
    rw [Variables.payload, hn, hd]
    rfl
  refine ⟨?_, _, hpayload, ?_⟩
  · rw [Counters.count_setU64 hbytes, if_neg (by simp), Counters.count_setU64 hcalls,
      if_pos ⟨rfl, rfl⟩, Counters.count_of_u64Slot hcalls, Count.toNat_add_one hlt]
  · rw [Counters.count_setU64 hbytes, if_pos ⟨rfl, rfl⟩, Count.toNat_saturatingAdd,
      toNat_payloadBytes, hold]
    omega

end Machine

/-- Only one instruction of the program changes the slot or the next one, and it stands here. -/
structure Program.CountsAt (p : Program) (counters : String) (slot : ℕ) (count datatype : Operand)
    (frame : Frame) : Prop where
  accumulates : frame.rest.head? = some (.accumulate counters slot count datatype)
  only : ∀ function b inst rest, Frame.IsIn p ⟨function, b, inst :: rest⟩ →
    inst.touches counters slot = true → frame = ⟨function, b, inst :: rest⟩

theorem Program.CountsAt.rest_ne_nil {p : Program} {counters : String} {slot : ℕ}
    {count datatype : Operand} {frame : Frame}
    (h : p.CountsAt counters slot count datatype frame) : frame.rest ≠ [] := by
  intro hrest
  have hhead := h.accumulates
  rw [hrest] at hhead
  cases hhead

theorem Program.CountsAt.eq_of_touches {p : Program} {counters : String} {slot : ℕ}
    {count datatype : Operand} {frame f : Frame} {inst : Inst}
    (h : p.CountsAt counters slot count datatype frame) (hf : f.IsIn p)
    (hinst : f.rest.head? = some inst) (htouches : inst.touches counters slot = true) :
    frame = f := by
  obtain ⟨function, b, rest⟩ := f
  obtain ⟨rest, rfl⟩ : ∃ tail, rest = inst :: tail := List.head?_eq_some_iff.mp hinst
  exact h.only function b inst rest hf htouches

/-- The slots hold how often a run came to a place, and the payloads that it found there. -/
def Machine.HoldsPayloads {σ : Type} (counters : String) (slot : ℕ) (count datatype : Operand)
    (vars : List Variables) (m : Machine σ) : Prop :=
  m.counters.count counters slot = vars.length ∧
    ∃ payloads, vars.mapM (·.payload count datatype) = .ok payloads ∧
      m.counters.count counters (slot + 1) = min payloads.sum (2 ^ 64 - 1)

namespace Config

variable {σ : Type} {p : Program} {host : Host σ} {counters : String} {slot : ℕ}
  {count datatype : Operand} {frame : Frame}

theorem Moves.payloads (hat : p.CountsAt counters slot count datatype frame)
    {past : List (Config σ)} {c d : Config σ} {v : Option Visit}
    (hframes : ∀ f ∈ c.frames, f.IsIn p) (h : Moves p host c v d)
    (hc : c.machine.HoldsPayloads counters slot count datatype (seen frame past)) :
    d.machine.HoldsPayloads counters slot count datatype (seen frame (past ++ [c])) := by
  obtain ⟨holdCalls, payloads, hpayloads, holdBytes⟩ := hc
  rw [seen_append, seen_singleton]
  by_cases hframe : c.frame = frame
  · subst hframe
    have hproceeds := h.proceeds hat.accumulates rfl
    obtain ⟨hcalls, bytes, hpayload, hbytes⟩ :=
      Machine.count_of_accumulate (congrArg Effect.next? hproceeds)
    rw [if_pos rfl]
    refine ⟨?_, payloads ++ [bytes], Outcome.mapM_append_singleton hpayloads hpayload, ?_⟩
    · simp only [hcalls, holdCalls, List.length_append, List.length_singleton]
    · simp only [hbytes, holdBytes, List.sum_append, List.sum_singleton]
      omega
  · rw [if_neg hframe, List.append_nil]
    rcases h.executes with ⟨inst, hinst, hexec⟩ | ⟨-, hsame⟩
    · have htouches : inst.touches counters slot = false := by
        rw [Bool.eq_false_iff]
        intro htouches
        have hcurrent := hframes c.frame List.mem_cons_self
        exact hframe (hat.eq_of_touches hcurrent hinst htouches).symm
      obtain ⟨hcalls, hbytes⟩ := hexec.count_eq htouches
      exact ⟨hcalls.trans holdCalls, payloads, hpayloads, hbytes.trans holdBytes⟩
    · exact hsame ▸ ⟨holdCalls, payloads, hpayloads, holdBytes⟩

theorem Passes.payloads (hat : p.CountsAt counters slot count datatype frame) {m : Machine σ}
    {main : ℕ} {entry : Block} (hb : p.block? main 0 = some entry)
    (hm : m.HoldsPayloads counters slot count datatype []) {vs : List Visit} {n : ℕ}
    {d : Config σ} (h : Passes p host ⟨m, ⟨main, 0, entry.insts⟩, []⟩ vs n d) :
    d.machine.HoldsPayloads counters slot count datatype
      (seen frame (trace p host n ⟨m, ⟨main, 0, entry.insts⟩, []⟩)) := by
  induction h with
  | start => exact hm
  | @move vs n d e v h hm' ih =>
      rw [h.trace_succ hm']
      exact hm'.payloads hat (h.coherent hb).frames ih

end Config

namespace Program

variable {σ : Type} {p : Program} {host : Host σ} {state : σ} {limit : ℕ} {args : List String}
  {m : Machine σ} {records : List Record} {counters : String} {slot : ℕ}
  {count datatype : Operand} {frame : Frame}

/-- What a run that returns has counted and added up. -/
theorem payloads_run (hat : p.CountsAt counters slot count datatype frame)
    (hinit : ∀ k, (Counters.initial p).count counters k = 0)
    (h : p.run host state limit args = (m, .ok records)) :
    m.HoldsPayloads counters slot count datatype (seen frame (p.trace host state limit)) := by
  obtain ⟨main, entry, vs, n, d, hb, hp, htrace, rfl, hrest, -⟩ := exists_trace_eq h
  have hlast : d.frame ≠ frame := by
    rintro rfl
    exact hat.rest_ne_nil hrest
  have hstart : (Machine.initial p state).HoldsPayloads counters slot count datatype [] :=
    ⟨hinit slot, [], rfl, (hinit (slot + 1)).trans (Nat.zero_min _).symm⟩
  rw [htrace, seen_append, seen_singleton, if_neg hlast, List.append_nil]
  exact hp.payloads hat hb hstart

end Program

end FlowProfile
