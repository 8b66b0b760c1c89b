import FlowProfile.Proofs.Exec.Declared
import FlowProfile.Proofs.Instrument.RankTraps

/-!
# What was stored last

A slot that one instruction alone stores into holds what a run found when it came to that
instruction the last time, or else what it held at first.
-/

namespace FlowProfile

/-- The rank in a slot, if the array is one of ranks. -/
def CounterArray.rank? (slot : ℕ) : CounterArray → Option Int32
  | .i32 slots => slots[slot]?
  | _ => none

namespace Counters

variable {cs : Counters} {name other : String} {k slot : ℕ} {n : Int32}

theorem i32Slot_eq (cs : Counters) (name : String) (slot : ℕ) :
    cs.i32Slot name slot =
      .ofOption (.noI32Slot slot name) ((cs.get? name).bind (CounterArray.rank? slot)) := by
  unfold i32Slot
  cases cs.get? name with
  | none => rfl
  | some array => cases array <;> rfl

theorem i32Slot_modify {change : CounterArray → CounterArray}
    (h : name = other → ∀ array, (change array).rank? slot = array.rank? slot) :
    Counters.i32Slot (cs.modify name change) other slot = cs.i32Slot other slot := by
  rw [i32Slot_eq, i32Slot_eq, bind_modify cs h]

@[simp] theorem i32Slot_setU64 (cs : Counters) (name other : String) (k slot : ℕ) (n : UInt64) :
    (cs.setU64 name k n).i32Slot other slot = cs.i32Slot other slot := by
  refine i32Slot_modify fun _ array => ?_
  cases array <;> rfl

@[simp] theorem i32Slot_setF64 (cs : Counters) (name other : String) (k slot : ℕ) (x : Binary64) :
    (cs.setF64 name k x).i32Slot other slot = cs.i32Slot other slot := by
  refine i32Slot_modify fun _ array => ?_
  cases array <;> rfl

theorem i32Slot_setI32_ne (h : name ≠ other) :
    (cs.setI32 name k n).i32Slot other slot = cs.i32Slot other slot :=
  i32Slot_modify fun hname => absurd hname h

theorem i32Slot_setI32_self {old : Int32} (h : cs.i32Slot name slot = .ok old) :
    (cs.setI32 name slot n).i32Slot name slot = .ok n := by
  obtain ⟨slots, hget, hslot⟩ := i32Slot_eq_ok_iff.mp h
  obtain ⟨hlt, -⟩ := Array.getElem?_eq_some_iff.mp hslot
  refine i32Slot_eq_ok_iff.mpr ⟨slots.setIfInBounds slot n, ?_, ?_⟩
  · simp [setI32, Table.get?_modify, hget]
  · simp [hlt]

end Counters

namespace Machine

variable {σ : Type} {p : Program} {host : Host σ} {m m' : Machine σ} {inst : Inst}
  {counters : String} {slot depth : ℕ} {value : Operand}

theorem Executes.i32Slot_eq (h : Executes p m inst m') (hinst : inst.storesTo counters = false)
    (slot : ℕ) : m'.counters.i32Slot counters slot = m.counters.i32Slot counters slot := by
  cases h with
  | store value => exact Counters.i32Slot_setI32_ne (by simpa [Inst.storesTo] using hinst)
  | increment => exact Counters.i32Slot_setU64 ..
  | addWeight => exact Counters.i32Slot_setF64 ..
  | timerStop => exact Counters.i32Slot_setF64 ..
  | accumulate => simp
  | _ => rfl

theorem i32Slot_of_store
    (h : m.execute p host depth (.store counters slot value) = .proceed m') :
    ∃ stored, m.vars.get value = .ok stored ∧
      m'.counters.i32Slot counters slot = .ok stored.toInt32 := by
  have hnext : (m.execute p host depth (.store counters slot value)).next? = some m' := by
    rw [h]
    rfl
  obtain ⟨stored, hstored, hnext⟩ := Effect.next?_of.mp hnext
  obtain ⟨old, hold, hnext⟩ := Effect.next?_of.mp hnext
  obtain rfl := Option.some.inj hnext
  exact ⟨stored, hstored, Counters.i32Slot_setI32_self hold⟩

/-- The first slot holds the last of the values that a run found, or else what it held at first. -/
def HoldsLast (counters : String) (value : Operand) (first : Int32) (vars : List Variables)
    (m : Machine σ) : Prop :=
  ∃ stored, vars.mapM (·.get value) = .ok stored ∧
    m.counters.i32Slot counters 0 = .ok (stored.getLast?.elim first Int64.toInt32)

end Machine

/-! ### Along a run -/

namespace Config

variable {σ : Type} {p : Program} {host : Host σ} {counters : String} {value : Operand}
  {first : Int32} {function : ℕ} {b : BlockId} {after : List Inst}

theorem Moves.holdsLast (honce : p.Once (Inst.storesTo counters) function b)
    (hin : Frame.IsIn p ⟨function, b, .store counters 0 value :: after⟩)
    {past : List (Config σ)} {c d : Config σ} {v : Option Visit}
    (hframes : ∀ f ∈ c.frames, f.IsIn p) (h : Moves p host c v d)
    (hc : c.machine.HoldsLast counters value first
      (seen ⟨function, b, .store counters 0 value :: after⟩ past)) :
    d.machine.HoldsLast counters value first
      (seen ⟨function, b, .store counters 0 value :: after⟩ (past ++ [c])) := by
  obtain ⟨stored, hstored, hslot⟩ := hc
  rw [seen_append, seen_singleton]
  by_cases hframe : c.frame = ⟨function, b, .store counters 0 value :: after⟩
  · obtain ⟨last, hlast, hnew⟩ :=
      Machine.i32Slot_of_store (h.proceeds (by rw [hframe]; rfl) rfl)
    rw [if_pos hframe]
    exact ⟨stored ++ [last], Outcome.mapM_append_singleton hstored hlast, by simpa using hnew⟩
  · rw [if_neg hframe, List.append_nil]
    rcases h.executes with ⟨inst, hinst, hexec⟩ | ⟨-, hsame⟩
    · obtain ⟨rest, hrest⟩ := List.head?_eq_some_iff.mp hinst
      have hother : inst.storesTo counters = false := by
        rw [Bool.eq_false_iff]
        exact fun hstores => hframe
          (honce.frame_eq (hframes _ List.mem_cons_self) hin hrest rfl hstores
            (by simp [Inst.storesTo]))
      exact ⟨stored, hstored, (hexec.i32Slot_eq hother 0).trans hslot⟩
    · exact hsame ▸ ⟨stored, hstored, hslot⟩

theorem Passes.holdsLast (honce : p.Once (Inst.storesTo counters) function b)
    (hin : Frame.IsIn p ⟨function, b, .store counters 0 value :: after⟩) {m : Machine σ}
    (hm : m.counters.i32Slot counters 0 = .ok first) {main : ℕ} {entry : Block}
    (hb : p.block? main 0 = some entry) {vs : List Visit} {n : ℕ} {d : Config σ}
    (h : Passes p host ⟨m, ⟨main, 0, entry.insts⟩, []⟩ vs n d) :
    d.machine.HoldsLast counters value first
      (seen ⟨function, b, .store counters 0 value :: after⟩
        (trace p host n ⟨m, ⟨main, 0, entry.insts⟩, []⟩)) := by
  induction h with
  | start => exact ⟨[], rfl, hm⟩
  | @move vs n d e v h hm' ih =>
      rw [h.trace_succ hm']
      exact hm'.holdsLast honce hin (h.coherent hb).frames ih

end Config

namespace Program

variable {σ : Type} {p : Program} {host : Host σ} {state : σ} {limit : ℕ} {args : List String}
  {m : Machine σ} {records : List Record} {counters : String}

/-- What the slot holds after a run that returns. -/
theorem holdsLast_run {value : Operand} {first : Int32} {function : ℕ} {b : BlockId}
    {after : List Inst} (honce : p.Once (Inst.storesTo counters) function b)
    (hin : Frame.IsIn p ⟨function, b, .store counters 0 value :: after⟩)
    (hinit : (Counters.initial p).i32Slot counters 0 = .ok first)
    (h : p.run host state limit args = (m, .ok records)) :
    m.HoldsLast counters value first
      (seen ⟨function, b, .store counters 0 value :: after⟩ (p.trace host state limit)) := by
  obtain ⟨main, entry, vs, n, d, hb, hp, htrace, rfl, hrest, -⟩ := exists_trace_eq h
  have hlast : d.frame ≠ ⟨function, b, .store counters 0 value :: after⟩ := by
    intro heq
    rw [heq] at hrest
    cases hrest
  rw [htrace, seen_append, seen_singleton, if_neg hlast, List.append_nil]
  exact hp.holdsLast honce hin hinit hb

/-- A slot that nothing is stored into is as it was. -/
theorem Never.i32Slot_run (hnever : p.Never (Inst.storesTo counters))
    (h : p.run host state limit args = (m, .ok records)) (slot : ℕ) :
    m.counters.i32Slot counters slot = (Counters.initial p).i32Slot counters slot :=
  invariant_run (fun m => m.counters.i32Slot counters slot =
      (Counters.initial p).i32Slot counters slot)
    (fun _ hinst _ _ hexec hkept => (hexec.i32Slot_eq (hnever.eq_false hinst) slot).trans hkept)
    rfl h

end Program

end FlowProfile
