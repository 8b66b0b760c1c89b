import FlowProfile.Exec.Machine
import FlowProfile.Proofs.Outcome

/-!
# What an instruction does to a machine

One relation says for each kind of instruction which parts of the machine it may change.
That arrays keep their type and their length, that a slot of counts grows by its
increments alone, and which registrations are kept, is read off it.
-/

namespace FlowProfile

/-! ### Counter arrays -/

def CounterArray.shape : CounterArray → CounterType × ℕ
  | .u64 slots => (.u64, slots.size)
  | .i32 slots => (.i32, slots.size)
  | .f64 slots => (.f64, slots.size)

/-- The count in a slot, zero where there is none. -/
def CounterArray.count (slot : ℕ) : CounterArray → ℕ
  | .u64 slots => ((slots[slot]?).map UInt64.toNat).getD 0
  | _ => 0

namespace Counters

/-- The type and the length of an array. -/
def shape (cs : Counters) (name : String) : Option (CounterType × ℕ) :=
  (cs.get? name).map CounterArray.shape

def count (cs : Counters) (name : String) (slot : ℕ) : ℕ :=
  ((cs.get? name).map (CounterArray.count slot)).getD 0

/-- What is read from an array, if a change of an array of the same name leaves it as it is. -/
theorem bind_modify {α : Type} (cs : Counters) {name other : String}
    {change : CounterArray → CounterArray} {read : CounterArray → Option α}
    (h : name = other → ∀ array, read (change array) = read array) :
    ((cs.modify name change).get? other).bind read = (cs.get? other).bind read := by
  rw [Table.get?_modify]
  split
  · rename_i hname
    cases cs.get? other with
    | none => rfl
    | some array => exact h hname array
  · rfl

theorem shape_modify (cs : Counters) (name other : String) (change : CounterArray → CounterArray)
    (h : ∀ array, (change array).shape = array.shape) :
    Counters.shape (cs.modify name change) other = cs.shape other := by
  unfold shape
  rw [Table.get?_modify]
  split
  · cases cs.get? other <;> simp [h]
  · rfl

@[simp] theorem shape_setU64 (cs : Counters) (name other : String) (slot : ℕ) (value : UInt64) :
    (cs.setU64 name slot value).shape other = cs.shape other := by
  apply shape_modify
  intro array
  cases array <;> simp [CounterArray.shape]

@[simp] theorem shape_setI32 (cs : Counters) (name other : String) (slot : ℕ) (value : Int32) :
    (cs.setI32 name slot value).shape other = cs.shape other := by
  apply shape_modify
  intro array
  cases array <;> simp [CounterArray.shape]

@[simp] theorem shape_setF64 (cs : Counters) (name other : String) (slot : ℕ) (value : Binary64) :
    (cs.setF64 name slot value).shape other = cs.shape other := by
  apply shape_modify
  intro array
  cases array <;> simp [CounterArray.shape]

theorem u64Slot_eq_ok_iff {cs : Counters} {name : String} {slot : ℕ} {n : UInt64} :
    cs.u64Slot name slot = .ok n ↔
      ∃ slots, cs.get? name = some (.u64 slots) ∧ slots[slot]? = some n := by
  unfold u64Slot
  split <;> simp_all

theorem i32Slot_eq_ok_iff {cs : Counters} {name : String} {slot : ℕ} {n : Int32} :
    cs.i32Slot name slot = .ok n ↔
      ∃ slots, cs.get? name = some (.i32 slots) ∧ slots[slot]? = some n := by
  unfold i32Slot
  split <;> simp_all

theorem f64Slot_eq_ok_iff {cs : Counters} {name : String} {slot : ℕ} {x : Binary64} :
    cs.f64Slot name slot = .ok x ↔
      ∃ slots, cs.get? name = some (.f64 slots) ∧ slots[slot]? = some x := by
  unfold f64Slot
  split <;> simp_all

theorem count_of_u64Slot {cs : Counters} {name : String} {slot : ℕ} {n : UInt64}
    (h : cs.u64Slot name slot = .ok n) : cs.count name slot = n.toNat := by
  obtain ⟨slots, hget, hslot⟩ := u64Slot_eq_ok_iff.mp h
  simp [count, CounterArray.count, hget, hslot]

/-- Setting one count sets no other. -/
theorem count_setU64 {cs : Counters} {name : String} {slot : ℕ} {n : UInt64}
    (h : cs.u64Slot name slot = .ok n) (value : UInt64) (other : String) (k : ℕ) :
    (cs.setU64 name slot value).count other k =
      if name = other ∧ slot = k then value.toNat else cs.count other k := by
  obtain ⟨slots, hget, hslot⟩ := u64Slot_eq_ok_iff.mp h
  obtain ⟨hlt, -⟩ := Array.getElem?_eq_some_iff.mp hslot
  unfold count setU64
  rw [Table.get?_modify]
  by_cases hname : name = other
  · subst hname
    by_cases hk : slot = k
    · subst hk
      simp [CounterArray.count, hget, hlt]
    · simp [CounterArray.count, hget, hk]
  · simp [hname]

theorem count_modify {cs : Counters} {name : String} {change : CounterArray → CounterArray}
    {k : ℕ} (h : ∀ array, (change array).count k = array.count k) (other : String) :
    Counters.count (cs.modify name change) other k = cs.count other k := by
  unfold count
  rw [Table.get?_modify]
  split
  · cases cs.get? other <;> simp [h]
  · rfl

@[simp] theorem count_setI32 (cs : Counters) (name : String) (slot : ℕ) (value : Int32)
    (other : String) (k : ℕ) : (cs.setI32 name slot value).count other k = cs.count other k := by
  apply count_modify
  intro array
  cases array <;> rfl

@[simp] theorem count_setF64 (cs : Counters) (name : String) (slot : ℕ) (value : Binary64)
    (other : String) (k : ℕ) : (cs.setF64 name slot value).count other k = cs.count other k := by
  apply count_modify
  intro array
  cases array <;> rfl

end Counters

/-! ### Instructions -/

theorem Program.block?_eq_some_iff {p : Program} {function : ℕ} {b : BlockId} {block : Block} :
    p.block? function b = some block ↔
      ∃ f, p.functions[function]? = some f ∧ f.blocks[b]? = some block := by
  simp [Program.block?, Option.bind_eq_some_iff]

/-- The machine after an instruction that does not fail. -/
def Effect.next? {σ : Type} : Effect σ → Option (Machine σ)
  | .proceed m | .enter _ m => some m
  | .fail _ _ => none

/-- The instruction stands in a block of the program. -/
def Program.HasInst (p : Program) (inst : Inst) : Prop :=
  ∃ function b block, p.block? function b = some block ∧ inst ∈ block.insts

theorem Effect.next?_of {σ α : Type} {m m' : Machine σ} {result : Outcome α}
    {next : α → Effect σ} :
    (Effect.of m result next).next? = some m' ↔
      ∃ a, result = .ok a ∧ (next a).next? = some m' := by
  cases result <;> simp [Effect.of, Effect.next?]

theorem Effect.of_eq_enter_iff {σ α : Type} {m m' : Machine σ} {result : Outcome α}
    {next : α → Effect σ} {function : ℕ} :
    Effect.of m result next = .enter function m' ↔
      ∃ a, result = .ok a ∧ next a = .enter function m' := by
  cases result <;> simp [Effect.of]

@[simp] theorem Count.toNat_saturate (n : ℕ) : (saturate n).toNat = min n (2 ^ 64 - 1) := by
  have hsize : UInt64.size = 2 ^ 64 := rfl
  unfold saturate
  split
  · rw [UInt64.toNat_ofNat_of_lt' (by assumption)]
    omega
  · rw [show maxCount.toNat = 2 ^ 64 - 1 from rfl]
    omega

theorem Count.toNat_saturatingAdd (a b : UInt64) :
    (saturatingAdd a b).toNat = min (a.toNat + b.toNat) (2 ^ 64 - 1) := toNat_saturate _

theorem Count.add_eq_ok_iff {a b c : UInt64} :
    Count.add a b = .ok c ↔ a.toNat + b.toNat < 2 ^ 64 ∧ a + b = c := by
  unfold Count.add
  split <;> simp_all

theorem Count.toNat_add_one {n : UInt64} (h : n.toNat + 1 < 2 ^ 64) :
    (n + 1).toNat = n.toNat + 1 := by
  rw [UInt64.toNat_add]
  exact Nat.mod_eq_of_lt h

namespace Machine

variable {σ : Type} {p : Program} {host : Host σ}

/-- What an instruction that does not fail may change. -/
inductive Executes (p : Program) : Machine σ → Inst → Machine σ → Prop where
  | op {m : Machine σ} {opcode : String} {dest : Option String} {operands : List Operand}
      (vars : Variables) : Executes p m (.op opcode dest operands) { m with vars := vars }
  | register {m : Machine σ} {callee : Callee} {args : List Operand} {name : String}
      {s : Strategy} {globals : List String} (hr : callee.resolve p m.vars = .ok name)
      (hs : Strategy.ofEntryPoint? name = some s) (hg : registered name args = .ok globals) :
      Executes p m (.call callee args) { m with handlers := m.handlers ++ [(s, globals)] }
  | call {m : Machine σ} {callee : Callee} {args : List Operand} {name : String}
      (hr : callee.resolve p m.vars = .ok name) (hs : Strategy.ofEntryPoint? name = none)
      (state : σ) (vars : Variables) :
      Executes p m (.call callee args) { m with host := state, vars := vars }
  | increment {m : Machine σ} {counters : String} {slot : ℕ} {n : UInt64}
      (hn : m.counters.u64Slot counters slot = .ok n) (hlt : n.toNat + 1 < 2 ^ 64) :
      Executes p m (.increment counters slot)
        { m with counters := m.counters.setU64 counters slot (n + 1) }
  | store {m : Machine σ} {counters : String} {slot : ℕ} {operand : Operand} (value : Int32) :
      Executes p m (.store counters slot operand)
        { m with counters := m.counters.setI32 counters slot value }
  | accumulate {m : Machine σ} {counters : String} {slot : ℕ} {count datatype : Operand}
      {n old : UInt64} (hn : m.counters.u64Slot counters slot = .ok n) (hlt : n.toNat + 1 < 2 ^ 64)
      (hold : (m.counters.setU64 counters slot (n + 1)).u64Slot counters (slot + 1) = .ok old)
      (bytes : UInt64) :
      Executes p m (.accumulate counters slot count datatype)
        { m with
          counters := (m.counters.setU64 counters slot (n + 1)).setU64 counters (slot + 1) bytes }
  | addWeight {m : Machine σ} {counters : String} {slot : ℕ} {operand : Operand}
      (sum : Binary64) :
      Executes p m (.addWeight counters slot operand)
        { m with counters := m.counters.setF64 counters slot sum }
  | timerStart {m : Machine σ} (state : σ) (time : Binary64) :
      Executes p m .timerStart { m with host := state, timer := some time }
  | timerStop {m : Machine σ} {counters : String} {slot : ℕ} (state : σ)
      (timer : Option Binary64) (sum : Binary64) :
      Executes p m (.timerStop counters slot)
        { m with host := state, timer := timer, counters := m.counters.setF64 counters slot sum }

theorem executes_call {m m' : Machine σ} {depth : ℕ} {callee : Callee} {args : List Operand}
    (h : (m.call p host depth callee args).next? = some m') :
    Executes p m (.call callee args) m' := by
  obtain ⟨name, hr, h⟩ := Effect.next?_of.mp h
  cases hs : Strategy.ofEntryPoint? name with
  | some s =>
      simp only [hs] at h
      obtain ⟨globals, hg, h⟩ := Effect.next?_of.mp h
      obtain rfl := Option.some.inj h
      exact .register hr hs hg
  | none =>
      simp only [hs] at h
      cases hd : p.definition? name with
      | some function =>
          simp only [hd] at h
          by_cases hdepth : depth + 1 < maxDepth
          · rw [if_pos hdepth] at h
            obtain rfl := Option.some.inj h
            exact .call hr hs m.host m.vars
          · rw [if_neg hdepth] at h
            cases h
      | none =>
          simp only [hd] at h
          rcases hc : host.call m.host name args m.vars with ⟨state, failure | vars⟩
          · simp only [hc] at h
            cases h
          · simp only [hc] at h
            obtain rfl := Option.some.inj h
            exact .call hr hs state vars

theorem executes_of_next? {m m' : Machine σ} {depth : ℕ} {inst : Inst}
    (h : (m.execute p host depth inst).next? = some m') : Executes p m inst m' := by
  cases inst with
  | op opcode dest operands =>
      cases dest with
      | none =>
          obtain rfl := Option.some.inj h
          exact .op m.vars
      | some dest =>
          obtain ⟨value, -, h⟩ := Effect.next?_of.mp h
          cases value with
          | none =>
              obtain rfl := Option.some.inj h
              exact .op m.vars
          | some value =>
              obtain rfl := Option.some.inj h
              exact .op _
  | call callee args => exact executes_call h
  | increment counters slot =>
      obtain ⟨n, hn, h⟩ := Effect.next?_of.mp h
      obtain ⟨sum, hsum, h⟩ := Effect.next?_of.mp h
      obtain ⟨hlt, rfl⟩ := Count.add_eq_ok_iff.mp hsum
      obtain rfl := Option.some.inj h
      exact .increment hn hlt
  | store counters slot operand =>
      obtain ⟨value, -, h⟩ := Effect.next?_of.mp h
      obtain ⟨_, -, h⟩ := Effect.next?_of.mp h
      obtain rfl := Option.some.inj h
      exact .store _
  | accumulate counters slot count datatype =>
      obtain ⟨_, -, h⟩ := Effect.next?_of.mp h
      obtain ⟨_, -, h⟩ := Effect.next?_of.mp h
      obtain ⟨calls, hcalls, h⟩ := Effect.next?_of.mp h
      obtain ⟨sum, hsum, h⟩ := Effect.next?_of.mp h
      obtain ⟨hlt, rfl⟩ := Count.add_eq_ok_iff.mp hsum
      obtain ⟨bytes, hbytes, h⟩ := Effect.next?_of.mp h
      obtain rfl := Option.some.inj h
      exact .accumulate hcalls hlt hbytes _
  | addWeight counters slot operand =>
      obtain ⟨_, -, h⟩ := Effect.next?_of.mp h
      obtain ⟨_, -, h⟩ := Effect.next?_of.mp h
      obtain rfl := Option.some.inj h
      exact .addWeight _
  | timerStart =>
      obtain rfl := Option.some.inj h
      exact .timerStart _ _
  | timerStop counters slot =>
      simp only [execute, stopTimer] at h
      cases ht : m.timer with
      | none => simp [ht, Effect.next?] at h
      | some start =>
          simp only [ht, addTo] at h
          obtain ⟨_, -, h⟩ := Effect.next?_of.mp h
          obtain rfl := Option.some.inj h
          exact .timerStop _ _ _

/-- Only a call enters a function, and the function has a body. -/
theorem exists_call_of_enter {m m' : Machine σ} {inst : Inst} {depth function : ℕ}
    (h : m.execute p host depth inst = .enter function m') :
    ∃ callee args name, inst = .call callee args ∧ callee.resolve p m.vars = .ok name ∧
      Strategy.ofEntryPoint? name = none ∧ p.definition? name = some function := by
  cases inst with
  | call callee args =>
      obtain ⟨name, hr, h⟩ := Effect.of_eq_enter_iff.mp h
      refine ⟨callee, args, name, rfl, hr, ?_⟩
      cases hs : Strategy.ofEntryPoint? name with
      | some s =>
          simp only [hs] at h
          obtain ⟨_, -, h⟩ := Effect.of_eq_enter_iff.mp h
          cases h
      | none =>
          simp only [hs] at h
          cases hd : p.definition? name with
          | some function' =>
              simp only [hd] at h
              split at h
              · cases h
                exact ⟨rfl, rfl⟩
              · cases h
          | none =>
              simp only [hd] at h
              split at h <;> cases h
  | op opcode dest operands =>
      cases dest with
      | none => cases h
      | some dest =>
          obtain ⟨value, -, h⟩ := Effect.of_eq_enter_iff.mp h
          cases value <;> cases h
  | increment counters slot => simp [execute, increment, Effect.of_eq_enter_iff] at h
  | store counters slot value => simp [execute, store, Effect.of_eq_enter_iff] at h
  | accumulate counters slot count datatype =>
      simp [execute, accumulate, Effect.of_eq_enter_iff] at h
  | addWeight counters slot value => simp [execute, addTo, Effect.of_eq_enter_iff] at h
  | timerStart => cases h
  | timerStop counters slot =>
      cases ht : m.timer <;> simp [execute, stopTimer, addTo, ht, Effect.of_eq_enter_iff] at h

theorem Executes.shape {m m' : Machine σ} {inst : Inst} (h : Executes p m inst m')
    (name : String) : m'.counters.shape name = m.counters.shape name := by
  cases h <;> simp

/-- A count that no payload is added to grows by its increments. -/
theorem Executes.count {m m' : Machine σ} {inst : Inst} (h : Executes p m inst m')
    {name : String} (slot : ℕ)
    (hother : ∀ slot count datatype, inst ≠ .accumulate name slot count datatype) :
    m'.counters.count name slot =
      m.counters.count name slot + if inst = .increment name slot then 1 else 0 := by
  cases h with
  | op vars => simp
  | register hr hs hg => simp
  | call hr hs state vars => simp
  | @increment counters k n hn hlt =>
      rw [Counters.count_setU64 hn]
      by_cases heq : counters = name ∧ k = slot
      · obtain ⟨rfl, rfl⟩ := heq
        simp [Counters.count_of_u64Slot hn, Count.toNat_add_one hlt]
      · simp [heq]
  | store value => simp
  | @accumulate counters k count datatype n old hn hlt hold bytes =>
      have hname : counters ≠ name := by
        rintro rfl
        exact hother k count datatype rfl
      simp [Counters.count, Counters.setU64, Table.get?_modify, hname]
  | addWeight sum => simp
  | timerStart state time => simp
  | timerStop state timer sum => simp

end Machine

end FlowProfile
