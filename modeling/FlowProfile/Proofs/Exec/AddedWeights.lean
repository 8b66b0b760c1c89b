import FlowProfile.Proofs.Exec.Intervals

/-!
# Weights along a run

A slot that is added to at the end of one block alone holds what the block added each time that a
run came to its end, one time after another.
-/

namespace FlowProfile

/-- What the instruction adds to a slot. -/
def Inst.addend? (counters : String) (slot : ℕ) : Inst → Option Operand
  | .addWeight name k value => if name = counters ∧ k = slot then some value else none
  | _ => none

/-- All that the instructions add to a slot, in order. -/
def addends (counters : String) (slot : ℕ) (insts : List Inst) : List Operand :=
  insts.filterMap (Inst.addend? counters slot)

theorem addends_append (counters : String) (slot : ℕ) (xs ys : List Inst) :
    addends counters slot (xs ++ ys) = addends counters slot xs ++ addends counters slot ys :=
  List.filterMap_append

theorem Inst.addend?_of_addsTo_eq_false {counters : String} {slot : ℕ} {inst : Inst}
    (h : inst.addsTo counters slot = false) : inst.addend? counters slot = none := by
  cases inst with
  | addWeight name k value => simpa [addend?, addsTo] using h
  | _ => rfl

/-- All additions to the slot stand in the last part of one block, in which a run meets nothing of
the program itself any more. -/
structure Program.AddsAtEnd (p : Program) (counters : String) (slot function : ℕ) (b : BlockId)
    (tail : List Inst) : Prop where
  stands : Frame.IsIn p ⟨function, b, tail⟩
  added : ∀ inst ∈ tail, inst.isOriginal = false
  only : ∀ f inst rest, Frame.IsIn p f → f.rest = inst :: rest →
    inst.addsTo counters slot = true → f.function = function ∧ f.block = b ∧
      inst :: rest <:+ tail ∧ ∃ value, inst = .addWeight counters slot value

/-! ### Places in the last part -/

/-- What a run has done of the last part of a block. -/
def Frame.done (function : ℕ) (b : BlockId) (tail : List Inst) (f : Frame) : List Inst :=
  if f.function = function ∧ f.block = b then tail.take (tail.length - f.rest.length) else []

namespace Frame

variable {function function' : ℕ} {b b' : BlockId} {tail rest : List Inst} {inst : Inst} {f : Frame}

theorem done_of_le (h : f.function = function → f.block = b → tail.length ≤ f.rest.length) :
    f.done function b tail = [] := by
  unfold done
  split
  · rename_i hplace
    rw [Nat.sub_eq_zero_of_le (h hplace.1 hplace.2), List.take_zero]
  · rfl

theorem done_end (function : ℕ) (b : BlockId) (tail : List Inst) :
    done function b tail ⟨function, b, []⟩ = tail := by
  simp [done]

theorem done_behind (h : inst :: rest <:+ tail) :
    done function b tail ⟨function, b, rest⟩ =
      done function b tail ⟨function, b, inst :: rest⟩ ++ [inst] := by
  obtain ⟨before, rfl⟩ := h
  have hbehind : (before ++ inst :: rest).length - rest.length = before.length + 1 := by
    rw [List.length_append, List.length_cons]
    omega
  have hat : (before ++ inst :: rest).length - (inst :: rest).length = before.length := by
    rw [List.length_append, Nat.add_sub_cancel]
  simp only [done, and_self, if_true, hbehind, hat, List.take_length_add_append, List.take_left']
  rfl

end Frame

namespace Program.AddsAtEnd

variable {p : Program} {counters : String} {slot function function' : ℕ} {b b' : BlockId}
  {tail rest : List Inst} {inst : Inst}

/-- A place in the block is in its last part, or before it. -/
theorem suffix_or_le (h : p.AddsAtEnd counters slot function b tail)
    (hf : Frame.IsIn p ⟨function, b, inst :: rest⟩) :
    inst :: rest <:+ tail ∨ tail.length ≤ rest.length := by
  obtain ⟨block, hb, hsuffix⟩ := hf
  obtain ⟨block', hb', htail⟩ := h.stands
  obtain rfl : block = block' := Option.some.inj (hb.symm.trans hb')
  rcases List.suffix_or_suffix_of_suffix hsuffix htail with hin | hout
  · exact .inl hin
  · rcases List.suffix_cons_iff.mp hout with rfl | hrest
    · exact .inl List.suffix_rfl
    · exact .inr hrest.length_le

/-- What is not in the last part of the block is behind nothing that was done there. -/
theorem done_cons (h : p.AddsAtEnd counters slot function b tail)
    (hf : Frame.IsIn p ⟨function', b', inst :: rest⟩)
    (hout : ¬(function' = function ∧ b' = b ∧ inst :: rest <:+ tail)) :
    function' = function → b' = b → tail.length ≤ rest.length := by
  rintro rfl rfl
  exact (h.suffix_or_le hf).resolve_left fun hin => hout ⟨rfl, rfl, hin⟩

theorem done_start (h : p.AddsAtEnd counters slot function b tail) {frame : Frame}
    (hframe : p.frameAt function' b' = .ok frame) :
    frame.function = function → frame.block = b → tail.length ≤ frame.rest.length := by
  obtain ⟨block, hb, rfl⟩ := frameAt_eq_ok_iff.mp hframe
  rintro rfl rfl
  obtain ⟨block', hb', htail⟩ := h.stands
  obtain rfl : block = block' := Option.some.inj (hb.symm.trans hb')
  exact htail.length_le

end Program.AddsAtEnd

/-! ### What the slot holds -/

namespace Machine

variable {σ : Type} {p : Program} {host : Host σ} {m m' : Machine σ} {counters : String}
  {slot depth : ℕ} {value : Operand} {inst : Inst} {ends : List Variables}
  {tail part : List Inst}

theorem f64Slot_of_addWeight
    (h : m.execute p host depth (.addWeight counters slot value) = .proceed m') :
    ∃ weight sum, m.vars.get value = .ok weight ∧ m.counters.f64Slot counters slot = .ok sum ∧
      m'.counters.f64Slot counters slot = .ok (sum + .ofInt64 weight) := by
  have hnext : (m.execute p host depth (.addWeight counters slot value)).next? = some m' := by
    rw [h]
    rfl
  obtain ⟨weight, hweight, hnext⟩ := Effect.next?_of.mp hnext
  obtain ⟨sum, hsum, hnext⟩ := Effect.next?_of.mp hnext
  obtain rfl := Option.some.inj hnext
  exact ⟨weight, sum, hweight, hsum, Counters.f64Slot_setF64_self hsum⟩

/-- The slot holds what the last part of the block added at each end of the block, and then what
some of it has added since. -/
def HoldsWeights (counters : String) (slot : ℕ) (tail : List Inst) (ends : List Variables)
    (part : List Inst) (m : Machine σ) : Prop :=
  ∃ weights last,
    ends.mapM (fun vars => (addends counters slot tail).mapM vars.get) = .ok weights ∧
    (addends counters slot part).mapM m.vars.get = .ok last ∧
    m.counters.f64Slot counters slot = .ok (.total ((weights.flatten ++ last).map .ofInt64))

theorem HoldsWeights.keep (h : m.HoldsWeights counters slot tail ends [])
    (hslot : m'.counters.f64Slot counters slot = m.counters.f64Slot counters slot) :
    m'.HoldsWeights counters slot tail ends [] := by
  obtain ⟨weights, last, hweights, hlast, hsum⟩ := h
  exact ⟨weights, last, hweights, hlast, hslot.trans hsum⟩

/-- At the end of the block all its weights are added. -/
theorem HoldsWeights.close (h : m.HoldsWeights counters slot tail ends tail) :
    m.HoldsWeights counters slot tail (ends ++ [m.vars]) [] := by
  obtain ⟨weights, last, hweights, hlast, hsum⟩ := h
  refine ⟨weights ++ [last], [], Outcome.mapM_append_singleton hweights hlast, rfl, ?_⟩
  rw [hsum]
  simp

/-- One more instruction of the last part is done. -/
theorem HoldsWeights.step (h : m.HoldsWeights counters slot tail ends part)
    (hinst : inst.isOriginal = false)
    (hadds : inst.addsTo counters slot = true → ∃ value, inst = .addWeight counters slot value)
    (hexec : m.execute p host depth inst = .proceed m') :
    m'.HoldsWeights counters slot tail ends (part ++ [inst]) := by
  have hexecutes : Executes p m inst m' := executes_of_next? (by rw [hexec]; rfl)
  obtain ⟨weights, last, hweights, hlast, hsum⟩ := h
  unfold HoldsWeights
  rw [hexecutes.vars_eq hinst, addends_append]
  cases hown : inst.addsTo counters slot with
  | true =>
      obtain ⟨value, rfl⟩ := hadds hown
      obtain ⟨weight, sum, hweight, hold, hnew⟩ := f64Slot_of_addWeight hexec
      obtain rfl := Except.ok.inj (hsum.symm.trans hold)
      have hone : addends counters slot [.addWeight counters slot value] = [value] := by
        simp [addends, Inst.addend?]
      refine ⟨weights, last ++ [weight], hweights, ?_, ?_⟩
      · rw [hone]
        exact Outcome.mapM_append_singleton hlast hweight
      · rw [hnew]
        simp [Binary64.total, List.foldl_append]
  | false =>
      have hnone : addends counters slot [inst] = [] := by
        simp [addends, Inst.addend?_of_addsTo_eq_false hown]
      rw [hnone, List.append_nil]
      exact ⟨weights, last, hweights, hlast, (hexecutes.f64Slot_eq hown).trans hsum⟩

end Machine

/-! ### Along a run -/

namespace Config

variable {σ : Type} {p : Program} {host : Host σ} {counters : String} {slot function : ℕ}
  {b : BlockId} {tail : List Inst}

/-- No call was made in the last part of the block, and the slot holds what was added. -/
structure Weighs (counters : String) (slot function : ℕ) (b : BlockId) (tail : List Inst)
    (past : List (Config σ)) (c : Config σ) : Prop where
  callers : ∀ f ∈ c.callers, f.function = function → f.block = b → tail.length ≤ f.rest.length
  slot : c.machine.HoldsWeights counters slot tail (seen ⟨function, b, []⟩ past)
    (c.frame.done function b tail)

/-- Outside the last part of the block nothing is added. -/
theorem holdsWeights_outside (hat : p.AddsAtEnd counters slot function b tail) {m m' : Machine σ}
    {g : ℕ} {x : BlockId} {inst : Inst} {rest : List Inst} {ends : List Variables}
    (hcurrent : Frame.IsIn p ⟨g, x, inst :: rest⟩)
    (hout : ¬(g = function ∧ x = b ∧ inst :: rest <:+ tail))
    (hexec : Machine.Executes p m inst m')
    (hslot : m.HoldsWeights counters slot tail ends
      (Frame.done function b tail ⟨g, x, inst :: rest⟩)) :
    m'.HoldsWeights counters slot tail ends [] := by
  rw [Frame.done_of_le fun hg hx => Nat.le_succ_of_le (hat.done_cons hcurrent hout hg hx)] at hslot
  refine hslot.keep (hexec.f64Slot_eq (Bool.eq_false_iff.mpr fun hadds => hout ?_))
  obtain ⟨hg, hx, hsuffix, -⟩ := hat.only _ inst rest hcurrent rfl hadds
  exact ⟨hg, hx, hsuffix⟩

/-- A block that is left was either another one, or all its weights are added. -/
theorem holdsWeights_leave {m : Machine σ} {g : ℕ} {x : BlockId} {callers : List Frame}
    {past : List (Config σ)}
    (hslot : m.HoldsWeights counters slot tail (seen ⟨function, b, []⟩ past)
      (Frame.done function b tail ⟨g, x, []⟩)) :
    m.HoldsWeights counters slot tail
      (seen ⟨function, b, []⟩ (past ++ [⟨m, ⟨g, x, []⟩, callers⟩])) [] := by
  rw [seen_append, seen_singleton]
  by_cases hplace : g = function ∧ x = b
  · obtain ⟨rfl, rfl⟩ := hplace
    rw [Frame.done_end] at hslot
    rw [if_pos rfl]
    exact hslot.close
  · have hother : (⟨g, x, []⟩ : Frame) ≠ ⟨function, b, []⟩ := by
      rintro ⟨⟩
      exact hplace ⟨rfl, rfl⟩
    rw [Frame.done_of_le fun hg hx => absurd ⟨hg, hx⟩ hplace] at hslot
    rwa [if_neg hother, List.append_nil]

theorem Moves.weighs (hat : p.AddsAtEnd counters slot function b tail) {past : List (Config σ)}
    {c d : Config σ} {v : Option Visit} (hframes : ∀ f ∈ c.frames, f.IsIn p)
    (h : Moves p host c v d) (hc : c.Weighs counters slot function b tail past) :
    d.Weighs counters slot function b tail (past ++ [c]) := by
  obtain ⟨hcallers, hslot⟩ := hc
  have hcurrent := hframes c.frame List.mem_cons_self
  -- with an instruction to do, the run is not at the end of the block
  have hseen : c.frame.rest ≠ [] →
      seen ⟨function, b, []⟩ (past ++ [c]) = seen ⟨function, b, []⟩ past := by
    intro hrest
    rw [seen_append, seen_singleton, if_neg fun heq => hrest (congrArg Frame.rest heq),
      List.append_nil]
  cases h with
  | @proceed m m' g x inst rest callers he =>
      have hexec : Machine.Executes p m inst m' := Machine.executes_of_next? (by rw [he]; rfl)
      refine ⟨hcallers, ?_⟩
      rw [hseen (List.cons_ne_nil _ _)]
      by_cases hin : g = function ∧ x = b ∧ inst :: rest <:+ tail
      · obtain ⟨rfl, rfl, hsuffix⟩ := hin
        rw [Frame.done_behind hsuffix]
        refine hslot.step (hat.added inst (hsuffix.subset List.mem_cons_self)) (fun hadds => ?_) he
        exact (hat.only _ inst rest hcurrent rfl hadds).2.2.2
      · rw [Frame.done_of_le (hat.done_cons hcurrent hin)]
        exact holdsWeights_outside hat hcurrent hin hexec hslot
  | @enter m m' g callee x inst rest callers frame he hf =>
      have hexec : Machine.Executes p m inst m' := Machine.executes_of_next? (by rw [he]; rfl)
      -- only the program itself calls its functions
      have hout : ¬(g = function ∧ x = b ∧ inst :: rest <:+ tail) := fun hin =>
        Machine.execute_ne_enter (hat.added inst (hin.2.2.subset List.mem_cons_self)) he
      refine ⟨List.forall_mem_cons.mpr ⟨hat.done_cons hcurrent hout, hcallers⟩, ?_⟩
      rw [hseen (List.cons_ne_nil _ _), Frame.done_of_le (hat.done_start hf)]
      exact holdsWeights_outside hat hcurrent hout hexec hslot
  | @follow m g x callers frame visit he hf =>
      refine ⟨hcallers, ?_⟩
      rw [Frame.done_of_le (hat.done_start hf)]
      exact holdsWeights_leave hslot
  | @back m g x callers frame he =>
      rw [List.forall_mem_cons] at hcallers
      refine ⟨hcallers.2, ?_⟩
      rw [Frame.done_of_le hcallers.1]
      exact holdsWeights_leave hslot

theorem Passes.weighs (hat : p.AddsAtEnd counters slot function b tail) {m : Machine σ}
    (hm : m.counters.f64Slot counters slot = .ok (.ofInt64 0)) {main : ℕ} {entry : Block}
    (hb : p.block? main 0 = some entry) {vs : List Visit} {n : ℕ} {d : Config σ}
    (h : Passes p host ⟨m, ⟨main, 0, entry.insts⟩, []⟩ vs n d) :
    d.Weighs counters slot function b tail (trace p host n ⟨m, ⟨main, 0, entry.insts⟩, []⟩) := by
  induction h with
  | start =>
      have hstart := hat.done_start (Program.frameAt_eq_ok_iff.mpr ⟨entry, hb, rfl⟩)
      refine ⟨fun f hf => absurd hf List.not_mem_nil, ?_⟩
      rw [Frame.done_of_le hstart]
      exact ⟨[], [], rfl, rfl, hm⟩
  | @move vs n d e v h hm' ih =>
      rw [h.trace_succ hm']
      exact hm'.weighs hat (h.coherent hb).frames ih

end Config

namespace Program

variable {σ : Type} {p : Program} {host : Host σ} {state : σ} {limit : ℕ} {args : List String}
  {m : Machine σ} {records : List Record} {counters : String} {slot function : ℕ} {b : BlockId}
  {tail : List Inst}

/-- At the end of a run the slot holds what was added at each end of the block. -/
theorem AddsAtEnd.f64Slot_run (hat : p.AddsAtEnd counters slot function b tail)
    (hinit : (Counters.initial p).f64Slot counters slot = .ok (.ofInt64 0))
    (h : p.run host state limit args = (m, .ok records)) :
    ∃ weights, (seen ⟨function, b, []⟩ (p.trace host state limit)).mapM
        (fun vars => (addends counters slot tail).mapM vars.get) = .ok weights ∧
      m.counters.f64Slot counters slot = .ok (.total (weights.flatten.map .ofInt64)) := by
  obtain ⟨main, entry, vs, n, d, hb, hp, htrace, rfl, hrest, -⟩ := exists_trace_eq h
  obtain ⟨m, ⟨g, x, _⟩, callers⟩ := d
  obtain rfl := hrest
  obtain ⟨weights, last, hweights, hlast, hslot⟩ :=
    Config.holdsWeights_leave (hp.weighs hat hinit hb).slot
  obtain rfl : [] = last := Except.ok.inj hlast
  rw [List.append_nil] at hslot
  exact ⟨weights, htrace ▸ hweights, hslot⟩

end Program

end FlowProfile
