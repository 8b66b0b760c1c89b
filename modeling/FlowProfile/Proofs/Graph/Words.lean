import FlowProfile.Graph.Edge
import FlowProfile.Graph.Json
import FlowProfile.Proofs.Json.Decode
import FlowProfile.Proofs.Outcome

/-!
# Numbers of 32 bits

Whatever document a program was read off, its slots, its targets and the lengths of its counter
arrays are numbers of 32 bits.
-/

namespace FlowProfile

/-- The slots that an instruction names. -/
def Inst.slots : Inst → List ℕ
  | .op .. | .call .. | .timerStart => []
  | .increment _ slot | .store _ slot _ | .accumulate _ slot _ _ | .addWeight _ slot _
  | .timerStop _ slot => [slot]

/-- Slots and targets are numbers of 32 bits. -/
def Block.HasWords (b : Block) : Prop :=
  (∀ i ∈ b.insts, ∀ slot ∈ i.slots, slot < 2 ^ 32) ∧ ∀ dest ∈ b.terminator.successors, dest < 2 ^ 32

instance (b : Block) : Decidable b.HasWords :=
  inferInstanceAs (Decidable ((∀ i ∈ b.insts, ∀ slot ∈ i.slots, slot < 2 ^ 32) ∧
    ∀ dest ∈ b.terminator.successors, _))

/-- Slots, targets and the lengths of counter arrays are numbers of 32 bits. -/
def Program.HasWords (p : Program) : Prop :=
  (∀ f ∈ p.functions, ∀ b ∈ f.blocks, b.HasWords) ∧ ∀ g ∈ p.globals, g.len < 2 ^ 32

instance (p : Program) : Decidable p.HasWords :=
  inferInstanceAs (Decidable ((∀ f ∈ p.functions, ∀ b ∈ f.blocks, b.HasWords) ∧
    ∀ g ∈ p.globals, _))

namespace Json

variable {α : Type} {read : Json → Option α}

theorem asWord_lt {j : Json} {n : ℕ} (h : j.asWord = some n) : n < 2 ^ 32 := by
  rw [asWord, asNatBelow, Option.bind_eq_some_iff] at h
  obtain ⟨i, -, h⟩ := h
  split at h
  case isTrue hrange =>
      obtain rfl := Option.some.inj h
      have hbound : i < 2 ^ 32 := hrange.2
      omega
  case isFalse => cases h

theorem exists_of_required {f : Field} {a : α} (h : f.required read = some a) :
    ∃ v, read v = some a := by
  cases f with
  | given v => exact ⟨v, h⟩
  | unnamed => cases h
  | beyond => cases h

theorem required_asWord_lt {f : Field} {n : ℕ} (h : f.required asWord = some n) : n < 2 ^ 32 :=
  (exists_of_required h).elim fun _ => asWord_lt

theorem exists_of_mem_mapM {β : Type} {f : α → Option β} {xs : List α} {ys : List β}
    (h : xs.mapM f = some ys) {y : β} (hy : y ∈ ys) : ∃ x ∈ xs, f x = some y := by
  induction xs generalizing ys with
  | nil =>
      obtain rfl : [] = ys := by simpa using h
      cases hy
  | cons x xs ih =>
      simp only [List.mapM_cons, Option.bind_eq_bind, Option.bind_eq_some_iff, Option.pure_def,
        Option.some.injEq] at h
      obtain ⟨z, hz, zs, hzs, rfl⟩ := h
      rcases List.mem_cons.mp hy with rfl | hy
      · exact ⟨x, List.mem_cons_self, hz⟩
      · obtain ⟨x', hx', hy⟩ := ih hzs hy
        exact ⟨x', List.mem_cons_of_mem x hx', hy⟩

theorem exists_of_mem_asList {j : Json} {xs : List α} (h : asList read j = some xs) {x : α}
    (hx : x ∈ xs) : ∃ v, read v = some x := by
  unfold asList at h
  split at h
  · obtain ⟨v, -, hv⟩ := exists_of_mem_mapM h hx
    exact ⟨v, hv⟩
  · cases h

/-- A list that may be left out. -/
theorem exists_of_mem_withDefault {f : Field} {xs : List α}
    (h : f.withDefault [] (asList read) = some xs) {x : α} (hx : x ∈ xs) :
    ∃ v, read v = some x := by
  cases f with
  | given v => exact exists_of_mem_asList h hx
  | unnamed | beyond =>
      obtain rfl := Option.some.inj h
      cases hx

end Json

open Json

/-! ### Instructions -/

section

variable {j : Json} {i : Inst}

theorem opOfJson?_slots (h : opOfJson? j = some i) : i.slots = [] := by
  simp only [opOfJson?, Option.bind_eq_bind, Option.bind_eq_some_iff] at h
  obtain ⟨fields, -, h⟩ := h
  split at h
  · simp only [Option.bind_eq_some_iff, Option.pure_def] at h
    obtain ⟨_, -, _, -, _, -, hi⟩ := h
    rw [← Option.some.inj hi, Inst.slots]
  · cases h

theorem callOfJson?_slots (h : callOfJson? j = some i) : i.slots = [] := by
  simp only [callOfJson?, Option.bind_eq_bind, Option.bind_eq_some_iff] at h
  obtain ⟨fields, -, h⟩ := h
  split at h
  · simp only [Option.bind_eq_some_iff, Option.pure_def] at h
    obtain ⟨_, -, _, -, hi⟩ := h
    rw [← Option.some.inj hi, Inst.slots]
  · cases h

theorem slotOfJson?_slots {make : String → ℕ → Inst}
    (hmake : ∀ counters slot, (make counters slot).slots = [slot])
    (h : slotOfJson? make j = some i) : ∀ slot ∈ i.slots, slot < 2 ^ 32 := by
  simp only [slotOfJson?, Option.bind_eq_bind, Option.bind_eq_some_iff] at h
  obtain ⟨fields, -, h⟩ := h
  split at h
  · simp only [Option.bind_eq_some_iff, Option.pure_def] at h
    obtain ⟨counters, -, slot, hslot, hi⟩ := h
    rw [← Option.some.inj hi, hmake, List.forall_mem_singleton]
    exact required_asWord_lt hslot
  · cases h

theorem valueOfJson?_slots {make : String → ℕ → Operand → Inst}
    (hmake : ∀ counters slot value, (make counters slot value).slots = [slot])
    (h : valueOfJson? make j = some i) : ∀ slot ∈ i.slots, slot < 2 ^ 32 := by
  simp only [valueOfJson?, Option.bind_eq_bind, Option.bind_eq_some_iff] at h
  obtain ⟨fields, -, h⟩ := h
  split at h
  · simp only [Option.bind_eq_some_iff, Option.pure_def] at h
    obtain ⟨counters, -, slot, hslot, value, -, hi⟩ := h
    rw [← Option.some.inj hi, hmake, List.forall_mem_singleton]
    exact required_asWord_lt hslot
  · cases h

theorem accumulateOfJson?_slots (h : accumulateOfJson? j = some i) :
    ∀ slot ∈ i.slots, slot < 2 ^ 32 := by
  simp only [accumulateOfJson?, Option.bind_eq_bind, Option.bind_eq_some_iff] at h
  obtain ⟨fields, -, h⟩ := h
  split at h
  · simp only [Option.bind_eq_some_iff, Option.pure_def] at h
    obtain ⟨counters, -, slot, hslot, count, -, datatype, -, hi⟩ := h
    rw [← Option.some.inj hi, Inst.slots, List.forall_mem_singleton]
    exact required_asWord_lt hslot
  · cases h

theorem Inst.slots_lt_of_ofJson? (h : ofJson? j = some i) : ∀ slot ∈ i.slots, slot < 2 ^ 32 := by
  unfold ofJson? at h
  split at h
  case h_1 =>
      rw [opOfJson?_slots h]
      exact List.forall_mem_nil _
  case h_2 =>
      rw [callOfJson?_slots h]
      exact List.forall_mem_nil _
  case h_3 | h_8 => exact slotOfJson?_slots (fun _ _ => rfl) h
  case h_4 | h_6 => exact valueOfJson?_slots (fun _ _ _ => rfl) h
  case h_5 => exact accumulateOfJson?_slots h
  case h_7 =>
      split at h
      · obtain rfl := Option.some.inj h
        exact List.forall_mem_nil _
      · cases h
  case h_9 => cases h

end

/-! ### Terminators -/

section

variable {j : Json} {t : Terminator}

theorem condBrOfJson?_successors (h : condBrOfJson? j = some t) :
    ∀ b ∈ t.successors, b < 2 ^ 32 := by
  simp only [condBrOfJson?, Option.bind_eq_bind, Option.bind_eq_some_iff] at h
  obtain ⟨fields, -, h⟩ := h
  split at h
  · simp only [Option.bind_eq_some_iff, Option.pure_def] at h
    obtain ⟨cond, -, thenBlock, hthen, elseBlock, helse, ht⟩ := h
    rw [← Option.some.inj ht, Terminator.successors, List.forall_mem_cons,
      List.forall_mem_singleton]
    exact ⟨required_asWord_lt hthen, required_asWord_lt helse⟩
  · cases h

theorem asPair_asWord_lt {c : Int64 × BlockId} (h : asPair asInt64 asWord j = some c) :
    c.2 < 2 ^ 32 := by
  unfold asPair at h
  split at h
  · simp only [Option.bind_eq_bind, Option.bind_eq_some_iff, Option.pure_def] at h
    obtain ⟨value, -, target, htarget, hc⟩ := h
    rw [← Option.some.inj hc]
    exact asWord_lt htarget
  · cases h

theorem switchOfJson?_successors (h : switchOfJson? j = some t) :
    ∀ b ∈ t.successors, b < 2 ^ 32 := by
  simp only [switchOfJson?, Option.bind_eq_bind, Option.bind_eq_some_iff] at h
  obtain ⟨fields, -, h⟩ := h
  split at h
  · simp only [Option.bind_eq_some_iff, Option.pure_def] at h
    obtain ⟨value, -, default, hdefault, cases, hcases, ht⟩ := h
    obtain ⟨v, hv⟩ := exists_of_required hcases
    rw [← Option.some.inj ht, Terminator.successors, List.forall_mem_cons, List.forall_mem_map]
    refine ⟨required_asWord_lt hdefault, fun c hc => ?_⟩
    obtain ⟨w, hw⟩ := exists_of_mem_asList hv hc
    exact asPair_asWord_lt hw
  · cases h

theorem Terminator.successors_lt_of_ofJson? (h : ofJson? j = some t) :
    ∀ b ∈ t.successors, b < 2 ^ 32 := by
  unfold ofJson? at h
  split at h
  case h_1 =>
      obtain ⟨target, htarget, rfl⟩ := Option.map_eq_some_iff.mp h
      exact List.forall_mem_singleton.mpr (asWord_lt htarget)
  case h_2 => exact condBrOfJson?_successors h
  case h_3 => exact switchOfJson?_successors h
  case h_4 | h_5 =>
      split at h
      · obtain rfl := Option.some.inj h
        exact List.forall_mem_nil _
      · cases h
  case h_6 => cases h

end

/-! ### Programs -/

theorem Block.hasWords_of_ofJson? {j : Json} {b : Block} (h : ofJson? j = some b) :
    b.HasWords := by
  simp only [ofJson?, Option.bind_eq_bind, Option.bind_eq_some_iff] at h
  obtain ⟨fields, -, h⟩ := h
  split at h
  · simp only [Option.bind_eq_some_iff, Option.pure_def] at h
    obtain ⟨name, -, insts, hinsts, terminator, hterminator, hb⟩ := h
    obtain ⟨v, hv⟩ := exists_of_required hterminator
    obtain rfl := Option.some.inj hb
    refine ⟨fun i hi => ?_, Terminator.successors_lt_of_ofJson? hv⟩
    obtain ⟨w, hw⟩ := exists_of_mem_withDefault hinsts hi
    exact Inst.slots_lt_of_ofJson? hw
  · cases h

theorem Function.hasWords_of_ofJson? {j : Json} {f : Function} (h : ofJson? j = some f) :
    ∀ b ∈ f.blocks, b.HasWords := by
  simp only [ofJson?, Option.bind_eq_bind, Option.bind_eq_some_iff] at h
  obtain ⟨fields, -, h⟩ := h
  split at h
  · simp only [Option.bind_eq_some_iff, Option.pure_def] at h
    obtain ⟨name, -, blocks, hblocks, hf⟩ := h
    obtain rfl := Option.some.inj hf
    intro b hb
    obtain ⟨v, hv⟩ := exists_of_mem_withDefault hblocks hb
    exact Block.hasWords_of_ofJson? hv
  · cases h

theorem Global.len_lt_of_ofJson? {j : Json} {g : Global} (h : ofJson? j = some g) :
    g.len < 2 ^ 32 := by
  simp only [ofJson?, Option.bind_eq_bind, Option.bind_eq_some_iff] at h
  obtain ⟨fields, -, h⟩ := h
  split at h
  · simp only [Option.bind_eq_some_iff, Option.pure_def] at h
    obtain ⟨name, -, type, -, len, hlen, init, -, hg⟩ := h
    rw [← Option.some.inj hg]
    exact required_asWord_lt hlen
  · cases h

theorem Program.hasWords_of_ofJson? {j : Json} {p : Program} (h : ofJson? j = some p) :
    p.HasWords := by
  simp only [ofJson?, Option.bind_eq_bind, Option.bind_eq_some_iff] at h
  obtain ⟨fields, -, h⟩ := h
  split at h
  · simp only [Option.bind_eq_some_iff, Option.pure_def] at h
    obtain ⟨functions, hfunctions, globals, hglobals, hp⟩ := h
    obtain ⟨v, hv⟩ := exists_of_required hfunctions
    obtain rfl := Option.some.inj hp
    refine ⟨fun f hf => ?_, fun g hg => ?_⟩
    · obtain ⟨w, hw⟩ := exists_of_mem_asList hv hf
      exact Function.hasWords_of_ofJson? hw
    · obtain ⟨w, hw⟩ := exists_of_mem_withDefault hglobals hg
      exact Global.len_lt_of_ofJson? hw
  · cases h

end FlowProfile
