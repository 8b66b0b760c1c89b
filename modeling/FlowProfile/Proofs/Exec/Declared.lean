import FlowProfile.Proofs.Instrument.Applied

/-!
# Declared arrays in a machine

At the start an array has the type and the length that were declared, and counts nothing.
A slot within its length can be read.
-/

namespace FlowProfile

/-! ### Arrays at the start -/

theorem Table.get?_ofList {α : Type} (entries : List (String × α)) (name : String) :
    (Table.ofList entries).get? name =
      ((entries.filter (·.1 == name)).getLast?).map (·.2) := by
  induction entries using List.reverseRecOn with
  | nil => rfl
  | append_singleton entries entry ih =>
      obtain ⟨n, value⟩ := entry
      unfold Table.ofList at ih ⊢
      rw [List.foldl_append, List.foldl_cons, List.foldl_nil, Table.get?_set, ih,
        List.filter_append]
      by_cases h : n = name
      · simp [h]
      · simp [h]

theorem Program.Declares.get?_initial {p : Program} {g : Global} (h : p.Declares g) :
    (Counters.initial p).get? g.name = some g.initial := by
  have hfilter : (p.globals.map fun g => (g.name, g.initial)).filter (·.1 == g.name) =
      [(g.name, g.initial)] := by
    rw [List.filter_map]
    have hd : p.globals.filter (·.name == g.name) = [g] := h
    simpa [Function.comp_def] using congrArg (List.map fun g => (g.name, g.initial)) hd
  unfold Counters.initial
  rw [Table.get?_ofList, hfilter]
  rfl

theorem Program.Declares.shape_initial {p : Program} {g : Global} (h : p.Declares g) :
    (Counters.initial p).shape g.name = some (g.type, g.len) := by
  unfold Counters.shape
  rw [h.get?_initial]
  obtain ⟨name, type, len, init⟩ := g
  cases type <;> simp [Global.initial, CounterArray.shape]

/-- The array of a pass counts nothing at first. -/
theorem Program.Declares.count_initial {p : Program} {pass : Pass} {len : ℕ}
    (h : p.Declares (pass.global len)) (k : ℕ) :
    (Counters.initial p).count pass.counters k = 0 := by
  have hget := h.get?_initial
  have hname : (pass.global len).name = pass.counters := rfl
  rw [hname] at hget
  unfold Counters.count
  rw [hget]
  cases pass with
  | rank counters => rfl
  | time counters => rfl
  | weights counters => rfl
  | _ =>
      simp only [Option.map_some, Option.getD_some, Pass.global, Pass.type, Pass.initial,
        Global.initial, CounterArray.count, Array.getElem?_replicate]
      split <;> rfl

/-- The numbers that a pass adds to are zero at first. -/
theorem Program.Declares.f64Slot_initial {p : Program} {pass : Pass} {len slot : ℕ}
    (h : p.Declares (pass.global len)) (htype : pass.type = .f64) (hlt : slot < len) :
    (Counters.initial p).f64Slot pass.counters slot = .ok (.ofInt64 0) := by
  refine Counters.f64Slot_eq_ok_iff.mpr ⟨Array.replicate len (.ofInt64 0), ?_, by simp [hlt]⟩
  cases pass with
  | time counters | weights counters => exact h.get?_initial
  | _ => cases htype

/-! ### Slots -/

namespace Counters

variable {cs : Counters} {name : String} {slot len : ℕ}

theorem exists_u64Slot (h : cs.shape name = some (.u64, len)) (hlt : slot < len) :
    ∃ n, cs.u64Slot name slot = .ok n := by
  obtain ⟨array, hget, harray⟩ := Option.map_eq_some_iff.mp h
  cases array with
  | u64 slots =>
      obtain rfl : slots.size = len := (Prod.mk.inj harray).2
      exact ⟨slots[slot], u64Slot_eq_ok_iff.mpr ⟨slots, hget, Array.getElem?_eq_getElem hlt⟩⟩
  | _ => cases harray

theorem exists_i32Slot (h : cs.shape name = some (.i32, len)) (hlt : slot < len) :
    ∃ n, cs.i32Slot name slot = .ok n := by
  obtain ⟨array, hget, harray⟩ := Option.map_eq_some_iff.mp h
  cases array with
  | i32 slots =>
      obtain rfl : slots.size = len := (Prod.mk.inj harray).2
      exact ⟨slots[slot], i32Slot_eq_ok_iff.mpr ⟨slots, hget, Array.getElem?_eq_getElem hlt⟩⟩
  | _ => cases harray

theorem exists_f64Slot (h : cs.shape name = some (.f64, len)) (hlt : slot < len) :
    ∃ x, cs.f64Slot name slot = .ok x := by
  obtain ⟨array, hget, harray⟩ := Option.map_eq_some_iff.mp h
  cases array with
  | f64 slots =>
      obtain rfl : slots.size = len := (Prod.mk.inj harray).2
      exact ⟨slots[slot], f64Slot_eq_ok_iff.mpr ⟨slots, hget, Array.getElem?_eq_getElem hlt⟩⟩
  | _ => cases harray

end Counters

end FlowProfile
