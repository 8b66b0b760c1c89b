import FlowProfile.Json.Decode
import Mathlib.Tactic

/-!
# Values read from documents

What each reader gives for the document of a value: for texts, numbers and lists, for a record by
its fields, and for an alternative.
-/

namespace FlowProfile.Json

variable {α β : Type}

theorem mapM_eq_some_map {f : α → Option β} {g : α → β} {xs : List α}
    (h : ∀ x ∈ xs, f x = some (g x)) : xs.mapM f = some (xs.map g) := by
  induction xs with
  | nil => rfl
  | cons x xs ih =>
      rw [List.forall_mem_cons] at h
      rw [List.mapM_cons, h.1, ih h.2]
      rfl

/-! ### Values -/

@[simp] theorem asText_text (s : String) : (text s).asText = some s := rfl

@[simp] theorem asInt64_int (i : Int64) : (int i.toInt).asInt64 = some i := by
  have hrange : Int64.minValue.toInt ≤ i.toInt ∧ i.toInt ≤ Int64.maxValue.toInt :=
    ⟨i.minValue_le_toInt, i.toInt_le⟩
  rw [asInt64, int, asInt, Option.bind_some, if_pos hrange, Int64.ofInt_toInt]

theorem asWord_nat {n : ℕ} (h : n < 2 ^ 32) : (nat n).asWord = some n := by
  have hrange : (0 : Int) ≤ n ∧ (n : Int) < UInt32.size := ⟨by omega, by exact_mod_cast h⟩
  rw [asWord, asNatBelow, nat, int, asInt, Option.bind_some, if_pos hrange, Int.toNat_natCast]

theorem asList_map {read : Json → Option α} {write : α → Json} {xs : List α}
    (h : ∀ x ∈ xs, read (write x) = some x) : asList read (.array (xs.map write)) = some xs := by
  have hread : ∀ x ∈ xs, (read ∘ write) x = some (id x) := h
  rw [asList, List.mapM_map, mapM_eq_some_map hread, List.map_id]

@[simp] theorem asNullable_elim (s : Option String) :
    asNullable asText (s.elim .null .text) = some s := by
  cases s <;> rfl

/-! ### Records and alternatives -/

@[simp] theorem alternative_tagged (name : String) (v : Json) :
    (tagged name v).alternative = some (name, some v) := rfl

@[simp] theorem alternative_text (name : String) :
    (text name).alternative = some (name, none) := rfl

theorem filter_name_eq {members : List (String × Json)} (h : (members.map Prod.fst).Nodup)
    {n : String × Json} (hn : n ∈ members) : members.filter (·.1 == n.1) = [n] := by
  induction members with
  | nil => cases hn
  | cons first members ih =>
      rw [List.map_cons, List.nodup_cons] at h
      rcases List.mem_cons.mp hn with rfl | hn
      · have hnone : members.filter (·.1 == n.1) = [] := by
          rw [List.filter_eq_nil_iff]
          intro other hother heq
          exact h.1 (beq_iff_eq.mp heq ▸ List.mem_map_of_mem hother)
        rw [List.filter_cons, if_pos (beq_self_eq_true n.1), hnone]
      · have hne : ¬(first.1 == n.1) = true := by
          intro heq
          exact h.1 (beq_iff_eq.mp heq ▸ List.mem_map_of_mem hn)
        rw [List.filter_cons, if_neg hne, ih h.2 hn]

/-- Each field of a record that has them all. -/
@[simp] theorem fields_record {names : List String} {members : List (String × Json)}
    (hnames : members.map Prod.fst = names) (hnodup : names.Nodup) :
    fields names (record members) = some (members.map fun n => .given n.2) := by
  subst hnames
  have htexts : textMembers (members.map fun n => (some n.1, n.2)) = some members := by
    have hname : ∀ n ∈ members, ((fun m : Literal × Json => m.1.map (·, m.2)) ∘
        fun n : String × Json => (some n.1, n.2)) n = some (id n) := fun _ _ => rfl
    rw [textMembers, List.mapM_map, mapM_eq_some_map hname, List.map_id]
  have hmember : ∀ n ∈ members, (member members ∘ Prod.fst) n = some (.given n.2) := by
    intro n hn
    rw [Function.comp_apply, member, filter_name_eq hnodup hn]
  rw [record, fields, htexts, Option.bind_some, List.mapM_map, mapM_eq_some_map hmember]

@[simp] theorem required_given (read : Json → Option α) (v : Json) :
    (Field.given v).required read = read v := rfl

@[simp] theorem withDefault_given (default : α) (read : Json → Option α) (v : Json) :
    (Field.given v).withDefault default read = read v := rfl

end FlowProfile.Json
