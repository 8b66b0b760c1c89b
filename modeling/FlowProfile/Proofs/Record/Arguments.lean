import FlowProfile.Proofs.Record.RoundTrip

/-!
# Arguments that were read

A NUL ends an argument, and without any NUL a text is cut into words of its own characters. So no
argument that is read holds a NUL, and all of them can be written again.
-/

namespace FlowProfile

/-! ### Pieces of a text -/

theorem Text.mem_of_mem_splitOnPPrepend {separates : Char → Bool} {cs acc piece : List Char}
    {c : Char} (h : piece ∈ cs.splitOnPPrepend separates acc) (hc : c ∈ piece) :
    c ∈ acc ∨ c ∈ cs := by
  induction cs generalizing acc with
  | nil =>
      rw [List.splitOnPPrepend_nil, List.mem_singleton] at h
      subst h
      exact .inl (List.mem_reverse.mp hc)
  | cons d cs ih =>
      rw [List.splitOnPPrepend_cons_eq_if] at h
      split at h
      · rcases List.mem_cons.mp h with rfl | h
        · exact .inl (List.mem_reverse.mp hc)
        · rcases ih h with hnil | hcs
          · cases hnil
          · exact .inr (List.mem_cons_of_mem d hcs)
      · rcases ih h with hacc | hcs
        · rcases List.mem_cons.mp hacc with rfl | hacc
          · exact .inr List.mem_cons_self
          · exact .inl hacc
        · exact .inr (List.mem_cons_of_mem d hcs)

theorem Text.mem_of_mem_runs {separates : Char → Bool} {cs run : List Char} {c : Char}
    (h : run ∈ runs separates cs) (hc : c ∈ run) : c ∈ cs := by
  rcases mem_of_mem_splitOnPPrepend (List.mem_filter.mp h).1 hc with hnil | hcs
  · cases hnil
  · exact hcs

namespace Reader

theorem not_mem_of_mem_terminated {c : Char} {before cs piece : List Char} (hbefore : c ∉ before)
    (h : piece ∈ terminated c before cs) : c ∉ piece := by
  induction cs generalizing before with
  | nil =>
      rw [terminated] at h
      split at h
      · cases h
      · obtain rfl := List.mem_singleton.mp h
        exact mt List.mem_reverse.mp hbefore
  | cons d cs ih =>
      rw [terminated] at h
      split at h
      · rcases List.mem_cons.mp h with rfl | h
        · exact mt List.mem_reverse.mp hbefore
        · exact ih List.not_mem_nil h
      · rename_i hd
        exact ih (List.not_mem_cons_of_ne_of_not_mem (Ne.symm hd) hbefore) h

theorem not_mem_of_mem_splitArguments {cs : List Char} {arg : String}
    (h : arg ∈ splitArguments cs) : '\x00' ∉ arg.toList := by
  obtain ⟨piece, hpiece, rfl⟩ := List.mem_map.mp h
  rw [String.toList_ofList]
  split at hpiece
  · exact not_mem_of_mem_terminated List.not_mem_nil hpiece
  · rename_i hnone
    exact fun hc => hnone (Text.mem_of_mem_runs hpiece hc)

/-! ### What a reader yields -/

variable {α β : Type} {P : α → Prop} {Q : β → Prop}

/-- All values that the reader reads have the property. -/
def Yields (P : α → Prop) (r : Reader α) : Prop := ∀ bs a rest, r bs = .ok (a, rest) → P a

theorem yields_true (r : Reader α) : Yields (fun _ => True) r := fun _ _ _ _ => trivial

theorem Yields.pure {a : α} (h : P a) : Yields P (Pure.pure a) := by
  intro bs b rest hb
  cases hb
  exact h

theorem Yields.throw (f : Failure) : Yields P (MonadExcept.throw f) := by
  intro bs a rest h
  cases h

theorem Yields.bind {r : Reader α} {k : α → Reader β} (hr : Yields P r)
    (hk : ∀ a, P a → Yields Q (k a)) : Yields Q (r >>= k) := by
  intro bs b rest h
  obtain ⟨a, mid, ha, hb⟩ := bind_eq_ok.mp h
  exact hk a (hr bs a mid ha) mid b rest hb

/-- A result is made of whatever was read. -/
theorem Yields.map {r : Reader α} {f : α → β} (h : ∀ a, Q (f a)) :
    Yields Q (do return f (← r)) :=
  (yields_true r).bind fun a _ => .pure (h a)

theorem arguments_yields : Yields (fun args => ∀ arg ∈ args, '\x00' ∉ arg.toList) arguments :=
  (yields_true _).bind fun _ _ => (yields_true _).bind fun _ _ => (yields_true _).bind fun _ _ =>
    .map fun _ _ => not_mem_of_mem_splitArguments

end Reader

/-! ### Records -/

/-- No argument holds a NUL. -/
def Record.NulFree : Record → Prop
  | arguments args => ∀ arg ∈ args, '\x00' ∉ arg.toList
  | _ => True

theorem Reader.record_yields : Yields Record.NulFree record := by
  refine (yields_true word).bind fun tag _ => ?_
  unfold payload
  split
  · exact arguments_yields.bind fun args hargs => .pure hargs
  · exact .map fun _ => trivial
  · exact .map fun _ => trivial
  · exact (yields_true _).bind fun _ _ => .map fun _ => trivial
  · exact .map fun _ => trivial
  · exact .map fun _ => trivial
  · exact .map fun _ => trivial
  · exact (yields_true _).bind fun _ _ => .map fun _ => trivial
  · exact .map fun _ => trivial
  · exact .throw _

/-- What holds of every record that can be read holds of all records of a file. -/
theorem decodeFrom_yields {P : Record → Prop} (hrecord : Reader.Yields P Reader.record)
    {total : ℕ} {before out : List Record} {bs : Bytes} (hbefore : ∀ r ∈ before, P r)
    (h : decodeFrom total before bs = .ok out) : ∀ r ∈ out, P r := by
  fun_induction decodeFrom total before bs with
  | case1 before =>
      cases h
      exact fun r hr => hbefore r (List.mem_reverse.mp hr)
  | case2 before bs hne r rest hr hlt ih =>
      exact ih (List.forall_mem_cons.mpr ⟨hrecord _ _ _ hr, hbefore⟩) h
  | case3 before bs hne failure hr => cases h

theorem decodeRecords_nulFree {bs : Bytes} {records : List Record}
    (h : decodeRecords bs = .ok records) : ∀ r ∈ records, r.NulFree :=
  decodeFrom_yields Reader.record_yields (fun _ hr => (List.not_mem_nil hr).elim) h

end FlowProfile
