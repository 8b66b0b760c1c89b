import FlowProfile.Proofs.Exec.Quiet
import FlowProfile.Proofs.Exec.Registrations
import FlowProfile.Proofs.Profile.Fits
import FlowProfile.Proofs.Record.RoundTrip

/-!
# What the handlers of a run write

Arrays of the declared types and lengths give a record for every handler, and the record
fits the plain program. The words of a record of edges are the counts in their slots.
-/

namespace FlowProfile

theorem CommCounter.length_ofWords {n : ℕ} {words : List UInt64} (h : words.length = 2 * n) :
    (ofWords words).length = n := by
  induction n generalizing words with
  | zero =>
      obtain rfl := List.length_eq_zero_iff.mp h
      rfl
  | succ n ih =>
      match words with
      | calls :: bytes :: rest =>
          rw [ofWords, List.length_cons, ih]
          simp only [List.length_cons] at h
          omega
      | [] => simp at h
      | [_] =>
          simp only [List.length_singleton] at h
          omega

/-! ### Words of one array -/

/-- What the array of a pass adds to the words and to the ranks of a handler. -/
theorem Counters.words_cons {cs : Counters} {entryPoint : String} {pass : Pass} {len : ℕ}
    (h : cs.shape pass.counters = some (pass.type, len)) {names : List String}
    {words : List UInt64} {ranks : List Int32}
    (hrest : cs.words entryPoint names = .ok (words, ranks)) :
    ∃ own ownRanks, cs.words entryPoint (pass.counters :: names) =
        .ok (own ++ words, ownRanks ++ ranks) ∧
      own.length = (if pass.type = .i32 then 0 else len) ∧
      ownRanks.length = (if pass.type = .i32 then len else 0) ∧
      (pass.type = .u64 → ∀ k, k < len → ∃ c, own[k]? = some c ∧
        c.toNat = cs.count pass.counters k) ∧
      (pass.type = .f64 → ∀ k, k < len → ∃ x, own[k]? = some x.bits ∧
        cs.f64Slot pass.counters k = .ok x) := by
  obtain ⟨array, harray, hshape⟩ := Option.map_eq_some_iff.mp h
  simp only [Counters.words, harray, hrest]
  cases array with
  | u64 slots =>
      obtain ⟨htype, rfl⟩ := Prod.mk.inj hshape
      refine ⟨slots.toList, [], rfl, by simp [← htype], by simp [← htype], ?_, by simp [← htype]⟩
      intro _ k hk
      refine ⟨slots[k], by simp [hk], ?_⟩
      simp [count, harray, CounterArray.count, hk]
  | i32 slots =>
      obtain ⟨htype, rfl⟩ := Prod.mk.inj hshape
      exact ⟨[], slots.toList, rfl, by simp [← htype], by simp [← htype], by simp [← htype],
        by simp [← htype]⟩
  | f64 slots =>
      obtain ⟨htype, rfl⟩ := Prod.mk.inj hshape
      refine ⟨slots.toList.map Binary64.bits, [], rfl, by simp [← htype], by simp [← htype],
        by simp [← htype], fun _ k hk => ⟨slots[k], by simp [hk], ?_⟩⟩
      exact f64Slot_eq_ok_iff.mpr ⟨slots, harray, Array.getElem?_eq_getElem hk⟩

/-! ### Records -/

/-- Arrays of any length can be written, if they have the types of their passes. -/
theorem Counters.exists_words {cs : Counters} (entryPoint : String) {passes : List Pass}
    (h : ∀ pass ∈ passes, ∃ len, cs.shape pass.counters = some (pass.type, len)) :
    ∃ words ranks, cs.words entryPoint (passes.map Pass.counters) = .ok (words, ranks) := by
  induction passes with
  | nil => exact ⟨[], [], rfl⟩
  | cons pass passes ih =>
      obtain ⟨words, ranks, hwords⟩ := ih fun pass' hmem => h pass' (List.mem_cons_of_mem pass hmem)
      obtain ⟨len, hshape⟩ := h pass List.mem_cons_self
      obtain ⟨own, ownRanks, hcons, -, -⟩ := words_cons hshape hwords
      exact ⟨own ++ words, ownRanks ++ ranks, hcons⟩

/-- Ranks are kept apart from all other words. -/
theorem Counters.length_words {cs : Counters} {entryPoint : String} {passes : List Pass}
    {len : Pass → ℕ} (h : ∀ pass ∈ passes, cs.shape pass.counters = some (pass.type, len pass))
    {words : List UInt64} {ranks : List Int32}
    (hwords : cs.words entryPoint (passes.map Pass.counters) = .ok (words, ranks)) :
    words.length = ((passes.filter (·.type ≠ .i32)).map len).sum ∧
      ranks.length = ((passes.filter (·.type = .i32)).map len).sum := by
  induction passes generalizing words ranks with
  | nil =>
      cases hwords
      exact ⟨rfl, rfl⟩
  | cons pass passes ih =>
      rw [List.forall_mem_cons] at h
      obtain ⟨restWords, restRanks, hrest⟩ :=
        exists_words entryPoint fun pass' hmem => ⟨_, h.2 pass' hmem⟩
      obtain ⟨own, ownRanks, hcons, hown, hranks, -⟩ := words_cons h.1 hrest
      rw [List.map_cons, hcons] at hwords
      cases hwords
      obtain ⟨hrestWords, hrestRanks⟩ := ih h.2 hrest
      by_cases htype : pass.type = .i32 <;>
        simp_all [List.length_append]

theorem Counters.record_handler {cs : Counters} {s : Strategy} {words : List UInt64}
    {ranks : List Int32}
    (h : cs.words s.entryPoint (s.passes.map Pass.counters) = .ok (words, ranks)) :
    cs.record s.handler = .ok (s.record words ranks) := by
  unfold Counters.record
  change (cs.words s.entryPoint (s.passes.map Pass.counters) >>= fun x => _) = _
  rw [h]
  rfl

/-- The arrays of a strategy have the lengths that its passes need for `p`. -/
def Strategy.Sized (p : Program) (cs : Counters) (s : Strategy) : Prop :=
  ∀ pass ∈ s.passes, cs.shape pass.counters = some (pass.type, pass.size p.blockCounts p)

theorem Counters.words_ranks (cs : Counters) (entryPoint : String) {passes : List Pass}
    (h : ∀ pass ∈ passes, pass.type = .i32 ∧
      ∃ len, cs.shape pass.counters = some (pass.type, len)) :
    ∃ ranks, cs.words entryPoint (passes.map Pass.counters) = .ok ([], ranks) := by
  induction passes with
  | nil => exact ⟨[], rfl⟩
  | cons pass passes ih =>
      obtain ⟨ranks, hranks⟩ := ih fun pass' hmem => h pass' (List.mem_cons_of_mem pass hmem)
      obtain ⟨htype, len, hshape⟩ := h pass List.mem_cons_self
      obtain ⟨own, ownRanks, hwords, hlen, -⟩ := words_cons hshape hranks
      obtain rfl : own = [] := by simpa [htype] using hlen
      exact ⟨ownRanks ++ ranks, hwords⟩

namespace Strategy.Sized

variable {p : Program} {cs : Counters} {s : Strategy}

/-- The words of a handler are those of the first array. Only ranks follow it. -/
theorem words (h : s.Sized p cs) {pass : Pass} {rest : List Pass}
    (hpasses : s.passes = pass :: rest) (hrest : ∀ pass' ∈ rest, pass'.type = .i32) :
    ∃ words ranks, cs.words s.entryPoint (s.passes.map Pass.counters) = .ok (words, ranks) ∧
      words.length = (if pass.type = .i32 then 0 else pass.size p.blockCounts p) ∧
      (pass.type = .u64 → ∀ k, k < pass.size p.blockCounts p →
        ∃ c, words[k]? = some c ∧ c.toNat = cs.count pass.counters k) ∧
      (pass.type = .f64 → ∀ k, k < pass.size p.blockCounts p →
        ∃ x, words[k]? = some x.bits ∧ cs.f64Slot pass.counters k = .ok x) := by
  have hmem : ∀ pass' ∈ pass :: rest, pass' ∈ s.passes := by
    rw [hpasses]
    exact fun _ hp => hp
  obtain ⟨ranks, hranks⟩ := Counters.words_ranks cs s.entryPoint
    fun pass' hp => ⟨hrest pass' hp, _, h pass' (hmem pass' (List.mem_cons_of_mem pass hp))⟩
  obtain ⟨own, ownRanks, hwords, hlen, -, hcount⟩ :=
    Counters.words_cons (h pass (hmem pass List.mem_cons_self)) hranks
  rw [List.append_nil] at hwords
  rw [hpasses]
  exact ⟨own, ownRanks ++ ranks, hwords, hlen, hcount⟩

/-- The record of edges holds what the slots count. -/
theorem record_edges (hcounts : s.countsEdges) (h : s.Sized p cs) {counters : String}
    {rest : List Pass} (hpasses : s.passes = .edges counters :: rest) :
    ∃ counts ranks, cs.record s.handler = .ok (.edges counts ranks) ∧
      counts.length = p.edgeSlots ∧ ∀ k, k < p.edgeSlots →
        ∃ c, counts[k]? = some c ∧ c.toNat = cs.count counters k := by
  have hrest : ∀ pass ∈ rest, pass.type = .i32 := by
    obtain ⟨counters', rest', hpasses', hranks⟩ := passes_of_countsEdges hcounts
    obtain rfl : rest = rest' := (List.cons.inj (hpasses.symm.trans hpasses')).2
    intro pass hp
    obtain ⟨ranks, rfl⟩ := hranks pass hp
    rfl
  obtain ⟨words, ranks, hwords, hlen, hcount, -⟩ := h.words hpasses hrest
  rw [size_edges] at hlen hcount
  refine ⟨words, ranks, ?_, by simpa [Pass.type] using hlen, hcount rfl⟩
  rw [Counters.record_handler hwords]
  rcases hcounts with rfl | rfl <;> rfl

/-- The first array of a strategy that measures or weighs is written number by number. -/
theorem numbers (h : s.Sized p cs) {pass : Pass} {rest : List Pass}
    (hpasses : s.passes = pass :: rest) (hrest : ∀ pass' ∈ rest, pass'.type = .i32)
    (htype : pass.type = .f64) : ∃ words ranks,
      cs.record s.handler = .ok (s.record words ranks) ∧
      (words.map Binary64.mk).length = pass.size p.blockCounts p ∧
      ∀ k, k < pass.size p.blockCounts p → ∃ x, (words.map Binary64.mk)[k]? = some x ∧
        cs.f64Slot pass.counters k = .ok x := by
  obtain ⟨words, ranks, hwords, hlen, -, hnumbers⟩ := h.words hpasses hrest
  refine ⟨words, ranks, Counters.record_handler hwords, ?_, fun k hk => ?_⟩
  · rw [List.length_map, hlen, htype, if_neg CounterType.noConfusion]
  · obtain ⟨x, hx, hslot⟩ := hnumbers htype k hk
    exact ⟨x, by rw [List.getElem?_map, hx]; rfl, hslot⟩

/-- Every handler writes a record that fits the program. -/
theorem record (h : s.Sized p cs) :
    ∃ record, cs.record s.handler = .ok record ∧ record.Fits p := by
  by_cases hcounts : s.countsEdges
  · obtain ⟨counters, rest, hpasses, -⟩ := passes_of_countsEdges hcounts
    obtain ⟨counts, ranks, hrecord, hlen, -⟩ := h.record_edges hcounts hpasses
    exact ⟨_, hrecord, hlen⟩
  · cases s with
    | edge => exact absurd (.inl rfl) hcounts
    | edgeRank => exact absurd (.inr rfl) hcounts
    | rank =>
        obtain ⟨words, ranks, hwords, -, -⟩ := h.words rfl (by simp)
        exact ⟨_, Counters.record_handler hwords, trivial⟩
    | comm =>
        obtain ⟨words, ranks, hwords, hlen, -⟩ := h.words rfl (by simp)
        exact ⟨_, Counters.record_handler hwords, CommCounter.length_ofWords hlen⟩
    | time =>
        obtain ⟨words, ranks, hwords, hlen, -⟩ := h.words rfl (by simp [Pass.type])
        exact ⟨_, Counters.record_handler hwords, (List.length_map _).trans hlen⟩
    | weightedBlock =>
        obtain ⟨words, ranks, hwords, hlen, -⟩ := h.words rfl (by simp)
        exact ⟨_, Counters.record_handler hwords, (List.length_map _).trans hlen⟩

/-- A record can be written if the arrays of the strategy fit words of 32 bits. -/
theorem isEncodable (h : s.Sized p cs)
    (hlen : ∀ pass ∈ s.passes, pass.size p.blockCounts p < 2 ^ 32) {record : Record}
    (hrecord : cs.record s.handler = .ok record) : record.IsEncodable := by
  obtain ⟨words, ranks, hwords⟩ := Counters.exists_words s.entryPoint fun pass hp => ⟨_, h pass hp⟩
  obtain ⟨hwordsLen, hranksLen⟩ := Counters.length_words h hwords
  rw [Counters.record_handler hwords] at hrecord
  obtain rfl := Except.ok.inj hrecord
  cases s with
  | comm =>
      have hpayloads : 2 * p.payloadSites.length < 2 ^ 32 := hlen _ List.mem_cons_self
      have hcounters : (CommCounter.ofWords words).length = p.payloadSites.length :=
        CommCounter.length_ofWords hwordsLen
      show (CommCounter.ofWords words).length < 2 ^ 32
      omega
  | _ =>
      simp_all [Strategy.passes, Pass.type, Strategy.record, Record.IsEncodable, Pass.size]

end Strategy.Sized

/-! ### All handlers -/

/-- Nothing is written without a handler. With one the record of the arguments comes first. -/
theorem Machine.records_eq_ok_iff {σ : Type} {m : Machine σ} {args : List String}
    {records : List Record} :
    m.records args = .ok records ↔ (m.handlers = [] ∧ records = []) ∨
      (m.handlers ≠ [] ∧ ∃ handled, m.handlers.mapM m.counters.record = .ok handled ∧
        records = .arguments args :: handled) := by
  unfold Machine.records
  by_cases h : m.handlers = []
  · simp [h, eq_comm]
  · simp only [List.isEmpty_iff, h, if_false, false_and, false_or, ne_eq, not_false_eq_true,
      true_and, Outcome.bind_eq_ok_iff, Outcome.pure_eq_ok_iff]
    simp only [eq_comm]

theorem filterMap_eq_replicate {α β : Type} (keeps : α → Bool) (x : β) (xs : List α) :
    xs.filterMap (fun a => if keeps a then some x else none) =
      List.replicate (xs.countP keeps) x := by
  induction xs with
  | nil => rfl
  | cons a xs ih => cases h : keeps a <;> simp [h, ih, List.replicate_succ]

/-- What only the records of some strategies have is written once for each of their handlers. -/
theorem Machine.filterMap_records {σ α : Type} {m : Machine σ} {args : List String}
    {records : List Record} (read : Record → Option α) (keeps : Strategy → Bool) {x : α}
    (hargs : ∀ args, read (.arguments args) = none)
    (h : ∀ handler ∈ m.handlers, ∀ record, m.counters.record handler = .ok record →
      read record = if keeps handler.1 then some x else none)
    (hrecords : m.records args = .ok records) :
    records.filterMap read = List.replicate (m.handlers.countP (keeps ·.1)) x := by
  rcases records_eq_ok_iff.mp hrecords with ⟨hempty, rfl⟩ | ⟨-, handled, hhandled, rfl⟩
  · rw [hempty]
    rfl
  · rw [← filterMap_eq_replicate, List.filterMap_cons_none (hargs args)]
    exact Outcome.filterMap_of_mapM hhandled h

/-- All handlers can write their records if the arrays of the strategies are declared. -/
theorem Machine.Ready.exists_records {σ : Type} {used : Strategy → Prop} {q : Program}
    {m : Machine σ} {steps : ℕ} (hready : m.Ready used q steps)
    (hdeclares : ∀ s, used s → ∀ pass ∈ s.passes, ∃ len, q.Declares (pass.global len))
    (args : List String) : ∃ records, m.records args = .ok records := by
  have hall : ∀ handler ∈ m.handlers, ∃ record, m.counters.record handler = .ok record := by
    intro handler hmem
    obtain ⟨s, hused, rfl⟩ := hready.handlers handler hmem
    have hshapes : ∀ pass ∈ s.passes, ∃ len,
        m.counters.shape pass.counters = some (pass.type, len) := by
      intro pass hpass
      obtain ⟨len, hdecl⟩ := hdeclares s hused pass hpass
      exact ⟨len, hready.shape_pass hdecl⟩
    obtain ⟨words, ranks, hwords⟩ := Counters.exists_words s.entryPoint hshapes
    exact ⟨_, Counters.record_handler hwords⟩
  obtain ⟨records, hrecords⟩ := Outcome.exists_mapM hall
  unfold Machine.records
  split
  · exact ⟨[], rfl⟩
  · exact ⟨_, Outcome.bind_eq_ok_iff.mpr ⟨records, hrecords, rfl⟩⟩

end FlowProfile
