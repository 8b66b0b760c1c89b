import FlowProfile.Proofs.Exec.Records
import FlowProfile.Proofs.Instrument.Arrays
import FlowProfile.Proofs.Record.Truncation

/-!
# A fresh profile fits its program

Whatever strategies a plain program is instrumented with, in whatever order, the records of a run
add up to a profile that can be bound to the plain program, and they can be written and read.
-/

namespace FlowProfile

/-- Each record is that of the arguments or comes from a handler. -/
theorem Machine.eq_or_exists_of_mem_records {σ : Type} {m : Machine σ} {args : List String}
    {records : List Record} (h : m.records args = .ok records) {record : Record}
    (hr : record ∈ records) :
    record = .arguments args ∨ ∃ handler ∈ m.handlers, m.counters.record handler = .ok record := by
  rcases Machine.records_eq_ok_iff.mp h with ⟨-, rfl⟩ | ⟨-, handled, hmapM, rfl⟩
  · cases hr
  · rcases List.mem_cons.mp hr with rfl | hr
    · exact .inl rfl
    · exact .inr (Outcome.exists_of_mem_mapM hmapM hr)

/-- Each record of a run is that of the arguments or comes from a strategy that was used. -/
theorem Program.Registers.of_mem_records {σ : Type} {used : Strategy → Prop} {q : Program}
    {host : Host σ} {state : σ} {limit : ℕ} {args : List String} {m : Machine σ}
    {records : List Record} (h : q.Registers used)
    (hrun : q.run host state limit args = (m, .ok records)) {record : Record}
    (hr : record ∈ records) :
    record = .arguments args ∨ ∃ s, used s ∧ m.counters.record s.handler = .ok record := by
  obtain ⟨-, -, -, hwritten⟩ := run_eq_ok_iff.mp hrun
  rcases Machine.eq_or_exists_of_mem_records hwritten hr with heq | ⟨handler, hmem, hrecord⟩
  · exact .inl heq
  · obtain ⟨s, hs, rfl⟩ := h.handlers_run hrun handler hmem
    exact .inr ⟨s, hs, hrecord⟩

/-- The strategy alone decides which kind of record is written. -/
theorem Counters.exists_of_record {cs : Counters} {s : Strategy} {record : Record}
    (h : cs.record s.handler = .ok record) : ∃ words ranks, record = s.record words ranks := by
  simp only [Counters.record, Outcome.bind_eq_ok_iff, Outcome.pure_eq_ok_iff] at h
  obtain ⟨words, -, rfl⟩ := h
  exact ⟨words.1, words.2, rfl⟩

namespace Instrumenter

variable {σ : Type} {ins : Instrumenter} {p q : Program} {host : Host σ} {state : σ} {limit : ℕ}
  {args : List String} {m : Machine σ} {records : List Record} {main : ℕ} {s : Strategy}

/-- At the end of a run the arrays of a strategy have the lengths that the plain program asks
for. -/
theorem sized_of_run (hp : p.IsOriginal) (hins : ins.instrument p = .ok q)
    (hs : s ∈ ins.strategies) (hmain : p.functionIndex? ins.entry = some main)
    (hrun : q.run host state limit args = (m, .ok records)) : s.Sized p m.counters := by
  obtain ⟨hvalid, -, hone, happly⟩ := instrument_eq_ok hmain hins
  intro pass hpass
  rw [Program.shape_run hrun]
  exact (applyAll_declares hvalid hp hone happly hs hpass).1.shape_initial

/-- A kind of counters that one strategy alone records is recorded once for each entry of the entry
function, always in the same way. -/
theorem parts_of_run {α : Type} {part : Profile → Option α} {x : α} (hp : p.IsUninstrumented)
    (hins : ins.instrument p = .ok q) (hs : s ∈ ins.strategies)
    (hmain : p.functionIndex? ins.entry = some main)
    (hrun : q.run host state limit args = (m, .ok records)) {own : Record}
    (hown : m.counters.record s.handler = .ok own) (hpart : part own.profile = some x)
    (hargs : ∀ args, part (Record.arguments args).profile = none)
    (hother : ∀ t ∈ ins.strategies, t ≠ s → ∀ words ranks,
      part (Strategy.record words ranks t).profile = none) :
    ((records.map Record.profile).map part).reduceOption =
      List.replicate (activations (q.visits host state limit) main) x := by
  obtain ⟨-, ⟨f, hf, hdef⟩, -, happly⟩ := instrument_eq_ok hmain hins
  have hblocks : p.blockCounts.length = p.functions.length := List.length_map ..
  obtain ⟨hgrows, -, -⟩ := strategies_grow hblocks p.copies_true (fun _ _ => trivial) happly
  have hregisters := hgrows.registers hp
  obtain ⟨-, -, -, hwritten⟩ := Program.run_eq_ok_iff.mp hrun
  rw [List.reduceOption, List.filterMap_map, List.filterMap_map,
    ← hregisters.countP_handlers (applyAll_registered hblocks hp.1 hs happly) hgrows.edited hrun hf
      hdef]
  refine Machine.filterMap_records (part ·.profile) (· = s) hargs
    (fun handler hmem record hrecord => ?_) hwritten
  obtain ⟨t, hused, rfl⟩ := hregisters.handlers_run hrun handler hmem
  by_cases ht : t = s
  · subst ht
    obtain rfl := Except.ok.inj (hrecord.symm.trans hown)
    simpa [Strategy.handler] using hpart
  · obtain ⟨words, ranks, rfl⟩ := Counters.exists_of_record hrecord
    simpa [Strategy.handler, ht] using hother t hused ht words ranks

/-- Each record of a run but that of the arguments has the length that the plain program asks for,
and can be written. -/
theorem record_fits (hp : p.IsUninstrumented) (hins : ins.instrument p = .ok q)
    (hrun : q.run host state limit args = (m, .ok records)) {record : Record}
    (hr : record ∈ records) :
    record.Fits p ∧ (record = .arguments args ∨ record.IsEncodable) := by
  obtain ⟨-, used, hgrows, hdeclared⟩ := instrument_grows hp.1 hins
  rcases (hgrows.registers hp).of_mem_records hrun hr with rfl | ⟨s, hs, hrecord⟩
  · exact ⟨trivial, .inl rfl⟩
  · have hsized : s.Sized p m.counters := by
      intro pass hpass
      rw [Program.shape_run hrun]
      exact (hdeclared s hs pass hpass).1.shape_initial
    obtain ⟨record', hrecord', hfits⟩ := hsized.record
    obtain rfl := Except.ok.inj (hrecord.symm.trans hrecord')
    exact ⟨hfits, .inr (hsized.isEncodable (fun pass hp => (hdeclared s hs pass hp).2) hrecord)⟩

theorem exists_bound_of_run (hp : p.IsUninstrumented) (hins : ins.instrument p = .ok q)
    (hrun : q.run host state limit args = (m, .ok records)) :
    ∃ profile binding, Profile.ofRecords records = .ok profile ∧
      profile.bind p = .ok binding := by
  obtain ⟨profile, hprofile, hfits⟩ :=
    Profile.ofRecords_fits fun record hr => (record_fits hp hins hrun hr).1
  obtain ⟨binding, hbinding⟩ := Profile.bind_fits (instrument_grows hp.1 hins).1 hfits
  exact ⟨profile, binding, hprofile, hbinding⟩

/-- The records of a run add up to a profile that can be bound to the plain program, however often
the entry function was entered. They are read as they were written. -/
theorem freshProfile_fits (hp : p.IsPlain) (hins : ins.instrument p = .ok q) (host : Host σ)
    (state : σ) (limit : ℕ) (args : List String)
    (hrun : (q.run host state limit args).2 = .ok records) :
    (∃ profile binding, Profile.ofRecords records = .ok profile ∧ profile.bind p = .ok binding) ∧
      ((∀ arg ∈ args, '\x00' ∉ arg.toList) →
        (args.map fun arg => arg.utf8ByteSize + 1).sum < 2 ^ 32 →
        ∃ bytes, encodeRecords records = .ok bytes ∧ decodeRecords bytes = .ok records) := by
  have hm : q.run host state limit args = (_, .ok records) := Prod.ext rfl hrun
  constructor
  · exact exists_bound_of_run hp.isUninstrumented hins hm
  · intro hargs hlen
    have hencodable : ∀ record ∈ records, record.IsEncodable := by
      intro record hr
      rcases (record_fits hp.isUninstrumented hins hm hr).2 with rfl | hencodable
      · exact ⟨hargs, hlen⟩
      · exact hencodable
    obtain ⟨bytes, hbytes⟩ := (exists_encodeRecords_iff records).mpr hencodable
    exact ⟨bytes, hbytes, decodeRecords_whole hbytes⟩

end Instrumenter

/-- The entry function is entered twice, so that every strategy is registered twice. -/
def sendTwice : Program where
  functions := [
    ⟨"main", [⟨"entry", [.call (.direct "send") [], .call (.direct "send") []], .ret⟩]⟩,
    ⟨"send", [⟨"entry", [.call (.direct "MPI_Send") [.const 0, .const 2, .const 8]], .ret⟩]⟩]
  globals := []

theorem freshProfile_sendTwice :
    ∃ q records profile binding,
      Instrumenter.instrument ⟨[.comm, .edgeRank, .weightedBlock], "send", []⟩ sendTwice = .ok q ∧
      (q.run MpiProcess.host (.start 0 1 .zero) 100 ["twice", ""]).2 = .ok records ∧
      records.length = 7 ∧
      Profile.ofRecords records = .ok profile ∧ profile.bind sendTwice = .ok binding ∧
      ∃ bytes, encodeRecords records = .ok bytes ∧ decodeRecords bytes = .ok records := by
  have hins : Instrumenter.instrument ⟨[.comm, .edgeRank, .weightedBlock], "send", []⟩ sendTwice =
      .ok _ := rfl
  obtain ⟨⟨profile, binding, hprofile, hbinding⟩, hbytes⟩ :=
    Instrumenter.freshProfile_fits (by decide) hins MpiProcess.host (.start 0 1 .zero) 100
      ["twice", ""] rfl
  exact ⟨_, _, profile, binding, hins, rfl, rfl, hprofile, hbinding,
    hbytes (by decide) (by decide)⟩

end FlowProfile
