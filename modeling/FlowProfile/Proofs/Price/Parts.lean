import FlowProfile.Proofs.Price.Ignoring
import FlowProfile.Proofs.Price.Totals

/-!
# The parts of a report

Each kind of source writes a part of the report that no other kind reads or writes. So a report is
what the first source of each kind comes to alone, whatever the order in which the kinds come and
whatever follows them, and there is none exactly if one of those sources comes to none.
-/

namespace FlowProfile

theorem Outcome.mapM_option_eq_ok_iff {α β : Type} {f : α → Outcome β} {x : Option α}
    {y : Option β} : x.mapM f = .ok y ↔
      x = none ∧ y = none ∨ ∃ a b, x = some a ∧ f a = .ok b ∧ y = some b := by
  cases x with
  | none =>
      rw [Option.mapM_none, pure_eq_ok_iff]
      simp [eq_comm]
  | some a =>
      rw [Option.mapM_some, functorMap_eq_ok_iff]
      simp [eq_comm]

/-- The only failure is a count that is too large. -/
def Outcome.OnlyOverflows {α : Type} (x : Outcome α) : Prop :=
  ∀ failure, x = .error failure → failure = .fault .overflow

namespace Outcome.OnlyOverflows

variable {α β : Type}

theorem ok (a : α) : OnlyOverflows (.ok a) := nofun

theorem total (n : ℕ) : OnlyOverflows (Count.total n) := by
  unfold Count.total
  split
  case isTrue => exact ok _
  case isFalse => exact fun _ h => (Except.error.inj h).symm

theorem bind {x : Outcome α} {k : α → Outcome β} (hx : x.OnlyOverflows)
    (hk : ∀ a, (k a).OnlyOverflows) : (x >>= k).OnlyOverflows := by
  intro failure h
  rcases bind_eq_error_iff.mp h with h | ⟨a, -, h⟩
  · exact hx failure h
  · exact hk a failure h

theorem foldlM {step : β → α → Outcome β} (h : ∀ c x, (step c x).OnlyOverflows) (xs : List α)
    (c : β) : (xs.foldlM step c).OnlyOverflows := by
  intro failure herror
  obtain ⟨_, x, _, c, -, -, hx⟩ := foldlM_eq_error herror
  exact h c x failure hx

/-- Outcomes that agree in their results agree in whether there is one. -/
theorem ext {x y : Outcome α} (hx : x.OnlyOverflows) (hy : y.OnlyOverflows)
    (h : ∀ a, x = .ok a ↔ y = .ok a) : x = y := by
  cases x with
  | ok a => exact ((h a).mp rfl).symm
  | error failure =>
      cases y with
      | ok a => cases (h a).mpr rfl
      | error failure' => rw [hx failure rfl, hy failure' rfl]

end Outcome.OnlyOverflows

namespace Price

/-- All that one kind of source writes. The rest is as in an empty report. -/
def Report.part (r : Report) : Kind → Report
  | .block => { empty false with
      blockNs := r.blockNs
      instructions := r.instructions
      breakdown := r.breakdown.map fun d => { d with calls := [] } }
  | .mpi => { r with
      blockNs := 0
      callNs := 0
      instructions := 0
      breakdown := r.breakdown.map fun d => { Breakdown.empty with calls := d.calls } }
  | .libcall => { empty false with
      callNs := r.callNs
      breakdown := r.breakdown.map fun _ => Breakdown.empty }

@[simp] theorem Report.part_empty (verbose : Bool) (kind : Kind) :
    (empty verbose).part kind = empty verbose := by
  cases verbose <;> cases kind <;> rfl

/-- A report has no other parts. -/
theorem Report.ext_part {r r' : Report} (h : ∀ kind, r.part kind = r'.part kind) : r = r' := by
  obtain ⟨_, _, _, _, _, _, _, _, _, breakdown⟩ := r
  obtain ⟨_, _, _, _, _, _, _, _, _, breakdown'⟩ := r'
  have hblock := h .block
  have hmpi := h .mpi
  have hlibcall := h .libcall
  simp only [part, empty, mk.injEq] at hblock hmpi hlibcall
  have hbreakdown : breakdown = breakdown' := by
    rcases breakdown with - | ⟨_, _, _⟩ <;> rcases breakdown' with - | ⟨_, _, _⟩ <;> simp_all
  simp_all

namespace Analyzer

variable {a : Analyzer} {b : Binding} {r r' : Report} {failure : Failure}

/-! ### One source -/

theorem priceBlocks_eq_ok_iff {costs : InstructionCosts} :
    a.priceBlocks b costs r = .ok r' ↔ ∃ instructions breakdown,
      (a.blocks b).foldlM addInstructions r.instructions = .ok instructions ∧
      (r.breakdown = none ∧ breakdown = none ∨ ∃ d opcodes, r.breakdown = some d ∧
        (a.blocks b).foldlM (addOpcodes costs) d.opcodes = .ok opcodes ∧
        breakdown = some { d with
          opcodes := opcodes
          functions := d.functions ++ (a.counted b).map fun f => (f.name, functionNs costs f) }) ∧
      r' = { r with
        instructions := instructions
        blockNs := ((a.counted b).map fun f => (f.name, functionNs costs f)).foldl
          (fun ns time => ns + time.2) r.blockNs
        breakdown := breakdown } := by
  simp only [priceBlocks, blocks, Outcome.bind_eq_ok_iff, Outcome.pure_eq_ok_iff,
    Outcome.mapM_option_eq_ok_iff]
  constructor
  · rintro ⟨instructions, hsum, breakdown, hbreakdown, rfl⟩
    refine ⟨instructions, breakdown, hsum, hbreakdown.imp id ?_, rfl⟩
    rintro ⟨d, _, hd, ⟨opcodes, hopcodes, rfl⟩, rfl⟩
    exact ⟨d, opcodes, hd, hopcodes, rfl⟩
  · rintro ⟨instructions, breakdown, hsum, hbreakdown, rfl⟩
    refine ⟨instructions, hsum, breakdown, hbreakdown.imp id ?_, rfl⟩
    rintro ⟨d, opcodes, hd, hopcodes, rfl⟩
    exact ⟨d, _, hd, ⟨opcodes, hopcodes, rfl⟩, rfl⟩

theorem priceBlocks_part (costs : InstructionCosts) :
    a.priceBlocks b costs (r.part .block) =
      (a.priceBlocks b costs r).map (Report.part · .block) := by
  unfold priceBlocks
  cases hsum : ((a.counted b).flatMap (·.blocks)).foldlM addInstructions r.instructions with
  | error failure =>
      simp only [Report.part, hsum]
      rfl
  | ok instructions =>
      simp only [Report.part, hsum]
      cases r.breakdown with
      | none => rfl
      | some d =>
          simp only [Option.map_some, Option.mapM_some]
          cases ((a.counted b).flatMap (·.blocks)).foldlM (addOpcodes costs) d.opcodes <;> rfl

theorem priceCalls_part (costs : CommCosts) :
    a.priceCalls b costs (r.part .mpi) = (a.priceCalls b costs r).map (Report.part · .mpi) := by
  unfold priceCalls
  simp only [Report.part]
  cases (b.trapped.filter fun call => !a.isIgnored b call.site).foldlM
      (fun n call => Count.add n (b.blockFrequency call)) r.mpiCalls with
  | error failure => rfl
  | ok mpiCalls => cases r.breakdown <;> rfl

/-- A source reads its own part alone. -/
theorem price_part (s : Source) :
    a.price b (r.part s.kind) s = (a.price b r s).map (Report.part · s.kind) := by
  cases s with
  | block costs => exact priceBlocks_part costs
  | mpi costs => exact priceCalls_part costs
  | libcall costs =>
      cases hr : r.breakdown <;>
        simp [price, priceLibrary, Report.part, Source.kind, hr, Except.map]

/-- A source leaves the other parts as they are. -/
theorem part_of_price {s : Source} (h : a.price b r s = .ok r') {kind : Kind}
    (hkind : s.kind ≠ kind) : r'.part kind = r.part kind := by
  cases s with
  | block costs =>
      obtain ⟨instructions, breakdown, -, hbreakdown, rfl⟩ := priceBlocks_eq_ok_iff.mp h
      cases kind with
      | block => contradiction
      | mpi | libcall =>
          rcases hbreakdown with ⟨hr, rfl⟩ | ⟨d, opcodes, hr, -, rfl⟩ <;> simp [Report.part, hr]
  | mpi costs =>
      simp only [price, priceCalls, Outcome.bind_eq_ok_iff, Outcome.pure_eq_ok_iff] at h
      obtain ⟨mpiCalls, -, rfl⟩ := h
      cases kind with
      | mpi => contradiction
      | block | libcall => cases hr : r.breakdown <;> simp [Report.part, hr]
  | libcall costs =>
      obtain rfl := Except.ok.inj h
      cases kind with
      | libcall => contradiction
      | block | mpi => rfl

theorem onlyOverflows_revise {α : Type} {name : String} {change : Option α → Outcome α}
    (h : ∀ old, (change old).OnlyOverflows) (entries : List (String × α)) :
    (revise name change entries).OnlyOverflows := by
  induction entries with
  | nil => exact (h none).bind fun _ => .ok _
  | cons entry entries ih =>
      unfold revise
      split
      · exact (h none).bind fun _ => .ok _
      · split
        · exact (h _).bind fun _ => .ok _
        · exact ih.bind fun _ => .ok _

theorem onlyOverflows_addInstructions (n : UInt64) (entry : Block × UInt64) :
    (addInstructions n entry).OnlyOverflows := by
  simp only [addInstructions, Count.mul_eq_total, Count.add_eq_total]
  exact .bind (.total _) fun _ => .total _

theorem onlyOverflows_addOpcodes (costs : InstructionCosts) (shares : List (String × OpcodeShare))
    (entry : Block × UInt64) : (addOpcodes costs shares entry).OnlyOverflows := by
  refine .foldlM (fun shares opcode => onlyOverflows_revise (fun old => ?_) shares) _ shares
  simp only [Count.add_eq_total]
  exact .bind (.total _) fun _ => .ok _

/-- Only sums of counts are a reason for no report. -/
theorem onlyOverflows_price (s : Source) (r : Report) : (a.price b r s).OnlyOverflows := by
  cases s with
  | block costs =>
      refine .bind (.foldlM onlyOverflows_addInstructions _ _) fun _ => .bind ?_ fun _ => .ok _
      cases r.breakdown with
      | none => exact .ok _
      | some d =>
          refine .bind (.bind ?_ fun _ => .ok _) fun _ => .ok _
          exact .foldlM (onlyOverflows_addOpcodes costs) _ _
  | mpi costs =>
      refine .bind (.foldlM (fun n call => ?_) _ _) fun _ => .ok _
      rw [Count.add_eq_total]
      exact .total _
  | libcall costs => exact .ok _

/-! ### All sources -/

/-- What the first source of a kind adds to a report. -/
def priceFirst (a : Analyzer) (b : Binding) (sources : List Source) (kind : Kind) (r : Report) :
    Outcome Report :=
  (sources.find? (·.kind = kind)).elim (.ok r) (a.price b r)

theorem priceFirst_cons_of_kind {s : Source} (sources : List Source) :
    a.priceFirst b (s :: sources) s.kind r = a.price b r s := by
  simp [priceFirst]

theorem priceFirst_cons_of_ne {s : Source} {kind : Kind} (h : s.kind ≠ kind)
    (sources : List Source) :
    a.priceFirst b (s :: sources) kind r = a.priceFirst b sources kind r := by
  simp [priceFirst, h]

theorem priceFirst_of_notMem {sources : List Source} {kind : Kind}
    (h : kind ∉ sources.map Source.kind) : a.priceFirst b sources kind r = .ok r := by
  have hnone : sources.find? (·.kind = kind) = none := by
    simpa using h
  rw [priceFirst, hnone]
  rfl

/-- Sources of different kinds come to what each of them comes to alone. -/
theorem foldlM_eq_ok_iff {sources : List Source} (hkinds : (sources.map Source.kind).Nodup) :
    sources.foldlM (a.price b) r = .ok r' ↔
      ∀ kind, a.priceFirst b sources kind (r.part kind) = .ok (r'.part kind) := by
  induction sources generalizing r with
  | nil =>
      constructor
      · intro h
        obtain rfl : r = r' := by simpa using h
        exact fun kind => rfl
      · intro h
        rw [Report.ext_part fun kind => Except.ok.inj (h kind)]
        rfl
  | cons s sources ih =>
      obtain ⟨hs, hkinds⟩ := List.nodup_cons.mp hkinds
      simp only [List.foldlM_cons, Outcome.bind_eq_ok_iff, ih hkinds]
      constructor
      · rintro ⟨mid, hmid, hrest⟩ kind
        by_cases hkind : s.kind = kind
        · subst hkind
          rw [priceFirst_cons_of_kind, price_part, hmid]
          exact (priceFirst_of_notMem hs).symm.trans (hrest s.kind)
        · rw [priceFirst_cons_of_ne hkind, ← part_of_price hmid hkind]
          exact hrest kind
      · intro h
        have hown := h s.kind
        rw [priceFirst_cons_of_kind, price_part, Outcome.map_eq_ok_iff] at hown
        obtain ⟨mid, hmid, hpart⟩ := hown
        refine ⟨mid, hmid, fun kind => ?_⟩
        by_cases hkind : s.kind = kind
        · subst hkind
          rw [priceFirst_of_notMem hs, hpart]
        · rw [part_of_price hmid hkind, ← priceFirst_cons_of_ne hkind]
          exact h kind

/-- To leave out later sources changes no first one. -/
theorem find?_firsts {kind : Kind} (sources : List Source) {seen : List Kind} (h : kind ∉ seen) :
    (firsts seen sources).find? (·.kind = kind) = sources.find? (·.kind = kind) := by
  induction sources generalizing seen with
  | nil => rfl
  | cons s sources ih =>
      rw [firsts]
      by_cases hkind : s.kind = kind
      · rw [if_neg (hkind ▸ h)]
        simp [hkind]
      · split
        case isTrue => simpa [hkind] using ih h
        case isFalse =>
            have hcons : kind ∉ s.kind :: seen := by simp [Ne.symm hkind, h]
            simpa [hkind] using ih hcons

/-- A report is what the first source of each kind comes to alone. -/
theorem run_eq_ok_iff : a.run b = .ok r ↔
    ∀ kind, a.priceFirst b a.sources kind (.empty a.verbose) = .ok (r.part kind) := by
  rw [run, foldlM_eq_ok_iff (nodup_kinds_firsts _ _)]
  refine forall_congr' fun kind => ?_
  rw [Report.part_empty, priceFirst, priceFirst, find?_firsts _ List.not_mem_nil]

theorem onlyOverflows_run (a : Analyzer) (b : Binding) : (a.run b).OnlyOverflows :=
  .foldlM (fun r s => onlyOverflows_price s r) _ _

/-- The first sources of each kind decide. -/
theorem run_congr {sources : List Source}
    (h : ∀ kind, sources.find? (·.kind = kind) = a.sources.find? (·.kind = kind)) :
    ({ a with sources := sources }).run b = a.run b := by
  refine (onlyOverflows_run _ b).ext (onlyOverflows_run a b) fun r => ?_
  rw [run_eq_ok_iff, run_eq_ok_iff]
  simp only [priceFirst, h]
  rfl

theorem find?_eraseDupsBy {kind : Kind} (sources : List Source) :
    (sources.eraseDupsBy fun s t => s.kind == t.kind).find? (·.kind = kind) =
      sources.find? (·.kind = kind) := by
  have hloop : ∀ kept : List Source,
      (List.eraseDupsBy.loop (fun s t => s.kind == t.kind) sources kept).find? (·.kind = kind) =
        (kept.reverse ++ sources).find? (·.kind = kind) := by
    induction sources with
    | nil => simp [List.eraseDupsBy.loop]
    | cons s sources ih =>
        intro kept
        rw [List.eraseDupsBy.loop]
        split
        · next hkept =>
          obtain ⟨t, ht, hsame⟩ := List.any_eq_true.mp hkept
          rw [ih, List.find?_append, List.find?_append]
          by_cases hkind : s.kind = kind
          · have hsome : (kept.reverse.find? (·.kind = kind)).isSome := by
              refine List.find?_isSome.mpr ⟨t, List.mem_reverse.mpr ht, ?_⟩
              rw [← beq_iff_eq.mp hsame, hkind]
              exact decide_eq_true rfl
            rw [Option.or_of_isSome hsome, Option.or_of_isSome hsome]
          · rw [List.find?_cons_of_neg (by simpa using hkind)]
        · rw [ih, List.reverse_cons, List.append_assoc, List.singleton_append]
  exact hloop []

/-- Sources of one kind keep their order. -/
def Reorders (xs ys : List Source) : Prop :=
  ∀ kind, ys.filter (·.kind = kind) = xs.filter (·.kind = kind)

/-- Later sources of a kind make no difference, nor does the order of sources of different kinds. -/
theorem run_reordered (a : Analyzer) (b : Binding) :
    ({ a with sources := a.sources.eraseDupsBy fun s t => s.kind == t.kind }).run b = a.run b ∧
    ∀ sources, Reorders a.sources sources → ({ a with sources := sources }).run b = a.run b := by
  refine ⟨run_congr fun kind => find?_eraseDupsBy a.sources, fun sources h => ?_⟩
  refine run_congr fun kind => ?_
  rw [← List.head?_filter, h kind, List.head?_filter]

end Analyzer

/-! ### Two prices for blocks -/

/-- Communication is priced between the two. -/
def blocksTwice : Analyzer :=
  ⟨[.block ⟨.empty, 1⟩, .mpi ⟨.default, .empty⟩, .block ⟨.empty, 2⟩], [], true⟩

/-- The other price does not count, and communication can come first. -/
theorem run_reordered_blocksTwice :
    ∃ b, helperCalled.bind sendAndCall = .ok b ∧
      Analyzer.Reorders blocksTwice.sources
        [.mpi ⟨.default, .empty⟩, .block ⟨.empty, 1⟩, .block ⟨.empty, 2⟩] ∧
      Analyzer.run ⟨[.mpi ⟨.default, .empty⟩, .block ⟨.empty, 1⟩, .block ⟨.empty, 2⟩], [], true⟩ b =
        blocksTwice.run b ∧
      ∃ r, blocksTwice.run b = .ok r ∧ r.instructions = 5 ∧ r.mpiCalls = 2 := by
  have hreorders : Analyzer.Reorders blocksTwice.sources
      [.mpi ⟨.default, .empty⟩, .block ⟨.empty, 1⟩, .block ⟨.empty, 2⟩] := by
    intro kind
    cases kind <;> simp [blocksTwice, Source.kind]
  have hb : helperCalled.bind sendAndCall = .ok _ := rfl
  exact ⟨_, hb, hreorders, (Analyzer.run_reordered blocksTwice _).2 _ hreorders, _, rfl, rfl, rfl⟩

end Price

end FlowProfile
