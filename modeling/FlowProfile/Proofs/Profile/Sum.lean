import FlowProfile.Profile.Basic
import FlowProfile.Proofs.Exec.Instruction
import Mathlib.Data.List.Perm.Basic
import Mathlib.Data.List.ReduceOption
import Mathlib.Data.List.Sort

/-!
# Sums of profiles

Merging two profiles adds them up if their counters are equally many, and so does adding a
record. The sum itself is total and associative, and but for the numbers in binary64 and the
order of the executions it is commutative. So only lengths decide whether profiles can be merged.
-/

namespace FlowProfile

/-! ### Counts -/

namespace Count

instance : Std.Associative saturatingAdd where
  assoc a b c := by
    apply UInt64.toNat_inj.mp
    simp only [toNat_saturatingAdd]
    omega

instance : Std.Commutative saturatingAdd where
  comm a b := by rw [saturatingAdd, saturatingAdd, Nat.add_comm]

end Count

instance : Std.Associative CommCounter.add where
  assoc a b c := by
    simp only [CommCounter.add, CommCounter.mk.injEq]
    exact ⟨Std.Associative.assoc _ _ _, Std.Associative.assoc _ _ _⟩

instance : Std.Commutative CommCounter.add where
  comm a b := by
    simp only [CommCounter.add, CommCounter.mk.injEq]
    exact ⟨Std.Commutative.comm _ _, Std.Commutative.comm _ _⟩

/-! ### Slots -/

instance zipWith_assoc {α : Type} (add : α → α → α) [Std.Associative add] :
    Std.Associative (List.zipWith add) where
  assoc xs ys zs := by
    induction xs generalizing ys zs with
    | nil => simp
    | cons x xs ih =>
        cases ys with
        | nil => simp
        | cons y ys =>
            cases zs with
            | nil => simp
            | cons z zs =>
                have hassoc : add (add x y) z = add x (add y z) := Std.Associative.assoc x y z
                simp [ih, hassoc]

instance zipWith_comm {α : Type} (add : α → α → α) [Std.Commutative add] :
    Std.Commutative (List.zipWith add) where
  comm _ _ := List.zipWith_comm_of_comm Std.Commutative.comm

/-- The counters of both profiles, slot by slot. -/
abbrev sumSlots {α : Type} (add : α → α → α) (xs ys : Option (List α)) : Option (List α) :=
  Option.merge (List.zipWith add) xs ys

/-- Counters of one kind are equally many. -/
def Fitting {α : Type} (xs ys : Option (List α)) : Prop :=
  ∀ x ∈ xs, ∀ y ∈ ys, x.length = y.length

theorem addSlots_eq_ok_iff {α : Type} {add : α → α → α} {mismatch : ℕ → ℕ → Cause}
    {existing : Option (List α)} {counts sum : List α} :
    addSlots add mismatch existing counts = .ok sum ↔
      Fitting existing (some counts) ∧ sumSlots add existing (some counts) = some sum := by
  cases existing with
  | none => simp [addSlots, Fitting]
  | some old =>
      by_cases h : old.length = counts.length <;> simp [addSlots, Fitting, h]

/-- Counters that are missing change nothing. -/
theorem foldl_merge {α : Type} (f : α → α → α) (xs : List (Option α)) (a : Option α) :
    xs.foldl (Option.merge f) a =
      xs.reduceOption.foldl (fun a x => Option.merge f a (some x)) a := by
  induction xs generalizing a with
  | nil => rfl
  | cons x xs ih =>
      cases x with
      | none => simpa [List.reduceOption_cons_of_none] using ih a
      | some x => simpa [List.reduceOption_cons_of_some] using ih (Option.merge f a (some x))

/-! ### Ranks -/

/-- The ranks of both lists. -/
def insertRanks (rs ss : List Int32) : List Int32 := ss.foldl (fun rs rank => insertRank rank rs) rs

theorem mem_insertRanks {rs ss : List Int32} {rank : Int32} :
    rank ∈ insertRanks rs ss ↔ rank ∈ rs ∨ rank ∈ ss := by
  unfold insertRanks
  induction ss generalizing rs with
  | nil => simp
  | cons s ss ih =>
      rw [List.foldl_cons, ih, mem_insertRank, List.mem_cons]
      tauto

theorem pairwise_insertRank {rank : Int32} {rs : List Int32} (h : rs.Pairwise (· < ·)) :
    (insertRank rank rs).Pairwise (· < ·) := by
  induction rs with
  | nil => exact List.pairwise_singleton _ _
  | cons r rs ih =>
      obtain ⟨hr, hrs⟩ := List.pairwise_cons.mp h
      unfold insertRank
      split
      · rename_i hlt
        refine List.pairwise_cons.mpr ⟨?_, h⟩
        intro other hmem
        rcases List.mem_cons.mp hmem with rfl | hmem
        · exact hlt
        · exact Int32.lt_trans hlt (hr other hmem)
      · split
        · exact h
        · rename_i hnlt hne
          refine List.pairwise_cons.mpr ⟨?_, ih hrs⟩
          intro other hmem
          rcases mem_insertRank.mp hmem with rfl | hmem
          · exact Int32.lt_of_le_of_ne (Int32.not_lt.mp hnlt) fun heq => hne heq.symm
          · exact hr other hmem

theorem pairwise_insertRanks {rs : List Int32} (h : rs.Pairwise (· < ·)) (ss : List Int32) :
    (insertRanks rs ss).Pairwise (· < ·) := by
  unfold insertRanks
  induction ss generalizing rs with
  | nil => exact h
  | cons s ss ih => exact ih (pairwise_insertRank h)

/-- Rising lists with the same ranks are the same. -/
theorem ranks_ext {rs ss : List Int32} (hr : rs.Pairwise (· < ·)) (hs : ss.Pairwise (· < ·))
    (h : ∀ rank, rank ∈ rs ↔ rank ∈ ss) : rs = ss := by
  have hirrefl : Std.Irrefl fun a b : Int32 => a < b := ⟨fun _ => Int32.lt_irrefl⟩
  have hantisymm : Std.Antisymm fun a b : Int32 => a < b :=
    ⟨fun _ _ hab hba => absurd (Int32.lt_trans hab hba) Int32.lt_irrefl⟩
  exact hr.eq_of_mem_iff hs h

/-! ### Profiles -/

inductive CounterKind where
  | edges
  | blocks
  | comm
  | legacyComm
  | seconds
  | weights
deriving DecidableEq, Repr

namespace Profile

/-- The number of counters of a kind, if the profile has that kind. -/
def size? (p : Profile) : CounterKind → Option ℕ
  | .edges => p.edgeCounts.map List.length
  | .blocks => p.blockCounts.map List.length
  | .comm => p.comm.map List.length
  | .legacyComm => p.legacyComm.map List.length
  | .seconds => p.commSeconds.map List.length
  | .weights => p.blockWeights.map List.length

/-- Kinds of counters that both profiles have are equally many. -/
def Agrees (p q : Profile) : Prop :=
  ∀ (kind : CounterKind) (m n : ℕ), p.size? kind = some m → q.size? kind = some n → m = n

def sum (p q : Profile) : Profile where
  executions := p.executions ++ q.executions
  edgeCounts := sumSlots Count.saturatingAdd p.edgeCounts q.edgeCounts
  blockCounts := sumSlots Count.saturatingAdd p.blockCounts q.blockCounts
  comm := sumSlots CommCounter.add p.comm q.comm
  legacyComm := sumSlots Count.saturatingAdd p.legacyComm q.legacyComm
  commSeconds := sumSlots (· + ·) p.commSeconds q.commSeconds
  blockWeights := sumSlots (· + ·) p.blockWeights q.blockWeights
  ranks := insertRanks p.ranks q.ranks
  unknownRank := p.unknownRank || q.unknownRank

variable {p q r : Profile}

theorem fitting_iff {α : Type} {xs ys : Option (List α)} :
    Fitting xs ys ↔
      ∀ m n : ℕ, xs.map List.length = some m → ys.map List.length = some n → m = n := by
  cases xs <;> cases ys <;> simp [Fitting]

theorem agrees_iff :
    p.Agrees q ↔ Fitting p.edgeCounts q.edgeCounts ∧ Fitting p.blockCounts q.blockCounts ∧
      Fitting p.legacyComm q.legacyComm ∧ Fitting p.commSeconds q.commSeconds ∧
      Fitting p.blockWeights q.blockWeights ∧ Fitting p.comm q.comm := by
  simp only [fitting_iff]
  constructor
  · intro h
    exact ⟨h .edges, h .blocks, h .legacyComm, h .seconds, h .weights, h .comm⟩
  · rintro ⟨hedges, hblocks, hlegacy, hseconds, hweights, hcomm⟩ kind
    cases kind <;> assumption

theorem Agrees.refl (p : Profile) : p.Agrees p :=
  fun _ _ _ hm hn => Option.some.inj (hm.symm.trans hn)

theorem Agrees.symm (h : p.Agrees q) : q.Agrees p :=
  fun kind m n hm hn => (h kind n m hn hm).symm

theorem empty_agrees (p : Profile) : empty.Agrees p := by
  intro kind m n hm
  cases kind <;> cases hm

theorem size?_sum (h : p.Agrees q) (kind : CounterKind) :
    (p.sum q).size? kind = (p.size? kind).or (q.size? kind) := by
  have hslots : ∀ {α : Type} (add : α → α → α) {xs ys : Option (List α)}, Fitting xs ys →
      (sumSlots add xs ys).map List.length = (xs.map List.length).or (ys.map List.length) := by
    intro α add xs ys hfit
    cases xs with
    | none => simp
    | some x =>
        cases ys with
        | none => simp
        | some y => simp [hfit x rfl y rfl]
  obtain ⟨hedges, hblocks, hlegacy, hseconds, hweights, hcomm⟩ := agrees_iff.mp h
  cases kind with
  | edges => exact hslots _ hedges
  | blocks => exact hslots _ hblocks
  | comm => exact hslots _ hcomm
  | legacyComm => exact hslots _ hlegacy
  | seconds => exact hslots _ hseconds
  | weights => exact hslots _ hweights

/-- A sum agrees with what both its parts agree with. -/
theorem Agrees.sum_iff (h : p.Agrees q) : (p.sum q).Agrees r ↔ p.Agrees r ∧ q.Agrees r := by
  simp only [Agrees, size?_sum h, ← forall_and]
  refine forall_congr' fun kind => ?_
  have hkind := h kind
  cases hp : p.size? kind with
  | none => simp
  | some m =>
      cases hq : q.size? kind with
      | none => simp
      | some n =>
          obtain rfl := hkind m n hp hq
          simp

/-! ### Steps that add a profile -/

/-- Adding one kind of counters, if the other profile has it. -/
theorem absorb_eq_ok_iff {α : Type} {add : α → α → α} {mismatch : ℕ → ℕ → Cause}
    {step : Profile → List α → Outcome Profile} (get : Profile → Option (List α))
    (put : Option (List α) → Profile → Profile) (hput : ∀ p, put (get p) p = p)
    (hstep : ∀ p counts, step p counts =
      addSlots add mismatch (get p) counts >>= fun sum => .ok (put (some sum) p))
    (counts : Option (List α)) (p q : Profile) :
    absorb step counts p = .ok q ↔
      Fitting (get p) counts ∧ q = put (sumSlots add (get p) counts) p := by
  cases counts with
  | none => simp [absorb, Fitting, hput, eq_comm]
  | some counts =>
      simp only [absorb, hstep, Outcome.bind_eq_ok_iff, addSlots_eq_ok_iff]
      constructor
      · rintro ⟨sum, ⟨hfit, hsum⟩, ⟨⟩⟩
        exact ⟨hfit, by rw [hsum]⟩
      · rintro ⟨hfit, rfl⟩
        cases hold : get p with
        | none => exact ⟨counts, ⟨by simpa [hold] using hfit, rfl⟩, rfl⟩
        | some old => exact ⟨_, ⟨by simpa [hold] using hfit, rfl⟩, rfl⟩

theorem absorb_edges (counts : Option (List UInt64)) :
    absorb addEdges counts p = .ok q ↔ Fitting p.edgeCounts counts ∧
      q = { p with edgeCounts := sumSlots Count.saturatingAdd p.edgeCounts counts } :=
  absorb_eq_ok_iff Profile.edgeCounts (fun counts p => { p with edgeCounts := counts })
    (fun _ => rfl) (fun _ _ => rfl) counts p q

theorem absorb_blocks (counts : Option (List UInt64)) :
    absorb addBlocks counts p = .ok q ↔ Fitting p.blockCounts counts ∧
      q = { p with blockCounts := sumSlots Count.saturatingAdd p.blockCounts counts } :=
  absorb_eq_ok_iff Profile.blockCounts (fun counts p => { p with blockCounts := counts })
    (fun _ => rfl) (fun _ _ => rfl) counts p q

theorem absorb_legacyComm (bytes : Option (List UInt64)) :
    absorb addLegacyComm bytes p = .ok q ↔ Fitting p.legacyComm bytes ∧
      q = { p with legacyComm := sumSlots Count.saturatingAdd p.legacyComm bytes } :=
  absorb_eq_ok_iff Profile.legacyComm (fun bytes p => { p with legacyComm := bytes })
    (fun _ => rfl) (fun _ _ => rfl) bytes p q

theorem absorb_seconds (seconds : Option (List Binary64)) :
    absorb addSeconds seconds p = .ok q ↔ Fitting p.commSeconds seconds ∧
      q = { p with commSeconds := sumSlots (· + ·) p.commSeconds seconds } :=
  absorb_eq_ok_iff Profile.commSeconds (fun seconds p => { p with commSeconds := seconds })
    (fun _ => rfl) (fun _ _ => rfl) seconds p q

theorem absorb_weights (weights : Option (List Binary64)) :
    absorb addWeights weights p = .ok q ↔ Fitting p.blockWeights weights ∧
      q = { p with blockWeights := sumSlots (· + ·) p.blockWeights weights } :=
  absorb_eq_ok_iff Profile.blockWeights (fun weights p => { p with blockWeights := weights })
    (fun _ => rfl) (fun _ _ => rfl) weights p q

theorem absorb_comm (counters : Option (List CommCounter)) :
    absorb addComm counters p = .ok q ↔ Fitting p.comm counters ∧
      q = { p with comm := sumSlots CommCounter.add p.comm counters } :=
  absorb_eq_ok_iff Profile.comm (fun counters p => { p with comm := counters })
    (fun _ => rfl) (fun _ _ => rfl) counters p q

/-- Profiles can be merged if their counters are equally many, kind by kind. -/
theorem merge_eq_ok_iff : p.merge q = .ok r ↔ p.Agrees q ∧ r = p.sum q := by
  simp only [merge, Outcome.bind_eq_ok_iff, Outcome.pure_eq_ok_iff, absorb_edges, absorb_blocks,
    absorb_legacyComm, absorb_seconds, absorb_weights, absorb_comm, agrees_iff]
  constructor
  · rintro ⟨_, ⟨hedges, rfl⟩, _, ⟨hblocks, rfl⟩, _, ⟨hlegacy, rfl⟩, _, ⟨hseconds, rfl⟩,
      _, ⟨hweights, rfl⟩, _, ⟨hcomm, rfl⟩, rfl⟩
    exact ⟨⟨hedges, hblocks, hlegacy, hseconds, hweights, hcomm⟩, rfl⟩
  · rintro ⟨⟨hedges, hblocks, hlegacy, hseconds, hweights, hcomm⟩, rfl⟩
    exact ⟨_, ⟨hedges, rfl⟩, _, ⟨hblocks, rfl⟩, _, ⟨hlegacy, rfl⟩, _, ⟨hseconds, rfl⟩,
      _, ⟨hweights, rfl⟩, _, ⟨hcomm, rfl⟩, rfl⟩

/-- Nothing but ranks. -/
def ofRanks (ranks : List Int32) : Profile :=
  { empty with
    ranks := ranks.filter (· ≠ FlowProfile.unknownRank)
    unknownRank := ranks.contains FlowProfile.unknownRank }

theorem addRanks_eq (p : Profile) (ranks : List Int32) :
    p.addRanks ranks = { p with
      ranks := insertRanks p.ranks (ofRanks ranks).ranks
      unknownRank := p.unknownRank || (ofRanks ranks).unknownRank } := by
  unfold addRanks
  induction ranks generalizing p with
  | nil => simp [ofRanks, insertRanks]
  | cons rank ranks ih =>
      rw [List.foldl_cons, ih]
      by_cases h : rank = FlowProfile.unknownRank
      · simp [addRank, ofRanks, h, insertRanks]
      · simp [addRank, ofRanks, h, insertRanks, Ne.symm h]

end Profile

/-- What one record adds to a profile. -/
def Record.profile : Record → Profile
  | .arguments args => { Profile.empty with executions := [args] }
  | .blocks counts => { Profile.empty with blockCounts := some counts }
  | .edges counts rs => { Profile.ofRanks rs with edgeCounts := some counts }
  | .ranks rs => Profile.ofRanks rs
  | .legacyComm bytes => { Profile.empty with legacyComm := some bytes }
  | .comm counters => { Profile.empty with comm := some counters }
  | .time seconds rs => { Profile.ofRanks rs with commSeconds := some seconds }
  | .weightedBlocks weights => { Profile.empty with blockWeights := some weights }

namespace Profile

variable {p q r : Profile}

@[simp] theorem fitting_none_right {α : Type} (xs : Option (List α)) : Fitting xs none := by
  simp [Fitting]

@[simp] theorem insertRanks_nil (rs : List Int32) : insertRanks rs [] = rs := rfl

theorem addRecord_eq_ok_iff {record : Record} :
    p.addRecord record = .ok q ↔ p.Agrees record.profile ∧ q = p.sum record.profile := by
  rw [agrees_iff]
  cases record with
  | arguments args => simp [addRecord, addExecution, Record.profile, empty, sum, eq_comm]
  | blocks counts =>
      exact (absorb_blocks (some counts)).trans (by simp [Record.profile, empty, sum])
  | edges counts ranks =>
      have hedges : ∀ q, p.addEdges counts = .ok q ↔ _ := fun q => absorb_edges (some counts)
      simp only [addRecord, Outcome.map_eq_ok_iff, hedges, addRanks_eq]
      simp [Record.profile, ofRanks, empty, sum, eq_comm]
  | ranks ranks => simp [addRecord, addRanks_eq, Record.profile, ofRanks, empty, sum, eq_comm]
  | legacyComm bytes =>
      exact (absorb_legacyComm (some bytes)).trans (by simp [Record.profile, empty, sum])
  | comm counters =>
      exact (absorb_comm (some counters)).trans (by simp [Record.profile, empty, sum])
  | time seconds ranks =>
      have hseconds : ∀ q, p.addSeconds seconds = .ok q ↔ _ := fun q =>
        absorb_seconds (some seconds)
      simp only [addRecord, Outcome.map_eq_ok_iff, hseconds, addRanks_eq]
      simp [Record.profile, ofRanks, empty, sum, eq_comm]
  | weightedBlocks weights =>
      exact (absorb_weights (some weights)).trans (by simp [Record.profile, empty, sum])

/-! ### Lists of profiles -/

/-- The sum of all, from the left. -/
def total (ps : List Profile) : Profile := ps.foldl sum empty

theorem Agrees.foldl_sum_iff {ps : List Profile} (h : (p :: ps).Pairwise Agrees) :
    (ps.foldl sum p).Agrees q ↔ ∀ part ∈ p :: ps, part.Agrees q := by
  induction ps generalizing p with
  | nil => simp
  | cons part ps ih =>
      obtain ⟨hp, hps⟩ := List.pairwise_cons.mp h
      obtain ⟨hpart, hrest⟩ := List.pairwise_cons.mp hps
      have hagree := hp part List.mem_cons_self
      rw [List.foldl_cons, ih]
      · simp [Agrees.sum_iff hagree, and_assoc]
      · refine List.pairwise_cons.mpr ⟨?_, hrest⟩
        intro other hmem
        exact (Agrees.sum_iff hagree).mpr ⟨hp other (List.mem_cons_of_mem part hmem),
          hpart other hmem⟩

/-- Steps that each add a profile succeed if and only if no two of them differ in a length. -/
theorem foldlM_eq_ok_iff {α : Type} (step : Profile → α → Outcome Profile) (part : α → Profile)
    (hstep : ∀ {p a q}, step p a = .ok q ↔ p.Agrees (part a) ∧ q = p.sum (part a)) {as : List α} :
    as.foldlM step p = .ok q ↔
      (p :: as.map part).Pairwise Agrees ∧ q = (as.map part).foldl sum p := by
  induction as generalizing p with
  | nil => simpa using eq_comm
  | cons a as ih =>
      simp only [List.foldlM_cons, Outcome.bind_eq_ok_iff, hstep, ih, List.map_cons,
        List.foldl_cons, List.pairwise_cons, List.forall_mem_cons]
      constructor
      · rintro ⟨_, ⟨hagree, rfl⟩, ⟨hsum, hrest⟩, rfl⟩
        exact ⟨⟨⟨hagree, fun r hr => ((Agrees.sum_iff hagree).mp (hsum r hr)).1⟩,
          fun r hr => ((Agrees.sum_iff hagree).mp (hsum r hr)).2, hrest⟩, rfl⟩
      · rintro ⟨⟨⟨hagree, hp⟩, ha, hrest⟩, rfl⟩
        exact ⟨_, ⟨hagree, rfl⟩,
          ⟨fun r hr => (Agrees.sum_iff hagree).mpr ⟨hp r hr, ha r hr⟩, hrest⟩, rfl⟩

theorem pairwise_agrees_empty {ps : List Profile} :
    (empty :: ps).Pairwise Agrees ↔ ps.Pairwise Agrees := by
  simp [List.pairwise_cons, empty_agrees]

theorem total_agrees_iff {ps : List Profile} (h : ps.Pairwise Agrees) :
    (total ps).Agrees q ↔ ∀ part ∈ ps, part.Agrees q := by
  rw [total, Agrees.foldl_sum_iff (pairwise_agrees_empty.mpr h)]
  simp [empty_agrees]

theorem pairwise_agrees_append {ps qs : List Profile} :
    (ps ++ qs).Pairwise Agrees ↔
      ps.Pairwise Agrees ∧ qs.Pairwise Agrees ∧ (total ps).Agrees (total qs) := by
  rw [List.pairwise_append]
  refine and_congr_right fun hps => and_congr_right fun hqs => ?_
  rw [total_agrees_iff hps]
  refine forall₂_congr fun part _ => ?_
  constructor
  · intro h
    exact ((total_agrees_iff hqs).mpr fun other hmem => (h other hmem).symm).symm
  · intro h other hmem
    exact ((total_agrees_iff hqs).mp h.symm other hmem).symm

theorem ofRecords_eq_ok_iff {records : List Record} :
    ofRecords records = .ok p ↔ (records.map Record.profile).Pairwise Agrees ∧
      p = total (records.map Record.profile) := by
  rw [ofRecords, foldlM_eq_ok_iff addRecord Record.profile addRecord_eq_ok_iff,
    pairwise_agrees_empty, total]

theorem foldlM_merge_eq_ok_iff {ps : List Profile} :
    ps.foldlM merge empty = .ok p ↔ ps.Pairwise Agrees ∧ p = total ps := by
  rw [foldlM_eq_ok_iff merge id merge_eq_ok_iff, List.map_id, pairwise_agrees_empty, total]

/-- A part of a sum is the sum of the parts. -/
theorem foldl_sum_part {α : Type} (part : Profile → α) (op : α → α → α)
    (hsum : ∀ p q, part (p.sum q) = op (part p) (part q)) (ps : List Profile) (p : Profile) :
    part (ps.foldl sum p) = (ps.map part).foldl op (part p) := by
  rw [List.foldl_map]
  exact (List.foldl_hom part fun p q => (hsum p q).symm).symm

end Profile

end FlowProfile
