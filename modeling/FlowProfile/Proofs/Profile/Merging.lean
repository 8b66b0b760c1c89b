import FlowProfile.Files
import FlowProfile.Proofs.Profile.Sum
import FlowProfile.Proofs.Record.Truncation

/-!
# Merged profiles

Executions that share a file add up to the same profile as those that were recorded apart, and
profiles can be merged in any order. So the files of several processes can be named in any order.
The only sums that depend on the order are those of numbers in binary64.
-/

namespace FlowProfile

/-- One or no counters add up to themselves, whatever the sum. -/
theorem foldl_merge_of_length_le_one {α : Type} (f : α → α → α) {xs : List (Option α)}
    (h : xs.reduceOption.length ≤ 1) (a : Option α) :
    xs.foldl (Option.merge f) a = Option.merge f a (xs.foldl (Option.merge f) none) := by
  rw [foldl_merge, foldl_merge]
  generalize xs.reduceOption = ys at h
  match ys with
  | [] => simp
  | [y] => simp
  | _ :: _ :: _ => simp at h

def Record.isTime : Record → Bool
  | time _ _ => true
  | _ => false

def Record.isWeights : Record → Bool
  | weightedBlocks _ => true
  | _ => false

namespace Profile

variable {p q r : Profile} {ps qs : List Profile}

/-- All counters and ranks but the numbers in binary64 are the same. -/
structure SameCounters (p q : Profile) : Prop where
  edges : p.edgeCounts = q.edgeCounts
  blocks : p.blockCounts = q.blockCounts
  comm : p.comm = q.comm
  legacyComm : p.legacyComm = q.legacyComm
  ranks : p.ranks = q.ranks
  unknownRank : p.unknownRank = q.unknownRank

/-! ### Ranks of a sum -/

theorem mem_ranks_foldl_sum {rank : Int32} :
    rank ∈ (ps.foldl sum p).ranks ↔ rank ∈ p.ranks ∨ ∃ part ∈ ps, rank ∈ part.ranks := by
  induction ps generalizing p with
  | nil => simp
  | cons part ps ih =>
      rw [List.foldl_cons, ih, sum, mem_insertRanks]
      simp [or_assoc]

theorem pairwise_ranks_foldl_sum (h : p.ranks.Pairwise (· < ·)) :
    (ps.foldl sum p).ranks.Pairwise (· < ·) := by
  induction ps generalizing p with
  | nil => exact h
  | cons part ps ih => exact ih (pairwise_insertRanks h part.ranks)

theorem pairwise_ranks_total (ps : List Profile) : (total ps).ranks.Pairwise (· < ·) :=
  pairwise_ranks_foldl_sum List.Pairwise.nil

/-! ### Sums one after the other -/

/-- A part that is added by an associative operation can be added in one go. -/
theorem total_append_part {α : Type} (part : Profile → α) (op : α → α → α) [Std.Associative op]
    (hsum : ∀ p q, part (p.sum q) = op (part p) (part q)) (hempty : ∀ x, op x (part empty) = x) :
    part (total (ps ++ qs)) = part ((total ps).sum (total qs)) :=
  calc part (total (ps ++ qs))
      = (qs.map part).foldl op (part (total ps)) := by
        rw [total, List.foldl_append, foldl_sum_part part op hsum, total]
    _ = (qs.map part).foldl op (op (part (total ps)) (part empty)) := by rw [hempty]
    _ = op (part (total ps)) (part (total qs)) := by
        rw [List.foldl_assoc, ← foldl_sum_part part op hsum, ← total]
    _ = part ((total ps).sum (total qs)) := (hsum _ _).symm

/-- Numbers in binary64 can be added in one go if the second sum is none, or of one list. -/
theorem total_append_numbers (part : Profile → Option (List Binary64))
    (hsum : ∀ p q, part (p.sum q) = sumSlots (· + ·) (part p) (part q)) (hempty : part empty = none)
    (hone : (qs.map part).reduceOption.length ≤ 1) :
    part (total (ps ++ qs)) = part ((total ps).sum (total qs)) := by
  rw [hsum, total, List.foldl_append, foldl_sum_part part _ hsum qs,
    foldl_merge_of_length_le_one _ hone, ← hempty, ← foldl_sum_part part _ hsum qs]
  rfl

theorem sameCounters_total_append :
    SameCounters (total (ps ++ qs)) ((total ps).sum (total qs)) where
  edges := total_append_part edgeCounts (sumSlots Count.saturatingAdd) (fun _ _ => rfl)
    fun _ => Option.merge_none_right
  blocks := total_append_part blockCounts (sumSlots Count.saturatingAdd) (fun _ _ => rfl)
    fun _ => Option.merge_none_right
  comm := total_append_part comm (sumSlots CommCounter.add) (fun _ _ => rfl)
    fun _ => Option.merge_none_right
  legacyComm := total_append_part legacyComm (sumSlots Count.saturatingAdd) (fun _ _ => rfl)
    fun _ => Option.merge_none_right
  ranks := by
    refine ranks_ext (pairwise_ranks_total _) (pairwise_insertRanks (pairwise_ranks_total ps) _) ?_
    intro rank
    rw [sum, mem_insertRanks, total, total, total, mem_ranks_foldl_sum, mem_ranks_foldl_sum,
      mem_ranks_foldl_sum]
    simp [empty, or_and_right, exists_or]
  unknownRank := total_append_part unknownRank (· || ·) (fun _ _ => rfl) Bool.or_false

theorem executions_total_append :
    (total (ps ++ qs)).executions = ((total ps).sum (total qs)).executions :=
  total_append_part executions (· ++ ·) (fun _ _ => rfl) List.append_nil

/-! ### Sums in another order -/

/-- A part that is added in any order. -/
theorem total_perm_part {α : Type} (part : Profile → α) (op : α → α → α) [Std.Associative op]
    [Std.Commutative op] (hsum : ∀ p q, part (p.sum q) = op (part p) (part q)) (h : ps.Perm qs) :
    part (total ps) = part (total qs) := by
  rw [total, total, foldl_sum_part part op hsum, foldl_sum_part part op hsum]
  exact (h.map part).foldl_op_eq

theorem sameCounters_total_perm (h : ps.Perm qs) : SameCounters (total ps) (total qs) where
  edges := total_perm_part edgeCounts (sumSlots Count.saturatingAdd) (fun _ _ => rfl) h
  blocks := total_perm_part blockCounts (sumSlots Count.saturatingAdd) (fun _ _ => rfl) h
  comm := total_perm_part comm (sumSlots CommCounter.add) (fun _ _ => rfl) h
  legacyComm := total_perm_part legacyComm (sumSlots Count.saturatingAdd) (fun _ _ => rfl) h
  ranks := by
    refine ranks_ext (pairwise_ranks_total ps) (pairwise_ranks_total qs) ?_
    intro rank
    rw [total, total, mem_ranks_foldl_sum, mem_ranks_foldl_sum]
    simp only [h.mem_iff]
  unknownRank := total_perm_part unknownRank (· || ·) (fun _ _ => rfl) h

theorem executions_foldl_sum :
    (ps.foldl sum p).executions = p.executions ++ ps.flatMap executions := by
  induction ps generalizing p with
  | nil => simp
  | cons part ps ih => simp [ih, sum]

theorem executions_total_perm (h : ps.Perm qs) :
    (total ps).executions.Perm (total qs).executions := by
  rw [total, total, executions_foldl_sum, executions_foldl_sum]
  exact (h.flatMap_right executions).append_left _

/-! ### Files -/

/-- At most one record brings in numbers if at most one is of the kind that does. -/
theorem length_reduceOption_le {part : Profile → Option (List Binary64)} {kind : Record → Bool}
    (h : ∀ record : Record, (part record.profile).isSome = kind record) {records : List Record}
    (hone : records.countP kind ≤ 1) :
    ((records.map Record.profile).map part).reduceOption.length ≤ 1 := by
  have hkind : (Option.isSome ∘ part) ∘ Record.profile = kind := funext h
  rw [List.reduceOption_length_eq, ← List.countP_eq_length_filter, List.countP_map, List.countP_map,
    hkind]
  exact hone

theorem ofBytes_eq {bytes : Bytes} {records : List Record}
    (h : decodeRecords bytes = .ok records) : ofBytes bytes = ofRecords records := by
  rw [ofBytes, h]
  rfl

/-- Files that are appended add up to what the profiles of the files are merged to. -/
theorem ofBytes_append {a b : Bytes} {rs ss : List Record} (ha : decodeRecords a = .ok rs)
    (hb : decodeRecords b = .ok ss) :
    ((∃ whole, ofBytes (a ++ b) = .ok whole) ↔
      ∃ p q merged, ofBytes a = .ok p ∧ ofBytes b = .ok q ∧ p.merge q = .ok merged) ∧
    ∀ whole p q merged, ofBytes (a ++ b) = .ok whole → ofBytes a = .ok p → ofBytes b = .ok q →
      p.merge q = .ok merged →
      whole.executions = merged.executions ∧ whole.SameCounters merged ∧
      (ss.countP Record.isTime ≤ 1 → whole.commSeconds = merged.commSeconds) ∧
      (ss.countP Record.isWeights ≤ 1 → whole.blockWeights = merged.blockWeights) := by
  simp only [ofBytes_eq ha, ofBytes_eq hb, ofBytes_eq (decodeRecords_append ha hb),
    ofRecords_eq_ok_iff, merge_eq_ok_iff, List.map_append, pairwise_agrees_append]
  constructor
  · constructor
    · rintro ⟨_, ⟨hrs, hss, hagree⟩, -⟩
      exact ⟨_, _, _, ⟨hrs, rfl⟩, ⟨hss, rfl⟩, hagree, rfl⟩
    · rintro ⟨_, _, _, ⟨hrs, rfl⟩, ⟨hss, rfl⟩, hagree, -⟩
      exact ⟨_, ⟨hrs, hss, hagree⟩, rfl⟩
  · rintro _ _ _ _ ⟨-, rfl⟩ ⟨-, rfl⟩ ⟨-, rfl⟩ ⟨-, rfl⟩
    refine ⟨executions_total_append, sameCounters_total_append, ?_, ?_⟩
    · intro hone
      refine total_append_numbers commSeconds (fun _ _ => rfl) rfl (length_reduceOption_le ?_ hone)
      intro record
      cases record <;> rfl
    · intro hone
      refine total_append_numbers blockWeights (fun _ _ => rfl) rfl (length_reduceOption_le ?_ hone)
      intro record
      cases record <;> rfl

/-- A count that is too large, and ranks that were not recorded in order. -/
theorem ofBytes_append_ranks :
    ∃ a b whole p q merged, encodeRecords [.edges [0xFFFFFFFFFFFFFFFF] [3]] = .ok a ∧
      encodeRecords [.edges [2] [1], .time [⟨1⟩] []] = .ok b ∧
      ofBytes (a ++ b) = .ok whole ∧ ofBytes a = .ok p ∧ ofBytes b = .ok q ∧
      p.merge q = .ok merged ∧ whole.SameCounters merged ∧
      whole.commSeconds = merged.commSeconds ∧
      merged.edgeCounts = some [0xFFFFFFFFFFFFFFFF] ∧ merged.ranks = [1, 3] := by
  have hencode₁ : encodeRecords [.edges [0xFFFFFFFFFFFFFFFF] [3]] = .ok _ := rfl
  have hencode₂ : encodeRecords [.edges [2] [1], .time [⟨1⟩] []] = .ok _ := rfl
  have ha := decodeRecords_whole hencode₁
  have hb := decodeRecords_whole hencode₂
  have hp : ofBytes _ = .ok _ := ofBytes_eq ha
  have hq : ofBytes _ = .ok _ := ofBytes_eq hb
  obtain ⟨hiff, hsame⟩ := ofBytes_append ha hb
  obtain ⟨whole, hwhole⟩ := hiff.mpr ⟨_, _, _, hp, hq, rfl⟩
  obtain ⟨-, hcounters, hseconds, -⟩ := hsame whole _ _ _ hwhole hp hq rfl
  exact ⟨_, _, whole, _, _, _, hencode₁, hencode₂, hwhole, hp, hq, rfl, hcounters,
    hseconds (by decide), rfl, rfl⟩

/-! ### Folds of merges -/

theorem pairwise_agrees_iff :
    ps.Pairwise Agrees ↔ ∀ p ∈ ps, ∀ q ∈ ps, p.Agrees q := by
  constructor
  · intro h p hp q hq
    have hsymm : Std.Symm Agrees := ⟨fun _ _ h => h.symm⟩
    exact h.forall_of_forall (fun part _ => Agrees.refl part) hp hq
  · intro h
    exact List.pairwise_of_forall_mem_list h

theorem not_agrees_iff :
    ¬p.Agrees q ↔ ∃ kind m n, p.size? kind = some m ∧ q.size? kind = some n ∧ m ≠ n := by
  simp [Agrees]

theorem foldlM_merge_of_perm {m : Profile} (h : ps.Perm qs) (hm : ps.foldlM merge empty = .ok m) :
    ∃ n, qs.foldlM merge empty = .ok n ∧ m.SameCounters n ∧ m.executions.Perm n.executions := by
  obtain ⟨hagree, rfl⟩ := foldlM_merge_eq_ok_iff.mp hm
  exact ⟨_, foldlM_merge_eq_ok_iff.mpr ⟨(h.pairwise_iff Agrees.symm).mp hagree, rfl⟩,
    sameCounters_total_perm h, executions_total_perm h⟩

theorem run_mergeInto :
    (mergeInto q).run p =
      match p.merge q with
      | .ok merged => .ok () merged
      | .error failure => .error failure p := by
  simp only [mergeInto, EStateM.run_bind, EStateM.run_get]
  cases p.merge q <;> rfl

theorem run_mergeInto_of_ok (h : p.merge q = .ok r) : (mergeInto q).run p = .ok () r := by
  rw [run_mergeInto, h]

theorem run_mergeInto_of_error {failure : Failure} (h : p.merge q = .error failure) :
    (mergeInto q).run p = .error failure p := by
  rw [run_mergeInto, h]

/-- Profiles can be merged in any order, unless two of them have counters of a kind that are not
equally many. A profile that nothing could be merged into is kept. -/
theorem foldlM_merge_perm (h : ps.Perm qs) :
    ((∃ m, ps.foldlM merge empty = .ok m) ↔ ∃ n, qs.foldlM merge empty = .ok n) ∧
    (∀ m n, ps.foldlM merge empty = .ok m → qs.foldlM merge empty = .ok n →
      m.SameCounters n ∧ m.executions.length = n.executions.length ∧
        m.executions.Perm n.executions) ∧
    ((¬∃ m, ps.foldlM merge empty = .ok m) ↔ ∃ p ∈ ps, ∃ q ∈ ps, ∃ kind m n,
      p.size? kind = some m ∧ q.size? kind = some n ∧ m ≠ n) ∧
    ∀ target other failure left, (mergeInto other).run target = .error failure left →
      left = target := by
  refine ⟨?_, ?_, ?_, ?_⟩
  · constructor
    · rintro ⟨m, hm⟩
      obtain ⟨n, hn, -⟩ := foldlM_merge_of_perm h hm
      exact ⟨n, hn⟩
    · rintro ⟨n, hn⟩
      obtain ⟨m, hm, -⟩ := foldlM_merge_of_perm h.symm hn
      exact ⟨m, hm⟩
  · intro m n hm hn
    obtain ⟨_, hn', hsame, hexecutions⟩ := foldlM_merge_of_perm h hm
    obtain rfl := Except.ok.inj (hn.symm.trans hn')
    exact ⟨hsame, hexecutions.length_eq, hexecutions⟩
  · have hfold : (∃ m, ps.foldlM merge empty = .ok m) ↔ ps.Pairwise Agrees := by
      simp [foldlM_merge_eq_ok_iff]
    rw [hfold, pairwise_agrees_iff]
    simp only [not_forall, not_agrees_iff, exists_prop]
  · intro target other failure left hrun
    cases hmerge : target.merge other with
    | ok merged =>
        rw [run_mergeInto_of_ok hmerge] at hrun
        cases hrun
    | error failure =>
        rw [run_mergeInto_of_error hmerge] at hrun
        cases hrun
        rfl

def rankThree : Profile :=
  { empty with executions := [["a"]], edgeCounts := some [0xFFFFFFFFFFFFFFFF], ranks := [3] }

def rankOne : Profile :=
  { empty with executions := [["b"]], edgeCounts := some [2], ranks := [1] }

/-- Two profiles of one edge, and one of two edges that does not go with them. -/
theorem foldlM_merge_ranks :
    (∃ m n, [rankThree, rankOne].foldlM merge empty = .ok m ∧
      [rankOne, rankThree].foldlM merge empty = .ok n ∧ m.SameCounters n ∧
      m.executions.Perm n.executions ∧ m ≠ n) ∧
    ¬∃ m, [rankThree, { empty with edgeCounts := some [1, 2] }].foldlM merge empty = .ok m := by
  constructor
  · have hswap := foldlM_merge_perm (List.Perm.swap rankOne rankThree [])
    obtain ⟨hsame, -, hexecutions⟩ := hswap.2.1 _ _ rfl rfl
    exact ⟨_, _, rfl, rfl, hsame, hexecutions, by decide⟩
  · exact (foldlM_merge_perm (.refl _)).2.2.1.mpr ⟨rankThree, List.mem_cons_self, _,
      List.mem_cons_of_mem _ List.mem_cons_self, .edges, 1, 2, rfl, rfl, by decide⟩

end Profile

/-! ### Profiles of several files -/

theorem Profile.empty_sum {p : Profile} (h : p.ranks.Pairwise (· < ·)) : empty.sum p = p := by
  have hranks : insertRanks [] p.ranks = p.ranks := by
    refine ranks_ext (pairwise_insertRanks List.Pairwise.nil p.ranks) h fun rank => ?_
    simp [mem_insertRanks]
  cases p
  simp [sum, empty, hranks]

/-- A profile of records is what is left when it is merged into none. -/
theorem Profile.empty_merge {records : List Record} {p : Profile} (h : ofRecords records = .ok p) :
    empty.merge p = .ok p := by
  obtain ⟨-, rfl⟩ := ofRecords_eq_ok_iff.mp h
  exact merge_eq_ok_iff.mpr ⟨empty_agrees _, (empty_sum (pairwise_ranks_total _)).symm⟩

namespace Files

variable {fs : Files} {path : String} {paths paths' : List String} {p q : Profile}

/-- A file adds its profile to the one that is kept. -/
theorem run_mergeProfile_eq_ok_iff :
    (fs.mergeProfile path).run p = .ok () q ↔
      ∃ part, fs.profile path = .ok part ∧ p.merge part = .ok q := by
  rw [mergeProfile]
  cases fs.profile path with
  | error failure => simp
  | ok part =>
      simp only [EStateM.run_adaptExcept, Profile.run_mergeInto, Except.ok.injEq, exists_eq_left']
      cases p.merge part <;> simp

/-- The first file is read and merged, and then the others are. -/
theorem foldlM_merge_cons_iff :
    (∃ parts, (path :: paths).mapM fs.profile = .ok parts ∧
        parts.foldlM Profile.merge p = .ok q) ↔
      ∃ merged, (∃ part, fs.profile path = .ok part ∧ p.merge part = .ok merged) ∧
        ∃ parts, paths.mapM fs.profile = .ok parts ∧
          parts.foldlM Profile.merge merged = .ok q := by
  constructor
  · rintro ⟨_, hall, hfold⟩
    obtain ⟨part, parts, hpart, hparts, rfl⟩ := Outcome.mapM_cons_eq_ok_iff.mp hall
    obtain ⟨merged, hmerge, hfold⟩ := Outcome.bind_eq_ok_iff.mp hfold
    exact ⟨merged, ⟨part, hpart, hmerge⟩, parts, hparts, hfold⟩
  · rintro ⟨merged, ⟨part, hpart, hmerge⟩, parts, hparts, hfold⟩
    have hall := Outcome.mapM_cons_eq_ok_iff.mpr ⟨part, parts, hpart, hparts, rfl⟩
    refine ⟨part :: parts, hall, ?_⟩
    rw [List.foldlM_cons, hmerge]
    exact hfold

/-- All files do, one after another. -/
theorem run_forM_mergeProfile_eq_ok_iff :
    (paths.forM fs.mergeProfile).run p = .ok () q ↔
      ∃ parts, paths.mapM fs.profile = .ok parts ∧ parts.foldlM Profile.merge p = .ok q := by
  induction paths generalizing p with
  | nil => simp
  | cons path paths ih =>
      have hcons : ((path :: paths).forM fs.mergeProfile).run p = .ok () q ↔
          ∃ merged, (fs.mergeProfile path).run p = .ok () merged ∧
            (paths.forM fs.mergeProfile).run merged = .ok () q := by
        rw [List.forM_eq_forM, List.forM_cons, EStateM.run_bind]
        cases (fs.mergeProfile path).run p <;> simp
      simp only [hcons, foldlM_merge_cons_iff, run_mergeProfile_eq_ok_iff, ih]

theorem empty_merge_profile (h : fs.profile path = .ok p) : Profile.empty.merge p = .ok p := by
  obtain ⟨records, -, hrecords⟩ := Outcome.bind_eq_ok_iff.mp h
  exact Profile.empty_merge (Outcome.within_eq_ok_iff.mp hrecords)

/-- The profiles of files are those of each, all merged. -/
theorem profiles_eq_ok_iff :
    fs.profiles paths = .ok q ↔ paths ≠ [] ∧
      ∃ parts, paths.mapM fs.profile = .ok parts ∧ parts.foldlM Profile.merge .empty = .ok q := by
  cases paths with
  | nil => simp [profiles]
  | cons path paths =>
      have hfirst : ∀ first, fs.profile path = .ok first ↔
          ∃ part, fs.profile path = .ok part ∧ Profile.empty.merge part = .ok first := by
        intro first
        constructor
        · exact fun h => ⟨first, h, empty_merge_profile h⟩
        · rintro ⟨part, hpart, hmerge⟩
          obtain rfl := Except.ok.inj ((empty_merge_profile hpart).symm.trans hmerge)
          exact hpart
      rw [foldlM_merge_cons_iff, and_iff_right (List.cons_ne_nil path paths)]
      simp only [profiles, Outcome.bind_eq_ok_iff, Outcome.ofResult_eq_ok_iff,
        run_forM_mergeProfile_eq_ok_iff, ← hfirst]

/-- Files can be named in any order. -/
theorem exists_profiles_of_perm (h : paths.Perm paths') (hp : fs.profiles paths = .ok p) :
    ∃ q, fs.profiles paths' = .ok q ∧ p.SameCounters q ∧ p.executions.Perm q.executions := by
  obtain ⟨hne, parts, hparts, hfold⟩ := profiles_eq_ok_iff.mp hp
  obtain ⟨parts', hparts', hperm⟩ := Outcome.exists_mapM_of_perm h hparts
  obtain ⟨q, hq, hsame⟩ := Profile.foldlM_merge_of_perm hperm hfold
  have hne' : paths' ≠ [] := fun heq => hne (heq ▸ h).eq_nil
  exact ⟨q, profiles_eq_ok_iff.mpr ⟨hne', parts', hparts', hq⟩, hsame⟩

end Files

end FlowProfile
