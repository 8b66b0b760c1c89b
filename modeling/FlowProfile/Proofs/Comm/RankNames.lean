import FlowProfile.Proofs.Record.Ranks

/-!
# The names of the rank query

The rank query has two names. The passes take every name that begins with one of them for the query,
whatever comes behind it. The library takes the older name and, behind the binding of the newer one,
any capitals. So the two disagree about names that are longer and about names in other capitals, and
about no others.
-/

namespace FlowProfile

namespace Comm

variable {name stem : String} {op : Operation}

/-! ### Names that are looked up -/

/-- A name is the stem of an operation in one of the two bindings. -/
theorem normalize?_eq_some_iff : normalize? name = some stem ↔
    (∃ rest, name.toList = "MPI_".toList ++ rest ∧ rest.map Char.toLower = stem.toList) ∨
      name.toList = "mpi_".toList ++ stem.toList ++ ['_'] := by
  unfold normalize?
  cases hcurrent : after? "MPI_".toList name.toList with
  | some rest =>
      rw [after?_eq_some_iff] at hcurrent
      simp [hcurrent, ← String.toList_inj]
  | none =>
      have hnone : ¬∃ rest, name.toList = "MPI_".toList ++ rest ∧
          rest.map Char.toLower = stem.toList := by
        rintro ⟨rest, hname, -⟩
        rw [after?_eq_some_iff.mpr hname] at hcurrent
        cases hcurrent
      rw [or_iff_right hnone]
      simp only [beforeUnderscore?, Option.map_eq_some_iff, Option.bind_eq_some_iff,
        after?_eq_some_iff]
      constructor
      · rintro ⟨_, ⟨rest, hname, hstem⟩, rfl⟩
        split at hstem
        case isTrue hlast =>
            obtain rfl := Option.some.inj hstem
            have hrest : (String.ofList rest.dropLast).toList ++ ['_'] = rest := by
              rw [String.toList_ofList, List.dropLast_append_getLast? '_' hlast]
            rw [hname, List.append_assoc, hrest]
        case isFalse => cases hstem
      · intro hname
        exact ⟨stem.toList, ⟨stem.toList ++ ['_'], by rw [hname, List.append_assoc], by simp⟩,
          String.ofList_toList⟩

/-- The stems of the operations are all different. -/
theorem Operation.lookup?_eq_some_iff :
    lookup? name = some op ↔ op ∈ all ∧ normalize? name = some op.stem := by
  have hall : ∀ op ∈ all, all.find? (·.stem == op.stem) = some op := by decide
  simp only [lookup?, Option.bind_eq_bind, Option.bind_eq_some_iff]
  constructor
  · rintro ⟨stem, hstem, hfind⟩
    obtain rfl : op.stem = stem := by simpa using List.find?_some hfind
    exact ⟨List.mem_of_find?_eq_some hfind, hstem⟩
  · rintro ⟨hmem, hstem⟩
    exact ⟨op.stem, hstem, hall op hmem⟩

/-! ### Names of the query -/

/-- The names of the rank query in the older and in the newer binding. -/
def queryNames : List String := ["mpi_comm_rank_", "MPI_Comm_rank"]

/-- The name begins with a name of the query and goes on behind it. -/
def ExtendsQuery (name : String) : Prop :=
  ∃ start ∈ queryNames, start.toList <+: name.toList ∧ name ≠ start

/-- The name is the newer one in other capitals behind the binding. -/
def RecasesQuery (name : String) : Prop :=
  "MPI_".toList <+: name.toList ∧ name.toList.map Char.toLower = "mpi_comm_rank".toList ∧
    name ∉ queryNames

instance (name : String) : Decidable (ExtendsQuery name) :=
  inferInstanceAs (Decidable (∃ start ∈ queryNames, _))

instance (name : String) : Decidable (RecasesQuery name) :=
  inferInstanceAs (Decidable (_ ∧ _ ∧ _))

/-- The passes go by how a name begins. -/
theorem isRankQuery_iff : isRankQuery name = true ↔ name ∈ queryNames ∨ ExtendsQuery name := by
  have hafter : ∀ start : String,
      (after? start.toList name.toList).isSome = true ↔ start.toList <+: name.toList := by
    intro start
    rw [Option.isSome_iff_exists]
    exact exists_congr fun rest => after?_eq_some_iff.trans eq_comm
  rw [isRankQuery, Bool.or_eq_true, hafter, hafter]
  have hstart : (∃ start ∈ queryNames, start.toList <+: name.toList) ↔
      name ∈ queryNames ∨ ExtendsQuery name := by
    constructor
    · rintro ⟨start, hmem, hbegins⟩
      by_cases heq : name = start
      · exact .inl (heq ▸ hmem)
      · exact .inr ⟨start, hmem, hbegins, heq⟩
    · rintro (hmem | ⟨start, hmem, hbegins, -⟩)
      · exact ⟨name, hmem, List.prefix_rfl⟩
      · exact ⟨start, hmem, hbegins⟩
  rw [← hstart, queryNames, List.exists_mem_cons_iff, List.exists_mem_cons_iff]
  simp only [List.not_mem_nil, false_and, exists_false, or_false]

/-- The library goes by the whole name, of which only the capitals of the newer one are free. -/
theorem exists_lookup?_iff : (∃ op, Operation.lookup? name = some op ∧ op.isRankQuery = true) ↔
    name ∈ queryNames ∨ RecasesQuery name := by
  have hstem : (∃ op, Operation.lookup? name = some op ∧ op.isRankQuery = true) ↔
      normalize? name = some "comm_rank" := by
    simp only [Operation.lookup?_eq_some_iff, Operation.isRankQuery, beq_iff_eq]
    constructor
    · rintro ⟨op, ⟨-, hnormal⟩, hquery⟩
      rw [hnormal, hquery]
    · exact fun hnormal => ⟨⟨"comm_rank", .setup, none⟩, ⟨by decide, hnormal⟩, rfl⟩
  rw [hstem, normalize?_eq_some_iff]
  constructor
  · rintro (⟨rest, hname, hrest⟩ | hname)
    · by_cases hmem : name ∈ queryNames
      · exact .inl hmem
      · refine .inr ⟨⟨rest, hname.symm⟩, ?_, hmem⟩
        rw [hname, List.map_append, hrest]
        rfl
    · obtain rfl : name = "mpi_comm_rank_" := String.toList_inj.mp hname
      exact .inl List.mem_cons_self
  · rintro (hmem | ⟨⟨rest, hname⟩, hlower, -⟩)
    · rw [queryNames, List.mem_pair] at hmem
      rcases hmem with rfl | rfl
      · exact .inr rfl
      · exact .inl ⟨"Comm_rank".toList, rfl, rfl⟩
    · rw [← hname, List.map_append] at hlower
      exact .inl ⟨rest, hname.symm, List.append_cancel_left hlower⟩

/-- A name that goes on behind a name of the query is no other name of it, in any capitals. -/
theorem ExtendsQuery.not_query (h : ExtendsQuery name) :
    name ∉ queryNames ∧ ¬RecasesQuery name := by
  obtain ⟨start, hstart, hbegins, hne⟩ := h
  have hapart : ∀ start ∈ queryNames, ∀ other ∈ queryNames,
      start.toList <+: other.toList → other = start := by decide
  refine ⟨fun hmem => hne (hapart start hstart name hmem hbegins), ?_⟩
  rintro ⟨-, hlower, -⟩
  -- no name of the query is shorter
  have hlong : ∀ start ∈ queryNames, "mpi_comm_rank".toList.length ≤ start.toList.length := by
    decide
  have hlength : name.toList.length ≤ start.toList.length := by
    rw [← List.length_map (f := Char.toLower), hlower]
    exact hlong start hstart
  exact hne (String.toList_inj.mp (hbegins.eq_of_length_le hlength).symm)

/-- The passes and the library take the same names for the query, but for those that are longer,
which the passes alone take, and those in other capitals, which the library alone takes. -/
theorem isRankQuery_agrees_iff (name : String) :
    (isRankQuery name = true ↔ name ∈ queryNames ∨ ExtendsQuery name) ∧
      ((∃ op, Operation.lookup? name = some op ∧ op.isRankQuery = true) ↔
        name ∈ queryNames ∨ RecasesQuery name) ∧
      ((isRankQuery name = true ↔
          ∃ op, Operation.lookup? name = some op ∧ op.isRankQuery = true) ↔
        ¬ExtendsQuery name ∧ ¬RecasesQuery name) := by
  refine ⟨isRankQuery_iff, exists_lookup?_iff, ?_⟩
  rw [isRankQuery_iff, exists_lookup?_iff]
  constructor
  · intro h
    constructor
    · intro hextends
      obtain ⟨hmem, hrecases⟩ := hextends.not_query
      exact (h.mp (.inr hextends)).elim hmem hrecases
    · intro hrecases
      rcases h.mpr (.inr hrecases) with hmem | hextends
      · exact hrecases.2.2 hmem
      · exact hextends.not_query.2 hrecases
  · rintro ⟨hextends, hrecases⟩
    rw [or_iff_left hextends, or_iff_left hrecases]

/-- There are names of both kinds. -/
example : ExtendsQuery "MPI_Comm_rank_c" ∧ RecasesQuery "MPI_COMM_RANK" := by decide

/-- In capitals throughout, the name is the query of the library alone. -/
theorem isRankQuery_not_lookup : ¬∀ name, isRankQuery name = true ↔
    ∃ op, Operation.lookup? name = some op ∧ op.isRankQuery = true := by
  intro h
  exact absurd ((h "MPI_COMM_RANK").mpr ⟨_, rfl, rfl⟩) (by decide)

end Comm

/-- A call for the rank, as the passes see it and as the library does. -/
theorem CallSite.asksRank_eq_queriesRank {c : CallSite}
    (h : ∀ name, c.callee = .direct name → ¬Comm.ExtendsQuery name ∧ ¬Comm.RecasesQuery name) :
    c.asksRank = c.queriesRank := by
  obtain ⟨_, _, _, callee, _⟩ := c
  cases callee with
  | indirect target => rfl
  | direct name =>
      obtain ⟨hextends, hrecases⟩ := h name rfl
      refine Bool.eq_iff_iff.mpr ?_
      rw [asksRank, queriesRank, Inst.queriesRank, Comm.isRankQuery_iff, Option.any_eq_true,
        Comm.exists_lookup?_iff, or_iff_left hextends, or_iff_left hrecases]

/-- The passes find the first query of the library in every program without a call of a longer name
or of a name in other capitals. -/
theorem Program.rankQuery?_eq_firstQuery? {p : Program}
    (h : ∀ c ∈ p.callSites, ∀ name, c.callee = .direct name →
      ¬Comm.ExtendsQuery name ∧ ¬Comm.RecasesQuery name) :
    p.rankQuery? = p.firstQuery? :=
  List.find?_congr fun c hc => CallSite.asksRank_eq_queriesRank (h c hc)

end FlowProfile
