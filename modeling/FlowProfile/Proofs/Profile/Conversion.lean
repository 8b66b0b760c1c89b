import FlowProfile.Proofs.Price.Computation
import FlowProfile.Proofs.Profile.Additive
import FlowProfile.Proofs.Profile.Merging
import FlowProfile.Proofs.Record.Arguments

/-!
# Conversion to counters of blocks

The counters of edges tell the executions of every block, and with them those of every function,
because no edge of a valid program leads to an entry. Written as counters of blocks they are read
back as they were: no execution is lost, and computation has the same price.
-/

namespace FlowProfile

/-! ### Pieces -/

theorem cut_flatten {α : Type} (xss : List (List α)) :
    cut (xss.map List.length) xss.flatten = xss := by
  induction xss with
  | nil => rfl
  | cons xs xss ih => simp [cut, ih]

/-- Lists that are long enough are cut into pieces of the given lengths. -/
theorem map_length_cut {α : Type} {ns : List ℕ} {xs : List α} (h : ns.sum ≤ xs.length) :
    (cut ns xs).map List.length = ns := by
  induction ns generalizing xs with
  | nil => rfl
  | cons n ns ih =>
      rw [List.sum_cons] at h
      rw [cut, List.map_cons, List.length_take, ih (by rw [List.length_drop]; omega)]
      congr 1
      omega

theorem forall₂_cut {α β : Type} {size : β → ℕ} {ys : List β} {xs : List α}
    (h : (ys.map size).sum ≤ xs.length) :
    List.Forall₂ (fun y piece => piece.length = size y) ys (cut (ys.map size) xs) := by
  have hlengths := map_length_cut h
  rw [← List.forall₂_eq_eq_eq, List.forall₂_map_left_iff, List.forall₂_map_right_iff] at hlengths
  exact hlengths.flip

theorem forall₂_zipWith {α β γ : Type} {r : α → β → Prop} {s : α → γ → Prop} {f : α → β → γ}
    (hrs : ∀ x y, r x y → s x (f x y)) {xs : List α} {ys : List β} (h : List.Forall₂ r xs ys) :
    List.Forall₂ s xs (xs.zipWith f ys) := by
  induction h with
  | nil => exact .nil
  | cons hxy _ ih => exact .cons (hrs _ _ hxy) ih

/-! ### One function -/

namespace Function

variable {f : Function} {counts : List UInt64}

/-- No edge leads to the entry, so that it is executed as often as the function is entered. -/
theorem executions_entry (hf : f.IsValid) (entries : UInt64) (counts : List UInt64) :
    f.executions entries counts 0 = entries := by
  have hnone : ((f.blocks.flatMap (·.terminator.successors)).zip counts).filter
      (fun edge => edge.1 == 0) = [] := by
    rw [List.filter_eq_nil_iff]
    rintro ⟨dest, count⟩ hmem hzero
    obtain ⟨block, hb, hd⟩ := List.mem_flatMap.mp (List.of_mem_zip hmem).1
    exact (hf block hb dest hd).2 (beq_iff_eq.mp hzero)
  apply UInt64.toNat_inj.mp
  rw [executions, Count.toNat_saturate, hnone, if_pos rfl]
  have hlt := entries.toNat_lt
  simp only [List.map_nil, List.sum_nil]
  omega

theorem length_ofEdgeCounts : (f.ofEdgeCounts counts).blocks.length = f.blocks.length := by
  cases counts <;> simp [ofEdgeCounts]

/-- The executions of the entry are those of the function. A declaration has neither. -/
theorem entries_ofEdgeCounts (hf : f.IsValid) (hlen : counts.length = f.slots) :
    (f.ofEdgeCounts counts).entries = (f.ofEdgeCounts counts).blocks.head? := by
  cases counts with
  | nil =>
      have hdecl : f.isDeclaration = true := by
        by_contra hdef
        rw [slots, if_neg hdef, edgeSlots, List.length_nil] at hlen
        omega
      simp [ofEdgeCounts, List.isEmpty_iff.mp hdecl]
  | cons entries counts =>
      have hpos : 0 < f.blocks.length := by
        refine List.length_pos_iff.mpr fun hnil => ?_
        simp [slots, isDeclaration, hnil] at hlen
      rw [List.head?_eq_getElem?]
      simp [ofEdgeCounts, hpos, executions_entry hf]

end Function

/-! ### All functions -/

namespace Program

variable {p : Program} {counts : List UInt64}

/-- The counters of edges, cut into functions. -/
def functionCounts (p : Program) (counts : List UInt64) : List FunctionCounts :=
  p.functions.zipWith Function.ofEdgeCounts (cut (p.functions.map Function.slots) counts)

/-- Each function gets as many counters as it has slots. -/
theorem forall₂_functionCounts (hlen : counts.length = p.edgeSlots) :
    List.Forall₂ (fun f c => ∃ piece : List UInt64, piece.length = f.slots ∧
      c = f.ofEdgeCounts piece) p.functions (p.functionCounts counts) := by
  rw [sum_map_definedFunctions] at hlen
  exact forall₂_zipWith (fun _ piece hpiece => ⟨piece, hpiece, rfl⟩) (forall₂_cut hlen.ge)

theorem map_length_functionCounts (hlen : counts.length = p.edgeSlots) :
    (p.functionCounts counts).map (·.blocks.length) = p.blockCounts := by
  rw [blockCounts, ← List.forall₂_eq_eq_eq, List.forall₂_map_left_iff, List.forall₂_map_right_iff]
  refine (List.Forall₂.imp ?_ (forall₂_functionCounts hlen)).flip
  rintro f _ ⟨piece, -, rfl⟩
  exact Function.length_ofEdgeCounts

theorem entries_functionCounts (hp : p.IsValid) (hlen : counts.length = p.edgeSlots) :
    ∀ c ∈ p.functionCounts counts, c.entries = c.blocks.head? := by
  intro c hc
  obtain ⟨i, hi, rfl⟩ := List.getElem_of_mem hc
  have hforall := forall₂_functionCounts hlen
  have hf : i < p.functions.length := hforall.length_eq ▸ hi
  obtain ⟨piece, hpiece, heq⟩ := hforall.get hf hi
  rw [List.get_eq_getElem] at heq
  rw [heq]
  exact Function.entries_ofEdgeCounts (hp _ (List.get_mem ..)) hpiece

end Program

namespace Binding

variable {p : Program} {x y : Binding}

/-- The executions of blocks and functions are kept apart from those of edges. -/
theorem counts_congr (h : y.functions.map (fun c => (c.entries, c.blocks)) =
    x.functions.map fun c => (c.entries, c.blocks)) :
    (∀ i block, y.executionCount i block = x.executionCount i block) ∧
      ∀ i, y.functionCount i = x.functionCount i := by
  have hexecutions : ∀ (z : Binding) i block, z.executionCount i block =
      ((((z.functions.map fun c => (c.entries, c.blocks))[i]?).bind (·.2[block]?)).getD 0) := by
    intro z i block
    rw [List.getElem?_map, Option.bind_map]
    rfl
  have hentries : ∀ (z : Binding) i, z.functionCount i =
      (((z.functions.map fun c => (c.entries, c.blocks))[i]?).bind (·.1)) := by
    intro z i
    rw [List.getElem?_map, Option.bind_map]
    rfl
  refine ⟨fun i block => ?_, fun i => ?_⟩
  · rw [hexecutions, hexecutions, h]
  · rw [hentries, hentries, h]

/-- Counters of blocks that were taken from those of edges are read back as they were. -/
theorem functions_converted (hp : p.IsValid) {counts : List UInt64}
    (hlen : counts.length = p.edgeSlots) :
    (p.functions.zipWith Function.ofBlockCounts
        (cut p.blockCounts ((p.functionCounts counts).flatMap (·.blocks)))).map
          (fun c => (c.entries, c.blocks)) =
      (p.functionCounts counts).map fun c => (c.entries, c.blocks) := by
  have hcut : cut p.blockCounts ((p.functionCounts counts).flatMap (·.blocks)) =
      (p.functionCounts counts).map (·.blocks) := by
    rw [← Program.map_length_functionCounts hlen, List.flatMap_def]
    have hflatten := cut_flatten ((p.functionCounts counts).map (·.blocks))
    rwa [List.map_map] at hflatten
  have hlength := (Program.forall₂_functionCounts hlen).length_eq
  rw [hcut]
  refine List.ext_getElem (by simp [hlength]) fun i hi hi' => ?_
  rw [List.length_map] at hi'
  have hentries := Program.entries_functionCounts hp hlen _ (List.getElem_mem hi')
  simp [Function.ofBlockCounts, hentries]

end Binding

/-! ### Profiles -/

namespace Profile

variable {p : Program} {profile : Profile} {x : Binding}

/-- No argument that was read holds a NUL. -/
theorem nulFree_of_ofBytes {bytes : Bytes} (h : ofBytes bytes = .ok profile) :
    ∀ args ∈ profile.executions, ∀ arg ∈ args, '\x00' ∉ arg.toList := by
  obtain ⟨records, hrecords, hprofile⟩ := Outcome.bind_eq_ok_iff.mp h
  obtain ⟨-, rfl⟩ := ofRecords_eq_ok_iff.mp hprofile
  intro args hargs
  rw [total, executions_foldl_sum] at hargs
  obtain ⟨part, hpart, hargs⟩ := List.mem_flatMap.mp ((List.mem_append.mp hargs).resolve_left
    List.not_mem_nil)
  obtain ⟨record, hrecord, rfl⟩ := List.mem_map.mp hpart
  have hfree := decodeRecords_nulFree hrecords record hrecord
  cases record with
  | arguments written => exact List.mem_singleton.mp hargs ▸ hfree
  | _ => cases hargs

/-- A profile with counters of blocks alone. -/
def ofBlocks (executions : List (List String)) (counts : List UInt64) : Profile :=
  { empty with executions := executions, blockCounts := some counts }

theorem ofRecords_blocks (executions : List (List String)) (counts : List UInt64) :
    ofRecords (executions.map .arguments ++ [.blocks counts]) =
      .ok (ofBlocks executions counts) := by
  have harguments : ∀ start : Profile, (executions.map Record.arguments).foldlM addRecord start =
      .ok { start with executions := start.executions ++ executions } := by
    induction executions with
    | nil => simp [Pure.pure, Except.pure]
    | cons args executions ih =>
        intro start
        rw [List.map_cons, List.foldlM_cons]
        refine (ih (start.addExecution args)).trans ?_
        simp [addExecution]
  rw [ofRecords, List.foldlM_append, harguments]
  rfl

theorem bind_ofBlocks {executions : List (List String)} {counts : List UInt64}
    (hlen : counts.length = p.blockCounts.sum) :
    (ofBlocks executions counts).bind p =
      .ok ⟨p, ofBlocks executions counts,
        p.functions.zipWith Function.ofBlockCounts (cut p.blockCounts counts), true, none, [],
        []⟩ :=
  bind_eq_ok_iff.mpr ⟨_, _, _, bindBlocks_eq_ok_iff.mpr ⟨hlen, rfl⟩, by simp [ofBlocks, empty], rfl,
    rfl, rfl⟩

/-- The record of blocks can be bound as well, and tells the executions that it was made of. -/
theorem bind_blockRecord (hp : p.IsValid) (hedges : profile.edgeCounts.isSome)
    (hx : profile.bind p = .ok x) (executions : List (List String)) :
    ∃ blocks y, x.blockRecord = .ok (.blocks blocks) ∧ blocks.length = p.blockCounts.sum ∧
      (ofBlocks executions blocks).bind p = .ok y ∧ y.trapped = [] ∧ y.program = x.program ∧
      (∀ i block, y.executionCount i block = x.executionCount i block) ∧
      ∀ i, y.functionCount i = x.functionCount i := by
  obtain ⟨functions, trapped, timed, hfunctions, -, -, -, rfl⟩ := bind_eq_ok_iff.mp hx
  obtain ⟨counts, hcounts⟩ := Option.isSome_iff_exists.mp hedges
  rw [bindCounts, hcounts] at hfunctions
  obtain ⟨⟨hlen, -⟩, rfl⟩ := bindEdges_eq_ok_iff.mp hfunctions
  have hsize : ((p.functionCounts counts).flatMap (·.blocks)).length = p.blockCounts.sum := by
    rw [List.length_flatMap, Program.map_length_functionCounts hlen]
  exact ⟨_, _, by rw [Binding.blockRecord, hedges]; rfl, hsize, bind_ofBlocks hsize, rfl, rfl,
    Binding.counts_congr (Binding.functions_converted hp hlen)⟩

/-- A profile with counters of edges that was read and bound can be converted. What is written is
read back as a profile of the same executions that can be bound to the same program, and has the
same count for every block and every function. Whatever the prices are, computation comes to the
same, or to a sum that is too large for both. -/
theorem convert_lossless {bytes : Bytes} (hp : p.IsValid) (hblocks : p.blockCounts.sum < 2 ^ 32)
    (hprofile : ofBytes bytes = .ok profile)
    (hargs : ∀ args ∈ profile.executions, (args.map fun arg => arg.utf8ByteSize + 1).sum < 2 ^ 32)
    (hedges : profile.edgeCounts.isSome) (hx : profile.bind p = .ok x) :
    ∃ record out converted y, x.blockRecord = .ok record ∧
      encodeRecords (profile.executions.map .arguments ++ [record]) = .ok out ∧
      ofBytes out = .ok converted ∧ converted.executions = profile.executions ∧
      converted.bind p = .ok y ∧
      (∀ i block, y.executionCount i block = x.executionCount i block) ∧
      (∀ i, y.functionCount i = x.functionCount i) ∧
      ∀ a : Price.Analyzer, a.computing.run y = a.computing.run x ∧
        (a.run y).map Price.Report.computation = a.computing.run x ∧
        ∀ r, a.run x = .ok r →
          (a.run y).map Price.Report.computation = .ok r.computation := by
  obtain ⟨blocks, y, hrecord, hsize, hy, htrapped, hprogram, hexecutions, hentries⟩ :=
    bind_blockRecord hp hedges hx profile.executions
  have hencodable : ∀ r ∈ profile.executions.map Record.arguments ++ [.blocks blocks],
      r.IsEncodable := by
    intro r hr
    rcases List.mem_append.mp hr with hr | hr
    · obtain ⟨args, hmem, rfl⟩ := List.mem_map.mp hr
      exact ⟨nulFree_of_ofBytes hprofile args hmem, hargs args hmem⟩
    · obtain rfl := List.mem_singleton.mp hr
      exact hsize.trans_lt hblocks
  obtain ⟨out, hout⟩ := (exists_encodeRecords_iff _).mpr hencodable
  have hread : ofBytes out = .ok (ofBlocks profile.executions blocks) :=
    Outcome.bind_eq_ok_iff.mpr ⟨_, decodeRecords_whole hout, ofRecords_blocks _ _⟩
  refine ⟨_, out, _, y, hrecord, hout, hread, rfl, hy, hexecutions, hentries, fun a => ?_⟩
  have hsame : a.computing.run y = a.computing.run x :=
    Price.Analyzer.run_computing_congr hprogram hexecutions
  have hconverted : (a.run y).map Price.Report.computation = a.computing.run x := by
    rw [← Price.Analyzer.run_computing_of_trapped htrapped, hsame]
  exact ⟨hsame, hconverted, fun r hr =>
    hconverted.trans (Price.Analyzer.run_computing_of_ok hr)⟩

end Profile

/-- A declaration stands between the functions. -/
def declaresBetween : Program where
  functions := [
    ⟨"main", [
      ⟨"entry", [], .condBr (.var "x") 1 2⟩,
      ⟨"body", [.call (.direct "report") []], .br 2⟩,
      ⟨"exit", [], .ret⟩]⟩,
    ⟨"MPI_Send", []⟩,
    ⟨"report", [⟨"body", [], .ret⟩]⟩]
  globals := []

theorem convert_lossless_declaresBetween :
    ∃ bytes profile x out converted y,
      encodeRecords [.arguments ["a", "-n"], .edges [3, 1, 2, 1, 1] []] = .ok bytes ∧
      Profile.ofBytes bytes = .ok profile ∧ profile.bind declaresBetween = .ok x ∧
      encodeRecords [.arguments ["a", "-n"], .blocks [3, 1, 3, 1]] = .ok out ∧
      Profile.ofBytes out = .ok converted ∧ converted.bind declaresBetween = .ok y ∧
      y.executionCount 0 2 = 3 ∧ y.functionCount 0 = some 3 ∧ y.functionCount 1 = none ∧
      y.functionCount 2 = some 1 := by
  have hencode : encodeRecords [.arguments ["a", "-n"], .edges [3, 1, 2, 1, 1] []] = .ok _ := rfl
  have hread : Profile.ofBytes _ = .ok _ := Profile.ofBytes_eq (decodeRecords_whole hencode)
  have hbind : { Profile.empty with
      executions := [["a", "-n"]], edgeCounts := some [3, 1, 2, 1, 1] }.bind declaresBetween =
        .ok _ := rfl
  obtain ⟨record, out, converted, y, hrecord, hout, hconverted, -, hy, hexecutions, hentries, -⟩ :=
    Profile.convert_lossless (by decide) (by decide) hread (by decide) rfl hbind
  obtain rfl : record = .blocks [3, 1, 3, 1] := (Except.ok.inj hrecord).symm
  exact ⟨_, _, _, out, converted, y, hencode, hread, hbind, hout, hconverted, hy, hexecutions 0 2,
    hentries 0, hentries 1, hentries 2⟩

end FlowProfile
