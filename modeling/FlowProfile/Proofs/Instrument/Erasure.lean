import FlowProfile.Proofs.Instrument.EdgeSlots
import FlowProfile.Proofs.Instrument.Originals

/-!
# Instrumentation only adds

What instrumentation added can be taken out again. Blocks on edges are skipped, and of the
instructions only those of the program itself are left: the functions are then as they were.
-/

namespace FlowProfile

/-! ### Names of blocks -/

namespace Function

def blockNames (f : Function) : List String := f.blocks.map (·.name)

@[simp] theorem blockNames_insert (f : Function) (b : BlockId) (index : ℕ) (inst : Inst) :
    (f.insert b index inst).blockNames = f.blockNames := by
  apply List.ext_getElem?
  intro x
  simp only [blockNames, List.getElem?_map, getElem?_insert, Option.map_map]
  cases f.blocks[x]? with
  | none => rfl
  | some block => by_cases h : b = x <;> simp [h]

theorem blockNames_split (f : Function) (b : BlockId) (succ : ℕ) (c : Block) :
    (f.split b succ c).blockNames = f.blockNames ++ [c.name] := by
  simp only [blockNames, split, List.map_append, List.map_cons, List.map_nil]
  congr 1
  apply List.ext_getElem?
  intro x
  rw [List.getElem?_map, List.getElem?_map, List.getElem?_modify, Option.map_eq_map,
    Option.map_map]
  cases f.blocks[x]? with
  | none => rfl
  | some block => by_cases h : b = x <;> simp [h]

theorem Edited.blockNames_prefix {splitting : Prop} {added : Inst → Prop} {f g : Function}
    (h : Edited splitting added f g) : f.blockNames <+: g.blockNames := by
  induction h with
  | refl => exact List.prefix_rfl
  | insert _ _ _ _ ih => simpa using ih
  | split _ _ _ _ _ _ _ ih =>
      rw [blockNames_split]
      exact ih.trans (List.prefix_append ..)

/-! ### Erasing -/

/-- The first `own` blocks without what instrumentation adds. An edge into another block goes on to
where that block leads. -/
def erase (own : ℕ) (g : Function) : Function :=
  { g with
    blocks := (g.blocks.take own).map fun block =>
      { block with
        insts := block.insts.filter Inst.isOriginal
        terminator := block.terminator.mapTargets (g.landing own) } }

/-- Each block that is not among the first `own` ones stands on an edge to one of them. It does
nothing but what instrumentation adds, and registers nothing. -/
def AddsCrossings (own : ℕ) (g : Function) : Prop :=
  ∀ (x : BlockId) (block : Block), own ≤ x → g.blocks[x]? = some block →
    (∀ inst ∈ block.insts, inst.isOwn = false) ∧ (∃ dest < own, block.terminator = .br dest) ∧
      g.predecessorCount x = 1

variable {splitting : Prop} {added : Inst → Prop} {f g : Function}

/-- An edited function is the one that it was, but for what was added. -/
theorem Edited.erase_eq (h : f.Edited splitting added g) (hvalid : f.IsValid)
    (horiginal : f.IsOriginal) (hadd : ∀ inst, added inst → inst.isOriginal = false) :
    g.erase f.blocks.length = f := by
  have hrefines := h.refines hvalid
  obtain ⟨name, blocks⟩ := f
  rw [erase, h.name_eq]
  congr 1
  refine List.ext_getElem (by simpa using hrefines.length) fun x hx hxOwn => ?_
  rw [List.getElem_map, List.getElem_take]
  obtain ⟨block, hb, hwoven, hterminator⟩ :=
    hrefines.own x blocks[x] (List.getElem?_eq_getElem hxOwn)
  obtain ⟨hlt, rfl⟩ := List.getElem?_eq_some_iff.mp hb
  have hname : g.blocks[x].name = blocks[x].name := by
    have hprefix := h.blockNames_prefix.getElem (i := x) (by simpa [blockNames] using hxOwn)
    simpa [blockNames] using hprefix.symm
  have hinsts := hwoven.filter_isOriginal hadd (horiginal _ (List.getElem_mem hxOwn))
  rw [hname, hinsts, hterminator]

/-- The blocks that were put onto edges have no calls if no block but the entry got any. -/
theorem Edited.addsCrossings (h : f.Edited splitting added g) (hvalid : f.IsValid)
    (htally : ∀ x, x ≠ 0 → g.tally Inst.isOwn x = f.tally Inst.isOwn x) :
    g.AddsCrossings f.blocks.length := by
  intro x block hx hb
  obtain ⟨-, hpred, hbr⟩ := (h.refines hvalid).crossing x block hx hb
  refine ⟨?_, hbr, hpred⟩
  have hne : x ≠ 0 := by
    rintro rfl
    -- a function without an entry is a declaration and has no other block either
    have hdecl := h.isDeclaration_eq
    rw [isDeclaration, isDeclaration, List.isEmpty_iff.mpr (List.length_eq_zero_iff.mp
      (Nat.le_zero.mp hx)), List.isEmpty_iff] at hdecl
    simp [hdecl] at hb
  have hcount := htally x hne
  simp only [tally, hb, List.getElem?_eq_none hx, Option.map_some, Option.map_none,
    Option.getD_some, Option.getD_none, List.countP_eq_zero] at hcount
  intro inst hinst
  exact Bool.eq_false_iff.mpr (hcount inst hinst)

end Function

/-! ### Programs -/

namespace Program

/-- The functions without what instrumentation adds, given how many blocks each of them had. -/
def erase (blocks : List ℕ) (q : Program) : List Function :=
  blocks.zipWith Function.erase q.functions

theorem Edited.erase_eq {splitting : Prop} {added : Inst → Prop} {p q : Program}
    (h : p.Edited splitting added q) (hvalid : p.IsValid) (horiginal : p.IsOriginal)
    (hadd : ∀ inst, added inst → inst.isOriginal = false) :
    q.erase p.blockCounts = p.functions := by
  refine List.ext_getElem (by simp [erase, blockCounts, h.length_eq]) fun i hi hp => ?_
  have hq : i < q.functions.length := h.length_eq ▸ hp
  simp only [erase, blockCounts, List.getElem_zipWith, List.getElem_map]
  exact (h.get? (List.getElem?_eq_getElem hp) (List.getElem?_eq_getElem hq)).erase_eq
    (hvalid _ (List.getElem_mem hp)) (horiginal _ (List.getElem_mem hp)) hadd

end Program

namespace Instrumenter

variable {ins : Instrumenter} {p q : Program}

/-- A program without the entry function stays as it is, and any other one grows. -/
theorem instrument_edited (h : ins.instrument p = .ok q) :
    p.IsValid ∧ p.Grows (fun _ => True) (· ∈ ins.strategies) q := by
  cases hmain : p.functionIndex? ins.entry with
  | none =>
      simp only [instrument, hmain, Outcome.bind_eq_ok_iff, Outcome.pure_eq_ok_iff] at h
      obtain ⟨_, hvalid, rfl⟩ := h
      exact ⟨(Program.validate_eq_ok_iff p).mp hvalid, .refl p⟩
  | some main =>
      obtain ⟨hvalid, -, -, happly⟩ := instrument_eq_ok hmain h
      have hgrow := strategies_grow (List.length_map ..) p.copies_true (fun _ _ => trivial) happly
      exact ⟨hvalid, hgrow.1⟩

/-- Calls are added at the start of the entry function alone. -/
theorem applyAll_tally_isOwn {blocks : List ℕ} {main : ℕ}
    (hblocks : blocks.length = p.functions.length) (h : ins.applyAll blocks main p = .ok q)
    (i : ℕ) (g : Function) (hg : q.functions[i]? = some g) : ∃ f, p.functions[i]? = some f ∧
      ∀ x, x ≠ 0 → g.tally Inst.isOwn x = f.tally Inst.isOwn x := by
  refine (applyAll_invariant
    (fun r => blocks.length = r.functions.length ∧ ∀ (i : ℕ) (g : Function),
      r.functions[i]? = some g → ∃ f, p.functions[i]? = some f ∧
        ∀ x, x ≠ 0 → g.tally Inst.isOwn x = f.tally Inst.isOwn x) ?_ ?_
    ⟨hblocks, fun i g hg => ⟨g, hg, fun _ _ => rfl⟩⟩ h).2 i g hg
  · rintro pass r r' ⟨hlen, hkept⟩ hr
    obtain ⟨-, -, hedited⟩ := pass_spec hlen r.copies_true (fun _ _ => trivial) hr
    refine ⟨hlen.trans hedited.length_eq.symm, fun i g hg => ?_⟩
    obtain ⟨f', hf', hfg⟩ := hedited.exists_left hg
    obtain ⟨f, hf, htally⟩ := hkept i f' hf'
    refine ⟨f, hf, fun x hx => ?_⟩
    rw [hfg.tally_eq (fun inst ha => by cases ha <;> rfl), htally x hx]
  · rintro s r r' ⟨hlen, hkept⟩ hr
    obtain ⟨-, hedited⟩ := Program.update_insertAtStart_edited hr
    refine ⟨hlen.trans hedited.length_eq.symm, fun i g hg => ?_⟩
    obtain ⟨rfl, block, hb, hi⟩ := Program.update_insertAt hr
    obtain ⟨f', hf', htallyInsert⟩ := Program.tally_insert hb hi hg
    obtain ⟨f, hf, htally⟩ := hkept i f' hf'
    refine ⟨f, hf, fun x hx => ?_⟩
    rw [htallyInsert, htally x hx, if_neg fun hentry => hx hentry.1.2, Nat.add_zero]

theorem instrument_tally_isOwn (h : ins.instrument p = .ok q) (i : ℕ) (g : Function)
    (hg : q.functions[i]? = some g) : ∃ f, p.functions[i]? = some f ∧
      ∀ x, x ≠ 0 → g.tally Inst.isOwn x = f.tally Inst.isOwn x := by
  cases hmain : p.functionIndex? ins.entry with
  | none =>
      simp only [instrument, hmain, Outcome.bind_eq_ok_iff, Outcome.pure_eq_ok_iff] at h
      obtain ⟨_, -, rfl⟩ := h
      exact ⟨g, hg, fun _ _ => rfl⟩
  | some main =>
      exact applyAll_tally_isOwn (List.length_map ..) (instrument_eq_ok hmain h).2.2.2 i g hg

/-- Instrumentation only adds, whatever the strategies and the weights are. The program that comes
out is valid and has the arrays that there were before its own. Every block that is new stands on
one edge and does nothing of the program itself, and without what is new the functions are
those that were instrumented. -/
theorem instrument_erase (hp : p.IsOriginal) (h : ins.instrument p = .ok q) :
    q.validate = .ok () ∧ p.globals <+: q.globals ∧
      List.Forall₂ (fun f g => g.AddsCrossings f.blocks.length) p.functions q.functions ∧
      q.erase p.blockCounts = p.functions := by
  obtain ⟨hvalid, hgrows⟩ := instrument_edited h
  have hedit := hgrows.edited
  refine ⟨?_, hgrows.globals, ?_, hedit.erase_eq hvalid hp fun _ ha => ha.isOriginal_eq_false⟩
  · rw [Program.validate_eq_ok_iff]
    intro g hg
    obtain ⟨i, hi⟩ := List.mem_iff_getElem?.mp hg
    obtain ⟨f, hf, hfg⟩ := hedit.exists_left hi
    exact hfg.isValid (hvalid f (List.mem_of_getElem? hf))
  · refine List.forall₂_iff_get.mpr ⟨hedit.length_eq.symm, fun i hi hi' => ?_⟩
    have hf := List.getElem?_eq_getElem hi
    have hg := List.getElem?_eq_getElem hi'
    obtain ⟨f, hf', htally⟩ := instrument_tally_isOwn h i _ hg
    obtain rfl := Option.some.inj (hf'.symm.trans hf)
    exact (hedit.get? hf hg).addsCrossings (hvalid _ (List.getElem_mem hi)) htally

end Instrumenter

/-- Every edge is critical, and two of them join the same blocks. -/
def sendByRank : Program where
  functions := [
    ⟨"main", [
      ⟨"entry", [.call (.direct "MPI_Comm_rank") [.const 0, .var "rank"]],
        .switch (.var "rank") 2 [(0, 1), (1, 1)]⟩,
      ⟨"send", [.op "add" (some "i") [.var "i", .const 1],
        .call (.direct "MPI_Send") [.const 0, .var "i", .const 8],
        .op "lt" (some "again") [.var "i", .const 3]], .condBr (.var "again") 1 2⟩,
      ⟨"exit", [.call (.indirect (.const 1)) []], .ret⟩]⟩,
    ⟨"MPI_Send", []⟩]
  globals := [⟨"results", .f64, 3, 0⟩]

theorem instrument_erase_sendByRank :
    ∃ q, Instrumenter.instrument ⟨[.comm, .edgeRank, .time, .weightedBlock], "main",
        [⟨"main", 1, .var "i"⟩]⟩ sendByRank = .ok q ∧
      q.blockCounts = [8, 0] ∧ q.validate = .ok () ∧ sendByRank.globals <+: q.globals ∧
      List.Forall₂ (fun f g => g.AddsCrossings f.blocks.length) sendByRank.functions q.functions ∧
      q.erase [3, 0] = sendByRank.functions := by
  have hins : Instrumenter.instrument ⟨[.comm, .edgeRank, .time, .weightedBlock], "main",
      [⟨"main", 1, .var "i"⟩]⟩ sendByRank = .ok _ := rfl
  exact ⟨_, hins, rfl, Instrumenter.instrument_erase (by decide) hins⟩

end FlowProfile
