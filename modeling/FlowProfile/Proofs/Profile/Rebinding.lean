import FlowProfile.Proofs.Exec.Handlers
import FlowProfile.Proofs.Instrument.Splitting
import FlowProfile.Proofs.Profile.BlockCalls

/-!
# Profiles bound to the instrumented program

A profile of a run is laid out as the plain program is. It can be bound to the instrumented program
as well unless blocks were put onto critical edges and the run counted edges. Both bindings then
tell the same executions of blocks and the same calls.
-/

namespace FlowProfile

/-! ### Programs with the same edges -/

namespace Function

variable {splitting : Prop} {added : Inst → Prop} {f g : Function}

/-- Without further blocks no edge was split. -/
theorem Edited.terminators_eq_of_length (h : f.Edited splitting added g)
    (hlen : g.blocks.length = f.blocks.length) : g.terminators = f.terminators := by
  induction h with
  | refl => rfl
  | insert _ _ _ _ ih =>
      rw [length_insert] at hlen
      rw [terminators_insert, ih hlen]
  | split h _ _ _ _ _ _ _ =>
      rw [length_split] at hlen
      exact absurd h.length_le (by omega)

theorem sum_edgeCounts_congr (h : g.terminators = f.terminators) :
    g.edgeCounts.sum = f.edgeCounts.sum := by
  rw [← length_edges, ← length_edges, length_blocks_congr h, edges_congr h]

/-- A block on an edge has one edge. -/
theorem sum_edgeCounts_split {b : BlockId} {source : Block} (hs : f.blocks[b]? = some source)
    (succ : ℕ) (target : Block) (dest : BlockId) :
    (f.split b succ (crossing source target dest)).edgeCounts.sum = f.edgeCounts.sum + 1 := by
  have hmodify := sum_map_modify f.blocks hs
    (fun block => { block with terminator := block.terminator.redirect succ f.blocks.length })
    (·.terminator.successors.length)
  simp only [Terminator.successors_redirect, List.length_set] at hmodify
  have hcrossing : (crossing source target dest).terminator.successors.length = 1 := rfl
  simp only [edgeCounts, split, List.map_append, List.sum_append, List.map_cons, List.map_nil,
    List.sum_singleton, hcrossing]
  omega

theorem Edited.sum_edgeCounts (h : f.Edited splitting added g) :
    g.edgeCounts.sum + f.blocks.length = f.edgeCounts.sum + g.blocks.length := by
  induction h with
  | refl => rfl
  | insert _ _ _ _ ih => rw [sum_edgeCounts_congr (terminators_insert ..), length_insert, ih]
  | split _ _ hs _ _ _ _ ih =>
      rw [sum_edgeCounts_split hs, length_split]
      omega

theorem ofEdgeCounts_congr (h : g.terminators = f.terminators) (counts : List UInt64) :
    g.ofEdgeCounts counts = f.ofEdgeCounts counts := by
  have hconst : ∀ {α : Type} (c : α), g.blocks.map (fun _ => c) = f.blocks.map fun _ => c := by
    intro α c
    rw [List.map_const', List.map_const', length_blocks_congr h]
  have hmap : ∀ {α : Type} (key : Terminator → α),
      (g.blocks.map fun block => key block.terminator) =
        f.blocks.map fun block => key block.terminator := by
    intro α key
    have hkey := congrArg (List.map key) h
    rwa [terminators, terminators, List.map_map, List.map_map] at hkey
  have htargets : g.blocks.flatMap (·.terminator.successors) =
      f.blocks.flatMap (·.terminator.successors) := by
    rw [List.flatMap_def, List.flatMap_def, hmap Terminator.successors]
  have hsizes : g.edgeCounts = f.edgeCounts := hmap fun t => t.successors.length
  cases counts with
  | nil => simp only [ofEdgeCounts, hconst]
  | cons entries counts =>
      have hexecutions : g.executions entries counts = f.executions entries counts := by
        funext b
        simp only [executions, htargets]
      simp only [ofEdgeCounts, hsizes, hexecutions, length_blocks_congr h]

theorem ofBlockCounts_congr (h : g.terminators = f.terminators) (counts : List UInt64) :
    g.ofBlockCounts counts = f.ofBlockCounts counts := by
  simp only [ofBlockCounts, List.map_const', length_blocks_congr h]

end Function

theorem zipWith_congr_left {α β γ δ : Type} {R : α → β → Prop} {xs : List α} {ys : List β}
    {f : α → γ → δ} {g : β → γ → δ} (h : List.Forall₂ R xs ys)
    (hfg : ∀ x y, R x y → ∀ z, g y z = f x z) (zs : List γ) :
    ys.zipWith g zs = xs.zipWith f zs := by
  induction h generalizing zs with
  | nil => rfl
  | @cons x y xs ys hxy _ ih =>
      cases zs with
      | nil => rfl
      | cons z zs => rw [List.zipWith_cons_cons, List.zipWith_cons_cons, hfg x y hxy, ih]

namespace Program

variable {splitting : Prop} {added : Inst → Prop} {p q : Program}

/-- The functions of both programs have the same terminators. -/
def SameEdges (p q : Program) : Prop :=
  List.Forall₂ (fun f g => g.terminators = f.terminators) p.functions q.functions

theorem Edited.sameEdges (h : p.Edited splitting added q)
    (hblocks : q.blockCounts = p.blockCounts) : p.SameEdges q := by
  refine List.forall₂_iff_get.mpr ⟨h.length_eq.symm, fun i hi hi' => ?_⟩
  have hf := List.getElem?_eq_getElem hi
  have hg := List.getElem?_eq_getElem hi'
  exact (h.get? hf hg).terminators_eq_of_length (h.blockCounts_eq_iff.mp hblocks i _ _ hf hg)

theorem SameEdges.map_eq {α : Type} (h : p.SameEdges q) {key : Function → α}
    (hkey : ∀ f g : Function, g.terminators = f.terminators → key g = key f) :
    q.functions.map key = p.functions.map key := by
  unfold SameEdges at h
  generalize p.functions = fs at h ⊢
  generalize q.functions = gs at h ⊢
  induction h with
  | nil => rfl
  | cons hfg _ ih => rw [List.map_cons, List.map_cons, hkey _ _ hfg, ih]

/-- There are as many further slots for edges as there are further blocks. -/
theorem Edited.edgeSlots_add (h : p.Edited splitting added q) :
    q.edgeSlots + p.blockCounts.sum = p.edgeSlots + q.blockCounts.sum := by
  rw [sum_map_definedFunctions, sum_map_definedFunctions, blockCounts, blockCounts]
  unfold Edited at h
  generalize p.functions = fs at h ⊢
  generalize q.functions = gs at h ⊢
  induction h with
  | nil => rfl
  | @cons f g fs gs hfg _ ih =>
      have hedges := hfg.sum_edgeCounts
      have hslots : g.slots + f.blocks.length = f.slots + g.blocks.length := by
        cases hdef : f.isDeclaration with
        | true =>
            have hf : f.blocks = [] := List.isEmpty_iff.mp hdef
            have hg : g.blocks = [] := List.isEmpty_iff.mp (hfg.isDeclaration_eq.trans hdef)
            simp [Function.slots, Function.isDeclaration, hf, hg]
        | false =>
            rw [Function.slots_eq hdef, Function.slots_eq (hfg.isDeclaration_eq.trans hdef),
              Function.length_edges, Function.length_edges]
            omega
      simp only [List.map_cons, List.sum_cons] at ih ⊢
      omega

theorem Edited.blockCounts_eq_of_edgeSlots (h : p.Edited splitting added q)
    (hslots : q.edgeSlots = p.edgeSlots) : q.blockCounts = p.blockCounts := by
  have hadd := h.edgeSlots_add
  exact h.blockCounts_eq_of_sum (by omega)

theorem SameEdges.edgeSlots_eq (h : p.SameEdges q) : q.edgeSlots = p.edgeSlots := by
  rw [sum_map_definedFunctions, sum_map_definedFunctions,
    h.map_eq fun _ _ hfg => Function.slots_congr hfg]

theorem SameEdges.blockCounts_eq (h : p.SameEdges q) : q.blockCounts = p.blockCounts :=
  h.map_eq fun _ _ hfg => Function.length_blocks_congr hfg

/-- Counters of edges and of blocks are read alike. -/
theorem SameEdges.bindCounts_eq (h : p.SameEdges q) (hp : p.IsValid) (hq : q.IsValid)
    (profile : Profile) : profile.bindCounts q = profile.bindCounts p := by
  have hslots : q.functions.map Function.slots = p.functions.map Function.slots :=
    h.map_eq fun _ _ hfg => Function.slots_congr hfg
  have hedges := zipWith_congr_left h fun f g hfg => Function.ofEdgeCounts_congr hfg
  have hblocks := zipWith_congr_left h fun f g hfg => Function.ofBlockCounts_congr hfg
  have hcounts : q.functions.map (·.blocks.length) = p.functions.map (·.blocks.length) :=
    h.blockCounts_eq
  unfold Profile.bindCounts
  cases profile.edgeCounts with
  | some counts =>
      simp only [Profile.bindEdges, h.edgeSlots_eq, Profile.edgesInRange_of_isValid hp,
        Profile.edgesInRange_of_isValid hq, hslots, hedges]
  | none =>
      cases profile.blockCounts with
      | some counts => simp only [Profile.bindBlocks, hcounts, hblocks]
      | none => exact congrArg _ (h.map_eq fun f g hfg => Function.ofEdgeCounts_congr hfg [])

end Program

/-! ### Calls -/

/-- The same call, behind more instructions or fewer. -/
def Comm.Site.Same (s t : Comm.Site) : Prop := t = { s with inst := t.inst }

/-- The same counters of the same call. -/
def TrappedCall.Same (c d : TrappedCall) : Prop :=
  c.site.Same d.site ∧ d = { c with site := d.site }

theorem Comm.PayloadSite.same_of_moved {c d : CallSite} {s t : PayloadSite}
    (hs : ofCall? c = some s) (ht : ofCall? d = some t) (hmoved : d = { c with inst := d.inst }) :
    s.toSite.Same t.toSite := by
  obtain ⟨hfunction, hblock, -⟩ := place_of_ofCall? hs
  have ht' : ofCall? ⟨c.function, c.block, d.inst, c.callee, c.args⟩ = some t := hmoved ▸ ht
  rw [ofCall?_moved, hs, Option.map_some, Option.some_inj] at ht'
  subst ht'
  simp [Site.Same, hfunction, hblock]

theorem forall₂_zipIdx_zip {α β γ δ ε : Type} {R : α → β → Prop} {S : δ → ε → Prop} {xs : List α}
    {ys : List β} {f : (α × γ) × ℕ → δ} {g : (β × γ) × ℕ → ε} (h : List.Forall₂ R xs ys)
    (hfg : ∀ x y, R x y → ∀ z i, S (f ((x, z), i)) (g ((y, z), i))) (zs : List γ) (k : ℕ) :
    List.Forall₂ S (((xs.zip zs).zipIdx k).map f) (((ys.zip zs).zipIdx k).map g) := by
  induction h generalizing zs k with
  | nil => exact .nil
  | @cons x y xs ys hxy _ ih =>
      cases zs with
      | nil => exact .nil
      | cons z zs => exact .cons (hfg x y hxy z k) (ih zs (k + 1))

namespace Program

variable {splitting : Prop} {values : Operand → Prop} {used : Strategy → Prop} {p q r : Program}
  {profile : Profile}

theorem Edited.sites_same (h : p.Edited splitting (Inst.Added values used r) q)
    (hvalid : p.IsValid) :
    List.Forall₂ (fun s t => s.toSite.Same t.toSite) p.payloadSites q.payloadSites := by
  refine (h.sites Comm.PayloadSite.placeless (fun _ _ => Comm.PayloadSite.ofCall?_registration)
    hvalid Inst.Added.onlyRegisters).imp ?_
  rintro s t ⟨c, d, ⟨_, _, -, -, hmoved, -⟩, -, hs, ht⟩
  exact Comm.PayloadSite.same_of_moved hs ht hmoved

theorem Edited.length_timedSites (h : p.Edited splitting (Inst.Added values used r) q)
    (hvalid : p.IsValid) : q.timedSites.length = p.timedSites.length :=
  (h.sites Comm.Site.placeless (fun _ _ => Comm.Site.ofCall?_registration) hvalid
    Inst.Added.onlyRegisters).length_eq.symm

/-- Where blocks have the same executions, calls have the same counters. -/
theorem Edited.trapped_same (h : p.Edited splitting (Inst.Added values used r) q)
    (hvalid : p.IsValid) {functions functions' : List FunctionCounts}
    {calls calls' : List TrappedCall}
    (hexec : ∀ i x, Profile.executionsIn functions' i x = Profile.executionsIn functions i x)
    (hcalls : profile.bindPayloads p functions = .ok calls)
    (hcalls' : profile.bindPayloads q functions' = .ok calls') :
    List.Forall₂ TrappedCall.Same calls calls' := by
  have hsites := h.sites_same hvalid
  unfold Profile.bindPayloads at hcalls hcalls'
  cases hcomm : profile.comm with
  | some counters =>
      simp only [hcomm, Outcome.bind_eq_ok_iff, Outcome.require_eq_ok_iff,
        Outcome.pure_eq_ok_iff] at hcalls hcalls'
      obtain ⟨_, -, rfl⟩ := hcalls
      obtain ⟨_, -, rfl⟩ := hcalls'
      exact forall₂_zipIdx_zip hsites (fun s t hst c i => ⟨hst, rfl⟩) counters 0
  | none =>
      cases hlegacy : profile.legacyComm with
      | some bytes =>
          simp only [hcomm, hlegacy, Outcome.bind_eq_ok_iff, Outcome.require_eq_ok_iff,
            Outcome.pure_eq_ok_iff] at hcalls hcalls'
          obtain ⟨_, -, rfl⟩ := hcalls
          obtain ⟨_, -, rfl⟩ := hcalls'
          refine forall₂_zipIdx_zip hsites (fun s t hst c i => ⟨hst, ?_⟩) bytes 0
          have hfunction : t.function = s.function := by rw [hst]
          have hblock : t.block = s.block := by rw [hst]
          simp only [hexec, hfunction, hblock]
      | none =>
          simp only [hcomm, hlegacy] at hcalls hcalls'
          obtain rfl := Except.ok.inj hcalls
          obtain rfl := Except.ok.inj hcalls'
          exact .nil

end Program

/-! ### Two bindings of one profile -/

/-- The second binding, to `q`, tells the same as the first one, to `p`. Blocks that are in one
program only have no executions. -/
structure Binding.Rebinds (p q : Program) (b b' : Binding) : Prop where
  program : b.program = p
  program' : b'.program = q
  names : q.functions.map (·.name) = p.functions.map (·.name)
  executions : ∀ i x, b'.executionCount i x = b.executionCount i x
  blocks : q.blockCounts = p.blockCounts ∨ ∀ i x, b.executionCount i x = 0
  hasBlockCounts : b'.hasBlockCounts = b.hasBlockCounts
  trapped : List.Forall₂ TrappedCall.Same b.trapped b'.trapped

namespace Profile

variable {p q : Program} {profile : Profile} {values : Operand → Prop} {used : Strategy → Prop}

/-- Without counters every block has zero executions. -/
theorem executionsIn_of_none (hedges : profile.edgeCounts = none)
    (hblocks : profile.blockCounts = none) {functions : List FunctionCounts}
    (h : profile.bindCounts p = .ok functions) (i : ℕ) (x : BlockId) :
    executionsIn functions i x = 0 := by
  rw [executionsIn_of_bindCounts h, hedges, hblocks]
  rfl

theorem rebinds {b b' : Binding} (hvalid : p.IsValid) (hgrows : p.Grows values used q)
    (hblocks : q.blockCounts = p.blockCounts ∨
      profile.edgeCounts = none ∧ profile.blockCounts = none)
    (h : profile.bind p = .ok b) (h' : profile.bind q = .ok b') : b.Rebinds p q b' := by
  obtain ⟨functions, trapped, _, hfunctions, -, htrapped, -, rfl⟩ := bind_eq_ok_iff.mp h
  obtain ⟨functions', trapped', _, hfunctions', -, htrapped', -, rfl⟩ := bind_eq_ok_iff.mp h'
  have hsame : (∀ i x, executionsIn functions' i x = executionsIn functions i x) ∧
      (q.blockCounts = p.blockCounts ∨ ∀ i x, executionsIn functions i x = 0) := by
    rcases hblocks with heq | ⟨hedges, hcounts⟩
    · have hbind := (hgrows.edited.sameEdges heq).bindCounts_eq hvalid
        (hgrows.edited.isValid hvalid) profile
      rw [hfunctions, hfunctions'] at hbind
      obtain rfl := Except.ok.inj hbind
      exact ⟨fun _ _ => rfl, .inl heq⟩
    · have hzero := executionsIn_of_none hedges hcounts hfunctions
      have hzero' := executionsIn_of_none hedges hcounts hfunctions'
      exact ⟨fun i x => (hzero' i x).trans (hzero i x).symm, .inr hzero⟩
  exact ⟨rfl, rfl, hgrows.edited.map_eq fun _ _ hfg => hfg.name_eq, hsame.1, hsame.2, rfl,
    hgrows.edited.trapped_same hvalid hsame.1 htrapped htrapped'⟩

/-- A profile that fits the plain program fits the instrumented one if this has as many blocks. -/
theorem Fits.of_sameEdges (h : profile.Fits p) (hvalid : p.IsValid) (hgrows : p.Grows values used q)
    (hblocks : q.blockCounts = p.blockCounts) : profile.Fits q := by
  have hsites := (hgrows.edited.sites_same hvalid).length_eq
  have htimed := hgrows.edited.length_timedSites hvalid
  have hslots := (hgrows.edited.sameEdges hblocks).edgeSlots_eq
  refine ⟨?_, ?_, ?_, ?_, ?_, ?_⟩
  · rw [hslots]
    exact h.edges
  · rw [hblocks]
    exact h.blocks
  · rw [← hsites]
    exact h.comm
  · rw [← hsites]
    exact h.legacy
  · rw [htimed]
    exact h.seconds
  · rw [hblocks]
    exact h.weights

theorem isSome_foldl_sumSlots {α : Type} (add : α → α → α) (xss : List (List α))
    (start : Option (List α)) :
    (xss.foldl (fun xs ys => sumSlots add xs (some ys)) start).isSome =
      (start.isSome || !xss.isEmpty) := by
  induction xss generalizing start with
  | nil => simp
  | cons xs xss ih => rw [List.foldl_cons, ih, Option.isSome_merge]; simp

/-- A profile has counters of edges if one of its records has. -/
theorem isSome_edgeCounts {records : List Record} (h : ofRecords records = .ok profile) :
    profile.edgeCounts.isSome =
      !((records.map Record.profile).map edgeCounts).reduceOption.isEmpty := by
  obtain ⟨-, rfl⟩ := ofRecords_eq_ok_iff.mp h
  rw [total_slots edgeCounts (fun _ _ => rfl) rfl, isSome_foldl_sumSlots, Option.isSome_none,
    Bool.false_or]

end Profile

namespace Instrumenter

variable {σ : Type} {ins : Instrumenter} {p q : Program} {host : Host σ} {state : σ}
  {limit : UInt64} {args : List String} {m : Machine σ} {records : List Record} {main : ℕ}
  {profile : Profile}

/-- Edges are counted, and one of them is critical. -/
def SplitsEdges (ins : Instrumenter) (p : Program) : Prop :=
  (∃ s ∈ ins.strategies, s.countsEdges) ∧ p.HasCritical

instance (ins : Instrumenter) (p : Program) : Decidable (ins.SplitsEdges p) :=
  inferInstanceAs (Decidable (_ ∧ _))

/-- Without any record the entry function was not entered. -/
theorem activations_pos_of_records (hp : p.IsPlain) (hins : ins.instrument p = .ok q)
    (hmain : p.functionIndex? ins.entry = some main)
    (hrun : q.run host state limit.toNat args = (m, .ok records)) (hrecords : records ≠ []) :
    0 < activations (q.visits host state limit.toNat) main := by
  obtain ⟨-, -, -, happly⟩ := instrument_eq_ok hmain hins
  obtain ⟨hgrows, -, -⟩ := strategies_grow (List.length_map ..) p.copies_true
    (fun _ _ => trivial) happly
  have hhandlers := (hgrows.registers hp.isUninstrumented).handlers_eq
    (strategies_registersAt (List.length_map ..) (hp.isOriginal.registersAt main) happly) hrun
  obtain ⟨-, -, -, hwritten⟩ := Program.run_eq_ok_iff.mp hrun
  by_contra hzero
  rw [Nat.eq_zero_of_not_pos hzero] at hhandlers
  rcases Machine.records_eq_ok_iff.mp hwritten with ⟨-, hnil⟩ | ⟨hsome, -⟩
  · exact hrecords hnil
  · exact hsome hhandlers

/-- A profile of a run has counters of edges if a strategy counts edges and anything was
recorded. -/
theorem edgeCounts_of_run (hp : p.IsPlain) (hins : ins.instrument p = .ok q)
    (hs : ∃ s ∈ ins.strategies, s.countsEdges)
    (hrun : q.run host state limit.toNat args = (m, .ok records)) (hrecords : records ≠ [])
    (hprofile : Profile.ofRecords records = .ok profile) : profile.edgeCounts.isSome = true := by
  cases hmain : p.functionIndex? ins.entry with
  | none => exact absurd (records_of_missing_entry hp hins hmain hrun) hrecords
  | some main =>
      have hedges : .edge ∈ ins.strategies ∨ .edgeRank ∈ ins.strategies := by
        obtain ⟨s, hs, rfl | rfl⟩ := hs
        · exact .inl hs
        · exact .inr hs
      obtain ⟨counts, -, honly, -⟩ := edges_of_run hp hins hedges hmain hrun
      have hpos := activations_pos_of_records hp hins hmain hrun hrecords
      rw [Profile.isSome_edgeCounts hprofile, honly, List.isEmpty_replicate]
      simp [hpos.ne']

/-- With no edge split both programs have the same blocks. -/
theorem blockCounts_of_instrument (hins : ins.instrument p = .ok q) (hsplits : ¬ins.SplitsEdges p) :
    q.blockCounts = p.blockCounts := by
  cases hmain : p.functionIndex? ins.entry with
  | none =>
      simp only [instrument, hmain, Outcome.bind_eq_ok_iff, Outcome.pure_eq_ok_iff] at hins
      obtain ⟨-, -, rfl⟩ := hins
      rfl
  | some main =>
      obtain ⟨-, -, hone, happly⟩ := instrument_eq_ok hmain hins
      exact (applyAll_blockCounts hone happly).mpr hsplits

/-- The profile of a run can be bound to the instrumented program unless edges were split and
something was recorded. -/
theorem exists_rebind_iff (hp : p.IsPlain) (hins : ins.instrument p = .ok q)
    (hrun : q.run host state limit.toNat args = (m, .ok records))
    (hprofile : Profile.ofRecords records = .ok profile) (hfits : profile.Fits p) :
    (∃ b, profile.bind q = .ok b) ↔ records = [] ∨ ¬ins.SplitsEdges p := by
  obtain ⟨hvalid, used, hgrows, -⟩ := instrument_grows hp.isOriginal hins
  constructor
  · rintro ⟨b, hb⟩
    refine or_iff_not_imp_left.mpr fun hrecords hsplits => ?_
    obtain ⟨counts, hcounts⟩ := Option.isSome_iff_exists.mp
      (edgeCounts_of_run hp hins hsplits.1 hrun hrecords hprofile)
    have hslots := ((Profile.exists_bind_iff.mp ⟨b, hb⟩).edges counts hcounts).1
    have hblocks := hgrows.edited.blockCounts_eq_of_edgeSlots
      (hslots.symm.trans (hfits.edges counts hcounts))
    cases hmain : p.functionIndex? ins.entry with
    | none => exact hrecords (records_of_missing_entry hp hins hmain hrun)
    | some main =>
        obtain ⟨-, -, hone, happly⟩ := instrument_eq_ok hmain hins
        exact (applyAll_blockCounts hone happly).mp hblocks hsplits
  · rintro (rfl | hsplits)
    · obtain rfl : Profile.empty = profile := Except.ok.inj hprofile
      exact Profile.bind_fits (hgrows.edited.isValid hvalid) (Profile.fits_empty q)
    · have hblocks := blockCounts_of_instrument hins hsplits
      exact Profile.bind_fits (hgrows.edited.isValid hvalid)
        (hfits.of_sameEdges hvalid hgrows hblocks)

/-- Both bindings of the profile of a run tell the same. -/
theorem rebinds_of_run {b b' : Binding} (hp : p.IsPlain) (hins : ins.instrument p = .ok q)
    (hrun : q.run host state limit.toNat args = (m, .ok records))
    (hprofile : Profile.ofRecords records = .ok profile) (hfits : profile.Fits p)
    (hb : profile.bind p = .ok b) (hb' : profile.bind q = .ok b') : b.Rebinds p q b' := by
  obtain ⟨hvalid, used, hgrows, -⟩ := instrument_grows hp.isOriginal hins
  refine Profile.rebinds hvalid hgrows ?_ hb hb'
  rcases (exists_rebind_iff hp hins hrun hprofile hfits).mp ⟨b', hb'⟩ with rfl | hsplits
  · obtain rfl : Profile.empty = profile := Except.ok.inj hprofile
    exact .inr ⟨rfl, rfl⟩
  · exact .inl (blockCounts_of_instrument hins hsplits)

end Instrumenter

end FlowProfile
