import FlowProfile.Proofs.Instrument.Passes

/-!
# Call sites of an edited program

Edits that add no call but registrations keep the number of sites of each kind, and with
it the size of every array but those of edges.
-/

namespace FlowProfile

/-- Is it a call whose site is of a kind? -/
def Inst.isSite {α : Type} (kind : CallSite → Option α) (inst : Inst) : Bool :=
  ((Inst.siteAt? 0 0 (inst, 0)).bind kind).isSome

/-- A kind of sites that does not ask where the call stands. -/
def Placeless {α : Type} (kind : CallSite → Option α) : Prop :=
  ∀ c d : CallSite, c.callee = d.callee → c.args = d.args → (kind c).isSome = (kind d).isSome

/-- A site tells where its call stands, and takes all else from the call. -/
theorem Comm.Site.ofCall?_moved (c : CallSite) (function : ℕ) (block : BlockId) (inst : ℕ) :
    ofCall? ⟨function, block, inst, c.callee, c.args⟩ =
      (ofCall? c).map fun s => ⟨function, block, inst, s.callee, s.op⟩ := by
  obtain ⟨_, _, _, callee, args⟩ := c
  cases callee <;> simp [ofCall?, Function.comp_def]

theorem Comm.Site.placeless : Placeless Site.ofCall? := by
  rintro c ⟨function, block, inst, _, _⟩ rfl rfl
  rw [ofCall?_moved c function block inst, Option.isSome_map]

theorem Comm.Site.place_of_ofCall? {c : CallSite} {s : Site} (h : ofCall? c = some s) :
    s.function = c.function ∧ s.block = c.block ∧ s.inst = c.inst := by
  unfold ofCall? at h
  split at h
  · obtain ⟨_, -, rfl⟩ := Option.map_eq_some_iff.mp h
    exact ⟨rfl, rfl, rfl⟩
  · cases h

theorem Comm.PayloadSite.ofCall?_moved (c : CallSite) (function : ℕ) (block : BlockId)
    (inst : ℕ) :
    ofCall? ⟨function, block, inst, c.callee, c.args⟩ =
      (ofCall? c).map fun s => ⟨⟨function, block, inst, s.callee, s.op⟩, s.count, s.datatype⟩ := by
  obtain ⟨_, _, _, callee, args⟩ := c
  cases callee with
  | indirect target => rfl
  | direct name =>
      cases hop : Operation.lookup? name with
      | none => simp [ofCall?, Site.ofCall?, hop]
      | some op =>
          cases hpayload : op.payload with
          | none => simp [ofCall?, Site.ofCall?, hop, hpayload]
          | some payload =>
              obtain ⟨count, datatype⟩ := payload
              cases hmoves : op.movesData with
              | false => simp [ofCall?, Site.ofCall?, hop, hpayload, hmoves]
              | true =>
                  cases hc : args[count]? <;> cases hd : args[datatype]? <;>
                    simp [ofCall?, Site.ofCall?, hop, hpayload, hmoves, hc, hd]

theorem Comm.PayloadSite.placeless : Placeless PayloadSite.ofCall? := by
  rintro c ⟨function, block, inst, _, _⟩ rfl rfl
  rw [ofCall?_moved c function block inst, Option.isSome_map]

theorem Comm.PayloadSite.place_of_ofCall? {c : CallSite} {s : PayloadSite}
    (h : ofCall? c = some s) : s.function = c.function ∧ s.block = c.block ∧ s.inst = c.inst := by
  have hmoved := ofCall?_moved c c.function c.block c.inst
  rw [h] at hmoved
  have heq := Option.some.inj hmoved
  exact ⟨congrArg (·.function) heq, congrArg (·.block) heq, congrArg (·.inst) heq⟩

/-- A registration is no site. -/
theorem Comm.Site.ofCall?_registration {c : CallSite} {s : Strategy}
    (h : c.callee = .direct s.entryPoint) : Site.ofCall? c = none := by
  simp [ofCall?, h, Strategy.lookup?_entryPoint]

theorem Comm.PayloadSite.ofCall?_registration {c : CallSite} {s : Strategy}
    (h : c.callee = .direct s.entryPoint) : PayloadSite.ofCall? c = none := by
  simp [ofCall?, Site.ofCall?_registration h]

/-- How sites of a kind are found: each tells where its call stands, and the calls are those of
operations. -/
structure SiteKind (α : Type) where
  find : CallSite → Option α
  site : α → Comm.Site
  moved : α → ℕ → α
  placeless : Placeless find
  place : ∀ {c s}, find c = some s →
    (site s).function = c.function ∧ (site s).block = c.block ∧ (site s).inst = c.inst
  find_moved : ∀ c i, find { c with inst := i } = (find c).map (moved · i)
  operation : ∀ {c s}, find c = some s →
    ∃ name op, c.callee = .direct name ∧ Comm.Operation.lookup? name = some op

theorem SiteKind.registration {α : Type} (k : SiteKind α) (c : CallSite) (s : Strategy)
    (hc : c.callee = .direct s.entryPoint) : k.find c = none := by
  cases hfind : k.find c with
  | none => rfl
  | some t =>
      obtain ⟨name, op, hname, hop⟩ := k.operation hfind
      rw [hc] at hname
      rw [← Callee.direct.inj hname, s.lookup?_entryPoint] at hop
      cases hop

def Comm.Site.kind : SiteKind Site where
  find := ofCall?
  site s := s
  moved s i := { s with inst := i }
  placeless := placeless
  place := place_of_ofCall?
  find_moved c i := by
    refine (ofCall?_moved c c.function c.block i).trans (Option.map_congr fun s hs => ?_)
    obtain ⟨hfunction, hblock, -⟩ := place_of_ofCall? hs
    rw [hfunction, hblock]
  operation {c} s h := by
    unfold ofCall? at h
    split at h
    · rename_i name hname
      obtain ⟨op, hop, -⟩ := Option.map_eq_some_iff.mp h
      exact ⟨name, op, hname, hop⟩
    · cases h

def Comm.PayloadSite.kind : SiteKind PayloadSite where
  find := ofCall?
  site s := s.toSite
  moved s i := { s with inst := i }
  placeless := placeless
  place := place_of_ofCall?
  find_moved c i := by
    refine (ofCall?_moved c c.function c.block i).trans (Option.map_congr fun s hs => ?_)
    obtain ⟨hfunction, hblock, -⟩ := place_of_ofCall? hs
    rw [hfunction, hblock]
  operation h := by
    obtain ⟨hname, hop, -⟩ := ofCall?_eq_some h
    exact ⟨_, _, hname, hop⟩

/-! ### Numbers of sites -/

/-- The sites of a function of some kind. -/
def Function.siteCount {α : Type} (kind : CallSite → Option α) (f : Function) : ℕ :=
  (f.blocks.map fun b => b.insts.countP (Inst.isSite kind)).sum

theorem countP_callSites_block {α : Type} {kind : CallSite → Option α} (hkind : Placeless kind)
    (b : Block) (function : ℕ) (block : BlockId) :
    (b.callSites function block).countP (fun c => (kind c).isSome) =
      b.insts.countP (Inst.isSite kind) := by
  have hsite : ∀ x : Inst × ℕ,
      (((Inst.siteAt? function block x).bind kind).isSome) = Inst.isSite kind x.1 := by
    rintro ⟨inst, index⟩
    cases inst <;> simp [Inst.siteAt?, Inst.isSite]
    exact hkind _ _ rfl rfl
  unfold Block.callSites
  rw [List.countP_filterMap]
  calc b.insts.zipIdx.countP _
      = b.insts.zipIdx.countP (Inst.isSite kind ∘ Prod.fst) := by
        apply List.countP_congr
        intro x _
        have h := hsite x
        cases hs : Inst.siteAt? function block x <;> simp_all
    _ = b.insts.countP (Inst.isSite kind) := by
        rw [← List.countP_map, List.zipIdx_map_fst]

theorem Program.length_filterMap_callSites {α : Type} {kind : CallSite → Option α}
    (hkind : Placeless kind) (p : Program) :
    (p.callSites.filterMap kind).length = (p.functions.map (Function.siteCount kind)).sum := by
  have hfunction : ∀ x : Function × ℕ,
      (x.1.callSites x.2).countP (fun c => (kind c).isSome) = x.1.siteCount kind := by
    rintro ⟨f, function⟩
    unfold Function.callSites Function.siteCount
    rw [List.countP_flatMap]
    simp only [Function.comp_def, countP_callSites_block hkind]
    exact sum_map_zipIdx f.blocks fun b => b.insts.countP (Inst.isSite kind)
  rw [List.length_filterMap_eq_countP]
  unfold Program.callSites
  rw [List.countP_flatMap]
  simp only [Function.comp_def, hfunction]
  exact sum_map_zipIdx p.functions (Function.siteCount kind)

/-! ### Sites and edits -/

theorem Function.Edited.siteCount_eq {α : Type} (kind : CallSite → Option α) {splitting : Prop}
    {added : Inst → Prop} {f g : Function} (h : f.Edited splitting added g)
    (hadd : ∀ inst, added inst → inst.isSite kind = false) :
    g.siteCount kind = f.siteCount kind :=
  h.instCount_eq hadd

/-- What no edit changes is the same for all functions. -/
theorem Program.Edited.map_eq {α : Type} {splitting : Prop} {added : Inst → Prop} {p q : Program}
    (h : p.Edited splitting added q) {key : Function → α}
    (hkey : ∀ f g, f.Edited splitting added g → key g = key f) :
    q.functions.map key = p.functions.map key := by
  apply List.ext_getElem
  · simp [h.length_eq]
  · intro i hi hi'
    rw [List.getElem_map, List.getElem_map]
    rw [List.length_map] at hi hi'
    exact hkey _ _ (h.get? (List.getElem?_eq_getElem hi') (List.getElem?_eq_getElem hi))

/-- The only calls among the given instructions are registrations. -/
def OnlyRegisters (added : Inst → Prop) : Prop :=
  ∀ callee args, added (.call callee args) → ∃ s : Strategy, callee = .direct s.entryPoint

theorem OnlyRegisters.isSite_eq_false {α : Type} {kind : CallSite → Option α} {added : Inst → Prop}
    (hadd : OnlyRegisters added)
    (hkind : ∀ c (s : Strategy), c.callee = .direct s.entryPoint → kind c = none)
    {inst : Inst} (h : added inst) : inst.isSite kind = false := by
  cases inst with
  | call callee args =>
      obtain ⟨s, hs⟩ := hadd callee args h
      simp [Inst.isSite, Inst.siteAt?, hkind ⟨0, 0, 0, callee, args⟩ s hs]
  | _ => rfl

/-- The numbers of sites stay, and so do the sizes of arrays. -/
theorem Pass.size_eq {splitting : Prop} {added : Inst → Prop} {p q : Program}
    (h : p.Edited splitting added q) (hadd : OnlyRegisters added) (blocks : List ℕ) {pass : Pass}
    (hsplits : ¬pass.Splits) : pass.size blocks q = pass.size blocks p := by
  cases pass with
  | edges counters => exact absurd trivial hsplits
  | rank counters => rfl
  | comm counters =>
      have hsites := h.map_eq fun f g hfg =>
        hfg.siteCount_eq Comm.PayloadSite.ofCall? fun inst ha =>
          hadd.isSite_eq_false (fun _ _ hc => Comm.PayloadSite.ofCall?_registration hc) ha
      simp only [size, Program.payloadSites,
        Program.length_filterMap_callSites Comm.PayloadSite.placeless, hsites]
  | time counters =>
      have hsites := h.map_eq fun f g hfg =>
        hfg.siteCount_eq Comm.Site.ofCall? fun inst ha =>
          hadd.isSite_eq_false (fun _ _ hc => Comm.Site.ofCall?_registration hc) ha
      simp only [size, Program.timedSites,
        Program.length_filterMap_callSites Comm.Site.placeless, hsites]
  | weights counters => rfl

end FlowProfile
