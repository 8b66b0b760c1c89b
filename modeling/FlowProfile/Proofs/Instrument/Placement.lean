import FlowProfile.Proofs.Instrument.EdgeLayout
import FlowProfile.Proofs.Instrument.Enclosing
import FlowProfile.Proofs.Instrument.PayloadTraps
import FlowProfile.Proofs.Instrument.TimedCalls

/-!
# Where traps stand in an instrumented program

Whatever the strategies are, the sites of the instrumented program are those of the plain one, in
the same order. The traps of a site are nearest to its call, with nothing of the program itself
between, and their slots tell the number of the site. There are no other traps.
-/

namespace FlowProfile

/-! ### Sites -/

/-- The same site, but for the instructions before it, which are no fewer. -/
def SiteKind.Shifted {α : Type} (k : SiteKind α) (s t : α) : Prop :=
  t = k.moved s (k.site t).inst ∧ (k.site s).inst ≤ (k.site t).inst

namespace Program

/-- The instructions before the call of a site, the last first. -/
def ahead (p : Program) (s : Comm.Site) : List Inst :=
  ((p.block? s.function s.block).map fun b => (b.insts.take s.inst).reverse).getD []

/-- The instructions behind the call of a site. -/
def behind (p : Program) (s : Comm.Site) : List Inst :=
  ((p.block? s.function s.block).map (·.insts.drop (s.inst + 1))).getD []

/-- The instructions of the program itself from a site on. -/
def originalsFrom (p : Program) (s : Comm.Site) : List Inst :=
  ((p.block? s.function s.block).map
    fun b => (b.insts.drop s.inst).filter Inst.isOriginal).getD []

section

variable {p : Program} {s : Comm.Site} {block : Block}

theorem ahead_eq (h : p.block? s.function s.block = some block) :
    p.ahead s = (block.insts.take s.inst).reverse := by
  rw [ahead, h, Option.map_some, Option.getD_some]

theorem behind_eq (h : p.block? s.function s.block = some block) :
    p.behind s = block.insts.drop (s.inst + 1) := by
  rw [behind, h, Option.map_some, Option.getD_some]

theorem originalsFrom_eq (h : p.block? s.function s.block = some block) :
    p.originalsFrom s = (block.insts.drop s.inst).filter Inst.isOriginal := by
  rw [originalsFrom, h, Option.map_some, Option.getD_some]

end

end Program

namespace SiteKind

variable {α : Type} {kind : Inst → Bool} {splitting : Prop} {added : Inst → Prop} {p q : Program}
  {s t : α} {i : ℕ}

theorem isOriginal (k : SiteKind α) {c : CallSite} (hc : k.find c = some s) :
    (Inst.call c.callee c.args).isOriginal = true := by
  obtain ⟨name, op, hname, hop⟩ := k.operation hc
  simp [hname, Inst.isOriginal, Inst.isOwn, Inst.callee?,
    Strategy.ofEntryPoint?_eq_none_of_lookup? hop]

/-- The site of the same call at another place is the same. -/
theorem eq_moved (k : SiteKind α) {c d : CallSite} (hmoved : d = { c with inst := d.inst })
    (hs : k.find c = some s) (ht : k.find d = some t) : t = k.moved s d.inst := by
  have heq := k.find_moved c d.inst
  rw [← hmoved, hs, ht] at heq
  exact Option.some.inj heq

/-- Edits move sites to later places, and keep all else of them. -/
theorem shifted (k : SiteKind α) (hvalid : p.IsValid) (hadd : OnlyRegisters added)
    (h : p.Edited splitting added q) :
    List.Forall₂ k.Shifted (p.callSites.filterMap k.find) (q.callSites.filterMap k.find) := by
  refine (h.sites k.placeless k.registration hvalid hadd).imp ?_
  rintro s t ⟨c, d, ⟨_, _, -, -, hmoved, -⟩, hle, hs, ht⟩
  rw [SiteKind.Shifted, (k.place hs).2.2, (k.place ht).2.2]
  exact ⟨k.eq_moved hmoved hs ht, hle⟩

/-- Where nothing is of the kind yet, all sites wait for their turns. -/
theorem waits (k : SiteKind α) (lead : List Inst) (trail : α → ℕ → List Inst)
    (hnever : ∀ inst, p.HasInst inst → kind inst = false)
    (hs : s ∈ p.callSites.filterMap k.find) :
    Enclosing.Waits kind lead trail (p.originalsFrom (k.site s)) (k.site s) p := by
  obtain ⟨c, hc, hfind⟩ := List.mem_filterMap.mp hs
  obtain ⟨hfunction, hblock, hinst⟩ := k.place hfind
  obtain ⟨block, hb, hcall⟩ := Program.mem_callSites.mp hc
  have hlt := (List.getElem?_eq_some_iff.mp hcall).1
  have hnone : ∀ insts, insts ⊆ block.insts → nearest kind insts = [] := fun insts hsub =>
    nearest_eq_nil fun inst hmem =>
      hnever inst ⟨c.function, c.block, block, hb, hsub hmem⟩
  have hdrop := drop_of_getElem? hcall
  rw [← hfunction, ← hblock] at hb
  refine ⟨block, hb, block.insts.take c.inst, _, block.insts.drop (c.inst + 1), ?_, ?_,
    k.isOriginal hfind, ?_, ?_, ?_⟩
  · rw [← hdrop, List.take_append_drop]
  · rw [List.length_take_of_le hlt.le, hinst]
  · rw [← hdrop, Program.originalsFrom_eq hb, hinst]
  · rw [hnone _ fun inst hmem => List.mem_of_mem_take (List.mem_reverse.mp hmem)]
    exact nofun
  · rw [hnone _ fun inst hmem => List.mem_of_mem_drop hmem]
    exact List.nil_subset lead

/-- What is nearest to the call that was at a site is nearest to the site that it is now. -/
theorem nearest_site (k : SiteKind α) (hvalid : p.IsValid) (honly : OnlyRegisters added)
    (hadd : ∀ inst, added inst → inst.isOriginal = false) (hedit : p.Edited splitting added q)
    (ht : (q.callSites.filterMap k.find)[i]? = some t) :
    ∃ s, (p.callSites.filterMap k.find)[i]? = some s ∧ t = k.moved s (k.site t).inst ∧
      ∀ kind index ahead behind,
        q.AmidAt kind (p.originalsFrom (k.site s)) (k.site s) index ahead behind →
        ahead (nearest kind (q.ahead (k.site t))) ∧
          behind (nearest kind (q.behind (k.site t))) := by
  have hlen := (hedit.sites k.placeless k.registration hvalid honly).length_eq
  obtain ⟨s, hs⟩ : ∃ s, (p.callSites.filterMap k.find)[i]? = some s :=
    ⟨_, List.getElem?_eq_getElem (hlen ▸ (List.getElem?_eq_some_iff.mp ht).1)⟩
  obtain ⟨t', c, d, ht', ⟨block, block', hb, hb', hmoved, -, hcall, hwoven⟩, hc, hd⟩ :=
    hedit.exists_site k.placeless k.registration hvalid honly hs
  obtain rfl : t = t' := Option.some.inj (ht.symm.trans ht')
  refine ⟨s, hs, (k.place hd).2.2 ▸ k.eq_moved hmoved hc hd, ?_⟩
  rintro kind index ahead behind ⟨block'', hb'', hamid⟩
  obtain ⟨hfunction, hblock, hinst⟩ := k.place hc
  obtain ⟨hfunction', hblock', hinst'⟩ := k.place hd
  rw [hfunction, hblock] at hb''
  obtain rfl := Option.some.inj (hb'.symm.trans hb'')
  rw [← hfunction, ← hblock] at hb
  have hplace : q.block? (k.site t).function (k.site t).block = some block' := by
    rw [hfunction', hblock', hmoved]
    exact hb'
  have hown : (block'.insts.drop d.inst).filter Inst.isOriginal = p.originalsFrom (k.site s) := by
    rw [hwoven.filter_eq hadd, Program.originalsFrom_eq hb, hinst]
  rw [Program.ahead_eq hplace, Program.behind_eq hplace, hinst']
  exact hamid.at_index hcall (k.isOriginal hd) hown

end SiteKind

/-! ### What other strategies keep -/

/-- No instruction that the pass inserts is of the kind. -/
def Pass.Spares (kind : Inst → Bool) (pass : Pass) : Prop :=
  ∀ values len inst, pass.Adds values len inst → kind inst = false

theorem Pass.Adds.isOwn_eq_false {values : Operand → Prop} {len : ℕ} {pass : Pass} {inst : Inst}
    (h : pass.Adds values len inst) : inst.isOwn = false := by
  cases h <;> rfl

/-- What is kept when instructions of other kinds are inserted, and when strategies are registered
at the start of a function. -/
structure KeptBeside (kind : Inst → Bool) (main : ℕ) (kept : Program → Prop) : Prop where
  edited : ∀ {splitting : Prop} {added : Inst → Prop} {r r' : Program},
    r.Edited splitting added r' →
    (∀ inst, added inst → inst.isOwn = false ∧ kind inst = false) → kept r → kept r'
  registered : ∀ (s : Strategy) (r r' : Program),
    (r.update main fun f => f.insertAtStart 0 s.registration) = .ok r' → kept r → kept r'

/-- The first pass of a strategy puts instructions around the calls of some sites, and no other pass
inserts any of their kind. -/
structure Strategy.Places {α : Type} (s : Strategy) (k : SiteKind α) (kind : Inst → Bool)
    (lead : List Inst) (trail : α → ℕ → List Inst)
    (step : Program → α × ℕ → Outcome Program) : Prop where
  enclosing : Enclosing kind k.site lead trail step
  moved : ∀ t i j, trail (k.moved t j) i = trail t i
  isOwn : ∀ inst : Inst, inst.isOwn = true → kind inst = false
  passes : ∃ pass rest, s.passes = pass :: rest ∧
    (∀ {ins : Instrumenter} {blocks p q}, ins.pass blocks p pass = .ok q →
      ∃ declared : Program, declared.functions = p.functions ∧
        (p.callSites.filterMap k.find).zipIdx.reverse.foldlM step declared = .ok q) ∧
    ∀ t : Strategy, ∀ pass' ∈ t.passes, t ≠ s ∨ pass' ∈ rest → pass'.Spares kind

namespace Program

variable {kind : Inst → Bool} {main : ℕ}

theorem AmidAt.keptBeside {own : List Inst} {s : Comm.Site} {ahead behind : List Inst → Prop} :
    KeptBeside kind main (·.AmidAt kind own s (fun _ => True) ahead behind) where
  edited := by
    rintro splitting added r r' hedit hadd ⟨block, hb, hamid⟩
    exact hedit.block_insts _
      (fun _ i inst ha hinsts => hinsts.insertIdx (hadd inst ha).1 (hadd inst ha).2 i) hb hamid
  registered := by
    rintro t r r' hregister ⟨block, hb, hamid⟩
    obtain ⟨rfl, entry, hentry, -⟩ := update_insertAt hregister
    by_cases hplace : main = s.function ∧ 0 = s.block
    · obtain ⟨hmain, hzero⟩ := hplace
      rw [← hmain, ← hzero] at hb
      obtain rfl := Option.some.inj (hentry.symm.trans hb)
      unfold AmidAt
      rw [← hmain, ← hzero]
      exact ⟨_, block?_insert_self hentry 0 t.registration, hamid.register rfl⟩
    · exact ⟨block, (block?_insert_ne hplace ..).trans hb, hamid⟩

theorem instCount_keptBeside {counted : Inst → Bool} (n : ℕ)
    (hkind : ∀ inst, kind inst = false → counted inst = false)
    (hcall : ∀ callee args, kind (.call callee args) = false) :
    KeptBeside kind main (·.instCount counted = n) where
  edited hedit hadd hr := (hedit.instCount_eq fun inst ha => hkind inst (hadd inst ha).2).trans hr
  registered t r r' hregister hr := by
    have hnone : counted t.registration = false := hkind _ (hcall _ _)
    rw [instCount_update hregister, hnone, hr]
    rfl

theorem never_keptBeside (hcall : ∀ callee args, kind (.call callee args) = false) :
    KeptBeside kind main fun r => ∀ inst, r.HasInst inst → kind inst = false where
  edited hedit hadd hr inst hinst :=
    (hedit.hasInst hinst).elim (fun ha => (hadd inst ha).2) (hr inst)
  registered t r r' hregister hr inst hinst := by
    rcases (update_insertAtStart_edited hregister).2.hasInst hinst with rfl | hinst
    · exact hcall _ _
    · exact hr inst hinst

end Program

namespace Instrumenter

variable {ins : Instrumenter} {blocks : List ℕ} {p q : Program} {main : ℕ} {kind : Inst → Bool}
  {kept : Program → Prop}

theorem pass_kept (hk : KeptBeside kind main kept) (hblocks : blocks.length = p.functions.length)
    {pass : Pass} (hspares : pass.Spares kind) (h : ins.pass blocks p pass = .ok q) (hp : kept p) :
    blocks.length = q.functions.length ∧ kept q := by
  obtain ⟨-, -, hedited⟩ := pass_spec hblocks p.copies_true (fun _ _ => trivial) h
  exact ⟨hblocks.trans hedited.length_eq.symm,
    hk.edited hedited (fun inst ha => ⟨ha.isOwn_eq_false, hspares _ _ inst ha⟩) hp⟩

theorem register_kept (hk : KeptBeside kind main kept)
    (hblocks : blocks.length = p.functions.length) {s : Strategy}
    (h : (p.update main fun f => f.insertAtStart 0 s.registration) = .ok q) (hp : kept p) :
    blocks.length = q.functions.length ∧ kept q :=
  ⟨hblocks.trans (Program.update_insertAtStart_edited h).2.length_eq.symm,
    hk.registered s p q h hp⟩

theorem strategies_kept (hk : KeptBeside kind main kept)
    (hblocks : blocks.length = p.functions.length) {strategies : List Strategy}
    (hspares : ∀ s ∈ strategies, ∀ pass ∈ s.passes, pass.Spares kind)
    (h : strategies.foldlM (ins.apply blocks main) p = .ok q) (hp : kept p) : kept q := by
  refine (Outcome.foldlM_invariant (fun r => blocks.length = r.functions.length ∧ kept r) ?_
    ⟨hblocks, hp⟩ h).2
  intro s hs r r' hr happly
  refine apply_invariant (fun r => blocks.length = r.functions.length ∧ kept r) ?_ ?_ hr happly
  · exact fun pass hpass r r' hr hstep => pass_kept hk hr.1 (hspares s hs pass hpass) hstep hr.2
  · exact fun r r' hr hstep => register_kept hk hr.1 hstep hr.2

/-- The first pass of a strategy comes before all else that is of its kind, and what it does is kept
by all that comes after it. -/
theorem applyAll_around {α : Type} {s : Strategy} {k : SiteKind α} {lead : List Inst}
    {trail : α → ℕ → List Inst} {step : Program → α × ℕ → Outcome Program}
    (hplaces : s.Places k kind lead trail step) (hblocks : blocks.length = p.functions.length)
    (hp : p.CountsNothing) (hvalid : p.IsValid) (hs : s ∈ ins.strategies)
    (h : ins.applyAll blocks main p = .ok q) :
    ∃ first declared mid : Program,
      first.IsValid ∧ (∀ inst, first.HasInst inst → kind inst = false) ∧
      declared.functions = first.functions ∧
      (first.callSites.filterMap k.find).zipIdx.reverse.foldlM step declared = .ok mid ∧
      first.Grows (fun _ => True) (· ∈ ins.strategies) q ∧
      ∀ kept, KeptBeside kind main kept → kept mid → kept q := by
  obtain ⟨pass, rest, hpasses, hrun, hspares⟩ := hplaces.passes
  obtain ⟨-, hnodup, -⟩ := strategies_grow hblocks p.copies_true (fun _ _ => trivial) h
  obtain ⟨before, after, first, second, hother, hfirst, hsecond, hq⟩ := strategies_split hs hnodup h
  obtain ⟨hgrowsFirst, -, -⟩ := strategies_grow hblocks p.copies_true (fun _ _ => trivial) hfirst
  have hlenFirst := hblocks.trans hgrowsFirst.edited.length_eq.symm
  obtain ⟨hgrowsSecond, -⟩ := apply_grows hlenFirst first.copies_true (fun _ _ => trivial) hsecond
  have hlenSecond := hlenFirst.trans hgrowsSecond.edited.length_eq.symm
  obtain ⟨hgrowsRest, -, -⟩ :=
    strategies_grow hlenSecond second.copies_true (fun _ _ => trivial) hq
  have hnever : ∀ inst, first.HasInst inst → kind inst = false := by
    refine strategies_kept (Program.never_keptBeside fun _ _ => hplaces.isOwn _ rfl) hblocks ?_
      hfirst ?_
    · exact fun t ht pass' hpass' => hspares t pass' hpass' (.inl (hother t (.inl ht)).2)
    · exact fun inst hinst => hplaces.isOwn inst (hp.isOwn hinst)
  simp only [apply, hpasses, List.foldlM_cons, Outcome.bind_eq_ok_iff] at hsecond
  obtain ⟨passed, ⟨mid, hmid, hpassed⟩, hregister⟩ := hsecond
  obtain ⟨declared, hfunctions, hfold⟩ := hrun hmid
  refine ⟨first, declared, mid, hgrowsFirst.edited.isValid hvalid, hnever, hfunctions, hfold,
    (hgrowsSecond.mono fun t ht => ht ▸ hs).trans
      (hgrowsRest.mono fun t ht => (hother t (.inr ht)).1), fun kept hk hkept => ?_⟩
  obtain ⟨-, -, hedited⟩ := pass_spec hlenFirst first.copies_true (fun _ _ => trivial) hmid
  obtain ⟨hlenPassed, hpassedKept⟩ := Outcome.foldlM_invariant
    (fun r => blocks.length = r.functions.length ∧ kept r) (fun pass' hpass' r r' hr hstep =>
      pass_kept hk hr.1 (hspares s pass' (hpasses ▸ List.mem_cons_of_mem pass hpass')
        (.inr hpass')) hstep hr.2) ⟨hlenFirst.trans hedited.length_eq.symm, hkept⟩ hpassed
  obtain ⟨hlen, hsecondKept⟩ := register_kept hk hlenPassed hregister hpassedKept
  exact strategies_kept hk hlen
    (fun t ht pass' hpass' => hspares t pass' hpass' (.inl (hother t (.inr ht)).2)) hq hsecondKept

/-- Whatever the strategies are, what was put around a call is nearest to it. Behind that there may
be what was put around others. -/
theorem applyAll_nearest {α : Type} {s : Strategy} {k : SiteKind α} {lead : List Inst}
    {trail : α → ℕ → List Inst} {step : Program → α × ℕ → Outcome Program}
    (hplaces : s.Places k kind lead trail step) (hblocks : blocks.length = p.functions.length)
    (hp : p.CountsNothing) (hvalid : p.IsValid) (hs : s ∈ ins.strategies)
    (h : ins.applyAll blocks main p = .ok q) {i : ℕ} {t : α}
    (ht : (q.callSites.filterMap k.find)[i]? = some t) :
    (∃ rest, nearest kind (q.ahead (k.site t)) = lead.reverse ++ rest ∧
        Enclosing.Trails trail rest) ∧
      ∃ rest, nearest kind (q.behind (k.site t)) = trail t i ++ rest ∧ rest ⊆ lead := by
  obtain ⟨first, declared, mid, hfirst, hnever, hfunctions, hfold, hgrows, hkept⟩ :=
    applyAll_around hplaces hblocks hp hvalid hs h
  obtain ⟨u, hu, hmoved, hnearest⟩ := k.nearest_site hfirst Inst.Added.onlyRegisters
    (fun _ ha => ha.isOriginal_eq_false) hgrows.edited ht
  have hwaits : ∀ u ∈ first.callSites.filterMap k.find, Enclosing.Waits kind lead trail
      (first.originalsFrom (k.site u)) (k.site u) declared := by
    intro u hu
    obtain ⟨block, hb, hamid⟩ := k.waits lead trail hnever hu
    exact ⟨block, by rw [← hb, Program.block?, Program.block?, hfunctions], hamid⟩
  obtain ⟨block, hb, hamid⟩ := hplaces.enclosing.fold (k.sites_before first) hwaits hfold hu
  rw [hmoved, hplaces.moved]
  rw [← hmoved]
  exact hnearest _ _ _ _ (hkept _ Program.AmidAt.keptBeside
    ⟨block, hb, hamid.imp (fun _ _ => trivial) (fun _ => id) fun _ => id⟩)

/-- There are as many instructions of a kind as sites, if each site gets one. -/
theorem applyAll_instCount {α : Type} {s : Strategy} {k : SiteKind α} {lead : List Inst}
    {trail : α → ℕ → List Inst} {step : Program → α × ℕ → Outcome Program}
    (hplaces : s.Places k kind lead trail step) (hblocks : blocks.length = p.functions.length)
    (hp : p.CountsNothing) (hvalid : p.IsValid) (hs : s ∈ ins.strategies)
    (h : ins.applyAll blocks main p = .ok q) {counted : Inst → Bool}
    (hkind : ∀ inst, kind inst = false → counted inst = false)
    (hstep : ∀ r r' x, step r x = .ok r' → r'.instCount counted = r.instCount counted + 1) :
    q.instCount counted = (q.callSites.filterMap k.find).length := by
  obtain ⟨first, declared, mid, hfirst, hnever, hfunctions, hfold, hgrows, hkept⟩ :=
    applyAll_around hplaces hblocks hp hvalid hs h
  refine hkept _ (Program.instCount_keptBeside _ hkind fun _ _ => hplaces.isOwn _ rfl) ?_
  have hfolded := foldlM_zipIdx_reverse_induction (fun left r => r.instCount counted + left =
    declared.instCount counted + (first.callSites.filterMap k.find).length) ?_ rfl hfold
  · calc mid.instCount counted
        = declared.instCount counted + (first.callSites.filterMap k.find).length := hfolded
      _ = (first.callSites.filterMap k.find).length := by
        rw [Program.instCount_congr hfunctions,
          Program.instCount_eq_zero fun inst hinst => hkind inst (hnever inst hinst), Nat.zero_add]
      _ = (q.callSites.filterMap k.find).length :=
        (k.shifted hfirst Inst.Added.onlyRegisters hgrows.edited).length_eq
  · intro left x _ r r' hr hturn
    rw [hstep r r' _ hturn]
    omega

end Instrumenter

/-! ### The pass that counts payloads -/

def Inst.isAccumulate : Inst → Bool
  | .accumulate _ _ _ _ => true
  | _ => false

theorem Strategy.eq_comm {s : Strategy} {counters : String} (h : Pass.comm counters ∈ s.passes) :
    s = .comm := by
  cases s <;> simp [passes] at h ⊢

theorem trapPayload_enclosing (counters : String) : Enclosing Inst.isAccumulate
    Comm.PayloadSite.kind.site []
    (fun s i => [.accumulate counters (2 * i) s.count s.datatype])
    (Program.trapPayload counters) where
  ofKind_lead := nofun
  ofKind_trail s i inst hinst := by
    rw [List.mem_singleton.mp hinst]
    exact ⟨rfl, rfl⟩
  encloses p q s i h := by
    obtain ⟨rfl, -⟩ := Program.trapPayload_eq_ok h
    refine ⟨fun block before call after hb hinsts hlen => ⟨_, Program.block?_insert_self hb .., ?_⟩,
      fun function b hplace => Program.block?_insert_ne hplace ..⟩
    have hindex : before.length = s.inst := hlen
    rw [hinsts, ← hindex, insertIdx_append_right, List.insertIdx_succ_cons, List.insertIdx_zero,
      List.nil_append, List.singleton_append]

theorem Strategy.comm_places : Strategy.comm.Places Comm.PayloadSite.kind Inst.isAccumulate []
    (fun s i => [.accumulate payloadCounters (2 * i) s.count s.datatype])
    (Program.trapPayload payloadCounters) where
  enclosing := trapPayload_enclosing payloadCounters
  moved _ _ _ := rfl
  isOwn inst h := by
    cases inst with
    | accumulate => cases h
    | _ => rfl
  passes := by
    refine ⟨_, _, passes_comm, fun h => ?_, fun t pass hpass hother values len inst ha => ?_⟩
    · simp only [Instrumenter.pass, Program.trapComm, Outcome.bind_eq_ok_iff,
        Program.declare_eq_ok_iff] at h
      obtain ⟨len, -, declared, ⟨-, hdeclared⟩, h⟩ := h
      exact ⟨declared, by rw [hdeclared], h⟩
    · cases ha with
      | accumulate => exact (hother.resolve_right List.not_mem_nil (eq_comm hpass)).elim
      | _ => rfl

/-- A site has the operands from its call that tell how much the operation moves. -/
theorem Program.exists_payloadCall {p : Program} {s : Comm.PayloadSite} (hs : s ∈ p.payloadSites) :
    ∃ block args count datatype, p.block? s.function s.block = some block ∧
      block.insts[s.inst]? = some (.call (.direct s.callee) args) ∧
      s.op.payload = some (count, datatype) ∧ args[count]? = some s.count ∧
      args[datatype]? = some s.datatype := by
  obtain ⟨c, hc, hfind⟩ := List.mem_filterMap.mp hs
  obtain ⟨hfunction, hblock, hinst⟩ := Comm.PayloadSite.place_of_ofCall? hfind
  obtain ⟨hcallee, -, count, datatype, hpayload, hcount, hdatatype⟩ :=
    Comm.PayloadSite.ofCall?_eq_some hfind
  obtain ⟨block, hb, hcall⟩ := mem_callSites.mp hc
  rw [← hfunction, ← hblock] at hb
  rw [← hinst, hcallee] at hcall
  exact ⟨block, c.args, count, datatype, hb, hcall, hpayload, hcount, hdatatype⟩

/-- Behind each call whose payload is followed one instruction counts it, by the operands of the
call and in slots by the number of its site. There are no other instructions that count payloads. -/
structure Program.CountsPayloads (q : Program) (counters : String) : Prop where
  operands : ∀ s ∈ q.payloadSites, ∃ block args count datatype,
    q.block? s.function s.block = some block ∧
      block.insts[s.inst]? = some (.call (.direct s.callee) args) ∧
      s.op.payload = some (count, datatype) ∧ args[count]? = some s.count ∧
      args[datatype]? = some s.datatype
  behind : ∀ {i : ℕ} {s}, q.payloadSites[i]? = some s →
    nearest Inst.isAccumulate (q.behind s.toSite) =
      [.accumulate counters (2 * i) s.count s.datatype]
  total : q.instCount Inst.isAccumulate = q.payloadSites.length

/-! ### The pass that measures -/

def Inst.startsTimer : Inst → Bool
  | .timerStart => true
  | _ => false

def Inst.usesTimer (inst : Inst) : Bool := inst.startsTimer || inst.stopsTimer

theorem trapTimed_enclosing (counters : String) : Enclosing Inst.usesTimer
    Comm.Site.kind.site [.timerStart] (fun _ i => [.timerStop counters i])
    (Program.trapTimed counters) where
  ofKind_lead inst hinst := by
    rw [List.mem_singleton.mp hinst]
    exact ⟨rfl, rfl⟩
  ofKind_trail s i inst hinst := by
    rw [List.mem_singleton.mp hinst]
    exact ⟨rfl, rfl⟩
  encloses p q s i h := by
    refine ⟨fun block before call after hb hinsts hlen => ?_, fun function b hplace => ?_⟩
    · have hblock := Program.trapTimed_block? hb hinsts hlen h s.function s.block
      rw [if_pos ⟨rfl, rfl⟩] at hblock
      exact ⟨_, hblock, rfl⟩
    · obtain ⟨rfl, -⟩ := Program.trapTimed_eq_ok h
      exact (Program.block?_insert_ne hplace ..).trans (Program.block?_insert_ne hplace ..)

theorem Strategy.time_places : Strategy.time.Places Comm.Site.kind Inst.usesTimer [.timerStart]
    (fun _ i => [.timerStop timeCounters i]) (Program.trapTimed timeCounters) where
  enclosing := trapTimed_enclosing timeCounters
  moved _ _ _ := rfl
  isOwn inst h := by
    cases inst with
    | timerStart => cases h
    | timerStop => cases h
    | _ => rfl
  passes := by
    refine ⟨_, _, passes_time, fun h => ?_, fun t pass hpass hother values len inst ha => ?_⟩
    · simp only [Instrumenter.pass, Program.trapTime, Outcome.bind_eq_ok_iff,
        Program.declare_eq_ok_iff] at h
      obtain ⟨len, -, declared, ⟨-, hdeclared⟩, h⟩ := h
      exact ⟨declared, by rw [hdeclared], h⟩
    · cases ha with
      | timerStart => exact (hother.resolve_right (by simp) (eq_time hpass)).elim
      | timerStop => exact (hother.resolve_right (by simp) (eq_time hpass)).elim
      | _ => rfl

theorem Program.trapTimed_instCount {counters : String} {p q : Program} {s : Comm.Site} {i : ℕ}
    (h : trapTimed counters p (s, i) = .ok q) (counted : Inst → Bool) :
    q.instCount counted = p.instCount counted +
      (if counted (.timerStop counters i) then 1 else 0) +
      if counted .timerStart then 1 else 0 := by
  obtain ⟨rfl, block, hb, hi⟩ := trapTimed_eq_ok h
  rw [instCount_insert (block?_insert_self hb ..) ?_, instCount_insert hb hi]
  rw [List.length_insertIdx_of_le_length hi]
  omega

/-- Each call of an operation stands between a start of the timer and a stop into the slot of its
site. Farther away there may be the stop of a call before it and the start of the next one. There
are no other starts and stops. -/
structure Program.MeasuresCalls (q : Program) (counters : String) : Prop where
  ahead : ∀ {i : ℕ} {s}, q.timedSites[i]? = some s →
    ∃ rest, nearest Inst.usesTimer (q.ahead s) = .timerStart :: rest ∧
      ∀ inst ∈ rest, inst.stopsTimer = true
  behind : ∀ {i s}, q.timedSites[i]? = some s →
    ∃ rest, nearest Inst.usesTimer (q.behind s) = .timerStop counters i :: rest ∧
      ∀ inst ∈ rest, inst.startsTimer = true
  starts : q.instCount Inst.startsTimer = q.timedSites.length
  stops : q.instCount Inst.stopsTimer = q.timedSites.length

/-! ### All strategies -/

namespace Instrumenter

variable {ins : Instrumenter} {blocks : List ℕ} {p q : Program} {main : ℕ}

theorem applyAll_countsPayloads (hblocks : blocks.length = p.functions.length)
    (hp : p.CountsNothing) (hvalid : p.IsValid) (hs : .comm ∈ ins.strategies)
    (h : ins.applyAll blocks main p = .ok q) : q.CountsPayloads payloadCounters where
  operands _ := Program.exists_payloadCall
  behind ht := by
    obtain ⟨-, rest, hrest, hnil⟩ :=
      applyAll_nearest Strategy.comm_places hblocks hp hvalid hs h ht
    rw [List.subset_nil.mp hnil] at hrest
    exact hrest
  total := by
    refine applyAll_instCount Strategy.comm_places hblocks hp hvalid hs h (fun _ => id) ?_
    rintro r r' ⟨s, i⟩ hstep
    obtain ⟨rfl, block, hb, hi⟩ := Program.trapPayload_eq_ok hstep
    exact Program.instCount_insert hb hi _

theorem applyAll_measuresCalls (hblocks : blocks.length = p.functions.length)
    (hp : p.CountsNothing) (hvalid : p.IsValid) (hs : .time ∈ ins.strategies)
    (h : ins.applyAll blocks main p = .ok q) : q.MeasuresCalls timeCounters where
  ahead ht := by
    obtain ⟨⟨rest, hrest, htrails⟩, -⟩ :=
      applyAll_nearest Strategy.time_places hblocks hp hvalid hs h ht
    refine ⟨rest, hrest, fun inst hinst => ?_⟩
    obtain ⟨s, i, hmem⟩ := htrails inst hinst
    rw [List.mem_singleton.mp hmem]
    rfl
  behind ht := by
    obtain ⟨-, rest, hrest, hlead⟩ :=
      applyAll_nearest Strategy.time_places hblocks hp hvalid hs h ht
    refine ⟨rest, hrest, fun inst hinst => ?_⟩
    rw [List.mem_singleton.mp (hlead hinst)]
    rfl
  starts := by
    refine applyAll_instCount Strategy.time_places hblocks hp hvalid hs h ?_ ?_
    · exact fun inst hinst => (Bool.or_eq_false_iff.mp hinst).1
    · exact fun r r' ⟨s, i⟩ hstep => Program.trapTimed_instCount hstep _
  stops := by
    refine applyAll_instCount Strategy.time_places hblocks hp hvalid hs h ?_ ?_
    · exact fun inst hinst => (Bool.or_eq_false_iff.mp hinst).2
    · exact fun r r' ⟨s, i⟩ hstep => Program.trapTimed_instCount hstep _

/-- Instrumentation keeps the sites, their numbers and their order, and moves them to later places
alone. With whatever other strategies, each call whose payload is followed has what counts it behind
it, and each call of an operation is between a start and a stop of the timer, with nothing of the
program itself in between. -/
theorem instrument_placement (hp : p.CountsNothing) (hmain : p.functionIndex? ins.entry = some main)
    (h : ins.instrument p = .ok q) :
    List.Forall₂ Comm.Site.kind.Shifted p.timedSites q.timedSites ∧
      List.Forall₂ Comm.PayloadSite.kind.Shifted p.payloadSites q.payloadSites ∧
      (.comm ∈ ins.strategies → q.CountsPayloads payloadCounters) ∧
      (.time ∈ ins.strategies → q.MeasuresCalls timeCounters) := by
  obtain ⟨hvalid, -, -, hall⟩ := instrument_eq_ok hmain h
  have hblocks : p.blockCounts.length = p.functions.length := List.length_map ..
  obtain ⟨hgrows, -, -⟩ := strategies_grow hblocks p.copies_true (fun _ _ => trivial) hall
  refine ⟨?_, ?_, fun hs => ?_, fun hs => ?_⟩
  · exact Comm.Site.kind.shifted hvalid Inst.Added.onlyRegisters hgrows.edited
  · exact Comm.PayloadSite.kind.shifted hvalid Inst.Added.onlyRegisters hgrows.edited
  · exact applyAll_countsPayloads hblocks hp hvalid hs hall
  · exact applyAll_measuresCalls hblocks hp hvalid hs hall

end Instrumenter

/-- Calls side by side, in a block that leads to itself. -/
def exchangeInLoop : Program where
  functions := [
    ⟨"main", [
      ⟨"entry", [.call (.direct "MPI_Comm_rank") [.const 0, .var "rank"]], .br 1⟩,
      ⟨"loop", [
        .call (.direct "MPI_Send") [.const 0, .var "n", .const 8],
        .call (.direct "MPI_Recv") [.const 0, .var "n", .const 8],
        .call (.direct "MPI_Barrier") []], .condBr (.var "more") 1 2⟩,
      ⟨"exit", [], .ret⟩]⟩]
  globals := []

/-- Both strategies put instructions between the calls. -/
theorem instrument_placement_exchangeInLoop :
    ∃ q, (⟨[.time, .edgeRank, .comm], "main", []⟩ : Instrumenter).instrument exchangeInLoop =
        .ok q ∧
      q.CountsPayloads payloadCounters ∧ q.MeasuresCalls timeCounters ∧
      exchangeInLoop.timedSites.map (·.inst) = [0, 0, 1, 2] ∧
      q.timedSites.map (·.inst) = [5, 1, 5, 9] := by
  have hins : (⟨[.time, .edgeRank, .comm], "main", []⟩ : Instrumenter).instrument exchangeInLoop =
    .ok _ := rfl
  obtain ⟨-, -, hcomm, htime⟩ := Instrumenter.instrument_placement (by decide) rfl hins
  exact ⟨_, hins, hcomm (by decide), htime (by decide), by decide, rfl⟩

end FlowProfile
