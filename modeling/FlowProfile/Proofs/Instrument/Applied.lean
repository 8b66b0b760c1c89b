import FlowProfile.Proofs.Graph.Plain
import FlowProfile.Proofs.Instrument.Sites

/-!
# What instrumenting does to a program

All strategies one after another: every function is edited, all that is new comes from a
pass or is the call that registers a strategy, and every array is declared once.
-/

namespace FlowProfile

/-! ### Declarations -/

/-- It is the only array of its name. -/
def Program.Declares (p : Program) (g : Global) : Prop :=
  p.globals.filter (·.name == g.name) = [g]

namespace Program

variable {p q : Program}

theorem global?_eq_none_iff {name : String} :
    p.global? name = none ↔ ∀ g ∈ p.globals, g.name ≠ name := by
  simp [global?]

theorem Declares.global?_ne_none {g : Global} (h : p.Declares g) : p.global? g.name ≠ none := by
  intro hnone
  have hmem : g ∈ p.globals.filter (·.name == g.name) := by
    rw [h]
    exact List.mem_singleton_self g
  exact global?_eq_none_iff.mp hnone g (List.mem_filter.mp hmem).1 rfl

theorem Declares.unique {g g' : Global} (h : p.Declares g) (h' : p.Declares g')
    (hname : g.name = g'.name) : g = g' := by
  unfold Declares at h h'
  rw [hname, h'] at h
  exact (List.singleton_inj.mp h).symm

theorem Declares.append {g new : Global} (h : p.Declares g) (hnew : p.global? new.name = none)
    (hq : q.globals = p.globals ++ [new]) : q.Declares g := by
  have hne : new.name ≠ g.name := by
    intro heq
    rw [heq] at hnew
    exact h.global?_ne_none hnew
  unfold Declares
  rw [hq, List.filter_append, h]
  simp [hne]

theorem declares_of_append {new : Global} (hnew : p.global? new.name = none)
    (hq : q.globals = p.globals ++ [new]) : q.Declares new := by
  unfold Declares
  have hnil : p.globals.filter (·.name == new.name) = [] := by
    rw [List.filter_eq_nil_iff]
    intro g hg
    simpa using global?_eq_none_iff.mp hnew g hg
  rw [hq, List.filter_append, hnil]
  simp

end Program

/-! ### Instructions that strategies add -/

/-- What the given strategies insert: the instructions of their passes, and their registrations. -/
inductive Inst.Added (values : Operand → Prop) (used : Strategy → Prop) (p : Program) :
    Inst → Prop where
  | pass {s : Strategy} {pass : Pass} {len : ℕ} {inst : Inst} (hs : used s)
      (hp : pass ∈ s.passes) (hg : p.Declares (pass.global len)) (ha : pass.Adds values len inst) :
      Added values used p inst
  | registration {s : Strategy} (hs : used s)
      (hg : ∀ pass ∈ s.passes, ∃ len, p.Declares (pass.global len)) :
      Added values used p s.registration

/-- Does a strategy that is used count edges? -/
def Strategy.SplitsSome (used : Strategy → Prop) : Prop :=
  ∃ s, used s ∧ ∃ pass ∈ s.passes, pass.Splits

/-- What a program becomes by the given strategies. -/
structure Program.Grows (values : Operand → Prop) (used : Strategy → Prop) (p q : Program) :
    Prop where
  globals : p.globals <+: q.globals
  declares : ∀ g, p.Declares g → q.Declares g
  edited : p.Edited (Strategy.SplitsSome used) (Inst.Added values used q) q

theorem Inst.Added.mono {values : Operand → Prop} {used used' : Strategy → Prop} {p q : Program}
    {inst : Inst} (hused : ∀ s, used s → used' s) (hdecl : ∀ g, p.Declares g → q.Declares g)
    (h : Inst.Added values used p inst) : Inst.Added values used' q inst := by
  cases h with
  | pass hs hp hg ha => exact .pass (hused _ hs) hp (hdecl _ hg) ha
  | registration hs hg =>
      refine .registration (hused _ hs) ?_
      intro pass hp
      obtain ⟨len, hlen⟩ := hg pass hp
      exact ⟨len, hdecl _ hlen⟩

/-- The only calls that are added are registrations. -/
theorem Inst.Added.call_eq {values : Operand → Prop} {used : Strategy → Prop} {p : Program}
    {callee : Callee} {args : List Operand} (h : Inst.Added values used p (.call callee args)) :
    ∃ s, used s ∧ Inst.call callee args = s.registration := by
  generalize hinst : Inst.call callee args = inst at h
  cases h with
  | pass _ _ _ ha => cases ha <;> cases hinst
  | @registration s hs hg => exact ⟨s, hs, rfl⟩

theorem Inst.Added.onlyRegisters {values : Operand → Prop} {used : Strategy → Prop}
    {p : Program} : OnlyRegisters (Inst.Added values used p) := by
  intro callee args h
  obtain ⟨s, -, hs⟩ := h.call_eq
  exact ⟨s, (Inst.call.inj hs).1⟩

namespace Program

variable {values : Operand → Prop} {used used' : Strategy → Prop} {p q r : Program}

theorem Grows.refl (p : Program) : p.Grows values used p :=
  ⟨List.prefix_rfl, fun _ h => h, .refl p⟩

theorem Grows.mono (hused : ∀ s, used s → used' s) (h : p.Grows values used q) :
    p.Grows values used' q where
  globals := h.globals
  declares := h.declares
  edited := h.edited.mono (fun ⟨s, hs, hpass⟩ => ⟨s, hused s hs, hpass⟩)
    fun _ ha => ha.mono hused fun _ hg => hg

theorem Grows.trans (hpq : p.Grows values used q) (hqr : q.Grows values used r) :
    p.Grows values used r where
  globals := hpq.globals.trans hqr.globals
  declares g hg := hqr.declares g (hpq.declares g hg)
  edited := (hpq.edited.mono id fun _ ha => ha.mono (fun _ hs => hs) hqr.declares).trans hqr.edited

theorem Grows.global?_eq_none (h : p.Grows values used q) {name : String}
    (hnone : q.global? name = none) : p.global? name = none := by
  rw [global?_eq_none_iff] at hnone ⊢
  intro g hg
  exact hnone g (h.globals.subset hg)

theorem Grows.size_eq (h : p.Grows values used q) (blocks : List ℕ) {pass : Pass}
    (hsplits : ¬pass.Splits) : pass.size blocks q = pass.size blocks p :=
  Pass.size_eq h.edited Inst.Added.onlyRegisters blocks hsplits

theorem Grows.copies (hp : p.Copies values) (h : p.Grows values used q) : q.Copies values := by
  intro name args hinst hentry
  rcases h.edited.hasInst hinst with ha | hinst
  · obtain ⟨s, -, hcall⟩ := ha.call_eq
    rw [Callee.direct.inj (Inst.call.inj hcall).1, Strategy.ofEntryPoint?_entryPoint] at hentry
    cases hentry
  · exact hp name args hinst hentry

end Program

/-- An array of the pass is declared, of the size that the pass needs for `p`. One for edges
may have another size, since the pass may come after another that splits edges. -/
def Pass.DeclaredIn (blocks : List ℕ) (p : Program) (pass : Pass) (q : Program) : Prop :=
  ∃ len, q.Declares (pass.global len) ∧ (pass.Splits ∨ len = pass.size blocks p)

/-! ### Passes, strategies, and all of them -/

theorem Pass.DeclaredIn.of_grows {blocks : List ℕ} {values : Operand → Prop}
    {used : Strategy → Prop} {p mid q : Program} {pass : Pass} (hp : p.Grows values used mid)
    (h : pass.DeclaredIn blocks mid q) : pass.DeclaredIn blocks p q := by
  obtain ⟨len, hdecl, hsize⟩ := h
  refine ⟨len, hdecl, ?_⟩
  by_cases hsplits : pass.Splits
  · exact .inl hsplits
  · exact .inr ((hsize.resolve_left hsplits).trans (hp.size_eq blocks hsplits))

theorem Pass.DeclaredIn.grow {blocks : List ℕ} {values : Operand → Prop}
    {used : Strategy → Prop} {p mid q : Program} {pass : Pass}
    (h : pass.DeclaredIn blocks p mid) (hq : mid.Grows values used q) :
    pass.DeclaredIn blocks p q := by
  obtain ⟨len, hdecl, hsize⟩ := h
  exact ⟨len, hq.declares _ hdecl, hsize⟩

namespace Instrumenter

variable {ins : Instrumenter} {blocks : List ℕ} {values : Operand → Prop} {p q : Program}

theorem pass_grows (hblocks : blocks.length = p.functions.length) (hp : p.Copies values)
    (hw : ∀ w ∈ ins.weights, values w.value) {s : Strategy} {pass : Pass}
    (hpass : pass ∈ s.passes) (h : ins.pass blocks p pass = .ok q) :
    p.Grows values (· = s) q ∧ p.global? pass.counters = none ∧
      q.Declares (pass.global (pass.size blocks p)) := by
  obtain ⟨hnone, hglobals, hedited⟩ := pass_spec hblocks hp hw h
  have hdecl : q.Declares (pass.global (pass.size blocks p)) :=
    Program.declares_of_append hnone hglobals
  refine ⟨⟨⟨_, hglobals.symm⟩, fun g hg => hg.append hnone hglobals, ?_⟩, hnone, hdecl⟩
  exact hedited.mono (fun hsplits => ⟨s, rfl, pass, hpass, hsplits⟩)
    fun inst ha => .pass rfl hpass hdecl ha

theorem passes_grow (hblocks : blocks.length = p.functions.length) (hp : p.Copies values)
    (hw : ∀ w ∈ ins.weights, values w.value) {s : Strategy} {passes : List Pass}
    (hpasses : ∀ pass ∈ passes, pass ∈ s.passes)
    (h : passes.foldlM (ins.pass blocks) p = .ok q) :
    p.Grows values (· = s) q ∧ ∀ pass ∈ passes, p.global? pass.counters = none ∧
      pass.DeclaredIn blocks p q := by
  induction passes generalizing p with
  | nil =>
      obtain rfl : p = q := by simpa using h
      exact ⟨.refl p, by simp⟩
  | cons pass passes ih =>
      rw [List.foldlM_cons, Outcome.bind_eq_ok_iff] at h
      obtain ⟨mid, hmid, h⟩ := h
      obtain ⟨hgrows, hnone, hdecl⟩ :=
        pass_grows hblocks hp hw (hpasses pass List.mem_cons_self) hmid
      obtain ⟨hrest, hall⟩ := ih (hblocks.trans hgrows.edited.length_eq.symm) (hgrows.copies hp)
        (fun pass' hmem => hpasses pass' (List.mem_cons_of_mem pass hmem)) h
      refine ⟨hgrows.trans hrest, ?_⟩
      intro pass' hmem
      rcases List.mem_cons.mp hmem with rfl | hmem
      · exact ⟨hnone, _, hrest.declares _ hdecl, .inr rfl⟩
      · obtain ⟨hnone', hdecl'⟩ := hall pass' hmem
        exact ⟨hgrows.global?_eq_none hnone', .of_grows hgrows hdecl'⟩

theorem register_grows {main : ℕ} {s : Strategy}
    (hdecl : ∀ pass ∈ s.passes, ∃ len, p.Declares (pass.global len))
    (h : (p.update main fun f => f.insertAtStart 0 s.registration) = .ok q) :
    p.Grows values (· = s) q := by
  have hinsert : ∀ f g : Function, f.insertAtStart 0 s.registration = .ok g →
      f.Edited (Strategy.SplitsSome (· = s)) (Inst.Added values (· = s) p) g :=
    fun f g hfg => .insertAt (.registration rfl hdecl) hfg
  obtain ⟨hglobals, hedited⟩ := Program.update_edited h hinsert
  have hsame : ∀ g, p.Declares g → q.Declares g := by
    intro g hg
    unfold Program.Declares
    rwa [hglobals]
  exact ⟨by rw [hglobals], hsame, hedited.mono id fun _ ha => ha.mono (fun _ hs => hs) hsame⟩

theorem apply_grows {main : ℕ} (hblocks : blocks.length = p.functions.length)
    (hp : p.Copies values) (hw : ∀ w ∈ ins.weights, values w.value) {s : Strategy}
    (h : ins.apply blocks main p s = .ok q) :
    p.Grows values (· = s) q ∧ ∀ pass ∈ s.passes, p.global? pass.counters = none ∧
      pass.DeclaredIn blocks p q := by
  simp only [apply, Outcome.bind_eq_ok_iff] at h
  obtain ⟨mid, hmid, h⟩ := h
  obtain ⟨hgrows, hall⟩ := passes_grow hblocks hp hw (fun _ hmem => hmem) hmid
  have hregister : mid.Grows values (· = s) q := by
    apply register_grows _ h
    intro pass hmem
    obtain ⟨-, len, hdecl, -⟩ := hall pass hmem
    exact ⟨len, hdecl⟩
  refine ⟨hgrows.trans hregister, ?_⟩
  intro pass hmem
  obtain ⟨hnone, hdecl⟩ := hall pass hmem
  exact ⟨hnone, hdecl.grow hregister⟩

theorem passes_ne_nil (s : Strategy) : s.passes ≠ [] := by
  cases s <;> simp [Strategy.passes]

/-- All strategies of a list, each of which has arrays of its own. -/
theorem strategies_grow {main : ℕ} {strategies : List Strategy}
    (hblocks : blocks.length = p.functions.length) (hp : p.Copies values)
    (hw : ∀ w ∈ ins.weights, values w.value)
    (h : strategies.foldlM (ins.apply blocks main) p = .ok q) :
    p.Grows values (· ∈ strategies) q ∧ strategies.Nodup ∧
      ∀ s ∈ strategies, ∀ pass ∈ s.passes, p.global? pass.counters = none ∧
        pass.DeclaredIn blocks p q := by
  induction strategies generalizing p with
  | nil =>
      obtain rfl : p = q := by simpa using h
      exact ⟨.refl p, List.nodup_nil, by simp⟩
  | cons s strategies ih =>
      rw [List.foldlM_cons, Outcome.bind_eq_ok_iff] at h
      obtain ⟨mid, hmid, h⟩ := h
      obtain ⟨hgrows, hall⟩ := apply_grows hblocks hp hw hmid
      obtain ⟨hrest, hnodup, hrestAll⟩ :=
        ih (hblocks.trans hgrows.edited.length_eq.symm) (hgrows.copies hp) h
      refine ⟨?_, List.nodup_cons.mpr ⟨?_, hnodup⟩, ?_⟩
      · exact (hgrows.mono fun t ht => ht ▸ List.mem_cons_self).trans
          (hrest.mono fun t ht => List.mem_cons_of_mem s ht)
      · -- the arrays of a strategy that came before are declared already
        intro hmem
        obtain ⟨pass, hpass⟩ := List.exists_mem_of_ne_nil s.passes (passes_ne_nil s)
        obtain ⟨-, len, hdecl, -⟩ := hall pass hpass
        exact hdecl.global?_ne_none (hrestAll s hmem pass hpass).1
      · intro t ht pass hpass
        rcases List.mem_cons.mp ht with rfl | ht
        · obtain ⟨hnone, hdecl⟩ := hall pass hpass
          exact ⟨hnone, hdecl.grow hrest⟩
        · obtain ⟨hnone, hdecl⟩ := hrestAll t ht pass hpass
          exact ⟨hgrows.global?_eq_none hnone, hdecl.of_grows hgrows⟩

/-- What the passes of a strategy and its registration keep is kept. -/
theorem apply_invariant {main : ℕ} {s : Strategy} (kept : Program → Prop)
    (hpass : ∀ pass ∈ s.passes, ∀ r r', kept r → ins.pass blocks r pass = .ok r' → kept r')
    (hregister : ∀ r r', kept r →
      (r.update main fun f => f.insertAtStart 0 s.registration) = .ok r' → kept r')
    (hp : kept p) (h : ins.apply blocks main p s = .ok q) : kept q := by
  simp only [apply, Outcome.bind_eq_ok_iff] at h
  obtain ⟨mid, hmid, h⟩ := h
  exact hregister mid q (Outcome.foldlM_invariant kept hpass hp hmid) h

/-- What every pass and every registration keeps is kept. -/
theorem applyAll_invariant {main : ℕ} (kept : Program → Prop)
    (hpass : ∀ pass r r', kept r → ins.pass blocks r pass = .ok r' → kept r')
    (hregister : ∀ (s : Strategy) r r', kept r →
      (r.update main fun f => f.insertAtStart 0 s.registration) = .ok r' → kept r')
    (hp : kept p) (h : ins.applyAll blocks main p = .ok q) : kept q :=
  Outcome.foldlM_invariant kept (fun s _ _ _ hr hstep =>
    apply_invariant kept (fun pass _ => hpass pass) (hregister s) hr hstep) hp h

/-- A strategy is applied between others. -/
theorem strategies_split {main : ℕ} {strategies : List Strategy} {s : Strategy}
    (hs : s ∈ strategies) (hnodup : strategies.Nodup)
    (h : strategies.foldlM (ins.apply blocks main) p = .ok q) :
    ∃ (before after : List Strategy) (first second : Program),
      (∀ t, t ∈ before ∨ t ∈ after → t ∈ strategies ∧ t ≠ s) ∧
      before.foldlM (ins.apply blocks main) p = .ok first ∧
      ins.apply blocks main first s = .ok second ∧
      after.foldlM (ins.apply blocks main) second = .ok q := by
  obtain ⟨before, after, rfl⟩ := List.append_of_mem hs
  rw [List.foldlM_append, Outcome.bind_eq_ok_iff] at h
  obtain ⟨first, hfirst, h⟩ := h
  rw [List.foldlM_cons, Outcome.bind_eq_ok_iff] at h
  obtain ⟨second, hsecond, h⟩ := h
  refine ⟨before, after, first, second, fun t ht => ?_, hfirst, hsecond, h⟩
  rw [List.nodup_append, List.nodup_cons] at hnodup
  obtain ⟨-, ⟨hnew, -⟩, hdisjoint⟩ := hnodup
  rw [List.mem_append, List.mem_cons]
  rcases ht with ht | ht
  · exact ⟨.inl ht, hdisjoint t ht s List.mem_cons_self⟩
  · exact ⟨.inr (.inr ht), fun heq => hnew (heq ▸ ht)⟩

/-- A strategy is used once, between others. -/
theorem applyAll_split {main : ℕ} {s : Strategy} (hblocks : blocks.length = p.functions.length)
    (hp : p.Copies values) (hw : ∀ w ∈ ins.weights, values w.value) (hs : s ∈ ins.strategies)
    (h : ins.applyAll blocks main p = .ok q) :
    ∃ first second, p.Grows values (fun t => t ∈ ins.strategies ∧ t ≠ s) first ∧
      ins.apply blocks main first s = .ok second ∧
      second.Grows values (fun t => t ∈ ins.strategies ∧ t ≠ s) q := by
  obtain ⟨-, hnodup, -⟩ := strategies_grow hblocks hp hw h
  obtain ⟨before, after, first, second, hother, hfirst, hsecond, h⟩ := strategies_split hs hnodup h
  obtain ⟨hgrowsFirst, -, -⟩ := strategies_grow hblocks hp hw hfirst
  have hlen := hblocks.trans hgrowsFirst.edited.length_eq.symm
  obtain ⟨hgrowsSecond, -⟩ := apply_grows hlen (hgrowsFirst.copies hp) hw hsecond
  obtain ⟨hgrowsRest, -, -⟩ := strategies_grow (hlen.trans hgrowsSecond.edited.length_eq.symm)
    (hgrowsSecond.copies (hgrowsFirst.copies hp)) hw h
  exact ⟨first, second, hgrowsFirst.mono fun t ht => hother t (.inl ht), hsecond,
    hgrowsRest.mono fun t ht => hother t (.inr ht)⟩

end Instrumenter

end FlowProfile
