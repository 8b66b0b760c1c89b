import FlowProfile.Proofs.Exec.Quiet
import FlowProfile.Proofs.Exec.Requests

/-!
# The same program, instrumented and not

An instruction of the plain program does the same in both programs, and a block is left by
the same edge, which lands at the same block or at one on the way to it.
-/

namespace FlowProfile

/-! ### Machines -/

/-- The program cannot tell the machines apart. The first has registered nothing. -/
structure Machine.Alike {σ : Type} (host : Host σ) (m m' : Machine σ) : Prop where
  vars : m'.vars = m.vars
  host : host.Alike m.host m'.host
  handlers : m.handlers = []

/-- The effects are of one kind, on machines that are alike. -/
inductive Effect.Agree {σ : Type} (host : Host σ) : Effect σ → Effect σ → Prop where
  | proceed {m m' : Machine σ} (h : m.Alike host m') : Agree host (.proceed m) (.proceed m')
  | enter {m m' : Machine σ} (function : ℕ) (h : m.Alike host m') :
      Agree host (.enter function m) (.enter function m')
  | fail {m m' : Machine σ} (failure failure' : Failure) (h : m'.vars = m.vars) :
      Agree host (.fail m failure) (.fail m' failure')

theorem Effect.Agree.of {σ α : Type} {host : Host σ} {m m' : Machine σ} (h : m.Alike host m')
    {result : Outcome α} {next next' : α → Effect σ}
    (hnext : ∀ a, result = .ok a → Agree host (next a) (next' a)) :
    Agree host (.of m result next) (.of m' result next') := by
  cases result with
  | ok a => exact hnext a rfl
  | error failure => exact .fail _ _ h.vars

namespace Program.Instrumented

variable {σ : Type} {used : Strategy → Prop} {p q : Program} {host : Host σ} {m m' : Machine σ}

/-- A call of the plain program is never a registration. -/
theorem ofEntryPoint?_eq_none (h : p.Instrumented used q) {callee : Callee} {args : List Operand}
    (hinst : p.HasInst (.call callee args)) {vars : Variables} {name : String}
    (hr : callee.resolve p vars = .ok name) : Strategy.ofEntryPoint? name = none := by
  have hgrows : p.Grows (fun _ => True) (fun _ => False) p := .refl p
  have hregisters : p.Registers fun _ => False :=
    hgrows.registers h.plain.isUninstrumented
  cases hs : Strategy.ofEntryPoint? name with
  | none => rfl
  | some s => exact (hregisters.of_resolve hinst hr hs).1.elim

theorem execute_agree (h : p.Instrumented used q) {inst : Inst} (hinst : p.HasInst inst)
    (hm : m.Alike host m') (depth : ℕ) :
    Effect.Agree host (m.execute p host depth inst) (m'.execute q host depth inst) := by
  cases inst with
  | op opcode dest operands =>
      cases dest with
      | none => exact .proceed hm
      | some dest =>
          simp only [Machine.execute, hm.vars]
          refine .of hm fun value _ => ?_
          cases value with
          | none => exact .proceed hm
          | some value => exact .proceed ⟨rfl, hm.host, hm.handlers⟩
  | call callee args =>
      simp only [Machine.execute, Machine.call, h.grows.edited.resolve_eq, hm.vars]
      refine .of hm fun name hr => ?_
      simp only [h.ofEntryPoint?_eq_none hinst hr, h.grows.edited.definition?_eq]
      cases p.definition? name with
      | some function =>
          by_cases hdepth : depth + 1 < maxDepth
          · simp only [if_pos hdepth]
            exact .enter function hm
          · simp only [if_neg hdepth]
            exact .fail _ _ hm.vars
      | none =>
          have hanswer := hm.host.answer name args m.vars
          have hstate := hm.host.call name args m.vars
          rcases hc : host.call m.host name args m.vars with ⟨state, answer⟩
          rcases hc' : host.call m'.host name args m.vars with ⟨state', answer'⟩
          rw [hc, hc'] at hanswer hstate
          simp only at hanswer hstate
          subst hanswer
          cases answer with
          | ok vars => exact .proceed ⟨rfl, hstate, hm.handlers⟩
          | error failure => exact .fail _ _ rfl
  | _ => cases (h.plain.hasInst hinst).1

end Program.Instrumented

/-! ### Edges -/

namespace Terminator

@[simp] theorem exit_mapTargets (move : BlockId → BlockId) (t : Terminator) (name : String)
    (vars : Variables) : (t.mapTargets move).exit name vars = t.exit name vars := by
  cases t with
  | switch value default cases =>
      simp [mapTargets, exit, List.findIdx?_map, Function.comp_def]
  | _ => rfl

/-- Control leaves by one of the successors. -/
theorem exit_lt {t : Terminator} {name : String} {vars : Variables} {succ : ℕ}
    (h : t.exit name vars = .ok (some succ)) : succ < t.successors.length := by
  cases t with
  | br target =>
      obtain rfl : 0 = succ := by simpa [exit] using h
      exact Nat.one_pos
  | condBr cond thenBlock elseBlock =>
      simp only [exit, Outcome.bind_eq_ok_iff, Outcome.pure_eq_ok_iff, Option.some.injEq] at h
      obtain ⟨value, -, rfl⟩ := h
      split
      · exact Nat.two_pos
      · exact Nat.one_lt_two
  | switch value default cases =>
      simp only [exit, Outcome.bind_eq_ok_iff, Outcome.pure_eq_ok_iff, Option.some.injEq] at h
      obtain ⟨value, -, rfl⟩ := h
      cases hi : cases.findIdx? (·.1 == value) with
      | none => exact Nat.succ_pos _
      | some i =>
          obtain ⟨hlt, -⟩ := List.findIdx?_eq_some_iff_getElem.mp hi
          simpa [successors] using hlt
  | ret => cases h
  | unreachable => cases h

end Terminator

/-- How the two programs leave the same block of a function. A block on an edge goes on to where
the plain program is. -/
inductive Program.Leaves (used : Strategy → Prop) (p q : Program) (function : ℕ) :
    Outcome (Option Visit) → Outcome (Option Visit) → Prop where
  | fail (failure failure' : Failure) : Leaves used p q function (.error failure) (.error failure')
  | back : Leaves used p q function (.ok none) (.ok none)
  | own {dest : BlockId} (edge edge' : Option (BlockId × ℕ))
      (hb : (p.block? function dest).isSome = true) :
      Leaves used p q function (.ok (some ⟨function, dest, edge⟩))
        (.ok (some ⟨function, dest, edge'⟩))
  | crossing {dest fresh : BlockId} {block : Block} (edge edge' : Option (BlockId × ℕ))
      (hb : (p.block? function dest).isSome = true) (hnew : p.block? function fresh = none)
      (hfresh : q.block? function fresh = some block)
      (hadded : ∀ inst ∈ block.insts, inst.AddedTo used q)
      (hterm : block.terminator = .br dest) :
      Leaves used p q function (.ok (some ⟨function, dest, edge⟩))
        (.ok (some ⟨function, fresh, edge'⟩))

namespace Program

variable {used : Strategy → Prop} {p q : Program} {function : ℕ} {b : BlockId}

theorem follow_eq_error {f : Function} {block : Block} {vars : Variables} {failure : Failure}
    (hf : p.functions[function]? = some f) (hb : f.blocks[b]? = some block)
    (he : block.terminator.exit f.name vars = .error failure) :
    p.follow function b vars = .error failure := by
  have hfunction : p.function function = .ok f := Outcome.get_eq_ok_iff.mpr hf
  have hblock : f.block b = .ok block := Outcome.get_eq_ok_iff.mpr hb
  simp only [follow, hfunction, bind, Except.bind, hblock, he]

namespace Instrumented

/-- The blocks of the plain program are there, with added instructions in between. -/
theorem exists_block (h : p.Instrumented used q) {block : Block}
    (hb : p.block? function b = some block) :
    ∃ block', q.block? function b = some block' ∧
      Woven (Inst.AddedTo used q) block.insts block'.insts := by
  obtain ⟨f, hf, hb⟩ := block?_eq_some_iff.mp hb
  obtain ⟨g, hg, hfg⟩ := h.grows.edited.exists_right hf
  obtain ⟨block', hb', hwoven, -⟩ :=
    (hfg.refines (h.valid f (List.mem_of_getElem? hf))).own b block hb
  exact ⟨block', block?_eq_some_iff.mpr ⟨g, hg, hb'⟩, hwoven⟩

theorem follow_leaves (h : p.Instrumented used q) {block : Block}
    (hb : p.block? function b = some block) (vars : Variables) :
    Leaves used p q function (p.follow function b vars) (q.follow function b vars) := by
  obtain ⟨f, hf, hb⟩ := block?_eq_some_iff.mp hb
  obtain ⟨g, hg, hfg⟩ := h.grows.edited.exists_right hf
  have hvalid := h.valid f (List.mem_of_getElem? hf)
  have hrefines := hfg.refines hvalid
  obtain ⟨block', hb', -, hterm⟩ := hrefines.own b block hb
  have hexit : block.terminator.exit f.name vars = block'.terminator.exit g.name vars := by
    rw [← hterm, Terminator.exit_mapTargets, hfg.name_eq]
  cases he : block'.terminator.exit g.name vars with
  | error failure =>
      rw [follow_eq_error hf hb (hexit.trans he), follow_eq_error hg hb' he]
      exact .fail _ _
  | ok exit =>
      cases exit with
      | none =>
          rw [follow_eq_ok_none_iff.mpr ⟨f, block, hf, hb, hexit.trans he⟩,
            follow_eq_ok_none_iff.mpr ⟨g, block', hg, hb', he⟩]
          exact .back
      | some succ =>
          have hlt := Terminator.exit_lt he
          have hfresh := List.getElem?_eq_getElem hlt
          set fresh := block'.terminator.successors[succ] with hdef
          have hdest : block.terminator.successors[succ]? =
              some (g.landing f.blocks.length fresh) := by
            rw [← hterm, Terminator.successors_mapTargets, List.getElem?_map, hfresh]
            rfl
          have hown := (hvalid block (List.mem_of_getElem? hb) _ (List.mem_of_getElem? hdest)).1
          rw [follow_eq_ok_some_iff.mpr ⟨f, block, succ, _, hf, hb, hexit.trans he, hdest, rfl⟩,
            follow_eq_ok_some_iff.mpr ⟨g, block', succ, fresh, hg, hb', he, hfresh, rfl⟩]
          have hland : (p.block? function (g.landing f.blocks.length fresh)).isSome = true := by
            rw [block?, hf, Option.bind_some, List.getElem?_eq_getElem hown]
            rfl
          by_cases hfreshOwn : fresh < f.blocks.length
          · rw [Function.landing_of_lt hfreshOwn] at hland ⊢
            exact .own _ _ hland
          · have hge : f.blocks.length ≤ fresh := Nat.le_of_not_lt hfreshOwn
            have hin := (hrefines.valid block' (List.mem_of_getElem? hb') fresh
              (List.mem_of_getElem? hfresh)).1
            obtain ⟨hadded, -, dest, hdestOwn, hbr⟩ :=
              hrefines.crossing fresh _ hge (List.getElem?_eq_getElem hin)
            have hbrDest : g.blocks[fresh].terminator.successors[0]? = some dest := by
              rw [hbr]
              rfl
            have hlanding : g.landing f.blocks.length fresh = dest :=
              (hrefines.landing_crossing hge (List.getElem?_eq_getElem hin) hbrDest).1
            refine .crossing _ _ hland ?_
              (block?_eq_some_iff.mpr ⟨g, hg, List.getElem?_eq_getElem hin⟩) hadded ?_
            · rw [block?, hf, Option.bind_some, List.getElem?_eq_none hge]
            · rw [hbr, hlanding]

end Instrumented

end Program

end FlowProfile
