import FlowProfile.Proofs.Exec.Agreement

/-!
# A run beside its instrumented run

While the instrumented run executes what was added, or stands on an edge that was split, the
plain run waits. Every other step both take together. The work that is left until the next
common step bounds how long the plain run can wait.
-/

namespace FlowProfile

def Visit.place (v : Visit) : ℕ × BlockId := (v.function, v.block)

/-- The visited blocks, without those that the program does not have. -/
def Program.places (p : Program) (vs : List Visit) : List (ℕ × BlockId) :=
  (vs.map Visit.place).filter fun place => (p.block? place.1 place.2).isSome

/-- The instructions and terminators of a program. -/
def Program.size (p : Program) : ℕ :=
  ((p.functions.flatMap (·.blocks)).map (·.insts.length + 1)).sum

theorem Program.length_lt_size {p : Program} {function : ℕ} {b : BlockId} {block : Block}
    (hb : p.block? function b = some block) : block.insts.length < p.size := by
  obtain ⟨f, hf, hb⟩ := block?_eq_some_iff.mp hb
  have hmem : block ∈ p.functions.flatMap (·.blocks) :=
    List.mem_flatMap.mpr ⟨f, List.mem_of_getElem? hf, List.mem_of_getElem? hb⟩
  exact List.single_le_sum (fun _ _ => Nat.zero_le _) _
    (List.mem_map_of_mem (f := fun block : Block => block.insts.length + 1) hmem)

/-- A function with a body has an entry. -/
theorem Program.exists_entry {p : Program} {name : String} {i : ℕ}
    (h : p.definition? name = some i) : ∃ entry, p.block? i 0 = some entry := by
  obtain ⟨-, hbody⟩ := Option.filter_eq_some_iff.mp h
  obtain ⟨f, hf, hdef⟩ := (Option.any_eq_true _ _).mp hbody
  have hlt : 0 < f.blocks.length := by
    simpa [Function.isDeclaration, List.length_pos_iff] using hdef
  exact ⟨f.blocks[0], block?_eq_some_iff.mpr ⟨f, hf, List.getElem?_eq_getElem hlt⟩⟩

@[simp] theorem Program.places_append (p : Program) (vs ws : List Visit) :
    p.places (vs ++ ws) = p.places vs ++ p.places ws := by
  simp [places]

theorem Program.places_some {p : Program} {v : Visit}
    (h : (p.block? v.function v.block).isSome = true) :
    p.places (some v).toList = (some v).toList.map Visit.place := by
  simp [places, Visit.place, h]

/-! ### Configurations side by side -/

/-- Suspended calls at the same place, one of them with added instructions in between. -/
inductive Frame.Beside (used : Strategy → Prop) (q : Program) : Frame → Frame → Prop where
  | mk {function : ℕ} {b : BlockId} {xs ys : List Inst}
      (hrest : Woven (Inst.AddedTo used q) xs ys) :
      Beside used q ⟨function, b, xs⟩ ⟨function, b, ys⟩

namespace Config

variable {σ : Type}

/-- The second configuration, of the instrumented program, goes on like the first. -/
inductive Simulates (used : Strategy → Prop) (p q : Program) (host : Host σ) :
    Config σ → Config σ → Prop where
  | home {m m' : Machine σ} {function : ℕ} {b : BlockId} {xs ys : List Inst}
      {callers callers' : List Frame} (hm : m.Alike host m')
      (hrest : Woven (Inst.AddedTo used q) xs ys)
      (hcallers : List.Forall₂ (Frame.Beside used q) callers callers') :
      Simulates used p q host ⟨m, ⟨function, b, xs⟩, callers⟩ ⟨m', ⟨function, b, ys⟩, callers'⟩
  | crossing {m m' : Machine σ} {function : ℕ} {b dest fresh : BlockId} {ys : List Inst}
      {block : Block} {edge : Option (BlockId × ℕ)} {callers callers' : List Frame}
      (hm : m.Alike host m')
      (hfollow : p.follow function b m.vars = .ok (some ⟨function, dest, edge⟩))
      (hdest : (p.block? function dest).isSome = true) (hnew : p.block? function fresh = none)
      (hfresh : q.block? function fresh = some block) (hterm : block.terminator = .br dest)
      (hrest : ∀ inst ∈ ys, inst.AddedTo used q)
      (hcallers : List.Forall₂ (Frame.Beside used q) callers callers') :
      Simulates used p q host ⟨m, ⟨function, b, []⟩, callers⟩
        ⟨m', ⟨function, fresh, ys⟩, callers'⟩

/-- The instructions that are left in all frames, and room for one block more until the run
has left its own. -/
def work (p q : Program) (c : Config σ) : ℕ :=
  (c.frames.map (·.rest.length)).sum +
    if (p.block? c.frame.function c.frame.block).isSome then q.size else 0

/-- What the next steps of both configurations are. -/
inductive Keeps (used : Strategy → Prop) (p q : Program) (host : Host σ) (c c' : Config σ) :
    Prop where
  | stutter {v' : Option Visit} {d' : Config σ} (hm' : Moves q host c' v' d')
      (hsim : Simulates used p q host c d') (hplaces : p.places v'.toList = [])
      (hrequest : c'.request? q = none) (hwork : d'.work p q < c'.work p q)
  | move {v v' : Option Visit} {d d' : Config σ} (hm : Moves p host c v d)
      (hm' : Moves q host c' v' d') (hsim : Simulates used p q host d d')
      (hplaces : p.places v'.toList = v.toList.map Visit.place)
      (hrequest : c'.request? q = c.request? p)
      (hwork : d'.work p q < c'.work p q + 2 * q.size)
  | stop {r r' : Machine σ × Outcome Unit} (hr : (c.step p host).result? = some r)
      (hr' : (c'.step q host).result? = some r') (hrequest : c'.request? q = c.request? p)
      (hvars : r'.1.vars = r.1.vars) (hok : r'.2 = .ok () ↔ r.2 = .ok ())
      (hhandlers : r.2 = .ok () → r.1.handlers = [])

variable {used : Strategy → Prop} {p q : Program} {host : Host σ}

/-! ### Added instructions -/

theorem request?_of_added {m : Machine σ} {function : ℕ} {b : BlockId} {inst : Inst}
    {rest : List Inst} {callers : List Frame}
    (ha : inst.AddedTo used q) :
    request? q ⟨m, ⟨function, b, inst :: rest⟩, callers⟩ = none := by
  cases ha with
  | pass _ _ _ ha => cases ha <;> rfl
  | @registration s _ _ =>
      simp [request?, Strategy.registration, Callee.resolve, Strategy.ofEntryPoint?_entryPoint]

/-- An added instruction is one step of the instrumented program alone. -/
theorem moves_of_added (hhost : host.IgnoresClock) {m m' : Machine σ} {steps function : ℕ}
    {b : BlockId} {inst : Inst} {ys : List Inst} {callers' : List Frame} (hm : m.Alike host m')
    (hready : m'.Ready used q steps) (hsteps : steps + 1 < 2 ^ 64)
    (htimed : Timed ⟨m', ⟨function, b, inst :: ys⟩, callers'⟩)
    (ha : inst.AddedTo used q) :
    ∃ m'', m.Alike host m'' ∧
      Moves q host ⟨m', ⟨function, b, inst :: ys⟩, callers'⟩ none
        ⟨m'', ⟨function, b, ys⟩, callers'⟩ ∧
      work p q ⟨m'', ⟨function, b, ys⟩, callers'⟩ <
        work p q ⟨m', ⟨function, b, inst :: ys⟩, callers'⟩ := by
  obtain ⟨m'', hexec, hvars, hnow⟩ :=
    hready.quiet hsteps ha htimed.frame.1 host callers'.length
  refine ⟨m'', ⟨hvars.trans hm.vars, ?_, hm.handlers⟩, .proceed hexec, ?_⟩
  · rcases hnow with heq | heq
    · rw [heq]
      exact hm.host
    · rw [heq]
      exact hm.host.trans (hhost m'.host)
  · simp only [work, frames, List.map_cons, List.sum_cons, List.length_cons]
    omega

/-! ### Common steps -/

theorem request?_eq (h : p.Instrumented used q) {m m' : Machine σ} (hm : m.Alike host m')
    {function : ℕ} {b : BlockId} {inst : Inst} {xs ys : List Inst}
    {callers callers' : List Frame} :
    request? q ⟨m', ⟨function, b, inst :: ys⟩, callers'⟩ =
      request? p ⟨m, ⟨function, b, inst :: xs⟩, callers⟩ := by
  cases inst with
  | call callee args =>
      simp only [request?, hm.vars, h.grows.edited.resolve_eq, h.grows.edited.definition?_eq]
  | _ => rfl

theorem result?_failed {c : Config σ} {m : Machine σ} {failure : Failure}
    (h : c.step p host = .failed m failure) :
    (c.step p host).result? = some (m, .error failure) := by
  rw [h]
  rfl

theorem result?_finished {c : Config σ} {m : Machine σ} (h : c.step p host = .finished m) :
    (c.step p host).result? = some (m, .ok ()) := by
  rw [h]
  rfl

/-- Both programs execute an instruction of the plain one. -/
theorem keeps_own (h : p.Instrumented used q) {m m' : Machine σ} (hm : m.Alike host m')
    {function : ℕ} {b : BlockId} {inst : Inst} {xs ys : List Inst} {callers callers' : List Frame}
    (hin : Frame.IsIn p ⟨function, b, inst :: xs⟩)
    (hrest : Woven (Inst.AddedTo used q) xs ys)
    (hcallers : List.Forall₂ (Frame.Beside used q) callers callers') :
    Keeps used p q host ⟨m, ⟨function, b, inst :: xs⟩, callers⟩
      ⟨m', ⟨function, b, inst :: ys⟩, callers'⟩ := by
  have hagree := h.execute_agree (Frame.hasInst hin rfl) hm callers.length
  rw [hcallers.length_eq] at hagree
  generalize heffect : m.execute p host callers'.length inst = effect at hagree
  generalize heffect' : m'.execute q host callers'.length inst = effect' at hagree
  rw [← hcallers.length_eq] at heffect
  cases hagree with
  | proceed hnext =>
      refine .move (.proceed heffect) (.proceed heffect') (.home hnext hrest hcallers) rfl
        (request?_eq h hm) ?_
      simp only [work, frames, List.map_cons, List.sum_cons, List.length_cons]
      omega
  | enter callee hnext =>
      obtain ⟨_, _, name, _, _, _, hd⟩ := Machine.exists_call_of_enter heffect
      obtain ⟨entry, hentry⟩ := Program.exists_entry hd
      obtain ⟨entry', hentry', hwoven⟩ := h.exists_block hentry
      refine .move (.enter heffect (Program.frameAt_eq_ok_iff.mpr ⟨entry, hentry, rfl⟩))
        (.enter heffect' (Program.frameAt_eq_ok_iff.mpr ⟨entry', hentry', rfl⟩))
        (.home hnext hwoven (.cons (.mk hrest) hcallers)) ?_ (request?_eq h hm) ?_
      · exact Program.places_some (by rw [hentry]; rfl)
      · obtain ⟨block, hb, -⟩ := hin
        have hlt := Program.length_lt_size hentry'
        simp only at hb
        simp only [work, frames, List.map_cons, List.sum_cons, List.length_cons, hentry, hb,
          Option.isSome_some, if_true]
        omega
  | @fail n n' failure failure' hvars =>
      have hstep : step p host ⟨m, ⟨function, b, inst :: xs⟩, callers⟩ =
          .failed n (failure.outside p (⟨function, b, xs⟩ :: callers)) := by
        simp only [step, heffect]
      have hstep' : step q host ⟨m', ⟨function, b, inst :: ys⟩, callers'⟩ =
          .failed n' (failure'.outside q (⟨function, b, ys⟩ :: callers')) := by
        simp only [step, heffect']
      exact .stop (result?_failed hstep) (result?_failed hstep') (request?_eq h hm) hvars
        (by simp) (by simp)

/-- Both programs leave a block of the plain one. -/
theorem keeps_leave (h : p.Instrumented used q) {m m' : Machine σ} (hm : m.Alike host m')
    {function : ℕ} {b : BlockId} {block : Block} {callers callers' : List Frame}
    (hb : p.block? function b = some block)
    (hcallers : List.Forall₂ (Frame.Beside used q) callers callers') :
    Keeps used p q host ⟨m, ⟨function, b, []⟩, callers⟩ ⟨m', ⟨function, b, []⟩, callers'⟩ := by
  have hleaves := h.follow_leaves hb m.vars
  generalize hfollow : p.follow function b m.vars = visit at hleaves
  generalize hfollow' : q.follow function b m.vars = visit' at hleaves
  rw [← hm.vars] at hfollow'
  cases hleaves with
  | fail failure failure' =>
      have hstep : step p host ⟨m, ⟨function, b, []⟩, callers⟩ =
          .failed m (failure.outside p callers) := by
        simp only [step, leave, hfollow]
      have hstep' : step q host ⟨m', ⟨function, b, []⟩, callers'⟩ =
          .failed m' (failure'.outside q callers') := by
        simp only [step, leave, hfollow']
      exact .stop (result?_failed hstep) (result?_failed hstep') rfl hm.vars (by simp) (by simp)
  | back =>
      cases hcallers with
      | nil =>
          have hstep : step p host ⟨m, ⟨function, b, []⟩, []⟩ = .finished m := by
            simp only [step, leave, hfollow]
          have hstep' : step q host ⟨m', ⟨function, b, []⟩, []⟩ = .finished m' := by
            simp only [step, leave, hfollow']
          exact .stop (result?_finished hstep) (result?_finished hstep') rfl hm.vars Iff.rfl
            fun _ => hm.handlers
      | cons hframe hcallers =>
          cases hframe with
          | mk hrest =>
              refine .move (.back hfollow) (.back hfollow') (.home hm hrest hcallers) rfl rfl ?_
              obtain ⟨block', hb', -⟩ := h.exists_block hb
              have hlt := Program.length_lt_size hb'
              simp only [work, frames, List.map_cons, List.sum_cons, List.length_nil, hb,
                Option.isSome_some, if_true]
              split <;> omega
  | @own dest edge edge' hdest =>
      obtain ⟨target, htarget⟩ := Option.isSome_iff_exists.mp hdest
      obtain ⟨target', htarget', hwoven⟩ := h.exists_block htarget
      refine .move (.follow hfollow (Program.frameAt_eq_ok_iff.mpr ⟨target, htarget, rfl⟩))
        (.follow hfollow' (Program.frameAt_eq_ok_iff.mpr ⟨target', htarget', rfl⟩))
        (.home hm hwoven hcallers) (Program.places_some hdest) rfl ?_
      have hlt := Program.length_lt_size htarget'
      simp only [work, frames, List.map_cons, List.sum_cons, List.length_nil, hb, hdest,
        Option.isSome_some, if_true]
      omega
  | @crossing dest fresh target edge edge' hdest hnew hfresh hadded hterm =>
      refine .stutter (.follow hfollow' (Program.frameAt_eq_ok_iff.mpr ⟨target, hfresh, rfl⟩))
        (.crossing hm hfollow hdest hnew hfresh hterm hadded hcallers) ?_ rfl ?_
      · simp [Program.places, Visit.place, hnew]
      · have hlt := Program.length_lt_size hfresh
        simp only [work, frames, List.map_cons, List.sum_cons, List.length_nil, hb, hnew,
          Option.isSome_some, Option.isSome_none, if_true]
        simp
        omega

/-- The plain run catches up when the instrumented one leaves a block on an edge. -/
theorem keeps_cross (h : p.Instrumented used q) {m m' : Machine σ} (hm : m.Alike host m')
    {function : ℕ} {b dest fresh : BlockId} {block : Block} {edge : Option (BlockId × ℕ)}
    {callers callers' : List Frame}
    (hfollow : p.follow function b m.vars = .ok (some ⟨function, dest, edge⟩))
    (hdest : (p.block? function dest).isSome = true) (hnew : p.block? function fresh = none)
    (hfresh : q.block? function fresh = some block) (hterm : block.terminator = .br dest)
    (hcallers : List.Forall₂ (Frame.Beside used q) callers callers') :
    Keeps used p q host ⟨m, ⟨function, b, []⟩, callers⟩ ⟨m', ⟨function, fresh, []⟩, callers'⟩ := by
  obtain ⟨target, htarget⟩ := Option.isSome_iff_exists.mp hdest
  obtain ⟨target', htarget', hwoven⟩ := h.exists_block htarget
  obtain ⟨g, hg, hb⟩ := Program.block?_eq_some_iff.mp hfresh
  have hfollow' : q.follow function fresh m'.vars =
      .ok (some ⟨function, dest, some (fresh, 0)⟩) := by
    refine Program.follow_eq_ok_some_iff.mpr ⟨g, block, 0, dest, hg, hb, ?_, ?_, rfl⟩
    · rw [hterm]
      rfl
    · rw [hterm]
      rfl
  refine .move (.follow hfollow (Program.frameAt_eq_ok_iff.mpr ⟨target, htarget, rfl⟩))
    (.follow hfollow' (Program.frameAt_eq_ok_iff.mpr ⟨target', htarget', rfl⟩))
    (.home hm hwoven hcallers) (Program.places_some hdest) rfl ?_
  have hlt := Program.length_lt_size htarget'
  simp only [work, frames, List.map_cons, List.sum_cons, List.length_nil, hdest, hnew,
    Option.isSome_none, if_true]
  simp
  omega

/-- Side by side, the configurations stay so with every step, or end with the same step. -/
theorem Simulates.keeps (h : p.Instrumented used q) (hhost : host.IgnoresClock)
    {c c' : Config σ} (hsim : Simulates used p q host c c') (hin : c.frame.IsIn p) {steps : ℕ}
    (hready : c'.machine.Ready used q steps) (hsteps : steps + 1 < 2 ^ 64) (htimed : c'.Timed) :
    Keeps used p q host c c' := by
  cases hsim with
  | home hm hrest hcallers =>
      cases hrest with
      | nil =>
          obtain ⟨block, hb, -⟩ := hin
          exact keeps_leave h hm hb hcallers
      | own hrest => exact keeps_own h hm hin hrest hcallers
      | add ha hrest =>
          obtain ⟨m'', hm'', hmoves, hwork⟩ :=
            moves_of_added hhost hm hready hsteps htimed ha
          exact .stutter hmoves (.home hm'' hrest hcallers) rfl (request?_of_added ha) hwork
  | @crossing m m' function b dest fresh ys block edge callers callers' hm hfollow hdest hnew
      hfresh hterm hrest hcallers =>
      cases ys with
      | nil => exact keeps_cross h hm hfollow hdest hnew hfresh hterm hcallers
      | cons inst ys =>
          obtain ⟨ha, hrest⟩ := List.forall_mem_cons.mp hrest
          obtain ⟨m'', hm'', hmoves, hwork⟩ :=
            moves_of_added hhost hm hready hsteps htimed ha
          exact .stutter hmoves (.crossing hm'' hfollow hdest hnew hfresh hterm hrest hcallers) rfl
            (request?_of_added ha) hwork

end Config

end FlowProfile
