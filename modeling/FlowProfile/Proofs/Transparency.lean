import FlowProfile.Proofs.Exec.Records
import FlowProfile.Proofs.Exec.Simulation

/-!
# Instrumentation is transparent

An instrumented program ends where the plain one ends, and does what it does: the same
requests to the host, the same blocks in the same order, the same variables at the end, and
success or failure alike.
-/

namespace FlowProfile

namespace Config

variable {σ : Type} {used : Strategy → Prop} {p q : Program} {host : Host σ}

/-- Every configuration of an instrumented run has one of the plain run beside it. -/
theorem Passes.simulated (h : p.Instrumented used q) (hhost : host.IgnoresClock) {state : σ}
    {main : ℕ} {entry entry' : Block} (hentry : p.block? main 0 = some entry)
    (hentry' : q.block? main 0 = some entry')
    (hwoven : Woven (Inst.AddedTo used q) entry.insts entry'.insts)
    {vs' : List Visit} {n' : ℕ} {c' : Config σ}
    (hpasses : Passes q host (.entering q state main entry') vs' n' c')
    (hn' : n' < 2 ^ 64) :
    ∃ vs n c, Passes p host (.entering p state main entry) vs n c ∧
      Simulates used p q host c c' ∧ p.places vs' = vs.map Visit.place ∧
      requests q host n' (.entering q state main entry') =
        requests p host n (.entering p state main entry) ∧
      n ≤ n' ∧ n' + c'.work p q ≤ 2 * q.size * (n + 1) := by
  induction hpasses with
  | start =>
      have hmachine : (Machine.initial p state).Alike host (.initial q state) :=
        ⟨rfl, .refl state, rfl⟩
      refine ⟨[], 0, _, .start, .home hmachine hwoven .nil, rfl, rfl, le_rfl, ?_⟩
      have hlt := Program.length_lt_size hentry'
      simp only [work, frames, List.map_cons, List.sum_cons, List.map_nil, List.sum_nil, hentry,
        Option.isSome_some, if_true]
      omega
  | @move vs' n' d' e' v' hpasses hm' ih =>
      obtain ⟨vs, n, c, hp, hsim, hplaces, hrequests, hle, hwork⟩ := ih (by omega)
      obtain ⟨hready, htimed⟩ := hpasses.ready_timed h hentry'
      have hin := (hp.coherent hentry).frames c.frame List.mem_cons_self
      have hsucc := hpasses.requests_succ hm'
      cases hsim.keeps h hhost hin hready hn' htimed with
      | stutter hm'' hsim hv hrequest hless =>
          obtain ⟨rfl, rfl⟩ := hm'.unique hm''
          refine ⟨vs, n, c, hp, hsim, ?_, ?_, by omega, by omega⟩
          · rw [Program.places_append, hplaces, hv, List.append_nil]
          · rw [hsucc, hrequests, hrequest, Option.toList_none, List.append_nil]
      | @move v _ d _ hm hm'' hsim hv hrequest hless =>
          obtain ⟨rfl, rfl⟩ := hm'.unique hm''
          refine ⟨_, n + 1, d, hp.move hm, hsim, ?_, ?_, by omega, ?_⟩
          · rw [Program.places_append, hplaces, hv, List.map_append]
          · rw [hsucc, hrequests, hrequest, hp.requests_succ hm]
          · rw [Nat.mul_succ]
            omega
      | stop hr hr' =>
          rw [hm'.result?_eq] at hr'
          cases hr'

end Config

/-! ### Starts and ends -/

namespace Program

variable {σ : Type} {used : Strategy → Prop} {p q : Program} {host : Host σ} {state : σ}

namespace Instrumented

theorem isValid_right (h : p.Instrumented used q) : q.IsValid := by
  intro g hg
  obtain ⟨i, hi⟩ := List.mem_iff_getElem?.mp hg
  obtain ⟨f, hf, hfg⟩ := h.grows.edited.exists_left hi
  exact hfg.isValid (h.valid f (List.mem_of_getElem? hf))

/-- A function of the instrumented program that has an entry had one before. -/
theorem exists_entry (h : p.Instrumented used q) {function : ℕ} {entry' : Block}
    (hentry' : q.block? function 0 = some entry') :
    ∃ entry, p.block? function 0 = some entry := by
  obtain ⟨g, hg, hb⟩ := block?_eq_some_iff.mp hentry'
  obtain ⟨f, hf, hfg⟩ := h.grows.edited.exists_left hg
  have hdef : f.isDeclaration = false := by
    rw [← hfg.isDeclaration_eq, Function.isDeclaration, List.isEmpty_eq_false_iff]
    rintro hnil
    rw [hnil] at hb
    cases hb
  have hlen : 0 < f.blocks.length := by
    simpa [Function.isDeclaration, List.length_pos_iff] using hdef
  exact ⟨f.blocks[0], block?_eq_some_iff.mpr ⟨f, hf, List.getElem?_eq_getElem hlen⟩⟩

/-- Where the plain program starts, so does the instrumented one. -/
theorem start_both (h : p.Instrumented used q) (state : σ) {main : ℕ} {entry : Block}
    (hmain : p.functionIndex? "main" = some main) (hentry : p.block? main 0 = some entry) :
    ∃ entry', q.block? main 0 = some entry' ∧
      Woven (Inst.AddedTo used q) entry.insts entry'.insts ∧
      p.start state = .ok (.entering p state main entry) ∧
      q.start state = .ok (.entering q state main entry') := by
  obtain ⟨entry', hentry', hwoven⟩ := h.exists_block hentry
  have hmain' : q.functionIndex? "main" = some main :=
    (h.grows.edited.functionIndex?_eq "main").trans hmain
  exact ⟨entry', hentry', hwoven, start_eq_ok_iff.mpr ⟨h.valid, main, entry, hmain, hentry, rfl⟩,
    start_eq_ok_iff.mpr ⟨h.isValid_right, main, entry', hmain', hentry', rfl⟩⟩

/-- Both programs can be started, at the entry of the same function, or none of them. -/
theorem start (h : p.Instrumented used q) (state : σ) :
    (∃ failure failure', p.start state = .error failure ∧ q.start state = .error failure') ∨
      ∃ main entry entry', p.block? main 0 = some entry ∧ q.block? main 0 = some entry' ∧
        Woven (Inst.AddedTo used q) entry.insts entry'.insts ∧
        p.start state = .ok (.entering p state main entry) ∧
        q.start state = .ok (.entering q state main entry') := by
  cases hp : p.start state with
  | ok c =>
      obtain ⟨-, main, entry, hmain, hentry, rfl⟩ := start_eq_ok_iff.mp hp
      obtain ⟨entry', hentry', hwoven, -, hq⟩ := h.start_both state hmain hentry
      exact .inr ⟨main, entry, entry', hentry, hentry', hwoven, rfl, hq⟩
  | error failure =>
      cases hq : q.start state with
      | error failure' => exact .inl ⟨failure, failure', rfl, rfl⟩
      | ok c =>
          obtain ⟨-, main, entry', hmain, hentry', -⟩ := start_eq_ok_iff.mp hq
          rw [h.grows.edited.functionIndex?_eq] at hmain
          obtain ⟨entry, hentry⟩ := h.exists_entry hentry'
          obtain ⟨-, -, -, hok, -⟩ := h.start_both state hmain hentry
          rw [hp] at hok
          cases hok

end Instrumented

end Program

/-! ### Both runs -/

/-- What two runs have in common: whether they succeed, what they ask of the host, which blocks
of the first program they visit, and the variables at the end. -/
structure Program.RunsAlike {σ : Type} (p q : Program) (host : Host σ) (state : σ)
    (limit limit' : ℕ) (args : List String) : Prop where
  success : (∃ records, (q.run host state limit' args).2 = .ok records) ↔
    ∃ records, (p.run host state limit args).2 = .ok records
  requests : q.requests host state limit' = p.requests host state limit
  places : p.places (q.visits host state limit') = (p.visits host state limit).map Visit.place
  vars : (q.run host state limit' args).1.vars = (p.run host state limit args).1.vars

namespace Program.Instrumented

variable {σ : Type} {used : Strategy → Prop} {p q : Program} {host : Host σ} {state : σ}
  {limit limit' : ℕ}

/-- The plain program ends at once with the instrumented one. -/
theorem exists_end (h : p.Instrumented used q) (hhost : host.IgnoresClock) {main : ℕ}
    {entry entry' : Block} (hentry : p.block? main 0 = some entry)
    (hentry' : q.block? main 0 = some entry')
    (hwoven : Woven (Inst.AddedTo used q) entry.insts entry'.insts)
    (hlimit : limit' < 2 ^ 64)
    (hends : Config.endsWithin q host limit' (.entering q state main entry') = true) :
    ∃ vs n c r n' r', n < limit' ∧
      Config.Passes p host (.entering p state main entry) vs n c ∧
      (c.step p host).result? = some r ∧
      Config.run q host limit' limit' (.entering q state main entry') = r' ∧
      p.places (Config.visits q host limit' (.entering q state main entry')) =
        vs.map Visit.place ∧
      Config.requests q host limit' (.entering q state main entry') =
        Config.requests p host n (.entering p state main entry) ++ (c.request? p).toList ∧
      r'.1.vars = r.1.vars ∧ (r'.2 = .ok () ↔ r.2 = .ok ()) ∧
      (r.2 = .ok () → r.1.handlers = []) ∧ (r'.2 = .ok () → r'.1.Ready used q n') := by
  obtain ⟨n', c', r', hn', hpasses, hr', hrun⟩ := Config.exists_passes_of_endsWithin hends
  obtain ⟨vs, n, c, hp, hsim, hplaces, hrequests, hle, -⟩ :=
    hpasses.simulated h hhost hentry hentry' hwoven (by omega)
  obtain ⟨hready, htimed⟩ := hpasses.ready_timed h hentry'
  have hin := (hp.coherent hentry).frames c.frame List.mem_cons_self
  cases hsim.keeps h hhost hin hready (by omega) htimed with
  | stutter hm' =>
      rw [hm'.result?_eq] at hr'
      cases hr'
  | move _ hm' =>
      rw [hm'.result?_eq] at hr'
      cases hr'
  | @stop r r'' hr hr'' hrequest hvars hok hhandlers =>
      obtain rfl : r'' = r' := Option.some.inj (hr''.symm.trans hr')
      refine ⟨vs, n, c, r, n', r'', by omega, hp, hr, hrun limit', hplaces, ?_, hvars, hok,
        hhandlers, ?_⟩
      · rw [hpasses.requests_eq hr'' hn', hrequests, hrequest]
      · intro hok'
        rw [Config.result?_ok hr'' hok']
        exact hready

theorem endsWithin_left (h : p.Instrumented used q) (hhost : host.IgnoresClock)
    (hlimit : limit' < 2 ^ 64) (hends : q.endsWithin host state limit' = true) :
    p.endsWithin host state limit' = true := by
  rcases h.start state with ⟨_, _, hp, -⟩ |
    ⟨main, entry, entry', hentry, hentry', hwoven, hp, hq⟩
  · simp only [endsWithin, hp]
  · simp only [endsWithin, hq] at hends
    obtain ⟨vs, n, c, r, -, -, hn, hpasses, hr, -⟩ :=
      h.exists_end hhost hentry hentry' hwoven hlimit hends
    simp only [endsWithin, hp]
    exact (hpasses.result_eq hr hn 0).2.2

theorem endsWithin_right (h : p.Instrumented used q) (hhost : host.IgnoresClock)
    (hlimit : limit' < 2 ^ 64) (hroom : 2 * q.size * limit < limit')
    (hends : p.endsWithin host state limit = true) : q.endsWithin host state limit' = true := by
  rcases h.start state with ⟨_, _, -, hq⟩ |
    ⟨main, entry, entry', hentry, hentry', hwoven, hp, hq⟩
  · simp only [endsWithin, hq]
  · simp only [endsWithin, hp] at hends
    simp only [endsWithin, hq]
    rcases Config.exists_passes q host (.entering q state main entry') limit' with
      ⟨vs', c', hpasses⟩ | ⟨vs', n', c', r', hn', hpasses, hr'⟩
    · -- as many steps as the instrumented run has taken, the plain run would not have ended
      obtain ⟨vs, n, c, hp', -, -, -, -, hwork⟩ :=
        hpasses.simulated h hhost hentry hentry' hwoven hlimit
      have hn := hp'.lt_of_endsWithin hends
      have hmul : 2 * q.size * (n + 1) ≤ 2 * q.size * limit := Nat.mul_le_mul_left _ hn
      omega
    · exact (hpasses.result_eq hr' hn' 0).2.2

theorem runsAlike (h : p.Instrumented used q) (hhost : host.IgnoresClock)
    (hlimit : limit' < 2 ^ 64) (hends : p.endsWithin host state limit = true)
    (hends' : q.endsWithin host state limit' = true) (args : List String) :
    p.RunsAlike q host state limit limit' args := by
  rcases h.start state with ⟨failure, failure', hp, hq⟩ |
    ⟨main, entry, entry', hentry, hentry', hwoven, hp, hq⟩
  · constructor
    · simp [run, hp, hq]
    · simp only [requests, hp, hq]
    · simp [visits, hp, hq, places]
    · simp [run, hp, hq, Machine.initial]
  · simp only [endsWithin, hp] at hends
    simp only [endsWithin, hq] at hends'
    obtain ⟨vs, n, c, r, n', r', -, hpasses, hr, hrun', hplaces, hrequests, hvars, hok,
      hhandlers, hready⟩ := h.exists_end hhost hentry hentry' hwoven hlimit hends'
    have hn := hpasses.lt_of_endsWithin hends
    obtain ⟨hrun, hvisits, -⟩ := hpasses.result_eq hr hn limit
    obtain ⟨hmachine, hsuccess⟩ := run_of_start hp hrun args
    obtain ⟨hmachine', hsuccess'⟩ := run_of_start hq hrun' args
    constructor
    · rw [hsuccess, hsuccess', hok]
      refine and_congr_right fun hdone => ?_
      have hnone : r.1.records args = .ok [] := by
        rw [Machine.records, hhandlers hdone]
        rfl
      exact ⟨fun _ => ⟨[], hnone⟩, fun _ => (hready (hok.mpr hdone)).exists_records h.declares args⟩
    · simp only [requests, hp, hq]
      rw [hrequests, hpasses.requests_eq hr hn]
    · simp only [visits, hp, hq]
      have hfirst : p.places [⟨main, 0, none⟩] = [(main, 0)] := by
        simp [places, Visit.place, hentry]
      rw [← List.singleton_append, places_append, hfirst, hplaces, hvisits]
      rfl
    · rw [hmachine, hmachine', hvars]

end Program.Instrumented

/-- Instrumentation does not change what a program does. If the plain program ends, the
instrumented one ends within a multiple of its steps, and the other way round within the same;
and where both end, the runs are alike. -/
theorem Instrumenter.instrument_transparent {σ : Type} {ins : Instrumenter} {p q : Program}
    (hp : p.IsPlain)
    (houtside : ∀ f ∈ p.functions, f.isDeclaration = false → Comm.Operation.lookup? f.name = none)
    (hweights : ∀ w ∈ ins.weights, w.value.isGlobal = false) (hins : ins.instrument p = .ok q)
    {host : Host σ} (hhost : host.IgnoresClock) (state : σ) (args : List String) :
    (∀ limit limit' : UInt64, p.endsWithin host state limit.toNat = true →
      2 * q.size * limit.toNat < limit'.toNat → q.endsWithin host state limit'.toNat = true) ∧
    (∀ limit : UInt64, q.endsWithin host state limit.toNat = true →
      p.endsWithin host state limit.toNat = true) ∧
    ∀ limit limit' : UInt64, p.endsWithin host state limit.toNat = true →
      q.endsWithin host state limit'.toNat = true →
      p.RunsAlike q host state limit.toNat limit'.toNat args := by
  obtain ⟨used, h⟩ := instrumented hp houtside hweights hins
  refine ⟨?_, ?_, ?_⟩
  · intro limit limit' hends hroom
    exact h.endsWithin_right hhost limit'.toNat_lt hroom hends
  · intro limit hends
    exact h.endsWithin_left hhost limit.toNat_lt hends
  · intro limit limit' hends hends'
    exact h.runsAlike hhost limit'.toNat_lt hends hends' args

/-- A loop that sends a message each time. -/
def sendThrice : Program where
  functions := [
    ⟨"MPI_Comm_rank", []⟩,
    ⟨"MPI_Send", []⟩,
    ⟨"main", [
      ⟨"entry", [.call (.direct "MPI_Comm_rank") [.const 0, .var "rank"]], .br 1⟩,
      ⟨"body", [.op "add" (some "i") [.var "i", .const 1],
        .call (.direct "MPI_Send") [.var "buffer", .var "i", .const 8],
        .op "lt" (some "again") [.var "i", .const 3]], .condBr (.var "again") 1 2⟩,
      ⟨"exit", [], .ret⟩]⟩]
  globals := []

/-- Counts and times the messages, counts the edges, and adds up a variable. -/
def messageProfiler : Instrumenter :=
  ⟨[.comm, .time, .edge, .weightedBlock], "main", [⟨"main", 1, .var "i"⟩]⟩

theorem messageProfiler_transparent :
    ∃ q, messageProfiler.instrument sendThrice = .ok q ∧
      sendThrice.RunsAlike q MpiProcess.host (.start 0 2 .zero) 20 100 [] := by
  have hplain : sendThrice.IsPlain := by decide
  have houtside : ∀ f ∈ sendThrice.functions, f.isDeclaration = false →
      Comm.Operation.lookup? f.name = none := by decide
  have hweights : ∀ w ∈ messageProfiler.weights, w.value.isGlobal = false := by decide
  have hhost : MpiProcess.host.IgnoresClock := fun state => .refl state
  refine ⟨_, rfl, ?_⟩
  exact (Instrumenter.instrument_transparent hplain houtside hweights rfl hhost
    (.start 0 2 .zero) []).2.2 20 100 rfl rfl

end FlowProfile
