import FlowProfile.Proofs.Instrument.Calls

/-!
# Calls with instructions around them

A pass that treats sites from the last to the first puts some instructions before the call of each
site and some behind it. Among the instructions of its kind these stand nearest to the call, and
with none of the program itself between, whatever other passes insert.
-/

namespace FlowProfile

/-! ### The nearest instructions -/

/-- The instructions of a kind that come before the first of the program itself. -/
def nearest (kind : Inst → Bool) (insts : List Inst) : List Inst :=
  (insts.takeWhile (!·.isOwn)).filter kind

theorem insertIdx_cases {α : Type} (xs : List α) (i : ℕ) (x : α) :
    xs.insertIdx i x = xs ∨ ∃ ys zs, xs = ys ++ zs ∧ xs.insertIdx i x = ys ++ x :: zs := by
  rcases Nat.lt_or_ge xs.length i with hi | hi
  · exact .inl (List.insertIdx_of_length_lt hi)
  · have hsplit := insertIdx_append_right (xs.take i) (xs.drop i) 0 x
    rw [List.take_append_drop, List.length_take_of_le hi, Nat.add_zero,
      List.insertIdx_zero] at hsplit
    exact .inr ⟨_, _, (List.take_append_drop i xs).symm, hsplit⟩

section

variable {kind : Inst → Bool} {inst : Inst} {xs ys : List Inst}

theorem nearest_cons_own (h : inst.isOwn = true) (xs : List Inst) :
    nearest kind (inst :: xs) = [] := by
  simp [nearest, h]

theorem nearest_cons (h : inst.isOwn = false) (xs : List Inst) :
    nearest kind (inst :: xs) = if kind inst then inst :: nearest kind xs else nearest kind xs := by
  simp [nearest, h, List.filter_cons]

/-- An instruction of the program itself hides what comes behind it. -/
theorem nearest_append_own (h : inst.isOwn = true) (xs ys : List Inst) :
    nearest kind (xs ++ inst :: ys) = nearest kind xs := by
  induction xs with
  | nil => exact nearest_cons_own h ys
  | cons x xs ih =>
      cases hx : x.isOwn with
      | true => rw [List.cons_append, nearest_cons_own hx, nearest_cons_own hx]
      | false => rw [List.cons_append, nearest_cons hx, nearest_cons hx, ih]

/-- What is of another kind does not count. -/
theorem nearest_skip (h : inst.isOwn = false) (hkind : kind inst = false) (xs ys : List Inst) :
    nearest kind (xs ++ inst :: ys) = nearest kind (xs ++ ys) := by
  induction xs with
  | nil =>
      rw [List.nil_append, List.nil_append, nearest_cons h, hkind]
      rfl
  | cons x xs ih =>
      cases hx : x.isOwn with
      | true => rw [List.cons_append, List.cons_append, nearest_cons_own hx, nearest_cons_own hx]
      | false => rw [List.cons_append, List.cons_append, nearest_cons hx, nearest_cons hx, ih]

theorem nearest_insertIdx (h : inst.isOwn = false) (hkind : kind inst = false) (xs : List Inst)
    (i : ℕ) : nearest kind (xs.insertIdx i inst) = nearest kind xs := by
  rcases insertIdx_cases xs i inst with hsame | ⟨ys, zs, rfl, hinsert⟩
  · rw [hsame]
  · rw [hinsert, nearest_skip h hkind]

theorem nearest_reverse_insertIdx (h : inst.isOwn = false) (hkind : kind inst = false)
    (xs : List Inst) (i : ℕ) :
    nearest kind (xs.insertIdx i inst).reverse = nearest kind xs.reverse := by
  rcases insertIdx_cases xs i inst with hsame | ⟨ys, zs, rfl, hinsert⟩
  · rw [hsame]
  · rw [hinsert, List.reverse_append, List.reverse_cons, List.append_assoc, List.singleton_append,
      nearest_skip h hkind, List.reverse_append]

/-- Instructions that a pass inserts: they are of its kind, and not of the program itself. -/
def OfKind (kind : Inst → Bool) (insts : List Inst) : Prop :=
  ∀ inst ∈ insts, inst.isOwn = false ∧ kind inst = true

theorem OfKind.nearest_append (h : OfKind kind xs) (ys : List Inst) :
    nearest kind (xs ++ ys) = xs ++ nearest kind ys := by
  induction xs with
  | nil => rfl
  | cons x xs ih =>
      obtain ⟨⟨hown, hkind⟩, hxs⟩ := List.forall_mem_cons.mp h
      rw [List.cons_append, nearest_cons hown, if_pos hkind, ih hxs, List.cons_append]

/-- From the other side they are seen if nothing of the program itself hides them. -/
theorem OfKind.nearest_append_right (h : OfKind kind ys) (xs : List Inst) :
    nearest kind (xs ++ ys) = nearest kind xs ∨
      nearest kind (xs ++ ys) = nearest kind xs ++ ys := by
  induction xs with
  | nil =>
      right
      have hall := h.nearest_append []
      rw [List.append_nil] at hall
      rw [List.nil_append, hall]
      simp [nearest]
  | cons x xs ih =>
      cases hx : x.isOwn with
      | true =>
          left
          rw [List.cons_append, nearest_cons_own hx, nearest_cons_own hx]
      | false =>
          rw [List.cons_append, nearest_cons hx, nearest_cons hx]
          rcases ih with ih | ih <;> rw [ih] <;> split <;> simp

theorem OfKind.reverse (h : OfKind kind xs) : OfKind kind xs.reverse :=
  fun inst hinst => h inst (List.mem_reverse.mp hinst)

theorem OfKind.filter_isOriginal (h : OfKind kind xs) : xs.filter Inst.isOriginal = [] := by
  rw [List.filter_eq_nil_iff]
  intro inst hinst
  simp [Inst.isOriginal, (h inst hinst).1]

theorem nearest_eq_nil (h : ∀ inst ∈ xs, kind inst = false) : nearest kind xs = [] := by
  rw [nearest, List.filter_eq_nil_iff]
  intro inst hinst
  simp [h inst (List.takeWhile_subset _ hinst)]

end

/-! ### A call in a block -/

/-- A call of the program itself stands at such an index of a block, from which on the block has the
given instructions of the program. What is nearest to it on either side is as required. -/
def Amid (kind : Inst → Bool) (own : List Inst) (index : ℕ → Prop) (ahead behind : List Inst → Prop)
    (insts : List Inst) : Prop :=
  ∃ before call after, insts = before ++ call :: after ∧ index before.length ∧
    call.isOriginal = true ∧ (call :: after).filter Inst.isOriginal = own ∧
    ahead (nearest kind before.reverse) ∧ behind (nearest kind after)

theorem Inst.isOriginal_eq_false {inst : Inst} (h : inst.isOwn = false) :
    inst.isOriginal = false := by
  rw [isOriginal, h, Bool.false_and]

theorem append_cons_split {α : Type} {xs ys zs ws : List α} {x z : α}
    (h : xs ++ x :: ys = zs ++ z :: ws) (hlt : xs.length < zs.length) :
    ∃ mid, zs = xs ++ x :: mid ∧ ys = mid ++ z :: ws := by
  rcases List.append_eq_append_iff.mp h with ⟨mid, rfl, hmid⟩ | ⟨mid, rfl, -⟩
  · cases mid with
    | nil => simp at hlt
    | cons y mid =>
        obtain ⟨rfl, rfl⟩ := List.cons.inj hmid
        exact ⟨mid, rfl, rfl⟩
  · rw [List.length_append] at hlt
    omega

namespace Amid

variable {kind : Inst → Bool} {own insts before after lead trail : List Inst} {index : ℕ → Prop}
  {ahead behind : List Inst → Prop} {inst call : Inst}

theorem imp {index' : ℕ → Prop} {ahead' behind' : List Inst → Prop}
    (h : Amid kind own index ahead behind insts) (hindex : ∀ i, index i → index' i)
    (hahead : ∀ xs, ahead xs → ahead' xs) (hbehind : ∀ xs, behind xs → behind' xs) :
    Amid kind own index' ahead' behind' insts := by
  obtain ⟨before, call, after, heq, hi, hcall, hown, ha, hb⟩ := h
  exact ⟨before, call, after, heq, hindex _ hi, hcall, hown, hahead _ ha, hbehind _ hb⟩

/-- The call of the program from which on there are these instructions is the one at that place. -/
theorem at_index {i : ℕ} (h : Amid kind own index ahead behind insts)
    (hcall : insts[i]? = some call) (horiginal : call.isOriginal = true)
    (hown : (insts.drop i).filter Inst.isOriginal = own) :
    ahead (nearest kind (insts.take i).reverse) ∧ behind (nearest kind (insts.drop (i + 1))) := by
  obtain ⟨before, call', after, rfl, -, horiginal', hown', ha, hb⟩ := h
  have hdrop := drop_of_getElem? hcall
  have hsuffix : call :: (before ++ call' :: after).drop (i + 1) <:+ before ++ call' :: after :=
    hdrop ▸ List.drop_suffix ..
  have hsame : call' :: after = call :: (before ++ call' :: after).drop (i + 1) := by
    refine eq_of_suffix_of_countP_eq ⟨before, rfl⟩ hsuffix horiginal' horiginal ?_
    rw [List.countP_eq_length_filter, List.countP_eq_length_filter, hown', ← hdrop, hown]
  have htake := List.take_append_drop i (before ++ call' :: after)
  rw [hdrop, ← hsame] at htake
  rw [List.append_cancel_right htake, ← (List.cons.inj hsame).2]
  exact ⟨ha, hb⟩

/-- Instructions of other kinds may be inserted anywhere. -/
theorem insertIdx (h : Amid kind own (fun _ => True) ahead behind insts) (hown : inst.isOwn = false)
    (hkind : kind inst = false) (i : ℕ) :
    Amid kind own (fun _ => True) ahead behind (insts.insertIdx i inst) := by
  obtain ⟨before, call, after, rfl, -, hcall, hfilter, ha, hb⟩ := h
  rcases Nat.lt_or_ge before.length i with hi | hi
  · obtain ⟨j, rfl⟩ : ∃ j, i = before.length + (j + 1) := ⟨i - before.length - 1, by omega⟩
    rw [insertIdx_append_right, List.insertIdx_succ_cons]
    refine ⟨before, call, after.insertIdx j inst, rfl, trivial, hcall, ?_, ha, ?_⟩
    · rw [← List.insertIdx_succ_cons,
        filter_insertIdx (Inst.isOriginal_eq_false hown), hfilter]
    · rwa [nearest_insertIdx hown hkind]
  · rw [insertIdx_append_left before _ inst hi]
    refine ⟨before.insertIdx i inst, call, after, rfl, trivial, hcall, hfilter, ?_, hb⟩
    rwa [nearest_reverse_insertIdx hown hkind]

/-- A registration stands before all other instructions. -/
theorem register (h : Amid kind own (fun _ => True) ahead behind insts)
    (hinst : inst.isOwn = true) :
    Amid kind own (fun _ => True) ahead behind (inst :: insts) := by
  obtain ⟨before, call, after, rfl, -, hcall, hfilter, ha, hb⟩ := h
  refine ⟨inst :: before, call, after, rfl, trivial, hcall, hfilter, ?_, hb⟩
  rwa [List.reverse_cons, nearest_append_own hinst]

/-! ### One turn -/

/-- The call itself: what is put around it comes nearest to it. -/
theorem enclose (hlead : OfKind kind lead) (htrail : OfKind kind trail)
    (h : Amid kind own (· = before.length) ahead behind (before ++ call :: after)) :
    Amid kind own (before.length ≤ ·) (fun xs => ∃ rest, xs = lead.reverse ++ rest ∧ ahead rest)
      (fun xs => ∃ rest, xs = trail ++ rest ∧ behind rest)
      (before ++ (lead ++ call :: (trail ++ after))) := by
  obtain ⟨before', call', after', heq, hlen, hcall, hfilter, ha, hb⟩ := h
  obtain ⟨rfl, hrest⟩ := List.append_inj heq hlen.symm
  obtain ⟨rfl, rfl⟩ := List.cons.inj hrest
  refine ⟨before ++ lead, call, trail ++ after, by simp, by simp, hcall, ?_, ?_, ?_⟩
  · rw [← hfilter, List.filter_cons_of_pos hcall, List.filter_cons_of_pos hcall,
      List.filter_append, htrail.filter_isOriginal, List.nil_append]
  · exact ⟨_, by rw [List.reverse_append, hlead.reverse.nearest_append], ha⟩
  · exact ⟨_, htrail.nearest_append after, hb⟩

/-- A call before it. -/
theorem enclose_behind (hlead : OfKind kind lead) (htrail : OfKind kind trail)
    (hbehind : ∀ xs, behind xs → behind (xs ++ lead)) (hcall : call.isOwn = true)
    (hindex : ∀ i, index i → i < before.length)
    (h : Amid kind own index ahead behind (before ++ call :: after)) :
    Amid kind own index ahead behind (before ++ (lead ++ call :: (trail ++ after))) := by
  obtain ⟨before', call', after', heq, hi, hcall', hfilter, ha, hb⟩ := h
  obtain ⟨mid, rfl, rfl⟩ := append_cons_split heq.symm (hindex _ hi)
  refine ⟨before', call', mid ++ (lead ++ call :: (trail ++ after)), by simp, hi, hcall', ?_, ha,
    ?_⟩
  · rw [← hfilter]
    simp [hlead.filter_isOriginal, htrail.filter_isOriginal, List.filter_cons]
  · rw [nearest_append_own hcall] at hb
    rw [← List.append_assoc, nearest_append_own hcall]
    rcases hlead.nearest_append_right mid with heq | heq <;> rw [heq]
    · exact hb
    · exact hbehind _ hb

/-- A call behind it. -/
theorem enclose_ahead (lead : List Inst) (htrail : OfKind kind trail)
    (hahead : ∀ xs, ahead xs → ahead (xs ++ trail.reverse)) (hcall : call.isOwn = true)
    (hindex : ∀ i, index i → before.length < i) (hmono : ∀ i j, index i → i ≤ j → index j)
    (h : Amid kind own index ahead behind (before ++ call :: after)) :
    Amid kind own index ahead behind (before ++ (lead ++ call :: (trail ++ after))) := by
  obtain ⟨before', call', after', heq, hi, hcall', hfilter, ha, hb⟩ := h
  obtain ⟨mid, rfl, rfl⟩ := append_cons_split heq (hindex _ hi)
  refine ⟨before ++ (lead ++ call :: (trail ++ mid)), call', after', by simp, hmono _ _ hi ?_,
    hcall', hfilter, ?_, hb⟩
  · simp only [List.length_append, List.length_cons]
    omega
  · have hreverse : ∀ xs ys : List Inst,
        (xs ++ call :: ys).reverse = ys.reverse ++ call :: xs.reverse := by simp
    rw [hreverse, nearest_append_own hcall] at ha
    rw [← List.append_assoc, hreverse, nearest_append_own hcall, List.reverse_append]
    rcases htrail.reverse.nearest_append_right mid.reverse with heq | heq <;> rw [heq]
    · exact ha
    · exact hahead _ ha

end Amid

/-! ### All turns -/

namespace Program

/-- The call of a site stands in its block with the nearest instructions as required. -/
def AmidAt (p : Program) (kind : Inst → Bool) (own : List Inst) (s : Comm.Site) (index : ℕ → Prop)
    (ahead behind : List Inst → Prop) : Prop :=
  ∃ block, p.block? s.function s.block = some block ∧
    Amid kind own index ahead behind block.insts

/-- `q` is `p` with instructions around the one at a site. -/
structure Encloses (p q : Program) (s : Comm.Site) (lead trail : List Inst) : Prop where
  here : ∀ block before call after, p.block? s.function s.block = some block →
    block.insts = before ++ call :: after → before.length = s.inst →
    ∃ block', q.block? s.function s.block = some block' ∧
      block'.insts = before ++ (lead ++ call :: (trail ++ after))
  elsewhere : ∀ function b, ¬(s.function = function ∧ s.block = b) →
    q.block? function b = p.block? function b

variable {kind : Inst → Bool} {p q : Program} {own lead trail : List Inst} {index : ℕ → Prop}
  {ahead behind : List Inst → Prop} {s t : Comm.Site}

/-- The turn of a site keeps what it keeps in the block of the site. -/
theorem Encloses.amidAt (h : p.Encloses q s lead trail) {block : Block} {before after : List Inst}
    {call : Inst} (hb : p.block? s.function s.block = some block)
    (hinsts : block.insts = before ++ call :: after) (hlen : before.length = s.inst)
    (ht : p.AmidAt kind own t index ahead behind)
    (hsame : s.function = t.function → s.block = t.block →
      Amid kind own index ahead behind (before ++ call :: after) →
      Amid kind own index ahead behind (before ++ (lead ++ call :: (trail ++ after)))) :
    q.AmidAt kind own t index ahead behind := by
  obtain ⟨block', hb', hamid⟩ := ht
  by_cases hplace : s.function = t.function ∧ s.block = t.block
  · obtain ⟨hfunction, hblock⟩ := hplace
    rw [← hfunction, ← hblock] at hb'
    obtain rfl := Option.some.inj (hb.symm.trans hb')
    obtain ⟨block', hb', hinsts'⟩ := h.here block before call after hb hinsts hlen
    rw [hfunction, hblock] at hb'
    exact ⟨block', hb', hinsts' ▸ hsame hfunction hblock (hinsts ▸ hamid)⟩
  · exact ⟨block', (h.elsewhere _ _ hplace).trans hb', hamid⟩

end Program

/-- Each step of a pass puts instructions of a kind around the call of a site. -/
structure Enclosing {α : Type} (kind : Inst → Bool) (site : α → Comm.Site) (lead : List Inst)
    (trail : α → ℕ → List Inst) (step : Program → α × ℕ → Outcome Program) : Prop where
  ofKind_lead : OfKind kind lead
  ofKind_trail : ∀ s i, OfKind kind (trail s i)
  encloses : ∀ p q s i, step p (s, i) = .ok q → p.Encloses q (site s) lead (trail s i)

namespace Enclosing

variable {α : Type} {kind : Inst → Bool} {site : α → Comm.Site} {lead : List Inst}
  {trail : α → ℕ → List Inst} {step : Program → α × ℕ → Outcome Program} {p q : Program}
  {own : α → List Inst} {s : α} {i : ℕ}

/-- All of them are put behind the call of some site. -/
def Trails (trail : α → ℕ → List Inst) (insts : List Inst) : Prop :=
  ∀ inst ∈ insts, ∃ s i, inst ∈ trail s i

/-- A site whose turn has not come. -/
def Waits (kind : Inst → Bool) (lead : List Inst) (trail : α → ℕ → List Inst) (own : List Inst)
    (s : Comm.Site) (p : Program) : Prop :=
  p.AmidAt kind own s (· = s.inst) (Trails trail) (· ⊆ lead)

/-- A site whose turn has come: what was put around it is nearest to it, and behind that there may
be what was put around others. -/
def Done (kind : Inst → Bool) (site : α → Comm.Site) (lead : List Inst)
    (trail : α → ℕ → List Inst) (own : List Inst) (s : α) (i : ℕ) (p : Program) : Prop :=
  p.AmidAt kind own (site s) ((site s).inst ≤ ·)
    (fun xs => ∃ rest, xs = lead.reverse ++ rest ∧ Trails trail rest)
    (fun xs => ∃ rest, xs = trail s i ++ rest ∧ rest ⊆ lead)

section

variable {own own' : List Inst} {t : α} {j : ℕ}

/-- The turn of a later site leaves a site waiting. -/
theorem waits_of_later (h : Enclosing kind site lead trail step) (hq : step p (t, j) = .ok q)
    (ht : Waits kind lead trail own' (site t) p)
    (hlater : (site s).function = (site t).function → (site s).block = (site t).block →
      (site s).inst < (site t).inst)
    (hs : Waits kind lead trail own (site s) p) : Waits kind lead trail own (site s) q := by
  obtain ⟨block, hb, before, call, after, hinsts, hlen, hcall, -⟩ := ht
  refine (h.encloses p q t j hq).amidAt hb hinsts hlen hs fun hfunction hblock => ?_
  refine Amid.enclose_behind h.ofKind_lead (h.ofKind_trail t j) ?_
    (Inst.isOwn_of_isOriginal hcall) ?_
  · exact fun xs hxs => List.append_subset.mpr ⟨hxs, List.Subset.refl lead⟩
  · rintro i rfl
    exact hlen ▸ hlater hfunction.symm hblock.symm

/-- The turn of the site itself. -/
theorem done_of_waits (h : Enclosing kind site lead trail step) (hq : step p (s, i) = .ok q)
    (hs : Waits kind lead trail own (site s) p) : Done kind site lead trail own s i q := by
  obtain ⟨block, hb, hamid⟩ := hs
  obtain ⟨before, call, after, hinsts, hlen, -⟩ := id hamid
  obtain ⟨block', hb', hinsts'⟩ :=
    (h.encloses p q s i hq).here block before call after hb hinsts hlen
  refine ⟨block', hb', ?_⟩
  rw [hinsts', ← hlen]
  rw [hinsts, ← hlen] at hamid
  exact hamid.enclose h.ofKind_lead (h.ofKind_trail s i)

/-- The turn of an earlier site leaves what is done. -/
theorem done_of_earlier (h : Enclosing kind site lead trail step) (hq : step p (t, j) = .ok q)
    (ht : Waits kind lead trail own' (site t) p)
    (hearlier : (site t).function = (site s).function → (site t).block = (site s).block →
      (site t).inst < (site s).inst)
    (hs : Done kind site lead trail own s i p) : Done kind site lead trail own s i q := by
  obtain ⟨block, hb, before, call, after, hinsts, hlen, hcall, -⟩ := ht
  refine (h.encloses p q t j hq).amidAt hb hinsts hlen hs fun hfunction hblock => ?_
  refine Amid.enclose_ahead lead (h.ofKind_trail t j) ?_ (Inst.isOwn_of_isOriginal hcall) ?_
    fun k k' hk hle => hk.trans hle
  · rintro xs ⟨rest, rfl, hrest⟩
    refine ⟨rest ++ (trail t j).reverse, List.append_assoc .., fun inst hinst => ?_⟩
    rcases List.mem_append.mp hinst with hinst | hinst
    · exact hrest inst hinst
    · exact ⟨t, j, List.mem_reverse.mp hinst⟩
  · intro k hk
    exact hlen ▸ (hearlier hfunction hblock).trans_le hk

end

/-- From the last site to the first, each has its turn. -/
theorem fold (h : Enclosing kind site lead trail step) {sites : List α}
    (hbefore : sites.Pairwise fun s t => (site s).function = (site t).function →
      (site s).block = (site t).block → (site s).inst < (site t).inst)
    (hp : ∀ s ∈ sites, Waits kind lead trail (own s) (site s) p)
    (hq : sites.zipIdx.reverse.foldlM step p = .ok q) (hs : sites[i]? = some s) :
    Done kind site lead trail (own s) s i q := by
  have hall := foldlM_zipIdx_reverse_induction (fun k p => ∀ (i : ℕ) s, sites[i]? = some s →
    (i < k → Waits kind lead trail (own s) (site s) p) ∧
      (k ≤ i → Done kind site lead trail (own s) s i p)) ?_ ?_ hq
  · exact (hall i s hs).2 (Nat.zero_le i)
  · intro k s hs p q hkept hstep i t ht
    have hwaits := (hkept k s hs).1 (Nat.lt_succ_self k)
    obtain ⟨hk, rfl⟩ := List.getElem?_eq_some_iff.mp hs
    obtain ⟨hi, rfl⟩ := List.getElem?_eq_some_iff.mp ht
    have horder := List.pairwise_iff_getElem.mp hbefore
    refine ⟨fun hlt => ?_, fun hle => ?_⟩
    · exact h.waits_of_later hstep hwaits (horder i k hi hk hlt)
        ((hkept i _ ht).1 (Nat.lt_succ_of_lt hlt))
    · rcases Nat.eq_or_lt_of_le hle with rfl | hlt
      · exact h.done_of_waits hstep hwaits
      · exact h.done_of_earlier hstep hwaits (horder k i hk hi hlt) ((hkept i _ ht).2 hlt)
  · intro i s hs
    exact ⟨fun _ => hp s (List.mem_of_getElem? hs), fun hle =>
      absurd (List.getElem?_eq_some_iff.mp hs).1 (Nat.not_lt.mpr hle)⟩

end Enclosing

end FlowProfile
