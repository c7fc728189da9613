import Mathlib.Data.List.Perm.Subperm
import Semant.Proofs.Typing.Frame

/-! How analyses on demand are nested. Only a function whose return type its body tells is asked
for, and none of them while it is active, so they run out: no more than one function besides them is
ever active, and a budget that covers them is never used up. -/

namespace Semant

open Resolve

/-- The functions that were entered and not left, the innermost first. -/
def nested : List Visit → List DefId
  | [] => []
  | .entered id :: past => id :: nested past
  | .left id :: past => (nested past).erase id

theorem entered_of_nested {id : DefId} {journal : List Visit} (h : id ∈ nested journal) :
    .entered id ∈ journal := by
  induction journal with
  | nil => cases h
  | cons visit past ih =>
    cases visit with
    | entered k =>
      rcases List.mem_cons.mp h with rfl | h
      · exact List.mem_cons_self
      · exact List.mem_cons_of_mem _ (ih h)
    | left k => exact List.mem_cons_of_mem _ (ih (List.mem_of_mem_erase h))

def Visit.entered? : Visit → Option DefId
  | entered id => some id
  | left _ => none

/-- The functions that a call may have to analyze. -/
def Scope.onDemand (σ : Scope) : List DefId :=
  (σ.functions.filter FuncSymbol.isInferred).map FuncSymbol.definition

/-- What holds of the turns taken so far, in an analysis that began in the scope `σ`. -/
structure Progress.Nests (σ : Scope) (s : Progress) : Prop where
  scope : σ.Grows s.scope
  active : nested s.journal = s.active
  onDemand : s.active.dropLast ⊆ σ.onDemand
  once : (s.journal.filterMap Visit.entered?).Nodup
  spent : ∀ id ∈ s.journal.filterMap Visit.entered?, id ∈ s.active ∨ id ∈ s.done ∨ s.error ≠ none
  done : ∀ id ∈ s.done, .entered id ∈ s.journal
  past : ∀ past, past <:+ s.journal →
    (nested past).Nodup ∧ (nested past).length ≤ σ.onDemand.length + 1

theorem FuncSymbol.Grows.isInferred {f g : FuncSymbol} (h : f.Grows g) (hg : g.isInferred) :
    f.isInferred := by
  simp only [FuncSymbol.isInferred, h.kind, h.isTemplate, Bool.and_eq_true, Bool.not_eq_true']
    at hg ⊢
  refine ⟨⟨hg.1.1, ?_⟩, hg.2⟩
  cases hf : f.ret with
  | unresolved => rfl
  | resolved ty =>
    rw [h.ret_resolved hf] at hg
    exact hg.1.2

theorem Scope.Grows.onDemand {σ τ : Scope} (h : σ.Grows τ) {g : FuncSymbol}
    (hg : g ∈ τ.functions) (hinferred : g.isInferred) : g.definition ∈ σ.onDemand := by
  obtain ⟨id, hid⟩ := List.mem_iff_getElem?.mp hg
  obtain ⟨f, hf, hgrows⟩ := h.earlier_function hid
  rw [hgrows.definition]
  have hmem := List.mem_filter.mpr ⟨List.mem_of_getElem? hf, hgrows.isInferred hinferred⟩
  exact List.mem_map_of_mem hmem

namespace Progress.Nests

variable {σ : Scope} {s t : Progress}

theorem start (fs : List FuncDef) (σ : Scope) : Nests σ { funcs := fs, scope := σ } where
  scope := .refl σ
  active := rfl
  onDemand := List.nil_subset _
  once := List.nodup_nil
  spent _ h := by cases h
  done _ h := by cases h
  past past h := by
    rw [List.suffix_nil.mp h]
    exact ⟨List.nodup_nil, Nat.zero_le _⟩

theorem congr (h : Nests σ s) (hscope : t.scope = s.scope) (hactive : t.active = s.active)
    (hjournal : t.journal = s.journal) (hdone : t.done = s.done)
    (herror : s.error ≠ none → t.error ≠ none) : Nests σ t where
  scope := hscope ▸ h.scope
  active := by rw [hjournal, hactive, h.active]
  onDemand := hactive ▸ h.onDemand
  once := hjournal ▸ h.once
  spent id hid := by
    rw [hactive, hdone]
    rw [hjournal] at hid
    exact (h.spent id hid).imp_right (Or.imp_right herror)
  done := by rw [hdone, hjournal]; exact h.done
  past := hjournal ▸ h.past

theorem evolving : Evolves fun s t : Progress => Nests σ s → Nests σ t where
  refl _ := id
  trans h h' := h' ∘ h
  fail _ _ h := h.congr rfl rfl rfl rfl fun _ => Option.some_ne_none _
  env _ _ h := h.congr rfl rfl rfl rfl id
  returns _ _ h := h.congr rfl rfl rfl rfl id

theorem evolvingWithin (active : List DefId) : Evolves fun s t : Progress =>
    Nests σ s ∧ s.active = active → Nests σ t ∧ t.active = active where
  refl _ := id
  trans h h' := h' ∘ h
  fail error hs h := ⟨evolving.fail error hs h.1, h.2⟩
  env s env h := ⟨evolving.env s env h.1, h.2⟩
  returns s returns h := ⟨evolving.returns s returns h.1, h.2⟩

theorem nodup (h : Nests σ s) : s.active.Nodup :=
  h.active ▸ (h.past _ (List.suffix_refl _)).1

/-- All active functions but the outermost were asked for, so there are not many. -/
theorem enter (h : Nests σ s) {id : DefId} (hs : s.error = none) (hdone : id ∉ s.done)
    (hidle : id ∉ s.active) (hid : s.active = [] ∨ id ∈ σ.onDemand) (env : Env)
    (returns : Returns) : Nests σ (s.enter id env returns) := by
  have hnodup : (id :: s.active).Nodup := List.nodup_cons.mpr ⟨hidle, h.nodup⟩
  have hasked : (id :: s.active).dropLast ⊆ σ.onDemand := by
    by_cases hactive : s.active = []
    · rw [hactive]
      exact List.nil_subset _
    · rw [List.dropLast_cons_of_ne_nil hactive]
      exact List.cons_subset.mpr ⟨hid.resolve_left hactive, h.onDemand⟩
  have hfresh : id ∉ s.journal.filterMap Visit.entered? := fun hmem =>
    (h.spent id hmem).elim hidle fun hspent => hspent.elim hdone fun herror => herror hs
  refine ⟨h.scope, congrArg (List.cons id) h.active, hasked, ?_, ?_, ?_, ?_⟩
  · exact List.nodup_cons.mpr ⟨hfresh, h.once⟩
  · intro k hk
    rcases List.mem_cons.mp hk with rfl | hk
    · exact .inl List.mem_cons_self
    · exact (h.spent k hk).imp_left (List.mem_cons_of_mem _)
  · exact fun k hk => List.mem_cons_of_mem _ (h.done k hk)
  · intro past hpast
    rcases List.suffix_cons_iff.mp hpast with rfl | hpast
    · have hlen := (List.subperm_of_subset (hnodup.sublist (List.dropLast_sublist _)) hasked).length_le
      rw [List.length_dropLast] at hlen
      rw [nested, h.active]
      exact ⟨hnodup, by omega⟩
    · exact h.past past hpast

/-- A function that is left is done, or there is an error. -/
theorem leave {id : DefId} {outer : Progress} (h : Nests σ t) (hactive : t.active = id :: outer.active)
    {u : Progress} (hscope : t.scope.Grows u.scope) (hu : u.active = outer.active)
    (hjournal : u.journal = .left id :: t.journal) (hdone : t.done ⊆ u.done)
    (hnew : u.done ⊆ id :: t.done)
    (herror : t.error ≠ none → u.error ≠ none) (hid : id ∈ u.done ∨ u.error ≠ none) :
    Nests σ u := by
  have hnested : nested u.journal = outer.active := by
    rw [hjournal, nested, h.active, hactive]
    exact List.erase_cons_head id outer.active
  have hentered : u.journal.filterMap Visit.entered? = t.journal.filterMap Visit.entered? := by
    rw [hjournal]
    rfl
  refine ⟨h.scope.trans hscope, by rw [hnested, hu], ?_, hentered ▸ h.once, ?_, ?_, ?_⟩
  · have hsub := h.onDemand
    rw [hactive] at hsub
    rw [hu]
    by_cases hempty : outer.active = []
    · rw [hempty]
      exact List.nil_subset _
    · rw [List.dropLast_cons_of_ne_nil hempty] at hsub
      exact (List.cons_subset.mp hsub).2
  · intro k hk
    rw [hentered] at hk
    rw [hu]
    rcases h.spent k hk with hk | hk | hk
    · rw [hactive] at hk
      rcases List.mem_cons.mp hk with rfl | hk
      · exact .inr hid
      · exact .inl hk
    · exact .inr (.inl (hdone hk))
    · exact .inr (.inr (herror hk))
  · intro k hk
    rw [hjournal]
    refine List.mem_cons_of_mem _ ?_
    rcases List.mem_cons.mp (hnew hk) with rfl | hk
    · exact entered_of_nested (by rw [h.active, hactive]; exact List.mem_cons_self)
    · exact h.done k hk
  · intro past hpast
    rw [hjournal] at hpast
    rcases List.suffix_cons_iff.mp hpast with rfl | hpast
    · obtain ⟨hnodup, hlen⟩ := h.past _ (List.suffix_refl _)
      exact ⟨hnodup.erase id, Nat.le_trans List.length_erase_le hlen⟩
    · exact h.past past hpast

end Progress.Nests

theorem analyzeFunc_nests {σ : Scope} (budget : Nat) (id : DefId) (s : Progress)
    (hid : s.active = [] ∨ id ∈ σ.onDemand) (h : s.Nests σ) :
    (analyzeFunc budget id s).2.Nests σ := by
  induction budget generalizing id s with
  | zero => exact h
  | succ budget ih =>
    rcases analyzeFunc_cases budget id s with
      ⟨_, hrun⟩ | ⟨_, hs, _, _, _, hrun⟩ | ⟨_, _, hs, _, _, _, _, hrun⟩ |
        ⟨f, env, r, hs, hdone, _, hidle, _, hr, hrun⟩
    · rw [hrun]
      exact h
    · rw [hrun]
      exact Progress.Nests.evolving.fail _ hs h
    · rw [hrun]
      exact Progress.Nests.evolving.fail _ hs h
    · have hclosed : ClosedStmt (analyzeFunc budget) _ := Progress.Nests.evolving.closed
        fun t g _ hg hinferred ht => ih g.definition t (.inr (ht.scope.onDemand hg hinferred)) ht
      let entered := s.enter id env f.returns
      have hbody := Progress.Nests.evolving.resolveBody hclosed f entered
        (h.enter hs hdone hidle hid env f.returns)
      have hkeeps := Progress.keeping.resolveBody
        (Progress.keeping.closed fun t g _ _ _ => analyzeFunc_keeps budget g.definition t) f entered
      rw [hrun]
      subst hr
      have hframe := f.analyzed_frame (analyzeFunc budget) id env s
      refine hbody.leave hkeeps.active ?_ ?_ ?_ ?_ ?_ ?_ ?_
      · exact FuncDef.settleReturn_scope _ id _ (Progress.leave _ id s)
      · refine (congrArg Progress.active hframe).trans ?_
        change List.erase (f.resolveBody _ entered).2.active id = s.active
        rw [hkeeps.active]
        exact List.erase_cons_head id s.active
      · exact congrArg Progress.journal hframe
      · intro k hk
        rw [Progress.store, congrArg Progress.done hframe]
        dsimp only
        split
        · exact hk
        · exact List.mem_cons_of_mem _ hk
      · rw [Progress.store, congrArg Progress.done hframe]
        dsimp only
        split
        · exact List.subset_cons_self _ _
        · exact List.Subset.refl _
      · intro ht hu
        exact ht (FuncDef.settleReturn_grows _ _ _ _ hu).1
      · rw [Progress.store]
        dsimp only
        split
        · exact .inr (Option.isSome_iff_ne_none.mp ‹_›)
        · exact .inl List.mem_cons_self

/-- A call sees of a demand only what it answers for an inferred symbol. -/
theorem bindCall_congr {d d' : Demand} {s : Progress}
    (h : ∀ f ∈ s.scope.functions, s.error = none → f.isInferred →
      d f.definition s = d' f.definition s)
    (name : String) (args : Except Error (List Ty)) (callee : Slot SymbolId) (ty : Slot Ty)
    (loc : Location) : bindCall d name args callee ty loc s = bindCall d' name args callee ty loc s := by
  change (attempt (fun s => s.scope.bound name args callee loc) >>= _) s =
    (attempt (fun s => s.scope.bound name args callee loc) >>= _) s
  rw [bind_apply, bind_apply]
  rcases attempt_cases (fun s => s.scope.bound name args callee loc) s with
    ⟨a, hs, ha, hrun⟩ | ⟨_, hrun⟩ | ⟨_, _, _, hrun⟩
  · rw [hrun]
    obtain ⟨tys, o, _, ho, _, rfl⟩ := Scope.bound_eq_ok.mp ha
    have hmem := List.mem_of_getElem? (Scope.bestOverload?_mem ho).1
    dsimp only
    cases hinferred : o.symbol.isInferred with
    | false => rfl
    | true =>
      have hanswer := h o.symbol hmem hs hinferred
      rw [if_pos rfl, if_pos rfl]
      simp only [bind_apply, hanswer]
  · rw [hrun]
  · rw [hrun]

section

variable {d d' : Demand} {G : Progress → Prop}

/-- Demands that answer alike wherever a body asks give the same result for every body. -/
theorem Evolves.agree (h : Evolves fun s t => G s → G t)
    (hd : ∀ s f, s.error = none → f ∈ s.scope.functions → f.isInferred → G s →
      d f.definition s = d' f.definition s ∧ G (d f.definition s).2) :
    RelatedStmt d d' fun _ x y => ∀ s, G s → x s = y s ∧ G (x s).2 := by
  have hclosed := h.closed fun s f hs hf hinferred hG => (hd s f hs hf hinferred hG).2
  exact {
    pure := fun _ _ hG => ⟨rfl, hG⟩
    bind := fun hx hf s hG => by
      obtain ⟨heq, hG₁⟩ := hx s hG
      obtain ⟨heq', hG₂⟩ := hf _ _ hG₁
      rw [bind_apply, bind_apply, ← heq]
      exact ⟨heq', hG₂⟩
    get := fun _ hG => ⟨rfl, hG⟩
    attempt := fun step s hG => ⟨rfl, hclosed.attempt step s hG⟩
    call := fun name args callee ty loc s hG =>
      ⟨bindCall_congr (fun f hf hs hinferred => (hd s f hs hf hinferred hG).1) name args callee ty loc,
        hclosed.call name args callee ty loc s hG⟩
    define := fun name binding s hG => ⟨rfl, hclosed.define name binding s hG⟩
    inScope := fun hx s hG => by
      obtain ⟨heq, hG₁⟩ := hx _ (h.env s s.env.push hG)
      rw [inScope_apply, inScope_apply, ← heq]
      exact ⟨rfl, h.env _ _ hG₁⟩
    checkReturn := fun values loc s hG => ⟨rfl, hclosed.checkReturn values loc s hG⟩ }

theorem Evolves.resolveBody_agree (h : Evolves fun s t => G s → G t)
    (hd : ∀ s f, s.error = none → f ∈ s.scope.functions → f.isInferred → G s →
      d f.definition s = d' f.definition s ∧ G (d f.definition s).2)
    (f : FuncDef) {s : Progress} (hs : G s) : f.resolveBody d s = f.resolveBody d' s := by
  obtain ⟨hbody, hG⟩ := (h.agree hd).block f.body s hs
  obtain ⟨hensure, _⟩ := (h.agree hd).otherwise f.ensure _ (h.returns _ none hG)
  rw [FuncDef.resolveBody_apply, FuncDef.resolveBody_apply, ← hbody]
  dsimp only
  rw [hensure]

end

/-- One turn depends on the budget only through the body. -/
theorem analyzeFunc_congr {n m : Nat} {id : DefId} {s : Progress}
    (h : ∀ (f : FuncDef) (env : Env), s.error = none → id ∉ s.done → id ∉ s.active →
      f.resolveBody (analyzeFunc n) (s.enter id env f.returns) =
        f.resolveBody (analyzeFunc m) (s.enter id env f.returns)) :
    analyzeFunc (n + 1) id s = analyzeFunc (m + 1) id s := by
  rw [analyzeFunc, analyzeFunc, bind_apply, bind_apply, get_apply]
  dsimp only
  by_cases hskip : (s.failed || s.done.contains id) = true
  · rw [if_pos hskip, if_pos hskip]
  rw [if_neg hskip, if_neg hskip]
  cases hf : s.funcs[id]? with
  | none => rfl
  | some f =>
    dsimp only
    by_cases hactive : s.active.contains id = true
    · rw [if_pos hactive, if_pos hactive]
    rw [if_neg hactive, if_neg hactive, bind_apply, bind_apply]
    rw [Bool.or_eq_true, List.contains_iff_mem, not_or] at hskip
    rw [List.contains_iff_mem] at hactive
    have hs : s.error = none := by simpa [Progress.failed] using hskip.1
    rcases attempt_cases (fun _ => f.entry) s with ⟨env, _, _, hrun⟩ | ⟨_, hrun⟩ | ⟨_, _, _, hrun⟩
    · rw [hrun]
      have hbody := h f env hs hskip.2 hactive
      exact congrArg (fun r : (FuncDef × Option Ty) × Progress =>
        let settled := r.1.1.settleReturn id r.1.2 (r.2.leave id s)
        ((), settled.2.store id settled.1)) hbody
    · rw [hrun]
    · rw [hrun]

/-- How many of the functions that may be asked for are not active. -/
def Scope.waiting (σ : Scope) (active : List DefId) : Nat :=
  (σ.onDemand.filter (· ∉ active)).length

theorem Scope.waiting_cons_lt {σ : Scope} {id : DefId} {active : List DefId}
    (hid : id ∈ σ.onDemand) (hidle : id ∉ active) :
    σ.waiting (id :: active) < σ.waiting active := by
  have hfilter : σ.onDemand.filter (· ∉ id :: active) =
      (σ.onDemand.filter (· ∉ active)).filter (· ≠ id) := by
    rw [List.filter_filter]
    refine List.filter_congr fun k _ => ?_
    simp [not_or]
  unfold waiting
  rw [hfilter, List.length_filter_lt_length_iff_exists]
  exact ⟨id, List.mem_filter.mpr ⟨hid, by simpa using hidle⟩, by simp⟩

/-- A budget that covers the functions that wait, and one refusal, is as good as any other. -/
theorem analyzeFunc_agree {σ : Scope} {n m : Nat} {id : DefId} {s : Progress}
    (hn : σ.waiting (id :: s.active) + 2 ≤ n) (hm : σ.waiting (id :: s.active) + 2 ≤ m)
    (hid : s.active = [] ∨ id ∈ σ.onDemand) (h : s.Nests σ) :
    analyzeFunc n id s = analyzeFunc m id s := by
  induction n generalizing m id s with
  | zero => omega
  | succ n ih =>
    obtain _ | m := m
    · omega
    refine analyzeFunc_congr fun f env hs hdone hidle => ?_
    refine (Progress.Nests.evolvingWithin (id :: s.active)).resolveBody_agree
      (fun t g ht hg hinferred hG => ?_) f ⟨h.enter hs hdone hidle hid env f.returns, rfl⟩
    obtain ⟨hnests, hactive⟩ := hG
    have hasked : g.definition ∈ σ.onDemand := hnests.scope.onDemand hg hinferred
    refine ⟨?_, analyzeFunc_nests n _ t (.inr hasked) hnests,
      (analyzeFunc_keeps n _ t).active.trans hactive⟩
    rw [← hactive] at hn hm
    by_cases hmem : g.definition ∈ t.active
    · -- a function that is active is refused on any budget
      obtain ⟨n, rfl⟩ : ∃ k, n = k + 1 := ⟨n - 1, by omega⟩
      obtain ⟨m, rfl⟩ : ∃ k, m = k + 1 := ⟨m - 1, by omega⟩
      exact analyzeFunc_congr fun _ _ _ _ hnew => (hnew hmem).elim
    · have hlt := Scope.waiting_cons_lt hasked hmem
      exact ih (by omega) (by omega) (.inr hasked) hnests

section

variable {σ : Scope}

theorem Progress.visit_nests (budget : Nat) {s : Progress} (h : s.Nests σ) (hidle : s.active = [])
    (p : FuncDef × DefId) : (s.visit budget p).Nests σ ∧ (s.visit budget p).active = [] := by
  unfold Progress.visit
  split
  · exact ⟨h, hidle⟩
  · exact ⟨analyzeFunc_nests budget p.2 s (.inl hidle) h,
      (analyzeFunc_keeps budget p.2 s).active.trans hidle⟩

theorem foldl_visit_nests {budget : Nat} {todo : List (FuncDef × DefId)} {s : Progress}
    (h : s.Nests σ) (hidle : s.active = []) :
    (todo.foldl (Progress.visit budget) s).Nests σ ∧
      (todo.foldl (Progress.visit budget) s).active = [] := by
  induction todo generalizing s with
  | nil => exact ⟨h, hidle⟩
  | cons p todo ih =>
    obtain ⟨h₁, hidle₁⟩ := Progress.visit_nests budget h hidle p
    exact ih h₁ hidle₁

theorem foldl_visit_agree {n m : Nat} {todo : List (FuncDef × DefId)}
    (hn : ∀ p ∈ todo, σ.waiting [p.2] + 2 ≤ n) (hm : ∀ p ∈ todo, σ.waiting [p.2] + 2 ≤ m)
    {s : Progress} (h : s.Nests σ) (hidle : s.active = []) :
    todo.foldl (Progress.visit n) s = todo.foldl (Progress.visit m) s := by
  induction todo generalizing s with
  | nil => rfl
  | cons p todo ih =>
    obtain ⟨hp, hn⟩ := List.forall_mem_cons.mp hn
    obtain ⟨hp', hm⟩ := List.forall_mem_cons.mp hm
    have hturn : s.visit n p = s.visit m p := by
      unfold Progress.visit
      rw [← hidle] at hp hp'
      rw [analyzeFunc_agree hp hp' (.inl hidle) h]
    obtain ⟨h₁, hidle₁⟩ := Progress.visit_nests m h hidle p
    rw [List.foldl_cons, List.foldl_cons, hturn]
    exact ih hn hm h₁ hidle₁

theorem Progress.ofFuncs_nests (fs : List FuncDef) (σ : Scope) :
    (Progress.ofFuncs fs σ).Nests σ ∧ (Progress.ofFuncs fs σ).active = [] := by
  rw [Progress.ofFuncs_eq]
  exact foldl_visit_nests (.start fs σ) rfl

theorem Scope.Signs.definitions {fs : List FuncDef} (h : σ.Signs fs) :
    σ.functions.map FuncSymbol.definition = List.range fs.length := by
  refine List.ext_getElem (by simp [h.length]) fun id hid _ => ?_
  rw [List.length_map] at hid
  obtain ⟨_, _, hsigns⟩ := h.exists_function (List.getElem?_eq_getElem hid)
  rw [List.getElem_map, List.getElem_range]
  exact hsigns.definition

/-- Besides a function there are enough others in a program for all that may be asked for. -/
theorem Scope.Signs.waiting_lt {fs : List FuncDef} (h : σ.Signs fs) {id : DefId}
    (hid : id < fs.length) : σ.waiting [id] < fs.length := by
  have hsub : (σ.onDemand.filter (· ∉ [id])).Sublist (List.range fs.length) := by
    rw [← h.definitions]
    exact List.filter_sublist.trans (List.filter_sublist.map _)
  have hnew : id ∉ σ.onDemand.filter (· ∉ [id]) := by simp
  have hnodup := List.nodup_cons.mpr ⟨hnew, hsub.nodup List.nodup_range⟩
  have hrange := List.cons_subset.mpr ⟨List.mem_range.mpr hid, hsub.subset⟩
  have hlen := (List.subperm_of_subset hnodup hrange).length_le
  rwa [List.length_range, List.length_cons] at hlen

/-- The analysis of all functions is the same on every budget that covers those that may be asked
for, the one at whose turn they are, and one refusal. -/
theorem Progress.ofFuncs_budget {fs : List FuncDef} (hsig : σ.Signs fs) {budget : Nat}
    (h : σ.onDemand.length + 2 ≤ budget) :
    fs.zipIdx.foldl (Progress.visit budget) { funcs := fs, scope := σ } = Progress.ofFuncs fs σ := by
  rw [Progress.ofFuncs_eq]
  refine foldl_visit_agree (fun p _ => ?_) (fun p hp => ?_) (.start fs σ) rfl
  · have hle : σ.waiting [p.2] ≤ σ.onDemand.length := List.length_filter_le _ _
    omega
  · have hlt := hsig.waiting_lt (List.getElem?_eq_some_iff.mp (List.mem_zipIdx_iff_getElem?.mp hp)).1
    omega

end

end Semant
