import Semant.Proofs.Analysis.Extension
import Semant.Proofs.Analysis.Reordering
import Semant.Proofs.Typing.WellFormedTypes

/-! The types of an accepted program are well formed: those in its signatures are written, and the
return types that bodies tell follow from them. -/

namespace Semant

variable {σ : Scope}

theorem Node.holds_of_isBlank {Q : Ty → Prop} {n : Node} (h : n.isBlank = true) : n.Holds Q := by
  obtain ⟨htype, _⟩ := Bool.and_eq_true_iff.mp h
  intro slot hslot ty hty
  rw [Option.mem_def.mp hslot, Option.all_some, Slot.isResolved, Option.mem_def.mp hty] at htype
  cases htype

theorem Program.holds_of_isFresh {Q : Ty → Prop} {p : Program} (h : p.isFresh = true) :
    p.outline.All (Node.Holds Q) :=
  (Program.isFresh_iff.mp h).imp fun _ => Node.holds_of_isBlank

theorem Program.classScope_within (p : Program) : p.classScope.Within p.classScope.Admits :=
  ⟨fun _ _ => TypeExpr.admits, List.forall_mem_nil _⟩

theorem Program.collect_admits {p : Program} {fs : List FuncDef} (hfresh : p.isFresh = true)
    (h : p.collect = (fs, .ok σ)) : σ.AdmitsReturns ∧ ∀ f ∈ fs, f.Admitted σ := by
  obtain ⟨_, _, _, hclasses⟩ := Program.collect_eq_ok.mp h
  have hadmits : σ.Admits = p.classScope.Admits := by
    funext ty
    rw [Scope.Admits, Program.lookupClass?_of_classes hclasses]
  obtain ⟨hgains, hscope⟩ := p.collect_gains Ty.WellFormed.closed p.classScope_within
  rw [h] at hgains hscope
  have hfs := FuncDef.Gains.forall_holds hgains fun f hf =>
    Program.all_func (Program.holds_of_isFresh hfresh) hf
  refine ⟨fun g hg => ?_, fun f hf => ⟨?_, ?_⟩⟩ <;> rw [hadmits]
  · exact (hscope σ rfl).symbols g hg
  · exact (FuncDef.holds (hfs f hf)).params
  · exact (FuncDef.holds (hfs f hf)).ret

/-- Every return type that the analysis of the functions leaves is well formed. -/
theorem Progress.ofFuncs_admits {fs : List FuncDef} (hsig : σ.Signs fs) (hσ : σ.AdmitsReturns)
    (hfs : ∀ f ∈ fs, f.Admitted σ) (h : (Progress.ofFuncs fs σ).error = none) :
    ∀ f' ∈ (Progress.ofFuncs fs σ).funcs, ∀ ty ∈ f'.ret.get?, σ.Admits ty := by
  obtain ⟨hist, _⟩ := Progress.ofFuncs_history hsig h
  have hframes := Progress.ofFuncs_frames hsig
  intro f' hf'
  obtain ⟨id, hid⟩ := List.mem_iff_getElem?.mp hf'
  have hlt : id < fs.length := hframes.funcs.length_eq ▸ (List.getElem?_eq_some_iff.mp hid).1
  have hf : fs[id]? = some fs[id] := List.getElem?_eq_getElem hlt
  have hadmitted := hfs _ (List.mem_of_getElem? hf)
  cases htemplate : fs[id].isTemplate with
  | true =>
    rw [(hframes.kept hf hid).template htemplate]
    exact hadmitted.ret
  | false =>
    obtain ⟨f₁, hf₁, hres⟩ := Progress.ofFuncs_resolves hsig h hf htemplate
    cases hid.symm.trans hf₁
    rw [hist.scope] at hres
    exact hres.admits (hist.completed.admits hsig hσ hfs) ⟨hadmitted.params, hadmitted.ret⟩

end Semant
