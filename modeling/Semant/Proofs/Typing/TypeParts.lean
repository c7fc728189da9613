import Semant.Proofs.Typing.WellFormedTypes

/-! The parts of a type. Where no range may occur in a well formed type, none does in its parts. -/

namespace Semant

mutual

/-- The type and every type in it. -/
def Ty.parts : Ty → List Ty
  | .builtin b => [.builtin b]
  | .object name args decl => .object name args decl :: Ty.partsOf args
  | .tuple elems => .tuple elems :: Ty.partsOf elems
  | .func params ret => .func params ret :: (Ty.partsOf params ++ ret.parts)
  | .proc params => .proc params :: Ty.partsOf params
  | .dict key value => .dict key value :: (key.parts ++ value.parts)
  | .array elem => .array elem :: elem.parts
  | .range first last => .range first last :: (first.parts ++ last.parts)
  | .maybe inner => .maybe inner :: inner.parts

def Ty.partsOf : List Ty → List Ty
  | [] => []
  | ty :: tys => ty.parts ++ Ty.partsOf tys

end

theorem Ty.mem_partsOf {part : Ty} {tys : List Ty} :
    part ∈ Ty.partsOf tys ↔ ∃ ty ∈ tys, part ∈ ty.parts := by
  induction tys with
  | nil => simp [Ty.partsOf]
  | cons ty tys ih => simp [Ty.partsOf, ih]

def Ty.isRange : Ty → Bool
  | .range .. => true
  | _ => false

/-- No range occurs in the type. -/
def Ty.RangeFree (ty : Ty) : Prop :=
  ∀ part ∈ ty.parts, part.isRange = false

namespace Ty.WellFormed

variable {lookup : String → Option ClassId} {ranges : Bool} {ty : Ty}

theorem widen (h : WellFormed lookup false ty) : WellFormed lookup ranges ty := by
  cases ranges with
  | false => exact h
  | true => exact h.relax

theorem forall_partsOf {tys : List Ty} {P : Ty → Prop} (h : ∀ ty ∈ tys, ∀ part ∈ ty.parts, P part) :
    ∀ part ∈ Ty.partsOf tys, P part := by
  intro part hpart
  obtain ⟨ty, hty, hpart⟩ := Ty.mem_partsOf.mp hpart
  exact h ty hty part hpart

theorem parts (h : WellFormed lookup ranges ty) :
    ∀ part ∈ ty.parts, part.WellFormed lookup ranges := by
  induction h with
  | builtin => exact List.forall_mem_singleton.mpr .builtin
  | object hid hargs ih =>
    refine List.forall_mem_cons.mpr ⟨.object hid hargs, forall_partsOf fun arg harg part hpart => ?_⟩
    exact (ih arg harg part hpart).widen
  | tuple helems ih => exact List.forall_mem_cons.mpr ⟨.tuple helems, forall_partsOf ih⟩
  | func hparams hret ihparams ihret =>
    refine List.forall_mem_cons.mpr ⟨.func hparams hret, List.forall_mem_append.mpr ⟨?_, ?_⟩⟩
    · exact forall_partsOf fun param hparam part hpart => (ihparams param hparam part hpart).widen
    · exact fun part hpart => (ihret part hpart).widen
  | proc hparams ih =>
    refine List.forall_mem_cons.mpr ⟨.proc hparams, forall_partsOf fun param hparam part hpart => ?_⟩
    exact (ih param hparam part hpart).widen
  | dict hkey hvalue ihkey ihvalue =>
    exact List.forall_mem_cons.mpr ⟨.dict hkey hvalue, List.forall_mem_append.mpr ⟨ihkey, ihvalue⟩⟩
  | array helem ih => exact List.forall_mem_cons.mpr ⟨.array helem, ih⟩
  | range hfirst hlast heq ihfirst ihlast =>
    refine List.forall_mem_cons.mpr ⟨.range hfirst hlast heq, ?_⟩
    exact List.forall_mem_append.mpr ⟨ihfirst, ihlast⟩
  | maybe hinner ih =>
    exact List.forall_mem_cons.mpr ⟨.maybe hinner, fun part hpart => (ih part hpart).widen⟩

theorem rangeFree (h : WellFormed lookup false ty) : ty.RangeFree := by
  intro part hpart
  cases h.parts part hpart <;> rfl

end Ty.WellFormed

end Semant
