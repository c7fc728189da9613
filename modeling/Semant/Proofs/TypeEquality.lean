import Semant.Ty

/-! Types that differ in the handles of their classes only. Erasing the handles turns the equality
of types into identity, so it is an equivalence that no renumbering of classes disturbs. -/

namespace Semant.Ty

mutual

/-- Changes the handles of all classes in a type. -/
def mapHandle (g : Option ClassId → Option ClassId) : Ty → Ty
  | builtin b => builtin b
  | object name args decl => object name (mapHandleAll g args) (g decl)
  | tuple elems => tuple (mapHandleAll g elems)
  | func params ret => func (mapHandleAll g params) (mapHandle g ret)
  | proc params => proc (mapHandleAll g params)
  | dict key value => dict (mapHandle g key) (mapHandle g value)
  | array elem => array (mapHandle g elem)
  | range first last => range (mapHandle g first) (mapHandle g last)
  | maybe inner => maybe (mapHandle g inner)

def mapHandleAll (g : Option ClassId → Option ClassId) : List Ty → List Ty
  | [] => []
  | ty :: tys => mapHandle g ty :: mapHandleAll g tys

end

def erase : Ty → Ty :=
  mapHandle fun _ => none

theorem mapHandleAll_eq_map (g : Option ClassId → Option ClassId) (tys : List Ty) :
    mapHandleAll g tys = tys.map (mapHandle g) := by
  induction tys with
  | nil => rfl
  | cons ty tys ih => simp only [mapHandleAll, List.map_cons, ih]

mutual

theorem mapHandle_mapHandle (g h : Option ClassId → Option ClassId) :
    ∀ ty : Ty, (ty.mapHandle g).mapHandle h = ty.mapHandle (h ∘ g)
  | builtin _ => rfl
  | object _ args _ => by simp only [mapHandle, mapHandleAll_mapHandleAll g h args, Function.comp]
  | tuple elems => by simp only [mapHandle, mapHandleAll_mapHandleAll g h elems]
  | func params ret => by
    simp only [mapHandle, mapHandleAll_mapHandleAll g h params, mapHandle_mapHandle g h ret]
  | proc params => by simp only [mapHandle, mapHandleAll_mapHandleAll g h params]
  | dict key value => by
    simp only [mapHandle, mapHandle_mapHandle g h key, mapHandle_mapHandle g h value]
  | array elem => by simp only [mapHandle, mapHandle_mapHandle g h elem]
  | range first last => by
    simp only [mapHandle, mapHandle_mapHandle g h first, mapHandle_mapHandle g h last]
  | maybe inner => by simp only [mapHandle, mapHandle_mapHandle g h inner]

theorem mapHandleAll_mapHandleAll (g h : Option ClassId → Option ClassId) :
    ∀ tys : List Ty, mapHandleAll h (mapHandleAll g tys) = mapHandleAll (h ∘ g) tys
  | [] => rfl
  | ty :: tys => by
    simp only [mapHandleAll, mapHandle_mapHandle g h ty, mapHandleAll_mapHandleAll g h tys]

end

theorem erase_mapHandle (g : Option ClassId → Option ClassId) (ty : Ty) :
    (ty.mapHandle g).erase = ty.erase :=
  mapHandle_mapHandle g _ ty

mutual

theorem same_iff_erase_eq : ∀ a b : Ty, a.same b = true ↔ a.erase = b.erase
  | builtin a, b => by cases b <;> simp [same, erase, mapHandle]
  | object a as _, b => by
    cases b <;> simp [same, erase, mapHandle, sameAll_iff_erase_eq as]
  | tuple as, b => by cases b <;> simp [same, erase, mapHandle, sameAll_iff_erase_eq as]
  | func as a, b => by
    cases b <;> simp [same, mapHandle, erase, sameAll_iff_erase_eq as, same_iff_erase_eq a]
  | proc as, b => by cases b <;> simp [same, erase, mapHandle, sameAll_iff_erase_eq as]
  | dict a c, b => by
    cases b <;> simp [same, mapHandle, erase, same_iff_erase_eq a, same_iff_erase_eq c]
  | array a, b => by cases b <;> simp [same, mapHandle, erase, same_iff_erase_eq a]
  | range a c, b => by
    cases b <;> simp [same, mapHandle, erase, same_iff_erase_eq a, same_iff_erase_eq c]
  | maybe a, b => by cases b <;> simp [same, mapHandle, erase, same_iff_erase_eq a]

theorem sameAll_iff_erase_eq : ∀ as bs : List Ty, sameAll as bs = true ↔
    mapHandleAll (fun _ => none) as = mapHandleAll (fun _ => none) bs
  | [], bs => by cases bs <;> simp [sameAll, mapHandleAll]
  | a :: as, bs => by
    have ha := same_iff_erase_eq a
    simp only [erase] at ha
    cases bs <;> simp [sameAll, mapHandleAll, ha, sameAll_iff_erase_eq as]

end

theorem beq_iff_erase_eq {a b : Ty} : (a == b) = true ↔ a.erase = b.erase :=
  same_iff_erase_eq a b

instance : EquivBEq Ty where
  rfl := beq_iff_erase_eq.mpr rfl
  symm h := beq_iff_erase_eq.mpr (beq_iff_erase_eq.mp h).symm
  trans h h' := beq_iff_erase_eq.mpr ((beq_iff_erase_eq.mp h).trans (beq_iff_erase_eq.mp h'))

theorem mapHandle_beq (g : Option ClassId → Option ClassId) (ty : Ty) : ty.mapHandle g == ty :=
  beq_iff_erase_eq.mpr (erase_mapHandle g ty)

theorem mapHandle_beq_mapHandle (g : Option ClassId → Option ClassId) (a b : Ty) :
    (a.mapHandle g == b.mapHandle g) = (a == b) := by
  rw [Bool.eq_iff_iff, beq_iff_erase_eq, beq_iff_erase_eq, erase_mapHandle, erase_mapHandle]

/-- A builtin type has no handles, so it equals only itself. -/
theorem beq_builtin {ty : Ty} {b : Builtin} : (ty == builtin b) = true ↔ ty = builtin b := by
  rw [beq_iff_erase_eq]
  cases ty <;> simp [erase, mapHandle]

theorem builtin_beq {ty : Ty} {b : Builtin} : (builtin b == ty) = true ↔ ty = builtin b := by
  rw [BEq.comm, beq_builtin]

end Semant.Ty
