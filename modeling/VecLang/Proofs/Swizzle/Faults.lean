import VecLang.Context.Builtin

/-!
# Faults that the lowering reports

The lowering fails for reasons that the program gives: a name is not bound or its type is
not known, or a swizzle is assigned to inside of an expression.
-/

namespace VecLang

theorem TypeTable.resolve_error {types : TypeTable} {t : Ty} {e : Error} :
    types.resolve t = .error e → ∃ name, e = .unknownType name := by
  induction t with
  | named name =>
    intro h
    unfold resolve at h
    split at h
    · cases h
      exact ⟨name, rfl⟩
    · cases h
  | array elem size shownAs ih =>
    intro h
    unfold resolve at h
    cases helem : types.resolve elem with
    | ok t => rw [helem] at h; cases h
    | error e' =>
      rw [helem] at h
      cases h
      exact ih helem
  | unsized elem shownAs ih =>
    intro h
    unfold resolve at h
    cases helem : types.resolve elem with
    | ok t => rw [helem] at h; cases h
    | error e' =>
      rw [helem] at h
      cases h
      exact ih helem

namespace Swizzle

inductive LoweringFault : Error → Prop
  | unknownType (name : String) : LoweringFault (.unknownType name)
  | undefinedSymbol (name : String) : LoweringFault (.undefinedSymbol name)
  | notStatement (member : String) : LoweringFault (.semantic (.swizzleNotStatement member))

/-- The error is a fault of the lowering, located in the file. -/
def Reported (filename : String) (e : Error) : Prop :=
  ∃ pos fault excerpt, e = .located filename pos fault excerpt ∧ LoweringFault fault

theorem reported_locate (ctx : Context) (pos : Option Pos) {e : Error} (h : LoweringFault e) :
    Reported ctx.filename (ctx.locate pos e) := by
  have hbare : ¬ e.isLocated = true := by
    cases h <;> exact fun h => by cases h
  unfold Context.locate
  rw [if_neg hbare]
  exact ⟨_, e, _, rfl, h⟩

theorem bindingType_error {ctx : Context} {name : String} {e : Error}
    (h : ctx.bindingType name = .error e) : LoweringFault e := by
  unfold Context.bindingType at h
  split at h
  · obtain ⟨unknown, rfl⟩ := TypeTable.resolve_error h
    exact .unknownType unknown
  · cases h
    exact .undefinedSymbol name

end Swizzle

end VecLang
