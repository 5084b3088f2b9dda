import VecLang.Context.Builtin
import VecLang.Proofs.Steps

/-!
# Canonical types

Resolving a type replaces the name inside all its arrays by what the table holds for it. If that
is an array, it is taken as it stands, and the name inside it is not looked at. So resolving a
second time changes nothing exactly if the name that is left stands for itself, and resolving is
idempotent exactly if the arrays in the table have such names inside (`Settled`). The builtin
table is settled. Entering a further type may unsettle a table.

* `resolve_eq_self_iff`: which types are their own resolution.
* `baseName_of_resolve`: the name inside a resolved type.
* `idempotent_iff_settled`: when resolving is idempotent.
* `settled_insert_iff`: **which entries keep a table settled.**
* `resolve_idempotent_iff`: all of this for the tables that a context comes to.
-/

namespace VecLang

namespace TypeTable

variable {types : TypeTable} {name : String} {t u e : Ty}

/-- The name stands for itself: the table knows it and holds no array for it. -/
def Scalar (types : TypeTable) (name : String) : Prop :=
  ∃ e, types.get? name = some e ∧ e.isArray = false

/-- Every array in the table has a name inside that stands for itself. -/
def Settled (types : TypeTable) : Prop :=
  ∀ name e, types.get? name = some e → e.isArray = true → types.Scalar e.baseName

def Idempotent (types : TypeTable) : Prop :=
  ∀ t u, types.resolve t = .ok u → types.resolve u = .ok u

instance (types : TypeTable) (name : String) : Decidable (types.Scalar name) :=
  decidable_of_iff ((types.get? name).any (fun e => !e.isArray) = true) <| by
    unfold Scalar
    rw [Option.any_eq_true]
    simp only [Bool.not_eq_true']

theorem resolve_array {size : Nat} {shownAs : Option String} :
    types.resolve (.array t size shownAs) = .ok u ↔
      ∃ e, types.resolve t = .ok e ∧ Ty.array e size shownAs = u := by
  rw [resolve, Except.bind_eq_ok]
  exact exists_congr fun e => and_congr_right fun _ => ⟨Except.ok.inj, congrArg Except.ok⟩

theorem resolve_unsized {shownAs : Option String} :
    types.resolve (.unsized t shownAs) = .ok u ↔
      ∃ e, types.resolve t = .ok e ∧ Ty.unsized e shownAs = u := by
  rw [resolve, Except.bind_eq_ok]
  exact exists_congr fun e => and_congr_right fun _ => ⟨Except.ok.inj, congrArg Except.ok⟩

theorem resolve_named : types.resolve (.named name) = .ok u ↔
    ∃ e, types.get? name = some e ∧ u = if e.isArray then e else .named name := by
  rw [resolve]
  cases types.get? name with
  | none => simp
  | some e =>
    simp only [Option.some.injEq, Except.ok.injEq, exists_eq_left']
    exact eq_comm

/-- **A type is its own resolution** exactly if the name inside it stands for itself. -/
theorem resolve_eq_self_iff : types.resolve t = .ok t ↔ types.Scalar t.baseName := by
  induction t with
  | named name =>
    rw [resolve_named]
    refine exists_congr fun e => and_congr_right fun _ => ?_
    cases e <;> simp [Ty.isArray]
  | array elem size shownAs ih =>
    rw [resolve_array, Ty.baseName, ← ih]
    simp
  | unsized elem shownAs ih =>
    rw [resolve_unsized, Ty.baseName, ← ih]
    simp

/-- **The name inside a resolved type** is that of the array that the table holds for the name
inside the type, or else that name itself. -/
theorem baseName_of_resolve (h : types.resolve t = .ok u) : ∃ e, types.get? t.baseName = some e ∧
    u.baseName = if e.isArray then e.baseName else t.baseName := by
  induction t generalizing u with
  | named name =>
    obtain ⟨e, he, rfl⟩ := resolve_named.1 h
    refine ⟨e, he, ?_⟩
    split <;> rfl
  | array elem size shownAs ih =>
    obtain ⟨v, hv, rfl⟩ := resolve_array.1 h
    have hinside := ih hv
    exact hinside
  | unsized elem shownAs ih =>
    obtain ⟨v, hv, rfl⟩ := resolve_unsized.1 h
    have hinside := ih hv
    exact hinside

/-- **Resolving is idempotent exactly on a settled table.** -/
theorem idempotent_iff_settled : types.Idempotent ↔ types.Settled := by
  constructor
  · intro h name e he harray
    have honce : types.resolve (.named name) = .ok e := by
      refine resolve_named.2 ⟨e, he, ?_⟩
      rw [if_pos harray]
    exact resolve_eq_self_iff.1 (h _ _ honce)
  · intro h t u htu
    obtain ⟨e, he, hbase⟩ := baseName_of_resolve htu
    rw [resolve_eq_self_iff, hbase]
    cases harray : e.isArray with
    | true => exact h _ e he harray
    | false => exact ⟨e, he, harray⟩

/-- The entry brings nothing into the table that is not resolved: it is no array, or the name
inside it is another one that stands for itself, and no other array has the new name inside. -/
def Keeps (types : TypeTable) (name : String) (t : Ty) : Prop :=
  t.isArray = true → t.baseName ≠ name ∧ types.Scalar t.baseName ∧
    ∀ other e, other ≠ name → types.get? other = some e → e.isArray = true → e.baseName ≠ name

/-- Only the names in the table matter. -/
instance (types : TypeTable) (name : String) (t : Ty) : Decidable (types.Keeps name t) :=
  decidable_of_iff (t.isArray = true → t.baseName ≠ name ∧ types.Scalar t.baseName ∧
      ∀ other ∈ types.keys, other ≠ name →
        (types.get? other).all (fun e => e.isArray = true → e.baseName ≠ name) = true) <| by
    refine imp_congr_right fun _ => and_congr_right fun _ => and_congr_right fun _ => ?_
    constructor
    · intro h other e hother he
      have hlisted : other ∈ types.keys := List.mem_map_of_mem (Table.mem_of_get? he)
      have hall := h other hlisted hother
      rw [he] at hall
      exact of_decide_eq_true hall
    · intro h other _ hother
      cases he : types.get? other with
      | none => rfl
      | some e => exact decide_eq_true (h other e hother he)

theorem scalar_insert_self : Scalar (types.insert name t) name ↔ t.isArray = false := by
  unfold Scalar
  rw [Table.get?_insert, if_pos rfl]
  constructor
  · rintro ⟨e, he, harray⟩
    cases he
    exact harray
  · exact fun harray => ⟨t, rfl, harray⟩

theorem scalar_insert_of_ne {other : String} (h : other ≠ name) :
    Scalar (types.insert name t) other ↔ types.Scalar other := by
  unfold Scalar
  rw [Table.get?_insert, if_neg h]

theorem Scalar.insert {other : String} (h : types.Scalar other)
    (hname : other = name → t.isArray = false) : Scalar (types.insert name t) other := by
  by_cases hother : other = name
  · rw [hother, scalar_insert_self]
    exact hname hother
  · exact (scalar_insert_of_ne hother).2 h

/-- **Which entries keep a table settled.** -/
theorem settled_insert_iff (h : types.Settled) :
    Settled (types.insert name t) ↔ types.Keeps name t := by
  constructor
  · intro hsettled harray
    have hself : (types.insert name t).get? name = some t := by
      rw [Table.get?_insert, if_pos rfl]
    have hbase : Scalar (types.insert name t) t.baseName := hsettled name t hself harray
    -- the name itself stands for an array now, so it is inside of none
    have hnot : ¬ Scalar (types.insert name t) name := by
      rw [scalar_insert_self, harray]
      exact Bool.noConfusion
    have hne : t.baseName ≠ name := by
      intro heq
      rw [heq] at hbase
      exact hnot hbase
    refine ⟨hne, (scalar_insert_of_ne hne).1 hbase, fun other e hother he hearray heq => ?_⟩
    have hstill : (types.insert name t).get? other = some e := by
      rw [Table.get?_insert, if_neg hother]
      exact he
    have hinside := hsettled other e hstill hearray
    rw [heq] at hinside
    exact hnot hinside
  · intro hkeeps other e he hearray
    rw [Table.get?_insert] at he
    split at he
    · cases he
      obtain ⟨hne, hbase, -⟩ := hkeeps hearray
      exact (scalar_insert_of_ne hne).2 hbase
    · next hother =>
      refine (h other e he hearray).insert fun heq => ?_
      -- an array under this name would have been inside of another
      cases harray : t.isArray with
      | false => rfl
      | true => exact absurd heq ((hkeeps harray).2.2 other e hother he hearray)

def KeepsAll (types : TypeTable) : List (String × Ty) → Prop
  | [] => True
  | (name, t) :: rest => types.Keeps name t ∧ KeepsAll (types.insert name t) rest

instance decidableKeepsAll :
    ∀ (types : TypeTable) (entries : List (String × Ty)), Decidable (types.KeepsAll entries)
  | _, [] => isTrue trivial
  | types, (name, t) :: rest =>
    have := decidableKeepsAll (types.insert name t) rest
    inferInstanceAs (Decidable (_ ∧ _))

def enterAll (types : TypeTable) (entries : List (String × Ty)) : TypeTable :=
  entries.foldl (fun types entry => types.insert entry.1 entry.2) types

theorem Settled.enterAll (h : types.Settled) {entries : List (String × Ty)}
    (hkeeps : types.KeepsAll entries) : (types.enterAll entries).Settled := by
  induction entries generalizing types with
  | nil => exact h
  | cons entry rest ih =>
    obtain ⟨hentry, hrest⟩ := hkeeps
    exact ih ((settled_insert_iff h).2 hentry) hrest

end TypeTable

open TypeTable

theorem Builtin.settled_types : Settled Builtin.types := by
  intro name e he harray
  have hall : ∀ entry ∈ Builtin.types.entries, entry.2.isArray = true →
      entry.2.baseName = "float" := by decide
  have hbase : e.baseName = "float" := hall (name, e) (Table.mem_of_get? he) harray
  rw [hbase]
  exact ⟨.named "float", by decide, rfl⟩

namespace Context

def addTypes (ctx : Context) (added : List (String × Ty)) : Context :=
  added.foldl (fun ctx entry => ctx.addType entry.1 entry.2) ctx

theorem types_addTypes (ctx : Context) (added : List (String × Ty)) :
    (ctx.addTypes added).types = ctx.types.enterAll added := by
  induction added generalizing ctx with
  | nil => rfl
  | cons entry rest ih => exact ih (ctx.addType entry.1 entry.2)

end Context

/-- **When resolving types twice is resolving them once**, in a new context to which any types
were added under any names. A resolved type resolves to itself exactly if the name inside it
stands for itself. So resolving is idempotent exactly if the table is settled, as it is before
anything is added and as long as every type that is added keeps it so: one that is no array, or
that has another name inside which stands for itself, under a name that is not inside of the
arrays already there. -/
theorem resolve_idempotent_iff (source filename : String) (added : List (String × Ty)) :
    let types := ((Context.new source filename).addTypes added).types
    (∀ t u, types.resolve t = .ok u → (types.resolve u = .ok u ↔ types.Scalar u.baseName)) ∧
      (types.Idempotent ↔ types.Settled) ∧
      (KeepsAll Builtin.types added → types.Idempotent) := by
  intro types
  refine ⟨fun t u _ => resolve_eq_self_iff, idempotent_iff_settled, fun hkeeps => ?_⟩
  have htypes : types = enterAll Builtin.types added := Context.types_addTypes _ _
  rw [idempotent_iff_settled, htypes]
  exact Builtin.settled_types.enterAll hkeeps

/-- A colour, an array of vectors that are resolved, and the colour's name used again. -/
def palette : List (String × Ty) :=
  [("color", .array Builtin.float 4 (some "color")), ("grid", .array Builtin.vec2 8 none),
   ("color", .named "int")]

theorem resolve_idempotent_palette :
    let types := ((Context.new "" "").addTypes palette).types
    KeepsAll Builtin.types palette ∧
      types.resolve (.unsized (.named "grid") none) =
        .ok (.unsized (.array Builtin.vec2 8 none) none) ∧
      types.resolve (.unsized (.array Builtin.vec2 8 none) none) =
        .ok (.unsized (.array Builtin.vec2 8 none) none) := by
  intro types
  have hkeeps : KeepsAll Builtin.types palette := by decide +kernel
  have honce : types.resolve (.unsized (.named "grid") none) =
      .ok (.unsized (.array Builtin.vec2 8 none) none) := by rfl
  exact ⟨hkeeps, honce, (resolve_idempotent_iff "" "" palette).2.2 hkeeps _ _ honce⟩

/-- **Resolving twice differs from resolving once** where an array was added whose elements are
given by a name: the array is taken from the table with the name still inside, and the name is
resolved only the second time. If the table does not know the name, the second time fails. -/
theorem resolve_twice_grid :
    let types := ((Context.new "" "").addTypes
      [("grid", .array (.named "vec2") 4 none), ("list", .unsized (.named "item") none)]).types
    types.resolve (.named "grid") = .ok (.array (.named "vec2") 4 none) ∧
      types.resolve (.array (.named "vec2") 4 none) = .ok (.array Builtin.vec2 4 none) ∧
      types.resolve (.named "list") = .ok (.unsized (.named "item") none) ∧
      types.resolve (.unsized (.named "item") none) = .error (.unknownType "item") ∧
      ¬ types.Idempotent := by
  intro types
  have honce : types.resolve (.named "grid") = .ok (.array (.named "vec2") 4 none) := by rfl
  have htwice : types.resolve (.array (.named "vec2") 4 none) = .ok (.array Builtin.vec2 4 none) := by
    rfl
  refine ⟨honce, htwice, by rfl, by rfl, fun h => ?_⟩
  have hsame := h _ _ honce
  rw [htwice] at hsame
  cases hsame

end VecLang
