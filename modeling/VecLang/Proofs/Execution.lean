import VecLang.Proofs.Tree
import VecLang.Ty

/-!
# Executing expressions on a store

A store says what each variable holds: a scalar, or an array of values. Expressions are
evaluated from left to right and may assign to variables on the way; what is assigned to is
a variable, or an element or a member of what one holds. What the scalars are and what the
operators, members and functions do to them is left open (`Machine`), so what is shown here
holds for every meaning that a program may have.

* `eval`, `assign`: the meaning of expressions and of targets.
* `Independent.steady`: the value of an expression that assigns nothing, calls no function of
  the program and reads no variable `name` does not depend on what `name` holds.
-/

namespace VecLang

variable {name : String}

/-- What a variable holds: a scalar, or an array. -/
inductive Datum (α : Type) where
  | scalar (x : α)
  | array (elems : List (Datum α))

def Datum.elems? {α : Type} : Datum α → Option (List (Datum α))
  | .scalar _ => none
  | .array elems => some elems

/-- What each variable holds. -/
abbrev Store (α : Type) := String → Option (Datum α)

def Store.set {α : Type} (s : Store α) (name : String) (x : Datum α) : Store α :=
  fun other => if other = name then some x else s other

theorem Store.set_eq_self {s : Store α} {x : Datum α} (h : s name = some x) : s.set name x = s := by
  funext other
  unfold Store.set
  split
  · next heq => rw [heq, h]
  · rfl

theorem Store.set_set (s : Store α) (name : String) (x y : Datum α) :
    (s.set name x).set name y = s.set name y := by
  funext other
  unfold Store.set
  split <;> rfl

def Store.elems? {α : Type} (s : Store α) (name : String) : Option (List (Datum α)) :=
  (s name).bind Datum.elems?

theorem Store.elems?_eq_some {s : Store α} {elems : List (Datum α)} :
    s.elems? name = some elems ↔ s name = some (.array elems) := by
  unfold Store.elems?
  cases s name with
  | none => simp
  | some x => cases x <;> simp [Datum.elems?]

theorem Store.elems?_set (s : Store α) (name : String) (elems : List (Datum α)) :
    (s.set name (.array elems)).elems? name = some elems :=
  Store.elems?_eq_some.2 (if_pos rfl)

/-- A computation that reads and writes a store and may have no result. -/
abbrev Exec (α β : Type) := StateT (Store α) Option β

namespace Exec

variable {α β γ : Type} (s : Store α)

@[simp] theorem bind_apply (x : Exec α β) (f : β → Exec α γ) :
    (x >>= f) s = (x s).bind fun r => f r.1 r.2 := rfl

@[simp] theorem lift_apply (o : Option β) : (liftM o : Exec α β) s = o.map (·, s) := by
  cases o <;> rfl

@[simp] theorem pure_apply (a : β) : (pure a : Exec α β) s = some (a, s) := rfl

@[simp] theorem failure_apply : (failure : Exec α β) s = none := rfl

@[simp] theorem get_apply : (get : Exec α (Store α)) s = some (s, s) := rfl

@[simp] theorem modify_apply (f : Store α → Store α) :
    (modify f : Exec α PUnit) s = some (⟨⟩, f s) := rfl

end Exec

/-- What constants, operators, members and functions mean. -/
structure Machine (α : Type) where
  constant : Value → Datum α
  truth : Datum α → Option Bool
  /-- The place that a value names as an index. -/
  position : Datum α → Option Nat
  unary : Operator → Datum α → Option (Datum α)
  binary : Operator → Datum α → Datum α → Option (Datum α)
  member : String → Datum α → Option (Datum α)
  setMember : String → Datum α → Datum α → Option (Datum α)
  construct : Ty → List (Datum α) → Option (Datum α)
  builtin : String → List (Datum α) → Option (Datum α)
  /-- The functions of the program, which may do anything to the store. -/
  user : String → Option (List (Datum α) → Exec α (Datum α))
  position_int : ∀ n : Nat, position (constant (.int n)) = some n
  /-- A vector is the array of its components. -/
  construct_vector : ∀ (t : Ty) (xs : List (Datum α)),
    t.name = "vec" ++ toString xs.length → construct t xs = some (.array xs)

namespace Machine

variable {α : Type} (M : Machine α)

/-- Calls a function by its name. -/
def apply (name : String) (xs : List (Datum α)) : Exec α (Datum α) :=
  match M.user name with
  | some f => f xs
  | none => M.builtin name xs

mutual

def eval : Tree → Exec α (Datum α)
  | .node l ts =>
    match l.kind, ts with
    | .intConst, _ | .floatConst, _ | .boolConst, _ => l.value.map M.constant
    | .ident, _ => do
      let name ← l.name?
      let s ← get
      s name
    | .unary, [t] => do
      let x ← eval t
      let op ← l.op
      M.unary op x
    | .binary, [t, u] => do
      let x ← eval t
      match l.op with
      | some .and => if ← M.truth x then eval u else return x
      | some .or => if ← M.truth x then return x else eval u
      | op? => do
        let y ← eval u
        let op ← op?
        M.binary op x y
    | .ternary, [c, t, u] => do
      let x ← eval c
      if ← M.truth x then eval t else eval u
    | .index, [t, u] => do
      let x ← eval t
      let i ← eval u
      let elems ← x.elems?
      let k ← M.position i
      elems[k]?
    | .member, [t, m] => do
      let x ← eval t
      let name ← m.entry.name?
      M.member name x
    | .call, callee :: .node _ args :: _ => do
      let xs ← evalAll args
      match callee.entry.type? with
      | some t => M.construct t xs
      | none => do
        let name ← callee.entry.name?
        M.apply name xs
    | .assign, [t, u] => do
      let x ← eval u
      assign t x
      return x
    | _, _ => failure

def evalAll : List Tree → Exec α (List (Datum α))
  | [] => pure []
  | t :: ts => do
    let x ← eval t
    let xs ← evalAll ts
    return x :: xs

/-- Assigns to a variable, or to a part of what one holds. -/
def assign : Tree → Datum α → Exec α Unit
  | .node l ts, x =>
    match l.kind, ts with
    | .ident, _ => do
      let name ← l.name?
      modify (·.set name x)
    | .index, [t, u] => do
      let base ← eval t
      let i ← eval u
      let elems ← base.elems?
      let k ← M.position i
      if k < elems.length then assign t (.array (elems.set k x)) else failure
    | .member, [t, m] => do
      let base ← eval t
      let name ← m.entry.name?
      let base ← M.setMember name base x
      assign t base
    | _, _ => failure

end

/-- **The store after statements** that are expressions, if all of them can be executed. -/
def after (ts : List Tree) (s : Store α) : Option (Store α) := (M.evalAll ts s).map Prod.snd

theorem after_nil (s : Store α) : M.after [] s = some s := by
  unfold after evalAll
  rfl

theorem after_cons (t : Tree) (ts : List Tree) (s : Store α) :
    M.after (t :: ts) s = (M.eval t s).bind fun r => M.after ts r.2 := by
  unfold after
  rw [evalAll, Exec.bind_apply]
  cases M.eval t s with
  | none => rfl
  | some r =>
    simp only [Option.bind_some, Exec.bind_apply]
    cases M.evalAll ts r.2 <;> rfl

end Machine

namespace Tree

mutual

/-- The variables that occur in an expression. The name of a member and that of a function
are none. -/
def varNames : Tree → List String
  | .node l ts =>
    match l.kind, ts with
    | .ident, _ => l.name?.toList
    | .member, base :: _ => varNames base
    | .call, _ :: .node _ args :: _ => varNamesAll args
    | _, ts => varNamesAll ts

def varNamesAll : List Tree → List String
  | [] => []
  | t :: ts => varNames t ++ varNamesAll ts

end

theorem mem_varNamesAll {name : String} {ts : List Tree} :
    name ∈ varNamesAll ts ↔ ∃ t ∈ ts, name ∈ varNames t := by
  induction ts with
  | nil => simp [varNamesAll]
  | cons t ts ih => simp [varNamesAll, ih]

end Tree

variable {α β γ : Type}

/-- The stores agree on all variables but one. -/
def AgreeOff (name : String) (s s' : Store α) : Prop := ∀ other, other ≠ name → s' other = s other

theorem AgreeOff.set {s s' : Store α} (h : AgreeOff name s s') (x : Datum α) :
    AgreeOff name s (s'.set name x) := by
  intro other hne
  unfold Store.set
  rw [if_neg hne]
  exact h other hne

/-- **The computation depends on no more than what the variables other than `name` hold**, and it
changes nothing. -/
def Steady (name : String) (s : Store α) (x : Exec α β) : Prop :=
  ∃ r : Option β, ∀ s', AgreeOff name s s' → x s' = r.map fun a => (a, s')

section Steady

variable {name : String} {s : Store α} {x : Exec α β} {f : β → Exec α γ}

theorem steady_lift (o : Option β) : Steady name s (liftM o : Exec α β) :=
  ⟨o, fun s' _ => Exec.lift_apply s' o⟩

theorem steady_pure (a : β) : Steady name s (pure a : Exec α β) := ⟨some a, fun _ _ => rfl⟩

theorem steady_failure : Steady name s (failure : Exec α β) := ⟨none, fun _ _ => rfl⟩

theorem Steady.bind (hx : Steady name s x) (hf : ∀ a, Steady name s (f a)) :
    Steady name s (x >>= f) := by
  obtain ⟨r, hr⟩ := hx
  cases r with
  | none =>
    refine ⟨none, fun s' hs => ?_⟩
    rw [Exec.bind_apply, hr s' hs]
    rfl
  | some a =>
    obtain ⟨r', hr'⟩ := hf a
    refine ⟨r', fun s' hs => ?_⟩
    rw [Exec.bind_apply, hr s' hs]
    exact hr' s' hs

theorem steady_lift_bind {o : Option β} (h : ∀ a, o = some a → Steady name s (f a)) :
    Steady name s (liftM o >>= f) := by
  cases o with
  | none => exact ⟨none, fun _ _ => rfl⟩
  | some a => exact h a rfl

theorem steady_read {other : String} (h : other ≠ name) :
    Steady name s (do let s ← get; s other : Exec α (Datum α)) := by
  refine ⟨s other, fun s' hs => ?_⟩
  rw [← hs other h]
  simp

end Steady

/-- **The expression assigns nothing, calls no function of the program and does not read the
variable.** -/
structure Independent (M : Machine α) (name : String) (e : Tree) : Prop where
  noAssignment : ∀ u ∈ e.subtrees, u.entry.kind ≠ .assign
  noUserCall : ∀ u ∈ e.subtrees, u.entry.kind = .call → ∀ callee ∈ u.children.head?,
    ∀ f ∈ callee.entry.name?, M.user f = none
  noOccurrence : name ∉ e.varNames

namespace Independent

variable {M : Machine α} {name : String} {l : Label} {t : Tree} {ts : List Tree} {s : Store α}

theorem of_mem_subtrees (h : Independent M name t) {u : Tree} (hu : u ∈ t.subtrees)
    (hsub : name ∈ u.varNames → name ∈ t.varNames) : Independent M name u where
  noAssignment w hw := h.noAssignment w (Rose.mem_subtrees_trans hu hw)
  noUserCall w hw := h.noUserCall w (Rose.mem_subtrees_trans hu hw)
  noOccurrence hmem := h.noOccurrence (hsub hmem)

theorem operand (h : Independent M name (.node l ts)) (ht : t ∈ ts)
    (hl : l.kind ≠ .ident ∧ l.kind ≠ .member ∧ l.kind ≠ .call) : Independent M name t := by
  refine h.of_mem_subtrees (Rose.mem_subtrees_of_mem ht (Rose.self_mem_subtrees t)) fun hmem => ?_
  unfold Tree.varNames
  split
  · next hk => exact absurd hk hl.1
  · next hk => exact absurd hk hl.2.1
  · next hk => exact absurd hk hl.2.2
  · exact Tree.mem_varNamesAll.2 ⟨t, ht, hmem⟩

theorem base {m : Tree} (h : Independent M name (.node l [t, m])) (hl : l.kind = .member) :
    Independent M name t := by
  refine h.of_mem_subtrees (Rose.mem_subtrees_of_mem (.head _) (Rose.self_mem_subtrees t))
    fun hmem => ?_
  unfold Tree.varNames
  simp only [hl]
  exact hmem

theorem argument {callee : Tree} {la : Label} {args more : List Tree}
    (h : Independent M name (.node l (callee :: .node la args :: more))) (hl : l.kind = .call)
    (ht : t ∈ args) : Independent M name t := by
  have hlist : Rose.node la args ∈ callee :: .node la args :: more :=
    .tail _ (.head _)
  refine h.of_mem_subtrees (Rose.mem_subtrees_of_mem hlist
    (Rose.mem_subtrees_of_mem ht (Rose.self_mem_subtrees t))) fun hmem => ?_
  unfold Tree.varNames
  simp only [hl]
  exact Tree.mem_varNamesAll.2 ⟨t, ht, hmem⟩

theorem evalAll_steady (h : ∀ t ∈ ts, Steady name s (M.eval t)) : Steady name s (M.evalAll ts) := by
  induction ts with
  | nil =>
    unfold Machine.evalAll
    exact steady_pure _
  | cons t ts ih =>
    unfold Machine.evalAll
    refine (h t (.head _)).bind fun x => ?_
    exact (ih fun u hu => h u (.tail _ hu)).bind fun xs => steady_pure _

theorem apply_steady {f : String} (h : M.user f = none) (xs : List (Datum α)) :
    Steady name s (M.apply f xs) := by
  unfold Machine.apply
  rw [h]
  exact steady_lift _

/-- The arguments of a call stand two levels down, so this is shown of the children as well. -/
theorem steady_and_children (M : Machine α) (name : String) (s : Store α) (t : Tree) :
    (Independent M name t → Steady name s (M.eval t)) ∧
      ∀ u ∈ t.children, Independent M name u → Steady name s (M.eval u) := by
  induction t using Rose.induction with
  | node l ts ih =>
    refine ⟨fun h => ?_, fun u hu => (ih u hu).1⟩
    have hoperand : l.kind ≠ .ident ∧ l.kind ≠ .member ∧ l.kind ≠ .call → ∀ t ∈ ts,
        Steady name s (M.eval t) := fun hl t ht => (ih t ht).1 (h.operand ht hl)
    unfold Machine.eval
    split
    · exact steady_lift _
    · exact steady_lift _
    · exact steady_lift _
    · next hk =>
      -- a variable, which is another one
      refine steady_lift_bind fun other hother => steady_read fun heq => h.noOccurrence ?_
      unfold Tree.varNames
      simp only [hk, hother, heq]
      exact .head _
    · next t hk =>
      refine (hoperand (by simp [hk]) t (by simp)).bind fun x => ?_
      exact (steady_lift _).bind fun op => steady_lift _
    · next t u hk =>
      have hside := hoperand (by simp [hk])
      refine (hside t (by simp)).bind fun x => ?_
      have hright := hside u (by simp)
      split
      · refine (steady_lift _).bind fun b => ?_
        split
        · exact hright
        · exact steady_pure _
      · refine (steady_lift _).bind fun b => ?_
        split
        · exact steady_pure _
        · exact hright
      · exact hright.bind fun y => (steady_lift _).bind fun op => steady_lift _
    · next c t u hk =>
      have hpart := hoperand (by simp [hk])
      refine (hpart c (by simp)).bind fun x => (steady_lift _).bind fun b => ?_
      split
      · exact hpart t (by simp)
      · exact hpart u (by simp)
    · next t u hk =>
      have hpart := hoperand (by simp [hk])
      refine (hpart t (by simp)).bind fun x => (hpart u (by simp)).bind fun i => ?_
      exact (steady_lift _).bind fun elems => (steady_lift _).bind fun k => steady_lift _
    · next t m hk =>
      refine ((ih t (by simp)).1 (h.base hk)).bind fun x => ?_
      exact (steady_lift _).bind fun name => steady_lift _
    · next callee la args more hk =>
      have hargs : ∀ t ∈ args, Steady name s (M.eval t) := fun t ht =>
        (ih (.node la args) (by simp)).2 t ht (h.argument hk ht)
      refine (evalAll_steady hargs).bind fun xs => ?_
      split
      · exact steady_lift _
      · refine steady_lift_bind fun f hf => apply_steady ?_ xs
        exact h.noUserCall _ (Rose.self_mem_subtrees _) hk callee rfl f hf
    · next hk => exact absurd hk (h.noAssignment _ (Rose.self_mem_subtrees _))
    · exact steady_failure

/-- **The value of an independent expression does not depend on what the variable holds**, and
evaluating it changes nothing. -/
theorem steady (h : Independent M name t) (s : Store α) : Steady name s (M.eval t) :=
  (steady_and_children M name s t).1 h

end Independent

end VecLang
