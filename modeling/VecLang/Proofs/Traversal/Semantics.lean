import VecLang.Traversal.ScopeWalk
import VecLang.Proofs.Tree

/-!
# Scope walks on trees

What a scope walk does, said of trees alone: a walk goes through a list of trees from
left to right, binds the names that the nodes declare, and at each node either keeps
the node and goes on below it, or puts other trees in its place and goes on with
those. A rule says which, from the names in scope, the place of the node, and its
tree.

* `opens`, `after`: the names in scope at a node and behind it.
* `Walks`: the walk.
-/

namespace VecLang.ScopeWalk

/-- What the names in scope are bound to. -/
abbrev Names := String → Option Ty

def Names.bind (σ : Names) (name : String) (t : Ty) : Names :=
  fun other => if other = name then some t else σ other

/-- The names in scope at a node, and whether they are so only inside of it: a declaration
binds its name, a function its return type, and a member access the type of its base. -/
def opens (σ : Names) : Tree → Option (Names × Bool)
  | .node l ts =>
    if l.kind = .varDecl then
      match l.name?, ts.head?.bind (·.entry.type?) with
      | some name, some t => some (σ.bind name t, false)
      | _, _ => none
    else if l.kind = .function then
      (ts.head?.bind (·.entry.type?)).map fun t => (σ.bind returnName t, true)
    else if isMemberAccess l then
      match ts.head? with
      | none => some (σ, true)
      | some base =>
        if base.entry.kind = .ident then
          (σ (base.entry.name?.getD "")).map fun t => (σ.bind thisName t, true)
        else some (σ, true)
    else some (σ, false)

mutual

def after (σ : Names) : Tree → Names
  | .node l ts =>
    match opens σ (.node l ts) with
    | some (σ₁, false) => afterAll σ₁ ts
    | _ => σ

def afterAll (σ : Names) : List Tree → Names
  | [] => σ
  | t :: ts => afterAll (after σ t) ts

end

theorem opens_eq_self {σ σ₁ : Names} {l : Label} {ts : List Tree} (hl : l.kind ≠ .varDecl)
    (h : opens σ (.node l ts) = some (σ₁, false)) : σ₁ = σ := by
  unfold opens at h
  simp only [if_neg hl] at h
  split at h
  · obtain ⟨t, -, ht⟩ := Option.map_eq_some_iff.1 h
    cases ht
  · split at h
    · split at h
      · cases h
      · split at h
        · obtain ⟨t, -, ht⟩ := Option.map_eq_some_iff.1 h
          cases ht
        · cases h
    · cases h
      rfl

/-- **The tree of an expression, as far as walks care**: nothing in it declares a name, opens
a function or lists statements. -/
def Inert (t : Tree) : Prop :=
  ∀ l ∈ t.preorder, l.kind ≠ .varDecl ∧ l.kind ≠ .function ∧ l.kind ≠ .block

section Inert

variable {l : Label} {ts : List Tree} {t : Tree}

theorem Inert.node (hl : l.kind ≠ .varDecl ∧ l.kind ≠ .function ∧ l.kind ≠ .block)
    (h : ∀ t ∈ ts, Inert t) : Inert (.node l ts) :=
  Rose.forall_preorder_node hl h

theorem Inert.root (h : Inert (.node l ts)) :
    l.kind ≠ .varDecl ∧ l.kind ≠ .function ∧ l.kind ≠ .block :=
  h l (by simp)

theorem Inert.of_mem (h : Inert (.node l ts)) (ht : t ∈ ts) : Inert t :=
  fun x hx => h x (Rose.mem_preorder_of_mem ht hx)

theorem Inert.of_mem_subtrees {u : Tree} (h : Inert t) (hu : u ∈ t.subtrees) : Inert u :=
  fun x hx => h x (Rose.mem_preorder_of_mem_subtrees hu hx)

theorem afterAll_eq_self_of {σ : Names} (h : ∀ t ∈ ts, ∀ σ, after σ t = σ) :
    afterAll σ ts = σ := by
  induction ts with
  | nil => rfl
  | cons t ts ih =>
    rw [afterAll, h t (.head _)]
    exact ih fun u hu => h u (.tail _ hu)

theorem after_eq_self : Inert t → ∀ σ, after σ t = σ := by
  induction t using Rose.induction with
  | node l ts ih =>
    intro h σ
    rw [after]
    split
    · next σ₁ heq =>
      obtain rfl := opens_eq_self h.root.1 heq
      exact afterAll_eq_self_of fun u hu => ih u hu (h.of_mem hu)
    · rfl

theorem afterAll_eq_self (h : ∀ t ∈ ts, Inert t) (σ : Names) : afterAll σ ts = σ :=
  afterAll_eq_self_of fun t ht => after_eq_self (h t ht)

end Inert

/-- Where a node stands, as far as rules care. -/
inductive Place where
  /-- No node stands above. -/
  | top
  /-- In a block. -/
  | statement
  /-- The first child of an assignment. -/
  | target
  /-- Anywhere else. -/
  | inner
deriving DecidableEq, Repr

def Place.below (k : Kind) (first : Bool) : Place :=
  if k = .block then .statement else if k = .assign ∧ first = true then .target else .inner

theorem below_eq_statement {k : Kind} {first : Bool} :
    Place.below k first = .statement ↔ k = .block := by
  unfold Place.below
  by_cases hk : k = .block
  · simp [hk]
  · rw [if_neg hk]
    split <;> simp [hk]

inductive Action where
  /-- It is kept, and the walk goes on below it. -/
  | keep
  /-- Other trees stand in its place, and the walk goes on with them. -/
  | replace (trees : List Tree)
  /-- The walk fails. -/
  | reject
deriving DecidableEq, Repr

/-- What is done with each node, by the names in scope, its place and its tree. -/
abbrev Rule := Names → Place → Tree → Action

/-- **The walk through a list of trees**, the first at place `p` and the others at place
`q`. `Walks rule σ p q ts us τ`: it leaves `us` where `ts` stood, and starts with the
names `σ` in scope and ends with `τ`. -/
inductive Walks (rule : Rule) : Names → Place → Place → List Tree → List Tree → Names → Prop
  | nil {σ : Names} {p q : Place} : Walks rule σ p q [] [] σ
  | keep {σ σ₁ σ₂ τ : Names} {p q : Place} {l : Label} {ts us rest rest' : List Tree}
      {opened : Bool} :
      opens σ (.node l ts) = some (σ₁, opened) → rule σ₁ p (.node l ts) = .keep →
      Walks rule σ₁ (.below l.kind true) (.below l.kind false) ts us σ₂ →
      Walks rule (if opened then σ else σ₂) q q rest rest' τ →
      Walks rule σ p q (.node l ts :: rest) (.node l us :: rest') τ
  | replace {σ σ₁ σ₂ τ : Names} {p q : Place} {t : Tree} {ts us rest rest' : List Tree}
      {opened : Bool} :
      opens σ t = some (σ₁, opened) → rule σ₁ p t = .replace ts →
      Walks rule (if opened then σ else σ₁) p p ts us σ₂ →
      Walks rule σ₂ q q rest rest' τ → Walks rule σ p q (t :: rest) (us ++ rest') τ

namespace Walks

variable {rule : Rule} {σ σ₁ τ : Names} {p q : Place} {t : Tree} {ts us vs : List Tree}

theorem cons (h : Walks rule σ p p [t] us σ₁) (h' : Walks rule σ₁ q q ts vs τ) :
    Walks rule σ p q (t :: ts) (us ++ vs) τ := by
  cases h with
  | keep ho hr hb hn =>
    cases hn
    exact .keep ho hr hb h'
  | replace ho hr hb hn =>
    cases hn
    rw [List.append_nil]
    exact .replace ho hr hb h'

end Walks

end VecLang.ScopeWalk
