import VecLang.Proofs.Arena.Rewrite
import VecLang.Proofs.Context.Scopes
import VecLang.Proofs.Steps
import VecLang.Proofs.Traversal.Sites

/-!
# Scope walks of arenas refine those of trees

A hook refines a rule if it does to each subtree in place what the rule does to its
tree. Then the whole walk does so too (`walkScopes_refines`), although it works on an
arena that changes under it, with a set of handled nodes and with lists of children
that it read before.

The invariant is about the subtree that is about to be entered: none of its nodes was
handled before, and every handled node is allocated, so that new nodes are not handled
either (`Ready`). What comes out is `Walked`. What replaces a node has new nodes, so a walk
that leaves the arena as large as it was has kept every site (`Stays`).

A walk fails for one of three reasons: its hook fails, a name is not bound, or the tree
is none that a program has. The last is excluded by an invariant of the trees (`Sound`),
which also bounds how deep the walk goes: a measure falls from a node to its children
and to what replaces it, so that the limit of the walk is never met. While a walk fails,
the scopes that it has opened are closed on the way out. That can not fail in turn, since
the scopes around are still there (`Context.Encloses`).

* `walkScopes_refines`: **a walk does in place what its rule does to trees.**
* `walkScopes_fails`: how a walk of a sound tree fails.
* `walkScopes_eq_self_iff`: when a walk leaves everything as it is.
-/

namespace VecLang

open List

variable {a b : Arena} {id : Nat} {ss pre post : List (Rose Nat)} {xs : List Site} {opened : Bool}

/-! ### Scopes -/

def Context.names (ctx : Context) : ScopeWalk.Names :=
  fun name => (ctx.scopes.get? name).map Binding.type

/-- `ctx'` has more names bound in the innermost scope of `ctx`. -/
def Context.Extends (ctx ctx' : Context) : Prop :=
  ∃ scopes : ScopeStack, ctx' = { ctx with scopes } ∧ scopes.saved = ctx.scopes.saved

/-- The scopes around those of `ctx` are still there in `ctx'`, below others maybe, and it is
about the same file. -/
def Context.Encloses (ctx ctx' : Context) : Prop :=
  ctx'.filename = ctx.filename ∧ ctx.scopes.saved <:+ ctx'.scopes.saved

namespace Context

variable {ctx ctx' ctx'' : Context}

theorem names_bind (ctx : Context) (name : String) (b : Binding) :
    (ctx.bind name b).names = ctx.names.bind name b.type := by
  funext other
  unfold names bind ScopeWalk.Names.bind
  rw [ScopeStack.get?_bind]
  split <;> rfl

theorem Extends.refl (ctx : Context) : ctx.Extends ctx := ⟨ctx.scopes, rfl, rfl⟩

theorem Extends.trans (h : ctx.Extends ctx') (h' : ctx'.Extends ctx'') : ctx.Extends ctx'' := by
  obtain ⟨s, rfl, hs⟩ := h
  obtain ⟨s', rfl, hs'⟩ := h'
  exact ⟨s', rfl, hs'.trans hs⟩

theorem Extends.bind (ctx : Context) (name : String) (b : Binding) : ctx.Extends (ctx.bind name b) :=
  ⟨ctx.scopes.bind name b, rfl, rfl⟩

theorem Extends.types (h : ctx.Extends ctx') : ctx'.types = ctx.types := by
  obtain ⟨s, rfl, -⟩ := h
  rfl

theorem popScope_of_saved {s : ScopeStack} (h : ctx.scopes.saved = s.push.saved) :
    ctx.popScope = .ok { ctx with scopes := s } := by
  have hpop : ctx.scopes.pop = .ok s := by
    unfold ScopeStack.pop
    rw [h]
    rfl
  unfold Context.popScope
  rw [hpop]
  rfl

theorem Extends.popScope (h : ctx.pushScope.Extends ctx') : ctx'.popScope = .ok ctx := by
  obtain ⟨s, rfl, hs⟩ := h
  exact popScope_of_saved hs

theorem Encloses.trans (h : ctx.Encloses ctx') (h' : ctx'.Encloses ctx'') : ctx.Encloses ctx'' :=
  ⟨h'.1.trans h.1, h.2.trans h'.2⟩

theorem Extends.encloses (h : ctx.Extends ctx') : ctx.Encloses ctx' := by
  obtain ⟨s, rfl, hs⟩ := h
  exact ⟨rfl, hs ▸ suffix_refl _⟩

theorem encloses_pushScope (ctx : Context) : ctx.Encloses ctx.pushScope :=
  ⟨rfl, suffix_cons _ _⟩

end Context

namespace ScopeWalk

open Traversal Arena

variable {ω : Type} {w w' w₁ : World (Memory ω)} {F : String → Error → Prop} {ctx : Context}
  {s : Rose Nat} {I : Place → Tree → Prop} {limit : Nat}

def inContext (w : World (Memory ω)) (ctx : Context) : World (Memory ω) :=
  { w with memory := { w.memory with context := ctx } }

@[simp] theorem setContext_eq_ok {u : Unit} : setContext ctx w = .ok u w' ↔ inContext w ctx = w' :=
  Steps.modify_eq_ok

theorem child?_zero (hs : a.Spans (.node id ss)) : a.child? id 0 = ss.head?.map Rose.entry := by
  unfold child?
  rw [hs.children_eq]
  cases ss <;> rfl

theorem firstType_eq (hs : a.Spans (.node id ss)) :
    (a.child? id 0).bind a.type? = (ss.map (Rose.map a.label)).head?.bind (·.entry.type?) := by
  rw [child?_zero hs]
  cases ss with
  | nil => rfl
  | cons s ss =>
    obtain ⟨x, ts⟩ := s
    simp [Rose.entry, type?]

/-! ### The scopes of a node -/

def stub (a : Arena) (node : NodeId) : Tree :=
  .node (a.label node) ((a.children node).map fun child => .node (a.label child) [])

theorem opens_stub (hs : a.Spans s) (σ : Names) :
    opens σ (s.map a.label) = opens σ (stub a s.entry) := by
  obtain ⟨id, ss⟩ := s
  rw [Rose.map_node, stub, Rose.entry, hs.children_eq]
  unfold opens
  cases ss with
  | nil => rfl
  | cons s ss =>
    simp only [map_cons, head?_cons, Option.bind_some, Rose.entry_map]
    rfl

/-- **Setting up the scopes of a node** binds the names that its tree opens. It fails if the tree
opens none: a declaration or a function is none, or the base of a member access is not bound. -/
theorem openScope_ends (node : NodeId) (w : World (Memory ω)) :
    Steps.Ends (openScope node) w
      (fun e w' => opens w.memory.context.names (stub w.arena node) = none ∧
        ((w.arena.kind node = .varDecl ∨ w.arena.kind node = .function) ∧ w' = w ∨
          w' = inContext w w.memory.context.pushScope ∧ ∃ pos name,
            e = w.memory.context.pushScope.locate (some pos) (.undefinedSymbol name)))
      fun opened w' => ∃ ctx, w' = inContext w ctx ∧
        opens w.memory.context.names (stub w.arena node) = some (ctx.names, opened) ∧
        (if opened then w.memory.context.pushScope else w.memory.context).Extends ctx := by
  have hfirst : ((w.arena.children node).map fun c => (Rose.node (w.arena.label c) [] : Tree)).head?.bind
      (·.entry.type?) = (w.arena.child? node 0).bind w.arena.type? := by
    unfold child?
    cases w.arena.children node <;> rfl
  unfold openScope stub opens
  refine .get_bind ?_
  simp only [hfirst]
  by_cases hdecl : (w.arena.label node).kind = .varDecl
  · simp only [if_pos hdecl]
    refine .bind ?_ fun _ _ h => h
    unfold bindDeclaration
    refine .get_bind ?_
    have hname : w.arena.name? node = (w.arena.label node).name? := rfl
    simp only [hname]
    cases (w.arena.label node).name? with
    | none => exact ⟨rfl, .inl ⟨.inl hdecl, rfl⟩⟩
    | some name =>
      cases (w.arena.child? node 0).bind w.arena.type? with
      | none => exact ⟨rfl, .inl ⟨.inl hdecl, rfl⟩⟩
      | some t => exact ⟨_, rfl, by rw [Context.names_bind], .bind _ _ _⟩
  simp only [if_neg hdecl]
  by_cases hfun : (w.arena.label node).kind = .function
  · simp only [if_pos hfun]
    refine .bind ?_ fun _ _ h => h
    unfold openFunction
    refine .get_bind ?_
    cases (w.arena.child? node 0).bind w.arena.type? with
    | none => exact ⟨rfl, .inl ⟨.inr hfun, rfl⟩⟩
    | some t => exact ⟨_, rfl, by rw [Context.bindReturn, Context.names_bind]; rfl, .bind _ _ _⟩
  simp only [if_neg hfun]
  by_cases hmem : isMemberAccess (w.arena.label node) = true
  · simp only [if_pos hmem]
    refine .bind ?_ fun _ _ h => h
    unfold openMember child?
    refine .get_bind (.bind (P := fun _ w' => w' = inContext w w.memory.context.pushScope) rfl ?_)
    rintro _ _ rfl
    cases w.arena.children node with
    | nil => exact ⟨_, rfl, rfl, .refl _⟩
    | cons base rest =>
      simp only [getElem?_cons_zero, map_cons, head?_cons]
      by_cases hk : w.arena.kind base = .ident
      · have hk' : (Rose.node (w.arena.label base) [] : Tree).entry.kind = .ident := hk
        have hnames : w.memory.context.names ((Rose.node (w.arena.label base) [] : Tree).entry.name?.getD "") =
            (w.memory.context.pushScope.scopes.get? ((w.arena.name? base).getD "")).map Binding.type := rfl
        rw [if_pos hk]
        simp only [if_pos hk', hnames]
        cases w.memory.context.pushScope.scopes.get? ((w.arena.name? base).getD "") with
        | none => exact ⟨rfl, .inr ⟨rfl, _, _, rfl⟩⟩
        | some b => exact ⟨_, rfl, by rw [Context.names_bind]; rfl, .bind _ _ _⟩
      · have hk' : ¬ (Rose.node (w.arena.label base) [] : Tree).entry.kind = .ident := hk
        rw [if_neg hk]
        simp only [if_neg hk']
        exact ⟨_, rfl, rfl, .refl _⟩
  · simp only [if_neg hmem]
    exact ⟨w.memory.context, rfl, rfl, .refl _⟩

/-! ### Places -/

def placeOf (a : Arena) (node : Nat) : Place :=
  match a.parent? node with
  | none => .top
  | some p => .below (a.kind p) (a.child? p 0 == some node)

theorem placeOf_child (hw : a.WellFormed) (hs : a.Spans (.node id (pre ++ s :: post))) :
    placeOf a s.entry = .below (a.kind id) pre.isEmpty := by
  have hmem : s ∈ pre ++ s :: post := mem_append_right _ (.head _)
  unfold placeOf
  rw [hs.parent_of_mem hw hmem]
  simp only
  congr 1
  rw [child?_zero hs]
  cases pre with
  | nil => simp
  | cons u pre =>
    have hnd := hw.nodup id
    rw [hs.children_eq] at hnd
    have hne := entry_ne_of_nodup hnd (.inl (.head _))
    simpa using hne

/-- What stands in the place of a subtree stands at its place, if it is one tree or in a
block. -/
theorem placeOf_rewrites {t : Rose Nat} (h : Rewrites a s b ss)
    (hsingle : ss.length = 1 ∨ placeOf a s.entry = .statement) (ht : t ∈ ss) :
    placeOf b t.entry = placeOf a s.entry := by
  unfold placeOf at hsingle ⊢
  rw [h.place t ht]
  cases hp : a.parent? s.entry with
  | none => rfl
  | some p =>
    simp only [hp] at hsingle ⊢
    have hlt := h.before.parent_lt hp
    have hout : p ∉ s.preorder := fun hm =>
      h.before.not_under_of_parent hp ((h.focus.mem_preorder h.before).1 hm)
    have hkind : b.kind p = a.kind p := by
      unfold kind
      rw [h.label p hlt hout]
    rw [hkind]
    rcases hsingle with hone | hst
    · obtain ⟨u, rfl⟩ := length_eq_one_iff.1 hone
      obtain rfl := mem_singleton.1 ht
      congr 1
      -- the first child is swapped with the subtree, or is another one and stays
      unfold child?
      rw [h.children p hlt hout, map_singleton, ← swapIn_eq_splice]
      have hlisted : ∀ c ∈ a.children p, c ≠ s.entry → c ≠ t.entry := by
        rintro c hc hne rfl
        rcases h.ids t ht t.entry t.entry_mem_preorder with hm | hge
        · exact h.focus.not_listed h.before hout hm hne hc
        · exact Nat.not_le_of_lt (h.before.child_lt hc) hge
      cases hc : a.children p with
      | nil => rfl
      | cons c cs =>
        rw [hc] at hlisted
        by_cases he : c = s.entry
        · simp [swapIn, he]
        · have := hlisted c (.head _) he
          simp [swapIn, he, this]
    · have hblock := below_eq_statement.1 hst
      rw [hblock]
      rfl

/-! ### Hooks and rules -/

/-- **A hook has done to the subtree `s` in place what the action says**, and left the
scopes alone. What replaces the subtree has new nodes. -/
inductive Does (v : View ω) (s : Rose Nat) : Flow → View ω → Action → Prop
  | keep {v' : View ω} : v'.context = v.context → v'.arena = v.arena → Does v s .descend v' .keep
  | replace {v' : View ω} {ss : List (Rose Nat)} {ts : List Tree} : v'.context = v.context →
      Rewrites v.arena s v'.arena ss → v.arena.size < v'.arena.size →
      ss.length = 1 ∨ placeOf v.arena s.entry = .statement →
      ss.map (Rose.map v'.arena.label) = ts → Does v s (.replaced (ss.map Rose.entry)) v' (.replace ts)

/-- **The hook does to each subtree what the rule does to its tree.** It does not fail where the
rule keeps a node, and where `I` holds it fails only with errors that the file can give. -/
def Refines (F : String → Error → Prop) (I : Place → Tree → Prop) (hook : Hook ω)
    (types : TypeTable) (rule : Rule) : Prop :=
  ∀ ⦃v : View ω⦄ ⦃s : Rose Nat⦄, v.arena.WellFormed → v.arena.Spans s → v.context.types = types →
    Steps.Ends (hook s.entry) v
      (fun e v' => rule v.context.names (placeOf v.arena s.entry) (s.map v.arena.label) ≠ .keep ∧
        (I (placeOf v.arena s.entry) (s.map v.arena.label) →
          F v.context.filename e ∧ v'.context = v.context))
      fun flow v' =>
        Does v s flow v' (rule v.context.names (placeOf v.arena s.entry) (s.map v.arena.label))

theorem Refines.mono {J : Place → Tree → Prop} (h : Refines F I hook types rule)
    (hI : ∀ p t, J p t → I p t) : Refines F J hook types rule :=
  fun _ _ hw hs htypes => (h hw hs htypes).mono
    (fun _ _ he => ⟨he.1, fun hJ => he.2 (hI _ _ hJ)⟩) fun _ _ h => h

/-- The subtrees are about to be entered: no node of them was handled, and every handled
node is allocated. -/
structure Ready (types : TypeTable) (w : World (Memory ω)) (ss : List (Rose Nat)) : Prop where
  unhandled : ∀ s ∈ ss, ∀ x ∈ s.preorder, x ∉ w.visited
  bounded : ∀ x ∈ w.visited, x < w.arena.size
  types : w.memory.context.types = types

/-- **One replacement** in an arena, of a node that the rule replaces. -/
def Replaces (rule : Rule) (a b : Arena) : Prop :=
  ∃ σ s ss ts, Rewrites a s b ss ∧ rule σ (placeOf a s.entry) (s.map a.label) = .replace ts

/-- What a walk from `w` to `w'` through the subtrees `ss` leaves of the rest, and that it goes
there by replacements alone. -/
structure Past (rule : Rule) (w : World (Memory ω)) (ss : List (Rose Nat)) (w' : World (Memory ω)) :
    Prop where
  visited : ∀ x ∈ w'.visited, x ∈ w.visited ∨ (∃ s ∈ ss, x ∈ s.preorder) ∨ w.arena.size ≤ x
  bounded : ∀ x ∈ w'.visited, x < w'.arena.size
  context : w.memory.context.Extends w'.memory.context
  steps : Relation.ReflTransGen (Replaces rule) w.arena w'.arena

/-- **From `a` to `b` nothing has happened** and the rule keeps every site, or else there are new
nodes and it does not. -/
def Stays (rule : Rule) (a b : Arena) (places : List Site) : Prop :=
  (b = a ∧ ∀ s ∈ places, s.Kept rule) ∨ (a.size < b.size ∧ ∃ s ∈ places, ¬ s.Kept rule)

/-- **What a walk of one subtree comes to**: the trees `ss` stand in its place. -/
structure Walked (rule : Rule) (w : World (Memory ω)) (s : Rose Nat) (w' : World (Memory ω))
    (ss : List (Rose Nat)) : Prop where
  rewrites : Rewrites w.arena s w'.arena ss
  walks : Walks rule w.memory.context.names (placeOf w.arena s.entry) (placeOf w.arena s.entry)
    [s.map w.arena.label] (ss.map (Rose.map w'.arena.label)) w'.memory.context.names
  past : Past rule w [s] w'
  single : ss.length = 1 ∨ placeOf w.arena s.entry = .statement
  kept : (∀ σ, rule σ (placeOf w.arena s.entry) (s.map w.arena.label) = .keep) →
    ss.map Rose.entry = [s.entry]
  stays : Stays rule w.arena w'.arena
    (sites w.memory.context.names (placeOf w.arena s.entry) (s.map w.arena.label))

/-! ### Failures -/

/-- The walk has failed with an error that the file can give, inside the scopes around `ctx`. -/
def Excused (F : String → Error → Prop) (ctx : Context) (e : Error) (w : World (Memory ω)) : Prop :=
  F ctx.filename e ∧ ctx.Encloses w.memory.context

theorem Excused.of_encloses {ctx' : Context} {e : Error} (h : Excused F ctx' e w)
    (hctx : ctx.Encloses ctx') : Excused F ctx e w :=
  ⟨hctx.1 ▸ h.1, hctx.trans h.2⟩

/-- **The trees that a walk may meet**, by place: the names and types that scopes are set up
from are there, and with every step, to a child or to what replaces a node, a measure falls. -/
structure Sound (rule : Rule) (I : Place → Tree → Prop) (μ : Place → Tree → Nat) : Prop where
  declares : ∀ {p : Place} {l : Label} {ts : List Tree}, I p (.node l ts) → l.kind = .varDecl →
    (∃ name, l.name? = some name) ∧ ∃ t, ts.head?.bind (·.entry.type?) = some t
  returns : ∀ {p : Place} {l : Label} {ts : List Tree}, I p (.node l ts) → l.kind = .function →
    ∃ t, ts.head?.bind (·.entry.type?) = some t
  child : ∀ {p : Place} {l : Label} {ts : List Tree} {t : Tree}, I p (.node l ts) → t ∈ ts →
    ∀ first, I (.below l.kind first) t ∧ μ (.below l.kind first) t < μ p (.node l ts)
  part : ∀ {σ : Names} {p : Place} {t u : Tree} {us : List Tree}, I p t →
    rule σ p t = .replace us → u ∈ us → I p u ∧ μ p u < μ p t

theorem Sound.opens_ne_none {μ : Place → Tree → Nat} (h : Sound rule I μ) {σ : Names} {p : Place}
    {t : Tree} (hI : I p t) (hk : t.entry.kind = .varDecl ∨ t.entry.kind = .function) :
    opens σ t ≠ none := by
  obtain ⟨l, ts⟩ := t
  rw [Rose.entry] at hk
  rw [opens]
  rcases hk with hk | hk
  · obtain ⟨⟨name, hname⟩, t, ht⟩ := h.declares hI hk
    simp [hk, hname, ht]
  · obtain ⟨t, ht⟩ := h.returns hI hk
    simp [hk, ht]

/-- **Entering a subtree walks it.** If that fails and the subtree is as `Φ` says, then with an
error that the file can give. If it has at most `n` nodes, then the rule does not keep them all. -/
def Enters (types : TypeTable) (rule : Rule) (F : String → Error → Prop) (Φ : Place → Tree → Prop)
    (n : Nat) (enter : Enter Unit (Memory ω)) : Prop :=
  ∀ ⦃w : World (Memory ω)⦄ ⦃s : Rose Nat⦄, w.arena.WellFormed → w.arena.Spans s →
    Ready types w [s] → Steps.Ends (enter s.entry ()) w
      (fun e w' => (Φ (placeOf w.arena s.entry) (s.map w.arena.label) →
          Excused F w.memory.context e w') ∧
        (s.size ≤ n → ∃ x ∈ sites w.memory.context.names (placeOf w.arena s.entry)
          (s.map w.arena.label), ¬ x.Kept rule))
      fun _ w' => ∃ ss, Walked rule w s w' ss

section Lists

variable {types : TypeTable} {rule : Rule} {Φ : Place → Tree → Prop} {n : Nat}
  {enter : Enter Unit (Memory ω)} {s : Rose Nat}

/-- One part of a walk and then another. Once there are new nodes they stay. -/
theorem Stays.append {c : Arena} {ys : List Site} (h : Stays rule a b xs) (hsize : b.size ≤ c.size)
    (h' : (∀ x ∈ xs, x.Kept rule) → Stays rule b c ys) : Stays rule a c (xs ++ ys) := by
  rcases h with ⟨rfl, hall⟩ | ⟨hlt, x, hx, hnot⟩
  · rcases h' hall with ⟨rfl, hall'⟩ | ⟨hlt, y, hy, hnot⟩
    · exact .inl ⟨rfl, forall_mem_append.2 ⟨hall, hall'⟩⟩
    · exact .inr ⟨hlt, y, mem_append_right _ hy, hnot⟩
  · exact .inr ⟨Nat.lt_of_lt_of_le hlt hsize, x, mem_append_left _ hx, hnot⟩

theorem Stays.size_le (h : Stays rule a b xs) : a.size ≤ b.size := by
  rcases h with ⟨rfl, -⟩ | ⟨hlt, -⟩
  · exact Nat.le_refl _
  · exact Nat.le_of_lt hlt

theorem Stays.of_size_le (h : Stays rule a b xs) (hle : b.size ≤ a.size) :
    b = a ∧ ∀ x ∈ xs, x.Kept rule :=
  h.resolve_right fun hlarger => Nat.not_lt.2 hle hlarger.1

theorem Walked.names (h : Walked rule w s w' ss)
    (hall : ∀ x ∈ sites w.memory.context.names (placeOf w.arena s.entry) (s.map w.arena.label),
      x.Kept rule)
    : w'.memory.context.names = after w.memory.context.names (s.map w.arena.label) :=
  (h.walks.kept (forall_sitesAll_singleton.2 hall)).2

theorem Past.refl (hr : ∀ x ∈ w.visited, x < w.arena.size) (ss : List (Rose Nat)) :
    Past rule w ss w :=
  ⟨fun _ hx => .inl hx, hr, .refl _, .refl⟩

theorem size_le_of_steps (h : Relation.ReflTransGen (Replaces rule) a b) : a.size ≤ b.size := by
  induction h with
  | refl => exact Nat.le_refl _
  | tail _ hstep ih =>
    obtain ⟨_, _, _, _, hrw, -⟩ := hstep
    exact Nat.le_trans ih hrw.size

theorem Past.size (h : Past rule w ss w') : w.arena.size ≤ w'.arena.size :=
  size_le_of_steps h.steps

theorem Past.cons (h : Past rule w [s] w₁) (h' : Past rule w₁ post w') :
    Past rule w (s :: post) w' := by
  refine ⟨fun x hx => ?_, h'.bounded, h.context.trans h'.context, h.steps.trans h'.steps⟩
  rcases h'.visited x hx with hx | ⟨u, hu, hx⟩ | hge
  · rcases h.visited x hx with hx | ⟨u, hu, hx⟩ | hge
    · exact .inl hx
    · rw [mem_singleton] at hu
      exact .inr (.inl ⟨s, .head _, hu ▸ hx⟩)
    · exact .inr (.inr hge)
  · exact .inr (.inl ⟨u, .tail _ hu, hx⟩)
  · exact .inr (.inr (Nat.le_trans h.size hge))

theorem Ready.tail (hr : Ready types w (s :: post)) (h : Past rule w [s] w₁)
    (hpost : ∀ u ∈ post, w.arena.Spans u ∧ u.preorder.Disjoint s.preorder) :
    Ready types w₁ post := by
  refine ⟨fun u hu x hx hv => ?_, h.bounded, h.context.types.trans hr.types⟩
  obtain ⟨hspan, hdis⟩ := hpost u hu
  rcases h.visited x hv with hv | ⟨v, hv, hxv⟩ | hge
  · exact hr.unhandled u (.tail _ hu) x hx hv
  · rw [mem_singleton] at hv
    exact hdis hx (hv ▸ hxv)
  · exact Nat.not_le_of_lt (hspan.lt_size_of_mem x hx) hge

theorem Ready.head (hr : Ready types w (s :: post)) : Ready types w [s] :=
  ⟨fun _ hu => hr.unhandled _ (mem_singleton.1 hu ▸ (.head _)), hr.bounded, hr.types⟩

/-- **After the walk of a child** the node and its other children are as they were, and the
children after it are about to be entered. -/
theorem Walked.child (h : Walked rule w s w₁ ss) (hs : w.arena.Spans (.node id (pre ++ s :: post)))
    (hr : Ready types w (s :: post)) :
    w₁.arena.Spans (.node id (pre ++ ss ++ post)) ∧ w₁.arena.label id = w.arena.label id ∧
      (∀ u, u ∈ pre ∨ u ∈ post → u.map w₁.arena.label = u.map w.arena.label) ∧
      Ready types w₁ post := by
  have hw := h.rewrites.before
  have hmem : s ∈ pre ++ s :: post := mem_append_right _ (.head _)
  have hid : id ∉ s.preorder := hs.not_mem_child hw hmem
  refine ⟨(Rewrites.under hs h.rewrites).spans _ (.head _),
    h.rewrites.label id hs.lt_size hid, fun u hu => ?_,
    hr.tail h.past fun u hu => hs.around hw (.inr hu)⟩
  obtain ⟨hspan, hdis⟩ := hs.around hw hu
  exact (h.rewrites.keeps hspan hdis).2

/-- **After the walk of a part** of what replaces a node, the other parts are as they were,
and those after it are about to be entered. -/
theorem Walked.part {t : Rose Nat} (h : Walked rule w t w₁ ss)
    (hrw : Rewrites a s w.arena (pre ++ t :: post))
    (hsingle : (pre ++ t :: post).length = 1 ∨ placeOf a s.entry = .statement)
    (hr : Ready types w (t :: post)) :
    Rewrites a s w₁.arena (pre ++ ss ++ post) ∧
      ((pre ++ ss ++ post).length = 1 ∨ placeOf a s.entry = .statement) ∧
      (∀ u, u ∈ pre ∨ u ∈ post → u.map w₁.arena.label = u.map w.arena.label) ∧
      Ready types w₁ post := by
  have hplace := placeOf_rewrites hrw hsingle (mem_append_right _ (.head _))
  refine ⟨hrw.trans h.rewrites, ?_, fun u hu => ?_,
    hr.tail h.past fun u hu => hrw.disjoint (.inr hu)⟩
  · refine hsingle.elim (fun hone => ?_) .inr
    rcases h.single with hone₁ | hst
    · left
      simp only [length_append, length_cons] at hone ⊢
      omega
    · exact .inr (hplace ▸ hst)
  · obtain ⟨hspan, hdis⟩ := hrw.disjoint hu
    exact (h.rewrites.keeps hspan hdis).2

/-- **The children of a node are walked one after the other**, each in the tree that the
walks before it have left. -/
theorem enterChildren_walked (henter : Enters types rule F Φ n enter) :
    ∀ (post pre : List (Rose Nat)) {w : World (Memory ω)}, w.arena.WellFormed →
      w.arena.Spans (.node id (pre ++ post)) → Ready types w post →
      Steps.Ends (enterChildren enter id () (post.map Rose.entry)) w
        (fun e w' => ((∀ u ∈ post, ∀ first,
            Φ (.below (w.arena.kind id) first) (u.map w.arena.label)) →
            Excused F w.memory.context e w') ∧
          ((∀ u ∈ post, u.size ≤ n) → ∃ x ∈ sitesAll w.memory.context.names
            (.below (w.arena.kind id) pre.isEmpty) (.below (w.arena.kind id) false)
            (post.map (Rose.map w.arena.label)), ¬ x.Kept rule))
        fun _ w' => ∃ ss,
          Rewrites w.arena (.node id (pre ++ post)) w'.arena [.node id (pre ++ ss)] ∧
          Walks rule w.memory.context.names (.below (w.arena.kind id) pre.isEmpty)
            (.below (w.arena.kind id) false) (post.map (Rose.map w.arena.label))
            (ss.map (Rose.map w'.arena.label)) w'.memory.context.names ∧
          (∀ u ∈ pre, u.map w'.arena.label = u.map w.arena.label) ∧
          w'.arena.label id = w.arena.label id ∧ Past rule w post w' ∧
          Stays rule w.arena w'.arena (sitesAll w.memory.context.names
            (.below (w.arena.kind id) pre.isEmpty) (.below (w.arena.kind id) false)
            (post.map (Rose.map w.arena.label))) := by
  intro post
  induction post with
  | nil =>
    intro pre w hw hs hr
    refine ⟨[], .refl hw hs, .nil, fun _ _ => rfl, rfl, .refl hr.bounded _, .inl ⟨rfl, ?_⟩⟩
    rw [map_nil, sitesAll]
    exact fun _ hm => by cases hm
  | cons s post ih =>
    intro pre w hw hs hr
    have hmem : s ∈ pre ++ s :: post := mem_append_right _ (.head _)
    have hplace := placeOf_child hw hs
    rw [map_cons, enterChildren]
    refine .get_bind ?_
    rw [if_pos (hs.parent_of_mem hw hmem)]
    refine ((henter hw (hs.of_mem hmem) hr.head).mono (fun e w' he => ?_) fun _ _ h => h).bind ?_
    · rw [hplace] at he
      refine ⟨fun hΦ => he.1 (hΦ s (.head _) _), fun hsize => ?_⟩
      obtain ⟨x, hx, hnot⟩ := he.2 (hsize s (.head _))
      exact ⟨x, mem_sitesAll_cons.2 (.inl hx), hnot⟩
    rintro _ w₁ ⟨ss₁, hwalk₁⟩
    have hrw₁ := hwalk₁.rewrites
    obtain ⟨hspan₁, hlabel, hkeep, hr₂⟩ := hwalk₁.child hs hr
    have hkind : w₁.arena.kind id = w.arena.kind id := congrArg Label.kind hlabel
    -- only in a block can the first child leave no tree or several
    have hfirst : Place.below (w₁.arena.kind id) (pre ++ ss₁).isEmpty =
        .below (w.arena.kind id) false := by
      rw [hkind]
      rcases hwalk₁.single with hone | hst
      · obtain ⟨u, rfl⟩ := length_eq_one_iff.1 hone
        rw [isEmpty_eq_false_iff.2 (append_ne_nil_of_right_ne_nil _ (cons_ne_nil _ _))]
      · rw [hplace, below_eq_statement] at hst
        rw [hst]
        rfl
    have hrest := ih (pre ++ ss₁) hrw₁.wellFormed hspan₁ hr₂
    rw [hfirst, hkind, map_congr_left fun u hu => hkeep u (.inr hu)] at hrest
    have hwalks₁ := hwalk₁.walks
    have hnames := hwalk₁.names
    have hstays₁ := hwalk₁.stays
    rw [hplace] at hwalks₁ hnames hstays₁
    refine hrest.mono (fun e w' he => ⟨fun hΦ => ?_, fun hsize => ?_⟩) ?_
    · refine (he.1 fun u hu first => ?_).of_encloses hwalk₁.past.context.encloses
      rw [hkeep u (.inr hu)]
      exact hΦ u (.tail _ hu) first
    · by_cases hall : ∀ x ∈ sites w.memory.context.names (.below (w.arena.kind id) pre.isEmpty)
          (s.map w.arena.label), x.Kept rule
      · obtain ⟨x, hx, hnot⟩ := he.2 fun u hu => hsize u (.tail _ hu)
        rw [hnames hall] at hx
        exact ⟨x, mem_sitesAll_cons.2 (.inr hx), hnot⟩
      · push Not at hall
        obtain ⟨x, hx, hnot⟩ := hall
        exact ⟨x, mem_sitesAll_cons.2 (.inl hx), hnot⟩
    rintro _ w' ⟨ss₂, hrw₂, hwalks₂, hpre₂, hlabel₂, hpast₂, hstays₂⟩
    refine ⟨ss₁ ++ ss₂, ?_, ?_, fun u hu => ?_, hlabel₂.trans hlabel, hwalk₁.past.cons hpast₂, ?_⟩
    · have hboth := (Rewrites.under hs hrw₁).trans_one hrw₂
      rwa [append_assoc] at hboth
    · rw [map_cons, map_append,
        map_congr_left fun u hu => hpre₂ u (mem_append_right _ hu)]
      exact hwalks₁.cons hwalks₂
    · rw [hpre₂ u (mem_append_left _ hu), hkeep u (.inl hu)]
    · rw [map_cons, sitesAll]
      refine hstays₁.append hpast₂.size fun hall => ?_
      rwa [hnames hall] at hstays₂

/-- **What replaces a node is walked tree by tree.** -/
theorem enterAll_walked (henter : Enters types rule F Φ n enter) :
    ∀ (post pre : List (Rose Nat)) {w : World (Memory ω)}, Rewrites a s w.arena (pre ++ post) →
      ((pre ++ post).length = 1 ∨ placeOf a s.entry = .statement) → Ready types w post →
      Steps.Ends (enterAll enter (post.map Rose.entry)) w
        (fun e w' => (∀ u ∈ post, Φ (placeOf a s.entry) (u.map w.arena.label)) →
          Excused F w.memory.context e w')
        fun _ w' => ∃ ss, Rewrites a s w'.arena (pre ++ ss) ∧
          Walks rule w.memory.context.names (placeOf a s.entry) (placeOf a s.entry)
            (post.map (Rose.map w.arena.label)) (ss.map (Rose.map w'.arena.label))
            w'.memory.context.names ∧
          (∀ u ∈ pre, u.map w'.arena.label = u.map w.arena.label) ∧
          ((pre ++ ss).length = 1 ∨ placeOf a s.entry = .statement) ∧ Past rule w post w' := by
  intro post
  induction post with
  | nil =>
    intro pre w hrw hsingle hr
    exact ⟨[], hrw, .nil, fun _ _ => rfl, hsingle, .refl hr.bounded _⟩
  | cons t post ih =>
    intro pre w hrw hsingle hr
    have hmem : t ∈ pre ++ t :: post := mem_append_right _ (.head _)
    have hplace := placeOf_rewrites hrw hsingle hmem
    rw [map_cons, enterAll]
    refine ((henter hrw.wellFormed (hrw.spans t hmem) hr.head).mono (fun e w' he hΦ => he.1 ?_)
      fun _ _ h => h).bind ?_
    · rw [hplace]
      exact hΦ t (.head _)
    rintro _ w₁ ⟨ss₁, hwalk₁⟩
    obtain ⟨hrw₁, hsingle₁, hkeep, hr₂⟩ := hwalk₁.part hrw hsingle hr
    refine (ih (pre ++ ss₁) hrw₁ hsingle₁ hr₂).mono (fun e w' he hΦ => ?_) ?_
    · refine (he fun u hu => ?_).of_encloses hwalk₁.past.context.encloses
      rw [hkeep u (.inr hu)]
      exact hΦ u (.tail _ hu)
    rintro _ w' ⟨ss₂, hrw₂, hwalks₂, hpre₂, hsingle₂, hpast₂⟩
    have hwalks₁ := hwalk₁.walks
    rw [hplace] at hwalks₁
    rw [map_congr_left fun u hu => hkeep u (.inr hu)] at hwalks₂
    rw [append_assoc] at hrw₂ hsingle₂
    refine ⟨ss₁ ++ ss₂, hrw₂, ?_, fun u hu => ?_, hsingle₂, hwalk₁.past.cons hpast₂⟩
    · rw [map_cons, map_append,
        map_congr_left fun u hu => hpre₂ u (mem_append_right _ hu)]
      exact hwalks₁.cons hwalks₂
    · rw [hpre₂ u (mem_append_left _ hu), hkeep u (.inl hu)]

/-- Once a node is handled its children are about to be entered: it is none of its
children's nodes. -/
theorem Ready.children (hr : Ready types w [.node id ss]) (hw : w.arena.WellFormed)
    (hs : w.arena.Spans (.node id ss)) (ha : w₁.arena = w.arena) (hv : w₁.visited = id :: w.visited)
    (htypes : w₁.memory.context.types = types) : Ready types w₁ ss := by
  refine ⟨fun u hu x hx hvis => ?_, fun x hx => ?_, htypes⟩
  · rw [hv, mem_cons] at hvis
    rcases hvis with rfl | hvis
    · exact hs.not_mem_child hw hu hx
    · exact hr.unhandled _ (.head _) x (Rose.mem_preorder_of_mem hu hx) hvis
  · rw [ha]
    rw [hv, mem_cons] at hx
    rcases hx with rfl | hx
    · exact hs.lt_size
    · exact hr.bounded x hx

/-- Once a node is released what replaces it is about to be entered: it is made of nodes of
the subtree and of new ones. -/
theorem Ready.parts (hr : Ready types w [s]) (hrw : Rewrites w.arena s w₁.arena ss)
    (hv : w₁.visited = w.visited) (htypes : w₁.memory.context.types = types) :
    Ready types w₁ ss := by
  refine ⟨fun u hu x hx hvis => ?_, fun x hx => ?_, htypes⟩
  · rw [hv] at hvis
    rcases hrw.ids u hu x hx with hm | hge
    · exact hr.unhandled s (.head _) x hm hvis
    · exact Nat.not_le_of_lt (hr.bounded x hvis) hge
  · exact Nat.lt_of_lt_of_le (hr.bounded x (hv ▸ hx)) hrw.size

theorem Ready.release (hr : Ready types w [s]) :
    (s.entry :: w.visited).filter (· != s.entry) = w.visited := by
  rw [filter_cons_of_neg (by simp), filter_ne_eq_self]
  exact hr.unhandled s (.head _) _ s.entry_mem_preorder

end Lists

/-! ### The steps of a walk -/

theorem popScope_of_suffix {s : ScopeStack} (h : s.push.saved <:+ w.memory.context.scopes.saved) :
    ∃ scopes, popScope w = .ok () (inContext w { w.memory.context with scopes }) ∧
      s.saved <:+ scopes.saved := by
  obtain ⟨scopes, hpop, hout⟩ := ScopeStack.pop_of_suffix h
  have hctx : w.memory.context.popScope = .ok { w.memory.context with scopes } := by
    unfold Context.popScope
    rw [hpop]
    rfl
  refine ⟨scopes, ?_, hout⟩
  unfold popScope
  rw [Steps.get_bind, hctx]
  rfl

theorem close_eq (opened : Bool)
    (hctx : (if opened then ctx.pushScope else ctx).Extends w.memory.context) :
    (if opened then popScope else pure () : Walk ω Unit) w =
      .ok () (inContext w (if opened then ctx else w.memory.context)) := by
  cases opened with
  | false => rfl
  | true =>
    refine Steps.get_bind.2 ?_
    simp only [hctx.popScope]
    exact setContext_eq_ok.2 rfl

theorem close_encloses (opened : Bool)
    (hctx : (if opened then ctx.pushScope else ctx).Encloses w.memory.context) :
    ∃ w', (if opened then popScope else pure () : Walk ω Unit) w = .ok () w' ∧
      ctx.Encloses w'.memory.context := by
  cases opened with
  | false => exact ⟨w, rfl, hctx⟩
  | true =>
    obtain ⟨scopes, hpop, hout⟩ := popScope_of_suffix hctx.2
    exact ⟨_, hpop, hctx.1, hout⟩

def viewOf (w : World (Memory ω)) : View ω :=
  { arena := w.arena, context := w.memory.context, notes := w.memory.notes }

/-- The walk as a hook has left it. -/
def putBack (w : World (Memory ω)) (v : View ω) : World (Memory ω) :=
  { w with arena := v.arena, memory := { context := v.context, notes := v.notes } }

theorem runHook_ends (hook : Hook ω) (node : NodeId) (w : World (Memory ω)) :
    Steps.Ends (runHook hook node) w
      (fun e w' => ∃ v, hook node (viewOf w) = .error e v ∧ w' = putBack w v)
      fun flow w' => ∃ v, hook node (viewOf w) = .ok flow v ∧ w' = putBack w v := by
  unfold Steps.Ends runHook
  simp only
  cases hv : hook node ⟨w.arena, w.memory.context, w.memory.notes⟩ with
  | ok flow v => exact ⟨v, hv, rfl⟩
  | error e v => exact ⟨v, hv, rfl⟩

theorem thenAlways_ends {steps cleanup : Walk ω Unit} {E E' : Error → World (Memory ω) → Prop}
    {P Q : Unit → World (Memory ω) → Prop} (hsteps : Steps.Ends steps w E P)
    (hok : ∀ u w', P u w' → Steps.Ends cleanup w' E' Q)
    (herror : ∀ e w', E e w' → Steps.Ends cleanup w' E' fun _ => E' e) :
    Steps.Ends (thenAlways steps cleanup) w E' Q := by
  unfold Steps.Ends thenAlways at *
  cases hres : steps w with
  | ok u w₁ =>
    rw [hres] at hsteps
    exact hok u w₁ hsteps
  | error e w₁ =>
    rw [hres] at hsteps
    have hcleanup := herror e w₁ hsteps
    simp only
    cases hclean : cleanup w₁ with
    | ok u w₂ =>
      rw [hclean] at hcleanup
      exact hcleanup
    | error e' w₂ =>
      rw [hclean] at hcleanup
      exact hcleanup

variable {types : TypeTable} {rule : Rule} {hook : Hook ω} {Φ : Place → Tree → Prop} {n : Nat}
  {enter : Enter Unit (Memory ω)}

theorem descend_eq (enter : Enter Unit (Memory ω)) (hs : w.arena.Spans (.node id ss))
    (hv : id ∈ w.visited) :
    descend enter id () w = enterChildren enter id () (ss.map Rose.entry) w := by
  change (if w.visited.contains id then enterChildren enter id () (w.arena.children id)
    else enter id ()) w = _
  rw [if_pos (contains_iff_mem.2 hv), hs.children_eq]

/-- A node that is kept: its children are walked inside of its scope. -/
theorem descend_walked (henter : Enters types rule F Φ n enter) (hw : w.arena.WellFormed)
    (hs : w.arena.Spans (.node id ss)) (hr : Ready types w [.node id ss])
    (hopens : opens w.memory.context.names ((Rose.node id ss).map w.arena.label) =
      some (ctx.names, opened))
    (hctx : (if opened then w.memory.context.pushScope else w.memory.context).Extends ctx)
    (hkeep : rule ctx.names (placeOf w.arena id) ((Rose.node id ss).map w.arena.label) = .keep)
    (ha : w₁.arena = w.arena) (hv : w₁.visited = id :: w.visited) (hc : w₁.memory.context = ctx) :
    Steps.Ends (thenAlways (descend enter id ()) (if opened then popScope else pure ())) w₁
      (fun e w' => ((∀ u ∈ ss, ∀ first, Φ (.below (w.arena.kind id) first) (u.map w.arena.label)) →
          Excused F w.memory.context e w') ∧
        ((∀ u ∈ ss, u.size ≤ n) → ∃ x ∈ sites w.memory.context.names (placeOf w.arena id)
          ((Rose.node id ss).map w.arena.label), ¬ x.Kept rule))
      fun _ w' => ∃ ss', Walked rule w (.node id ss) w' ss' := by
  have hseen : id ∈ w₁.visited := hv ▸ (.head _)
  have htypes : ctx.types = types := by
    have := hctx.types
    cases opened <;> exact this.trans hr.types
  -- the hook has changed nothing, so the children are as ready as the node was
  have hr₁ : Ready types w₁ ss := hr.children hw hs ha hv (hc ▸ htypes)
  have hdown := enterChildren_walked henter ss [] (ha ▸ hw) (ha ▸ hs) hr₁
  unfold Steps.Ends at hdown
  rw [← descend_eq enter (ha ▸ hs) hseen, ha, hc] at hdown
  rw [Rose.map_node] at hopens hkeep
  refine thenAlways_ends hdown ?_ fun e w₂ he => ?_
  · rintro _ w₂ ⟨ss', hrw, hwalks, -, hlabel, hpast, hstays⟩
    have hext : ctx.Extends w₂.memory.context := by
      rw [← hc]
      exact hpast.context
    have hctx₂ := hctx.trans hext
    unfold Steps.Ends
    rw [close_eq opened hctx₂]
    have hnames : (if opened then w.memory.context else w₂.memory.context).names =
        if opened then w.memory.context.names else w₂.memory.context.names := by
      cases opened <;> rfl
    refine ⟨[.node id ss'], hrw, ?_, ⟨fun x hx => ?_, hpast.bounded, ?_, ?_⟩, .inl rfl,
      fun _ => rfl, ?_⟩
    · change Walks rule _ _ _ _ ([Rose.node id ss'].map (Rose.map w₂.arena.label))
        (if opened then w.memory.context else w₂.memory.context).names
      rw [hnames, Rose.map_node, map_singleton, Rose.map_node, hlabel]
      exact .keep hopens hkeep hwalks .nil
    · rcases hpast.visited x hx with hx | ⟨u, hu, hx⟩ | hge
      · rw [hv, mem_cons] at hx
        rcases hx with rfl | hx
        · exact .inr (.inl ⟨_, .head _, by simp⟩)
        · exact .inl hx
      · exact .inr (.inl ⟨_, .head _, Rose.mem_preorder_of_mem hu hx⟩)
      · exact .inr (.inr (ha ▸ hge))
    · cases opened with
      | true => exact .refl _
      | false => exact hctx₂
    · exact ha ▸ hpast.steps
    · rw [Rose.map_node, sites, inside_eq hopens]
      have hself : Stays rule w.arena w.arena [⟨w.memory.context.names, placeOf w.arena id,
          .node (w.arena.label id) (ss.map (Rose.map w.arena.label))⟩] :=
        .inl ⟨rfl, forall_mem_singleton.2 ⟨_, _, hopens, hkeep⟩⟩
      exact hself.append (ha ▸ hpast.size) fun _ => hstays
  · have hstuck : (∀ u ∈ ss, u.size ≤ n) → ∃ x ∈ sites w.memory.context.names (placeOf w.arena id)
        ((Rose.node id ss).map w.arena.label), ¬ x.Kept rule := by
      intro hsize
      obtain ⟨x, hx, hnot⟩ := he.2 hsize
      rw [Rose.map_node]
      exact ⟨x, (mem_sites_node hopens).2 (.inr hx), hnot⟩
    -- the scope is closed on the way out, which cannot fail inside those around it
    by_cases hΦ : ∀ u ∈ ss, ∀ first, Φ (.below (w.arena.kind id) first) (u.map w.arena.label)
    · obtain ⟨herror, hopen⟩ := (he.1 hΦ).of_encloses hctx.encloses
      obtain ⟨w₃, hclose, hout⟩ := close_encloses opened hopen
      unfold Steps.Ends
      rw [hclose]
      refine ⟨fun _ => ⟨?_, hout⟩, hstuck⟩
      cases opened <;> exact herror
    · exact Steps.ends_iff.2 ⟨fun _ _ _ => ⟨fun h => absurd h hΦ, hstuck⟩,
        fun _ _ _ => ⟨fun h => absurd h hΦ, hstuck⟩⟩

/-- A node that is replaced: what stands in its place is walked outside of its scope. -/
theorem replaced_walked (henter : Enters types rule F Φ n enter) (hr : Ready types w [s])
    (hopens : opens w.memory.context.names (s.map w.arena.label) = some (ctx.names, opened))
    (hctx : (if opened then w.memory.context.pushScope else w.memory.context).Extends ctx)
    (hrule : rule ctx.names (placeOf w.arena s.entry) (s.map w.arena.label) =
      .replace (ss.map (Rose.map w₁.arena.label)))
    (hrw : Rewrites w.arena s w₁.arena ss) (hsize : w.arena.size < w₁.arena.size)
    (hsingle : ss.length = 1 ∨ placeOf w.arena s.entry = .statement)
    (hv : w₁.visited = s.entry :: w.visited) (hc : w₁.memory.context = ctx) :
    Steps.Ends ((if opened then popScope else pure () : Walk ω Unit) >>= fun _ =>
        release s.entry >>= fun _ => enterAll enter (ss.map Rose.entry)) w₁
      (fun e w' => (∀ u ∈ ss, Φ (placeOf w.arena s.entry) (u.map w₁.arena.label)) →
        Excused F w.memory.context e w')
      fun _ w' => ∃ us, Walked rule w s w' us := by
  refine .bind (P := fun _ w₂ =>
    w₂ = inContext w₁ (if opened then w.memory.context else w₁.memory.context)) ?_ ?_
  · unfold Steps.Ends
    rw [close_eq opened (hc ▸ hctx)]
  rintro _ _ rfl
  generalize hw₂ : inContext w₁ _ = w₂
  refine .bind (P := fun _ w₃ => w₃ = { w₂ with visited := w₂.visited.filter (· != s.entry) })
    (Steps.ends_modify rfl) fun _ w₃ hw₃ => ?_
  rw [← hw₂] at hw₃
  have ha : w₃.arena = w₁.arena := by rw [hw₃]; rfl
  have hc₃ : w₃.memory.context = if opened then w.memory.context else ctx := by
    rw [hw₃, ← hc]; rfl
  -- the node is forgotten, since what replaces it may hold it again
  have hv₃ : w₃.visited = w.visited := by
    rw [hw₃]
    change w₁.visited.filter (· != s.entry) = _
    rw [hv, hr.release]
  have hext : w.memory.context.Extends w₃.memory.context := by
    rw [hc₃]
    cases opened with
    | true => exact .refl _
    | false => exact hctx
  have hr₃ : Ready types w₃ ss := hr.parts (ha ▸ hrw) hv₃ (hext.types.trans hr.types)
  refine (enterAll_walked henter ss [] (ha ▸ hrw) hsingle hr₃).mono (fun e w' he hΦ => ?_) ?_
  · rw [ha] at he
    exact (he hΦ).of_encloses hext.encloses
  rintro _ w' ⟨us, hrw', hwalks, -, hsingle', hpast⟩
  have hgrown : w.arena.size < w'.arena.size := Nat.lt_of_lt_of_le hsize (ha ▸ hpast.size)
  have hsteps : Relation.ReflTransGen (Replaces rule) w.arena w'.arena :=
    .head ⟨_, _, _, _, hrw, hrule⟩ (ha ▸ hpast.steps)
  refine ⟨us, hrw', ?_, ⟨fun x hx => ?_, hpast.bounded, hext.trans hpast.context, hsteps⟩, hsingle', fun hkeep => ?_,
    .inr ⟨hgrown, _, root_mem_sites _ _ _, not_kept hopens fun h => ?_⟩⟩
  · have hnames : w₃.memory.context.names =
        if opened then w.memory.context.names else ctx.names := by
      rw [hc₃]
      cases opened <;> rfl
    rw [hnames, ha] at hwalks
    have hboth := Walks.replace hopens hrule hwalks (.nil (q := placeOf w.arena s.entry))
    rwa [append_nil] at hboth
  · rcases hpast.visited x hx with hx | ⟨u, hu, hx⟩ | hge
    · exact .inl (hv₃ ▸ hx)
    · rcases hrw.ids u hu x hx with hm | hge
      · exact .inr (.inl ⟨s, .head _, hm⟩)
      · exact .inr (.inr hge)
    · exact .inr (.inr (Nat.le_trans hrw.size (ha ▸ hge)))
  · rw [hkeep] at hrule
    cases hrule
  · rw [h] at hrule
    cases hrule

section Walks

variable {I : Place → Tree → Prop} {μ : Place → Tree → Nat}
  (hhook : Refines F I hook types rule) (hsound : Sound rule I μ)
  (hF : ∀ (ctx : Context) (pos : Pos) (name : String),
    F ctx.filename (ctx.locate (some pos) (.undefinedSymbol name)))

include hhook hsound hF

/-- **Handling a node walks its subtree**, if entering the nodes below and those that replace it
does. -/
theorem handle_walked (henter : Enters types rule F (fun p t => I p t ∧ μ p t < n) n enter)
    {s : Rose Nat} (hw : w.arena.WellFormed) (hs : w.arena.Spans s) (hr : Ready types w [s]) :
    Steps.Ends (handle hook enter s.entry ()) { w with visited := s.entry :: w.visited }
      (fun e w' => (I (placeOf w.arena s.entry) (s.map w.arena.label) ∧
          μ (placeOf w.arena s.entry) (s.map w.arena.label) < n + 1 →
          Excused F w.memory.context e w') ∧
        (s.size ≤ n + 1 → ∃ x ∈ sites w.memory.context.names (placeOf w.arena s.entry)
          (s.map w.arena.label), ¬ x.Kept rule))
      fun _ w' => ∃ ss, Walked rule w s w' ss := by
  have hroot := root_mem_sites w.memory.context.names (placeOf w.arena s.entry) (s.map w.arena.label)
  unfold handle
  refine ((openScope_ends s.entry _).mono (fun e w' he => ?_) fun _ _ h => h).bind ?_
  · obtain ⟨hnone, hwhy⟩ := he
    change opens w.memory.context.names (stub w.arena s.entry) = none at hnone
    rw [← opens_stub hs] at hnone
    refine ⟨fun hΦ => ?_, fun _ => ⟨_, hroot, ?_⟩⟩
    · -- what a declaration or a function needs is there
      obtain ⟨hk, -⟩ | ⟨rfl, pos, name, rfl⟩ := hwhy
      · exact absurd hnone (hsound.opens_ne_none hΦ.1 (by rwa [Rose.entry_map]))
      · exact ⟨hF w.memory.context.pushScope pos name, Context.encloses_pushScope _⟩
    · rintro ⟨σ₁, opened, ho, -⟩
      cases hnone.symm.trans ho
  rintro opened _ ⟨ctx, rfl, hopens, hctx⟩
  change opens w.memory.context.names (stub w.arena s.entry) = _ at hopens
  rw [← opens_stub hs] at hopens
  have hin : w.memory.context.Encloses ctx := by
    cases opened with
    | true => exact (Context.encloses_pushScope _).trans hctx.encloses
    | false => exact hctx.encloses
  have htypes : ctx.types = types := by
    have := hctx.types
    cases opened <;> exact this.trans hr.types
  refine ((runHook_ends hook s.entry _).mono (fun e w' he => ?_) fun _ _ h => h).bind ?_
  · obtain ⟨v, hv, rfl⟩ := he
    obtain ⟨hnot, hexcused⟩ := (hhook hw hs htypes).of_eq_error hv
    refine ⟨fun hΦ => ?_, fun _ => ⟨_, hroot, not_kept hopens hnot⟩⟩
    obtain ⟨herror, hvctx⟩ := hexcused hΦ.1
    change v.context = ctx at hvctx
    exact ⟨hin.1 ▸ herror, hvctx.symm ▸ hin⟩
  rintro flow _ ⟨v, hv, rfl⟩
  have hdoes := (hhook hw hs htypes).of_eq_ok hv
  generalize hact : rule _ _ _ = act at hdoes
  cases hdoes with
  | keep hvctx harena =>
    obtain ⟨id, ss⟩ := s
    refine (descend_walked henter hw hs hr hopens hctx hact harena rfl hvctx).mono
      (fun e w' he => ⟨fun hΦ => he.1 fun u hu first => ?_, fun hsize => he.2 fun u hu => ?_⟩)
      fun _ _ h => h
    · obtain ⟨hI, hμ⟩ := hΦ
      rw [Rose.map_node] at hI hμ
      obtain ⟨hinv, hlt⟩ := hsound.child hI (mem_map_of_mem hu) first
      exact ⟨hinv, Nat.lt_of_lt_of_le hlt (Nat.le_of_lt_succ hμ)⟩
    · have := Rose.size_le_sizeAll hu
      rw [Rose.size] at hsize
      omega
  | replace hvctx hrw hgrown hsingle htrees =>
    subst htrees
    refine (replaced_walked henter hr hopens hctx ?_ ?_ ?_ hsingle rfl hvctx).mono
      (fun e w' he => ⟨fun hΦ => he fun u hu => ?_, fun _ => ⟨_, hroot, not_kept hopens fun h => ?_⟩⟩)
      fun _ _ h => h
    · exact hact
    · exact hrw
    · exact hgrown
    · obtain ⟨hinv, hlt⟩ := hsound.part hΦ.1 hact (mem_map_of_mem hu)
      exact ⟨hinv, Nat.lt_of_lt_of_le hlt (Nat.le_of_lt_succ hΦ.2)⟩
    · cases h.symm.trans hact

/-- **A walk of any depth does in place what the rule does to trees**, and one whose limit is above
the measure of the tree fails only with errors that the file can give. -/
theorem enterWithin_walked (limit : Nat) :
    Enters types rule F (fun p t => I p t ∧ μ p t < limit) limit
      (enterWithin (handle hook) limit) := by
  induction limit with
  | zero =>
    intro w s _ _ _
    refine ⟨fun hΦ => absurd hΦ.2 (Nat.not_lt_zero _), fun hsize => ?_⟩
    obtain ⟨id, ss⟩ := s
    rw [Rose.size] at hsize
    omega
  | succ limit ih =>
    intro w s hw hs hr
    -- no node of the subtree was handled, so the walk does not pass it by
    have hnot : ¬ w.visited.contains s.entry = true := fun hm =>
      hr.unhandled s (.head _) _ s.entry_mem_preorder (contains_iff_mem.1 hm)
    rw [enterWithin]
    refine .get_bind ?_
    rw [if_neg hnot]
    refine .bind (P := fun _ w' => w' = { w with visited := s.entry :: w.visited })
      (Steps.ends_modify rfl) ?_
    rintro _ _ rfl
    exact handle_walked hhook hsound hF ih hw hs hr

end Walks

theorem walkScopes_ends {root : NodeId} {v : View ω} {E : Error → View ω → Prop}
    {P : Unit → View ω → Prop}
    (h : Steps.Ends (enterWithin (handle hook) limit root () >>= fun _ => popScope)
      ⟨v.arena, [], ⟨v.context.pushScope, v.notes⟩⟩ (fun e w => E e (viewOf w))
      fun u w => P u (viewOf w))
    : Steps.Ends (walkScopes limit hook root) v E P := by
  unfold Steps.Ends walkScopes at *
  simp only
  split at h
  · next heq =>
    rw [heq]
    exact h
  · next heq =>
    rw [heq]
    exact h

/-- **What a whole walk comes to**: the trees that the rule leaves stand in the place of the
subtree, and the scopes are as they were. -/
structure Outcome (rule : Rule) (v : View ω) (s : Rose Nat) (v' : View ω) : Prop where
  context : v'.context = v.context
  refines : ∃ ss τ, Rewrites v.arena s v'.arena ss ∧
    Walks rule v.context.names (placeOf v.arena s.entry) (placeOf v.arena s.entry)
      [s.map v.arena.label] (ss.map (Rose.map v'.arena.label)) τ ∧
    ((∀ σ, rule σ (placeOf v.arena s.entry) (s.map v.arena.label) = .keep) →
      ss.map Rose.entry = [s.entry])
  steps : Relation.ReflTransGen (Replaces rule) v.arena v'.arena
  stays : Stays rule v.arena v'.arena
    (sites v.context.names (placeOf v.arena s.entry) (s.map v.arena.label))

section Start

variable {limit : Nat} {v : View ω} {s : Rose Nat} (hw : v.arena.WellFormed) (hs : v.arena.Spans s)
  (htypes : v.context.types = types) {I : Place → Tree → Prop} {μ : Place → Tree → Nat}

include hw hs htypes

section

variable (hhook : Refines F I hook types rule) (hsound : Sound rule I μ)
  (hF : ∀ (ctx : Context) (pos : Pos) (name : String),
    F ctx.filename (ctx.locate (some pos) (.undefinedSymbol name)))
include hhook hsound hF

theorem walkScopes_walked :
    Steps.Ends (walkScopes limit hook s.entry) v
      (fun e _ => (I (placeOf v.arena s.entry) (s.map v.arena.label) ∧
          μ (placeOf v.arena s.entry) (s.map v.arena.label) < limit → F v.context.filename e) ∧
        (s.size ≤ limit → ∃ x ∈ sites v.context.names (placeOf v.arena s.entry)
          (s.map v.arena.label), ¬ x.Kept rule))
      fun _ => Outcome rule v s := by
  have hr : Ready types (⟨v.arena, [], ⟨v.context.pushScope, v.notes⟩⟩ : World (Memory ω)) [s] :=
    ⟨fun _ _ _ _ hm => (by cases hm), fun _ hm => (by cases hm), htypes⟩
  refine walkScopes_ends (.bind ((enterWithin_walked hhook hsound hF limit hw hs hr).mono
    (fun e w he => ⟨fun hΦ => (he.1 hΦ).1, he.2⟩) fun _ _ h => h) ?_)
  rintro _ w₁ ⟨ss, hwalked⟩
  have hpop : popScope w₁ = .ok () (inContext w₁ v.context) := close_eq true hwalked.past.context
  unfold Steps.Ends
  rw [hpop]
  exact ⟨rfl, ⟨ss, w₁.memory.context.names, hwalked.rewrites, hwalked.walks, hwalked.kept⟩,
    hwalked.past.steps, hwalked.stays⟩

/-- **A scope walk of a sound tree** fails only with errors that the file can give. -/
theorem walkScopes_fails (hI : I (placeOf v.arena s.entry) (s.map v.arena.label))
    (hμ : μ (placeOf v.arena s.entry) (s.map v.arena.label) < limit) :
    Steps.Fails (walkScopes limit hook s.entry) v fun e _ => F v.context.filename e :=
  fun _ _ h => ((walkScopes_walked hw hs htypes hhook hsound hF).of_eq_error h).1 ⟨hI, hμ⟩

end

/-- **A scope walk refines its rule**, whatever the tree. It fails only if the rule does not keep
all sites, or there are more of them than the limit. -/
theorem walkScopes_refines (hhook : Refines F I hook types rule) :
    Steps.Ends (walkScopes limit hook s.entry) v
      (fun _ _ => s.size ≤ limit → ∃ x ∈ sites v.context.names (placeOf v.arena s.entry)
        (s.map v.arena.label), ¬ x.Kept rule)
      fun _ => Outcome rule v s := by
  have hnone : Refines (fun _ _ => True) (fun _ _ => False) hook types rule :=
    fun _ _ hw hs htypes => (hhook hw hs htypes).mono (fun _ _ he => ⟨he.1, fun h => h.elim⟩)
      fun _ _ h => h
  exact (walkScopes_walked (μ := fun _ _ => 0) hw hs htypes hnone ⟨fun h => h.elim, fun h => h.elim,
    fun h => h.elim, fun h => h.elim⟩ fun _ _ _ => trivial).mono (fun _ _ he => he.2) fun _ _ h => h

end Start

theorem Outcome.eq_self {v v' : View Unit} (h : Outcome rule v s v')
    (hle : v'.arena.size ≤ v.arena.size) : v' = v := by
  obtain ⟨harena, -⟩ := h.stays.of_size_le hle
  have hcontext := h.context
  cases v
  cases v'
  cases harena
  cases hcontext
  rfl

/-- **When a walk leaves everything as it is**: exactly if the rule keeps all sites. -/
theorem walkScopes_eq_self_iff {hook : Hook Unit} {v : View Unit}
    (hhook : Refines F I hook types rule) (hw : v.arena.WellFormed) (hs : v.arena.Spans s)
    (htypes : v.context.types = types) (hlimit : s.size ≤ limit) :
    walkScopes limit hook s.entry v = .ok () v ↔
      ∀ x ∈ sites v.context.names (placeOf v.arena s.entry) (s.map v.arena.label), x.Kept rule := by
  have hends : Steps.Ends (walkScopes limit hook s.entry) v _ _ :=
    walkScopes_refines hw hs htypes hhook
  constructor
  · exact fun h => ((hends.of_eq_ok h).stays.of_size_le (Nat.le_refl _)).2
  intro hall
  have hnot : ¬ ∃ x ∈ sites v.context.names (placeOf v.arena s.entry) (s.map v.arena.label),
      ¬ x.Kept rule := by
    rintro ⟨x, hx, hnot⟩
    exact hnot (hall x hx)
  cases hwalk : walkScopes limit hook s.entry v with
  | error e v' => exact absurd (hends.of_eq_error hwalk hlimit) hnot
  | ok u v' =>
    have hout := hends.of_eq_ok hwalk
    obtain ⟨harena, -⟩ := hout.stays.resolve_right fun h => hnot h.2
    rw [hout.eq_self (Nat.le_of_eq (congrArg Arena.size harena))]

end ScopeWalk

end VecLang
