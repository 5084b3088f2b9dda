import VecLang.Context.Builtin
import VecLang.Proofs.Context.Scopes
import VecLang.Proofs.Steps
import VecLang.Proofs.Traversal.Refines

/-!
# Scope walks are balanced

A scope walk opens a scope for itself, for each function and for each member access, and
closes it again on every way out: after the children were entered or one of them failed,
past a subtree that the hook skips, and before what replaces the node is entered.

The invariant is about the scopes around the innermost one. A part of a walk that succeeds
leaves them alone (`Inside`), and one that fails may leave others on top (`Above`); its own
scope a node closes also then (`thenAlways_returns`). Nothing is asked of the tree, so
nothing depends on what the hook does to it.

* `handle_returns`: the step, for one node.
* `enterWithin_returns`: the run, for all nodes that are entered.
* `walkScopes_balanced`: **a walk brings all scopes back, and if it fails they come back by
  closing what is open on top.**
-/

namespace VecLang.ScopeWalk

open Traversal

variable {ω α β : Type} {w : World (Memory ω)} {base s : ScopeStack}

abbrev scopesOf (w : World (Memory ω)) : ScopeStack := w.memory.context.scopes

/-- The scopes around the innermost one are those of `base`. -/
def Inside (base : ScopeStack) (w : World (Memory ω)) : Prop := (scopesOf w).saved = base.saved

/-- The scopes around that of `base` are there, with others on top maybe. -/
def Above (base : ScopeStack) (w : World (Memory ω)) : Prop := base.saved <:+ (scopesOf w).saved

theorem Inside.above (h : Inside base w) : Above base w := ⟨[], h.symm⟩

/-- **A part of a walk comes back** to the scopes of `base` if it succeeds, and stays above them
if it fails. -/
def Returns (base : ScopeStack) (x : Walk ω α) (w : World (Memory ω)) : Prop :=
  Steps.Ends x w (fun _ => Above base) fun _ => Inside base

theorem Returns.bind {x : Walk ω α} {f : α → Walk ω β} (hx : Returns base x w)
    (hf : ∀ a w', Inside base w' → Returns base (f a) w') : Returns base (x >>= f) w :=
  Steps.Ends.bind hx hf

theorem returns_pure {a : α} (h : Inside base w) : Returns base (pure a : Walk ω α) w := h

theorem returns_throw {e : Error} (h : Inside base w) : Returns base (throw e : Walk ω α) w :=
  h.above

theorem Returns.congr {x : Walk ω α} (h : Returns s x w) (hsaved : s.saved = base.saved) :
    Returns base x w := by
  unfold Returns Above Inside at h ⊢
  rwa [hsaved] at h

def withScopes (w : World (Memory ω)) (scopes : ScopeStack) : World (Memory ω) :=
  { w with memory.context.scopes := scopes }

theorem popScope_of_inside (h : Inside s.push w) :
    popScope w = .ok () (withScopes w s) := by
  unfold popScope
  rw [Steps.get_bind, Context.popScope_of_saved h]
  rfl

theorem close_returns {opened : Bool} (h : Inside (if opened then s.push else s) w) :
    Returns s (if opened then popScope else pure () : Walk ω Unit) w := by
  cases opened with
  | false => exact returns_pure h
  | true =>
    change Steps.Ends popScope w _ _
    unfold Steps.Ends
    rw [popScope_of_inside h]
    rfl

/-- **What is done in the scope of a node leaves that scope**, also if it fails. -/
theorem thenAlways_returns {steps : Walk ω Unit} {opened : Bool}
    (h : Returns (if opened then s.push else s) steps w) :
    Returns s (thenAlways steps (if opened then popScope else pure ())) w := by
  refine thenAlways_ends h (fun _ _ hin => close_returns hin) fun e w' habove => ?_
  cases opened with
  | false => exact habove
  | true =>
    obtain ⟨scopes, hpop, hout⟩ := popScope_of_suffix habove
    change Steps.Ends popScope w' _ _
    unfold Steps.Ends
    rw [hpop]
    exact hout

/-- **The hook leaves the scopes alone**, whether it succeeds or fails. It may change the tree, the
rest of the context and its notes. -/
def KeepsScopes (hook : Hook ω) : Prop :=
  ∀ node v, Steps.Ends (hook node) v (fun _ v' => v'.context.scopes = v.context.scopes)
    fun _ v' => v'.context.scopes = v.context.scopes

variable {hook : Hook ω} {enter : Enter Unit (Memory ω)}

theorem runHook_returns (hhook : KeepsScopes hook) (node : NodeId) (h : Inside base w) :
    Returns base (runHook hook node) w := by
  refine (runHook_ends hook node w).mono ?_ ?_
  · rintro e _ ⟨v, hv, rfl⟩
    exact Inside.above ((congrArg ScopeStack.saved ((hhook node _).of_eq_error hv)).trans h)
  · rintro flow _ ⟨v, hv, rfl⟩
    exact (congrArg ScopeStack.saved ((hhook node _).of_eq_ok hv)).trans h

/-- Entering a node comes back, wherever the walk stands. -/
def EntersBalanced (enter : Enter Unit (Memory ω)) : Prop :=
  ∀ ⦃base : ScopeStack⦄ ⦃w : World (Memory ω)⦄ (node : NodeId), Inside base w →
    Returns base (enter node ()) w

theorem enterChildren_returns (henter : EntersBalanced enter) (parent : NodeId)
    (nodes : List NodeId) (h : Inside base w) :
    Returns base (enterChildren enter parent () nodes) w := by
  induction nodes generalizing w with
  | nil => exact returns_pure h
  | cons node nodes ih =>
    rw [enterChildren]
    refine .get_bind ?_
    split
    · exact (henter node h).bind fun _ _ h₁ => ih h₁
    · exact ih h

theorem enterAll_returns (henter : EntersBalanced enter) (nodes : List NodeId)
    (h : Inside base w) : Returns base (enterAll enter nodes) w := by
  induction nodes generalizing w with
  | nil => exact returns_pure h
  | cons node nodes ih =>
    rw [enterAll]
    exact (henter node h).bind fun _ _ h₁ => ih h₁

theorem descend_returns (henter : EntersBalanced enter) (node : NodeId) (h : Inside base w) :
    Returns base (descend enter node ()) w := by
  unfold descend
  refine .get_bind ?_
  split
  · exact enterChildren_returns henter node _ h
  · exact henter node h

/-- **One node**: whatever the hook says, the scope of the node is closed. -/
theorem handle_returns (hhook : KeepsScopes hook) (henter : EntersBalanced enter) (node : NodeId)
    (h : Inside base w) : Returns base (handle hook enter node ()) w := by
  refine Returns.congr (s := scopesOf w) ?_ h
  unfold handle
  refine ((openScope_ends node w).mono (fun _ _ he => ?_) fun _ _ h₁ => h₁).bind ?_
  · obtain ⟨-, ⟨-, rfl⟩ | ⟨rfl, -⟩⟩ := he
    · exact List.suffix_refl _
    · exact List.suffix_cons _ _
  rintro opened _ ⟨ctx, rfl, -, hext⟩
  have h₁ : Inside (if opened then (scopesOf w).push else scopesOf w) (inContext w ctx) := by
    obtain ⟨scopes, rfl, hscopes⟩ := hext
    cases opened <;> exact hscopes
  have hout : ∀ w' : World (Memory ω), Above (if opened then (scopesOf w).push else scopesOf w) w' →
      Above (scopesOf w) w' := by
    intro w' h'
    cases opened with
    | false => exact h'
    | true => exact (List.suffix_cons _ _).trans h'
  have hrun := runHook_returns hhook node h₁
  refine (hrun.mono (fun _ => hout) fun _ _ h' => h').bind fun flow w₂ h₂ => ?_
  cases flow with
  | descend => exact thenAlways_returns (descend_returns henter node h₂)
  | skip => exact close_returns h₂
  | replaced nodes =>
    -- the new nodes are entered in the scopes from before the node
    refine (close_returns h₂).bind fun _ w₃ h₃ => ?_
    exact Returns.bind (x := release node) h₃ fun _ _ h₄ => enterAll_returns henter nodes h₄

/-- **All nodes that are entered**, by induction on how deep they may be. -/
theorem enterWithin_returns (hhook : KeepsScopes hook) (limit : Nat) :
    EntersBalanced (enterWithin (handle hook) limit) := by
  induction limit with
  | zero => exact fun _ _ _ h => returns_throw h
  | succ limit ih =>
    intro base w node h
    rw [enterWithin]
    refine .get_bind ?_
    split
    · exact returns_pure h
    · exact Returns.bind (x := markVisited node) h fun _ _ h₁ => handle_returns hhook ih node h₁

/-- **Scope walks are balanced.** If the hook leaves the scopes alone, a walk that succeeds leaves
all tables of the scopes as they were. If the walk fails, more scopes are open than before, and
as many as the depth grew have to be closed to bring back exactly those from before. -/
theorem walkScopes_balanced {hook : Hook ω} (hhook : KeepsScopes hook) (limit : Nat)
    (root : NodeId) (v v' : View ω) :
    (walkScopes limit hook root v = .ok () v' → v'.context.scopes = v.context.scopes) ∧
      ∀ e, walkScopes limit hook root v = .error e v' →
        v.context.scopes.depth < v'.context.scopes.depth ∧
        v'.context.scopes.popTimes (v'.context.scopes.depth - v.context.scopes.depth) =
          .ok v.context.scopes := by
  have hends : Steps.Ends (walkScopes limit hook root) v
      (fun _ v' => v.context.scopes.push.saved <:+ v'.context.scopes.saved)
      fun _ v' => v'.context.scopes = v.context.scopes := by
    refine walkScopes_ends (.bind (enterWithin_returns hhook limit root ?_) fun _ w hw => ?_)
    · rfl
    · unfold Steps.Ends
      rw [popScope_of_inside hw]
      rfl
  exact ⟨fun h => hends.of_eq_ok h, fun _ h => ScopeStack.popTimes_of_suffix (hends.of_eq_error h)⟩

def refuseMembers : Hook Unit := fun node => do
  if (← get).arena.kind node = .member then
    throw (.semantic .tooDeep)
  else
    return .descend

theorem keepsScopes_refuseMembers : KeepsScopes refuseMembers := by
  intro node v
  unfold refuseMembers
  refine .get_bind ?_
  split <;> exact (rfl : v.context.scopes = v.context.scopes)

/-- A function with the statement `v.x`, and `v` in scope. -/
def accessView : View Unit where
  arena := (({} : Arena).graft (.plain .function {} [.valued .varType {} (.type Builtin.vec2) [],
    .plain .block {} [.plain .member {}
      [.valued .ident {} (.name "v") [], .valued .ident {} (.name "x") []]]])).1
  context := Context.bind { source := "", filename := "", types := Builtin.types } "v"
    { type := Builtin.vec2 }
  notes := ()

/-- The depth at which a walk has failed. -/
def failedDepth? {ω : Type} : EStateM.Result Error (View ω) Unit → Option Nat
  | .ok _ _ => none
  | .error _ v => some v.context.scopes.depth

/-- The scope of the access is still open as the function is left, so that the scope of the
function stays open in its place. -/
theorem walkScopes_balanced_refused : ∃ e v', walkScopes 5 refuseMembers 0 accessView = .error e v' ∧
    v'.context.scopes.depth = 2 ∧ v'.context.scopes.popTimes 2 = .ok accessView.context.scopes := by
  have hfailed : failedDepth? (walkScopes 5 refuseMembers 0 accessView) = some 2 := by
    decide +kernel
  cases hrun : walkScopes 5 refuseMembers 0 accessView with
  | ok u v' =>
    rw [hrun] at hfailed
    cases hfailed
  | error e v' =>
    rw [hrun] at hfailed
    have hdepth : v'.context.scopes.depth = 2 := Option.some.inj hfailed
    obtain ⟨-, hpop⟩ :=
      (walkScopes_balanced keepsScopes_refuseMembers 5 0 accessView v').2 e hrun
    rw [hdepth] at hpop
    exact ⟨e, v', rfl, hdepth, hpop⟩

end VecLang.ScopeWalk
