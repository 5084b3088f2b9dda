import VecLang.Proofs.Compile
import VecLang.Proofs.Traversal.Preorder

/-!
# Lowering comes to an end

A selection is replaced by copies of its base, in which there may be further selections, and what
replaces a node is entered anew. So nothing that the walk keeps tells that it ends: there are
always new nodes. What falls is the measure of trees that bounds how deep the walk goes.

A walk whose limit is not met does the same with every greater limit, and with hooks that keep
notes besides. Both runs are followed at once. Only two errors tell of the walk and not of the tree:
that the limit is met, and that a scope is closed which was not opened (`Stopped`). No parsed
program leads to them, so the calls of the hooks are one finite list, whatever the limit.

* `walkScopes_together`: **a walk that is not stopped does the same with a greater limit.**
* `lower_terminates`: **lowering a parsed program ends after finitely many calls of its hooks.**
-/

namespace VecLang

namespace ScopeWalk

open Traversal

variable {ω ω' : Type}

/-- The error tells of the walk: its limit is met, or a scope is closed that was not opened. -/
def Stopped (e : Error) : Prop := e = .semantic .tooDeep ∨ e = .semantic .scopeUnderflow

/-- A view with what `f` makes of its notes. -/
def View.mapNotes (f : ω' → ω) (v : View ω') : View ω := ⟨v.arena, v.context, f v.notes⟩

/-- The first world is the second with what `f` makes of its notes. -/
def SameBut (f : ω' → ω) (w : World (Memory ω)) (w' : World (Memory ω')) : Prop :=
  w = ⟨w'.arena, w'.visited, w'.memory.context, f w'.memory.notes⟩

/-- **The second hook does what the first does**, and `f` leaves the first one's notes of its own. -/
def Lifts (f : ω' → ω) (hook : Hook ω) (hook' : Hook ω') : Prop :=
  ∀ node v, Steps.Together (fun _ => False) (fun u u' => u = u'.mapNotes f)
    (hook node (v.mapNotes f)) (hook' node v)

variable {f : ω' → ω} {w : World (Memory ω)} {w' : World (Memory ω')} {hook : Hook ω}
  {hook' : Hook ω'} {enter : Enter Unit (Memory ω)} {enter' : Enter Unit (Memory ω')}

theorem lifts_logged (hook : Hook ω) : Lifts Prod.fst hook (logged hook) := by
  intro node v
  unfold logged View.mapNotes
  cases hook node ⟨v.arena, v.context, v.notes.1⟩ with
  | ok flow u => exact .ok rfl
  | error e u => exact .error rfl

theorem lifts_id (hook : Hook ω) : Lifts id hook hook := by
  intro node v
  change Steps.Together _ _ (hook node v) (hook node v)
  cases hook node v with
  | ok flow u => exact .ok rfl
  | error e u => exact .error rfl

theorem shares_sameBut : Shares (SameBut f) fun _ => True := by
  rintro _ w' rfl
  exact ⟨rfl, rfl, fun _ _ _ => trivial⟩

theorem setContext_together (h : SameBut f w w') (ctx : Context) :
    Steps.Together Stopped (SameBut f) (setContext ctx w) (setContext ctx w') := by
  subst h
  exact .ok rfl

theorem openScope_together (h : SameBut f w w') (node : NodeId) :
    Steps.Together Stopped (SameBut f) (openScope node w) (openScope node w') := by
  have hreturn : ∀ (opened : Bool) (v : World (Memory ω)) (v' : World (Memory ω')), SameBut f v v' →
      Steps.Together Stopped (SameBut f) ((pure opened : Walk ω Bool) v)
        ((pure opened : Walk ω' Bool) v') := fun _ _ _ h => .ok h
  obtain rfl := h
  unfold openScope
  refine .get_bind ?_
  simp only
  split
  · refine .bind ?_ fun _ => hreturn false
    unfold bindDeclaration
    refine .get_bind ?_
    simp only
    cases w'.arena.name? node with
    | none => exact .error rfl
    | some name =>
      cases (w'.arena.child? node 0).bind w'.arena.type? with
      | none => exact .error rfl
      | some t => exact .ok rfl
  split
  · refine .bind ?_ fun _ => hreturn true
    unfold openFunction
    refine .get_bind ?_
    simp only
    cases (w'.arena.child? node 0).bind w'.arena.type? with
    | none => exact .error rfl
    | some t => exact .ok rfl
  split
  · refine .bind ?_ fun _ => hreturn true
    unfold openMember
    refine .get_bind (.bind (setContext_together rfl _) fun _ v v' h => ?_)
    simp only
    cases w'.arena.child? node 0 with
    | none => exact .ok h
    | some base =>
      simp only
      split
      · cases w'.memory.context.pushScope.scopes.get? ((w'.arena.name? base).getD "") with
        | none => exact .error h
        | some b => exact setContext_together h _
      · exact .ok h
  · exact .ok rfl

/-- Leaving the scope of a node, if one was opened, does the same and fails only if there is none. -/
theorem close_together (opened : Bool) (h : SameBut f w w') :
    Steps.Together Stopped (SameBut f) ((if opened then popScope else pure () : Walk ω Unit) w)
      ((if opened then popScope else pure () : Walk ω' Unit) w') := by
  obtain rfl := h
  cases opened with
  | false => exact .ok rfl
  | true =>
    rw [if_pos rfl, if_pos rfl]
    unfold popScope
    refine .get_bind ?_
    simp only
    cases w'.memory.context.popScope with
    | ok ctx => exact .ok rfl
    | error e => exact .error rfl

theorem close_stops (opened : Bool) (w : World (Memory ω)) :
    Steps.Fails (if opened then popScope else pure () : Walk ω Unit) w fun e _ => Stopped e := by
  cases opened with
  | false => exact Steps.fails_pure
  | true =>
    rw [if_pos rfl]
    unfold popScope
    refine .get_bind ?_
    unfold Context.popScope ScopeStack.pop
    intro e w' h
    cases hsaved : w.memory.context.scopes.saved with
    | nil =>
      rw [hsaved] at h
      cases h
      exact .inr rfl
    | cons s saved =>
      rw [hsaved] at h
      cases h

theorem runHook_together (hhook : Lifts f hook hook') (h : SameBut f w w') (node : NodeId) :
    Steps.Together Stopped (SameBut f) (runHook hook node w) (runHook hook' node w') := by
  obtain rfl := h
  have hlift := hhook node (viewOf w')
  unfold runHook
  change Steps.Together _ _ (hook node ⟨w'.arena, w'.memory.context, f w'.memory.notes⟩)
    (hook' node ⟨w'.arena, w'.memory.context, w'.memory.notes⟩) at hlift
  simp only
  generalize hook node _ = r, hook' node _ = r' at hlift ⊢
  cases hlift with
  | ok h =>
    obtain rfl := h
    exact .ok rfl
  | error h =>
    obtain rfl := h
    exact .error rfl
  | stopped h => exact h.elim

/-- If what is done is stopped then also with the cleanup after it, which can only be stopped itself. -/
theorem thenAlways_together {steps cleanup : Walk ω Unit} {steps' cleanup' : Walk ω' Unit}
    (hsteps : Steps.Together Stopped (SameBut f) (steps w) (steps' w'))
    (hclean : ∀ v v', SameBut f v v' → Steps.Together Stopped (SameBut f) (cleanup v) (cleanup' v'))
    (hstops : ∀ v, Steps.Fails cleanup v fun e _ => Stopped e) :
    Steps.Together Stopped (SameBut f) (thenAlways steps cleanup w) (thenAlways steps' cleanup' w') := by
  unfold thenAlways
  generalize steps w = r, steps' w' = r' at hsteps ⊢
  cases hsteps with
  | ok h => exact hclean _ _ h
  | error h =>
    have hend := hclean _ _ h
    simp only
    generalize cleanup _ = r, cleanup' _ = r' at hend ⊢
    cases hend with
    | ok h => exact .error h
    | error h => exact .error h
    | stopped h => exact .stopped h
  | @stopped e v r' h =>
    simp only
    cases hend : cleanup v with
    | ok u v' => exact .stopped h
    | error e' v' => exact .stopped (hstops v e' v' hend)

theorem enterAll_together (henter : Paired Stopped (SameBut f) (fun _ => True) enter enter')
    (nodes : List NodeId) (h : SameBut f w w') :
    Steps.Together Stopped (SameBut f) (enterAll enter nodes w) (enterAll enter' nodes w') := by
  induction nodes generalizing w w' with
  | nil => exact .ok h
  | cons node nodes ih => exact (henter () trivial h).bind fun _ _ _ h => ih h

/-- **One node**: each way to go on is the same in both runs. -/
theorem handle_together (hhook : Lifts f hook hook')
    (henter : Paired Stopped (SameBut f) (fun _ => True) enter enter') (node : NodeId)
    (h : SameBut f w w') :
    Steps.Together Stopped (SameBut f) (handle hook enter node () w)
      (handle hook' enter' node () w') := by
  unfold handle
  refine (openScope_together h node).bind fun opened _ _ h => ?_
  refine (runHook_together hhook h node).bind fun flow v v' h => ?_
  cases flow with
  | descend =>
    exact thenAlways_together (descend_together henter shares_sameBut () trivial h)
      (fun _ _ => close_together opened) (close_stops opened)
  | skip => exact close_together opened h
  | replaced nodes =>
    refine (close_together opened h).bind fun _ _ _ h => .bind (.ok ?_) fun _ _ _ =>
      enterAll_together henter nodes
    obtain rfl := h
    rfl

/-- **All nodes that are entered**, by induction on how deep they may be in the first run. -/
theorem enterWithin_together (hhook : Lifts f hook hook') {limit limit' : Nat} (hle : limit ≤ limit') :
    Paired Stopped (SameBut f) (fun _ => True) (enterWithin (handle hook) limit)
      (enterWithin (handle hook') limit') := by
  induction limit generalizing limit' with
  | zero =>
    intro node w w' _ _ _
    exact .stopped (.inl rfl)
  | succ limit ih =>
    intro node w w' state _ h
    obtain ⟨limit', rfl⟩ : ∃ k, limit' = k + 1 := ⟨limit' - 1, by omega⟩
    rw [enterWithin, enterWithin]
    refine .get_bind ?_
    rw [(shares_sameBut h).2.1]
    by_cases hseen : w.visited.contains node = true
    · rw [if_pos hseen, if_pos hseen]
      exact .ok h
    · rw [if_neg hseen, if_neg hseen]
      refine handle_together hhook (ih (Nat.le_of_succ_le_succ hle)) node ?_
      obtain rfl := h
      rfl

/-- **A walk that is not stopped does the same with a greater limit and with further notes.** -/
theorem walkScopes_together (hhook : Lifts f hook hook') {limit limit' : Nat} (hle : limit ≤ limit')
    (root : NodeId) (v : View ω') :
    Steps.Together Stopped (fun u u' => u = u'.mapNotes f) (walkScopes limit hook root (v.mapNotes f))
      (walkScopes limit' hook' root v) := by
  have hsteps : Steps.Together Stopped (SameBut f)
      ((enterWithin (handle hook) limit root () >>= fun _ => popScope)
        ⟨v.arena, [], v.context.pushScope, f v.notes⟩)
      ((enterWithin (handle hook') limit' root () >>= fun _ => popScope)
        ⟨v.arena, [], v.context.pushScope, v.notes⟩) :=
    .bind (enterWithin_together hhook hle () trivial rfl) fun _ _ _ h => close_together true h
  unfold walkScopes View.mapNotes
  simp only
  generalize (enterWithin (handle hook) limit root () >>= fun _ => popScope) _ = r,
    (enterWithin (handle hook') limit' root () >>= fun _ => popScope) _ = r' at hsteps ⊢
  cases hsteps with
  | ok h =>
    obtain rfl := h
    exact .ok rfl
  | error h =>
    obtain rfl := h
    exact .error rfl
  | stopped h => exact .stopped h

end ScopeWalk

namespace Swizzle

open ScopeWalk

variable {ω ω' : Type}

/-- The two walks of the lowering, with limits and hooks of one's choice. -/
def lowerBy (bound : Arena → Nat) (read write : Hook ω) : Steps (View ω) Unit := do
  match (← get).arena.root? with
  | none => pure ()
  | some root =>
    walkScopes (bound (← get).arena) read root
    modify fun v => { v with context := v.context.resetScopes }
    walkScopes (bound (← get).arena) write root

theorem lower_eq_lowerBy : lower = lowerBy depthLimit readHook writeHook := rfl

theorem lowerBy_together {f : ω' → ω} {read write : Hook ω} {read' write' : Hook ω'}
    {bound bound' : Arena → Nat} (hread : Lifts f read read') (hwrite : Lifts f write write')
    (hle : ∀ a, bound a ≤ bound' a) (v : View ω') :
    Steps.Together Stopped (fun u u' => u = u'.mapNotes f) (lowerBy bound read write (v.mapNotes f))
      (lowerBy bound' read' write' v) := by
  unfold lowerBy
  refine .get_bind ?_
  rw [show (v.mapNotes f).arena = v.arena from rfl]
  cases v.arena.root? with
  | none => exact .ok rfl
  | some root =>
    refine .get_bind (.bind (walkScopes_together hread (hle v.arena) root v) ?_)
    rintro _ _ v₁ rfl
    exact walkScopes_together hwrite (hle v₁.arena) root
      { v₁ with context := v₁.context.resetScopes }

theorem Reported.not_stopped {filename : String} {e : Error} (h : Reported filename e) : ¬ Stopped e := by
  obtain ⟨pos, fault, excerpt, rfl, -⟩ := h
  rintro (h | h) <;> cases h

/-- The lowering with a journal of all nodes on which one of its hooks is called. -/
def lowerLogged (bound : Arena → Nat) : Steps (View (Unit × List NodeId)) Unit :=
  lowerBy bound (logged readHook) (logged writeHook)

/-- **Lowering what is read as a program terminates**, into whatever arena it is read and whatever is
in scope. It gives a program or reports a fault of it, after finitely many calls of its hooks: with
every limit from its own on it comes to the same end by the same calls, so that it does without a
limit as well. -/
theorem lower_terminates {a a' : Arena} {ctx ctx' : Context} {text : String} {root : NodeId}
    (ha : a.WellFormed) (htypes : ctx.types = Builtin.types)
    (hparse : ctx.parse a .program text = .ok (a', root)) (htypes' : ctx'.types = Builtin.types) :
    ∃ (calls : List NodeId) (v : View Unit),
      (lower ⟨a', ctx', ()⟩ = .ok () v ∧ ∀ bound : Arena → Nat, (∀ a, depthLimit a ≤ bound a) →
          lowerLogged bound ⟨a', ctx', (), []⟩ = .ok () ⟨v.arena, v.context, (), calls⟩) ∨
        ∃ e, Reported ctx'.filename e ∧ lower ⟨a', ctx', ()⟩ = .error e v ∧
          ∀ bound : Arena → Nat, (∀ a, depthLimit a ≤ bound a) →
            lowerLogged bound ⟨a', ctx', (), []⟩ = .error e ⟨v.arena, v.context, (), calls⟩ := by
  have hp : Parsed { arena := a', context := ctx' } root :=
    (Parsed.of_parse ha htypes hparse).inContext htypes'
  have hfails := lower_fails hp
  -- first the lowering with and without a journal, then the journals under two limits
  have hplain : Steps.Together Stopped (fun u u' => u = u'.mapNotes Prod.fst)
      (lower ⟨a', ctx', ()⟩) (lowerLogged depthLimit ⟨a', ctx', (), []⟩) := by
    rw [lower_eq_lowerBy]
    exact lowerBy_together (lifts_logged readHook) (lifts_logged writeHook) (fun _ => Nat.le_refl _)
      ⟨a', ctx', (), []⟩
  have hlarger : ∀ bound : Arena → Nat, (∀ a, depthLimit a ≤ bound a) →
      Steps.Together Stopped (fun u u' => u = u'.mapNotes id)
        (lowerLogged depthLimit ⟨a', ctx', (), []⟩) (lowerLogged bound ⟨a', ctx', (), []⟩) :=
    fun bound hbound => lowerBy_together (lifts_id (logged readHook)) (lifts_id (logged writeHook))
      hbound ⟨a', ctx', (), []⟩
  unfold Steps.Fails at hfails
  generalize lower _ = r, lowerLogged depthLimit _ = r' at hfails hplain hlarger ⊢
  cases hplain with
  | @ok _ v v' h =>
    obtain rfl := h
    refine ⟨v'.notes.2, v'.mapNotes Prod.fst, .inl ⟨rfl, fun bound hbound => ?_⟩⟩
    have hend := hlarger bound hbound
    generalize lowerLogged bound _ = r at hend ⊢
    cases hend with
    | ok h =>
      obtain rfl := h
      rfl
  | @error e v v' h =>
    obtain rfl := h
    have hreported := hfails e _ rfl
    refine ⟨v'.notes.2, v'.mapNotes Prod.fst, .inr ⟨e, hreported, rfl, fun bound hbound => ?_⟩⟩
    have hend := hlarger bound hbound
    generalize lowerLogged bound _ = r at hend ⊢
    cases hend with
    | error h =>
      obtain rfl := h
      rfl
    | stopped h => exact absurd h hreported.not_stopped
  | stopped h => exact absurd h (hfails _ _ rfl).not_stopped

/-- A selection of a selection, of which there are two copies on the way. -/
def copiesText : String := "void main() { vec2 v; v.xy = v.yx.yx; }"

/-- The number of calls of a lowering that has a result. -/
def countCalls : EStateM.Result Error (View (Unit × List NodeId)) Unit → Nat
  | .ok _ v => v.notes.2.length
  | .error _ _ => 0

/-- There are more calls than the program has nodes. -/
theorem lower_terminates_copies : ∃ a root v,
    (Context.new "" "").parse {} .program copiesText = .ok (a, root) ∧ a.size < v.notes.2.length ∧
      ∀ bound : Arena → Nat, (∀ a, depthLimit a ≤ bound a) →
        lowerLogged bound ⟨a, Context.new "" "", (), []⟩ = .ok () v := by
  have hcheck : ((Context.new "" "").parse {} .program copiesText).toOption.any (fun r => r.1.size <
      countCalls (lowerLogged depthLimit ⟨r.1, Context.new "" "", (), []⟩)) = true := by
    decide +kernel
  obtain ⟨⟨a, root⟩, hr, hcalls⟩ := (Option.any_eq_true _ _).1 hcheck
  have hparse := eq_ok_of_toOption hr
  have hcalls := of_decide_eq_true hcalls
  obtain ⟨calls, v, ⟨-, hlower⟩ | ⟨e, -, -, hlower⟩⟩ :=
    lower_terminates Arena.wellFormed_empty rfl hparse (rfl : (Context.new "" "").types = _)
  · refine ⟨a, root, _, hparse, ?_, hlower⟩
    rwa [hlower depthLimit fun _ => Nat.le_refl _] at hcalls
  · rw [hlower depthLimit fun _ => Nat.le_refl _] at hcalls
    exact absurd hcalls (Nat.not_lt_zero _)

end Swizzle

end VecLang
