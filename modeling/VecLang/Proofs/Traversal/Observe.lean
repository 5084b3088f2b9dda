import Mathlib.Data.List.Forall2
import VecLang.Proofs.Traversal.Invariants
import VecLang.Proofs.Traversal.Sites
import VecLang.Proofs.Traversal.Tour

/-!
# Walks that only look

`noteScope` is the hook that notes each node together with the context in which a scope
walk shows it. Such a walk shows the sites of the tree one by one. It stops at the first
site that cannot be opened, and if there is none then it succeeds and leaves the arena as
it is.

* `tours_noteScope`: what a walk has noted when it succeeds, and when it fails.
* `walkScopes_notes`: the notes of a walk through sites that can be opened.
* `walkScopes_glimpsed`: the notes of any walk.
-/

namespace VecLang.ScopeWalk

open Traversal Arena List

/-- The nodes that a walk has shown, each with the context in which it was shown. -/
abbrev Notes := List (NodeId × Context)

/-- The hook that notes each node with its context. -/
def noteScope : Hook Notes := fun node v =>
  .ok .descend { v with notes := v.notes ++ [(node, v.context)] }

/-- **The note is one of the site**: the node has its tree, and the names inside of it are in
scope. -/
structure NoteOf (a : Arena) (types : TypeTable) (note : Nat × Context) (s : Site) : Prop where
  lt_size : note.1 < a.size
  tree : a.tree note.1 = s.tree
  names : note.2.names = inside s.around s.tree
  types : note.2.types = types

variable {w w' w₁ : World (Memory Notes)} {types : TypeTable} {p q : Place} {σ σ₁ : Names}

/-- **What a walk that notes comes to**: it has shown the nodes of the subtrees in preorder, as
the sites of their trees. -/
structure Shown (types : TypeTable) (w : World (Memory Notes)) (p q : Place)
    (ss : List (Rose Nat)) (w' : World (Memory Notes)) : Prop where
  arena : w'.arena = w.arena
  visited : ∀ x ∈ w'.visited, x ∈ w.visited ∨ ∃ s ∈ ss, x ∈ s.preorder
  context : w.memory.context.Extends w'.memory.context
  names : w'.memory.context.names =
    afterAll w.memory.context.names (ss.map (Rose.map w.arena.label))
  notes : ∃ new, w'.memory.notes = w.memory.notes ++ new ∧
    new.map Prod.fst = ss.flatMap Rose.preorder ∧ List.Forall₂ (NoteOf w.arena types) new
      (sitesAll w.memory.context.names p q (ss.map (Rose.map w.arena.label)))

/-- **What a walk that notes comes to if it fails**: there is a site that cannot be opened, and
the walk has shown nodes and sites up to some point, from the first on. -/
structure Glimpsed (types : TypeTable) (w : World (Memory Notes)) (p q : Place)
    (ss : List (Rose Nat)) (w' : World (Memory Notes)) : Prop where
  stuck : ∃ s ∈ sitesAll w.memory.context.names p q (ss.map (Rose.map w.arena.label)),
    opens s.around s.tree = none
  notes : ∃ new, w'.memory.notes = w.memory.notes ++ new ∧
    new.map Prod.fst <+: ss.flatMap Rose.preorder ∧ ∃ shown,
      shown <+: sitesAll w.memory.context.names p q (ss.map (Rose.map w.arena.label)) ∧
      List.Forall₂ (NoteOf w.arena types) new shown

theorem Shown.nil : Shown types w p q [] w :=
  ⟨rfl, fun _ hx => .inl hx, .refl _, rfl, [], (append_nil _).symm, rfl, by
    rw [map_nil, sitesAll]
    exact .nil⟩

theorem Shown.cons {s : Rose Nat} {post : List (Rose Nat)} (h : Shown types w p q [s] w₁)
    (h' : Shown types w₁ q q post w') : Shown types w p q (s :: post) w' := by
  obtain ⟨new, hnew, hfst, hnotes⟩ := h.notes
  obtain ⟨new', hnew', hfst', hnotes'⟩ := h'.notes
  have hnames := h.names
  have hnames' := h'.names
  rw [h.arena, hnames] at hnotes' hnames'
  simp only [map_cons, map_nil, afterAll, sitesAll, append_nil] at hnames' hnotes hnotes'
  refine ⟨h'.arena.trans h.arena, fun x hx => ?_, h.context.trans h'.context, hnames',
    new ++ new', by rw [hnew', hnew, append_assoc], ?_, ?_⟩
  · rcases h'.visited x hx with hx | ⟨u, hu, hx⟩
    · rcases h.visited x hx with hx | ⟨u, hu, hx⟩
      · exact .inl hx
      · exact .inr ⟨u, mem_singleton.1 hu ▸ (.head _), hx⟩
    · exact .inr ⟨u, .tail _ hu, hx⟩
  · rw [map_append, hfst, hfst', flatMap_cons, flatMap_cons, flatMap_nil,
      append_nil]
  · rw [map_cons, sitesAll]
    exact rel_append hnotes hnotes'

theorem Glimpsed.head {s : Rose Nat} (h : Glimpsed types w p q [s] w') (post : List (Rose Nat)) :
    Glimpsed types w p q (s :: post) w' := by
  have hsites : sitesAll w.memory.context.names p q ([s].map (Rose.map w.arena.label)) <+:
      sitesAll w.memory.context.names p q ((s :: post).map (Rose.map w.arena.label)) := by
    rw [map_singleton, map_cons, sitesAll, sitesAll, sitesAll, append_nil]
    exact prefix_append _ _
  obtain ⟨site, hmem, hstuck⟩ := h.stuck
  obtain ⟨new, hnew, hfst, shown, hshown, hnotes⟩ := h.notes
  refine ⟨⟨site, hsites.subset hmem, hstuck⟩, new, hnew, hfst.trans ?_, shown,
    hshown.trans hsites, hnotes⟩
  rw [flatMap_singleton, flatMap_cons]
  exact prefix_append _ _

theorem Glimpsed.cons {s : Rose Nat} {post : List (Rose Nat)} (h : Shown types w p q [s] w₁)
    (h' : Glimpsed types w₁ q q post w') : Glimpsed types w p q (s :: post) w' := by
  obtain ⟨new, hnew, hfst, hnotes⟩ := h.notes
  obtain ⟨new', hnew', hfst', shown, hshown, hnotes'⟩ := h'.notes
  obtain ⟨site, hmem, hstuck⟩ := h'.stuck
  have hnames := h.names
  rw [map_singleton, afterAll, afterAll] at hnames
  rw [h.arena, hnames] at hmem hshown
  rw [h.arena] at hnotes'
  rw [map_singleton, sitesAll, sitesAll, append_nil] at hnotes
  have hsites : sitesAll w.memory.context.names p q ((s :: post).map (Rose.map w.arena.label)) =
      sites w.memory.context.names p (s.map w.arena.label) ++
        sitesAll (after w.memory.context.names (s.map w.arena.label)) q q
          (post.map (Rose.map w.arena.label)) := by
    rw [map_cons, sitesAll]
  refine ⟨⟨site, ?_, hstuck⟩, new ++ new', by rw [hnew', hnew, append_assoc], ?_,
    sites w.memory.context.names p (s.map w.arena.label) ++ shown, ?_,
    rel_append hnotes hnotes'⟩
  · rw [hsites]
    exact mem_append_right _ hmem
  · rw [map_append, hfst, flatMap_singleton, flatMap_cons]
    exact (prefix_append_right_inj _).2 hfst'
  · rw [hsites]
    exact (prefix_append_right_inj _).2 hshown

theorem close_ends {ω : Type} (opened : Bool) (w : World (Memory ω)) :
    Steps.Ends (if opened then popScope else pure () : Walk ω Unit) w
      (fun _ w' => ∃ ctx, w' = inContext w ctx) fun _ w' => ∃ ctx, w' = inContext w ctx := by
  cases opened with
  | false => exact ⟨_, rfl⟩
  | true =>
    change Steps.Ends popScope w _ _
    unfold popScope
    refine .get_bind ?_
    split
    · exact ⟨_, rfl⟩
    · exact ⟨_, rfl⟩

/-- **Handling a node shows its subtree**, if going on below it does. -/
theorem handle_shown {enter : Enter Unit (Memory Notes)} {id : Nat} {ss : List (Rose Nat)} (p q : Place)
    (htypes : w.memory.context.types = types) (hw : w.arena.WellFormed)
    (hs : w.arena.Spans (.node id ss))
    (hbelow : ∀ w₁ : World (Memory Notes), w₁.arena = w.arena → w₁.visited = id :: w.visited →
      w₁.memory.context.types = types →
      Steps.Ends (descend enter id ()) w₁
        (fun _ => Glimpsed types w₁ (.below (w.arena.label id).kind true)
          (.below (w.arena.label id).kind false) ss)
        fun _ => Shown types w₁ (.below (w.arena.label id).kind true)
          (.below (w.arena.label id).kind false) ss) :
    Steps.Ends (handle noteScope enter id ()) { w with visited := id :: w.visited }
      (fun _ => Glimpsed types w p q [.node id ss]) fun _ => Shown types w p q [.node id ss] := by
  let w₁ : World (Memory Notes) := { w with visited := id :: w.visited }
  unfold handle
  refine ((openScope_ends id w₁).mono (fun e w' he => ?_) fun _ _ h => h).bind ?_
  · -- the scopes of the node itself cannot be set up
    obtain ⟨hnone, hw'⟩ := he
    change opens w.memory.context.names (stub w.arena id) = none at hnone
    rw [show id = (Rose.node id ss).entry from rfl, ← opens_stub hs] at hnone
    refine ⟨⟨_, mem_sitesAll_cons.2 (.inl (root_mem_sites _ p _)), hnone⟩, [], ?_,
      nil_prefix, [], nil_prefix, .nil⟩
    obtain ⟨-, rfl⟩ | ⟨rfl, -⟩ := hw' <;> exact (append_nil _).symm
  rintro opened _ ⟨ctx, rfl, ho, hext⟩
  change opens w.memory.context.names (stub w.arena (Rose.node id ss).entry) =
    some (ctx.names, opened) at ho
  rw [← opens_stub hs] at ho
  have hctx : ctx.types = types := by
    have := hext.types
    cases opened <;> exact this.trans htypes
  let w₂ : World (Memory Notes) :=
    { w₁ with memory := { context := ctx, notes := w.memory.notes ++ [(id, ctx)] } }
  have hrun : runHook noteScope id (inContext w₁ ctx) = .ok .descend w₂ := rfl
  refine Steps.Ends.bind (P := fun flow w' => flow = .descend ∧ w' = w₂) ⟨rfl, rfl⟩ ?_
  rintro _ _ ⟨rfl, rfl⟩
  rw [Rose.map_node] at ho
  have hdown := hbelow w₂ rfl rfl hctx
  have hsites : ∀ p q, sitesAll w.memory.context.names p q
      ([.node id ss].map (Rose.map w.arena.label)) =
        ⟨w.memory.context.names, p, .node (w.arena.label id) (ss.map (Rose.map w.arena.label))⟩ ::
        sitesAll ctx.names (.below (w.arena.label id).kind true)
          (.below (w.arena.label id).kind false) (ss.map (Rose.map w.arena.label)) := by
    intro p q
    rw [map_singleton, Rose.map_node, sitesAll, sitesAll, append_nil, sites, inside_eq ho]
  have hnote : NoteOf w.arena types (id, ctx)
      ⟨w.memory.context.names, p, .node (w.arena.label id) (ss.map (Rose.map w.arena.label))⟩ := by
    refine ⟨hs.lt_size, ?_, ?_, hctx⟩
    · rw [← Rose.map_node]
      exact hs.tree_eq hw
    · rw [inside_eq ho]
  refine thenAlways_ends hdown (fun u w₃ hshown => ?_) fun e w₃ hglimpsed => ?_
  · have hext₃ := hext.trans hshown.context
    obtain ⟨new, hnew, hfst, hnotes⟩ := hshown.notes
    have hclose : (if opened then popScope else pure () : Walk Notes Unit) w₃ =
        .ok () (inContext w₃ (if opened then w.memory.context else w₃.memory.context)) :=
      close_eq opened hext₃
    unfold Steps.Ends
    rw [hclose]
    refine ⟨hshown.arena, fun x hx => ?_, ?_, ?_, (id, ctx) :: new, ?_, ?_, ?_⟩
    · rcases hshown.visited x hx with hx | ⟨u, hu, hx⟩
      · rcases mem_cons.1 hx with rfl | hx
        · exact .inr ⟨_, .head _, by simp⟩
        · exact .inl hx
      · exact .inr ⟨_, .head _, Rose.mem_preorder_of_mem hu hx⟩
    · cases opened with
      | true => exact .refl _
      | false => exact hext₃
    · rw [map_singleton, afterAll, afterAll, Rose.map_node, after_node ho]
      cases opened with
      | true => rfl
      | false => exact hshown.names
    · refine hnew.trans ?_
      rw [append_assoc]
      rfl
    · rw [map_cons, hfst, flatMap_singleton, Rose.preorder_node]
    · rw [hsites]
      exact .cons hnote hnotes
  · -- what was noted stays so while the scopes are closed
    obtain ⟨site, hmem, hstuck⟩ := hglimpsed.stuck
    obtain ⟨new, hnew, hfst, shown, hshown, hnotes⟩ := hglimpsed.notes
    have hcut : ∀ w', w'.memory.notes = w₃.memory.notes →
        Glimpsed types w p q [.node id ss] w' := by
      intro w' hsame
      refine ⟨⟨site, ?_, hstuck⟩, (id, ctx) :: new, ?_, ?_, _ :: shown, ?_, .cons hnote hnotes⟩
      · rw [hsites]
        exact .tail _ hmem
      · refine (hsame.trans hnew).trans ?_
        rw [append_assoc]
        rfl
      · rw [map_cons, flatMap_singleton, Rose.preorder_node]
        exact (prefix_cons_inj _).2 hfst
      · rw [hsites]
        exact (prefix_cons_inj _).2 hshown
    refine (close_ends opened w₃).mono ?_ ?_
    · rintro _ _ ⟨ctx, rfl⟩
      exact hcut _ rfl
    · rintro _ _ ⟨ctx, rfl⟩
      exact hcut _ rfl

/-- **The walk tours the tree**: from a place, with another one for all subtrees behind the first. -/
theorem tours_noteScope (types : TypeTable) :
    Tours (handle noteScope) (fun _ : Place × Place => ()) (fun w => w.memory.context.types = types)
      (fun w id _ => (.below (w.arena.label id).kind true, .below (w.arena.label id).kind false))
      (fun i => (i.2, i.2)) (fun i w => Glimpsed types w i.1 i.2) fun i w => Shown types w i.1 i.2 where
  state_next _ := rfl
  arena h := h.arena
  visited h := h.visited
  keeps hA h := h.context.types.trans hA
  nil := Shown.nil
  cons h h' := h.cons h'
  head post h := h.head post
  tail h h' := .cons h h'
  node := handle_shown _ _

section Walk

variable {limit root : Nat} {v : View Notes} (hw : v.arena.WellFormed) (hroot : root < v.arena.size)
  (hlimit : v.arena.size ≤ limit) (hnotes : v.notes = [])

include hw hroot hlimit in
theorem enterWithin_root (p : Place) :
    Steps.Ends (enterWithin (handle noteScope) limit root ())
      ⟨v.arena, [], ⟨v.context.pushScope, v.notes⟩⟩
      (fun _ => Glimpsed v.context.types ⟨v.arena, [], ⟨v.context.pushScope, v.notes⟩⟩ p p
        [v.arena.shape root])
      fun _ => Shown v.context.types ⟨v.arena, [], ⟨v.context.pushScope, v.notes⟩⟩ p p
        [v.arena.shape root] := by
  have hs := spans_shape hw hroot
  have hshown := (tours_noteScope v.context.types).enterWithin limit (i := (p, p))
    (w := ⟨v.arena, [], ⟨v.context.pushScope, v.notes⟩⟩) rfl hw hs
    (Nat.le_trans (hs.size_le hw) hlimit) (fun _ _ hm => by cases hm)
  rwa [entry_shape] at hshown

include hw hroot hlimit hnotes in
/-- **The notes of any walk are the first sites of the tree.** If the walk succeeds then they are
all sites and nothing else has changed, and if it fails then a site cannot be opened. -/
theorem walkScopes_glimpsed (p : Place) :
    Steps.Ends (walkScopes limit noteScope root) v
      (fun _ v' => (∃ s ∈ sites v.context.names p (v.arena.tree root),
          opens s.around s.tree = none) ∧
        v'.notes.map Prod.fst <+: v.arena.preorder root ∧ ∃ shown,
          shown <+: sites v.context.names p (v.arena.tree root) ∧
          List.Forall₂ (NoteOf v.arena v.context.types) v'.notes shown)
      fun _ v' => v'.arena = v.arena ∧ v'.context = v.context ∧
        v'.notes.map Prod.fst = v.arena.preorder root ∧
        List.Forall₂ (NoteOf v.arena v.context.types) v'.notes
          (sites v.context.names p (v.arena.tree root)) := by
  have hends := enterWithin_root hw hroot hlimit p
  have hsites : sitesAll v.context.names p p [v.arena.tree root] =
      sites v.context.names p (v.arena.tree root) := by
    rw [sitesAll, sitesAll, append_nil]
  refine walkScopes_ends ((hends.mono (fun _ w h => ?_) fun _ _ h => h).bind fun _ w hshown => ?_)
  · obtain ⟨site, hmem, hstuck⟩ := h.stuck
    obtain ⟨new, hnew, hfst, shown, hshown, hall⟩ := h.notes
    rw [hnotes, nil_append] at hnew
    unfold viewOf
    rw [hnew, ← hsites]
    rw [flatMap_singleton] at hfst
    exact ⟨⟨site, hmem, hstuck⟩, hfst, shown, hshown, hall⟩
  · obtain ⟨new, hnew, hfst, hall⟩ := hshown.notes
    rw [hnotes, nil_append] at hnew
    have hpop : popScope w = .ok () (inContext w v.context) := close_eq true hshown.context
    unfold Steps.Ends
    rw [hpop]
    refine ⟨hshown.arena, rfl, ?_⟩
    change w.memory.notes.map Prod.fst = _ ∧ List.Forall₂ _ w.memory.notes _
    rw [hnew, ← hsites]
    rw [flatMap_singleton] at hfst
    exact ⟨hfst, hall⟩

include hw hroot hlimit hnotes in
/-- **The notes of a walk are the sites of the tree** if these can all be opened. -/
theorem walkScopes_notes (p : Place)
    (hopen : ∀ s ∈ sites v.context.names p (v.arena.tree root), (opens s.around s.tree).isSome) :
    ∃ v', walkScopes limit noteScope root v = .ok () v' ∧ v'.arena = v.arena ∧
      v'.context = v.context ∧ v'.notes.map Prod.fst = v.arena.preorder root ∧
      List.Forall₂ (NoteOf v.arena v.context.types) v'.notes
        (sites v.context.names p (v.arena.tree root)) := by
  have hends := walkScopes_glimpsed hw hroot hlimit hnotes p
  cases hwalk : walkScopes limit noteScope root v with
  | ok u v' => exact ⟨v', rfl, hends.of_eq_ok hwalk⟩
  | error e v' =>
    obtain ⟨⟨site, hmem, hstuck⟩, -⟩ := hends.of_eq_error hwalk
    have := hopen site hmem
    rw [hstuck] at this
    cases this

end Walk

end VecLang.ScopeWalk
