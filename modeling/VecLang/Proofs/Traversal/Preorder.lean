import Mathlib.Logic.Function.Iterate
import VecLang.Proofs.Traversal.Observe
import VecLang.Proofs.Traversal.Once
import VecLang.Proofs.Traversal.Walk

/-!
# Preorder

A walk, a traversal and a scope walk are recursions of different kinds: plain, with a set of
handled nodes and a check of each child's parent, and with scopes on top of that. On a tree that
nobody edits they come to its nodes in the same order, each node before its children.

* `Records`: handlers that note their node and then go on below it.
* `traversals_agree`: **all of them come to the nodes in preorder**, and one that fails has come to
  the first of them.
-/

namespace VecLang

open List

namespace Rose

variable {α : Type}

theorem levelsAll_eq_flatMap (depth : Nat) (ts : List (Rose α)) :
    levelsAll depth ts = ts.flatMap (levels depth) := by
  induction ts with
  | nil => rfl
  | cons t ts ih => rw [levelsAll, flatMap_cons, ih]

theorem map_snd_levels (t : Rose α) : ∀ depth, (t.levels depth).map Prod.snd = t.preorder := by
  induction t using Rose.induction with
  | node a ts ih =>
    intro depth
    rw [levels, levelsAll_eq_flatMap, map_cons, map_flatMap, preorder_node]
    exact congrArg _ (flatMap_congr fun t ht => ih t ht (depth + 1))

end Rose

namespace Traversal

open Arena

variable {σ ω ρ μ : Type}

/-- A walker that also keeps a journal of the nodes that it was shown. -/
def journaled (look : NodeId → Steps μ Unit) (node : NodeId) : Steps (μ × List NodeId) Unit :=
  fun s => match look node s.1 with
    | .ok u m => .ok u (m, s.2 ++ [node])
    | .error e m => .error e (m, s.2 ++ [node])

/-- **The walker has failed at one of the nodes**, and was shown those up to there. -/
def StoppedAt (look : NodeId → Steps μ Unit) (m : μ) (seen nodes : List NodeId) (e : Error)
    (s : μ × List NodeId) : Prop :=
  ∃ front x rest, nodes = front ++ x :: rest ∧ s.2 = seen ++ front ++ [x] ∧
    ∃ m', front.forM look m = .ok () m' ∧ look x m' = .error e s.1

theorem forM_journaled (look : NodeId → Steps μ Unit) (nodes : List NodeId) (m : μ)
    (seen : List NodeId) :
    Steps.Ends (nodes.forM (journaled look)) (m, seen) (StoppedAt look m seen nodes)
      fun _ s => s.2 = seen ++ nodes ∧ nodes.forM look m = .ok () s.1 := by
  induction nodes generalizing m seen with
  | nil => exact ⟨(append_nil _).symm, rfl⟩
  | cons x nodes ih =>
    refine .bind (x := journaled look x) (P := fun _ s => s.2 = seen ++ [x] ∧ look x m = .ok () s.1) ?_ ?_
    · unfold Steps.Ends journaled
      cases hx : look x m with
      | ok u m' => exact ⟨rfl, rfl⟩
      | error e m' => exact ⟨[], x, nodes, rfl, by simp, m, rfl, hx⟩
    · rintro _ ⟨m', _⟩ ⟨rfl, hx⟩
      have hstep : ∀ nodes : List NodeId, (x :: nodes).forM look m = nodes.forM look m' := by
        intro nodes
        change EStateM.bind (look x) _ m = _
        unfold EStateM.bind
        rw [hx]
      refine (ih m' (seen ++ [x])).mono ?_ ?_
      · rintro e s ⟨front, y, rest, rfl, hseen, m₁, hfront, hy⟩
        exact ⟨x :: front, y, rest, rfl, by simp [hseen], m₁, (hstep front).trans hfront, hy⟩
      · rintro _ s ⟨hseen, hall⟩
        exact ⟨by simp [hseen], (hstep nodes).trans hall⟩

/-- **The handler notes its node and then goes on below it**, and changes nothing else. It may stop
before or after, if at all. -/
def Records (handle : Handler σ ω) (state : Nat → σ) (seen : ω → List ρ) (row : Nat × NodeId → ρ)
    (stops : Prop) : Prop :=
  ∀ ⦃enter depth id w⦄ ⦃E : List ρ → Prop⦄ ⦃P : Arena → List NodeId → List ρ → Prop⦄,
    (stops → E (seen w.memory) ∧ E (seen w.memory ++ [row (depth, id)]) ∧
      ∀ a visited rows, P a visited rows → E rows) →
    (∀ w₁, w₁.arena = w.arena → w₁.visited = w.visited →
      seen w₁.memory = seen w.memory ++ [row (depth, id)] →
      Steps.Ends (descend enter id (state (depth + 1))) w₁ (fun _ w' => stops ∧ E (seen w'.memory))
        fun _ w' => P w'.arena w'.visited (seen w'.memory)) →
    Steps.Ends (handle enter id (state depth)) w (fun _ w' => stops ∧ E (seen w'.memory))
      fun _ w' => P w'.arena w'.visited (seen w'.memory)

/-- The rows of the subtrees were noted and nothing else has changed. -/
structure Told (seen : ω → List ρ) (row : Nat × NodeId → ρ) (depth : Nat) (w : World ω)
    (ss : List (Rose Nat)) (w' : World ω) : Prop where
  arena : w'.arena = w.arena
  visited : ∀ x ∈ w'.visited, x ∈ w.visited ∨ ∃ s ∈ ss, x ∈ s.preorder
  rows : seen w'.memory = seen w.memory ++ (Rose.levelsAll depth ss).map row

/-- The first rows of the subtrees were noted. -/
def Cut (seen : ω → List ρ) (row : Nat × NodeId → ρ) (stops : Prop) (depth : Nat) (w : World ω)
    (ss : List (Rose Nat)) (w' : World ω) : Prop :=
  stops ∧ seen w'.memory <+: seen w.memory ++ (Rose.levelsAll depth ss).map row

section Records

variable {handle : Handler σ ω} {state : Nat → σ} {seen : ω → List ρ} {row : Nat × NodeId → ρ}
  {stops : Prop} (h : Records handle state seen row stops)
include h

/-- **A handler that records tours the tree.** -/
theorem Records.tours : Tours handle state (fun _ => True) (fun _ _ depth => depth + 1) id
    (Cut seen row stops) (Told seen row) where
  state_next _ := rfl
  arena h := h.arena
  visited h := h.visited
  keeps _ _ := trivial
  nil := ⟨rfl, fun _ hx => .inl hx, (append_nil _).symm⟩
  cons h h' := by
    refine ⟨h'.arena.trans h.arena, fun x hx => ?_, ?_⟩
    · rcases h'.visited x hx with hx | ⟨u, hu, hx⟩
      · rcases h.visited x hx with hx | ⟨u, hu, hx⟩
        · exact .inl hx
        · exact .inr ⟨u, mem_singleton.1 hu ▸ (.head _), hx⟩
      · exact .inr ⟨u, .tail _ hu, hx⟩
    · rw [h'.rows, h.rows]
      simp [Rose.levelsAll]
  head post h := ⟨h.1, h.2.trans (by simp [Rose.levelsAll])⟩
  tail h h' := by
    refine ⟨h'.1, h'.2.trans ?_⟩
    rw [h.rows]
    simp [Rose.levelsAll]
  node := by
    intro enter depth w id ss _ _ _ hbelow
    have hrows : (Rose.levelsAll depth [.node id ss]).map row =
        [row (depth, id)] ++ (Rose.levelsAll (depth + 1) ss).map row := by
      simp [Rose.levelsAll, Rose.levels]
    refine (h (E := (· <+: seen w.memory ++ (Rose.levelsAll depth [.node id ss]).map row))
      (P := fun a visited rows => a = w.arena ∧
        (∀ x ∈ visited, x ∈ id :: w.visited ∨ ∃ s ∈ ss, x ∈ s.preorder) ∧
        rows = seen w.memory ++ (Rose.levelsAll depth [.node id ss]).map row) ?_ ?_).mono
      (fun _ _ hcut => hcut) ?_
    · rw [hrows, ← append_assoc]
      refine fun _ => ⟨?_, prefix_append _ _, fun _ _ _ hP => hP.2.2 ▸ prefix_refl _⟩
      rw [append_assoc]
      exact prefix_append _ _
    · intro w₁ harena hvisited hseen
      rw [hrows, ← append_assoc, ← hseen]
      refine (hbelow w₁ harena hvisited trivial).mono (fun _ _ hcut => hcut) fun _ w' htold => ?_
      have hgrown := htold.visited
      rw [hvisited] at hgrown
      exact ⟨htold.arena.trans harena, hgrown, htold.rows⟩
    · rintro _ w' ⟨harena, hvisited, hseen⟩
      refine ⟨harena, fun x hx => ?_, hseen⟩
      rcases hvisited x hx with hx | ⟨s, hs, hx⟩
      · rcases mem_cons.1 hx with rfl | hx
        · exact .inr ⟨_, .head _, by simp⟩
        · exact .inl hx
      · exact .inr ⟨_, .head _, Rose.mem_preorder_of_mem hs hx⟩

/-- **What a traversal has noted in the end.** -/
theorem Records.enterWithin {limit root : Nat} {a : Arena} (hw : a.WellFormed) (hroot : root < a.size)
    (hlimit : a.size ≤ limit) (m : ω) :
    Steps.Ends (enterWithin handle limit root (state 0)) ⟨a, [], m⟩
      (fun _ w' => stops ∧ seen w'.memory <+: seen m ++ ((a.shape root).levels 0).map row)
      fun _ w' => w'.arena = a ∧ seen w'.memory = seen m ++ ((a.shape root).levels 0).map row := by
  have hs := spans_shape hw hroot
  have htour := h.tours.enterWithin limit (i := 0) (w := ⟨a, [], m⟩) trivial hw hs
    (Nat.le_trans (hs.size_le hw) hlimit) fun _ _ hm => by cases hm
  rw [entry_shape] at htour
  have hrows : Rose.levelsAll 0 [a.shape root] = (a.shape root).levels 0 := append_nil _
  refine htour.mono (fun _ _ hcut => ?_) fun _ _ htold => ?_
  · unfold Cut at hcut
    rwa [hrows] at hcut
  · have hseen := htold.rows
    rw [hrows] at hseen
    exact ⟨htold.arena, hseen⟩

end Records

/-- The handler that notes each node with the depth it is handed, and goes on below it. -/
def noteDepth (node : NodeId) (depth : Nat) : Plan Nat (List (Nat × NodeId)) :=
  .act (fun a rows => .ok (a, rows ++ [(depth, node)])) (.descend node (depth + 1) .done)

theorem records_noteDepth : Records (planned noteDepth) id id id False := by
  intro enter depth node w E P _ hbelow
  let w₁ : World (List (Nat × NodeId)) := { w with memory := w.memory ++ [(depth, node)] }
  refine .bind (P := fun _ w' => w' = w₁) (rfl : w₁ = w₁) ?_
  rintro _ _ rfl
  rw [Plan.run_descend]
  exact .bind (hbelow w₁ rfl rfl rfl) fun _ _ hP => hP

theorem climb_levels {a : Arena} (hw : a.WellFormed) {s : Rose Nat} (hs : a.Spans s) (depth : Nat) :
    ∀ r ∈ s.levels depth, ∃ k, r.1 = depth + k ∧
      (fun node : Option NodeId => node.bind a.parent?)^[k] (some r.2) = some s.entry := by
  induction s using Rose.induction generalizing depth with
  | node id ss ih =>
    intro r hr
    rw [Rose.levels, Rose.levelsAll_eq_flatMap] at hr
    rcases mem_cons.1 hr with rfl | hr
    · exact ⟨0, rfl, rfl⟩
    · obtain ⟨u, hu, hr⟩ := mem_flatMap.1 hr
      obtain ⟨k, hk, hup⟩ := ih u hu (hs.of_mem hu) (depth + 1) r hr
      refine ⟨k + 1, by omega, ?_⟩
      rw [Function.iterate_succ_apply', hup]
      exact hs.parent_of_mem hw hu

end Traversal

namespace ScopeWalk

open Traversal

variable {ω : Type}

/-- A hook that also keeps a journal of the nodes that it was called on. -/
def logged (hook : Hook ω) : Hook (ω × List NodeId) := fun node v =>
  match hook node ⟨v.arena, v.context, v.notes.1⟩ with
  | .ok flow v' => .ok flow ⟨v'.arena, v'.context, v'.notes, v.notes.2 ++ [node]⟩
  | .error e v' => .error e ⟨v'.arena, v'.context, v'.notes, v.notes.2 ++ [node]⟩

/-- The hook does with a journal what it does without, and the journal has the node. -/
theorem logged_ends (hook : Hook ω) (node : NodeId) (v : View (ω × List NodeId)) :
    Steps.Ends (logged hook node) v
      (fun e v' => hook node ⟨v.arena, v.context, v.notes.1⟩ =
        .error e ⟨v'.arena, v'.context, v'.notes.1⟩ ∧ v'.notes.2 = v.notes.2 ++ [node])
      fun flow v' => hook node ⟨v.arena, v.context, v.notes.1⟩ =
        .ok flow ⟨v'.arena, v'.context, v'.notes.1⟩ ∧ v'.notes.2 = v.notes.2 ++ [node] := by
  unfold Steps.Ends logged
  cases hook node ⟨v.arena, v.context, v.notes.1⟩ with
  | ok flow v' => exact ⟨rfl, rfl⟩
  | error e v' => exact ⟨rfl, rfl⟩

/-- The hook has the walk go on below every node and leaves the tree as it is, if it does not fail. -/
def Descends (hook : Hook ω) : Prop :=
  ∀ node v flow v', hook node v = .ok flow v' → flow = .descend ∧ v'.arena = v.arena

theorem records_logged {hook : Hook ω} (hdescends : Descends hook) :
    Records (handle (logged hook)) (fun _ => ()) (fun m => m.notes.2) Prod.snd True := by
  intro enter depth node w E P hE hbelow
  obtain ⟨hbefore, hafter, hall⟩ := hE trivial
  unfold handle
  have hopen : Steps.Ends (openScope node) w (fun _ w' => True ∧ E w'.memory.notes.2)
      fun _ w' => ∃ ctx, w' = inContext w ctx := by
    refine (openScope_ends node w).mono ?_ ?_
    · rintro e w' ⟨-, ⟨-, rfl⟩ | ⟨rfl, -⟩⟩ <;> exact ⟨trivial, hbefore⟩
    · rintro _ w' ⟨ctx, rfl, -⟩
      exact ⟨ctx, rfl⟩
  refine hopen.bind ?_
  rintro opened _ ⟨ctx, rfl⟩
  have hrun : Steps.Ends (runHook (logged hook) node) (inContext w ctx)
      (fun _ w' => True ∧ E w'.memory.notes.2)
      fun flow w' => flow = .descend ∧ w'.arena = w.arena ∧ w'.visited = w.visited ∧
        w'.memory.notes.2 = w.memory.notes.2 ++ [node] := by
    refine (runHook_ends (logged hook) node (inContext w ctx)).mono ?_ ?_
    · rintro e _ ⟨v, hv, rfl⟩
      obtain ⟨-, hseen⟩ := (logged_ends hook node _).of_eq_error hv
      exact ⟨trivial, hseen ▸ hafter⟩
    · rintro flow _ ⟨v, hv, rfl⟩
      obtain ⟨hhook, hseen⟩ := (logged_ends hook node _).of_eq_ok hv
      obtain ⟨hflow, harena⟩ := hdescends _ _ _ _ hhook
      exact ⟨hflow, harena, rfl, hseen⟩
  refine hrun.bind ?_
  rintro _ w₁ ⟨rfl, harena, hvisited, hseen⟩
  refine thenAlways_ends (hbelow w₁ harena hvisited hseen) (fun _ w₂ hP => ?_) fun _ w₂ hcut => ?_
  · refine (close_ends opened w₂).mono ?_ ?_
    · rintro _ _ ⟨ctx, rfl⟩
      exact ⟨trivial, hall _ _ _ hP⟩
    · rintro _ _ ⟨ctx, rfl⟩
      exact hP
  · refine (close_ends opened w₂).mono ?_ ?_
    · rintro _ _ ⟨ctx, rfl⟩
      exact hcut
    · rintro _ _ ⟨ctx, rfl⟩
      exact hcut

end ScopeWalk

open Arena Traversal ScopeWalk

section Ways

variable {a : Arena} {root limit : Nat} (hw : a.WellFormed) (hroot : root < a.size)
include hw hroot

theorem preorder_eq_cons : a.preorder root = root :: (a.children root).flatMap a.preorder := by
  have hs := spans_children hw hroot
  rw [show a.preorder root = _ from hs.preorder_eq hw, Rose.preorder_node, hs.children_eq,
    flatMap_map]
  exact congrArg _ (flatMap_congr fun s hmem => ((hs.of_mem hmem).preorder_eq hw).symm)

theorem traverse_noteDepth (hlimit : a.size ≤ limit) : ∃ visited rows,
    traverse limit noteDepth root 0 ⟨a, [], []⟩ = .ok () ⟨a, visited, rows⟩ ∧
      rows.map Prod.snd = a.preorder root ∧ ∀ r ∈ rows,
        (fun node : Option NodeId => node.bind a.parent?)^[r.1] (some r.2) = some root := by
  have hends := records_noteDepth.enterWithin hw hroot hlimit []
  cases hrun : traverse limit noteDepth root 0 ⟨a, [], []⟩ with
  | error e w => exact (hends.of_eq_error hrun).1.elim
  | ok u w =>
    obtain ⟨harena, hrows⟩ := hends.of_eq_ok hrun
    have hmemory : w.memory = (a.shape root).levels 0 := hrows.trans (map_id _)
    refine ⟨w.visited, w.memory, by rw [← harena], ?_, fun r hr => ?_⟩
    · rw [hmemory, Rose.map_snd_levels]
      rfl
    · rw [hmemory] at hr
      obtain ⟨k, hk, hup⟩ := climb_levels hw (spans_shape hw hroot) 0 r hr
      rw [hk, Nat.zero_add, hup, entry_shape]

theorem walkScopes_logged {ω : Type} {hook : Hook ω} (hdescends : Descends hook)
    (hlimit : a.size ≤ limit) (ctx : Context) (notes : ω) :
    Steps.Ends (walkScopes limit (logged hook) root) ⟨a, ctx, notes, []⟩
      (fun _ v' => v'.notes.2 <+: a.preorder root) fun _ v' => v'.notes.2 = a.preorder root := by
  have hends := (records_logged hdescends).enterWithin hw hroot hlimit ⟨ctx.pushScope, notes, []⟩
  rw [Rose.map_snd_levels] at hends
  refine walkScopes_ends ((hends.mono (fun _ _ h => h.2) fun _ _ h => h.2).bind fun _ w hseen => ?_)
  -- the scope of the walk itself is closed in the end
  refine (close_ends true w).mono ?_ ?_
  · rintro _ _ ⟨ctx, rfl⟩
    exact hseen ▸ prefix_refl _
  · rintro _ _ ⟨ctx, rfl⟩
    exact hseen

end Ways

/-- **The ways through a tree agree.** The preorder of a subtree has each of its nodes once, a node
before those below it. A walk shows the nodes in this order; it gets to the end if the walker never
fails, and otherwise stops behind the node at which the walker fails. A traversal that notes each node
and goes on below it notes them in this order, with the number of steps up to the root as depth. The
nodes of one kind are listed in this order. A scope walk whose hook goes on below every node calls it
on them in this order, up to some node if the walk fails. -/
theorem traversals_agree {a : Arena} (hw : a.WellFormed) {root : Nat} (hroot : root < a.size) :
    ((a.preorder root).Nodup ∧ (∀ x : Nat, x ∈ a.preorder root ↔ a.Under x root) ∧
        a.preorder root = root :: (a.children root).flatMap a.preorder) ∧
      (∀ (μ : Type) (look : NodeId → Steps μ Unit) (m : μ),
        Steps.Ends (walk a root (journaled look)) (m, []) (StoppedAt look m [] (a.preorder root))
          fun _ s => s.2 = a.preorder root ∧ (a.preorder root).forM look m = .ok () s.1) ∧
      (∀ (μ : Type) (look : NodeId → Steps μ Unit) (m : μ), (∀ x m, ∃ m', look x m = .ok () m') →
        ∃ m', walk a root (journaled look) (m, []) = .ok () (m', a.preorder root)) ∧
      (∀ limit, a.size ≤ limit → ∃ visited rows,
        traverse limit noteDepth root 0 ⟨a, [], []⟩ = .ok () ⟨a, visited, rows⟩ ∧
          rows.map Prod.snd = a.preorder root ∧ ∀ r ∈ rows,
            (fun node : Option NodeId => node.bind a.parent?)^[r.1] (some r.2) = some root) ∧
      (∀ kind, a.ofKind root kind = (a.preorder root).filter (a.kind · == kind)) ∧
      ∀ (ω : Type) (hook : Hook ω) (limit : Nat) (ctx : Context) (notes : ω), Descends hook →
        a.size ≤ limit →
        Steps.Ends (walkScopes limit (logged hook) root) ⟨a, ctx, notes, []⟩
          (fun _ v' => v'.notes.2 <+: a.preorder root) fun _ v' => v'.notes.2 = a.preorder root := by
  have hs := spans_shape hw hroot
  have hwalk : ∀ (μ : Type) (look : NodeId → Steps μ Unit) (m : μ),
      Steps.Ends (walk a root (journaled look)) (m, []) (StoppedAt look m [] (a.preorder root))
        fun _ s => s.2 = a.preorder root ∧ (a.preorder root).forM look m = .ok () s.1 := by
    intro μ look m
    rw [walk_eq_forM]
    exact forM_journaled look (a.preorder root) m []
  refine ⟨⟨hs.nodup hw, fun x => (hs.mem_preorder hw).trans (by rw [entry_shape]),
    preorder_eq_cons hw hroot⟩, hwalk, fun μ look m hnever => ?_,
    fun limit hlimit => traverse_noteDepth hw hroot hlimit,
    fun kind => ofKind_eq_filter a root kind,
    fun ω hook limit ctx notes hdescends hlimit => walkScopes_logged hw hroot hdescends hlimit ctx notes⟩
  -- a walk stops only where the walker fails, and this one never does
  cases hrun : walk a root (journaled look) (m, []) with
  | ok u s =>
    obtain ⟨m', seen⟩ := s
    obtain ⟨rfl, -⟩ := (hwalk μ look m).of_eq_ok hrun
    exact ⟨m', rfl⟩
  | error e s =>
    obtain ⟨_, x, _, -, -, m', -, hx⟩ := (hwalk μ look m).of_eq_error hrun
    obtain ⟨m'', hok⟩ := hnever x m'
    cases hok.symm.trans hx

theorem traversals_agree_family : family.preorder 0 = [0, 1, 4, 2, 3] ∧ ∃ visited rows,
    traverse 5 noteDepth 0 0 ⟨family, [], []⟩ = .ok () ⟨family, visited, rows⟩ ∧
      rows.map Prod.snd = [0, 1, 4, 2, 3] := by
  have hw : family.WellFormed := Arena.wellFormed_empty.run (by decide)
  have hpreorder : family.preorder 0 = [0, 1, 4, 2, 3] := by decide +kernel
  obtain ⟨-, -, -, htraverse, -⟩ := traversals_agree hw (by decide : (0 : Nat) < family.size)
  obtain ⟨visited, rows, hrun, hrows, -⟩ := htraverse 5 (by decide)
  exact ⟨hpreorder, visited, rows, hrun, hrows.trans hpreorder⟩

end VecLang
