import Mathlib.Data.List.Nodup
import VecLang.Proofs.Arena.Runs
import VecLang.Proofs.Steps
import VecLang.Traversal.Basic

/-!
# Each node is handled once

Handler and traversal call each other, the tree changes under them, and a handler may go on
below any node as often as it likes, also where that has failed. That no node is handled twice
rests on the set of handled nodes alone, as long as the handler has none of them forgotten.

The handler is run together with a copy of itself that also keeps a journal of the nodes it was
handed (`recorded`). Both runs are followed at once, each with a bound of its own (`Alongside`):
the journal is what was handled, and the handler alone does the same. If the number of nodes is
fixed, then each node that is handled leaves one less, so no bound above that number is met.

* `Plan.Stays`: plans that forget nothing, and that make no nodes where their number is capped.
* `run_alongside`: the step, for one plan.
* `enterWithin_alongside`: the run, for all nodes that are entered.
* `traverse_handles_once`: **no node is handled twice; without new nodes, there are no more calls
  than nodes, and the traversal ends.**
-/

namespace VecLang.Traversal

open List

variable {σ ω α β : Type} {r : EStateM.Result Error (World (ω × List NodeId)) α}
  {r' : EStateM.Result Error (World ω) α}

/-- Where the number of nodes is capped, the arena is well formed and has as many. -/
def Capped (cap : Option Nat) (a : Arena) : Prop := ∀ n ∈ cap, a.WellFormed ∧ a.size = n

/-- **The plan forgets no node**: it neither releases nor splices. Where the number of nodes is
capped, it also makes none, edits keep the arena well formed, and it goes on below nodes of the
arena only. -/
def Plan.Stays (cap : Option Nat) : Plan σ ω → Prop
  | done => True
  | fail _ => True
  | act change next =>
    (∀ a m b m', Capped cap a → change a m = .ok (b, m') → Capped cap b) ∧ next.Stays cap
  | ask next => ∀ a handled m, Capped cap a → (next a handled m).Stays cap
  | descendThen node _ next => (∀ n ∈ cap, node < n) ∧ ∀ failure, (next failure).Stays cap
  | spliceThen .. => False
  | release .. => False

/-- A change for a memory with a journal, which it does not touch. -/
def besideJournal (change : Arena → ω → Except Error (Arena × ω)) (a : Arena)
    (m : ω × List NodeId) : Except Error (Arena × ω × List NodeId) :=
  (change a m.1).map fun r => (r.1, r.2, m.2)

/-- A plan for a memory with a journal, which it does not touch. -/
def Plan.besideJournal : Plan σ ω → Plan σ (ω × List NodeId)
  | done => done
  | fail e => fail e
  | act change next => act (Traversal.besideJournal change) next.besideJournal
  | ask next => ask fun a handled m => (next a handled m.1).besideJournal
  | descendThen node state next => descendThen node state fun failure => (next failure).besideJournal
  | spliceThen old new next => spliceThen old new fun failure => (next failure).besideJournal
  | release node next => release node next.besideJournal

/-- **The handler that first enters each node it is handed into the journal.** -/
def recorded (plan : NodeId → σ → Plan σ ω) (node : NodeId) (state : σ) :
    Plan σ (ω × List NodeId) :=
  .act (fun a m => .ok (a, m.1, m.2 ++ [node])) (plan node state).besideJournal

def World.unrecorded (w : World (ω × List NodeId)) : World ω := ⟨w.arena, w.visited, w.memory.1⟩

def unrecorded : EStateM.Result Error (World (ω × List NodeId)) α →
    EStateM.Result Error (World ω) α
  | .ok x w => .ok x w.unrecorded
  | .error e w => .error e w.unrecorded

/-- The nodes that the handler was handed in a run, in order, also if the run has failed. -/
def handledIn : EStateM.Result Error (World (ω × List NodeId)) α → List NodeId
  | .ok _ w => w.memory.2
  | .error _ w => w.memory.2

/-- **The two runs stand side by side**: the journal of the first has the nodes handled so far, each
once. Where the number of nodes is capped, at most `left` of them were not handled yet. -/
structure Alongside (cap : Option Nat) (left : Nat) (w : World (ω × List NodeId)) (w' : World ω) :
    Prop where
  same : w.unrecorded = w'
  journal : w.memory.2 = w.visited.reverse
  nodup : w.visited.Nodup
  capped : Capped cap w.arena
  lt : ∀ n ∈ cap, ∀ x ∈ w.visited, x < n
  left : ∀ n ∈ cap, n ≤ w.visited.length + left

/-- The runs come to the same end side by side. Neither of them is stopped. -/
abbrev Ended (cap : Option Nat) (left : Nat) :
    EStateM.Result Error (World (ω × List NodeId)) α → EStateM.Result Error (World ω) α → Prop :=
  Steps.Together (fun _ => False) (Alongside cap left)

variable {cap : Option Nat} {left : Nat} {w : World (ω × List NodeId)} {w' : World ω}

/-- What follows goes on side by side, whether the runs have failed or not. -/
theorem Ended.attempt {x : Steps (World (ω × List NodeId)) Unit} {y : Steps (World ω) Unit}
    {next : Option Error → Steps (World (ω × List NodeId)) Unit}
    {next' : Option Error → Steps (World ω) Unit} (h : Ended cap left (x w) (y w'))
    (hnext : ∀ failure v v', Alongside cap left v v' → Ended cap left (next failure v) (next' failure v')) :
    Ended cap left (Traversal.attempt x next w) (Traversal.attempt y next' w') := by
  unfold Traversal.attempt
  generalize x w = r at h
  generalize y w' = r' at h
  cases h with
  | ok h => exact hnext _ _ _ h
  | error h => exact hnext _ _ _ h
  | stopped h => exact h.elim

theorem Ended.unrecorded_eq (h : Ended cap left r r') : unrecorded r = r' := by
  cases h with
  | ok h => exact congrArg (EStateM.Result.ok _) h.same
  | error h => exact congrArg (EStateM.Result.error _) h.same
  | stopped h => exact h.elim

theorem Ended.handledIn {P : List NodeId → Prop} (h : Ended cap left r r')
    (hP : ∀ v (v' : World ω), Alongside cap left v v' → P v.memory.2) : P (handledIn r) := by
  cases h with
  | ok h => exact hP _ _ h
  | error h => exact hP _ _ h
  | stopped h => exact h.elim

namespace Alongside

section

variable (h : Alongside cap left w w')
include h

theorem mono {more : Nat} (hle : left ≤ more) : Alongside cap more w w' :=
  ⟨h.same, h.journal, h.nodup, h.capped, h.lt, fun n hn => Nat.le_trans (h.left n hn) (by omega)⟩

theorem views : w'.arena = w.arena ∧ w'.visited = w.visited ∧ w'.memory = w.memory.1 := by
  rw [← h.same]
  exact ⟨rfl, rfl, rfl⟩

theorem pos_of_not_mem {n node : Nat} (hn : n ∈ cap) (hlt : node < n) (hnew : node ∉ w.visited) :
    0 < left := by
  have hlength := Arena.length_le_of_nodup (nodup_cons.2 ⟨hnew, h.nodup⟩)
    (forall_mem_cons.2 ⟨hlt, h.lt n hn⟩)
  have hleft := h.left n hn
  rw [length_cons] at hlength
  omega

theorem enter {node : Nat} (hnew : node ∉ w.visited) (hnode : ∀ n ∈ cap, node < n) :
    Alongside cap (left - 1)
      { w with visited := node :: w.visited, memory := (w.memory.1, w.memory.2 ++ [node]) }
      { w' with visited := node :: w'.visited } := by
  obtain ⟨harena, hvisited, hmemory⟩ := h.views
  refine ⟨?_, ?_, nodup_cons.2 ⟨hnew, h.nodup⟩, h.capped, fun n hn x hx => ?_, fun n hn => ?_⟩
  · rw [harena, hvisited, hmemory]
    rfl
  · rw [h.journal, reverse_cons]
  · rcases mem_cons.1 hx with rfl | hx
    · exact hnode n hn
    · exact h.lt n hn x hx
  · have hleft := h.left n hn
    have hpos := h.pos_of_not_mem hn (hnode n hn) hnew
    rw [length_cons]
    omega

end

end Alongside

section Parts

variable {ω' : Type} {S : Error → Prop} {G : World ω → World ω' → Prop} {N : NodeId → Prop}
  {enter : Enter σ ω} {enter' : Enter σ ω'} {w : World ω} {w' : World ω'}

/-- Entering a node of which `N` holds keeps the runs together. -/
def Paired (S : Error → Prop) (G : World ω → World ω' → Prop) (N : NodeId → Prop)
    (enter : Enter σ ω) (enter' : Enter σ ω') : Prop :=
  ∀ ⦃node : NodeId⦄ ⦃w w'⦄ (state : σ), N node → G w w' →
    Steps.Together S G (enter node state w) (enter' node state w')

/-- Worlds as `G` says show the same tree and the same handled nodes, and `N` holds of what has a
parent there. -/
def Shares (G : World ω → World ω' → Prop) (N : NodeId → Prop) : Prop :=
  ∀ ⦃w w'⦄, G w w' → w'.arena = w.arena ∧ w'.visited = w.visited ∧
    ∀ node parent, w.arena.parent? node = some parent → N node

/-- A child is entered only if it still has its parent, so it is a node of the arena. -/
theorem enterChildren_together (henter : Paired S G N enter enter') (hG : Shares G N)
    (parent : NodeId) (state : σ) (nodes : List NodeId) (h : G w w') :
    Steps.Together S G (enterChildren enter parent state nodes w)
      (enterChildren enter' parent state nodes w') := by
  induction nodes generalizing w w' with
  | nil => exact .ok h
  | cons node nodes ih =>
    obtain ⟨harena, -, hN⟩ := hG h
    rw [enterChildren, enterChildren]
    refine .get_bind ?_
    rw [harena]
    by_cases hparent : w.arena.parent? node = some parent
    · rw [if_pos hparent, if_pos hparent]
      exact (henter state (hN node parent hparent) h).bind fun _ _ _ hv => ih hv
    · rw [if_neg hparent, if_neg hparent]
      exact ih h

theorem descend_together (henter : Paired S G N enter enter') (hG : Shares G N) {node : NodeId}
    (state : σ) (hnode : N node) (h : G w w') :
    Steps.Together S G (descend enter node state w) (descend enter' node state w') := by
  obtain ⟨harena, hvisited, -⟩ := hG h
  unfold descend
  refine .get_bind ?_
  rw [harena, hvisited]
  split
  · exact enterChildren_together henter hG node state _ h
  · exact henter state hnode h

end Parts

/-- The nodes that are allowed where their number is capped. -/
def Within (cap : Option Nat) (node : NodeId) : Prop := ∀ n ∈ cap, node < n

theorem shares_alongside : Shares (Alongside (ω := ω) cap left) (Within cap) := fun _ _ h =>
  ⟨h.views.1, h.views.2.1, fun _ _ hparent n hn =>
    (h.capped n hn).2 ▸ Arena.lt_size_of_parent hparent⟩

variable {enter : Enter σ (ω × List NodeId)} {enter' : Enter σ ω}

/-- **One plan**: what it does to the tree and the memory does not touch the handled nodes. -/
theorem run_alongside
    (henter : Paired (fun _ => False) (Alongside cap left) (Within cap) enter enter')
    {plan : Plan σ ω} (hplan : plan.Stays cap) (h : Alongside cap left w w') :
    Ended cap left (plan.besideJournal.run enter w) (plan.run enter' w') := by
  induction plan generalizing w w' with
  | done => exact .ok h
  | fail e => exact .error h
  | act f next ih =>
    have hchange : Ended cap left (change (Traversal.besideJournal f) w) (change f w') := by
      obtain ⟨harena, hvisited, hmemory⟩ := h.views
      unfold change Traversal.besideJournal
      refine .get_bind ?_
      rw [harena, hmemory]
      cases hf : f w.arena w.memory.1 with
      | error e => exact .error h
      | ok r =>
        refine .ok ⟨?_, h.journal, h.nodup, hplan.1 _ _ _ _ h.capped hf, h.lt, h.left⟩
        rw [hvisited]
        rfl
    exact hchange.bind fun _ _ _ hv => ih hplan.2 hv
  | ask next ih =>
    obtain ⟨harena, hvisited, hmemory⟩ := h.views
    change Steps.Together _ _ ((next w.arena _ w.memory.1).besideJournal.run enter w)
      ((next w'.arena _ w'.memory).run enter' w')
    rw [harena, hvisited, hmemory]
    exact ih _ _ _ (hplan _ _ _ h.capped) h
  | descendThen node state next ih =>
    have hbelow := descend_together henter shares_alongside state hplan.1 h
    exact Ended.attempt hbelow fun failure _ _ hv => ih failure (hplan.2 failure) hv
  | spliceThen old new next => exact hplan.elim
  | release node next => exact hplan.elim

/-- **All nodes that are entered**, by induction on how deep they may be. The bounds of the two runs
are the same, or both above the number of nodes that are left. -/
theorem enterWithin_alongside {plan : NodeId → σ → Plan σ ω}
    (hplan : ∀ node state, (∀ n ∈ cap, node < n) → (plan node state).Stays cap) {limit limit' : Nat}
    (hlimit : limit = limit' ∨ cap.isSome ∧ left < limit ∧ left < limit') :
    Paired (fun _ => False) (Alongside cap left) (Within cap)
      (enterWithin (planned (recorded plan)) limit) (enterWithin (planned plan) limit') := by
  induction limit generalizing limit' left with
  | zero =>
    intro node w w' state _ h
    obtain rfl : 0 = limit' := by omega
    exact .error h
  | succ limit ih =>
    intro node w w' state hnode h
    obtain ⟨limit', rfl⟩ : ∃ k, limit' = k + 1 := ⟨limit' - 1, by omega⟩
    rw [enterWithin, enterWithin]
    refine .get_bind ?_
    rw [h.views.2.1]
    by_cases hseen : w.visited.contains node = true
    · rw [if_pos hseen, if_pos hseen]
      exact .ok h
    · rw [if_neg hseen, if_neg hseen]
      have hnew : node ∉ w.visited := fun hm => hseen (contains_iff_mem.2 hm)
      have hinner : limit = limit' ∨ cap.isSome ∧ left - 1 < limit ∧ left - 1 < limit' := by
        rcases hlimit with heq | ⟨hcap, hlt, hlt'⟩
        · exact .inl (Nat.succ.inj heq)
        · obtain ⟨n, hn⟩ := Option.isSome_iff_exists.1 hcap
          have hpos := h.pos_of_not_mem hn (hnode n hn) hnew
          exact .inr ⟨hcap, by omega, by omega⟩
      exact (run_alongside (ih hinner) (hplan node state hnode) (h.enter hnew hnode)).mono
        fun _ _ hv => hv.mono (Nat.sub_le left 1)

section Traversal

variable {plan : NodeId → σ → Plan σ ω} {a : Arena} {root : NodeId} {m : ω}

/-- **A traversal handles each node at most once.** Let the handler edit the tree and go on below
any nodes with any states, also behind a failure, but have no node forgotten. Then for every bound on the depth the
handler alone does what it does with a journal, and the journal has no node twice. If moreover
the handler makes no nodes and the traversal starts inside the arena, then the handler is called at
most as often as there are nodes, and all bounds above their number lead to the same end: the
traversal without a bound comes to it. -/
theorem traverse_handles_once (hplan : ∀ node state, (plan node state).Stays none) (limit : Nat)
    (a : Arena) (root : NodeId) (state : σ) (m : ω) :
    unrecorded (traverse limit (recorded plan) root state ⟨a, [], m, []⟩) =
        traverse limit plan root state ⟨a, [], m⟩ ∧
      (handledIn (traverse limit (recorded plan) root state ⟨a, [], m, []⟩)).Nodup ∧
      (a.WellFormed → root < a.size → (∀ node < a.size, ∀ state, (plan node state).Stays (some a.size)) →
        (handledIn (traverse limit (recorded plan) root state ⟨a, [], m, []⟩)).length ≤ a.size ∧
        (a.size < limit → ∀ limit', a.size < limit' →
          traverse limit' plan root state ⟨a, [], m⟩ = traverse limit plan root state ⟨a, [], m⟩)) := by
  -- the run with a journal and the one without go on side by side, whatever the cap
  have hstart : ∀ {cap : Option Nat}, Capped cap a →
      Alongside cap a.size ⟨a, [], m, []⟩ ⟨a, [], m⟩ := fun hcapped =>
    ⟨rfl, rfl, nodup_nil, hcapped, fun _ _ => forall_mem_nil _,
      fun n hn => (hcapped n hn).2 ▸ Nat.le_add_left _ _⟩
  have hend : Ended none a.size
      (traverse limit (recorded plan) root state ⟨a, [], m, []⟩)
      (traverse limit plan root state ⟨a, [], m⟩) :=
    enterWithin_alongside (fun node state _ => hplan node state) (.inl rfl) state (by simp [Within])
      (hstart fun _ hn => by cases hn)
  refine ⟨hend.unrecorded_eq, hend.handledIn fun _ _ h => ?_, fun hw hroot hstays => ?_⟩
  · rw [h.journal, nodup_reverse]
    exact h.nodup
  -- capped by the nodes there are, each call leaves fewer that were not handled
  have hcapped : Capped (some a.size) a := by
    rintro n ⟨⟩
    exact ⟨hw, rfl⟩
  have hplans : ∀ node state, (∀ n ∈ some a.size, node < n) → (plan node state).Stays (some a.size) :=
    fun node state hnode => hstays node (hnode _ rfl) state
  have hruns : ∀ {limit limit' : Nat}, limit = limit' ∨ a.size < limit ∧ a.size < limit' →
      Ended (some a.size) a.size
        (traverse limit (recorded plan) root state ⟨a, [], m, []⟩)
        (traverse limit' plan root state ⟨a, [], m⟩) := fun hlimit =>
    enterWithin_alongside hplans (hlimit.imp_right fun h => ⟨rfl, h⟩) state (by simpa [Within] using hroot)
      (hstart hcapped)
  refine ⟨(hruns (.inl rfl)).handledIn (P := (·.length ≤ a.size)) fun _ _ h => ?_, fun hlimit limit' hlimit' => ?_⟩
  · rw [h.journal, length_reverse]
    exact Arena.length_le_of_nodup h.nodup (h.lt a.size rfl)
  rw [← (hruns (.inr ⟨hlimit, hlimit'⟩)).unrecorded_eq, (hruns (.inl rfl)).unrecorded_eq]

end Traversal

/-- A handler that fails at node 4. Elsewhere it goes on below the parent of its node, moves node 3
below its node if that is possible, and then goes on below its node twice, whatever comes of that. -/
def restless (node : NodeId) (_ : Unit) : Plan Unit Unit :=
  if node = 4 then .fail (.semantic .noProgram)
  else .ask fun a _ _ => .descendThen ((a.parent? node).getD node) () fun _ =>
    .act (fun a m => .ok ((Arena.Edit.push node (.node 3)).run a, m))
      (.descendThen node () fun _ => .descendThen node () fun _ => .done)

theorem restless_stays {node : Nat} (hnode : ∀ n ∈ cap, node < n ∧ 3 < n) :
    (restless node ()).Stays cap := by
  unfold restless
  split
  · trivial
  intro a _ _ ha
  refine ⟨fun n hn => ?_, fun _ => ⟨fun a m b m' ha h n hn => ?_, fun n hn => (hnode n hn).1,
    fun _ => ⟨fun n hn => (hnode n hn).1, fun _ => trivial⟩⟩⟩
  · obtain ⟨hw, rfl⟩ := ha n hn
    cases hp : a.parent? node with
    | none => exact (hnode _ hn).1
    | some p => exact hw.parent_lt hp
  · cases h
    obtain ⟨hw, rfl⟩ := ha n hn
    obtain ⟨hlt, hmoved⟩ := hnode _ hn
    refine ⟨hw.edit _ (by simp [Arena.Edit.nodes, hlt, hmoved]), ?_⟩
    unfold Arena.Edit.run
    split
    · next b hb =>
      obtain ⟨r, hpush, hr⟩ := Except.bind_eq_ok.1 hb
      obtain ⟨b', hmove, hb'⟩ := Except.bind_eq_ok.1 hpush
      cases hb'
      cases hr
      exact (Arena.pushNode_moved hw hlt hmoved hmove).2.size
    · rfl

/-- Three children below a root, and one more below the first. -/
def family : Arena :=
  Arena.run {} [.add default, .push 0 (.ident "a"), .push 0 (.ident "b"), .push 0 (.ident "c"),
    .push 1 (.ident "d")]

/-- The second child is reached from inside the first, and takes the third one away. -/
theorem restless_handles_once :
    handledIn (traverse 6 (recorded restless) 0 () ⟨family, [], (), []⟩) = [0, 1, 2, 3, 4] ∧
      (handledIn (traverse 6 (recorded restless) 0 () ⟨family, [], (), []⟩)).Nodup ∧
      traverse 100 restless 0 () ⟨family, [], ()⟩ = traverse 6 restless 0 () ⟨family, [], ()⟩ := by
  have hw : family.WellFormed := Arena.wellFormed_empty.run (by decide)
  obtain ⟨-, hnodup, hcapped⟩ := @traverse_handles_once _ _ restless
    (fun node _ => restless_stays fun _ hn => by cases hn) 6 family 0 () ()
  refine ⟨by decide +kernel, hnodup, (hcapped hw (by decide) fun node hnode _ => ?_).2 (by decide) 100
    (by decide)⟩
  refine restless_stays fun n hn => ?_
  cases hn
  exact ⟨hnode, by decide⟩

end VecLang.Traversal
