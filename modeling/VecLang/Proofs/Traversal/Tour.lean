import VecLang.Proofs.Arena.Rewrite
import VecLang.Proofs.Steps
import VecLang.Traversal.Basic

/-!
# Tours

A handler tours a tree if it leaves the tree as it is and goes on below its node, once. What
comes of such a traversal can be told from the subtrees alone, node by node and one list of
children after the other: the set of handled nodes lets every node pass, each child still has its
parent, and the bound on the depth is not met.

* `Tours`: what a handler does with one node, given what becomes of the nodes below.
* `Tours.enterWithin`: what becomes of a whole subtree.
-/

namespace VecLang.Traversal

open Arena

variable {σ ω ι : Type}

/-- **The handler tours.** What comes of entering subtrees one after the other is `P` if that
succeeds and `E` if it fails, which may depend on a place: `down` tells the place below a node and
`next` the one behind a subtree. -/
structure Tours (handle : Handler σ ω) (state : ι → σ) (A : World ω → Prop)
    (down : World ω → NodeId → ι → ι) (next : ι → ι)
    (E P : ι → World ω → List (Rose Nat) → World ω → Prop) : Prop where
  state_next : ∀ i, state (next i) = state i
  arena : ∀ {i w ss w'}, P i w ss w' → w'.arena = w.arena
  visited : ∀ {i w ss w'}, P i w ss w' →
    ∀ x ∈ w'.visited, x ∈ w.visited ∨ ∃ s ∈ ss, x ∈ s.preorder
  keeps : ∀ {i w ss w'}, A w → P i w ss w' → A w'
  nil : ∀ {i w}, P i w [] w
  cons : ∀ {i w s w₁ post w'}, P i w [s] w₁ → P (next i) w₁ post w' → P i w (s :: post) w'
  head : ∀ {i w s w'} post, E i w [s] w' → E i w (s :: post) w'
  tail : ∀ {i w s w₁ post w'}, P i w [s] w₁ → E (next i) w₁ post w' → E i w (s :: post) w'
  node : ∀ {enter i w id ss}, A w → w.arena.WellFormed → w.arena.Spans (.node id ss) →
    (∀ w₁, w₁.arena = w.arena → w₁.visited = id :: w.visited → A w₁ →
      Steps.Ends (descend enter id (state (down w id i))) w₁ (fun _ => E (down w id i) w₁ ss)
        fun _ => P (down w id i) w₁ ss) →
    Steps.Ends (handle enter id (state i)) { w with visited := id :: w.visited }
      (fun _ => E i w [.node id ss]) fun _ => P i w [.node id ss]

/-- Entering a subtree of at most `n` nodes tours it. -/
def Toured (state : ι → σ) (A : World ω → Prop)
    (E P : ι → World ω → List (Rose Nat) → World ω → Prop) (n : Nat) (enter : Enter σ ω) : Prop :=
  ∀ ⦃i w s⦄, A w → w.arena.WellFormed → w.arena.Spans s → s.size ≤ n →
    (∀ x ∈ s.preorder, x ∉ w.visited) →
    Steps.Ends (enter s.entry (state i)) w (fun _ => E i w [s]) fun _ => P i w [s]

namespace Tours

variable {handle : Handler σ ω} {state : ι → σ} {A : World ω → Prop}
  {down : World ω → NodeId → ι → ι} {next : ι → ι}
  {E P : ι → World ω → List (Rose Nat) → World ω → Prop} {enter : Enter σ ω} {n id : Nat}
  (h : Tours handle state A down next E P)
include h

/-- **The children of a node are toured one after the other.** -/
theorem enterChildren (henter : Toured state A E P n enter) :
    ∀ (post : List (Rose Nat)) {i : ι} {w : World ω}, A w → w.arena.WellFormed →
      (∀ s ∈ post, w.arena.Spans s ∧ w.arena.parent? s.entry = some id ∧ s.size ≤ n) →
      post.Pairwise (fun s t => t.preorder.Disjoint s.preorder) →
      (∀ s ∈ post, ∀ x ∈ s.preorder, x ∉ w.visited) →
      Steps.Ends (Traversal.enterChildren enter id (state i) (post.map Rose.entry)) w
        (fun _ => E i w post) fun _ => P i w post := by
  intro post
  induction post with
  | nil =>
    intro i w _ _ _ _ _
    exact h.nil (i := i) (w := w)
  | cons s post ih =>
    intro i w hA hw hpost hdis hfresh
    obtain ⟨hspan, hpar, hsize⟩ := hpost s (.head _)
    obtain ⟨hdis, hpairs⟩ := List.pairwise_cons.1 hdis
    rw [List.map_cons, Traversal.enterChildren]
    refine .get_bind ?_
    rw [if_pos hpar]
    have hfirst := henter (i := i) hA hw hspan hsize (hfresh s (.head _))
    refine (hfirst.mono (fun _ _ hE => h.head post hE) fun _ _ hP => hP).bind fun _ w₁ hP => ?_
    have hfresh' : ∀ u ∈ post, ∀ x ∈ u.preorder, x ∉ w₁.visited := by
      intro u hu x hx hv
      rcases h.visited hP x hv with hv | ⟨v, hvs, hv⟩
      · exact hfresh u (.tail _ hu) x hx hv
      · exact hdis u hu hx (List.mem_singleton.1 hvs ▸ hv)
    have hrest := ih (i := next i) (h.keeps hA hP) (h.arena hP ▸ hw)
      (fun u hu => h.arena hP ▸ hpost u (.tail _ hu)) hpairs hfresh'
    rw [h.state_next] at hrest
    exact hrest.mono (fun _ _ hE => h.tail hP hE) fun _ _ hP' => h.cons hP hP'

/-- **A traversal that may go at least as deep as there are nodes tours every subtree.** -/
theorem enterWithin (limit : Nat) : Toured state A E P limit (Traversal.enterWithin handle limit) := by
  induction limit with
  | zero =>
    intro i w s _ _ _ hsize
    obtain ⟨id, ss⟩ := s
    rw [Rose.size] at hsize
    omega
  | succ limit ih =>
    intro i w s hA hw hs hsize hfresh
    have hnot : ¬ w.visited.contains s.entry = true := fun hm =>
      hfresh _ s.entry_mem_preorder (List.contains_iff_mem.1 hm)
    rw [Traversal.enterWithin]
    refine .get_bind ?_
    rw [if_neg hnot]
    refine .bind (P := fun _ w' => w' = { w with visited := s.entry :: w.visited })
      (Steps.ends_modify rfl) ?_
    rintro _ _ rfl
    obtain ⟨id, ss⟩ := s
    refine h.node hA hw hs fun w₁ harena hvisited hA₁ => ?_
    have hchildren : w.arena.children (Rose.node id ss).entry = ss.map Rose.entry := hs.children_eq
    refine .get_bind ?_
    rw [if_pos (List.contains_iff_mem.2 (hvisited ▸ (.head _))), harena, hchildren]
    refine h.enterChildren ih ss hA₁ (harena ▸ hw) (fun u hu => ?_) (hs.pairwise_disjoint hw)
      fun u hu x hx hv => ?_
    · have := Rose.size_le_sizeAll hu
      rw [Rose.size] at hsize
      rw [harena]
      exact ⟨hs.of_mem hu, hs.parent_of_mem hw hu, by omega⟩
    · rw [hvisited] at hv
      rcases List.mem_cons.1 hv with rfl | hv
      · exact hs.not_mem_child hw hu hx
      · exact hfresh x (Rose.mem_preorder_of_mem hu hx) hv

end Tours

end VecLang.Traversal
