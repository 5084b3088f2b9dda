import VecLang.Proofs.Arena.Rewrite
import VecLang.Traversal.Basic

/-!
# Walks

A walk comes to every node below its root. One that is after the children of the root alone has
to tell them from the nodes further down, by their parents.

* `walk_eq_forM`: a walk shows the nodes of the subtree one after the other.
* `walk_children`: **a walker that passes over all but the children of the root is shown them once
  each, in order.**
-/

namespace VecLang.Traversal

open Arena List

variable {μ : Type} {a : Arena} {root : Nat}

/-- **A walk shows the nodes in preorder**, until it fails. -/
theorem walk_eq_forM (a : Arena) (root : NodeId) (look : NodeId → Steps μ Unit) :
    walk a root look = (a.preorder root).forM look := by
  unfold walk preorder shape
  generalize a.size = limit
  induction limit generalizing root with
  | zero => simp [walkWithin, shapeWithin]
  | succ limit ih =>
    have hbelow : ∀ nodes : List NodeId, nodes.forM (walkWithin a look limit) =
        (nodes.flatMap fun node => (a.shapeWithin limit node).preorder).forM look := by
      intro nodes
      induction nodes with
      | nil => rfl
      | cons node nodes ihn =>
        rw [forM_eq_forM] at ih ihn ⊢
        rw [forM_cons, flatMap_cons, forM_append, ih node, ihn]
    rw [walkWithin, shapeWithin, Rose.preorder_node, flatMap_map, hbelow]
    rfl

/-- **The children of a node are those below it that have it as their parent.** A node further down
has its parent inside the subtree of a child. -/
theorem filter_parent_preorder (hw : a.WellFormed) (hroot : root < a.size) :
    (a.preorder root).filter (a.parent? · = some root) = a.children root := by
  have hs := spans_children hw hroot
  have htop : ¬ a.parent? root = some root := fun h => hw.not_under_of_parent h (.refl _)
  rw [show a.preorder root = _ from hs.preorder_eq hw, hs.children_eq, Rose.preorder_node,
    filter_cons_of_neg (by simpa using htop), filter_flatMap, map_eq_flatMap]
  refine flatMap_congr fun s hmem => ?_
  obtain ⟨c, ss⟩ := s
  have hc : a.parent? c = some root := hs.parent_of_mem hw hmem
  have hspans := hs.of_mem hmem
  have hnodup := hspans.nodup hw
  rw [Rose.preorder_node] at hnodup
  rw [Rose.preorder_node, filter_cons_of_pos (by simpa using hc)]
  refine congrArg (c :: ·) (filter_eq_nil_iff.2 fun x hx hp => ?_)
  have hne : x ≠ c := fun h => (nodup_cons.1 hnodup).1 (h ▸ hx)
  exact hs.not_mem_child hw hmem
    (hspans.parent_mem hw (by rw [Rose.preorder_node]; exact .tail _ hx) hne (by simpa using hp))

theorem walk_children (hw : a.WellFormed) (hroot : root < a.size) (item : NodeId → Steps μ Unit) :
    walk a root (fun node => if a.parent? node = some root then item node else pure ()) =
      (a.children root).forM item := by
  rw [walk_eq_forM, ← filter_parent_preorder hw hroot]
  generalize a.preorder root = nodes
  induction nodes with
  | nil => rfl
  | cons node nodes ih =>
    rw [forM_eq_forM] at ih ⊢
    rw [forM_cons, ih]
    by_cases hp : a.parent? node = some root
    · rw [if_pos hp, filter_cons_of_pos (by simpa using hp)]
      rfl
    · rw [if_neg hp, filter_cons_of_neg (by simpa using hp)]
      rfl

end VecLang.Traversal
