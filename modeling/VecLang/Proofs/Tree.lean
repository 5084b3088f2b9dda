import VecLang.Tree.Basic

/-!
# Trees and their subtrees

Laws of rose trees that follow their recursion, and of syntax trees without their
positions.

* `Rose.induction`: induction with the hypothesis for every subtree.
* `Rose.expand`: trees in the place of nodes.
* `Rose.subtrees`: a tree and all trees below its root.
* `Tree.unplaced_node`: leaving out positions goes node by node.
-/

namespace VecLang

open List

namespace Rose

variable {α β γ : Type} {t : Rose α} {ts : List (Rose α)} {a x : α}

/-- Induction on a tree, with the hypothesis for every subtree. -/
@[elab_as_elim]
theorem induction {P : Rose α → Prop} (node : ∀ a ts, (∀ t ∈ ts, P t) → P (.node a ts)) :
    ∀ t, P t := fun t =>
  @Rose.rec α P (fun ts => ∀ t ∈ ts, P t) node (fun _ h => by cases h)
    (fun _ _ hs hss t h => (mem_cons.1 h).elim (fun e => e ▸ hs) (hss t)) t

@[simp] theorem map_node (f : α → β) (a : α) (ts : List (Rose α)) :
    map f (node a ts) = node (f a) (ts.map (map f)) := by
  rw [map, mapAll_eq_map]

@[simp] theorem preorder_node (a : α) (ts : List (Rose α)) :
    preorder (node a ts) = a :: ts.flatMap preorder := by
  rw [preorder, preorderAll_eq_flatMap]

@[simp] theorem entry_map (f : α → β) (t : Rose α) : (t.map f).entry = f t.entry := by
  cases t; simp [entry]

theorem entry_mem_preorder (t : Rose α) : t.entry ∈ t.preorder := by
  cases t; simp [entry]

theorem map_congr {f : α → β} : (∀ x ∈ t.preorder, f x = g x) → t.map f = t.map g := by
  induction t using induction with
  | node a ts ih =>
    intro h
    rw [map_node, map_node, h a (by simp)]
    congr 1
    apply map_congr_left
    intro t ht
    exact ih t ht fun x hx => h x (by simp; exact .inr ⟨t, ht, hx⟩)

theorem size_le_sizeAll (h : t ∈ ts) : t.size ≤ sizeAll ts := by
  induction ts with
  | nil => cases h
  | cons u ts ih =>
    rw [sizeAll]
    rcases mem_cons.1 h with rfl | h
    · exact Nat.le_add_right _ _
    · exact Nat.le_trans (ih h) (Nat.le_add_left _ _)

theorem map_id (t : Rose α) : t.map id = t := by
  induction t using induction with
  | node a ts ih =>
    rw [map_node, map_congr_left ih, map_id']
    rfl

theorem size_map (f : α → β) (t : Rose α) : (t.map f).size = t.size := by
  induction t using Rose.induction with
  | node a ts ih =>
    rw [map_node, size, size]
    congr 1
    induction ts with
    | nil => rfl
    | cons t ts ihs =>
      rw [map_cons, sizeAll, sizeAll, ih t (.head _),
        ihs fun u hu => ih u (.tail _ hu)]

theorem map_map (f : α → β) (g : β → γ) (t : Rose α) : (t.map f).map g = t.map (g ∘ f) := by
  induction t using induction with
  | node a ts ih =>
    simp only [map_node, List.map_map, Function.comp_apply]
    congr 1
    exact List.map_congr_left ih

theorem forall_preorder_node {P : α → Prop} (ha : P a) (hts : ∀ t ∈ ts, ∀ x ∈ t.preorder, P x) :
    ∀ x ∈ (node a ts).preorder, P x := by
  intro x hx
  rw [preorder_node, mem_cons] at hx
  rcases hx with rfl | hx
  · exact ha
  · obtain ⟨t, ht, hx⟩ := mem_flatMap.1 hx
    exact hts t ht x hx

theorem preorder_map (f : α → β) (t : Rose α) : (t.map f).preorder = t.preorder.map f := by
  induction t using induction with
  | node a ts ih =>
    rw [map_node, preorder_node, preorder_node, map_cons, flatMap_map, map_flatMap,
      flatMap_def, map_congr_left ih, flatMap_def]

theorem mem_preorder_map {f : α → β} (h : x ∈ t.preorder) : f x ∈ (t.map f).preorder := by
  rw [preorder_map]
  exact mem_map_of_mem h

theorem mem_preorder_of_mem (ht : t ∈ ts) (hx : x ∈ t.preorder) : x ∈ (node a ts).preorder := by
  rw [preorder_node]
  exact .tail _ (mem_flatMap.2 ⟨t, ht, hx⟩)

mutual

/-- The tree with `f a` in the place of each node whose entry `a` it expands, and with
`g` applied to the other entries. -/
def expand (f : α → Option (Rose β)) (g : α → β) : Rose α → Rose β
  | node a ts =>
    match f a with
    | some u => u
    | none => node (g a) (expandAll f g ts)

def expandAll (f : α → Option (Rose β)) (g : α → β) : List (Rose α) → List (Rose β)
  | [] => []
  | t :: ts => expand f g t :: expandAll f g ts

end

variable {f : α → Option (Rose β)} {g : α → β}

theorem expandAll_eq_map (ts : List (Rose α)) : expandAll f g ts = ts.map (expand f g) := by
  induction ts with
  | nil => rfl
  | cons t ts ih => rw [expandAll, ih, map_cons]

theorem expand_some {u : Rose β} (h : f a = some u) : expand f g (node a ts) = u := by
  rw [expand, h]

theorem expand_none (h : f a = none) :
    expand f g (node a ts) = node (g a) (ts.map (expand f g)) := by
  rw [expand, h, expandAll_eq_map]

theorem expand_congr {f' : α → Option (Rose β)} {g' : α → β} :
    (∀ a ∈ t.preorder, f a = f' a ∧ g a = g' a) → t.expand f g = t.expand f' g' := by
  induction t using induction with
  | node a ts ih =>
    intro h
    obtain ⟨hf, hg⟩ := h a (by simp)
    cases hfa : f a with
    | some u => rw [expand_some hfa, expand_some (hf ▸ hfa)]
    | none =>
      rw [expand_none hfa, expand_none (hf ▸ hfa), hg]
      congr 1
      exact map_congr_left fun t ht => ih t ht fun b hb => h b (mem_preorder_of_mem ht hb)

theorem expand_eq_map : (∀ a ∈ t.preorder, f a = none) → t.expand f g = t.map g := by
  induction t using induction with
  | node a ts ih =>
    intro h
    rw [expand_none (h a (by simp)), map_node]
    congr 1
    exact map_congr_left fun t ht => ih t ht fun b hb => h b (mem_preorder_of_mem ht hb)

theorem expand_expand (f' : β → Option (Rose γ)) (g' : β → γ) (t : Rose α) :
    (t.expand f g).expand f' g' =
      t.expand (fun a => ((f a).map (expand f' g')).or (f' (g a))) (g' ∘ g) := by
  induction t using induction with
  | node a ts ih =>
    cases hfa : f a with
    | some u => rw [expand_some hfa, expand_some (by rw [hfa]; rfl)]
    | none =>
      rw [expand_none hfa]
      cases hga : f' (g a) with
      | some v => rw [expand_some hga, expand_some (by rw [hfa, hga]; rfl)]
      | none =>
        rw [expand_none hga, expand_none (by rw [hfa, hga]; rfl), List.map_map]
        congr 1
        exact map_congr_left ih

theorem expand_map (h : γ → α) (t : Rose γ) : (t.map h).expand f g = t.expand (f ∘ h) (g ∘ h) := by
  have hmap : t.map h = t.expand (fun _ => none) h := (expand_eq_map fun _ _ => rfl).symm
  rw [hmap, expand_expand]
  rfl

theorem mem_preorder_expand {x : β} : x ∈ (t.expand f g).preorder →
    ∃ a ∈ t.preorder, (f a = none ∧ g a = x) ∨ ∃ u, f a = some u ∧ x ∈ u.preorder := by
  induction t using induction with
  | node a ts ih =>
    intro hx
    cases hfa : f a with
    | some u =>
      rw [expand_some hfa] at hx
      exact ⟨a, by simp, .inr ⟨u, hfa, hx⟩⟩
    | none =>
      rw [expand_none hfa, preorder_node, mem_cons] at hx
      rcases hx with rfl | hx
      · exact ⟨a, by simp, .inl ⟨hfa, rfl⟩⟩
      · obtain ⟨s, hs, hx⟩ := mem_flatMap.1 hx
        obtain ⟨t, ht, rfl⟩ := mem_map.1 hs
        obtain ⟨b, hb, h⟩ := ih t ht hx
        exact ⟨b, mem_preorder_of_mem ht hb, h⟩

mutual

/-- The tree itself and all trees below its root. -/
def subtrees : Rose α → List (Rose α)
  | node a ts => node a ts :: subtreesAll ts

def subtreesAll : List (Rose α) → List (Rose α)
  | [] => []
  | t :: ts => subtrees t ++ subtreesAll ts

end

theorem subtreesAll_eq_flatMap (ts : List (Rose α)) : subtreesAll ts = ts.flatMap subtrees := by
  induction ts with
  | nil => rfl
  | cons t ts ih => rw [subtreesAll, ih, flatMap_cons]

theorem self_mem_subtrees (t : Rose α) : t ∈ t.subtrees := by
  cases t; simp [subtrees]

theorem mem_subtrees_of_mem {u : Rose α} (ht : t ∈ ts) (hu : u ∈ t.subtrees) :
    u ∈ (node a ts).subtrees := by
  rw [subtrees, subtreesAll_eq_flatMap]
  exact .tail _ (mem_flatMap.2 ⟨t, ht, hu⟩)

theorem mem_subtrees_trans {u w : Rose α} (hu : u ∈ t.subtrees) (hw : w ∈ u.subtrees) :
    w ∈ t.subtrees := by
  induction t using Rose.induction with
  | node a ts ih =>
    rw [subtrees, subtreesAll_eq_flatMap, mem_cons] at hu
    rcases hu with rfl | hu
    · exact hw
    · obtain ⟨t, ht, hu⟩ := mem_flatMap.1 hu
      exact mem_subtrees_of_mem ht (ih t ht hu)

theorem mem_preorder_of_mem_subtrees :
    ∀ {u : Rose α}, u ∈ t.subtrees → x ∈ u.preorder → x ∈ t.preorder := by
  induction t using Rose.induction with
  | node a ts ih =>
    intro u hu hx
    rw [subtrees, subtreesAll_eq_flatMap, mem_cons] at hu
    rcases hu with rfl | hu
    · exact hx
    · obtain ⟨t, ht, hu⟩ := mem_flatMap.1 hu
      exact mem_preorder_of_mem ht (ih t ht hu hx)

end Rose

namespace Tree

@[simp] theorem unplaced_node (l : Label) (ts : List Tree) :
    unplaced (.node l ts) = .node l.unplaced (ts.map unplaced) :=
  Rose.map_node _ _ _

@[simp] theorem unplaced_plain (k : Kind) (pos : Pos) (ts : List Tree) :
    (plain k pos ts).unplaced = plain k {} (ts.map unplaced) :=
  unplaced_node _ _

@[simp] theorem unplaced_valued (k : Kind) (pos : Pos) (v : Value) (ts : List Tree) :
    (valued k pos v ts).unplaced = valued k {} v (ts.map unplaced) :=
  unplaced_node _ _

@[simp] theorem unplaced_operated (k : Kind) (pos : Pos) (op : Operator) (ts : List Tree) :
    (operated k pos op ts).unplaced = operated k {} op (ts.map unplaced) :=
  unplaced_node _ _

theorem kind_eq_of_unplaced {t u : Tree} (h : t.unplaced = u.unplaced) : t.kind = u.kind := by
  have he := congrArg (Label.kind ∘ Rose.entry) h
  cases t; cases u
  simpa [kind, Rose.entry, Label.unplaced] using he

end Tree

end VecLang
