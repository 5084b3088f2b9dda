import VecLang.Proofs.Arena.Rewrite

/-!
# Filling the sites of a tree

Some nodes of a detached tree, its sites, are replaced one after the other: the first
by an operand that stood elsewhere, the others by copies of it. `Filling` is the state
of affairs in between; it says what tree comes out once no site is left, so that the
order of the sites does not matter, nor whether one lies below another.

* `Filling.start`, `Filling.graft`, `Filling.fill`: what each step keeps.
* `Filling.tree_eq`: what has come out at the end.
-/

namespace VecLang.Arena

variable {a b : Arena}

/-- The tree `o` for the node `x` alone. -/
def putAt (x : Nat) (o : Rose Nat) (y : Nat) : Option (Rose Nat) := if y = x then some o else none

theorem putAt_self (x : Nat) (o : Rose Nat) : putAt x o x = some o := if_pos rfl

theorem putAt_of_ne {x y : Nat} (o : Rose Nat) (h : y ≠ x) : putAt x o y = none := if_neg h

theorem entry_expand_putAt {x : Nat} {o r : Rose Nat} :
    (r.expand (putAt x o) id).entry = if r.entry = x then o.entry else r.entry := by
  obtain ⟨y, ts⟩ := r
  by_cases hy : y = x
  · subst hy
    rw [Rose.expand_some (putAt_self y o), Rose.entry, if_pos rfl]
  · rw [Rose.expand_none (putAt_of_ne o hy), Rose.entry, Rose.entry, if_neg hy, id]

/-- A tree with another one put at `x` is there if each node lists the root of the other
one in the place of `x`. -/
theorem Spans.putAt {x : Nat} {o r : Rose Nat} (hr : a.Spans r) (ho : b.Spans o)
    (hsize : a.size ≤ b.size)
    (hch : ∀ y ∈ r.preorder, b.children y = swapIn x o.entry (a.children y)) :
    b.Spans (r.expand (putAt x o) id) := by
  induction hr with
  | @node y ss hlt hys _ ih =>
    by_cases hy : y = x
    · subst hy
      rw [Rose.expand_some (putAt_self y o)]
      exact ho
    · rw [Rose.expand_none (putAt_of_ne o hy)]
      refine .node (Nat.lt_of_lt_of_le hlt hsize) ?_ fun s' hs' => ?_
      · rw [id, hch y (by simp), hys]
        unfold swapIn
        rw [List.map_map, List.map_map]
        exact List.map_congr_left fun s _ => entry_expand_putAt.symm
      · obtain ⟨s, hs, rfl⟩ := List.mem_map.1 hs'
        exact ih s hs fun z hz => hch z (Rose.mem_preorder_of_mem hs hz)

/-- **The sites `todo` of the detached tree are still to be filled.** In the arena `a₀`
the tree was `r₀` and the operand `o₀` stood elsewhere; now the tree is `r`, and with
`u` at each remaining site it is `t`. -/
structure Filling (a₀ : Arena) (r₀ o₀ : Rose Nat) (u t : Tree) (a : Arena) (r : Rose Nat)
    (todo : List Nat) : Prop where
  changes : Changes (fun x => x ∈ r₀.preorder ∨ a₀.parent? o₀.entry = some x)
    (fun x => x ∈ r₀.preorder ∨ x = o₀.entry) a₀ a
  spans : a.Spans r
  entry : r.entry = r₀.entry
  top : a.parent? r.entry = none
  ids : ∀ x : Nat, x ∈ r.preorder → x ∈ r₀.preorder ∨ x ∈ o₀.preorder ∨ a₀.size ≤ x
  sites : ∀ x ∈ todo, x ∈ r₀.preorder ∧ a.parent? x = a₀.parent? x
  nodup : todo.Nodup
  result : r.expand (fun x => if x ∈ todo then some u else none) a.label = t

namespace Filling

variable {a₀ : Arena} {r₀ o₀ r o : Rose Nat} {u t : Tree} {x : Nat} {todo : List Nat}

theorem start (hw : a.WellFormed) (hr : a.Spans r) (htop : a.parent? r.entry = none)
    (hsites : ∀ x ∈ todo, x ∈ r.preorder) (hnd : todo.Nodup) :
    Filling a r o₀ u (r.expand (fun x => if x ∈ todo then some u else none) a.label) a r todo :=
  ⟨.refl hw, hr, rfl, htop, fun _ hx => .inl hx, fun x hx => ⟨hsites x hx, rfl⟩, hnd, rfl⟩

theorem exists_parent (h : Filling a₀ r₀ o₀ u t a r (x :: todo)) (hw₀ : a₀.WellFormed)
    (hr₀ : a₀.Spans r₀) (hroot : x ≠ r₀.entry) : ∃ p, a.parent? x = some p ∧ p ∈ r₀.preorder := by
  obtain ⟨hm, hp⟩ := h.sites x (.head _)
  rw [hp]
  exact hr₀.exists_parent hw₀ hm hroot

theorem graft (h : Filling a₀ r₀ o₀ u t a r todo) {v : Tree} (hg : Grafted a v b)
    (hr₀ : a₀.Spans r₀) : Filling a₀ r₀ o₀ u t b r todo := by
  have hch : Changes (fun _ => False) (fun _ => False) a b := hg.changes
  refine ⟨h.changes.trans hch (fun _ _ => False.elim) (fun _ _ => False.elim),
    hch.spans h.spans (fun _ _ => id), h.entry, ?_, h.ids, fun x hx => ?_, h.nodup, ?_⟩
  · rw [hch.parent? _ h.spans.lt_size id, h.top]
  · obtain ⟨hm, hp⟩ := h.sites x hx
    have hlt := Nat.lt_of_lt_of_le (hr₀.lt_size_of_mem x hm) h.changes.size
    exact ⟨hm, (hch.parent? x hlt id).trans hp⟩
  · rw [← h.result]
    exact Rose.expand_congr fun x hx => ⟨rfl, hch.label x (h.spans.lt_size_of_mem x hx)⟩

/-- **Filling the next site** with a tree apart from the one that is filled: the operand,
or a copy of it. -/
theorem fill (h : Filling a₀ r₀ o₀ u t a r (x :: todo)) (hw₀ : a₀.WellFormed) (hr₀ : a₀.Spans r₀)
    (ho : a.Spans o) (hu : o.map a.label = u) (hr : o.preorder.Disjoint r.preorder)
    (hids : ∀ y : Nat, y ∈ o.preorder → y ∉ r₀.preorder ∧ (y ∈ o₀.preorder ∨ a₀.size ≤ y))
    (hentry : o.entry = o₀.entry ∨ a₀.size ≤ o.entry)
    (hparent : ∀ y : Nat, a.parent? o.entry = some y → a₀.parent? o₀.entry = some y)
    (hb : a.replaceInParent x o.entry = .ok b) :
    Filling a₀ r₀ o₀ u t b (r.expand (putAt x o) id) todo := by
  obtain ⟨hx₀, hxp⟩ := h.sites x (.head _)
  have hxo : x ∉ o.preorder := fun hm => (hids x hm).1 hx₀
  have hne : x ≠ o.entry := fun he => hxo (he ▸ o.entry_mem_preorder)
  have hw := h.changes.wellFormed
  have hrep := replaceInParent_replaced hw ho.lt_size hne hb
  obtain ⟨p, hp⟩ := hrep.placed
  -- the root of the tree has no parent, so it is no site
  have hxr : r.entry ≠ x := by
    rintro rfl
    rw [h.top] at hp
    cases hp
  have hout : ∀ y ∈ r.preorder, a.parent? o.entry ≠ some y := fun y hy he =>
    hr o.entry_mem_preorder (h.spans.closed hy ((hw.linked y _).2 he))
  have hspan_o : b.Spans o := by
    refine ho.congr (Nat.le_of_eq hrep.size.symm) fun y hy => ?_
    have hy' : a.parent? o.entry ≠ some y := fun he =>
      hw.not_under_of_parent he ((ho.mem_preorder hw).1 hy)
    rw [hrep.children y hy', swapIn_eq_self]
    exact fun hm => hxo (ho.closed hy hm)
  have hentry' : (r.expand (putAt x o) id).entry = r.entry := by
    rw [entry_expand_putAt, if_neg hxr]
  have hnd := List.nodup_cons.1 h.nodup
  refine ⟨?_, ?_, hentry'.trans h.entry, ?_, fun y hy => ?_, fun y hy => ?_, hnd.2, ?_⟩
  · refine h.changes.trans (hrep.changes hw) (fun y _ hy => ?_) (fun y hy hm => ?_)
    · rcases hy with hy | hy
      · rw [hxp] at hy
        exact .inl (hr₀.parent_mem hw₀ hx₀ (fun he => hxr (h.entry.trans he.symm)) hy)
      · exact .inr (hparent y hy)
    · rcases hm with rfl | rfl
      · exact .inl hx₀
      · exact .inr (hentry.resolve_right (Nat.not_le_of_lt hy))
  · exact h.spans.putAt hspan_o (Nat.le_of_eq hrep.size.symm) fun y hy => hrep.children y (hout y hy)
  · have hro : r.entry ≠ o.entry := fun he =>
      hr o.entry_mem_preorder (he ▸ r.entry_mem_preorder)
    rw [hentry', hrep.parent?, if_neg hro, if_neg hxr, h.top]
  · obtain ⟨z, hz, ⟨-, rfl⟩ | ⟨v, hv, hy⟩⟩ := Rose.mem_preorder_expand hy
    · exact h.ids z hz
    · unfold putAt at hv
      split at hv
      · cases hv
        exact .inr (hids y hy).2
      · cases hv
  · obtain ⟨hy₀, hyp⟩ := h.sites y (.tail _ hy)
    have hyo : y ≠ o.entry := fun he => (hids o.entry o.entry_mem_preorder).1 (he ▸ hy₀)
    have hyx : y ≠ x := fun he => hnd.1 (he ▸ hy)
    exact ⟨hy₀, by rw [hrep.parent?, if_neg hyo, if_neg hyx, hyp]⟩
  · -- at `x` the tree put there has no site left, elsewhere nothing has changed
    have hlabel : b.label = a.label := funext hrep.label
    rw [← h.result, Rose.expand_expand, hlabel]
    refine Rose.expand_congr fun y _ => ⟨?_, rfl⟩
    by_cases hy : y = x
    · have hfull : o.expand (fun z => if z ∈ todo then some u else none) a.label = u := by
        rw [Rose.expand_eq_map, hu]
        intro z hz
        exact if_neg fun hm => (hids z hz).1 (h.sites z (.tail _ hm)).1
      subst hy
      rw [putAt_self, Option.map_some, hfull, Option.some_or, if_pos (.head _)]
    · rw [putAt_of_ne o hy, Option.map_none, Option.none_or, id]
      simp only [List.mem_cons, hy, false_or]

theorem tree_eq (h : Filling a₀ r₀ o₀ u t a r []) : r.map a.label = t := by
  rw [← h.result]
  exact (Rose.expand_eq_map fun _ _ => rfl).symm

end Filling

end VecLang.Arena
