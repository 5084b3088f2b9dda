import VecLang.Proofs.Arena.WellFormed

/-!
# What edits do to the links

Each edit in one equation for each view: what it makes of the children and of the
parent of every node. All of them take nodes out of their places (`detach`) and then
link one node below another, so that two lemmas keep an arena well formed:

* `WellFormed.detach`: taking a node out.
* `WellFormed.link`: putting a detached node below one that it is not above.
-/

namespace VecLang.Arena

open List

variable {a b : Arena} {l : List Nat} {id p old new : Nat}

theorem filter_ne_eq_self {l : List NodeId} {id : NodeId} (h : id ∉ l) :
    l.filter (· != id) = l := by
  rw [filter_eq_self]
  intro c hc
  simp only [bne_iff_ne]
  rintro rfl
  exact h hc

@[simp] theorem size_setChildren (id : NodeId) (ids : List NodeId) :
    (a.setChildren id ids).size = a.size := size_modify ..

@[simp] theorem size_setParent (id : NodeId) (p : Option NodeId) :
    (a.setParent id p).size = a.size := size_modify ..

@[simp] theorem root?_setChildren (id : NodeId) (ids : List NodeId) :
    (a.setChildren id ids).root? = a.root? := rfl

@[simp] theorem root?_setParent (id : NodeId) (p : Option NodeId) :
    (a.setParent id p).root? = a.root? := rfl

@[simp] theorem size_detach (id : NodeId) : (a.detach id).size = a.size := by
  unfold detach
  split <;> simp

@[simp] theorem label_detach (id x : NodeId) : (a.detach id).label x = a.label x := by
  unfold detach
  split <;> simp

@[simp] theorem root?_detach (id : NodeId) : (a.detach id).root? = a.root? := by
  unfold detach
  split <;> simp

theorem children_detach (hw : a.WellFormed) (id x : Nat) :
    (a.detach id).children x = (a.children x).filter (· != id) := by
  unfold detach
  split
  · next hp =>
    rw [filter_ne_eq_self]
    intro hx
    rw [hw.linked, hp] at hx
    cases hx
  · next p hp =>
    rw [children_setChildren, size_setParent]
    by_cases hpx : p = x
    · rw [if_pos ⟨hpx, hw.parent_lt hp⟩, hpx]
    · rw [if_neg fun h => hpx h.1, children_setParent, filter_ne_eq_self]
      intro hx
      rw [hw.linked, hp] at hx
      exact hpx (Option.some.inj hx)

theorem parent?_detach (id x : Nat) :
    (a.detach id).parent? x = if x = id then none else a.parent? x := by
  unfold detach
  split
  · next hp =>
    split
    · next hx => rw [hx, hp]
    · rfl
  · next p hp =>
    rw [parent?_setChildren, parent?_setParent]
    by_cases hx : x = id
    · rw [if_pos ⟨hx.symm, lt_size_of_parent hp⟩, if_pos hx]
    · rw [if_neg fun h => hx h.1.symm, if_neg hx]

theorem Under.of_detach {x y : Nat} (h : (a.detach id).Under x y) : a.Under x y := by
  induction h with
  | refl => exact .refl _
  | child hp _ ih =>
    rw [parent?_detach] at hp
    split at hp
    · cases hp
    · exact .child hp ih

theorem WellFormed.detach (hw : a.WellFormed) (id : Nat) : (a.detach id).WellFormed := by
  refine ⟨fun p c => ?_, fun p => ?_, fun x => ?_⟩
  · rw [children_detach hw, parent?_detach, mem_filter, hw.linked, bne_iff_ne]
    by_cases hc : c = id
    · simp [hc]
    · simp [hc]
  · rw [children_detach hw]
    exact (hw.nodup p).filter _
  · induction hw.rooted x with
    | @top x hn =>
      refine .top ?_
      rw [parent?_detach, hn, ite_self]
    | @child x p hp _ ih =>
      by_cases hx : x = id
      · exact .top (by rw [parent?_detach, if_pos hx])
      · exact .child (by rw [parent?_detach, if_neg hx]; exact hp) ih

/-- **Putting a detached node below another.** If `b` differs from `a` only in that the
node `id`, which had no parent, now stands below `p`, and `p` is not below `id`, then
`b` is well formed. -/
theorem WellFormed.link (hw : a.WellFormed) (hroot : a.parent? id = none) (hcycle : ¬ a.Under p id)
    (hother : ∀ x : Nat, x ≠ p → b.children x = a.children x)
    (hp : (b.children p).Perm (id :: a.children p))
    (hparent : ∀ x : Nat, b.parent? x = if x = id then some p else a.parent? x) : b.WellFormed := by
  have hnot : ∀ q, id ∉ a.children q := by
    intro q hq
    rw [hw.linked, hroot] at hq
    cases hq
  have hrooted : ∀ x, a.Rooted x → ¬ a.Under x id → b.Rooted x := by
    intro x hx
    induction hx with
    | @top x hn =>
      intro hid
      have hne : x ≠ id := by rintro rfl; exact hid (.refl _)
      exact .top (by rw [hparent, if_neg hne]; exact hn)
    | @child x q hq _ ih =>
      intro hid
      have hne : x ≠ id := by rintro rfl; exact hid (.refl _)
      refine .child (by rw [hparent, if_neg hne]; exact hq) (ih fun h => hid (.child hq h))
  have hid : b.Rooted id :=
    .child (by rw [hparent, if_pos rfl]) (hrooted p (hw.rooted p) hcycle)
  refine ⟨fun q c => ?_, fun q => ?_, fun x => ?_⟩
  · have hmem : c ∈ b.children q ↔ c ∈ a.children q ∨ (c = id ∧ q = p) := by
      by_cases hq : q = p
      · subst hq
        rw [hp.mem_iff, mem_cons]
        tauto
      · rw [hother q hq]
        tauto
    rw [hmem, hw.linked, hparent]
    by_cases hc : c = id
    · subst hc
      rw [hroot, if_pos rfl]
      simp [eq_comm]
    · simp [hc]
  · by_cases hq : q = p
    · subst hq
      rw [hp.nodup_iff, nodup_cons]
      exact ⟨hnot q, hw.nodup q⟩
    · rw [hother q hq]
      exact hw.nodup q
  · -- above `id` the ways up go on through `p`, and elsewhere nothing has changed
    induction hw.rooted x with
    | @top x hn =>
      by_cases hx : x = id
      · rw [hx]; exact hid
      · exact .top (by rw [hparent, if_neg hx]; exact hn)
    | @child x q hq _ ih =>
      by_cases hx : x = id
      · rw [hx]; exact hid
      · exact .child (by rw [hparent, if_neg hx]; exact hq) ih

theorem children_attach (hp : p < a.size) (x : Nat) :
    (a.attach p id).children x = if x = p then a.children p ++ [id] else a.children x := by
  unfold attach
  rw [children_setParent, children_setChildren]
  by_cases hx : x = p
  · rw [if_pos ⟨hx.symm, hp⟩, if_pos hx]
  · rw [if_neg fun h => hx h.1.symm, if_neg hx]

theorem parent?_attach (hid : id < a.size) (x : Nat) :
    (a.attach p id).parent? x = if x = id then some p else a.parent? x := by
  unfold attach
  rw [parent?_setParent, parent?_setChildren, size_setChildren]
  by_cases hx : x = id
  · rw [if_pos ⟨hx.symm, hid⟩, if_pos hx]
  · rw [if_neg fun h => hx h.1.symm, if_neg hx]

@[simp] theorem size_attach (p id : NodeId) : (a.attach p id).size = a.size := by simp [attach]

@[simp] theorem label_attach (p id x : NodeId) : (a.attach p id).label x = a.label x := by
  simp [attach]

@[simp] theorem root?_attach (p id : NodeId) : (a.attach p id).root? = a.root? := rfl

/-- `Moved a p id l b`: `b` is `a` in which the node `id` was taken out of its place and
put below `p`, whose children are now `l`. -/
structure Moved (a : Arena) (p id : Nat) (l : List Nat) (b : Arena) : Prop where
  size : b.size = a.size
  label : ∀ x : Nat, b.label x = a.label x
  children : ∀ x : Nat, b.children x = if x = p then l else (a.children x).filter (· != id)
  parent? : ∀ x : Nat, b.parent? x = if x = id then some p else a.parent? x
  root? : b.root? = a.root?

theorem Moved.wellFormed (h : Moved a p id l b) (hw : a.WellFormed) (hcycle : ¬ a.Under p id)
    (hl : l.Perm (id :: (a.children p).filter (· != id))) : b.WellFormed := by
  have hd := hw.detach id
  have hroot : (a.detach id).parent? id = none := by rw [parent?_detach, if_pos rfl]
  refine hd.link hroot (fun hu => hcycle hu.of_detach) (fun x hx => ?_) ?_ (fun x => ?_)
  · rw [h.children, if_neg hx, children_detach hw]
  · rw [h.children, if_pos rfl, children_detach hw]
    exact hl
  · rw [h.parent?, parent?_detach]
    split <;> rfl

section

variable (hw : a.WellFormed) (hp : p < a.size)
include hw hp

theorem moved_detach (hid : id < a.size) (l : List Nat) :
    Moved a p id l (((a.detach id).setChildren p l).setParent id (some p)) := by
  refine ⟨by simp, fun x => by simp, fun x => ?_, fun x => ?_, by simp⟩
  · rw [children_setParent, children_setChildren, children_detach hw, size_detach]
    by_cases hx : x = p
    · rw [if_pos ⟨hx.symm, hp⟩, if_pos hx]
    · rw [if_neg fun h => hx h.1.symm, if_neg hx]
  · rw [parent?_setParent, parent?_setChildren, parent?_detach, size_setChildren, size_detach]
    by_cases hx : x = id
    · rw [if_pos ⟨hx.symm, hid⟩, if_pos hx]
    · rw [if_neg fun h => hx h.1.symm, if_neg hx, if_neg hx]

theorem checkNoCycle_eq_ok : a.checkNoCycle p id = .ok () ↔ ¬ a.Under p id := by
  unfold checkNoCycle
  rw [← isAncestor_iff hw hp]
  split <;> simp_all

theorem pushNode_moved (hid : id < a.size) (h : a.pushNode p id = .ok b) :
    ¬ a.Under p id ∧ Moved a p id ((a.children p).filter (· != id) ++ [id]) b := by
  unfold pushNode at h
  cases hc : a.checkNoCycle p id with
  | error e => rw [hc] at h; cases h
  | ok u =>
    rw [hc] at h
    cases h
    refine ⟨(checkNoCycle_eq_ok hw hp).1 hc, ?_⟩
    have := moved_detach hw hp hid ((a.children p).filter (· != id) ++ [id])
    rwa [← children_detach hw] at this ⊢

theorem insert_moved {i : Nat} (hid : id < a.size) (h : a.insert p i id = .ok b) :
    ¬ a.Under p id ∧ Moved a p id (((a.children p).filter (· != id)).insertIdx
      (min i ((a.children p).filter (· != id)).length) id) b := by
  unfold insert at h
  simp only [bind, Except.bind] at h
  split at h
  · cases h
  cases hc : a.checkNoCycle p id with
  | error e => rw [hc] at h; cases h
  | ok u =>
    rw [hc] at h
    cases h
    refine ⟨(checkNoCycle_eq_ok hw hp).1 hc, ?_⟩
    have := moved_detach hw hp hid (((a.children p).filter (· != id)).insertIdx
      (min i ((a.children p).filter (· != id)).length) id)
    rwa [← children_detach hw] at this ⊢

end

theorem remove_views (hw : a.WellFormed) (h : a.remove p id = .ok b) :
    a.parent? id = some p ∧ b.size = a.size ∧ (∀ x : Nat, b.label x = a.label x) ∧
      (∀ x : Nat, b.children x = (a.children x).filter (· != id)) ∧
      (∀ x : Nat, b.parent? x = if x = id then none else a.parent? x) ∧ b.root? = a.root? := by
  unfold remove at h
  split at h
  · next hm =>
    cases h
    have hmem : id ∈ a.children p := contains_iff_mem.1 hm
    have hpar := (hw.linked p id).1 hmem
    have hp := hw.parent_lt hpar
    have hid := hw.child_lt hmem
    refine ⟨hpar, by simp, fun x => by simp, fun x => ?_, fun x => ?_, rfl⟩
    · rw [children_setParent, children_setChildren, (hw.nodup p).erase_eq_filter]
      by_cases hx : p = x
      · rw [if_pos ⟨hx, hp⟩, hx]
      · rw [if_neg fun h => hx h.1, filter_ne_eq_self]
        intro hm
        rw [hw.linked, hpar] at hm
        exact hx (Option.some.inj hm)
    · rw [parent?_setParent, parent?_setChildren, size_setChildren]
      by_cases hx : x = id
      · rw [if_pos ⟨hx.symm, hid⟩, if_pos hx]
      · rw [if_neg fun h => hx h.1.symm, if_neg hx]
  · cases h

def swapIn (old new : Nat) (l : List Nat) : List Nat := l.map fun c => if c = old then new else c

theorem swapIn_eq_self (h : old ∉ l) : swapIn old new l = l := by
  unfold swapIn
  conv_rhs => rw [← map_id l]
  apply map_congr_left
  intro c hc
  rw [if_neg (by rintro rfl; exact h hc), id]

theorem swapIn_perm (new : Nat) (hnd : l.Nodup) (hold : old ∈ l) :
    (swapIn old new l).Perm (new :: l.filter (· != old)) := by
  have h1 : (swapIn old new l).Perm (swapIn old new (old :: l.erase old)) :=
    (perm_cons_erase hold).map _
  have h2 : swapIn old new (old :: l.erase old) = new :: l.erase old := by
    have hcons : swapIn old new (old :: l.erase old) = new :: swapIn old new (l.erase old) := by
      simp only [swapIn, map_cons, if_true]
    rw [hcons, swapIn_eq_self hnd.not_mem_erase]
  rw [h2, hnd.erase_eq_filter] at h1
  exact h1

/-- What a successful `replace` does: nothing where a node replaces itself, and
otherwise `old` is taken out and `new` moved to its place. -/
theorem replace_moved (hw : a.WellFormed) (hnew : new < a.size) (h : a.replace p old new = .ok b) :
    a.parent? old = some p ∧ ((old = new ∧ b = a) ∨ (old ≠ new ∧ ¬ a.Under p new ∧
      Moved (a.detach old) p new (swapIn old new ((a.children p).filter (· != new))) b)) := by
  unfold replace at h
  simp only [bind, Except.bind] at h
  split at h
  swap
  · cases h
  next hcon =>
  have hmem : old ∈ a.children p := contains_iff_mem.1 hcon
  have hpar := (hw.linked p old).1 hmem
  have hp := hw.parent_lt hpar
  have hold := hw.child_lt hmem
  refine ⟨hpar, ?_⟩
  split at h
  · next heq => cases h; exact .inl ⟨heq, rfl⟩
  next hne =>
  cases hc : a.checkNoCycle p new with
  | error e => rw [hc] at h; cases h
  | ok u =>
    simp only [hc, pure, Except.pure, Except.ok.injEq] at h
    subst h
    -- `Moved` starts from the arena without `old`, which `replace` unlinks last
    refine .inr ⟨hne, (checkNoCycle_eq_ok hw hp).1 hc, ?_⟩
    refine ⟨by simp, fun x => by simp, fun x => ?_, fun x => ?_, ?_⟩
    · rw [children_setParent, children_setParent, children_setChildren, children_detach hw,
        children_detach hw, size_detach]
      by_cases hx : x = p
      · rw [if_pos ⟨hx.symm, hp⟩, if_pos hx]
        rfl
      · have hskip : old ∉ a.children x := by
          intro hm
          rw [hw.linked, hpar] at hm
          exact hx (Option.some.inj hm).symm
        rw [if_neg fun h => hx h.1.symm, if_neg hx, children_detach hw old, filter_ne_eq_self hskip]
    · rw [parent?_setParent, parent?_setParent, parent?_setChildren, parent?_detach, parent?_detach]
      simp only [size_setParent, size_setChildren, size_detach]
      by_cases hx : x = new
      · rw [if_pos ⟨hx.symm, hnew⟩, if_pos hx]
      · rw [if_neg fun h => hx h.1.symm, if_neg hx, if_neg hx]
        by_cases hx' : x = old
        · rw [if_pos ⟨hx'.symm, hold⟩, if_pos hx']
        · rw [if_neg fun h => hx' h.1.symm, if_neg hx']
    · simp only [root?_setParent, root?_setChildren, root?_detach]

theorem exists_pushNode (hw : a.WellFormed) (hp : p < a.size) (h : ¬ a.Under p id) :
    ∃ b, a.pushNode p id = .ok b := by
  unfold pushNode
  rw [(checkNoCycle_eq_ok hw hp).2 h]
  exact ⟨_, rfl⟩

theorem exists_insert (hw : a.WellFormed) {i : Nat} (hp : p < a.size)
    (hi : i ≤ (a.children p).length) (h : ¬ a.Under p id) : ∃ b, a.insert p i id = .ok b := by
  unfold insert
  simp only [bind, Except.bind, if_neg (Nat.not_lt_of_le hi), (checkNoCycle_eq_ok hw hp).2 h]
  exact ⟨_, rfl⟩

theorem exists_remove (h : id ∈ a.children p) : ∃ b, a.remove p id = .ok b := by
  unfold remove
  rw [if_pos (contains_iff_mem.2 h)]
  exact ⟨_, rfl⟩

theorem exists_replaceInParent (hw : a.WellFormed) (hp : a.parent? old = some p)
    (h : ¬ a.Under p new) : ∃ b, a.replaceInParent old new = .ok b := by
  have hold : (a.children p).contains old = true :=
    contains_iff_mem.2 ((hw.linked p old).2 hp)
  unfold replaceInParent
  rw [hp]
  unfold replace
  simp only [bind, Except.bind, hold]
  by_cases he : old = new
  · rw [if_pos he]
    exact ⟨_, rfl⟩
  · rw [if_neg he, (checkNoCycle_eq_ok hw (hw.parent_lt hp)).2 h]
    exact ⟨_, rfl⟩

theorem exists_parent_of_replaceInParent (h : a.replaceInParent old new = .ok b) :
    ∃ p, a.parent? old = some p := by
  unfold replaceInParent at h
  split at h
  · next p hp => exact ⟨p, hp⟩
  · cases h

namespace WellFormed

section

variable (hw : a.WellFormed)
include hw

theorem pushNode {id : Nat} (hp : p < a.size) (hid : id < a.size) (h : a.pushNode p id = .ok b) :
    b.WellFormed := by
  obtain ⟨hcycle, hm⟩ := pushNode_moved hw hp hid h
  exact hm.wellFormed hw hcycle (perm_append_singleton _ _)

theorem insert {i id : Nat} (hp : p < a.size) (hid : id < a.size) (h : a.insert p i id = .ok b) :
    b.WellFormed := by
  obtain ⟨hcycle, hm⟩ := insert_moved hw hp hid h
  exact hm.wellFormed hw hcycle (perm_insertIdx _ _ (Nat.min_le_right _ _))

theorem remove {id : Nat} (h : a.remove p id = .ok b) : b.WellFormed := by
  obtain ⟨-, -, -, hc, hp, -⟩ := remove_views hw h
  refine (hw.detach id).congr (fun x => ?_) (fun x => ?_)
  · rw [hc, children_detach hw]
  · rw [hp, parent?_detach]

theorem replace (hnew : new < a.size) (h : a.replace p old new = .ok b) : b.WellFormed := by
  obtain ⟨hpar, ⟨-, rfl⟩ | ⟨hne, hcycle, hm⟩⟩ := replace_moved hw hnew h
  · exact hw
  refine hm.wellFormed (hw.detach old) (fun hu => hcycle hu.of_detach) ?_
  have hold : old ∈ (a.children p).filter (· != new) :=
    mem_filter.2 ⟨(hw.linked p old).2 hpar, bne_iff_ne.2 hne⟩
  have := swapIn_perm new ((hw.nodup p).filter _) hold
  rwa [children_detach hw, filter_comm]

theorem replaceInParent (hnew : new < a.size) (h : a.replaceInParent old new = .ok b) :
    b.WellFormed := by
  unfold Arena.replaceInParent at h
  split at h
  · exact hw.replace hnew h
  · cases h

theorem add (l : Label) : (a.add l).1.WellFormed :=
  hw.congr (children_add a l) (parent?_add a l)

end

end WellFormed

end VecLang.Arena
