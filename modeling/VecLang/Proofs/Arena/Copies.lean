import VecLang.Proofs.Arena.InPlace
import VecLang.Proofs.Arena.Rewrite
import VecLang.Tree.Display

/-!
# Copies of subtrees

A copy is made in the arena that it is read from: the node first, then each child is copied and
attached to it. The nodes that are read are old and those that are written are new, so that the
outcome is the subtree grafted a second time. From then on the two are apart. No link leads from
an old node to a new one, and a change that names new nodes alone follows links from new nodes
to new nodes.

* `InPlace.copy_eq`: the copy step by step is the subtree grafted again.
* `copied`: what a copy is like, and that it changes no node that was there.
* `Beside.step`, `Beside.run`: what changes of new nodes leave as it was.
* `copy_faithful_disjoint`: **a copy is the same tree on fresh nodes, and no change of these
  and later nodes reaches what was copied.**
-/

namespace VecLang

namespace InPlace

/-- Copies a node and what is below it, at most `limit` levels deep. A copy is attached as soon
as it is complete. -/
def copyWithin : Nat → NodeId → Editing NodeId
  | 0, _ => return (← get).size
  | limit + 1, id => do
    let a ← get
    modify fun a => (a.add (a.label id)).1
    (a.children id).forM fun child => do attach a.size (← copyWithin limit child)
    return a.size

def copy (id : NodeId) : Editing NodeId := do copyWithin (← get).size id

variable {a : Arena} {limit p : Nat}

/-- The copy of a subtree comes to the subtree grafted again. -/
def Copies (limit : Nat) : Prop := ∀ {a : Arena} {s : Rose Nat}, a.WellFormed → a.Spans s →
  s.size ≤ limit → copyWithin limit s.entry a = .ok a.size (a.graft (s.map a.label)).1

/-- **The loop over the children.** Each round reads a subtree that the rounds before it have left
as it was, since they changed new nodes and their parent `p` alone. -/
theorem copyAll_eq (hcopies : Copies limit) {ss : List (Rose Nat)} (hw : a.WellFormed)
    (hp : p < a.size) (hss : ∀ s ∈ ss, a.Spans s ∧ p ∉ s.preorder ∧ s.size ≤ limit) :
    ((ss.map Rose.entry).forM fun child => do attach p (← copyWithin limit child) : Editing Unit) a =
      .ok () (a.graftAll p (ss.map (Rose.map a.label))) := by
  induction ss generalizing a with
  | nil => rfl
  | cons s ss ih =>
    obtain ⟨⟨hs, -, hlimit⟩, hrest⟩ := List.forall_mem_cons.1 hss
    obtain ⟨hgraft, hid⟩ := Arena.graft_spec (s.map a.label) hw
    have hone := hcopies hw hs hlimit
    rw [List.map_cons, List.map_cons, Arena.graftAll]
    simp only [hid]
    generalize (a.graft (s.map a.label)).1 = b at hgraft hone
    have hsize : a.size ≤ b.size := by rw [hgraft.size]; omega
    have hp' : p < b.size := Nat.lt_of_lt_of_le hp hsize
    have hround : (do attach p (← copyWithin limit s.entry) : Editing Unit) a =
        .ok () (b.attach p a.size) := by
      change EStateM.bind _ _ a = _
      unfold EStateM.bind
      rw [hone]
      rfl
    -- what is still to be read is old and is not `p`
    have hkept : ∀ u ∈ ss, ∀ x ∈ u.preorder, (b.attach p a.size).label x = a.label x ∧
        (b.attach p a.size).children x = a.children x := by
      intro u hu x hx
      obtain ⟨hspans, hnot, -⟩ := hrest u hu
      obtain ⟨hlabel, hchildren, -⟩ := hgraft.same x (hspans.lt_size_of_mem x hx)
      have hne : x ≠ p := by
        rintro rfl
        exact hnot hx
      rw [Arena.label_attach, Arena.children_attach hp', if_neg hne]
      exact ⟨hlabel, hchildren⟩
    have hnext := ih (hgraft.attach hw hp) (by rw [Arena.size_attach]; exact hp') fun u hu => by
      obtain ⟨hspans, hnot, hle⟩ := hrest u hu
      refine ⟨hspans.congr ?_ fun x hx => (hkept u hu x hx).2, hnot, hle⟩
      rw [Arena.size_attach]
      exact hsize
    have hlabels : ss.map (Rose.map (b.attach p a.size).label) = ss.map (Rose.map a.label) :=
      List.map_congr_left fun u hu => Rose.map_congr fun x hx => (hkept u hu x hx).1
    rw [hlabels] at hnext
    change EStateM.bind _ _ a = _
    unfold EStateM.bind
    rw [hround]
    exact hnext

theorem copies (limit : Nat) : Copies limit := by
  induction limit with
  | zero =>
    intro a s _ _ hle
    cases s
    simp [Rose.size] at hle
  | succ limit ih =>
    intro a s hw hs hle
    obtain ⟨id, ss⟩ := s
    have hchildren := hs.children_eq
    have hadd := Arena.add_changes (C := fun _ => False) (M := fun _ => False) hw (a.label id)
    have hnew : a.size < (a.add (a.label id)).1.size := by rw [Arena.size_add]; omega
    -- the copy of the root is new, so no subtree to be copied has it
    have hloop := copyAll_eq (a := (a.add (a.label id)).1) (p := a.size) ih hadd.wellFormed hnew
      fun s hmem => by
        have hspans := hs.of_mem hmem
        refine ⟨hadd.spans hspans fun _ _ h => h, fun hin => ?_, ?_⟩
        · exact Nat.lt_irrefl _ (hspans.lt_size_of_mem _ hin)
        · have hsum := Rose.size_le_sizeAll hmem
          rw [Rose.size] at hle
          omega
    have hlabels : ss.map (Rose.map (a.add (a.label id)).1.label) = ss.map (Rose.map a.label) :=
      List.map_congr_left fun s hmem => hadd.map_label (hs.of_mem hmem)
    rw [hlabels, ← hchildren] at hloop
    rw [Rose.map_node, Arena.graft]
    change EStateM.bind ((a.children id).forM _) _ (a.add (a.label id)).1 = _
    unfold EStateM.bind
    rw [hloop]
    rfl

/-- **Step by step, a copy is the subtree grafted again**, under the id that comes next. -/
theorem copy_eq (hw : a.WellFormed) {x : Nat} (hx : x < a.size) :
    copy x a = .ok (a.copy x).2 (a.copy x).1 := by
  have hs := Arena.spans_shape hw hx
  have hcopy := copies a.size hw hs (hs.size_le hw)
  rw [Arena.entry_shape] at hcopy
  rw [Arena.copy, (Arena.graft_spec _ hw).2]
  exact hcopy

end InPlace

namespace Arena

variable {a b c : Arena} {n x : Nat}

/-- `b` is `a` with a copy, at `id`, of the subtree below `x`. -/
structure Copied (a : Arena) (x : Nat) (b : Arena) (id : Nat) : Prop where
  wellFormed : b.WellFormed
  parent? : b.parent? id = none
  tree : b.tree id = a.tree x
  dump : (b.tree id).dump = (a.tree x).dump
  shape : b.shape id = numbered a.size (a.shape x)
  preorder : b.preorder id = List.range' a.size (a.preorder x).length
  size : b.size = a.size + (a.preorder x).length
  same : SameOn (· < a.size) a b
  root? : b.root? = a.root?

mutual

theorem numbered_map {α β : Type} (f : α → β) :
    ∀ (t : Rose α) (n : Nat), numbered n (t.map f) = numbered n t
  | .node _ ts, n => by rw [Rose.map_node, numbered, numbered, numberedAll_map f ts]

theorem numberedAll_map {α β : Type} (f : α → β) :
    ∀ (ts : List (Rose α)) (n : Nat), numberedAll n (ts.map (Rose.map f)) = numberedAll n ts
  | [], _ => rfl
  | t :: ts, n => by
    rw [List.map_cons, numberedAll, numberedAll, numbered_map f t, numberedAll_map f ts, Rose.size_map]

end

theorem copied (hw : a.WellFormed) (x : Nat) : Copied a x (a.copy x).1 (a.copy x).2 := by
  obtain ⟨h, hid⟩ := graft_spec (a.tree x) hw
  have htree := tree_graft hw (a.tree x)
  have hsize : (a.tree x).size = (a.preorder x).length := by
    unfold tree preorder
    rw [Rose.size_map, Rose.length_preorder]
  have hshape := h.spans.shape_eq h.wellFormed
  have hpreorder := h.spans.preorder_eq h.wellFormed
  rw [entry_numbered] at hshape hpreorder
  refine ⟨h.wellFormed, ?_, htree, congrArg Tree.dump htree, ?_, ?_, ?_, h.same, h.root?⟩
  · rw [copy, hid, h.parent?]
  · rw [copy, hid, hshape, tree, numbered_map]
  · rw [copy, hid, hpreorder, preorder_numbered, hsize]
  · rw [copy, h.size, hsize]

/-- A change of an arena: an edit, a new label for a node, a position for a subtree, or a root. -/
inductive Change where
  | edit (e : Edit)
  | relabel (id : NodeId) (l : Label)
  | place (id : NodeId) (pos : Pos)
  | setRoot (id : NodeId)

namespace Change

def nodes : Change → List Nat
  | edit e => e.nodes
  | relabel id _ | place id _ | setRoot id => [id]

def run (a : Arena) : Change → Arena
  | edit e => e.run a
  | relabel id l => a.setLabel id l
  | place id pos => a.placeAt id pos
  | setRoot id => a.setRoot id

def runAll (a : Arena) (cs : List Change) : Arena := cs.foldl run a

/-- Each change names only nodes from `n` on that were allocated before it. -/
def From (n : Nat) (a : Arena) : List Change → Prop
  | [] => True
  | c :: cs => (∀ id ∈ c.nodes, n ≤ id ∧ id < a.size) ∧ From n (c.run a) cs

instance decidableFrom (n : Nat) : ∀ (a : Arena) (cs : List Change), Decidable (From n a cs)
  | _, [] => isTrue trivial
  | a, c :: cs =>
    have := decidableFrom n (c.run a) cs
    inferInstanceAs (Decidable (_ ∧ _))

end Change

/-- No node is lost, and those below `n` are as they were. -/
structure Untouched (n : Nat) (a b : Arena) : Prop where
  size : a.size ≤ b.size
  same : SameOn (· < n) a b

/-- The children of the nodes below `n` are below `n` too. -/
def Closed (n : Nat) (a : Arena) : Prop := ∀ x < n, ∀ y ∈ a.children x, y < n

theorem Closed.not_mem (h : Closed n a) {id : Nat} (hid : n ≤ id) (hx : x < n) :
    id ∉ a.children x := fun hm => Nat.not_lt_of_le hid (h x hx id hm)

theorem Closed.le_parent (h : Closed n a) (hw : a.WellFormed) {id p : Nat} (hid : n ≤ id)
    (hp : a.parent? id = some p) : n ≤ p := by
  by_contra hlt
  exact h.not_mem hid (Nat.lt_of_not_le hlt) ((hw.linked p id).2 hp)

namespace Untouched

theorem refl (n : Nat) (a : Arena) : Untouched n a a := ⟨Nat.le_refl _, fun _ _ => ⟨rfl, rfl, rfl⟩⟩

theorem trans (h : Untouched n a b) (h' : Untouched n b c) : Untouched n a c := by
  refine ⟨Nat.le_trans h.size h'.size, fun x hx => ?_⟩
  obtain ⟨hl, hc, hp⟩ := h.same x hx
  obtain ⟨hl', hc', hp'⟩ := h'.same x hx
  exact ⟨hl'.trans hl, hc'.trans hc, hp'.trans hp⟩

theorem closed (h : Untouched n a b) (ha : Closed n a) : Closed n b := by
  intro x hx y hy
  rw [(h.same x hx).2.1] at hy
  exact ha x hx y hy

theorem of_changes {C M : Nat → Prop} (h : Changes C M a b) (hn : n ≤ a.size)
    (hC : ∀ x < n, ¬ C x) (hM : ∀ x < n, ¬ M x) : Untouched n a b := by
  refine ⟨h.size, fun x hx => ?_⟩
  have hlt := Nat.lt_of_lt_of_le hx hn
  exact ⟨h.label x hlt, h.children x hlt (hC x hx), h.parent? x hlt (hM x hx)⟩

theorem of_grafted {t : Tree} (h : Grafted a t b) (hn : n ≤ a.size) : Untouched n a b :=
  of_changes (C := fun _ => False) (M := fun _ => False) h.changes hn (fun _ _ h => h) fun _ _ h => h

theorem of_moved {p id : Nat} {l : List Nat} (h : Moved a p id l b) (ha : Closed n a)
    (hp : n ≤ p) (hid : n ≤ id) : Untouched n a b := by
  refine ⟨Nat.le_of_eq h.size.symm, fun x hx => ⟨h.label x, ?_, ?_⟩⟩
  · rw [h.children, if_neg (by omega), filter_ne_eq_self (ha.not_mem hid hx)]
  · rw [h.parent?, if_neg (by omega)]

theorem of_taken {id : Nat} (ha : Closed n a) (hid : n ≤ id) (hsize : b.size = a.size)
    (hlabel : ∀ x : Nat, b.label x = a.label x)
    (hchildren : ∀ x : Nat, b.children x = (a.children x).filter (· != id))
    (hparent : ∀ x : Nat, b.parent? x = if x = id then none else a.parent? x) :
    Untouched n a b := by
  refine ⟨Nat.le_of_eq hsize.symm, fun x hx => ⟨hlabel x, ?_, ?_⟩⟩
  · rw [hchildren, filter_ne_eq_self (ha.not_mem hid hx)]
  · rw [hparent, if_neg (by omega)]

section

variable (hw : a.WellFormed) (ha : Closed n a)
include hw ha

theorem detach {id : Nat} (hid : n ≤ id) : Untouched n a (a.detach id) :=
  of_taken ha hid (size_detach id) (label_detach id) (children_detach hw id) (parent?_detach id)

theorem replace {p old new : Nat} (hold : n ≤ old) (hnew : n ≤ new ∧ new < a.size)
    (h : a.replace p old new = .ok b) : Untouched n a b := by
  obtain ⟨hpar, ⟨-, rfl⟩ | ⟨-, -, hm⟩⟩ := replace_moved hw hnew.2 h
  · exact refl n b
  · have htaken := detach hw ha hold
    exact htaken.trans (of_moved hm (htaken.closed ha) (ha.le_parent hw hold hpar) hnew.1)

theorem push (hn : n ≤ a.size) {p : Nat} {child : Child} {r : Arena × NodeId}
    (hp : n ≤ p ∧ p < a.size) (hc : ∀ id, child = .node id → n ≤ id ∧ id < a.size)
    (h : a.push p child = .ok r) : Untouched n a r.1 := by
  -- whatever is no node is made as one below `p`
  have hbelow : ∀ l, Untouched n a (a.addBelow p l).1 := fun l =>
    of_changes (addBelow_changes hw hp.2 l).1 hn (fun x hx => by omega) fun _ _ h => h
  cases child with
  | node id =>
    obtain ⟨b, hb, h⟩ := Except.bind_eq_ok.1 h
    cases h
    obtain ⟨hid, hlt⟩ := hc id rfl
    exact of_moved (pushNode_moved hw hp.2 hlt hb).2 ha hp.1 hid
  | number v =>
    simp only [Arena.push] at h
    split at h
    · cases h
      exact hbelow _
    · cases h
  | ident name =>
    simp only [Arena.push] at h
    split at h
    · cases h
    · cases h
      exact hbelow _
  | type t =>
    cases h
    exact hbelow _

/-- **One edit** of nodes from `n` on, also if it fails. -/
theorem edit (hn : n ≤ a.size) (e : Edit) (he : ∀ id ∈ e.nodes, n ≤ id ∧ id < a.size) :
    Untouched n a (e.run a) := by
  unfold Edit.run
  split
  swap
  · exact refl n a
  next b hb =>
  cases e with
  | add l =>
    cases hb
    exact of_changes (C := fun _ => False) (M := fun _ => False) (add_changes hw l) hn
      (fun _ _ h => h) fun _ _ h => h
  | push p child =>
    obtain ⟨r, hr, hb⟩ := Except.bind_eq_ok.1 hb
    cases hb
    refine push hw ha hn (he p ?_) (fun id hid => he id ?_) hr
    · cases child <;> simp [Edit.nodes]
    · simp [hid, Edit.nodes]
  | insert p i id =>
    obtain ⟨hp, hid⟩ : (n ≤ p ∧ p < a.size) ∧ n ≤ id ∧ id < a.size := by simpa [Edit.nodes] using he
    exact of_moved (insert_moved hw hp.2 hid.2 hb).2 ha hp.1 hid.1
  | remove p id =>
    obtain ⟨-, hid⟩ : (n ≤ p ∧ p < a.size) ∧ n ≤ id ∧ id < a.size := by simpa [Edit.nodes] using he
    obtain ⟨-, hsize, hlabel, hchildren, hparent, -⟩ := remove_views hw hb
    exact of_taken ha hid.1 hsize hlabel hchildren hparent
  | replace p old new =>
    exact replace hw ha (he old (by simp [Edit.nodes])).1 (he new (by simp [Edit.nodes])) hb
  | replaceInParent old new =>
    obtain ⟨p, hp⟩ := exists_parent_of_replaceInParent hb
    have hreplace : a.replace p old new = .ok b := by
      have hb' : a.replaceInParent old new = .ok b := hb
      unfold Arena.replaceInParent at hb'
      rwa [hp] at hb'
    exact replace hw ha (he old (by simp [Edit.nodes])).1 (he new (by simp [Edit.nodes])) hreplace
  | detach id =>
    cases hb
    exact detach hw ha (he id (by simp [Edit.nodes])).1
  | copy id =>
    cases hb
    exact of_grafted (graft_spec _ hw).1 hn
  | addReference name type index =>
    cases hb
    exact of_grafted (graft_spec _ hw).1 hn

end

end Untouched

/-- `b` has the nodes of `a` as they are there, and later ones. -/
structure Beside (a b : Arena) : Prop where
  wellFormed : b.WellFormed
  untouched : Untouched a.size a b

namespace Beside

section

variable (h : Beside a b) (hw : a.WellFormed)
include h hw

theorem closed : Closed a.size b :=
  h.untouched.closed fun _ _ _ hy => hw.child_lt hy

theorem le_of_mem_preorder {id y : Nat} (hid : a.size ≤ id ∧ id < b.size) (hy : y ∈ b.preorder id) :
    a.size ≤ y := by
  have hunder := ((spans_shape h.wellFormed hid.2).mem_preorder h.wellFormed).1 hy
  rw [entry_shape] at hunder
  by_contra hlt
  have hold := hunder.lt_of_sameOn hw h.untouched.same (Nat.lt_of_not_le hlt)
  omega

/-- **The step**: a change of later nodes. -/
theorem step (c : Change) (hc : ∀ id ∈ c.nodes, a.size ≤ id ∧ id < b.size) :
    Beside a (c.run b) := by
  cases c with
  | edit e =>
    refine ⟨h.wellFormed.edit e fun id hid => (hc id hid).2, h.untouched.trans ?_⟩
    exact .edit h.wellFormed (h.closed hw) h.untouched.size e hc
  | relabel id l =>
    obtain ⟨hid, -⟩ := hc id (.head _)
    have hne : ∀ x < a.size, ¬ (id = x ∧ id < b.size) := fun x hx he =>
      Nat.not_lt_of_le hid (he.1 ▸ hx)
    refine ⟨h.wellFormed.congr (children_setLabel b id l) (parent?_setLabel b id l),
      h.untouched.trans ⟨Nat.le_of_eq (size_modify ..).symm, fun x hx => ⟨?_, ?_, ?_⟩⟩⟩
    · exact (label_setLabel b id l x).trans (if_neg (hne x hx))
    · exact children_setLabel b id l x
    · exact parent?_setLabel b id l x
  | place id pos =>
    have hid := hc id (.head _)
    have hspans := spans_shape h.wellFormed hid.2
    obtain ⟨hsize, hlabel, hchildren, hparent, -⟩ := foldl_setPos pos (b.preorder id) hspans.lt_size_of_mem
    refine ⟨h.wellFormed.congr hchildren hparent,
      h.untouched.trans ⟨Nat.le_of_eq hsize.symm, fun x hx => ⟨?_, hchildren x, hparent x⟩⟩⟩
    refine (hlabel x).trans (if_neg fun hm => ?_)
    exact Nat.not_lt_of_le (h.le_of_mem_preorder hw hid hm) hx
  | setRoot id =>
    refine ⟨h.wellFormed.congr (fun _ => rfl) fun _ => rfl, h.untouched.trans ⟨Nat.le_refl _, ?_⟩⟩
    exact fun _ _ => ⟨rfl, rfl, rfl⟩

/-- **The run**: changes of later nodes, one after the other. -/
theorem run {cs : List Change} (hcs : Change.From a.size b cs) : Beside a (Change.runAll b cs) := by
  induction cs generalizing b with
  | nil => exact h
  | cons c cs ih => exact ih (h.step hw c hcs.1) hcs.2

theorem subtree (hx : x < a.size) : b.shape x = a.shape x ∧ b.tree x = a.tree x := by
  have hspans := spans_shape hw hx
  have hlater : b.Spans (a.shape x) := hspans.congr h.untouched.size fun y hy =>
    (h.untouched.same y (hspans.lt_size_of_mem y hy)).2.1
  have hshape := hlater.shape_eq h.wellFormed
  rw [entry_shape] at hshape
  refine ⟨hshape, ?_⟩
  unfold tree
  rw [hshape]
  exact Rose.map_congr fun y hy => (h.untouched.same y (hspans.lt_size_of_mem y hy)).1

end

end Beside

/-- **A copy is faithful, and it is apart from what it was made from.** In every well-formed arena
and for each of its nodes, the copy made step by step succeeds. It has no parent, and its tree is
the one that was copied, in labels and in the order of children, on fresh nodes that are numbered
in preorder. No node that was there changes. And after any changes that name only nodes of the copy
and nodes made later, the subtree that was copied and all other old nodes are as they were. -/
theorem copy_faithful_disjoint (hw : a.WellFormed) (hx : x < a.size) :
    InPlace.copy x a = .ok (a.copy x).2 (a.copy x).1 ∧ Copied a x (a.copy x).1 (a.copy x).2 ∧
      ∀ cs, Change.From a.size (a.copy x).1 cs →
        (Change.runAll (a.copy x).1 cs).shape x = a.shape x ∧
          (Change.runAll (a.copy x).1 cs).tree x = a.tree x ∧
          SameOn (· < a.size) a (Change.runAll (a.copy x).1 cs) := by
  have hcopied := copied hw x
  refine ⟨InPlace.copy_eq hw hx, hcopied, fun cs hcs => ?_⟩
  have hsize : a.size ≤ (a.copy x).1.size := by rw [hcopied.size]; omega
  have hbeside : Beside a (Change.runAll (a.copy x).1 cs) :=
    Beside.run ⟨hcopied.wellFormed, hsize, hcopied.same⟩ hw hcs
  obtain ⟨hshape, htree⟩ := hbeside.subtree hw hx
  exact ⟨hshape, htree, hbeside.untouched.same⟩

/-- Changes of the copy of node 1 below: its child is taken out and put back behind a new one, it is
placed and relabelled, and it is copied in its turn. -/
def copyChanges : List Change :=
  [.edit (.detach 4), .edit (.push 3 (.ident "c")), .edit (.push 3 (.node 4)), .place 3 { line := 7 },
    .relabel 4 default, .edit (.copy 3), .edit (.replaceInParent 4 6), .setRoot 3]

theorem copy_faithful_disjoint_wayDown :
    let a := run {} [.add default, .push 0 (.ident "a"), .push 1 (.ident "b")]
    (a.WellFormed ∧ 1 < a.size ∧ Change.From a.size (a.copy 1).1 copyChanges) ∧
      (a.copy 1).1.tree 3 = a.tree 1 ∧ (Change.runAll (a.copy 1).1 copyChanges).tree 1 = a.tree 1 := by
  intro a
  have hw : a.WellFormed := wellFormed_empty.run (by decide)
  have hx : 1 < a.size := by decide
  have hfrom : Change.From a.size (a.copy 1).1 copyChanges := by decide +kernel
  obtain ⟨-, hcopied, hlater⟩ := copy_faithful_disjoint hw hx
  exact ⟨⟨hw, hx, hfrom⟩, hcopied.tree, (hlater _ hfrom).2.1⟩

end Arena

end VecLang
