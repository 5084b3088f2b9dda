import Mathlib.Data.List.Nodup
import VecLang.Proofs.Arena.Edits
import VecLang.Proofs.Tree

/-!
# Subtrees of an arena

A rose tree of ids spans a subtree of an arena if it gives each of its nodes the
children that the arena gives it. In a well-formed arena there is one such tree below
each node, its `shape`, and its ids are the nodes below its root.

* `Spans.mem_preorder`, `Spans.nodup`: the ids of a spanning tree.
* `spans_shape`, `Spans.eq_shape`: the bounded walk down finds the spanning tree.
* `graft_spec`: a grafted tree has fresh ids in preorder and keeps its labels.
-/

namespace VecLang

open List

variable {s : Rose Nat} {x id p : Nat} {ss : List (Rose Nat)} {α : Type}

namespace Arena

variable {a b : Arena}

/-- The tree of ids gives each of its nodes the children that the arena gives it. -/
inductive Spans (a : Arena) : Rose Nat → Prop
  | node {id : Nat} {ss : List (Rose Nat)} : id < a.size → a.children id = ss.map Rose.entry →
      (∀ s ∈ ss, Spans a s) → Spans a (.node id ss)

namespace Spans

theorem lt_size (h : a.Spans s) : s.entry < a.size := by
  cases h with
  | node hlt _ _ => exact hlt

theorem lt_size_of_mem (h : a.Spans s) : ∀ x : Nat, x ∈ s.preorder → x < a.size := by
  induction h with
  | @node id ss hlt _ _ ih =>
    intro x hx
    rw [Rose.preorder_node] at hx
    rcases mem_cons.1 hx with rfl | hx
    · exact hlt
    · obtain ⟨s, hs, hx⟩ := mem_flatMap.1 hx
      exact ih s hs x hx

/-- Only the children of the tree's own nodes count. -/
theorem congr (h : a.Spans s) :
    a.size ≤ b.size → (∀ x ∈ s.preorder, b.children x = a.children x) → b.Spans s := by
  induction h with
  | @node id ss hlt hch _ ih =>
    intro hsize hb
    refine .node (by omega) ((hb id (by simp)).trans hch) fun s hs => ?_
    exact ih s hs hsize fun x hx => hb x (Rose.mem_preorder_of_mem hs hx)

theorem closed (h : a.Spans s) :
    ∀ {x c : Nat}, x ∈ s.preorder → c ∈ a.children x → c ∈ s.preorder := by
  induction h with
  | @node id ss _ hch _ ih =>
    intro x c hx hc
    rw [Rose.preorder_node] at hx ⊢
    rcases mem_cons.1 hx with rfl | hx
    · rw [hch] at hc
      obtain ⟨s, hs, rfl⟩ := mem_map.1 hc
      exact .tail _ (mem_flatMap.2 ⟨s, hs, s.entry_mem_preorder⟩)
    · obtain ⟨s, hs, hx⟩ := mem_flatMap.1 hx
      exact .tail _ (mem_flatMap.2 ⟨s, hs, ih s hs hx hc⟩)

/-- **The ids of a spanning tree are the nodes below its root.** -/
theorem mem_preorder (hw : a.WellFormed) (h : a.Spans s) : x ∈ s.preorder ↔ a.Under x s.entry := by
  constructor
  · intro hx
    induction h with
    | @node id ss _ hch _ ih =>
      rw [Rose.preorder_node] at hx
      rcases mem_cons.1 hx with rfl | hx
      · exact .refl _
      · obtain ⟨s, hs, hx⟩ := mem_flatMap.1 hx
        have hc : s.entry ∈ a.children id := by rw [hch]; exact mem_map_of_mem hs
        exact (ih s hs hx).trans (.of_parent ((hw.linked _ _).1 hc))
  · intro hx
    generalize hr : s.entry = r at hx
    induction hx with
    | refl => rw [← hr]; exact s.entry_mem_preorder
    | @child x p y hp _ ih => exact h.closed (ih hr) ((hw.linked p x).2 hp)

theorem disjoint_of_sibling (hw : a.WellFormed) {t : Rose Nat} (hs : a.Spans s) (ht : a.Spans t)
    (hne : s.entry ≠ t.entry) (hp : a.parent? s.entry = a.parent? t.entry) :
    s.preorder.Disjoint t.preorder := by
  intro x hxs hxt
  exact hw.not_under_siblings hne hp ((hs.mem_preorder hw).1 hxs) ((ht.mem_preorder hw).1 hxt)

theorem parent_of_mem (hw : a.WellFormed) (h : a.Spans (.node id ss)) (hs : s ∈ ss) :
    a.parent? s.entry = some id := by
  cases h with
  | node _ hch _ =>
    rw [← hw.linked, hch]
    exact mem_map_of_mem hs

theorem of_mem (h : a.Spans (.node id ss)) (hs : s ∈ ss) : a.Spans s := by
  cases h with
  | node _ _ hall => exact hall s hs

theorem not_mem_child (hw : a.WellFormed) (h : a.Spans (.node id ss)) (hs : s ∈ ss) :
    id ∉ s.preorder := fun hm =>
  hw.not_under_of_parent (h.parent_of_mem hw hs) (((h.of_mem hs).mem_preorder hw).1 hm)

theorem pairwise_disjoint (hw : a.WellFormed) (h : a.Spans (.node id ss)) :
    ss.Pairwise fun s t => t.preorder.Disjoint s.preorder := by
  have hnd := hw.nodup id
  have hch : a.children id = ss.map Rose.entry := by
    cases h with
    | node _ hch _ => exact hch
  rw [hch] at hnd
  refine (pairwise_map.1 hnd).imp_of_mem fun {s t} hs ht hne => ?_
  exact disjoint_of_sibling hw (h.of_mem ht) (h.of_mem hs) (Ne.symm hne)
    ((h.parent_of_mem hw ht).trans (h.parent_of_mem hw hs).symm)

theorem of_mem_subtrees {o : Rose Nat} (h : a.Spans s) (ho : o ∈ s.subtrees) : a.Spans o := by
  induction h with
  | @node id ss hlt hch hall ih =>
    rw [Rose.subtrees, Rose.subtreesAll_eq_flatMap, mem_cons] at ho
    rcases ho with rfl | ho
    · exact .node hlt hch hall
    · obtain ⟨s, hs, ho⟩ := mem_flatMap.1 ho
      exact ih s hs ho

theorem entry_eq_of_mem (hw : a.WellFormed) {o : Rose Nat} (h : a.Spans s) (ho : o ∈ s.subtrees)
    (hm : s.entry ∈ o.preorder) : o.entry = s.entry := by
  have hup := ((h.of_mem_subtrees ho).mem_preorder hw).1 hm
  have hdown := (h.mem_preorder hw).1
    (Rose.mem_preorder_of_mem_subtrees ho o.entry_mem_preorder)
  exact hw.under_antisymm hdown hup

theorem nodup (hw : a.WellFormed) (h : a.Spans s) : s.preorder.Nodup := by
  induction h with
  | @node id ss hlt hch hall ih =>
    have hspan : a.Spans (.node id ss) := .node hlt hch hall
    rw [Rose.preorder_node, nodup_cons]
    constructor
    · intro hid
      obtain ⟨s, hs, hx⟩ := mem_flatMap.1 hid
      exact hw.not_under_of_parent (hspan.parent_of_mem hw hs) (((hall s hs).mem_preorder hw).1 hx)
    · refine nodup_flatMap.2 ⟨ih, ?_⟩
      have hnd : ss.Pairwise (fun s t => s.entry ≠ t.entry) := by
        have := hw.nodup id
        rw [hch] at this
        exact pairwise_map.1 this
      refine hnd.imp_of_mem ?_
      intro s t hs ht hne
      exact disjoint_of_sibling hw (hall s hs) (hall t ht) hne
        ((hspan.parent_of_mem hw hs).trans (hspan.parent_of_mem hw ht).symm)

theorem children_eq (hs : a.Spans (.node id ss)) : a.children id = ss.map Rose.entry := by
  cases hs with
  | node _ hch _ => exact hch

theorem size_le (hw : a.WellFormed) (h : a.Spans s) : s.size ≤ a.size := by
  have hle := length_le_of_nodup (h.nodup hw) h.lt_size_of_mem
  rwa [Rose.length_preorder] at hle

theorem unique (h : a.Spans s) : ∀ {t : Rose Nat}, a.Spans t → s.entry = t.entry → s = t := by
  induction h with
  | @node id ss _ hch _ ih =>
    intro t ht hid
    cases ht with
    | @node id' ts _ hch' hall' =>
      cases hid
      rw [hch] at hch'
      congr 1
      refine ext_getElem (by simpa using congrArg length hch') fun i hi hi' => ?_
      refine ih _ (getElem_mem hi) (hall' _ (getElem_mem hi')) ?_
      have := congrArg (·[i]?) hch'
      simpa [hi, hi'] using this

end Spans

/-- A walk down spans the subtree if its bound and the nodes on the way up together
are more than all nodes. -/
theorem spans_shapeWithin (hw : a.WellFormed) :
    ∀ (n id : Nat) (up : List Nat), id < a.size → up.Nodup → (∀ y, y ∈ up ↔ a.Under id y) →
      a.size < n + up.length → a.Spans (a.shapeWithin n id) := by
  intro n
  induction n with
  | zero =>
    intro id up hid hnd hup hlen
    have := length_le_of_nodup hnd fun y hy => ((hup y).1 hy).lt_size hw hid
    omega
  | succ n ih =>
    intro id up hid hnd hup hlen
    rw [shapeWithin]
    refine .node hid ?_ fun s hs => ?_
    · rw [map_map]
      conv_lhs => rw [← map_id (a.children id)]
      apply map_congr_left
      intro c _
      cases n <;> rfl
    · obtain ⟨c, hc, rfl⟩ := mem_map.1 hs
      have hp := (hw.linked id c).1 hc
      refine ih c (c :: up) (hw.child_lt hc) (nodup_cons.2 ⟨?_, hnd⟩) (fun y => ?_)
        (by rw [length_cons]; omega)
      · intro hm
        exact hw.not_under_of_parent hp ((hup c).1 hm)
      · rw [mem_cons, hup, Under.iff_of_parent hp]

/-- **The shape of an allocated node spans its subtree.** -/
theorem spans_shape (hw : a.WellFormed) (hid : id < a.size) : a.Spans (a.shape id) := by
  obtain ⟨up, hnd, hup, -⟩ := (hw.rooted id).exists_lineage
  have hpos : 0 < up.length := length_pos_of_mem ((hup id).2 (.refl id))
  exact spans_shapeWithin hw a.size id up hid hnd hup (by omega)

@[simp] theorem entry_shape (a : Arena) (id : Nat) : (a.shape id).entry = id := by
  unfold shape
  cases a.size <;> rfl

theorem entry_tree (a : Arena) (id : Nat) : (a.tree id).entry = a.label id := by
  rw [tree, Rose.entry_map, entry_shape]

theorem shape_eq_node (a : Arena) (id : Nat) : a.shape id = .node id (a.shape id).children := by
  have hentry := entry_shape a id
  generalize a.shape id = s at hentry ⊢
  obtain ⟨x, ss⟩ := s
  cases hentry
  rfl

section

variable (hw : a.WellFormed)
include hw

theorem spans_children (hid : id < a.size) : a.Spans (.node id (a.shape id).children) := by
  rw [← shape_eq_node]
  exact spans_shape hw hid

theorem exists_shape_of_child {c : Nat} (hid : id < a.size) (hc : c ∈ a.children id) :
    ∃ ss, .node c ss ∈ (a.shape id).children := by
  rw [(spans_children hw hid).children_eq] at hc
  obtain ⟨⟨x, ss⟩, hs, rfl⟩ := mem_map.1 hc
  exact ⟨ss, hs⟩

theorem Spans.shape_eq (h : a.Spans s) : a.shape s.entry = s :=
  (spans_shape hw h.lt_size).unique h (entry_shape a s.entry)

theorem Spans.tree_eq (h : a.Spans s) : a.tree s.entry = s.map a.label := by
  unfold tree
  rw [h.shape_eq hw]

theorem Spans.preorder_eq (h : a.Spans s) : a.preorder s.entry = s.preorder := by
  unfold preorder
  rw [h.shape_eq hw]

theorem tree_eq_node (hid : id < a.size) :
    a.tree id = .node (a.label id) ((a.children id).map a.tree) := by
  have hs := spans_children hw hid
  rw [tree, shape_eq_node, Rose.map_node, hs.children_eq, map_map]
  exact congrArg _ (map_congr_left fun s hmem => ((hs.of_mem hmem).tree_eq hw).symm)

end

/-- **The nodes of one kind are those of the subtree that have it.** -/
theorem ofKind_eq_filter (a : Arena) (id : NodeId) (kind : Kind) :
    a.ofKind id kind = (a.preorder id).filter (a.kind · == kind) := by
  unfold ofKind preorder shape
  generalize a.size = limit
  have hfirst : ∀ id rest, (id :: rest).filter (a.kind · == kind) =
      (if a.kind id = kind then [id] else []) ++ rest.filter (a.kind · == kind) := by
    intro id rest
    by_cases hk : a.kind id = kind <;> simp [hk]
  induction limit generalizing id with
  | zero => exact (append_nil _).symm.trans (hfirst id []).symm
  | succ limit ih =>
    rw [ofKindWithin, shapeWithin, Rose.preorder_node, hfirst, flatMap_map, filter_flatMap]
    exact congrArg _ (flatMap_congr fun child _ => ih child)

theorem shape_setRoot (a : Arena) (r id : Nat) : (a.setRoot r).shape id = a.shape id := by
  have hwithin : ∀ n x, (a.setRoot r).shapeWithin n x = a.shapeWithin n x := by
    intro n
    induction n with
    | zero => intro x; rfl
    | succ n ih =>
      intro x
      rw [shapeWithin, shapeWithin]
      congr 1
      exact map_congr_left fun y _ => ih y
  exact hwithin _ id

theorem tree_setRoot (a : Arena) (r id : Nat) : (a.setRoot r).tree id = a.tree id := by
  unfold tree
  rw [shape_setRoot]
  rfl

mutual

/-- The nodes of a tree numbered in preorder from `n` on. -/
def numbered {α : Type} (n : Nat) : Rose α → Rose Nat
  | .node _ ts => .node n (numberedAll (n + 1) ts)

def numberedAll {α : Type} (n : Nat) : List (Rose α) → List (Rose Nat)
  | [] => []
  | t :: ts => numbered n t :: numberedAll (n + t.size) ts

end

@[simp] theorem entry_numbered (n : Nat) (t : Rose α) : (numbered n t).entry = n := by
  cases t
  rw [numbered, Rose.entry]

mutual

theorem preorder_numbered :
    ∀ (t : Rose α) (n : Nat), (numbered n t).preorder = range' n t.size
  | .node _ ts, n => by
    rw [numbered, Rose.preorder, preorder_numberedAll ts (n + 1), Rose.size, range'_succ]

theorem preorder_numberedAll :
    ∀ (ts : List (Rose α)) (n : Nat),
      Rose.preorderAll (numberedAll n ts) = range' n (Rose.sizeAll ts)
  | [], _ => rfl
  | t :: ts, n => by
    rw [numberedAll, Rose.preorderAll, preorder_numbered t, preorder_numberedAll ts, Rose.sizeAll,
      range'_append_1]

end

theorem mem_preorder_numbered {t : Rose α} {n : Nat} :
    x ∈ (numbered n t).preorder ↔ n ≤ x ∧ x < n + t.size := by
  rw [preorder_numbered, mem_range'_1]

/-- On these nodes the two arenas agree in every view. -/
def SameOn (P : Nat → Prop) (a b : Arena) : Prop :=
  ∀ x, P x → b.label x = a.label x ∧ b.children x = a.children x ∧ b.parent? x = a.parent? x

/-- `b` is `a` with the nodes of a tree, detached and with fresh ids in preorder. -/
structure Grafted (a : Arena) (t : Tree) (b : Arena) : Prop where
  wellFormed : b.WellFormed
  size : b.size = a.size + t.size
  spans : b.Spans (numbered a.size t)
  labels : (numbered a.size t).map b.label = t
  parent? : b.parent? a.size = none
  same : SameOn (· < a.size) a b
  root? : b.root? = a.root?

/-- `b` is `a` with the nodes of trees that were appended below `p`. -/
structure GraftedAll (a : Arena) (p : Nat) (ts : List Tree) (b : Arena) : Prop where
  wellFormed : b.WellFormed
  size : b.size = a.size + Rose.sizeAll ts
  spans : ∀ s ∈ numberedAll a.size ts, b.Spans s
  labels : (numberedAll a.size ts).map (Rose.map b.label) = ts
  children : b.children p = a.children p ++ (numberedAll a.size ts).map Rose.entry
  label : b.label p = a.label p
  parent? : b.parent? p = a.parent? p
  same : SameOn (fun x => x < a.size ∧ x ≠ p) a b
  root? : b.root? = a.root?

theorem WellFormed.attach (hw : a.WellFormed) (hp : p < a.size) (hid : id < a.size)
    (hroot : a.parent? id = none) (hcycle : ¬ a.Under p id) : (a.attach p id).WellFormed := by
  refine hw.link hroot hcycle (fun x hx => ?_) ?_ (fun x => ?_)
  · rw [children_attach hp, if_neg hx]
  · rw [children_attach hp, if_pos rfl]
    exact perm_append_singleton _ _
  · exact parent?_attach hid x

theorem Under.lt_of_sameOn (hw : a.WellFormed) (h : SameOn (· < a.size) a b) {y : Nat}
    (hu : b.Under x y) : x < a.size → y < a.size := by
  induction hu with
  | refl => exact id
  | @child x p y hp _ ih =>
    intro hx
    rw [(h x hx).2.2] at hp
    exact ih (hw.parent_lt hp)

theorem WellFormed.addBelow (hw : a.WellFormed) (hp : p < a.size) (l : Label) :
    (a.addBelow p l).1.WellFormed := by
  have hsame : SameOn (· < a.size) a (a.add l).1 := by
    intro x hx
    rw [label_add, children_add, parent?_add, if_neg (Nat.ne_of_lt hx)]
    exact ⟨rfl, rfl, rfl⟩
  have hroot : (a.add l).1.parent? a.size = none := by
    rw [parent?_add, parent?_eq_none_of_size_le (Nat.le_refl _)]
  refine (hw.add l).attach (by rw [size_add]; omega) (by rw [size_add]; exact Nat.lt_succ_self _)
    hroot fun hu => ?_
  have := hu.lt_of_sameOn hw hsame hp
  exact Nat.lt_irrefl _ this

/-- A grafted tree has no node above an old one. -/
theorem Grafted.not_under (hw : a.WellFormed) {t : Tree} (h : Grafted a t b) (hp : p < a.size) :
    ¬ b.Under p a.size := by
  intro hu
  have hlt := hu.lt_of_sameOn hw h.same hp
  exact Nat.lt_irrefl _ hlt

theorem Grafted.attach (hw : a.WellFormed) {t : Tree} (h : Grafted a t b) (hp : p < a.size) :
    (b.attach p a.size).WellFormed := by
  have hsize : t.size ≠ 0 := by cases t; simp [Rose.size]
  have hp' : p < b.size := by rw [h.size]; omega
  have hid : a.size < b.size := by rw [h.size]; omega
  exact h.wellFormed.attach hp' hid h.parent? (h.not_under hw hp)

mutual

/-- **A grafted tree** has fresh ids in preorder, keeps its labels, and no old node
changes. -/
theorem graft_spec : ∀ (t : Tree) {a : Arena}, a.WellFormed →
    Grafted a t (a.graft t).1 ∧ (a.graft t).2 = a.size
  | .node l ts, a, hw => by
    have h := graftAll_spec ts (hw.add l) (p := a.size) (by simp)
    have hid : (a.add l).2 = a.size := rfl
    rw [graft]
    simp only [hid, and_true]
    have hnil : a.children a.size = [] := children_eq_nil_of_size_le (Nat.le_refl _)
    have hnum : numberedAll (a.size + 1) ts = numberedAll (a.add l).1.size ts := by rw [size_add]
    refine ⟨h.wellFormed, ?_, ?_, ?_, ?_, ?_, h.root?⟩
    · rw [h.size, size_add, Rose.size]
      omega
    · rw [numbered, hnum]
      refine .node (by rw [h.size, size_add]; omega) ?_ h.spans
      rw [h.children, children_add, hnil, nil_append]
    · rw [numbered, hnum, Rose.map_node, h.labels, h.label, label_add, if_pos rfl]
    · rw [h.parent?, parent?_add, parent?_eq_none_of_size_le (Nat.le_refl _)]
    · intro x hx
      obtain ⟨h1, h2, h3⟩ := h.same x ⟨by rw [size_add]; omega, by omega⟩
      rw [h1, h2, h3, label_add, children_add, parent?_add, if_neg (Nat.ne_of_lt hx)]
      exact ⟨rfl, rfl, rfl⟩

theorem graftAll_spec : ∀ (ts : List Tree) {a : Arena} {p : Nat}, a.WellFormed → p < a.size →
    GraftedAll a p ts (a.graftAll p ts)
  | [], a, p, hw, hp => by
    rw [graftAll]
    refine ⟨hw, rfl, ?_, rfl, ?_, rfl, rfl, fun _ _ => ⟨rfl, rfl, rfl⟩, rfl⟩
    · simp [numberedAll]
    · simp [numberedAll]
  | t :: ts, a, p, hw, hp => by
    obtain ⟨ht, hid⟩ := graft_spec t hw
    rw [graftAll]
    simp only [hid]
    generalize (a.graft t).1 = a₁ at ht
    have hsize : t.size ≠ 0 := by cases t; simp [Rose.size]
    have hp₁ : p < a₁.size := by rw [ht.size]; omega
    have hid₁ : a.size < a₁.size := by rw [ht.size]; omega
    have h := graftAll_spec ts (ht.attach hw hp) (p := p) (by rw [size_attach]; exact hp₁)
    have hsz : (a₁.attach p a.size).size = a.size + t.size := by rw [size_attach, ht.size]
    have hspans := h.spans
    have hlabels := h.labels
    have hchildren := h.children
    have hrest := h.same
    have hbsize := h.size
    rw [hsz] at hspans hlabels hchildren hrest hbsize
    obtain ⟨hl, hc, hpar⟩ := ht.same p hp
    -- the nodes of `t` are neither `p` nor changed by what follows
    have hsame : ∀ x : Nat, x ∈ (numbered a.size t).preorder →
        (graftAll (a₁.attach p a.size) p ts).label x = a₁.label x ∧
          (graftAll (a₁.attach p a.size) p ts).children x = a₁.children x := by
      intro x hx
      rw [mem_preorder_numbered] at hx
      obtain ⟨h1, h2, -⟩ := hrest x ⟨by omega, by omega⟩
      rw [h1, h2, label_attach, children_attach hp₁, if_neg (by omega)]
      exact ⟨rfl, rfl⟩
    refine ⟨h.wellFormed, ?_, ?_, ?_, ?_, ?_, ?_, ?_, ?_⟩
    · rw [hbsize, Rose.sizeAll]
      omega
    · intro s hs
      rw [numberedAll] at hs
      rcases mem_cons.1 hs with rfl | hs
      · exact ht.spans.congr (by rw [hbsize, ht.size]; omega) fun x hx => (hsame x hx).2
      · exact hspans s hs
    · rw [numberedAll, map_cons, hlabels, Rose.map_congr fun x hx => (hsame x hx).1, ht.labels]
    · rw [hchildren, children_attach hp₁, if_pos rfl, hc, numberedAll, map_cons,
        entry_numbered, append_assoc]
      rfl
    · rw [h.label, label_attach, hl]
    · rw [h.parent?, parent?_attach hid₁, if_neg (by omega), hpar]
    · intro x hx
      obtain ⟨h1, h2, h3⟩ := hrest x ⟨by omega, hx.2⟩
      obtain ⟨h1', h2', h3'⟩ := ht.same x hx.1
      rw [h1, h2, h3, label_attach, children_attach hp₁, if_neg hx.2, parent?_attach hid₁,
        if_neg (by omega)]
      exact ⟨h1', h2', h3'⟩
    · rw [h.root?, root?_attach, ht.root?]

end

theorem tree_graft (hw : a.WellFormed) (t : Tree) : (a.graft t).1.tree (a.graft t).2 = t := by
  obtain ⟨h, hid⟩ := graft_spec t hw
  have htree := h.spans.tree_eq h.wellFormed
  rw [entry_numbered, h.labels] at htree
  rw [hid, htree]

end Arena

end VecLang
