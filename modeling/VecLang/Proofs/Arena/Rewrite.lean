import VecLang.Proofs.Arena.Shape

/-!
# Rewriting a subtree in place

Two ways to say what a run of edits does to an arena.

* `Changes C M a b`: only nodes of `C` change their children and only nodes of `M`
  their parents, while no node changes its label.
* `Rewrites a s b ss`: the trees `ss` stand where the subtree `s` stood, and no node
  outside of it changes.

Rewritings compose: inside one of the new trees (`Rewrites.trans`) and from a child to
its parent (`Rewrites.under`).
-/

namespace VecLang.Arena

open List

variable {a b c : Arena} {old p id x : Nat} {s : Rose Nat}

/-! ### Changes of some nodes -/

/-- From `a` to `b`, old nodes outside of `C` keep their children, those outside of `M`
their parents, and all of them their labels. -/
structure Changes (C M : Nat → Prop) (a b : Arena) : Prop where
  wellFormed : b.WellFormed
  size : a.size ≤ b.size
  label : ∀ x : Nat, x < a.size → b.label x = a.label x
  children : ∀ x : Nat, x < a.size → ¬ C x → b.children x = a.children x
  parent? : ∀ x : Nat, x < a.size → ¬ M x → b.parent? x = a.parent? x
  root? : b.root? = a.root?

namespace Changes

variable {C M C' M' : Nat → Prop} {s : Rose Nat}

theorem refl (hw : a.WellFormed) : Changes C M a a :=
  ⟨hw, Nat.le_refl _, fun _ _ => rfl, fun _ _ _ => rfl, fun _ _ _ => rfl, rfl⟩

theorem mono (h : Changes C M a b) (hC : ∀ x < a.size, C x → C' x)
    (hM : ∀ x < a.size, M x → M' x) : Changes C' M' a b :=
  ⟨h.wellFormed, h.size, h.label, fun x hx hn => h.children x hx fun hc => hn (hC x hx hc),
    fun x hx hn => h.parent? x hx fun hm => hn (hM x hx hm), h.root?⟩

theorem trans (h : Changes C M a b) (h' : Changes C' M' b c) (hC : ∀ x < a.size, C' x → C x)
    (hM : ∀ x < a.size, M' x → M x) : Changes C M a c := by
  refine ⟨h'.wellFormed, Nat.le_trans h.size h'.size, fun x hx => ?_, fun x hx hn => ?_,
    fun x hx hn => ?_, h'.root?.trans h.root?⟩
  · rw [h'.label x (Nat.lt_of_lt_of_le hx h.size), h.label x hx]
  · rw [h'.children x (Nat.lt_of_lt_of_le hx h.size) fun hc => hn (hC x hx hc),
      h.children x hx hn]
  · rw [h'.parent? x (Nat.lt_of_lt_of_le hx h.size) fun hm => hn (hM x hx hm),
      h.parent? x hx hn]

theorem spans (h : Changes C M a b) (hs : a.Spans s) (hC : ∀ x ∈ s.preorder, ¬ C x) : b.Spans s :=
  hs.congr h.size fun x hx => h.children x (hs.lt_size_of_mem x hx) (hC x hx)

theorem map_label (h : Changes C M a b) (hs : a.Spans s) : s.map b.label = s.map a.label :=
  Rose.map_congr fun x hx => h.label x (hs.lt_size_of_mem x hx)

end Changes

theorem Grafted.changes {C M : Nat → Prop} {t : Tree} (h : Grafted a t b) : Changes C M a b :=
  ⟨h.wellFormed, by rw [h.size]; omega, fun x hx => (h.same x hx).1, fun x hx _ => (h.same x hx).2.1,
    fun x hx _ => (h.same x hx).2.2, h.root?⟩

/-! ### Replacing a node -/

/-- `b` is `a` in which the node `new` was taken out of its place and stands in that of
`old`, which is detached. -/
structure Replaced (a : Arena) (old new : Nat) (b : Arena) : Prop where
  wellFormed : b.WellFormed
  size : b.size = a.size
  label : ∀ x : Nat, b.label x = a.label x
  placed : ∃ p, a.parent? old = some p
  children : ∀ x : Nat, a.parent? new ≠ some x → b.children x = swapIn old new (a.children x)
  parent? : ∀ x : Nat, b.parent? x =
    if x = new then a.parent? old else if x = old then none else a.parent? x
  root? : b.root? = a.root?

theorem replaceInParent_replaced (hw : a.WellFormed) {new : Nat} (hnew : new < a.size)
    (hne : old ≠ new) (h : a.replaceInParent old new = .ok b) : Replaced a old new b := by
  have hb := hw.replaceInParent hnew h
  unfold replaceInParent at h
  split at h
  swap
  · cases h
  next p hp =>
  obtain ⟨-, ⟨he, -⟩ | ⟨-, -, hm⟩⟩ := replace_moved hw hnew h
  · exact absurd he hne
  refine ⟨hb, by rw [hm.size, size_detach], fun x => by rw [hm.label, label_detach], ⟨p, hp⟩,
    fun x hx => ?_, fun x => ?_, by rw [hm.root?, root?_detach]⟩
  · have hskip : new ∉ a.children x := fun hmem => hx ((hw.linked x new).1 hmem)
    rw [hm.children]
    split
    · next he => rw [he] at hskip ⊢; rw [filter_ne_eq_self hskip]
    · next he =>
      -- `old` is listed by `p` alone, so elsewhere nothing is swapped or taken out
      have hold : old ∉ a.children x := by
        intro hmem
        rw [hw.linked, hp] at hmem
        exact he (Option.some.inj hmem).symm
      rw [children_detach hw, filter_ne_eq_self hold, filter_ne_eq_self hskip, swapIn_eq_self hold]
  · rw [hm.parent?, parent?_detach, hp]

namespace Replaced

variable {old new : Nat}

theorem changes (h : Replaced a old new b) (hw : a.WellFormed) :
    Changes (fun x => a.parent? old = some x ∨ a.parent? new = some x)
      (fun x => x = old ∨ x = new) a b := by
  refine ⟨h.wellFormed, Nat.le_of_eq h.size.symm, fun x _ => h.label x, fun x _ hx => ?_,
    fun x _ hx => ?_, h.root?⟩
  · rw [not_or] at hx
    rw [h.children x hx.2, swapIn_eq_self]
    exact fun hm => hx.1 ((hw.linked x old).1 hm)
  · rw [not_or] at hx
    rw [h.parent?, if_neg hx.2, if_neg hx.1]

end Replaced

/-! ### Appending a node -/

theorem add_changes {C M : Nat → Prop} (hw : a.WellFormed) (l : Label) :
    Changes C M a (a.add l).1 :=
  ⟨hw.add l, by rw [size_add]; omega, fun x hx => by rw [label_add, if_neg (Nat.ne_of_lt hx)],
    fun x _ _ => children_add a l x, fun x _ _ => parent?_add a l x, rfl⟩

theorem spans_add (l : Label) :
    (a.add l).1.Spans (.node a.size []) ∧ (a.add l).1.parent? a.size = none := by
  refine ⟨.node ?_ ?_ fun _ hm => (by cases hm), ?_⟩
  · rw [size_add]
    exact Nat.lt_succ_self _
  · rw [children_add, children_eq_nil_of_size_le (Nat.le_refl _)]
    rfl
  · rw [parent?_add, parent?_eq_none_of_size_le (Nat.le_refl _)]

theorem pushNode_changes (hw : a.WellFormed) (hp : p < a.size) (hid : id < a.size)
    (h : a.pushNode p id = .ok b) :
    Changes (fun x => x = p ∨ a.parent? id = some x) (· = id) a b ∧ b.size = a.size ∧
      b.children p = (a.children p).filter (· != id) ++ [id] := by
  obtain ⟨-, hm⟩ := pushNode_moved hw hp hid h
  refine ⟨⟨hw.pushNode hp hid h, Nat.le_of_eq hm.size.symm, fun x _ => hm.label x, fun x _ hx => ?_,
    fun x _ hx => ?_, hm.root?⟩, hm.size, by rw [hm.children, if_pos rfl]⟩
  · rw [not_or] at hx
    rw [hm.children, if_neg hx.1, filter_ne_eq_self]
    exact fun hmem => hx.2 ((hw.linked x id).1 hmem)
  · rw [hm.parent?, if_neg hx]

theorem addBelow_changes (hw : a.WellFormed) (hp : p < a.size) (l : Label) :
    Changes (· = p) (fun _ => False) a (a.addBelow p l).1 ∧
      (a.addBelow p l).1.size = a.size + 1 ∧
      (a.addBelow p l).1.children p = a.children p ++ [a.size] ∧
      (a.addBelow p l).1.children a.size = [] ∧ (a.addBelow p l).1.label a.size = l := by
  have hwell := hw.addBelow hp l
  have hp₁ : p < (a.add l).1.size := by rw [size_add]; omega
  have hid₁ : a.size < (a.add l).1.size := by rw [size_add]; omega
  change Changes _ _ a ((a.add l).1.attach p a.size) ∧ _
  refine ⟨⟨hwell, by rw [size_attach, size_add]; omega, fun x hx => ?_, fun x hx hne => ?_,
    fun x hx _ => ?_, rfl⟩, by rw [← size_add a l]; exact size_attach .., ?_, ?_, ?_⟩
  · rw [label_attach, label_add, if_neg (Nat.ne_of_lt hx)]
  · rw [children_attach hp₁, if_neg hne, children_add]
  · rw [parent?_attach hid₁, if_neg (Nat.ne_of_lt hx), parent?_add]
  · change ((a.add l).1.attach p a.size).children p = _
    rw [children_attach hp₁, if_pos rfl, children_add]
  · change ((a.add l).1.attach p a.size).children a.size = _
    rw [children_attach hp₁, if_neg (Nat.ne_of_gt hp), children_add,
      children_eq_nil_of_size_le (Nat.le_refl _)]
  · change ((a.add l).1.attach p a.size).label a.size = _
    rw [label_attach, label_add, if_pos rfl]

/-! ### Placing nodes -/

theorem label_setPos (hid : id < a.size) (pos : Pos) (x : Nat) :
    (a.setPos id pos).label x = if x = id then { a.label id with pos } else a.label x := by
  unfold setPos
  rw [label_setLabel]
  by_cases hx : x = id
  · rw [if_pos ⟨hx.symm, hid⟩, if_pos hx]
  · rw [if_neg fun h => hx h.1.symm, if_neg hx]

@[simp] theorem children_setPos (a : Arena) (id x : Nat) (pos : Pos) :
    (a.setPos id pos).children x = a.children x := children_setLabel ..

@[simp] theorem parent?_setPos (a : Arena) (id x : Nat) (pos : Pos) :
    (a.setPos id pos).parent? x = a.parent? x := parent?_setLabel ..

@[simp] theorem size_setPos (a : Arena) (id : Nat) (pos : Pos) : (a.setPos id pos).size = a.size :=
  size_modify ..

theorem foldl_setPos (pos : Pos) : ∀ (l : List Nat) {a : Arena}, (∀ x ∈ l, x < a.size) →
    (l.foldl (fun a n => a.setPos n pos) a).size = a.size ∧
    (∀ x, (l.foldl (fun a n => a.setPos n pos) a).label x =
      if x ∈ l then { a.label x with pos } else a.label x) ∧
    (∀ x, (l.foldl (fun a n => a.setPos n pos) a).children x = a.children x) ∧
    (∀ x, (l.foldl (fun a n => a.setPos n pos) a).parent? x = a.parent? x) ∧
    (l.foldl (fun a n => a.setPos n pos) a).root? = a.root? := by
  intro l
  induction l with
  | nil => intro a _; exact ⟨rfl, fun x => by simp, fun _ => rfl, fun _ => rfl, rfl⟩
  | cons n l ih =>
    intro a hl
    have hn := hl n (.head _)
    obtain ⟨hsize, hlabel, hchildren, hparent, hroot⟩ :=
      ih (a := a.setPos n pos) fun x hx => by
        rw [size_setPos]
        exact hl x (.tail _ hx)
    rw [foldl_cons]
    refine ⟨hsize.trans (size_setPos ..), fun x => ?_, fun x => ?_, fun x => ?_, hroot⟩
    · rw [hlabel, label_setPos hn]
      by_cases hx : x = n
      · subst hx
        by_cases hm : x ∈ l <;> simp [hm]
      · simp [hx]
    · rw [hchildren, children_setPos]
    · rw [hparent, parent?_setPos]

/-! ### The list of children after a rewriting -/

def splice (old : Nat) (news l : List Nat) : List Nat :=
  l.flatMap fun c => if c = old then news else [c]

theorem splice_append (old : Nat) (news l l' : List Nat) :
    splice old news (l ++ l') = splice old news l ++ splice old news l' :=
  flatMap_append

theorem splice_eq_self {news l : List Nat} (h : old ∉ l) : splice old news l = l := by
  induction l with
  | nil => rfl
  | cons c l ih =>
    rw [mem_cons, not_or] at h
    unfold splice at ih ⊢
    rw [flatMap_cons, if_neg (Ne.symm h.1), ih h.2]
    rfl

theorem splice_singleton_self (old : Nat) (l : List Nat) : splice old [old] l = l := by
  induction l with
  | nil => rfl
  | cons c l ih =>
    unfold splice at ih ⊢
    rw [flatMap_cons, ih]
    split
    · next h => rw [h]; rfl
    · rfl

theorem swapIn_eq_splice (old new : Nat) (l : List Nat) : swapIn old new l = splice old [new] l := by
  induction l with
  | nil => rfl
  | cons c l ih =>
    unfold swapIn splice at ih ⊢
    rw [map_cons, flatMap_cons, ih]
    split <;> rfl

theorem splice_at {news l l' : List Nat} (h : (l ++ old :: l').Nodup) :
    splice old news (l ++ old :: l') = l ++ news ++ l' := by
  obtain ⟨-, h', hd⟩ := nodup_append.1 h
  have hl : old ∉ l := fun hm => hd old hm old (.head _) rfl
  have hl' : old ∉ l' := (nodup_cons.1 h').1
  have hcons : splice old news (old :: l') = news ++ splice old news l' := by
    simp [splice]
  rw [splice_append, splice_eq_self hl, hcons, splice_eq_self hl', append_assoc]

theorem splice_splice {new : Nat} {pre news post l : List Nat} (hnd : (pre ++ new :: post).Nodup)
    (h : ∀ c ∈ l, c ≠ old → c ≠ new) :
    splice new news (splice old (pre ++ new :: post) l) = splice old (pre ++ news ++ post) l := by
  induction l with
  | nil => rfl
  | cons c l ih =>
    have hcons : ∀ ns, splice old ns (c :: l) = (if c = old then ns else [c]) ++ splice old ns l :=
      fun ns => by simp [splice]
    rw [hcons, hcons, splice_append, ih fun d hd => h d (.tail _ hd)]
    congr 1
    split
    · exact splice_at hnd
    · next hc =>
      refine splice_eq_self fun hm => ?_
      exact h c (.head _) hc (mem_singleton.1 hm).symm

/-! ### Rewritings -/

/-- **The trees `ss` of `b` stand where the subtree `s` of `a` stood.** Their nodes are
nodes of `s` or new ones, and nothing changes outside of `s`. -/
structure Rewrites (a : Arena) (s : Rose Nat) (b : Arena) (ss : List (Rose Nat)) : Prop where
  before : a.WellFormed
  focus : a.Spans s
  wellFormed : b.WellFormed
  size : a.size ≤ b.size
  spans : ∀ t ∈ ss, b.Spans t
  ids : ∀ t ∈ ss, ∀ x : Nat, x ∈ t.preorder → x ∈ s.preorder ∨ a.size ≤ x
  nodup : (ss.map Rose.entry).Nodup
  label : ∀ x : Nat, x < a.size → x ∉ s.preorder → b.label x = a.label x
  children : ∀ x : Nat, x < a.size → x ∉ s.preorder →
    b.children x = splice s.entry (ss.map Rose.entry) (a.children x)
  parent? : ∀ x : Nat, x < a.size → x ∉ s.preorder → b.parent? x = a.parent? x
  place : ∀ t ∈ ss, b.parent? t.entry = a.parent? s.entry
  root? : b.root? = a.root?

section

variable (hw : a.WellFormed) (hs : a.Spans s)
include hw hs

theorem Spans.not_under (hx : x ∉ s.preorder) : ¬ a.Under x s.entry :=
  fun hu => hx ((hs.mem_preorder hw).2 hu)

theorem Spans.exists_parent (hx : x ∈ s.preorder) (hne : x ≠ s.entry) :
    ∃ p, a.parent? x = some p ∧ p ∈ s.preorder := by
  cases (hs.mem_preorder hw).1 hx with
  | refl => exact absurd rfl hne
  | child hp hu => exact ⟨_, hp, (hs.mem_preorder hw).2 hu⟩

theorem Spans.parent_mem (hx : x ∈ s.preorder) (hne : x ≠ s.entry) (hp : a.parent? x = some p) :
    p ∈ s.preorder := by
  obtain ⟨q, hq, hm⟩ := hs.exists_parent hw hx hne
  rw [hp] at hq
  cases hq
  exact hm

theorem Spans.not_listed {y : Nat} (hx : x ∉ s.preorder) (hy : y ∈ s.preorder) (hne : y ≠ s.entry) :
    y ∉ a.children x :=
  fun hm => hx (hs.parent_mem hw hy hne ((hw.linked x y).1 hm))

end

section Around

variable {t u : Rose Nat} {pre post : List (Rose Nat)}

theorem mem_around (hu : u ∈ pre ∨ u ∈ post) : u ∈ pre ++ t :: post := by
  rcases hu with hu | hu
  · exact mem_append_left _ hu
  · exact mem_append_right _ (.tail _ hu)

theorem entry_ne_of_nodup (hnd : ((pre ++ t :: post).map Rose.entry).Nodup)
    (hu : u ∈ pre ∨ u ∈ post) : u.entry ≠ t.entry := by
  rw [map_append, map_cons, nodup_append] at hnd
  obtain ⟨-, hpost, hd⟩ := hnd
  rcases hu with hu | hu
  · exact hd _ (mem_map_of_mem hu) _ (.head _)
  · exact fun he => (nodup_cons.1 hpost).1 (he ▸ mem_map_of_mem hu)

theorem Spans.around (hw : a.WellFormed) (hs : a.Spans (.node id (pre ++ t :: post)))
    (hu : u ∈ pre ∨ u ∈ post) : a.Spans u ∧ u.preorder.Disjoint t.preorder := by
  have ht : t ∈ pre ++ t :: post := mem_append_right _ (.head _)
  have hne : u.entry ≠ t.entry := by
    have hnd := hw.nodup id
    rw [hs.children_eq] at hnd
    exact entry_ne_of_nodup hnd hu
  exact ⟨hs.of_mem (mem_around hu), disjoint_of_sibling hw (hs.of_mem (mem_around hu)) (hs.of_mem ht)
    hne ((hs.parent_of_mem hw (mem_around hu)).trans (hs.parent_of_mem hw ht).symm)⟩

end Around

namespace Rewrites

variable {s t : Rose Nat} {pre post ss us : List (Rose Nat)} {u : Rose Nat}

theorem refl (hw : a.WellFormed) (hs : a.Spans s) : Rewrites a s a [s] := by
  refine ⟨hw, hs, hw, Nat.le_refl _, ?_, ?_, by simp, fun _ _ _ => rfl, fun x _ _ => ?_,
    fun _ _ _ => rfl, ?_, rfl⟩
  · intro t ht
    rw [mem_singleton.1 ht]
    exact hs
  · intro t ht x hx
    rw [mem_singleton.1 ht] at hx
    exact .inl hx
  · exact (splice_singleton_self _ _).symm
  · intro t ht
    rw [mem_singleton.1 ht]

theorem keeps (h : Rewrites a s b ss) (hu : a.Spans u) (hd : u.preorder.Disjoint s.preorder) :
    b.Spans u ∧ u.map b.label = u.map a.label := by
  constructor
  · refine hu.congr h.size fun x hx => ?_
    rw [h.children x (hu.lt_size_of_mem x hx) (hd hx), splice_eq_self]
    intro hm
    exact hd (hu.closed hx hm) s.entry_mem_preorder
  · exact Rose.map_congr fun x hx => h.label x (hu.lt_size_of_mem x hx) (hd hx)

theorem disjoint (h : Rewrites a s b (pre ++ t :: post)) (hu : u ∈ pre ∨ u ∈ post) :
    b.Spans u ∧ u.preorder.Disjoint t.preorder := by
  have ht : t ∈ pre ++ t :: post := mem_append_right _ (.head _)
  have hmem : u ∈ pre ++ t :: post := mem_around hu
  exact ⟨h.spans u hmem, Spans.disjoint_of_sibling h.wellFormed (h.spans u hmem) (h.spans t ht)
    (entry_ne_of_nodup h.nodup hu) ((h.place u hmem).trans (h.place t ht).symm)⟩

/-- **Rewriting one of the new trees again.** -/
theorem trans (h : Rewrites a s b (pre ++ t :: post)) (h' : Rewrites b t c us) :
    Rewrites a s c (pre ++ us ++ post) := by
  have ht : t ∈ pre ++ t :: post := mem_append_right _ (.head _)
  have hout : ∀ x : Nat, x < a.size → x ∉ s.preorder → x < b.size ∧ x ∉ t.preorder := by
    intro x hx hns
    refine ⟨Nat.lt_of_lt_of_le hx h.size, fun hxt => ?_⟩
    rcases h.ids t ht x hxt with hs | hge
    · exact hns hs
    · exact Nat.not_le_of_lt hx hge
  have hsplit : ∀ u ∈ pre ++ us ++ post, u ∈ us ∨ u ∈ pre ∨ u ∈ post := by
    intro u hu
    simp only [mem_append] at hu
    tauto
  refine ⟨h.before, h.focus, h'.wellFormed, Nat.le_trans h.size h'.size, ?_, ?_, ?_, ?_, ?_, ?_,
    ?_, h'.root?.trans h.root?⟩
  · intro u hu
    rcases hsplit u hu with hu | hu
    · exact h'.spans u hu
    · obtain ⟨hspan, hd⟩ := h.disjoint hu
      exact (h'.keeps hspan hd).1
  · intro u hu x hx
    rcases hsplit u hu with hu | hu
    · rcases h'.ids u hu x hx with hxt | hge
      · exact h.ids t ht x hxt
      · exact .inr (Nat.le_trans h.size hge)
    · exact h.ids u (mem_around hu) x hx
  · -- a new root is a node of `t` or a fresh one, so no root of the other trees
    have hnd := h.nodup
    rw [map_append, map_cons, nodup_append] at hnd
    obtain ⟨hpre, hpost, hd⟩ := hnd
    have hnew : ∀ u ∈ us, ∀ v, v ∈ pre ∨ v ∈ post → u.entry ≠ v.entry := by
      intro u hu v hv he
      obtain ⟨hspan, hdis⟩ := h.disjoint hv
      rcases h'.ids u hu u.entry u.entry_mem_preorder with hm | hge
      · exact hdis v.entry_mem_preorder (he ▸ hm)
      · have := hspan.lt_size
        rw [he] at hge
        exact Nat.not_le_of_lt this hge
    rw [map_append, map_append, append_assoc]
    refine nodup_append.2 ⟨hpre, nodup_append.2 ⟨h'.nodup, (nodup_cons.1 hpost).2, ?_⟩, ?_⟩
    · intro x hx y hy
      obtain ⟨u, hu, rfl⟩ := mem_map.1 hx
      obtain ⟨v, hv, rfl⟩ := mem_map.1 hy
      exact hnew u hu v (.inr hv)
    · intro x hx y hy
      obtain ⟨v, hv, rfl⟩ := mem_map.1 hx
      rcases mem_append.1 hy with hy | hy
      · obtain ⟨u, hu, rfl⟩ := mem_map.1 hy
        exact (hnew u hu v (.inl hv)).symm
      · exact hd _ hx _ (.tail _ hy)
  · intro x hx hns
    obtain ⟨hxb, hxt⟩ := hout x hx hns
    rw [h'.label x hxb hxt, h.label x hx hns]
  · intro x hx hns
    obtain ⟨hxb, hxt⟩ := hout x hx hns
    have hnd := h.nodup
    rw [h'.children x hxb hxt, h.children x hx hns]
    rw [map_append, map_cons] at hnd ⊢
    rw [splice_splice hnd, map_append, map_append]
    intro y hy hne he
    rcases h.ids t ht t.entry t.entry_mem_preorder with hm | hge
    · exact h.focus.not_listed h.before hns (he ▸ hm) hne hy
    · have := h.before.child_lt hy
      rw [← he] at hge
      exact Nat.not_le_of_lt this hge
  · intro x hx hns
    obtain ⟨hxb, hxt⟩ := hout x hx hns
    rw [h'.parent? x hxb hxt, h.parent? x hx hns]
  · intro u hu
    rcases hsplit u hu with hu | hu
    · rw [h'.place u hu, h.place t ht]
    · obtain ⟨hspan, hdis⟩ := h.disjoint hu
      rw [h'.parent? u.entry hspan.lt_size (hdis u.entry_mem_preorder), h.place u (mem_around hu)]

theorem trans_one (h : Rewrites a s b [t]) (h' : Rewrites b t c us) : Rewrites a s c us := by
  have hboth : Rewrites a s c ([] ++ us ++ []) := trans h h'
  rwa [nil_append, append_nil] at hboth

/-- **Rewriting a child rewrites its parent.** -/
theorem under (hs : a.Spans (.node id (pre ++ t :: post))) (h : Rewrites a t b us) :
    Rewrites a (.node id (pre ++ t :: post)) b [.node id (pre ++ us ++ post)] := by
  have hw := h.before
  have ht : t ∈ pre ++ t :: post := mem_append_right _ (.head _)
  have hsub : ∀ x ∈ t.preorder, x ∈ (Rose.node id (pre ++ t :: post)).preorder :=
    fun x hx => Rose.mem_preorder_of_mem ht hx
  have hpar := hs.parent_of_mem hw ht
  have hid : id ∉ t.preorder := fun hm =>
    hw.not_under_of_parent hpar ((h.focus.mem_preorder hw).1 hm)
  have hch := hs.children_eq
  have hnd := hw.nodup id
  rw [hch, map_append, map_cons] at hnd
  -- of the nodes around `t` only `id` has other children than before
  have hspan : b.Spans (.node id (pre ++ us ++ post)) := by
    refine .node (Nat.lt_of_lt_of_le hs.lt_size h.size) ?_ fun u hu => ?_
    · rw [h.children id hs.lt_size hid, hch, map_append, map_cons, splice_at hnd,
        map_append, map_append]
    · simp only [mem_append] at hu
      rcases hu with (hu | hu) | hu
      · obtain ⟨hspan, hd⟩ := hs.around hw (.inl hu)
        exact (h.keeps hspan hd).1
      · exact h.spans u hu
      · obtain ⟨hspan, hd⟩ := hs.around hw (.inr hu)
        exact (h.keeps hspan hd).1
  refine ⟨hw, hs, h.wellFormed, h.size, ?_, ?_, by simp, fun x hx hn => ?_, fun x hx hn => ?_,
    fun x hx hn => ?_, ?_, h.root?⟩
  · intro u hu
    rw [mem_singleton.1 hu]
    exact hspan
  · intro u hu x hx
    rw [mem_singleton.1 hu, Rose.preorder_node, mem_cons, mem_flatMap] at hx
    rcases hx with rfl | ⟨v, hv, hx⟩
    · exact .inl (by simp)
    simp only [mem_append] at hv
    rcases hv with (hv | hv) | hv
    · exact .inl (Rose.mem_preorder_of_mem (mem_append_left _ hv) hx)
    · exact (h.ids v hv x hx).imp_left (hsub x)
    · exact .inl (Rose.mem_preorder_of_mem
        (mem_append_right _ (.tail _ hv)) hx)
  · exact h.label x hx fun hm => hn (hsub x hm)
  · rw [h.children x hx fun hm => hn (hsub x hm), splice_eq_self]
    · exact (splice_singleton_self _ _).symm
    · intro hm
      rw [hw.linked, hpar] at hm
      cases hm
      exact hn (by simp)
  · exact h.parent? x hx fun hm => hn (hsub x hm)
  · intro u hu
    rw [mem_singleton.1 hu]
    exact h.parent? id hs.lt_size hid

/-- Changing the new trees from inside: nothing outside of `s` changes, and the roots
of the new trees stay where they are. -/
theorem within {C M : Nat → Prop} (h : Rewrites a s b ss) (hch : Changes C M b c)
    (hC : ∀ x : Nat, C x → x ∈ s.preorder ∨ a.size ≤ x)
    (hM : ∀ x : Nat, M x → x ∈ s.preorder ∨ a.size ≤ x)
    (hroots : us.map Rose.entry = ss.map Rose.entry) (hfix : ∀ u ∈ us, ¬ M u.entry)
    (hspans : ∀ u ∈ us, c.Spans u)
    (hids : ∀ u ∈ us, ∀ x : Nat, x ∈ u.preorder → x ∈ s.preorder ∨ a.size ≤ x) :
    Rewrites a s c us := by
  have hin : ∀ {P : Nat → Prop}, (∀ x : Nat, P x → x ∈ s.preorder ∨ a.size ≤ x) →
      ∀ x : Nat, x < a.size → x ∉ s.preorder → ¬ P x := by
    intro P hP x hx hn hp
    rcases hP x hp with hm | hge
    · exact hn hm
    · exact Nat.not_le_of_lt hx hge
  refine ⟨h.before, h.focus, hch.wellFormed, Nat.le_trans h.size hch.size, hspans, hids,
    hroots ▸ h.nodup, fun x hx hn => ?_, fun x hx hn => ?_, fun x hx hn => ?_, fun u hu => ?_,
    hch.root?.trans h.root?⟩
  · rw [hch.label x (Nat.lt_of_lt_of_le hx h.size), h.label x hx hn]
  · rw [hch.children x (Nat.lt_of_lt_of_le hx h.size) (hin hC x hx hn), h.children x hx hn, hroots]
  · rw [hch.parent? x (Nat.lt_of_lt_of_le hx h.size) (hin hM x hx hn), h.parent? x hx hn]
  · have hmem : u.entry ∈ ss.map Rose.entry := hroots ▸ mem_map_of_mem hu
    obtain ⟨t, ht, he⟩ := mem_map.1 hmem
    have hlt : u.entry < b.size := he ▸ (h.spans t ht).lt_size
    rw [hch.parent? u.entry hlt (hfix u hu), ← he, h.place t ht]

/-- Putting a detached tree, made of nodes of `s` and of new ones, in the place of `s`. -/
theorem of_replaceInParent {C M : Nat → Prop} (hw : a.WellFormed) (hs : a.Spans s)
    (hch : Changes C M a b) (hC : ∀ x : Nat, C x → x ∈ s.preorder ∨ a.size ≤ x)
    (hM : ∀ x : Nat, M x → x ∈ s.preorder ∨ a.size ≤ x) (hfix : ¬ M s.entry)
    (ht : b.Spans t) (htop : b.parent? t.entry = none) (hout : s.entry ∉ t.preorder)
    (hids : ∀ x : Nat, x ∈ t.preorder → x ∈ s.preorder ∨ a.size ≤ x)
    (h : b.replaceInParent s.entry t.entry = .ok c) : Rewrites a s c [t] := by
  have hne : s.entry ≠ t.entry := fun he => hout (he ▸ t.entry_mem_preorder)
  have hr := replaceInParent_replaced hch.wellFormed ht.lt_size hne h
  have hin : ∀ {P : Nat → Prop}, (∀ x : Nat, P x → x ∈ s.preorder ∨ a.size ≤ x) →
      ∀ x : Nat, x < a.size → x ∉ s.preorder → ¬ P x := by
    intro P hP x hx hn hp
    rcases hP x hp with hm | hge
    · exact hn hm
    · exact Nat.not_le_of_lt hx hge
  have hfree : ∀ x, b.parent? t.entry ≠ some x := by
    intro x he
    rw [htop] at he
    cases he
  refine ⟨hw, hs, hr.wellFormed, by rw [hr.size]; exact hch.size, ?_, ?_, by simp,
    fun x hx hn => ?_, fun x hx hn => ?_, fun x hx hn => ?_, ?_, hr.root?.trans hch.root?⟩
  · intro u hu
    rw [mem_singleton.1 hu]
    refine ht.congr (Nat.le_of_eq hr.size.symm) fun x hx => ?_
    rw [hr.children x (hfree x), swapIn_eq_self]
    exact fun hm => hout (ht.closed hx hm)
  · intro u hu
    rw [mem_singleton.1 hu]
    exact hids
  · rw [hr.label, hch.label x hx]
  · rw [hr.children x (hfree x), hch.children x hx (hin hC x hx hn), swapIn_eq_splice]
    rfl
  · have hxt : x ≠ t.entry := by
      rintro rfl
      exact hin (P := (· ∈ t.preorder)) hids t.entry hx hn t.entry_mem_preorder
    have hxs : x ≠ s.entry := by
      rintro rfl
      exact hn s.entry_mem_preorder
    rw [hr.parent?, if_neg hxt, if_neg hxs, hch.parent? x hx (hin hM x hx hn)]
  · intro u hu
    rw [mem_singleton.1 hu, hr.parent?, if_pos rfl, hch.parent? s.entry hs.lt_size hfix]

end Rewrites

end VecLang.Arena
