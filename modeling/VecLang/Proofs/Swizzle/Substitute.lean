import VecLang.Proofs.Arena.Fill
import VecLang.Proofs.Grammar.Parsing
import VecLang.Proofs.Steps
import VecLang.Swizzle.Lower

/-!
# Templates and their operands

What the steps of the lowering do to an arena: a template is parsed to a detached tree
of new nodes, all at one position, and an operand takes the place of every name that
stands for it.

* `Tree.subst`: an operand in the place of a name.
* `parseSnippet_runs`: the tree of a template.
* `substitute_runs`: substituting in an arena is substituting in its tree.
-/

namespace VecLang

variable {s : Rose Nat} {todo : List Nat}

namespace Tree

def placed (pos : Pos) (t : Tree) : Tree := t.map fun l => { l with pos }

def forName (name : String) (u : Tree) (l : Label) : Option Tree :=
  if l.kind = .ident ∧ l.name? = some name then some u else none

/-- The tree with `u` in the place of every identifier `name`. -/
def subst (name : String) (u t : Tree) : Tree := t.expand (forName name u) id

@[simp] theorem placed_node (pos : Pos) (l : Label) (ts : List Tree) :
    placed pos (.node l ts) = .node { l with pos } (ts.map (placed pos)) :=
  Rose.map_node _ _ _

theorem placed_eq_of_unplaced {t u : Tree} (pos : Pos) (h : t.unplaced = u.unplaced) :
    t.placed pos = u.placed pos := by
  have hboth : ∀ t : Tree, t.placed pos = t.unplaced.placed pos := by
    intro t
    unfold placed unplaced
    rw [Rose.map_map]
    rfl
  rw [hboth t, h, ← hboth u]

theorem subst_node (name : String) (u : Tree) (l : Label) (ts : List Tree) :
    subst name u (.node l ts) =
      if l.kind = .ident ∧ l.name? = some name then u else .node l (ts.map (subst name u)) := by
  unfold subst
  by_cases h : l.kind = .ident ∧ l.name? = some name
  · have hf : forName name u l = some u := if_pos h
    rw [if_pos h, Rose.expand_some hf]
  · have hf : forName name u l = none := if_neg h
    rw [if_neg h, Rose.expand_none hf]
    rfl

theorem entry_subst (name : String) (u : Tree) {t : Tree} (h : t.entry.kind ≠ .ident) :
    (subst name u t).entry = t.entry := by
  obtain ⟨l, ts⟩ := t
  rw [subst_node, if_neg fun hl => h hl.1]
  rfl

end Tree

namespace Arena

variable {a b : Arena}

/-- **Placing a subtree** changes nothing but the positions of its nodes. -/
theorem placeAt_spec (hw : a.WellFormed) (hs : a.Spans s) (pos : Pos) :
    (a.placeAt s.entry pos).WellFormed ∧ (a.placeAt s.entry pos).size = a.size ∧
    (a.placeAt s.entry pos).Spans s ∧
    s.map (a.placeAt s.entry pos).label = Tree.placed pos (s.map a.label) ∧
    (∀ x, x ∉ s.preorder → (a.placeAt s.entry pos).label x = a.label x) ∧
    (∀ x, (a.placeAt s.entry pos).children x = a.children x) ∧
    (∀ x, (a.placeAt s.entry pos).parent? x = a.parent? x) ∧
    (a.placeAt s.entry pos).root? = a.root? := by
  unfold placeAt
  rw [hs.preorder_eq hw]
  obtain ⟨hsize, hlabel, hchildren, hparent, hroot⟩ := foldl_setPos pos s.preorder hs.lt_size_of_mem
  refine ⟨hw.congr hchildren hparent, hsize, hs.congr (Nat.le_of_eq hsize.symm)
    fun x _ => hchildren x, ?_, fun x hx => ?_, hchildren, hparent, hroot⟩
  · unfold Tree.placed
    rw [Rose.map_map]
    refine Rose.map_congr fun x hx => ?_
    rw [hlabel, if_pos hx]
    rfl
  · rw [hlabel, if_neg hx]

end Arena

namespace Swizzle

open ScopeWalk Arena

variable {v v' : View Unit}

theorem edit_eq_ok {α : Type} {f : Arena → Except Error (Arena × α)} {r : α} :
    edit f v = .ok r v' ↔ ∃ a, f v.arena = .ok (a, r) ∧ v' = { v with arena := a } := by
  unfold edit
  rw [Steps.get_bind]
  cases hf : f v.arena with
  | error e => simp
  | ok p =>
    obtain ⟨a, x⟩ := p
    simp only [Steps.bind_eq_ok, Steps.set_eq_ok, Steps.pure_eq_ok, Except.ok.injEq, Prod.mk.injEq]
    constructor
    · rintro ⟨_, t, rfl, rfl, rfl⟩
      exact ⟨a, ⟨rfl, rfl⟩, rfl⟩
    · rintro ⟨_, ⟨rfl, rfl⟩, rfl⟩
      exact ⟨(), _, rfl, rfl, rfl⟩

theorem perform_eq_ok {f : Arena → Except Error Arena} {u : Unit} :
    perform f v = .ok u v' ↔ ∃ a, f v.arena = .ok a ∧ v' = { v with arena := a } := by
  unfold perform
  rw [edit_eq_ok]
  cases hf : f v.arena with
  | error e => simp [bind, Except.bind]
  | ok a => simp [bind, Except.bind, pure, Except.pure]

section Runs

variable {α β : Type} {f : Arena → Except Error (Arena × α)} {g : Arena → Except Error Arena}
  {a : Arena} {r : α} {Q : β → View Unit → Prop}

theorem runs_edit_bind {k : α → Lowering β} (h : f v.arena = .ok (a, r))
    (hk : Steps.Runs (k r) { v with arena := a } Q) : Steps.Runs (edit f >>= k) v Q := by
  obtain ⟨b, v', hb, hQ⟩ := hk
  exact ⟨b, v', Steps.bind_eq_ok.2 ⟨r, _, edit_eq_ok.2 ⟨a, h, rfl⟩, hb⟩, hQ⟩

theorem runs_perform_bind {k : Unit → Lowering β} (h : g v.arena = .ok a)
    (hk : Steps.Runs (k ()) { v with arena := a } Q) : Steps.Runs (perform g >>= k) v Q := by
  obtain ⟨b, v', hb, hQ⟩ := hk
  exact ⟨b, v', Steps.bind_eq_ok.2 ⟨(), _, perform_eq_ok.2 ⟨a, h, rfl⟩, hb⟩, hQ⟩

end Runs

/-- **What a template has come to** while the subtree `s` of `a` is taken apart to fill it:
a detached tree `r` of `b` carries `t`, made of new nodes and of nodes below the root of
`s`, and nothing outside of `s` has changed. -/
structure Drafted (a : Arena) (s : Rose Nat) (t : Tree) (b : Arena) (r : Rose Nat) : Prop where
  changes : Changes (· ∈ s.preorder) (fun x => x ∈ s.preorder ∧ x ≠ s.entry) a b
  spans : b.Spans r
  tree_eq : r.map b.label = t
  top : b.parent? r.entry = none
  fresh : a.size ≤ r.entry
  ids : ∀ x : Nat, x ∈ r.preorder → (x ∈ s.preorder ∧ x ≠ s.entry) ∨ a.size ≤ x

/-- An operand of a template is still where it stood in the subtree `s`. -/
structure Waits (a : Arena) (s : Rose Nat) (b : Arena) (r o : Rose Nat) : Prop where
  before : a.Spans o
  spans : b.Spans o
  inside : ∀ x : Nat, x ∈ o.preorder → x ∈ s.preorder ∧ x ≠ s.entry
  parent? : b.parent? o.entry = a.parent? o.entry
  apart : o.preorder.Disjoint r.preorder

/-- **A snippet is parsed to a detached tree of new nodes**, all at one position. -/
theorem parseSnippet_runs {p : Grammar.Production} (hp : p ≠ .program) {text : String} {t : Tree}
    (pos : Pos) (hw : v.arena.WellFormed) (hs : v.arena.Spans s)
    (hparse : (v.context.snippet text "(swizzle)").parseTree p text.toList = .ok t) :
    Steps.Runs (parseSnippet p text pos) v fun id v' => ∃ a r, v' = { v with arena := a } ∧
      Drafted v.arena s (t.placed pos) a r ∧ id = r.entry ∧
      ∀ o ∈ s.subtrees, o.entry ≠ s.entry → Waits v.arena s a r o := by
  have hgraft : (v.context.snippet text "(swizzle)").parse v.arena p text =
      .ok (v.arena.graft t) := by
    have hsteps := Context.parseInPlace_eq hw hparse
    rw [if_neg hp, ← (graft_spec t hw).2] at hsteps
    exact Context.parse_of_ok hsteps
  unfold parseSnippet
  refine .get_bind (runs_edit_bind hgraft (runs_perform_bind rfl (Steps.runs_pure ?_)))
  obtain ⟨hg, hid⟩ := graft_spec t hw
  have hentry : (v.arena.graft t).2 = (numbered v.arena.size t).entry := by
    rw [hid, entry_numbered]
  obtain ⟨hw₂, hsize, hspan, htree, hlabel, hchildren, hparent, hroot⟩ :=
    placeAt_spec hg.wellFormed hg.spans pos
  rw [hg.labels] at htree
  have hnew : ∀ x : Nat, x ∈ (numbered v.arena.size t).preorder → v.arena.size ≤ x :=
    fun x hx => (mem_preorder_numbered.1 hx).1
  rw [hentry]
  have hchanges : Changes (· ∈ s.preorder) (fun x => x ∈ s.preorder ∧ x ≠ s.entry) v.arena
      ((v.arena.graft t).1.placeAt (numbered v.arena.size t).entry pos) := by
    refine ⟨hw₂, ?_, fun x hx => ?_, fun x hx _ => ?_, fun x hx _ => ?_, hroot.trans hg.root?⟩
    · rw [hsize, hg.size]
      omega
    · rw [hlabel x fun hm => Nat.not_le_of_lt hx (hnew x hm), (hg.same x hx).1]
    · rw [hchildren, (hg.same x hx).2.1]
    · rw [hparent, (hg.same x hx).2.2]
  refine ⟨_, numbered v.arena.size t, rfl, ⟨hchanges, hspan, htree, ?_, ?_,
    fun x hx => .inr (hnew x hx)⟩, rfl, fun o ho hne => ?_⟩
  · rw [hparent, entry_numbered, hg.parent?]
  · exact hnew _ (Rose.entry_mem_preorder _)
  · have hspan_o := hs.of_mem_subtrees ho
    refine ⟨hspan_o, ?_, fun x hx => ⟨Rose.mem_preorder_of_mem_subtrees ho hx, ?_⟩, ?_,
      fun x hx hxr => Nat.not_le_of_lt (hspan_o.lt_size_of_mem x hx) (hnew x hxr)⟩
    · refine hspan_o.congr hchanges.size fun x hx => ?_
      rw [hchildren, (hg.same x (hspan_o.lt_size_of_mem x hx)).2.1]
    · rintro rfl
      exact hne (hs.entry_eq_of_mem hw ho hx)
    · rw [hparent, (hg.same _ hspan_o.lt_size).2.2]

section Substitute

variable {a₀ : Arena} {r₀ r o : Rose Nat} {u t : Tree} {a : Arena}

def fillCopy (operand site : NodeId) : Lowering Unit := do
  let copied ← edit fun a => .ok (a.copy operand)
  perform fun a => a.replaceInParent site copied

/-- While sites are filled the operand itself stays as it is, wherever it stands. -/
theorem Filling.operand (h : Filling a₀ r₀ o u t a r todo) (hw₀ : a₀.WellFormed) (ho : a₀.Spans o)
    (hdis : o.preorder.Disjoint r₀.preorder) : a.Spans o ∧ o.map a.label = o.map a₀.label := by
  refine ⟨h.changes.spans ho fun x hx hC => ?_, h.changes.map_label ho⟩
  rcases hC with hm | hp
  · exact hdis hx hm
  · exact hw₀.not_under_of_parent hp ((ho.mem_preorder hw₀).1 hx)

section

variable (hw₀ : a₀.WellFormed) (hr₀ : a₀.Spans r₀) (ho : a₀.Spans o)
  (hdis : o.preorder.Disjoint r₀.preorder) (hu : o.map a₀.label = u)
include hw₀ hr₀ ho hdis hu

/-- **A site is filled with a copy of the operand**, made of nodes that were not there
before. -/
theorem fillCopy_runs {site : Nat} (hf : Filling a₀ r₀ o u t v.arena r (site :: todo))
    (hroot : site ≠ r₀.entry) :
    Steps.Runs (fillCopy o.entry site) v fun _ v' =>
      ∃ a r', v' = { v with arena := a } ∧ Filling a₀ r₀ o u t a r' todo := by
  have hw := hf.changes.wellFormed
  obtain ⟨hspan, hlabel⟩ := Filling.operand hf hw₀ ho hdis
  have htree : v.arena.tree o.entry = u := by rw [hspan.tree_eq hw, hlabel, hu]
  obtain ⟨hg, hid⟩ := graft_spec u hw
  have hentry : (v.arena.graft u).2 = (numbered v.arena.size u).entry := by
    rw [hid, entry_numbered]
  have hnew : ∀ y : Nat, y ∈ (numbered v.arena.size u).preorder → v.arena.size ≤ y :=
    fun y hy => (mem_preorder_numbered.1 hy).1
  have hf₁ := hf.graft hg hr₀
  -- the site is still in its place, and what stands above it is no part of the copy
  obtain ⟨p, hp, hmem⟩ := hf₁.exists_parent hw₀ hr₀ hroot
  have hapart : p ∉ (numbered v.arena.size u).preorder := fun hm =>
    Nat.not_le_of_lt (hr₀.lt_size_of_mem p hmem) (Nat.le_trans hf.changes.size (hnew p hm))
  obtain ⟨a₂, hput⟩ := exists_replaceInParent hg.wellFormed hp (hg.spans.not_under hg.wellFormed hapart)
  have hcopy : (.ok (v.arena.copy o.entry) : Except Error (Arena × NodeId)) =
      .ok ((v.arena.graft u).1, (numbered v.arena.size u).entry) := by
    unfold Arena.copy
    rw [htree, ← hentry]
  have hf₂ := hf₁.fill hw₀ hr₀ hg.spans hg.labels
    (fun y hy hyr => Nat.not_le_of_lt (hf.spans.lt_size_of_mem y hyr) (hnew y hy))
    (fun y hy => ⟨fun hyr => Nat.not_le_of_lt (hr₀.lt_size_of_mem y hyr)
      (Nat.le_trans hf.changes.size (hnew y hy)), .inr (Nat.le_trans hf.changes.size (hnew y hy))⟩)
    (.inr (Nat.le_trans hf.changes.size (hnew _ (Rose.entry_mem_preorder _))))
    (fun y hy => by rw [entry_numbered, hg.parent?] at hy; cases hy) hput
  unfold fillCopy
  exact runs_edit_bind hcopy ⟨(), _, perform_eq_ok.2 ⟨a₂, hput, rfl⟩, a₂, _, rfl, hf₂⟩

/-- **The sites after the first are filled with copies.** -/
theorem fillCopies_runs :
    ∀ (todo : List Nat) {v : View Unit} {r : Rose Nat}, Filling a₀ r₀ o u t v.arena r todo →
      (∀ site ∈ todo, site ≠ r₀.entry) →
      Steps.Runs (todo.forM (fillCopy o.entry)) v fun _ v' =>
        ∃ a r', v' = { v with arena := a } ∧ Filling a₀ r₀ o u t a r' [] := by
  intro todo
  induction todo with
  | nil => exact fun hf _ => Steps.runs_pure ⟨_, _, rfl, hf⟩
  | cons site todo ih =>
    intro v r hf hroot
    refine (fillCopy_runs hw₀ hr₀ ho hdis hu hf (hroot site (.head _))).bind ?_
    rintro _ _ ⟨a₂, r₂, rfl, hf₂⟩
    exact ih (v := { v with arena := a₂ }) hf₂ fun y hy => hroot y (.tail _ hy)

end

/-- **Substituting an operand in a detached tree** is substituting in what it carries. The
operand is taken out of its place, and no other node outside of the tree changes. -/
theorem substitute_runs (name : String) (hw : v.arena.WellFormed)
    (hr : v.arena.Spans r) (htop : v.arena.parent? r.entry = none)
    (hkind : v.arena.kind r.entry ≠ .ident) (ho : v.arena.Spans o)
    (hdis : o.preorder.Disjoint r.preorder) :
    Steps.Runs (substitute r.entry name o.entry) v fun _ v' =>
      ∃ a r', v' = { v with arena := a } ∧
        Filling v.arena r o (o.map v.arena.label)
          (Tree.subst name (o.map v.arena.label) (r.map v.arena.label)) a r' [] := by
  unfold substitute
  refine .get_bind ?_
  change Steps.Runs (fillSites o.entry ((v.arena.ofKind r.entry .ident).filter
    (v.arena.name? · == some name))) v _
  generalize hsites : (v.arena.ofKind r.entry .ident).filter
    (v.arena.name? · == some name) = sites
  have hmem : ∀ y, y ∈ sites ↔ y ∈ r.preorder ∧ v.arena.kind y = .ident ∧
      v.arena.name? y = some name := by
    intro y
    rw [← hsites]
    rw [ofKind_eq_filter, hr.preorder_eq hw]
    simp only [List.mem_filter, beq_iff_eq]
    tauto
  have hnd : sites.Nodup := by
    rw [← hsites]
    rw [ofKind_eq_filter, hr.preorder_eq hw]
    exact ((hr.nodup hw).filter _).filter _
  have hroot : ∀ site ∈ sites, site ≠ r.entry := by
    rintro site hm rfl
    exact hkind ((hmem _).1 hm).2.1
  have hstart : Filling v.arena r o (o.map v.arena.label) _ v.arena r sites :=
    .start hw hr htop (fun y hy => ((hmem y).1 hy).1) hnd
  have hresult : r.expand (fun y => if y ∈ sites then some (o.map v.arena.label) else none)
      v.arena.label = Tree.subst name (o.map v.arena.label) (r.map v.arena.label) := by
    unfold Tree.subst
    rw [Rose.expand_map]
    refine Rose.expand_congr fun y hy => ⟨?_, rfl⟩
    have hiff : y ∈ sites ↔ (v.arena.label y).kind = .ident ∧ (v.arena.label y).name? = some name := by
      rw [hmem]
      exact and_iff_right hy
    simp only [hiff, Function.comp_apply, Tree.forName]
  rw [hresult] at hstart
  cases sites with
  | nil => exact ⟨(), v, rfl, v.arena, r, rfl, hstart⟩
  | cons site todo =>
    obtain ⟨p, hp, hin⟩ := hstart.exists_parent hw hr (hroot site (.head _))
    obtain ⟨a₁, hput⟩ := exists_replaceInParent hw hp (ho.not_under hw fun hm => hdis hm hin)
    have hf₁ := hstart.fill hw hr ho rfl hdis (fun y hy => ⟨fun hm => hdis hy hm, .inl hy⟩)
      (.inl rfl) (fun y hy => hy) hput
    exact runs_perform_bind hput (fillCopies_runs hw hr ho hdis rfl todo (v := { v with arena := a₁ })
      hf₁ fun y hy => hroot y (.tail _ hy))

/-- **Filling a template with an operand of the subtree**: the operand is used up, and every
operand apart from it still waits. -/
theorem Drafted.substitute (name : String) (hw₀ : a₀.WellFormed) (hs : a₀.Spans s)
    (hd : Drafted a₀ s t v.arena r) (hkind : t.entry.kind ≠ .ident) (ho : Waits a₀ s v.arena r o) :
    Steps.Runs (substitute r.entry name o.entry) v fun _ v' =>
      ∃ a r', v' = { v with arena := a } ∧ r'.entry = r.entry ∧
        Drafted a₀ s (Tree.subst name (o.map a₀.label) t) a r' ∧
        ∀ o', Waits a₀ s v.arena r o' → o'.preorder.Disjoint o.preorder → Waits a₀ s a r' o' := by
  have hw := hd.changes.wellFormed
  have hroot : v.arena.kind r.entry ≠ .ident := by
    rw [← hd.tree_eq, Rose.entry_map] at hkind
    exact hkind
  obtain ⟨_, _, hrun, a, r', rfl, hf⟩ :=
    substitute_runs name hw hd.spans hd.top hroot ho.spans ho.apart
  refine ⟨_, _, hrun, ?_⟩
  have holabel : o.map v.arena.label = o.map a₀.label := hd.changes.map_label ho.before
  -- the operand stood below a node of the subtree
  have hpar : ∀ y : Nat, v.arena.parent? o.entry = some y → y ∈ s.preorder := by
    intro y hy
    obtain ⟨hm, hne⟩ := ho.inside _ o.entry_mem_preorder
    rw [ho.parent?] at hy
    exact hs.parent_mem hw₀ hm hne hy
  have hids : ∀ y : Nat, y ∈ r'.preorder → (y ∈ s.preorder ∧ y ≠ s.entry) ∨ a₀.size ≤ y := by
    intro y hy
    rcases hf.ids y hy with hy | hy | hge
    · exact hd.ids y hy
    · exact .inl (ho.inside y hy)
    · exact .inr (Nat.le_trans hd.changes.size hge)
  refine ⟨a, r', rfl, hf.entry, ⟨?_, hf.spans, ?_, hf.top, hf.entry ▸ hd.fresh, hids⟩,
    fun o' ho' hdis => ?_⟩
  · refine hd.changes.trans hf.changes (fun y hy hC => ?_) (fun y hy hM => ?_)
    · rcases hC with hm | hp
      · exact ((hd.ids y hm).resolve_right (Nat.not_le_of_lt hy)).1
      · exact hpar y hp
    · rcases hM with hm | rfl
      · exact (hd.ids y hm).resolve_right (Nat.not_le_of_lt hy)
      · exact ho.inside _ o.entry_mem_preorder
  · rw [hf.tree_eq, hd.tree_eq, holabel]
  · have hlt := ho'.spans.lt_size_of_mem
    refine ⟨ho'.before, hf.changes.spans ho'.spans fun y hy hC => ?_, ho'.inside, ?_,
      fun y hy hyr => ?_⟩
    · rcases hC with hm | hp
      · exact ho'.apart hy hm
      · exact hdis (ho'.spans.closed hy ((hw.linked y _).2 hp)) o.entry_mem_preorder
    · rw [hf.changes.parent? _ ho'.spans.lt_size ?_, ho'.parent?]
      rintro (hm | he)
      · exact ho'.apart o'.entry_mem_preorder hm
      · exact hdis o'.entry_mem_preorder (he ▸ o.entry_mem_preorder)
    · rcases hf.ids y hyr with hm | hm | hge
      · exact ho'.apart hy hm
      · exact hdis hy hm
      · exact Nat.not_le_of_lt (hlt y hy) hge

/-- While the template is filled, the root of the subtree stays in its place. -/
theorem Drafted.parent? (hs : a₀.Spans s) (hd : Drafted a₀ s t a r) :
    a.parent? s.entry = a₀.parent? s.entry :=
  hd.changes.parent? _ hs.lt_size fun h => h.2 rfl

/-- **A filled template in the place of the subtree**, if that has a place. -/
theorem Drafted.replaceInParent {p : Nat} (hw₀ : a₀.WellFormed) (hs : a₀.Spans s)
    (hd : Drafted a₀ s t a r) (hpar : a₀.parent? s.entry = some p) :
    ∃ b, a.replaceInParent s.entry r.entry = .ok b ∧ Rewrites a₀ s b [r] ∧ r.map b.label = t := by
  have hout : s.entry ∉ r.preorder := by
    intro hm
    rcases hd.ids _ hm with ⟨-, hne⟩ | hge
    · exact hne rfl
    · exact Nat.not_le_of_lt hs.lt_size hge
  have hne : s.entry ≠ r.entry := fun he => hout (he ▸ r.entry_mem_preorder)
  -- what stands above the subtree is no part of it, nor new
  have habove : p ∉ r.preorder := by
    intro hm
    rcases hd.ids _ hm with ⟨hm, -⟩ | hge
    · exact hw₀.not_under_of_parent hpar ((hs.mem_preorder hw₀).1 hm)
    · exact Nat.not_le_of_lt (hw₀.parent_lt hpar) hge
  obtain ⟨b, h⟩ := exists_replaceInParent hd.changes.wellFormed ((hd.parent? hs).trans hpar)
    (hd.spans.not_under hd.changes.wellFormed habove)
  have hrep := replaceInParent_replaced hd.changes.wellFormed hd.spans.lt_size hne h
  refine ⟨b, h, .of_replaceInParent hw₀ hs hd.changes (fun _ hx => .inl hx) (fun _ hx => .inl hx.1)
    (fun hx => hx.2 rfl) hd.spans hd.top hout (fun x hx => (hd.ids x hx).imp_left And.left) h, ?_⟩
  rw [← hd.tree_eq]
  exact Rose.map_congr fun x _ => hrep.label x

end Substitute

end Swizzle

end VecLang
