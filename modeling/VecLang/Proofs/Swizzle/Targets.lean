import VecLang.Proofs.Swizzle.Complete

/-!
# What lowered assignments write to

An assignment can be carried out if its target is a path: a name, or components and
members of a path. Lowering keeps the targets of a program paths exactly if no target goes
through a vector of components on its way to the name. Only the target itself is written
to; a vector further down is read, and what is read becomes a constructor.

* `isPath_target`: the lowered target of an assignment.
* `assignable_lowerReads`: what the walk of the reads does to the targets of a tree.
* `Walks.assignable`: the walk of the writes changes nothing about them.
* `targets_paths_iff_direct`: when the targets of a compiled program are paths.
-/

namespace VecLang

open List

/-- Whether the tree leads to a name by components and members. -/
def Tree.isPath : Tree → Bool
  | .node l [] => l.kind == .ident
  | .node l (base :: _) =>
    l.kind == .ident || (l.kind == .index || l.kind == .member) && Tree.isPath base

/-- **Every assignment of the tree has a path as its target.** -/
def Tree.Assignable (t : Tree) : Prop :=
  ∀ u ∈ t.subtrees, u.entry.kind = .assign →
    ∃ target ∈ u.children.head?, Tree.isPath target = true

instance (t : Tree) : Decidable t.Assignable :=
  inferInstanceAs (Decidable (∀ u ∈ t.subtrees, _ → _))

namespace Swizzle

open ScopeWalk Arena

/-- Whether no vector of components is selected on the way down to the name. -/
def isDirect (types : TypeTable) (σ : Names) : Tree → Bool
  | .node _ [] => true
  | .node l (base :: rest) =>
    (match selection? types σ .inner l base rest with
      | some (.vector _) => false
      | _ => true) && isDirect types σ base

/-- **The target of the assignment goes through no vector of components**: none is selected
below the target itself. -/
def DirectTarget (types : TypeTable) (s : Site) : Prop :=
  s.tree.entry.kind = .assign → ∀ target ∈ s.tree.children.head?,
    ∀ base ∈ target.children.head?, isDirect types s.around base = true

instance (types : TypeTable) (s : Site) : Decidable (DirectTarget types s) :=
  inferInstanceAs (Decidable (_ → _))

variable {types : TypeTable} {σ τ : Names} {p q : Place} {l : Label} {pos : Pos}
  {base t : Tree} {rest ts us : List Tree}

/-! ### Paths -/

theorem isPath_node (hl : l.kind ≠ .ident) :
    Tree.isPath (.node l (base :: rest)) = true ↔
      (l.kind = .index ∨ l.kind = .member) ∧ base.isPath = true := by
  rw [Tree.isPath]
  simp [hl]

theorem isPath_elementTree (pos : Pos) (base : Tree) (i : Nat) :
    (elementTree pos base i).isPath = base.isPath := rfl

theorem assignable_node : Tree.Assignable (.node l ts) ↔
    (l.kind = .assign → ∃ target ∈ ts.head?, target.isPath = true) ∧ ∀ t ∈ ts, t.Assignable := by
  constructor
  · intro h
    exact ⟨h _ (Rose.self_mem_subtrees _), fun t ht u hu => h u (Rose.mem_subtrees_of_mem ht hu)⟩
  · rintro ⟨hroot, hts⟩
    exact forall_mem_subtrees hroot hts

theorem assignable_of_kind (hl : l.kind ≠ .assign) :
    Tree.Assignable (.node l ts) ↔ ∀ t ∈ ts, t.Assignable := by
  rw [assignable_node]
  exact and_iff_right fun h => absurd h hl

theorem assignable_leaf (hl : l.kind ≠ .assign) : Tree.Assignable (.node l []) :=
  (assignable_of_kind hl).2 fun _ ht => by cases ht

theorem assignable_elementTree (i : Nat) :
    (elementTree pos base i).Assignable ↔ base.Assignable := by
  have hindex : Tree.Assignable (.valued .intConst pos (.int i) []) := assignable_leaf (fun h => by cases h)
  unfold elementTree Tree.plain
  rw [assignable_of_kind (l := { kind := .index, pos }) (fun h => by cases h)]
  simp [hindex]

theorem assignable_tree {selection : Selection} {m : String}
    (h : Selection.ofMember? m = some selection) :
    (selection.tree types pos base).Assignable ↔ base.Assignable := by
  cases selection with
  | component i => exact assignable_elementTree i
  | vector s =>
    -- the base stands in the constructor at least once
    obtain ⟨hwidth, -⟩ := ofMember?_bounds (ofMember?_of_vector h)
    obtain ⟨i, hi⟩ : ∃ i, i ∈ s.indices := by
      apply exists_mem_of_length_pos
      unfold width at hwidth
      omega
    have htype : Tree.Assignable (.valued .varType pos (.type (vectorType types s)) []) :=
      assignable_leaf (fun h => by cases h)
    have hargs : Tree.Assignable
        (.node { kind := .args, pos } (s.indices.map (elementTree pos base))) ↔
          base.Assignable := by
      rw [assignable_of_kind (l := { kind := .args, pos }) (fun h => by cases h)]
      simp only [forall_mem_map, assignable_elementTree]
      exact ⟨fun hall => hall i hi, fun hb _ _ => hb⟩
    unfold Selection.tree readTree Tree.plain
    rw [assignable_of_kind (l := { kind := .call, pos }) (fun h => by cases h)]
    simpa [htype] using hargs

/-! ### Targets after the reads -/

theorem selection?_target (s : Swizzle) :
    selection? types σ .target l base rest ≠ some (.vector s) := by
  unfold selection?
  by_cases h : l.kind = .member ∧ isArray? types (σ (base.entry.name?.getD "")) base = some true
  · rw [if_pos h]
    cases (memberOf? (base :: rest)).bind Selection.ofMember? with
    | none => simp
    | some selection => cases selection <;> simp
  · simp [if_neg h]

/-- On the way down a path, the names in scope matter as they are around it. -/
theorem lowerReads_base (hreg : Regular (.node l (base :: rest)))
    (hl : l.kind = .index ∨ l.kind = .member) :
    lowerReads types (inside σ (.node l (base :: rest))) (.below l.kind true) base =
      lowerReads types σ .inner base := by
  have hplace : Place.below l.kind true = .inner := by
    rcases hl with hl | hl <;> rw [hl] <;> rfl
  rw [hplace]
  by_cases hid : base.entry.kind = .ident
  · have hroot := fun σ => (lowerReads_root types σ .inner (hreg.of_mem (.head _))).1 hid
    rw [hroot, hroot]
  · have hopens : ∃ opened, opens σ (.node l (base :: rest)) = some (σ, opened) := by
      rcases hl with hl | hl
      · exact ⟨false, hreg.root.opens_eq (by rw [hl]; decide) σ⟩
      · exact ⟨true, (opens_member σ base rest hl).trans (if_neg hid)⟩
    obtain ⟨opened, hopens⟩ := hopens
    rw [inside_eq hopens]

/-- **A lowered path is a path exactly if no vector is selected on it.** -/
theorem isPath_lowerReads (types : TypeTable) (σ : Names) : Regular t → t.isPath = true →
    (lowerReads types σ .inner t).isPath = isDirect types σ t := by
  induction t using Rose.induction with
  | node l ts ih =>
    intro hreg hpath
    cases ts with
    | nil =>
      rw [lowerReads_leaf, hpath, isDirect]
    | cons base rest =>
      have hident : l.kind ≠ .ident := fun hk => by cases hreg.root.leaf hk
      obtain ⟨hl, hbase⟩ := (isPath_node hident).1 hpath
      have hbelow := ih base (.head _) (hreg.of_mem (.head _)) hbase
      rw [lowerReads, isDirect]
      cases hsel : selection? types σ .inner l base rest with
      | some selection =>
        cases selection with
        | component i => exact hbelow
        | vector s => rfl
      | none =>
        simp only [lowerReadsAll, lowerReads_base hreg hl, Bool.true_and]
        rw [Bool.eq_iff_iff, isPath_node hident, hbelow]
        exact and_iff_right hl

/-- **The lowered target of an assignment is a path exactly if no vector is selected below
it.** -/
theorem isPath_target (types : TypeTable) (σ : Names) (hreg : Regular t) (hpath : t.isPath = true) :
    (lowerReads types σ .target t).isPath = true ↔
      ∀ base ∈ t.children.head?, isDirect types σ base = true := by
  obtain ⟨l, ts⟩ := t
  cases ts with
  | nil =>
    rw [lowerReads_leaf]
    exact iff_of_true hpath fun _ h => by cases h
  | cons base rest =>
    have hident : l.kind ≠ .ident := fun hk => by cases hreg.root.leaf hk
    obtain ⟨hl, hbase⟩ := (isPath_node hident).1 hpath
    have hbelow := isPath_lowerReads types σ (hreg.of_mem (.head _)) hbase
    have hgoal : (∀ b ∈ (Rose.node l (base :: rest)).children.head?, isDirect types σ b = true) ↔
        isDirect types σ base = true := by
      simp [Rose.children]
    rw [hgoal, ← hbelow, lowerReads]
    cases hsel : selection? types σ .target l base rest with
    | some selection =>
      cases selection with
      | component i => rw [← isPath_elementTree l.pos _ i]; rfl
      | vector s => exact absurd hsel (selection?_target s)
    | none =>
      simp only [lowerReadsAll, lowerReads_base hreg hl]
      rw [isPath_node hident]
      exact and_iff_right hl

/-! ### Trees after the reads -/

theorem forall_sites_leaf {P : Site → Prop} :
    (∀ s ∈ sites σ p (.node l []), P s) ↔ P ⟨σ, p, .node l []⟩ := by
  rw [sites, sitesAll, forall_mem_singleton]

theorem targets_leaf (hl : l.kind ≠ .assign) (σ' : Names) (p' : Place) :
    (lowerReads types σ p (.node l [])).Assignable ↔
      ∀ s ∈ sites σ' p' (.node l []), DirectTarget types s := by
  rw [lowerReads_leaf, forall_sites_leaf]
  exact iff_of_true (assignable_leaf hl) fun h => absurd h hl

/-- Where a node becomes the expression of a selection, its base keeps its targets; the member
is a leaf. -/
theorem targets_selected {selection : Selection} (hreg : Regular (.node l (base :: rest)))
    (hsel : selection? types σ p l base rest = some selection)
    (ih : (lowerReads types σ .inner base).Assignable ↔
      ∀ s ∈ sites σ .inner base, DirectTarget types s) :
    (selection.tree types l.pos (lowerReads types σ .inner base)).Assignable ↔
      ∀ s ∈ sites σ p (.node l (base :: rest)), DirectTarget types s := by
  obtain ⟨hl, m, hm⟩ := selection?_eq_some hsel
  obtain ⟨_, l', _, heq, hl', -⟩ := hreg.root.named hl
  cases heq
  have hbase : base ∈ [base, .node l' []] := (.head _)
  have hplace : ∀ first, Place.below l.kind first = .inner := by
    intro first
    rw [hl]
    cases first <;> rfl
  have hroot : DirectTarget types ⟨σ, p, .node l [base, .node l' []]⟩ :=
    fun h => by cases hl.symm.trans h
  have hmember : ∀ τ, DirectTarget types ⟨τ, .inner, .node l' []⟩ :=
    fun τ h => by cases hl'.symm.trans h
  rw [assignable_tree hm, sites, forall_mem_cons, forall_sitesAll_cons,
    forall_sitesAll_singleton, forall_sites_leaf, hplace, hplace, and_iff_right hroot,
    and_iff_left (hmember _)]
  by_cases hid : base.entry.kind = .ident
  · obtain ⟨lb, bs⟩ := base
    have hnil := (hreg.of_mem hbase).root.leaf hid
    subst hnil
    exact targets_leaf (fun h => by cases (show lb.kind = .ident from hid).symm.trans h) _ _
  · rw [inside_eq ((opens_member σ base [.node l' []] hl).trans (if_neg hid))]
    exact ih

theorem target_kept (hreg : Regular (.node l ts)) (hassignable : Tree.Assignable (.node l ts)) :
    (l.kind = .assign → ∃ target ∈ (lowerReadsAll types (inside σ (.node l ts))
        (.below l.kind true) (.below l.kind false) ts).head?, target.isPath = true) ↔
      DirectTarget types ⟨σ, p, .node l ts⟩ := by
  by_cases hl : l.kind = .assign
  swap
  · exact iff_of_true (fun h => absurd h hl) fun h => absurd h hl
  obtain ⟨target, value, rfl⟩ := hreg.root.assigned hl
  obtain ⟨_, htarget, hpath⟩ := (assignable_node.1 hassignable).1 hl
  cases htarget
  have hopens := hreg.root.opens_eq (by rw [hl]; decide) σ
  have hplace : Place.below l.kind true = .target := by rw [hl]; rfl
  have hiff := isPath_target types σ (hreg.of_mem (.head _)) hpath
  rw [forall_prop_of_true hl, inside_eq hopens, hplace, lowerReadsAll]
  simp only [head?_cons, Option.mem_def, Option.some.injEq, exists_eq_left']
  rw [hiff]
  refine ⟨fun h _ target' htarget' => ?_, fun h => h hl _ rfl⟩
  cases htarget'
  exact h

/-- **What the walk of the reads does to the targets of a tree**: they stay paths exactly if
each was direct. -/
theorem assignable_lowerReads : Regular t → t.Assignable →
    ((lowerReads types σ p t).Assignable ↔ ∀ s ∈ sites σ p t, DirectTarget types s) := by
  induction t using Rose.induction generalizing σ p with
  | node l ts ih =>
    intro hreg hassignable
    obtain ⟨htarget, hchildren⟩ := assignable_node.1 hassignable
    cases ts with
    | nil =>
      refine targets_leaf (fun hl => ?_) σ p
      obtain ⟨_, h, -⟩ := htarget hl
      cases h
    | cons base rest =>
      rw [lowerReads]
      split
      · next selection hsel =>
        have hbase : base ∈ base :: rest := (.head _)
        exact targets_selected hreg hsel (ih base hbase (hreg.of_mem hbase) (hchildren base hbase))
      · -- a kept node: its own target, and its children from left to right
        have hlist : ∀ us : List Tree, (∀ u ∈ us, u ∈ base :: rest) → ∀ (σ : Names) (p q : Place),
            ((∀ u ∈ lowerReadsAll types σ p q us, u.Assignable) ↔
              ∀ s ∈ sitesAll σ p q us, DirectTarget types s) := by
          intro us
          induction us with
          | nil =>
            intro _ σ p q
            rw [lowerReadsAll, sitesAll]
            exact iff_of_true (fun _ h => by cases h) fun _ h => by cases h
          | cons u us ihus =>
            intro hsub σ p q
            have hu := hsub u (.head _)
            rw [lowerReadsAll, forall_mem_cons, forall_sitesAll_cons,
              ih u hu (hreg.of_mem hu) (hchildren u hu),
              ihus (fun u hu => hsub u (.tail _ hu))]
        rw [assignable_node, hlist _ (fun _ h => h), sites, forall_mem_cons,
          target_kept hreg hassignable]

/-! ### Trees after the writes -/

section Splits

variable {target value : Tree} {sw : Swizzle}

theorem assignable_assign (hreg : Regular (.node l [target, value])) (hl : l.kind = .assign)
    (hsw : swizzleTarget? target = some (base, sw)) :
    Tree.Assignable (.node l [target, value]) ↔
      base.isPath = true ∧ base.Assignable ∧ value.Assignable := by
  obtain ⟨lt, rest, rfl, hk, -⟩ := swizzleTarget?_eq_some hsw
  obtain ⟨_, l', _, heq, hl', -⟩ := (hreg.of_mem (.head _)).root.named hk
  cases heq
  have hmember : Tree.Assignable (.node l' []) :=
    assignable_leaf (by rw [hl']; exact (fun h => by cases h))
  have hpath : Tree.isPath (.node lt [base, .node l' []]) = true ↔ base.isPath = true := by
    rw [isPath_node (by rw [hk]; exact (fun h => by cases h))]
    exact and_iff_right (.inr hk)
  have htarget : Tree.Assignable (.node lt [base, .node l' []]) ↔ base.Assignable := by
    rw [assignable_of_kind (by rw [hk]; exact (fun h => by cases h))]
    simp [hmember]
  rw [assignable_node]
  simp [hl, hpath, htarget]

theorem assignable_splitTree (k i : Nat) : (splitTree pos sw base value k i).Assignable ↔
    base.isPath = true ∧ base.Assignable ∧ (valueAt pos sw base value k).Assignable := by
  unfold splitTree Tree.operated
  rw [assignable_node]
  simp [assignable_elementTree, isPath_elementTree]

theorem assignable_openParts (sw : Swizzle) (base : Tree) (hreg : Regular value) :
    (∀ part ∈ openParts sw base value, part.1.Assignable) ↔ value.Assignable := by
  unfold openParts
  cases hargs : constructed? sw.width value with
  | none => simp
  | some args =>
    obtain ⟨lv, vs⟩ := value
    obtain ⟨hcall, -, callee, list, more, rfl, rfl, -⟩ := constructed?_eq_some hargs
    obtain ⟨lc, _, heq, hlist⟩ := hreg.root.called hcall
    cases heq
    have hcallee : Tree.Assignable (.node lc []) := by
      refine assignable_leaf fun hassign => ?_
      obtain ⟨_, _, hnil⟩ := (hreg.of_mem (.head _)).root.assigned hassign
      cases hnil
    obtain ⟨la, as⟩ := list
    have hlist : Tree.Assignable (.node la as) ↔ ∀ t ∈ as, Tree.Assignable t :=
      assignable_of_kind fun hassign => by cases hlist.symm.trans hassign
    rw [assignable_of_kind (by rw [hcall]; exact (fun h => by cases h))]
    simp only [forall_mem_cons, hcallee, hlist, true_and, not_mem_nil, false_imp_iff,
      implies_true, and_true, mem_mapIdx, Rose.children]
    constructor
    · intro h arg harg
      obtain ⟨k, hk, rfl⟩ := getElem_of_mem harg
      exact h _ ⟨k, hk, rfl⟩
    · rintro h _ ⟨k, hk, rfl⟩
      exact h _ (getElem_mem hk)

/-- What is assigned at the places of a swizzle holds the assignments of the value, if no name in
it is taken for an operand. -/
theorem assignable_values (pos : Pos) (base : Tree) (hreg : Regular value) (havoids : Avoids value)
    (hlo : 0 < sw.width) (hhi : sw.width ≤ 4) :
    (∀ k < sw.width, (valueAt pos sw base value k).Assignable) ↔ value.Assignable := by
  have hshown : ∀ {k : Nat} {part : Tree × List (String × Tree)} {v : Tree},
      part ∈ openParts sw base value → Shows pos k part v →
        (v.Assignable ↔ part.1.Assignable) := by
    intro k part v hpart hshows
    have hfill : Tree.fill part.2 part.1 = part.1 :=
      fill_eq_self (uncaptured_of_avoids base havoids hhi part hpart)
    unfold Shows at hshows
    rw [hfill] at hshows
    rcases hshows with rfl | rfl
    · rfl
    · exact assignable_elementTree k
  rw [← assignable_openParts sw base hreg]
  constructor
  · intro h part hpart
    obtain ⟨k, hk, hshows⟩ := exists_valueAt pos hlo hpart
    exact (hshown hpart hshows).1 (h k hk)
  · intro h k hk
    obtain ⟨part, hpart, hshows⟩ := valueAt_shows pos base value hk
    exact (hshown hpart hshows).2 (h part hpart)

/-- **An assignment to a swizzle and those that it is split into** have paths as targets in the
same case, if no name in the value is taken for an operand. -/
theorem assignable_splitTrees (hreg : Regular (.node l [target, value])) (hl : l.kind = .assign)
    (hsw : swizzleTarget? target = some (base, sw)) (havoids : Avoids value) :
    (∀ u ∈ splitTrees pos sw base value, u.Assignable) ↔
      Tree.Assignable (.node l [target, value]) := by
  have hvalue : Regular value := hreg.of_mem (.tail _ (.head _))
  obtain ⟨-, -, -, -, m, -, hm⟩ := swizzleTarget?_eq_some hsw
  obtain ⟨hlo, hhi, -⟩ := ofMember?_bounds hm
  rw [assignable_assign hreg hl hsw,
    ← assignable_values pos base hvalue havoids (by omega) hhi]
  constructor
  · intro h
    have hall : ∀ k < sw.width, base.isPath = true ∧ base.Assignable ∧
        (valueAt pos sw base value k).Assignable := by
      intro k hk
      obtain ⟨i, hi⟩ := splitTree_mem pos base value hk
      exact (assignable_splitTree k i).1 (h _ hi)
    obtain ⟨hpath, hbase, -⟩ := hall 0 (by omega)
    exact ⟨hpath, hbase, fun k hk => (hall k hk).2.2⟩
  · rintro ⟨hpath, hbase, hall⟩ u hu
    obtain ⟨k, i, hk, rfl⟩ := mem_splitTrees hu
    exact (assignable_splitTree k i).2 ⟨hpath, hbase, hall k hk⟩

end Splits

/-- **The walk of the writes changes nothing about the targets** of a program without the names
of placeholders. -/
theorem Walks.assignable (h : Walks (writeRule types) σ p q ts us τ) : (∀ t ∈ ts, Regular t) →
    (∀ t ∈ ts, Avoids t) → ((∀ u ∈ us, u.Assignable) ↔ ∀ t ∈ ts, t.Assignable) := by
  induction h with
  | nil => exact fun _ _ => Iff.rfl
  | @keep σ σ₁ σ₂ τ p q l ts us rest rest' opened _ _ hb _ ihb ihn =>
    intro hreg havoids
    have hnode := hreg _ (.head _)
    rw [forall_mem_cons, forall_mem_cons,
      ihn (fun t ht => hreg t (.tail _ ht))
        fun t ht => havoids t (.tail _ ht)]
    refine and_congr_left fun _ => ?_
    by_cases hl : l.kind = .assign
    · rw [walks_children_eq hnode (.inr hl) hb]
    · rw [assignable_of_kind hl, assignable_of_kind hl]
      exact ihb (fun t ht => hnode.of_mem ht) fun t ht => (havoids _ (.head _)).of_mem ht
  | replace ho hr hb _ _ ihn =>
    intro hreg havoids
    have hnode := hreg _ (.head _)
    obtain ⟨rfl, l, target, value, more, base, sw, rfl, hl, hsw, -, rfl⟩ := writeRule_replace hr
    obtain ⟨_, _, heq⟩ := hnode.root.assigned hl
    cases heq
    have hchildren := hnode.root.inert (.inr hl)
    have hvalue : value ∈ [target, value] := .tail _ (.head _)
    obtain ⟨hbreg, hbinert⟩ := swizzleTarget?_regular (hnode.of_mem (.head _)) hsw
    -- the split assignments are walked through and kept
    obtain ⟨rfl, -, -⟩ := walks_splits ⟨hbinert, hbreg.tidy⟩
      ⟨hchildren value hvalue, (hnode.of_mem hvalue).tidy⟩ (fun _ ht => ht) hb
    rw [forall_mem_append, forall_mem_cons,
      assignable_splitTrees hnode hl hsw ((havoids _ (.head _)).of_mem hvalue),
      ihn (fun t ht => hreg t (.tail _ ht))
        fun t ht => havoids t (.tail _ ht)]

/-! ### Compiled programs -/

/-- **When the targets of a compiled program are paths.** If a source compiles, uses no name of
a placeholder and only assigns to paths, then its lowered assignments have paths as targets
exactly if no target of the source goes through a vector of components. -/
theorem targets_paths_iff_direct {source filename : String} {p₀ p : Program} {root : NodeId}
    (hparse : parseProgram source filename = .ok p₀) (hroot : p₀.arena.root? = some root)
    (hcompile : compile source { filename, lowerSwizzles := true, passes := [] } = .ok p)
    (havoids : Avoids (p₀.arena.tree root)) (hpaths : (p₀.arena.tree root).Assignable) :
    p.arena.root? = some root ∧ ((p.arena.tree root).Assignable ↔
      ∀ s ∈ sites p₀.context.resetScopes.names .top (p₀.arena.tree root),
        DirectTarget p₀.context.types s) := by
  obtain ⟨p₁, r, hparse', hparsed, hlowered⟩ := compile_loweredFrom hcompile
  cases hparse.symm.trans hparse'
  cases hroot.symm.trans hparsed.root?
  have hregular := hparsed.shape.regular closed_builtin
  refine ⟨hlowered.root?, ?_⟩
  obtain ⟨τ, hwalks⟩ := hlowered.walks
  have hwrites := Walks.assignable hwalks
    (forall_mem_singleton.2
      (hparsed.types ▸ regular_lowerReads closed_builtin templates_builtin hparsed.shape))
    fun t ht => mem_singleton.1 ht ▸ avoids_lowerReads havoids
  rw [forall_mem_singleton, forall_mem_singleton] at hwrites
  rw [hwrites]
  exact assignable_lowerReads hregular hpaths

/-- A program that assigns to a component and to a swizzle of a row. -/
def directText : String := "void main() { mat3 m; m[0].y = 1.0; m[1].zx = m[2].xy; }"

theorem targets_paths_directText : ∃ p₀ p root,
    parseProgram directText "" = .ok p₀ ∧
      compile directText { filename := "", lowerSwizzles := true, passes := [] } = .ok p ∧
      p.arena.tree root ≠ p₀.arena.tree root ∧ (p.arena.tree root).Assignable := by
  have hcheck : checkLowered directText fun p₀ p root =>
      decide (Avoids (p₀.arena.tree root) ∧ (p₀.arena.tree root).Assignable ∧
        (∀ s ∈ sites p₀.context.resetScopes.names .top (p₀.arena.tree root),
          DirectTarget p₀.context.types s) ∧ p.arena.tree root ≠ p₀.arena.tree root) := by
    decide +kernel
  obtain ⟨p₀, p, root, hparse, hcompile, hroot, hcheck⟩ := of_checkLowered hcheck
  obtain ⟨havoids, hpaths, hdirect, hne⟩ := of_decide_eq_true hcheck
  exact ⟨p₀, p, root, hparse, hcompile, hne,
    (targets_paths_iff_direct hparse hroot hcompile havoids hpaths).2.2 hdirect⟩

/-- A program that assigns to a component of a swizzle. -/
def nestedText : String := "void main() { vec3 v; v.zyx.x = 1.0; }"

/-- **An assignment writes into a constructed vector** where its target goes through a swizzle. -/
theorem target_constructed_nested : ∃ p₀ p root,
    parseProgram nestedText "" = .ok p₀ ∧ p₀.arena.root? = some root ∧
      compile nestedText { filename := "", lowerSwizzles := true, passes := [] } = .ok p ∧
      p.arena.root? = some root ∧ (p₀.arena.tree root).Assignable ∧
      ¬ (p.arena.tree root).Assignable := by
  have hcheck : checkLowered nestedText fun p₀ p root => decide (p.arena.root? = some root ∧
      (p₀.arena.tree root).Assignable ∧ ¬ (p.arena.tree root).Assignable) := by decide +kernel
  obtain ⟨p₀, p, root, hparse, hcompile, hroot, hcheck⟩ := of_checkLowered hcheck
  exact ⟨p₀, p, root, hparse, hroot, hcompile, of_decide_eq_true hcheck⟩

end Swizzle

end VecLang
