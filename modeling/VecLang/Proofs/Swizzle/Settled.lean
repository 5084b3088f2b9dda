import VecLang.Proofs.Swizzle.ReadPass
import VecLang.Proofs.Swizzle.Writes

/-!
# What the walks leave

A node is settled if it selects no components of an array. After the walk of the reads
every node is settled, except that a vector may still be selected where it is assigned
to; after the walk of the writes no such assignment is left.

* `Walks.readDone`: what the walk of the reads leaves.
* `settled_of_kept`: what neither walk touches is settled.
-/

namespace VecLang.Swizzle

open ScopeWalk Arena List

/-- **The node selects no components of an array**: if it accesses a member, then that has a
name which names no components, or the base is a name that is bound to no array. -/
def Settled (types : TypeTable) (σ : Names) : Tree → Prop
  | .node l ts => l.kind = .member → (memberOf? ts).map Selection.ofMember? = some none ∨
      (ts.head?.bind fun base => isArray? types (σ (base.entry.name?.getD "")) base) = some false

instance (types : TypeTable) (σ : Names) (t : Tree) : Decidable (Settled types σ t) := by
  obtain ⟨l, ts⟩ := t
  unfold Settled
  infer_instance

/-- The node is settled or selects a vector that is assigned to. -/
def ReadDone (types : TypeTable) (s : Site) : Prop :=
  Settled types s.around s.tree ∨ s.place = .target ∧
    ∃ w, (memberOf? s.tree.children).bind Selection.ofMember? = some (.vector w)

variable {types : TypeTable} {σ σ₁ τ : Names} {p q : Place} {l : Label} {pos : Pos}
  {base t : Tree} {rest ts us : List Tree}

theorem settled_of_kind (h : l.kind ≠ .member) : Settled types σ (.node l ts) :=
  fun hk => absurd hk h

theorem lowerReads_entry (h : t.entry.kind ≠ .member) :
    (lowerReads types σ p t).entry = t.entry := by
  obtain ⟨l, ts⟩ := t
  cases ts with
  | nil => rw [lowerReads_leaf]
  | cons base rest =>
    have hnone : selection? types σ p l base rest = none := if_neg fun hk => h hk.1
    rw [lowerReads, hnone]
    rfl

theorem lowerReads_root (types : TypeTable) (σ : Names) (p : Place) (h : Regular t) :
    (t.entry.kind = .ident → lowerReads types σ p t = t) ∧
      (t.entry.kind ≠ .ident → (lowerReads types σ p t).entry.kind ≠ .ident) := by
  obtain ⟨l, ts⟩ := t
  cases ts with
  | nil => exact ⟨fun _ => lowerReads_leaf, fun hk => by rw [lowerReads_leaf]; exact hk⟩
  | cons base rest =>
    refine ⟨fun hk => absurd (h.root.leaf hk) (cons_ne_nil _ _), fun hk => ?_⟩
    rw [lowerReads]
    split
    · next selection _ => cases selection <;> exact fun he => by cases he
    · exact hk

theorem opens_lowerReadsAll (types : TypeTable) (σ₁ : Names) (h : Regular (.node l ts)) :
    opens σ (.node l (lowerReadsAll types σ₁ (.below l.kind true) (.below l.kind false) ts)) =
      opens σ (.node l ts) := by
  by_cases htyped : l.kind = .varDecl ∨ l.kind = .function
  · obtain ⟨l', rest, rfl, -⟩ := h.root.typed htyped
    rw [lowerReadsAll, lowerReads_leaf]
    exact opens_typed htyped
  rw [not_or] at htyped
  cases hmem : isMemberAccess l with
  | false => rw [opens_plain htyped.1 htyped.2 hmem, opens_plain htyped.1 htyped.2 hmem]
  | true =>
    obtain ⟨hk, base, member, rfl⟩ := h.root.pair hmem
    obtain ⟨hname, hother⟩ := lowerReads_root types σ₁ (.below l.kind true)
      (h.of_mem (.head _))
    rw [lowerReadsAll, opens_member _ _ _ hk, opens_member _ _ _ hk]
    by_cases hid : base.entry.kind = .ident
    · rw [hname hid]
    · rw [if_neg hid, if_neg (hother hid)]

theorem mem_lowerReadsAll {u : Tree} (h : u ∈ lowerReadsAll types σ p q ts) :
    ∃ t ∈ ts, ∃ σ' p', u = lowerReads types σ' p' t := by
  induction ts generalizing σ p with
  | nil =>
    rw [lowerReadsAll] at h
    cases h
  | cons t ts ih =>
    rw [lowerReadsAll, mem_cons] at h
    rcases h with rfl | h
    · exact ⟨t, .head _, σ, p, rfl⟩
    · obtain ⟨t', ht', hu⟩ := ih h
      exact ⟨t', .tail _ ht', hu⟩

/-- The kinds of the nodes that the expression of a selection adds to its base. -/
def addedKinds : List Kind := [.index, .intConst, .call, .varType, .args]

theorem mem_preorder_elementTree {x : Label} {i : Nat}
    (h : x ∈ (elementTree pos base i).preorder) :
    x ∈ base.preorder ∨ x.kind ∈ addedKinds ∧ x.pos = pos := by
  simp only [elementTree, Tree.plain, Tree.valued, Rose.preorder_node, flatMap_cons,
    flatMap_nil, append_nil, mem_cons, mem_append, not_mem_nil,
    or_false] at h
  rcases h with rfl | h | rfl
  · exact .inr ⟨by simp [addedKinds], rfl⟩
  · exact .inl h
  · exact .inr ⟨by simp [addedKinds], rfl⟩

theorem mem_preorder_tree {x : Label} {selection : Selection}
    (h : x ∈ (selection.tree types pos base).preorder) :
    x ∈ base.preorder ∨ x.kind ∈ addedKinds ∧ x.pos = pos := by
  cases selection with
  | component i => exact mem_preorder_elementTree h
  | vector s =>
    simp only [Selection.tree, readTree, Tree.plain, Tree.valued, Rose.preorder_node,
      flatMap_cons, flatMap_nil, append_nil, mem_cons, mem_append,
      not_mem_nil, or_false] at h
    rcases h with rfl | rfl | rfl | h
    · exact .inr ⟨by simp [addedKinds], rfl⟩
    · exact .inr ⟨by simp [addedKinds], rfl⟩
    · exact .inr ⟨by simp [addedKinds], rfl⟩
    · obtain ⟨u, hu, hx⟩ := mem_flatMap.1 h
      obtain ⟨i, -, rfl⟩ := mem_map.1 hu
      exact mem_preorder_elementTree hx

/-- **Lowering adds nothing but components and constructors**, where there are nodes already. -/
theorem mem_preorder_lowerReads {x : Label} (h : x ∈ (lowerReads types σ p t).preorder) :
    x ∈ t.preorder ∨ x.kind ∈ addedKinds ∧ ∃ y ∈ t.preorder, x.pos = y.pos := by
  induction t using Rose.induction generalizing σ p with
  | node l ts ih =>
    have hbelow : ∀ t ∈ ts, ∀ {σ p}, x ∈ (lowerReads types σ p t).preorder →
        x ∈ (Rose.node l ts).preorder ∨
          x.kind ∈ addedKinds ∧ ∃ y ∈ (Rose.node l ts).preorder, x.pos = y.pos :=
      fun t ht _ _ hx => (ih t ht hx).imp (Rose.mem_preorder_of_mem ht)
        (.imp_right fun h => h.imp fun _ hy => ⟨Rose.mem_preorder_of_mem ht hy.1, hy.2⟩)
    cases ts with
    | nil =>
      rw [lowerReads_leaf] at h
      exact .inl h
    | cons base rest =>
      rw [lowerReads] at h
      split at h
      · rcases mem_preorder_tree h with h | ⟨hk, hpos⟩
        · exact hbelow base (.head _) h
        · exact .inr ⟨hk, l, by simp, hpos⟩
      · rw [Rose.preorder_node, mem_cons] at h
        rcases h with rfl | h
        · exact .inl (by simp)
        · obtain ⟨u, hu, hx⟩ := mem_flatMap.1 h
          obtain ⟨t, ht, σ', p', rfl⟩ := mem_lowerReadsAll hu
          exact hbelow t ht hx

theorem isArray?_of_roots {u : Tree} {bound bound' : Option Ty}
    (h : u = base ∧ bound' = bound ∨ base.entry.kind ≠ .ident ∧ u.entry.kind ≠ .ident) :
    isArray? types bound' u = isArray? types bound base := by
  rcases h with ⟨rfl, rfl⟩ | ⟨hb, hu⟩
  · rfl
  · unfold isArray?
    rw [if_neg hb, if_neg hu]

/-- What the rule of the reads keeps is settled, or a vector that is assigned to. -/
theorem readDone_of_keep {opened : Bool} (h : Regular (.node l ts))
    (ho : opens σ (.node l ts) = some (σ₁, opened))
    (hr : readRule types σ₁ p (.node l ts) = .keep) (σ' : Names) :
    ReadDone types ⟨σ, p, .node l
      (lowerReadsAll types σ' (.below l.kind true) (.below l.kind false) ts)⟩ := by
  by_cases hk : l.kind = .member
  swap
  · exact .inl (settled_of_kind hk)
  obtain ⟨base, l', name, rfl, hident, hname⟩ := h.root.named hk
  obtain ⟨hkept, hother⟩ := lowerReads_root types σ' (.below l.kind true)
    (h.of_mem (.head _))
  obtain ⟨-, harray⟩ := isArray?_inside types hk ho
  have hmember : ∀ u : Tree, memberOf? [u, .node l' []] = some name := by
    intro u
    unfold memberOf?
    exact (if_pos hident).trans hname
  rw [readRule, if_pos hk, hmember, harray] at hr
  change readMember types _ p l.pos base name = .keep at hr
  rw [lowerReadsAll, lowerReadsAll, lowerReadsAll, lowerReads_leaf]
  -- lowering a base leaves a name as it is and makes a name of nothing else
  have hbase : isArray? types (σ ((lowerReads types σ' (.below l.kind true) base).entry.name?.getD ""))
      (lowerReads types σ' (.below l.kind true) base) =
      isArray? types (σ (base.entry.name?.getD "")) base := by
    refine isArray?_of_roots ?_
    by_cases hid : base.entry.kind = .ident
    · exact .inl ⟨hkept hid, by rw [hkept hid]⟩
    · exact .inr ⟨hid, hother hid⟩
  unfold readMember at hr
  split at hr
  · cases hr
  · cases hr
  · next w _ hsel =>
    split at hr
    · next hp =>
      refine .inr ⟨hp, w, ?_⟩
      change (memberOf? [_, Rose.node l' []]).bind _ = _
      rw [hmember, Option.bind_some, hsel]
    · cases hr
  · next hnone hcomponent hvector =>
    refine .inl fun _ => ?_
    rw [hmember, Option.map_some]
    simp only [head?_cons, Option.bind_some, hbase]
    cases hsel : Selection.ofMember? name with
    | none => exact .inl rfl
    | some selection =>
      right
      cases harr : isArray? types (σ (base.entry.name?.getD "")) base with
      | none => exact absurd harr hnone
      | some array =>
        cases array with
        | false => rfl
        | true =>
          cases selection with
          | component i => exact absurd hsel (hcomponent i harr)
          | vector w => exact absurd hsel (hvector w harr)

/-- **After the walk of the reads every node is settled or a vector that is assigned to.** -/
theorem Walks.readDone (h : Walks (readRule types) σ p q ts us τ) : (∀ t ∈ ts, Regular t) →
    (∀ s ∈ sitesAll σ p q us, ReadDone types s) ∧ afterAll σ us = τ := by
  induction h with
  | nil =>
    intro _
    refine ⟨fun s hs => ?_, rfl⟩
    rw [sitesAll] at hs
    cases hs
  | @keep σ σ₁ σ₂ τ p q l ts us rest rest' opened ho hr hb _ ihb ihn =>
    intro hreg
    have hnode := hreg _ (.head _)
    obtain ⟨rfl, -⟩ := Walks.lowerReads_eq hb fun t ht => hnode.of_mem ht
    obtain ⟨hsites, hafter⟩ := ihb fun t ht => hnode.of_mem ht
    obtain ⟨hsites', hafter'⟩ := ihn fun t ht => hreg t (.tail _ ht)
    have ho' := (opens_lowerReadsAll types σ₁ hnode).trans ho
    have hnames := after_node ho'
    rw [hafter] at hnames
    refine ⟨fun s hs => ?_, by rw [afterAll, hnames, hafter']⟩
    rcases mem_sitesAll_cons.1 hs with hs | hs
    · rcases (mem_sites_node ho').1 hs with rfl | hs
      · exact readDone_of_keep hnode ho hr σ₁
      · exact hsites s hs
    · rw [hnames] at hs
      exact hsites' s hs
  | @replace σ σ₁ σ₂ τ p q t ts us rest rest' opened ho hr hb _ ihb ihn =>
    intro hreg
    obtain ⟨l, children⟩ := t
    cases children with
    | nil => cases hr
    | cons base more =>
      obtain ⟨rfl, selection, -, rfl⟩ := selection?_of_replace ho hr
      have hnew : ∀ u ∈ [selection.tree types l.pos base], Regular u := fun u hu => by
        rw [mem_singleton.1 hu]
        exact regular_tree ((hreg _ (.head _)).of_mem (.head _)) selection
      obtain ⟨rfl, -⟩ := Walks.lowerReads_eq hb hnew
      obtain ⟨hsites, hafter⟩ := ihb hnew
      obtain ⟨hsites', hafter'⟩ := ihn fun t ht => hreg t (.tail _ ht)
      simp only [if_true, lowerReadsAll] at hsites hafter ⊢
      refine ⟨fun s hs => ?_, by rw [singleton_append, afterAll, ← hafter']; rw [← hafter]; rfl⟩
      rcases mem_sitesAll_cons.1 hs with hs | hs
      · exact hsites s (mem_sitesAll_cons.2 (.inl hs))
      · rw [show after σ _ = σ₂ from hafter] at hs
        exact hsites' s hs

theorem ofMember?_of_vector {m : String} {w : Swizzle} (h : Selection.ofMember? m = some (.vector w)) :
    Swizzle.ofMember? m = some w := by
  unfold Selection.ofMember? at h
  split at h
  · cases h
  · obtain ⟨w', hw, he⟩ := Option.map_eq_some_iff.1 h
    cases he
    exact hw

theorem settled_target {target value : Tree} (hl : l.kind = .assign)
    (hr : writeRule types σ p (.node l [target, value]) = .keep)
    (h : ReadDone types ⟨σ, .target, target⟩) : Settled types σ target := by
  rcases h with h | ⟨-, w, hw⟩
  · exact h
  obtain ⟨lt, ts⟩ := target
  intro hk
  obtain ⟨m, hm, hsel⟩ := Option.bind_eq_some_iff.1 hw
  change memberOf? ts = some m at hm
  cases ts with
  | nil => cases hm
  | cons base rest =>
    have hswizzle : swizzleTarget? (.node lt (base :: rest)) = some (base, w) := by
      rw [swizzleTarget?, if_pos hk, hm, Option.bind_some, ofMember?_of_vector hsel]
      rfl
    rw [writeRule, if_pos hl, hswizzle] at hr
    simp only at hr
    right
    rw [head?_cons, Option.bind_some]
    split at hr
    · split at hr <;> cases hr
    · next harr => exact harr
    · cases hr

/-- **Nodes that the reads are done with and that the writes keep are settled.** -/
theorem settled_of_kept : Tidy t → Settled types σ t →
    (∀ s ∈ sites σ p t, ReadDone types s ∧ s.Kept (writeRule types)) →
    ∀ s ∈ sites σ p t, Settled types s.around s.tree := by
  induction t using Rose.induction generalizing σ p with
  | node l ts ih =>
    intro htidy hroot hall s hs
    -- the first child of an assignment has to be looked at apart
    have hlist : ∀ us : List Tree, (∀ u ∈ us, u ∈ ts) → ∀ (σ : Names) (p q : Place), q ≠ .target →
        (∀ u, us.head? = some u → p = .target → ReadDone types ⟨σ, p, u⟩ → Settled types σ u) →
        (∀ s ∈ sitesAll σ p q us, ReadDone types s ∧ s.Kept (writeRule types)) →
        ∀ s ∈ sitesAll σ p q us, Settled types s.around s.tree := by
      intro us
      induction us with
      | nil =>
        intro _ σ p q _ _ _ s hs
        rw [sitesAll] at hs
        cases hs
      | cons u us ihus =>
        intro hsub σ p q hq hhead hall s hs
        have hu := hsub u (.head _)
        have hdone := hall _ (mem_sitesAll_cons.2 (.inl (root_mem_sites σ p u)))
        rcases mem_sitesAll_cons.1 hs with hs | hs
        · refine ih u hu (htidy.of_mem hu) ?_ (fun s hs => hall s (mem_sitesAll_cons.2 (.inl hs))) s hs
          by_cases hp : p = .target
          · exact hhead u rfl hp hdone.1
          · exact hdone.1.resolve_right fun h => hp h.1
        · exact ihus (fun u hu => hsub u (.tail _ hu)) (after σ u) q q hq
            (fun _ _ hp => absurd hp hq) (fun s hs => hall s (mem_sitesAll_cons.2 (.inr hs))) s hs
    obtain ⟨-, σ₁, opened, ho, hr⟩ := hall _ (root_mem_sites σ p _)
    change opens σ (.node l ts) = _ at ho
    change writeRule types σ₁ p (.node l ts) = _ at hr
    rcases (mem_sites_node ho).1 hs with rfl | hs
    · exact hroot
    · have hbelow : Place.below l.kind false ≠ .target := by
        unfold Place.below
        split
        · exact fun h => by cases h
        · rw [if_neg fun h => by cases h.2]
          exact fun h => by cases h
      refine hlist ts (fun _ hu => hu) σ₁ _ _ hbelow (fun u hu hp hdone => ?_)
        (fun s hs => hall s ((mem_sites_node ho).2 (.inr hs))) s hs
      have hl : l.kind = .assign := by
        unfold Place.below at hp
        split at hp
        · cases hp
        · split at hp
          · next h => exact h.1
          · cases hp
      obtain ⟨target, value, rfl⟩ := htidy.root.assigned hl
      cases hu
      rw [hp] at hdone
      exact settled_target hl hr hdone

/-- Other names that differ in `this` alone, where they bind it to no array. -/
def Agrees (types : TypeTable) (σ σ' : Names) : Prop :=
  (∀ n, n ≠ thisName → σ' n = σ n) ∧
    (σ' thisName = σ thisName ∨
      (σ' thisName).bind (fun t => (types.resolve t).toOption.map Ty.isArray) = some false)

theorem Settled.agrees {σ' : Names} (h : Settled types σ t) (ha : Agrees types σ σ') :
    Settled types σ' t := by
  obtain ⟨l, ts⟩ := t
  intro hk
  rcases h hk with hname | harray
  · exact .inl hname
  · right
    obtain ⟨base, hbase, harr⟩ := Option.bind_eq_some_iff.1 harray
    rw [hbase, Option.bind_some]
    unfold isArray? at harr ⊢
    split at harr
    · next hid =>
      rw [if_pos hid]
      by_cases hthis : base.entry.name?.getD "" = thisName
      · rw [hthis] at harr ⊢
        rcases ha.2 with hsame | hno
        · rw [hsame]
          exact harr
        · exact hno
      · rw [ha.1 _ hthis]
        exact harr
    · cases harr

/-- **An expression all of whose accesses are settled has settled sites only**, although inside
an access `this` is bound to the type of its base. -/
theorem settled_sites {σ' : Names} : Tidy t → Inert t →
    (∀ u ∈ t.subtrees, Settled types σ u) → Agrees types σ σ' →
    ∀ s ∈ sites σ' p t, Settled types s.around s.tree := by
  induction t using Rose.induction generalizing σ' p with
  | node l ts ih =>
    intro htidy hinert hall ha s hs
    have hroot := hall _ (Rose.self_mem_subtrees _)
    have hchild : ∀ t ∈ ts, ∀ {σ'' : Names} {r : Place}, Agrees types σ σ'' →
        ∀ s ∈ sites σ'' r t, Settled types s.around s.tree := fun t ht _ _ ha'' =>
      ih t ht (htidy.of_mem ht) (hinert.of_mem ht)
        (fun u hu => hall u (Rose.mem_subtrees_of_mem ht hu)) ha''
    rw [sites, mem_cons] at hs
    rcases hs with rfl | hs
    · exact hroot.agrees ha
    -- in an expression only a member access binds a name, and only `this`
    cases hmem : isMemberAccess l with
    | false =>
      rw [inside_eq (opens_plain hinert.root.1 hinert.root.2.1 hmem)] at hs
      obtain ⟨t, ht, r, -, hs⟩ := mem_sitesAll_inert (fun t ht => hinert.of_mem ht) hs
      exact hchild t ht ha s hs
    | true =>
      obtain ⟨hk, base, member, rfl⟩ := htidy.root.pair hmem
      have hopens := opens_member σ' base [member] hk
      by_cases hid : base.entry.kind = .ident
      swap
      · rw [if_neg hid] at hopens
        rw [inside_eq hopens] at hs
        obtain ⟨t, ht, r, -, hs⟩ := mem_sitesAll_inert (fun t ht => hinert.of_mem ht) hs
        exact hchild t ht ha s hs
      obtain ⟨t, ht, r, -, hs⟩ := mem_sitesAll_inert (fun t ht => hinert.of_mem ht) hs
      have hleaf : ∀ t ∈ [base, member], t.entry.kind = .ident →
          ∀ {σ'' : Names}, ∀ s ∈ sites σ'' r t, Settled types s.around s.tree := by
        intro t ht hident σ'' s hs
        obtain ⟨lt, tts⟩ := t
        have hnil := (htidy.of_mem ht).root.leaf hident
        subst hnil
        rw [sites, sitesAll, mem_singleton] at hs
        subst hs
        exact settled_of_kind (by rw [show lt.kind = .ident from hident]; exact fun h => by cases h)
      rcases mem_cons.1 ht with rfl | ht'
      · exact hleaf _ ht hid s hs
      obtain rfl := mem_singleton.1 ht'
      rcases hroot.agrees ha hk with hname | harray
      · -- a member with a name is a leaf
        refine hleaf _ ht ?_ s hs
        obtain ⟨m, hm, -⟩ := Option.map_eq_some_iff.1 hname
        unfold memberOf? at hm
        by_contra hne
        simp only [getElem?_cons_succ, getElem?_cons_zero, Option.bind_some,
          if_neg hne] at hm
        cases hm
      · -- otherwise `this` is bound to no array inside
        simp only [head?_cons, Option.bind_some] at harray
        unfold isArray? at harray
        rw [if_pos hid] at harray
        rw [if_pos hid] at hopens
        refine hchild _ ht ?_ s hs
        unfold inside
        rw [hopens]
        cases hty : σ' (base.entry.name?.getD "") with
        | none =>
          rw [hty] at harray
          cases harray
        | some ty =>
          rw [hty] at harray
          refine ⟨fun n hn => ?_, .inr ?_⟩
          · simp only [Option.map_some, Option.getD_some, Names.bind, if_neg hn]
            exact ha.1 n hn
          · simpa [Names.bind] using harray

end VecLang.Swizzle
