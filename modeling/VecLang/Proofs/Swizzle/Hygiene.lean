import VecLang.Proofs.Swizzle.Settled

/-!
# Names that are taken for operands

An assignment to a swizzle is split by putting operands into a template one after the
other. Parts of the value that are put in early stay open to the operands that follow,
and a name in them may be taken for one. The assignment is hygienic if no access to
components of an array comes about in this way.

* `Hygienic`: what has to hold of an assignment.
* `Splitting.readDone_iff`: hygiene is exactly what the split assignments need.
* `Splitting.settled_of_avoids`: values without the names of placeholders are hygienic.
-/

namespace VecLang.Swizzle

open ScopeWalk Arena List

variable {P : Tree → Prop} {n : Nat} {s : Site}

/-- The parts of a value that are put into a template, each with the operands that are put in
after it. -/
def openParts (w : Swizzle) (base value : Tree) : List (Tree × List (String × Tree)) :=
  match constructed? w.width value with
  | some args => args.mapIdx fun k arg => (arg, operandsFrom base (k + 1) (args.drop (k + 1)))
  | none => [(value, [("$n1", base)])]

/-- **No access of the value becomes one to components of an array** when the operands after
it are put into the template, if the site is an assignment to a swizzle of an array. -/
def Hygienic (types : TypeTable) (s : Site) : Prop :=
  match s.tree with
  | .node l (target :: value :: _) =>
    match swizzleTarget? target with
    | some (base, w) => l.kind = .assign → s.place = .statement →
        isArray? types (s.around (base.entry.name?.getD "")) base = some true →
        ∀ part ∈ openParts w base value, ∀ u ∈ part.1.subtrees, u.entry.kind = .member →
          Settled types s.around (Tree.fill part.2 u)
    | none => True
  | _ => True

variable {types : TypeTable} {σ : Names} {p : Place} {l : Label} {pos : Pos} {name : String}
  {base value t u w : Tree} {ts : List Tree} {operands : List (String × Tree)}

/-! ### Substituted trees -/

theorem inert_subst (hu : Inert u) (ht : Inert t) : Inert (Tree.subst name u t) := by
  intro x hx
  obtain ⟨y, hy, ⟨-, rfl⟩ | ⟨v, hv, hx⟩⟩ := Rose.mem_preorder_expand hx
  · exact ht y hy
  · unfold Tree.forName at hv
    split at hv
    · cases hv
      exact hu x hx
    · cases hv

theorem tidyNode_map (f : Tree → Tree) (h : TidyNode l ts) : TidyNode l (ts.map f) := by
  refine ⟨fun hk => by rw [h.leaf hk]; rfl, fun hm => ?_, fun hk => ?_⟩
  · obtain ⟨hk, base, member, rfl⟩ := h.pair hm
    exact ⟨hk, f base, f member, rfl⟩
  · obtain ⟨target, value, rfl⟩ := h.assigned hk
    exact ⟨f target, f value, rfl⟩

theorem tidy_subst (hu : Tidy u) : Tidy t → Tidy (Tree.subst name u t) := by
  induction t using Rose.induction with
  | node l ts ih =>
    intro ht
    rw [Tree.subst_node]
    split
    · exact hu
    · refine .node (tidyNode_map _ ht.root) fun t' ht' => ?_
      obtain ⟨t, hmem, rfl⟩ := mem_map.1 ht'
      exact ih t hmem (ht.of_mem hmem)

/-- **What one operand in the place of a name keeps, several keep.** -/
theorem fill_keeps (hsubst : ∀ {name u t}, P u → P t → P (Tree.subst name u t))
    (ho : ∀ o ∈ operands, P o.2) (ht : P t) : P (Tree.fill operands t) := by
  induction operands generalizing t with
  | nil => exact ht
  | cons o operands ih =>
    obtain ⟨hfirst, hrest⟩ := forall_mem_cons.1 ho
    exact ih hrest (hsubst hfirst ht)

theorem mem_subtrees_subst (hw : w ∈ (Tree.subst name u t).subtrees) :
    w ∈ u.subtrees ∨ ∃ v ∈ t.subtrees, w = Tree.subst name u v ∧ w.entry = v.entry := by
  induction t using Rose.induction with
  | node l ts ih =>
    rw [Tree.subst_node] at hw
    split at hw
    · exact .inl hw
    · next hne =>
      rw [Rose.subtrees, Rose.subtreesAll_eq_flatMap, mem_cons] at hw
      rcases hw with rfl | hw
      · refine .inr ⟨_, Rose.self_mem_subtrees _, ?_, rfl⟩
        rw [Tree.subst_node, if_neg hne]
      · obtain ⟨t', ht', hw⟩ := mem_flatMap.1 hw
        obtain ⟨t, ht, rfl⟩ := mem_map.1 ht'
        rcases ih t ht hw with hw | ⟨v, hv, he⟩
        · exact .inl hw
        · exact .inr ⟨v, Rose.mem_subtrees_of_mem ht hv, he⟩

/-- **The accesses of a filled tree** are its own, and those of the operands, each filled with
the operands after it. -/
theorem mem_subtrees_fill (hw : w ∈ (Tree.fill operands t).subtrees)
    (hk : w.entry.kind = .member) :
    (∃ v ∈ t.subtrees, v.entry.kind = .member ∧ w = Tree.fill operands v) ∨
      ∃ o later, (o :: later) <:+ operands ∧ ∃ v ∈ o.2.subtrees, v.entry.kind = .member ∧
        w = Tree.fill later v := by
  induction operands generalizing t with
  | nil => exact .inl ⟨w, hw, hk, rfl⟩
  | cons o operands ih =>
    rcases ih (t := Tree.subst o.1 o.2 t) hw with ⟨v, hv, hvk, rfl⟩ | ⟨o', later, hsuffix, hv⟩
    · rcases mem_subtrees_subst hv with hv | ⟨v', hv', rfl, he⟩
      · exact .inr ⟨o, operands, suffix_rfl, v, hv, hvk, rfl⟩
      · exact .inl ⟨v', hv', he ▸ hvk, rfl⟩
    · exact .inr ⟨o', later, hsuffix.trans (suffix_cons _ _), hv⟩

/-- **An access of an expression is a site of the filled expression**, with the names around
the whole expression in scope. -/
theorem fill_mem_sites (σ : Names) (operands : List (String × Tree))
    (ho : ∀ o ∈ operands, Inert o.2) : Regular t → Inert t → u ∈ t.subtrees →
    u.entry.kind = .member → ∀ p, ∃ r, ⟨σ, r, Tree.fill operands u⟩ ∈
      sites σ p (Tree.fill operands t) := by
  induction t using Rose.induction with
  | node l ts ih =>
    intro hreg hinert hu hk p
    rw [Rose.subtrees, Rose.subtreesAll_eq_flatMap, mem_cons] at hu
    rcases hu with rfl | hu
    · exact ⟨p, root_mem_sites _ _ _⟩
    obtain ⟨t, ht, hut⟩ := mem_flatMap.1 hu
    have hident : l.kind ≠ .ident := fun he => by
      rw [hreg.root.leaf he] at ht
      cases ht
    have hfilled : ∀ t' ∈ ts.map (Tree.fill operands), Inert t' := by
      intro t' ht'
      obtain ⟨t, ht, rfl⟩ := mem_map.1 ht'
      exact fill_keeps inert_subst ho (hinert.of_mem ht)
    -- the accesses below an access lie in its base, which is then no name
    have hopens : ∃ opened, opens σ (.node l (ts.map (Tree.fill operands))) = some (σ, opened) := by
      cases hmem : isMemberAccess l with
      | false => exact ⟨false, opens_plain hinert.root.1 hinert.root.2.1 hmem⟩
      | true =>
        obtain ⟨hmk, -⟩ := hreg.root.pair hmem
        obtain ⟨base, l', name, rfl, hl', -⟩ := hreg.root.named hmk
        obtain ⟨lb, bs⟩ := base
        have hbase : lb.kind ≠ .ident := by
          intro he
          rcases mem_cons.1 ht with rfl | ht
          · have hnil := (hreg.of_mem (.head _)).root.leaf he
            subst hnil
            rw [Rose.subtrees, Rose.subtreesAll, mem_singleton] at hut
            rw [hut, show (Rose.node lb []).entry.kind = lb.kind from rfl, he] at hk
            cases hk
          · rw [mem_singleton.1 ht, Rose.subtrees, Rose.subtreesAll, mem_singleton] at hut
            rw [hut, show (Rose.node l' []).entry.kind = l'.kind from rfl, hl'] at hk
            cases hk
        refine ⟨true, ?_⟩
        rw [map_cons, opens_member _ _ _ hmk, fill_node hbase]
        exact if_neg hbase
    obtain ⟨opened, hopens⟩ := hopens
    obtain ⟨r, -, hsub⟩ := sites_subset_sitesAll σ (.below l.kind true)
      (.below l.kind false) hfilled (mem_map_of_mem ht)
    obtain ⟨r', hr'⟩ := ih t ht (hreg.of_mem ht) (hinert.of_mem ht) hut hk r
    refine ⟨r', ?_⟩
    rw [fill_node hident]
    exact (mem_sites_node hopens).2 (.inr (hsub _ hr'))

/-! ### The parts of a value -/

section Parts

variable {sw : Swizzle} {k : Nat} {args : List Tree} {part : Tree × List (String × Tree)}
  {o : String × Tree} {later : List (String × Tree)}

theorem constructed?_eq_some (h : constructed? n (.node l ts) = some args) :
    l.kind = .call ∧ args.length = n ∧ ∃ callee list more, ts = callee :: list :: more ∧
      args = list.children ∧ ∃ ty ∈ callee.entry.type?, ty.name = "vec" ++ toString n := by
  unfold constructed? at h
  split at h
  swap
  · cases h
  next hl =>
  split at h
  · next ty list hty hlist =>
    split at h
    · next hfit =>
      cases h
      match ts, hty, hlist with
      | callee :: _ :: more, hty, hlist =>
        cases hlist
        exact ⟨hl, hfit.2, callee, list, more, rfl, rfl, ty, hty, hfit.1⟩
    · cases h
  · cases h

theorem mem_subtrees_of_constructed (h : constructed? n value = some args) :
    args.length = n ∧ ∀ arg ∈ args, arg ∈ value.subtrees := by
  obtain ⟨l, ts⟩ := value
  obtain ⟨-, hlen, callee, ⟨ll, ls⟩, more, rfl, rfl, -⟩ := constructed?_eq_some h
  refine ⟨hlen, fun arg harg => ?_⟩
  exact Rose.mem_subtrees_of_mem (.tail _ (.head _))
    (Rose.mem_subtrees_of_mem harg arg.self_mem_subtrees)

theorem mem_operandsFrom (h : o ∈ operandsFrom base k args) : o.2 = base ∨ o.2 ∈ args := by
  induction args generalizing k with
  | nil =>
    rw [operandsFrom, mem_singleton] at h
    exact .inl (by rw [h])
  | cons arg args ih =>
    rw [operandsFrom, mem_cons] at h
    rcases h with rfl | h
    · exact .inr (.head _)
    · exact (ih h).imp_right (mem_cons_of_mem _)

/-- What components and operands keep, what is assigned at each place keeps. -/
theorem valueAt_keeps (hsubst : ∀ {name u t}, P u → P t → P (Tree.subst name u t))
    (helement : ∀ {t}, P t → P (elementTree pos t k))
    (hargs : ∀ {args}, constructed? sw.width value = some args → ∀ arg ∈ args, P arg)
    (hbase : P base) (hvalue : P value) : P (valueAt pos sw base value k) := by
  unfold valueAt
  split
  · next args heq =>
    have hall := hargs heq
    refine fill_keeps hsubst (fun o ho => ?_) ?_
    · rcases mem_operandsFrom ho with he | hm
      · exact he ▸ hbase
      · exact hall _ (mem_of_mem_drop hm)
    · rw [getD_eq_getElem?_getD]
      cases hk : args[k]? with
      | none => exact hvalue
      | some arg => exact hall arg (mem_of_getElem? hk)
  · exact helement (hsubst hbase hvalue)

theorem mem_openParts (h : part ∈ openParts sw base value) :
    part.1 ∈ value.subtrees ∧ ∀ o ∈ part.2, o.2 = base ∨ o.2 ∈ value.subtrees := by
  unfold openParts at h
  split at h
  · next args hargs =>
    obtain ⟨-, hsub⟩ := mem_subtrees_of_constructed hargs
    obtain ⟨k, hk, rfl⟩ := mem_mapIdx.1 h
    refine ⟨hsub _ (getElem_mem hk), fun o ho => ?_⟩
    exact (mem_operandsFrom ho).imp_right fun hm => hsub _ (mem_of_mem_drop hm)
  · rw [mem_singleton] at h
    subst h
    refine ⟨value.self_mem_subtrees, fun o ho => ?_⟩
    rw [mem_singleton] at ho
    exact .inl (by rw [ho])

theorem suffix_operandsFrom (h : (o :: later) <:+ operandsFrom base k (args.drop k)) :
    o.2 = base ∧ later = [] ∨
      ∃ j, args[j]? = some o.2 ∧ later = operandsFrom base (j + 1) (args.drop (j + 1)) := by
  generalize hrest : args.drop k = rest at h
  induction rest generalizing k with
  | nil =>
    rw [operandsFrom] at h
    rcases suffix_cons_iff.1 h with he | hs
    · cases he
      exact .inl ⟨rfl, rfl⟩
    · cases suffix_nil.1 hs
  | cons arg rest ih =>
    have hdrop : args.drop (k + 1) = rest := by
      rw [← drop_drop, hrest, drop_succ_cons, drop_zero]
    rw [operandsFrom] at h
    rcases suffix_cons_iff.1 h with he | hs
    · cases he
      refine .inr ⟨k, ?_, by rw [hdrop]⟩
      rw [← head?_drop, hrest]
      rfl
    · exact ih hdrop hs

/-- An operand that follows a part is the base, or a part itself with what follows it. -/
theorem suffix_openParts (h : part ∈ openParts sw base value) (hs : (o :: later) <:+ part.2) :
    o.2 = base ∧ later = [] ∨ (o.2, later) ∈ openParts sw base value := by
  unfold openParts at h ⊢
  split at h
  · next args hargs =>
    obtain ⟨k, hk, rfl⟩ := mem_mapIdx.1 h
    rcases suffix_operandsFrom hs with hbase | ⟨j, hj, rfl⟩
    · exact .inl hbase
    · obtain ⟨hj, he⟩ := List.getElem?_eq_some_iff.1 hj
      exact .inr (List.mem_mapIdx.2 ⟨j, hj, by rw [he]⟩)
  · rw [mem_singleton] at h
    subst h
    rcases suffix_cons_iff.1 hs with he | hs
    · cases he
      exact .inl ⟨rfl, rfl⟩
    · cases suffix_nil.1 hs

/-- A filled part as the value at a place: on its own or by its component there. -/
def Shows (pos : Pos) (k : Nat) (part : Tree × List (String × Tree)) (v : Tree) : Prop :=
  v = Tree.fill part.2 part.1 ∨ v = elementTree pos (Tree.fill part.2 part.1) k

theorem valueAt_shows (pos : Pos) (base value : Tree) (hk : k < sw.width) :
    ∃ part ∈ openParts sw base value, Shows pos k part (valueAt pos sw base value k) := by
  unfold openParts valueAt
  cases hargs : constructed? sw.width value with
  | none => exact ⟨_, mem_singleton_self _, .inr rfl⟩
  | some args =>
    have hk' : k < args.length := by
      rw [(mem_subtrees_of_constructed hargs).1]
      exact hk
    refine ⟨_, mem_mapIdx.2 ⟨k, hk', rfl⟩, .inl ?_⟩
    simp only [getD_eq_getElem?_getD, getElem?_eq_getElem hk', Option.getD_some]

theorem exists_valueAt (pos : Pos) (hwidth : 0 < sw.width) (h : part ∈ openParts sw base value) :
    ∃ k < sw.width, Shows pos k part (valueAt pos sw base value k) := by
  unfold openParts at h
  unfold valueAt
  cases hargs : constructed? sw.width value with
  | some args =>
    rw [hargs] at h
    obtain ⟨k, hk, rfl⟩ := mem_mapIdx.1 h
    refine ⟨k, (mem_subtrees_of_constructed hargs).1 ▸ hk, .inl ?_⟩
    simp only [getD_eq_getElem?_getD, getElem?_eq_getElem hk, Option.getD_some]
  | none =>
    rw [hargs] at h
    cases mem_singleton.1 h
    exact ⟨0, hwidth, .inr rfl⟩

end Parts

/-! ### Split assignments -/

section Splits

variable {sw : Swizzle} {τ : Names} {us : List Tree} {k : Nat} {target : Tree} {part : Tree × List
  (String × Tree)}

/-- The assignment to component `i` of what stands at place `k`. -/
def splitTree (pos : Pos) (sw : Swizzle) (base value : Tree) (k i : Nat) : Tree :=
  .operated .assign pos .assign [elementTree pos base i, valueAt pos sw base value k]

theorem mem_splitTrees (h : t ∈ splitTrees pos sw base value) :
    ∃ k i, k < sw.width ∧ t = splitTree pos sw base value k i := by
  obtain ⟨k, hk, rfl⟩ := mem_mapIdx.1 h
  exact ⟨k, _, hk, rfl⟩

theorem splitTree_mem (pos : Pos) (base value : Tree) (hk : k < sw.width) :
    ∃ i, splitTree pos sw base value k i ∈ splitTrees pos sw base value :=
  ⟨_, mem_mapIdx.2 ⟨k, hk, rfl⟩⟩

theorem inert_elementTree (h : Inert base) (i : Nat) : Inert (elementTree pos base i) :=
  .node (by simp) (forall_mem_cons.2
    ⟨h, forall_mem_singleton.2 (.node (by simp) fun _ hm => by cases hm)⟩)

theorem tidy_elementTree (h : Tidy base) (i : Nat) : Tidy (elementTree pos base i) :=
  .node (RegularNode.of_kind rfl (by simp)).toTidyNode (forall_mem_cons.2 ⟨h,
    forall_mem_singleton.2 (.node (RegularNode.of_kind rfl (by simp)).toTidyNode
      fun _ hm => by cases hm)⟩)

theorem opens_splitTree {i : Nat} (σ : Names) :
    opens σ (splitTree pos sw base value k i) = some (σ, false) := rfl

theorem valueAt_inert_tidy (pos : Pos) (hb : Inert base ∧ Tidy base) (hv : Inert value ∧ Tidy value)
    : Inert (valueAt pos sw base value k) ∧ Tidy (valueAt pos sw base value k) := by
  refine valueAt_keeps (P := fun t => Inert t ∧ Tidy t)
    (fun hu ht => ⟨inert_subst hu.1 ht.1, tidy_subst hu.2 ht.2⟩)
    (fun ht => ⟨inert_elementTree ht.1 k, tidy_elementTree ht.2 k⟩) (fun hargs arg harg => ?_) hb hv
  have hsub := (mem_subtrees_of_constructed hargs).2 arg harg
  exact ⟨fun x hx => hv.1 x (Rose.mem_preorder_of_mem_subtrees hsub hx),
    fun w hw => hv.2 w (Rose.mem_subtrees_trans hsub hw)⟩

theorem splitTree_inert_tidy (pos : Pos) (i : Nat) (hb : Inert base ∧ Tidy base)
    (hv : Inert value ∧ Tidy value) :
    (∀ u ∈ (splitTree pos sw base value k i).children, Inert u) ∧
      Inert (splitTree pos sw base value k i) ∧ Tidy (splitTree pos sw base value k i) := by
  obtain ⟨hinert, htidy⟩ := valueAt_inert_tidy pos hb hv
  have hchild : ∀ u ∈ (splitTree pos sw base value k i).children, Inert u ∧ Tidy u := by
    intro u hu
    rcases mem_cons.1 hu with rfl | hu
    · exact ⟨inert_elementTree hb.1 i, tidy_elementTree hb.2 i⟩
    · rw [mem_singleton.1 hu]
      exact ⟨hinert, htidy⟩
  refine ⟨fun u hu => (hchild u hu).1, .node (by simp) fun u hu => (hchild u hu).1,
    .node ⟨(fun h => by cases h), (fun h => by cases h), fun _ => ⟨_, _, rfl⟩⟩ fun u hu => (hchild u hu).2⟩

/-- Among the sites of a split assignment are those of its vector and of its value. -/
theorem sites_splitTree {i : Nat} (hb : Inert base)
    (hs : s ∈ sites σ .inner base ∨ s ∈ sites σ .inner (valueAt pos sw base value k)) :
    s ∈ sites σ .statement (splitTree pos sw base value k i) := by
  refine (mem_sites_node (opens_splitTree σ)).2 (.inr (mem_sitesAll_cons.2 ?_))
  rcases hs with hs | hs
  · have hopens : opens σ (elementTree pos base i) = some (σ, false) := rfl
    exact .inl ((mem_sites_node hopens).2 (.inr (mem_sitesAll_cons.2 (.inl hs))))
  · rw [after_eq_self (inert_elementTree hb i)]
    exact .inr (mem_sitesAll_cons.2 (.inl hs))

theorem sites_splitTrees (hb : Inert base ∧ Tidy base) (hv : Inert value ∧ Tidy value)
    (ht : t ∈ splitTrees pos sw base value) (hs : s ∈ sites σ .statement t) :
    s ∈ sitesAll σ .statement .statement (splitTrees pos sw base value) := by
  have hinert : ∀ t ∈ splitTrees pos sw base value, Inert t := by
    intro t ht
    obtain ⟨k, i, -, rfl⟩ := mem_splitTrees ht
    exact (splitTree_inert_tidy pos i hb hv).2.1
  obtain ⟨r, hr, hsub⟩ := sites_subset_sitesAll σ .statement .statement hinert ht
  rw [hr.elim id id] at hsub
  exact hsub s hs

theorem writeRule_replace (h : writeRule types σ p t = .replace ts) :
    p = .statement ∧ ∃ l target value more base sw, t = .node l (target :: value :: more) ∧
      l.kind = .assign ∧ swizzleTarget? target = some (base, sw) ∧
      isArray? types (σ (base.entry.name?.getD "")) base = some true ∧
      ts = splitTrees l.pos sw base value := by
  match t, h with
  | .node l [], h => cases h
  | .node l [_], h => cases h
  | .node l (target :: value :: more), h =>
    rw [writeRule] at h
    split at h
    swap
    · cases h
    next hl =>
    split at h
    swap
    · cases h
    next base sw htarget =>
    split at h
    · next harray =>
      split at h
      · next hp =>
        cases h
        exact ⟨hp, l, target, value, more, base, sw, rfl, hl, htarget, harray, rfl⟩
      · cases h
    · cases h
    · cases h

/-- The walk of the writes goes through assignments to components and changes nothing. -/
theorem walks_splits (hb : Inert base ∧ Tidy base) (hv : Inert value ∧ Tidy value)
    (hts : ∀ t ∈ ts, t ∈ splitTrees pos sw base value)
    (h : Walks (writeRule types) σ .statement .statement ts us τ) :
    us = ts ∧ τ = σ ∧ ∀ s ∈ sitesAll σ .statement .statement ts, s.Kept (writeRule types) := by
  induction ts generalizing us with
  | nil =>
    cases h
    refine ⟨rfl, rfl, fun s hs => ?_⟩
    rw [sitesAll] at hs
    cases hs
  | cons t ts ih =>
    obtain ⟨k, i, -, rfl⟩ := mem_splitTrees (hts t (.head _))
    obtain ⟨hinert, hnode, -⟩ := splitTree_inert_tidy pos i hb hv
    cases h with
    | @keep _ σ₁ σ₂ _ _ _ _ _ us rest rest' opened ho hr hbelow hnext =>
      obtain ⟨rfl, rfl⟩ : σ = σ₁ ∧ false = opened := by
        cases (opens_splitTree σ).symm.trans ho
        exact ⟨rfl, rfl⟩
      obtain ⟨rfl, rfl, hkept⟩ := hbelow.inert (fun _ _ _ _ hr => (writeRule_replace hr).1) hinert
        (fun h => by cases h) (fun h => by cases h)
      obtain ⟨rfl, rfl, hkept'⟩ := ih (fun t ht => hts t (.tail _ ht)) hnext
      refine ⟨rfl, rfl, fun s hs => ?_⟩
      rcases mem_sitesAll_cons.1 hs with hs | hs
      · rcases (mem_sites_node ho).1 hs with rfl | hs
        · exact ⟨_, _, ho, hr⟩
        · exact hkept s hs
      · rw [after_eq_self hnode] at hs
        exact hkept' s hs
    | replace ho hr _ _ =>
      obtain ⟨-, l, target, _, _, _, _, htree, -, htarget, -⟩ := writeRule_replace hr
      cases htree
      cases htarget

theorem settled_of_subtrees (h : ∀ u ∈ t.subtrees, u.entry.kind = .member → Settled types σ u) :
    ∀ u ∈ t.subtrees, Settled types σ u := by
  intro u hu
  by_cases hk : u.entry.kind = .member
  · exact h u hu hk
  · obtain ⟨l, ts⟩ := u
    exact settled_of_kind hk

theorem settled_elementTree (h : ∀ u ∈ t.subtrees, Settled types σ u) (i : Nat) :
    ∀ u ∈ (elementTree pos t i).subtrees, Settled types σ u := by
  refine forall_mem_subtrees (settled_of_kind (fun h => by cases h)) fun t ht => ?_
  rcases mem_cons.1 ht with rfl | ht
  · exact h
  · rw [mem_singleton.1 ht]
    exact forall_mem_subtrees (settled_of_kind (fun h => by cases h)) fun t ht => by cases ht

theorem swizzleTarget?_eq_some (h : swizzleTarget? target = some (base, sw)) :
    ∃ l rest, target = .node l (base :: rest) ∧ l.kind = .member ∧
      ∃ m, memberOf? (base :: rest) = some m ∧ ofMember? m = some sw := by
  obtain ⟨l, ts⟩ := target
  cases ts with
  | nil => cases h
  | cons b rest =>
    rw [swizzleTarget?] at h
    split at h
    · next hk =>
      obtain ⟨w, hw, he⟩ := Option.map_eq_some_iff.1 h
      cases he
      exact ⟨l, rest, rfl, hk, Option.bind_eq_some_iff.1 hw⟩
    · cases h

theorem swizzleTarget?_regular (hreg : Regular target) (h : swizzleTarget? target = some (base, sw))
    : Regular base ∧ Inert base := by
  obtain ⟨l, rest, rfl, hk, -⟩ := swizzleTarget?_eq_some h
  exact ⟨hreg.of_mem (.head _), hreg.root.inert (.inl hk) base (.head _)⟩

/-- The accesses of an expression that the reads are done with and the writes keep. -/
theorem settled_accesses (hreg : Regular t) (hinert : Inert t)
    (hall : ∀ s ∈ sites σ .inner t, ReadDone types s ∧ s.Kept (writeRule types)) :
    ∀ u ∈ t.subtrees, Settled types σ u := by
  have hroot : Settled types σ t :=
    (hall _ (root_mem_sites σ .inner t)).1.resolve_right fun h => by cases h.1
  refine settled_of_subtrees fun u hu hk => ?_
  obtain ⟨r, hr⟩ := fill_mem_sites σ [] (fun o ho => by cases ho) hreg hinert
    hu hk .inner
  exact settled_of_kept hreg.tidy hroot hall _ hr

/-- **An assignment to a swizzle of a vector**, all of whose reads are lowered and whose split
assignments the writes keep. -/
structure Splitting (types : TypeTable) (σ : Names) (l : Label) (target value base : Tree)
    (sw : Swizzle) : Prop where
  regular : Regular (.node l [target, value])
  assign : l.kind = .assign
  swizzle : swizzleTarget? target = some (base, sw)
  done : ∀ s ∈ sites σ .statement (.node l [target, value]), ReadDone types s
  kept : ∀ s ∈ sitesAll σ .statement .statement (splitTrees l.pos sw base value),
    s.Kept (writeRule types)

namespace Splitting

variable {target : Tree} (h : Splitting types σ l target value base sw)
include h

theorem regular_value : Regular value :=
  h.regular.of_mem (.tail _ (.head _))

theorem inert_value : Inert value :=
  h.regular.root.inert (.inr h.assign) value (.tail _ (.head _))

theorem base_regular_inert : Regular base ∧ Inert base :=
  swizzleTarget?_regular (h.regular.of_mem (.head _)) h.swizzle

theorem width_bounds : 0 < sw.width ∧ sw.width ≤ 4 := by
  obtain ⟨lt, rest, -, -, m, -, hm⟩ := swizzleTarget?_eq_some h.swizzle
  obtain ⟨hlo, hhi, -⟩ := ofMember?_bounds hm
  exact ⟨Nat.lt_of_lt_of_le Nat.zero_lt_two hlo, hhi⟩

theorem opens_eq : opens σ (.node l [target, value]) = some (σ, false) := by
  exact h.regular.root.opens_eq (by rw [h.assign]; decide) σ

theorem split_inert_tidy (k i : Nat) :
    Inert (splitTree l.pos sw base value k i) ∧ Tidy (splitTree l.pos sw base value k i) :=
  (splitTree_inert_tidy l.pos i ⟨h.base_regular_inert.2, h.base_regular_inert.1.tidy⟩
    ⟨h.inert_value, h.regular_value.tidy⟩).2

theorem mem_sitesAll (ht : t ∈ splitTrees l.pos sw base value) (hs : s ∈ sites σ .statement t) :
    s ∈ sitesAll σ .statement .statement (splitTrees l.pos sw base value) :=
  sites_splitTrees ⟨h.base_regular_inert.2, h.base_regular_inert.1.tidy⟩
    ⟨h.inert_value, h.regular_value.tidy⟩ ht hs

theorem settled_base : ∀ u ∈ base.subtrees, Settled types σ u := by
  obtain ⟨hreg, hinert⟩ := h.base_regular_inert
  obtain ⟨lt, rest, rfl, hk, -⟩ := swizzleTarget?_eq_some h.swizzle
  have hopens := opens_member σ base rest hk
  by_cases hid : base.entry.kind = .ident
  · obtain ⟨lb, bs⟩ := base
    have hnil := hreg.root.leaf hid
    subst hnil
    refine forall_mem_subtrees (settled_of_kind ?_) fun t ht => by cases ht
    rw [show lb.kind = .ident from hid]
    exact fun h => by cases h
  · rw [if_neg hid] at hopens
    have htarget : Place.below l.kind true = .target := by rw [h.assign]; rfl
    have hplace : Place.below lt.kind true = .inner := by rw [hk]; rfl
    obtain ⟨i, hi⟩ := splitTree_mem l.pos base value h.width_bounds.1
    refine settled_accesses hreg hinert fun s hs => ⟨h.done s ?_, h.kept s ?_⟩
    · refine (mem_sites_node h.opens_eq).2 (.inr (mem_sitesAll_cons.2 (.inl ?_)))
      rw [htarget]
      exact (mem_sites_node hopens).2 (.inr (mem_sitesAll_cons.2 (.inl (hplace ▸ hs))))
    · exact h.mem_sitesAll hi (sites_splitTree hinert (.inl hs))

end Splitting

theorem shows_mem_sites (hshows : Shows pos k part t) (ho : ∀ o ∈ part.2, Inert o.2)
    (hreg : Regular part.1) (hinert : Inert part.1) (hu : u ∈ part.1.subtrees)
    (hk : u.entry.kind = .member) (σ : Names) (p : Place) :
    ∃ r, ⟨σ, r, Tree.fill part.2 u⟩ ∈ sites σ p t := by
  rcases hshows with rfl | rfl
  · exact fill_mem_sites σ _ ho hreg hinert hu hk p
  · obtain ⟨r, hr⟩ := fill_mem_sites σ _ ho hreg hinert hu hk .inner
    have hopens : opens σ (elementTree pos (Tree.fill part.2 part.1) k) = some (σ, false) := rfl
    exact ⟨r, (mem_sites_node hopens).2 (.inr (mem_sitesAll_cons.2 (.inl hr)))⟩

theorem settled_shows (hshows : Shows pos k part t) (hbase : ∀ u ∈ base.subtrees, Settled types σ u)
    (hparts : ∀ part ∈ openParts sw base value, ∀ u ∈ part.1.subtrees, u.entry.kind = .member →
      Settled types σ (Tree.fill part.2 u))
    (hpart : part ∈ openParts sw base value) : ∀ u ∈ t.subtrees, Settled types σ u := by
  have hfill : ∀ u ∈ (Tree.fill part.2 part.1).subtrees, Settled types σ u := by
    refine settled_of_subtrees fun u hu hk => ?_
    rcases mem_subtrees_fill hu hk with ⟨v, hv, hvk, rfl⟩ | ⟨o, later, hsuffix, v, hv, hvk, rfl⟩
    · exact hparts part hpart v hv hvk
    · rcases suffix_openParts hpart hsuffix with ⟨ho, rfl⟩ | hlater
      · exact hbase v (ho ▸ hv)
      · exact hparts _ hlater v hv hvk
  rcases hshows with rfl | rfl
  · exact hfill
  · exact settled_elementTree hfill k

/-- **The split assignments are free of accesses to components exactly if the assignment is
hygienic.** -/
theorem Splitting.readDone_iff (h : Splitting types σ l target value base sw) :
    (∀ s ∈ sitesAll σ .statement .statement (splitTrees l.pos sw base value), ReadDone types s) ↔
      ∀ part ∈ openParts sw base value, ∀ u ∈ part.1.subtrees, u.entry.kind = .member →
        Settled types σ (Tree.fill part.2 u) := by
  obtain ⟨-, hbinert⟩ := h.base_regular_inert
  constructor
  · intro hall part hpart u hu huk
    obtain ⟨k, hk, hshows⟩ := exists_valueAt l.pos h.width_bounds.1 hpart
    obtain ⟨i, hi⟩ := splitTree_mem l.pos base value hk
    obtain ⟨hfirst, hlater⟩ := mem_openParts hpart
    have hoperand : ∀ o ∈ part.2, Inert o.2 := fun o ho =>
      (hlater o ho).elim (fun he => he ▸ hbinert) fun hm => h.inert_value.of_mem_subtrees hm
    obtain ⟨r, hr⟩ := shows_mem_sites hshows hoperand (h.regular_value.of_mem_subtrees hfirst)
      (h.inert_value.of_mem_subtrees hfirst) hu huk σ .inner
    have hsite := sites_splitTree (i := i) hbinert (.inr hr)
    exact settled_of_kept (h.split_inert_tidy k i).2 (settled_of_kind (fun h => by cases h))
      (fun s hs => ⟨hall s (h.mem_sitesAll hi hs), h.kept s (h.mem_sitesAll hi hs)⟩) _ hsite
  · intro hparts s hs
    have hinert : ∀ t ∈ splitTrees l.pos sw base value, Inert t := by
      intro t ht
      obtain ⟨k, i, -, rfl⟩ := mem_splitTrees ht
      exact (h.split_inert_tidy k i).1
    obtain ⟨t, ht, r, -, hs⟩ := mem_sitesAll_inert hinert hs
    obtain ⟨k, i, hk, rfl⟩ := mem_splitTrees ht
    obtain ⟨hinert, htidy⟩ := h.split_inert_tidy k i
    obtain ⟨part, hpart, hshows⟩ := valueAt_shows l.pos base value hk
    refine .inl (settled_sites htidy hinert ?_ ⟨fun _ _ => rfl, .inl rfl⟩ s hs)
    refine forall_mem_subtrees (settled_of_kind (fun h => by cases h)) fun t ht => ?_
    rcases mem_cons.1 ht with rfl | ht
    · exact settled_elementTree h.settled_base i
    · rw [mem_singleton.1 ht]
      exact settled_shows hshows h.settled_base hparts hpart

/-! ### Values without placeholders -/

/-- The placeholders that are still to be filled in when a part of a value is in its place. -/
def openNames : List String := ["$n1", "$a1", "$a2", "$a3"]

/-- No identifier of the tree has the name of a placeholder. -/
def Avoids (t : Tree) : Prop :=
  ∀ l ∈ t.preorder, l.kind = .ident → ∀ name ∈ openNames, l.name? ≠ some name

theorem Avoids.of_mem (h : Avoids (.node l ts)) (ht : t ∈ ts) : Avoids t :=
  fun x hx => h x (Rose.mem_preorder_of_mem ht hx)

theorem fill_eq_self
    (h : ∀ l ∈ t.preorder, l.kind = .ident → ∀ o ∈ operands, l.name? ≠ some o.1) :
    Tree.fill operands t = t := by
  induction operands with
  | nil => rfl
  | cons o operands ih =>
    have hsame : Tree.subst o.1 o.2 t = t := by
      unfold Tree.subst
      rw [Rose.expand_eq_map fun l hl => ?_, Rose.map_id]
      exact if_neg fun hname => h l hl hname.1 o (.head _) hname.2
    rw [fill_cons, hsame]
    exact ih fun l hl hk o' ho' => h l hl hk o' (.tail _ ho')

theorem operandsFrom_placeholder {args : List Tree} {o : String × Tree} (hk : 0 < k)
    (hargs : k + args.length ≤ 4) (ho : o ∈ operandsFrom base k args) : o.1 ∈ openNames := by
  induction args generalizing k with
  | nil =>
    rw [operandsFrom, mem_singleton] at ho
    rw [ho]
    exact .head _
  | cons arg args ih =>
    rw [operandsFrom, mem_cons] at ho
    rw [length_cons] at hargs
    rcases ho with rfl | ho
    · have hall : ∀ k < 4, 0 < k → argument k ∈ openNames := by decide
      exact hall k (by omega) hk
    · exact ih (Nat.succ_pos k) (by omega) ho

theorem openParts_placeholder (hwidth : sw.width ≤ 4) (h : part ∈ openParts sw base value) :
    ∀ o ∈ part.2, o.1 ∈ openNames := by
  intro o ho
  unfold openParts at h
  split at h
  · next args hargs =>
    obtain ⟨k, hk, rfl⟩ := mem_mapIdx.1 h
    have hlen := (mem_subtrees_of_constructed hargs).1
    refine operandsFrom_placeholder (Nat.succ_pos k) ?_ ho
    rw [length_drop]
    omega
  · rw [mem_singleton] at h
    subst h
    rw [mem_singleton.1 ho]
    exact .head _

/-- **No name in a part of the value is that of an operand that is put in after it.** -/
def Uncaptured (sw : Swizzle) (base value : Tree) : Prop :=
  ∀ part ∈ openParts sw base value, ∀ l ∈ part.1.preorder, l.kind = .ident →
    ∀ o ∈ part.2, l.name? ≠ some o.1

theorem uncaptured_of_avoids (base : Tree) (h : Avoids value) (hwidth : sw.width ≤ 4) :
    Uncaptured sw base value := by
  intro part hpart l hl hk o ho
  refine h l ?_ hk o.1 (openParts_placeholder hwidth hpart o ho)
  exact Rose.mem_preorder_of_mem_subtrees (mem_openParts hpart).1 hl

theorem valueAt_of_uncaptured (pos : Pos) (h : Uncaptured sw base value) (hk : k < sw.width) :
    valueAt pos sw base value k = match constructed? sw.width value with
      | some args => args.getD k value
      | none => elementTree pos value k := by
  unfold Uncaptured openParts at h
  unfold valueAt
  cases hargs : constructed? sw.width value with
  | none =>
    rw [hargs] at h
    exact congrArg (elementTree pos · k) (fill_eq_self (h _ (.head _)))
  | some args =>
    rw [hargs] at h
    have hlt : k < args.length := (mem_subtrees_of_constructed hargs).1 ▸ hk
    refine fill_eq_self (h (args.getD k value, _) (mem_mapIdx.2 ⟨k, hlt, ?_⟩))
    simp only [getD_eq_getElem?_getD, getElem?_eq_getElem hlt, Option.getD_some]

theorem sites_openParts (hreg : Regular value) (hinert : Inert value)
    (hpart : part ∈ openParts sw base value) (hs : s ∈ sites σ .inner part.1) :
    s ∈ sites σ .inner value := by
  unfold openParts at hpart
  split at hpart
  · next args hargs =>
    obtain ⟨k, hk, rfl⟩ := mem_mapIdx.1 hpart
    obtain ⟨lv, vs⟩ := value
    obtain ⟨hcall, -, callee, list, more, rfl, rfl, -⟩ := constructed?_eq_some hargs
    obtain ⟨lc, _, heq, hlist⟩ := hreg.root.called hcall
    cases heq
    obtain ⟨la, as⟩ := list
    change la.kind = .args at hlist
    have hopen := hreg.root.opens_eq (by rw [hcall]; decide) σ
    have hopenArgs := (hreg.of_mem (.tail _ (.head _))).root.opens_eq
      (by rw [hlist]; decide) σ
    have hsame := after_eq_self (hinert.of_mem (.head _)) σ
    obtain ⟨r, hr, hsub⟩ := sites_subset_sitesAll σ .inner .inner
      (fun t ht => (hinert.of_mem (.tail _ (.head _))).of_mem ht)
      (getElem_mem hk)
    rw [hr.elim id id] at hsub
    refine (mem_sites_node hopen).2 (.inr (mem_sitesAll_cons.2 (.inr ?_)))
    rw [hsame, hcall]
    refine mem_sitesAll_cons.2 (.inl ((mem_sites_node hopenArgs).2 (.inr ?_)))
    rw [hlist]
    exact hsub s hs
  · rw [mem_singleton] at hpart
    subst hpart
    exact hs

/-- **Values without the names of placeholders are hygienic.** -/
theorem Splitting.settled_of_avoids (h : Splitting types σ l target value base sw)
    (havoids : Avoids value) :
    ∀ part ∈ openParts sw base value, ∀ u ∈ part.1.subtrees, u.entry.kind = .member →
      Settled types σ (Tree.fill part.2 u) := by
  intro part hpart u hu _
  obtain ⟨hfirst, -⟩ := mem_openParts hpart
  have hfree := uncaptured_of_avoids base havoids h.width_bounds.2 part hpart
  have hfill : ∀ u ∈ part.1.subtrees, Tree.fill part.2 u = u := fun u hu =>
    fill_eq_self fun l hl => hfree l (Rose.mem_preorder_of_mem_subtrees hu hl)
  rw [hfill u hu]
  obtain ⟨k, hk, hshows⟩ := exists_valueAt l.pos h.width_bounds.1 hpart
  obtain ⟨i, hi⟩ := splitTree_mem l.pos base value hk
  have hplace : Place.below l.kind false = .inner := by rw [h.assign]; rfl
  refine settled_accesses (h.regular_value.of_mem_subtrees hfirst)
    (h.inert_value.of_mem_subtrees hfirst) (fun s hs => ⟨h.done s ?_, h.kept s ?_⟩) u hu
  · have hs := sites_openParts h.regular_value h.inert_value hpart hs
    refine (mem_sites_node h.opens_eq).2 (.inr (mem_sitesAll_cons.2 (.inr ?_)))
    rw [after_eq_self, hplace]
    · exact mem_sitesAll_cons.2 (.inl hs)
    · exact h.regular.root.inert (.inr h.assign) _ (.head _)
  · refine h.mem_sitesAll hi (sites_splitTree h.base_regular_inert.2 (.inr ?_))
    unfold Shows at hshows
    rw [hfill part.1 part.1.self_mem_subtrees] at hshows
    rcases hshows with hv | hv
    · rwa [hv]
    · rw [hv]
      have hopens : opens σ (elementTree l.pos part.1 k) = some (σ, false) := rfl
      exact (mem_sites_node hopens).2 (.inr (mem_sitesAll_cons.2 (.inl hs)))

end Splits

end VecLang.Swizzle
