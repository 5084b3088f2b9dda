import VecLang.Proofs.Swizzle.Formed

/-!
# The expressions of a lowered program

Every expression of a program that was read has the shape of one. Lowering keeps that, with
one exception: an expression may be put in the place of the name of a function or a member
if that name is taken for an operand. What results is still an expression with operands in
the place of names (`IsFilled`), and it has the shape of one as soon as names stand in the
places of names.

* `IsFilled.isExpression`: filled expressions with names in the places of names.
* `compile_expressions`: which expressions a compiled program has.
-/

namespace VecLang

open List

variable {target : Tree} {more : List Tree}

namespace Swizzle

open Grammar ScopeWalk Arena VecLang.Tree

variable {types : TypeTable} {σ τ : Names} {p q : Place} {l : Label} {pos : Pos} {name : String}
  {base value t u e : Tree} {ts us : List Tree} {sw : Swizzle} {i : Nat} {k : Kind}

/-! ### Filled expressions -/

/-- **Expressions with operands in the place of names**, also of names of functions and
members. -/
inductive IsFilled (types : TypeTable) : Tree → Prop
  | expression {t : Tree} : IsExpression types t → IsFilled types t
  | element {pos : Pos} {b : Tree} {i : Nat} : IsFilled types b → i < 4 →
      IsFilled types (elementTree pos b i)
  | assign {pos : Pos} {a b : Tree} : IsFilled types a → IsFilled types b →
      IsFilled types (.operated .assign pos .assign [a, b])
  | subst {name : String} {u t : Tree} : IsFilled types u → IsFilled types t →
      IsFilled types (Tree.subst name u t)

theorem IsFilled.formed (htypes : types.Closed) (h : IsFilled types t) :
    FormedExpression types t := by
  induction h with
  | expression h => exact ⟨h.formed htypes, h.isExpression⟩
  | element _ _ ih => exact formed_elementTree _ ih _
  | assign _ _ iha ihb =>
    refine ⟨.node ⟨?_, rfl⟩ (forall_mem_cons.2 ⟨iha.1, forall_mem_singleton.2 ihb.1⟩), rfl⟩
    simp [Kind.admits, iha.2, ihb.2]
  | subst _ _ ihu iht => exact ⟨formed_subst ihu iht.1, (like_subst ihu.2 _).isExpression iht.2⟩

/-- The expressions of a tree with an operand in the place of a name: those of the operand, and
those of the tree with the operand in the place of the name. -/
theorem hasExpression_subst (h : HasExpression (Tree.subst name u t) e) :
    HasExpression u e ∨ ∃ e', HasExpression t e' ∧ e = Tree.subst name u e' := by
  induction t using Rose.induction with
  | node l ts ih =>
    by_cases hl : l.kind = .ident ∧ l.name? = some name
    · rw [Tree.subst_node, if_pos hl] at h
      exact .inl h
    · have heq := Tree.subst_node name u l ts
      rw [if_neg hl] at heq
      rw [heq] at h
      cases h with
      | here hk => exact .inr ⟨.node l ts, .here hk, heq.symm⟩
      | @child _ _ i w _ hi hname h =>
        rw [getElem?_map] at hi
        obtain ⟨t, ht, rfl⟩ := Option.map_eq_some_iff.1 hi
        by_cases hplace : l.kind.isNamePlace i = true ∧ Tree.kind t = .ident
        · -- a name in the place of a name is replaced by the operand, or it stays a name
          obtain ⟨lt, us⟩ := t
          by_cases hlt : lt.kind = .ident ∧ lt.name? = some name
          · rw [Tree.subst_node, if_pos hlt] at h
            exact .inl h
          · refine absurd ⟨hplace.1, ?_⟩ hname
            rw [Tree.subst_node, if_neg hlt]
            exact hplace.2
        · rcases ih t (mem_of_getElem? ht) h with h | ⟨e', he', rfl⟩
          · exact .inl h
          · exact .inr ⟨e', .child ht hplace he', rfl⟩

/-- **The expressions of a filled expression are filled.** -/
theorem IsFilled.hasExpression (ht : IsFilled types t) : ∀ {e : Tree}, HasExpression t e →
    IsFilled types e := by
  induction ht with
  | expression ht => exact fun h => .expression (IsPart.isExpression h (.expression ht))
  | element hb hi ih =>
    intro e h
    cases h with
    | here => exact .element hb hi
    | child hplace _ h =>
      rcases getElem?_pair hplace with ⟨-, rfl⟩ | ⟨-, rfl⟩
      · exact ih h
      · exact .expression (IsPart.isExpression h (.expression (isExpression_int hi)))
  | assign ha hb iha ihb =>
    intro e h
    cases h with
    | here => exact .assign ha hb
    | child hplace _ h =>
      rcases getElem?_pair hplace with ⟨-, rfl⟩ | ⟨-, rfl⟩
      · exact iha h
      · exact ihb h
  | subst hu _ ihu iht =>
    intro e h
    rcases hasExpression_subst h with h | ⟨e', he', rfl⟩
    · exact ihu h
    · exact .subst hu (iht he')

/-! ### Names in the places of names -/

theorem subst_plain (hk : k ≠ .ident) (ts : List Tree) :
    Tree.subst name u (.plain k pos ts) = .plain k pos (ts.map (Tree.subst name u)) := by
  unfold Tree.plain
  rw [Tree.subst_node, if_neg fun h => hk h.1]

theorem subst_operated (hk : k ≠ .ident) (op : Operator) (ts : List Tree) :
    Tree.subst name u (.operated k pos op ts) = .operated k pos op (ts.map (Tree.subst name u)) := by
  unfold Tree.operated
  rw [Tree.subst_node, if_neg fun h => hk h.1]

theorem subst_valued (hk : k ≠ .ident) (v : Value) :
    Tree.subst name u (.valued k pos v []) = .valued k pos v [] := by
  unfold Tree.valued
  rw [Tree.subst_node, if_neg fun h => hk h.1, map_nil]

/-- If names stand in the places of names with an operand put in, then they did before. -/
theorem wellNamed_of_subst (hf : Formed types t) (h : WellNamed (Tree.subst name u t)) :
    WellNamed t := by
  induction t using Rose.induction with
  | node l ts ih =>
    by_cases hl : l.kind = .ident ∧ l.name? = some name
    · exact hf.wellNamed_of_ident hl.1
    · rw [Tree.subst_node, if_neg hl] at h
      obtain ⟨hroot, hbelow⟩ := wellNamed_node.1 h
      refine wellNamed_node.2 ⟨fun i w hi hplace => ?_, fun w hw =>
        ih w hw (hf.of_mem hw) (hbelow _ (mem_map_of_mem hw))⟩
      obtain ⟨lw, ws⟩ := w
      have hstand := hroot i _ (by rw [getElem?_map, hi]; rfl) hplace
      by_cases hlw : lw.kind = .ident ∧ lw.name? = some name
      · exact .inl hlw.1
      · rw [Tree.subst_node, if_neg hlw] at hstand
        exact hstand

/-- A name with an operand put in is still a name where it must be one. -/
theorem isName_subst (pos : Pos) {n : String} (hu : WellNamed u → IsExpression types u) (hn : IsName n)
    (h : WellNamed (Tree.subst name u (nameTree pos n)))
    (hstand : (Tree.subst name u (nameTree pos n)).kind = .ident ∨
      (Tree.subst name u (nameTree pos n)).kind = .varType) :
    ∃ npos n', IsName n' ∧ Tree.subst name u (nameTree pos n) = nameTree npos n' ∧
      (types.get? n = none → types.get? n' = none) := by
  rw [subst_nameTree] at h hstand ⊢
  split at h
  · next heq =>
    rw [if_pos heq] at hstand ⊢
    have hshape := hu h
    have hkind : u.kind = .ident := by
      refine hstand.resolve_right fun htype => ?_
      have hexpr := hshape.isExpression
      rw [htype] at hexpr
      cases hexpr
    obtain ⟨npos, n', rfl, hn', hget⟩ := hshape.of_ident hkind
    exact ⟨npos, n', hn', rfl, fun _ => hget⟩
  · next hne =>
    rw [if_neg hne]
    exact ⟨pos, n, hn, rfl, id⟩

/-- **An expression with an operand put in is one**, if names stand in the places of names. -/
theorem isExpression_subst (hu : WellNamed u → IsExpression types u) (ht : IsExpression types t) :
    WellNamed (Tree.subst name u t) → IsExpression types (Tree.subst name u t) := by
  have hargs : ∀ {apos : Pos} {args : List Tree},
      (∀ t ∈ args, WellNamed (Tree.subst name u t) → IsExpression types (Tree.subst name u t)) →
      WellNamed (.plain .args apos (args.map (Tree.subst name u))) →
      ∀ t ∈ args.map (Tree.subst name u), IsExpression types t := by
    intro apos args ih h t ht
    obtain ⟨w, hw, rfl⟩ := mem_map.1 ht
    exact ih w hw ((wellNamed_node.1 h).2 _ (mem_map_of_mem hw))
  induction ht with
  | int hn => rw [subst_valued (by decide)]; exact fun _ => .int hn
  | float => rw [subst_valued (by decide)]; exact fun _ => .float
  | bool => rw [subst_valued (by decide)]; exact fun _ => .bool
  | @name pos n hn hty =>
    intro h
    change WellNamed (Tree.subst name u (nameTree pos n)) at h
    change IsExpression types (Tree.subst name u (nameTree pos n))
    rw [subst_nameTree] at h ⊢
    split at h
    · next heq => rw [if_pos heq]; exact hu h
    · next hne => rw [if_neg hne]; exact .name hn hty
  | construct hn hty _ ih =>
    rw [subst_plain (by decide), map_cons, map_cons, map_nil,
      subst_valued (by decide), subst_plain (by decide)]
    intro h
    exact .construct hn hty (hargs ih ((wellNamed_node.1 h).2 _
      (.tail _ (.head _))))
  -- what is called and a member stay names only if the operand put there is one
  | @call pos fpos apos n args hn hty _ ih =>
    rw [subst_plain (by decide), map_cons, map_cons, map_nil,
      subst_plain (by decide)]
    intro h
    obtain ⟨hroot, hbelow⟩ := wellNamed_node.1 h
    obtain ⟨npos, n', hn', heq, hget⟩ :=
      isName_subst fpos hu hn (hbelow _ (.head _)) (hroot 0 _ rfl rfl)
    change IsExpression types (.plain .call pos [Tree.subst name u (nameTree fpos n), _])
    rw [heq]
    exact .call hn' (hget hty) (hargs ih (hbelow _ (.tail _ (.head _))))
  | @member pos mpos b m _ hm ih =>
    rw [subst_plain (by decide), map_cons, map_cons, map_nil]
    intro h
    obtain ⟨hroot, hbelow⟩ := wellNamed_node.1 h
    obtain ⟨npos, n', hn', heq, -⟩ :=
      isName_subst mpos hu hm (hbelow _ (by simp [nameTree])) (hroot 1 _ rfl rfl)
    change IsExpression types (.plain .member pos [_, Tree.subst name u (nameTree mpos m)])
    rw [heq]
    exact .member (ih (hbelow _ (.head _))) hn'
  | index _ _ iha ihb =>
    rw [subst_plain (by decide), map_cons, map_cons, map_nil]
    intro h
    have hbelow := (wellNamed_node.1 h).2
    exact .index (iha (hbelow _ (by simp))) (ihb (hbelow _ (by simp)))
  | unary hop _ ih =>
    rw [subst_operated (by decide), map_cons, map_nil]
    intro h
    exact .unary hop (ih ((wellNamed_node.1 h).2 _ (by simp)))
  | binary hop _ _ iha ihb =>
    rw [subst_operated (by decide), map_cons, map_cons, map_nil]
    intro h
    have hbelow := (wellNamed_node.1 h).2
    exact .binary hop (iha (hbelow _ (by simp))) (ihb (hbelow _ (by simp)))
  | ternary _ _ _ iha ihb ihc =>
    rw [subst_plain (by decide), map_cons, map_cons, map_cons, map_nil]
    intro h
    have hbelow := (wellNamed_node.1 h).2
    exact .ternary (iha (hbelow _ (by simp))) (ihb (hbelow _ (by simp))) (ihc (hbelow _ (by simp)))
  | assign _ _ iha ihb =>
    rw [subst_operated (by decide), map_cons, map_cons, map_nil]
    intro h
    have hbelow := (wellNamed_node.1 h).2
    exact .assign (iha (hbelow _ (by simp))) (ihb (hbelow _ (by simp)))

/-- **A filled expression has the shape of an expression** if names stand in the places of names. -/
theorem IsFilled.isExpression (htypes : types.Closed) (h : IsFilled types t) :
    WellNamed t → IsExpression types t := by
  induction h with
  | expression h => exact fun _ => h
  | element _ hi ih =>
    intro hn
    exact isExpression_elementTree (ih ((wellNamed_node.1 hn).2 _ (.head _))) hi
  | assign _ _ iha ihb =>
    intro hn
    have hbelow := (wellNamed_node.1 hn).2
    exact .assign (iha (hbelow _ (by simp))) (ihb (hbelow _ (by simp)))
  | subst _ ht ihu iht =>
    intro hn
    exact isExpression_subst ihu (iht (wellNamed_of_subst (ht.formed htypes).1 hn)) hn

/-! ### Lowered writes -/

theorem hasExpression_assign (hf : Formed types (.node l (target :: value :: more)))
    (hl : l.kind = .assign) (hsw : swizzleTarget? target = some (base, sw)) :
    HasExpression (.node l (target :: value :: more)) base ∧
      HasExpression (.node l (target :: value :: more)) value := by
  obtain ⟨lt, ms, rfl, hk, -⟩ := swizzleTarget?_eq_some hsw
  have hplace : ∀ i, l.kind.isNamePlace i = false := by
    intro i
    rw [hl]
    rfl
  have hnot : ∀ {i : Nat} {u : Tree}, ¬ (l.kind.isNamePlace i = true ∧ u.kind = .ident) := by
    intro i u h
    rw [hplace] at h
    cases h.1
  have htarget := hf.of_mem (.head _)
  have hbase := htarget.expression_of_mem (by simp [hk]) (.head _)
  have hvalue := hf.expression_of_mem (by simp [hl]) (.tail _ (.head _))
  refine ⟨.child (i := 0) rfl hnot (.child (i := 0) rfl (fun h => ?_) (.here hbase.2)),
    .child (i := 1) rfl hnot (.here hvalue.2)⟩
  rw [hk] at h
  cases h.1

theorem hasExpression_constructed {n : Nat} {args : List Tree} (hf : Formed types value)
    (hargs : constructed? n value = some args) : ∀ arg ∈ args, HasExpression value arg := by
  intro arg harg
  have hkind := (formed_constructed hf hargs arg harg).2
  obtain ⟨l, ts⟩ := value
  obtain ⟨hk, -, callee, ⟨la, as⟩, more, rfl, rfl, -⟩ := constructed?_eq_some hargs
  have hlist : la.kind = .args := by
    have hadmits := hf.root.admits
    rw [hk] at hadmits
    simp only [Kind.admits, map_cons, tail_cons, Bool.and_eq_true, beq_iff_eq,
      cons.injEq] at hadmits
    exact hadmits.1.1
  refine .child (i := 1) rfl (fun h => ?_) ((hasExpression_node (by rw [hlist]; rfl)).2
    ⟨arg, harg, .here hkind⟩)
  rw [hk] at h
  cases h.1

theorem filled_valueAt (htypes : types.Closed) (pos : Pos) (hbase : IsFilled types base)
    (hvalue : IsFilled types value) {k : Nat} (hk : k < sw.width) (hwidth : sw.width ≤ 4) :
    IsFilled types (valueAt pos sw base value k) := by
  refine valueAt_keeps .subst (fun ht => .element ht (Nat.lt_of_lt_of_le hk hwidth))
    (fun hargs arg harg => ?_) hbase hvalue
  exact hvalue.hasExpression (hasExpression_constructed (hvalue.formed htypes).1 hargs arg harg)

/-- **What a walk of the writes keeps of the expressions**: a property that holds of expressions
alone, and that splitting an assignment keeps. -/
theorem Walks.hasExpression {P : Tree → Prop} (hinert : ∀ t, P t → Inert t)
    (hsplit : ∀ {l target value more base sw}, P (.node l (target :: value :: more)) →
      l.kind = .assign → swizzleTarget? target = some (base, sw) →
      ∀ t ∈ splitTrees l.pos sw base value, ∀ e, HasExpression t e → P e)
    (h : Walks (writeRule types) σ p q ts us τ) : (∀ t ∈ ts, ∀ e, HasExpression t e → P e) →
    ∀ u ∈ us, ∀ e, HasExpression u e → P e := by
  induction h with
  | nil => exact fun _ _ hu => by cases hu
  | @keep σ σ₁ σ₂ τ p q l ts us rest rest' opened _ _ hb _ ihb ihn =>
    intro hts
    have hnode := hts _ (.head _)
    refine forall_mem_cons.2 ⟨fun e he => ?_, ihn fun t ht => hts t (.tail _ ht)⟩
    by_cases hk : l.kind.isExpression = true
    · -- nothing below an expression is a statement
      have hbelow : ∀ first, Place.below l.kind first ≠ .statement := by
        intro first hplace
        rw [below_eq_statement.1 hplace] at hk
        cases hk
      have hall := hinert _ (hnode _ (.here hk))
      obtain ⟨rfl, -⟩ := hb.inert (fun _ _ _ _ hr => (writeRule_replace hr).1)
        (fun t ht => hall.of_mem ht) (hbelow true) (hbelow false)
      exact hnode e he
    · have hk' : l.kind.isExpression = false := Bool.eq_false_iff.2 hk
      obtain ⟨u, hu, he⟩ := (hasExpression_node hk').1 he
      exact ihb (fun t ht e he => hnode e ((hasExpression_node hk').2 ⟨t, ht, he⟩)) u hu e he
  | @replace σ σ₁ σ₂ τ p q t ts us rest rest' opened _ hr _ _ ihb ihn =>
    intro hts
    obtain ⟨rfl, l, target, value, more, base, sw, rfl, hl, hsw, -, rfl⟩ := writeRule_replace hr
    have hself := hts _ (.head _) _ (.here (by rw [Tree.kind_node, hl]; rfl))
    exact forall_mem_append.2 ⟨ihb (hsplit hself hl hsw),
      ihn fun t ht => hts t (.tail _ ht)⟩

theorem swizzleTarget?_bounds (h : swizzleTarget? target = some (base, sw)) :
    sw.width ≤ 4 ∧ ∀ i ∈ sw.indices, i < 4 := by
  obtain ⟨-, -, -, -, m, -, hm⟩ := swizzleTarget?_eq_some h
  exact (ofMember?_bounds hm).2

/-- **Splitting a filled assignment leaves filled ones.** -/
theorem filled_splitTrees (htypes : types.Closed)
    (h : IsFilled types (.node l (target :: value :: more))) (hl : l.kind = .assign)
    (hsw : swizzleTarget? target = some (base, sw)) :
    ∀ t ∈ splitTrees pos sw base value, IsFilled types t := by
  obtain ⟨hbase, hvalue⟩ := hasExpression_assign (h.formed htypes).1 hl hsw
  obtain ⟨hwidth, hindices⟩ := swizzleTarget?_bounds hsw
  intro t ht
  obtain ⟨k, hk, rfl⟩ := mem_mapIdx.1 ht
  exact .assign (.element (h.hasExpression hbase) (hindices _ (getElem_mem hk)))
    (filled_valueAt htypes pos (h.hasExpression hbase) (h.hasExpression hvalue) hk hwidth)

/-- **Splitting an assignment without names of placeholders** leaves expressions of the same
kind. -/
theorem isExpression_splitTrees (htypes : types.Closed)
    (h : IsExpression types (.node l (target :: value :: more)))
    (havoids : Avoids (.node l (target :: value :: more))) (hl : l.kind = .assign)
    (hsw : swizzleTarget? target = some (base, sw)) :
    ∀ t ∈ splitTrees pos sw base value, IsExpression types t ∧ Avoids t := by
  obtain ⟨hbase, hvalue⟩ := hasExpression_assign (h.formed htypes) hl hsw
  obtain ⟨hwidth, hindices⟩ := swizzleTarget?_bounds hsw
  have havoids' : ∀ {e : Tree}, HasExpression (.node l (target :: value :: more)) e → Avoids e :=
    fun he x hx => havoids x (Rose.mem_preorder_of_mem_subtrees he.mem_subtrees hx)
  have hbase' := IsPart.isExpression hbase (.expression h)
  have hvalue' := IsPart.isExpression hvalue (.expression h)
  have helement : ∀ {b : Tree} {i : Nat}, Avoids b → Avoids (elementTree pos b i) := by
    intro b i hb x hx hk
    rcases mem_preorder_elementTree hx with hx | ⟨hx, -⟩
    · exact hb x hx hk
    · rw [hk] at hx
      exact absurd hx (by decide)
  have hassigned : ∀ k < sw.width, IsExpression types (valueAt pos sw base value k) ∧
      Avoids (valueAt pos sw base value k) := by
    intro k hk
    rw [valueAt_of_uncaptured pos (uncaptured_of_avoids base (havoids' hvalue) hwidth) hk]
    cases hargs : constructed? sw.width value with
    | none =>
      exact ⟨isExpression_elementTree hvalue' (Nat.lt_of_lt_of_le hk hwidth),
        helement (havoids' hvalue)⟩
    | some args =>
      have hlt : k < args.length := (mem_subtrees_of_constructed hargs).1 ▸ hk
      have harg : args.getD k value ∈ args := by
        rw [getD_eq_getElem?_getD, getElem?_eq_getElem hlt]
        exact getElem_mem hlt
      have hin := hasExpression_constructed (hvalue'.formed htypes) hargs _ harg
      refine ⟨IsPart.isExpression hin (.expression hvalue'), fun x hx => ?_⟩
      exact havoids' hvalue x (Rose.mem_preorder_of_mem_subtrees hin.mem_subtrees hx)
  intro t ht
  obtain ⟨k, hk, rfl⟩ := mem_mapIdx.1 ht
  obtain ⟨hshape, hfree⟩ := hassigned k hk
  refine ⟨.assign (isExpression_elementTree hbase' (hindices _ (getElem_mem hk))) hshape, ?_⟩
  refine Rose.forall_preorder_node (fun hk => by cases hk) (forall_mem_cons.2
    ⟨helement (havoids' hbase), forall_mem_singleton.2 hfree⟩)

/-- **The expressions of a lowered program** are filled, and they have the shape of expressions if
no identifier of the source has the name of a placeholder. -/
theorem LoweredFrom.hasExpression {p₀ p : Program} {root : Nat} (hp : Parsed p₀ root)
    (h : LoweredFrom p₀ root p) (he : HasExpression (p.arena.tree root) e) :
    IsFilled Builtin.types e ∧
      (Avoids (p₀.arena.tree root) → IsExpression Builtin.types e) := by
  obtain ⟨τ, hwalks⟩ := h.walks
  rw [hp.types] at hwalks
  -- the reads are lowered first
  have hread : ∀ e, HasExpression (lowerReads Builtin.types p₀.context.resetScopes.names .top
      (p₀.arena.tree root)) e → IsExpression Builtin.types e :=
    fun e he => hasExpression_lowerReads templates_builtin (fun _ h => hp.shape.hasExpression h) he
  constructor
  · refine Walks.hasExpression (P := IsFilled Builtin.types)
      (fun t ht => (ht.formed closed_builtin).inert)
      (fun hassign hl hsw t ht e he => ?_) hwalks
      (forall_mem_singleton.2 fun e he => .expression (hread e he)) _ (.head _) e he
    exact (filled_splitTrees closed_builtin hassign hl hsw t ht).hasExpression he
  · intro havoids
    have hwalked := Walks.hasExpression
      (P := fun t => IsExpression Builtin.types t ∧ Avoids t)
      (fun t ht => (IsFilled.expression ht.1).formed closed_builtin |>.inert)
      (fun hassign hl hsw t ht e he => ?_) hwalks
      (forall_mem_singleton.2 fun e he => ⟨hread e he, fun x hx =>
        avoids_lowerReads havoids x (Rose.mem_preorder_of_mem_subtrees he.mem_subtrees hx)⟩)
      _ (.head _) e he
    · exact hwalked.1
    · obtain ⟨hshape, hfree⟩ :=
        isExpression_splitTrees closed_builtin hassign.1 hassign.2 hl hsw t ht
      exact ⟨IsPart.isExpression he (.expression hshape), fun x hx =>
        hfree x (Rose.mem_preorder_of_mem_subtrees he.mem_subtrees hx)⟩

end Swizzle

open Grammar VecLang.Tree Swizzle in
/-- **The expressions of a compiled program** are filled, and they have the shape of expressions
if nothing was lowered or no identifier of the source has the name of a placeholder. -/
theorem compile_expressions {source filename : String} {lowerSwizzles : Bool} {p : Program}
    (h : compile source { filename, lowerSwizzles, passes := [] } = .ok p) :
    ∃ p₀ root, parseProgram source filename = .ok p₀ ∧ p₀.arena.root? = some root ∧
      p.arena.root? = some root ∧ p.context.types = Builtin.types ∧
      ∀ e, HasExpression (p.arena.tree root) e → IsFilled Builtin.types e ∧
        ((lowerSwizzles = true → Avoids (p₀.arena.tree root)) → IsExpression Builtin.types e) := by
  obtain ⟨p₀, root, hparse, hp, ⟨-, rfl⟩ | ⟨rfl, hl⟩⟩ := compile_cases h
  · refine ⟨p, root, hparse, hp.root?, hp.root?, hp.types, fun e he => ?_⟩
    have hshape := hp.shape.hasExpression he
    exact ⟨.expression hshape, fun _ => hshape⟩
  · refine ⟨p₀, root, hparse, hp.root?, hl.root?, ?_, fun e he => ?_⟩
    · rw [hl.context]
      exact hp.types
    · obtain ⟨hfilled, hshape⟩ := hl.hasExpression hp he
      exact ⟨hfilled, fun havoids => hshape (havoids rfl)⟩

end VecLang
