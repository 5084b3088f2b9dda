import VecLang.Proofs.Emit.Visible
import VecLang.Proofs.Swizzle.Functions

/-!
# The outline of a compiled program

Below the root of a compiled program stand declarations and functions. A function has a type,
parameters and a block, and neither functions nor parameters stand anywhere else. All this
outlasts the lowering of swizzles.

* `Outlined`, `compile_outlined`: **the outline of every compiled program.**
* `Interior`: a part of an item of a program.
* `Outlined.parts`: the parts of a function.
-/

namespace VecLang

open Grammar Swizzle ScopeWalk List

theorem Grammar.IsProgram.noFunctionBelow {types : TypeTable} {t : Tree} (htypes : types.Closed)
    (h : IsProgram types t) : NoFunctionBelow 2 t := by
  obtain ⟨pos, ts, rfl, hitems⟩ := h
  intro u hu
  obtain ⟨l, us⟩ := u
  exact (hitems _ hu).functionless htypes

/-- **The outline of a compiled program.** -/
structure Outlined (p : Program) (root : NodeId) : Prop where
  root? : p.arena.root? = some root
  wellFormed : p.arena.WellFormed
  lt_size : root < p.arena.size
  top : p.arena.parent? root = none
  block : p.arena.kind root = .block
  items : ∀ f ∈ p.arena.children root, p.arena.kind f = .varDecl ∨ p.arena.kind f = .function
  formed : Formed p.context.types (p.arena.tree root)
  functions : NoFunctionBelow 2 (p.arena.tree root)
  filed : Collect.Filed p.arena (p.arena.children root) p.context.slots

/-- **Every compiled program has such an outline**, with the lowering of swizzles and without. -/
theorem compile_outlined {source filename : String} {lowerSwizzles : Bool} {p : Program}
    (h : compile source { filename, lowerSwizzles, passes := [] } = .ok p) :
    ∃ root, Outlined p root := by
  obtain ⟨p₀, root, hparse, hp, hsame, hslots, -⟩ := compile_sameTop h
  obtain ⟨root', hroot', hfiled₀⟩ := parseProgram_filed hparse
  cases hp.root?.symm.trans hroot'
  have hfiled : Collect.Filed p.arena (p.arena.children root) p.context.slots := by
    rw [hslots]
    exact hfiled₀.sameTop hsame
  have hitems : ∀ f ∈ p.arena.children root,
      p.arena.kind f = .varDecl ∨ p.arena.kind f = .function := by
    intro f hf
    rw [hsame.children] at hf
    obtain ⟨ss, hs⟩ := Arena.exists_shape_of_child hp.wellFormed hp.lt_size hf
    unfold Arena.kind
    rw [hsame.label _ (mem_topNodes.2 (.inr (.inl hf)))]
    have hkind := (item_of_parsed hp hs).2.kind
    rwa [Tree.kind_map] at hkind
  have hblock : p.arena.kind root = .block := by
    obtain ⟨pos, ts, htree, -⟩ := hp.shape
    have hentry := congrArg Rose.entry htree
    rw [Arena.entry_tree] at hentry
    unfold Arena.kind
    rw [hsame.label root (.head _), hentry]
    rfl
  have hfunctions := hp.shape.noFunctionBelow closed_builtin
  have hroot? := hsame.root?.trans hp.root?
  obtain ⟨p₁, root₁, hparse₁, hp₁, hcases⟩ := compile_cases h
  cases hparse.symm.trans hparse₁
  cases hp.root?.symm.trans hp₁.root?
  rcases hcases with ⟨-, rfl⟩ | ⟨-, hl⟩
  · exact ⟨root, hroot?, hp.wellFormed, hp.lt_size, hp.top, hblock, hitems,
      hp.types ▸ hp.shape.formed closed_builtin, hfunctions, hfiled⟩
  · have htypes : p.context.types = Builtin.types := by
      rw [hl.context]
      exact hp.types
    exact ⟨root, hroot?, hl.wellFormed, hl.lt_size, hl.top, hblock, hitems,
      htypes ▸ hl.formed hp, hl.noFunctionBelow hp hfunctions, hfiled⟩

theorem exists_declaredType {a : Arena} {types : TypeTable} {s : Rose NodeId} (hs : a.Spans s)
    (h : Formed types (s.map a.label)) : ∀ d ∈ s.preorder, a.kind d = .varDecl →
      ∃ t, Collect.declaredType? a d = some t ∧ (types.resolve t).isOk = true := by
  induction s using Rose.induction with
  | node id ss ih =>
    have hfirst := firstType_eq hs
    rw [Rose.map_node] at h
    refine Rose.forall_preorder_node (fun hk => ?_) fun c hc =>
      ih c hc (hs.of_mem hc) (h.of_mem (mem_map_of_mem hc))
    obtain ⟨t, htype, hknown⟩ := h.exists_type (.inl hk)
    exact ⟨t, hfirst.trans htype, hknown⟩

section Items

open Arena Emit.JavaScript

/-- **A part of the item `f`** of a program, without functions and parameters. -/
structure Interior (types : TypeTable) (arena : Arena) (f : NodeId) (s : Rose NodeId) : Prop where
  spans : arena.Spans s
  formed : Formed types (s.map arena.label)
  kinds : ∀ x ∈ s.preorder, arena.kind x ≠ .function ∧ arena.kind x ≠ .params
  under : ∀ x ∈ s.preorder, arena.Under x f ∧ x ≠ f

variable {types : TypeTable} {arena : Arena} {f id : NodeId} {s c : Rose NodeId}
  {ss : List (Rose NodeId)}

theorem Interior.of_mem (h : Interior types arena f (.node id ss)) (hs : s ∈ ss) :
    Interior types arena f s := by
  have hformed := h.formed
  rw [Rose.map_node] at hformed
  exact ⟨h.spans.of_mem hs, hformed.of_mem (mem_map_of_mem hs),
    fun x hx => h.kinds x (Rose.mem_preorder_of_mem hs hx),
    fun x hx => h.under x (Rose.mem_preorder_of_mem hs hx)⟩

theorem Interior.no_params (h : Interior types arena f s) :
    ∀ x ∈ s.preorder, arena.kind x ≠ .params := fun x hx => (h.kinds x hx).2

theorem Interior.formedNode (h : Interior types arena f (.node id ss)) :
    FormedNode types (arena.label id) (ss.map (Rose.map arena.label)) := by
  have hformed := h.formed
  rw [Rose.map_node] at hformed
  exact hformed.root

theorem Interior.inert (h : Interior types arena f s) (hk : (arena.kind s.entry).isInner = true) :
    ∀ x ∈ s.preorder, arena.kind x ≠ .varDecl :=
  (h.formed.inert_map hk).kind_ne

theorem Interior.no_varRef (h : Interior types arena f s) : ∀ x ∈ s.preorder, arena.kind x ≠ .varRef := by
  induction s using Rose.induction with
  | node id ss ih =>
    refine Rose.forall_preorder_node (fun hk => ?_) fun c hc => ih c hc (h.of_mem hc)
    have hadmits := h.formedNode.admits
    rw [show (arena.label id).kind = .varRef from hk] at hadmits
    cases hadmits

theorem Interior.declaration (h : Interior types arena f (.node id ss)) (hk : arena.kind id = .varDecl) :
    ∃ t, arena.kind t.entry = .varType ∧
      (ss = [t] ∨ ∃ init, ss = [t, init] ∧ (arena.kind init.entry).isExpression = true) := by
  have hadmits := kinds_admitted h.formed
  rw [hk] at hadmits
  rcases ss with _ | ⟨t, _ | ⟨init, _ | ⟨more, rest⟩⟩⟩
  · cases hadmits
  · exact ⟨t, by simpa [Kind.admits] using hadmits, .inl rfl⟩
  · have hboth : arena.kind t.entry = .varType ∧ (arena.kind init.entry).isExpression = true := by
      simpa [Kind.admits] using hadmits
    exact ⟨t, hboth.1, .inr ⟨init, rfl, hboth.2⟩⟩
  · simp [Kind.admits] at hadmits

theorem Interior.ret (h : Interior types arena f (.node id ss)) (hk : arena.kind id = .ret) :
    ss = [] ∨ ∃ value, ss = [value] ∧ (arena.kind value.entry).isExpression = true := by
  have hadmits := kinds_admitted h.formed
  rw [hk] at hadmits
  rcases ss with _ | ⟨value, _ | ⟨more, rest⟩⟩
  · exact .inl rfl
  · exact .inr ⟨value, rfl, by simpa [Kind.admits] using hadmits⟩
  · simp [Kind.admits] at hadmits

theorem Kind.eq_function_of_admits {k : Kind} {ks : List Kind} (h : k.admits ks = true)
    (hparams : Kind.params ∈ ks) : k = .function := by
  have hall : ∀ {P : Kind → Bool}, P .params = false → ks.all P ≠ true := by
    intro P hP hks
    rw [all_eq_true.1 hks _ hparams] at hP
    cases hP
  cases k with
  | function => rfl
  | block | params => exact absurd h (hall rfl)
  | varRef => cases h
  | ret => exact absurd (Bool.and_eq_true_iff.1 h).2 (hall rfl)
  | varDecl =>
    obtain ⟨hfirst, htail⟩ := Bool.and_eq_true_iff.1 h
    obtain ⟨hhead, -⟩ := Bool.and_eq_true_iff.1 hfirst
    cases ks with
    | nil => cases hparams
    | cons k ks =>
      rcases mem_cons.1 hparams with rfl | hmem
      · cases hhead
      · cases all_eq_true.1 htail _ hmem
  | conditional =>
    obtain ⟨hfirst, hrest⟩ := Bool.and_eq_true_iff.1 h
    obtain ⟨hfirst, -⟩ := Bool.and_eq_true_iff.1 hfirst
    obtain ⟨hcond, hyes⟩ := Bool.and_eq_true_iff.1 hfirst
    rcases ks with _ | ⟨k, _ | ⟨k', ks⟩⟩
    · cases hparams
    · cases hyes
    · obtain rfl : k' = .block := by simpa using hyes
      rcases mem_cons.1 hparams with rfl | hmem
      · cases hcond
      rcases mem_cons.1 hmem with he | hmem
      · cases he
      · cases all_eq_true.1 hrest _ hmem
  | _ => cases isInner_of_admits rfl h _ hparams

theorem Formed.no_params {t : Tree} (hf : Formed types t)
    (h : ∀ l ∈ t.preorder, l.kind ≠ .function) (hk : t.kind ≠ .params) :
    ∀ l ∈ t.preorder, l.kind ≠ .params := by
  induction t using Rose.induction with
  | node l ts ih =>
    refine Rose.forall_preorder_node hk fun u hu => ?_
    refine ih u hu (hf.of_mem hu) (fun x hx => h x (Rose.mem_preorder_of_mem hu hx)) fun he => ?_
    exact h l (by simp) (Kind.eq_function_of_admits hf.root.admits (he ▸ mem_map_of_mem hu))

theorem Emit.JavaScript.isTopLevel_of_child {root : NodeId} (hw : arena.WellFormed)
    (htop : arena.parent? root = none) (hroot : arena.kind root ≠ .function) {x : Nat}
    (hx : arena.parent? x = some root) (hk : arena.kind x ≠ .function) (hlt : x < arena.size) : isTopLevel arena x = true := by
  unfold isTopLevel enclosing?
  rw [Option.isNone_iff_eq_none, find?_eq_none]
  intro y hy
  rw [beq_iff_eq]
  cases (mem_lineage hw hlt).1 (mem_of_mem_tail hy) with
  | refl => exact hk
  | child hp hu =>
    rw [hx] at hp
    cases hp
    cases hu with
    | refl => exact hroot
    | child hp _ =>
      rw [htop] at hp
      cases hp

variable {p : Program} {root : NodeId} (h : Outlined p root)

include h

theorem Outlined.spans_root : p.arena.Spans (.node root (p.arena.shape root).children) :=
  spans_children h.wellFormed h.lt_size

theorem Outlined.tree_eq : p.arena.tree root = (Rose.node root (p.arena.shape root).children).map
    p.arena.label := by
  rw [← h.spans_root.tree_eq h.wellFormed]
  rfl

/-- **An item** of the program. -/
theorem Outlined.item (hs : s ∈ (p.arena.shape root).children) :
    p.arena.Spans s ∧ Formed p.context.types (s.map p.arena.label) ∧
      s.entry ∈ p.arena.children root := by
  have hformed := h.formed
  rw [h.tree_eq, Rose.map_node] at hformed
  refine ⟨h.spans_root.of_mem hs, hformed.of_mem (mem_map_of_mem hs), ?_⟩
  rw [h.spans_root.children_eq]
  exact mem_map_of_mem hs

theorem Outlined.exists_item (hf : f ∈ p.arena.children root) :
    ∃ ss, Rose.node f ss ∈ (p.arena.shape root).children :=
  exists_shape_of_child h.wellFormed h.lt_size hf

section

variable (hs : .node f ss ∈ (p.arena.shape root).children)
include hs

theorem Outlined.no_function (hc : c ∈ ss) : ∀ x ∈ c.preorder, p.arena.kind x ≠ .function := by
  intro x hx
  have hbelow := h.functions
  rw [h.tree_eq, Rose.map_node] at hbelow
  have hitem := hbelow _ (mem_map_of_mem hs)
  rw [Rose.map_node] at hitem
  exact hitem _ (mem_map_of_mem hc) _ (Rose.mem_preorder_map hx)

/-- A subtree below an item, unless it is the list of its parameters. -/
theorem Outlined.interior (hc : c ∈ ss) (hspans : p.arena.Spans s)
    (hformed : Formed p.context.types (s.map p.arena.label)) (hsub : s.preorder ⊆ c.preorder)
    (hk : p.arena.kind s.entry ≠ .params) : Interior p.context.types p.arena f s := by
  have hitem := (h.item hs).1
  have hfunctions : ∀ x ∈ s.preorder, p.arena.kind x ≠ .function :=
    fun x hx => h.no_function hs hc x (hsub hx)
  refine ⟨hspans, hformed, fun x hx => ⟨hfunctions x hx, ?_⟩, fun x hx => ⟨?_, ?_⟩⟩
  · refine hformed.no_params (fun l hl => ?_) (by rwa [Tree.kind_map]) _ (Rose.mem_preorder_map hx)
    rw [Rose.preorder_map] at hl
    obtain ⟨y, hy, rfl⟩ := mem_map.1 hl
    exact hfunctions y hy
  · exact (hitem.mem_preorder h.wellFormed).1 (Rose.mem_preorder_of_mem hc (hsub hx))
  · rintro rfl
    exact hitem.not_mem_child h.wellFormed hc (hsub hx)

/-- **The parts of a function.** -/
theorem Outlined.parts (hk : p.arena.kind f = .function) :
    ∃ ret q params b body, ss = [ret, .node q params, .node b body] ∧
      p.arena.kind q = .params ∧ p.arena.kind b = .block ∧
      Interior p.context.types p.arena f ret ∧ p.arena.kind ret.entry = .varType ∧
      (∀ d ∈ params, p.arena.kind d.entry = .varDecl ∧ Interior p.context.types p.arena f d) ∧
      Interior p.context.types p.arena f (.node b body) := by
  obtain ⟨hspans, hformed, -⟩ := h.item hs
  rw [Rose.map_node] at hformed
  obtain ⟨tret, ⟨lq, tparams⟩, ⟨lb, tbody⟩, hts, hret, hq, hb⟩ := hformed.root.function hk
  obtain ⟨ret, rest, rfl, rfl, htwo⟩ := map_eq_cons_iff.1 hts
  obtain ⟨⟨q, params⟩, rest, rfl, hqnode, hone⟩ := map_eq_cons_iff.1 htwo
  obtain ⟨⟨b, body⟩, rest, rfl, hbnode, hnone⟩ := map_eq_cons_iff.1 hone
  obtain rfl := map_eq_nil_iff.1 hnone
  rw [Rose.map_node] at hqnode hbnode
  obtain ⟨rfl, rfl⟩ := Rose.node.inj hqnode
  obtain ⟨rfl, rfl⟩ := Rose.node.inj hbnode
  rw [Tree.kind_map] at hret
  have hkret : p.arena.kind ret.entry = .varType := hret
  have hkb : p.arena.kind b = .block := hb
  have hpart : ∀ c ∈ [ret, .node q params, .node b body], p.arena.kind c.entry ≠ .params →
      Interior p.context.types p.arena f c := fun c hc hkc => h.interior hs hc (hspans.of_mem hc)
    (hformed.of_mem (mem_map_of_mem hc)) (fun _ hx => hx) hkc
  refine ⟨ret, q, params, b, body, rfl, hq, hb, hpart ret (by simp) ?_, hkret, fun d hd => ?_,
    hpart (.node b body) (by simp) ?_⟩
  · rw [hkret]
    exact fun he => by cases he
  · -- the parameters stand one level down
    have hqmem : Rose.node q params ∈ [ret, .node q params, .node b body] := by simp
    have hqformed := hformed.of_mem (mem_map_of_mem hqmem)
    rw [Rose.map_node] at hqformed
    have hadmits := hqformed.root.admits
    change Kind.admits (p.arena.kind q) _ = true at hadmits
    rw [show p.arena.kind q = .params from hq] at hadmits
    have hkd : p.arena.kind d.entry = .varDecl := by
      have hkind := all_eq_true.1 hadmits _
        (mem_map_of_mem (mem_map_of_mem (f := Rose.map p.arena.label) hd))
      rw [Tree.kind_map] at hkind
      exact beq_iff_eq.1 hkind
    refine ⟨hkd, h.interior hs hqmem ((hspans.of_mem hqmem).of_mem hd)
      (hqformed.of_mem (mem_map_of_mem hd)) (fun _ hx => Rose.mem_preorder_of_mem hd hx) ?_⟩
    rw [hkd]
    exact fun he => by cases he
  · change p.arena.kind b ≠ .params
    rw [hkb]
    exact fun he => by cases he

end

/-- **The function around what stands in one.** -/
theorem Outlined.enclosing? (hf : f ∈ p.arena.children root) (hk : p.arena.kind f = .function)
    {x : Nat} (hx : x < p.arena.size) (hunder : p.arena.Under x f) (hne : x ≠ f) :
    p.arena.enclosing? x .function = some f := by
  have hw := h.wellFormed
  have htop := not_isTopLevel hw hk hx hunder hne
  unfold isTopLevel at htop
  obtain ⟨y, hy⟩ := Option.isSome_iff_exists.1 (Option.isNone_eq_false_iff.1 htop)
  rw [hy]
  unfold Arena.enclosing? at hy
  have hky := find?_some hy
  rw [beq_iff_eq] at hky
  have hmem := mem_of_find?_eq_some hy
  have hxy := (mem_lineage hw hx).1 (mem_of_mem_tail hmem)
  obtain ⟨ss, hs⟩ := h.exists_item hf
  have hparent := (hw.linked root f).1 hf
  rcases hxy.total hunder with hyf | hfy
  · -- below the function is no other
    by_contra hyne
    have hyne' : y ≠ f := fun he => hyne (congrArg some he)
    have hmem := ((h.item hs).1.mem_preorder hw).2 hyf
    rw [Rose.preorder_node, mem_cons] at hmem
    obtain ⟨c, hc, hyc⟩ := mem_flatMap.1 (hmem.resolve_left hyne')
    exact h.no_function hs hc y hyc hky
  · -- above it is the root alone
    cases hfy with
    | refl => rfl
    | child hp hu =>
      rw [hparent] at hp
      cases hp
      cases hu with
      | refl => cases h.block.symm.trans hky
      | child hp _ =>
        rw [h.top] at hp
        cases hp

end Items

end VecLang
