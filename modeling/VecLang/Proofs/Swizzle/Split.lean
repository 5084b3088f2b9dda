import VecLang.Proofs.Swizzle.Meaning

/-!
# What stands in the place of a split assignment

An assignment `base.s = value` to a swizzle with `n` letters is replaced, where it stands, by
`n` assignments, each to one component of the same base. What the components are given is
read off the value, as the value was written, unless a name in it is taken for an operand of
the template.

* `Untouched`: the names of a part are left as they are by the operands that follow it.
* `map_valueAt_eq_iff`: exactly then the parts of the value are assigned as they were written.
* `StandsFor`: nodes stand in a list where one node stood, and the others stay.
* `lowerWrite_splits`: what lowering puts in the place of an assignment.
-/

namespace VecLang.Swizzle

open ScopeWalk Arena List

variable {pos : Pos} {sw : Swizzle} {base value t : Tree} {operands : List (String × Tree)}

/-- Nothing stands below an identifier. -/
def LeafNames (t : Tree) : Prop := ∀ u ∈ t.subtrees, u.entry.kind = .ident → u.children = []

/-- **Each name of a part stays what it is**, positions aside, when the operands after it are put
in. -/
def Untouched (part : Tree × List (String × Tree)) : Prop :=
  ∀ u ∈ part.1.subtrees, u.entry.kind = .ident → Tree.unplaced (Tree.fill part.2 u) = Tree.unplaced u

theorem fill_unplaced_iff : ∀ {t : Tree}, LeafNames t →
    ((Tree.fill operands t).unplaced = t.unplaced ↔ Untouched (t, operands)) := by
  intro t
  induction t using Rose.induction with
  | node l ts ih =>
    intro hleaf
    by_cases hl : l.kind = .ident
    · have hnil : ts = [] := hleaf _ (Rose.self_mem_subtrees _) hl
      subst hnil
      refine ⟨fun h u hu _ => ?_, fun h => h _ (Rose.self_mem_subtrees _) hl⟩
      rw [mem_singleton.1 hu]
      exact h
    · -- no operand stands for the root, so the question is about the children
      have hchildren : ∀ u ∈ ts, _ := fun u hu =>
        ih u hu fun w hw => hleaf w (Rose.mem_subtrees_of_mem hu hw)
      have hroot : (Tree.fill operands (.node l ts)).unplaced = Tree.unplaced (.node l ts) ↔
          ∀ u ∈ ts, Tree.unplaced (Tree.fill operands u) = Tree.unplaced u := by
        rw [fill_node hl, Tree.unplaced_node, Tree.unplaced_node, map_map, Rose.node.injEq]
        exact (and_iff_right rfl).trans map_inj_left
      rw [hroot]
      constructor
      · intro h u hu hk
        rw [Rose.subtrees, Rose.subtreesAll_eq_flatMap, mem_cons] at hu
        rcases hu with rfl | hu
        · exact absurd hk hl
        · obtain ⟨w, hw, hu⟩ := mem_flatMap.1 hu
          exact (hchildren w hw).1 (h w hw) u hu hk
      · intro h u hu
        exact (hchildren u hu).2 fun w hw => h w (Rose.mem_subtrees_of_mem hu hw)

theorem elementTree_unplaced_iff {u : Tree} (k : Nat) :
    (elementTree pos t k).unplaced = (elementTree pos u k).unplaced ↔ t.unplaced = u.unplaced := by
  unfold elementTree
  simp [Tree.plain]

/-- **The components are given the parts of the value as they were written**, positions aside, if
and only if the names in these are left alone. -/
theorem map_valueAt_eq_iff (hwidth : 0 < sw.width) (hleaf : LeafNames value) :
    ((range sw.width).map (valueAt pos sw base value)).map Tree.unplaced =
        (components pos sw.width value).map Tree.unplaced ↔
      ∀ part ∈ openParts sw base value, Untouched part := by
  unfold components openParts
  cases hargs : constructed? sw.width value with
  | none =>
    have hvalue : ∀ k, valueAt pos sw base value k =
        elementTree pos (Tree.fill [("$n1", base)] value) k := by
      intro k
      rw [valueAt, hargs]
      rfl
    simp only [map_map, map_inj_left, Function.comp_apply, hvalue,
      elementTree_unplaced_iff, fill_unplaced_iff hleaf, mem_range, mem_singleton,
      forall_eq]
    exact ⟨fun h => h 0 hwidth, fun h _ _ => h⟩
  | some args =>
    obtain ⟨hlen, hsub⟩ := mem_subtrees_of_constructed hargs
    have hleaves : ∀ arg ∈ args, LeafNames arg := fun arg harg u hu =>
      hleaf u (Rose.mem_subtrees_trans (hsub arg harg) hu)
    have hplaces : args = (range sw.width).map fun k => args.getD k value := by
      refine ext_getElem (by simp [hlen]) fun k hk _ => ?_
      simp [getElem?_eq_getElem hk]
    have hvalue : ∀ k, valueAt pos sw base value k =
        Tree.fill (operandsFrom base (k + 1) (args.drop (k + 1))) (args.getD k value) := by
      intro k
      rw [valueAt, hargs]
    have hmap : (args.map Tree.unplaced) =
        (range sw.width).map fun k => (args.getD k value).unplaced := by
      conv_lhs => rw [hplaces, map_map]
      rfl
    rw [hmap, map_map, map_inj_left]
    constructor
    · intro h part hpart
      obtain ⟨k, hk, rfl⟩ := mem_mapIdx.1 hpart
      have hkept := h k (mem_range.2 (hlen ▸ hk))
      simp only [Function.comp_apply, hvalue, getD_eq_getElem?_getD,
        getElem?_eq_getElem hk, Option.getD_some] at hkept
      exact (fill_unplaced_iff (hleaves _ (getElem_mem hk))).1 hkept
    · intro h k hk
      have hlt : k < args.length := hlen ▸ mem_range.1 hk
      simp only [Function.comp_apply, hvalue, getD_eq_getElem?_getD,
        getElem?_eq_getElem hlt, Option.getD_some]
      exact (fill_unplaced_iff (hleaves _ (getElem_mem hlt))).2
        (h _ (mem_mapIdx.2 ⟨k, hlt, rfl⟩))

/-- The assignments of values to components of one base. -/
def componentAssigns (pos : Pos) (base : Tree) (is : List Nat) (values : List Tree) : List Tree :=
  zipWith (fun i r => .operated .assign pos .assign [elementTree pos base i, r]) is values

theorem splitTrees_eq_componentAssigns (pos : Pos) (sw : Swizzle) (base value : Tree) :
    splitTrees pos sw base value = componentAssigns pos base sw.indices
      ((range sw.width).map (valueAt pos sw base value)) := by
  unfold splitTrees writeTrees componentAssigns width
  refine ext_getElem (by simp) fun k hk hk' => ?_
  simp

/-- **The nodes `parts` stand in the list where `node` stood.** The others stay, in their order and
with the trees below them. -/
structure StandsFor (a : Arena) (list node : NodeId) (b : Arena) (parts : List NodeId) : Prop where
  places : ∃ pre post, a.children list = pre ++ node :: post ∧ b.children list = pre ++ parts ++ post
  others : ∀ other ∈ a.children list, other ≠ node → b.tree other = a.tree other

theorem standsFor_of_rewrites {a b : Arena} {s : Rose Nat} {ss : List (Rose Nat)} {list : NodeId}
    (h : Rewrites a s b ss) (hpar : a.parent? s.entry = some list) :
    StandsFor a list s.entry b (ss.map Rose.entry) := by
  have hw := h.before
  have hmem : s.entry ∈ a.children list := (hw.linked list s.entry).2 hpar
  refine ⟨?_, fun other hother hne => ?_⟩
  · obtain ⟨pre, post, hsplit⟩ := append_of_mem hmem
    have hout : list ∉ s.preorder := fun hm =>
      hw.not_under_of_parent hpar ((h.focus.mem_preorder hw).1 hm)
    have hnd := hw.nodup list
    rw [hsplit] at hnd
    refine ⟨pre, post, hsplit, ?_⟩
    rw [h.children list (hw.parent_lt hpar) hout, hsplit, splice_at hnd]
  · have hs := spans_shape hw (hw.child_lt hother)
    have hentry := entry_shape a other
    -- siblings share no node
    have hdis : (a.shape other).preorder.Disjoint s.preorder := by
      refine hs.disjoint_of_sibling hw h.focus (by rw [hentry]; exact hne) ?_
      rw [hentry, hpar]
      exact (hw.linked list other).1 hother
    obtain ⟨hs', hlabels⟩ := h.keeps hs hdis
    have htree := hs'.tree_eq h.wellFormed
    rw [hentry, hlabels] at htree
    exact htree

/-- **What lowering puts in the place of an assignment to a swizzle**: one assignment for each
letter, in the place of the statement, to the component of the base that the letter names. They
assign what the value has for these components if no name in it is taken for an operand that is
put into the template later, and as long as no name in it changes by that. -/
theorem lowerWrite_splits {v v' : View Unit} {node : NodeId} {parts : List NodeId}
    (hw : v.arena.WellFormed) (ht : Templates v.context.types) (hk : v.arena.kind node = .assign)
    (h : lowerWrite node v = .ok (.replaced parts) v') :
    ∃ list target base value more sw, v.arena.kind list = .block ∧
      v.arena.tree node = .node (v.arena.label node) (target :: value :: more) ∧
      swizzleTarget? target = some (base, sw) ∧ StandsFor v.arena list node v'.arena parts ∧
      parts.length = sw.width ∧ ∃ values, values.length = sw.width ∧
        parts.map v'.arena.tree =
          componentAssigns (v.arena.pos node) base sw.indices values ∧
        (Uncaptured sw base value → values = components (v.arena.pos node) sw.width value) ∧
        (LeafNames value → (values.map Tree.unplaced =
            (components (v.arena.pos node) sw.width value).map Tree.unplaced ↔
          ∀ part ∈ openParts sw base value, Untouched part)) := by
  -- an id that was never given out has the default label, and that is no assignment
  have hlt : node < v.arena.size := by
    refine Nat.lt_of_not_le fun hle => ?_
    have hnone : v.arena.nodes[node]? = none := Array.getElem?_eq_none hle
    have hkind : v.arena.kind node = .block := by
      unfold kind label
      rw [hnone]
      rfl
    rw [hk] at hkind
    cases hkind
  obtain ⟨ss, hs, htree⟩ := exists_tree_eq hw hlt
  have hhook : writeHook node v = .ok (.replaced parts) v' := by
    unfold writeHook
    rw [Steps.get_bind, if_pos hk]
    exact h
  have hdoes := (writeHook_refines ht hw hs rfl).of_eq_ok hhook
  generalize haction : writeRule _ _ _ _ = action at hdoes
  cases hdoes with
  | @replace _ ss' _ _ hrw _ _ heq =>
  obtain ⟨hplace, l, target, value, more, base, sw, htree', -, htarget, -, htrees⟩ :=
    writeRule_replace (heq ▸ haction)
  rw [Rose.map_node] at htree'
  obtain ⟨rfl, hchildren⟩ := Rose.node.inj htree'
  obtain ⟨list, hpar, hblock⟩ : ∃ list, v.arena.parent? node = some list ∧
      v.arena.kind list = .block := by
    unfold placeOf at hplace
    cases hpar : v.arena.parent? node with
    | none =>
      rw [show v.arena.parent? (Rose.node node ss).entry = none from hpar] at hplace
      cases hplace
    | some list =>
      rw [show v.arena.parent? (Rose.node node ss).entry = some list from hpar] at hplace
      exact ⟨list, rfl, below_eq_statement.1 hplace⟩
  have hparts : (ss'.map Rose.entry).map v'.arena.tree = splitTrees (v.arena.pos node) sw base value := by
    rw [map_map]
    refine Eq.trans (map_congr_left fun u hu => ?_) htrees
    exact (hrw.spans u hu).tree_eq hrw.wellFormed
  have hwidth : 0 < sw.width := by
    obtain ⟨-, -, -, -, m, -, hm⟩ := swizzleTarget?_eq_some htarget
    have hbounds := ofMember?_bounds hm
    omega
  rw [splitTrees_eq_componentAssigns] at hparts
  refine ⟨list, target, base, value, more, sw, hblock, ?_, htarget, standsFor_of_rewrites hrw hpar,
    ?_, _, by simp, hparts, fun hfree => (components_of_uncaptured hfree).symm,
    map_valueAt_eq_iff hwidth⟩
  · rw [htree, hchildren]
  · have hlen := congrArg length hparts
    simpa [componentAssigns, width] using hlen

/-- The block `q; v.zx = vec2(q[1], $a1[0]); v;`. -/
def amidView : View Unit where
  arena := (({} : Arena).graft (.plain .block {} [nameTree {} "q", .operated .assign {} .assign
    [.plain .member {} [nameTree {} "v", nameTree {} "zx"], pickedValue], nameTree {} "v"])).1
  context := Context.bind { source := "", filename := "", types := Builtin.types } "v"
    { type := Builtin.vec3 }
  notes := ()

theorem lowerWrite_splits_amidView : ∃ list parts v',
    lowerWrite 2 amidView = .ok (.replaced parts) v' ∧ parts.length = 2 ∧
      StandsFor amidView.arena list 2 v'.arena parts ∧
      parts.map v'.arena.tree =
        [.operated .assign {} .assign [elementTree {} (nameTree {} "v") 2,
            elementTree {} (nameTree {} "q") 1],
          .operated .assign {} .assign [elementTree {} (nameTree {} "v") 0,
            elementTree {} (nameTree {} "$a1") 0]] := by
  have hw : amidView.arena.WellFormed := (graft_spec _ wellFormed_empty).1.wellFormed
  have hview : WritesSwizzle amidView 2 0 {} "v" ⟨[2, 0]⟩ pickedValue := by
    refine ⟨hw, by decide +kernel, rfl, ⟨Builtin.vec3, by decide +kernel, rfl⟩, by decide +kernel,
      by decide +kernel, {}, {}, {}, "zx", by decide +kernel, by decide +kernel⟩
  obtain ⟨parts, v', -, hrun, -⟩ := hview.exists_parts
  obtain ⟨list, target, base, value, more, sw, -, htree, htarget, hplace, hlen, values, -, htrees,
    hvalues, -⟩ := lowerWrite_splits hw templates_builtin (by decide +kernel) hrun
  have hshape : amidView.arena.tree 2 = .node (amidView.arena.label 2)
      [Tree.plain .member {} [nameTree {} "v", nameTree {} "zx"], pickedValue] := by decide +kernel
  rw [hshape, Rose.node.injEq] at htree
  obtain ⟨-, htree⟩ := htree
  cases htree
  have hsw : swizzleTarget? (.plain .member {} [nameTree {} "v", nameTree {} "zx"]) =
      some (nameTree {} "v", ⟨[2, 0]⟩) := by decide +kernel
  cases hsw.symm.trans htarget
  have hfree : Uncaptured ⟨[2, 0]⟩ (nameTree {} "v") pickedValue := by
    unfold Uncaptured
    decide +kernel
  rw [hvalues hfree] at htrees
  refine ⟨list, parts, v', hrun, hlen, hplace, htrees.trans ?_⟩
  decide +kernel

/-- A program that puts a number with the name of a placeholder into a vector. -/
def takenText : String := "void main() { vec2 v; int $a1; v.xy = vec2($a1, 1); }"

/-- **An argument is taken for the one after it**, if it has the name of the placeholder for
that: both components are given the second argument. -/
theorem lowerWrite_takes_argument : ∃ p v node parts v' base value sw,
    parseProgram takenText "" = .ok p ∧ v.arena = p.arena ∧ v.context.types = p.context.types ∧
      (∃ l target, v.arena.tree node = .node l [target, value] ∧ l.kind = .assign ∧
        swizzleTarget? target = some (base, sw)) ∧
      lowerWrite node v = .ok (.replaced parts) v' ∧
      (parts.map v'.arena.tree).map Tree.unplaced ≠
        (componentAssigns (v.arena.pos node) base sw.indices
          (components (v.arena.pos node) sw.width value)).map Tree.unplaced := by
  have hcheck : (parseProgram takenText "" >>= fun p => pure (decide (
      9 < p.arena.size ∧ p.arena.parent? 9 = some 4 ∧ p.arena.kind 4 = .block ∧
      (p.context.bind "v" { type := Builtin.vec2 }).bindingType "v" = .ok Builtin.vec2 ∧
      p.arena.tree 9 = .operated .assign (p.arena.pos 9) .assign
        [.plain .member (p.arena.pos 10)
            [nameTree (p.arena.pos 11) "v", nameTree (p.arena.pos 12) "xy"],
          .plain .call (p.arena.pos 13) [.valued .varType (p.arena.pos 14) (.type Builtin.vec2) [],
            .plain .args (p.arena.pos 15) [nameTree (p.arena.pos 16) "$a1",
              .valued .intConst (p.arena.pos 17) (.int 1) []]]]))) = .ok true := by
    decide +kernel
  obtain ⟨p, hparse, hfacts⟩ := Except.bind_eq_ok.1 hcheck
  obtain ⟨hlt, hparent, hblock, htype, hassigns⟩ := of_decide_eq_true (Except.ok.inj hfacts)
  obtain ⟨root, hparsed⟩ := parseProgram_parsed hparse
  have hview : WritesSwizzle
      { arena := p.arena, context := p.context.bind "v" { type := Builtin.vec2 }, notes := () }
      9 4 (p.arena.pos 11) "v" ⟨[0, 1]⟩ _ :=
    ⟨hparsed.wellFormed, hlt, hparsed.types, ⟨Builtin.vec2, htype, rfl⟩, hparent, hblock,
      _, _, _, "xy", by decide +kernel, hassigns⟩
  obtain ⟨parts, v', pos, hrun, -, htrees⟩ := hview.exists_parts
  refine ⟨p, _, 9, parts, v', _, _, ⟨[0, 1]⟩, hparse, rfl, rfl, ⟨_, _, hassigns, rfl, rfl⟩, hrun, ?_⟩
  rw [htrees]
  intro heq
  -- what is assigned to the first component
  let assigned : Tree → Option Value := fun t => t.children[1]?.bind fun u => u.entry.value
  have hfirst : some (Value.int 1) = some (.name "$a1") :=
    congrArg (fun ts => ts.head?.bind assigned) heq
  cases hfirst

end VecLang.Swizzle
