import VecLang.Proofs.Swizzle.Reads

/-!
# Lowering writes

The walk that lowers writes, said of trees: an assignment to a swizzle of an array is
split into one assignment for each component. The operands are put into a template one
after the other, so a name of the value that is also the name of a later operand is
taken for it (`valueAt`).

* `writeRule`: what the walk does with a node.
* `fill_writeTrees`: what comes out of the templates.
* `writeHook_refines`: the hook does so in place.
-/

namespace VecLang

open List

variable {l : Label} {j id target list node block : Nat} {val s : Rose Nat} {sw : Swizzle}
  {pre post : List Nat} {types : TypeTable}

/-- The tree with operands in the place of names, one after the other. -/
def Tree.fill (operands : List (String × Tree)) (t : Tree) : Tree :=
  operands.foldl (fun t operand => Tree.subst operand.1 operand.2 t) t

namespace Swizzle

open ScopeWalk Traversal Arena

/-! ### What is assigned -/

/-- The arguments of a call of the vector constructor with one argument for each of
`width` components. -/
def constructed? (width : Nat) (t : Tree) : Option (List Tree) :=
  if t.entry.kind = .call then
    match t.children[0]?.bind (·.entry.type?), t.children[1]? with
    | some ty, some args =>
      if ty.name = "vec" ++ toString width ∧ args.children.length = width then some args.children
      else none
    | _, _ => none
  else none

/-- The operands of the template that writes single values, from place `k` on. The vector
comes last. -/
def operandsFrom (base : Tree) : Nat → List Tree → List (String × Tree)
  | _, [] => [("$n1", base)]
  | k, arg :: args => (argument k, arg) :: operandsFrom base (k + 1) args

/-- **What is assigned to the component at place `k`**: the argument of a constructor that
gives one for each, or the component of the value. Names in it that are those of operands
still to come are replaced as well. -/
def valueAt (pos : Pos) (s : Swizzle) (base value : Tree) (k : Nat) : Tree :=
  match constructed? s.width value with
  | some args => Tree.fill (operandsFrom base (k + 1) (args.drop (k + 1))) (args.getD k value)
  | none => elementTree pos (Tree.subst "$n1" base value) k

/-- The assignments that an assignment to a swizzle is split into. -/
def splitTrees (pos : Pos) (s : Swizzle) (base value : Tree) : List Tree :=
  writeTrees pos s base (valueAt pos s base value)

def swizzleTarget? : Tree → Option (Tree × Swizzle)
  | .node l (base :: rest) =>
    if l.kind = .member then ((memberOf? (base :: rest)).bind ofMember?).map (base, ·) else none
  | .node _ [] => none

/-- **What the walk of the writes does with a node.** -/
def writeRule (types : TypeTable) : Rule
  | σ, place, .node l (target :: value :: _) =>
    if l.kind = .assign then
      match swizzleTarget? target with
      | some (base, s) =>
        match isArray? types (σ (base.entry.name?.getD "")) base with
        | some true =>
          if place = .statement then .replace (splitTrees l.pos s base value) else .reject
        | some false => .keep
        | none => .reject
      | none => .keep
    else .keep
  | _, _, _ => .keep

/-! ### Filling the templates -/

section Fill

variable {operands : List (String × Tree)} {pos : Pos} {base value : Tree}

@[simp] theorem fill_nil (t : Tree) : Tree.fill [] t = t := rfl

@[simp] theorem fill_cons (name : String) (u t : Tree) :
    Tree.fill ((name, u) :: operands) t = Tree.fill operands (Tree.subst name u t) := rfl

theorem fill_node (hl : l.kind ≠ .ident) (ts : List Tree) :
    Tree.fill operands (.node l ts) = .node l (ts.map (Tree.fill operands)) := by
  induction operands generalizing ts with
  | nil => exact congrArg (Rose.node l) (map_id' ts).symm
  | cons operand operands ih =>
    rw [fill_cons, Tree.subst_node, if_neg fun h => hl h.1, ih, map_map]
    rfl

theorem subst_nameTree (name other : String) (u : Tree) :
    Tree.subst name u (nameTree pos other) = if other = name then u else nameTree pos other := by
  unfold nameTree Tree.valued
  rw [Tree.subst_node]
  simp [Label.name?]

theorem fill_elementTree (i : Nat) :
    Tree.fill operands (elementTree pos base i) = elementTree pos (Tree.fill operands base) i := by
  unfold elementTree Tree.plain Tree.valued
  rw [fill_node (l := { kind := .index, pos }) (fun h => by cases h), map_cons, map_cons,
    fill_node (l := { kind := .intConst, pos, value := some (.int i) }) (fun h => by cases h)]
  rfl

theorem map_fill_writeTrees (s : Swizzle) (tree : Nat → Tree) :
    (writeTrees pos s base tree).map (Tree.fill operands) =
      writeTrees pos s (Tree.fill operands base) fun k => Tree.fill operands (tree k) := by
  unfold writeTrees
  rw [map_mapIdx]
  refine mapIdx_congr fun k i _ => ?_
  unfold Tree.operated
  rw [fill_node (l := { kind := .assign, pos, op := some .assign }) (fun h => by cases h),
    map_cons, map_cons, fill_elementTree]
  rfl

theorem argument_ne {k : Nat} (hj : j < 4) (hk : k < 4) (h : k ≠ j) : argument k ≠ argument j := by
  have hall : ∀ j < 4, ∀ k < 4, k ≠ j → argument k ≠ argument j := by decide
  exact hall j hj k hk h

theorem argument_ne_base (hj : j < 4) : "$n1" ≠ argument j := by
  have hall : ∀ j < 4, "$n1" ≠ argument j := by decide
  exact hall j hj

/-- The operands of a constructor's template fill the place of the vector last. -/
theorem fill_operandsFrom_base : ∀ (args : List Tree) (j : Nat), j + args.length ≤ 4 →
    Tree.fill (operandsFrom base j args) (nameTree pos "$n1") = base := by
  intro args
  induction args with
  | nil =>
    intro j _
    rw [operandsFrom, fill_cons, subst_nameTree, if_pos rfl, fill_nil]
  | cons arg args ih =>
    intro j hj
    rw [length_cons] at hj
    rw [operandsFrom, fill_cons, subst_nameTree, if_neg (argument_ne_base (by omega))]
    exact ih (j + 1) (by omega)

/-- The place of an argument is filled with it, and then with the operands after it. -/
theorem fill_operandsFrom_argument (pos : Pos) (base value : Tree) :
    ∀ (args : List Tree) (j k : Nat), j + args.length ≤ 4 → k < args.length →
      Tree.fill (operandsFrom base j args) (nameTree pos (argument (j + k))) =
      Tree.fill (operandsFrom base (j + k + 1) (args.drop (k + 1))) (args.getD k value) := by
  intro args
  induction args with
  | nil => intro j k _ hk; cases hk
  | cons arg args ih =>
    intro j k hj hk
    rw [length_cons] at hj hk
    rw [operandsFrom, fill_cons, subst_nameTree]
    cases k with
    | zero =>
      rw [if_pos (by rfl)]
      rfl
    | succ k =>
      rw [if_neg (argument_ne (by omega) (by omega) (by omega))]
      have h := ih (j + 1) k (by omega) (by omega)
      rw [show j + 1 + k = j + (k + 1) by omega] at h
      exact h

/-- **Filling the template that writes a vector.** -/
theorem fill_writeTrees (s : Swizzle) (hnone : constructed? s.width value = none) :
    (writeTrees pos s (nameTree pos "$n1") (elementTree pos (nameTree pos "$n2"))).map
        (Tree.fill [("$n2", value), ("$n1", base)]) = splitTrees pos s base value := by
  have hbase : Tree.fill [("$n2", value), ("$n1", base)] (nameTree pos "$n1") = base := by
    rw [fill_cons, subst_nameTree, if_neg (by decide), fill_cons, subst_nameTree, if_pos rfl,
      fill_nil]
  have hvalue : Tree.fill [("$n2", value), ("$n1", base)] (nameTree pos "$n2") =
      Tree.subst "$n1" base value := by
    rw [fill_cons, subst_nameTree, if_pos rfl, fill_cons, fill_nil]
  unfold splitTrees
  rw [map_fill_writeTrees, hbase]
  congr 1
  funext k
  rw [fill_elementTree, hvalue, valueAt, hnone]

/-- **Filling the template that writes single values.** -/
theorem fill_unpackedWriteTrees (s : Swizzle) (hs : s.width ≤ 4) {args : List Tree}
    (hargs : constructed? s.width value = some args) (hlen : args.length = s.width) :
    (writeTrees pos s (nameTree pos "$n1") fun k => nameTree pos (argument k)).map
        (Tree.fill (operandsFrom base 0 args)) = splitTrees pos s base value := by
  unfold splitTrees
  rw [map_fill_writeTrees, fill_operandsFrom_base args 0 (by omega)]
  unfold writeTrees
  refine mapIdx_congr fun k i hk => ?_
  have hk' : k < args.length := by
    rw [hlen]
    exact (List.getElem?_eq_some_iff.1 hk).1
  have h := fill_operandsFrom_argument pos base value args 0 k
    (by omega) hk'
  rw [Nat.zero_add] at h
  simp only [h, valueAt, hargs]

end Fill

/-! ### Writing the statements -/

section Statements

variable {v v' : View Unit} {a a₀ : Arena}

theorem child?_eq {ss : List (Rose Nat)} (hs : a.Spans (.node id ss)) (i : Nat) :
    a.child? id i = ss[i]?.map Rose.entry := by
  unfold child?
  rw [hs.children_eq, getElem?_map]

theorem constructorArgs?_eq (hs : a.Spans val) (width : Nat) :
    (constructorArgs? a width val.entry = none ∧ constructed? width (val.map a.label) = none) ∨
      ∃ list args, Rose.node list args ∈ val.children ∧ args.length = width ∧
        constructorArgs? a width val.entry = some (args.map Rose.entry) ∧
        constructed? width (val.map a.label) = some (args.map (Rose.map a.label)) := by
  obtain ⟨id, ss⟩ := val
  have htree : constructed? width (.node (a.label id) (ss.map (Rose.map a.label))) =
      if a.kind id = .call then
        match (ss[0]?.map (Rose.map a.label)).bind (·.entry.type?), ss[1]?.map (Rose.map a.label) with
        | some ty, some args =>
          if ty.name = "vec" ++ toString width ∧ args.children.length = width then some args.children
          else none
        | _, _ => none
      else none := by
    rw [← getElem?_map, ← getElem?_map]
    rfl
  -- the two differ in where they read the type of the callee
  have htype : (ss[0]?.map Rose.entry).bind a.type? =
      (ss[0]?.map (Rose.map a.label)).bind (·.entry.type?) := by
    cases ss[0]? with
    | none => rfl
    | some f =>
      rw [Option.map_some, Option.map_some, Option.bind_some, Option.bind_some, Rose.entry_map]
      rfl
  rw [Rose.map_node, htree]
  change (constructorArgs? a width id = none ∧ _) ∨ ∃ list args, _ ∧ _ ∧
    constructorArgs? a width id = _ ∧ _
  unfold constructorArgs?
  rw [child?_eq hs, child?_eq hs, htype]
  by_cases hk : a.kind id = .call
  swap
  · rw [if_neg hk, if_neg hk]
    exact .inl ⟨rfl, rfl⟩
  rw [if_pos hk, if_pos hk]
  cases (ss[0]?.map (Rose.map a.label)).bind (·.entry.type?) with
  | none => exact .inl ⟨rfl, rfl⟩
  | some ty =>
    cases hargs : ss[1]? with
    | none => exact .inl ⟨rfl, rfl⟩
    | some node =>
      obtain ⟨list, args⟩ := node
      have hmem : Rose.node list args ∈ ss := mem_of_getElem? hargs
      have hch : a.children (Rose.node list args).entry = args.map Rose.entry :=
        (hs.of_mem hmem).children_eq
      have hch' : ((Rose.node list args).map a.label).children = args.map (Rose.map a.label) := by
        rw [Rose.map_node]
        rfl
      simp only [Option.map_some, hch, hch', length_map]
      by_cases hfit : ty.name = "vec" ++ toString width ∧ args.length = width
      · rw [if_pos hfit, if_pos hfit]
        exact .inr ⟨list, args, hmem, hfit.2, rfl, rfl⟩
      · rw [if_neg hfit, if_neg hfit]
        exact .inl ⟨rfl, rfl⟩

/-- **The arguments are put into the template one after the other.** -/
theorem fillArguments_runs (hw₀ : a₀.WellFormed) (hs : a₀.Spans s) :
    ∀ (args : List (Rose Nat)) (k : Nat) {v : View Unit} {r : Rose Nat} {t : Tree},
      Drafted a₀ s t v.arena r → t.entry.kind ≠ .ident → (∀ o ∈ args, Waits a₀ s v.arena r o) →
      args.Pairwise (fun o o' => o'.preorder.Disjoint o.preorder) →
      Steps.Runs (((args.map Rose.entry).zipIdx k).forM fun (arg, k) =>
        substitute r.entry (argument k) arg) v fun _ v' =>
      ∃ a r' t', v' = { v with arena := a } ∧ r'.entry = r.entry ∧ Drafted a₀ s t' a r' ∧
        t'.entry = t.entry ∧
        (∀ base, Tree.subst "$n1" base t' =
          Tree.fill (operandsFrom base k (args.map (Rose.map a₀.label))) t) ∧
        ∀ o', Waits a₀ s v.arena r o' → (∀ o ∈ args, o'.preorder.Disjoint o.preorder) →
          Waits a₀ s a r' o' := by
  intro args
  induction args with
  | nil =>
    intro k v r t hd _ _ _
    exact ⟨(), v, rfl, v.arena, r, t, rfl, rfl, hd, rfl, fun base => rfl, fun o' ho' _ => ho'⟩
  | cons o args ih =>
    intro k v r t hd hkind hwait hpair
    obtain ⟨hfirst, hpair⟩ := pairwise_cons.1 hpair
    rw [map_cons, zipIdx_cons]
    refine (hd.substitute (argument k) hw₀ hs hkind (hwait o (.head _))).bind ?_
    rintro _ _ ⟨a₁, r₁, rfl, hentry₁, hd₁, hwait₁⟩
    have hroot := Tree.entry_subst (argument k) (o.map a₀.label) hkind
    obtain ⟨_, _, hrun, a, r', t', rfl, hentry, hd', hroot', htree, hwait'⟩ :=
      ih (k + 1) (v := { v with arena := a₁ }) hd₁ (hroot ▸ hkind)
        (fun o' ho' => hwait₁ o' (hwait o' (.tail _ ho')) (hfirst o' ho')) hpair
    rw [hentry₁] at hrun
    refine ⟨_, _, hrun, a, r', t', rfl, hentry.trans hentry₁, hd', hroot'.trans hroot, htree,
      fun o' ho' hdis => ?_⟩
    exact hwait' o' (hwait₁ o' ho' (hdis o (.head _)))
      fun u hu => hdis u (.tail _ hu)

/-- **The assignments to the components as a detached block**, made of new nodes and of the
operands of the assignment `id`. -/
theorem writeStatements_runs {b : Rose Nat} {ms more : List (Rose Nat)}
    (ht : Templates v.context.types) (hwidth : sw.width ≤ 4) (hindices : ∀ i ∈ sw.indices, i < 4)
    (hw : v.arena.WellFormed)
    (hs : v.arena.Spans (.node id (.node target (b :: ms) :: val :: more))) (pos : Pos) :
    Steps.Runs (writeStatements b.entry val.entry pos sw) v fun block v' =>
      ∃ a r, v' = { v with arena := a } ∧ block = r.entry ∧
        Drafted v.arena (.node id (.node target (b :: ms) :: val :: more))
          (.plain .block pos (splitTrees pos sw (b.map v.arena.label) (val.map v.arena.label)))
          a r := by
  have htarget : Rose.node target (b :: ms) ∈ Rose.node target (b :: ms) :: val :: more :=
    (.head _)
  have hval : val ∈ Rose.node target (b :: ms) :: val :: more :=
    .tail _ (.head _)
  have hb : b ∈ (Rose.node target (b :: ms)).subtrees :=
    Rose.mem_subtrees_of_mem (.head _) b.self_mem_subtrees
  -- the operands lie below different children of the assignment
  have hdis : (Rose.node target (b :: ms)).preorder.Disjoint val.preorder :=
    fun _ hx hxv => (pairwise_cons.1 (hs.pairwise_disjoint hw)).1 val (.head _) hxv hx
  have hbelow : ∀ {u o : Rose Nat}, u ∈ Rose.node target (b :: ms) :: val :: more →
      o ∈ u.subtrees → o.entry ≠ id := by
    intro u o hu ho he
    exact hs.not_mem_child hw hu
      (he ▸ Rose.mem_preorder_of_mem_subtrees ho o.entry_mem_preorder)
  have hblock : ∀ name u ts, Tree.subst name u (.plain .block pos ts) =
      .plain .block pos (ts.map (Tree.subst name u)) := by
    intro name u ts
    unfold Tree.plain
    rw [Tree.subst_node, if_neg fun h => by cases h.1]
  have hkind : ∀ ts, (Tree.plain .block pos ts).entry.kind ≠ .ident := fun _ h => by cases h
  unfold writeStatements
  refine .get_bind ?_
  rcases constructorArgs?_eq (hs.of_mem hval) sw.width with
    ⟨hids, htrees⟩ | ⟨list, args, hlist, hlen, hids, htrees⟩
  · simp only [hids]
    obtain ⟨u, hparse, htemplate⟩ :=
      parse_writeText (v.context.snippet sw.writeText "(swizzle)") ht hwidth hindices pos
    refine (parseSnippet_runs (by decide) pos hw hs hparse).bind ?_
    rintro _ _ ⟨a₁, r₁, rfl, hd₁, rfl, hwaits⟩
    rw [htemplate] at hd₁
    have hv := hwaits val (Rose.mem_subtrees_of_mem hval val.self_mem_subtrees)
      (hbelow hval val.self_mem_subtrees)
    have hb₁ := hwaits b (Rose.mem_subtrees_of_mem htarget hb) (hbelow htarget hb)
    refine (hd₁.substitute (v := { v with arena := a₁ }) "$n2" hw hs (hkind _) hv).bind ?_
    rintro _ _ ⟨a₂, r₂, rfl, hentry₂, hd₂, hwaits₂⟩
    have hb₂ := hwaits₂ b hb₁ fun x hx hxv => hdis (Rose.mem_preorder_of_mem_subtrees hb hx) hxv
    rw [← hentry₂]
    rw [hblock] at hd₂
    refine (hd₂.substitute (v := { v with arena := a₂ }) "$n1" hw hs (hkind _) hb₂).bind ?_
    rintro _ _ ⟨a₃, r₃, rfl, hentry₃, hd₃, -⟩
    refine Steps.runs_pure ⟨a₃, r₃, rfl, hentry₃.symm, ?_⟩
    rw [hblock, map_map] at hd₃
    rw [← fill_writeTrees sw htrees]
    exact hd₃
  · simp only [hids]
    obtain ⟨u, hparse, htemplate⟩ := parse_unpackedWriteText
      (v.context.snippet sw.unpackedWriteText "(swizzle)") ht hwidth hindices pos
    refine (parseSnippet_runs (by decide) pos hw hs hparse).bind ?_
    rintro _ _ ⟨a₁, r₁, rfl, hd₁, rfl, hwaits⟩
    rw [htemplate] at hd₁
    have hsublist : Rose.node list args ∈ val.subtrees := by
      obtain ⟨vid, vs⟩ := val
      exact Rose.mem_subtrees_of_mem hlist (Rose.self_mem_subtrees _)
    have hargs : ∀ o ∈ args, o ∈ val.subtrees := fun o ho =>
      Rose.mem_subtrees_trans hsublist (Rose.mem_subtrees_of_mem ho o.self_mem_subtrees)
    have hb₁ := hwaits b (Rose.mem_subtrees_of_mem htarget hb) (hbelow htarget hb)
    refine (fillArguments_runs hw hs args 0 (v := { v with arena := a₁ }) hd₁ (hkind _)
      (fun o ho => hwaits o (Rose.mem_subtrees_of_mem hval (hargs o ho)) (hbelow hval (hargs o ho)))
      (((hs.of_mem hval).of_mem_subtrees hsublist).pairwise_disjoint hw)).bind ?_
    rintro _ _ ⟨a₂, r₂, t₂, rfl, hentry₂, hd₂, hroot₂, htree₂, hwaits₂⟩
    have hb₂ := hwaits₂ b hb₁ fun o ho x hx hxo => hdis (Rose.mem_preorder_of_mem_subtrees hb hx)
      (Rose.mem_preorder_of_mem_subtrees (hargs o ho) hxo)
    rw [← hentry₂]
    refine (hd₂.substitute (v := { v with arena := a₂ }) "$n1" hw hs (hroot₂ ▸ hkind _) hb₂).bind ?_
    rintro _ _ ⟨a₃, r₃, rfl, hentry₃, hd₃, -⟩
    refine Steps.runs_pure ⟨a₃, r₃, rfl, hentry₃.symm, ?_⟩
    unfold Tree.plain at htree₂ ⊢
    rw [htree₂, fill_node (l := { kind := .block, pos }) (fun h => by cases h),
      fill_unpackedWriteTrees sw hwidth htrees (by rw [length_map, hlen])] at hd₃
    exact hd₃

end Statements

/-! ### Splitting an assignment -/

section Split

variable {v v' : View Unit} {a a₀ : Arena} {b : Arena}

theorem insertIdx_length_append (x : Nat) (pre post : List Nat) :
    (pre ++ post).insertIdx pre.length x = pre ++ x :: post := by
  induction pre with
  | nil => rfl
  | cons y pre ih => exact congrArg (y :: ·) ih

theorem insert_changes (hw : a.WellFormed) (hlist : a.children list = pre ++ post)
    (hlt : list < a.size) (hnode : node < a.size) (hnot : a.parent? node ≠ some list)
    (h : a.insert list pre.length node = .ok b) :
    Changes (fun x => x = list ∨ a.parent? node = some x) (· = node) a b ∧
      b.children list = pre ++ node :: post ∧ b.parent? node = some list ∧
      (∀ x, x ≠ list → b.children x = (a.children x).filter (· != node)) := by
  obtain ⟨-, hm⟩ := insert_moved hw hlt hnode h
  have hfree : node ∉ a.children list := fun hc => hnot ((hw.linked list node).1 hc)
  have hchildren : b.children list = pre ++ node :: post := by
    rw [hm.children, if_pos rfl, filter_ne_eq_self hfree, hlist, length_append,
      Nat.min_eq_left (Nat.le_add_right _ _), insertIdx_length_append]
  refine ⟨⟨hw.insert hlt hnode h, Nat.le_of_eq hm.size.symm, fun x _ => hm.label x,
    fun x _ hx => ?_, fun x _ hx => ?_, hm.root?⟩, hchildren, ?_, fun x hx => ?_⟩
  · rw [not_or] at hx
    rw [hm.children, if_neg hx.1, filter_ne_eq_self]
    exact fun hc => hx.2 ((hw.linked x node).1 hc)
  · rw [hm.parent?, if_neg hx]
  · rw [hm.parent?, if_pos rfl]
  · rw [hm.children, if_neg hx]

/-- **The first part of a block is moved into a list** outside of it, between `pre` and
`post`, and what is left of the block are the other parts. -/
theorem insertPart_changes {parts : List (Rose Nat)} (hw : a.WellFormed)
    (hlist : a.children list = pre ++ post) (hlt : list < a.size)
    (hs : a.Spans (.node block (s :: parts)))
    (hout : list ∉ (Rose.node block (s :: parts)).preorder)
    (h : a.insert list pre.length s.entry = .ok b) :
    Changes (fun x => x = list ∨ x = block) (· = s.entry) a b ∧ b.size = a.size ∧
      b.children list = pre ++ [s.entry] ++ post ∧ b.parent? s.entry = some list ∧
      b.Spans (.node block parts) ∧ list ∉ (Rose.node block parts).preorder := by
  have hpar := hs.parent_of_mem hw (.head _)
  have hne : list ≠ block := fun he => hout (he ▸ by simp)
  have hnot : a.parent? s.entry ≠ some list := by
    rw [hpar]
    exact fun he => hne (Option.some.inj he).symm
  have hlt' := (hs.of_mem (.head _)).lt_size
  obtain ⟨hch, hlist', hplace, hothers⟩ := insert_changes hw hlist hlt hlt' hnot h
  have hsize : b.size = a.size := (insert_moved hw hlt hlt' h).2.size
  have hnd := hw.nodup block
  rw [hs.children_eq, map_cons] at hnd
  have hapart : ∀ u ∈ parts, ∀ y ∈ u.preorder, y ≠ list ∧ a.parent? s.entry ≠ some y := by
    intro u hu y hy
    refine ⟨?_, ?_⟩
    · rintro rfl
      exact hout (Rose.mem_preorder_of_mem (.tail _ hu) hy)
    · rw [hpar]
      intro he
      cases he
      exact hs.not_mem_child hw (.tail _ hu) hy
  refine ⟨hch.mono (fun x _ hx => hx.imp_right fun hp => ?_) fun _ _ hx => hx, hsize, ?_, hplace,
    ?_, fun hm => ?_⟩
  · rw [hpar] at hp
    exact (Option.some.inj hp).symm
  · rw [hlist']
    simp
  · refine .node (hsize ▸ hs.lt_size) ?_ fun u hu => ?_
    · rw [hothers block (Ne.symm hne), hs.children_eq, map_cons,
        filter_cons_of_neg (by simp), filter_ne_eq_self (nodup_cons.1 hnd).1]
    · refine hch.spans (hs.of_mem (.tail _ hu)) fun y hy hC => ?_
      obtain ⟨hyl, hyp⟩ := hapart u hu y hy
      exact hC.elim hyl hyp
  · rw [Rose.preorder_node, mem_cons, mem_flatMap] at hm
    rcases hm with he | ⟨u, hu, hm⟩
    · exact hne he
    · exact (hapart u hu list hm).1 rfl

/-- **The parts of a block are moved into a list one after the other.** -/
theorem insertAll_runs :
    ∀ (parts : List (Rose Nat)) (pre : List Nat) {v : View Unit},
      v.arena.WellFormed → v.arena.children list = pre ++ post → list < v.arena.size →
      v.arena.Spans (.node block parts) → list ∉ (Rose.node block parts).preorder →
      Steps.Runs (insertAll list pre.length (parts.map Rose.entry)) v fun _ v' =>
      ∃ a, v' = { v with arena := a } ∧ a.size = v.arena.size ∧
        Changes (fun x => x = list ∨ x = block) (· ∈ parts.map Rose.entry) v.arena a ∧
        a.children list = pre ++ parts.map Rose.entry ++ post ∧
        ∀ u ∈ parts, a.parent? u.entry = some list := by
  intro parts
  induction parts with
  | nil =>
    intro pre v hw hlist _ _ _
    refine ⟨(), v, rfl, v.arena, rfl, rfl, .refl hw, ?_, fun _ hm => (by cases hm)⟩
    rw [hlist, map_nil, append_nil]
  | cons s parts ih =>
    intro pre v hw hlist hlt hs hout
    rw [map_cons, insertAll]
    have hspan := hs.of_mem (.head _)
    have hlen : pre.length ≤ (v.arena.children list).length := by
      rw [hlist, length_append]
      exact Nat.le_add_right _ _
    have hfree : list ∉ s.preorder := fun hm =>
      hout (Rose.mem_preorder_of_mem (.head _) hm)
    obtain ⟨a₁, hinsert⟩ := exists_insert hw hlt hlen (hspan.not_under hw hfree)
    refine runs_perform_bind hinsert ?_
    obtain ⟨hch₁, hsize₁, hlist₁, hplace₁, hs₁, hout₁⟩ :=
      insertPart_changes hw hlist hlt hs hout hinsert
    have hpre : pre.length + 1 = (pre ++ [s.entry]).length := by simp
    rw [hpre]
    obtain ⟨_, _, hrun, a, rfl, hsize, hch, hchildren, hplaces⟩ := ih (pre ++ [s.entry])
      (v := { v with arena := a₁ }) hch₁.wellFormed hlist₁ (hsize₁ ▸ hlt) hs₁ hout₁
    have hnd := hw.nodup block
    rw [hs.children_eq, map_cons] at hnd
    have hfirst : s.entry ∉ parts.map Rose.entry := (nodup_cons.1 hnd).1
    refine ⟨_, _, hrun, a, rfl, hsize.trans hsize₁, ?_, ?_, fun u hu => ?_⟩
    · exact (hch₁.mono (fun _ _ hx => hx) fun x _ hx => hx ▸ (.head _)).trans hch
        (fun _ _ hx => hx) fun x _ hx => .tail _ hx
    · rw [hchildren]
      simp
    · rcases mem_cons.1 hu with rfl | hu
      · rw [hch.parent? _ (hsize₁ ▸ hspan.lt_size) hfirst]
        exact hplace₁
      · exact hplaces u hu

theorem findIdx?_of_nodup (h : (pre ++ node :: post).Nodup) :
    (pre ++ node :: post).findIdx? (· == node) = some pre.length := by
  have hpre : ∀ y ∈ pre, (y == node) = false := by
    intro y hy
    rw [beq_eq_false_iff_ne]
    exact (nodup_append.1 h).2.2 y hy node (.head _)
  rw [findIdx?_append, findIdx?_eq_none_iff.2 hpre]
  simp [findIdx?_cons]

/-- **The parts of a filled template in the place of a statement.** -/
theorem Drafted.insertAll {ts : List Tree} {r : Rose Nat} (hw₀ : a₀.WellFormed) (hs : a₀.Spans s)
    (hpar : a₀.parent? s.entry = some list) (hd : Drafted a₀ s (.node l ts) a r) :
    ∃ index a₁ parts, a.indexOf? list s.entry = some index ∧ a.remove list s.entry = .ok a₁ ∧
      a₁.children r.entry = parts.map Rose.entry ∧
      Steps.Runs (insertAll list index (parts.map Rose.entry)) { v with arena := a₁ } fun _ v' =>
        ∃ a₂, v' = { v with arena := a₂ } ∧ Rewrites a₀ s a₂ parts ∧ a₀.size < a₂.size ∧
          parts.map (Rose.map a₂.label) = ts := by
  obtain ⟨block, parts⟩ := r
  have hw := hd.changes.wellFormed
  have hlist : list ∉ s.preorder := fun hm =>
    hw₀.not_under_of_parent hpar ((hs.mem_preorder hw₀).1 hm)
  have hlt := hw₀.parent_lt hpar
  obtain ⟨pre, post, hsplit⟩ := append_of_mem ((hw₀.linked list s.entry).2 hpar)
  have hnd := hw₀.nodup list
  have hch : a.children list = pre ++ s.entry :: post := by
    rw [hd.changes.children list hlt hlist, hsplit]
  rw [hsplit] at hnd
  obtain ⟨hpost, hpre⟩ : s.entry ∉ post ∧ s.entry ∉ pre := by
    obtain ⟨-, hcons, hdis⟩ := nodup_append.1 hnd
    exact ⟨(nodup_cons.1 hcons).1, fun hm => hdis _ hm _ (.head _) rfl⟩
  have hindex : a.indexOf? list s.entry = some pre.length := by
    unfold indexOf?
    rw [hch, findIdx?_of_nodup hnd]
  have hlisted : s.entry ∈ a.children list := by
    rw [hch]
    exact mem_append_right _ (.head _)
  obtain ⟨a₁, hremove⟩ := exists_remove hlisted
  obtain ⟨-, hsize₁, hlabel₁, hchildren₁, hparent₁, hroot₁⟩ := remove_views hw hremove
  have hw₁ := hw.remove hremove
  -- the subtree's root is no part of the block, so the block stays as it is
  have hout : s.entry ∉ (Rose.node block parts).preorder := by
    intro hm
    rcases hd.ids _ hm with ⟨-, hne⟩ | hge
    · exact hne rfl
    · exact Nat.not_le_of_lt hs.lt_size hge
  have hspan₁ : a₁.Spans (.node block parts) := by
    refine hd.spans.congr (Nat.le_of_eq hsize₁.symm) fun y hy => ?_
    rw [hchildren₁, filter_ne_eq_self fun hm => hout (hd.spans.closed hy hm)]
  have hlist₁ : a₁.children list = pre ++ post := by
    rw [hchildren₁, hch, filter_append, filter_cons_of_neg (by simp),
      filter_ne_eq_self hpre, filter_ne_eq_self hpost]
  have hlt₁ : list < a₁.size := by
    rw [hsize₁]
    exact Nat.lt_of_lt_of_le hlt hd.changes.size
  have hparts₁ : a₁.children (Rose.node block parts).entry = parts.map Rose.entry :=
    hspan₁.children_eq
  have hold : ∀ y : Nat, y < a₀.size → y ∉ s.preorder → y ∉ (Rose.node block parts).preorder := by
    intro y hy hn hm
    rcases hd.ids y hm with ⟨hm, -⟩ | hge
    · exact hn hm
    · exact Nat.not_le_of_lt hy hge
  obtain ⟨_, _, hrun, a₂, rfl, hsize₂, hch₂, hlist₂, hplace₂⟩ := insertAll_runs parts pre
    (v := { v with arena := a₁ }) hw₁ hlist₁ hlt₁ hspan₁ (hold list hlt hlist)
  have hsub : ∀ u ∈ parts, ∀ y ∈ u.preorder, y ∈ (Rose.node block parts).preorder :=
    fun u hu y hy => Rose.mem_preorder_of_mem hu hy
  have hle : a₀.size ≤ a₁.size := hsize₁ ▸ hd.changes.size
  have hblock : ∀ y : Nat, y < a₀.size → y ≠ block := by
    rintro y hy rfl
    exact Nat.not_le_of_lt hy hd.fresh
  refine ⟨_, a₁, parts, hindex, hremove, hparts₁, _, _, hrun, a₂, rfl,
    ⟨hw₀, hs, hch₂.wellFormed, hsize₂ ▸ hle, fun u hu => ?_,
    fun u hu y hy => ?_, ?_, fun y hy hn => ?_, fun y hy hn => ?_, fun y hy hn => ?_,
    fun u hu => ?_, ?_⟩, ?_, ?_⟩
  · refine hch₂.spans (hspan₁.of_mem hu) fun y hy hC => ?_
    rcases hC with rfl | rfl
    · exact hold _ hlt hlist (hsub u hu _ hy)
    · exact hspan₁.not_mem_child hw₁ hu hy
  · exact (hd.ids y (hsub u hu y hy)).imp_left And.left
  · rw [← hparts₁]
    exact hw₁.nodup _
  · rw [hch₂.label y (Nat.lt_of_lt_of_le hy hle)]
    exact (hlabel₁ y).trans (hd.changes.label y hy)
  · by_cases hy' : y = list
    · subst hy'
      rw [hlist₂, hsplit, splice_at hnd]
    · have hfree : s.entry ∉ a₀.children y := by
        intro hm
        rw [hw₀.linked, hpar] at hm
        exact hy' (Option.some.inj hm).symm
      rw [hch₂.children y (Nat.lt_of_lt_of_le hy hle) (not_or.2 ⟨hy', hblock y hy⟩),
        splice_eq_self hfree]
      change a₁.children y = _
      rw [hchildren₁, hd.changes.children y hy hn, filter_ne_eq_self hfree]
  · have hnone : y ∉ parts.map Rose.entry := by
      intro hm
      obtain ⟨u, hu, rfl⟩ := mem_map.1 hm
      exact hold _ hy hn (hsub u hu _ u.entry_mem_preorder)
    have hne : y ≠ s.entry := fun he => hn (he ▸ s.entry_mem_preorder)
    rw [hch₂.parent? y (Nat.lt_of_lt_of_le hy hle) hnone]
    change a₁.parent? y = _
    rw [hparent₁, if_neg hne, hd.changes.parent? y hy fun hm => hn hm.1]
  · rw [hplace₂ u hu, hpar]
  · rw [hch₂.root?]
    exact hroot₁.trans hd.changes.root?
  · rw [show a₂.size = _ from hsize₂.trans hsize₁]
    exact Nat.lt_of_le_of_lt hd.fresh hd.spans.lt_size
  · have htree := hd.tree_eq
    rw [Rose.map_node, Rose.node.injEq] at htree
    rw [← htree.2]
    refine map_congr_left fun u hu => Rose.map_congr fun y hy => ?_
    rw [hch₂.label y ((hspan₁.of_mem hu).lt_size_of_mem y hy)]
    exact hlabel₁ y

/-- **An assignment to a swizzle is split in place.** -/
theorem splitAssignment_runs {b : Rose Nat} {ms more : List (Rose Nat)}
    (ht : Templates v.context.types) (hwidth : sw.width ≤ 4) (hindices : ∀ i ∈ sw.indices, i < 4)
    (hw : v.arena.WellFormed)
    (hs : v.arena.Spans (.node id (.node target (b :: ms) :: val :: more)))
    (hpar : v.arena.parent? id = some list) :
    Steps.Runs (splitAssignment list id b.entry val.entry sw) v fun flow v' =>
      v'.context = v.context ∧ ∃ parts, flow = .replaced (parts.map Rose.entry) ∧
        Rewrites v.arena (.node id (.node target (b :: ms) :: val :: more)) v'.arena parts ∧
        v.arena.size < v'.arena.size ∧ parts.map (Rose.map v'.arena.label) =
          splitTrees (v.arena.pos id) sw (b.map v.arena.label) (val.map v.arena.label) := by
  unfold splitAssignment
  refine .get_bind ((writeStatements_runs ht hwidth hindices hw hs (v.arena.pos id)).bind ?_)
  rintro _ _ ⟨a, r, rfl, rfl, hd⟩
  obtain ⟨index, a₁, parts, hindex, hremove, hparts, hrun⟩ := hd.insertAll (v := v) hw hs hpar
  refine .get_bind ?_
  rw [show ({ v with arena := a } : View Unit).arena.indexOf? list id = some index from hindex]
  refine runs_perform_bind hremove (.get_bind ?_)
  rw [show ({ v with arena := a₁ } : View Unit).arena.children r.entry = _ from hparts]
  refine hrun.bind ?_
  rintro _ _ ⟨a₂, rfl, hrw, hsize, htrees⟩
  exact Steps.runs_pure ⟨rfl, parts, rfl, hrw, hsize, htrees⟩

end Split

/-! ### The hook -/

variable {v v' : View Unit}

theorem writeRule_of_kind {σ : Names} {p : Place} {t : Tree} (h : t.entry.kind ≠ .assign) :
    writeRule types σ p t = .keep := by
  match t with
  | .node _ [] => rfl
  | .node _ [_] => rfl
  | .node _ (_ :: _ :: _) => exact if_neg h

/-- **The hook of the writes does in place what the rule does to trees**, and fails only with
faults of the program. -/
theorem writeHook_refines (ht : Templates types) :
    Refines Reported (fun _ _ => True) writeHook types (writeRule types) := by
  intro v s hw hs htypes
  obtain ⟨node, ss⟩ := s
  rw [Rose.map_node, Rose.entry]
  unfold writeHook
  refine .get_bind ?_
  -- the hook and the rule make the same tests, one on the arena and one on its tree
  by_cases hk : v.arena.kind node = .assign
  swap
  · rw [if_neg hk, writeRule_of_kind (t := .node (v.arena.label node) _) hk]
    exact Does.keep rfl rfl
  rw [if_pos hk]
  unfold lowerWrite
  refine .get_bind ?_
  simp only [child?_eq hs]
  rcases ss with _ | ⟨⟨tid, ts⟩, _ | ⟨val, more⟩⟩
  · exact Does.keep rfl rfl
  · exact Does.keep rfl rfl
  simp only [getElem?_cons_zero, getElem?_cons_succ, Option.map_some]
  rw [show (Rose.node tid ts).entry = tid from rfl, map_cons, map_cons, writeRule,
    if_pos (show (v.arena.label node).kind = .assign from hk), Rose.map_node]
  have htarget := hs.of_mem (.head _)
  by_cases hm : v.arena.kind tid = .member
  swap
  · have hnone : swizzleTarget? (.node (v.arena.label tid) (ts.map (Rose.map v.arena.label))) =
        none := by
      cases ts with
      | nil => rfl
      | cons b ms => exact if_neg hm
    rw [if_neg hm, hnone]
    exact Does.keep rfl rfl
  rw [if_pos hm, memberName?_eq htarget]
  cases ts with
  | nil => exact Does.keep rfl rfl
  | cons b ms =>
    have hswizzle : swizzleTarget? (.node (v.arena.label tid)
        ((b :: ms).map (Rose.map v.arena.label))) =
        ((memberOf? ((b :: ms).map (Rose.map v.arena.label))).bind ofMember?).map
          (b.map v.arena.label, ·) := if_pos hm
    rw [hswizzle]
    cases hname : memberOf? ((b :: ms).map (Rose.map v.arena.label)) with
    | none => exact Does.keep rfl rfl
    | some member =>
      rw [Option.bind_some]
      simp only
      cases hsw : ofMember? member with
      | none => exact Does.keep rfl rfl
      | some sw =>
        simp only [Option.map_some, Rose.entry_map]
        have hfault : Reported v.context.filename (v.context.locateAt v.arena node
            (.semantic (.swizzleNotStatement member))) := reported_locate _ _ (.notStatement member)
        have hcases := arrayBase?_cases id htarget
        rw [htypes, show v.context.names (id ((v.arena.name? b.entry).getD "")) =
          v.context.names ((v.arena.label b.entry).name?.getD "") from rfl] at hcases
        rcases hcases with ⟨array, harray, hbase⟩ | ⟨harray, e, hbase, hunknown⟩
        swap
        · rw [hbase, harray]
          exact ⟨(fun h => by cases h), fun _ => ⟨hunknown, rfl⟩⟩
        rw [hbase, harray]
        cases array with
        | false => exact Does.keep rfl rfl
        | true =>
          -- only a statement can be split; anywhere else both of them refuse
          have hreject : v.arena.parent? node = none ∨ (∃ list, v.arena.parent? node = some list ∧
              v.arena.kind list ≠ .block) → placeOf v.arena node ≠ .statement := by
            unfold placeOf
            rintro (hpar | ⟨list, hpar, hblock⟩) hplace
            · rw [hpar] at hplace
              cases hplace
            · rw [hpar] at hplace
              exact hblock (below_eq_statement.1 hplace)
          simp only [if_true]
          cases hpar : v.arena.parent? node with
          | none =>
            simp only [if_neg (hreject (.inl hpar))]
            exact ⟨(fun h => by cases h), fun _ => ⟨hfault, rfl⟩⟩
          | some list =>
            simp only
            by_cases hblock : v.arena.kind list = .block
            swap
            · rw [if_neg hblock]
              simp only [if_neg (hreject (.inr ⟨list, hpar, hblock⟩))]
              exact ⟨(fun h => by cases h), fun _ => ⟨hfault, rfl⟩⟩
            rw [if_pos hblock]
            have hplace : placeOf v.arena node = .statement := by
              unfold placeOf
              rw [hpar]
              exact below_eq_statement.2 hblock
            obtain ⟨-, hwidth, hindices⟩ := ofMember?_bounds hsw
            obtain ⟨_, _, hrun, hctx, parts, rfl, hrw, hsize, htrees⟩ :=
              splitAssignment_runs (htypes ▸ ht) hwidth hindices hw hs hpar
            simp only [if_pos hplace]
            exact Steps.Runs.ends ⟨_, _, hrun, .replace hctx hrw hsize (.inr hplace) htrees⟩

end Swizzle

end VecLang
