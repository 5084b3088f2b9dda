import VecLang.Proofs.Emit.RoundTrip
import VecLang.Proofs.Emit.Slots
import VecLang.Proofs.Swizzle.Expressions

/-!
# Expressions in scripts

The text of an expression in a script is that of the language, with two differences: a name
that refers to an output is written as an element of `__outs`, and a conditional expression
has parentheses around its parts. So it can be read again as an expression of the language,
and what is read is the expression with elements of `__outs` in the place of these names.

* `resolve`: the expression as a script refers to its names.
* `expression_written`: the text of an expression writes what it resolves to.
* `expression_reads_iff`: the text of each expression of a compiled program reads back if and
  only if names stand in the places of names.
-/

namespace VecLang.Emit.JavaScript

open Grammar VecLang.Tree Swizzle Source List

/-! ### What names refer to -/

section Resolve

variable (ctx : Context) (scopes : ScopeStack)

/-- What a name refers to: an element of `__outs` if it is an output, or itself. -/
def reference (l : Label) : Tree :=
  match l.name?.bind (outputPlace? ctx scopes) with
  | some k => elementTree l.pos (nameTree l.pos "__outs") k
  | none => .node l []

mutual

/-- The tree with its references, in a place for a name or in one for an expression. -/
def resolveAt (named : Bool) : Tree → Tree
  | .node l ts =>
    if l.kind = .ident then if named then .node l ts else reference ctx scopes l
    else .node l (resolveFrom l.kind 0 ts)

def resolveFrom (k : Kind) (i : Nat) : List Tree → List Tree
  | [] => []
  | t :: ts => resolveAt (k.isNamePlace i) t :: resolveFrom k (i + 1) ts

end

/-- **The expression as a script refers to its names.** Names of functions and members are
written as they are. -/
def resolve (t : Tree) : Tree := resolveAt ctx scopes false t

end Resolve

variable {ctx : Context} {options : Options} {scopes : ScopeStack} {types : TypeTable} {t : Tree}

/-! ### Resolved trees -/

theorem resolveFrom_eq_mapIdx (k : Kind) (i : Nat) (ts : List Tree) :
    resolveFrom ctx scopes k i ts =
      ts.mapIdx fun j t => resolveAt ctx scopes (k.isNamePlace (i + j)) t := by
  induction ts generalizing i with
  | nil => rfl
  | cons t ts ih =>
    rw [resolveFrom, ih, mapIdx_cons]
    simp only [Nat.add_zero, Nat.add_assoc, Nat.add_comm 1]

theorem resolveAt_node {l : Label} (hl : l.kind ≠ .ident) (named : Bool) (ts : List Tree) :
    resolveAt ctx scopes named (.node l ts) =
      .node l (ts.mapIdx fun i t => resolveAt ctx scopes (l.kind.isNamePlace i) t) := by
  rw [resolveAt, if_neg hl, resolveFrom_eq_mapIdx]
  simp only [Nat.zero_add]

theorem kind_resolveAt (t : Tree) (named : Bool) :
    (resolveAt ctx scopes named t).kind = t.kind ∨
      t.kind = .ident ∧ named = false ∧ (resolveAt ctx scopes named t).kind = .index := by
  obtain ⟨l, ts⟩ := t
  by_cases hl : l.kind = .ident
  · rw [resolveAt, if_pos hl]
    cases named with
    | true => exact .inl rfl
    | false =>
      unfold reference
      cases l.name?.bind (outputPlace? ctx scopes) with
      | none => exact .inl rfl
      | some k => exact .inr ⟨hl, rfl, rfl⟩
  · rw [resolveAt_node hl]
    exact .inl rfl

theorem kind_resolve_ne {k : Kind} (hk : t.kind ≠ k) (hindex : k ≠ .index) :
    (resolve ctx scopes t).kind ≠ k := by
  have hkinds : (resolve ctx scopes t).kind = t.kind ∨ _ := kind_resolveAt t false
  rcases hkinds with heq | ⟨-, -, heq⟩
  · exact fun he => hk (heq.symm.trans he)
  · exact fun he => hindex (he.symm.trans heq)

theorem resolve_args (pos : Pos) (ts : List Tree) :
    resolve ctx scopes (.plain .args pos ts) = .plain .args pos (ts.map (resolve ctx scopes)) := by
  have hfrom : ∀ i, resolveFrom ctx scopes .args i ts = ts.map (resolve ctx scopes) := by
    induction ts with
    | nil => exact fun _ => rfl
    | cons t ts ih => exact fun i => congrArg _ (ih (i + 1))
  exact congrArg (Tree.plain .args pos) (hfrom 0)

theorem strength_resolve (t : Tree) : strength (resolve ctx scopes t) = strength t := by
  obtain ⟨l, ts⟩ := t
  unfold resolve
  by_cases hl : l.kind = .ident
  · have hatom : strength (.node l ts) = atomStrength := by
      unfold strength
      rw [Tree.kind_node, hl]
    rw [hatom, resolveAt, if_pos hl]
    unfold reference
    cases l.name?.bind (outputPlace? ctx scopes) with
    | none =>
      unfold strength
      rw [if_neg (by decide), Tree.kind_node, hl]
    | some k => rfl
  · rw [resolveAt_node hl]
    rfl

/-! ### Expressions and their texts -/

/-- Nothing about the root of the tree is lost in its text: a script has no parentheses around an
assignment that is a target, a point behind an integer belongs to the number, and a float is
rounded to its places. -/
structure Unambiguous (places : Nat) (t : Tree) : Prop where
  target : t.kind = .assign → ∀ u : Tree, u ∈ t.children[0]? → u.kind ≠ .assign
  base : t.kind = .member → ∀ u : Tree, u ∈ t.children[0]? → u.kind ≠ .intConst
  number : t.kind = .floatConst → ∀ x, t.entry.value = some (.float x) → ReadsBack places x

instance (places : Nat) (t : Tree) : Decidable (Unambiguous places t) :=
  decidable_of_iff
    ((t.kind = .assign → ∀ u : Tree, u ∈ t.children[0]? → u.kind ≠ .assign) ∧
      (t.kind = .member → ∀ u : Tree, u ∈ t.children[0]? → u.kind ≠ .intConst) ∧
      (t.kind = .floatConst → ∀ x, t.entry.value = some (.float x) → ReadsBack places x))
    ⟨fun h => ⟨h.1, h.2.1, h.2.2⟩, fun h => ⟨h.target, h.base, h.number⟩⟩

/-- The script has the text for the expression, and the text writes what the expression resolves
to, at the level of its strength. -/
structure Scripts (ctx : Context) (options : Options) (scopes : ScopeStack) (types : TypeTable)
    (t : Tree) (s : String) : Prop where
  shape : IsExpression types (resolve ctx scopes t)
  printed : expression ctx options scopes t = .ok s
  written : Written types (min (strength t) 10) s.toList (resolve ctx scopes t)

theorem Scripts.whole {s : String} (h : Scripts ctx options scopes types t s) :
    Written types 1 s.toList (resolve ctx scopes t) := by
  have hbounds := strength_bounds h.shape
  rw [strength_resolve] at hbounds
  exact h.written.mono (Nat.le_refl 1) (by omega) (by omega)

theorem lists_arguments : Lists (expression ctx options scopes) (arguments ctx options scopes) :=
  ⟨rfl, fun _ => rfl, fun _ _ _ => rfl⟩

section Cases

variable {pos : Pos} {s s' s'' : String} {a b c : Tree}

theorem expression_operation {op : Operator} (hne : op ≠ .member) (pos : Pos) (a b : Tree) :
    expression ctx options scopes (.operated .binary pos op [a, b]) = (do
      let left ← expression ctx options scopes a
      let right ← expression ctx options scopes b
      return Emit.parenthesized (needsParens op .left a) left ++ (" " ++ op.symbol ++ " ") ++
        Emit.parenthesized (needsParens op .right b) right) := by
  change (do
    let left ← expression ctx options scopes a
    if op = Operator.member ∧ b.entry.kind = Kind.ident then
      return Emit.parenthesized (needsParens op .left a) left ++ "." ++ (← nameOf ctx b.entry)
    else
      let right ← expression ctx options scopes b
      let between := if op = Operator.member then "." else " " ++ op.symbol ++ " "
      return Emit.parenthesized (needsParens op .left a) left ++ between ++
        Emit.parenthesized (needsParens op .right b) right) = _
  simp only [hne, false_and, if_false]

theorem printsAs_ternary {a' b' c' : Tree} (ha : PrintsAs (expression ctx options scopes) types a a' s)
    (hb : PrintsAs (expression ctx options scopes) types b b' s')
    (hc : PrintsAs (expression ctx options scopes) types c c' s'') :
    PrintsAs (expression ctx options scopes) types (.plain .ternary pos [a, b, c])
      (.plain .ternary pos [a', b', c']) ("((" ++ s ++ ") ? (" ++ s' ++ ") : (" ++ s'' ++ "))") := by
  -- so they are atoms, and so is the whole
  have hpart : ∀ {t u : Tree} {x : String}, PrintsAs (expression ctx options scopes) types t u x →
      ∀ k, 1 ≤ k → k ≤ 11 → Written types k ('(' :: (x.toList ++ [')'])) u :=
    fun h k hk hk' => (Written.parens h.whole).mono hk hk' (Nat.le_refl 11)
  have hw : Written types 2 _ (.plain .ternary pos [a', b', c']) :=
    .ternary (hpart ha 3 (by decide) (by decide)) (hpart hb 1 (by decide) (by decide))
      (hpart hc 2 (by decide) (by decide))
  refine .of (.ternary ha.shape hb.shape hc.shape) ?_ rfl ?_
    (Written.atom (.parens (hw.looser (Nat.le_refl 1) (by decide))))
  · change (do
      let cond ← expression ctx options scopes a
      let yes ← expression ctx options scopes b
      let no ← expression ctx options scopes c
      return "((" ++ cond ++ ") ? (" ++ yes ++ ") : (" ++ no ++ "))") = _
    rw [ha.printed, hb.printed, hc.printed]
    rfl
  · simp

theorem resolve_application {apos : Pos} {callee : Tree}
    (hcallee : resolveAt ctx scopes true callee = callee) (args : List Tree) :
    resolve ctx scopes (.plain .call pos [callee, .plain .args apos args]) =
      .plain .call pos [callee, .plain .args apos (args.map (resolve ctx scopes))] := by
  have happlied : resolve ctx scopes (.plain .call pos [callee, .plain .args apos args]) =
      .plain .call pos [resolveAt ctx scopes true callee,
        resolve ctx scopes (.plain .args apos args)] := rfl
  rw [happlied, hcallee, resolve_args]

end Cases

/-! ### Names -/

theorem outputPlace?_lt {n : String} {k : Nat} (h : outputPlace? ctx scopes n = some k) :
    k < (Bindings.ofSlots ctx.slots).outputCount := by
  obtain ⟨pre, post, hsplit, -⟩ := lookup_eq_some_iff.1 (place?_of_outputPlace? h)
  have hmem : (n, k) ∈ ctx.slots.outputs.keys.zipIdx := by
    have hin : (n, k) ∈ pre ++ (n, k) :: post := mem_append_right _ (.head _)
    rwa [← hsplit] at hin
  have hlt := snd_lt_of_mem_zipIdx hmem
  unfold Bindings.outputCount Bindings.ofSlots
  rw [length_zipIdx]
  omega

theorem isName_outs : IsName "__outs" := ⟨by decide, by decide, by decide⟩

theorem scripts_name {pos : Pos} {n : String} (houts : types.get? "__outs" = none)
    (hcount : (Bindings.ofSlots ctx.slots).outputCount ≤ maxInt) (hn : IsName n)
    (hget : types.get? n = none) :
    ∃ s, Scripts ctx options scopes types (nameTree pos n) s := by
  have hprinted : expression ctx options scopes (nameTree pos n) = .ok (identText ctx scopes n) := rfl
  let l : Label := { kind := .ident, pos := pos, value := some (.name n) }
  have hresolve : resolve ctx scopes (nameTree pos n) = reference ctx scopes l := rfl
  have hname : l.name?.bind (outputPlace? ctx scopes) = outputPlace? ctx scopes n := rfl
  unfold identText at hprinted
  unfold reference at hresolve
  rw [hname] at hresolve
  cases hplace : outputPlace? ctx scopes n with
  | none =>
    rw [hplace] at hprinted hresolve
    refine ⟨n, ?_, hprinted, ?_⟩
    · rw [hresolve]
      exact .name hn hget
    · rw [hresolve]
      exact Written.atom (.name hn hget)
  | some k =>
    rw [hplace] at hprinted hresolve
    have hk : k ≤ maxInt := Nat.le_trans (Nat.le_of_lt (outputPlace?_lt hplace)) hcount
    have hw : Written types 10 _ (elementTree pos (nameTree pos "__outs") k) :=
      .index (Written.atom (.name isName_outs houts))
        ((Written.int hk).mono (Nat.le_refl 1) (by decide) (Nat.le_refl 11))
    refine ⟨"__outs[" ++ toString k ++ "]", ?_, hprinted, ?_⟩
    · rw [hresolve]
      exact .index (.name isName_outs houts) (.int hk)
    · rw [hresolve]
      change Written types 10 _ (elementTree pos (nameTree pos "__outs") k)
      simpa using hw

/-! ### All expressions -/

/-- **The text of an expression writes what the expression resolves to.** -/
theorem expression_written (ctx : Context) (scopes : ScopeStack) (hty : SelfNamed types)
    (houts : types.get? "__outs" = none)
    (hcount : (Bindings.ofSlots ctx.slots).outputCount ≤ maxInt)
    (hp : 1 ≤ options.floatPrecision) (h : IsExpression types t) :
    (∀ u ∈ t.subtrees, Unambiguous options.floatPrecision u) →
      ∃ s, Scripts ctx options scopes types t s := by
  intro hl
  suffices hprints : IsExpression types (resolve ctx scopes t) ∧
      ∃ s, PrintsAs (expression ctx options scopes) types t (resolve ctx scopes t) s from
    hprints.2.imp fun _ hs => ⟨hprints.1, hs.printed, hs.written⟩
  induction h with
  | @int pos n hn =>
    exact ⟨.int hn, toString n, .of (.int hn) rfl rfl (by simp) (Written.atom (.int hn))⟩
  | @float pos x =>
    have hread := (hl _ (Rose.self_mem_subtrees _)).number rfl x rfl
    obtain ⟨whole, frac, htext, hw, hf, hne, hfin, rfl⟩ := hread.fixed hp
    exact ⟨.float, _, .of .float rfl rfl htext (Written.atom (.float hw hf hne hfin))⟩
  | @bool pos b => exact ⟨.bool, _, .of .bool rfl rfl rfl (Written.atom (.bool b))⟩
  | name hn hget =>
    obtain ⟨s, hs⟩ := scripts_name houts hcount hn hget
    exact ⟨hs.shape, s, .of (.name hn hget) hs.printed rfl rfl hs.written⟩
  | @construct pos tpos apos n ty args hn hget hargs ih =>
    have hall := fun t ht => ih t ht (legible_child (legible_child hl (.tail _ (.head _))) ht)
    have hresolve : resolve ctx scopes (.plain .call pos
        [.valued .varType tpos (.type ty) [], .plain .args apos args]) = _ :=
      resolve_application rfl args
    refine ⟨?_, PrintsAs.application lists_arguments ?_ (.construct hn hget hargs)
      (fun items hall => Written.atom (.construct items hn hget hall)) hresolve
      fun t ht => (hall t ht).2⟩
    · rw [hresolve]
      exact .construct hn hget (forall_mem_map.2 fun t ht => (hall t ht).1)
    · rw [← (hty _ _ hget).1]
      rfl
  | @call pos fpos apos n args hn hget hargs ih =>
    have hall := fun t ht => ih t ht (legible_child (legible_child hl (.tail _ (.head _))) ht)
    have hresolve : resolve ctx scopes (.plain .call pos
        [.valued .ident fpos (.name n) [], .plain .args apos args]) = _ :=
      resolve_application rfl args
    refine ⟨?_, PrintsAs.application lists_arguments rfl (.call hn hget hargs)
      (fun items hall => .call items (Written.atom (.name hn hget)) rfl hall) hresolve
      fun t ht => (hall t ht).2⟩
    rw [hresolve]
    exact .call hn hget (forall_mem_map.2 fun t ht => (hall t ht).1)
  | index _ _ iha ihb =>
    obtain ⟨ha, s, hs⟩ := iha (legible_child hl (by simp))
    obtain ⟨hb, s', hs'⟩ := ihb (legible_child hl (by simp))
    exact ⟨.index ha hb, _, .index rfl hs hs'⟩
  | @member pos mpos a m _ hm ih =>
    obtain ⟨ha, s, hs⟩ := ih (legible_child hl (by simp))
    have hbase := (hl _ (Rose.self_mem_subtrees _)).base rfl a rfl
    exact ⟨.member ha hm, _, .member rfl hs (kind_resolve_ne hbase (by decide)) hm⟩
  | unary hop _ ih =>
    obtain ⟨ha, s, hs⟩ := ih (legible_child hl (by simp))
    exact ⟨.unary hop ha, _, .unary rfl hop hs⟩
  | @binary pos op a b hop _ _ iha ihb =>
    obtain ⟨ha, s, hs⟩ := iha (legible_child hl (by simp))
    obtain ⟨hb, s', hs'⟩ := ihb (legible_child hl (by simp))
    exact ⟨.binary hop ha hb, _, .binary (fun hne => expression_operation hne pos a b) hop hs hs'⟩
  | ternary _ _ _ iha ihb ihc =>
    obtain ⟨ha, s, hs⟩ := iha (legible_child hl (by simp))
    obtain ⟨hb, s', hs'⟩ := ihb (legible_child hl (by simp))
    obtain ⟨hc, s'', hs''⟩ := ihc (legible_child hl (by simp))
    exact ⟨.ternary ha hb hc, _, printsAs_ternary hs hs' hs''⟩
  | @assign pos a b _ _ iha ihb =>
    obtain ⟨ha, s, hs⟩ := iha (legible_child hl (by simp))
    obtain ⟨hb, s', hs'⟩ := ihb (legible_child hl (by simp))
    exact ⟨.assign ha hb, _,
      .assign rfl hs hs' ((hl _ (Rose.self_mem_subtrees _)).target rfl a rfl)⟩

/-! ### Names that stand in their places -/

theorem wellNamed_unplaced (t : Tree) : WellNamed (Tree.unplaced t) ↔ WellNamed t := by
  induction t using Rose.induction with
  | node l ts ih =>
    have hnode : Tree.unplaced (.node l ts) = .node l.unplaced (ts.map Tree.unplaced) := by
      simp [Tree.unplaced]
    rw [hnode, wellNamed_node, wellNamed_node, forall_mem_map]
    refine and_congr ?_ (forall₂_congr ih)
    have hkind : ∀ u : Tree, (Tree.unplaced u).kind = u.kind := fun u => by
      obtain ⟨l, us⟩ := u
      rfl
    unfold NamesStand
    constructor
    · intro h i u hu hplace
      rw [← hkind u]
      exact h i _ (by rw [getElem?_map, hu]; rfl) hplace
    · intro h i u hu hplace
      rw [getElem?_map] at hu
      obtain ⟨w, hw, rfl⟩ := Option.map_eq_some_iff.1 hu
      rw [hkind w]
      exact h i w hw hplace

/-- If names stand in the places of names with outputs in the place of theirs, then they did
before. -/
theorem wellNamed_of_resolveAt {named : Bool} (hf : Formed types t)
    (h : WellNamed (resolveAt ctx scopes named t)) : WellNamed t := by
  induction t using Rose.induction generalizing named with
  | node l ts ih =>
    by_cases hl : l.kind = .ident
    · exact hf.wellNamed_of_ident hl
    · rw [resolveAt_node hl] at h
      obtain ⟨hroot, hbelow⟩ := wellNamed_node.1 h
      refine wellNamed_node.2 ⟨fun i w hi hplace => ?_, fun w hw => ?_⟩
      · have hstand := hroot i _ (by rw [getElem?_mapIdx, hi]; rfl) hplace
        rcases kind_resolveAt w (l.kind.isNamePlace i) with heq | ⟨hident, -⟩
        · rwa [heq] at hstand
        · exact .inl hident
      · obtain ⟨i, hi⟩ := mem_iff_getElem?.1 hw
        refine ih w hw (hf.of_mem hw) (hbelow (resolveAt ctx scopes (l.kind.isNamePlace i) w) ?_)
        refine mem_iff_getElem?.2 ⟨i, ?_⟩
        rw [getElem?_mapIdx, hi]
        rfl

/-! ### Texts that are read again -/

/-- **The text of the expression keeps its tree.** There is a text, and whatever is read before it,
it is read as the expression with elements of `__outs` in the place of outputs, apart from
positions. -/
def KeepsTree (ctx : Context) (options : Options) (scopes : ScopeStack) (e : Tree) : Prop :=
  ∃ s, expression ctx options scopes e = .ok s ∧
    ∀ (text file : String) (a : Arena), a.WellFormed →
      ∃ b id, (Context.new text file).parse a .expression s = .ok (b, id) ∧
        (b.tree id).unplaced = (resolve ctx scopes e).unplaced

/-- What is visible under the name is the output with the place `k`. -/
def RefersToOutput (ctx : Context) (scopes : ScopeStack) (name : String) (k : Nat) : Prop :=
  ctx.slots.outputs.keys[k]? = some name ∧
    ∃ slot b, ctx.slots.outputs.get? name = some slot ∧ scopes.get? name = some b ∧
      b.decl? = some slot.decl

theorem outputPlace?_eq_some_iff (h : (ctx.slots.all.map Prod.fst).Nodup) {name : String}
    {k : Nat} : outputPlace? ctx scopes name = some k ↔ RefersToOutput ctx scopes name k := by
  rw [RefersToOutput, ← Bindings.place?_ofSlots h]
  unfold outputPlace?
  constructor
  · intro hplace
    refine ⟨place?_of_outputPlace? hplace, ?_⟩
    split at hplace
    · next slot b hslot hb =>
      split at hplace
      · next hdecl => exact ⟨slot, b, hslot, hb, hdecl⟩
      · cases hplace
    · cases hplace
  · rintro ⟨hplace, slot, b, hslot, hb, hdecl⟩
    rw [hslot, hb]
    exact (if_pos hdecl).trans hplace

theorem parse_expression_shape {ctx : Context} {a b : Arena} {id : NodeId} {s : String}
    (ha : a.WellFormed) (h : ctx.parse a .expression s = .ok (b, id)) :
    IsExpression ctx.types (b.tree id) := by
  exact Context.parseTree_shape (Context.parse_eq_ok ha h).1

theorem keepsTree_of_isExpression (scopes : ScopeStack)
    (hcount : (Bindings.ofSlots ctx.slots).outputCount ≤ maxInt)
    (hp : 1 ≤ options.floatPrecision) (h : IsExpression Builtin.types t)
    (hl : ∀ u ∈ t.subtrees, Unambiguous options.floatPrecision u) :
    KeepsTree ctx options scopes t := by
  obtain ⟨s, hs⟩ := expression_written ctx scopes selfNamed_builtin (by decide) hcount hp h hl
  refine ⟨s, hs.printed, fun text file a ha => ?_⟩
  have hwritten : Written (Context.new text file).types 1 s.toList _ := hs.whole
  obtain ⟨u, hu, hunplaced⟩ := Context.parseTree_expression hwritten
  obtain ⟨b, id, hparse, htree⟩ := Context.exists_parse ha hu
  exact ⟨b, id, hparse, by rw [htree, hunplaced]⟩

theorem KeepsTree.wellNamed (h : KeepsTree ctx options scopes t) (hf : Formed types t) :
    WellNamed t := by
  obtain ⟨s, -, hread⟩ := h
  obtain ⟨b, id, hparse, hunplaced⟩ := hread "" "" {} Arena.wellFormed_empty
  have hshape := parse_expression_shape Arena.wellFormed_empty hparse
  have hnamed := (wellNamed_unplaced _).2 (hshape.wellNamed closed_builtin)
  rw [hunplaced, wellNamed_unplaced] at hnamed
  exact wellNamed_of_resolveAt hf hnamed

/-- **Texts of expressions keep their trees.** Take any compiled program, with the lowering of
swizzles or without, and any of its expressions in which no target is an assignment, no member is
selected from an integer and each float reads back. Its text in a script is read again as the
expression with `__outs[k]` for each name that refers to the `k`-th output, if and only if what is
called and what is selected in it has a name. That holds if nothing was lowered and if the source
has no name of a placeholder. -/
theorem expression_reads_iff (options : Options) {source filename : String} {lowerSwizzles : Bool} {p : Program}
    (h : compile source { filename, lowerSwizzles, passes := [] } = .ok p)
    (hcount : p.context.slots.outputs.size ≤ maxInt) (hp : 1 ≤ options.floatPrecision) :
    ∃ p₀ root, parseProgram source filename = .ok p₀ ∧ p₀.arena.root? = some root ∧
      p.arena.root? = some root ∧
      (∀ scopes name k, outputPlace? p.context scopes name = some k ↔
        RefersToOutput p.context scopes name k) ∧
      ∀ scopes e, HasExpression (p.arena.tree root) e →
        (∀ u ∈ e.subtrees, Unambiguous options.floatPrecision u) →
        (KeepsTree p.context options scopes e ↔ WellNamed e) ∧
          ((lowerSwizzles = true → Avoids (p₀.arena.tree root)) → WellNamed e) := by
  obtain ⟨p₀, root, hparse, hroot₀, hroot, htypes, hexpr⟩ := compile_expressions h
  have hnodup : (p.context.slots.all.map Prod.fst).Nodup := by
    obtain ⟨p₁, -, hparse₁, -, -, hslots, -⟩ := compile_sameTop h
    obtain ⟨_, -, hfiled⟩ := parseProgram_filed hparse₁
    rw [hslots]
    exact hfiled.nodup
  refine ⟨p₀, root, hparse, hroot₀, hroot, fun scopes name k => outputPlace?_eq_some_iff hnodup,
    fun scopes e he hl => ?_⟩
  obtain ⟨hfilled, hshape⟩ := hexpr e he
  refine ⟨⟨fun hkeeps => hkeeps.wellNamed (hfilled.formed closed_builtin).1, fun hnamed => ?_⟩,
    fun havoids => (hshape havoids).wellNamed closed_builtin⟩
  have hexpression := hfilled.isExpression closed_builtin hnamed
  refine keepsTree_of_isExpression scopes ?_ hp hexpression hl
  rwa [Bindings.outputCount_ofSlots]

/-- A program that computes with its output, in the branches of a condition too. -/
def computedText : String :=
  "out float r; in vec2 q; void main() { r = (q.x > 0.5 ? -(r - q[1] * (2 - r)) : (r = 2)) - sin(r); }"

theorem expression_reads_computed : ∃ p root e,
    compile computedText { filename := "", lowerSwizzles := true, passes := [] } = .ok p ∧
      p.arena.root? = some root ∧ HasExpression (p.arena.tree root) e ∧
      (∀ u ∈ e.subtrees, Unambiguous 7 u) ∧ p.context.slots.outputs.size ≤ maxInt ∧
      expression p.context {} p.context.scopes e = .ok
        "__outs[0] = ((q[0] > 0.5000000) ? (-(__outs[0] - q[1] * (2 - __outs[0]))) : (__outs[0] = 2)) - sin(__outs[0])" ∧
      RefersToOutput p.context p.context.scopes "r" 0 ∧
      KeepsTree p.context {} p.context.scopes e := by
  have hcheck : (parseProgram computedText "" >>= fun p₀ =>
      p₀.runPasses [Pass.lowerSwizzles] >>= fun p => pure (decide (
        Avoids (p₀.arena.tree 0) ∧ p.arena.root? = some 0 ∧
        p.context.slots.outputs.size ≤ maxInt ∧
        (p.arena.tree 0).children[2]? = some (p.arena.tree 5) ∧
        (p.arena.tree 5).children[2]? = some (p.arena.tree 8) ∧
        (p.arena.tree 8).children[0]? = some (p.arena.tree 9) ∧
        (p.arena.tree 0).kind = .block ∧ (p.arena.tree 5).kind = .function ∧
        (p.arena.tree 8).kind = .block ∧ (p.arena.tree 9).kind = .assign ∧
        (∀ u ∈ (p.arena.tree 9).subtrees, Unambiguous 7 u) ∧
        outputPlace? p.context p.context.scopes "r" = some 0 ∧
        expression p.context {} p.context.scopes (p.arena.tree 9) = .ok
          "__outs[0] = ((q[0] > 0.5000000) ? (-(__outs[0] - q[1] * (2 - __outs[0]))) : (__outs[0] = 2)) - sin(__outs[0])"))) =
      .ok true := by
    decide +kernel
  obtain ⟨p₁, hparse₁, hlower⟩ := Except.bind_eq_ok.1 hcheck
  obtain ⟨p, hpasses, hfacts⟩ := Except.bind_eq_ok.1 hlower
  obtain ⟨havoids, hroot, hcount, hitem, hbody, hassign, hblock, hfunction, hblock', hkind,
    hl, hplace, htext⟩ := of_decide_eq_true (Except.ok.inj hfacts)
  have hcompile : compile computedText { filename := "", lowerSwizzles := true, passes := [] } =
      .ok p := Except.bind_eq_ok.2 ⟨p₁, hparse₁, hpasses⟩
  have he : HasExpression (p.arena.tree 0) (p.arena.tree 9) :=
    .of_children hitem (by rw [hblock]; rfl) (.of_children hbody (by rw [hfunction]; rfl)
      (.of_children hassign (by rw [hblock']; rfl) (.here (by rw [hkind]; rfl))))
  obtain ⟨p₀, root, hparse, hroot₀, hr, hplaces, hreads⟩ :=
    expression_reads_iff {} hcompile hcount (by decide)
  cases hr.symm.trans hroot
  cases hparse.symm.trans hparse₁
  obtain ⟨hiff, hnamed⟩ := hreads p.context.scopes _ he hl
  exact ⟨p, 0, _, hcompile, hroot, he, hl, hcount, htext, (hplaces _ _ _).1 hplace,
    hiff.2 (hnamed fun _ => havoids)⟩

/-- A program that calls a function with the name of a placeholder. -/
def calledText : String := "void main() { vec2 w[2]; w[0].xy = $n1(3); }"

/-- **The lowering calls a component**, and the text of that is no expression. -/
theorem expression_text_not_read : ∃ p root e s err,
    compile calledText { filename := "", lowerSwizzles := true, passes := [] } = .ok p ∧
      p.arena.root? = some root ∧ HasExpression (p.arena.tree root) e ∧
      (∀ u ∈ e.subtrees, Unambiguous 7 u) ∧
      expression p.context {} p.context.scopes e = .ok s ∧ s = "w[0](3)[0]" ∧
      (Context.new "" "").parse {} .expression s = .error err := by
  have hcheck : (compile calledText { filename := "", lowerSwizzles := true, passes := [] } >>=
      fun p => pure (decide (p.arena.root? = some 0 ∧
        (p.arena.tree 0).children[0]? = some (p.arena.tree 1) ∧
        (p.arena.tree 1).children[2]? = some (p.arena.tree 4) ∧
        (p.arena.tree 4).children[1]? = some (p.arena.tree 18) ∧
        (p.arena.tree 18).children[1]? = some (p.arena.tree 22) ∧
        (p.arena.tree 0).kind = .block ∧ (p.arena.tree 1).kind = .function ∧
        (p.arena.tree 4).kind = .block ∧ (p.arena.tree 18).kind = .assign ∧
        (p.arena.tree 22).kind = .index ∧
        (∀ u ∈ (p.arena.tree 22).subtrees, Unambiguous 7 u) ∧
        expression p.context {} p.context.scopes (p.arena.tree 22) = .ok "w[0](3)[0]"))) =
      .ok true := by
    decide +kernel
  obtain ⟨p, hcompile, hfacts⟩ := Except.bind_eq_ok.1 hcheck
  obtain ⟨hroot, hitem, hbody, hassign, hvalue, hblock, hfunction, hblock', hkind, hindex, hl, htext⟩ :=
    of_decide_eq_true (Except.ok.inj hfacts)
  have he : HasExpression (p.arena.tree 0) (p.arena.tree 22) :=
    .of_children hitem (by rw [hblock]; rfl) (.of_children hbody (by rw [hfunction]; rfl)
      (.of_children hassign (by rw [hblock']; rfl) (.of_children hvalue (by rw [hkind]; rfl)
        (.here (by rw [hindex]; rfl)))))
  have hfails : ((Context.new "" "").parse {} .expression "w[0](3)[0]").isOk = false := by
    decide +kernel
  cases hparse : (Context.new "" "").parse {} .expression "w[0](3)[0]" with
  | ok r =>
    rw [hparse] at hfails
    cases hfails
  | error err => exact ⟨p, 0, _, _, err, hcompile, hroot, he, hl, htext, rfl, hparse⟩

end VecLang.Emit.JavaScript
