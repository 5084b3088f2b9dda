import VecLang.Proofs.Grammar.Expressions
import VecLang.Proofs.Swizzle.Reads

/-!
# The pass over the reads is a function of the tree

`lowerReads` is a structural recursion: a member access that selects components of an
array becomes their expression, with the base lowered once however often it is
repeated, and every other node is kept with its children lowered. The walk through the
arena, with its templates, moves, copies and handled nodes, comes to the same tree:
`read_walk_eq_lowerReads`.

* `Walks.lowerReads_eq`: what the rule of the reads leaves of trees.
-/

namespace VecLang

namespace Swizzle

open ScopeWalk Arena

/-- The components that a node selects from an array, by the names in scope around it. The
target of an assignment selects no vector. -/
def selection? (types : TypeTable) (σ : Names) (place : Place) (l : Label) (base : Tree)
    (rest : List Tree) : Option Selection :=
  if l.kind = .member ∧ isArray? types (σ (base.entry.name?.getD "")) base = some true then
    match (memberOf? (base :: rest)).bind Selection.ofMember? with
    | some (.vector s) => if place = .target then none else some (.vector s)
    | selection => selection
  else none

mutual

/-- **The tree with its reads lowered**, given the names in scope and its place. -/
def lowerReads (types : TypeTable) (σ : Names) (place : Place) : Tree → Tree
  | .node l [] => .node l []
  | .node l (base :: rest) =>
    match selection? types σ place l base rest with
    | some selection => selection.tree types l.pos (lowerReads types σ .inner base)
    | none =>
      .node l (lowerReadsAll types (inside σ (.node l (base :: rest))) (.below l.kind true)
        (.below l.kind false) (base :: rest))

/-- The trees of a list with their reads lowered, the first at place `p` and the others at
place `q`. -/
def lowerReadsAll (types : TypeTable) (σ : Names) (p q : Place) : List Tree → List Tree
  | [] => []
  | t :: ts => lowerReads types σ p t :: lowerReadsAll types (after σ t) q q ts

end

variable {types : TypeTable} {σ σ₁ τ : Names} {p q : Place} {l : Label} {pos : Pos}
  {base : Tree} {rest ts us : List Tree} {opened : Bool}

/-- Inside of an access to a name, `this` is bound to what the name is bound to around it. -/
theorem isArray?_inside (types : TypeTable) (hk : l.kind = .member)
    (h : opens σ (.node l (base :: rest)) = some (σ₁, opened)) :
    opened = true ∧ isArray? types (σ₁ thisName) base =
      isArray? types (σ (base.entry.name?.getD "")) base := by
  rw [opens_member _ _ _ hk] at h
  unfold isArray?
  split at h
  · next hid =>
    obtain ⟨t, ht, heq⟩ := Option.map_eq_some_iff.1 h
    cases heq
    rw [if_pos hid, if_pos hid, ht]
    exact ⟨rfl, by simp [Names.bind]⟩
  · next hid =>
    cases h
    rw [if_neg hid, if_neg hid]
    exact ⟨rfl, rfl⟩

theorem readRule_replace {t : Tree} (h : readRule types σ p t = .replace ts) :
    ∃ l base rest m selection, t = .node l (base :: rest) ∧ l.kind = .member ∧
      memberOf? (base :: rest) = some m ∧ isArray? types (σ thisName) base = some true ∧
      Selection.ofMember? m = some selection ∧ (p = .target → ∃ i, selection = .component i) ∧
      ts = [selection.tree types l.pos base] := by
  obtain ⟨l, cs⟩ := t
  cases cs with
  | nil => cases h
  | cons base rest =>
    rw [readRule] at h
    split at h
    swap
    · cases h
    next hk =>
    split at h
    swap
    · cases h
    next m hm =>
    refine ⟨l, base, rest, m, ?_⟩
    unfold readMember at h
    split at h
    · cases h
    · next i ha hs =>
      cases h
      exact ⟨_, rfl, hk, hm, ha, hs, fun _ => ⟨i, rfl⟩, rfl⟩
    · next s ha hs =>
      split at h
      · cases h
      · next hp =>
        cases h
        exact ⟨_, rfl, hk, hm, ha, hs, fun hp' => absurd hp' hp, rfl⟩
    · cases h

theorem selection?_of_replace (ho : opens σ (.node l (base :: rest)) = some (σ₁, opened))
    (hr : readRule types σ₁ p (.node l (base :: rest)) = .replace ts) :
    opened = true ∧ ∃ selection, selection? types σ p l base rest = some selection ∧
      ts = [selection.tree types l.pos base] := by
  obtain ⟨_, _, _, m, selection, heq, hk, hm, ha, hs, hp, rfl⟩ := readRule_replace hr
  cases heq
  obtain ⟨hopened, harray⟩ := isArray?_inside types hk ho
  refine ⟨hopened, selection, ?_, rfl⟩
  unfold selection?
  rw [if_pos ⟨hk, harray ▸ ha⟩, hm, Option.bind_some, hs]
  cases selection with
  | component i => rfl
  | vector s =>
    have hnot : p ≠ .target := fun h => by cases (hp h).choose_spec
    exact if_neg hnot

theorem selection?_of_keep (ho : opens σ (.node l (base :: rest)) = some (σ₁, opened))
    (hr : readRule types σ₁ p (.node l (base :: rest)) = .keep) :
    selection? types σ p l base rest = none := by
  unfold selection?
  split
  swap
  · rfl
  next h =>
  obtain ⟨hk, ha⟩ := h
  obtain ⟨-, harray⟩ := isArray?_inside types hk ho
  rw [readRule, if_pos hk, harray, ha] at hr
  cases hm : memberOf? (base :: rest) with
  | none => rfl
  | some m =>
    rw [hm] at hr
    unfold readMember at hr
    rw [Option.bind_some]
    cases hs : Selection.ofMember? m with
    | none => rfl
    | some selection =>
      cases selection with
      | component i => simp only [hs] at hr; cases hr
      | vector s =>
        simp only [hs] at hr ⊢
        by_cases hp : p = .target
        · rw [if_pos hp]
        · rw [if_neg hp] at hr
          cases hr

theorem selection?_eq_some {selection : Selection}
    (h : selection? types σ p l base rest = some selection) :
    l.kind = .member ∧ ∃ m, Selection.ofMember? m = some selection := by
  unfold selection? at h
  split at h
  swap
  · cases h
  next hmember =>
  refine ⟨hmember.1, ?_⟩
  split at h
  · next s hs =>
    split at h
    · cases h
    · cases h
      obtain ⟨m, -, hm⟩ := Option.bind_eq_some_iff.1 hs
      exact ⟨m, hm⟩
  · obtain ⟨m, -, hm⟩ := Option.bind_eq_some_iff.1 h
    exact ⟨m, hm⟩

theorem lowerReads_leaf : lowerReads types σ p (.node l []) = .node l [] := by
  rw [lowerReads]

theorem lowerReads_kept (hk : l.kind ≠ .member) (ho : opens σ (.node l ts) = some (σ, false)) :
    lowerReads types σ p (.node l ts) =
      .node l (lowerReadsAll types σ (.below l.kind true) (.below l.kind false) ts) := by
  cases ts with
  | nil => rw [lowerReads, lowerReadsAll]
  | cons base rest =>
    have hnone : selection? types σ p l base rest = none := if_neg fun h => hk h.1
    rw [lowerReads, hnone]
    simp only [inside, ho, Option.map_some, Option.getD_some]

section

variable (hafter : after σ base = σ)
include hafter

theorem lowerReads_elementTree (i : Nat) :
    lowerReads types σ p (elementTree pos base i) =
      elementTree pos (lowerReads types σ .inner base) i := by
  unfold elementTree Tree.plain
  rw [lowerReads_kept (l := { kind := .index, pos }) (fun h => by cases h) rfl, lowerReadsAll, hafter, lowerReadsAll, lowerReadsAll,
    Tree.valued, lowerReads_leaf]
  rfl

theorem after_elementTree (i : Nat) : after σ (elementTree pos base i) = σ := by
  unfold elementTree Tree.plain
  rw [after, show opens σ _ = some (σ, false) from rfl]
  simp only [afterAll, hafter]
  rfl

theorem lowerReadsAll_elementTrees (is : List Nat) :
    lowerReadsAll types σ p p (is.map (elementTree pos base)) =
      is.map (elementTree pos (lowerReads types σ .inner base)) := by
  induction is with
  | nil => rfl
  | cons i is ih =>
    rw [List.map_cons, lowerReadsAll, lowerReads_elementTree hafter, after_elementTree hafter, ih,
      List.map_cons]

theorem lowerReads_readTree (s : Swizzle) :
    lowerReads types σ p (readTree types pos s base) =
      readTree types pos s (lowerReads types σ .inner base) := by
  unfold readTree Tree.plain
  rw [lowerReads_kept (l := { kind := .call, pos }) (fun h => by cases h) rfl, lowerReadsAll, lowerReadsAll,
    lowerReadsAll, Tree.valued, lowerReads_leaf, show after σ _ = σ from rfl,
    lowerReads_kept (l := { kind := .args, pos }) (fun h => by cases h) rfl, show Place.below .args true = .inner from rfl,
    show Place.below .args false = .inner from rfl, lowerReadsAll_elementTrees hafter]

theorem afterAll_elementTrees (is : List Nat) : afterAll σ (is.map (elementTree pos base)) = σ := by
  induction is with
  | nil => rfl
  | cons i is ih => rw [List.map_cons, afterAll, after_elementTree hafter, ih]

end

/-- **Lowering the expression of a selection** lowers its base. -/
theorem lowerReads_tree (types : TypeTable) (p : Place) (pos : Pos) (hafter : after σ base = σ)
    (selection : Selection) :
    lowerReads types σ p (selection.tree types pos base) =
        selection.tree types pos (lowerReads types σ .inner base) ∧
      after σ (selection.tree types pos base) = σ := by
  cases selection with
  | component i => exact ⟨lowerReads_elementTree hafter i, after_elementTree hafter i⟩
  | vector s =>
    refine ⟨lowerReads_readTree hafter s, ?_⟩
    unfold Selection.tree readTree Tree.plain
    rw [after, show opens σ _ = some (σ, false) from rfl]
    simp only [afterAll]
    rw [show after σ (Tree.valued .varType pos (.type (vectorType types s)) []) = σ from rfl, after,
      show opens σ _ = some (σ, false) from rfl]
    exact afterAll_elementTrees hafter s.indices

theorem regular_elementTree (h : Regular base) (i : Nat) : Regular (elementTree pos base i) := by
  refine .node (.of_kind rfl (by simp)) fun t ht => ?_
  rcases List.mem_cons.1 ht with rfl | ht
  · exact h
  · rw [List.mem_singleton.1 ht]
    exact .node (.of_kind rfl (by simp)) fun _ hm => (by cases hm)

theorem regular_tree (h : Regular base) (selection : Selection) :
    Regular (selection.tree types pos base) := by
  cases selection with
  | component i => exact regular_elementTree h i
  | vector s =>
    refine .call rfl (.node (.of_kind rfl (by simp)) fun _ hm => by cases hm)
      (.node (.of_kind rfl (by simp)) fun u hu => ?_)
    obtain ⟨i, -, rfl⟩ := List.mem_map.1 hu
    exact regular_elementTree h i

/-- **What the rule of the reads leaves of trees is what the function makes of them.** -/
theorem Walks.lowerReads_eq (h : Walks (readRule types) σ p q ts us τ) :
    (∀ t ∈ ts, Regular t) → us = lowerReadsAll types σ p q ts ∧ τ = afterAll σ ts := by
  induction h with
  | nil =>
    intro _
    exact ⟨by rw [lowerReadsAll], by rw [afterAll]⟩
  | @keep σ σ₁ σ₂ τ p q l ts us rest rest' opened ho hr _ _ ihb ihn =>
    intro hflat
    obtain ⟨rfl, rfl⟩ := ihb fun t ht => (hflat _ (.head _)).of_mem ht
    obtain ⟨rfl, rfl⟩ := ihn fun t ht => hflat t (.tail _ ht)
    have hafter : after σ (.node l ts) = if opened then σ else afterAll σ₁ ts := by
      rw [after, ho]
      cases opened <;> rfl
    rw [lowerReadsAll, afterAll, hafter]
    refine ⟨?_, rfl⟩
    congr 1
    cases ts with
    | nil => rw [lowerReads, lowerReadsAll]
    | cons base more =>
      rw [lowerReads, selection?_of_keep ho hr]
      simp only [inside, ho, Option.map_some, Option.getD_some]
  | @replace σ σ₁ σ₂ τ p q t ts us rest rest' opened ho hr _ _ ihb ihn =>
    intro hflat
    obtain ⟨l, ts'⟩ := t
    cases ts' with
    | nil => cases hr
    | cons base more =>
      obtain ⟨rfl, selection, hsel, rfl⟩ := selection?_of_replace ho hr
      have htree := hflat _ (.head _)
      obtain ⟨hk, -⟩ := selection?_eq_some hsel
      have hbase : after σ base = σ :=
        after_eq_self (htree.root.inert (.inl hk) base (.head _)) σ
      obtain ⟨hlower, hsame⟩ := lowerReads_tree types p l.pos hbase selection
      obtain ⟨rfl, rfl⟩ := ihb fun u hu => by
        rw [List.mem_singleton.1 hu]
        exact regular_tree (htree.of_mem (.head _)) selection
      obtain ⟨rfl, rfl⟩ := ihn fun u hu => hflat u (.tail _ hu)
      have hafter : after σ (.node l (base :: more)) = σ := by
        rw [after, ho]
      simp only [if_true, lowerReadsAll, afterAll, hsame, hafter, hlower, and_true]
      rw [lowerReads, hsel]
      rfl

end Swizzle

namespace Swizzle

open ScopeWalk Arena

variable {F : String → Error → Prop} {I : Place → Tree → Prop} {hook : Hook Unit}
  {types : TypeTable} {rule : Rule} {root : Nat}

theorem placeOf_top {a : Arena} {id : Nat} (h : a.parent? id = none) : placeOf a id = .top := by
  unfold placeOf
  rw [h]

theorem lowerWith_outcome {v v' : View Unit} (hhook : Refines F I hook types rule)
    (hw : v.arena.WellFormed) (hlt : root < v.arena.size) (htypes : v.context.types = types)
    (h : lowerWith hook root v = .ok () v') : Outcome rule v (v.arena.shape root) v' := by
  have hwalk := Steps.get_bind.1 h
  rw [← entry_shape v.arena root] at hwalk
  exact (walkScopes_refines hw (spans_shape hw hlt) htypes hhook).of_eq_ok hwalk

/-- **A walk of the lowering from the root of a program**, in place and in the tree. -/
theorem lowerWith_walks {v v' : View Unit} (hhook : Refines F I hook types rule)
    (hkeep : ∀ σ, rule σ .top (v.arena.tree root) = .keep) (hw : v.arena.WellFormed)
    (hlt : root < v.arena.size) (htop : v.arena.parent? root = none)
    (htypes : v.context.types = types) (h : lowerWith hook root v = .ok () v') :
    (∃ τ, Walks rule v.context.names .top .top [v.arena.tree root] [v'.arena.tree root] τ) ∧
      v'.context = v.context ∧ v'.arena.WellFormed ∧ root < v'.arena.size ∧
      v'.arena.parent? root = none ∧ v'.arena.root? = v.arena.root? := by
  have hentry := entry_shape v.arena root
  have hplace : placeOf v.arena (v.arena.shape root).entry = .top :=
    placeOf_top (hentry.symm ▸ htop)
  have htree : v.arena.tree root = (v.arena.shape root).map v.arena.label := rfl
  obtain ⟨hctx, ⟨ss, τ, hrw, hwalks, hkept⟩, -⟩ := lowerWith_outcome hhook hw hlt htypes h
  rw [hplace] at hwalks hkept
  have hone := hkept hkeep
  obtain ⟨s, rfl⟩ : ∃ s, ss = [s] := by
    have hlen := congrArg List.length hone
    rw [List.length_map] at hlen
    exact List.length_eq_one_iff.1 hlen
  have hroot : s.entry = root := by
    rw [hentry] at hone
    exact List.head_eq_of_cons_eq hone
  have hspan := hrw.spans s (.head _)
  have htree' := hspan.tree_eq hrw.wellFormed
  rw [hroot] at htree'
  rw [List.map_singleton, ← htree', ← htree] at hwalks
  refine ⟨⟨τ, hwalks⟩, hctx, hrw.wellFormed, hroot ▸ hspan.lt_size, ?_, hrw.root?⟩
  rw [← hroot, hrw.place s (.head _), hentry, htop]

/-- **What the walk of the reads leaves of a parsed program**, whatever is in scope. -/
structure ReadFrom (p : Program) (root : Nat) (v : View Unit) : Prop where
  wellFormed : v.arena.WellFormed
  lt_size : root < v.arena.size
  top : v.arena.parent? root = none
  root? : v.arena.root? = some root
  context : v.context = p.context
  walks : ∃ τ, Walks (readRule p.context.types) p.context.names .top .top [p.arena.tree root]
    [v.arena.tree root] τ
  tree : v.arena.tree root = lowerReads p.context.types p.context.names .top (p.arena.tree root)

theorem lowerWith_readFrom {p : Program} {v : View Unit} (hp : Parsed p root)
    (h : lowerWith readHook root { arena := p.arena, context := p.context, notes := () } =
      .ok () v) : ReadFrom p root v := by
  obtain ⟨pos, ts, htree, -⟩ := hp.shape
  have hkeep : ∀ σ, readRule p.context.types σ .top (p.arena.tree root) = .keep := fun σ => by
    rw [htree]
    exact readRule_of_kind fun h => by cases h
  have hread : Refines _ _ readHook p.context.types (readRule p.context.types) :=
    readHook_refines (hp.types ▸ templates_builtin)
  obtain ⟨⟨τ, hwalks⟩, hctx, hw, hlt, htop, hroot⟩ :=
    lowerWith_walks hread hkeep hp.wellFormed hp.lt_size hp.top rfl h
  obtain ⟨htrees, -⟩ := Walks.lowerReads_eq hwalks fun t ht => by
    rw [List.mem_singleton.1 ht]
    exact hp.shape.regular closed_builtin
  rw [lowerReadsAll, lowerReadsAll] at htrees
  exact ⟨hw, hlt, htop, hroot.trans hp.root?, hctx, ⟨τ, hwalks⟩, List.head_eq_of_cons_eq htrees⟩

/-- **The walk of the reads comes to the lowered tree.** Let a text be read as a program with the
builtin types, whatever names it uses and into whatever arena. In every context with these types,
if the walk of the reads through the program succeeds then the tree of the program is afterwards the
one that the function makes of it. -/
theorem read_walk_eq_lowerReads {a a' : Arena} {ctx ctx' : Context} {text : String} {root : NodeId}
    {v : View Unit} (ha : a.WellFormed) (htypes : ctx.types = Builtin.types)
    (hparse : ctx.parse a .program text = .ok (a', root)) (htypes' : ctx'.types = Builtin.types)
    (hwalk : lowerWith readHook root { arena := a', context := ctx', notes := () } = .ok () v) :
    v.arena.root? = some root ∧
      v.arena.tree root = lowerReads ctx'.types ctx'.names .top (a'.tree root) := by
  have hp : Parsed { arena := a', context := ctx' } root :=
    (Parsed.of_parse ha htypes hparse).inContext htypes'
  have hfrom := lowerWith_readFrom hp hwalk
  exact ⟨hfrom.root?, hfrom.tree⟩

/-- A program with nested selections, a selection that is assigned to, and names that the
templates use. -/
def selectionText : String :=
  "void main() { vec2 $n1; vec3 q; $n1.xy = q.zyx.xy; q.z = $n1.yx.x; }"

theorem read_walk_eq_lowerReads_selections : ∃ a root v,
    (Context.new "" "").parse {} .program selectionText = .ok (a, root) ∧
      lowerWith readHook root { arena := a, context := Context.new "" "", notes := () } = .ok () v ∧
      v.arena.tree root ≠ a.tree root ∧
      v.arena.tree root =
        lowerReads Builtin.types (Context.new "" "").names .top (a.tree root) := by
  have hcheck : ((Context.new "" "").parse {} .program selectionText).toOption.any fun r =>
      (Steps.left? (lowerWith readHook r.2
        { arena := r.1, context := Context.new "" "", notes := () })).any
          fun v => decide (v.arena.tree r.2 ≠ r.1.tree r.2) := by decide +kernel
  obtain ⟨⟨a, root⟩, hr, hcheck⟩ := (Option.any_eq_true _ _).1 hcheck
  obtain ⟨v, hv, hcheck⟩ := (Option.any_eq_true _ _).1 hcheck
  have hparse := eq_ok_of_toOption hr
  have hwalk := Steps.left?_eq_some hv
  exact ⟨a, root, v, hparse, hwalk, of_decide_eq_true hcheck,
    (read_walk_eq_lowerReads wellFormed_empty rfl hparse rfl hwalk).2⟩

end Swizzle

end VecLang
