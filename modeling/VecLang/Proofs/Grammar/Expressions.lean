import VecLang.Proofs.Grammar.Formed

/-!
# The expressions of a program

Every expression of a program that was read has the shape of one. The names of functions and
members are no expressions, though they are nodes of the same kind. With the shapes of all
expressions, what holds at every node of a program follows from the kinds of its nodes.

* `Tree.HasExpression`: the expressions of a tree.
* `Tree.WellNamed`: what is called and what is selected has a name.
* `IsProgram.hasExpression`: the expressions of a program.
* `IsProgram.regular`: every node of a program is regular.
-/

namespace VecLang

open List

/-- The places below a node that are for names: what is called, and what is behind the point of
a member access. -/
def Kind.isNamePlace : Kind → Nat → Bool
  | .call, 0 | .member, 1 => true
  | _, _ => false

namespace Tree

/-- **The expression `e` is one of the tree.** The names of functions and members are none. -/
inductive HasExpression : Tree → Tree → Prop
  | here {t : Tree} : t.kind.isExpression = true → HasExpression t t
  | child {l : Label} {ts : List Tree} {i : Nat} {u e : Tree} : ts[i]? = some u →
      ¬ (l.kind.isNamePlace i = true ∧ u.kind = .ident) → HasExpression u e →
      HasExpression (.node l ts) e

/-- Names, or the types of constructors, stand in the places for them. -/
def NamesStand (k : Kind) (ts : List Tree) : Prop :=
  ∀ i u, ts[i]? = some u → k.isNamePlace i = true → u.kind = .ident ∨ u.kind = .varType

/-- **What is called and what is selected has a name**, throughout the tree. -/
def WellNamed (t : Tree) : Prop := ∀ u ∈ t.subtrees, NamesStand u.entry.kind u.children

variable {l : Label} {t u e : Tree} {ts : List Tree}

theorem wellNamed_node :
    WellNamed (.node l ts) ↔ NamesStand l.kind ts ∧ ∀ t ∈ ts, WellNamed t := by
  constructor
  · intro h
    exact ⟨h _ (Rose.self_mem_subtrees _), fun t ht u hu => h u (Rose.mem_subtrees_of_mem ht hu)⟩
  · rintro ⟨hroot, hts⟩
    exact ScopeWalk.forall_mem_subtrees hroot hts

theorem namesStand_of_kind {k : Kind} (hcall : k ≠ .call) (hmember : k ≠ .member) :
    NamesStand k ts := by
  intro i u _ hplace
  cases k <;> first | cases hplace | exact absurd rfl hcall | exact absurd rfl hmember

theorem isNamePlace_eq_false {k : Kind} (h : k.isExpression = false) (i : Nat) :
    k.isNamePlace i = false := by
  cases k <;> first | rfl | cases h

theorem HasExpression.mem_subtrees (h : HasExpression t e) : e ∈ t.subtrees := by
  induction h with
  | here _ => exact Rose.self_mem_subtrees _
  | child hi _ _ ih => exact Rose.mem_subtrees_of_mem (mem_of_getElem? hi) ih

theorem HasExpression.of_children {i : Nat} (hi : t.children[i]? = some u)
    (hplace : t.kind.isNamePlace i = false) (h : HasExpression u e) : HasExpression t e := by
  obtain ⟨l, ts⟩ := t
  refine .child hi (fun hname => ?_) h
  rw [Tree.kind_node] at hplace
  rw [hplace] at hname
  cases hname.1

theorem hasExpression_node (hl : l.kind.isExpression = false) :
    HasExpression (.node l ts) e ↔ ∃ u ∈ ts, HasExpression u e := by
  constructor
  · intro h
    cases h with
    | here hk => cases hl.symm.trans hk
    | child hi _ h => exact ⟨_, mem_of_getElem? hi, h⟩
  · rintro ⟨u, hu, h⟩
    obtain ⟨i, hi⟩ := getElem?_of_mem hu
    refine .child hi (fun hname => ?_) h
    rw [isNamePlace_eq_false hl] at hname
    cases hname.1

end Tree

section Formed

open VecLang.Tree

variable {types : TypeTable} {l : Label} {t u : Tree} {ts : List Tree}

theorem Formed.wellNamed_of_ident (hf : Formed types (.node l ts)) (hl : l.kind = .ident) :
    WellNamed (.node l ts) := by
  obtain rfl := hf.eq_nil (.inl hl)
  refine wellNamed_node.2 ⟨namesStand_of_kind ?_ ?_, fun _ hm => by cases hm⟩ <;>
    rw [hl] <;> exact fun hk => by cases hk

/-- All nodes that are expressions are among those of a tree, apart from names. -/
theorem Formed.hasExpression (hf : Formed types t) (hu : u ∈ t.subtrees)
    (hk : u.kind.isExpression = true) (hident : u.kind ≠ .ident) : HasExpression t u := by
  induction t using Rose.induction with
  | node l ts ih =>
    rw [Rose.subtrees, Rose.subtreesAll_eq_flatMap, mem_cons] at hu
    rcases hu with rfl | hu
    · exact .here hk
    · obtain ⟨⟨lc, cs⟩, hc, hu⟩ := mem_flatMap.1 hu
      obtain ⟨i, hi⟩ := getElem?_of_mem hc
      refine .child hi (fun hname => hident ?_) (ih _ hc (hf.of_mem hc) hu)
      obtain rfl := (hf.of_mem hc).eq_nil (.inl hname.2)
      rw [Rose.subtrees, Rose.subtreesAll, mem_singleton] at hu
      rw [hu]
      exact hname.2

end Formed

namespace Grammar

open VecLang.Tree

variable {types : TypeTable} {t e : Tree}

/-- The tree of an expression, or what may stand below one. -/
inductive IsPart (types : TypeTable) : Tree → Prop
  | expression {t : Tree} : IsExpression types t → IsPart types t
  | args {pos : Pos} {ts : List Tree} : (∀ t ∈ ts, IsExpression types t) →
      IsPart types (.plain .args pos ts)
  | type {pos : Pos} {ty : Ty} : IsPart types (.valued .varType pos (.type ty) [])

theorem getElem?_pair {a b u : Tree} {i : Nat} (h : [a, b][i]? = some u) :
    (i = 0 ∧ a = u) ∨ (i = 1 ∧ b = u) := by
  rcases i with _ | _ | i
  · exact .inl ⟨rfl, Option.some.inj h⟩
  · exact .inr ⟨rfl, Option.some.inj h⟩
  · simp at h

theorem IsPart.child {l : Label} {ts : List Tree} {i : Nat} {u : Tree}
    (h : IsPart types (.node l ts)) (hi : ts[i]? = some u)
    (hname : ¬ (l.kind.isNamePlace i = true ∧ u.kind = .ident)) : IsPart types u := by
  cases h with
  | args hts => exact .expression (hts u (mem_of_getElem? hi))
  | type => cases hi
  | expression h =>
    cases h with
    | int | float | bool | name => cases hi
    | construct _ _ hargs =>
      rcases getElem?_pair hi with ⟨-, rfl⟩ | ⟨-, rfl⟩
      · exact .type
      · exact .args hargs
    | call _ _ hargs =>
      rcases getElem?_pair hi with ⟨rfl, rfl⟩ | ⟨-, rfl⟩
      · exact absurd ⟨rfl, rfl⟩ hname
      · exact .args hargs
    | member hb _ =>
      rcases getElem?_pair hi with ⟨-, rfl⟩ | ⟨rfl, rfl⟩
      · exact .expression hb
      · exact absurd ⟨rfl, rfl⟩ hname
    | index ha hb | binary _ ha hb | assign ha hb =>
      rcases getElem?_pair hi with ⟨-, rfl⟩ | ⟨-, rfl⟩
      · exact .expression ha
      · exact .expression hb
    | unary _ ha => exact .expression (mem_singleton.1 (mem_of_getElem? hi) ▸ ha)
    | ternary ha hb hc =>
      have hmem := mem_of_getElem? hi
      simp only [mem_cons, not_mem_nil, or_false] at hmem
      rcases hmem with rfl | rfl | rfl
      · exact .expression ha
      · exact .expression hb
      · exact .expression hc

/-- **The expressions of an expression have the shape of one.** -/
theorem IsPart.isExpression (h : HasExpression t e) : IsPart types t → IsExpression types e := by
  induction h with
  | here hk =>
    intro h
    cases h with
    | expression h => exact h
    | args | type => cases hk
  | child hi hname _ ih => exact fun h => ih (h.child hi hname)

theorem IsDeclaration.hasExpression {q : Option Qualifier} (ht : IsDeclaration types q t)
    (h : HasExpression t e) : IsExpression types e := by
  have htype : ∀ {tpos : Pos} {ty : Ty}, ¬ HasExpression (typeTree q tpos ty) e := by
    intro tpos ty h
    obtain ⟨u, hu, -⟩ := (hasExpression_node rfl).1 h
    cases hu
  cases ht with
  | bare =>
    obtain ⟨u, hu, h⟩ := (hasExpression_node rfl).1 h
    rw [mem_singleton.1 hu] at h
    exact absurd h htype
  | initial _ _ hi =>
    obtain ⟨u, hu, h⟩ := (hasExpression_node rfl).1 h
    rcases mem_cons.1 hu with rfl | hu
    · exact absurd h htype
    · rw [mem_singleton.1 hu] at h
      exact IsPart.isExpression h (.expression hi)

theorem IsStatement.hasExpression (ht : IsStatement types t) :
    HasExpression t e → IsExpression types e := by
  induction ht with
  | expression ht => exact fun h => IsPart.isExpression h (.expression ht)
  | declaration ht => exact ht.hasExpression
  | leave =>
    intro h
    obtain ⟨u, hu, -⟩ := (hasExpression_node rfl).1 h
    cases hu
  | leaveWith ht =>
    intro h
    obtain ⟨u, hu, h⟩ := (hasExpression_node rfl).1 h
    rw [mem_singleton.1 hu] at h
    exact IsPart.isExpression h (.expression ht)
  | block _ ih =>
    intro h
    obtain ⟨u, hu, h⟩ := (hasExpression_node rfl).1 h
    exact ih u hu h
  | conditional hc _ _ ih =>
    intro h
    obtain ⟨u, hu, hin⟩ := (hasExpression_node rfl).1 h
    rcases mem_cons.1 hu with rfl | hu
    · exact IsPart.isExpression hin (.expression hc)
    · exact ih (mem_singleton.1 hu ▸ hin)
  | otherwise hc _ _ _ _ ihyes ihno =>
    intro h
    obtain ⟨u, hu, hin⟩ := (hasExpression_node rfl).1 h
    simp only [mem_cons, not_mem_nil, or_false] at hu
    rcases hu with rfl | rfl | rfl
    · exact IsPart.isExpression hin (.expression hc)
    · exact ihyes hin
    · exact ihno hin

theorem IsItem.hasExpression (ht : IsItem types t) (h : HasExpression t e) :
    IsExpression types e := by
  cases ht with
  | declaration ht => exact ht.hasExpression h
  | function _ _ _ hparams hbody =>
    obtain ⟨u, hu, hin⟩ := (hasExpression_node rfl).1 h
    simp only [mem_cons, not_mem_nil, or_false] at hu
    rcases hu with rfl | rfl | rfl
    · obtain ⟨u, hu, -⟩ := (hasExpression_node rfl).1 hin
      cases hu
    · obtain ⟨u, hu, hparam⟩ := (hasExpression_node rfl).1 hin
      obtain ⟨_, _, _, _, hw, hty, rfl⟩ := hparams u hu
      exact IsDeclaration.hasExpression (q := none) (.bare hw hty) hparam
    · exact hbody.hasExpression hin

/-- **The expressions of a program have the shape of expressions.** -/
theorem IsProgram.hasExpression (ht : IsProgram types t) (h : HasExpression t e) :
    IsExpression types e := by
  obtain ⟨pos, ts, rfl, hitems⟩ := ht
  obtain ⟨u, hu, h⟩ := (hasExpression_node rfl).1 h
  exact (hitems u hu).hasExpression h

end Grammar

section Regular

open VecLang.Tree Grammar ScopeWalk

variable {types : TypeTable} {t : Tree}

theorem Grammar.IsExpression.namesStand {l : Label} {ts : List Tree}
    (h : IsExpression types (.node l ts)) : NamesStand l.kind ts := by
  cases h with
  | construct | call =>
    intro i u hi hplace
    rcases getElem?_pair hi with ⟨-, rfl⟩ | ⟨rfl, -⟩
    · first | exact .inl rfl | exact .inr rfl
    · cases hplace
  | member =>
    intro i u hi hplace
    rcases getElem?_pair hi with ⟨rfl, -⟩ | ⟨-, rfl⟩
    · cases hplace
    · exact .inl rfl
  | _ => exact namesStand_of_kind (fun h => by cases h) (fun h => by cases h)

theorem Grammar.IsExpression.isMemberAccess {l : Label} {ts : List Tree}
    (h : IsExpression types (.node l ts)) (hl : isMemberAccess l = true) : l.kind = .member := by
  cases h with
  | @binary pos op _ _ hop =>
    have hne : ∀ op ∈ levels.flatten, op ≠ .member := by decide
    simp [ScopeWalk.isMemberAccess, hne op hop] at hl
  | member => rfl
  | _ => cases hl

variable (hf : Formed types t) (hall : ∀ e, HasExpression t e → IsExpression types e)

include hf hall

theorem Formed.wellNamed : WellNamed t := by
  rintro ⟨l, ts⟩ hu
  by_cases hl : l.kind = .call ∨ l.kind = .member
  · refine (hall _ (hf.hasExpression hu ?_ ?_)).namesStand <;>
      rcases hl with hl | hl <;> rw [Tree.kind_node, hl] <;> simp [Kind.isExpression]
  · exact namesStand_of_kind (fun h => hl (.inl h)) fun h => hl (.inr h)

/-- **Every node is regular** if all expressions have the shape of one. -/
theorem Formed.regular : Regular t := by
  rintro ⟨l, ts⟩ hu
  change RegularNode l ts
  have hnode : Formed types (.node l ts) := fun w hw => hf w (Rose.mem_subtrees_trans hu hw)
  have hself : l.kind ∈ [.binary, .member, .call] → IsExpression types (.node l ts) := by
    intro hl
    simp only [mem_cons, not_mem_nil, or_false] at hl
    refine hall _ (hf.hasExpression hu ?_ ?_) <;>
      rcases hl with hl | hl | hl <;> rw [Tree.kind_node, hl] <;> simp [Kind.isExpression]
  refine ⟨⟨fun hl => hnode.eq_nil (.inl hl), fun hm => ?_, fun hl => hnode.root.pair (by simp [hl])⟩,
    fun hl => ?_, fun hl => ?_, fun hl => ?_, fun hl t ht => ?_⟩
  · have hl : l.kind = .member := by
      refine (hself ?_).isMemberAccess hm
      unfold ScopeWalk.isMemberAccess at hm
      grind
    exact ⟨hl, hnode.root.pair (by simp [hl])⟩
  · obtain ⟨⟨l', us⟩, rest, rfl, hkind⟩ := hnode.root.head hl
    obtain rfl := (hnode.of_mem (.head _)).eq_nil (.inr hkind)
    exact ⟨l', rest, rfl, hkind⟩
  · have hexpr := hself (by simp [hl])
    cases hexpr with
    | member => exact ⟨_, _, _, rfl, rfl, rfl⟩
    | _ => cases hl
  · have hexpr := hself (by simp [hl])
    cases hexpr with
    | call | construct => exact ⟨_, _, rfl, rfl⟩
    | _ => cases hl
  · exact (hnode.expression_of_mem (by rcases hl with hl | hl <;> simp [hl]) ht).inert

end Regular

namespace Grammar

open VecLang.Tree ScopeWalk

variable {types : TypeTable} {t : Tree}

theorem IsExpression.wellNamed (htypes : types.Closed) (h : IsExpression types t) : WellNamed t :=
  (h.formed htypes).wellNamed fun _ he => IsPart.isExpression he (.expression h)

theorem IsItem.regular (htypes : types.Closed) (h : IsItem types t) : Regular t :=
  (h.formed htypes).regular fun _ he => h.hasExpression he

/-- **Every node of a program is regular.** -/
theorem IsProgram.regular (htypes : types.Closed) (h : IsProgram types t) : Regular t :=
  (h.formed htypes).regular fun _ he => h.hasExpression he

end Grammar

end VecLang
