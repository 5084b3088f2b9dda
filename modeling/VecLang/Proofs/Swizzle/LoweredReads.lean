import VecLang.Proofs.Grammar.Expressions
import VecLang.Proofs.Swizzle.Settled

/-!
# Trees after the reads

Lowering the reads puts expressions in the place of expressions. So a formed tree stays formed, the
expressions of a program keep the shape of expressions, and its nodes stay regular.

* `formed_lowerReads`: what the walk of the reads leaves is formed.
* `hasExpression_lowerReads`: its expressions have the shape of expressions.
* `regular_lowerReads`: the nodes of a lowered program are regular.
-/

namespace VecLang.Swizzle

open Grammar ScopeWalk Arena VecLang.Tree

variable {types : TypeTable} {σ : Names} {p : Place} {l : Label} {pos : Pos} {base t e : Tree}
  {ts : List Tree} {i : Nat}

theorem formed_elementTree (pos : Pos) (h : FormedExpression types base) (i : Nat) :
    FormedExpression types (elementTree pos base i) := by
  have hint : Kind.isExpression .intConst = true := rfl
  refine ⟨.node ⟨?_, rfl⟩ (List.forall_mem_cons.2 ⟨h.1, List.forall_mem_singleton.2 (.leaf rfl rfl)⟩),
    rfl⟩
  simp [Kind.admits, h.2, Tree.kind_node, Tree.valued, hint]

theorem formed_tree (htypes : types.Closed) (ht : Templates types) {m : String}
    {selection : Selection} (hm : Selection.ofMember? m = some selection)
    (h : FormedExpression types base) :
    FormedExpression types (selection.tree types pos base) := by
  cases selection with
  | component i => exact formed_elementTree pos h i
  | vector s =>
    obtain ⟨hlo, hhi, -⟩ := ofMember?_bounds (ofMember?_of_vector hm)
    have htype := htypes _ _ (ht.vectorType ⟨hlo, hhi⟩).2
    refine ⟨.node ⟨rfl, rfl⟩ (List.forall_mem_cons.2 ⟨.leaf rfl htype,
      List.forall_mem_singleton.2 (.node ⟨List.all_eq_true.2 fun k hk => ?_, rfl⟩ fun u hu => ?_)⟩), rfl⟩
    · obtain ⟨u, hu, rfl⟩ := List.mem_map.1 hk
      obtain ⟨i, -, rfl⟩ := List.mem_map.1 hu
      rfl
    · obtain ⟨i, -, rfl⟩ := List.mem_map.1 hu
      exact (formed_elementTree pos h i).1

theorem like_lowerReads (types : TypeTable) (σ : Names) (p : Place) (t : Tree) :
    t.kind.Like (lowerReads types σ p t).kind := by
  obtain ⟨l, ts⟩ := t
  cases ts with
  | nil =>
    rw [lowerReads_leaf]
    exact .refl _
  | cons base rest =>
    rw [lowerReads]
    split
    · next selection hsel =>
      obtain ⟨hk, -⟩ := selection?_eq_some hsel
      refine .inr ⟨?_, by cases selection <;> rfl⟩
      rw [Tree.kind_node, hk]
      rfl
    · exact .refl _

theorem like_lowerReadsAll (types : TypeTable) (σ : Names) (p q : Place) (ts : List Tree) :
    List.Forall₂ Kind.Like (ts.map Tree.kind) ((lowerReadsAll types σ p q ts).map Tree.kind) := by
  induction ts generalizing σ p with
  | nil =>
    rw [lowerReadsAll]
    exact .nil
  | cons t ts ih =>
    rw [lowerReadsAll]
    exact .cons (like_lowerReads types σ p t) (ih _ _)

/-- **Lowering the reads keeps a tree formed.** -/
theorem formed_lowerReads (htypes : types.Closed) (ht : Templates types) (h : Formed types t) :
    Formed types (lowerReads types σ p t) := by
  induction t using Rose.induction generalizing σ p with
  | node l ts ih =>
    cases ts with
    | nil =>
      rw [lowerReads_leaf]
      exact h
    | cons base rest =>
      rw [lowerReads]
      split
      · next selection hsel =>
        obtain ⟨hk, m, hm⟩ := selection?_eq_some hsel
        have hbase := h.expression_of_mem (by simp [hk]) (.head _)
        exact (formed_tree htypes ht hm ⟨ih base (.head _) hbase.1,
          (like_lowerReads types σ .inner base).isExpression hbase.2⟩).1
      · refine .node ⟨Kind.admits_congr (like_lowerReadsAll types _ _ _ _) h.root.admits,
          h.root.carries⟩ fun u hu => ?_
        obtain ⟨t, ht, σ', p', rfl⟩ := mem_lowerReadsAll hu
        exact ih t ht (h.of_mem ht)

theorem isExpression_int (hi : i < 4) :
    IsExpression types (.valued .intConst pos (.int i) []) := by
  refine .int (Nat.le_trans (Nat.le_of_lt hi) ?_)
  decide

theorem isExpression_elementTree (h : IsExpression types base) (hi : i < 4) :
    IsExpression types (elementTree pos base i) :=
  .index h (isExpression_int hi)

theorem isExpression_tree (ht : Templates types) {m : String} {selection : Selection}
    (hm : Selection.ofMember? m = some selection) (h : IsExpression types base) :
    IsExpression types (selection.tree types pos base) := by
  cases selection with
  | component i =>
    unfold Selection.ofMember? at hm
    split at hm
    · next haxis =>
      cases hm
      exact isExpression_elementTree h (axis?_lt haxis)
    · obtain ⟨_, -, hm⟩ := Option.map_eq_some_iff.1 hm
      cases hm
  | vector s =>
    obtain ⟨hlo, hhi, hindices⟩ := ofMember?_bounds (ofMember?_of_vector hm)
    obtain ⟨hname, htype⟩ := ht.vectorType ⟨hlo, hhi⟩
    refine .construct hname htype fun u hu => ?_
    obtain ⟨i, hi, rfl⟩ := List.mem_map.1 hu
    exact isExpression_elementTree h (hindices i hi)

theorem lowerReads_of_kind (hl : l.kind ≠ .member) :
    lowerReads types σ p (.node l ts) = .node l (lowerReadsAll types (inside σ (.node l ts))
      (.below l.kind true) (.below l.kind false) ts) := by
  cases ts with
  | nil => rw [lowerReads_leaf, lowerReadsAll]
  | cons base rest =>
    have hnone : selection? types σ p l base rest = none := if_neg fun hk => hl hk.1
    rw [lowerReads, hnone]

/-- **Lowering the reads of an expression leaves one.** -/
theorem isExpression_lowerReads (ht : Templates types) (h : IsExpression types t) (σ : Names)
    (p : Place) : IsExpression types (lowerReads types σ p t) := by
  have hleaf : ∀ {σ : Names} {p : Place} {k : Kind} {lpos : Pos} {v : Value},
      lowerReads types σ p (.valued k lpos v []) = .valued k lpos v [] := lowerReads_leaf
  induction h generalizing σ p with
  | int hn =>
    rw [hleaf]
    exact .int hn
  | float =>
    rw [hleaf]
    exact .float
  | bool =>
    rw [hleaf]
    exact .bool
  | name hn hty =>
    rw [hleaf]
    exact .name hn hty
  | construct hn hty _ ih =>
    unfold Tree.plain
    rw [lowerReads_of_kind (fun hk => by cases hk), lowerReadsAll, lowerReadsAll, lowerReadsAll, hleaf,
      lowerReads_of_kind (fun hk => by cases hk)]
    refine .construct hn hty fun u hu => ?_
    obtain ⟨t, ht, σ', p', rfl⟩ := mem_lowerReadsAll hu
    exact ih t ht σ' p'
  | call hn hty _ ih =>
    unfold Tree.plain
    rw [lowerReads_of_kind (fun hk => by cases hk), lowerReadsAll, lowerReadsAll, lowerReadsAll, hleaf,
      lowerReads_of_kind (fun hk => by cases hk)]
    refine .call hn hty fun u hu => ?_
    obtain ⟨t, ht, σ', p', rfl⟩ := mem_lowerReadsAll hu
    exact ih t ht σ' p'
  | member _ hm ih =>
    unfold Tree.plain
    rw [lowerReads]
    split
    · next selection hsel =>
      obtain ⟨-, m, hselected⟩ := selection?_eq_some hsel
      exact isExpression_tree ht hselected (ih _ _)
    · rw [lowerReadsAll, lowerReadsAll, lowerReadsAll, hleaf]
      exact .member (ih _ _) hm
  | index _ _ iha ihb =>
    unfold Tree.plain
    rw [lowerReads_of_kind (fun hk => by cases hk), lowerReadsAll, lowerReadsAll, lowerReadsAll]
    exact .index (iha _ _) (ihb _ _)
  | unary hop _ ih =>
    unfold Tree.operated
    rw [lowerReads_of_kind (fun hk => by cases hk), lowerReadsAll, lowerReadsAll]
    exact .unary hop (ih _ _)
  | binary hop _ _ iha ihb =>
    unfold Tree.operated
    rw [lowerReads_of_kind (fun hk => by cases hk), lowerReadsAll, lowerReadsAll, lowerReadsAll]
    exact .binary hop (iha _ _) (ihb _ _)
  | ternary _ _ _ iha ihb ihc =>
    unfold Tree.plain
    rw [lowerReads_of_kind (fun hk => by cases hk), lowerReadsAll, lowerReadsAll, lowerReadsAll,
      lowerReadsAll]
    exact .ternary (iha _ _) (ihb _ _) (ihc _ _)
  | assign _ _ iha ihb =>
    unfold Tree.operated
    rw [lowerReads_of_kind (fun hk => by cases hk), lowerReadsAll, lowerReadsAll, lowerReadsAll]
    exact .assign (iha _ _) (ihb _ _)

theorem hasExpression_lowerReads (ht : Templates types)
    (hall : ∀ e, HasExpression t e → IsExpression types e)
    (h : HasExpression (lowerReads types σ p t) e) : IsExpression types e := by
  induction t using Rose.induction generalizing σ p with
  | node l ts ih =>
    by_cases hk : l.kind.isExpression = true
    · have hself : IsExpression types (.node l ts) := hall _ (.here hk)
      exact IsPart.isExpression h (.expression (isExpression_lowerReads ht hself σ p))
    · have hk' : l.kind.isExpression = false := Bool.eq_false_iff.2 hk
      rw [lowerReads_of_kind (fun hmember => by rw [hmember] at hk'; cases hk')] at h
      obtain ⟨u, hu, h⟩ := (hasExpression_node hk').1 h
      obtain ⟨t, htmem, σ', p', rfl⟩ := mem_lowerReadsAll hu
      exact ih t htmem (fun e he => hall e ((hasExpression_node hk').2 ⟨t, htmem, he⟩)) h

/-- **The nodes of a lowered program are regular.** -/
theorem regular_lowerReads (htypes : types.Closed) (ht : Templates types) (h : IsProgram types t) :
    Regular (lowerReads types σ p t) :=
  (formed_lowerReads htypes ht (h.formed htypes)).regular
    fun _ he => hasExpression_lowerReads ht (fun _ h' => h.hasExpression h') he

end VecLang.Swizzle
