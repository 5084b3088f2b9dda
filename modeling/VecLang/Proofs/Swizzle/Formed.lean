import VecLang.Proofs.Grammar.Formed
import VecLang.Proofs.Swizzle.Complete

/-!
# Lowering keeps trees formed

Both walks of the lowering put expressions in the place of expressions, and assignments
in the place of an assignment. So every node of a lowered program has the children and
carries what its kind asks for, also where a name in a value was taken for an operand.

* `formed_lowerReads`, `Walks.formed`: what the two walks leave is formed.
* `LoweredFrom.formed`: a lowered program is formed.
-/

namespace VecLang.Swizzle

open ScopeWalk Arena List

variable {types : TypeTable} {σ τ : Names} {p q : Place} {l : Label} {pos : Pos} {name : String}
  {base value t u : Tree} {ts us args : List Tree} {operands : List (String × Tree)}
  {sw : Swizzle}

theorem like_subst (hu : u.kind.isExpression = true) (t : Tree) :
    t.kind.Like (Tree.subst name u t).kind := by
  obtain ⟨l, ts⟩ := t
  rw [Tree.subst_node]
  split
  · next hl =>
    refine .inr ⟨?_, hu⟩
    rw [Tree.kind_node, hl.1]
    rfl
  · exact .refl _

theorem formed_subst (hu : FormedExpression types u) (h : Formed types t) :
    Formed types (Tree.subst name u t) := by
  induction t using Rose.induction with
  | node l ts ih =>
    rw [Tree.subst_node]
    split
    · exact hu.1
    · refine .node ⟨Kind.admits_congr ?_ h.root.admits, h.root.carries⟩ fun t' ht' => ?_
      · rw [map_map, forall₂_map_left_iff, forall₂_map_right_iff, forall₂_same]
        exact fun t _ => like_subst hu.2 t
      · obtain ⟨t, ht, rfl⟩ := mem_map.1 ht'
        exact ih t ht (h.of_mem ht)

theorem formed_constructed {n : Nat} (h : Formed types value)
    (hargs : constructed? n value = some args) : ∀ arg ∈ args, FormedExpression types arg := by
  obtain ⟨l, ts⟩ := value
  obtain ⟨hk, -, callee, ⟨la, as⟩, more, rfl, rfl, -⟩ := constructed?_eq_some hargs
  have hadmits := h.root.admits
  rw [hk] at hadmits
  have hlist : la.kind = .args := by
    simp only [Kind.admits, map_cons, tail_cons, Bool.and_eq_true, beq_iff_eq,
      cons.injEq] at hadmits
    exact hadmits.1.1
  intro arg harg
  exact (h.of_mem (.tail _ (.head _))).expression_of_mem
    (by simp [hlist]) harg

theorem formed_valueAt (pos : Pos) (sw : Swizzle) (hbase : FormedExpression types base)
    (hvalue : FormedExpression types value) (k : Nat) :
    FormedExpression types (valueAt pos sw base value k) := by
  refine valueAt_keeps (fun hu ht => ?_) (fun ht => formed_elementTree pos ht k)
    (formed_constructed hvalue.1) hbase hvalue
  exact ⟨formed_subst hu ht.1, (like_subst hu.2 _).isExpression ht.2⟩

theorem formed_splitTree (hbase : FormedExpression types base)
    (hvalue : FormedExpression types value) (k i : Nat) :
    Formed types (splitTree pos sw base value k i) := by
  have htarget := formed_elementTree pos hbase i
  have hassigned := formed_valueAt pos sw hbase hvalue k
  refine .node ⟨?_, rfl⟩ (forall_mem_cons.2 ⟨htarget.1, forall_mem_singleton.2 hassigned.1⟩)
  simp [Kind.admits, htarget.2, hassigned.2]

/-- What the walk of the writes leaves of formed trees. -/
structure FormedWalk (types : TypeTable) (p q : Place) (ts us : List Tree) : Prop where
  formed : ∀ u ∈ us, Formed types u
  /-- Only statements are replaced. -/
  kinds : p ≠ .statement → q ≠ .statement → us.map Tree.kind = ts.map Tree.kind
  /-- What is left stands for a tree of its kind. -/
  origin : ∀ u ∈ us, ∃ t ∈ ts, u.kind = t.kind

theorem FormedWalk.node (h : FormedWalk types (.below l.kind true) (.below l.kind false) ts us)
    (hnode : FormedNode types l ts) : Formed types (.node l us) := by
  refine .node ⟨?_, hnode.carries⟩ h.formed
  have hadmits := hnode.admits
  by_cases hblock : l.kind = .block
  · rw [hblock] at hadmits ⊢
    refine all_eq_true.2 fun k hk => ?_
    obtain ⟨u, hu, rfl⟩ := mem_map.1 hk
    obtain ⟨t, ht, hkind⟩ := h.origin u hu
    rw [hkind]
    exact all_eq_true.1 hadmits _ (mem_map_of_mem ht)
  · have hplace : ∀ first, Place.below l.kind first ≠ .statement :=
      fun first he => hblock (below_eq_statement.1 he)
    rw [h.kinds (hplace true) (hplace false)]
    exact hadmits

/-- **The walk of the writes keeps trees formed.** -/
theorem Walks.formed (h : Walks (writeRule types) σ p q ts us τ) : (∀ t ∈ ts, Formed types t) →
    FormedWalk types p q ts us := by
  induction h with
  | nil => exact fun _ => ⟨fun _ hu => (by cases hu), fun _ _ => rfl, fun _ hu => (by cases hu)⟩
  | @keep σ σ₁ σ₂ τ p q l ts us rest rest' opened _ _ _ _ ihb ihn =>
    intro hts
    have hnode := hts _ (.head _)
    have hbelow := ihb fun t ht => hnode.of_mem ht
    have hnext := ihn fun t ht => hts t (.tail _ ht)
    refine ⟨forall_mem_cons.2 ⟨hbelow.node hnode.root, hnext.formed⟩, fun _ hq => ?_, ?_⟩
    · rw [map_cons, map_cons, hnext.kinds hq hq]
      rfl
    · refine forall_mem_cons.2 ⟨⟨_, .head _, rfl⟩, fun u hu => ?_⟩
      obtain ⟨t, ht, hkind⟩ := hnext.origin u hu
      exact ⟨t, .tail _ ht, hkind⟩
  | @replace σ σ₁ σ₂ τ p q t ts us rest rest' opened _ hr _ _ ihb ihn =>
    intro hts
    obtain ⟨rfl, l, target, value, more, base, sw, rfl, hl, hsw, -, rfl⟩ := writeRule_replace hr
    obtain ⟨lt, ms, rfl, hk, -⟩ := swizzleTarget?_eq_some hsw
    have hnode := hts _ (.head _)
    have htarget := hnode.of_mem (.head _)
    have hbase := htarget.expression_of_mem (by simp [hk]) (.head _)
    have hvalue := hnode.expression_of_mem (by simp [hl])
      (.tail _ (.head _))
    have hsplit := ihb fun u hu => by
      obtain ⟨k, i, -, rfl⟩ := mem_splitTrees hu
      exact formed_splitTree hbase hvalue k i
    have hnext := ihn fun t ht => hts t (.tail _ ht)
    refine ⟨forall_mem_append.2 ⟨hsplit.formed, hnext.formed⟩, fun hp => absurd rfl hp, ?_⟩
    refine forall_mem_append.2 ⟨fun u hu => ?_, fun u hu => ?_⟩
    · obtain ⟨t, ht, hkind⟩ := hsplit.origin u hu
      obtain ⟨k, i, -, rfl⟩ := mem_splitTrees ht
      exact ⟨_, .head _, hkind.trans hl.symm⟩
    · obtain ⟨t, ht, hkind⟩ := hnext.origin u hu
      exact ⟨t, .tail _ ht, hkind⟩

/-- **A lowered program is formed.** -/
theorem LoweredFrom.formed {p₀ p : Program} {root : Nat} (hp : Parsed p₀ root)
    (h : LoweredFrom p₀ root p) : Formed Builtin.types (p.arena.tree root) := by
  obtain ⟨τ, hwalks⟩ := h.walks
  rw [hp.types] at hwalks
  refine (Walks.formed hwalks (forall_mem_singleton.2 ?_)).formed _ (.head _)
  exact formed_lowerReads closed_builtin templates_builtin (hp.shape.formed closed_builtin)

end VecLang.Swizzle
