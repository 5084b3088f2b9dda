import VecLang.Proofs.Swizzle.Formed

/-!
# Where functions stand in a lowered program

The lowering makes expressions and moves nothing else. So functions stay where they are, directly
below the root.

* `NoFunctionBelow`: how far down a tree has functions.
* `NoFunctionBelow.lowerReads`, `Walks.noFunctionBelow`: **none comes to stand further down.**
-/

namespace VecLang.Swizzle

open ScopeWalk Arena

variable {types : TypeTable} {σ τ : Names} {p q : Place} {t : Tree} {ts us : List Tree}

/-- No function is in the subtrees that are `n` levels down. -/
def NoFunctionBelow : Nat → Tree → Prop
  | 0, t => ∀ l ∈ t.preorder, l.kind ≠ .function
  | n + 1, t => ∀ c ∈ t.children, NoFunctionBelow n c

theorem NoFunctionBelow.of_none (h : ∀ l ∈ t.preorder, l.kind ≠ .function) (n : Nat) :
    NoFunctionBelow n t := by
  induction n generalizing t with
  | zero => exact h
  | succ n ih =>
    obtain ⟨l, ts⟩ := t
    exact fun c hc => ih fun x hx => h x (Rose.mem_preorder_of_mem hc hx)

theorem NoFunctionBelow.of_expression (h : FormedExpression types t) (n : Nat) :
    NoFunctionBelow n t :=
  .of_none (fun l hl => (h.inert l hl).2.1) n

theorem NoFunctionBelow.lowerReads (htypes : types.Closed) (ht : Templates types)
    (hf : Formed types t) {n : Nat} (h : NoFunctionBelow n t) :
    NoFunctionBelow n (Swizzle.lowerReads types σ p t) := by
  induction n generalizing t σ p with
  | zero =>
    intro l hl
    rcases mem_preorder_lowerReads hl with hl | ⟨hl, -⟩
    · exact h l hl
    · exact fun he => by rw [he] at hl; revert hl; decide
  | succ n ih =>
    obtain ⟨l, ts⟩ := t
    by_cases hl : l.kind.isExpression = true
    · exact .of_expression ⟨formed_lowerReads htypes ht hf,
        (like_lowerReads types σ p _).isExpression hl⟩ _
    · rw [lowerReads_of_kind fun he => hl (he ▸ rfl)]
      intro c hc
      obtain ⟨t, ht, σ', p', rfl⟩ := mem_lowerReadsAll hc
      exact ih (hf.of_mem ht) (h t ht)

/-- **The walk of the writes brings no function further down.** -/
theorem Walks.noFunctionBelow (h : Walks (writeRule types) σ p q ts us τ) :
    ∀ n, (∀ t ∈ ts, Formed types t) → (∀ t ∈ ts, NoFunctionBelow n t) →
      ∀ u ∈ us, NoFunctionBelow n u := by
  induction h with
  | nil => exact fun _ _ h => h
  | @keep σ σ₁ σ₂ τ p q l ts us rest rest' opened _ _ _ _ ihb ihn =>
    intro n hf hts
    obtain ⟨hnode, hrest⟩ := List.forall_mem_cons.1 hts
    obtain ⟨hfnode, hfrest⟩ := List.forall_mem_cons.1 hf
    refine List.forall_mem_cons.2 ⟨?_, ihn n hfrest hrest⟩
    have hbelow := fun m => ihb m fun t ht => hfnode.of_mem ht
    cases n with
    | zero =>
      refine Rose.forall_preorder_node (hnode l (by simp)) ?_
      exact hbelow 0 fun t ht x hx => hnode x (Rose.mem_preorder_of_mem ht hx)
    | succ n => exact hbelow n hnode
  | replace _ hr _ _ ihb ihn =>
    intro n hf hts
    obtain ⟨-, l, target, value, more, base, sw, rfl, hl, hsw, -, rfl⟩ := writeRule_replace hr
    obtain ⟨lt, ms, rfl, hk, -⟩ := swizzleTarget?_eq_some hsw
    obtain ⟨-, hrest⟩ := List.forall_mem_cons.1 hts
    obtain ⟨hnode, hfrest⟩ := List.forall_mem_cons.1 hf
    have hbase := (hnode.of_mem (.head _)).expression_of_mem (by simp [hk]) (.head _)
    have hvalue := hnode.expression_of_mem (by simp [hl]) (.tail _ (.head _))
    have hsplit : ∀ u ∈ splitTrees l.pos sw base value, FormedExpression types u := by
      intro u hu
      obtain ⟨k, i, -, rfl⟩ := mem_splitTrees hu
      exact ⟨formed_splitTree hbase hvalue k i, rfl⟩
    exact List.forall_mem_append.2 ⟨ihb n (fun u hu => (hsplit u hu).1)
      fun u hu => .of_expression (hsplit u hu) n, ihn n hfrest hrest⟩

theorem LoweredFrom.noFunctionBelow {p₀ p : Program} {root : Nat} (hp : Parsed p₀ root)
    (h : LoweredFrom p₀ root p) {n : Nat} (hparsed : NoFunctionBelow n (p₀.arena.tree root)) :
    NoFunctionBelow n (p.arena.tree root) := by
  obtain ⟨τ, hwalks⟩ := h.walks
  rw [hp.types] at hwalks
  have hformed := hp.shape.formed closed_builtin
  exact Walks.noFunctionBelow hwalks n
    (List.forall_mem_singleton.2 (formed_lowerReads closed_builtin templates_builtin hformed))
    (List.forall_mem_singleton.2 (hparsed.lowerReads closed_builtin templates_builtin hformed)) _
    (.head _)

end VecLang.Swizzle
