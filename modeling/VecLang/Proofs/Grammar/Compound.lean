import VecLang.Proofs.Grammar.Parsing
import VecLang.Proofs.Grammar.ReadExpression

/-!
# Compound assignments

`T += E` assigns to `T` the sum of `T` and `E`: it is read as `(T) = (T) + (E)` is. Both texts hold
texts that are read on their own. What is read of such a text up to its end is read of it too where
something follows that does not go on with it, a parenthesis that closes or an operator that assigns.

* `isTail_close`, `isTail_compound`: what may follow.
* `operation_gives`, `closes_expression`: a text is read as it is on its own.
* `parse_compound`: **a compound assignment is read as it is written out.**
-/

namespace VecLang.Grammar

variable {env env' : Env} {s r : Text} {t e : Tree} {op : Operator} {c : Cursor} {d : Nat}

/-- The operators that an assignment can perform first. -/
def compoundOps : List Operator := [.add, .sub, .mul, .div]

/-- The operator, the sign of an assignment and the rest, behind a space. -/
def compoundTail (op : Operator) (r : Text) : Text := ' ' :: (op.symbol.toList ++ '=' :: r)

theorem isTail_of_heads {tail : Text} (hhead : ∀ s, Ends tail s → ∀ ch ∈ s.head?,
      Text.isWordChar ch = false ∧ ch ∉ marks)
    (hop : ∀ s, Ends tail s → ∀ op ∈ .neg :: .not :: levels.flatten, opAt s op.symbol = false)
    (hexp : ∀ s e, Ends tail s → exponent? (e :: s) = none) : IsTail tail where
  word {ch} h := by
    refine ⟨isSpacing_of_isWordChar h, fun s hs hch => ?_⟩
    cases h.symm.trans (hhead s hs ch hch).1
  mark {ch} h := ⟨isSpacing_of_mem_marks ch h, fun s hs hch => (hhead s hs ch hch).2 h⟩
  operator hs hmem := hop _ hs _ hmem
  exponent hs := hexp _ _ hs

theorem opAt_cons {ch : Char} (h : ch = ')' ∨ ch = ' ') :
    ∀ op ∈ .neg :: .not :: levels.flatten, opAt (ch :: r) op.symbol = false := by
  have hfact : ∀ op ∈ .neg :: .not :: levels.flatten, op.symbol.toList ≠ [] ∧
      op.symbol.toList.head? ≠ some ')' ∧ op.symbol.toList.head? ≠ some ' ' := by decide
  intro op hop
  obtain ⟨hne, hclose, hspace⟩ := hfact op hop
  refine opAt_eq_false (fun x hx => ?_) hne
  cases hx
  rcases h with rfl | rfl
  · exact hclose
  · exact hspace

theorem ends_close (hs : Ends (')' :: r) s) : s = ')' :: r :=
  hs.elim id fun h => h.trans (skip_cons (by decide))

theorem isTail_close (r : Text) : IsTail (')' :: r) := by
  refine isTail_of_heads (fun s hs ch hch => ?_) (fun s hs => ?_) fun s e hs => ?_
  all_goals rw [ends_close hs] at *
  · cases hch
    decide
  · exact opAt_cons (.inl rfl)
  · exact ite_self _

theorem halts_close (r : Text) : March.Halts (')' :: r) := by
  intro s hs a ha
  rw [ends_close hs]
  exact (stops_of_head (k := 1) (by simp [closers])).assigns (Nat.le_refl _) a ha

theorem skip_compoundTail (hop : op ∈ compoundOps) :
    skip (compoundTail op r) = op.symbol.toList ++ '=' :: r := by
  have hfact : ∀ op ∈ compoundOps, ∃ ch l, op.symbol.toList = ch :: l ∧ isSpacing ch = false := by
    intro op _
    cases op <;> exact ⟨_, _, rfl, rfl⟩
  obtain ⟨ch, l, hl, hch⟩ := hfact op hop
  rw [compoundTail, skip_cons_blank rfl, hl]
  exact skip_cons hch

/-- Where a compound assignment stands, an operator is recognised by its two characters. -/
theorem opAt_compound (hop : op ∈ compoundOps) {sym : String} (h : sym.length ≤ 2) :
    opAt (op.symbol.toList ++ '=' :: r) sym = opAt (op.symbol.toList ++ ['=']) sym := by
  have hlen : ∀ op ∈ compoundOps, 2 ≤ (op.symbol.toList ++ ['=']).length := by decide
  rw [show op.symbol.toList ++ '=' :: r = (op.symbol.toList ++ ['=']) ++ r by simp]
  exact opAt_append (hlen op hop) (Nat.le_trans h (hlen op hop))

theorem isTail_compound (hop : op ∈ compoundOps) (r : Text) : IsTail (compoundTail op r) := by
  have hhead : ∀ op ∈ compoundOps, ∀ ch ∈ (op.symbol.toList ++ ['=']).head?,
      Text.isWordChar ch = false ∧ ch ∉ marks := by decide
  have hops : ∀ op ∈ compoundOps, ∀ op' ∈ .neg :: .not :: levels.flatten,
      opAt (op.symbol.toList ++ ['=']) op'.symbol = false := by decide
  refine isTail_of_heads (fun s hs ch hch => ?_) (fun s hs op' hop' => ?_) fun s e hs => ?_
  all_goals
    unfold Ends at hs
    rw [skip_compoundTail hop] at hs
    rcases hs with rfl | rfl
  · cases hch
    decide
  · refine hhead op hop ch ?_
    revert hch
    cases op.symbol.toList <;> exact id
  · exact opAt_cons (.inr rfl) op' hop'
  · rw [opAt_compound hop op'.length_symbol_le]
    exact hops op hop op' hop'
  · exact ite_self _
  · simp only [compoundOps, List.mem_cons, List.not_mem_nil, or_false] at hop
    rcases hop with rfl | rfl | rfl | rfl <;> exact ite_self _

/-- The parser of conditional expressions and of what binds tighter. -/
def operation (env : Env) : ExprParser :=
  ternary (binary (unary env (expression env)) levels) (expression env)

/-- The parser reads the text to its end, as the tree. -/
def ReadsAs (p : ExprParser) (s : Text) (t : Tree) : Prop :=
  ∃ c, p (Cursor.start s) = .ok (some (t, c)) ∧ c.atEnd = true

theorem gives_of_agree {m : March env env'} {P : Tree → Prop} {n : Nat}
    {y : Parse (Option (At Tree))}
    (h : m.Agree (Option.Rel (m.Alike (m.Twin P) n)) (.ok (some (t, c))) y) (hc : c.atEnd = true) :
    Gives t (skip m.tail) y := by
  cases h with
  | ok hab =>
    cases hab with
    | @some _ b hab =>
      obtain ⟨t', c'⟩ := b
      have hd : m.Abreast c c' := hab.cursors.abreast
      have hrest := hd.rest
      rw [show c.rest = [] from List.isEmpty_iff.1 hc] at hrest
      refine ⟨t', c', rfl, hab.value.same.symm, ?_⟩
      rcases hrest.start_cases with ⟨-, he⟩ | ⟨_, _, _, -, hr, -⟩ | ⟨_, _, _, _, -, -, hr, -⟩
      · rcases he with he | he
        · rw [← he, skip_eq_self hd.settled']
        · exact he
      all_goals cases hr

section Runs

variable {tail : Text} (htypes : env'.types = env.types)

include htypes

theorem operation_gives (ht : ReadsAs (operation env) s t) (htail : IsTail tail)
    (hc : c.rest = skip (s ++ tail)) (hd : c.rest.length ≤ d) :
    Gives t (skip tail) (ternary (binary (unary env' (expressionWithin env' d)) levels)
      (expressionWithin env' d) c) := by
  obtain ⟨c₀, hread, hend⟩ := ht
  have hab : (March.anywhere tail htail htypes).Abreast (Cursor.start s) c :=
    March.abreast_anywhere (Extends.append_tail tail s) (Cursor.rest_start s) hc
  have hagree := March.operation_agree (March.expression_nested
    (Nat.le_trans (Nat.lt_succ_iff.1 hab.lt_bounds.2) hd)) hab (Nat.lt_succ_self _)
  rw [show ternary _ _ (Cursor.start s) = _ from hread] at hagree
  exact gives_of_agree hagree hend

theorem closes_operation (ht : ReadsAs (operation env) s t) : Closes env' s t := by
  intro d c r hc hd
  obtain ⟨d, rfl⟩ : ∃ n, d = n + 1 := ⟨d - 1, by omega⟩
  obtain ⟨u, c', he, hu, hr⟩ :=
    operation_gives htypes ht (isTail_close r) hc (Nat.lt_succ_iff.1 hd)
  rw [skip_cons (by decide)] at hr
  exact ⟨u, c', assignmentWithin_operand he (hr ▸ halts_close r _ (.inl rfl)), hu, hr⟩

theorem closes_expression (he : ReadsAs (expression env) s e) : Closes env' s e := by
  intro d c r hc hd
  obtain ⟨c₀, hread, hend⟩ := he
  have hab : (March.anywhere (')' :: r) (isTail_close r) htypes).Abreast (Cursor.start s) c :=
    March.abreast_anywhere (Extends.append_tail _ s) (Cursor.rest_start s) hc
  rcases March.expression_nested (Nat.le_trans hab.lt_bounds.2 hd) hab (Nat.lt_succ_self _) with
    hagree | ⟨_, _, -, hlost⟩
  · rw [hread] at hagree
    have hclose : skip (')' :: r) = ')' :: r := skip_cons (by decide)
    rw [← hclose]
    exact gives_of_agree hagree hend
  · exact absurd (halts_close r) hlost.2

theorem assignmentWithin_gives {n : Nat} (he : ReadsAs (expression env) s e)
    (hc : c.rest = skip s) (hd : c.weight ≤ d) (hn : c.weight < n) :
    Gives e [] (assignmentWithin env' (ternary (binary (unary env' (expressionWithin env' d)) levels)
      (expressionWithin env' d)) n c) := by
  obtain ⟨c₀, hread, hend⟩ := he
  have hext := Extends.append_tail [] s
  rw [List.append_nil] at hext
  have hab : (March.anywhere [] isTail_nil htypes).Abreast (Cursor.start s) c :=
    March.abreast_anywhere hext (Cursor.rest_start s) hc
  have hweight : (Cursor.start s).weight = c.weight := by
    unfold Cursor.weight
    rw [Cursor.rest_start, hc]
  rcases March.assignmentWithin_nested (n := (Cursor.start s).rest.length + 1)
      (March.operation_agree (March.expressionWithin_nested (Nat.lt_succ_iff.1 hab.lt_bounds.1)
        (hweight ▸ hd))) hab (Nat.lt_succ_self _) hab.lt_bounds.1 (hweight ▸ hn) with
    hagree | ⟨_, _, -, hlost⟩
  · rw [show assignmentWithin env _ _ _ = _ from hread] at hagree
    exact gives_of_agree hagree hend
  · exact absurd March.halts_nil hlost.2

end Runs

def compoundTree (op : Operator) (t e : Tree) : Tree :=
  .operated .assign {} .assign [t, .operated .binary {} op [t, e]]

variable {envT envE : Env} {s' : Text}

theorem compound_gives (hT : env.types = envT.types) (hE : env.types = envE.types)
    (hop : op ∈ compoundOps) (ht : ReadsAs (operation envT) s t) (he : ReadsAs (expression envE) s' e)
    (hc : c.rest = skip (s ++ compoundTail op (' ' :: s'))) :
    Gives (compoundTree op t e) [] (expression env c) := by
  obtain ⟨u, c₁, h₁, hu, hr₁⟩ :=
    operation_gives hT ht (isTail_compound hop (' ' :: s')) hc (Nat.le_refl _)
  rw [skip_compoundTail hop] at hr₁
  have hfact : ∀ op ∈ compoundOps, (assignments.find? (opAt (op.symbol.toList ++ ['=']) ·.1) =
      some (op.symbol ++ "=", some op)) ∧ ∀ a ∈ assignments, a.1.length ≤ 2 := by decide
  have hfind : assignments.find? (c₁.startsWithOp ·.1) = some (op.symbol ++ "=", some op) := by
    rw [← (hfact op hop).1]
    refine List.find?_congr fun a ha => ?_
    show opAt c₁.rest a.1 = _
    rw [hr₁, opAt_compound hop ((hfact op hop).2 a ha)]
  have hr₂ : (c₁.after (op.symbol ++ "=")).rest = skip s' := by
    rw [Cursor.rest_after (r := ' ' :: s') _ (by rw [hr₁, String.toList_append]; simp)]
    exact skip_cons_blank rfl
  have hlt : (c₁.after (op.symbol ++ "=")).weight < c.rest.length := by
    refine Nat.lt_of_lt_of_le ?_ (weight_le_length c.rest)
    have hsign : weight ('=' :: ' ' :: s') = 1 + weight s' := weight_append ['=', ' '] s'
    unfold Cursor.weight
    rw [hr₂, weight_skip, hc, weight_skip, weight_append, ← weight_skip (compoundTail _ _),
      skip_compoundTail hop, weight_append, hsign]
    omega
  obtain ⟨v, c₃, h₃, hv, hr₃⟩ := assignmentWithin_gives hE he hr₂ (Nat.le_of_lt hlt) hlt
  refine ⟨.operated .assign u.pos .assign [u, .operated .binary (env.pos c₁) op [u, v]], c₃, ?_, ?_,
    hr₃⟩
  · show assignmentWithin env _ (c.rest.length + 1) c = _
    rw [assignmentWithin, h₁]
    simp only [ok_bind, hfind, h₃]
    rfl
  · simp [compoundTree, hu, hv]

theorem Completes.level {k j : Nat} (h : Completes env k ('(' :: s) t) (hj : 1 ≤ j) (hjk : j ≤ k)
    (hk : k ≤ 11) : Completes env j ('(' :: s) t := by
  induction hjk with
  | refl => exact h
  | step hle ih =>
    exact ih (h.looser (Nat.le_trans hj hle) (by omega) ⟨'(', s, rfl, .inr (.inl rfl)⟩).1 (by omega)

/-- The text in which everything is written out. -/
def writtenOut (op : Operator) (s s' : Text) : Text :=
  '(' :: (s ++ [')']) ++ ' ' :: '=' :: ' ' ::
    ('(' :: (s ++ [')']) ++ ' ' :: (op.symbol.toList ++ ' ' :: ('(' :: (s' ++ [')']))))

theorem writtenOut_gives (hop : op ∈ compoundOps) (ht : Closes env s t) (he : Closes env s' e)
    (hc : c.rest = writtenOut op s s') : Gives (compoundTree op t e) [] (expression env c) := by
  have hskip : ∀ (l r : Text), skip ('(' :: l ++ r) = '(' :: l ++ r := fun _ _ => skip_cons rfl
  have hfact : ∀ op ∈ compoundOps, op ∈ levels.flatten := by decide
  have hmem := hfact op hop
  obtain ⟨hprec, hprec'⟩ := precedence_bounds hmem
  have hleft : GroupsLeft op.precedence := .inl ⟨hprec, hprec'⟩
  have htarget : ∀ {j}, 1 ≤ j → j ≤ 11 → Completes env j ('(' :: (s ++ [')'])) t :=
    fun h₁ h₂ => (completes_parens ht).level h₁ h₂ (Nat.le_refl _)
  have hvalue : Completes env (op.precedence + 1) ('(' :: (s' ++ [')'])) e :=
    (completes_parens he).level (by omega) (by omega) (Nat.le_refl _)
  have hsum : Completes env op.precedence _ (.operated .binary {} op [t, e]) :=
    .of_leads hleft (leads_binary hmem
      (.of_completes hleft (htarget (by omega) (by omega))) hvalue fun r => hskip _ r)
  have hwhole : Completes env 1 (writtenOut op s s') (compoundTree op t e) :=
    completes_assign (htarget (by omega) (by omega))
      (hsum.level (by omega) (by omega) (by omega)) fun r => hskip _ r
  exact hwhole.expressionWithin (by rw [hc, List.append_nil]) (Nat.lt_succ_self _)
    (Context.follows_nil (by decide))

end VecLang.Grammar

namespace VecLang.Context

open Grammar

theorem readsAs_of_parseTree {ctx : Context} {s : Text} {e : Tree}
    (h : ctx.parseTree .expression s = .ok e) :
    ReadsAs (expression ⟨ctx.types, LineIndex.ofText s⟩) s e := by
  unfold parseTree produce at h
  simp only at h
  split at h
  · next t c hread =>
    obtain ⟨r, hr, hsome⟩ := Except.bind_eq_ok.1 hread
    cases r with
    | none => cases hsome
    | some r =>
      cases hsome
      split at h
      · next hend =>
        cases h
        exact ⟨c, hr, hend⟩
      · cases h
  · split at h <;> cases h

section Texts

variable {ctx : Context} {s s' : Text} {t e : Tree} {op : Operator} (hop : op ∈ compoundOps)
  (ht : ReadsAs (operation ⟨ctx.types, LineIndex.ofText s⟩) s t)
  (he : ReadsAs (expression ⟨ctx.types, LineIndex.ofText s'⟩) s' e)

include hop ht he

theorem parseTree_compound :
    ∃ u, ctx.parseTree .expression (s ++ compoundTail op (' ' :: s')) = .ok u ∧
      u.unplaced = (compoundTree op t e).unplaced := by
  refine parseTree_of_gives (compound_gives ?_ ?_ hop ht he (Cursor.rest_start _))
  · rfl
  · rfl

theorem parseTree_writtenOut :
    ∃ u, ctx.parseTree .expression (writtenOut op s s') = .ok u ∧
      u.unplaced = (compoundTree op t e).unplaced := by
  refine parseTree_of_gives (writtenOut_gives hop (closes_operation ?_ ht) (closes_expression ?_ he) ?_)
  · rfl
  · rfl
  · exact (Cursor.rest_start _).trans (skip_cons rfl)

end Texts

/-- **A compound assignment is read as it is written out.** Let one text be read to its end as a
conditional expression or as what binds tighter, and another one as an expression. Then the first
text, an operator that assigns and the second text are parsed, and so is the assignment to the
first text of the operation on both, each in parentheses. Both are the assignment to the one tree of
the operation on both trees, apart from positions. -/
theorem parse_compound (ctx : Context) {a a' : Arena} (ha : a.WellFormed) (ha' : a'.WellFormed)
    {op : Operator} (hop : op ∈ [Operator.add, .sub, .mul, .div]) {target value : String} {t e : Tree}
    (ht : ReadsAs (operation ⟨ctx.types, LineIndex.ofText target.toList⟩) target.toList t)
    (he : ctx.parseTree .expression value.toList = .ok e) :
    ∃ b id b' id', ctx.parse a .expression (target ++ " " ++ op.symbol ++ "= " ++ value) = .ok (b, id) ∧
      ctx.parse a' .expression
        ("(" ++ target ++ ") = (" ++ target ++ ") " ++ op.symbol ++ " (" ++ value ++ ")") =
          .ok (b', id') ∧
      (b.tree id).unplaced = (b'.tree id').unplaced ∧
      (b.tree id).unplaced = (compoundTree op t e).unplaced := by
  have hcompound : (target ++ " " ++ op.symbol ++ "= " ++ value).toList =
      target.toList ++ compoundTail op (' ' :: value.toList) := by
    simp [compoundTail]
  have hwritten : ("(" ++ target ++ ") = (" ++ target ++ ") " ++ op.symbol ++ " (" ++ value ++
      ")").toList = writtenOut op target.toList value.toList := by
    simp [writtenOut]
  obtain ⟨u, hu, hut⟩ := parseTree_compound hop ht (readsAs_of_parseTree he)
  obtain ⟨u', hu', hut'⟩ := parseTree_writtenOut hop ht (readsAs_of_parseTree he)
  rw [← hcompound] at hu
  rw [← hwritten] at hu'
  obtain ⟨b, id, hb, hbt⟩ := exists_parse ha hu
  obtain ⟨b', id', hb', hbt'⟩ := exists_parse ha' hu'
  exact ⟨b, id, b', id', hb, hb', by rw [hbt, hbt', hut, hut'], by rw [hbt, hut]⟩

def choiceTree : Tree :=
  .plain .ternary {} [.valued .ident {} (.name "a") [], .valued .ident ⟨0, 4, 4⟩ (.name "b") [],
    .valued .ident ⟨0, 8, 8⟩ (.name "c") []]

def decrementTree : Tree :=
  .operated .assign {} .assign [.valued .ident {} (.name "d") [],
    .operated .binary ⟨0, 2, 2⟩ .sub
      [.valued .ident {} (.name "d") [], .valued .intConst ⟨0, 5, 5⟩ (.int 2) []]]

theorem parse_compound_choice : ∃ b id b' id',
    (Context.new "" "").parse {} .expression "a ? b : c *= d -= 2" = .ok (b, id) ∧
      (Context.new "" "").parse seedling .expression "(a ? b : c) = (a ? b : c) * (d -= 2)" =
        .ok (b', id') ∧
      (b.tree id).unplaced = (b'.tree id').unplaced ∧
      (b.tree id).unplaced = (compoundTree .mul choiceTree decrementTree).unplaced := by
  have htarget : ReadsAs (operation ⟨(Context.new "" "").types, LineIndex.ofText "a ? b : c".toList⟩)
      "a ? b : c".toList choiceTree := ⟨⟨[], 9⟩, by decide +kernel, rfl⟩
  have hvalue : (Context.new "" "").parseTree .expression "d -= 2".toList = .ok decrementTree := by
    decide +kernel
  have hcompound : "a ? b : c" ++ " " ++ Operator.mul.symbol ++ "= " ++ "d -= 2" =
      "a ? b : c *= d -= 2" := by decide +kernel
  have hwritten : "(" ++ "a ? b : c" ++ ") = (" ++ "a ? b : c" ++ ") " ++ Operator.mul.symbol ++
      " (" ++ "d -= 2" ++ ")" = "(a ? b : c) = (a ? b : c) * (d -= 2)" := by decide +kernel
  have hboth := parse_compound (Context.new "" "") Arena.wellFormed_empty
    (Arena.wellFormed_empty.add { kind := .ret }) (by decide : Operator.mul ∈ _) htarget hvalue
  rw [hcompound, hwritten] at hboth
  exact hboth

end VecLang.Context
