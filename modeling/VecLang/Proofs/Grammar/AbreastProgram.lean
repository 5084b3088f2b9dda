import VecLang.Proofs.Grammar.AbreastExpression

/-!
# Two runs over programs

The productions above expressions, for texts that differ in their blanks alone. As before, both
runs come to the same tree, and it has the shape and the positions of what is read.

* `statement_agree`, `program_agree`, `produce_agree`: the productions.
* `March.alone`, `March.anywhere`: a run beside itself, and two runs anywhere.
* `March.limits_not_reached`: no run comes to a limit of the parser.
* `parseTree_shape`: **what is read has the shape of what it is read as.**
-/

namespace VecLang.Grammar

variable {start start' : Cursor} {ty : Ty} {v : String}

/-- The shape of what a production reads. -/
def Production.IsTree (types : TypeTable) : Production → Tree → Prop
  | .program => IsProgram types
  | .statements => IsStatement types
  | .expression => IsExpression types

namespace March

open Cursor

variable {env env' : Env} {m : March env env'} {stmt stmt' : StmtParser} {k n n' : Nat}
  {c c' : Cursor}

/-! ### Declarations -/

def IsListed (types : TypeTable) (ty : Ty) : Prop := ∃ n, IsName n ∧ types.get? n = some ty

theorem typedName_cases (h : m.Abreast c c') :
    (typeName? env c = none ∧ typeName? env' c' = none) ∨
      ∃ ty d d', typeName? env c = some (ty, d) ∧ typeName? env' c' = some (ty, d') ∧
        m.Within c.weight d d' ∧ IsListed env.types ty ∧ ((d.name? = none ∧ d'.name? = none) ∨
          ∃ n e e', d.name? = some (n, e) ∧ d'.name? = some (n, e') ∧ IsName n ∧
            m.Within d.weight e e') := by
  unfold typeName?
  rcases h.name? with ⟨hx, hy⟩ | ⟨n, d, d', hx, hy, hn, hd⟩
  · rw [hx, hy]
    exact .inl ⟨rfl, rfl⟩
  simp only [hx, hy, m.types]
  cases hty : env.types.get? n with
  | none => exact .inl ⟨rfl, rfl⟩
  | some ty => exact .inr ⟨ty, d, d', rfl, rfl, hd, ⟨n, hn, hty⟩, hd.abreast.name?⟩

theorem rejectUnknownType_agree (h : m.Abreast c c') :
    m.Agree Eq (rejectUnknownType env c) (rejectUnknownType env' c') := by
  unfold rejectUnknownType
  rcases h.name? with ⟨hx, hy⟩ | ⟨n, d, d', hx, hy, -, hd⟩
  · rw [hx, hy]
    exact .ok rfl
  have hnext : d'.name?.isSome = d.name?.isSome := by
    rcases hd.abreast.name? with ⟨hx, hy⟩ | ⟨_, _, _, hx, hy, -⟩ <;> simp [hx, hy]
  simp only [hx, hy, m.types, hnext]
  split
  · exact .error h nofun
  · exact .ok rfl

theorem arraySuffix_agree (ty : Ty) (h : m.Abreast c c') :
    m.Agree (m.Alike (fun t t' => t = t' ∧ ∃ x, Suffix ty t x) (c.weight + 1)) (arraySuffix ty c)
      (arraySuffix ty c') := by
  unfold arraySuffix
  have hopen := h.symbol? "[" (.plain (by decide))
  generalize c.symbol? "[" = x, c'.symbol? "[" = y at hopen ⊢
  cases hopen with
  | none => exact .ok ⟨⟨rfl, _, .none⟩, h.within⟩
  | @some d d' hd =>
    have hlt := hd.lt
    simp only [(digits_extends m.isTail hd.abreast.rest).1]
    split
    · refine (hd.abreast.expect "]" (by decide)).bind fun e e' he => ?_
      exact .ok ⟨⟨rfl, _, .unsized⟩, he.mono (by omega)⟩
    · next hsize =>
      have hne : d.rest.takeWhile Char.isDigit ≠ [] := by
        intro hnil
        rw [hnil] at hsize
        exact hsize rfl
      have he := hd.abreast.behindWhile
        (fun _ hch => ⟨isSpacing_of_isDigit hch, isAscii_of_isDigit hch⟩) hne
      have hlt' := he.lt
      refine (he.abreast.expect "]" (by decide)).bind fun e e' he' => ?_
      simp only [Bool.or_eq_true, decide_eq_true_eq, not_or, Nat.not_lt] at hsize
      exact .ok ⟨⟨rfl, _, .sized hsize.2⟩, he'.mono (by omega)⟩

theorem qualifier?_agree (h : m.Abreast c c') :
    Option.Rel (m.Alike Eq c.weight) (qualifier? c) (qualifier? c') := by
  have hall : ∀ qs : List Qualifier, Option.Rel (m.Alike Eq c.weight)
      (qs.findSome? fun q => (c.keyword? q.keyword).map (q, ·))
      (qs.findSome? fun q => (c'.keyword? q.keyword).map (q, ·)) := by
    intro qs
    induction qs with
    | nil => exact .none
    | cons q qs ih =>
      have hkeyword := h.keyword? q.keyword (.plain (by cases q <;> decide))
      rw [List.findSome?_cons, List.findSome?_cons]
      generalize c.keyword? q.keyword = x, c'.keyword? q.keyword = y at hkeyword ⊢
      cases hkeyword with
      | none => exact ih
      | some hd => exact .some ⟨rfl, hd⟩
  exact hall Qualifier.all

theorem halts_of_nil (hm : m.tail = []) : Halts m.tail := hm ▸ halts_nil

theorem declarationRest_agree (hm : m.tail = []) {nameAt nameAt' : Cursor} (hstart : m.Place start)
    (hname : m.Place nameAt) (q : Option Qualifier) (hty : IsListed env.types ty) (hv : IsName v)
    (h : m.Abreast c c') :
    m.Agree (m.Alike (m.Twin (IsDeclaration env.types q)) c.weight)
      (declarationRest env start nameAt q ty v c) (declarationRest env' start' nameAt' q ty v c') := by
  refine (arraySuffix_agree ty h).bind fun a b hab => ?_
  obtain ⟨ty', d⟩ := a
  obtain ⟨ty'', d'⟩ := b
  obtain ⟨hsame, x, hx⟩ := hab.value
  cases (hsame : ty' = ty'')
  have hd : m.Within (c.weight + 1) d d' := hab.cursors
  have hlt := hd.lt
  obtain ⟨w, hw, hget⟩ := hty
  have hdecl : IsDeclared env.types ty' := ⟨w, ty, x, hw, hget, hx⟩
  have htype : m.Twin (fun _ => True) (typeTree q (env.pos start) ty')
      (typeTree q (env'.pos start') ty') :=
    .node (Q := fun _ => True) .nil rfl (m.standing.marks hstart) trivial
  -- the semicolon, behind what the variable starts with
  have hend : ∀ {ts ts' : List Tree} {e e' : Cursor},
      List.Forall₂ (m.Twin fun _ => True) ts ts' → m.Within (c.weight + 1) e e' →
      IsDeclaration env.types q
        (.valued .varDecl (env.pos nameAt) (.name v) (typeTree q (env.pos start) ty' :: ts)) →
      m.Agree (m.Alike (m.Twin (IsDeclaration env.types q)) c.weight)
        (e.expect ";" >>= fun c => pure (Tree.valued .varDecl (env.pos nameAt) (.name v)
          (typeTree q (env.pos start) ty' :: ts), c))
        (e'.expect ";" >>= fun c => pure (Tree.valued .varDecl (env'.pos nameAt') (.name v)
          (typeTree q (env'.pos start') ty' :: ts'), c)) := by
    intro ts ts' e e' hts he hshape
    have hlt' := he.lt
    refine (he.abreast.expect ";" (by decide)).bind fun f f' hf => ?_
    exact .ok ⟨.node (.cons htype hts) rfl (m.standing.marks hname) hshape, hf.mono (by omega)⟩
  have heq := hd.abreast.symbol? "=" (.plain (by decide))
  simp only
  generalize d.symbol? "=" = x, d'.symbol? "=" = y at heq ⊢
  cases heq with
  | none => exact hend .nil hd (.bare hv hdecl)
  | @some e e' he =>
    have hlt' := he.lt
    simp only [he.abreast.startsWith (.plain (by decide) : m.Legible "=")]
    by_cases htwice : e.startsWith "=" = true
    · rw [if_pos htwice, if_pos htwice]
      exact hend .nil hd (.bare hv hdecl)
    · rw [if_neg htwice, if_neg htwice]
      refine (requiredExpression_agree (halts_of_nil hm) he.abreast).bind fun x y hxy => ?_
      exact hend (.cons hxy.value.any .nil) (hxy.cursors.mono (by omega))
        (.initial hv hdecl hxy.value.shape)

/-! ### Statements -/

/-- The parsers of statements agree where less than `k` is left to read. -/
def LockstepStatement (m : March env env') (k : Nat) (stmt stmt' : StmtParser) : Prop :=
  ∀ ⦃c c' : Cursor⦄, m.Abreast c c' → c.weight < k →
    m.Agree (m.Alike (Option.Rel (m.Twin (IsStatement env.types))) c.weight) (stmt c) (stmt' c')

def IsBlock (types : TypeTable) (t : Tree) : Prop := IsStatement types t ∧ t.kind = .block

theorem twins_append_toList {P : Tree → Prop} {t t' : Option Tree} {ts ts' : List Tree}
    (ht : Option.Rel (m.Twin P) t t') (hts : List.Forall₂ (m.Twin P) ts ts') :
    List.Forall₂ (m.Twin P) (t.toList ++ ts) (t'.toList ++ ts') := by
  cases ht with
  | none => exact hts
  | some ht => exact .cons ht hts

theorem block_twin {pos pos' : Pos} {ts ts' : List Tree} (hpos : m.Mark pos)
    (h : List.Forall₂ (m.Twin (IsStatement env.types)) ts ts') :
    m.Twin (IsBlock env.types) (.plain .block pos ts) (.plain .block pos' ts') :=
  .node h rfl hpos ⟨.block (twins_shape h), rfl⟩

section

variable (hm : m.tail = []) (hs : m.LockstepStatement k stmt stmt') (h : m.Abreast c c')
include hm hs h

theorem blockRest_agree (hk : c.weight < k) (hn : c.weight < n) (hn' : c.weight < n') :
    m.Agree (m.Alike (List.Forall₂ (m.Twin (IsStatement env.types))) c.weight) (blockRest stmt n c)
      (blockRest stmt' n' c') := by
  revert hk
  refine bounded_runs ?_ h hn hn'
  intro n n' c c' h ih hk
  rw [blockRest, blockRest]
  have hclose := h.symbol? "\x7d" (.of_nil hm (by decide))
  generalize c.symbol? "\x7d" = x, c'.symbol? "\x7d" = y at hclose ⊢
  cases hclose with
  | some hd => exact .ok ⟨.nil, hd⟩
  | none =>
    simp only [h.atEnd hm]
    split
    · exact .error h nofun
    -- every statement has a token, also the empty one
    · refine (hs h hk).bind fun x y hxy => ?_
      have hlt := hxy.cursors.lt
      refine (ih hxy.cursors.abreast hlt (by omega)).bind fun z w hzw => ?_
      exact .ok ⟨twins_append_toList hxy.value hzw.value, hzw.cursors.mono (by omega)⟩

theorem block_agree (hk : c.weight < k + 1) (hopen : c.startsWith "\x7b" = true) :
    m.Agree (m.Alike (m.Twin (IsBlock env.types)) c.weight) (block env stmt c)
      (block env' stmt' c') := by
  have hd := (h.after (by decide : IsToken "\x7b".toList) hopen).2
  have hlt := hd.lt
  obtain ⟨hn, hn'⟩ := h.lt_bounds
  refine (blockRest_agree hm hs hd.abreast (by omega) (by omega) (by omega)).bind fun x y hxy => ?_
  exact .ok ⟨block_twin (m.standing.marks h.place) hxy.value, hxy.cursors.mono (by omega)⟩

theorem branch_agree (hk : c.weight < k) :
    m.Agree (m.Alike (m.Twin (IsBlock env.types)) c.weight) (branch env stmt c)
      (branch env' stmt' c') := by
  unfold branch
  rw [h.startsWith (.of_nil hm (by decide) : m.Legible "\x7b"), h.atEnd hm]
  by_cases hopen : c.startsWith "\x7b" = true
  · rw [if_pos hopen, if_pos hopen]
    exact block_agree hm hs h (by omega) hopen
  · rw [if_neg hopen, if_neg hopen]
    split
    · exact .error h nofun
    · refine (hs h hk).bind fun x y hxy => ?_
      have hlist := twins_append_toList hxy.value .nil
      rw [List.append_nil, List.append_nil] at hlist
      exact .ok ⟨block_twin (m.standing.marks h.place) hlist, hxy.cursors⟩

end

def IsConditional (types : TypeTable) (t : Tree) : Prop :=
  IsStatement types t ∧ t.kind = .conditional

section

variable (hm : m.tail = [])
include hm

theorem conditionalRest_agree (hs : m.LockstepStatement k stmt stmt') (hstart : m.Place start)
    (h : m.Abreast c c') (hk : c.weight < k) (hn : c.weight < n) (hn' : c.weight < n') :
    m.Agree (m.Alike (m.Twin (IsConditional env.types)) c.weight)
      (conditionalRest env stmt n start c) (conditionalRest env' stmt' n' start' c') := by
  revert start start' hk
  refine @(bounded_runs ?_ h hn hn')
  intro n n' c c' h ih start start' hstart hk
  have hpos := m.standing.marks hstart
  rw [conditionalRest, conditionalRest]
  refine (h.expect "(" (by decide)).bind fun d d' hd => ?_
  have hlt₁ := hd.lt
  refine (requiredExpression_agree (halts_of_nil hm) hd.abreast).bind fun x₁ y₁ hcond => ?_
  have hlt₂ := hcond.cursors.lt
  refine (hcond.cursors.abreast.expect ")" (by decide)).bind fun e e' he => ?_
  have hlt₃ := he.lt
  refine (branch_agree hm hs he.abreast (by omega)).bind fun z w hbranch => ?_
  obtain ⟨yes, f⟩ := z
  obtain ⟨yes', f'⟩ := w
  have hyes : m.Twin (IsBlock env.types) yes yes' := hbranch.value
  have hf : m.Within e.weight f f' := hbranch.cursors
  have hlt₄ := hf.lt
  have helse := hf.abreast.keyword? "else" (.plain (by decide))
  simp only
  generalize f.keyword? "else" = u, f'.keyword? "else" = v at helse ⊢
  cases helse with
  | none =>
    exact .ok ⟨.node (.cons hcond.value.any (.cons hyes.any .nil)) rfl hpos
      ⟨.conditional hcond.value.shape hyes.shape.1 hyes.shape.2, rfl⟩, hf.mono (by omega)⟩
  | @some g g' hg =>
    have hlt₅ := hg.lt
    -- the other branch is a conditional of its own or a block
    have hend : ∀ {x x' : Parse (At Tree)} {P : Tree → Prop},
        (∀ t, P t → IsStatement env.types t ∧ (t.kind = .block ∨ t.kind = .conditional)) →
        m.Agree (m.Alike (m.Twin P) g.weight) x x' →
        m.Agree (m.Alike (m.Twin (IsConditional env.types)) c.weight)
          (x >>= fun r => pure (Tree.plain .conditional (env.pos start) [x₁.1, yes, r.1], r.2))
          (x' >>= fun r => pure (Tree.plain .conditional (env'.pos start') [y₁.1, yes', r.1], r.2)) := by
      intro x x' P hP hx
      refine hx.bind fun u v hno => ?_
      obtain ⟨hshape, hkind⟩ := hP _ hno.value.shape
      exact .ok ⟨.node (.cons hcond.value.any (.cons hyes.any (.cons hno.value.any .nil))) rfl hpos
        ⟨.otherwise hcond.value.shape hyes.shape.1 hyes.shape.2 hshape hkind, rfl⟩,
        hno.cursors.mono (by omega)⟩
    have hif := hg.abreast.keyword? "if" (.plain (by decide))
    simp only
    generalize g.keyword? "if" = u, g'.keyword? "if" = v at hif ⊢
    cases hif with
    | none =>
      exact hend (P := IsBlock env.types) (fun _ ht => ⟨ht.1, .inl ht.2⟩)
        (branch_agree hm hs hg.abreast (by omega))
    | some hi =>
      have hlt₆ := hi.lt
      refine hend (P := IsConditional env.types) (fun _ ht => ⟨ht.1, .inr ht.2⟩)
        ((ih hi.abreast (by omega) hg.abreast.place (by omega)).mono fun _ _ hab => ?_)
      exact hab.mono (by omega)

theorem expressionStatement_agree (k : Nat) :
    m.LockstepStatement k (expressionStatement env) (expressionStatement env') := by
  intro c c' h _
  refine (requiredExpression_agree (halts_of_nil hm) h).bind fun x y hxy => ?_
  have hlt := hxy.cursors.lt
  refine (hxy.cursors.abreast.expect ";" (by decide)).bind fun d d' hd => ?_
  exact .ok ⟨.some (hxy.value.to .expression), hd.mono (by omega)⟩

theorem simpleStatement_agree (k : Nat) :
    m.LockstepStatement k (simpleStatement env) (simpleStatement env') := by
  intro c c' h hk
  refine (rejectUnknownType_agree h).bind fun _ _ _ => ?_
  rcases typedName_cases h with ⟨ht, ht'⟩ |
    ⟨ty, d, d', ht, ht', hd, hty, ⟨hn, hn'⟩ | ⟨n, e, e', hn, hn', hname, he⟩⟩
  · rw [ht, ht']
    exact expressionStatement_agree hm k h hk
  · simp only [ht, ht', hn, hn']
    exact expressionStatement_agree hm k h hk
  · have hlt := hd.lt
    have hlt' := he.lt
    simp only [ht, ht', hn, hn']
    refine (declarationRest_agree hm h.place hd.abreast.place none hty hname he.abreast).bind
      fun x y hxy => ?_
    exact .ok ⟨.some (hxy.value.to .declaration), hxy.cursors.mono (by omega)⟩

theorem statementOver_agree (hs : m.LockstepStatement k stmt stmt') :
    m.LockstepStatement (k + 1) (statementOver env stmt) (statementOver env' stmt') := by
  intro c c' h hk
  have hpos := m.standing.marks h.place
  unfold statementOver
  rw [h.startsWith (.of_nil hm (by decide) : m.Legible "\x7b")]
  by_cases hopen : c.startsWith "\x7b" = true
  · rw [if_pos hopen, if_pos hopen]
    refine (block_agree hm hs h hk hopen).bind fun x y hxy => ?_
    exact .ok ⟨.some (hxy.value.to And.left), hxy.cursors⟩
  rw [if_neg hopen, if_neg hopen]
  have hempty := h.symbol? ";" (.of_nil hm (by decide))
  generalize c.symbol? ";" = x, c'.symbol? ";" = y at hempty ⊢
  cases hempty with
  | some hd => exact .ok ⟨.none, hd⟩
  | none =>
  have hreturn := h.keyword? "return" (.plain (by decide))
  generalize c.keyword? "return" = x, c'.keyword? "return" = y at hreturn ⊢
  cases hreturn with
  | some hd =>
    have hlt := hd.lt
    refine (expression_agree (halts_of_nil hm) _ hd.abreast (Nat.lt_succ_self _)).bind
      fun a b hab => ?_
    cases hab with
    | none =>
      refine (hd.abreast.expect ";" (by decide)).bind fun e e' he => ?_
      exact .ok ⟨.some (.node (Q := fun _ => True) .nil rfl hpos .leave), he.mono (by omega)⟩
    | some hxy =>
      have hlt' := hxy.cursors.lt
      refine (hxy.cursors.abreast.expect ";" (by decide)).bind fun e e' he => ?_
      exact .ok ⟨.some (.node (.cons hxy.value .nil) rfl hpos (.leaveWith hxy.value.shape)),
        he.mono (by omega)⟩
  | none =>
  have hif := h.keyword? "if" (.plain (by decide))
  generalize c.keyword? "if" = x, c'.keyword? "if" = y at hif ⊢
  cases hif with
  | some hd =>
    have hlt := hd.lt
    obtain ⟨hn, hn'⟩ := h.lt_bounds
    refine (conditionalRest_agree hm hs h.place hd.abreast (by omega) (by omega) (by omega)).bind
      fun x y hxy => ?_
    exact .ok ⟨.some (hxy.value.to And.left), hxy.cursors.mono (by omega)⟩
  | none =>
  have hqualifier := qualifier?_agree h
  generalize qualifier? c = x, qualifier? c' = y at hqualifier ⊢
  cases hqualifier with
  | some _ => exact .error h nofun
  | none => exact simpleStatement_agree hm _ h hk

/-- **Statements.** -/
theorem statement_agree (k : Nat) : m.LockstepStatement k (statement env) (statement env') := by
  have hall : ∀ {k n n' : Nat}, k ≤ n → k ≤ n' →
      m.LockstepStatement k (statementWithin env n) (statementWithin env' n') := by
    -- as for expressions: a statement inside another one weighs less
    intro k
    induction k with
    | zero => intro n n' _ _ c c' _ hk; omega
    | succ k ih =>
      intro n n' hn hn'
      obtain ⟨n, rfl⟩ := Nat.exists_eq_add_of_le' hn
      obtain ⟨n', rfl⟩ := Nat.exists_eq_add_of_le' hn'
      intro c c' h hk
      exact statementOver_agree hm (ih (Nat.le_add_left k n) (Nat.le_add_left k n')) h hk
  intro c c' h _
  obtain ⟨hn, hn'⟩ := h.lt_bounds
  exact hall hn hn' h (Nat.lt_succ_self _)

theorem statements_agree (h : m.Abreast c c') :
    m.Agree (m.Alike (m.Twin (IsStatement env.types)) (c.weight + 1)) (statements env c)
      (statements env' c') := by
  have hall : ∀ {n n' : Nat} {c c' : Cursor}, m.Abreast c c' → c.weight < n → c.weight < n' →
      m.Agree (m.Alike (List.Forall₂ (m.Twin (IsStatement env.types))) (c.weight + 1))
        (statementsRest env n c) (statementsRest env' n' c') := by
    intro n n' c c' h hn hn'
    refine bounded_runs ?_ h hn hn'
    intro n n' c c' h ih
    rw [statementsRest, statementsRest, h.atEnd hm]
    by_cases hend : c.atEnd = true
    · rw [if_pos hend, if_pos hend]
      exact .ok ⟨.nil, h.within⟩
    · rw [if_neg hend, if_neg hend]
      refine (statement_agree hm _ h (Nat.lt_succ_self _)).bind fun x y hxy => ?_
      have hlt := hxy.cursors.lt
      refine (ih hxy.cursors.abreast (by omega)).bind fun z w hzw => ?_
      exact .ok ⟨twins_append_toList hxy.value hzw.value, hzw.cursors.mono (by omega)⟩
  obtain ⟨hn, hn'⟩ := h.lt_bounds
  refine (hall h hn hn').bind fun x y hxy => ?_
  exact .ok ⟨(block_twin (m.standing.marks h.place) hxy.value).to And.left, hxy.cursors⟩

end

/-! ### Programs -/

def IsParameter (types : TypeTable) (p : Tree) : Prop :=
  ∃ pos tpos w ty, IsName w ∧ IsDeclared types ty ∧
    p = .valued .varDecl pos (.name w) [typeTree none tpos ty]

theorem parameter_agree (k : Nat) :
    m.Lockstep (IsParameter env.types) k (parameter env) (parameter env') := by
  intro c c' h _
  refine (rejectUnknownType_agree h).bind fun _ _ _ => ?_
  rcases typedName_cases h with ⟨ht, ht'⟩ |
    ⟨ty, d, d', ht, ht', hd, ⟨w, hw, hget⟩, ⟨hn, hn'⟩ | ⟨n, e, e', hn, hn', hname, he⟩⟩
  · rw [ht, ht']
    exact .ok .none
  · simp only [ht, ht', hn, hn']
    exact .error hd.abreast nofun
  · have hlt := hd.lt
    have hlt' := he.lt
    have hpos := m.standing.marks h.place
    simp only [ht, ht', hn, hn']
    refine (arraySuffix_agree ty he.abreast).bind fun x y hxy => ?_
    obtain ⟨hsame, s, hs⟩ := hxy.value
    have htype : m.Twin (fun _ => True) (typeTree none (env.pos c) x.1)
        (typeTree none (env'.pos c') y.1) := by
      rw [← hsame]
      exact .node (Q := fun _ => True) .nil rfl hpos trivial
    exact .ok (.some ⟨.node (.cons htype .nil) rfl hpos
      ⟨_, _, n, x.1, hname, ⟨w, ty, s, hw, hget, hs⟩, rfl⟩, hxy.cursors.mono (by omega)⟩)

theorem functionRest_agree (hm : m.tail = []) (hstart : m.Place start) (hty : IsListed env.types ty)
    (hv : IsName v) (h : m.Abreast c c') (hopen : c.startsWith "(" = true) :
    m.Agree (m.Alike (m.Twin (IsItem env.types)) c.weight) (functionRest env start ty v c)
      (functionRest env' start' ty v c') := by
  have hd := (h.after (by decide : IsToken "(".toList) hopen).2
  have hlt := hd.lt
  refine enclosed_agree (parameter_agree _).nested hd.abreast (Nat.lt_succ_self _)
    fun x y e e' hparams he => ?_
  have hlt₁ := he.lt
  rw [he.abreast.startsWith (.of_nil hm (by decide) : m.Legible "\x7b")]
  by_cases hbrace : e.startsWith "\x7b" = true
  · rw [if_pos hbrace, if_pos hbrace]
    refine (block_agree hm (statement_agree hm e.weight) he.abreast (Nat.lt_succ_self _) hbrace).bind
      fun z w hbody => ?_
    obtain ⟨n, hn, hget⟩ := hty
    have hpos := m.standing.marks hstart
    have hret : m.Twin (fun _ => True) (typeTree none (env.pos start) ty)
        (typeTree none (env'.pos start') ty) :=
      .node (Q := fun _ => True) .nil rfl hpos trivial
    have hlist : m.Twin (fun _ => True) (.plain .params (env.pos c) x.1)
        (.plain .params (env'.pos c') y.1) :=
      .node hparams.value rfl (m.standing.marks h.place) trivial
    exact .ok ⟨.node (.cons hret (.cons hlist (.cons hbody.value.any .nil))) rfl hpos
      (.function hn hget hv (twins_shape hparams.value) hbody.value.shape.1 hbody.value.shape.2),
      hbody.cursors.mono (by omega)⟩
  · rw [if_neg hbrace, if_neg hbrace]
    exact .error he.abreast nofun

/-- What stands behind a qualifier, or behind none. -/
def itemBehind (env : Env) (start : Cursor) (q : Option Qualifier) (c : Cursor) : Parse (At Tree) := do
  rejectUnknownType env c
  match typeName? env c with
  | none => .error ⟨c, .expected "a declaration or function"⟩
  | some (t, nameAt) =>
    match nameAt.name? with
    | none => .error ⟨nameAt, .expected "a name"⟩
    | some (name, afterName) =>
      if q.isNone && afterName.startsWith "(" then functionRest env start t name afterName
      else declarationRest env start nameAt q t name afterName

theorem item_of_qualifier {q : Qualifier} {d : Cursor} (h : qualifier? c = some (q, d)) :
    item env c = itemBehind env c (some q) d := by
  unfold item
  rw [h]
  rfl

theorem item_of_no_qualifier (h : qualifier? c = none) : item env c = itemBehind env c none c := by
  unfold item
  rw [h]
  rfl

theorem itemBehind_agree (hm : m.tail = []) (hstart : m.Place start) (q : Option Qualifier)
    (h : m.Abreast c c') :
    m.Agree (m.Alike (m.Twin (IsItem env.types)) c.weight) (itemBehind env start q c)
      (itemBehind env' start' q c') := by
  refine (rejectUnknownType_agree h).bind fun _ _ _ => ?_
  rcases typedName_cases h with ⟨ht, ht'⟩ |
    ⟨ty, d, d', ht, ht', hd, hty, ⟨hn, hn'⟩ | ⟨n, e, e', hn, hn', hname, he⟩⟩
  · rw [ht, ht']
    exact .error h nofun
  · simp only [ht, ht', hn, hn']
    exact .error hd.abreast nofun
  · have hlt := hd.lt
    have hlt' := he.lt
    simp only [ht, ht', hn, hn', he.abreast.startsWith (.plain (by decide) : m.Legible "(")]
    by_cases hfun : (q.isNone && e.startsWith "(") = true
    · rw [if_pos hfun, if_pos hfun]
      have hopen := (Bool.and_eq_true_iff.1 hfun).2
      exact (functionRest_agree hm hstart hty hname he.abreast hopen).mono fun _ _ hab =>
        hab.mono (by omega)
    · rw [if_neg hfun, if_neg hfun]
      exact (declarationRest_agree hm hstart hd.abreast.place q hty hname he.abreast).mono
        fun _ _ hab => ⟨hab.value.to .declaration, hab.cursors.mono (by omega)⟩

theorem item_agree (hm : m.tail = []) (h : m.Abreast c c') :
    m.Agree (m.Alike (m.Twin (IsItem env.types)) c.weight) (item env c) (item env' c') := by
  have hqualifier := qualifier?_agree h
  generalize hx : qualifier? c = x, hy : qualifier? c' = y at hqualifier
  cases hqualifier with
  | none =>
    rw [item_of_no_qualifier hx, item_of_no_qualifier hy]
    exact itemBehind_agree hm h.place none h
  | @some a b hab =>
    obtain ⟨q, d⟩ := a
    obtain ⟨q', d'⟩ := b
    cases (hab.value : q = q')
    have hd : m.Within c.weight d d' := hab.cursors
    have hlt := hd.lt
    rw [item_of_qualifier hx, item_of_qualifier hy]
    exact (itemBehind_agree hm h.place (some q) hd.abreast).mono fun _ _ hab => hab.mono (by omega)

/-- **Programs.** The tree stands at the very start of the text. -/
theorem program_agree (hm : m.tail = []) (h : m.Abreast c c') :
    m.Agree (m.Alike (m.Twin (IsProgram env.types)) (c.weight + 1)) (program env c)
      (program env' c') := by
  have hall : ∀ {n n' : Nat} {c c' : Cursor}, m.Abreast c c' → c.weight < n → c.weight < n' →
      m.Agree (m.Alike (List.Forall₂ (m.Twin (IsItem env.types))) (c.weight + 1)) (programRest env n c)
        (programRest env' n' c') := by
    intro n n' c c' h hn hn'
    refine bounded_runs ?_ h hn hn'
    intro n n' c c' h ih
    rw [programRest, programRest, h.atEnd hm]
    by_cases hend : c.atEnd = true
    · rw [if_pos hend, if_pos hend]
      exact .ok ⟨.nil, h.within⟩
    · rw [if_neg hend, if_neg hend]
      have hempty := h.symbol? ";" (.of_nil hm (by decide))
      generalize c.symbol? ";" = x, c'.symbol? ";" = y at hempty ⊢
      cases hempty with
      | some hd =>
        have hlt := hd.lt
        exact (ih hd.abreast hlt).mono fun _ _ hab => hab.mono (by omega)
      | none =>
        refine (item_agree hm h).bind fun x y hxy => ?_
        have hlt := hxy.cursors.lt
        refine (ih hxy.cursors.abreast (by omega)).bind fun z w hzw => ?_
        exact .ok ⟨.cons hxy.value hzw.value, hzw.cursors.mono (by omega)⟩
  obtain ⟨hn, hn'⟩ := h.lt_bounds
  refine (hall h hn hn').bind fun x y hxy => ?_
  exact .ok ⟨.node hxy.value rfl m.standing.first ⟨_, _, rfl, twins_shape hxy.value⟩, hxy.cursors⟩

/-- **What a text is read as.** -/
theorem produce_agree (hm : m.tail = []) (p : Production) (h : m.Abreast c c') :
    m.Agree (m.Alike (m.Twin (p.IsTree env.types)) (c.weight + 1)) (produce env p c)
      (produce env' p c') := by
  cases p with
  | program => exact program_agree hm h
  | statements => exact statements_agree hm h
  | expression =>
    refine (expression_agree (halts_of_nil hm) _ h (Nat.lt_succ_self _)).bind fun a b hab => ?_
    cases hab with
    | none => exact .error h nofun
    | some hab => exact .ok hab

/-! ### Kinds of runs -/

variable {Place : Cursor → Prop} {Mark : Pos → Prop}

def alone (standing : Standing env Place Mark) : March env env where
  tail := []
  Place := Place
  Mark := Mark
  isTail := isTail_nil
  standing := standing
  types := rfl

theorem abreast_alone (standing : Standing env Place Mark) (h : Place c) :
    (alone standing).Abreast c.skipBlanks c.skipBlanks where
  place := standing.skipBlanks h
  rest := by
    have hself := Extends.append_tail [] c.skipBlanks.rest
    rwa [List.append_nil] at hself
  settled := by
    rw [rest_skipBlanks]
    exact head?_skip
  settled' := by
    rw [rest_skipBlanks]
    exact head?_skip

theorem standing_anywhere (env : Env) : Standing env (fun _ => True) fun _ => True :=
  ⟨fun _ _ _ => trivial, fun _ => trivial, trivial⟩

theorem Agree.ne_tooDeep {α β : Type} {V : α → β → Prop} {y : Parse β} {f : Failure}
    (hm : m.tail = []) (h : m.Agree V (.error f) y) : f.problem ≠ .tooDeep := by
  cases h with
  | error _ hp => exact hp
  | failed hne => exact absurd hm hne

/-- **The limits of the parser are never reached.** Expressions, statements and whole texts nest and
go on less than `c.rest.length + 1` times, since each step leaves less to read for those inside. -/
theorem limits_not_reached (env : Env) :
    (∀ c f, expression env (skipBlanks c) = .error f → f.problem ≠ .tooDeep) ∧
      (∀ c f, statement env (skipBlanks c) = .error f → f.problem ≠ .tooDeep) ∧
      ∀ p source f, produce env p (Cursor.start source) = .error f → f.problem ≠ .tooDeep := by
  have hself : ∀ c, (alone (standing_anywhere env)).Abreast (skipBlanks c) (skipBlanks c) :=
    fun c => abreast_alone (standing_anywhere env) trivial
  refine ⟨fun c f h => ?_, fun c f h => ?_, fun p source f h => ?_⟩
  · have hrun := expression_agree (halts_of_nil rfl) _ (hself c) (Nat.lt_succ_self _)
    rw [h] at hrun
    exact hrun.ne_tooDeep rfl
  · have hrun := statement_agree rfl _ (hself c) (Nat.lt_succ_self _)
    rw [h] at hrun
    exact hrun.ne_tooDeep rfl
  · have hrun := produce_agree rfl p (hself ⟨source, 0⟩)
    rw [show produce env p (skipBlanks ⟨source, 0⟩) = .error f from h] at hrun
    exact hrun.ne_tooDeep rfl

/-- Two runs of which the places do not matter. -/
def anywhere (tail : Text) (isTail : IsTail tail) (types : env'.types = env.types) :
    March env env' where
  tail := tail
  Place := fun _ => True
  Mark := fun _ => True
  isTail := isTail
  standing := standing_anywhere env
  types := types

theorem abreast_anywhere {tail s s' : Text} {isTail : IsTail tail} {types : env'.types = env.types}
    (h : Extends tail s s') (hc : c.rest = skip s) (hc' : c'.rest = skip s') :
    (anywhere tail isTail types).Abreast c c' where
  place := trivial
  rest := by
    rw [hc, hc']
    exact h.skip
  settled := by
    rw [hc]
    exact head?_skip
  settled' := by
    rw [hc']
    exact head?_skip

end March

end VecLang.Grammar

namespace VecLang.Context

open Grammar

variable {ctx : Context} {p : Production} {source : Text} {t : Tree}

/-- **A text is read as a tree of the shape, with positions of the kind, or the error is that of a
place of the kind.** -/
theorem parseTree_ends (ctx : Context) (p : Production) (source : Text) {Place : Cursor → Prop}
    {Mark : Pos → Prop}
    (standing : Standing { types := ctx.types, lines := LineIndex.ofText source } Place Mark)
    (hstart : Place ⟨source, 0⟩) :
    Except.Ends (ctx.parseTree p source)
      (fun e => ∃ c, Place c ∧ e.pos? = some (Pos.ofOffset source c.offset))
      fun t => p.IsTree ctx.types t ∧ Placed Mark t := by
  have hrun := March.produce_agree rfl p (March.abreast_alone standing hstart)
  unfold parseTree
  simp only
  change March.Agree _ _ (produce _ p (Cursor.start source)) (produce _ p (Cursor.start source)) at hrun
  generalize produce { types := ctx.types, lines := LineIndex.ofText source } p
    (Cursor.start source) = x at hrun
  cases hrun with
  | @ok a b hab =>
    obtain ⟨t, c⟩ := a
    simp only
    split
    · exact ⟨hab.value.shape, hab.value.placed⟩
    · exact ⟨c, hab.cursors.abreast.place, rfl⟩
  | @error c _ problem hc => cases problem <;> exact ⟨c, hc.place, rfl⟩
  | failed hm => exact absurd rfl hm

theorem parseTree_ne_tooDeep (pos : Pos) : ctx.parseTree p source ≠ .error (.malformed .tooDeep pos) := by
  have hlimits := (March.limits_not_reached ⟨ctx.types, LineIndex.ofText source⟩).2.2 p source
  unfold parseTree
  simp only
  generalize produce _ p (Cursor.start source) = x at hlimits ⊢
  cases x with
  | ok r =>
    simp only
    split <;> simp [leftover]
  | error f =>
    obtain ⟨c, problem⟩ := f
    have hne := hlimits _ rfl
    cases problem with
    | tooDeep => exact absurd rfl hne
    | unknownType name =>
      simp only [Failure.toError]
      unfold locate
      split <;> simp
    | _ => simp [Failure.toError]

/-- **What is read has the shape of what it is read as.** -/
theorem parseTree_shape (h : ctx.parseTree p source = .ok t) : p.IsTree ctx.types t := by
  have hends := parseTree_ends ctx p source (March.standing_anywhere _) trivial
  rw [h] at hends
  exact hends.1

end VecLang.Context
