import VecLang.Proofs.Emit.Total
import VecLang.Proofs.Traversal.Declared

/-!
# The scopes of a script

Which expressions a script writes for the functions of a program, and the scopes in which it
writes each of them.

* `statement_restores`: the scopes behind a statement that is no declaration are those
  from before.
* `Writes`: writing statements comes to write an expression in certain scopes.
* `Writes.shows`: the text of that expression is then part of the script.
-/

namespace VecLang.Emit.JavaScript

open ScopeWalk

variable {ctx : Context} {arena : Arena} {options : Options} {scopes scopes' : ScopeStack}
  {id : NodeId} {ss : List (Rose NodeId)} {depth : Nat} {text : String} {t u : Rose NodeId}
  {s s' : ScopeStack} {l : Label} {names : List String} {script : String}

/-! ### What is written for each kind of statement -/

theorem lines_cons_eq_ok {ts : List (Rose NodeId)}
    (h : lines ctx arena options depth scopes (t :: ts) = .ok (text, scopes')) :
    ∃ first s rest, statement ctx arena options depth scopes t = .ok (first, s) ∧
      lines ctx arena options depth s ts = .ok (rest, scopes') ∧
      text = line options depth (arena.kind t.entry) first ++ rest := by
  rw [lines] at h
  obtain ⟨⟨first, s⟩, hfirst, h⟩ := Except.bind_eq_ok.1 h
  obtain ⟨⟨rest, s'⟩, hrest, h⟩ := Except.bind_eq_ok.1 h
  cases h
  exact ⟨first, s, rest, hfirst, hrest, rfl⟩

theorem statement_function_eq_ok (hk : arena.kind id = .function)
    (h : statement ctx arena options depth scopes (.node id ss) = .ok (text, scopes')) :
    ∃ ret p params b body rest name names s out inner,
      ss = ret :: .node p params :: .node b body :: rest ∧
      nameOf ctx (arena.label id) = .ok name ∧
      parameters ctx arena scopes.push params = .ok (names, s) ∧
      lines ctx arena options (depth + 1) s body = .ok (out, inner) ∧
      text = "function " ++ name ++ "(" ++ ", ".intercalate names ++ ") " ++
        braces options depth out ∧
      inner.pop = .ok scopes' := by
  unfold statement at h
  simp only [hk] at h
  obtain ⟨name, hname, h⟩ := Except.bind_eq_ok.1 h
  split at h
  · obtain ⟨⟨names, s⟩, hparams, h⟩ := Except.bind_eq_ok.1 h
    obtain ⟨⟨out, inner⟩, hbody, h⟩ := Except.bind_eq_ok.1 h
    obtain ⟨s', hpop, h⟩ := Except.bind_eq_ok.1 h
    cases h
    exact ⟨_, _, _, _, _, _, name, names, s, out, inner, rfl, hname, hparams, hbody, rfl, hpop⟩
  · cases h

theorem statement_block_eq_ok (hk : arena.kind id = .block)
    (h : statement ctx arena options depth scopes (.node id ss) = .ok (text, scopes')) :
    ∃ out inner, lines ctx arena options (depth + 1) scopes.push ss = .ok (out, inner) ∧
      text = braces options depth out ∧ inner.pop = .ok scopes' := by
  unfold statement at h
  simp only [hk] at h
  obtain ⟨⟨out, inner⟩, hbody, h⟩ := Except.bind_eq_ok.1 h
  obtain ⟨s', hpop, h⟩ := Except.bind_eq_ok.1 h
  cases h
  exact ⟨out, inner, hbody, rfl, hpop⟩

def governed (ctx : Context) (arena : Arena) (options : Options) (depth : Nat)
    (scopes : ScopeStack) (s : Rose NodeId) : Except Error (String × ScopeStack) :=
  branch options depth scopes (arena.kind s.entry)
    fun depth scopes => statement ctx arena options depth scopes s

/-- What is written behind `else`. A conditional is put in braces. -/
def otherwise (ctx : Context) (arena : Arena) (options : Options) (depth : Nat)
    (scopes : ScopeStack) (s : Rose NodeId) : Except Error (String × ScopeStack) :=
  if arena.kind s.entry = .conditional then do
    let (text, scopes) ← statement ctx arena options (depth + 1) scopes s
    return (braces options depth (options.pad (depth + 1) ++ text ++ "\n"), scopes)
  else governed ctx arena options depth scopes s

theorem otherwise_eq_ok {s : Rose NodeId}
    (h : otherwise ctx arena options depth scopes s = .ok (text, scopes')) :
    (arena.kind s.entry = .conditional ∧ ∃ out,
        statement ctx arena options (depth + 1) scopes s = .ok (out, scopes') ∧
        text = braces options depth (options.pad (depth + 1) ++ out ++ "\n")) ∨
      arena.kind s.entry ≠ .conditional ∧
        governed ctx arena options depth scopes s = .ok (text, scopes') := by
  unfold otherwise at h
  split at h
  · next hk =>
    obtain ⟨⟨out, s'⟩, hout, h⟩ := Except.bind_eq_ok.1 h
    cases h
    exact .inl ⟨hk, out, hout, rfl⟩
  · next hk => exact .inr ⟨hk, h⟩

theorem statement_conditional_eq_ok (hk : arena.kind id = .conditional)
    (h : statement ctx arena options depth scopes (.node id ss) = .ok (text, scopes')) :
    ∃ cond yes rest condText yesText s, ss = cond :: yes :: rest ∧
      expression ctx options scopes (labelled arena cond) = .ok condText ∧
      governed ctx arena options depth scopes yes = .ok (yesText, s) ∧
      ((rest = [] ∧ text = "if (" ++ condText ++ ") " ++ yesText ∧ scopes' = s) ∨
        ∃ no rest' noText, rest = no :: rest' ∧
          otherwise ctx arena options depth s no = .ok (noText, scopes') ∧
          text = "if (" ++ condText ++ ") " ++ yesText ++ " else " ++ noText) := by
  unfold statement at h
  cases ss with
  | nil => simp only [hk] at h; cases h
  | cons cond ss =>
    cases ss with
    | nil => simp only [hk] at h; cases h
    | cons yes rest =>
      simp only [hk] at h
      obtain ⟨condText, hcond, h⟩ := Except.bind_eq_ok.1 h
      obtain ⟨⟨yesText, s⟩, hyes, h⟩ := Except.bind_eq_ok.1 h
      refine ⟨cond, yes, rest, condText, yesText, s, rfl, hcond, hyes, ?_⟩
      cases rest with
      | nil =>
        cases h
        exact .inl ⟨rfl, rfl, rfl⟩
      | cons no rest =>
        refine .inr ⟨no, rest, ?_⟩
        unfold otherwise
        simp only at h
        split at h
        · next hkind =>
          obtain ⟨⟨noText, s'⟩, hno, h⟩ := Except.bind_eq_ok.1 h
          cases h
          rw [if_pos hkind, hno]
          exact ⟨_, rfl, rfl, rfl⟩
        · next hkind =>
          obtain ⟨⟨noText, s'⟩, hno, h⟩ := Except.bind_eq_ok.1 h
          cases h
          rw [if_neg hkind]
          exact ⟨noText, rfl, hno, rfl⟩

theorem statement_ret_eq_ok (hk : arena.kind id = .ret)
    (h : statement ctx arena options depth scopes (.node id ss) = .ok (text, scopes')) :
    scopes' = scopes ∧ ∀ value rest, ss = value :: rest →
      ∃ out, expression ctx options scopes (labelled arena value) = .ok out ∧
        text = "return " ++ out := by
  unfold statement at h
  cases ss with
  | nil =>
    simp only [hk] at h
    cases h
    exact ⟨rfl, fun _ _ he => by cases he⟩
  | cons value rest =>
    simp only [hk] at h
    obtain ⟨out, hout, h⟩ := Except.bind_eq_ok.1 h
    cases h
    refine ⟨rfl, fun value' rest' he => ?_⟩
    cases he
    exact ⟨out, hout, rfl⟩

theorem statement_expression_eq_ok
    (hk : arena.kind id ∉ [.function, .varDecl, .block, .conditional, .ret])
    (h : statement ctx arena options depth scopes (.node id ss) = .ok (text, scopes')) :
    scopes' = scopes ∧
      expression ctx options scopes (labelled arena (.node id ss)) = .ok text := by
  simp only [List.mem_cons, List.not_mem_nil, or_false, not_or] at hk
  obtain ⟨hfun, hdecl, hblock, hcond, hret⟩ := hk
  unfold statement at h
  split at h
  · exact absurd ‹_› hfun
  · exact absurd ‹_› hdecl
  · exact absurd ‹_› hblock
  · exact absurd ‹_› hcond
  · exact absurd ‹_› hcond
  · exact absurd ‹_› hret
  · exact absurd ‹_› hret
  · obtain ⟨out, hout, h⟩ := Except.bind_eq_ok.1 h
    cases h
    exact ⟨rfl, hout⟩

theorem statement_varDecl (hk : arena.kind id = .varDecl) :
    statement ctx arena options depth scopes (.node id ss) =
      declaration ctx arena options scopes id ss := by
  unfold statement
  simp only [hk]

theorem nameOf_eq_ok {name : String} (h : nameOf ctx l = .ok name) : l.name? = some name := by
  unfold nameOf at h
  split at h
  · next heq =>
    cases h
    exact heq
  · cases h

theorem declaredType_eq_ok {first : Option Label} {t : Ty} (h : declaredType ctx l first = .ok t) :
    first.bind Label.type? = some t := by
  unfold declaredType at h
  split at h
  · next heq =>
    cases h
    exact heq
  · cases h

/-- The assignment of an initial value by a declaration that binds nothing. -/
def assignment (ctx : Context) (arena : Arena) (options : Options) (scopes : ScopeStack)
    (target : String) (assigns : Bool) : Option (Rose NodeId) → Except Error String
  | some init => do
    if assigns then
      return target ++ " = " ++ (← expression ctx options scopes (labelled arena init))
    else return ""
  | none => .ok ""

theorem assignment_eq_ok {target : String} {assigns : Bool} {init? : Option (Rose NodeId)}
    (h : assignment ctx arena options scopes target assigns init? = .ok text) :
    text = "" ∧ (∀ init, init? = some init → assigns = false) ∨
      ∃ init out, init? = some init ∧ assigns = true ∧
        expression ctx options scopes (labelled arena init) = .ok out ∧
        text = target ++ " = " ++ out := by
  cases init? with
  | none =>
    cases h
    exact .inl ⟨rfl, fun _ he => by cases he⟩
  | some init =>
    cases assigns with
    | false =>
      cases h
      exact .inl ⟨rfl, fun _ _ => rfl⟩
    | true =>
      obtain ⟨out, hout, h⟩ := Except.bind_eq_ok.1 h
      cases h
      exact .inr ⟨init, out, rfl, rfl, hout, rfl⟩

/-- **The three ways of a declaration.** It binds its name, unless it says again what a slot or a
parameter is. Its initial value is written in the scopes from before. -/
theorem declaration_eq_ok
    (h : declaration ctx arena options scopes id ss = .ok (text, scopes')) :
    ∃ name t, nameOf ctx (arena.label id) = .ok name ∧
      declaredType ctx (arena.label id) (ss.head?.map fun c => arena.label c.entry) = .ok t ∧
      (restatesSlot ctx arena scopes id name t = .ok true ∧ scopes' = scopes ∧
          assignment ctx arena options scopes (identText ctx scopes name)
            (assignsSlot ctx arena id name) ss[1]? = .ok text ∨
        restatesParameter ctx arena scopes id name t = .ok true ∧ scopes' = scopes ∧
          assignment ctx arena options scopes name true ss[1]? = .ok text ∨
        restatesSlot ctx arena scopes id name t = .ok false ∧
          restatesParameter ctx arena scopes id name t = .ok false ∧
          scopes' = scopes.bind name { type := t, decl? := some id } ∧
          ∃ out, ss[1]?.elim (.ok t.zeroText)
              (fun init => expression ctx options scopes (labelled arena init)) = .ok out ∧
            text = "let " ++ name ++ " = " ++ out) := by
  unfold declaration at h
  obtain ⟨name, hname, h⟩ := Except.bind_eq_ok.1 h
  obtain ⟨t, htype, h⟩ := Except.bind_eq_ok.1 h
  obtain ⟨slot, hslot, h⟩ := Except.bind_eq_ok.1 h
  refine ⟨name, t, hname, htype, ?_⟩
  cases slot with
  | true =>
    refine .inl ⟨hslot, ?_⟩
    simp only [if_true] at h
    cases hinit : ss[1]? with
    | none =>
      simp only [hinit] at h
      cases h
      exact ⟨rfl, rfl⟩
    | some init =>
      simp only [hinit] at h
      split at h
      · next hassigns =>
        obtain ⟨out, hout, h⟩ := Except.bind_eq_ok.1 h
        cases h
        refine ⟨rfl, ?_⟩
        simp only [assignment, hassigns, hout, if_true]
        rfl
      · next hassigns =>
        cases h
        refine ⟨rfl, ?_⟩
        simp only [assignment, hassigns]
        rfl
  | false =>
    refine .inr ?_
    simp only [Bool.false_eq_true, if_false] at h
    obtain ⟨parameter, hparameter, h⟩ := Except.bind_eq_ok.1 h
    cases parameter with
    | true =>
      refine .inl ⟨hparameter, ?_⟩
      simp only [if_true] at h
      cases hinit : ss[1]? with
      | none =>
        simp only [hinit] at h
        cases h
        exact ⟨rfl, rfl⟩
      | some init =>
        simp only [hinit] at h
        obtain ⟨out, hout, h⟩ := Except.bind_eq_ok.1 h
        cases h
        refine ⟨rfl, ?_⟩
        simp only [assignment, hout, if_true]
        rfl
    | false =>
      refine .inr ⟨hslot, hparameter, ?_⟩
      simp only [Bool.false_eq_true, if_false] at h
      cases hinit : ss[1]? with
      | none =>
        simp only [hinit] at h
        cases h
        exact ⟨rfl, _, rfl, rfl⟩
      | some init =>
        simp only [hinit] at h
        obtain ⟨out, hout, h⟩ := Except.bind_eq_ok.1 h
        cases h
        exact ⟨rfl, out, hout, rfl⟩

theorem declaration_initial {init : Rose NodeId} (hinit : ss[1]? = some init)
    (htop : isTopLevel arena id = false)
    (h : declaration ctx arena options scopes id ss = .ok (text, scopes')) :
    ∃ front out, expression ctx options scopes (labelled arena init) = .ok out ∧
      text = front ++ out := by
  have hassigned : ∀ {target : String} {assigns : Bool}, assigns = true →
      assignment ctx arena options scopes target assigns ss[1]? = .ok text →
      ∃ front out, expression ctx options scopes (labelled arena init) = .ok out ∧
        text = front ++ out := by
    rintro target assigns rfl htext
    rcases assignment_eq_ok htext with ⟨-, hnone⟩ | ⟨_, out, hsome, -, hout, rfl⟩
    · cases hnone init hinit
    · cases hinit.symm.trans hsome
      exact ⟨_, out, hout, rfl⟩
  obtain ⟨name, t, -, -, ⟨-, -, htext⟩ | ⟨-, -, htext⟩ | ⟨-, -, -, out, hout, rfl⟩⟩ :=
    declaration_eq_ok h
  · refine hassigned ?_ htext
    unfold assignsSlot
    rw [htop]
    rfl
  · exact hassigned rfl htext
  · rw [hinit] at hout
    exact ⟨_, out, hout, rfl⟩

/-! ### Scopes behind statements -/

/-- A scope that was opened, and in which names were bound, closes to the scopes from before. -/
theorem pop_of_saved {inner : ScopeStack} (h : inner.saved = scopes.push.saved)
    (hpop : inner.pop = .ok scopes') : scopes' = scopes := by
  unfold ScopeStack.pop at hpop
  rw [h] at hpop
  cases hpop
  rfl

/-- The statement keeps the scopes around it, and all scopes unless it is a declaration. -/
def Restores (ctx : Context) (arena : Arena) (options : Options) (s : Rose NodeId) : Prop :=
  ∀ {depth : Nat} {scopes scopes' : ScopeStack} {text : String},
    statement ctx arena options depth scopes s = .ok (text, scopes') →
      scopes'.saved = scopes.saved ∧ (arena.kind s.entry ≠ .varDecl → scopes' = scopes)

theorem lines_saved (hss : ∀ s ∈ ss, Restores ctx arena options s)
    (h : lines ctx arena options depth scopes ss = .ok (text, scopes')) :
    scopes'.saved = scopes.saved := by
  induction ss generalizing scopes text with
  | nil =>
    rw [lines] at h
    cases h
    rfl
  | cons s ss ih =>
    obtain ⟨first, s₁, rest, hfirst, hrest, -⟩ := lines_cons_eq_ok h
    rw [ih (fun u hu => hss u (.tail _ hu)) hrest,
      (hss s (.head _) hfirst).1]

theorem parameters_cons_eq_ok {p : NodeId} {cs : List (Rose NodeId)}
    (h : parameters ctx arena scopes (.node p cs :: ss) = .ok (names, scopes')) :
    ∃ name t rest, arena.name? p = some name ∧
      (cs.head?.map fun c => arena.label c.entry).bind Label.type? = some t ∧
      parameters ctx arena (scopes.bind name { type := t, decl? := some p }) ss =
        .ok (rest, scopes') := by
  rw [parameters] at h
  obtain ⟨name, hname, h⟩ := Except.bind_eq_ok.1 h
  obtain ⟨t, htype, h⟩ := Except.bind_eq_ok.1 h
  obtain ⟨⟨rest, s⟩, hrest, h⟩ := Except.bind_eq_ok.1 h
  cases h
  exact ⟨name, t, rest, nameOf_eq_ok hname, declaredType_eq_ok htype, hrest⟩

theorem parameters_saved (h : parameters ctx arena scopes ss = .ok (names, scopes')) :
    scopes'.saved = scopes.saved := by
  induction ss generalizing scopes names with
  | nil =>
    rw [parameters] at h
    cases h
    rfl
  | cons s ss ih =>
    obtain ⟨p, cs⟩ := s
    obtain ⟨name, t, rest, -, -, hrest⟩ := parameters_cons_eq_ok h
    exact (ih hrest).trans rfl

theorem governed_restores {s : Rose NodeId} (hs : Restores ctx arena options s)
    (h : governed ctx arena options depth scopes s = .ok (text, scopes')) : scopes' = scopes := by
  unfold governed branch at h
  split at h
  · next hk => exact (hs h).2 (by simp [hk])
  · obtain ⟨⟨out, inner⟩, hout, h⟩ := Except.bind_eq_ok.1 h
    obtain ⟨s', hpop, h⟩ := Except.bind_eq_ok.1 h
    cases h
    exact pop_of_saved (hs hout).1 hpop

/-- **A statement closes the scopes that it opens**, so that only a declaration changes any. -/
theorem statement_restores (s : Rose NodeId) :
    Restores ctx arena options s ∧ ∀ c ∈ s.children, Restores ctx arena options c := by
  -- the statements of a function stand two levels down, below its block
  induction s using Rose.induction with
  | node id ss ih =>
    have hbelow : ∀ c ∈ ss, Restores ctx arena options c := fun c hc => (ih c hc).1
    refine ⟨?_, hbelow⟩
    intro depth scopes scopes' text h
    have hsame : scopes' = scopes → scopes'.saved = scopes.saved ∧
        (arena.kind (Rose.node id ss).entry ≠ .varDecl → scopes' = scopes) :=
      fun he => ⟨by rw [he], fun _ => he⟩
    by_cases hk : arena.kind id ∈ [.function, .varDecl, .block, .conditional, .ret]
    swap
    · exact hsame (statement_expression_eq_ok hk h).1
    simp only [List.mem_cons, List.not_mem_nil, or_false] at hk
    rcases hk with hk | hk | hk | hk | hk
    · obtain ⟨ret, p, params, b, body, rest, -, names, s, out, inner, rfl, -, hparams, hbody, -,
        hpop⟩ := statement_function_eq_ok hk h
      have hsaved := lines_saved (ih (.node b body) (by simp)).2 hbody
      exact hsame (pop_of_saved (hsaved.trans (parameters_saved hparams)) hpop)
    · rw [statement_varDecl hk] at h
      refine ⟨?_, fun hne => absurd hk hne⟩
      obtain ⟨name, t, -, -, ⟨-, rfl, -⟩ | ⟨-, rfl, -⟩ | ⟨-, -, rfl, -⟩⟩ := declaration_eq_ok h <;> rfl
    · obtain ⟨out, inner, hbody, -, hpop⟩ := statement_block_eq_ok hk h
      exact hsame (pop_of_saved (lines_saved hbelow hbody) hpop)
    · obtain ⟨cond, yes, rest, condText, yesText, s, rfl, -, hyes, hrest⟩ :=
        statement_conditional_eq_ok hk h
      obtain rfl := governed_restores (hbelow yes (by simp)) hyes
      rcases hrest with ⟨-, -, rfl⟩ | ⟨no, rest, noText, rfl, hno, -⟩
      · exact hsame rfl
      · have hno' : Restores ctx arena options no := hbelow no (by simp)
        rcases otherwise_eq_ok hno with ⟨hkno, out, hno, -⟩ | ⟨-, hno⟩
        · exact hsame ((hno' hno).2 (by simp [hkno]))
        · exact hsame (governed_restores hno' hno)
    · exact hsame (statement_ret_eq_ok hk h).1

/-! ### The expressions that are written -/

/-- **Writing a statement of a function comes to write an expression**: with the scopes `s` in
front of the statement, the script writes the expression `u` in the scopes `s'`. -/
inductive Writes (ctx : Context) (arena : Arena) (options : Options) :
    Nat → ScopeStack → Rose NodeId → ScopeStack → Rose NodeId → Prop
  | body {depth : Nat} {s s₁ s₂ s' : ScopeStack} {id p b : NodeId} {ret t u : Rose NodeId}
      {params pre post rest : List (Rose NodeId)} {names : List String} {text : String} :
      arena.kind id = .function → parameters ctx arena s.push params = .ok (names, s₁) →
      lines ctx arena options (depth + 1) s₁ pre = .ok (text, s₂) →
      Writes ctx arena options (depth + 1) s₂ t s' u →
      Writes ctx arena options depth s
        (.node id (ret :: .node p params :: .node b (pre ++ t :: post) :: rest)) s' u
  | block {depth : Nat} {s s₁ s' : ScopeStack} {id : NodeId} {t u : Rose NodeId}
      {pre post : List (Rose NodeId)} {text : String} : arena.kind id = .block →
      lines ctx arena options (depth + 1) s.push pre = .ok (text, s₁) →
      Writes ctx arena options (depth + 1) s₁ t s' u →
      Writes ctx arena options depth s (.node id (pre ++ t :: post)) s' u
  | initial {depth : Nat} {s : ScopeStack} {id : NodeId} {ss : List (Rose NodeId)}
      {u : Rose NodeId} : arena.kind id = .varDecl → isTopLevel arena id = false →
      ss[1]? = some u → Writes ctx arena options depth s (.node id ss) s u
  | condition {depth : Nat} {s : ScopeStack} {id : NodeId} {u yes : Rose NodeId}
      {rest : List (Rose NodeId)} : arena.kind id = .conditional →
      Writes ctx arena options depth s (.node id (u :: yes :: rest)) s u
  | yes {depth : Nat} {s s' : ScopeStack} {id : NodeId} {cond yes u : Rose NodeId}
      {rest : List (Rose NodeId)} : arena.kind id = .conditional →
      arena.kind yes.entry = .block → Writes ctx arena options depth s yes s' u →
      Writes ctx arena options depth s (.node id (cond :: yes :: rest)) s' u
  | no {depth : Nat} {s s₁ s' : ScopeStack} {id : NodeId} {cond yes no u : Rose NodeId}
      {rest : List (Rose NodeId)} {text : String} : arena.kind id = .conditional →
      governed ctx arena options depth s yes = .ok (text, s₁) → arena.kind no.entry = .block →
      Writes ctx arena options depth s₁ no s' u →
      Writes ctx arena options depth s (.node id (cond :: yes :: no :: rest)) s' u
  | chained {depth : Nat} {s s₁ s' : ScopeStack} {id : NodeId} {cond yes no u : Rose NodeId}
      {rest : List (Rose NodeId)} {text : String} : arena.kind id = .conditional →
      governed ctx arena options depth s yes = .ok (text, s₁) →
      arena.kind no.entry = .conditional → Writes ctx arena options (depth + 1) s₁ no s' u →
      Writes ctx arena options depth s (.node id (cond :: yes :: no :: rest)) s' u
  | value {depth : Nat} {s : ScopeStack} {id : NodeId} {u : Rose NodeId}
      {rest : List (Rose NodeId)} : arena.kind id = .ret →
      Writes ctx arena options depth s (.node id (u :: rest)) s u
  | whole {depth : Nat} {s : ScopeStack} {id : NodeId} {ss : List (Rose NodeId)} :
      (arena.kind id).isExpression = true →
      Writes ctx arena options depth s (.node id ss) s (.node id ss)

theorem Writes.subset (h : Writes ctx arena options depth s t s' u) : u.preorder ⊆ t.preorder := by
  have hpart : ∀ {id : NodeId} {c : Rose NodeId} {ss : List (Rose NodeId)} {l : List NodeId},
      c ∈ ss → l ⊆ c.preorder → l ⊆ (Rose.node id ss).preorder :=
    fun hc hl x hx => Rose.mem_preorder_of_mem hc (hl hx)
  induction h with
  | body _ _ _ _ ih =>
    exact hpart (.tail _ (.tail _ (.head _)))
      (hpart (List.mem_append_right _ (.head _)) ih)
  | block _ _ _ ih => exact hpart (List.mem_append_right _ (.head _)) ih
  | initial _ _ hu => exact hpart (List.mem_of_getElem? hu) fun _ hx => hx
  | condition _ => exact hpart (.head _) fun _ hx => hx
  | yes _ _ _ ih => exact hpart (.tail _ (.head _)) ih
  | no _ _ _ _ ih =>
    exact hpart (.tail _ (.tail _ (.head _))) ih
  | chained _ _ _ _ ih =>
    exact hpart (.tail _ (.tail _ (.head _))) ih
  | value _ => exact hpart (.head _) fun _ hx => hx
  | whole _ => exact fun _ hx => hx

theorem Writes.function_cases {f : NodeId} (h : Writes ctx arena options depth s (.node f ss) s' u)
    (hk : arena.kind f = .function) :
    ∃ ret p params b pre t post rest names s₁ text s₂,
      ss = ret :: .node p params :: .node b (pre ++ t :: post) :: rest ∧
      parameters ctx arena s.push params = .ok (names, s₁) ∧
      lines ctx arena options (depth + 1) s₁ pre = .ok (text, s₂) ∧
      Writes ctx arena options (depth + 1) s₂ t s' u := by
  generalize hnode : Rose.node f ss = node at h
  cases h with
  | body _ hparams hlines hwrites =>
    cases hnode
    exact ⟨_, _, _, _, _, _, _, _, _, _, _, _, rfl, hparams, hlines, hwrites⟩
  | block hid | initial hid | condition hid | yes hid | no hid | chained hid | value hid =>
    cases hnode
    cases hk.symm.trans hid
  | whole hid =>
    cases hnode
    rw [hk] at hid
    cases hid

/-! ### The texts of the expressions -/

def Shows (script text : String) : Prop := ∃ front back, script = front ++ text ++ back

theorem Shows.around (h : Shows script text) (front back : String) :
    Shows (front ++ script ++ back) text := by
  obtain ⟨f, b, rfl⟩ := h
  exact ⟨front ++ f, b ++ back, by simp only [String.append_assoc]⟩

theorem Shows.behind (h : Shows script text) (front : String) : Shows (front ++ script) text := by
  have := h.around front ""
  rwa [String.append_empty] at this

theorem Shows.braces (h : Shows script text) (options : Options) (depth : Nat) :
    Shows (braces options depth script) text := by
  unfold JavaScript.braces
  rw [String.append_assoc]
  exact h.around _ _

theorem Shows.line (h : Shows script text) (options : Options) (depth : Nat) (kind : Kind) :
    Shows (line options depth kind script) text := by
  unfold JavaScript.line
  split
  · next hempty =>
    obtain ⟨front, back, rfl⟩ := h
    simp only [String.isEmpty_iff, String.append_eq_empty_iff] at hempty
    rw [hempty.1.2]
    exact ⟨"", "", rfl⟩
  · exact h.around _ _

theorem lines_append_eq_ok {ts us : List (Rose NodeId)}
    (h : lines ctx arena options depth scopes (ts ++ us) = .ok (text, scopes')) :
    ∃ first s rest, lines ctx arena options depth scopes ts = .ok (first, s) ∧
      lines ctx arena options depth s us = .ok (rest, scopes') ∧ text = first ++ rest := by
  induction ts generalizing scopes text with
  | nil => exact ⟨"", scopes, text, rfl, h, (String.empty_append).symm⟩
  | cons t ts ih =>
    obtain ⟨first, s₁, rest, hfirst, hrest, rfl⟩ := lines_cons_eq_ok h
    obtain ⟨second, s₂, last, hsecond, hlast, rfl⟩ := ih hrest
    refine ⟨line options depth (arena.kind t.entry) first ++ second, s₂, last, ?_, hlast, ?_⟩
    · rw [lines, hfirst]
      change (do let r ← lines ctx arena options depth s₁ ts; _) = _
      rw [hsecond]
      rfl
    · rw [String.append_assoc]

/-- A statement among others, in the scopes behind those in front of it. -/
theorem lines_split {pre post : List (Rose NodeId)} {front : String}
    (hpre : lines ctx arena options depth scopes pre = .ok (front, s))
    (h : lines ctx arena options depth scopes (pre ++ t :: post) = .ok (text, scopes')) :
    ∃ out s', statement ctx arena options depth s t = .ok (out, s') ∧
      ∀ part, Shows out part → Shows text part := by
  obtain ⟨first, s₁, rest, hfirst, hrest, rfl⟩ := lines_append_eq_ok h
  rw [hpre] at hfirst
  cases hfirst
  obtain ⟨out, s', last, hout, -, rfl⟩ := lines_cons_eq_ok hrest
  refine ⟨out, s', hout, fun part hpart => ?_⟩
  rw [← String.append_assoc]
  exact (hpart.line options depth _).around _ _

/-- What is written for the last part of a conditional, in the scopes behind the part in front. -/
theorem statement_else_eq_ok {cond yes no : Rose NodeId} {rest : List (Rose NodeId)}
    {yesText : String} (hk : arena.kind id = .conditional)
    (hyes : governed ctx arena options depth scopes yes = .ok (yesText, s))
    (h : statement ctx arena options depth scopes (.node id (cond :: yes :: no :: rest)) =
      .ok (text, scopes')) :
    ∃ noText, otherwise ctx arena options depth s no = .ok (noText, scopes') ∧
      ∀ part, Shows noText part → Shows text part := by
  obtain ⟨_, _, _, condText, _, _, heq, -, hyes', hrest⟩ := statement_conditional_eq_ok hk h
  cases heq
  rw [hyes] at hyes'
  cases hyes'
  rcases hrest with ⟨hnil, -⟩ | ⟨_, _, noText, hcons, hno, rfl⟩
  · cases hnil
  cases hcons
  exact ⟨noText, hno, fun part hpart => hpart.behind _⟩

/-- **The text of an expression that is written is part of the script.** -/
theorem Writes.shows (h : Writes ctx arena options depth s t s' u) {s₁ : ScopeStack}
    (hscript : statement ctx arena options depth s t = .ok (script, s₁)) :
    ∃ text, expression ctx options s' (labelled arena u) = .ok text ∧ Shows script text := by
  induction h generalizing script s₁ with
  | body hk hparams hpre _ ih =>
    obtain ⟨_, _, _, _, _, _, _, _, _, out, inner, heq, -, hparams', hbody, rfl, -⟩ :=
      statement_function_eq_ok hk hscript
    cases heq
    rw [hparams] at hparams'
    cases hparams'
    obtain ⟨out', s₂, hout, hshows⟩ := lines_split hpre hbody
    obtain ⟨text, htext, hpart⟩ := ih hout
    exact ⟨text, htext, ((hshows text hpart).braces options _).behind _⟩
  | block hk hpre _ ih =>
    obtain ⟨out, inner, hbody, rfl, -⟩ := statement_block_eq_ok hk hscript
    obtain ⟨out', s₂, hout, hshows⟩ := lines_split hpre hbody
    obtain ⟨text, htext, hpart⟩ := ih hout
    exact ⟨text, htext, (hshows text hpart).braces options _⟩
  | initial hk htop hu =>
    rw [statement_varDecl hk] at hscript
    obtain ⟨front, out, hout, rfl⟩ := declaration_initial hu htop hscript
    exact ⟨out, hout, front, "", (String.append_empty).symm⟩
  | condition hk =>
    obtain ⟨_, _, _, condText, yesText, _, heq, hcond, -, hrest⟩ :=
      statement_conditional_eq_ok hk hscript
    cases heq
    refine ⟨condText, hcond, ?_⟩
    rcases hrest with ⟨-, rfl, -⟩ | ⟨_, _, noText, -, -, rfl⟩
    · exact ⟨"if (", ") " ++ yesText, by simp only [String.append_assoc]⟩
    · exact ⟨"if (", ") " ++ yesText ++ " else " ++ noText, by simp only [String.append_assoc]⟩
  | yes hk hblock _ ih =>
    obtain ⟨_, _, _, condText, yesText, _, heq, -, hyes, hrest⟩ :=
      statement_conditional_eq_ok hk hscript
    cases heq
    unfold governed branch at hyes
    rw [if_pos hblock] at hyes
    obtain ⟨text, htext, hpart⟩ := ih hyes
    refine ⟨text, htext, ?_⟩
    have hhead := hpart.behind ("if (" ++ condText ++ ") ")
    rcases hrest with ⟨-, rfl, -⟩ | ⟨_, _, noText, -, -, rfl⟩
    · exact hhead
    · have hall := hhead.around "" (" else " ++ noText)
      simpa only [String.append_assoc, String.empty_append] using hall
  | no hk hyes hblock _ ih =>
    obtain ⟨noText, hno, hshows⟩ := statement_else_eq_ok hk hyes hscript
    rcases otherwise_eq_ok hno with ⟨hkind, -⟩ | ⟨-, hno⟩
    · cases hblock.symm.trans hkind
    unfold governed branch at hno
    rw [if_pos hblock] at hno
    obtain ⟨text, htext, hpart⟩ := ih hno
    exact ⟨text, htext, hshows text hpart⟩
  | chained hk hyes hkno _ ih =>
    obtain ⟨noText, hno, hshows⟩ := statement_else_eq_ok hk hyes hscript
    rcases otherwise_eq_ok hno with ⟨-, out, hout, rfl⟩ | ⟨hkind, -⟩
    · obtain ⟨text, htext, hpart⟩ := ih hout
      exact ⟨text, htext, hshows text ((hpart.around _ _).braces options _)⟩
    · exact absurd hkno hkind
  | value hk =>
    obtain ⟨out, hout, rfl⟩ := (statement_ret_eq_ok hk hscript).2 _ _ rfl
    exact ⟨out, hout, "return ", "", (String.append_empty).symm⟩
  | @whole depth s id ss hk =>
    have hkind : arena.kind id ∉ [.function, .varDecl, .block, .conditional, .ret] := by
      intro hmem
      simp only [List.mem_cons, List.not_mem_nil, or_false] at hmem
      rcases hmem with he | he | he | he | he <;> rw [he] at hk <;> cases hk
    exact ⟨script, (statement_expression_eq_ok hkind hscript).2, "", "", by
      rw [String.append_empty, String.empty_append]⟩

end VecLang.Emit.JavaScript
