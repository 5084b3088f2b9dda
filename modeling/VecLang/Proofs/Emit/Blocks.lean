import VecLang.Proofs.Emit.Positions

/-!
# The blocks of a script

A script is the text of statements, in a closure with lines of its own: variables for inputs and
uniforms, the function that runs `main`, and the object for the host. So its blocks, and the names
that are declared directly in each of them, can be told from the statements.

* `Scope`, `Stmt.scopes`: the blocks of statements.
* `scriptText`, `scriptScopes`: a script as a whole, and its blocks.
* `closureText_eq`: **the closure of a program is the text of statements.**
* `StatementIn`, `script_plain`: what becomes of a statement of a program.
-/

namespace VecLang.Emit.JavaScript

open Grammar Arena List

/-- **A block of a script**: the parameters if it is the body of a function, and the names that a
`let` declares directly in it. -/
structure Scope where
  params : List String := []
  lets : List String := []
deriving DecidableEq, Repr

/-- **No name is declared twice**: the names of the `let`s are different ones, and none of them is
the name of a parameter. -/
def Scope.Distinct (s : Scope) : Prop := s.lets.Nodup ∧ ∀ name ∈ s.lets, name ∉ s.params

instance (s : Scope) : Decidable s.Distinct :=
  inferInstanceAs (Decidable (s.lets.Nodup ∧ ∀ name ∈ s.lets, name ∉ s.params))

theorem distinct_of_lets {sc : Scope} (h : sc.lets = []) : sc.Distinct := by
  unfold Scope.Distinct
  rw [h]
  exact ⟨nodup_nil, fun _ hm => by cases hm⟩

theorem distinct_iff_nodup {names : List String} :
    ({ lets := names } : Scope).Distinct ↔ names.Nodup := by
  unfold Scope.Distinct
  simp

namespace Stmt

/-- The name that a statement declares. -/
def lets : Stmt → List String
  | .binding name _ => [name]
  | .plain _ | .block _ | .branch .. | .choice .. | .function .. => []

mutual

/-- **The blocks of a statement.** -/
def scopes : Stmt → List Scope
  | .plain _ | .binding _ _ => []
  | .block body | .branch _ body => { lets := body.flatMap lets } :: scopesAll body
  | .choice _ yes no =>
    { lets := yes.flatMap lets } :: scopesAll yes ++ { lets := no.flatMap lets } :: scopesAll no
  | .function _ params body => { params, lets := body.flatMap lets } :: scopesAll body

def scopesAll : List Stmt → List Scope
  | [] => []
  | s :: ss => scopes s ++ scopesAll ss

end

theorem scopesAll_append (ss us : List Stmt) :
    scopesAll (ss ++ us) = scopesAll ss ++ scopesAll us := by
  induction ss with
  | nil => rfl
  | cons s ss ih => rw [cons_append, scopesAll, scopesAll, ih, append_assoc]

theorem scopesAll_plain (texts : List String) :
    (texts.map Stmt.plain).flatMap lets = [] ∧ scopesAll (texts.map .plain) = [] := by
  induction texts with
  | nil => exact ⟨rfl, rfl⟩
  | cons text texts ih =>
    rw [map_cons, flatMap_cons, scopesAll, ih.1, ih.2]
    exact ⟨rfl, rfl⟩

end Stmt

/-- The text outside of all brackets, if `depth` of them are open in front of it. -/
def outside : Nat → Text → Text
  | _, [] => []
  | depth, c :: s =>
    if c ∈ ['(', '[', '\x7b'] then outside (depth + 1) s
    else if c ∈ [')', ']', '\x7d'] then outside (depth - 1) s
    else if depth = 0 then c :: outside depth s
    else outside depth s

/-- The words in front of the pieces between commas. -/
def leadingWords (s : Text) : List String :=
  ((s.splitOn ',').map fun piece =>
    String.ofList ((piece.dropWhile (· == ' ')).takeWhile Text.isWordChar)).filter (· ≠ "")

def declaredNames : Text → List String
  | 'l' :: 'e' :: 't' :: ' ' :: rest => leadingWords (outside 0 rest)
  | _ => []

/-- The names between the brackets of a line that starts a function. -/
def parameterNames (line : Text) : List String :=
  if "function ".toList.isPrefixOf line then
    leadingWords (((line.dropWhile (· != '(')).drop 1).takeWhile (· != ')'))
  else []

/-- The blocks around a line, the innermost one first, and those that are closed in front of it. -/
structure Reading where
  opened : List Scope := [{}]
  closed : List Scope := []

namespace Reading

def close : Reading → Reading
  | ⟨s :: outer, closed⟩ => ⟨outer, s :: closed⟩
  | r => r

def declare (names : List String) : Reading → Reading
  | ⟨s :: outer, closed⟩ => ⟨{ s with lets := s.lets ++ names } :: outer, closed⟩
  | r => r

def enter (params : List String) (r : Reading) : Reading :=
  { r with opened := { params } :: r.opened }

/-- **What a line does**: a brace in front closes a block, a `let` declares names in the innermost
block, and a brace at the end opens a block. -/
def line (r : Reading) (line : Text) : Reading :=
  let line := line.dropWhile (· == ' ')
  let r := if line.head? = some '\x7d' then r.close else r
  let r := r.declare (declaredNames line)
  if line.getLast? = some '\x7b' then r.enter (parameterNames line) else r

end Reading

/-- The blocks of the definitions in front of a script, read off their lines. -/
def preludeScopes : List Scope :=
  let r := preludeLines.foldl (fun r line => Reading.line r line.toList) {}
  r.opened ++ r.closed

theorem distinct_preludeScopes : ∀ sc ∈ preludeScopes, sc.Distinct := by decide +kernel

section Closure

variable (options : Options) (ctx : Context)

def letLine (names : List String) : String :=
  if names.isEmpty then "" else textLine options 1 ("let " ++ ", ".intercalate names ++ ";")

/-- The assignments in the function that sets a uniform. -/
def setterTexts (name : String) (t : Ty) : List String :=
  match t.size? with
  | some size => (range size).map fun i =>
    name ++ ("[" ++ toString i ++ "]") ++ " = " ++ ("val" ++ ("[" ++ toString i ++ "]"))
  | none => [name ++ " = " ++ "val"]

/-- A uniform is a variable and the function that sets it. -/
def uniformScript (name : String) (t : Ty) : List Stmt :=
  [.binding name t.zeroText, .function ("__set" ++ name) ["val"] ((setterTexts name t).map .plain)]

def uniformScripts (slots : Slots) : List Stmt :=
  slots.uniforms.entries.flatMap fun e => uniformScript e.1 e.2.type

def entryText (inputs : List String) : String :=
  "function(outs" ++ String.join (inputs.map fun name => ", $" ++ name) ++ ") " ++
    braces options 1 (textLine options 2 "__outs = outs;" ++
      String.join (inputs.map fun name => textLine options 2 (name ++ " = $" ++ name ++ ";")) ++
      textLine options 2 "main();")

/-- The names that the closure declares without a value, line by line. -/
def closureNames (slots : Slots) : List (List String) := [["__outs"], slots.inputs.keys]

/-- **The statements of the closure** around those of the items of a program. -/
def closureBody (items : List Stmt) : List Stmt :=
  uniformScripts ctx.slots ++ items ++
    [.binding "__$func" (entryText options ctx.slots.inputs.keys)]

/-- **A script**: the definitions in front, if it has them, and the closure, which returns an object
for the host. -/
def scriptText (items : List Stmt) : String :=
  (if options.includePrelude then preludeText ++ "\n" else "") ++
    ("program = function() \x7b\n" ++
      String.join ((closureNames ctx.slots).map (letLine options)) ++ "\n" ++
      Stmt.texts options 1 (closureBody options ctx items) ++
      descriptor options (Bindings.ofSlots ctx.slots) ++ "\x7d\n")

def closureScope (items : List Stmt) : Scope :=
  { lets := (closureNames ctx.slots).flatten ++ (closureBody options ctx items).flatMap Stmt.lets }

/-- **The blocks of a script.** -/
def scriptScopes (items : List Stmt) : List Scope :=
  (if options.includePrelude then preludeScopes else []) ++
    closureScope options ctx items :: Stmt.scopesAll (closureBody options ctx items)

variable {options ctx} {slots : Slots} {items : List Stmt}

theorem texts_plain (depth : Nat) (texts : List String) :
    Stmt.texts options depth (texts.map .plain) =
      String.join (texts.map fun text => textLine options depth (text ++ ";")) := by
  induction texts with
  | nil => rfl
  | cons text texts ih =>
    rw [map_cons, map_cons, Stmt.texts, String.join_cons, ih]
    refine String.toList_inj.1 ?_
    simp [Stmt.text, textLine]

theorem uniform_eq (name : String) (t : Ty) :
    uniform options name t = Stmt.texts options 1 (uniformScript name t) := by
  unfold uniform uniformScript setterTexts
  rw [Stmt.texts, Stmt.texts_singleton, Stmt.text, Stmt.text, texts_plain]
  refine String.toList_inj.1 ?_
  cases t.size? with
  | none => simp [textLine, braces]
  | some size =>
    have hline : ∀ i : Nat,
        textLine options 2 (name ++ ("[" ++ toString i ++ "]") ++ " = val" ++
          ("[" ++ toString i ++ "]") ++ ";") =
        textLine options 2 (name ++ ("[" ++ toString i ++ "]") ++ " = " ++
          ("val" ++ ("[" ++ toString i ++ "]")) ++ ";") := by
      intro i
      refine congrArg _ (String.toList_inj.1 ?_)
      simp
    simp only [hline, map_map, Function.comp_def]
    simp [textLine, braces]

theorem texts_uniformScripts : Stmt.texts options 1 (uniformScripts slots) =
    String.join (slots.uniforms.entries.map fun e => uniform options e.1 e.2.type) := by
  unfold uniformScripts
  induction slots.uniforms.entries with
  | nil => rfl
  | cons e es ih =>
    rw [flatMap_cons, Stmt.texts_append, ih, map_cons, String.join_cons, uniform_eq]

theorem entryPoint_eq (b : Bindings) : entryPoint options b =
    Stmt.texts options 1 [.binding "__$func" (entryText options b.inputs)] := by
  rw [Stmt.texts_singleton, Stmt.text]
  refine String.toList_inj.1 ?_
  simp [entryPoint, entryText, braces, textLine]

/-- **The closure of a program is the text of statements.** -/
theorem closureText_eq :
    closureText options ctx (Stmt.texts options 1 items) = scriptText options ctx items := by
  have hheader : header options (Bindings.ofSlots ctx.slots) = "program = function() \x7b\n" ++
      String.join ((closureNames ctx.slots).map (letLine options)) ++ "\n" := by
    unfold header closureNames
    rw [map_cons, map_singleton, String.join_cons, String.join_cons, String.join_nil,
      String.append_empty, ← String.append_assoc]
    rfl
  unfold closureText scriptText closureBody
  rw [hheader, entryPoint_eq, Stmt.texts_append, Stmt.texts_append, texts_uniformScripts]
  simp only [String.append_assoc]
  rfl

theorem lets_uniformScripts : (uniformScripts slots).flatMap Stmt.lets = slots.uniforms.keys := by
  unfold uniformScripts Table.keys
  induction slots.uniforms.entries with
  | nil => rfl
  | cons e es ih =>
    rw [flatMap_cons, flatMap_append, ih]
    rfl

theorem distinct_uniformScripts : ∀ sc ∈ Stmt.scopesAll (uniformScripts slots), sc.Distinct := by
  unfold uniformScripts
  induction slots.uniforms.entries with
  | nil => exact fun _ hm => by cases hm
  | cons e es ih =>
    intro sc hsc
    rw [flatMap_cons, Stmt.scopesAll_append] at hsc
    rcases mem_append.1 hsc with hsc | hsc
    · obtain ⟨hlets, hscopes⟩ := Stmt.scopesAll_plain (setterTexts e.1 e.2.type)
      unfold uniformScript at hsc
      simp only [Stmt.scopesAll, Stmt.scopes, hscopes, hlets, append_nil, nil_append,
        mem_singleton] at hsc
      rw [hsc]
      exact distinct_of_lets rfl
    · exact ih sc hsc

/-- **The blocks of a script** declare no name twice if the closure declares none twice and those of
the items declare none twice. -/
theorem distinct_scriptScopes : (∀ sc ∈ scriptScopes options ctx items, sc.Distinct) ↔
    (closureScope options ctx items).Distinct ∧ ∀ sc ∈ Stmt.scopesAll items, sc.Distinct := by
  have hprelude : ∀ sc ∈ (if options.includePrelude then preludeScopes else []), sc.Distinct := by
    split
    · exact distinct_preludeScopes
    · exact fun _ hm => by cases hm
  unfold scriptScopes closureBody
  rw [forall_mem_append, forall_mem_cons, Stmt.scopesAll_append, Stmt.scopesAll_append,
    forall_mem_append, forall_mem_append]
  constructor
  · rintro ⟨-, hclosure, ⟨-, hitems⟩, -⟩
    exact ⟨hclosure, hitems⟩
  · rintro ⟨hclosure, hitems⟩
    exact ⟨hprelude, hclosure, ⟨distinct_uniformScripts, hitems⟩, fun _ hm => by cases hm⟩

end Closure

section Statements

variable {ctx : Context} {a : Arena} {options : Options} {root f id : NodeId} {types : TypeTable}
  {t : Rose NodeId} {ss : List (Rose NodeId)} {stmts : List Stmt}

/-- **A statement in the item `f` of a program.** -/
structure StatementIn (types : TypeTable) (a : Arena) (f : NodeId) (t : Rose NodeId) : Prop
    extends Interior types a f t where
  statement : (a.kind t.entry).isStatement = true

theorem StatementIn.of_block (hin : Interior types a f (.node id ss)) (hk : a.kind id = .block)
    (ht : t ∈ ss) : StatementIn types a f t := by
  have hadmits := hin.formedNode.admits
  rw [show (a.label id).kind = .block from hk] at hadmits
  have hkind := all_eq_true.1 hadmits _
    (mem_map_of_mem (mem_map_of_mem (f := Rose.map a.label) ht))
  rw [Tree.kind_map] at hkind
  exact ⟨hin.of_mem ht, hkind⟩

theorem StatementIn.governed {cond yes : Rose NodeId} {rest : List (Rose NodeId)}
    (h : StatementIn types a f (.node id (cond :: yes :: rest))) (hk : a.kind id = .conditional)
    (ht : t ∈ yes :: rest) : StatementIn types a f t := by
  obtain ⟨-, hkyes, hkrest⟩ := ScopeWalk.conditional_kinds h.formed hk
  refine ⟨h.toInterior.of_mem (mem_cons_of_mem cond ht), ?_⟩
  rcases mem_cons.1 ht with rfl | ht
  · rw [hkyes]
    rfl
  · rcases hkrest t ht with hkt | hkt <;> rw [hkt] <;> rfl

theorem script_varDecl (hk : a.kind id = .varDecl) :
    script ctx a options root f (.node id ss) = declarationScript ctx a options root f id ss := by
  unfold script
  simp only [hk]

theorem script_block (hk : a.kind id = .block)
    (h : script ctx a options root f (.node id ss) = .ok stmts) :
    ∃ body, scripts ctx a options root f ss = .ok body ∧ stmts = [.block body] := by
  unfold script at h
  simp only [hk] at h
  obtain ⟨body, hbody, h⟩ := Except.bind_eq_ok.1 h
  cases h
  exact ⟨body, hbody, rfl⟩

theorem script_conditional (hin : Interior types a f (.node id ss)) (hk : a.kind id = .conditional)
    (h : script ctx a options root f (.node id ss) = .ok stmts) :
    ∃ cond yes rest test body, ss = cond :: yes :: rest ∧
      script ctx a options root f yes = .ok [.block body] ∧
      (rest = [] ∧ stmts = [.branch test body] ∨
        ∃ no other, rest = [no] ∧ script ctx a options root f no = .ok other ∧
          stmts = [.choice test body (Stmt.governs other)]) := by
  have hadmits := hin.formedNode.admits
  rw [show (a.label id).kind = .conditional from hk] at hadmits
  have hlength : ss.length ≤ 3 := by
    obtain ⟨hfirst, -⟩ := Bool.and_eq_true_iff.1 hadmits
    simpa using (Bool.and_eq_true_iff.1 hfirst).2
  unfold script at h
  rcases ss with _ | ⟨cond, _ | ⟨⟨b, inner⟩, rest⟩⟩
  · simp only [hk] at h
    cases h
  · simp only [hk] at h
    cases h
  have hkb : a.kind b = .block := (ScopeWalk.conditional_kinds hin.formed hk).2.1
  simp only [hk] at h
  obtain ⟨test, -, h⟩ := Except.bind_eq_ok.1 h
  obtain ⟨yes, hyes, h⟩ := Except.bind_eq_ok.1 h
  obtain ⟨body, -, rfl⟩ := script_block hkb hyes
  refine ⟨cond, .node b inner, rest, test, body, rfl, hyes, ?_⟩
  rcases rest with _ | ⟨no, _ | ⟨more, rest⟩⟩
  · cases h
    exact .inl ⟨rfl, rfl⟩
  · obtain ⟨other, hother, h⟩ := Except.bind_eq_ok.1 h
    cases h
    exact .inr ⟨no, other, rfl, hother, rfl⟩
  · simp only [length_cons] at hlength
    omega

theorem script_plain (hin : StatementIn types a f (.node id ss))
    (hnot : a.kind id ≠ .varDecl ∧ a.kind id ≠ .block ∧ a.kind id ≠ .conditional)
    (h : script ctx a options root f (.node id ss) = .ok stmts) :
    stmts = [] ∨ ∃ text, stmts = [.plain text] := by
  by_cases hret : a.kind id = .ret
  · unfold script at h
    cases ss with
    | nil =>
      simp only [hret] at h
      cases h
      exact .inr ⟨_, rfl⟩
    | cons value rest =>
      simp only [hret] at h
      obtain ⟨text, -, h⟩ := Except.bind_eq_ok.1 h
      cases h
      exact .inr ⟨_, rfl⟩
  · have hinner : (a.kind id).isInner = true := by
      have hfunction := (hin.kinds id (by simp)).1
      have hstatement : (a.kind id).isStatement = true := hin.statement
      cases hkind : a.kind id <;> simp_all [Kind.isStatement, Kind.isInner]
    rw [script_expression hinner] at h
    obtain ⟨text, -, h⟩ := Except.bind_eq_ok.1 h
    cases h
    split
    · exact .inl rfl
    · exact .inr ⟨text, rfl⟩

/-- **A declaration** binds its name if it shadows others, and is a line of its own or none
otherwise. -/
theorem declarationScript_cases (h : declarationScript ctx a options root f id ss = .ok stmts) :
    ∃ name, a.name? id = some name ∧
      (shadows ctx a root f id = true ∧ (∃ value, stmts = [.binding name value]) ∨
        shadows ctx a root f id = false ∧ (stmts = [] ∨ ∃ text, stmts = [.plain text])) := by
  unfold declarationScript at h
  obtain ⟨name, hname, h⟩ := Except.bind_eq_ok.1 h
  obtain ⟨type, -, h⟩ := Except.bind_eq_ok.1 h
  refine ⟨name, nameOf_eq_ok hname, ?_⟩
  cases hshadows : shadows ctx a root f id with
  | true =>
    rw [if_pos hshadows] at h
    obtain ⟨value, -, h⟩ := Except.bind_eq_ok.1 h
    cases h
    exact .inl ⟨rfl, value, rfl⟩
  | false =>
    rw [if_neg (by simp [hshadows])] at h
    refine .inr ⟨rfl, ?_⟩
    cases hinit : ss[1]? with
    | none =>
      rw [hinit] at h
      cases h
      exact .inl rfl
    | some init =>
      rw [hinit, assignmentScript] at h
      split at h
      · obtain ⟨value, -, h⟩ := Except.bind_eq_ok.1 h
        cases h
        exact .inr ⟨_, rfl⟩
      · cases h
        exact .inl rfl

theorem names_of_mapM {params : List (Rose NodeId)} {names : List String}
    (h : params.mapM (fun d => nameOf ctx (a.label d.entry)) = .ok names) :
    names = (params.map Rose.entry).filterMap a.name? := by
  induction params generalizing names with
  | nil =>
    cases h
    rfl
  | cons d params ih =>
    rw [mapM_cons] at h
    obtain ⟨name, hname, h⟩ := Except.bind_eq_ok.1 h
    obtain ⟨rest, hrest, h⟩ := Except.bind_eq_ok.1 h
    cases h
    have hd : a.name? d.entry = some name := nameOf_eq_ok hname
    rw [map_cons, filterMap_cons_some hd, ih hrest]

end Statements

end VecLang.Emit.JavaScript
