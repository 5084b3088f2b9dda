import VecLang.Proofs.Emit.Shadowing
import VecLang.Proofs.Swizzle.Expressions

/-!
# Scripts by positions

A script is written with a stack of scopes that follows the blocks of the program. What it says
can be told without one: how a name is spelled and whether a declaration binds its name depend on
the declarations that are visible there alone. So the script of a program is the text of
statements that are found by positions.

* `Stmt`, `Stmt.texts`: the statements of a script and their lines.
* `spelled`: an expression with its names as they are spelled where they stand.
* `script`, `itemScripts`: the statements for the items of a program.
-/

namespace VecLang.Emit.JavaScript

open Arena List

/-! ### Statements of a script -/

/-- **A statement of a script.** Its expressions are given by their texts. -/
inductive Stmt where
  | plain (text : String)
  | binding (name value : String)
  | block (body : List Stmt)
  | branch (test : String) (yes : List Stmt)
  | choice (test : String) (yes no : List Stmt)
  | function (name : String) (params : List String) (body : List Stmt)

namespace Stmt

variable (options : Options)

mutual

def text (depth : Nat) : Stmt → String
  | .plain text => options.pad depth ++ text ++ ";\n"
  | .binding name value => options.pad depth ++ ("let " ++ name ++ " = " ++ value) ++ ";\n"
  | .block body => options.pad depth ++ braces options depth (texts (depth + 1) body) ++ "\n"
  | .branch test yes =>
    options.pad depth ++ ("if (" ++ test ++ ") " ++ braces options depth (texts (depth + 1) yes)) ++
      "\n"
  | .choice test yes no =>
    options.pad depth ++ ("if (" ++ test ++ ") " ++ braces options depth (texts (depth + 1) yes) ++
      " else " ++ braces options depth (texts (depth + 1) no)) ++ "\n"
  | .function name params body =>
    options.pad depth ++ ("function " ++ name ++ "(" ++ ", ".intercalate params ++ ") " ++
      braces options depth (texts (depth + 1) body)) ++ "\n\n"

def texts (depth : Nat) : List Stmt → String
  | [] => ""
  | s :: ss => text depth s ++ texts depth ss

end

theorem texts_append (depth : Nat) (ss us : List Stmt) :
    texts options depth (ss ++ us) = texts options depth ss ++ texts options depth us := by
  induction ss with
  | nil =>
    rw [nil_append, texts, String.empty_append]
  | cons s ss ih => rw [cons_append, texts, texts, ih, String.append_assoc]

theorem texts_singleton (depth : Nat) (s : Stmt) :
    texts options depth [s] = text options depth s := by
  rw [texts, texts, String.append_empty]

/-- What is governed by a condition: the statements of a block, or others. -/
def governs : List Stmt → List Stmt
  | [.block body] => body
  | ss => ss

end Stmt

/-! ### Names as they are spelled -/

def respelled (write : String → String) (l : Label) : Label :=
  match l.name? with
  | some name => { l with value := some (.name (write name)) }
  | none => l

/-- The places for names below a node: what is called, and what stands behind a point. -/
def isNamePlace (l : Label) (i : Nat) : Bool :=
  l.kind.isNamePlace i || l.kind == .binary && l.op == some .member && i == 1

section Definitions

variable (ctx : Context) (a : Arena) (options : Options) (root f : NodeId)

mutual

/-- The expression below a node of the item `f`, in a place for a name or in one for an
expression. -/
def spelledAt (named : Bool) : Rose NodeId → Tree
  | .node id ts =>
    if a.kind id = .ident ∧ named = false then
      .node (respelled (spelling ctx a root f id) (a.label id)) []
    else .node (a.label id) (spelledFrom (a.label id) 0 ts)

def spelledFrom (l : Label) (i : Nat) : List (Rose NodeId) → List Tree
  | [] => []
  | t :: ts => spelledAt (isNamePlace l i) t :: spelledFrom l (i + 1) ts

end

/-- **An expression of the item `f` with its names as they are spelled where they stand.** Names of
functions and members are left as they are. -/
def spelled (t : Rose NodeId) : Tree := spelledAt ctx a root f false t

/-- The text of an expression with its names as they are spelled. No name is in scope: each is
written as it stands in the tree. -/
def spelledText (t : Rose NodeId) : Except Error String :=
  expression ctx options {} (spelled ctx a root f t)

/-! ### Statements by positions -/

def initialText (t : Ty) : Option (Rose NodeId) → Except Error String
  | some init => spelledText ctx a options root f init
  | none => .ok t.zeroText

/-- The assignment of an initial value by a declaration that says again what its name refers to.
Outside functions only a uniform is assigned to. -/
def assignmentScript (d : NodeId) (name : String) :
    Option (Rose NodeId) → Except Error (List Stmt)
  | some init => do
    if assignsSlot ctx a d name then
      return [.plain (spelling ctx a root f d name ++ " = " ++
        (← spelledText ctx a options root f init))]
    else return []
  | none => .ok []

/-- **A declaration.** It binds its name if it shadows others, and assigns its initial value
otherwise. -/
def declarationScript (d : NodeId) (children : List (Rose NodeId)) : Except Error (List Stmt) := do
  let name ← nameOf ctx (a.label d)
  let t ← declaredType ctx (a.label d) (children.head?.map fun c => a.label c.entry)
  if shadows ctx a root f d then
    return [.binding name (← initialText ctx a options root f t children[1]?)]
  else assignmentScript ctx a options root f d name children[1]?

mutual

/-- **The statements for a statement of the item `f`.** -/
def script : Rose NodeId → Except Error (List Stmt)
  | .node id ts =>
    match a.kind id, ts with
    | .function, _ :: .node _ params :: .node _ body :: _ => do
      let name ← nameOf ctx (a.label id)
      let names ← params.mapM fun d => nameOf ctx (a.label d.entry)
      return [.function name names (← scripts body)]
    | .function, _ => .error (malformed ctx (a.label id) .incompleteFunction)
    | .varDecl, ts => declarationScript ctx a options root f id ts
    | .block, ts => return [.block (← scripts ts)]
    | .conditional, cond :: yes :: rest => do
      let test ← spelledText ctx a options root f cond
      let yes ← script yes
      match rest with
      | [] => return [.branch test (Stmt.governs yes)]
      | no :: _ => return [.choice test (Stmt.governs yes) (Stmt.governs (← script no))]
    | .conditional, _ => .error (malformed ctx (a.label id) .incompleteConditional)
    | .ret, value :: _ => return [.plain ("return " ++ (← spelledText ctx a options root f value))]
    | .ret, [] => return [.plain "return"]
    | _, ts => do
      let text ← spelledText ctx a options root f (.node id ts)
      return if text.isEmpty then [] else [.plain text]

def scripts : List (Rose NodeId) → Except Error (List Stmt)
  | [] => .ok []
  | t :: ts => do return (← script t) ++ (← scripts ts)

end

end Definitions

/-- **The statements for the items of a program.** -/
def itemScripts (ctx : Context) (a : Arena) (options : Options) (root : NodeId) :
    List (Rose NodeId) → Except Error (List Stmt)
  | [] => .ok []
  | t :: ts => do
    return (← script ctx a options root t.entry t) ++ (← itemScripts ctx a options root ts)

/-- The closure of a program around the lines of its items. -/
def closureText (options : Options) (ctx : Context) (items : String) : String :=
  (if options.includePrelude then preludeText ++ "\n" else "") ++
    header options (Bindings.ofSlots ctx.slots) ++
    String.join (ctx.slots.uniforms.entries.map fun (name, slot) => uniform options name slot.type) ++
    items ++ entryPoint options (Bindings.ofSlots ctx.slots) ++
    descriptor options (Bindings.ofSlots ctx.slots) ++ "\x7d\n"


/-! ### Expressions -/

section Expressions

variable {ctx : Context} {a : Arena} {options : Options} {root f : NodeId} {s : ScopeStack}
  {id : NodeId} {t u : Rose NodeId} {ts : List (Rose NodeId)}

@[simp] theorem kind_respelled (write : String → String) (l : Label) :
    (respelled write l).kind = l.kind := by
  unfold respelled
  split <;> rfl

theorem nameOf_respelled (write : String → String) (l : Label) :
    nameOf ctx (respelled write l) = (nameOf ctx l).map write := by
  unfold respelled nameOf
  cases hname : l.name? with
  | none =>
    simp only [hname]
    rfl
  | some name => rfl

theorem identText_empty (name : String) : identText ctx {} name = name := by
  have hplace : outputPlace? ctx {} name = none := by
    unfold outputPlace?
    split
    · next h =>
      cases h
    · rfl
  unfold identText
  rw [hplace]

theorem entry_labelled : (labelled a t).entry = a.label t.entry := Rose.entry_map ..

theorem entry_spelledAt (h : a.kind t.entry ≠ .ident) (named : Bool) :
    (spelledAt ctx a root f named t).entry = a.label t.entry := by
  obtain ⟨id, ts⟩ := t
  rw [spelledAt, if_neg fun hn => h hn.1]
  rfl

theorem entry_spelledAt_true : (spelledAt ctx a root f true t).entry = a.label t.entry := by
  obtain ⟨id, ts⟩ := t
  rw [spelledAt, if_neg fun hn => by cases hn.2]
  rfl

theorem kind_spelledAt (named : Bool) :
    Tree.kind (spelledAt ctx a root f named t) = a.kind t.entry := by
  obtain ⟨id, ts⟩ := t
  rw [spelledAt]
  split
  · exact kind_respelled _ _
  · rfl

theorem spelledAt_of_kind (h : a.kind t.entry ≠ .ident) (named : Bool) :
    spelledAt ctx a root f named t = spelled ctx a root f t := by
  obtain ⟨id, ts⟩ := t
  unfold spelled
  rw [spelledAt, spelledAt, if_neg fun hn => h hn.1, if_neg fun hn => h hn.1]

theorem strength_spelledAt (named : Bool) :
    strength (spelledAt ctx a root f named t) = strength (labelled a t) := by
  have hkind : Tree.kind (labelled a t) = a.kind t.entry := Tree.kind_map a t
  unfold strength
  rw [kind_spelledAt, hkind]
  by_cases hident : a.kind t.entry = .ident
  · rw [hident]
  · rw [entry_spelledAt hident, entry_labelled]

theorem needsParens_spelledAt (op : Operator) (side : Side) (named : Bool) :
    needsParens op side (spelledAt ctx a root f named t) = needsParens op side (labelled a t) := by
  unfold needsParens
  rw [strength_spelledAt]

theorem isCompound_spelledAt (named : Bool) :
    isCompound (spelledAt ctx a root f named t) = isCompound (labelled a t) := by
  unfold isCompound
  rw [strength_spelledAt]

theorem isCompound_spelled : isCompound (spelled ctx a root f t) = isCompound (labelled a t) :=
  isCompound_spelledAt false

theorem spelled_node (h : a.kind id ≠ .ident) :
    spelled ctx a root f (.node id ts) =
      .node (a.label id) (spelledFrom ctx a root f (a.label id) 0 ts) := by
  unfold spelled
  rw [spelledAt, if_neg fun hn => h hn.1]

theorem spelledFrom_eq_map {l : Label} (h : ∀ i, isNamePlace l i = false) (i : Nat) :
    spelledFrom ctx a root f l i ts = ts.map (spelled ctx a root f) := by
  induction ts generalizing i with
  | nil => rfl
  | cons t ts ih =>
    rw [spelledFrom, h, ih]
    rfl

theorem isNamePlace_eq_false {l : Label} (hcall : l.kind ≠ .call) (hmember : l.kind ≠ .member)
    (hbinary : l.kind ≠ .binary) (i : Nat) : isNamePlace l i = false := by
  unfold isNamePlace
  rw [beq_eq_false_iff_ne.2 hbinary]
  cases hk : l.kind <;> first | rfl | exact absurd hk hcall | exact absurd hk hmember

/-- The node says what it says, and the name of an expression is spelled. -/
def Respells (ctx : Context) (a : Arena) (options : Options) (root f : NodeId) (s : ScopeStack)
    (t : Rose NodeId) : Prop :=
  expression ctx options s (labelled a t) = expression ctx options {} (spelled ctx a root f t)

theorem arguments_cons (s : ScopeStack) (t u : Tree) (ts : List Tree) :
    arguments ctx options s (t :: u :: ts) = (do
      let text ← expression ctx options s t
      let rest ← arguments ctx options s (u :: ts)
      return text ++ ", " ++ rest) := by
  rw [arguments]
  simp

theorem arguments_spelled (h : ∀ t ∈ ts, Respells ctx a options root f s t) :
    arguments ctx options s (ts.map (labelled a)) =
      arguments ctx options {} (ts.map (spelled ctx a root f)) := by
  induction ts with
  | nil => rfl
  | cons t ts ih =>
    have hfirst : expression ctx options s (labelled a t) = _ := h t (.head _)
    have hrest := ih fun u hu => h u (.tail _ hu)
    cases ts with
    | nil => exact hfirst
    | cons u us =>
      rw [map_cons, map_cons] at hrest ⊢
      rw [map_cons, map_cons, arguments_cons, arguments_cons, hfirst, hrest]

theorem expression_spelledAt {named : Bool} (ht : Respells ctx a options root f s t)
    (h : named = true → a.kind t.entry ≠ .ident) :
    expression ctx options s (labelled a t) =
      expression ctx options {} (spelledAt ctx a root f named t) := by
  cases named with
  | false => exact ht
  | true =>
    rw [spelledAt_of_kind (h rfl)]
    exact ht

theorem expression_binary {l : Label} (hl : l.kind = .binary ∨ l.kind = .assign) (s : ScopeStack)
    (t u : Tree) (ts : List Tree) :
    expression ctx options s (.node l (t :: u :: ts)) = (do
      let op ← binaryOperator ctx l
      let left := parenthesized (needsParens op .left t) (← expression ctx options s t)
      if op = .member ∧ u.entry.kind = .ident then
        return left ++ "." ++ (← nameOf ctx u.entry)
      else
        let right := parenthesized (needsParens op .right u) (← expression ctx options s u)
        let between := if op = .member then "." else " " ++ op.symbol ++ " "
        return left ++ between ++ right) := by
  conv_lhs => unfold expression
  rcases hl with hl | hl <;> simp only [hl]

theorem isNamePlace_of_binaryOperator {l : Label} {op : Operator}
    (hl : l.kind = .binary ∨ l.kind = .assign) (h : binaryOperator ctx l = .ok op) :
    isNamePlace l 1 = decide (op = .member) := by
  unfold binaryOperator at h
  unfold isNamePlace
  rcases hl with hl | hl
  · rw [if_neg (by simp [hl])] at h
    split at h
    · next op' hop =>
      cases h
      rw [hop, hl]
      by_cases hm : op = .member <;> simp [Kind.isNamePlace, hm]
    · cases h
  · rw [if_pos hl] at h
    cases h
    rw [hl]
    rfl

theorem respells_node (h : a.kind id ≠ .ident) : Respells ctx a options root f s (.node id ts) ↔
    expression ctx options s (.node (a.label id) (ts.map (labelled a))) =
      expression ctx options {} (.node (a.label id) (spelledFrom ctx a root f (a.label id) 0 ts)) := by
  unfold Respells
  rw [spelled_node h, show labelled a (.node id ts) = .node (a.label id) (ts.map (labelled a)) from
    Rose.map_node ..]

def calleeText (ctx : Context) (options : Options) (s : ScopeStack) (callee : Tree) :
    Except Error String :=
  match callee.entry.kind, callee.entry.type? with
  | .varType, some t => .ok t.name
  | .ident, _ => nameOf ctx callee.entry
  | _, _ => do return parenthesized (isCompound callee) (← expression ctx options s callee)

def argumentsText (ctx : Context) (options : Options) (s : ScopeStack) :
    List Tree → Except Error String
  | args :: _ => expression ctx options s args
  | [] => .ok ""

theorem expression_call {l : Label} (hl : l.kind = .call) (s : ScopeStack) (t : Tree)
    (ts : List Tree) :
    expression ctx options s (.node l (t :: ts)) = (do
      let name ← calleeText ctx options s t
      return name ++ "(" ++ (← argumentsText ctx options s ts) ++ ")") := by
  conv_lhs => unfold expression
  simp only [hl]
  unfold calleeText
  generalize t.entry.kind = k
  generalize t.entry.type? = ty
  cases ts with
  | nil =>
    have hempty : ∀ name : String, name ++ "()" = name ++ "(" ++ "" ++ ")" := fun name => by
      rw [String.append_empty, String.append_assoc]
      rfl
    simp only [hempty, argumentsText]
    cases k <;> cases ty <;> first | rfl | exact (bind_assoc _ _ _).symm
  | cons args ts =>
    simp only [argumentsText]
    cases k <;> cases ty <;> first | rfl | exact (bind_assoc _ _ _).symm

theorem calleeText_spelled (ht : Respells ctx a options root f s t) :
    calleeText ctx options s (labelled a t) =
      calleeText ctx options {} (spelledAt ctx a root f true t) := by
  unfold calleeText
  rw [entry_spelledAt_true, entry_labelled, isCompound_spelledAt]
  by_cases hident : a.kind t.entry = .ident
  · have hl : (a.label t.entry).kind = .ident := hident
    simp only [hl]
  · rw [expression_spelledAt ht fun _ => hident]

variable (hts : ∀ c ∈ ts, Respells ctx a options root f s c)

include hts

theorem respells_binary (hk : a.kind id = .binary ∨ a.kind id = .assign) :
    Respells ctx a options root f s (.node id ts) := by
  have hl : (a.label id).kind = .binary ∨ (a.label id).kind = .assign := hk
  rw [respells_node (by rcases hk with hk | hk <;> simp [hk])]
  rcases ts with _ | ⟨x, _ | ⟨y, rest⟩⟩
  · rcases hl with hl | hl <;> unfold expression <;> simp only [hl] <;> rfl
  · rcases hl with hl | hl <;> unfold expression <;> simp only [hl] <;> rfl
  have hx : expression ctx options s (labelled a x) = _ := hts x (by simp)
  have hfirst : isNamePlace (a.label id) 0 = false := by
    unfold isNamePlace
    rcases hl with hl | hl <;> rw [hl] <;> simp [Kind.isNamePlace]
  rw [map_cons, map_cons, spelledFrom, spelledFrom, expression_binary hl,
    expression_binary hl, hfirst]
  cases hop : binaryOperator ctx (a.label id) with
  | error e => rfl
  | ok op =>
    have hsecond := isNamePlace_of_binaryOperator hl hop
    rw [hx, Nat.zero_add, hsecond]
    simp only [needsParens_spelledAt]
    change (expression ctx options {} _ >>= _) = (expression ctx options {} _ >>= _)
    refine congrArg _ (funext fun left => ?_)
    have hkind : (spelledAt ctx a root f (decide (op = .member)) y).entry.kind =
      (labelled a y).entry.kind := (kind_spelledAt _).trans (congrArg Label.kind entry_labelled.symm)
    by_cases hname : op = .member ∧ (labelled a y).entry.kind = .ident
    · rw [if_pos hname, if_pos ⟨hname.1, hkind.trans hname.2⟩, decide_eq_true hname.1,
        entry_spelledAt_true, entry_labelled]
    · have hother : ¬ (op = .member ∧
          (spelledAt ctx a root f (decide (op = .member)) y).entry.kind = .ident) := by
        rwa [hkind]
      rw [if_neg hname, if_neg hother, expression_spelledAt (hts y (by simp)) fun hm he => ?_]
      refine hname ⟨of_decide_eq_true hm, ?_⟩
      rw [entry_labelled]
      exact he

theorem respells_unary (hk : a.kind id = .unary) :
    Respells ctx a options root f s (.node id ts) := by
  have hl : (a.label id).kind = .unary := hk
  rw [respells_node (by simp [hk]),
    spelledFrom_eq_map (isNamePlace_eq_false (by simp [hl]) (by simp [hl]) (by simp [hl]))]
  cases ts with
  | nil => unfold expression; simp only [hl]; rfl
  | cons x rest =>
    have hx : expression ctx options s (labelled a x) = _ := hts x (by simp)
    conv_lhs => unfold expression
    conv_rhs => unfold expression
    simp only [hl, map_cons, hx, isCompound_spelled]

theorem respells_ternary (hk : a.kind id = .ternary) :
    Respells ctx a options root f s (.node id ts) := by
  have hl : (a.label id).kind = .ternary := hk
  rw [respells_node (by simp [hk]),
    spelledFrom_eq_map (isNamePlace_eq_false (by simp [hl]) (by simp [hl]) (by simp [hl]))]
  rcases ts with _ | ⟨x, _ | ⟨y, _ | ⟨z, rest⟩⟩⟩
  iterate 3
    unfold expression
    simp only [hl]
    rfl
  have hx : expression ctx options s (labelled a x) = _ := hts x (by simp)
  have hy : expression ctx options s (labelled a y) = _ := hts y (by simp)
  have hz : expression ctx options s (labelled a z) = _ := hts z (by simp)
  conv_lhs => unfold expression
  conv_rhs => unfold expression
  simp only [hl, map_cons, hx, hy, hz]

theorem respells_index (hk : a.kind id = .index) :
    Respells ctx a options root f s (.node id ts) := by
  have hl : (a.label id).kind = .index := hk
  rw [respells_node (by simp [hk]),
    spelledFrom_eq_map (isNamePlace_eq_false (by simp [hl]) (by simp [hl]) (by simp [hl]))]
  rcases ts with _ | ⟨x, _ | ⟨y, rest⟩⟩
  iterate 2
    unfold expression
    simp only [hl]
    rfl
  have hx : expression ctx options s (labelled a x) = _ := hts x (by simp)
  have hy : expression ctx options s (labelled a y) = _ := hts y (by simp)
  conv_lhs => unfold expression
  conv_rhs => unfold expression
  simp only [hl, map_cons, hx, hy, isCompound_spelled]

theorem respells_member (hk : a.kind id = .member) :
    Respells ctx a options root f s (.node id ts) := by
  have hl : (a.label id).kind = .member := hk
  rw [respells_node (by simp [hk])]
  rcases ts with _ | ⟨x, _ | ⟨y, rest⟩⟩
  iterate 2
    unfold expression
    simp only [hl]
    rfl
  have hx : expression ctx options s (labelled a x) = _ := hts x (by simp)
  have hfirst : isNamePlace (a.label id) 0 = false := by simp [isNamePlace, hl, Kind.isNamePlace]
  have hsecond : isNamePlace (a.label id) 1 = true := by simp [isNamePlace, hl, Kind.isNamePlace]
  rw [spelledFrom, spelledFrom, hfirst, Nat.zero_add, hsecond]
  conv_lhs => unfold expression
  conv_rhs => unfold expression
  simp only [hl, map_cons, hx, isCompound_spelledAt, entry_spelledAt_true, entry_labelled]
  rfl

theorem respells_call (hk : a.kind id = .call) :
    Respells ctx a options root f s (.node id ts) := by
  have hl : (a.label id).kind = .call := hk
  rw [respells_node (by simp [hk])]
  rcases ts with _ | ⟨x, rest⟩
  · unfold expression
    simp only [hl]
    rfl
  have hfirst : isNamePlace (a.label id) 0 = true := by simp [isNamePlace, hl, Kind.isNamePlace]
  have hsecond : isNamePlace (a.label id) 1 = false := by simp [isNamePlace, hl, Kind.isNamePlace]
  rw [map_cons, spelledFrom, hfirst, Nat.zero_add, expression_call hl, expression_call hl,
    calleeText_spelled (hts x (by simp))]
  cases rest with
  | nil => rfl
  | cons y rest =>
    have hy : expression ctx options s (labelled a y) = _ := hts y (by simp)
    rw [map_cons, spelledFrom, hsecond, argumentsText, argumentsText, hy]
    rfl

omit hts

/-- **An expression that is written in scopes which show how its names are spelled.** -/
theorem expression_spelled
    (hident : ∀ n ∈ t.preorder, ∀ name, identText ctx s name = spelling ctx a root f n name)
    (hvar : ∀ n ∈ t.preorder, a.kind n ≠ .varRef) : Respells ctx a options root f s t := by
  induction t using Rose.induction with
  | node id ts ih =>
    have hts : ∀ c ∈ ts, Respells ctx a options root f s c := fun c hc =>
      ih c hc (fun n hn => hident n (Rose.mem_preorder_of_mem hc hn))
        fun n hn => hvar n (Rose.mem_preorder_of_mem hc hn)
    cases hk : a.kind id with
    | ident =>
      have hl : (a.label id).kind = .ident := hk
      unfold Respells spelled
      rw [spelledAt, if_pos ⟨hk, rfl⟩, labelled, Rose.map_node]
      unfold expression
      simp only [hl, kind_respelled, nameOf_respelled]
      cases nameOf ctx (a.label id) with
      | error e => rfl
      | ok name =>
        change Except.ok _ = Except.ok _
        rw [hident id (by simp), identText_empty]
    | varRef => exact absurd hk (hvar id (by simp))
    | binary => exact respells_binary hts (.inl hk)
    | assign => exact respells_binary hts (.inr hk)
    | unary => exact respells_unary hts hk
    | ternary => exact respells_ternary hts hk
    | index => exact respells_index hts hk
    | member => exact respells_member hts hk
    | call => exact respells_call hts hk
    | args =>
      have hl : (a.label id).kind = .args := hk
      rw [respells_node (by simp [hk]),
        spelledFrom_eq_map (isNamePlace_eq_false (by simp [hl]) (by simp [hl]) (by simp [hl]))]
      unfold expression
      simp only [hl]
      exact arguments_spelled hts
    | intConst | floatConst | boolConst | block | function | varDecl | varType | params | conditional
    | ret =>
      have hl : (a.label id).kind = _ := hk
      rw [respells_node (by simp [hk])]
      unfold expression
      simp only [hl]

end Expressions

end VecLang.Emit.JavaScript
