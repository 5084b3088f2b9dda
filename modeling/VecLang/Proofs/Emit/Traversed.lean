import VecLang.Emit.Target
import VecLang.Proofs.Arena.Shape
import VecLang.Proofs.Steps
import VecLang.Traversal.Basic

/-!
# Printing on a traversal

The printer is a recursion over a tree. It can be run on the arena as well, as a traversal whose
handler appends to a text and goes on below children of its node in between. The set of handled
nodes does not show in the text: a handler goes on below each child of its node at most once, and
the subtrees there have no node in common.

* `pieces`: what is written for a node, and where the handler goes on.
* `emit_eq_said`: **the recursion returns what the pieces say**, child by child.
* `traverse_printer`: **the traversal leaves the text that the recursion returns**, or its error.
-/

namespace VecLang.Emit.Traversed

open Source Arena Traversal List

/-- A part of the text of a node: a text, that of a child, or the reason why there is none. -/
inductive Piece where
  | text (s : String)
  | below (node : NodeId) (depth : Nat)
  | fault (error : Error)

def orFault {α : Type} (x : Except Error α) (next : α → List Piece) : List Piece :=
  match x with
  | .ok v => next v
  | .error e => [.fault e]

def wrapped (depth : Nat) (parens : Bool) (node : NodeId) : List Piece :=
  if parens then [.text "(", .below node depth, .text ")"] else [.below node depth]

def listed (depth : Nat) : List NodeId → List Piece
  | [] => []
  | [node] => [.below node depth]
  | node :: rest => .below node depth :: .text ", " :: listed depth rest

section Pieces

variable (ctx : Context) (options : Options) (a : Arena)

def lineOf (depth : Nat) (kind : Kind) (inner : List Piece) : List Piece :=
  .text (options.pad depth) :: inner ++ [.text (terminator kind)]

/-- What a function or a condition governs, in braces. -/
def governed (depth : Nat) (node : NodeId) : List Piece :=
  .text "\x7b\n" ::
    (if a.kind node = .block then [.below node (depth + 1)]
      else lineOf options (depth + 1) (a.kind node) [.below node (depth + 1)]) ++
    [.text (options.pad depth ++ "\x7d")]

def statement (depth : Nat) (node : NodeId) : List Piece :=
  lineOf options depth (a.kind node)
    (if a.kind node = .block then governed options a depth node else [.below node depth])

/-- The parts of the text of a node, with its label and its children, at `depth`. -/
def pieces (depth : Nat) (l : Label) (nodes : List NodeId) : List Piece :=
  let alone (node : NodeId) : Tree := .node (a.label node) []
  let operand (index : Nat) (next : NodeId → List Piece) : List Piece :=
    match nodes[index]? with
    | some node => next node
    | none => [.fault (malformed ctx l (.missingOperand l.kind index))]
  let optional (index : Nat) (next : NodeId → List Piece) : List Piece :=
    (nodes[index]?.map next).getD []
  match l.kind with
  | .block => nodes.flatMap (statement options a depth)
  | .function =>
    orFault (declaredType ctx l (nodes.head?.map a.label)) fun ret =>
    orFault (nameOf ctx l) fun name =>
      .text (ret.name ++ " " ++ name ++ "(") :: (optional 1 fun params => [.below params depth]) ++
        .text ") " :: operand 2 (governed options a depth)
  | .params | .args => listed depth nodes
  | .varDecl =>
    let first := nodes.head?.map a.label
    orFault (declaredType ctx l first) fun t =>
    orFault (nameOf ctx l) fun name =>
      let qualifier :=
        match first.bind Label.qualifier with
        | some q => q.keyword ++ " "
        | none => ""
      let (base, suffix) := declarator t
      .text (qualifier ++ base ++ " " ++ name ++ suffix) ::
        optional 1 fun init => [.text " = ", .below init depth]
  | .varType =>
    match l.type? with
    | some t => [.text t.name]
    | none => [.fault (malformed ctx l .typeWithoutType)]
  | .ident => orFault (nameOf ctx l) fun name => [.text name]
  | .varRef =>
    orFault (nameOf ctx l) fun name =>
      .text name :: optional 1 fun index => [.text "[", .below index depth, .text "]"]
  | .intConst | .floatConst | .boolConst =>
    orFault (constantText ctx options l) fun text => [.text text]
  | .binary | .assign =>
    orFault (binaryOperator ctx l) fun op =>
    operand 0 fun lhs =>
    operand 1 fun rhs =>
      wrapped depth (needsParens op .left (alone lhs)) lhs ++
        .text (if op = .member then "." else " " ++ op.symbol ++ " ") ::
        wrapped depth (needsParens op .right (alone rhs)) rhs
  | .unary =>
    orFault (unaryOperator ctx l) fun op =>
    operand 0 fun node =>
      .text op.symbol :: wrapped depth (isCompound (alone node)) node
  | .ternary =>
    operand 0 fun cond =>
    operand 1 fun yes =>
    operand 2 fun no =>
      [.text "(", .below cond depth, .text " ? ", .below yes depth, .text " : ", .below no depth,
        .text ")"]
  | .index =>
    operand 0 fun base =>
    operand 1 fun index =>
      wrapped depth (isCompound (alone base)) base ++ [.text "[", .below index depth, .text "]"]
  | .member =>
    operand 0 fun base =>
    operand 1 fun member =>
      wrapped depth (isCompound (alone base)) base ++ [.text ".", .below member depth]
  | .call =>
    operand 0 fun callee =>
      .below callee depth :: .text "(" :: (optional 1 fun args => [.below args depth]) ++ [.text ")"]
  | .conditional =>
    operand 0 fun cond =>
    operand 1 fun yes =>
      .text "if (" :: .below cond depth :: .text ") " :: governed options a depth yes ++
        optional 2 fun no => .text " else " ::
          if a.kind no = .conditional then [.below no depth] else governed options a depth no
  | .ret => .text "return" :: optional 0 fun value => [.text " ", .below value depth]

def plan : List Piece → Plan Nat String
  | [] => .done
  | .text s :: rest => .act (fun a out => .ok (a, out ++ s)) (plan rest)
  | .below node depth :: rest => .descend node depth (plan rest)
  | .fault e :: _ => .fail e

/-- **The printer as a handler**, whose state is the depth and whose memory is the text. -/
def printer (node : NodeId) (depth : Nat) : Plan Nat String :=
  .ask fun a _ _ => plan (pieces ctx options a depth (a.label node) (a.children node))

/-- What the pieces say, with the texts that the recursion returns for the children. -/
def said : List Piece → Except Error String
  | [] => pure ""
  | .text s :: rest => do return s ++ (← said rest)
  | .below node depth :: rest => do
    let text ← emit ctx options depth (a.tree node)
    return text ++ (← said rest)
  | .fault e :: _ => .error e

end Pieces

variable {ctx : Context} {options : Options} {a : Arena} {depth n : Nat}

/-! ### The recursion says the pieces -/

theorem error_bind {β : Type} (e : Error) (f : String → Except Error β) :
    (Except.error e >>= f) = .error e := rfl

theorem said_append (ps qs : List Piece) : said ctx options a (ps ++ qs) = (do
    let s ← said ctx options a ps
    return s ++ (← said ctx options a qs)) := by
  induction ps with
  | nil => simp only [nil_append, said, pure_bind, String.empty_append, bind_pure]
  | cons p ps ih =>
    cases p with
    | text s => simp only [cons_append, said, ih, bind_assoc, pure_bind, String.append_assoc]
    | below node depth =>
      simp only [cons_append, said, ih, bind_assoc, pure_bind, String.append_assoc]
    | fault e => rfl

theorem said_orFault {α : Type} (x : Except Error α) (next : α → List Piece) :
    said ctx options a (orFault x next) = x >>= fun v => said ctx options a (next v) := by
  cases x <;> rfl

theorem said_below (node : NodeId) :
    said ctx options a [.below node depth] = emit ctx options depth (a.tree node) := by
  simp only [said, pure_bind, String.append_empty, bind_pure]

theorem said_wrapped (parens : Bool) (node : NodeId) :
    said ctx options a (wrapped depth parens node) = (do
      return parenthesized parens (← emit ctx options depth (a.tree node))) := by
  cases parens <;> simp [-bind_pure_comp, wrapped, parenthesized, said, String.append_assoc]

theorem said_lineOf (kind : Kind) (ps : List Piece) :
    said ctx options a (lineOf options depth kind ps) = (do
      return line options depth kind (← said ctx options a ps)) := by
  simp [-bind_pure_comp, lineOf, line, said, said_append, String.append_assoc]

theorem said_governed (node : NodeId) : said ctx options a (governed options a depth node) = (do
    let text ← emit ctx options (depth + 1) (a.tree node)
    return braces options depth (body options (depth + 1) (a.kind node) text)) := by
  unfold governed body
  split <;>
    simp [-bind_pure_comp, said, said_append, said_lineOf, braces, String.append_assoc]

theorem emitLines_eq_said (nodes : List NodeId) : emitLines ctx options depth (nodes.map a.tree) =
    said ctx options a (nodes.flatMap (statement options a depth)) := by
  induction nodes with
  | nil => rfl
  | cons node nodes ih =>
    rw [map_cons, emitLines, flatMap_cons, said_append, statement, said_lineOf, ih, entry_tree, ← kind]
    by_cases hk : a.kind node = .block <;>
      simp only [hk, if_true, if_false, said_governed, said_below, bind_assoc, pure_bind, body]

theorem emitList_eq_said (nodes : List NodeId) : emitList ctx options depth (nodes.map a.tree) =
    said ctx options a (listed depth nodes) := by
  induction nodes with
  | nil => rfl
  | cons node nodes ih =>
    cases nodes with
    | nil => exact (said_below node).symm
    | cons next rest =>
      rw [map_cons, emitList, ih, show listed depth (node :: next :: rest) =
        .below node depth :: .text ", " :: listed depth (next :: rest) from rfl]
      · simp only [said, bind_assoc, pure_bind, String.append_assoc]
      · exact nofun

theorem strength_alone (node : NodeId) :
    strength (.node (a.label node) []) = strength (a.tree node) := by
  rw [strength, strength, Tree.kind, Tree.kind, entry_tree]
  rfl

/-- **The recursion returns what the pieces say.** -/
theorem emit_eq_said (l : Label) (nodes : List NodeId) :
    emit ctx options depth (.node l (nodes.map a.tree)) =
      said ctx options a (pieces ctx options a depth l nodes) := by
  unfold emit pieces
  cases hk : l.kind with
  | block => exact emitLines_eq_said nodes
  | params | args => exact emitList_eq_said nodes
  | ident | intConst | floatConst | boolConst => simp [said_orFault, said]
  | varType =>
    cases l.type? with
    | none => simp [said]
    | some t => simp [said]; rfl
  | varDecl =>
    rcases nodes with _ | ⟨x, rest⟩
    · simp [said_orFault, said]
    · cases hq : (a.label x).qualifier <;> rcases rest with _ | ⟨y, ys⟩ <;>
        simp [-bind_pure_comp, hq, said_orFault, said, entry_tree, String.append_assoc]
  | ret =>
    rcases nodes with _ | ⟨x, xs⟩
    · rfl
    · simp [-bind_pure_comp, said, ← String.append_assoc]
  | conditional =>
    rcases nodes with _ | ⟨x, _ | ⟨y, _ | ⟨z, zs⟩⟩⟩
    · simp [hk, said, missingOperand]
    · simp [hk, said, missingOperand]
    · simp [-bind_pure_comp, said, said_governed, entry_tree, kind, String.append_assoc]
    · by_cases hz : (a.label z).kind = .conditional <;>
        simp [-bind_pure_comp, hz, said, said_append, said_governed, entry_tree, kind,
          String.append_assoc]
  | function | varRef | binary | assign | unary | ternary | index | member | call =>
    rcases nodes with _ | ⟨x, _ | ⟨y, _ | ⟨z, zs⟩⟩⟩ <;>
      simp [-bind_pure_comp, hk, said, said_orFault, said_append, said_wrapped, said_governed,
        entry_tree, kind, missingOperand, error_bind, needsParens, isCompound, strength_alone,
        String.append_assoc]

/-! ### Where the handler goes on -/

def visits : List Piece → List NodeId
  | [] => []
  | .below node _ :: rest => node :: visits rest
  | .text _ :: rest | .fault _ :: rest => visits rest

theorem visits_append (ps qs : List Piece) : visits (ps ++ qs) = visits ps ++ visits qs := by
  induction ps with
  | nil => rfl
  | cons p ps ih => cases p <;> simp [visits, ih]

theorem visits_wrapped (parens : Bool) (node : NodeId) :
    visits (wrapped depth parens node) = [node] := by
  cases parens <;> rfl

theorem visits_governed (node : NodeId) : visits (governed options a depth node) = [node] := by
  unfold governed
  split <;> rfl

theorem visits_statements (nodes : List NodeId) :
    visits (nodes.flatMap (statement options a depth)) = nodes := by
  induction nodes with
  | nil => rfl
  | cons node nodes ih =>
    rw [flatMap_cons, visits_append, ih]
    unfold statement lineOf
    split <;> simp [visits, visits_append, visits_governed]

theorem visits_listed (nodes : List NodeId) : visits (listed depth nodes) = nodes := by
  induction nodes with
  | nil => rfl
  | cons node nodes ih =>
    cases nodes with
    | nil => rfl
    | cons next rest => exact congrArg (node :: ·) ih

theorem visits_orFault {α : Type} {x : Except Error α} {next : α → List Piece} {nodes : List NodeId}
    (h : ∀ v, visits (next v) <+ nodes) : visits (orFault x next) <+ nodes := by
  cases x with
  | error e => exact nil_sublist _
  | ok v => exact h v

/-- **The handler goes on below children in their order**, and below none twice. -/
theorem visits_pieces (l : Label) (nodes : List NodeId) :
    visits (pieces ctx options a depth l nodes) <+ nodes := by
  unfold pieces
  cases l.kind with
  | block => simp [visits_statements]
  | params | args => simp [visits_listed]
  | varType =>
    dsimp only
    cases l.type? <;> exact nil_sublist _
  | function =>
    refine visits_orFault fun ret => visits_orFault fun name => ?_
    rcases nodes with _ | ⟨x, _ | ⟨y, _ | ⟨z, zs⟩⟩⟩
    · simp [visits]
    all_goals exact .cons _ (by simp [visits, visits_governed])
  | conditional =>
    rcases nodes with _ | ⟨x, _ | ⟨y, _ | ⟨z, zs⟩⟩⟩
    · simp [visits]
    · simp [visits]
    · simp [visits, visits_governed]
    · by_cases hz : a.kind z = .conditional <;>
        simp [hz, visits, visits_append, visits_governed]
  | _ =>
    rcases nodes with _ | ⟨x, _ | ⟨y, _ | ⟨z, zs⟩⟩⟩ <;>
      dsimp only <;> (repeat refine visits_orFault fun _ => ?_) <;>
      simp [visits, visits_append, visits_wrapped]

/-! ### The traversal -/

/-- The text was appended, and besides only nodes below the given ones were handled. -/
structure Wrote (w : World String) (nodes : List NodeId) (text : Except Error String)
    (w' : World String) : Prop where
  arena : w'.arena = w.arena
  visited : ∀ x ∈ w'.visited, x ∈ w.visited ∨ ∃ node ∈ nodes, w.arena.Under x node
  memory : ∃ s, text = .ok s ∧ w'.memory = w.memory ++ s

/-- A subtree of at most `n` nodes, none of which was handled. -/
structure Due (n : Nat) (a : Arena) (visited : List NodeId) (node : NodeId) : Prop where
  lt_size : node < a.size
  size : (a.shape node).size ≤ n
  fresh : ∀ x, a.Under x node → x ∉ visited

/-- Entering a subtree that is due prints it. -/
def Prints (ctx : Context) (options : Options) (n : Nat) (enter : Enter Nat String) : Prop :=
  ∀ ⦃w node⦄ depth, w.arena.WellFormed → Due n w.arena w.visited node →
    Steps.Ends (enter node depth) w
      (fun e _ => emit ctx options depth (w.arena.tree node) = .error e)
      fun _ => Wrote w [node] (emit ctx options depth (w.arena.tree node))

theorem Wrote.cons {w w₁ w' : World String} {node : NodeId} {nodes : List NodeId}
    {x y : Except Error String} (h : Wrote w [node] x w₁) (h' : Wrote w₁ nodes y w') :
    Wrote w (node :: nodes) (do let s ← x; return s ++ (← y)) w' := by
  obtain ⟨harena, hvisited, s, rfl, hmemory⟩ := h
  obtain ⟨harena', hvisited', t, rfl, hmemory'⟩ := h'
  rw [harena] at hvisited'
  refine ⟨harena'.trans harena, fun v hv => ?_, s ++ t, rfl, ?_⟩
  · rcases hvisited' v hv with hv | ⟨other, hother, hv⟩
    · obtain hv | ⟨y, hy, hv⟩ := hvisited v hv
      · exact .inl hv
      · exact .inr ⟨node, .head _, mem_singleton.1 hy ▸ hv⟩
    · exact .inr ⟨other, .tail _ hother, hv⟩
  · rw [hmemory', hmemory, String.append_assoc]

namespace Due

variable {node other id : NodeId} {visited : List NodeId}

theorem not_visited (h : Due n a visited node) : ¬ visited.contains node = true := fun hm =>
  h.fresh node (.refl node) (contains_iff_mem.1 hm)

/-- A subtree is still due behind that of a sibling: no node lies in both. -/
theorem behind {w w₁ : World String} {x : Except Error String} (hw : w.arena.WellFormed)
    (h : Due n w.arena w.visited other) (hp : w.arena.parent? node = w.arena.parent? other)
    (hne : node ≠ other) (hwrote : Wrote w [node] x w₁) : Due n w₁.arena w₁.visited other := by
  rw [hwrote.arena]
  refine ⟨h.lt_size, h.size, fun v hother hv => ?_⟩
  rcases hwrote.visited v hv with hv | ⟨y, hy, hv⟩
  · exact h.fresh v hother hv
  · cases mem_singleton.1 hy
    exact hw.not_under_siblings hne hp hv hother

/-- Once a node is handled the subtrees of its children are due. -/
theorem child (hw : a.WellFormed) (h : Due (n + 1) a visited id) (hchild : node ∈ a.children id) :
    Due n a (id :: visited) node := by
  have hp := (hw.linked id node).1 hchild
  refine ⟨lt_size_of_parent hp, ?_, fun x hx hv => ?_⟩
  · obtain ⟨ss, hs⟩ := exists_shape_of_child hw h.lt_size hchild
    have hle := Rose.size_le_sizeAll hs
    have hshape : a.shape node = .node node ss :=
      ((spans_children hw h.lt_size).of_mem hs).shape_eq hw
    have hsize := h.size
    rw [shape_eq_node, Rose.size] at hsize
    rw [hshape]
    omega
  · rcases mem_cons.1 hv with rfl | hv
    · exact hw.not_under_of_parent hp hx
    · exact h.fresh x (hx.trans (.of_parent hp)) hv

end Due

/-- **The pieces of a node are written one after the other.** -/
theorem Prints.plan {enter : Enter Nat String} (h : Prints ctx options n enter) (id : NodeId)
    (ps : List Piece) : ∀ {w : World String}, w.arena.WellFormed → (visits ps).Nodup →
      (∀ node ∈ visits ps, w.arena.parent? node = some id ∧ Due n w.arena w.visited node) →
      Steps.Ends ((plan ps).run enter) w (fun e _ => said ctx options w.arena ps = .error e)
        fun _ => Wrote w (visits ps) (said ctx options w.arena ps) := by
  induction ps with
  | nil =>
    intro w _ _ _
    exact ⟨rfl, fun _ hx => .inl hx, "", rfl, String.append_empty.symm⟩
  | cons p ps ih =>
    intro w hw hnd hdue
    cases p with
    | fault e => exact (rfl : said ctx options w.arena (.fault e :: ps) = .error e)
    | text s =>
      refine .bind (x := change _) (P := fun _ w₁ => w₁ = { w with memory := w.memory ++ s }) rfl ?_
      rintro _ _ rfl
      refine (ih (w := { w with memory := w.memory ++ s }) hw hnd hdue).mono ?_ ?_
      · intro e _ he
        simp only [said, he, error_bind]
      · rintro _ w' ⟨harena, hvisited, text, htext, hmemory⟩
        exact ⟨harena, hvisited, s ++ text, by simp only [said, htext]; rfl,
          by rw [hmemory, String.append_assoc]⟩
    | below node depth =>
      obtain ⟨hp, hnode⟩ := hdue node (.head _)
      obtain ⟨hnot, hnd⟩ := nodup_cons.1 hnd
      rw [Traversed.plan, Plan.run_descend]
      refine .bind (P := fun _ => Wrote w [node] (emit ctx options depth (w.arena.tree node))) ?_ ?_
      · refine .get_bind ?_
        rw [if_neg hnode.not_visited]
        refine (h depth hw hnode).mono (fun e _ he => ?_) fun _ _ hwrote => hwrote
        simp only [said, he, error_bind]
      · intro _ w₁ hwrote
        have hrest := ih (w := w₁) (hwrote.arena ▸ hw) hnd fun other hother => by
          obtain ⟨hp', hother'⟩ := hdue other (.tail _ hother)
          exact ⟨hwrote.arena ▸ hp', hother'.behind hw (hp.trans hp'.symm)
            (fun heq => hnot (heq ▸ hother)) hwrote⟩
        rw [hwrote.arena] at hrest
        refine hrest.mono (fun e _ he => ?_) fun _ _ hrest => hwrote.cons hrest
        obtain ⟨text, htext, -⟩ := hwrote.memory
        simp only [said, htext, he]
        rfl

/-- **A traversal that may go at least as deep as a subtree has nodes prints it.** -/
theorem enterWithin_prints (limit : Nat) :
    Prints ctx options limit (enterWithin (planned (printer ctx options)) limit) := by
  induction limit with
  | zero =>
    intro w node depth _ hdue
    have hsize := hdue.size
    rw [shape_eq_node, Rose.size] at hsize
    omega
  | succ limit ih =>
    intro w node depth hw hdue
    let ps := pieces ctx options w.arena depth (w.arena.label node) (w.arena.children node)
    have hsub : visits ps <+ w.arena.children node := visits_pieces _ _
    have hparent : ∀ child ∈ visits ps, w.arena.parent? child = some node := fun child hchild =>
      (hw.linked node child).1 (hsub.subset hchild)
    rw [enterWithin]
    refine .get_bind ?_
    rw [if_neg hdue.not_visited]
    refine .bind (P := fun _ w₁ => w₁ = { w with visited := node :: w.visited })
      (Steps.ends_modify rfl) ?_
    rintro _ _ rfl
    have hprints := ih.plan node ps (w := { w with visited := node :: w.visited }) hw
      ((hw.nodup node).sublist hsub) fun child hchild =>
        ⟨hparent child hchild, hdue.child hw (hsub.subset hchild)⟩
    rw [← emit_eq_said, ← tree_eq_node hw hdue.lt_size] at hprints
    refine hprints.mono (fun _ _ he => he) ?_
    rintro _ w' ⟨harena, hvisited, htext⟩
    refine ⟨harena, fun x hx => ?_, htext⟩
    rcases hvisited x hx with hx | ⟨child, hchild, hx⟩
    · rcases mem_cons.1 hx with rfl | hx
      · exact .inr ⟨x, .head _, .refl x⟩
      · exact .inl hx
    · exact .inr ⟨node, .head _, hx.trans (.of_parent (hparent child hchild))⟩

/-- **The text of a program is what a traversal from its root prints**, and where there is no text
the traversal fails with the error. -/
theorem traverse_printer {p : Program} {root : NodeId} (hw : p.arena.WellFormed)
    (hroot : p.arena.root? = some root) (hlt : root < p.arena.size) :
    Steps.Ends (traverse p.arena.size (printer p.context options) root 0) ⟨p.arena, [], ""⟩
      (fun e _ => Target.source.generate p options = .error e)
      fun _ w => Target.source.generate p options = .ok w.memory ∧ w.arena = p.arena := by
  have hgenerate : Target.source.generate p options =
      emit p.context options 0 (p.arena.tree root) := by
    change (do let root ← rootOf p; _) = _
    rw [rootOf, hroot]
    rfl
  rw [hgenerate]
  have hdue : Due p.arena.size p.arena [] root :=
    ⟨hlt, (spans_shape hw hlt).size_le hw, fun _ _ => not_mem_nil⟩
  refine (enterWithin_prints p.arena.size (w := ⟨p.arena, [], ""⟩) 0 hw hdue).mono
    (fun _ _ he => he) ?_
  rintro _ w ⟨harena, -, text, htext, hmemory⟩
  refine ⟨htext.trans (congrArg _ ?_), harena⟩
  rw [hmemory, String.empty_append]

end VecLang.Emit.Traversed
