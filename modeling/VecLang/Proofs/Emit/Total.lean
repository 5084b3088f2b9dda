import VecLang.Emit.Target
import VecLang.Proofs.Emit.Slots

/-!
# Emitting formed trees

Both emitters look at the parts that a node of its kind has, and report a node that lacks
one. A formed tree lacks none, with one exception: what is behind the point of a member
access is an expression, and the language prints any, but a script wants a name there.

* `Source.emit_ends`: a formed tree has a text.
* `JavaScript.expression_ends`, `JavaScript.statement_ends`: it has a script, or a member
  access without a name is reported.
-/

namespace VecLang.Emit

variable {ctx : Context} {options : Options} {types : TypeTable} {l : Label} {t : Tree}
  {ts : List Tree} {E : Error → Prop} {depth : Nat}

/-! ### Reading nodes -/

theorem nameOf_ends (h : ∃ name, l.name? = some name) :
    Except.Ends (nameOf ctx l) E fun _ => True := by
  obtain ⟨name, hname⟩ := h
  unfold nameOf
  rw [hname]
  trivial

theorem constantText_ends (h : FormedNode types l ts)
    (hl : l.kind = .intConst ∨ l.kind = .floatConst ∨ l.kind = .boolConst) :
    Except.Ends (constantText ctx options l) E fun _ => True := by
  have hcarries := h.carries
  unfold Label.carries at hcarries
  unfold constantText
  cases hv : l.value with
  | none =>
    rw [hv] at hcarries
    rcases hl with hl | hl | hl <;> rw [hl] at hcarries <;> cases hcarries
  | some v =>
    rw [hv] at hcarries
    cases v with
    | int | float | bool => trivial
    | name | type => rcases hl with hl | hl | hl <;> rw [hl] at hcarries <;> cases hcarries

theorem binaryOperator_ends (h : FormedNode types l ts)
    (hl : l.kind = .binary ∨ l.kind = .assign) :
    Except.Ends (binaryOperator ctx l) E fun _ => True := by
  unfold binaryOperator
  rcases hl with hl | hl
  · obtain ⟨op, hop⟩ := h.exists_operator (.inl hl)
    rw [hop]
    split <;> trivial
  · rw [if_pos hl]
    trivial

theorem unaryOperator_ends (h : FormedNode types l ts) (hl : l.kind = .unary) :
    Except.Ends (unaryOperator ctx l) E fun _ => True := by
  obtain ⟨op, hop⟩ := h.exists_operator (.inr hl)
  unfold unaryOperator
  rw [hop]
  trivial

theorem declaredType_ends (ctx : Context) (h : Formed types (.node l ts))
    (hl : l.kind = .varDecl ∨ l.kind = .function) :
    Except.Ends (declaredType ctx l (ts.head?.map Rose.entry)) E
      fun t => (types.resolve t).isOk = true := by
  obtain ⟨t, ht, hok⟩ := h.exists_type hl
  have hfirst : (ts.head?.map Rose.entry).bind Label.type? = some t := Option.bind_map.trans ht
  unfold declaredType
  rw [hfirst]
  exact hok

/-! ### The language -/

namespace Source

section

variable (h : ∀ t ∈ ts, ∀ depth, Except.Ends (emit ctx options depth t) E fun _ => True)
include h

theorem emitLines_ends : Except.Ends (emitLines ctx options depth ts) E fun _ => True := by
  induction ts with
  | nil => trivial
  | cons t ts ih =>
    have hrest := ih fun u hu => h u (.tail _ hu)
    rw [emitLines]
    split <;> exact (h t (.head _) _).bind fun _ _ => hrest.bind fun _ _ => trivial

theorem emitList_ends : Except.Ends (emitList ctx options depth ts) E fun _ => True := by
  induction ts with
  | nil => trivial
  | cons t ts ih =>
    have hfirst := h t (.head _)
    cases ts with
    | nil => exact hfirst depth
    | cons u us =>
      rw [emitList]
      · exact (hfirst depth).bind fun _ _ =>
          (ih fun w hw => h w (.tail _ hw)).bind fun _ _ => trivial
      · exact fun h => by cases h

end

/-- **A formed tree has a text in the language.** -/
theorem emit_ends (h : Formed types t) (depth : Nat) :
    Except.Ends (emit ctx options depth t) E fun _ => True := by
  induction t using Rose.induction generalizing depth with
  | node l ts ih =>
    have hbelow : ∀ t ∈ ts, ∀ depth, Except.Ends (emit ctx options depth t) E fun _ => True :=
      fun t ht depth => ih t ht (h.of_mem ht) depth
    have hroot := h.root
    unfold emit
    cases hk : l.kind with
    | block => exact emitLines_ends hbelow
    | params | args => exact emitList_ends hbelow
    | function =>
      simp only
      obtain ⟨t, params, body, rfl, -⟩ := hroot.function hk
      refine (declaredType_ends ctx h (.inr hk)).bind fun ret _ => ?_
      refine (nameOf_ends (hroot.exists_name (.inl hk))).bind fun name _ => ?_
      refine (hbelow params (by simp) _).bind fun _ _ => ?_
      exact (hbelow body (by simp) _).bind fun _ _ => trivial
    | varDecl =>
      simp only
      refine (declaredType_ends ctx h (.inl hk)).bind fun t _ => ?_
      refine (nameOf_ends (hroot.exists_name (.inr (.inl hk)))).bind fun name _ => ?_
      obtain ⟨u, rest, rfl, -⟩ := hroot.declaration hk
      cases rest with
      | nil => trivial
      | cons init rest => exact (hbelow init (by simp) _).bind fun _ _ => trivial
    | varType =>
      obtain ⟨t, ht, -⟩ := hroot.exists_type hk
      simp only [ht]
      trivial
    | ident => exact nameOf_ends (hroot.exists_name (.inr (.inr hk)))
    | varRef =>
      have hadmits := hroot.admits
      rw [hk] at hadmits
      cases hadmits
    | intConst => exact constantText_ends hroot (.inl hk)
    | floatConst => exact constantText_ends hroot (.inr (.inl hk))
    | boolConst => exact constantText_ends hroot (.inr (.inr hk))
    | binary | assign =>
      simp only
      obtain ⟨lhs, rhs, rfl⟩ := hroot.pair (by simp [hk])
      refine (binaryOperator_ends hroot (by simp [hk])).bind fun op _ => ?_
      exact (hbelow lhs (by simp) _).bind fun _ _ =>
        (hbelow rhs (by simp) _).bind fun _ _ => trivial
    | unary =>
      simp only
      obtain ⟨operand, rfl⟩ := hroot.operand hk
      refine (unaryOperator_ends hroot hk).bind fun op _ => ?_
      exact (hbelow operand (by simp) _).bind fun _ _ => trivial
    | ternary =>
      obtain ⟨cond, yes, no, rfl⟩ := hroot.choice hk
      exact (hbelow cond (by simp) _).bind fun _ _ => (hbelow yes (by simp) _).bind fun _ _ =>
        (hbelow no (by simp) _).bind fun _ _ => trivial
    | index | member =>
      obtain ⟨base, part, rfl⟩ := hroot.pair (by simp [hk])
      exact (hbelow base (by simp) _).bind fun _ _ =>
        (hbelow part (by simp) _).bind fun _ _ => trivial
    | call =>
      obtain ⟨callee, args, rfl, -⟩ := hroot.call hk
      exact (hbelow callee (by simp) _).bind fun _ _ =>
        (hbelow args (by simp) _).bind fun _ _ => trivial
    | conditional =>
      obtain ⟨cond, yes, rest, rfl, -⟩ := hroot.conditional hk
      refine (hbelow cond (by simp) _).bind fun _ _ => (hbelow yes (by simp) _).bind fun _ _ => ?_
      cases rest with
      | nil => trivial
      | cons no rest =>
        simp only
        split <;> exact (hbelow no (by simp) _).bind fun _ _ => trivial
    | ret =>
      cases ts with
      | nil => trivial
      | cons value rest => exact (hbelow value (by simp) _).bind fun _ _ => trivial

end Source

/-! ### Expressions of scripts -/

/-- The label stands in the place of a member's name and carries none. -/
def Unnamed (t : Tree) (l : Label) : Prop :=
  ∃ u ∈ t.subtrees, u.entry.kind = .member ∧ (∃ member ∈ u.children[1]?, member.entry = l) ∧
    l.name? = none

/-- The error reports a member access of the tree that has no name. -/
def Nameless (ctx : Context) (t : Tree) (e : Error) : Prop :=
  ∃ l, Unnamed t l ∧ e = malformed ctx l (.missingName l.kind)

namespace JavaScript

variable {scopes : ScopeStack}

/-- **The tree is formed, and the reports of its member accesses without a name are as `E` says.** -/
structure Writable (ctx : Context) (E : Error → Prop) (t : Tree) : Prop where
  formed : Formed ctx.types t
  nameless : ∀ e, Nameless ctx t e → E e

theorem Writable.of_mem (h : Writable ctx E (.node l ts)) (ht : t ∈ ts) : Writable ctx E t := by
  refine ⟨h.formed.of_mem ht, ?_⟩
  rintro _ ⟨l, ⟨u, hu, hl⟩, rfl⟩
  exact h.nameless _ ⟨l, ⟨u, Rose.mem_subtrees_of_mem ht hu, hl⟩, rfl⟩

theorem arguments_ends
    (h : ∀ t ∈ ts, Except.Ends (expression ctx options scopes t) E fun _ => True) :
    Except.Ends (arguments ctx options scopes ts) E fun _ => True := by
  induction ts with
  | nil => trivial
  | cons t ts ih =>
    have hfirst := h t (.head _)
    cases ts with
    | nil => exact hfirst
    | cons u us =>
      rw [arguments]
      · exact hfirst.bind fun _ _ =>
          (ih fun w hw => h w (.tail _ hw)).bind fun _ _ => trivial
      · exact fun h => by cases h

theorem memberName_ends {base member : Tree} (h : Writable ctx E (.node l [base, member]))
    (hl : l.kind = .member) : Except.Ends (nameOf ctx member.entry) E fun _ => True := by
  unfold nameOf
  split
  · trivial
  · next hname =>
    exact h.nameless _
      ⟨member.entry, ⟨_, Rose.self_mem_subtrees _, hl, ⟨member, rfl, rfl⟩, hname⟩, rfl⟩

/-- **A formed expression has a script**, or it has a member access without a name. -/
theorem expression_ends (h : Writable ctx E t)
    (hexpr : t.kind.isExpression = true ∨ t.kind = .args) :
    Except.Ends (expression ctx options scopes t) E fun _ => True := by
  induction t using Rose.induction with
  | node l ts ih =>
    have hroot := h.formed.root
    have hbelow : ∀ t ∈ ts, (Tree.kind t).isExpression = true ∨ Tree.kind t = .args →
        Except.Ends (expression ctx options scopes t) E fun _ => True :=
      fun t ht hk => ih t ht (h.of_mem ht) hk
    -- all kinds below which only expressions stand
    have hoperand : l.kind ∈ [.binary, .assign, .index, .member, .unary, .ternary, .ret, .args] →
        ∀ t ∈ ts, Except.Ends (expression ctx options scopes t) E fun _ => True :=
      fun hl t ht => hbelow t ht (.inl (h.formed.expression_of_mem hl ht).2)
    rw [Tree.kind_node] at hexpr
    unfold expression
    cases hk : l.kind with
    | intConst => exact constantText_ends hroot (.inl hk)
    | floatConst => exact constantText_ends hroot (.inr (.inl hk))
    | boolConst => exact constantText_ends hroot (.inr (.inr hk))
    | ident => exact (nameOf_ends (hroot.exists_name (.inr (.inr hk)))).bind fun _ _ => trivial
    | binary | assign =>
      simp only
      obtain ⟨lhs, rhs, rfl⟩ := hroot.pair (by simp [hk])
      have hside := hoperand (by simp [hk])
      refine (binaryOperator_ends hroot (by simp [hk])).bind fun op _ => ?_
      refine (hside lhs (by simp)).bind fun _ _ => ?_
      split
      · next hmember =>
        obtain ⟨lr, rs⟩ := rhs
        have hname := (h.formed.of_mem (t := .node lr rs) (by simp)).root.exists_name (.inr (.inr hmember.2))
        exact (nameOf_ends hname).bind fun _ _ => trivial
      · exact (hside rhs (by simp)).bind fun _ _ => trivial
    | unary =>
      simp only
      obtain ⟨operand, rfl⟩ := hroot.operand hk
      refine (unaryOperator_ends hroot hk).bind fun op _ => ?_
      exact (hoperand (by simp [hk]) operand (by simp)).bind fun _ _ => trivial
    | ternary =>
      obtain ⟨cond, yes, no, rfl⟩ := hroot.choice hk
      have hpart := hoperand (by simp [hk])
      exact (hpart cond (by simp)).bind fun _ _ => (hpart yes (by simp)).bind fun _ _ =>
        (hpart no (by simp)).bind fun _ _ => trivial
    | index =>
      obtain ⟨base, index, rfl⟩ := hroot.pair (by simp [hk])
      have hpart := hoperand (by simp [hk])
      exact (hpart base (by simp)).bind fun _ _ => (hpart index (by simp)).bind fun _ _ => trivial
    | member =>
      obtain ⟨base, member, rfl⟩ := hroot.pair (by simp [hk])
      exact (hoperand (by simp [hk]) base (by simp)).bind fun _ _ =>
        (memberName_ends h hk).bind fun _ _ => trivial
    | call =>
      obtain ⟨⟨lc, cs⟩, args, rfl, hargs, hcallee⟩ := hroot.call hk
      have hlist := hbelow args (by simp) (.inr hargs)
      have hnode := (h.formed.of_mem (t := .node lc cs) (by simp)).root
      simp only
      split
      · exact hlist.bind fun _ _ => trivial
      · next hident =>
        exact (nameOf_ends (hnode.exists_name (.inr (.inr hident)))).bind fun _ _ =>
          hlist.bind fun _ _ => trivial
      · next _ htype =>
        rcases hcallee with hcallee | hcallee
        · obtain ⟨ty, hty, -⟩ := hnode.exists_type hcallee
          exact absurd hty (htype ty hcallee)
        · exact (hbelow _ (by simp) (.inl hcallee)).bind fun _ _ => hlist.bind fun _ _ => trivial
    | args => exact arguments_ends (hoperand (by simp [hk]))
    | _ =>
      rw [hk] at hexpr
      rcases hexpr with hexpr | hexpr <;> cases hexpr

end JavaScript

end VecLang.Emit

namespace VecLang

variable {types : TypeTable} {t : Ty} {slots : Slots} {name : String}

/-! ### Scopes of known types -/

namespace ScopeStack

variable {types : TypeTable} {s inner : ScopeStack}

/-- The types of all bindings, also of those that come back as scopes are closed, can be
resolved. -/
def Known (types : TypeTable) (s : ScopeStack) : Prop :=
  ∀ table ∈ s.visible :: s.saved.map Prod.fst, ∀ name b, table.get? name = some b →
    (types.resolve b.type).isOk = true

theorem Known.push (h : s.Known types) : s.push.Known types := by
  intro table hmem
  rw [ScopeStack.push, List.map_cons, List.mem_cons, List.mem_cons] at hmem
  rcases hmem with hmem | hmem | hmem
  · exact h table (List.mem_cons.2 (.inl hmem))
  · exact h table (List.mem_cons.2 (.inl hmem))
  · exact h table (List.mem_cons.2 (.inr hmem))

theorem Known.bind (h : s.Known types) (name : String) {b : Binding}
    (hb : (types.resolve b.type).isOk = true) : (s.bind name b).Known types := by
  intro table hmem other b' hget
  rcases List.mem_cons.1 hmem with rfl | hmem
  · rw [ScopeStack.bind, Table.get?_insert] at hget
    split at hget
    · cases hget
      exact hb
    · exact h _ (.head _) other b' hget
  · exact h table (.tail _ hmem) other b' hget

/-- The scopes around are those of `s`, and what is bound has known types. -/
def Within (types : TypeTable) (s s' : ScopeStack) : Prop :=
  s'.saved = s.saved ∧ s'.Known types

theorem Within.pop {E : Error → Prop} (h : s.push.Within types inner) :
    Except.Ends inner.pop E (s.Within types) := by
  obtain ⟨hsaved, hknown⟩ := h
  unfold Known at hknown
  unfold ScopeStack.pop
  rw [hsaved] at hknown ⊢
  refine ⟨rfl, fun table hmem => hknown table (.tail _ ?_)⟩
  exact hmem

end ScopeStack

theorem TypeTable.sameType_ends {s : Ty} {E : Error → Prop} (hs : (types.resolve s).isOk = true)
    (ht : (types.resolve t).isOk = true) : Except.Ends (types.sameType s t) E fun _ => True := by
  unfold sameType
  cases hs' : types.resolve s with
  | error e => rw [hs'] at hs; cases hs
  | ok s' =>
    cases ht' : types.resolve t with
    | error e => rw [ht'] at ht; cases ht
    | ok t' => trivial

def Slots.Known (types : TypeTable) (slots : Slots) : Prop :=
  ∀ e ∈ slots.all, (types.resolve e.2.type).isOk = true

theorem Slots.Known.find? (h : slots.Known types) {slot : Slot}
    (hfind : slots.find? name = some slot) :
    (types.resolve slot.type).isOk = true := h (name, slot) (Slots.mem_all_of_find? hfind)

theorem Slots.Known.slotScopes (h : slots.Known types) :
    (Context.slotScopes slots).Known types := by
  have hall : ∀ (es : List (String × Slot)) (s : ScopeStack), es ⊆ slots.all → s.Known types →
      (es.foldl Context.bindSlot s).Known types := by
    intro es
    induction es with
    | nil => exact fun s _ hs => hs
    | cons e es ih =>
      intro s hsub hs
      exact ih _ (fun x hx => hsub (.tail _ hx))
        (hs.bind e.1 (h e (hsub (.head _))))
  rw [Context.slotScopes_eq]
  refine hall slots.all {} (fun _ hx => hx) ?_
  intro table hmem name b hget
  rw [List.mem_singleton.1 hmem] at hget
  cases hget

/-! ### Statements of scripts -/

namespace Emit.JavaScript

variable {ctx : Context} {arena : Arena} {options : Options} {scopes : ScopeStack} {id : NodeId}
  {ss : List (Rose NodeId)} {E : Error → Prop}

theorem restatesSlot_ends (hslots : ctx.slots.Known ctx.types)
    (ht : (ctx.types.resolve t).isOk = true) :
    Except.Ends (restatesSlot ctx arena scopes id name t) E fun _ => True := by
  unfold restatesSlot
  split
  · trivial
  next slot hfind =>
  split
  · trivial
  split
  · exact TypeTable.sameType_ends (hslots.find? hfind) ht
  · trivial

theorem restatesParameter_ends (hscopes : scopes.Known ctx.types)
    (ht : (ctx.types.resolve t).isOk = true) :
    Except.Ends (restatesParameter ctx arena scopes id name t) E fun _ => True := by
  unfold restatesParameter
  split
  · trivial
  next b hget =>
  split
  · trivial
  split
  · exact TypeTable.sameType_ends (hscopes _ (.head _) _ _ hget) ht
  · trivial

theorem labelled_node : labelled arena (.node id ss) =
    .node (arena.label id) (ss.map (labelled arena)) := Rose.map_node ..

theorem kind_labelled (s : Rose NodeId) : (labelled arena s).kind = arena.kind s.entry :=
  Tree.kind_map arena s

section

variable (h : Writable ctx E (labelled arena (.node id ss)))
include h

theorem Writable.child {c : Rose NodeId} (hc : c ∈ ss) : Writable ctx E (labelled arena c) := by
  rw [labelled_node] at h
  exact h.of_mem (List.mem_map_of_mem hc)

theorem Writable.formedNode : FormedNode ctx.types (arena.label id) (ss.map (labelled arena)) := by
  rw [labelled_node] at h
  exact h.formed.root

theorem labelledType_ends (hk : arena.kind id = .varDecl ∨ arena.kind id = .function) :
    Except.Ends (declaredType ctx (arena.label id) (ss.head?.map fun c => arena.label c.entry)) E
      fun t => (ctx.types.resolve t).isOk = true := by
  rw [labelled_node] at h
  have htype := declaredType_ends (E := E) ctx h.formed hk
  rw [List.head?_map, Option.map_map] at htype
  convert htype using 3
  funext c
  exact (Rose.entry_map arena.label c).symm

end

theorem declaration_ends (hslots : ctx.slots.Known ctx.types) (hscopes : scopes.Known ctx.types)
    (h : Writable ctx E (labelled arena (.node id ss))) (hk : arena.kind id = .varDecl) :
    Except.Ends (declaration ctx arena options scopes id ss) E
      fun r => scopes.Within ctx.types r.2 := by
  have hstay : scopes.Within ctx.types scopes := ⟨rfl, hscopes⟩
  have hvalue : ∀ init, ss[1]? = some init →
      Except.Ends (expression ctx options scopes (labelled arena init)) E fun _ => True := by
    intro init hinit
    refine expression_ends (h.child (List.mem_of_getElem? hinit)) (.inl ?_)
    obtain ⟨u, rest, hts, -, hrest⟩ := h.formedNode.declaration hk
    have hget : (ss.map (labelled arena))[1]? = some (labelled arena init) := by
      rw [List.getElem?_map, hinit]
      rfl
    rw [hts] at hget
    exact hrest _ (List.mem_of_getElem? hget)
  unfold declaration
  refine (nameOf_ends (h.formedNode.exists_name (.inr (.inl hk)))).bind fun name _ => ?_
  refine (labelledType_ends h (.inl hk)).bind fun t ht => ?_
  refine (restatesSlot_ends hslots ht).bind fun slot _ => ?_
  have hbound : scopes.Within ctx.types (scopes.bind name { type := t, decl? := some id }) :=
    ⟨rfl, hscopes.bind name ht⟩
  cases hinit : ss[1]? with
  | none =>
    split
    · exact hstay
    refine (restatesParameter_ends hscopes ht).bind fun restates _ => ?_
    split
    · exact hstay
    · exact hbound
  | some init =>
    have htext := hvalue init hinit
    split
    · simp only
      split
      · exact htext.bind fun _ _ => hstay
      · exact hstay
    refine (restatesParameter_ends hscopes ht).bind fun restates _ => ?_
    split
    · exact htext.bind fun _ _ => hstay
    · exact htext.bind fun _ _ => hbound

theorem parameters_ends (hscopes : scopes.Known ctx.types)
    (h : ∀ s ∈ ss, Writable ctx E (labelled arena s) ∧ arena.kind s.entry = .varDecl) :
    Except.Ends (parameters ctx arena scopes ss) E fun r => scopes.Within ctx.types r.2 := by
  induction ss generalizing scopes with
  | nil => exact ⟨rfl, hscopes⟩
  | cons s ss ih =>
    obtain ⟨param, children⟩ := s
    obtain ⟨hparam, hk⟩ := h _ (.head _)
    rw [parameters]
    refine (nameOf_ends (hparam.formedNode.exists_name (.inr (.inl hk)))).bind fun name _ => ?_
    refine (labelledType_ends hparam (.inl hk)).bind fun t ht => ?_
    refine (ih (hscopes.bind name ht) fun u hu => h u (.tail _ hu)).bind
      fun r hr => ?_
    exact hr

/-- The statement has a script at any depth, or the error is as `E` says. -/
def HasScript (ctx : Context) (arena : Arena) (options : Options) (E : Error → Prop)
    (s : Rose NodeId) : Prop :=
  Writable ctx E (labelled arena s) → (labelled arena s).kind.isStatement = true →
    ∀ depth (scopes : ScopeStack), scopes.Known ctx.types →
      Except.Ends (statement ctx arena options depth scopes s) E
        fun r => scopes.Within ctx.types r.2

theorem lines_ends (h : ∀ s ∈ ss, HasScript ctx arena options E s)
    (hss : ∀ s ∈ ss, Writable ctx E (labelled arena s) ∧
      (labelled arena s).kind.isStatement = true) (depth : Nat) (hscopes : scopes.Known ctx.types) :
    Except.Ends (lines ctx arena options depth scopes ss) E
      fun r => scopes.Within ctx.types r.2 := by
  induction ss generalizing scopes with
  | nil => exact ⟨rfl, hscopes⟩
  | cons s ss ih =>
    obtain ⟨hfirst, hrest⟩ := List.forall_mem_cons.1 h
    obtain ⟨⟨hs, hk⟩, hss⟩ := List.forall_mem_cons.1 hss
    rw [lines]
    refine (hfirst hs hk depth scopes hscopes).bind fun r hr => ?_
    refine (ih hrest hss hr.2).bind fun r' hr' => ?_
    exact ⟨hr'.1.trans hr.1, hr'.2⟩

theorem block_ends (hblock : Writable ctx E (labelled arena (.node id ss)))
    (hk : arena.kind id = .block) (h : ∀ s ∈ ss, HasScript ctx arena options E s) (depth : Nat)
    (hscopes : scopes.Known ctx.types) :
    Except.Ends (lines ctx arena options depth scopes ss) E
      fun r => scopes.Within ctx.types r.2 := by
  refine lines_ends h (fun s hs => ⟨hblock.child hs, ?_⟩) depth hscopes
  have hadmits := hblock.formedNode.admits
  rw [show (arena.label id).kind = .block from hk] at hadmits
  exact List.all_eq_true.1 hadmits _ (List.mem_map_of_mem (List.mem_map_of_mem hs))

/-- What a condition governs: a block opens a scope itself, and for all else one is opened. -/
theorem branch_ends {s : Rose NodeId} (h : HasScript ctx arena options E s)
    (hs : Writable ctx E (labelled arena s)) (hk : (labelled arena s).kind.isStatement = true)
    (depth : Nat) (hscopes : scopes.Known ctx.types) :
    Except.Ends (branch options depth scopes (arena.kind s.entry)
        fun depth scopes => statement ctx arena options depth scopes s) E
      fun r => scopes.Within ctx.types r.2 := by
  unfold branch
  split
  · exact h hs hk depth scopes hscopes
  · refine (h hs hk (depth + 1) scopes.push hscopes.push).bind fun r hr => ?_
    exact hr.pop.bind fun _ hs => hs

theorem function_ends (hf : Writable ctx E (labelled arena (.node id ss)))
    (hk : arena.kind id = .function)
    (h : ∀ c ∈ ss, ∀ d ∈ c.children, HasScript ctx arena options E d) (depth : Nat)
    (hscopes : scopes.Known ctx.types) :
    Except.Ends (statement ctx arena options depth scopes (.node id ss)) E
      fun r => scopes.Within ctx.types r.2 := by
  obtain ⟨t, params, body, hts, -, hparams, hbody⟩ := hf.formedNode.function hk
  obtain ⟨first, ss, rfl, rfl, hrest⟩ := List.map_eq_cons_iff.1 hts
  obtain ⟨⟨p, ps⟩, ss, rfl, rfl, hlast⟩ := List.map_eq_cons_iff.1 hrest
  obtain ⟨⟨b, bs⟩, ss, rfl, rfl, -⟩ := List.map_eq_cons_iff.1 hlast
  rw [kind_labelled] at hbody hparams
  have hlist := hf.child (c := .node p ps) (by simp)
  have hblock := hf.child (c := .node b bs) (by simp)
  unfold statement
  simp only [hk]
  refine (nameOf_ends (hf.formedNode.exists_name (.inl hk))).bind fun name _ => ?_
  refine (parameters_ends hscopes.push fun s hs => ⟨hlist.child hs, ?_⟩).bind fun r hr => ?_
  · have hadmits := hlist.formedNode.admits
    rw [show (arena.label p).kind = .params from hparams] at hadmits
    have hdecl := List.all_eq_true.1 hadmits _
      (List.mem_map_of_mem (List.mem_map_of_mem (f := labelled arena) hs))
    rwa [beq_iff_eq, kind_labelled] at hdecl
  refine (block_ends hblock hbody (h (.node b bs) (by simp)) (depth + 1) hr.2).bind
    fun r' hr' => ?_
  have hinner : scopes.push.Within ctx.types r'.2 := ⟨hr'.1.trans hr.1, hr'.2⟩
  exact hinner.pop.bind fun _ hs => hs

theorem conditional_ends (hif : Writable ctx E (labelled arena (.node id ss)))
    (hk : arena.kind id = .conditional) (h : ∀ c ∈ ss, HasScript ctx arena options E c) (depth : Nat)
    (hscopes : scopes.Known ctx.types) :
    Except.Ends (statement ctx arena options depth scopes (.node id ss)) E
      fun r => scopes.Within ctx.types r.2 := by
  obtain ⟨cond, yes, rest, hts, hcond, hyes, hrest⟩ := hif.formedNode.conditional hk
  obtain ⟨cond, ss, rfl, rfl, htail⟩ := List.map_eq_cons_iff.1 hts
  obtain ⟨yes, rest, rfl, rfl, rfl⟩ := List.map_eq_cons_iff.1 htail
  unfold statement
  simp only [hk]
  refine (expression_ends (hif.child (by simp)) (.inl hcond)).bind fun _ _ => ?_
  refine (branch_ends (h yes (by simp)) (hif.child (by simp)) (by rw [hyes]; rfl) depth hscopes).bind
    fun r hr => ?_
  cases rest with
  | nil => exact hr
  | cons no rest =>
    have hno := hif.child (c := no) (by simp)
    have hstatement : (labelled arena no).kind.isStatement = true := by
      rcases hrest (labelled arena no) (by simp) with hk | hk <;> rw [hk] <;> rfl
    simp only
    split
    · refine (h no (by simp) hno hstatement (depth + 1) r.2 hr.2).bind fun r' hr' => ?_
      exact ⟨hr'.1.trans hr.1, hr'.2⟩
    · refine (branch_ends (h no (by simp)) hno hstatement depth hr.2).bind fun r' hr' => ?_
      exact ⟨hr'.1.trans hr.1, hr'.2⟩

/-- **A formed statement has a script**, or it has a member access without a name. The scopes
around it are those from before. -/
theorem statement_ends (hslots : ctx.slots.Known ctx.types) (s : Rose NodeId) :
    HasScript ctx arena options E s ∧ ∀ c ∈ s.children, HasScript ctx arena options E c := by
  -- the statements of a function stand two levels down, below its block
  induction s using Rose.induction with
  | node id ss ih =>
    have hbelow : ∀ c ∈ ss, HasScript ctx arena options E c := fun c hc => (ih c hc).1
    refine ⟨fun hs hstatement depth scopes hscopes => ?_, hbelow⟩
    rw [kind_labelled, Rose.entry] at hstatement
    have hexpression : (arena.kind id).isExpression = true →
        Except.Ends (expression ctx options scopes (labelled arena (.node id ss)) >>=
          fun text => pure (text, scopes)) E fun r => scopes.Within ctx.types r.2 := by
      intro hexpr
      rw [← Rose.entry.eq_1 id ss, ← kind_labelled] at hexpr
      exact (expression_ends hs (.inl hexpr)).bind fun _ _ => ⟨rfl, hscopes⟩
    cases hk : arena.kind id with
    | function => exact function_ends hs hk (fun c hc => (ih c hc).2) depth hscopes
    | conditional => exact conditional_ends hs hk hbelow depth hscopes
    | varDecl =>
      unfold statement
      simp only [hk]
      exact declaration_ends hslots hscopes hs hk
    | block =>
      unfold statement
      simp only [hk]
      refine (block_ends hs hk hbelow _ hscopes.push).bind fun r hr => ?_
      exact hr.pop.bind fun _ hs => hs
    | ret =>
      unfold statement
      cases ss with
      | nil =>
        simp only [hk]
        exact ⟨rfl, hscopes⟩
      | cons value rest =>
        simp only [hk]
        refine (expression_ends (hs.child (.head _)) (.inl ?_)).bind
          fun _ _ => ⟨rfl, hscopes⟩
        rw [labelled_node] at hs
        have hret : (arena.label id).kind = .ret := hk
        exact (hs.formed.expression_of_mem (by simp [hret]) (by simp)).2
    | params | args | varType | varRef => rw [hk] at hstatement; cases hstatement
    | _ =>
      unfold statement
      simp only [hk]
      exact hexpression (by rw [hk]; rfl)

/-- **A formed program has a script**, or it has a member access without a name. -/
theorem program_ends {root : NodeId} (hslots : ctx.slots.Known ctx.types)
    (hformed : Formed ctx.types (arena.tree root)) (hk : (arena.tree root).kind = .block) :
    Except.Ends (program options ctx arena root) (Nameless ctx (arena.tree root)) fun _ => True := by
  change Formed ctx.types (labelled arena (arena.shape root)) at hformed
  change (labelled arena (arena.shape root)).kind = .block at hk
  change Except.Ends _ (Nameless ctx (labelled arena (arena.shape root))) _
  unfold program
  generalize arena.shape root = s at hformed hk ⊢
  obtain ⟨id, ss⟩ := s
  rw [kind_labelled] at hk
  exact (block_ends ⟨hformed, fun _ he => he⟩ hk (statement_ends hslots (.node id ss)).2 1
    hslots.slotScopes).bind fun _ _ => trivial

end Emit.JavaScript

end VecLang
