import Mathlib.Data.List.Forall2
import VecLang.Proofs.Program

/-!
# Formed trees

Every kind of node has children of certain kinds and carries what belongs to the kind: a
name, a type, a constant or an operator. Both can be checked node by node, and the second
child of a member access need not be a name for that, so a rewriting of expressions that
looks at their kinds alone keeps a tree formed.

* `Kind.admits`, `Label.carries`: what each kind of node has.
* `Kind.admits_congr`: expressions may stand for one another.
* `IsProgram.formed`: the tree of a program is formed.
-/

namespace VecLang

open List

variable {k k' : Kind} {types : TypeTable} {t : Tree} {ty : Ty} {q : Option Qualifier}

theorem Tree.kind_node (l : Label) (ts : List Tree) : Tree.kind (.node l ts) = l.kind := rfl

theorem Tree.kind_map (a : Arena) (s : Rose NodeId) : Tree.kind (s.map a.label) = a.kind s.entry :=
  congrArg Label.kind (Rose.entry_map a.label s)

/-! ### What each kind of node has -/

namespace Kind

def isExpression : Kind → Bool
  | .ident | .intConst | .floatConst | .boolConst | .binary | .unary | .assign | .ternary
  | .index | .member | .call => true
  | _ => false

/-- The kinds of what may stand in a block. -/
def isStatement : Kind → Bool
  | .block | .function | .varDecl | .conditional | .ret => true
  | k => k.isExpression

/-- **The kinds that the children of a node may have**, from left to right. -/
def admits : Kind → List Kind → Bool
  | .block, ks => ks.all isStatement
  | .function, ks => ks == [.varType, .params, .block]
  | .params, ks => ks.all (· == .varDecl)
  | .varDecl, ks => ks.head? == some .varType && ks.length ≤ 2 && ks.tail.all isExpression
  | .varType, ks | .ident, ks | .intConst, ks | .floatConst, ks | .boolConst, ks => ks.isEmpty
  | .binary, ks | .assign, ks | .index, ks | .member, ks => ks.length == 2 && ks.all isExpression
  | .unary, ks => ks.length == 1 && ks.all isExpression
  | .ternary, ks => ks.length == 3 && ks.all isExpression
  | .call, ks =>
    ks.tail == [.args] && (ks.head? == some .varType || (ks.head?.map isExpression).getD false)
  | .args, ks => ks.all isExpression
  | .conditional, ks =>
    (ks.head?.map isExpression).getD false && ks[1]? == some .block && ks.length ≤ 3 &&
      (ks.drop 2).all fun k => k == .block || k == .conditional
  | .ret, ks => ks.length ≤ 1 && ks.all isExpression
  | .varRef, _ => false

/-- One kind may stand for another: it is the same, or both are kinds of expressions. -/
def Like (k k' : Kind) : Prop := k' = k ∨ k.isExpression = true ∧ k'.isExpression = true

theorem Like.refl (k : Kind) : k.Like k := .inl rfl

theorem Like.isExpression (h : k.Like k') (hk : k.isExpression = true) :
    k'.isExpression = true := by
  rcases h with rfl | ⟨-, h⟩
  · exact hk
  · exact h

theorem Like.eq (h : k.Like k') (hk : k.isExpression = false) : k' = k := by
  rcases h with h | ⟨h, -⟩
  · exact h
  · rw [hk] at h
    cases h

theorem isStatement_of_isExpression (h : k.isExpression = true) : k.isStatement = true := by
  cases k <;> first | rfl | exact h

theorem Like.isStatement (h : k.Like k') (hk : k.isStatement = true) : k'.isStatement = true := by
  rcases h with rfl | ⟨-, h⟩
  · exact hk
  · exact isStatement_of_isExpression h

theorem all_like {P : Kind → Bool} {ks ks' : List Kind}
    (hP : ∀ {k k' : Kind}, k.Like k' → P k = true → P k' = true) (h : List.Forall₂ Like ks ks')
    (hks : ks.all P = true) : ks'.all P = true := by
  induction h with
  | nil => rfl
  | cons hk _ ih =>
    rw [all_cons, Bool.and_eq_true] at hks ⊢
    exact ⟨hP hk hks.1, ih hks.2⟩

/-- **Expressions may stand for one another below any node.** -/
theorem admits_congr {ks ks' : List Kind} (h : List.Forall₂ Like ks ks') (hks : k.admits ks = true)
    : k.admits ks' = true := by
  have hlen := h.length_eq
  have hexpr : ks.all isExpression = true → ks'.all isExpression = true :=
    all_like Like.isExpression h
  cases k with
  | block => exact all_like Like.isStatement h hks
  | params =>
    refine all_like (fun hlike hk => ?_) h hks
    rw [beq_iff_eq] at hk ⊢
    rw [hlike.eq (hk ▸ rfl), hk]
  | varType | ident | intConst | floatConst | boolConst =>
    simp only [admits, List.isEmpty_iff] at hks ⊢
    subst hks
    exact List.forall₂_nil_left_iff.1 h
  | binary | assign | index | member | unary | ternary | ret =>
    simp only [admits, Bool.and_eq_true] at hks ⊢
    exact ⟨hlen ▸ hks.1, hexpr hks.2⟩
  | args => exact hexpr hks
  | function =>
    simp only [admits, beq_iff_eq] at hks ⊢
    subst hks
    cases h with
    | cons h₁ h => cases h with
      | cons h₂ h => cases h with
        | cons h₃ h =>
          cases h
          rw [h₁.eq rfl, h₂.eq rfl, h₃.eq rfl]
  | varDecl =>
    cases h with
    | nil => cases hks
    | cons h₁ h =>
      simp only [admits, head?_cons, tail_cons, Bool.and_eq_true, beq_iff_eq,
        Option.some.injEq] at hks ⊢
      obtain ⟨⟨rfl, hle⟩, hrest⟩ := hks
      exact ⟨⟨h₁.eq rfl, hlen ▸ hle⟩, all_like Like.isExpression h hrest⟩
  | call =>
    cases h with
    | nil => cases hks
    | cons h₁ h =>
      simp only [admits, head?_cons, tail_cons, Option.map_some, Option.getD_some,
        Bool.and_eq_true, Bool.or_eq_true, beq_iff_eq, Option.some.injEq] at hks ⊢
      obtain ⟨rfl, hcallee⟩ := hks
      cases h with
      | cons h₂ h =>
        cases h
        rw [h₂.eq rfl]
        exact ⟨rfl, hcallee.imp (fun hk => by rw [h₁.eq (hk ▸ rfl), hk]) h₁.isExpression⟩
  | conditional =>
    cases h with
    | nil => cases hks
    | cons h₁ h => cases h with
      | nil => simp [admits] at hks
      | cons h₂ h =>
        simp only [admits, head?_cons, Option.map_some, Option.getD_some,
          getElem?_cons_succ, getElem?_cons_zero, drop_succ_cons, drop_zero,
          Bool.and_eq_true, beq_iff_eq, Option.some.injEq] at hks ⊢
        obtain ⟨⟨⟨hcond, rfl⟩, hle⟩, hrest⟩ := hks
        refine ⟨⟨⟨h₁.isExpression hcond, h₂.eq rfl⟩, hlen ▸ hle⟩, all_like (fun hlike hk => ?_) h hrest⟩
        simp only [Bool.or_eq_true, beq_iff_eq] at hk ⊢
        rcases hk with rfl | rfl
        · exact .inl (hlike.eq rfl)
        · exact .inr (hlike.eq rfl)
  | varRef => cases hks

end Kind

/-- **What a node of each kind carries**: a name, a type that is known, a constant or an
operator. -/
def Label.carries (types : TypeTable) (l : Label) : Bool :=
  match l.kind with
  | .function | .varDecl | .ident => l.name?.isSome
  | .varType => l.type?.any fun t => (types.resolve t).isOk
  | .intConst | .floatConst | .boolConst =>
    match l.value with
    | some (.int _) | some (.float _) | some (.bool _) => true
    | _ => false
  | .binary | .unary => l.op.isSome
  | _ => true

/-- The node has the children of its kind and carries what belongs to it. -/
structure FormedNode (types : TypeTable) (l : Label) (ts : List Tree) : Prop where
  admits : l.kind.admits (ts.map Tree.kind) = true
  carries : l.carries types = true

def Formed (types : TypeTable) (t : Tree) : Prop :=
  ∀ u ∈ t.subtrees, FormedNode types u.entry u.children

section Formed

open ScopeWalk

variable {types : TypeTable} {l : Label} {t : Tree} {ts : List Tree}

theorem Formed.node (h : FormedNode types l ts) (hts : ∀ t ∈ ts, Formed types t) :
    Formed types (.node l ts) :=
  forall_mem_subtrees h hts

theorem Formed.root (h : Formed types (.node l ts)) : FormedNode types l ts :=
  h _ (Rose.self_mem_subtrees _)

theorem Formed.of_mem (h : Formed types (.node l ts)) (ht : t ∈ ts) : Formed types t :=
  fun u hu => h u (Rose.mem_subtrees_of_mem ht hu)

theorem Formed.leaf (h : l.kind.admits [] = true) (hl : l.carries types = true) :
    Formed types (.node l []) :=
  .node ⟨h, hl⟩ fun _ hm => by cases hm

def FormedExpression (types : TypeTable) (t : Tree) : Prop :=
  Formed types t ∧ t.kind.isExpression = true

theorem Formed.expression_of_mem (h : Formed types (.node l ts))
    (hl : l.kind ∈ [.binary, .assign, .index, .member, .unary, .ternary, .ret, .args])
    (ht : t ∈ ts) :
    FormedExpression types t := by
  refine ⟨h.of_mem ht, ?_⟩
  have hall : (ts.map Tree.kind).all Kind.isExpression = true := by
    have hadmits := h.root.admits
    simp only [mem_cons, not_mem_nil, or_false] at hl
    rcases hl with hl | hl | hl | hl | hl | hl | hl | hl <;>
      simp only [hl, Kind.admits, Bool.and_eq_true] at hadmits <;>
      first | exact hadmits.2 | exact hadmits
  exact all_eq_true.1 hall _ (mem_map_of_mem ht)

/-! Each kind of node from its shape. -/

section

variable (h : FormedNode types l ts)
include h

theorem FormedNode.pair (hl : l.kind ∈ [.binary, .assign, .index, .member]) :
    ∃ t u, ts = [t, u] := by
  have hadmits := h.admits
  simp only [mem_cons, not_mem_nil, or_false] at hl
  have hlen : ts.length = 2 := by
    rcases hl with hl | hl | hl | hl <;>
      simp only [hl, Kind.admits, Bool.and_eq_true, beq_iff_eq, length_map] at hadmits <;>
      exact hadmits.1
  exact length_eq_two.1 hlen

theorem FormedNode.operand (hl : l.kind = .unary) : ∃ t, ts = [t] := by
  have hadmits := h.admits
  simp only [hl, Kind.admits, Bool.and_eq_true, beq_iff_eq, length_map] at hadmits
  exact length_eq_one_iff.1 hadmits.1

theorem FormedNode.choice (hl : l.kind = .ternary) : ∃ t u w, ts = [t, u, w] := by
  have hadmits := h.admits
  simp only [hl, Kind.admits, Bool.and_eq_true, beq_iff_eq, length_map] at hadmits
  exact length_eq_three.1 hadmits.1

theorem FormedNode.call (hl : l.kind = .call) :
    ∃ callee args, ts = [callee, args] ∧ args.kind = .args ∧
      (callee.kind = .varType ∨ callee.kind.isExpression = true) := by
  have hadmits := h.admits
  rw [hl] at hadmits
  match ts with
  | [] => cases hadmits
  | [_] => cases hadmits
  | _ :: _ :: _ :: _ => simp [Kind.admits] at hadmits
  | [callee, args] =>
    simp only [Kind.admits, map_cons, map_nil, tail_cons, head?_cons,
      Option.map_some, Option.getD_some, Bool.and_eq_true, Bool.or_eq_true, beq_iff_eq,
      cons.injEq, and_true, Option.some.injEq] at hadmits
    exact ⟨callee, args, rfl, hadmits⟩

theorem FormedNode.declaration (hl : l.kind = .varDecl) :
    ∃ t rest, ts = t :: rest ∧ t.kind = .varType ∧ ∀ u ∈ rest, u.kind.isExpression = true := by
  have hadmits := h.admits
  rw [hl] at hadmits
  cases ts with
  | nil => cases hadmits
  | cons t rest =>
    simp only [Kind.admits, map_cons, head?_cons, tail_cons, Bool.and_eq_true,
      beq_iff_eq, Option.some.injEq] at hadmits
    exact ⟨t, rest, rfl, hadmits.1.1,
      fun u hu => all_eq_true.1 hadmits.2 _ (mem_map_of_mem hu)⟩

theorem FormedNode.function (hl : l.kind = .function) :
    ∃ t params body, ts = [t, params, body] ∧ t.kind = .varType ∧ params.kind = .params ∧
      body.kind = .block := by
  have hadmits := h.admits
  simp only [hl, Kind.admits, beq_iff_eq] at hadmits
  have hlen : ts.length = 3 := by
    rw [← length_map Tree.kind, hadmits]
    rfl
  obtain ⟨t, params, body, rfl⟩ := length_eq_three.1 hlen
  simp only [map_cons, map_nil, cons.injEq, and_true] at hadmits
  exact ⟨t, params, body, rfl, hadmits⟩

theorem FormedNode.conditional (hl : l.kind = .conditional) :
    ∃ cond yes rest, ts = cond :: yes :: rest ∧ cond.kind.isExpression = true ∧
      yes.kind = .block ∧ ∀ no ∈ rest, no.kind = .block ∨ no.kind = .conditional := by
  have hadmits := h.admits
  rw [hl] at hadmits
  match ts with
  | [] => cases hadmits
  | [_] => simp [Kind.admits] at hadmits
  | cond :: yes :: rest =>
    simp only [Kind.admits, map_cons, head?_cons, Option.map_some, Option.getD_some,
      getElem?_cons_succ, getElem?_cons_zero, drop_succ_cons, drop_zero,
      Bool.and_eq_true, beq_iff_eq, Option.some.injEq] at hadmits
    refine ⟨cond, yes, rest, rfl, hadmits.1.1.1, hadmits.1.1.2, fun no hno => ?_⟩
    have hkind := all_eq_true.1 hadmits.2 _ (mem_map_of_mem hno)
    simpa only [Bool.or_eq_true, beq_iff_eq] using hkind

theorem FormedNode.exists_name (hl : l.kind = .function ∨ l.kind = .varDecl ∨ l.kind = .ident) :
    ∃ name, l.name? = some name := by
  have hcarries := h.carries
  unfold Label.carries at hcarries
  rcases hl with hl | hl | hl <;> rw [hl] at hcarries <;>
    exact Option.isSome_iff_exists.1 hcarries

theorem FormedNode.exists_operator (hl : l.kind = .binary ∨ l.kind = .unary) :
    ∃ op, l.op = some op := by
  have hcarries := h.carries
  unfold Label.carries at hcarries
  rcases hl with hl | hl <;> rw [hl] at hcarries <;> exact Option.isSome_iff_exists.1 hcarries

theorem FormedNode.exists_type (hl : l.kind = .varType) :
    ∃ t, l.type? = some t ∧ (types.resolve t).isOk = true := by
  have hcarries := h.carries
  unfold Label.carries at hcarries
  rw [hl] at hcarries
  exact (Option.any_eq_true _ _).1 hcarries

end

theorem Formed.eq_nil (h : Formed types (.node l ts)) (hl : l.kind = .ident ∨ l.kind = .varType) :
    ts = [] := by
  have hadmits := h.root.admits
  rcases hl with hl | hl <;> rw [hl] at hadmits <;> simpa [Kind.admits] using hadmits

theorem FormedNode.head (h : FormedNode types l ts) (hl : l.kind = .varDecl ∨ l.kind = .function) :
    ∃ t rest, ts = t :: rest ∧ t.kind = .varType := by
  rcases hl with hl | hl
  · obtain ⟨t, rest, hts, hk, -⟩ := h.declaration hl
    exact ⟨t, rest, hts, hk⟩
  · obtain ⟨t, params, body, hts, hk, -⟩ := h.function hl
    exact ⟨t, [params, body], hts, hk⟩

theorem Formed.exists_type (h : Formed types (.node l ts))
    (hl : l.kind = .varDecl ∨ l.kind = .function) :
    ∃ t, ts.head?.bind (·.entry.type?) = some t ∧ (types.resolve t).isOk = true := by
  obtain ⟨⟨lu, us⟩, rest, rfl, hk⟩ := h.root.head hl
  exact (h.of_mem (.head _)).root.exists_type hk

def TypeTable.Closed (types : TypeTable) : Prop :=
  ∀ name t, types.get? name = some t → (types.resolve t).isOk = true

end Formed

theorem closed_builtin : Builtin.types.Closed := by
  have hall : ∀ e ∈ Builtin.types.entries, (Builtin.types.resolve e.2).isOk = true := by decide
  intro name t h
  exact hall _ (Table.mem_of_get? h)

def Kind.isInner (k : Kind) : Bool := k.isExpression || k == .varType || k == .args

theorem Kind.isInner_of_isExpression (h : k.isExpression = true) : k.isInner = true := by
  unfold isInner
  rw [h]
  rfl

theorem Kind.isInner_of_admits {ks : List Kind} (hk : k.isInner = true) (h : k.admits ks = true) :
    ∀ k' ∈ ks, k'.isInner = true := by
  have hall : ks.all isExpression = true → ∀ k' ∈ ks, k'.isInner = true := by
    exact fun hall k' hk' => isInner_of_isExpression (List.all_eq_true.1 hall k' hk')
  cases k with
  | block | function | params | varDecl | conditional | ret | varRef => cases hk
  | varType | ident | intConst | floatConst | boolConst =>
    simp only [admits, List.isEmpty_iff] at h
    subst h
    exact fun _ hm => by cases hm
  | binary | assign | index | member | unary | ternary =>
    simp only [admits, Bool.and_eq_true] at h
    exact hall h.2
  | args => exact hall h
  | call =>
    cases ks with
    | nil => cases h
    | cons callee rest =>
      simp only [admits, head?_cons, tail_cons, Option.map_some, Option.getD_some,
        Bool.and_eq_true, Bool.or_eq_true, beq_iff_eq, Option.some.injEq] at h
      obtain ⟨rfl, hcallee⟩ := h
      refine forall_mem_cons.2 ⟨?_, forall_mem_singleton.2 rfl⟩
      rcases hcallee with rfl | hcallee
      · rfl
      · exact isInner_of_isExpression hcallee

theorem Formed.isInner (h : Formed types t) (hk : t.kind.isInner = true) :
    ∀ l ∈ t.preorder, l.kind.isInner = true := by
  induction t using Rose.induction with
  | node l ts ih =>
    refine Rose.forall_preorder_node hk fun t ht => ih t ht (h.of_mem ht) ?_
    exact Kind.isInner_of_admits hk h.root.admits _ (mem_map_of_mem ht)

/-- A formed expression declares nothing and lists no statements. -/
theorem Formed.inert (h : Formed types t) (hk : t.kind.isInner = true) : ScopeWalk.Inert t := by
  intro l hl
  have hinner := h.isInner hk l hl
  refine ⟨?_, ?_, ?_⟩ <;> intro he <;> rw [he] at hinner <;> cases hinner

theorem FormedExpression.inert (h : FormedExpression types t) : ScopeWalk.Inert t :=
  h.1.inert (Kind.isInner_of_isExpression h.2)

theorem Formed.inert_map {a : Arena} {s : Rose NodeId} (h : Formed types (s.map a.label))
    (hk : (a.kind s.entry).isInner = true) : ScopeWalk.Inert (s.map a.label) :=
  h.inert (by rwa [Tree.kind_map])

/-! ### Programs -/

namespace Grammar

open ScopeWalk

variable {types : TypeTable} {t : Tree} {ts : List Tree} {l : Label}

theorem IsExpression.isExpression (h : IsExpression types t) : t.kind.isExpression = true := by
  cases h <;> rfl

theorem all_isExpression (h : ∀ t ∈ ts, IsExpression types t) :
    (ts.map Tree.kind).all Kind.isExpression = true := by
  rw [all_eq_true]
  intro k hk
  obtain ⟨t, ht, rfl⟩ := mem_map.1 hk
  exact (h t ht).isExpression

theorem IsExpression.formed (htypes : types.Closed) (h : IsExpression types t) :
    Formed types t := by
  have hargs : ∀ {pos : Pos} {args : List Tree}, (∀ t ∈ args, IsExpression types t) →
      (∀ t ∈ args, Formed types t) → Formed types (.plain .args pos args) :=
    fun h hf => .node ⟨all_isExpression h, rfl⟩ hf
  induction h with
  | int _ => exact .leaf rfl rfl
  | float => exact .leaf rfl rfl
  | bool => exact .leaf rfl rfl
  | name _ _ => exact .leaf rfl rfl
  | construct _ hty h ih =>
    refine .node ⟨rfl, rfl⟩ (forall_mem_cons.2 ⟨.leaf rfl ?_, forall_mem_singleton.2 (hargs h ih)⟩)
    exact htypes _ _ hty
  | call _ _ h ih =>
    exact .node ⟨rfl, rfl⟩
      (forall_mem_cons.2 ⟨.leaf rfl rfl, forall_mem_singleton.2 (hargs h ih)⟩)
  | index hb hi ihb ihi =>
    refine .node ⟨?_, rfl⟩ (forall_mem_cons.2 ⟨ihb, forall_mem_singleton.2 ihi⟩)
    simp [Kind.admits, hb.isExpression, hi.isExpression]
  | member hb _ ih =>
    refine .node ⟨?_, rfl⟩ (forall_mem_cons.2 ⟨ih, forall_mem_singleton.2 (.leaf rfl rfl)⟩)
    have hname : Kind.isExpression .ident = true := rfl
    simp [Kind.admits, hb.isExpression, Tree.kind_node, Tree.valued, hname]
  | unary _ ht ih =>
    refine .node ⟨?_, rfl⟩ (forall_mem_singleton.2 ih)
    simp [Kind.admits, ht.isExpression]
  | binary _ hl hr ihl ihr =>
    refine .node ⟨?_, rfl⟩ (forall_mem_cons.2 ⟨ihl, forall_mem_singleton.2 ihr⟩)
    simp [Kind.admits, hl.isExpression, hr.isExpression]
  | ternary hc hy hn ihc ihy ihn =>
    refine .node ⟨?_, rfl⟩ (forall_mem_cons.2 ⟨ihc, forall_mem_cons.2
      ⟨ihy, forall_mem_singleton.2 ihn⟩⟩)
    simp [Kind.admits, hc.isExpression, hy.isExpression, hn.isExpression]
  | assign hl hr ihl ihr =>
    refine .node ⟨?_, rfl⟩ (forall_mem_cons.2 ⟨ihl, forall_mem_singleton.2 ihr⟩)
    simp [Kind.admits, hl.isExpression, hr.isExpression]

theorem IsDeclared.isOk (htypes : types.Closed) (h : IsDeclared types ty) :
    (types.resolve ty).isOk = true := by
  obtain ⟨n, t₀, x, -, hget, hsuffix⟩ := h
  have hok := htypes n t₀ hget
  cases hr : types.resolve t₀ with
  | error e =>
    rw [hr] at hok
    cases hok
  | ok r =>
    cases hsuffix with
    | none =>
      rw [hr]
      rfl
    | sized _ =>
      rw [TypeTable.resolve, hr]
      rfl
    | unsized =>
      rw [TypeTable.resolve, hr]
      rfl

theorem formed_typeTree {pos : Pos} (h : (types.resolve ty).isOk = true) :
    Formed types (typeTree q pos ty) :=
  .leaf rfl h

theorem IsDeclaration.formed (htypes : types.Closed) (h : IsDeclaration types q t) :
    Formed types t := by
  cases h with
  | bare _ hty => exact .node ⟨rfl, rfl⟩ (forall_mem_singleton.2 (formed_typeTree (hty.isOk htypes)))
  | initial _ hty hi =>
    refine .node ⟨?_, rfl⟩ (forall_mem_cons.2 ⟨formed_typeTree (hty.isOk htypes),
      forall_mem_singleton.2 (hi.formed htypes)⟩)
    simp [Kind.admits, hi.isExpression, Tree.kind_node, typeTree]

theorem IsDeclaration.kind (h : IsDeclaration types q t) : t.kind = .varDecl := by
  cases h <;> rfl

theorem IsStatement.isStatement (h : IsStatement types t) : t.kind.isStatement = true := by
  cases h with
  | expression h => exact Kind.isStatement_of_isExpression h.isExpression
  | declaration h => rw [h.kind]; rfl
  | _ => rfl

theorem IsStatement.formed (htypes : types.Closed) (h : IsStatement types t) : Formed types t := by
  induction h with
  | expression h => exact h.formed htypes
  | declaration h => exact h.formed htypes
  | leave => exact .leaf rfl rfl
  | leaveWith h =>
    refine .node ⟨?_, rfl⟩ (forall_mem_singleton.2 (h.formed htypes))
    simp [Kind.admits, h.isExpression]
  | block h ih =>
    refine .node ⟨all_eq_true.2 fun k hk => ?_, rfl⟩ ih
    obtain ⟨t, ht, rfl⟩ := mem_map.1 hk
    exact (h t ht).isStatement
  | conditional hc _ hblock ih =>
    refine .node ⟨?_, rfl⟩ (forall_mem_cons.2 ⟨hc.formed htypes, forall_mem_singleton.2 ih⟩)
    simp [Kind.admits, hc.isExpression, hblock]
  | otherwise hc _ hblock _ hkind ihyes ihno =>
    refine .node ⟨?_, rfl⟩ (forall_mem_cons.2 ⟨hc.formed htypes, forall_mem_cons.2
      ⟨ihyes, forall_mem_singleton.2 ihno⟩⟩)
    simp [Kind.admits, hc.isExpression, hblock, hkind]

theorem IsItem.formed (htypes : types.Closed) (h : IsItem types t) : Formed types t := by
  cases h with
  | declaration h => exact h.formed htypes
  | function _ hty _ hparams hbody hblock =>
    refine .node ⟨?_, rfl⟩ (forall_mem_cons.2 ⟨formed_typeTree (htypes _ _ hty),
      forall_mem_cons.2 ⟨.node ⟨all_eq_true.2 fun k hk => ?_, rfl⟩ fun u hu => ?_,
        forall_mem_singleton.2 (hbody.formed htypes)⟩⟩)
    · simp [Kind.admits, hblock, Tree.kind_node, typeTree, Tree.plain]
    · obtain ⟨u, hu, rfl⟩ := mem_map.1 hk
      obtain ⟨_, _, _, _, -, -, rfl⟩ := hparams u hu
      rfl
    · obtain ⟨_, _, _, _, hw, hty, rfl⟩ := hparams u hu
      exact IsDeclaration.formed htypes (q := none) (.bare hw hty)

/-- No function is in the tree, and no parameters of one. -/
def Functionless (t : Tree) : Prop := ∀ l ∈ t.preorder, l.kind ≠ .function ∧ l.kind ≠ .params

theorem IsExpression.functionless (htypes : types.Closed) (h : IsExpression types t) :
    Functionless t := by
  intro l hl
  have hl := (h.formed htypes).isInner (Kind.isInner_of_isExpression h.isExpression) l hl
  refine ⟨?_, ?_⟩ <;> intro he <;> rw [he] at hl <;> cases hl

theorem functionless_typeTree (q : Option Qualifier) (pos : Pos) (ty : Ty) :
    Functionless (typeTree q pos ty) :=
  Rose.forall_preorder_node (by simp) fun _ hm => by cases hm

theorem IsDeclaration.functionless (htypes : types.Closed) (h : IsDeclaration types q t) :
    Functionless t := by
  cases h with
  | bare =>
    exact Rose.forall_preorder_node (by simp)
      (forall_mem_singleton.2 (functionless_typeTree _ _ _))
  | initial _ _ hi =>
    exact Rose.forall_preorder_node (by simp) (forall_mem_cons.2
      ⟨functionless_typeTree _ _ _, forall_mem_singleton.2 (hi.functionless htypes)⟩)

theorem IsStatement.functionless (htypes : types.Closed) (h : IsStatement types t) :
    Functionless t := by
  induction h with
  | expression h => exact h.functionless htypes
  | declaration h => exact h.functionless htypes
  | leave => exact Rose.forall_preorder_node (by simp) fun _ hm => by cases hm
  | leaveWith h =>
    exact Rose.forall_preorder_node (by simp) (forall_mem_singleton.2 (h.functionless htypes))
  | block _ ih => exact Rose.forall_preorder_node (by simp) ih
  | conditional hc _ _ ih =>
    exact Rose.forall_preorder_node (by simp)
      (forall_mem_cons.2 ⟨hc.functionless htypes, forall_mem_singleton.2 ih⟩)
  | otherwise hc _ _ _ _ ihyes ihno =>
    exact Rose.forall_preorder_node (by simp) (forall_mem_cons.2
      ⟨hc.functionless htypes, forall_mem_cons.2 ⟨ihyes, forall_mem_singleton.2 ihno⟩⟩)

theorem IsItem.functionless (htypes : types.Closed) (h : IsItem types (.node l ts)) :
    ∀ t ∈ ts, ∀ l ∈ t.preorder, l.kind ≠ .function := by
  have hmem : Functionless (.node l ts) → ∀ t ∈ ts, ∀ l ∈ t.preorder, l.kind ≠ .function :=
    fun hf t ht l hl => (hf l (Rose.mem_preorder_of_mem ht hl)).1
  cases h with
  | declaration h => exact hmem (h.functionless htypes)
  | function _ _ _ hparams hbody =>
    refine forall_mem_cons.2 ⟨fun l hl => (functionless_typeTree _ _ _ l hl).1,
      forall_mem_cons.2 ⟨Rose.forall_preorder_node (by simp) fun u hu l hl => ?_,
        forall_mem_singleton.2 fun l hl => (hbody.functionless htypes l hl).1⟩⟩
    obtain ⟨_, _, _, _, hw, hty, rfl⟩ := hparams u hu
    exact (IsDeclaration.functionless htypes (q := none) (.bare hw hty) l hl).1

/-- No name stands in what a function returns or in its parameters, which have no initial values. -/
theorem IsItem.nameless (h : IsItem types (.node l ts)) (hk : l.kind = .function) :
    ∃ ret params body, ts = [ret, params, body] ∧
      ∀ t ∈ [ret, params], ∀ x ∈ t.preorder, x.kind ≠ .ident := by
  cases h with
  | declaration h => cases h.kind.symm.trans hk
  | function _ _ _ hparams _ _ =>
    refine ⟨_, _, _, rfl, forall_mem_cons.2 ⟨by simp [typeTree], forall_mem_singleton.2 ?_⟩⟩
    refine Rose.forall_preorder_node (by simp) fun p hp => ?_
    obtain ⟨_, _, _, _, -, -, rfl⟩ := hparams p hp
    simp [Tree.valued, typeTree]

theorem IsItem.kind (h : IsItem types t) : t.kind = .varDecl ∨ t.kind = .function := by
  cases h with
  | declaration h => exact .inl h.kind
  | function => exact .inr rfl

/-- **The tree of a program is formed.** -/
theorem IsProgram.formed (htypes : types.Closed) (h : IsProgram types t) : Formed types t := by
  obtain ⟨pos, ts, rfl, hitems⟩ := h
  refine .node ⟨all_eq_true.2 fun k hk => ?_, rfl⟩ fun u hu => (hitems u hu).formed htypes
  obtain ⟨u, hu, rfl⟩ := mem_map.1 hk
  rcases (hitems u hu).kind with hkind | hkind <;> rw [hkind] <;> rfl

end Grammar

end VecLang
