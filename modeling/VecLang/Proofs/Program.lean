import VecLang.Program
import VecLang.Proofs.Arena.Shape
import VecLang.Proofs.Grammar.Parsing
import VecLang.Proofs.Steps
import VecLang.Proofs.Traversal.Sites
import VecLang.Proofs.Traversal.Walk

/-!
# Parsed programs

What holds of a program before any pass, whatever its source: its arena is a forest
whose root has no parent, the tree of the root has the shape of a program, and the
known types are the builtin ones.

* `Parsed.of_parse`: what is read as a program is so, in any arena and context.
* `parseProgram_parsed`: so is every program before its passes.
-/

namespace VecLang

open Arena Grammar

variable {ctx ctx' : Context} {u : Unit}

structure Parsed (p : Program) (root : Nat) : Prop where
  wellFormed : p.arena.WellFormed
  root? : p.arena.root? = some root
  lt_size : root < p.arena.size
  top : p.arena.parent? root = none
  shape : IsProgram Builtin.types (p.arena.tree root)
  types : p.context.types = Builtin.types

/-- `ctx'` differs from `ctx` in its slots and overloads alone. -/
def Context.Files (ctx ctx' : Context) : Prop :=
  ∃ slots overloads, ctx' = { ctx with slots, overloads }

theorem Context.Files.refl (ctx : Context) : ctx.Files ctx := ⟨ctx.slots, ctx.overloads, rfl⟩

theorem Context.Files.trans {ctx'' : Context} (h : ctx.Files ctx') (h' : ctx'.Files ctx'') :
    ctx.Files ctx'' := by
  obtain ⟨_, _, rfl⟩ := h
  obtain ⟨slots, overloads, rfl⟩ := h'
  exact ⟨slots, overloads, rfl⟩

theorem Context.Files.types (h : ctx.Files ctx') : ctx'.types = ctx.types := by
  obtain ⟨_, _, rfl⟩ := h
  rfl

theorem Context.Files.filename (h : ctx.Files ctx') : ctx'.filename = ctx.filename := by
  obtain ⟨_, _, rfl⟩ := h
  rfl

theorem Context.Files.preprocessed (h : ctx.Files ctx') : ctx'.preprocessed = ctx.preprocessed := by
  obtain ⟨_, _, rfl⟩ := h
  rfl

namespace Collect

variable {arena : Arena} {ctx ctx' : Context} {node : NodeId}

/-- The qualifier of a declaration, which its type carries. -/
def qualifier? (arena : Arena) (node : NodeId) : Option Qualifier :=
  (arena.child? node 0).bind fun typeNode => (arena.label typeNode).qualifier

def declaredType? (arena : Arena) (node : NodeId) : Option Ty :=
  (arena.child? node 0).bind arena.type?

/-- A declaration without a qualifier files nothing, and others the slot of their name and type. -/
theorem declaration_cases (h : declaration arena ctx node = .ok ctx') :
    (qualifier? arena node = none ∧ ctx' = ctx) ∨
      ∃ q name t slots, qualifier? arena node = some q ∧ arena.name? node = some name ∧
        declaredType? arena node = some t ∧
        ctx.slots.declare q name { decl := node, type := t } = .ok slots ∧
        ctx' = { ctx with slots } := by
  unfold declaration at h
  unfold qualifier? declaredType?
  split at h
  · next hchild =>
    cases h
    exact .inl ⟨by rw [hchild]; rfl, rfl⟩
  next typeNode hchild =>
  rw [hchild, Option.bind_some, Option.bind_some]
  split at h
  · next hq =>
    cases h
    exact .inl ⟨hq, rfl⟩
  next q hq =>
  split at h
  · next name t hname htype =>
    rw [Except.mapError_eq_ok] at h
    obtain ⟨slots, hslots, h⟩ := Except.bind_eq_ok.1 h
    cases h
    exact .inr ⟨q, name, t, slots, hq, hname, htype, hslots, rfl⟩
  · cases h

theorem function_cases (h : function arena ctx node = .ok ctx') : ∃ ret args, ctx' =
    { ctx with overloads := (ctx.overloads.register ((arena.name? node).getD "") ret args).1 } := by
  obtain ⟨args, -, h⟩ := Except.bind_eq_ok.1 h
  split at h
  · cases h
  obtain ⟨⟨ctx₁, key⟩, hadd, h⟩ := Except.bind_eq_ok.1 h
  cases h
  rw [Except.mapError_eq_ok] at hadd
  obtain ⟨ret, -, hadd⟩ := Except.bind_eq_ok.1 hadd
  obtain ⟨args, -, hadd⟩ := Except.bind_eq_ok.1 hadd
  cases hadd
  exact ⟨ret, args, rfl⟩

theorem item_cases (h : item arena node ctx = .ok u ctx') :
    (arena.kind node = .varDecl ∧ declaration arena ctx node = .ok ctx') ∨
      (arena.kind node = .function ∧ function arena ctx node = .ok ctx') ∨
      (arena.kind node ≠ .varDecl ∧ arena.kind node ≠ .function ∧ ctx' = ctx) := by
  unfold item at h
  simp only at h
  split at h
  · next ctx₁ heq =>
    cases h
    split at heq
    · next hk => exact .inl ⟨hk, heq⟩
    · next hk => exact .inr (.inl ⟨hk, heq⟩)
    · next hdecl hfun =>
      cases heq
      exact .inr (.inr ⟨hdecl, hfun, rfl⟩)
  · cases h

/-- **The walk over the tree files the children of the root, in order**, and nothing further down. -/
theorem slots_eq {root : Nat} (hw : arena.WellFormed) (hroot : arena.root? = some root)
    (hlt : root < arena.size) : slots arena = (arena.children root).forM (item arena) := by
  unfold slots
  rw [hroot]
  exact Traversal.walk_children hw hlt (item arena)

theorem item_files (h : item arena node ctx = .ok u ctx') : ctx.Files ctx' := by
  rcases item_cases h with ⟨-, h⟩ | ⟨-, h⟩ | ⟨-, -, rfl⟩
  · rcases declaration_cases h with ⟨-, rfl⟩ | ⟨_, _, _, slots, -, -, -, -, rfl⟩
    · exact .refl _
    · exact ⟨slots, _, rfl⟩
  · obtain ⟨_, _, rfl⟩ := function_cases h
    exact ⟨_, _, rfl⟩
  · exact .refl _

/-- **Filing slots and functions changes these tables alone.** -/
theorem items_files {nodes : List NodeId} (h : nodes.forM (item arena) ctx = .ok u ctx') :
    ctx.Files ctx' := by
  induction nodes generalizing ctx with
  | nil =>
    obtain ⟨-, rfl⟩ := Steps.pure_eq_ok.1 h
    exact .refl _
  | cons node rest ih =>
    obtain ⟨_, ctx₁, hitem, hrest⟩ := Steps.bind_eq_ok.1 h
    exact (item_files hitem).trans (ih hrest)

end Collect

namespace Parsed

variable {p : Program} {root : Nat}

/-- **What is read as a program with the builtin types is a parsed program**, into whatever arena
it is read and whatever else the context holds. -/
theorem of_parse {a a' : Arena} {text : String} (ha : a.WellFormed)
    (htypes : ctx.types = Builtin.types) (h : ctx.parse a .program text = .ok (a', root)) :
    Parsed { arena := a', context := ctx } root := by
  obtain ⟨hread, rfl, hgrown, hroot⟩ := Context.parse_eq_ok ha h
  exact ⟨hgrown.wellFormed, hroot, hgrown.lt, hgrown.parent?,
    htypes ▸ Context.parseTree_shape hread, htypes⟩

/-- The context of a parsed program may be another one with the builtin types. -/
theorem inContext (h : Parsed p root) (htypes : ctx.types = Builtin.types) :
    Parsed { p with context := ctx } root :=
  ⟨h.wellFormed, h.root?, h.lt_size, h.top, h.shape, htypes⟩

theorem resetScopes (h : Parsed p root) :
    Parsed { p with context := p.context.resetScopes } root :=
  h.inContext h.types

end Parsed

section Parse

variable {source filename : String} {p : Program} (h : parseProgram source filename = .ok p)

include h

theorem parseProgram_eq_ok : ∃ text root, Macro.preprocess source = .ok text ∧
    Context.parse { Context.new source filename with preprocessed := text } {} .program text =
      .ok (p.arena, root) ∧
    (p.arena.children root).forM (Collect.item p.arena)
      { Context.new source filename with preprocessed := text } = .ok () p.context := by
  obtain ⟨text, htext, h⟩ := Except.bind_eq_ok.1 h
  obtain ⟨⟨a, root⟩, hparse, h⟩ := Except.bind_eq_ok.1 h
  have hp := Parsed.of_parse wellFormed_empty rfl hparse
  unfold Program.collectSlots at h
  simp only at h
  split at h
  · next ctx hslots =>
    cases h
    rw [Collect.slots_eq hp.wellFormed hp.root? hp.lt_size] at hslots
    exact ⟨text, root, htext, hparse, hslots⟩
  · cases h

/-- **Every program that is parsed is a forest with the tree of a program.** -/
theorem parseProgram_parsed : ∃ root, Parsed p root := by
  obtain ⟨text, root, -, hparse, hitems⟩ := parseProgram_eq_ok h
  exact ⟨root, (Parsed.of_parse wellFormed_empty rfl hparse).inContext
    (Collect.items_files hitems).types⟩

theorem parseProgram_filename : p.context.filename = filename := by
  obtain ⟨text, root, -, -, hitems⟩ := parseProgram_eq_ok h
  exact (Collect.items_files hitems).filename

end Parse

/-- Whether the text is that of a program of which the check holds, with its root. -/
def checkParsed (source : String) (check : Program → NodeId → Bool) : Bool :=
  (parseProgram source "").toOption.any fun p => p.arena.root?.any (check p)

theorem of_checkParsed {source : String} {check : Program → NodeId → Bool}
    (h : checkParsed source check = true) : ∃ p root, parseProgram source "" = .ok p ∧
      p.arena.root? = some root ∧ check p root = true := by
  obtain ⟨p, hp, h⟩ := (Option.any_eq_true _ _).1 h
  obtain ⟨root, hroot, h⟩ := (Option.any_eq_true _ _).1 h
  exact ⟨p, root, eq_ok_of_toOption hp, hroot, h⟩

/-- Whether the text compiles besides, with the lowering, and the check holds of both programs. -/
def checkLowered (source : String) (check : Program → Program → NodeId → Bool) : Bool :=
  checkParsed source fun p₀ root =>
    (compile source { filename := "", lowerSwizzles := true, passes := [] }).toOption.any
      (check p₀ · root)

theorem of_checkLowered {source : String} {check : Program → Program → NodeId → Bool}
    (h : checkLowered source check = true) : ∃ p₀ p root, parseProgram source "" = .ok p₀ ∧
      compile source { filename := "", lowerSwizzles := true, passes := [] } = .ok p ∧
      p₀.arena.root? = some root ∧ check p₀ p root = true := by
  obtain ⟨p₀, root, hparse, hroot, h⟩ := of_checkParsed h
  obtain ⟨p, hp, h⟩ := (Option.any_eq_true _ _).1 h
  exact ⟨p₀, p, root, hparse, eq_ok_of_toOption hp, hroot, h⟩

end VecLang
