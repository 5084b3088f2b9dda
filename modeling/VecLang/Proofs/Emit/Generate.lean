import VecLang.Proofs.Emit.Outline
import VecLang.Proofs.Swizzle.Expressions

/-!
# Generating code for compiled programs

A compiled program is formed, whatever its source, and its slots have types that are known.
So it has a text in the language. It has a script as well if it has a `main`, with one
exception: where a name of the source is that of an operand of the templates, the lowering
may put an expression behind the point of a member access.

* `compile_hasMain`: overloads are filed for the functions of a program.
* `compile_named`: without such names the lowering leaves every member its name.
* `generate_compiled`: what becomes of each compiled program.
-/

namespace VecLang

open Arena Swizzle ScopeWalk

theorem Overloads.hasName_register (o : Overloads) (name other : String) (ret : Ty)
    (args : List Ty) :
    (o.register name ret args).1.hasName other = true ↔ other = name ∨ o.hasName other = true := by
  unfold register hasName Table.contains
  rw [Table.get?_insert]
  split
  · next h => simp [h]
  · next h => simp [h]

namespace Collect

variable {arena : Arena} {ctx ctx' : Context} {u : Unit}

theorem item_hasName {node : NodeId} {name : String} (hname : name ≠ "")
    (h : item arena node ctx = .ok u ctx') : ctx'.overloads.hasName name = true ↔
      (arena.kind node = .function ∧ arena.name? node = some name) ∨
        ctx.overloads.hasName name = true := by
  rcases item_cases h with ⟨hk, h⟩ | ⟨hk, h⟩ | ⟨-, hk, rfl⟩
  · rcases declaration_cases h with ⟨-, rfl⟩ | ⟨_, _, _, slots, -, -, -, -, rfl⟩ <;> simp [hk]
  · obtain ⟨ret, args, rfl⟩ := function_cases h
    rw [Overloads.hasName_register, and_iff_right hk]
    refine or_congr_left ?_
    cases arena.name? node with
    | none => simp [hname]
    | some other => simp [eq_comm]
  · simp [hk]

/-- **Overloads are filed for the functions of the program.** -/
theorem hasName_iff (name : String) (hname : name ≠ "") {nodes : List NodeId}
    (hitems : nodes.forM (item arena) ctx = .ok u ctx') : ctx'.overloads.hasName name = true ↔
      (∃ node ∈ nodes, arena.kind node = .function ∧ arena.name? node = some name) ∨
        ctx.overloads.hasName name = true := by
  induction nodes generalizing ctx with
  | nil =>
    obtain ⟨-, rfl⟩ := Steps.pure_eq_ok.1 hitems
    simp
  | cons node rest ih =>
    obtain ⟨_, ctx₁, hitem, hrest⟩ := Steps.bind_eq_ok.1 hitems
    rw [ih hrest, item_hasName hname hitem]
    simp only [List.mem_cons, or_and_right, exists_or, exists_eq_left]
    rw [or_left_comm, or_assoc]

end Collect

/-- **The program has a function `main`.** -/
def HasMain (t : Tree) : Prop :=
  ∃ u ∈ t.children, u.entry.kind = .function ∧ u.entry.name? = some "main"

instance (t : Tree) : Decidable (HasMain t) := inferInstanceAs (Decidable (∃ u ∈ t.children, _))

theorem hasMain_tree {a : Arena} {root : Nat} (hw : a.WellFormed) (hlt : root < a.size) :
    HasMain (a.tree root) ↔
      ∃ node ∈ a.children root, a.kind node = .function ∧ a.name? node = some "main" := by
  obtain ⟨ss, hs, htree⟩ := exists_tree_eq hw hlt
  rw [htree, hs.children_eq]
  constructor
  · rintro ⟨u, hu, hk, hname⟩
    obtain ⟨s, hmem, rfl⟩ := List.mem_map.1 hu
    rw [Rose.entry_map] at hk hname
    exact ⟨s.entry, List.mem_map_of_mem hmem, hk, hname⟩
  · rintro ⟨node, hnode, hk, hname⟩
    obtain ⟨s, hmem, rfl⟩ := List.mem_map.1 hnode
    refine ⟨s.map a.label, List.mem_map_of_mem hmem, ?_, ?_⟩
    · rw [Rose.entry_map]
      exact hk
    · rw [Rose.entry_map]
      exact hname

theorem hasName_main_new (source filename : String) :
    (Context.new source filename).overloads.hasName "main" = false := by
  simp only [Context.new, Context.reset]
  decide +kernel

/-- **Overloads are filed for `main` exactly if a compiled program has one.** -/
theorem compile_hasMain {source filename : String} {lowerSwizzles : Bool} {p : Program}
    {root : NodeId} (h : compile source { filename, lowerSwizzles, passes := [] } = .ok p)
    (hp : Outlined p root) :
    p.context.overloads.hasName "main" = true ↔ HasMain (p.arena.tree root) := by
  obtain ⟨p₀, root', hparse, hp₀, hsame, -, hoverloads⟩ := compile_sameTop h
  cases hp.root?.symm.trans (hsame.root?.trans hp₀.root?)
  rw [hoverloads, hasMain_tree hp.wellFormed hp.lt_size, hsame.children]
  obtain ⟨text, r, -, hread, hitems⟩ := parseProgram_eq_ok hparse
  have hname := Collect.hasName_iff "main" (by decide) hitems
  cases hp₀.root?.symm.trans (Parsed.of_parse Arena.wellFormed_empty rfl hread).root?
  simp only [hname, hasName_main_new, Bool.false_eq_true, or_false]
  -- the lowering leaves the labels of the items as they are
  refine exists_congr fun node => and_congr_right fun hnode => ?_
  unfold Arena.kind Arena.name?
  rw [hsame.label node (mem_topNodes.2 (.inr (.inl hnode)))]

namespace Emit

variable {p : Program} {root : NodeId} {options : Options}

theorem rootOf_eq (h : p.arena.root? = some root) : rootOf p = .ok root := by
  unfold rootOf
  rw [h]

theorem generate_internal (p : Program) (options : Options) :
    Registry.builtin.generate p "internal" options = (do
      let text ← Target.source.generate p options
      return { text, bindings := .ofSlots p.context.slots }) := rfl

theorem generate_js (p : Program) (options : Options) :
    Registry.builtin.generate p "js" options = (do
      let text ← Target.javaScript.generate p options
      return { text, bindings := .ofSlots p.context.slots }) := rfl

theorem generate_js_program {g : Generated} (hroot : p.arena.root? = some root)
    (h : Registry.builtin.generate p "js" options = .ok g) :
    JavaScript.program options p.context p.arena root = .ok g.text := by
  rw [generate_js] at h
  obtain ⟨script, hscript, h⟩ := Except.bind_eq_ok.1 h
  cases h
  unfold Target.javaScript at hscript
  simp only [rootOf_eq hroot] at hscript
  change (if _ then _ else _) = _ at hscript
  split at hscript
  · exact hscript
  · cases hscript

theorem known_slots (h : Outlined p root) : p.context.slots.Known p.context.types := by
  intro e he
  obtain ⟨ss, hs⟩ := h.exists_item (h.filed.decl_mem he)
  obtain ⟨hspans, hformed, -⟩ := h.item hs
  obtain ⟨t, htype, hok⟩ := exists_declaredType hspans hformed e.2.decl (by simp)
    (h.filed.kind_decl he)
  cases htype.symm.trans (h.filed.types e he)
  exact hok

theorem generate_internal_ok (h : Outlined p root) (options : Options) :
    ∃ g, Registry.builtin.generate p "internal" options = .ok g := by
  have hends : Except.Ends (Registry.builtin.generate p "internal" options) (fun _ => False)
      fun _ => True := by
    rw [generate_internal]
    refine .bind (P := fun _ => True) ?_ fun _ _ => trivial
    unfold Target.source
    simp only [rootOf_eq h.root?]
    exact Source.emit_ends h.formed 0
  obtain ⟨g, hg, -⟩ := hends.exists_ok
  exact ⟨g, hg⟩

theorem generate_js_ends (h : Outlined p root) (hname : p.context.overloads.hasName "main" = true)
    (options : Options) : Except.Ends (Registry.builtin.generate p "js" options)
      (Nameless p.context (p.arena.tree root)) fun _ => True := by
  rw [generate_js]
  refine .bind (P := fun _ => True) ?_ fun _ _ => trivial
  unfold Target.javaScript
  simp only [rootOf_eq h.root?]
  change Except.Ends (if _ then _ else _) _ _
  rw [if_pos hname]
  refine JavaScript.program_ends (known_slots h) h.formed ?_
  rw [h.tree_eq]
  exact h.block

theorem generate_js_noMain (hroot : p.arena.root? = some root)
    (hname : ¬ p.context.overloads.hasName "main" = true) (options : Options) :
    Registry.builtin.generate p "js" options =
      .error (p.context.locate none (.semantic .noMain)) := by
  rw [generate_js]
  unfold Target.javaScript
  simp only [rootOf_eq hroot]
  change (if _ then _ else _) >>= _ = _
  rw [if_neg hname]
  rfl

/-- The members of a compiled program have names, if its source has no identifier with the name
of a placeholder. -/
theorem compile_named {source filename : String} {lowerSwizzles : Bool}
    (h : compile source { filename, lowerSwizzles, passes := [] } = .ok p) (hp : Outlined p root) :
    ∃ p₀, parseProgram source filename = .ok p₀ ∧ p₀.arena.root? = some root ∧
      ((lowerSwizzles = true → Avoids (p₀.arena.tree root)) →
        ∀ l, ¬ Unnamed (p.arena.tree root) l) := by
  obtain ⟨p₀, root', hparse, hroot₀, hroot, -, hall⟩ := compile_expressions h
  cases hp.root?.symm.trans hroot
  refine ⟨p₀, hparse, hroot₀, ?_⟩
  rintro havoids l ⟨u, hu, hk, ⟨member, hm, rfl⟩, hname⟩
  -- a member access is an expression, and behind its point is a name
  have hin := hp.formed.hasExpression hu (by unfold Tree.kind; rw [hk]; rfl)
    fun he => by cases hk.symm.trans he
  cases (hall u hin).2 havoids with
  | member _ _ =>
    cases hm
    cases hname
  | _ => cases hk

/-- **What becomes of each compiled program.** It has a text in the language. Without a `main` it
has no script, and this is what is reported. With a `main` it has a script, or a member access
without a name is reported; and there is none of these if nothing was lowered or no identifier of
the source has the name of a placeholder. -/
theorem generate_compiled {source filename : String} {lowerSwizzles : Bool} {p : Program}
    (options : Options) (h : compile source { filename, lowerSwizzles, passes := [] } = .ok p) :
    ∃ p₀ root, parseProgram source filename = .ok p₀ ∧ p₀.arena.root? = some root ∧
      p.arena.root? = some root ∧
      (∃ g, Registry.builtin.generate p "internal" options = .ok g) ∧
      (¬ HasMain (p.arena.tree root) → Registry.builtin.generate p "js" options =
        .error (p.context.locate none (.semantic .noMain))) ∧
      (HasMain (p.arena.tree root) →
        (∃ g, Registry.builtin.generate p "js" options = .ok g) ∨
          ∃ l, Unnamed (p.arena.tree root) l ∧ Registry.builtin.generate p "js" options =
            .error (malformed p.context l (.missingName l.kind))) ∧
      ((lowerSwizzles = true → Avoids (p₀.arena.tree root)) →
        ((∃ g, Registry.builtin.generate p "js" options = .ok g) ↔ HasMain (p.arena.tree root))) := by
  obtain ⟨root, hp⟩ := compile_outlined h
  obtain ⟨p₀, hparse, hroot, hnamed⟩ := compile_named h hp
  -- the script looks for `main` among the overloads, `HasMain` in the tree
  have hname := compile_hasMain h hp
  have hscript : HasMain (p.arena.tree root) →
      (∃ g, Registry.builtin.generate p "js" options = .ok g) ∨
        ∃ l, Unnamed (p.arena.tree root) l ∧ Registry.builtin.generate p "js" options =
          .error (malformed p.context l (.missingName l.kind)) := by
    intro hmain
    have hends := generate_js_ends hp (hname.2 hmain) options
    cases hjs : Registry.builtin.generate p "js" options with
    | ok g => exact .inl ⟨g, rfl⟩
    | error e =>
      rw [hjs] at hends
      obtain ⟨l, hl, rfl⟩ := hends
      exact .inr ⟨l, hl, rfl⟩
  have hnone : ¬ HasMain (p.arena.tree root) → Registry.builtin.generate p "js" options =
      .error (p.context.locate none (.semantic .noMain)) :=
    fun hmain => generate_js_noMain hp.root? (fun h => hmain (hname.1 h)) options
  refine ⟨p₀, root, hparse, hroot, hp.root?, generate_internal_ok hp options, hnone, hscript,
    fun havoids => ⟨?_, fun hmain => ?_⟩⟩
  · rintro ⟨g, hg⟩
    by_contra hmain
    rw [hnone hmain] at hg
    cases hg
  · rcases hscript hmain with hok | ⟨l, hl, -⟩
    · exact hok
    · exact absurd hl (hnamed havoids l)

/-- A program that reads and writes swizzles in a function beside `main`. -/
def swappedText : String := "vec2 f(vec2 a) { a.xy = a.yx; return a; } void main() { f(vec2(1., 2.)); }"

theorem generate_compiled_swapped : ∃ p root,
    compile swappedText { filename := "", lowerSwizzles := true, passes := [] } = .ok p ∧
      p.arena.root? = some root ∧ HasMain (p.arena.tree root) ∧
      (∃ g, Registry.builtin.generate p "internal" {} = .ok g) ∧
      ∃ g, Registry.builtin.generate p "js" {} = .ok g := by
  have hcheck : checkLowered swappedText fun p₀ p root =>
      decide (Avoids (p₀.arena.tree root)) && decide (HasMain (p.arena.tree root)) := by
    decide +kernel
  obtain ⟨p₀, p, root, hparse, hcompile, hroot, hcheck⟩ := of_checkLowered hcheck
  obtain ⟨p₁, root', hparse', hsame, hroot', hinternal, -, -, hjs⟩ := generate_compiled {} hcompile
  cases hparse.symm.trans hparse'
  cases hroot.symm.trans hsame
  simp only [Bool.and_eq_true, decide_eq_true_eq] at hcheck
  exact ⟨p, root, hcompile, hroot', hcheck.2, hinternal, (hjs fun _ => hcheck.1).2 hcheck.2⟩

/-- A program in which the member `$n1` of a value is taken for the target. -/
def capturedMemberText : String := "void main() { vec2 w[2]; vec2 q; w[0].xy = q.$n1; }"

/-- **A program with a `main` that has no script**: its assignment to a swizzle is split, and the
target is put behind the point of the member access in its value. -/
theorem script_fails_captured : ∃ p root e,
    compile capturedMemberText { filename := "", lowerSwizzles := true, passes := [] } = .ok p ∧
      p.arena.root? = some root ∧ HasMain (p.arena.tree root) ∧
      Registry.builtin.generate p "js" {} = .error e ∧
      e.root = .semantic (.missingName .index) := by
  have hcheck : checkLowered capturedMemberText fun _ p root =>
      decide (p.arena.root? = some root ∧ HasMain (p.arena.tree root) ∧
        (Registry.builtin.generate p "js" {}).mapError Error.root =
          .error (.semantic (.missingName .index))) := by decide +kernel
  obtain ⟨-, p, root, -, hcompile, -, hcheck⟩ := of_checkLowered hcheck
  obtain ⟨hroot, hmain, hfails⟩ := of_decide_eq_true hcheck
  obtain ⟨e, hjs, he⟩ := Except.mapError_eq_error.1 hfails
  exact ⟨p, root, e, hcompile, hroot, hmain, hjs, he⟩

end Emit

end VecLang
