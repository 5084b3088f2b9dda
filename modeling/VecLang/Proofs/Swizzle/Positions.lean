import VecLang.Proofs.Grammar.Positions
import VecLang.Proofs.Swizzle.Complete

/-!
# The positions of a compiled program

A node that the lowering makes takes the position of the node whose place it takes, and a
copy of an operand keeps the positions of the operand. So every node of a lowered program
has the position of a node of the parsed one, which marks a place of the preprocessed text.

* `marked_lowerReads`, `Walks.marked`: what the two walks leave marks places of the text.
* `compile_positions`: **every node of a compiled program has a true position.**
-/

namespace VecLang

open Grammar

namespace Swizzle

open ScopeWalk Arena

variable {types : TypeTable} {σ τ : Names} {p q : Place} {pos : Pos} {name : String}
  {M : Pos → Prop} {base value t u : Tree} {ts us args : List Tree} {sw : Swizzle}

/-- **Lowering the reads makes nodes at places that are marked already.** -/
theorem marked_lowerReads (h : Placed M t) : Placed M (lowerReads types σ p t) := by
  intro x hx
  rcases mem_preorder_lowerReads hx with hx | ⟨-, y, hy, hpos⟩
  · exact h x hx
  · rw [hpos]
    exact h y hy

theorem marked_elementTree (hpos : M pos) (h : Placed M base) (i : Nat) :
    Placed M (elementTree pos base i) := .pair hpos h (.leaf hpos)

theorem marked_subst (hu : Placed M u) (h : Placed M t) :
    Placed M (Tree.subst name u t) := by
  induction t using Rose.induction with
  | node l ts ih =>
    rw [Tree.subst_node]
    split
    · exact hu
    · refine .node h.pos fun t' ht' => ?_
      obtain ⟨t, ht, rfl⟩ := List.mem_map.1 ht'
      exact ih t ht (h.of_mem ht)

theorem marked_constructed {n : Nat} (h : Placed M value)
    (hargs : constructed? n value = some args) : ∀ arg ∈ args, Placed M arg := by
  obtain ⟨l, ts⟩ := value
  obtain ⟨-, -, callee, ⟨la, as⟩, more, rfl, rfl, -⟩ := constructed?_eq_some hargs
  exact fun arg harg => (h.of_mem (.tail _ (.head _))).of_mem harg

theorem marked_valueAt (hpos : M pos) (hbase : Placed M base)
    (hvalue : Placed M value) (k : Nat) : Placed M (valueAt pos sw base value k) := by
  exact valueAt_keeps marked_subst (fun ht => marked_elementTree hpos ht k)
    (marked_constructed hvalue) hbase hvalue

/-- **The walk of the writes makes nodes at places that are marked already.** -/
theorem Walks.marked (h : Walks (writeRule types) σ p q ts us τ) :
    (∀ t ∈ ts, Placed M t) → ∀ u ∈ us, Placed M u := by
  induction h with
  | nil => exact fun h => h
  | keep _ _ _ _ ihb ihn =>
    intro hts
    obtain ⟨hnode, hrest⟩ := List.forall_mem_cons.1 hts
    exact List.forall_mem_cons.2 ⟨.node hnode.pos (ihb fun t ht => hnode.of_mem ht), ihn hrest⟩
  | replace _ hr _ _ ihb ihn =>
    intro hts
    obtain ⟨-, l, target, value, more, base, sw, rfl, -, hsw, -, rfl⟩ := writeRule_replace hr
    obtain ⟨lt, ms, rfl, -⟩ := swizzleTarget?_eq_some hsw
    obtain ⟨hnode, hrest⟩ := List.forall_mem_cons.1 hts
    have hbase := (hnode.of_mem (.head _)).of_mem (.head _)
    have hvalue := hnode.of_mem (.tail _ (.head _))
    refine List.forall_mem_append.2 ⟨ihb fun u hu => ?_, ihn hrest⟩
    -- each assignment of the split stands where the assignment stood
    obtain ⟨k, i, -, rfl⟩ := mem_splitTrees hu
    exact .pair hnode.pos (marked_elementTree hnode.pos hbase i)
      (marked_valueAt hnode.pos hbase hvalue k)

theorem LoweredFrom.marked {source : Text} {p₀ p : Program} {root : Nat} (h : LoweredFrom p₀ root p)
    (hparsed : Marked source (p₀.arena.tree root)) : Marked source (p.arena.tree root) := by
  obtain ⟨τ, hwalks⟩ := h.walks
  exact Walks.marked hwalks (List.forall_mem_singleton.2 (marked_lowerReads hparsed)) _
    (.head _)

end Swizzle

/-- **The nodes of a parsed program mark places of the preprocessed text.** -/
theorem parseProgram_marked {source filename : String} {p : Program} {root : Nat}
    (h : parseProgram source filename = .ok p) (hroot : p.arena.root? = some root) :
    Macro.preprocess source = .ok p.context.preprocessed ∧
      Marked p.context.preprocessed.toList (p.arena.tree root) := by
  obtain ⟨text, root', htext, hparse, hitems⟩ := parseProgram_eq_ok h
  cases hroot.symm.trans (Parsed.of_parse Arena.wellFormed_empty rfl hparse).root?
  rw [(Collect.items_files hitems).preprocessed]
  exact ⟨htext, Context.parseTree_marks (Context.parse_eq_ok Arena.wellFormed_empty hparse).1⟩

/-- **What a compiled program marks**, with and without the lowering. -/
theorem compile_marked {source filename : String} {lowers : Bool} {p : Program}
    (h : compile source { filename, lowerSwizzles := lowers, passes := [] } = .ok p) :
    ∃ root, p.arena.root? = some root ∧ p.arena.WellFormed ∧ root < p.arena.size ∧
      Macro.preprocess source = .ok p.context.preprocessed ∧
      Marked p.context.preprocessed.toList (p.arena.tree root) := by
  obtain ⟨p₀, root, hparse, hp, ⟨-, rfl⟩ | ⟨-, hl⟩⟩ := Swizzle.compile_cases h
  · exact ⟨root, hp.root?, hp.wellFormed, hp.lt_size, parseProgram_marked hparse hp.root?⟩
  · obtain ⟨htext, hmarked⟩ := parseProgram_marked hparse hp.root?
    have hsame : p.context.preprocessed = p₀.context.preprocessed := by
      rw [hl.context]
      rfl
    rw [hsame]
    exact ⟨root, hl.root?, hl.wellFormed, hl.lt_size, htext, hl.marked hmarked⟩

/-- **Every node of a compiled program has a true position.** If a source compiles, then with
and without the lowering every node that is reachable from the root has the position of its
offset in the preprocessed text, whether this is computed from the characters in front of the
offset or from the offsets of the lines. Its line is one of the source. -/
theorem compile_positions {source filename : String} {lowers : Bool} {p : Program}
    (h : compile source { filename, lowerSwizzles := lowers, passes := [] } = .ok p) :
    ∃ root, p.arena.root? = some root ∧ Macro.preprocess source = .ok p.context.preprocessed ∧
      ∀ id ∈ p.arena.preorder root,
        p.arena.pos id = Pos.ofOffset p.context.preprocessed.toList (p.arena.pos id).offset ∧
        p.arena.pos id =
          (LineIndex.ofText p.context.preprocessed.toList).pos (p.arena.pos id).offset ∧
        (p.arena.pos id).line < (Text.splitLines source.toList).length := by
  obtain ⟨root, hroot, hw, hlt, htext, hmarked⟩ := compile_marked h
  refine ⟨root, hroot, htext, fun id hid => ?_⟩
  have htree := (Arena.spans_shape hw hlt).tree_eq hw
  rw [Arena.entry_shape] at htree
  have hmarks : Marks p.context.preprocessed.toList (p.arena.pos id) := by
    refine hmarked (p.arena.label id) ?_
    rw [htree]
    exact Rose.mem_preorder_map hid
  obtain ⟨hpos, hline⟩ := hmarks.eq_ofOffset
  rw [Macro.length_splitLines_preprocess htext] at hline
  exact ⟨hpos, hmarks.eq_pos, hline⟩

/-- A program of five lines with a macro, a comment that is not ASCII, and swizzles. -/
def linesText : String :=
  "#define HALF 0.5\n/* é\n */ out vec3 p;\nvoid main() { p.xy = HALF * p.yx; p.z = HALF; }\n"

/-- The program indexes nothing before its swizzles are lowered. The nodes that are made have
true positions too, on the line of the swizzles. -/
theorem compile_positions_linesText : ∃ p root,
    compile linesText { filename := "", lowerSwizzles := true, passes := [] } = .ok p ∧
      p.arena.root? = some root ∧
      (∃ id ∈ p.arena.preorder root, p.arena.kind id = .index ∧ (p.arena.pos id).line = 3) ∧
      ∀ id ∈ p.arena.preorder root,
        p.arena.pos id = Pos.ofOffset p.context.preprocessed.toList (p.arena.pos id).offset ∧
        (p.arena.pos id).line < (Text.splitLines linesText.toList).length := by
  have hcheck : (do
      let p ← compile linesText { filename := "", lowerSwizzles := true, passes := [] }
      return p.arena.root?.all fun root => decide (∃ id ∈ p.arena.preorder root,
        p.arena.kind id = .index ∧ (p.arena.pos id).line = 3)) = Except.ok true := by
    decide +kernel
  obtain ⟨p, hcompile, hcheck⟩ := Except.bind_eq_ok.1 hcheck
  obtain ⟨root, hroot, -, hall⟩ := compile_positions hcompile
  have hmade := Except.ok.inj hcheck
  rw [hroot, Option.all_some] at hmade
  exact ⟨p, root, hcompile, hroot, of_decide_eq_true hmade,
    fun id hid => ⟨(hall id hid).1, (hall id hid).2.2⟩⟩

end VecLang
