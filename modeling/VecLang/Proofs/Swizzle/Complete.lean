import VecLang.Proofs.Swizzle.LoweredReads
import VecLang.Proofs.Swizzle.WritePass
import VecLang.Proofs.Traversal.Observe

/-!
# When lowering is complete

A compiled program is lowered completely if no node of it selects components of an array,
with the types of names as a scope walk shows them at the node. This holds exactly if the
assignments to swizzles were hygienic after the reads were lowered. It fails where a value
holds a name that the templates use, and it never fails in a program without such names.

* `Lowered`: what a member access of a lowered program is.
* `swizzles_lowered_iff_hygienic`: when all of them are.
-/

namespace VecLang

namespace Swizzle

open ScopeWalk Arena

variable {base : Tree} {types : TypeTable} {a : Arena} {p₀ p : Program} {v : View Unit}
  {source filename : String} {root : Nat}

/-- **The member access selects no components of an array**: its member is neither an axis nor
a swizzle, or its base is a name that the context binds to another type than an array. -/
def Lowered (a : Arena) (ctx : Context) (node : NodeId) : Prop :=
  (∃ m ∈ memberName? a node, axis? m = none ∧ ofMember? m = none) ∨
    ∃ base ∈ a.child? node 0, a.kind base = .ident ∧
      ∃ t ∈ (ctx.bindingType ((a.name? base).getD "")).toOption, t.isArray = false

instance (a : Arena) (ctx : Context) (node : NodeId) : Decidable (Lowered a ctx node) :=
  inferInstanceAs (Decidable (_ ∨ _))

theorem ofMember?_eq_none {m : String} :
    Selection.ofMember? m = none ↔ axis? m = none ∧ ofMember? m = none := by
  unfold Selection.ofMember?
  cases axis? m with
  | none => simp
  | some i => simp

/-- Inside of an access to a name, the name is bound to what it is bound to around. -/
theorem inside_base {l : Label} (σ : Names) (rest : List Tree) (hk : l.kind = .member)
    (hid : base.entry.kind = .ident) :
    inside σ (.node l (base :: rest)) (base.entry.name?.getD "") =
      σ (base.entry.name?.getD "") := by
  unfold inside
  rw [opens_member σ base rest hk, if_pos hid]
  cases hσ : σ (base.entry.name?.getD "") with
  | none => exact hσ
  | some t =>
    simp only [Option.map_some, Option.getD_some, Names.bind]
    split
    · rfl
    · exact hσ

theorem isArray?_eq_false {bound : Option Ty} :
    isArray? types bound base = some false ↔ base.entry.kind = .ident ∧
      ∃ t ∈ bound.bind fun t => (types.resolve t).toOption, t.isArray = false := by
  unfold isArray?
  split
  · next hid =>
    rw [and_iff_right hid]
    cases bound with
    | none => simp
    | some t => exact Option.map_eq_some_iff
  · next hid =>
    simp [hid]

theorem exists_tree_eq {id : Nat} (hw : a.WellFormed) (hlt : id < a.size) :
    ∃ ss, a.Spans (.node id ss) ∧
      a.tree id = .node (a.label id) (ss.map (Rose.map a.label)) := by
  have hs := spans_children hw hlt
  exact ⟨_, hs, (hs.tree_eq hw).trans (Rose.map_node _ _ _)⟩

/-- **A note of a member access tells whether its site is settled.** -/
theorem lowered_iff {note : Nat × Context} {s : Site} (hw : a.WellFormed)
    (h : NoteOf a types note s) (hk : a.kind note.1 = .member) :
    Lowered a note.2 note.1 ↔ Settled types s.around s.tree := by
  obtain ⟨ss, hs, htree⟩ := exists_tree_eq hw h.lt_size
  rw [h.tree] at htree
  have hnames := h.names
  rw [htree] at hnames ⊢
  have hlabel : (a.label note.1).kind = .member := hk
  rw [Lowered, Settled, memberName?_eq hs, child?_zero hs, forall_prop_of_true hlabel]
  refine or_congr ?_ ?_
  · rw [Option.map_eq_some_iff]
    simp only [ofMember?_eq_none, Option.mem_def]
  · cases ss with
    | nil => simp
    | cons b ss =>
      simp only [List.map_cons, List.head?_cons, Option.map_some, Option.bind_some,
        isArray?_eq_false, Option.mem_def, Option.some.injEq, exists_eq_left']
      rw [Rose.entry_map]
      refine and_congr_right fun hid => ?_
      have hbase := inside_base s.around (ss.map (Rose.map a.label)) hlabel
        (by rw [Rose.entry_map]; exact hid : (b.map a.label).entry.kind = .ident)
      rw [List.map_cons] at hnames
      rw [← hnames, Rose.entry_map] at hbase
      rw [bindingType_toOption, h.types, ← hbase]
      rfl

/-- **What the lowering of a parsed program leaves**, with the names of the slots in scope. -/
structure LoweredFrom (p₀ : Program) (root : Nat) (p : Program) : Prop where
  wellFormed : p.arena.WellFormed
  lt_size : root < p.arena.size
  top : p.arena.parent? root = none
  root? : p.arena.root? = some root
  context : p.context = p₀.context.resetScopes
  walks : ∃ τ, Walks (writeRule p₀.context.types) p₀.context.resetScopes.names .top .top
    [lowerReads p₀.context.types p₀.context.resetScopes.names .top (p₀.arena.tree root)]
    [p.arena.tree root] τ
  kept : ∀ s ∈ sites p₀.context.resetScopes.names .top (p.arena.tree root),
    s.Kept (writeRule p₀.context.types)
  settled_iff : (∀ s ∈ sites p₀.context.resetScopes.names .top (p.arena.tree root),
      Settled p₀.context.types s.around s.tree) ↔
    ∀ s ∈ sites p₀.context.resetScopes.names .top
      (lowerReads p₀.context.types p₀.context.resetScopes.names .top (p₀.arena.tree root)),
      Hygienic p₀.context.types s
  hygienic : Avoids (p₀.arena.tree root) → ∀ s ∈ sites p₀.context.resetScopes.names .top
    (lowerReads p₀.context.types p₀.context.resetScopes.names .top (p₀.arena.tree root)),
    Hygienic p₀.context.types s

theorem avoids_lowerReads {σ : Names} {place : Place} {t : Tree} (h : Avoids t) :
    Avoids (lowerReads types σ place t) := by
  intro l hl hk
  rcases mem_preorder_lowerReads hl with hl | ⟨hl, -⟩
  · exact h l hl hk
  · rw [hk] at hl
    exact absurd hl (by decide)

theorem ReadFrom.kind (h : ReadFrom p₀ root v) (hp : Parsed p₀ root) :
    (v.arena.tree root).kind = .block := by
  obtain ⟨pos, items, htree, -⟩ := hp.shape
  rw [h.tree, Tree.kind, lowerReads_entry (by rw [htree]; exact fun h => by cases h), htree]
  rfl

theorem ReadFrom.done (h : ReadFrom p₀ root v) (hp : Parsed p₀ root) :
    ∀ s ∈ sites p₀.context.names .top (v.arena.tree root), ReadDone p₀.context.types s := by
  obtain ⟨τ, hwalks⟩ := h.walks
  obtain ⟨hdone, -⟩ := Walks.readDone hwalks fun t ht =>
    List.mem_singleton.1 ht ▸ hp.shape.regular closed_builtin
  exact forall_sitesAll_singleton.1 hdone

theorem lower_loweredFrom {v₁ v₂ : View Unit} (hp : Parsed p₀ root)
    (hread : ReadFrom { p₀ with context := p₀.context.resetScopes } root v₁)
    (hwrite : lowerWith writeHook root
      { arena := v₁.arena, context := p₀.context.resetScopes, notes := () } = .ok () v₂)
    : LoweredFrom p₀ root { arena := v₂.arena, context := v₂.context } := by
  have hkind : (v₁.arena.tree root).entry.kind ≠ .assign := fun h => by
    cases (hread.kind hp.resetScopes).symm.trans h
  obtain ⟨⟨τ, hwalks⟩, hctx, hwf, hlt, htop, hroot?⟩ :=
    lowerWith_walks (v := { arena := v₁.arena, context := p₀.context.resetScopes, notes := () })
      (writeHook_refines (hp.types ▸ templates_builtin))
      (fun σ => writeRule_of_kind hkind) hread.wellFormed hread.lt_size hread.top rfl hwrite
  have hlowered : v₁.arena.tree root = lowerReads p₀.context.types p₀.context.resetScopes.names .top
      (p₀.arena.tree root) := hread.tree
  have hregular : ∀ t ∈ [v₁.arena.tree root], Regular t := fun t ht => by
    rw [List.mem_singleton.1 ht, hlowered, hp.types]
    exact regular_lowerReads closed_builtin templates_builtin hp.shape
  have hwritten := Walks.written hwalks hregular fun h => by cases h
  have hkept := forall_sitesAll_singleton.1 hwritten.kept
  have hdone := hread.done hp.resetScopes
  have hhygiene := hwritten.hygiene
  have havoids := hwritten.avoids
  simp only [forall_sitesAll_singleton, hlowered] at hdone hhygiene havoids
  refine ⟨hwf, hlt, htop, hroot?.trans hread.root?, hctx, ⟨τ, hlowered ▸ hwalks⟩, hkept, ?_,
    fun hnames => ?_⟩
  · refine Iff.trans ⟨fun h s hs => .inl (h s hs), fun h => ?_⟩ (hhygiene hdone)
    have hroot := (h _ (root_mem_sites _ .top _)).resolve_right fun hp => by cases hp.1
    exact settled_of_kept (hwritten.tidy _ (.head _)) hroot fun s hs => ⟨h s hs, hkept s hs⟩
  · refine havoids hdone fun t ht => ?_
    rw [List.mem_singleton.1 ht]
    exact avoids_lowerReads hnames

theorem lower_eq {root : NodeId} (hroot : v.arena.root? = some root) :
    lower v = (do
      lowerWith readHook root
      modify fun v => { v with context := v.context.resetScopes }
      lowerWith writeHook root : Lowering Unit) v := by
  have hget : ∀ f : View Unit → Lowering Unit, (get >>= f) v = f v v := fun _ => rfl
  unfold lower
  rw [hget, hroot]

theorem runPasses_lowerSwizzles (p : Program) :
    p.runPasses [Pass.lowerSwizzles] =
      match lower { arena := p.arena, context := p.context.resetScopes, notes := () } with
      | .ok () v => .ok { arena := v.arena, context := v.context }
      | .error e _ => .error e := by
  have hpass : ([Pass.lowerSwizzles].forM Pass.runFresh) p =
      (Pass.lowerSwizzles >>= fun _ => pure ()) { p with context := p.context.resetScopes } := rfl
  unfold Program.runPasses
  rw [hpass]
  show (match EStateM.bind Pass.lowerSwizzles _ _ with | .ok () p => _ | .error e _ => _) = _
  unfold EStateM.bind Pass.lowerSwizzles
  cases lower { arena := p.arena, context := p.context.resetScopes, notes := () } <;> rfl

/-- **Compiling is parsing and the two walks.** -/
theorem compile_loweredFrom
    (h : compile source { filename, lowerSwizzles := true, passes := [] } = .ok p) :
    ∃ p₀ root, parseProgram source filename = .ok p₀ ∧ Parsed p₀ root ∧ LoweredFrom p₀ root p := by
  obtain ⟨p₀, hparse, h⟩ := Except.bind_eq_ok.1 h
  obtain ⟨root, hp⟩ := parseProgram_parsed hparse
  refine ⟨p₀, root, hparse, hp, ?_⟩
  change p₀.runPasses [Pass.lowerSwizzles] = .ok p at h
  rw [runPasses_lowerSwizzles, lower_eq hp.root?] at h
  split at h
  swap
  · cases h
  next v₂ hsteps =>
  cases h
  obtain ⟨_, v₁, hread, hsteps⟩ := Steps.bind_eq_ok.1 hsteps
  obtain ⟨_, v, hreset, hwrite⟩ := Steps.bind_eq_ok.1 hsteps
  rw [Steps.modify_eq_ok] at hreset
  subst hreset
  have hfrom := lowerWith_readFrom hp.resetScopes hread
  rw [show v₁.context.resetScopes = p₀.context.resetScopes by rw [hfrom.context]; rfl] at hwrite
  exact lower_loweredFrom hp hfrom hwrite

theorem compile_cases {lowerSwizzles : Bool}
    (h : compile source { filename, lowerSwizzles, passes := [] } = .ok p) :
    ∃ p₀ root, parseProgram source filename = .ok p₀ ∧ Parsed p₀ root ∧
      (lowerSwizzles = false ∧ p = p₀ ∨ lowerSwizzles = true ∧ LoweredFrom p₀ root p) := by
  cases lowerSwizzles with
  | false =>
    obtain ⟨p₀, hparse, h⟩ := Except.bind_eq_ok.1 h
    obtain ⟨root, hp⟩ := parseProgram_parsed hparse
    cases h
    exact ⟨p, root, hparse, hp, .inl ⟨rfl, rfl⟩⟩
  | true =>
    obtain ⟨p₀, root, hparse, hp, hl⟩ := compile_loweredFrom h
    exact ⟨p₀, root, hparse, hp, .inr ⟨rfl, hl⟩⟩

/-- Every member access that a walk has noted is lowered. -/
def AllLowered (a : Arena) (notes : Notes) : Prop :=
  ∀ note ∈ notes, a.kind note.1 = .member → Lowered a note.2 note.1

instance (a : Arena) (notes : Notes) : Decidable (AllLowered a notes) :=
  inferInstanceAs (Decidable (∀ note ∈ notes, _ → _))

instance (t : Tree) : Decidable (Avoids t) :=
  inferInstanceAs (Decidable (∀ l ∈ t.preorder, _ → _))

theorem allLowered_iff {notes : Notes} {places : List Site} (hw : a.WellFormed)
    (h : List.Forall₂ (NoteOf a types) notes places) :
    AllLowered a notes ↔ ∀ s ∈ places, Settled types s.around s.tree := by
  unfold AllLowered
  induction h with
  | nil => simp
  | @cons note s notes places hnote _ ih =>
    rw [List.forall_mem_cons, List.forall_mem_cons, ih]
    refine and_congr_left fun _ => ?_
    by_cases hk : a.kind note.1 = .member
    · rw [forall_prop_of_true hk, lowered_iff hw hnote hk]
    · refine iff_of_true (fun h => absurd h hk) ?_
      obtain ⟨ss, -, htree⟩ := exists_tree_eq hw hnote.lt_size
      rw [← hnote.tree, htree]
      exact settled_of_kind hk

theorem size_le_depthLimit (a : Arena) : a.size ≤ depthLimit a := by
  have := Nat.le_mul_self (a.size + 2)
  unfold depthLimit
  omega

/-- **When lowering is complete.** If a source compiles, then a walk of the compiled program
shows every node that is reachable from its root. All member accesses among them are lowered,
with the types of names as bound there, exactly if the assignments of the program with lowered
reads are hygienic; and they are if the source uses no name of a placeholder. -/
theorem swizzles_lowered_iff_hygienic {source filename : String} {p : Program}
    (h : compile source { filename, lowerSwizzles := true, passes := [] } = .ok p) :
    ∃ p₀ root v, parseProgram source filename = .ok p₀ ∧ p₀.arena.root? = some root ∧
      p.arena.root? = some root ∧
      walkScopes (depthLimit p.arena) noteScope root
        { arena := p.arena, context := p.context.resetScopes, notes := [] } = .ok () v ∧
      v.notes.map Prod.fst = p.arena.preorder root ∧
      (AllLowered p.arena v.notes ↔
        ∀ s ∈ sites p₀.context.resetScopes.names .top
          (lowerReads p₀.context.types p₀.context.resetScopes.names .top (p₀.arena.tree root)),
          Hygienic p₀.context.types s) ∧
      (Avoids (p₀.arena.tree root) → AllLowered p.arena v.notes) := by
  obtain ⟨p₀, root, hparse, hp, hl⟩ := compile_loweredFrom h
  have hreset : p.context.resetScopes = p₀.context.resetScopes := by
    rw [hl.context]
    rfl
  obtain ⟨v, hwalk, -, -, hpreorder, hnotes⟩ := walkScopes_notes
    (v := { arena := p.arena, context := p₀.context.resetScopes, notes := [] }) hl.wellFormed
    hl.lt_size (size_le_depthLimit p.arena) rfl .top fun s hs => by
      obtain ⟨σ₁, opened, ho, -⟩ := hl.kept s hs
      rw [ho]
      rfl
  have hall := allLowered_iff hl.wellFormed hnotes
  refine ⟨p₀, root, v, hparse, hp.root?, hl.root?, hreset ▸ hwalk, hpreorder,
    hall.trans hl.settled_iff, fun havoids => ?_⟩
  exact hall.2 (hl.settled_iff.2 (hl.hygienic havoids))

/-- A program with swizzles on both sides, and an access to a member of a number. -/
def plainText : String :=
  "void main() { float f; vec2 v; vec3 q; v.yx = vec2(q.z, f.x); q.zx = v.yy; f = q.xy.y; }"

theorem swizzles_lowered_plainText : ∃ p root v,
    compile plainText { filename := "", lowerSwizzles := true, passes := [] } = .ok p ∧
      walkScopes (depthLimit p.arena) noteScope root
        { arena := p.arena, context := p.context.resetScopes, notes := [] } = .ok () v ∧
      v.notes.map Prod.fst = p.arena.preorder root ∧ AllLowered p.arena v.notes := by
  have hcheck : checkLowered plainText fun p₀ _ root =>
      decide (Avoids (p₀.arena.tree root)) := by decide +kernel
  obtain ⟨p₀, p, root, hparse, hcompile, hroot, hcheck⟩ := of_checkLowered hcheck
  obtain ⟨p₁, root', v, hparse', hroot', -, hwalk, hpreorder, -, hall⟩ :=
    swizzles_lowered_iff_hygienic hcompile
  cases hparse.symm.trans hparse'
  cases hroot.symm.trans hroot'
  exact ⟨p, root, v, hcompile, hwalk, hpreorder, hall (of_decide_eq_true hcheck)⟩

/-- A program whose value has the name of a placeholder. -/
def capturedText : String := "void main() { float $n1; vec2 v; v.xy = $n1.xy; }"

/-- **A swizzle of a vector survives** where a name in the value is taken for the vector that is
assigned to. -/
theorem swizzle_survives_capture : ∃ p root v,
    compile capturedText { filename := "", lowerSwizzles := true, passes := [] } = .ok p ∧
      p.arena.root? = some root ∧
      walkScopes (depthLimit p.arena) noteScope root
        { arena := p.arena, context := p.context.resetScopes, notes := [] } = .ok () v ∧
      ¬ AllLowered p.arena v.notes := by
  have hcheck : checkLowered capturedText fun _ p root => decide (p.arena.root? = some root) &&
      (Steps.left? (walkScopes (depthLimit p.arena) noteScope root
        { arena := p.arena, context := p.context.resetScopes, notes := [] })).any
          fun v => decide (¬ AllLowered p.arena v.notes) := by decide +kernel
  obtain ⟨-, p, root, -, hcompile, -, hcheck⟩ := of_checkLowered hcheck
  obtain ⟨hroot, hcheck⟩ := Bool.and_eq_true_iff.1 hcheck
  obtain ⟨v, hwalk, hcheck⟩ := (Option.any_eq_true _ _).1 hcheck
  exact ⟨p, root, v, hcompile, of_decide_eq_true hroot, Steps.left?_eq_some hwalk,
    of_decide_eq_true hcheck⟩

end Swizzle

end VecLang
