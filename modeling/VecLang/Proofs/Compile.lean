import VecLang.Proofs.Swizzle.Depth

/-!
# How compiling fails

A source text is preprocessed, parsed, searched for slots and lowered, and each of these
looks for things that later ones rely on. So no text leads to a tree that cannot be edited,
to a declaration that lacks its parts or to a scope that is closed twice: when compiling
fails, something is wrong with the text itself.

* `SourceFault`: what can be wrong with a text.
* `parseProgram_error`: so a text that is not parsed has such a fault.
* `compile_ok_or_sourceFault`: compiling gives a program or finds such a fault.
-/

namespace VecLang

open Arena Swizzle ScopeWalk List

variable {filename source : String} {e : Error} {ts : List Ty} {root : Nat}

/-- **What can be wrong with a source text.** It is not written as a program is, it names a
type or a variable that there is not, it declares a slot twice, or it assigns to a swizzle
inside of an expression. That it is too long or too deep for the parser is none of these. -/
inductive SourceFault : Error → Prop
  | malformed {fault : SyntaxFault} (pos : Pos) (h : fault ≠ .tooDeep) :
    SourceFault (.malformed fault pos)
  | unknownType (name : String) : SourceFault (.unknownType name)
  | undefinedSymbol (name : String) : SourceFault (.undefinedSymbol name)
  | duplicateSlot (name : String) (existing : Qualifier) :
    SourceFault (.semantic (.duplicateSlot name existing))
  | swizzleNotStatement (member : String) : SourceFault (.semantic (.swizzleNotStatement member))

namespace SourceFault

variable {e : Error}

theorem locate (ctx : Context) (pos : Option Pos) (h : SourceFault e.root) :
    SourceFault (ctx.locate pos e).root := by
  unfold Context.locate
  split <;> exact h

theorem of_reported (h : Reported filename e) : SourceFault e.root := by
  obtain ⟨pos, fault, excerpt, rfl, h⟩ := h
  cases h with
  | unknownType name => exact .unknownType name
  | undefinedSymbol name => exact .undefinedSymbol name
  | notStatement member => exact .swizzleNotStatement member

end SourceFault

namespace Macro

theorem readDefine_error {text found : Text} {fault : SyntaxFault}
    (h : readDefine text = .error (fault, found)) : fault ≠ .tooDeep := by
  unfold readDefine at h
  simp only at h
  split at h
  · cases h
    simp
  split at h
  · cases h
    simp
  split at h
  · cases h
    simp
  · cases h

theorem expandLines_error {defs : Defs} {lines : List Text} {offset found : Nat} {fault : SyntaxFault}
    (h : expandLines defs offset lines = .error (fault, found)) : fault ≠ .tooDeep := by
  induction lines generalizing defs offset with
  | nil => cases h
  | cons line rest ih =>
    rw [expandLines] at h
    split at h
    · rcases Except.bind_eq_error.1 h with h | ⟨_, -, h⟩
      · exact ih h
      · cases h
    split at h
    · next hread =>
      cases h
      exact readDefine_error hread
    · rcases Except.bind_eq_error.1 h with h | ⟨_, -, h⟩
      · exact ih h
      · cases h

theorem preprocess_error (h : preprocess source = .error e) : SourceFault e.root := by
  rcases Except.bind_eq_error.1 h with h | ⟨_, -, h⟩
  swap
  · cases h
  unfold preprocessText at h
  split at h
  · cases h
    exact .malformed _ (by simp)
  split at h
  · next hlines =>
    cases h
    exact .malformed _ (expandLines_error hlines)
  · cases h

end Macro

theorem Context.parseTree_error {ctx : Context} {p : Grammar.Production} {source : Text}
    (h : ctx.parseTree p source = .error e) : SourceFault e.root := by
  have hlimits : ∀ pos, e ≠ .malformed .tooDeep pos := by
    rintro pos rfl
    exact parseTree_ne_tooDeep pos h
  unfold parseTree at h
  simp only at h
  split at h
  · split at h
    · cases h
    · cases h
      exact .malformed _ (by simp [Grammar.leftover])
  next failure _ =>
  obtain ⟨found, problem⟩ := failure
  cases problem with
  | unknownType name =>
    cases h
    exact .locate ctx _ (.unknownType name)
  | tooDeep =>
    cases h
    exact absurd rfl (hlimits _)
  | _ =>
    cases h
    exact .malformed _ (by simp)

namespace Collect

variable {arena : Arena} {ctx : Context} {types : TypeTable} {s : Rose Nat} {e : Error}

theorem exists_typeNode (hs : arena.Spans s) (hf : Formed types (s.map arena.label))
    (hk : arena.kind s.entry = .varDecl ∨ arena.kind s.entry = .function) :
    ∃ node t, arena.child? s.entry 0 = some node ∧ arena.type? node = some t ∧
      (types.resolve t).isOk = true := by
  obtain ⟨id, ss⟩ := s
  rw [Rose.map_node] at hf
  obtain ⟨t, ht, hok⟩ := hf.exists_type hk
  rw [Rose.entry, child?_eq hs]
  cases ss with
  | nil => cases ht
  | cons u ss =>
    refine ⟨u.entry, t, rfl, ?_, hok⟩
    rw [map_cons, head?_cons, Option.bind_some, Rose.entry_map] at ht
    exact ht

theorem declaration_error (hs : arena.Spans s) (hf : Formed types (s.map arena.label))
    (hk : arena.kind s.entry = .varDecl) (h : declaration arena ctx s.entry = .error e) :
    SourceFault e.root := by
  obtain ⟨node, t, hnode, ht, -⟩ := exists_typeNode hs hf (.inl hk)
  obtain ⟨name, hname⟩ : ∃ name, arena.name? s.entry = some name := by
    obtain ⟨id, ss⟩ := s
    rw [Rose.map_node] at hf
    exact hf.root.exists_name (.inr (.inl hk))
  unfold declaration at h
  rw [hnode] at h
  simp only [hname, ht] at h
  split at h
  · cases h
  obtain ⟨e', hdeclare, rfl⟩ := Except.mapError_eq_error.1 h
  refine .locate ctx _ ?_
  rcases Except.bind_eq_error.1 hdeclare with h | ⟨_, -, h⟩
  · unfold Slots.declare at h
    split at h
    · cases h
      exact .duplicateSlot _ _
    · cases h
  · cases h

theorem exists_parameterTypes (ctx : Context) {params : List (Rose Nat)}
    (hparams : ∀ s ∈ params, arena.Spans s ∧ Formed types (s.map arena.label) ∧
      arena.kind s.entry = .varDecl) :
    ∃ ts, parameterTypes arena ctx (params.map Rose.entry) = .ok ts := by
  induction params with
  | nil => exact ⟨[], rfl⟩
  | cons s params ih =>
    obtain ⟨hs, hf, hk⟩ := hparams s (.head _)
    obtain ⟨node, t, hnode, ht, -⟩ := exists_typeNode hs hf (.inl hk)
    obtain ⟨ts, hts⟩ := ih fun u hu => hparams u (.tail _ hu)
    refine ⟨t :: ts, ?_⟩
    rw [map_cons, parameterTypes, hnode, Option.bind_some, ht]
    simp only [hts]
    rfl

theorem exists_parameterTypes_function (ctx : Context) (hs : arena.Spans s)
    (hf : Formed types (s.map arena.label)) (hk : arena.kind s.entry = .function) :
    ∃ ts, parameterTypes arena ctx
      (((arena.child? s.entry 1).map arena.children).getD []) = .ok ts := by
  obtain ⟨id, ss⟩ := s
  rw [Rose.map_node] at hf
  rw [Rose.entry, child?_eq hs]
  rcases ss with _ | ⟨_, _ | ⟨⟨list, params⟩, _⟩⟩
  · exact ⟨[], rfl⟩
  · exact ⟨[], rfl⟩
  · have hlist := hs.of_mem (.tail _ (.head _))
    have hkind : (arena.label list).kind = .params := by
      have hadmits := hf.root.admits
      rw [show (arena.label id).kind = .function from hk] at hadmits
      simp only [Kind.admits, map_cons, beq_iff_eq, cons.injEq] at hadmits
      exact hadmits.2.1
    have hparams : Formed types ((Rose.node list params).map arena.label) :=
      hf.of_mem (.tail _ (.head _))
    rw [Rose.map_node] at hparams
    simp only [getElem?_cons_succ, getElem?_cons_zero, Option.map_some, Option.getD_some]
    rw [Rose.entry, hlist.children_eq]
    refine exists_parameterTypes ctx fun u hu => ⟨hlist.of_mem hu,
      hparams.of_mem (mem_map_of_mem hu), ?_⟩
    have hall := hparams.root.admits
    rw [hkind] at hall
    have hu := all_eq_true.1 hall _ (mem_map_of_mem (mem_map_of_mem hu))
    rw [Tree.kind_map, beq_iff_eq] at hu
    exact hu

theorem mapM_resolveArg_error
    (h : (ts.map Context.TypeArg.type).mapM (ctx.resolveArg none) = .error e) :
    SourceFault e.root := by
  induction ts generalizing e with
  | nil => cases h
  | cons t ts ih =>
    rw [map_cons, mapM_cons] at h
    rcases Except.bind_eq_error.1 h with h | ⟨_, -, h⟩
    · obtain ⟨name, rfl⟩ := TypeTable.resolve_error h
      exact .unknownType name
    rcases Except.bind_eq_error.1 h with h | ⟨_, -, h⟩
    · exact ih h
    · cases h

theorem addOverload_error {name : String} {ret : Ty}
    (h : ctx.addOverload name (.type ret) (ts.map .type) none = .error e) : SourceFault e.root := by
  rcases Except.bind_eq_error.1 h with h | ⟨_, -, h⟩
  · obtain ⟨name, rfl⟩ := TypeTable.resolve_error h
    exact .unknownType name
  rcases Except.bind_eq_error.1 h with h | ⟨_, -, h⟩
  · exact mapM_resolveArg_error h
  · cases h

theorem function_error (hs : arena.Spans s) (hf : Formed types (s.map arena.label))
    (hk : arena.kind s.entry = .function) (h : function arena ctx s.entry = .error e) :
    SourceFault e.root := by
  obtain ⟨node, ret, hnode, hret, -⟩ := exists_typeNode hs hf (.inr hk)
  obtain ⟨ts, hts⟩ := exists_parameterTypes_function ctx hs hf hk
  unfold function at h
  simp only [hts, hnode, hret, Option.bind_some] at h
  rcases Except.bind_eq_error.1 h with h | ⟨_, heq, h⟩
  · cases h
  rcases Except.bind_eq_error.1 h with h | ⟨_, -, h⟩
  · obtain ⟨e', hadd, rfl⟩ := Except.mapError_eq_error.1 h
    exact .locate ctx _ (addOverload_error hadd)
  · cases h

theorem item_fails (hs : arena.Spans s) (hf : Formed types (s.map arena.label)) :
    Steps.Fails (item arena s.entry) ctx fun e _ => SourceFault e.root := by
  intro e ctx' h
  unfold item at h
  simp only at h
  split at h
  · cases h
  next e' herror =>
  cases h
  split at herror
  · next hk => exact declaration_error hs hf hk herror
  · next hk => exact function_error hs hf hk herror
  · cases herror

/-- **Collecting fails only at a slot that is declared twice or a type that is not known.** -/
theorem slots_fails (hw : arena.WellFormed) (hlt : root < arena.size)
    (hroot : arena.root? = some root) (hf : Formed types (arena.tree root)) :
    Steps.Fails (slots arena) ctx fun e _ => SourceFault e.root := by
  obtain ⟨ss, hs, htree⟩ := exists_tree_eq hw hlt
  rw [htree] at hf
  have hall : ∀ (us : List (Rose Nat)) (ctx : Context), us ⊆ ss →
      Steps.Fails ((us.map Rose.entry).forM (item arena)) ctx fun e _ => SourceFault e.root := by
    intro us
    induction us with
    | nil => exact fun ctx _ => Steps.fails_pure
    | cons u us ih =>
      intro ctx hsub
      have hu := hsub (.head _)
      exact .bind (item_fails (hs.of_mem hu) (hf.of_mem (mem_map_of_mem hu)))
        fun _ ctx' _ => ih ctx' fun w hw => hsub (.tail _ hw)
  rw [slots_eq hw hroot hlt, hs.children_eq]
  exact hall ss ctx fun _ h => h

end Collect

/-- **A text that is not parsed has a fault.** -/
theorem parseProgram_error (h : parseProgram source filename = .error e) : SourceFault e.root := by
  rcases Except.bind_eq_error.1 h with h | ⟨text, -, h⟩
  · exact Macro.preprocess_error h
  rcases Except.bind_eq_error.1 h with h | ⟨⟨a, root⟩, hparse, h⟩
  · exact Context.parseTree_error ((Context.parse_eq_error wellFormed_empty).1 h)
  have hp := Parsed.of_parse wellFormed_empty rfl hparse
  unfold Program.collectSlots at h
  simp only at h
  split at h
  · cases h
  next e' _ hslots =>
  cases h
  exact Collect.slots_fails hp.wellFormed hp.lt_size hp.root?
    (hp.shape.formed closed_builtin) _ _ hslots

/-- **Lowering a parsed program fails only with faults of the program.** -/
theorem lower_fails {p : Program} (hp : Parsed p root) :
    Steps.Fails lower { arena := p.arena, context := p.context, notes := () }
      fun e _ => Reported p.context.filename e := by
  have hformed := hp.shape.formed closed_builtin
  have hkind : (p.arena.tree root).kind = .block := by
    obtain ⟨pos, items, htree, -⟩ := hp.shape
    rw [htree]
    rfl
  refine Steps.Fails.congr (.bind ?_ fun _ v₁ hread => ?_) (lower_eq hp.root?)
  · exact readHook_fails closed_builtin templates_builtin hp.wellFormed hp.lt_size hp.types
      hformed hkind
  -- the second walk starts from what the first one leaves
  have hfrom := lowerWith_readFrom hp hread
  refine .bind (Steps.fails_of_ok rfl) fun _ v hreset => ?_
  rw [Steps.modify_eq_ok] at hreset
  subst hreset
  rw [hfrom.context]
  refine writeHook_fails (v := { arena := v₁.arena, context := p.context.resetScopes, notes := _ })
    templates_builtin hfrom.wellFormed hfrom.lt_size hp.types ?_ (hfrom.kind hp)
  rw [hfrom.tree, hp.types]
  exact formed_lowerReads closed_builtin templates_builtin hformed

/-- **Compiling gives a program or finds a fault of the text.** A fault of the lowering is
located in the file that is compiled, so it is not one of a template either. -/
theorem compile_ok_or_sourceFault (source filename : String) (lowerSwizzles : Bool) :
    (∃ p, compile source { filename, lowerSwizzles, passes := [] } = .ok p) ∨
      ∃ e, compile source { filename, lowerSwizzles, passes := [] } = .error e ∧
        SourceFault e.root ∧
        (parseProgram source filename = .error e ∨
          lowerSwizzles = true ∧ (∃ p, parseProgram source filename = .ok p) ∧
            Reported filename e) := by
  cases hcompile : compile source { filename, lowerSwizzles, passes := [] } with
  | ok p => exact .inl ⟨p, rfl⟩
  | error e =>
    refine .inr ⟨e, rfl, ?_⟩
    rcases Except.bind_eq_error.1 hcompile with hparse | ⟨p, hparse, hpasses⟩
    · exact ⟨parseProgram_error hparse, .inl hparse⟩
    cases lowerSwizzles with
    | false => cases hpasses
    | true =>
      obtain ⟨root, hp⟩ := parseProgram_parsed hparse
      change p.runPasses [Pass.lowerSwizzles] = .error e at hpasses
      rw [runPasses_lowerSwizzles] at hpasses
      split at hpasses
      · cases hpasses
      next v hlower =>
      cases hpasses
      have hreported : Reported p.context.filename e := lower_fails hp.resetScopes _ _ hlower
      rw [parseProgram_filename hparse] at hreported
      exact ⟨.of_reported hreported, .inr ⟨rfl, ⟨p, hparse⟩, hreported⟩⟩

end VecLang
