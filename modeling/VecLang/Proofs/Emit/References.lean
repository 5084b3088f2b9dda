import VecLang.Proofs.Emit.Positions

/-!
# What names refer to

Two parts of the compiler follow the scopes of a program. A scope walk binds every declaration
for the rest of its function, and a script binds it for the rest of its block. At the top a walk
binds each declaration, and for a script a slot stays what it is. So the two agree on a reference
if and only if the last declaration in front of it has the type of the last one that is visible.

* `writtenNames`, `written_names`: the names that a script shows at a reference.
* `references_agree_iff`: when they are those of `walkedNames`, which a scope walk shows.
-/

namespace VecLang

open Arena Grammar ScopeWalk List

/-- **The names once the nodes have been gone through**, if only those that are visible at the node
`n` count. -/
def ScopeWalk.Names.see (σ : Names) (a : Arena) (n : NodeId) (nodes : List NodeId) : Names :=
  σ.declare a (nodes.filter (a.visibleAt n))

/-- The names, and where they are not bound those of `τ`. -/
def ScopeWalk.Names.otherwise (σ τ : Names) : Names := fun name => (σ name).or (τ name)

/-- **The names that a script shows at a node of the function `f`**, if it starts with the names
`σ`: these, the declarations in front of the function that are not of such a name, and then what
is declared in the function in front of the node and is visible there. -/
def ScopeWalk.writtenNames (σ : Names) (a : Arena) (root f n : NodeId) : Names :=
  (σ.otherwise (Names.declare (fun _ => none) a (a.childrenBefore root f))).see a n (a.before f n)

theorem ScopeWalk.Names.see_eq {a : Arena} {σ : Names} {n : NodeId} {l : List NodeId} :
    σ.see a n l = σ.declare a (a.seenAt n l) := by
  funext name
  unfold see declare lastDeclaring seenAt
  rw [filter_filter, filter_filter]
  refine congrArg (fun l => Option.elim (getLast? l) _ _) (filter_congr fun d _ => ?_)
  unfold declares
  cases a.kind d == .varDecl <;> simp

/-! ### What the scopes show -/

theorem Context.names_slotScopes {slots : Slots} (h : (slots.all.map Prod.fst).Nodup) (name : String) :
    (Context.slotScopes slots).names name = (slots.find? name).map Slot.type := by
  unfold ScopeStack.names
  rw [Context.get?_slotScopes h, Option.map_map]
  rfl

namespace Emit.JavaScript

variable {ctx : Context} {arena : Arena} {options : Options} {scopes scopes' : ScopeStack}
  {root f n id : NodeId} {s u : Rose NodeId} {ss : List (Rose NodeId)} {depth : Nat}
  {text name : String} {L : List NodeId} {types : TypeTable}

/-- Scopes that follow declarations show the types of what names refer to. -/
theorem Follows.names_eq (h : Follows ctx arena root f L scopes) (name : String) :
    scopes.names name =
      (referentAfter ctx arena (topReferent ctx arena root f name) name L).bind
        (Collect.declaredType? arena) := by
  unfold ScopeStack.names
  rw [← h.decl]
  cases hget : scopes.get? name with
  | none => rfl
  | some b =>
    obtain ⟨d, hd, htype⟩ := h.bound hget
    rw [Option.map_some, Option.bind_some, hd, Option.bind_some, htype]

/-- A declaration that says again what its name refers to has a type of the same name. -/
theorem agree_of_restates {c d : NodeId} (htop : isTopLevel arena d = false)
    (h : restates ctx arena name c d = true) :
    ctx.types.agree (Collect.declaredType? arena c) (Collect.declaredType? arena d) = true := by
  unfold restates at h
  simp only [htop, Bool.false_or] at h
  rcases Bool.or_eq_true_iff.1 h with h | h <;> exact (Bool.and_eq_true_iff.1 h).2

theorem exists_statement (h : Interior types arena f (.node id ss))
    (hk : arena.kind id = .block) (hn : arena.kind n = .ident)
    (hmem : n ∈ (Rose.node id ss).preorder)
    (hscript : lines ctx arena options depth scopes ss = .ok (text, scopes')) :
    ∃ pre t post front s₁ out s₂, ss = pre ++ t :: post ∧ n ∈ t.preorder ∧
      (arena.kind t.entry).isStatement = true ∧
      lines ctx arena options depth scopes pre = .ok (front, s₁) ∧
      statement ctx arena options depth s₁ t = .ok (out, s₂) := by
  obtain ⟨t, ht, hnt⟩ := exists_child hn hmem (by simp [hk])
  have hadmits := kinds_admitted h.formed
  rw [hk] at hadmits
  have hstatement : (arena.kind t.entry).isStatement = true :=
    all_eq_true.1 hadmits _ (mem_map_of_mem ht)
  obtain ⟨pre, post, rfl⟩ := append_of_mem ht
  obtain ⟨front, s₁, rest, hfront, hrest, -⟩ := lines_append_eq_ok hscript
  obtain ⟨out, s₂, rest, hout, -, -⟩ := lines_cons_eq_ok hrest
  exact ⟨pre, t, post, front, s₁, out, s₂, rfl, hnt, hstatement, hfront, hout⟩

/-- **Every name in a statement is part of an expression that is written.** -/
theorem exists_writes (hw : arena.WellFormed) (hf : arena.kind f = .function)
    (hn : arena.kind n = .ident) (h : Interior types arena f s)
    (hkind : (arena.kind s.entry).isStatement = true) (hmem : n ∈ s.preorder)
    (hscript : statement ctx arena options depth scopes s = .ok (text, scopes')) :
    ∃ s' u, Writes ctx arena options depth scopes s s' u ∧ n ∈ u.preorder := by
  induction s using Rose.induction generalizing depth scopes scopes' text with
  | node id ss ih =>
    rw [Rose.entry] at hkind
    have hwhole : (arena.kind id).isExpression = true →
        ∃ s' u, Writes ctx arena options depth scopes (.node id ss) s' u ∧ n ∈ u.preorder :=
      fun hk => ⟨scopes, .node id ss, .whole hk, hmem⟩
    cases hk : arena.kind id with
    | function => exact absurd hk (h.kinds id (by simp)).1
    | block =>
      obtain ⟨out, inner, hbody, -, -⟩ := statement_block_eq_ok hk hscript
      obtain ⟨pre, t, post, front, s₁, out, s₂, rfl, hnt, hstatement, hfront, hout⟩ :=
        exists_statement h hk hn hmem hbody
      obtain ⟨s', u, hwrites, hu⟩ := ih t (by simp) (h.of_mem (by simp)) hstatement hnt hout
      exact ⟨s', u, .block hk hfront hwrites, hu⟩
    | varDecl =>
      obtain ⟨s, hs, hns⟩ := exists_child hn hmem (by simp [hk])
      obtain ⟨t, htype, hss⟩ := h.declaration hk
      have hst : s ≠ t := by
        rintro rfl
        exact not_mem_type (h.of_mem hs).formed htype hn hns
      rcases hss with rfl | ⟨init, rfl, -⟩
      · exact absurd (mem_singleton.1 hs) hst
      · obtain rfl : s = init := by simpa [hst] using hs
        obtain ⟨hunder, hne⟩ := h.under id (by simp)
        have htop := not_isTopLevel hw hf (h.spans.lt_size_of_mem id (by simp)) hunder hne
        exact ⟨scopes, s, .initial hk htop rfl, hns⟩
    | conditional =>
      obtain ⟨s, hs, hns⟩ := exists_child hn hmem (by simp [hk])
      obtain ⟨cond, yes, rest, _, _, s₁, rfl, -, hgoverned, hrest⟩ :=
        statement_conditional_eq_ok hk hscript
      obtain ⟨-, hyes, hkrest⟩ := ScopeWalk.conditional_kinds h.formed hk
      -- a block that a condition governs is written by itself, without a further scope
      have hblock : ∀ {b : Rose NodeId} {scopes scopes' : ScopeStack} {text : String},
          arena.kind b.entry = .block → b ∈ cond :: yes :: rest → n ∈ b.preorder →
          governed ctx arena options depth scopes b = .ok (text, scopes') →
          ∃ s' u, Writes ctx arena options depth scopes b s' u ∧ n ∈ u.preorder := by
        intro b scopes scopes' text hb hbs hnb hscript
        unfold governed branch at hscript
        rw [if_pos hb] at hscript
        exact ih b hbs (h.of_mem hbs) (by rw [hb]; rfl) hnb hscript
      rcases mem_cons.1 hs with rfl | hs
      · exact ⟨scopes, s, .condition hk, hns⟩
      rcases mem_cons.1 hs with rfl | hs
      · obtain ⟨s', u, hwrites, hu⟩ := hblock hyes (by simp) hns hgoverned
        exact ⟨s', u, .yes hk hyes hwrites, hu⟩
      rcases hrest with ⟨rfl, -⟩ | ⟨no, rest, _, rfl, hno, -⟩
      · cases hs
      have hadmits := kinds_admitted h.formed
      simp only [hk, Kind.admits, Bool.and_eq_true, decide_eq_true_eq, length_map,
        length_cons] at hadmits
      obtain rfl : rest = [] := length_eq_zero_iff.1 (by omega)
      obtain rfl := mem_singleton.1 hs
      have hkno := hkrest s (.head _)
      rcases otherwise_eq_ok hno with ⟨hcond, out, hno, -⟩ | ⟨hcond, hno⟩
      · obtain ⟨s', u, hwrites, hu⟩ := ih s (by simp) (h.of_mem (by simp)) (by rw [hcond]; rfl) hns hno
        exact ⟨s', u, .chained hk hgoverned hcond hwrites, hu⟩
      · have hb := hkno.resolve_right hcond
        obtain ⟨s', u, hwrites, hu⟩ := hblock hb (by simp) hns hno
        exact ⟨s', u, .no hk hgoverned hb hwrites, hu⟩
    | ret =>
      obtain ⟨s, hs, hns⟩ := exists_child hn hmem (by simp [hk])
      rcases h.ret hk with rfl | ⟨value, rfl, -⟩
      · cases hs
      · obtain rfl := mem_singleton.1 hs
        exact ⟨scopes, s, .value hk, hns⟩
    | params | args | varType | varRef => rw [hk] at hkind; cases hkind
    | _ => exact hwhole (by rw [hk]; rfl)

end Emit.JavaScript

section Outlined

open Emit Emit.JavaScript

variable {p : Program} {root f n : NodeId} {name : String} {L : List NodeId} {options : Options}
  {s s' : ScopeStack} {t u : Rose NodeId} {ss : List (Rose NodeId)} {depth : Nat} {text : String}
  (h : Outlined p root)

include h

theorem Outlined.agree_self {d : NodeId} (hd : d ∈ p.arena.preorder root)
    (hk : p.arena.kind d = .varDecl) : p.context.types.agree (Collect.declaredType? p.arena d)
      (Collect.declaredType? p.arena d) = true := by
  have hs := spans_shape h.wellFormed h.lt_size
  obtain ⟨t, htype, hknown⟩ := exists_declaredType hs h.formed d hd hk
  rw [htype]
  exact TypeTable.agree_refl hknown

/-- **What a name is bound to around an item** is the slot of that name, or else what the last
declaration of it in front of the item says. -/
theorem Outlined.agree_topReferent (name : String) : p.context.types.agree
    ((topReferent p.context p.arena root f name).bind (Collect.declaredType? p.arena))
    (((Context.slotScopes p.context.slots).names.otherwise
      (Names.declare (fun _ => none) p.arena (p.arena.childrenBefore root f))) name) = true := by
  have hroot : ∀ d ∈ p.arena.children root, d ∈ p.arena.preorder root := by
    intro d hd
    obtain ⟨ss, hs⟩ := h.exists_item hd
    rw [show p.arena.preorder root = _ from h.spans_root.preorder_eq h.wellFormed]
    exact Rose.mem_preorder_of_mem hs (Rose.entry_mem_preorder _)
  unfold Names.otherwise Names.declare topReferent
  rw [Context.names_slotScopes h.filed.nodup]
  cases hfind : p.context.slots.find? name with
  | some slot =>
    have hmem := Slots.mem_all_of_find? hfind
    have hagree := h.agree_self (hroot _ (h.filed.decl_mem hmem)) (h.filed.kind_decl hmem)
    rw [h.filed.types _ hmem] at hagree
    rw [Option.map_some, Option.some_or, Option.bind_some, h.filed.types _ hmem]
    exact hagree
  | none =>
    cases hlast : p.arena.lastDeclaring name (p.arena.childrenBefore root f) with
    | none => rfl
    | some d =>
      obtain ⟨hd, hdeclares⟩ := mem_filter.1 (mem_of_getLast? hlast)
      exact h.agree_self (hroot d ((takeWhile_sublist _).subset hd)) (declares_iff.1 hdeclares).1

/-- **What a name refers to behind declarations of a function has the type of the last one of the
name**, up to types of one name. -/
theorem Outlined.agree_referentAfter (hL : ∀ d ∈ L, JavaScript.isTopLevel p.arena d = false ∧
      d ∈ p.arena.preorder root) : p.context.types.agree
    ((referentAfter p.context p.arena (topReferent p.context p.arena root f name) name L).bind
      (Collect.declaredType? p.arena))
    ((((Context.slotScopes p.context.slots).names.otherwise (Names.declare (fun _ => none) p.arena
      (p.arena.childrenBefore root f))).declare p.arena L) name) = true := by
  induction L using reverseRecOn with
  | nil =>
    rw [Names.declare_eq_self (by simp)]
    exact h.agree_topReferent name
  | append_singleton L d ih =>
    obtain ⟨htop, hroot⟩ := hL d (by simp)
    rw [referentAfter_concat, Names.declare_append]
    cases hd : p.arena.declares name d with
    | false =>
      rw [if_neg Bool.false_ne_true, Names.declare, lastDeclaring, filter_singleton, hd]
      exact ih fun e he => hL e (mem_append_left _ he)
    | true =>
      -- the declaration binds the name, or says again what it refers to
      rw [if_pos rfl, Names.declare, lastDeclaring, filter_singleton, hd, cond_true,
        getLast?_singleton, Option.elim_some]
      unfold settle
      split
      · next hsame =>
        obtain ⟨c, hc, hrestates⟩ := (Option.any_eq_true _ _).1 (Bool.and_eq_true_iff.1 hsame).2
        rw [hc, Option.bind_some]
        exact agree_of_restates htop hrestates
      · exact h.agree_self hroot (declares_iff.1 hd).1

/-- **The scopes in which an expression of a function is written follow what is visible there.** -/
theorem Outlined.follows_written (hf : f ∈ p.arena.children root)
    (hk : p.arena.kind f = .function) (hwrites : Writes p.context p.arena options depth s t s' u)
    (hin : Interior p.context.types p.arena f t) (hparam : p.arena.isParameter t.entry = false)
    (hsees : Sees p.arena f L t) (hfollows : Follows p.context p.arena root f L s)
    (hn : n ∈ u.preorder) :
    Follows p.context p.arena root f (p.arena.visibleBefore f n) s' := by
  have hw := h.wellFormed
  -- expressions declare nothing, so all of one sees what its first node sees
  have hinert : ∀ {t : Rose NodeId}, Interior p.context.types p.arena f t →
      (p.arena.kind t.entry).isExpression = true → ∀ x ∈ t.preorder, p.arena.kind x ≠ .varDecl :=
    fun hin hk => hin.inert (Kind.isInner_of_isExpression hk)
  have hpart : ∀ {L : List NodeId} {id : NodeId} {cond yes c : Rose NodeId}
      {rest : List (Rose NodeId)},
      Interior p.context.types p.arena f (.node id (cond :: yes :: rest)) →
      Sees p.arena f L (.node id (cond :: yes :: rest)) → p.arena.kind id = .conditional →
      c ∈ cond :: yes :: rest → Sees p.arena f L c :=
    fun hin hsees => hsees.governed hw hin.spans hin.no_params hin.formed
  induction hwrites generalizing L with
  | body hk => exact absurd hk (hin.kinds _ (by simp)).1
  | @block depth s s₁ s' id t u pre post text hkb hlines hwrites ih =>
    obtain ⟨-, -, -, hpre⟩ :=
      hfollows.push.lines hw hsees hin hkb (h.scripted hf hk hin hparam).2 rfl hlines
    exact ih (hin.of_mem (by simp)) (hin.not_isParameter hw (by simp))
      (hsees.child hw hin.spans hin.no_params (by simp [hkb])) hpre hn
  | @initial depth s id ss u hk _ hu =>
    rwa [hsees.initial hw hin.spans hin.formed hk
      (Rose.mem_preorder_of_mem (mem_of_getElem? hu) hn)]
  | condition hk =>
    rwa [(hpart hin hsees hk (by simp)).inert
      (hinert (hin.of_mem (by simp)) (conditional_kinds hin.formed hk).1) hn]
  | yes hk _ _ ih =>
    exact ih (hin.of_mem (by simp)) (hin.not_isParameter hw (by simp))
      (hpart hin hsees hk (by simp)) hfollows hn
  | @no depth s s₁ s' id cond yes no u rest text hk hgoverned _ _ ih =>
    obtain rfl := governed_restores (statement_restores yes).1 hgoverned
    exact ih (hin.of_mem (by simp)) (hin.not_isParameter hw (by simp))
      (hpart hin hsees hk (by simp)) hfollows hn
  | @chained depth s s₁ s' id cond yes no u rest text hk hgoverned _ _ ih =>
    obtain rfl := governed_restores (statement_restores yes).1 hgoverned
    exact ih (hin.of_mem (by simp)) (hin.not_isParameter hw (by simp))
      (hpart hin hsees hk (by simp)) hfollows hn
  | @value depth s id u rest hk =>
    obtain hnil | ⟨value, heq, hvalue⟩ := hin.ret hk
    · cases hnil
    cases heq
    have hkinds := hinert (hin.of_mem (by simp)) hvalue
    rwa [(hsees.part hw hin.spans hin.no_params (by simp [hk]) (by simp)
      (forall_mem_singleton.2 (hkinds _ (Rose.entry_mem_preorder _)))).inert hkinds hn]
  | whole hk => rwa [hsees.inert (hinert hin hk) hn]

end Outlined

namespace Emit.JavaScript

/-! ### Scripts of programs -/

/-- **The script of a program writes the expression `u` in the scopes `s`**, for one of the items
below the root. -/
def WritesIn (ctx : Context) (arena : Arena) (options : Options) (root : NodeId) (s : ScopeStack)
    (u : Rose NodeId) : Prop :=
  ∃ pre item post text s₀, (arena.shape root).children = pre ++ item :: post ∧
    lines ctx arena options 1 (Context.slotScopes ctx.slots) pre = .ok (text, s₀) ∧
    Writes ctx arena options 1 s₀ item s u

theorem program_eq_ok {script : String} (h : program options ctx arena root = .ok script) :
    ∃ functions s, lines ctx arena options 1 (Context.slotScopes ctx.slots)
        (arena.shape root).children = .ok (functions, s) ∧
      ∀ part, Shows functions part → Shows script part := by
  unfold program at h
  obtain ⟨⟨functions, s⟩, hlines, h⟩ := Except.bind_eq_ok.1 h
  cases h
  refine ⟨functions, s, hlines, fun part hpart => ?_⟩
  have hfront := hpart.behind ((if options.includePrelude then preludeText ++ "\n" else "") ++
    header options (Bindings.ofSlots ctx.slots) ++ String.join (ctx.slots.uniforms.entries.map
      fun e => uniform options e.1 e.2.type))
  have hall := hfront.around "" (entryPoint options (Bindings.ofSlots ctx.slots) ++
    descriptor options (Bindings.ofSlots ctx.slots) ++ "\x7d\n")
  simpa only [String.append_assoc, String.empty_append] using hall

end Emit.JavaScript

section Functions

open Emit Emit.JavaScript

variable {p : Program} {root f n : NodeId} {name functions : String} {options : Options}
  {s s' : ScopeStack} {u : Rose NodeId} (h : Outlined p root) (hf : f ∈ p.arena.children root)
  (hk : p.arena.kind f = .function) (hn : n ∈ p.arena.preorder f)

include h hf hk hn

/-- **The names that a script shows at a node of a function.** -/
theorem Outlined.written_names (hwrites : WritesIn p.context p.arena options root s u)
    (hu : n ∈ u.preorder) (name : String) :
    p.context.types.agree (s.names name)
      (writtenNames p.context.resetScopes.names p.arena root f n name) = true := by
  obtain ⟨pre, ⟨f', ss⟩, post, text, s₀, hsplit, hlines, hwrites⟩ := hwrites
  have hw := h.wellFormed
  have hs : .node f' ss ∈ (p.arena.shape root).children := by simp [hsplit]
  obtain ⟨hspans, -, hf'⟩ := h.item hs
  have hmem : n ∈ (Rose.node f' ss).preorder := hwrites.subset hu
  -- the item in which the node stands is the function
  obtain rfl : f' = f := by
    obtain ⟨ts, ht⟩ := h.exists_item hf
    have htspans := (h.item ht).1
    rw [show p.arena.preorder f = _ from htspans.preorder_eq hw] at hn
    have hparent := (h.spans_root.parent_of_mem hw hs).trans (h.spans_root.parent_of_mem hw ht).symm
    by_contra hne
    exact hspans.disjoint_of_sibling hw htspans hne hparent hmem hn
  obtain ⟨-, -, -, hitems⟩ := h.first_items_scripted hsplit hlines
  have hbefore := childrenBefore_eq hw (hsplit ▸ h.spans_root)
  rw [← hbefore] at hitems
  obtain ⟨ret, q, params, b, body, rfl, -, hkb, -, -, -, hbody⟩ := h.parts hs hk
  obtain ⟨_, _, _, _, front, t, back, _, names, s₁, text, s₂, heq, hbound, hfront, hinner⟩ :=
    hwrites.function_cases hk
  cases heq
  obtain ⟨hafter, -⟩ := h.parameters_follow hs hk hitems.follows hbound
  have hparam := h.not_isParameter_body hs hk
  have hsees := h.sees_body hs hk
  obtain ⟨-, -, -, hpre⟩ :=
    hafter.lines hw hsees hbody hkb (h.scripted hf hk hbody hparam).2 rfl hfront
  have hfollows := h.follows_written hf hk hinner (hbody.of_mem (by simp))
    (hbody.not_isParameter hw (by simp))
    (hsees.child hw hbody.spans hbody.no_params (by simp [hkb])) hpre hu
  rw [hfollows.names_eq]
  unfold writtenNames
  rw [Names.see_eq]
  refine h.agree_referentAfter fun d hd => ?_
  obtain ⟨-, hmemd, hne⟩ := h.mem_visibleBefore hs hmem hd
  refine ⟨not_isTopLevel hw hk (hspans.lt_size_of_mem d hmemd) ((hspans.mem_preorder hw).1 hmemd) hne, ?_⟩
  rw [show p.arena.preorder root = _ from h.spans_root.preorder_eq hw]
  exact Rose.mem_preorder_of_mem hs hmemd

/-- **Every name in a function is part of an expression that is written.** -/
theorem Outlined.exists_writesIn (hp : Parsed p root) (hident : p.arena.kind n = .ident)
    (hscript : lines p.context p.arena options 1 (Context.slotScopes p.context.slots)
      (p.arena.shape root).children = .ok (functions, s')) :
    ∃ s u, WritesIn p.context p.arena options root s u ∧ n ∈ u.preorder := by
  have hw := h.wellFormed
  obtain ⟨ss, hs⟩ := h.exists_item hf
  obtain ⟨pre, post, hsplit⟩ := append_of_mem hs
  rw [hsplit] at hscript
  obtain ⟨front, s₀, rest, hfront, hrest, -⟩ := lines_append_eq_ok hscript
  obtain ⟨out, s₁, rest, hout, -, -⟩ := lines_cons_eq_ok hrest
  have hitem := (item_of_parsed hp hs).2
  obtain ⟨ret, q, params, b, body, rfl, -, hkb, -, -, -, hbody⟩ := h.parts hs hk
  obtain ⟨_, _, _, _, _, _, _, names, s₂, _, _, heq, -, hnames, hlines, -, -⟩ :=
    statement_function_eq_ok hk hout
  cases heq
  rw [show p.arena.preorder f = _ from (h.item hs).1.preorder_eq hw] at hn
  obtain ⟨c, hc, hnc⟩ := exists_child hident hn (by simp [hk])
  -- neither what a function returns nor its parameters hold names
  have hnb : n ∈ (Rose.node b body).preorder := by
    rw [Rose.map_node] at hitem
    obtain ⟨_, _, _, hts, hnameless⟩ := hitem.nameless hk
    obtain ⟨rfl, htwo⟩ := cons.inj hts
    obtain ⟨rfl, -⟩ := cons.inj htwo
    have hnot : ∀ c ∈ [ret, .node q params], n ∉ c.preorder := fun c hc hnc =>
      hnameless _ (mem_map_of_mem (f := Rose.map p.arena.label) hc) _
        (Rose.mem_preorder_map hnc) hident
    rcases mem_append.1 (show c ∈ [ret, .node q params] ++ [.node b body] from hc) with hc | hc
    · exact absurd hnc (hnot c hc)
    · rwa [← mem_singleton.1 hc]
  obtain ⟨before, t, after, _, s₃, _, _, rfl, hnt, hstatement, hbefore, hout⟩ :=
    exists_statement hbody hkb hident hnb hlines
  obtain ⟨s', u, hwrites, hu⟩ :=
    exists_writes hw hk hident (hbody.of_mem (by simp)) hstatement hnt hout
  exact ⟨s', u, ⟨pre, _, post, front, s₀, hsplit, hfront, .body hk hnames hbefore hwrites⟩, hu⟩

end Functions

namespace Emit.JavaScript

variable {ctx : Context} {arena : Arena} {options : Options} {scopes scopes' : ScopeStack}
  {root : NodeId} {u : Rose NodeId}

theorem WritesIn.shows {functions : String} (h : WritesIn ctx arena options root scopes u)
    (hscript : lines ctx arena options 1 (Context.slotScopes ctx.slots)
      (arena.shape root).children = .ok (functions, scopes')) :
    ∃ text, expression ctx options scopes (labelled arena u) = .ok text ∧ Shows functions text := by
  obtain ⟨pre, item, post, front, s₀, hsplit, hfront, hwrites⟩ := h
  rw [hsplit] at hscript
  obtain ⟨out, s₁, hout, hshows⟩ := lines_split hfront hscript
  obtain ⟨text, htext, hpart⟩ := hwrites.shows hout
  exact ⟨text, htext, hshows text hpart⟩

end Emit.JavaScript

/-! ### References on which a walk and a script agree -/

/-- **The last declaration of the name in front of the node `n` of the function `f` is the one that
is visible there.** If the function has none in front of the node, then the name is not that of
what a function returns, and if it is that of a slot, then the slot is the last that declares it in
front of the function. -/
def Arena.lexicalAt (a : Arena) (slots : Slots) (root f n : NodeId) (name : String) : Bool :=
  match a.lastDeclaring name (a.before f n), slots.find? name with
  | some d, _ => a.visibleAt n d
  | none, none => name != returnName
  | none, some slot => name != returnName &&
      (a.lastDeclaring name (a.childrenBefore root f)).all (· == slot.decl)

namespace ScopeWalk

variable {a : Arena} {slots : Slots} {root f n : NodeId} {name : String} {l : List NodeId}

theorem lastDeclaring_filter {q : NodeId → Bool}
    (h : (a.lastDeclaring name l).all q = true) :
    a.lastDeclaring name (l.filter q) = a.lastDeclaring name l := by
  unfold lastDeclaring at h ⊢
  rw [filter_filter, filter_congr fun x _ => Bool.and_comm (a.declares name x) (q x),
    ← filter_filter]
  generalize l.filter (a.declares name) = declaring at h ⊢
  rcases eq_nil_or_concat declaring with rfl | ⟨front, d, rfl⟩
  · rfl
  · rw [concat_eq_append] at h ⊢
    rw [getLast?_concat] at h
    have hd : q d = true := h
    rw [filter_append, filter_singleton, hd, cond_true, getLast?_concat,
      getLast?_concat]

theorem walkedNames_eq_writtenNames
    (hfiled : Collect.Filed a (a.children root) slots)
    (h : a.lexicalAt slots root f n name = true) :
    walkedNames (Context.slotScopes slots).names a root f n name =
      writtenNames (Context.slotScopes slots).names a root f n name := by
  have hbound := Context.names_slotScopes hfiled.nodup name
  have hvisible : (a.lastDeclaring name (a.before f n)).all (a.visibleAt n) = true := by
    unfold lexicalAt at h
    cases hlast : a.lastDeclaring name (a.before f n) with
    | none => rfl
    | some d =>
      rw [hlast] at h
      exact h
  unfold walkedNames writtenNames Names.see
  unfold Names.declare
  simp only
  rw [lastDeclaring_filter hvisible]
  cases hlast : a.lastDeclaring name (a.before f n) with
  | some d => rfl
  | none =>
    -- no declaration in the function, so that only those at the top count
    unfold lexicalAt at h
    rw [hlast] at h
    simp only [Option.elim_none, Names.inFunction, Names.otherwise]
    cases hfind : slots.find? name with
    | none =>
      rw [hfind] at h hbound
      rw [if_neg (bne_iff_ne.1 h), hbound]
      rfl
    | some slot =>
      rw [hfind] at h hbound
      obtain ⟨hname, htop⟩ := Bool.and_eq_true_iff.1 h
      rw [if_neg (bne_iff_ne.1 hname), hbound]
      cases hdecl : a.lastDeclaring name (a.childrenBefore root f) with
      | none => rfl
      | some d =>
        rw [hdecl] at htop
        obtain rfl : d = slot.decl := beq_iff_eq.1 htop
        exact hfiled.types _ (Slots.mem_all_of_find? hfind)

end ScopeWalk

namespace Program

/-- A scope walk through a program that notes what it shows, with the slots bound at first. -/
def noteScopes (p : Program) (root : NodeId) : EStateM.Result Error (View Notes) Unit :=
  walkScopes (Swizzle.depthLimit p.arena) noteScope root
    { arena := p.arena, context := p.context.resetScopes, notes := [] }

/-- The nodes that the walk shows, each with the context in which it shows it. -/
def notes (p : Program) (root : NodeId) : Notes := noted (p.noteScopes root)

end Program

section Shown

open Emit.JavaScript

variable {p : Program} {root f n : NodeId} {name : String} {options : Emit.Options}
  {scopes : ScopeStack} {u : Rose NodeId} {ctx : Context}

theorem compile_parsed {source filename : String}
    (h : compile source { filename, lowerSwizzles := false, passes := [] } = .ok p) :
    ∃ root, Parsed p root ∧ Outlined p root := by
  obtain ⟨root, houtlined⟩ := compile_outlined h
  obtain ⟨p₀, root', -, hp, ⟨-, rfl⟩ | ⟨hlowers, -⟩⟩ := Swizzle.compile_cases h
  swap
  · cases hlowers
  cases houtlined.root?.symm.trans hp.root?
  exact ⟨root, hp, houtlined⟩

theorem exists_note (hp : Parsed p root) (hf : f ∈ p.arena.children root)
    (hn : n ∈ p.arena.preorder f) {v : View Notes} (h : p.noteScopes root = .ok () v) :
    ∃ ctx, (n, ctx) ∈ p.notes root := by
  have hends := walkScopes_glimpsed
    (v := { arena := p.arena, context := p.context.resetScopes, notes := [] })
    hp.wellFormed hp.lt_size (Swizzle.size_le_depthLimit p.arena) rfl .top
  obtain ⟨-, -, hnodes, -⟩ := hends.of_eq_ok h
  obtain ⟨ss, hs⟩ := exists_shape_of_child hp.wellFormed hp.lt_size hf
  have hmem : n ∈ p.arena.preorder root := by
    have hroot := spans_children hp.wellFormed hp.lt_size
    rw [show p.arena.preorder f = _ from (hroot.of_mem hs).preorder_eq hp.wellFormed] at hn
    rw [show p.arena.preorder root = _ from hroot.preorder_eq hp.wellFormed]
    exact Rose.mem_preorder_of_mem hs hn
  unfold Program.notes
  rw [h]
  rw [← hnodes] at hmem
  obtain ⟨note, hnote, rfl⟩ := mem_map.1 hmem
  exact ⟨note.2, hnote⟩

/-- **What a walk and a script show at a reference**, from the declarations in front of it. -/
theorem shown_agree_iff (hp : Parsed p root) (hf : f ∈ p.arena.children root)
    (hk : p.arena.kind f = .function) (hn : n ∈ p.arena.preorder f)
    (hrefers : p.arena.Refers n name) (houtlined : Outlined p root)
    (hwrites : WritesIn p.context p.arena options root scopes u) (hu : n ∈ u.preorder)
    (hnote : (n, ctx) ∈ p.notes root) :
    ctx.names name = walkedNames p.context.resetScopes.names p.arena root f n name ∧
      p.context.types.agree (scopes.names name)
        (writtenNames p.context.resetScopes.names p.arena root f n name) = true ∧
      (p.context.types.agree (ctx.names name) (scopes.names name) = true ↔
        p.context.types.agree (walkedNames p.context.resetScopes.names p.arena root f n name)
          (writtenNames p.context.resetScopes.names p.arena root f n name) = true) := by
  have hwalked := noted_names hp (Swizzle.size_le_depthLimit p.arena) hf hk hrefers hn hnote
  have hwritten := houtlined.written_names hf hk hn hwrites hu name
  refine ⟨hwalked, hwritten, ?_⟩
  rw [hwalked]
  exact ⟨fun h => TypeTable.agree_trans h hwritten,
    fun h => TypeTable.agree_trans h (TypeTable.agree_symm hwritten)⟩

/-- The types that a walk and a script show for the name at the node `n` of the function `f`, if
the node refers to the name, the walk comes to it and there is a script. -/
def Program.shownTypes (p : Program) (options : Emit.Options) (f n : NodeId) (name : String) :
    Option (Option Ty × Option Ty) :=
  p.arena.root?.bind fun root =>
    if f ∈ p.arena.children root ∧ p.arena.kind f = .function ∧ n ∈ p.arena.preorder f ∧
        p.arena.Refers n name ∧ n ∈ (p.notes root).map Prod.fst ∧
        (Emit.Registry.builtin.generate p "js" options).isOk = true then
      some (walkedNames p.context.resetScopes.names p.arena root f n name,
        writtenNames p.context.resetScopes.names p.arena root f n name)
    else none

theorem Program.shownTypes_eq_some {walked written : Option Ty}
    (h : p.shownTypes options f n name = some (walked, written)) :
    ∃ root g ctx, p.arena.root? = some root ∧ f ∈ p.arena.children root ∧
      p.arena.kind f = .function ∧ n ∈ p.arena.preorder f ∧ p.arena.Refers n name ∧
      (n, ctx) ∈ p.notes root ∧ Emit.Registry.builtin.generate p "js" options = .ok g ∧
      walkedNames p.context.resetScopes.names p.arena root f n name = walked ∧
      writtenNames p.context.resetScopes.names p.arena root f n name = written := by
  obtain ⟨root, hroot, h⟩ := Option.bind_eq_some_iff.1 h
  split at h
  swap
  · cases h
  next hall =>
  obtain ⟨hf, hk, hn, hrefers, hnoted, hok⟩ := hall
  obtain ⟨note, hnote, rfl⟩ := mem_map.1 hnoted
  obtain ⟨hwalked, hwritten⟩ := Prod.mk.inj (Option.some.inj h)
  cases hg : Emit.Registry.builtin.generate p "js" options with
  | error e =>
    rw [hg] at hok
    cases hok
  | ok g => exact ⟨root, g, note.2, hroot, hf, hk, hn, hrefers, hnote, rfl, hwalked, hwritten⟩

/-- **When a walk and a script agree on a reference.** If a text compiles without lowering and has
a script, then of every reference in a function

* the script writes it, and a walk that succeeds shows it;
* the walk shows for its name the last declaration in front of it, wherever that stands, and the
  script the last one that is visible there;
* so both show no type or types of one name if and only if these two declarations agree, and
  they do if the last declaration is the visible one. -/
theorem references_agree_iff {source filename : String} {p : Program} {options : Emit.Options}
    {g : Emit.Generated}
    (h : compile source { filename, lowerSwizzles := false, passes := [] } = .ok p)
    (hg : Emit.Registry.builtin.generate p "js" options = .ok g) :
    ∃ root, p.arena.root? = some root ∧
      ∀ f ∈ p.arena.children root, p.arena.kind f = .function →
      ∀ n ∈ p.arena.preorder f, ∀ name, p.arena.Refers n name →
        (∃ s u, WritesIn p.context p.arena options root s u ∧ n ∈ u.preorder) ∧
        (∀ v, p.noteScopes root = .ok () v → ∃ ctx, (n, ctx) ∈ p.notes root) ∧
        ∀ s u, WritesIn p.context p.arena options root s u → n ∈ u.preorder →
          (∃ text, expression p.context options s (labelled p.arena u) = .ok text ∧
            Shows g.text text) ∧
          ∀ ctx, (n, ctx) ∈ p.notes root →
            ctx.names name = walkedNames p.context.resetScopes.names p.arena root f n name ∧
            p.context.types.agree (s.names name)
              (writtenNames p.context.resetScopes.names p.arena root f n name) = true ∧
            (p.context.types.agree (ctx.names name) (s.names name) = true ↔
              p.context.types.agree
                (walkedNames p.context.resetScopes.names p.arena root f n name)
                (writtenNames p.context.resetScopes.names p.arena root f n name) = true) ∧
            (p.arena.lexicalAt p.context.slots root f n name = true →
              p.context.types.agree (ctx.names name) (s.names name) = true) := by
  obtain ⟨root, hp, houtlined⟩ := compile_parsed h
  obtain ⟨functions, s₁, hscript, hshows⟩ := program_eq_ok (Emit.generate_js_program hp.root? hg)
  refine ⟨root, hp.root?, fun f hf hk n hn name hrefers => ⟨?_, ?_, ?_⟩⟩
  · exact houtlined.exists_writesIn hf hk hn hp hrefers.kind hscript
  · exact fun v hv => exists_note hp hf hn hv
  intro s u hwrites hu
  obtain ⟨text, htext, hpart⟩ := hwrites.shows hscript
  refine ⟨⟨text, htext, hshows text hpart⟩, fun ctx hnote => ?_⟩
  obtain ⟨hwalked, hwritten, hiff⟩ :=
    shown_agree_iff hp hf hk hn hrefers houtlined hwrites hu hnote
  refine ⟨hwalked, hwritten, hiff, fun hlexical => hiff.2 ?_⟩
  -- the last declaration in front is the one that is visible
  have heq : walkedNames p.context.resetScopes.names p.arena root f n name =
      writtenNames p.context.resetScopes.names p.arena root f n name :=
    walkedNames_eq_writtenNames houtlined.filed hlexical
  rw [heq]
  exact TypeTable.agree_trans (TypeTable.agree_symm hwritten) hwritten

/-- A text in which a name is declared at the top, again in a function, and then assigned to in a
block of that function. -/
def redeclaredText : String :=
  "float b; void main() \x7b vec2 b = vec2(1.0, 2.0); \x7b float c = 2.0; b = vec2(c, c); \x7d \x7d"

theorem references_agree_redeclaredText : ∃ p g root s u ctx,
    compile redeclaredText { filename := "", lowerSwizzles := false, passes := [] } = .ok p ∧
      Emit.Registry.builtin.generate p "js" {} = .ok g ∧ p.arena.root? = some root ∧
      WritesIn p.context p.arena {} root s u ∧ 19 ∈ u.preorder ∧ (19, ctx) ∈ p.notes root ∧
      ctx.names "b" = some (.array (.named "float") 2 (some "vec2")) ∧
      p.context.types.agree (ctx.names "b") (s.names "b") = true := by
  have hcheck : (compile redeclaredText
      { filename := "", lowerSwizzles := false, passes := [] }).toOption.bind
        (fun p => p.shownTypes {} 3 19 "b") =
      some (some (.array (.named "float") 2 (some "vec2")),
        some (.array (.named "float") 2 (some "vec2"))) := by
    decide +kernel
  obtain ⟨p, hp, hshown⟩ := Option.bind_eq_some_iff.1 hcheck
  have hcompile := eq_ok_of_toOption hp
  obtain ⟨root, g, ctx, hroot, hf, hk, hn, hrefers, hnote, hg, hwalked, hwritten⟩ :=
    Program.shownTypes_eq_some hshown
  obtain ⟨root', hroot', hall⟩ := references_agree_iff hcompile hg
  cases hroot.symm.trans hroot'
  obtain ⟨⟨s, u, hwrites, hu⟩, -, hshows⟩ := hall 3 hf hk 19 hn "b" hrefers
  obtain ⟨hnames, hscript, hiff, -⟩ := (hshows s u hwrites hu).2 ctx hnote
  refine ⟨p, g, root, s, u, ctx, hcompile, hg, hroot, hwrites, hu, hnote, hnames.trans hwalked,
    hiff.2 ?_⟩
  rw [hwritten] at hscript
  rw [hwalked, hwritten]
  exact TypeTable.agree_trans (TypeTable.agree_symm hscript) hscript

/-- A text in which a block declares the name of an output, which is assigned to behind it. -/
def outlivedText : String :=
  "out vec2 a; void main() \x7b \x7b float a; \x7d a = vec2(1.0, 2.0); \x7d"

/-- **A walk and a script do not agree on all references.** Behind the block the walk still shows
what is declared in it, and the script shows the output. -/
theorem declaration_outlives_block : ∃ p g root f n s u ctx,
    compile outlivedText { filename := "", lowerSwizzles := false, passes := [] } = .ok p ∧
      Emit.Registry.builtin.generate p "js" {} = .ok g ∧ p.arena.root? = some root ∧
      f ∈ p.arena.children root ∧ p.arena.kind f = .function ∧ n ∈ p.arena.preorder f ∧
      p.arena.Refers n "a" ∧ WritesIn p.context p.arena {} root s u ∧ n ∈ u.preorder ∧
      (n, ctx) ∈ p.notes root ∧ ctx.names "a" = some (.named "float") ∧
      p.context.types.agree (ctx.names "a") (s.names "a") = false := by
  have hcheck : (compile outlivedText
      { filename := "", lowerSwizzles := false, passes := [] }).toOption.bind
        (fun p => p.shownTypes {} 3 11 "a") =
      some (some (.named "float"), some (.array (.named "float") 2 (some "vec2"))) := by
    decide +kernel
  obtain ⟨p, hp, hshown⟩ := Option.bind_eq_some_iff.1 hcheck
  have hcompile := eq_ok_of_toOption hp
  obtain ⟨root, g, ctx, hroot, hf, hk, hn, hrefers, hnote, hg, hwalked, hwritten⟩ :=
    Program.shownTypes_eq_some hshown
  obtain ⟨root', hparsed, houtlined⟩ := compile_parsed hcompile
  cases hroot.symm.trans hparsed.root?
  obtain ⟨functions, s₁, hscript, -⟩ := program_eq_ok (Emit.generate_js_program hroot hg)
  obtain ⟨s, u, hwrites, hu⟩ := houtlined.exists_writesIn hf hk hn hparsed hrefers.kind hscript
  obtain ⟨hnames, -, hiff⟩ :=
    shown_agree_iff hparsed hf hk hn hrefers houtlined hwrites hu hnote
  refine ⟨p, g, root, 3, 11, s, u, ctx, hcompile, hg, hroot, hf, hk, hn, hrefers, hwrites, hu,
    hnote, hnames.trans hwalked, Bool.eq_false_iff.2 fun hagree => ?_⟩
  have htypes := hiff.1 hagree
  rw [hwalked, hwritten, hparsed.types] at htypes
  revert htypes
  decide +kernel

end Shown

end VecLang
