import VecLang.Proofs.Emit.Blocks

/-!
# Names that are declared once

A script may not declare a name twice in a block, nor declare a parameter again in the body of its
function. Whether it does can be told from the program: a block declares the names whose
declarations shadow others.

* `boundNames`: the names that a block of a program declares in the script.
* `distinct_script`: the blocks of a statement, by induction.
* `generate_distinct_iff`: **when a script declares no name twice.**
-/

namespace VecLang.Emit.JavaScript

open Grammar Arena ScopeWalk List

section Definitions

variable (ctx : Context) (a : Arena) (root f : NodeId)

/-- The names among those of the nodes that are bound in the item `f`: those of declarations that
shadow others. -/
def boundAmong (nodes : List NodeId) : List String :=
  (nodes.filter fun d => a.kind d == .varDecl && shadows ctx a root f d).filterMap a.name?

/-- **The names that are bound directly in the block `b`** of the item `f`. -/
def boundNames (b : NodeId) : List String := boundAmong ctx a root f (a.children b)

def parametersOf : List String := (((a.child? f 1).map a.children).getD []).filterMap a.name?

/-- **The names that nodes at the top declare and that are no slots.** -/
def topNames (nodes : List NodeId) : List String :=
  ((nodes.filter (a.kind · == .varDecl)).filterMap a.name?).filter fun name =>
    (ctx.slots.find? name).isNone

end Definitions

section Statements

variable {ctx : Context} {a : Arena} {options : Options} {root f id : NodeId} {types : TypeTable}
  {t : Rose NodeId} {ss : List (Rose NodeId)} {stmts : List Stmt} {nodes nodes' : List NodeId}

theorem boundAmong_append : boundAmong ctx a root f (nodes ++ nodes') =
    boundAmong ctx a root f nodes ++ boundAmong ctx a root f nodes' := by
  unfold boundAmong
  rw [filter_append, filterMap_append]

theorem boundAmong_of_kind (h : a.kind id ≠ .varDecl) : boundAmong ctx a root f [id] = [] := by
  unfold boundAmong
  rw [filter_singleton, beq_eq_false_iff_ne.2 h]
  rfl

theorem boundAmong_of_name {name : String} (hk : a.kind id = .varDecl)
    (hname : a.name? id = some name) :
    boundAmong ctx a root f [id] = if shadows ctx a root f id then [name] else [] := by
  unfold boundAmong
  rw [filter_singleton, hk]
  cases shadows ctx a root f id
  · rfl
  · exact filterMap_cons_some hname

theorem topNames_of_kind (h : a.kind id ≠ .varDecl) :
    topNames ctx a (id :: nodes) = topNames ctx a nodes := by
  unfold topNames
  rw [filter_cons_of_neg (by simpa using h)]

theorem topNames_of_name {name : String} (hk : a.kind id = .varDecl)
    (hname : a.name? id = some name) :
    topNames ctx a (id :: nodes) =
      (if (ctx.slots.find? name).isNone then [name] else []) ++ topNames ctx a nodes := by
  unfold topNames
  rw [filter_cons_of_pos (by simp [hk]), filterMap_cons_some hname, filter_cons]
  cases (ctx.slots.find? name).isNone <;> rfl

theorem lets_script (hin : StatementIn types a f t)
    (h : script ctx a options root f t = .ok stmts) :
    stmts.flatMap Stmt.lets = boundAmong ctx a root f [t.entry] := by
  obtain ⟨id, ss⟩ := t
  rw [Rose.entry]
  by_cases hdecl : a.kind id = .varDecl
  · rw [script_varDecl hdecl] at h
    obtain ⟨name, hname, hcases⟩ := declarationScript_cases h
    rw [boundAmong_of_name hdecl hname]
    rcases hcases with ⟨hs, value, rfl⟩ | ⟨hs, rfl | ⟨text, rfl⟩⟩ <;> rw [hs] <;> rfl
  rw [boundAmong_of_kind hdecl]
  by_cases hblock : a.kind id = .block
  · obtain ⟨body, -, rfl⟩ := script_block hblock h
    rfl
  by_cases hcond : a.kind id = .conditional
  · obtain ⟨_, _, _, _, _, -, -, ⟨-, rfl⟩ | ⟨_, _, -, -, rfl⟩⟩ :=
      script_conditional hin.toInterior hcond h <;> rfl
  · rcases script_plain hin ⟨hdecl, hblock, hcond⟩ h with rfl | ⟨text, rfl⟩ <;> rfl

theorem lets_scripts (hss : ∀ t ∈ ss, StatementIn types a f t)
    (h : scripts ctx a options root f ss = .ok stmts) :
    stmts.flatMap Stmt.lets = boundAmong ctx a root f (ss.map Rose.entry) := by
  induction ss generalizing stmts with
  | nil =>
    cases h
    rfl
  | cons t ts ih =>
    obtain ⟨ht, hts⟩ := forall_mem_cons.1 hss
    rw [scripts] at h
    obtain ⟨first, hfirst, h⟩ := Except.bind_eq_ok.1 h
    obtain ⟨rest, hrest, h⟩ := Except.bind_eq_ok.1 h
    cases h
    rw [flatMap_append, lets_script ht hfirst, ih hts hrest, ← boundAmong_append]
    rfl

/-- The blocks among the nodes bind no name twice. -/
def BindsOnce (ctx : Context) (a : Arena) (root f : NodeId) (nodes : List NodeId) : Prop :=
  ∀ b ∈ nodes, a.kind b = .block → (boundNames ctx a root f b).Nodup

theorem bindsOnce_nil : BindsOnce ctx a root f [] := fun _ hm => by cases hm

theorem bindsOnce_cons : BindsOnce ctx a root f (id :: nodes) ↔
    (a.kind id = .block → (boundNames ctx a root f id).Nodup) ∧ BindsOnce ctx a root f nodes :=
  forall_mem_cons

theorem bindsOnce_append : BindsOnce ctx a root f (nodes ++ nodes') ↔
    BindsOnce ctx a root f nodes ∧ BindsOnce ctx a root f nodes' :=
  forall_mem_append

theorem bindsOnce_flatMap : BindsOnce ctx a root f (ss.flatMap Rose.preorder) ↔
    ∀ t ∈ ss, BindsOnce ctx a root f t.preorder :=
  forall_mem_flatMap

theorem bindsOnce_of_inert (h : Inert (t.map a.label)) : BindsOnce ctx a root f t.preorder := by
  exact fun b hb hkb => absurd hkb (h _ (Rose.mem_preorder_map hb)).2.2

theorem bindsOnce_of_plain (hin : StatementIn types a f (.node id ss))
    (hnot : a.kind id ≠ .block ∧ a.kind id ≠ .conditional) :
    BindsOnce ctx a root f (Rose.node id ss).preorder := by
  have hformed := hin.formed
  rw [Rose.map_node] at hformed
  have hinner : a.kind id ≠ .varDecl → ∀ t ∈ ss, (a.kind t.entry).isInner = true := by
    intro hdecl t ht
    have hmem := mem_map_of_mem (f := Tree.kind)
      (mem_map_of_mem (f := Rose.map a.label) ht)
    rw [Tree.kind_map] at hmem
    by_cases hret : a.kind id = .ret
    · have hexpr := (hformed.expression_of_mem (by simp [show (a.label id).kind = .ret from hret])
        (mem_map_of_mem ht)).2
      rw [Tree.kind_map] at hexpr
      exact Kind.isInner_of_isExpression hexpr
    · refine Kind.isInner_of_admits ?_ hformed.root.admits _ hmem
      have hstatement : (a.kind id).isStatement = true := hin.statement
      have hfunction := (hin.kinds id (by simp)).1
      change (a.kind id).isInner = true
      cases hk : a.kind id <;> simp_all [Kind.isStatement, Kind.isInner]
  rw [Rose.preorder_node, bindsOnce_cons, bindsOnce_flatMap]
  refine ⟨fun hk => absurd hk hnot.1, fun t ht => bindsOnce_of_inert ?_⟩
  by_cases hdecl : a.kind id = .varDecl
  · exact declaration_inert hin.formed hdecl ht
  · exact (hin.toInterior.of_mem ht).formed.inert_map (hinner hdecl t ht)

/-- The blocks of statements declare no name twice. -/
def AllDistinct (stmts : List Stmt) : Prop := ∀ sc ∈ Stmt.scopesAll stmts, sc.Distinct

theorem allDistinct_append {us : List Stmt} :
    AllDistinct (stmts ++ us) ↔ AllDistinct stmts ∧ AllDistinct us := by
  unfold AllDistinct
  rw [Stmt.scopesAll_append, forall_mem_append]

theorem allDistinct_block {body : List Stmt} :
    AllDistinct [.block body] ↔ (body.flatMap Stmt.lets).Nodup ∧ AllDistinct body := by
  unfold AllDistinct
  rw [Stmt.scopesAll, Stmt.scopesAll, append_nil, Stmt.scopes, forall_mem_cons,
    distinct_iff_nodup]

theorem allDistinct_branch {test : String} {body : List Stmt} :
    AllDistinct [.branch test body] ↔ AllDistinct [.block body] := Iff.rfl

theorem allDistinct_choice {test : String} {yes no : List Stmt} :
    AllDistinct [.choice test yes no] ↔ AllDistinct [.block yes] ∧ AllDistinct [.block no] := by
  unfold AllDistinct
  simp only [Stmt.scopesAll, Stmt.scopes, append_nil]
  rw [forall_mem_append]

theorem allDistinct_scripts
    (hss : ∀ t ∈ ss, ∀ stmts, script ctx a options root f t = .ok stmts →
      (AllDistinct stmts ↔ BindsOnce ctx a root f t.preorder))
    (h : scripts ctx a options root f ss = .ok stmts) :
    AllDistinct stmts ↔ BindsOnce ctx a root f (ss.flatMap Rose.preorder) := by
  induction ss generalizing stmts with
  | nil =>
    cases h
    exact ⟨fun _ _ hm => (by cases hm), fun _ _ hm => by cases hm⟩
  | cons t ts ih =>
    obtain ⟨ht, hts⟩ := forall_mem_cons.1 hss
    rw [scripts] at h
    obtain ⟨first, hfirst, h⟩ := Except.bind_eq_ok.1 h
    obtain ⟨rest, hrest, h⟩ := Except.bind_eq_ok.1 h
    cases h
    rw [allDistinct_append, flatMap_cons, bindsOnce_append, ht first hfirst, ih hts hrest]

theorem allDistinct_plain (hin : StatementIn types a f (.node id ss))
    (hnot : a.kind id ≠ .block ∧ a.kind id ≠ .conditional)
    (h : script ctx a options root f (.node id ss) = .ok stmts) : AllDistinct stmts := by
  have hnone : Stmt.scopesAll stmts = [] := by
    by_cases hdecl : a.kind id = .varDecl
    · rw [script_varDecl hdecl] at h
      obtain ⟨name, -, ⟨-, value, rfl⟩ | ⟨-, rfl | ⟨text, rfl⟩⟩⟩ :=
        declarationScript_cases h <;> rfl
    · rcases script_plain hin ⟨hdecl, hnot⟩ h with rfl | ⟨text, rfl⟩ <;> rfl
  unfold AllDistinct
  rw [hnone]
  exact fun _ hm => by cases hm

/-- The statement behind `else` is a block, or is put into one. -/
theorem allDistinct_governs {no : Rose NodeId} (hno : StatementIn types a f no)
    (hk : a.kind no.entry = .block ∨ a.kind no.entry = .conditional)
    (h : script ctx a options root f no = .ok stmts) :
    AllDistinct [.block (Stmt.governs stmts)] ↔ AllDistinct stmts := by
  rcases hk with hk | hk
  · obtain ⟨id, ss⟩ := no
    obtain ⟨body, -, rfl⟩ := script_block hk h
    rfl
  · rw [governs_of_conditional hk h, allDistinct_block, lets_script hno h,
      boundAmong_of_kind (by simp [hk])]
    simp

/-- **The blocks of a statement** declare no name twice exactly if those of the program bind none
twice. -/
theorem distinct_script (hin : StatementIn types a f t)
    (h : script ctx a options root f t = .ok stmts) :
    AllDistinct stmts ↔ BindsOnce ctx a root f t.preorder := by
  induction t using Rose.induction generalizing stmts with
  | node id ss ih =>
    by_cases hblock : a.kind id = .block
    · obtain ⟨body, hbody, rfl⟩ := script_block hblock h
      have hss := fun t ht => StatementIn.of_block hin.toInterior hblock ht (t := t)
      have hchildren : boundNames ctx a root f id =
          boundAmong ctx a root f (ss.map Rose.entry) := by
        unfold boundNames
        rw [hin.spans.children_eq]
      rw [allDistinct_block, lets_scripts hss hbody, Rose.preorder_node, bindsOnce_cons, hchildren,
        allDistinct_scripts (fun t ht _ => ih t ht (hss t ht)) hbody]
      simp [hblock]
    by_cases hcond : a.kind id = .conditional
    · obtain ⟨cond, yes, rest, test, body, rfl, hyes, hrest⟩ :=
        script_conditional hin.toInterior hcond h
      obtain ⟨hkcond, -, hkrest⟩ := ScopeWalk.conditional_kinds hin.formed hcond
      have hfirst : BindsOnce ctx a root f cond.preorder :=
        bindsOnce_of_inert ((hin.toInterior.of_mem (by simp)).formed.inert_map
          (Kind.isInner_of_isExpression hkcond))
      have hyesIff := ih yes (by simp) (hin.governed hcond (by simp)) hyes
      rw [Rose.preorder_node, bindsOnce_cons, flatMap_cons, flatMap_cons,
        bindsOnce_append, bindsOnce_append, ← hyesIff]
      rcases hrest with ⟨rfl, rfl⟩ | ⟨no, other, rfl, hother, rfl⟩
      · rw [allDistinct_branch]
        simp [hcond, hfirst, bindsOnce_nil]
      · have hno := hin.governed hcond (t := no) (by simp)
        rw [allDistinct_choice, allDistinct_governs hno (hkrest no (by simp)) hother,
          ih no (by simp) hno hother]
        simp [hcond, hfirst]
    · exact iff_of_true (allDistinct_plain hin ⟨hblock, hcond⟩ h)
        (bindsOnce_of_plain hin ⟨hblock, hcond⟩)

theorem lets_closureScope : (closureScope options ctx stmts).lets =
    "__outs" :: (ctx.slots.inputs.keys ++ ctx.slots.uniforms.keys ++ stmts.flatMap Stmt.lets) ++
      ["__$func"] := by
  have hentry : [Stmt.binding "__$func" (entryText options ctx.slots.inputs.keys)].flatMap
      Stmt.lets = ["__$func"] := rfl
  unfold closureScope closureNames closureBody
  rw [flatMap_append, flatMap_append, lets_uniformScripts, hentry]
  simp

/-- **What the closure declares** are different names if none of them is one of the closure's own
and no name but those of slots is declared twice at the top. -/
theorem distinct_closureScope (hnodup : (ctx.slots.all.map Prod.fst).Nodup)
    (hnew : ∀ name ∈ stmts.flatMap Stmt.lets, ctx.slots.find? name = none) :
    (closureScope options ctx stmts).Distinct ↔ (stmts.flatMap Stmt.lets).Nodup ∧
      ∀ name ∈ ctx.slots.inputs.keys ++ ctx.slots.uniforms.keys ++ stmts.flatMap Stmt.lets,
        name ≠ "__outs" ∧ name ≠ "__$func" := by
  have hclosure : (closureScope options ctx stmts).lets = _ := lets_closureScope
  generalize stmts.flatMap Stmt.lets = names at hnew hclosure ⊢
  generalize ctx.slots = slots at hnodup hnew hclosure ⊢
  have hslots : (slots.inputs.keys ++ slots.uniforms.keys).Nodup := by
    refine hnodup.sublist ?_
    unfold Slots.all Table.keys
    rw [map_append, map_append, append_assoc]
    exact (List.Sublist.refl _).append (sublist_append_right _ _)
  have hdisjoint : ∀ name ∈ slots.inputs.keys ++ slots.uniforms.keys, name ∉ names := by
    intro name hname hm
    have hmem : ∃ slot, (name, slot) ∈ slots.all := by
      rcases mem_append.1 hname with hname | hname <;>
        obtain ⟨⟨_, slot⟩, he, rfl⟩ := mem_map.1 hname
      · exact ⟨slot, Slots.mem_all.2 ⟨.input, he⟩⟩
      · exact ⟨slot, Slots.mem_all.2 ⟨.uniform, he⟩⟩
    obtain ⟨slot, hslot⟩ := hmem
    cases (Slots.find?_of_mem hnodup hslot).symm.trans (hnew name hm)
  have hrest : (slots.inputs.keys ++ slots.uniforms.keys ++ names).Nodup ↔ names.Nodup := by
    rw [nodup_append']
    exact ⟨fun hall => hall.2.1, fun hnames => ⟨hslots, hnames, hdisjoint⟩⟩
  have hperm := (perm_append_singleton "__$func"
    ("__outs" :: (slots.inputs.keys ++ slots.uniforms.keys ++ names))).nodup_iff
  rw [show (closureScope options ctx stmts).Distinct ↔ (closureScope options ctx stmts).lets.Nodup
    from distinct_iff_nodup, hclosure, hperm, nodup_cons, nodup_cons, hrest]
  constructor
  · rintro ⟨hfunc, houts, hnames⟩
    refine ⟨hnames, fun name hname => ⟨?_, ?_⟩⟩
    · rintro rfl
      exact houts hname
    · rintro rfl
      exact hfunc (.tail _ hname)
  · rintro ⟨hnames, hother⟩
    refine ⟨fun hm => ?_, fun hm => (hother _ hm).1 rfl, hnames⟩
    rcases mem_cons.1 hm with he | hm
    · exact absurd he (by decide)
    · exact (hother _ hm).2 rfl

end Statements

end VecLang.Emit.JavaScript

namespace VecLang

open Grammar Arena Emit Emit.JavaScript ScopeWalk

section Items

variable {p : Program} {root f : NodeId} {options : Options} {ss ts : List (Rose NodeId)}
  {stmts : List Stmt} (h : Outlined p root)

/-- **A function binds names once**: no block of it binds a name twice, and its body binds no
parameter. -/
structure BindsNamesOnce (p : Program) (root f : NodeId) : Prop where
  blocks : ∀ b ∈ p.arena.preorder f, p.arena.kind b = .block →
    (boundNames p.context p.arena root f b).Nodup
  body : ∀ b ∈ p.arena.children f, p.arena.kind b = .block →
    ∀ name ∈ boundNames p.context p.arena root f b, name ∉ parametersOf p.arena f

instance (p : Program) (root f : NodeId) : Decidable (BindsNamesOnce p root f) :=
  decidable_of_iff ((∀ b ∈ p.arena.preorder f, p.arena.kind b = .block →
      (boundNames p.context p.arena root f b).Nodup) ∧
    ∀ b ∈ p.arena.children f, p.arena.kind b = .block →
      ∀ name ∈ boundNames p.context p.arena root f b, name ∉ parametersOf p.arena f)
    ⟨fun h => ⟨h.1, h.2⟩, fun h => ⟨h.blocks, h.body⟩⟩

include h

theorem Outlined.function_script (hs : .node f ss ∈ (p.arena.shape root).children)
    (hk : p.arena.kind f = .function)
    (hscript : script p.context p.arena options root f (.node f ss) = .ok stmts) :
    ∃ ret q params b body name inner, ss = [ret, .node q params, .node b body] ∧
      scripts p.context p.arena options root f body = .ok inner ∧
      stmts = [.function name ((params.map Rose.entry).filterMap p.arena.name?) inner] := by
  obtain ⟨ret, q, params, b, body, rfl, -⟩ := h.parts hs hk
  unfold script at hscript
  simp only [hk] at hscript
  obtain ⟨name, -, hscript⟩ := Except.bind_eq_ok.1 hscript
  obtain ⟨names, hnames, hscript⟩ := Except.bind_eq_ok.1 hscript
  obtain ⟨inner, hinner, hscript⟩ := Except.bind_eq_ok.1 hscript
  cases hscript
  cases names_of_mapM hnames
  exact ⟨ret, q, params, b, body, name, inner, rfl, hinner, rfl⟩

theorem Outlined.bindsOnce_iff {ret : Rose NodeId} {q b : NodeId} {params body : List (Rose NodeId)}
    (hs : .node f [ret, .node q params, .node b body] ∈ (p.arena.shape root).children)
    (hk : p.arena.kind f = .function) :
    BindsOnce p.context p.arena root f (p.arena.preorder f) ↔
      (boundNames p.context p.arena root f b).Nodup ∧
        BindsOnce p.context p.arena root f (body.flatMap Rose.preorder) := by
  obtain ⟨_, _, _, _, _, heq, hkq, hkb, hret, hkret, hparams, -⟩ := h.parts hs hk
  cases heq
  have htype : BindsOnce p.context p.arena root f ret.preorder :=
    bindsOnce_of_inert (hret.formed.inert_map (by rw [hkret]; rfl))
  have hlist : BindsOnce p.context p.arena root f (Rose.node q params).preorder := by
    rw [Rose.preorder_node, bindsOnce_cons, bindsOnce_flatMap]
    refine ⟨fun he => (by cases hkq.symm.trans he), fun d hd => ?_⟩
    obtain ⟨hkd, hin⟩ := hparams d hd
    obtain ⟨id, parts⟩ := d
    refine bindsOnce_of_plain ⟨hin, by rw [hkd]; rfl⟩ ?_
    rw [show p.arena.kind id = .varDecl from hkd]
    decide
  have hpreorder : p.arena.preorder f =
      f :: (ret.preorder ++
        ((Rose.node q params).preorder ++ b :: body.flatMap Rose.preorder)) := by
    rw [show p.arena.preorder f = _ from (h.item hs).1.preorder_eq h.wellFormed]
    simp
  rw [hpreorder, bindsOnce_cons, bindsOnce_append, bindsOnce_append, bindsOnce_cons]
  simp only [hk, hkb, htype, hlist, reduceCtorEq, false_implies, true_and, forall_const]

/-- **The blocks of a function.** -/
theorem Outlined.distinct_function (hs : .node f ss ∈ (p.arena.shape root).children)
    (hk : p.arena.kind f = .function)
    (hscript : script p.context p.arena options root f (.node f ss) = .ok stmts) :
    AllDistinct stmts ↔ BindsNamesOnce p root f := by
  obtain ⟨ret, q, params, b, body, name, inner, rfl, hinner, rfl⟩ := h.function_script hs hk hscript
  obtain ⟨_, _, _, _, _, heq, hkq, hkb, -, hkret, -, hbody⟩ := h.parts hs hk
  cases heq
  have hspans := (h.item hs).1
  have hstatements := fun t ht => StatementIn.of_block hbody hkb ht (t := t)
  have hchildren : p.arena.children f = [ret.entry, q, b] := hspans.children_eq
  have hparameters : parametersOf p.arena f = (params.map Rose.entry).filterMap p.arena.name? := by
    unfold parametersOf Arena.child?
    rw [hchildren]
    change (p.arena.children q).filterMap _ = _
    rw [(hspans.of_mem (s := .node q params) (by simp)).children_eq]
  have hbound : boundNames p.context p.arena root f b =
      boundAmong p.context p.arena root f (body.map Rose.entry) := by
    unfold boundNames
    rw [hbody.spans.children_eq]
  have hscopes :
      AllDistinct [.function name ((params.map Rose.entry).filterMap p.arena.name?) inner] ↔
      ({ params := parametersOf p.arena f, lets := boundNames p.context p.arena root f b } :
        Scope).Distinct ∧ BindsOnce p.context p.arena root f (body.flatMap Rose.preorder) := by
    rw [← allDistinct_scripts (fun t ht _ => distinct_script (hstatements t ht)) hinner]
    unfold AllDistinct
    rw [Stmt.scopesAll, Stmt.scopesAll, List.append_nil, Stmt.scopes, List.forall_mem_cons,
      lets_scripts hstatements hinner, hbound, hparameters]
  have hblocks := h.bindsOnce_iff hs hk
  rw [hscopes]
  constructor
  · rintro ⟨⟨hnodup, hparams⟩, hinside⟩
    refine ⟨hblocks.2 ⟨hnodup, hinside⟩, fun c hc hkc => ?_⟩
    rw [hchildren] at hc
    simp only [List.mem_cons, List.not_mem_nil, or_false] at hc
    rcases hc with rfl | rfl | rfl
    · cases hkret.symm.trans hkc
    · cases hkq.symm.trans hkc
    · exact hparams
  · intro honce
    obtain ⟨hnodup, hinside⟩ := hblocks.1 honce.blocks
    exact ⟨⟨hnodup, honce.body b (by rw [hchildren]; simp) hkb⟩, hinside⟩

theorem Outlined.declaration_script (hs : .node f ss ∈ (p.arena.shape root).children)
    (hk : p.arena.kind f = .varDecl)
    (hscript : script p.context p.arena options root f (.node f ss) = .ok stmts) :
    AllDistinct stmts ∧ ∃ name, p.arena.name? f = some name ∧ stmts.flatMap Stmt.lets =
      if (p.context.slots.find? name).isNone then [name] else [] := by
  obtain ⟨hspans, -, hf⟩ := h.item hs
  rw [Rose.entry] at hf
  rw [script_varDecl hk] at hscript
  obtain ⟨name, hname, hcases⟩ := declarationScript_cases hscript
  have hshadows := h.shadows_eq hf hk (hspans.lt_size_of_mem f (by simp))
    (h.visibleBefore_eq_nil hs hk (by simp)) hname
  rw [hshadows] at hcases
  have hnone : ∀ {stmts : List Stmt}, Stmt.scopesAll stmts = [] → AllDistinct stmts := by
    intro stmts he sc hsc
    rw [he] at hsc
    cases hsc
  rcases hcases with ⟨hs, value, rfl⟩ | ⟨hs, rfl | ⟨text, rfl⟩⟩ <;>
    exact ⟨hnone rfl, name, hname, by rw [hs]; rfl⟩

/-- **The items of a program**: what they declare, and their blocks. -/
theorem Outlined.distinct_items (hsub : ts ⊆ (p.arena.shape root).children)
    (hitems : itemScripts p.context p.arena options root ts = .ok stmts) :
    stmts.flatMap Stmt.lets = topNames p.context p.arena (ts.map Rose.entry) ∧
      (AllDistinct stmts ↔ ∀ t ∈ ts, p.arena.kind t.entry = .function →
        BindsNamesOnce p root t.entry) := by
  induction ts generalizing stmts with
  | nil =>
    cases hitems
    exact ⟨rfl, fun _ _ hm => (by cases hm), fun _ _ hm => by cases hm⟩
  | cons t ts ih =>
    rw [itemScripts] at hitems
    obtain ⟨first, hfirst, hitems⟩ := Except.bind_eq_ok.1 hitems
    obtain ⟨rest, hrest, hitems⟩ := Except.bind_eq_ok.1 hitems
    cases hitems
    obtain ⟨ht, hts⟩ := List.cons_subset.1 hsub
    obtain ⟨hlets, hdistinct⟩ := ih hts hrest
    obtain ⟨f, ss⟩ := t
    rw [List.flatMap_append, hlets, allDistinct_append, hdistinct, List.forall_mem_cons,
      List.map_cons]
    rw [Rose.entry] at hfirst ⊢
    rcases h.items f (h.item ht).2.2 with hk | hk
    · obtain ⟨hall, name, hname, hbound⟩ := h.declaration_script ht hk hfirst
      rw [hbound]
      refine ⟨(topNames_of_name hk hname).symm, ?_⟩
      simp [hall, hk]
    · rw [h.distinct_function ht hk hfirst, topNames_of_kind (by simp [hk])]
      obtain ⟨_, _, _, _, _, _, _, -, -, rfl⟩ := h.function_script ht hk hfirst
      exact ⟨rfl, by simp [hk]⟩

omit h

theorem topNames_new {ctx : Context} {a : Arena} {nodes : List NodeId} :
    ∀ name ∈ topNames ctx a nodes, ctx.slots.find? name = none := by
  intro name hname
  exact Option.isNone_iff_eq_none.1 (List.mem_filter.1 hname).2

/-- **When a script declares no name twice.** Whatever program is compiled, with the lowering of
swizzles or without, if it has a script then the script is the text of statements, and no block of
them declares a name twice and no function declares one of its parameters again in its body, exactly
if

* no name but those of slots is declared twice outside of the functions of the program,
* no input, no uniform and no other declaration there has one of the two names of the closure,
* and the functions bind names once: in no block are there two declarations of a name that shadow
  what it refers to, and none in the body of a function that shadows a parameter. -/
theorem generate_distinct_iff {source filename : String} {lowers : Bool} {g : Generated}
    (hcompile : compile source { filename, lowerSwizzles := lowers, passes := [] } = .ok p)
    (hg : Registry.builtin.generate p "js" options = .ok g) :
    ∃ root items, p.arena.root? = some root ∧
      itemScripts p.context p.arena options root (p.arena.shape root).children = .ok items ∧
      g.text = scriptText options p.context items ∧
      ((∀ sc ∈ scriptScopes options p.context items, sc.Distinct) ↔
        (topNames p.context p.arena (p.arena.children root)).Nodup ∧
        (∀ name ∈ p.context.slots.inputs.keys ++ p.context.slots.uniforms.keys ++
            topNames p.context p.arena (p.arena.children root),
          name ≠ "__outs" ∧ name ≠ "__$func") ∧
        ∀ f ∈ p.arena.children root, p.arena.kind f = .function → BindsNamesOnce p root f) := by
  obtain ⟨root, h⟩ := compile_outlined hcompile
  obtain ⟨text, s, hlines, htext⟩ := generate_js_text h.root? hg
  obtain ⟨items, hitems, rfl, -⟩ := h.first_items_scripted (List.append_nil _).symm hlines
  refine ⟨root, items, h.root?, hitems, htext.trans closureText_eq, ?_⟩
  obtain ⟨hlets, hdistinct⟩ := h.distinct_items (List.Subset.refl _) hitems
  have hchildren : (p.arena.shape root).children.map Rose.entry = p.arena.children root :=
    h.spans_root.children_eq.symm
  rw [hchildren] at hlets
  -- the closure binds the slots itself, so that no item does
  have hnew : ∀ name ∈ items.flatMap Stmt.lets, p.context.slots.find? name = none := by
    rw [hlets]
    exact topNames_new
  have hfunctions : AllDistinct items ↔ ∀ f ∈ p.arena.children root, p.arena.kind f = .function →
      BindsNamesOnce p root f := by
    rw [hdistinct, ← hchildren, List.forall_mem_map]
  rw [distinct_scriptScopes, distinct_closureScope h.filed.nodup hnew, hlets, and_assoc]
  exact and_congr_right' (and_congr_right' hfunctions)

/-- A program whose declarations say again what an output and a parameter are, and declare one name
in several blocks. -/
def onceText : String :=
  "out float o; float k; float f(float a) \x7b float a = k; \x7b vec2 a = vec2(a, k); \x7d " ++
    "return a; \x7d void main() \x7b float o = f(k); \x7d"

/-- Whether a program has a script and its functions bind names once. -/
def hasDistinctNames (p : Program) : Bool :=
  (Registry.builtin.generate p "js" {}).toOption.isSome && p.arena.root?.any fun root =>
    decide ((topNames p.context p.arena (p.arena.children root)).Nodup ∧
      (∀ name ∈ p.context.slots.inputs.keys ++ p.context.slots.uniforms.keys ++
          topNames p.context p.arena (p.arena.children root),
        name ≠ "__outs" ∧ name ≠ "__$func") ∧
      ∀ f ∈ p.arena.children root, p.arena.kind f = .function → BindsNamesOnce p root f)

theorem generate_distinct_onceText : ∃ p g items,
    compile onceText { filename := "", lowerSwizzles := true, passes := [] } = .ok p ∧
      Registry.builtin.generate p "js" {} = .ok g ∧ g.text = scriptText {} p.context items ∧
      ∀ sc ∈ scriptScopes {} p.context items, sc.Distinct := by
  have hcheck : (compile onceText
      { filename := "", lowerSwizzles := true, passes := [] }).toOption.any hasDistinctNames =
        true := by
    decide +kernel
  obtain ⟨p, hp, hcheck⟩ := (Option.any_eq_true _ _).1 hcheck
  obtain ⟨hscript, hnames⟩ := Bool.and_eq_true_iff.1 hcheck
  obtain ⟨g, hg⟩ := Option.isSome_iff_exists.1 hscript
  obtain ⟨root, hroot, hnames⟩ := (Option.any_eq_true _ _).1 hnames
  obtain ⟨root', items, hroot', -, htext, hiff⟩ :=
    generate_distinct_iff (eq_ok_of_toOption hp) (eq_ok_of_toOption hg)
  cases hroot.symm.trans hroot'
  exact ⟨p, g, items, eq_ok_of_toOption hp, eq_ok_of_toOption hg, htext,
    hiff.2 (of_decide_eq_true hnames)⟩

def retypedText : String :=
  "float f(float a) \x7b vec2 a = vec2(1.0, 2.0); return a[0]; \x7d void main() \x7b \x7d"

def retypedScript : String :=
  "program = function() \x7b\n  let __outs;\n\n" ++
  "  function f(a) \x7b\n    let a = vec2(1.0000000, 2.0000000);\n    return a[0];\n  \x7d\n\n" ++
  "  function main() \x7b\n  \x7d\n\n" ++
  "  let __$func = function(outs) \x7b\n    __outs = outs;\n    main();\n  \x7d;\n" ++
  "  return \x7b\n    call : __$func,\n    outputs: \x7b\n    \x7d,\n" ++
  "    outputTypes: \x7b\n    \x7d,\n    outputCount: 0\n  \x7d;\n\x7d\n"

/-- The text of the script of a program, and the blocks of its items. -/
def itemScopes (options : Options) (p : Program) : Option (String × List Scope) := do
  let root ← p.arena.root?
  let g ← (Registry.builtin.generate p "js" options).toOption
  let items ← (itemScripts p.context p.arena options root (p.arena.shape root).children).toOption
  return (g.text, Stmt.scopesAll items)

/-- **A parameter that is declared again with another type is declared twice in the script.** -/
theorem parameter_declared_twice : ∃ p g root items,
    compile retypedText { filename := "", lowerSwizzles := true, passes := [] } = .ok p ∧
      Registry.builtin.generate p "js" { includePrelude := false } = .ok g ∧
      p.arena.root? = some root ∧
      itemScripts p.context p.arena { includePrelude := false } root (p.arena.shape root).children =
        .ok items ∧
      g.text = retypedScript ∧
      Stmt.scopesAll items = [{ params := ["a"], lets := ["a"] }, {}] ∧
      ¬ ∀ sc ∈ scriptScopes { includePrelude := false } p.context items, sc.Distinct := by
  have hcheck : (compile retypedText
      { filename := "", lowerSwizzles := true, passes := [] }).toOption.bind
        (itemScopes { includePrelude := false }) =
          some (retypedScript, [{ params := ["a"], lets := ["a"] }, {}]) := by
    decide +kernel
  obtain ⟨p, hp, hcheck⟩ := Option.bind_eq_some_iff.1 hcheck
  obtain ⟨root, hroot, hcheck⟩ := Option.bind_eq_some_iff.1 hcheck
  obtain ⟨g, hg, hcheck⟩ := Option.bind_eq_some_iff.1 hcheck
  obtain ⟨items, hitems, hcheck⟩ := Option.bind_eq_some_iff.1 hcheck
  obtain ⟨htext, hscopes⟩ := Prod.mk.inj (Option.some.inj hcheck)
  refine ⟨p, g, root, items, eq_ok_of_toOption hp, eq_ok_of_toOption hg, hroot,
    eq_ok_of_toOption hitems, htext, hscopes, ?_⟩
  rw [distinct_scriptScopes, hscopes]
  exact fun hall => absurd hall.2 (by decide)

end Items

end VecLang
