import VecLang.Proofs.Grammar.Expressions
import VecLang.Proofs.Traversal.Observe

/-!
# The declaration that a walk shows

A scope walk opens a scope for each function and none for the blocks in it, and it binds
what a declaration declares before it goes into the initial value. So what a name in a
function is bound to is said by the nodes in front of it alone: the last declaration of
the name among them, whatever blocks these stand in.

* `Names.declare`: the names once a list of nodes has been gone through.
* `Body.after_eq`, `Body.inside_eq`: a walk comes to these names.
* `walkedNames`, `noted_names`: the names that a walk through a program shows at a
  reference.
-/

namespace VecLang

open List

/-! ### Declarations among nodes -/

namespace Arena

def declares (a : Arena) (name : String) (node : NodeId) : Bool :=
  a.kind node == .varDecl && a.name? node == some name

def lastDeclaring (a : Arena) (name : String) (nodes : List NodeId) : Option NodeId :=
  (nodes.filter (a.declares name)).getLast?

/-- The nodes below `top` in front of `node`, in preorder. -/
def before (a : Arena) (top node : NodeId) : List NodeId := (a.preorder top).takeWhile (· != node)

def childrenBefore (a : Arena) (top child : NodeId) : List NodeId :=
  (a.children top).takeWhile (· != child)

/-- **The node refers to the name**: it is an identifier, and not the member behind the point of
an access. -/
structure Refers (a : Arena) (node : NodeId) (name : String) : Prop where
  kind : a.kind node = .ident
  name : a.name? node = some name
  not_member : ∀ access, a.kind access = .member → a.child? access 1 ≠ some node

variable {a : Arena} {name : String} {l l' : List NodeId} {node : NodeId}

theorem declares_iff : a.declares name node = true ↔
    a.kind node = .varDecl ∧ a.name? node = some name := by
  rw [declares, Bool.and_eq_true, beq_iff_eq, beq_iff_eq]

/-- Only the accesses of the arena can have the node as their member. -/
theorem refers_iff : a.Refers node name ↔ a.kind node = .ident ∧ a.name? node = some name ∧
    ∀ access < a.size, a.kind access = .member → a.child? access 1 ≠ some node := by
  constructor
  · exact fun h => ⟨h.kind, h.name, fun access _ => h.not_member access⟩
  · rintro ⟨hkind, hname, hmember⟩
    refine ⟨hkind, hname, fun access hk => ?_⟩
    by_cases hlt : access < a.size
    · exact hmember access hlt hk
    · unfold child?
      rw [children_eq_nil_of_size_le (Nat.not_lt.1 hlt)]
      exact fun he => by cases he

instance : Decidable (a.Refers node name) := decidable_of_iff _ refers_iff.symm

theorem lastDeclaring_append :
    a.lastDeclaring name (l ++ l') = (a.lastDeclaring name l').or (a.lastDeclaring name l) := by
  unfold lastDeclaring
  rw [filter_append, getLast?_append]

theorem lastDeclaring_eq_none (h : ∀ d ∈ l, a.kind d ≠ .varDecl) : a.lastDeclaring name l = none := by
  unfold lastDeclaring
  rw [getLast?_eq_none_iff, filter_eq_nil_iff]
  exact fun d hd hdecl => h d hd (declares_iff.1 hdecl).1

theorem lastDeclaring_of_name_ne {d : NodeId} {other : String} (hname : a.name? d = some name)
    (hne : other ≠ name) : a.lastDeclaring other [d] = none := by
  unfold lastDeclaring
  rw [getLast?_eq_none_iff, filter_eq_nil_iff]
  intro e he hdecl
  rw [mem_singleton.1 he] at hdecl
  exact hne (Option.some.inj ((declares_iff.1 hdecl).2.symm.trans hname))

end Arena

namespace ScopeWalk

open Arena Grammar

/-- **The names once the nodes have been gone through**: each is what the last node that declares
it says, and if none does then what it was. -/
def Names.declare (σ : Names) (a : Arena) (nodes : List NodeId) : Names := fun name =>
  (a.lastDeclaring name nodes).elim (σ name) (Collect.declaredType? a)

variable {a : Arena} {σ : Names} {name : String} {l l' : List NodeId} {node : NodeId}
  {types : TypeTable}

theorem Names.declare_append : σ.declare a (l ++ l') = (σ.declare a l).declare a l' := by
  funext name
  unfold declare
  rw [lastDeclaring_append]
  cases a.lastDeclaring name l' <;> rfl

theorem Names.declare_cons : σ.declare a (node :: l) = (σ.declare a [node]).declare a l :=
  Names.declare_append (l := [node])

theorem Names.declare_eq_self (h : ∀ d ∈ l, a.kind d ≠ .varDecl) : σ.declare a l = σ := by
  funext name
  unfold declare
  rw [lastDeclaring_eq_none h]
  rfl

theorem Names.declare_singleton {t : Ty} (hk : a.kind node = .varDecl)
    (hname : a.name? node = some name) (htype : Collect.declaredType? a node = some t) :
    σ.declare a [node] = σ.bind name t := by
  funext other
  unfold declare lastDeclaring bind
  by_cases h : other = name
  · subst h
    rw [filter_singleton, declares_iff.2 ⟨hk, hname⟩, if_pos rfl]
    exact htype
  · have hnot : a.declares other node = false := Bool.eq_false_iff.2 fun hd =>
      h (Option.some.inj ((declares_iff.1 hd).2.symm.trans hname))
    rw [filter_singleton, hnot, if_neg h]
    rfl

/-! ### Walks below functions -/

/-- The subtree of a part of a function: it is regular and formed, and no function is in it. -/
structure Body (types : TypeTable) (a : Arena) (s : Rose NodeId) : Prop where
  spans : a.Spans s
  regular : Regular (s.map a.label)
  formed : Formed types (s.map a.label)
  functionless : ∀ x ∈ s.preorder, a.kind x ≠ .function

variable {s : Rose NodeId} {ss : List (Rose NodeId)} {id n : NodeId}

theorem Body.of_mem (h : Body types a (.node id ss)) (hs : s ∈ ss) : Body types a s := by
  obtain ⟨hspans, hregular, hformed, hfun⟩ := h
  rw [Rose.map_node] at hregular hformed
  exact ⟨hspans.of_mem hs, hregular.of_mem (mem_map_of_mem hs),
    hformed.of_mem (mem_map_of_mem hs), fun x hx => hfun x (Rose.mem_preorder_of_mem hs hx)⟩

theorem Inert.kind_ne (h : Inert (s.map a.label)) : ∀ x ∈ s.preorder, a.kind x ≠ .varDecl :=
  fun _ hx => (h _ (Rose.mem_preorder_map hx)).1

theorem kinds_admitted (h : Formed types ((Rose.node id ss).map a.label)) :
    (a.kind id).admits (ss.map fun s => a.kind s.entry) = true := by
  rw [Rose.map_node] at h
  have hadmits := h.root.admits
  rwa [map_map, show Tree.kind ∘ Rose.map a.label = _ from funext (Tree.kind_map a)] at hadmits

theorem exists_child (hn : a.kind n = .ident) (hmem : n ∈ (Rose.node id ss).preorder)
    (hk : a.kind id ≠ .ident) : ∃ s ∈ ss, n ∈ s.preorder := by
  rw [Rose.preorder_node, mem_cons] at hmem
  rcases hmem with rfl | hmem
  · exact absurd hn hk
  · exact mem_flatMap.1 hmem

theorem not_mem_type (h : Formed types (s.map a.label)) (hk : a.kind s.entry = .varType)
    (hn : a.kind n = .ident) : n ∉ s.preorder := by
  obtain ⟨id, ss⟩ := s
  rw [Rose.entry] at hk
  intro hmem
  obtain ⟨s, hs, -⟩ := exists_child hn hmem (by simp [hk])
  rw [Rose.map_node] at h
  rw [map_eq_nil_iff.1 (h.eq_nil (.inr hk))] at hs
  cases hs

theorem Body.opens_eq (h : Body types a (.node id ss)) (hk : a.kind id ≠ .member) :
    opens σ ((Rose.node id ss).map a.label) = some (σ.declare a [id], false) := by
  have hformed := h.formed
  have htidy := h.regular
  rw [Rose.map_node] at hformed htidy ⊢
  by_cases hdecl : a.kind id = .varDecl
  · obtain ⟨name, hname⟩ := hformed.root.exists_name (.inr (.inl hdecl))
    obtain ⟨t, htype, -⟩ := hformed.exists_type (.inl hdecl)
    have htype' : Collect.declaredType? a id = some t := (firstType_eq h.spans).trans htype
    have hdecl' : (a.label id).kind = .varDecl := hdecl
    rw [Names.declare_singleton hdecl hname htype', opens, if_pos hdecl', hname, htype]
  · have hkind : (a.label id).kind ∉ [Kind.varDecl, .function, .member] := by
      simp only [mem_cons, not_mem_nil, or_false, not_or]
      exact ⟨hdecl, h.functionless id (by simp), hk⟩
    rw [htidy.root.opens_eq hkind, Names.declare_eq_self (by simpa using hdecl)]

theorem afterAll_eq_declare {g : Rose NodeId → List NodeId}
    (h : ∀ s ∈ ss, ∀ σ, after σ (s.map a.label) = σ.declare a (g s)) (σ : Names) :
    afterAll σ (ss.map (Rose.map a.label)) = σ.declare a (ss.flatMap g) := by
  induction ss generalizing σ with
  | nil => exact (Names.declare_eq_self (by simp)).symm
  | cons s ss ih =>
    rw [map_cons, afterAll, h s (.head _),
      ih fun u hu => h u (.tail _ hu), flatMap_cons, Names.declare_append]

theorem Body.inert_member (h : Body types a (.node id ss)) (hk : a.kind id = .member) :
    Inert ((Rose.node id ss).map a.label) := by
  have hregular := h.regular
  rw [Rose.map_node] at hregular ⊢
  refine .node ⟨?_, ?_, ?_⟩ (hregular.root.inert (.inl hk)) <;>
    intro he <;> cases hk.symm.trans he

/-- **Behind a part of a function all of its declarations are bound.** -/
theorem Body.after_eq (h : Body types a s) (σ : Names) :
    after σ (s.map a.label) = σ.declare a s.preorder := by
  induction s using Rose.induction generalizing σ with
  | node id ss ih =>
    by_cases hk : a.kind id = .member
    · rw [after_eq_self (h.inert_member hk), Names.declare_eq_self (h.inert_member hk).kind_ne]
    · have ho := h.opens_eq (σ := σ) hk
      rw [Rose.map_node] at ho ⊢
      rw [after_node ho, Rose.preorder_node, Names.declare_cons (l := ss.flatMap Rose.preorder)]
      exact afterAll_eq_declare (fun u hu => ih u hu (h.of_mem hu)) _

/-! ### References -/

theorem takeWhile_ne_append (h : n ∈ l) : (l ++ l').takeWhile (· != n) = l.takeWhile (· != n) := by
  induction l with
  | nil => cases h
  | cons x l ih =>
    by_cases hx : x = n
    · simp [hx]
    · have hmem : n ∈ l := (mem_cons.1 h).resolve_left (Ne.symm hx)
      simp [hx, ih hmem]

theorem takeWhile_ne_of_not_mem (h : n ∉ l) :
    (l ++ l').takeWhile (· != n) = l ++ l'.takeWhile (· != n) :=
  takeWhile_append_of_pos fun _ hx => bne_iff_ne.2 fun he => h (he ▸ hx)

theorem takeWhile_ne_cons (h : id ≠ n) :
    (id :: l).takeWhile (· != n) = id :: l.takeWhile (· != n) :=
  takeWhile_cons_of_pos (bne_iff_ne.2 h)

variable {pre post : List (Rose NodeId)} {site : Site} {p q : Place}

section

variable (hdis : ∀ u ∈ pre ++ post, u.preorder.Disjoint s.preorder) (hn : n ∈ s.preorder)
include hdis hn

theorem takeWhile_flatMap :
    ((pre ++ s :: post).flatMap Rose.preorder).takeWhile (· != n) =
      pre.flatMap Rose.preorder ++ s.preorder.takeWhile (· != n) := by
  have hpre : n ∉ pre.flatMap Rose.preorder := by
    intro hm
    obtain ⟨u, hu, hnu⟩ := mem_flatMap.1 hm
    exact hdis u (mem_append_left _ hu) hnu hn
  rw [flatMap_append, flatMap_cons, takeWhile_ne_of_not_mem hpre, takeWhile_ne_append hn]

theorem mem_zip_sitesAll
    (h : (n, site) ∈ ((pre ++ s :: post).flatMap Rose.preorder).zip
      (sitesAll σ p q ((pre ++ s :: post).map (Rose.map a.label)))) :
    ∃ r, (n, site) ∈ s.preorder.zip
      (sites (afterAll σ (pre.map (Rose.map a.label))) r (s.map a.label)) := by
  have hlength : ∀ (u : Rose NodeId) σ p,
      u.preorder.length = (sites σ p (u.map a.label)).length := by
    intro u σ p
    rw [length_sites, Rose.size_map, Rose.length_preorder]
  induction pre generalizing σ p with
  | nil =>
    rw [nil_append, flatMap_cons, map_cons, sitesAll, zip_append (hlength ..),
      mem_append] at h
    rcases h with h | h
    · exact ⟨p, h⟩
    · obtain ⟨u, hu, hnu⟩ := mem_flatMap.1 (of_mem_zip h).1
      exact absurd hn (hdis u hu hnu)
  | cons u pre ih =>
    rw [cons_append, flatMap_cons, map_cons, sitesAll,
      zip_append (hlength ..), mem_append] at h
    rcases h with h | h
    · exact absurd hn (hdis u (by simp) (of_mem_zip h).1)
    · exact ih (fun x hx => hdis x (.tail _ hx)) h

end

/-- **The names at a reference below several subtrees**, from those below each of them. -/
theorem inside_eq_declare (hw : a.WellFormed) (hs : a.Spans (.node id ss))
    (hafter : ∀ s ∈ ss, ∀ σ, after σ (s.map a.label) = σ.declare a s.preorder)
    (hinside : ∀ s ∈ ss, ∀ σ p, (n, site) ∈ s.preorder.zip (sites σ p (s.map a.label)) →
      inside site.around site.tree name = σ.declare a (s.preorder.takeWhile (· != n)) name)
    (h : (n, site) ∈ (ss.flatMap Rose.preorder).zip
      (sitesAll σ p q (ss.map (Rose.map a.label)))) :
    inside site.around site.tree name =
      σ.declare a ((ss.flatMap Rose.preorder).takeWhile (· != n)) name := by
  obtain ⟨s, hmem, hn⟩ := mem_flatMap.1 (of_mem_zip h).1
  obtain ⟨pre, post, rfl⟩ := append_of_mem hmem
  have hdis : ∀ u ∈ pre ++ post, u.preorder.Disjoint s.preorder := fun u hu =>
    (hs.around hw (mem_append.1 hu)).2
  obtain ⟨r, h⟩ := mem_zip_sitesAll hdis hn h
  rw [hinside s hmem _ r h,
    afterAll_eq_declare fun u hu => hafter u (mem_append_left _ hu),
    takeWhile_flatMap hdis hn, Names.declare_append]

/-- **At a reference in a part of a function what stands in front of it is bound.** -/
theorem Body.inside_eq (hw : a.WellFormed) (h : Body types a s) (hn : a.Refers n name) (σ : Names)
    (p : Place) (hsite : (n, site) ∈ s.preorder.zip (sites σ p (s.map a.label))) :
    inside site.around site.tree name = σ.declare a (s.preorder.takeWhile (· != n)) name := by
  induction s using Rose.induction generalizing σ p with
  | node id ss ih =>
    have hident : n = id → a.kind id ≠ .varDecl ∧ a.kind id ≠ .member := by
      rintro rfl
      rw [hn.kind]
      exact ⟨by simp, by simp⟩
    rw [Rose.map_node, Rose.preorder_node, sites, zip_cons_cons, mem_cons] at hsite
    rw [Rose.preorder_node]
    rcases hsite with heq | hsite
    · obtain ⟨rfl, rfl⟩ := Prod.mk.inj heq
      have ho := h.opens_eq (σ := σ) (hident rfl).2
      rw [Rose.map_node] at ho
      rw [ScopeWalk.inside_eq ho, takeWhile_cons_of_neg (by simp),
        Names.declare_eq_self (by simpa using (hident rfl).1), Names.declare_eq_self (by simp)]
    have hmem := (of_mem_zip hsite).1
    have hne : id ≠ n := by
      rintro rfl
      obtain ⟨u, hu, hnu⟩ := mem_flatMap.1 hmem
      exact h.spans.not_mem_child hw hu hnu
    have hbelow := inside_eq_declare hw h.spans (fun u hu => (h.of_mem hu).after_eq)
      (fun u hu => ih u hu (h.of_mem hu)) hsite
    rw [hbelow, takeWhile_ne_cons hne, Names.declare_cons]
    by_cases hk : a.kind id = .member
    swap
    · have ho := h.opens_eq (σ := σ) hk
      rw [Rose.map_node] at ho
      rw [ScopeWalk.inside_eq ho]
    -- an access declares nothing, and the reference is its base if that is a name
    have hkinds := (h.inert_member hk).kind_ne
    have hself : ∀ σ : Names,
        σ.declare a ((ss.flatMap Rose.preorder).takeWhile (· != n)) = σ := by
      refine fun σ => Names.declare_eq_self fun x hx => hkinds x ?_
      rw [Rose.preorder_node]
      exact .tail _ ((takeWhile_sublist _).subset hx)
    rw [hself, hself, Names.declare_eq_self (by simp [hk])]
    have hregular := h.regular
    rw [Rose.map_node] at hregular
    obtain ⟨base, l, member, hss, -, -⟩ := hregular.root.named hk
    obtain ⟨b, rest, rfl, rfl, hrest⟩ := map_eq_cons_iff.1 hss
    obtain ⟨⟨m, ms⟩, rest, rfl, hm, hrest⟩ := map_eq_cons_iff.1 hrest
    obtain rfl := map_eq_nil_iff.1 hrest
    rw [Rose.map_node] at hm
    obtain ⟨-, hms⟩ := Rose.node.inj hm
    obtain rfl := map_eq_nil_iff.1 hms
    have hbase : n ∈ b.preorder := by
      rw [flatMap_cons, flatMap_singleton, mem_append] at hmem
      refine hmem.resolve_right fun hnm => hn.not_member id hk ?_
      have hmn : n = m := by simpa using hnm
      unfold Arena.child?
      rw [h.spans.children_eq, hmn]
      rfl
    refine inside_member hk fun hident => ?_
    obtain ⟨b, bs⟩ := b
    have hleaf := (hregular.of_mem (mem_map_of_mem (f := Rose.map a.label) (by simp :
      Rose.node b bs ∈ [.node b bs, .node m []])))
    rw [Rose.map_node] at hleaf hident ⊢
    obtain rfl := map_eq_nil_iff.1 (hleaf.root.leaf hident)
    have hnb : n = b := by simpa using hbase
    exact hnb ▸ hn.name

/-! ### Programs -/

/-- The names inside of a function, where what it returns is bound. -/
def Names.inFunction (σ : Names) (a : Arena) (f : NodeId) : Names := fun name =>
  if name = returnName then Collect.declaredType? a f else σ name

/-- **The names that a walk shows at a node of the function `f`**, if it starts with the names `σ`:
those of the declarations in front of the function, what the function returns, and then all that is
declared in the function in front of the node. -/
def walkedNames (σ : Names) (a : Arena) (root f n : NodeId) : Names :=
  ((σ.declare a (a.childrenBefore root f)).inFunction a f).declare a (a.before f n)

theorem opens_function (hs : a.Spans (.node id ss))
    (h : Formed types ((Rose.node id ss).map a.label)) (hk : a.kind id = .function) :
    opens σ ((Rose.node id ss).map a.label) = some (σ.inFunction a id, true) := by
  have hfirst := firstType_eq hs
  rw [Rose.map_node] at h ⊢
  obtain ⟨t, htype, -⟩ := h.exists_type (.inr hk)
  have hk' : (a.label id).kind = .function := hk
  have hnames : σ.inFunction a id = σ.bind returnName t := by
    funext name
    unfold Names.inFunction Names.bind Collect.declaredType?
    rw [hfirst, htype]
  rw [opens, if_neg (by simp [hk']), if_pos hk', htype, hnames]
  rfl

theorem declaration_inert (h : Formed types ((Rose.node id ss).map a.label))
    (hk : a.kind id = .varDecl) (hs : s ∈ ss) : Inert (s.map a.label) := by
  rw [Rose.map_node] at h
  have hmem := mem_map_of_mem (f := Rose.map a.label) hs
  obtain ⟨t, rest, hts, htype, hrest⟩ := h.root.declaration hk
  refine (h.of_mem hmem).inert ?_
  rw [hts] at hmem
  rcases mem_cons.1 hmem with heq | hmem
  · rw [heq, htype]
    rfl
  · exact Kind.isInner_of_isExpression (hrest _ hmem)

theorem conditional_kinds {cond yes : Rose NodeId} {rest : List (Rose NodeId)}
    (h : Formed types ((Rose.node id (cond :: yes :: rest)).map a.label))
    (hk : a.kind id = .conditional) :
    (a.kind cond.entry).isExpression = true ∧ a.kind yes.entry = .block ∧
      ∀ no ∈ rest, a.kind no.entry = .block ∨ a.kind no.entry = .conditional := by
  rw [Rose.map_node] at h
  obtain ⟨_, _, _, hts, hcond, hyes, hrest⟩ := h.root.conditional hk
  obtain ⟨rfl, htail⟩ := cons.inj hts
  obtain ⟨rfl, rfl⟩ := cons.inj htail
  rw [Tree.kind_map] at hcond hyes
  refine ⟨hcond, hyes, fun no hno => ?_⟩
  have hno' := hrest _ (mem_map_of_mem hno)
  rwa [Tree.kind_map] at hno'

/-- Behind a declaration or a function at the top its own name is bound. -/
theorem after_item (hs : a.Spans s) (hregular : Regular (s.map a.label))
    (hformed : Formed types (s.map a.label)) (hk : a.kind s.entry = .varDecl ∨ a.kind s.entry = .function)
    (σ : Names) : after σ (s.map a.label) = σ.declare a [s.entry] := by
  obtain ⟨id, ss⟩ := s
  rw [Rose.entry] at hk ⊢
  rcases hk with hk | hk
  · have hinert : ∀ u ∈ ss, Inert (u.map a.label) := fun u hu => declaration_inert hformed hk hu
    have hbody : Body types a (.node id ss) :=
      ⟨hs, hregular, hformed, Rose.forall_preorder_node (by simp [hk]) fun u hu _ hx =>
        (hinert u hu _ (Rose.mem_preorder_map hx)).2.1⟩
    rw [hbody.after_eq, Rose.preorder_node, Names.declare_cons, Names.declare_eq_self fun x hx => ?_]
    obtain ⟨u, hu, hx⟩ := mem_flatMap.1 hx
    exact (hinert u hu).kind_ne x hx
  · have ho := opens_function (σ := σ) hs hformed hk
    rw [Rose.map_node] at ho ⊢
    rw [after_node ho, Names.declare_eq_self (by simp [hk])]
    rfl

theorem childrenBefore_eq {root : NodeId} (hw : a.WellFormed)
    (hspans : a.Spans (.node root (pre ++ s :: post))) :
    a.childrenBefore root s.entry = pre.map Rose.entry := by
  have hnot : s.entry ∉ pre.map Rose.entry := by
    intro hm
    obtain ⟨u, hu, he⟩ := mem_map.1 hm
    exact (hspans.around hw (.inl hu)).2 u.entry_mem_preorder (he ▸ s.entry_mem_preorder)
  unfold childrenBefore
  rw [hspans.children_eq, map_append, takeWhile_ne_of_not_mem hnot, map_cons,
    takeWhile_cons_of_neg (by simp), append_nil]

section Items

variable {program : Program} {root f : NodeId} (hp : Parsed program root)

include hp

/-- **An item of a program.** -/
theorem item_of_parsed (hs : s ∈ (program.arena.shape root).children) :
    program.arena.Spans s ∧ IsItem Builtin.types (s.map program.arena.label) := by
  obtain ⟨pos, trees, htree, hitems⟩ := hp.shape
  unfold Arena.tree at htree
  rw [shape_eq_node, Rose.map_node] at htree
  obtain ⟨-, rfl⟩ := Rose.node.inj htree
  exact ⟨(spans_children hp.wellFormed hp.lt_size).of_mem hs, hitems _ (mem_map_of_mem hs)⟩

theorem afterAll_items (hsplit : (program.arena.shape root).children = pre ++ s :: post) (σ : Names) :
    afterAll σ (pre.map (Rose.map program.arena.label)) =
      σ.declare program.arena (program.arena.childrenBefore root s.entry) := by
  have hroot := spans_children hp.wellFormed hp.lt_size
  rw [hsplit] at hroot
  rw [childrenBefore_eq hp.wellFormed hroot, map_eq_flatMap (f := Rose.entry)]
  refine afterAll_eq_declare (fun u hu => ?_) σ
  obtain ⟨hspans, hitem⟩ := item_of_parsed hp (hsplit ▸ mem_append_left _ hu)
  have hkind := hitem.kind
  rw [Tree.kind_map] at hkind
  exact after_item hspans (hitem.regular closed_builtin) (hitem.formed closed_builtin) hkind

theorem body_of_parsed (hf : .node f ss ∈ (program.arena.shape root).children) (hs : s ∈ ss) :
    Body Builtin.types program.arena s := by
  obtain ⟨hspans, hitem⟩ := item_of_parsed hp hf
  have hmapped := mem_map_of_mem (f := Rose.map program.arena.label) hs
  rw [Rose.map_node] at hitem
  exact ⟨hspans.of_mem hs, (hitem.regular closed_builtin).of_mem hmapped,
    (hitem.formed closed_builtin).of_mem hmapped,
    fun x hx => hitem.functionless closed_builtin _ hmapped _ (Rose.mem_preorder_map hx)⟩

/-- **The names that a walk through a program shows at a reference in a function.** -/
theorem inside_eq_walkedNames (hf : f ∈ program.arena.children root)
    (hk : program.arena.kind f = .function) (hn : program.arena.Refers n name)
    (hmem : n ∈ program.arena.preorder f)
    (hsite : (n, site) ∈ (program.arena.preorder root).zip (sites σ p (program.arena.tree root))) :
    inside site.around site.tree name = walkedNames σ program.arena root f n name := by
  have hw := hp.wellFormed
  obtain ⟨ss, hs⟩ := exists_shape_of_child hw hp.lt_size hf
  obtain ⟨hspans, hitem⟩ := item_of_parsed hp hs
  have hroot := spans_children hw hp.lt_size
  obtain ⟨pre, post, hsplit⟩ := append_of_mem hs
  have hbelow : program.arena.preorder f = f :: ss.flatMap Rose.preorder := by
    rw [← Rose.preorder_node]
    exact hspans.preorder_eq hw
  have hmem' : n ∈ (Rose.node f ss).preorder := by
    rwa [Rose.preorder_node, ← hbelow]
  -- the walk comes to the function
  have hne : n ≠ root := by
    rintro rfl
    exact hroot.not_mem_child hw hs hmem'
  have hplain : ∀ ts, inside σ (.node (program.arena.label root) ts) = σ := by
    obtain ⟨pos, trees, htree, -⟩ := hp.shape
    unfold Arena.tree at htree
    rw [shape_eq_node, Rose.map_node] at htree
    intro ts
    have ho : opens σ (.node (program.arena.label root) ts) = some (σ, false) := by
      rw [(Rose.node.inj htree).1]
      exact opens_plain (by simp) (by simp) rfl
    exact ScopeWalk.inside_eq ho
  rw [hsplit] at hroot
  unfold Arena.preorder Arena.tree at hsite
  rw [shape_eq_node, hsplit, Rose.map_node, Rose.preorder_node, sites, zip_cons_cons,
    mem_cons, hplain] at hsite
  obtain ⟨r, hsite⟩ := mem_zip_sitesAll (fun _ hu => (hroot.around hw (mem_append.1 hu)).2) hmem'
    (hsite.resolve_left fun heq => hne (Prod.mk.inj heq).1)
  rw [afterAll_items hp hsplit, Rose.entry] at hsite
  -- and in it to the reference
  have hnf : f ≠ n := by
    rintro rfl
    cases hk.symm.trans hn.kind
  have ho := opens_function (σ := σ.declare program.arena (program.arena.childrenBefore root f)) hspans
    (hitem.formed closed_builtin) hk
  rw [Rose.map_node] at ho
  rw [Rose.map_node, Rose.preorder_node, sites, zip_cons_cons, mem_cons,
    ScopeWalk.inside_eq ho] at hsite
  have hinside := inside_eq_declare hw hspans (fun u hu => (body_of_parsed hp hs hu).after_eq)
    (fun u hu => (body_of_parsed hp hs hu).inside_eq hw hn)
    (hsite.resolve_left fun heq => hnf (Prod.mk.inj heq).1.symm)
  unfold walkedNames before
  rw [hinside, hbelow, takeWhile_ne_cons hnf, Names.declare_cons,
    Names.declare_eq_self (l := [f]) (by simp [hk])]

end Items

/-! ### Notes -/

/-- What a walk has noted, whether it has succeeded or not. -/
def noted : EStateM.Result Error (View Notes) Unit → Notes
  | .ok _ v => v.notes
  | .error _ v => v.notes

/-- A note has a site, which has the same position among the sites as the node has among the
nodes. -/
theorem exists_site {R : NodeId × Context → Site → Prop} {notes : Notes} {shown all : List Site}
    {nodes : List NodeId} {note : NodeId × Context} (h : List.Forall₂ R notes shown)
    (hshown : shown <+: all) (hnodes : notes.map Prod.fst <+: nodes) (hmem : note ∈ notes) :
    ∃ site, R note site ∧ (note.1, site) ∈ nodes.zip all := by
  induction h generalizing nodes all with
  | nil => cases hmem
  | @cons first site notes shown hfirst _ ih =>
    obtain ⟨all, rfl⟩ := hshown
    obtain ⟨nodes, rfl⟩ := hnodes
    rw [map_cons, cons_append, cons_append, zip_cons_cons]
    rcases mem_cons.1 hmem with rfl | hmem
    · exact ⟨site, hfirst, .head _⟩
    · obtain ⟨site, hsite, hzip⟩ :=
        ih (prefix_append _ _) (prefix_append _ _) hmem
      exact ⟨site, hsite, .tail _ hzip⟩

/-- **The names in the notes of a walk through a program**, at the references in its functions. -/
theorem noted_names {program : Program} {root f limit : NodeId} (hp : Parsed program root)
    (hlimit : program.arena.size ≤ limit) (hf : f ∈ program.arena.children root)
    (hk : program.arena.kind f = .function) (hn : program.arena.Refers n name)
    (hmem : n ∈ program.arena.preorder f) {ctx ctx' : Context}
    (hnote : (n, ctx') ∈ noted (walkScopes limit noteScope root
      { arena := program.arena, context := ctx, notes := [] })) :
    ctx'.names name = walkedNames ctx.names program.arena root f n name := by
  have hends := walkScopes_glimpsed (v := { arena := program.arena, context := ctx, notes := [] })
    hp.wellFormed hp.lt_size hlimit rfl .top
  have hsite : ∃ site, NoteOf program.arena ctx.types (n, ctx') site ∧
      (n, site) ∈ (program.arena.preorder root).zip
        (sites ctx.names .top (program.arena.tree root)) := by
    cases hwalk : walkScopes limit noteScope root
        { arena := program.arena, context := ctx, notes := [] } with
    | ok u v =>
      rw [hwalk] at hnote
      obtain ⟨-, -, hnodes, hnotes⟩ := hends.of_eq_ok hwalk
      exact exists_site hnotes prefix_rfl (hnodes ▸ prefix_rfl) hnote
    | error e v =>
      rw [hwalk] at hnote
      obtain ⟨-, hnodes, shown, hshown, hnotes⟩ := hends.of_eq_error hwalk
      exact exists_site hnotes hshown hnodes hnote
  obtain ⟨site, hnoteOf, hsite⟩ := hsite
  rw [hnoteOf.names]
  exact inside_eq_walkedNames hp hf hk hn hmem hsite

end ScopeWalk

end VecLang
