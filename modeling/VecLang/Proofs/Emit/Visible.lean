import VecLang.Proofs.Emit.Lexical
import VecLang.Proofs.Emit.Slots

/-!
# The declarations that a script shows

A script follows the blocks of a function: a declaration is visible behind it in the block in
which it stands, and a parameter in the whole function.

* `Arena.visibleAt`: whether a declaration is visible at a node.
* `Arena.visibleBefore`: the declarations of an item that are visible at a node of it.
* `Arena.Sees`, `Arena.sees_body`: what is visible at the nodes of a statement, and of the body of
  a function.
-/

namespace VecLang

open List

namespace TypeTable

/-- Both types are absent, or both are there and resolve to types of one name. -/
def agree (types : TypeTable) : Option Ty → Option Ty → Bool
  | none, none => true
  | some t, some u =>
    match types.sameType t u with
    | .ok same => same
    | .error _ => false
  | _, _ => false

variable {types : TypeTable} {t u v : Option Ty}

theorem agree_eq {t u : Ty} {same : Bool} (h : types.sameType t u = .ok same) :
    types.agree (some t) (some u) = same := by
  unfold agree
  simp only [h]

theorem agree_some {t u : Ty} : types.agree (some t) (some u) = true ↔
    ∃ t' u', types.resolve t = .ok t' ∧ types.resolve u = .ok u' ∧ t'.name = u'.name := by
  constructor
  · intro h
    unfold agree at h
    simp only at h
    split at h
    · next same heq =>
      obtain ⟨t', ht, heq⟩ := Except.bind_eq_ok.1 heq
      obtain ⟨u', hu, heq⟩ := Except.bind_eq_ok.1 heq
      cases heq
      exact ⟨t', u', ht, hu, beq_iff_eq.1 h⟩
    · cases h
  · rintro ⟨t', u', ht, hu, hname⟩
    refine agree_eq ?_
    unfold sameType
    rw [ht, hu]
    exact congrArg Except.ok (beq_iff_eq.2 hname)

theorem agree_refl {t : Ty} (h : (types.resolve t).isOk = true) :
    types.agree (some t) (some t) = true := by
  cases ht : types.resolve t with
  | error e =>
    rw [ht] at h
    cases h
  | ok t' => exact agree_some.2 ⟨t', t', ht, ht, rfl⟩

theorem agree_symm (h : types.agree t u = true) : types.agree u t = true := by
  cases t with
  | none =>
    cases u with
    | none => rfl
    | some u => cases h
  | some t =>
    cases u with
    | none => cases h
    | some u =>
      obtain ⟨t', u', ht, hu, hname⟩ := agree_some.1 h
      exact agree_some.2 ⟨u', t', hu, ht, hname.symm⟩

theorem agree_trans (h : types.agree t u = true) (h' : types.agree u v = true) :
    types.agree t v = true := by
  cases t with
  | none =>
    cases u with
    | none => exact h'
    | some u => cases h
  | some t =>
    cases u with
    | none => cases h
    | some u =>
      cases v with
      | none => cases h'
      | some v =>
        obtain ⟨t', u', ht, hu, hname⟩ := agree_some.1 h
        obtain ⟨u'', v', hu', hv, hname'⟩ := agree_some.1 h'
        rw [hu] at hu'
        cases hu'
        exact agree_some.2 ⟨t', v', ht, hv, hname.trans hname'⟩

end TypeTable

def ScopeStack.names (s : ScopeStack) : ScopeWalk.Names := fun name => (s.get? name).map Binding.type

namespace Arena

open ScopeWalk

/-- **The declaration `d` is visible at the node `n`**: it is a parameter or stands in a block around
the node, and the node is not part of it. -/
def visibleAt (a : Arena) (n d : NodeId) : Bool :=
  !a.isAncestor d n && (a.parent? d).any fun p => a.kind p == .params || a.isAncestor p n

variable {a : Arena} {n d p : NodeId} {s : Rose NodeId}

theorem not_visibleAt_of_under (hw : a.WellFormed) (hn : n < a.size) (h : a.Under n d) :
    a.visibleAt n d = false := by
  unfold visibleAt
  rw [(isAncestor_iff hw hn).2 h]
  rfl

theorem visibleAt_of_parent (hw : a.WellFormed) (hn : n < a.size) (hd : ¬ a.Under n d)
    (hp : a.parent? d = some p) (h : a.kind p = .params ∨ a.Under n p) :
    a.visibleAt n d = true := by
  have hd' : a.isAncestor d n = false :=
    Bool.eq_false_iff.2 fun he => hd ((isAncestor_iff hw hn).1 he)
  unfold visibleAt
  rw [hd', hp]
  rcases h with h | h
  · simp [h]
  · simp [(isAncestor_iff hw hn).2 h]

/-- What stands further down in a statement that the node is not part of is not visible at it. -/
theorem not_visibleAt_of_below (hw : a.WellFormed) (hn : n < a.size) (hs : a.Spans s)
    (hns : n ∉ s.preorder) (hparams : ∀ x ∈ s.preorder, a.kind x ≠ .params) (hd : d ∈ s.preorder)
    (hne : d ≠ s.entry) : a.visibleAt n d = false := by
  obtain ⟨p, hp, hmem⟩ := hs.exists_parent hw hd hne
  have hnp : a.isAncestor p n = false := by
    refine Bool.eq_false_iff.2 fun he => hns ?_
    exact (hs.mem_preorder hw).2 (((isAncestor_iff hw hn).1 he).trans ((hs.mem_preorder hw).1 hmem))
  unfold visibleAt
  rw [hp]
  simp [hnp, hparams p hmem]

/-- The declarations among the nodes that are visible at the node `n`. -/
def seenAt (a : Arena) (n : NodeId) (nodes : List NodeId) : List NodeId :=
  nodes.filter fun d => a.kind d == .varDecl && a.visibleAt n d

/-- **The declarations of the item `f` that are visible at its node `n`**, in the order in which
they stand. -/
def visibleBefore (a : Arena) (f n : NodeId) : List NodeId := a.seenAt n (a.before f n)

def declarations (a : Arena) (ss : List (Rose NodeId)) : List NodeId :=
  (ss.map Rose.entry).filter (a.kind · == .varDecl)

variable {f id : NodeId} {l l' L : List NodeId} {ss pre post : List (Rose NodeId)}
  {types : TypeTable}

theorem seenAt_append : a.seenAt n (l ++ l') = a.seenAt n l ++ a.seenAt n l' := filter_append ..

theorem seenAt_cons : a.seenAt n (d :: l) = a.seenAt n [d] ++ a.seenAt n l :=
  seenAt_append (l := [d])

theorem seenAt_eq_nil (h : ∀ d ∈ l, a.kind d = .varDecl → a.visibleAt n d = false) :
    a.seenAt n l = [] := by
  refine filter_eq_nil_iff.2 fun d hd hboth => ?_
  obtain ⟨hk, hvisible⟩ := Bool.and_eq_true_iff.1 hboth
  rw [h d hd (beq_iff_eq.1 hk)] at hvisible
  cases hvisible

theorem seenAt_of_kind (h : ∀ d ∈ l, a.kind d ≠ .varDecl) : a.seenAt n l = [] :=
  seenAt_eq_nil fun d hd hk => absurd hk (h d hd)

theorem declarations_nil : a.declarations [] = [] := rfl

theorem declarations_append :
    a.declarations (pre ++ post) = a.declarations pre ++ a.declarations post := by
  unfold declarations
  rw [map_append, filter_append]

theorem declarations_of_kind (h : ∀ s ∈ ss, a.kind s.entry ≠ .varDecl) : a.declarations ss = [] := by
  refine filter_eq_nil_iff.2 fun d hd hk => ?_
  obtain ⟨s, hs, rfl⟩ := mem_map.1 hd
  exact h s hs (beq_iff_eq.1 hk)

theorem declarations_singleton (h : a.kind s.entry = .varDecl) : a.declarations [s] = [s.entry] := by
  unfold declarations
  rw [map_singleton, filter_singleton, beq_iff_eq.2 h, cond_true]

theorem seenAt_preorder (hroot : a.kind s.entry = .varDecl → a.visibleAt n s.entry = true)
    (hbelow : ∀ c ∈ s.children, ∀ d ∈ c.preorder, a.kind d = .varDecl → a.visibleAt n d = false) :
    a.seenAt n s.preorder = a.declarations [s] := by
  obtain ⟨id, ss⟩ := s
  rw [Rose.entry] at hroot
  have hrest : a.seenAt n (ss.flatMap Rose.preorder) = [] := by
    refine seenAt_eq_nil fun d hd => ?_
    obtain ⟨c, hc, hd⟩ := mem_flatMap.1 hd
    exact hbelow c hc d hd
  rw [Rose.preorder_node, seenAt_cons, hrest, append_nil]
  unfold seenAt declarations
  refine filter_congr fun d hd => ?_
  rw [mem_singleton.1 hd]
  by_cases hk : a.kind id = .varDecl
  · rw [hroot hk, Bool.and_true]
  · rw [beq_eq_false_iff_ne.2 hk, Bool.false_and]

theorem seenAt_flatMap (h : ∀ s ∈ ss, a.seenAt n s.preorder = a.declarations [s]) :
    a.seenAt n (ss.flatMap Rose.preorder) = a.declarations ss := by
  induction ss with
  | nil => rfl
  | cons s ss ih =>
    rw [flatMap_cons, seenAt_append, h s (.head _),
      ih fun u hu => h u (.tail _ hu), ← declarations_append]
    rfl

variable (hw : a.WellFormed)

include hw

/-- Of what stands in front of a node `n` below another one, the declarations among the children
are seen, and what is seen below the child that holds `n`. -/
theorem seenAt_before (hspans : a.Spans (.node id (pre ++ s :: post)))
    (hparams : ∀ x ∈ (Rose.node id (pre ++ s :: post)).preorder, a.kind x ≠ .params)
    (hk : a.kind id ≠ .varDecl) (hn : n ∈ s.preorder) :
    a.seenAt n ((Rose.node id (pre ++ s :: post)).preorder.takeWhile (· != n)) =
      a.declarations pre ++ a.seenAt n (s.preorder.takeWhile (· != n)) := by
  have hs : s ∈ pre ++ s :: post := mem_append_right _ (.head _)
  have hdis : ∀ u ∈ pre ++ post, u.preorder.Disjoint s.preorder := fun u hu =>
    (hspans.around hw (mem_append.1 hu)).2
  have hlt : n < a.size := (hspans.of_mem hs).lt_size_of_mem n hn
  have hunder : a.Under n id := (hspans.mem_preorder hw).1 (Rose.mem_preorder_of_mem hs hn)
  have hne : id ≠ n := by
    rintro rfl
    exact hspans.not_mem_child hw hs hn
  have hpassed : ∀ c ∈ pre, a.seenAt n c.preorder = a.declarations [c] := by
    intro c hc
    have hmem : c ∈ pre ++ s :: post := mem_append_left _ hc
    have hcspans := hspans.of_mem hmem
    have hnc : n ∉ c.preorder := fun h => hdis c (mem_append_left _ hc) h hn
    refine seenAt_preorder (fun _ => ?_) fun d hd x hx _ => ?_
    · exact visibleAt_of_parent hw hlt (hcspans.not_under hw hnc)
        (hspans.parent_of_mem hw hmem) (.inr hunder)
    · obtain ⟨c, cs⟩ := c
      refine not_visibleAt_of_below hw hlt hcspans hnc
        (fun x hx => hparams x (Rose.mem_preorder_of_mem hmem hx)) (Rose.mem_preorder_of_mem hd hx) ?_
      rintro rfl
      exact hcspans.not_mem_child hw hd hx
  rw [Rose.preorder_node, takeWhile_ne_cons hne, takeWhile_flatMap hdis hn, seenAt_cons,
    seenAt_of_kind (l := [id]) (by simpa using hk), nil_append, seenAt_append,
    seenAt_flatMap hpassed]

theorem seenAt_initial (hspans : a.Spans (.node id ss))
    (hformed : Formed types ((Rose.node id ss).map a.label)) (hk : a.kind id = .varDecl)
    (hn : n ∈ (Rose.node id ss).preorder) :
    a.seenAt n ((Rose.node id ss).preorder.takeWhile (· != n)) = [] := by
  refine seenAt_eq_nil fun x hx hkx => ?_
  have hx' := (takeWhile_sublist _).subset hx
  rw [Rose.preorder_node, mem_cons] at hx'
  rcases hx' with rfl | hx'
  · exact not_visibleAt_of_under hw (hspans.lt_size_of_mem n hn) ((hspans.mem_preorder hw).1 hn)
  · obtain ⟨c, hc, hx'⟩ := mem_flatMap.1 hx'
    exact absurd hkx ((declaration_inert hformed hk hc).kind_ne x hx')

omit hw

/-- **What is visible at the nodes of a statement** of the item `f`: the declarations `L`, and
behind them what is seen of the statement itself. -/
def Sees (a : Arena) (f : NodeId) (L : List NodeId) (s : Rose NodeId) : Prop :=
  ∀ n ∈ s.preorder, a.visibleBefore f n = L ++ a.seenAt n (s.preorder.takeWhile (· != n))

theorem Sees.entry (h : Sees a f L s) : a.visibleBefore f s.entry = L := by
  obtain ⟨id, ss⟩ := s
  have hself := h id (by simp)
  rw [Rose.preorder_node, takeWhile_cons_of_neg (by simp)] at hself
  exact hself.trans (append_nil L)

theorem Sees.inert (h : Sees a f L s) (hs : ∀ x ∈ s.preorder, a.kind x ≠ .varDecl) (hn : n ∈ s.preorder) :
    a.visibleBefore f n = L := by
  rw [h n hn, seenAt_of_kind fun x hx => hs x ((takeWhile_sublist _).subset hx), append_nil]

include hw

theorem Sees.child (h : Sees a f L (.node id (pre ++ s :: post)))
    (hspans : a.Spans (.node id (pre ++ s :: post)))
    (hparams : ∀ x ∈ (Rose.node id (pre ++ s :: post)).preorder, a.kind x ≠ .params)
    (hk : a.kind id ≠ .varDecl) : Sees a f (L ++ a.declarations pre) s := by
  intro n hn
  have hmem := Rose.mem_preorder_of_mem (a := id)
    (mem_append_right pre (mem_cons_self (l := post))) hn
  rw [h n hmem, seenAt_before hw hspans hparams hk hn, append_assoc]

theorem Sees.part (hsees : Sees a f L (.node id ss))
    (hspans : a.Spans (.node id ss)) (hparams : ∀ x ∈ (Rose.node id ss).preorder, a.kind x ≠ .params)
    (hk : a.kind id ≠ .varDecl) (hu : s ∈ ss)
    (hss : ∀ c ∈ ss, a.kind c.entry ≠ .varDecl) : Sees a f L s := by
  obtain ⟨pre, post, rfl⟩ := append_of_mem hu
  have hchild := hsees.child hw hspans hparams hk
  rwa [declarations_of_kind fun c hc => hss c (mem_append_left _ hc), append_nil] at hchild

theorem Sees.governed {cond yes : Rose NodeId} {rest : List (Rose NodeId)}
    (hsees : Sees a f L (.node id (cond :: yes :: rest)))
    (hspans : a.Spans (.node id (cond :: yes :: rest)))
    (hparams : ∀ x ∈ (Rose.node id (cond :: yes :: rest)).preorder, a.kind x ≠ .params)
    (hformed : Formed types ((Rose.node id (cond :: yes :: rest)).map a.label))
    (hk : a.kind id = .conditional) (hu : s ∈ cond :: yes :: rest) : Sees a f L s := by
  obtain ⟨hcond, hyes, hrest⟩ := conditional_kinds hformed hk
  refine hsees.part hw hspans hparams (by simp [hk]) hu (forall_mem_cons.2 ⟨fun he => ?_,
    forall_mem_cons.2 ⟨fun he => ?_, fun c hc he => ?_⟩⟩)
  · rw [he] at hcond
    cases hcond
  · cases hyes.symm.trans he
  · rcases hrest c hc with hkc | hkc <;> cases hkc.symm.trans he

theorem Sees.initial (h : Sees a f L (.node id ss)) (hspans : a.Spans (.node id ss))
    (hformed : Formed types ((Rose.node id ss).map a.label)) (hk : a.kind id = .varDecl)
    (hn : n ∈ (Rose.node id ss).preorder) : a.visibleBefore f n = L := by
  rw [h n hn, seenAt_initial hw hspans hformed hk hn, append_nil]

/-- **What is visible in the body of a function**: its parameters, and then what is seen of the
body. -/
theorem sees_body {ret : Rose NodeId} {q b : NodeId} {params body : List (Rose NodeId)}
    (hspans : a.Spans (.node f [ret, .node q params, .node b body])) (hk : a.kind f = .function)
    (hq : a.kind q = .params) (hret : ∀ x ∈ ret.preorder, a.kind x ≠ .varDecl)
    (hparams : ∀ d ∈ params, ∀ c ∈ d.children, ∀ x ∈ c.preorder, a.kind x ≠ .varDecl) :
    Sees a f (a.declarations params) (.node b body) := by
  intro n hn
  have hlt : n < a.size := (hspans.of_mem (by simp)).lt_size_of_mem n hn
  have hdis : ∀ u ∈ [ret, .node q params] ++ [],
      u.preorder.Disjoint (Rose.node b body).preorder := fun u hu =>
    (hspans.around hw (mem_append.1 hu)).2
  have hnf : f ≠ n := by
    rintro rfl
    exact hspans.not_mem_child hw (by simp) hn
  have hbefore : a.before f n = f :: ([ret, .node q params].flatMap Rose.preorder ++
      (Rose.node b body).preorder.takeWhile (· != n)) := by
    have hpreorder : a.preorder f = (Rose.node f [ret, .node q params, .node b body]).preorder :=
      hspans.preorder_eq hw
    unfold before
    rw [hpreorder, Rose.preorder_node, takeWhile_ne_cons hnf]
    exact congrArg (f :: ·) (takeWhile_flatMap hdis hn)
  have hqspans := hspans.of_mem (s := .node q params) (by simp)
  have hpassed : ∀ d ∈ params, a.seenAt n d.preorder = a.declarations [d] := by
    intro d hd
    have hnd : n ∉ d.preorder := fun hm =>
      hdis (.node q params) (by simp) (Rose.mem_preorder_of_mem hd hm) hn
    refine seenAt_preorder (fun _ => ?_) fun c hc x hx hkx => absurd hkx (hparams d hd c hc x hx)
    exact visibleAt_of_parent hw hlt ((hqspans.of_mem hd).not_under hw hnd)
      (hqspans.parent_of_mem hw hd) (.inl hq)
  unfold visibleBefore
  rw [hbefore, seenAt_cons, seenAt_of_kind (l := [f]) (by simp [hk]), nil_append, seenAt_append,
    flatMap_cons, flatMap_singleton, seenAt_append, seenAt_of_kind hret, nil_append,
    Rose.preorder_node, seenAt_cons, seenAt_of_kind (l := [q]) (by simp [hq]), nil_append,
    seenAt_flatMap hpassed]

end Arena

namespace Emit.JavaScript

open Arena ScopeWalk

variable {arena : Arena} {id f : NodeId} {ss : List (Rose NodeId)}

theorem declaredType?_eq (hs : arena.Spans (.node id ss)) : Collect.declaredType? arena id =
    (ss.head?.map fun c => arena.label c.entry).bind Label.type? := by
  unfold Collect.declaredType? Arena.child?
  rw [hs.children_eq]
  cases ss with
  | nil => rfl
  | cons s ss => rfl

theorem not_isTopLevel {x : Nat} (hw : arena.WellFormed) (hk : arena.kind f = .function)
    (hx : x < arena.size) (hunder : arena.Under x f) (hne : x ≠ f) : isTopLevel arena x = false := by
  have hlineage := (mem_lineage hw hx).2 hunder
  unfold isTopLevel enclosing?
  unfold lineage at hlineage ⊢
  obtain ⟨m, hm⟩ : ∃ m, arena.size = m + 1 := ⟨arena.size - 1, by omega⟩
  rw [hm, lineageWithin] at hlineage ⊢
  have htail := (mem_cons.1 hlineage).resolve_left (Ne.symm hne)
  rw [tail_cons, Option.isNone_eq_false_iff, find?_isSome]
  exact ⟨f, htail, by simp [hk]⟩

end Emit.JavaScript

end VecLang
