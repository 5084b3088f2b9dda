import Mathlib.Data.List.Induction
import VecLang.Proofs.Emit.Outline

/-!
# Shadowing

What a name refers to at a node of a function, said by the positions of declarations alone. A
declaration is visible behind it in the block in which it stands, and a parameter in the whole
function. A parameter shadows what its name refers to around the function. So does any other
declaration, unless the name refers to a slot or a parameter of the same type there: then it
says again what that is.

* `referent`, `shadows`: what a name refers to, and which declarations shadow others.
* `inEffect`, `referent_eq`: a name refers to the last declaration that shadows others and is
  visible, and if there is none to what it refers to at the top.
* `Ordered`: what is visible at a declaration is visible behind it as well.
-/

namespace VecLang

open ScopeWalk List

namespace Arena

def isParameter (a : Arena) (d : NodeId) : Bool := (a.parent? d).any fun p => a.kind p == .params

variable {a : Arena} {n d f id : NodeId} {l l' L : List NodeId} {s : Rose NodeId}
  {ss pre post : List (Rose NodeId)} {types : TypeTable}

/-- **Each declaration stands behind those that are visible at it**, the parameters apart. -/
def Ordered (a : Arena) (f : NodeId) (L : List NodeId) : Prop :=
  ∀ pre d post, L = pre ++ d :: post → a.isParameter d = false → a.visibleBefore f d = pre

theorem Ordered.nil (a : Arena) (f : NodeId) : Ordered a f [] := by
  intro pre d post h
  cases pre <;> cases h

theorem Ordered.of_append (h : Ordered a f (l ++ l')) : Ordered a f l :=
  fun pre d post hl => h pre d (post ++ l') (by rw [hl, append_assoc, cons_append])

theorem Ordered.concat (h : Ordered a f L)
    (hd : a.isParameter d = false → a.visibleBefore f d = L) : Ordered a f (L ++ [d]) := by
  intro pre e post hsplit hparam
  rcases eq_nil_or_concat post with rfl | ⟨post, last, rfl⟩
  · obtain ⟨rfl, he⟩ := append_inj' hsplit rfl
    cases he
    exact hd hparam
  · rw [concat_eq_append, ← cons_append, ← append_assoc] at hsplit
    exact h pre e post (append_inj' hsplit rfl).1 hparam

theorem Ordered.declarations (hw : a.WellFormed) (hsees : Sees a f L (.node id ss))
    (hin : Interior types a f (.node id ss)) (hk : a.kind id ≠ .varDecl) (h : Ordered a f L)
    (hss : ss = pre ++ post) : Ordered a f (L ++ a.declarations pre) := by
  induction pre using reverseRecOn generalizing post with
  | nil => rwa [declarations_nil, append_nil]
  | append_singleton pre c ih =>
    rw [append_assoc, singleton_append] at hss
    subst hss
    have hpre : Ordered a f (L ++ a.declarations pre) := ih rfl
    rw [declarations_append, ← append_assoc]
    by_cases hc : a.kind c.entry = .varDecl
    · rw [declarations_singleton hc]
      exact hpre.concat fun _ => (hsees.child hw hin.spans hin.no_params hk).entry
    · rw [declarations_of_kind (forall_mem_singleton.2 hc), append_nil]
      exact hpre

/-- **The declarations that are visible at a node are ordered.** -/
theorem Ordered.visibleBefore (hw : a.WellFormed) (hsees : Sees a f L s)
    (hin : Interior types a f s) (h : Ordered a f L) (hn : n ∈ s.preorder) :
    Ordered a f (a.visibleBefore f n) := by
  induction s using Rose.induction generalizing L with
  | node id ss ih =>
    by_cases hk : a.kind id = .varDecl
    · rw [hsees.initial hw hin.spans hin.formed hk hn]
      exact h
    rw [Rose.preorder_node, mem_cons] at hn
    rcases hn with rfl | hn
    · have hself := hsees.entry
      rw [Rose.entry] at hself
      rw [hself]
      exact h
    · obtain ⟨s, hs, hbelow⟩ := mem_flatMap.1 hn
      obtain ⟨pre, post, rfl⟩ := append_of_mem hs
      exact ih s hs (hsees.child hw hin.spans hin.no_params hk) (hin.of_mem hs)
        (h.declarations hw hsees hin hk rfl) hbelow

end Arena

theorem Interior.not_isParameter {types : TypeTable} {a : Arena} {f id : NodeId} {c : Rose NodeId}
    {ss : List (Rose NodeId)} (h : Interior types a f (.node id ss)) (hw : a.WellFormed)
    (hc : c ∈ ss) : a.isParameter c.entry = false := by
  unfold Arena.isParameter
  rw [h.spans.parent_of_mem hw hc, Option.any_some]
  exact beq_eq_false_iff_ne.2 (h.kinds id (by simp)).2

section Functions

open Arena

variable {p : Program} {root f q b n d : NodeId} {ret : Rose NodeId}
  {ss params body : List (Rose NodeId)} (h : Outlined p root)

include h

theorem Outlined.not_child (hf : f ∈ p.arena.children root) (hunder : p.arena.Under d f)
    (hne : d ≠ f) : d ∉ p.arena.children root := by
  intro hd
  cases hunder with
  | refl => exact hne rfl
  | child hp hu =>
    rw [(h.wellFormed.linked root d).1 hd] at hp
    cases hp
    exact h.wellFormed.not_under_of_parent ((h.wellFormed.linked root f).1 hf) hu

/-- What is visible at a node of an item is a declaration further down in it. -/
theorem Outlined.mem_visibleBefore (hs : .node f ss ∈ (p.arena.shape root).children)
    (hn : n ∈ (Rose.node f ss).preorder) (hd : d ∈ p.arena.visibleBefore f n) :
    p.arena.kind d = .varDecl ∧ d ∈ (Rose.node f ss).preorder ∧ d ≠ f := by
  have hspans := (h.item hs).1
  have hpreorder : p.arena.preorder f = (Rose.node f ss).preorder := hspans.preorder_eq h.wellFormed
  obtain ⟨hbefore, hboth⟩ := mem_filter.1 hd
  obtain ⟨hk, hvisible⟩ := Bool.and_eq_true_iff.1 hboth
  unfold Arena.before at hbefore
  rw [hpreorder] at hbefore
  refine ⟨beq_iff_eq.1 hk, (takeWhile_sublist _).subset hbefore, ?_⟩
  rintro rfl
  have hunder := (hspans.mem_preorder h.wellFormed).1 hn
  rw [Rose.entry] at hunder
  rw [not_visibleAt_of_under h.wellFormed (hspans.lt_size_of_mem n hn) hunder] at hvisible
  cases hvisible

variable (hs : .node f [ret, .node q params, .node b body] ∈ (p.arena.shape root).children)
  (hk : p.arena.kind f = .function)

include hs hk

theorem Outlined.sees_body : Sees p.arena f (p.arena.declarations params) (.node b body) := by
  obtain ⟨_, _, _, _, _, heq, hkq, hkb, hret, hkret, hparams, -⟩ := h.parts hs hk
  cases heq
  refine Arena.sees_body h.wellFormed (h.item hs).1 hk hkq (hret.inert (by rw [hkret]; rfl))
    fun d hd c hc => ?_
  obtain ⟨d, ds⟩ := d
  exact (declaration_inert (hparams _ hd).2.formed (hparams _ hd).1 hc).kind_ne

omit hk in
theorem Outlined.isParameter_of_mem (hk : p.arena.kind f = .function) {d : Rose NodeId}
    (hd : d ∈ params) : p.arena.isParameter d.entry = true := by
  obtain ⟨_, _, _, _, _, heq, hkq, -⟩ := h.parts hs hk
  cases heq
  have hqspans := (h.item hs).1.of_mem (s := .node q params) (by simp)
  unfold Arena.isParameter
  rw [hqspans.parent_of_mem h.wellFormed hd]
  simp [hkq]

theorem Outlined.ordered_params : Ordered p.arena f (p.arena.declarations params) := by
  intro pre d post hsplit hparam
  have hmem : d ∈ p.arena.declarations params := by
    rw [hsplit]
    exact mem_append_right _ (.head _)
  obtain ⟨d, hd, rfl⟩ := mem_map.1 (mem_filter.1 hmem).1
  rw [h.isParameter_of_mem hs hk hd] at hparam
  cases hparam

end Functions

namespace Emit.JavaScript

open Arena

section Definitions

variable (ctx : Context) (a : Arena) (root : NodeId)

/-- **The declaration `d` says again what `c` is**, to which its name refers: a slot or a parameter
of the same type. Outside functions a slot is said again by a declaration of any type. -/
def restates (name : String) (c d : NodeId) : Bool :=
  let agree := ctx.types.agree (Collect.declaredType? a c) (Collect.declaredType? a d)
  (ctx.slots.find? name).any (·.decl == c) && (isTopLevel a d || agree) || a.isParameter c && agree

/-- What a name refers to around the item `f`: the slot of that name, or the last declaration of it
in front of the item. -/
def topReferent (f : NodeId) (name : String) : Option NodeId :=
  ((ctx.slots.find? name).map Slot.decl).or (a.lastDeclaring name (a.childrenBefore root f))

/-- What a name refers to behind a declaration `d` of it, if it refers to `c` in front of that. -/
def settle (name : String) (c : Option NodeId) (d : NodeId) : Option NodeId :=
  if !a.isParameter d && c.any (restates ctx a name · d) then c else some d

/-- What a name refers to behind declarations, if it refers to `top` in front of them. -/
def referentAfter (top : Option NodeId) (name : String) (ds : List NodeId) : Option NodeId :=
  (ds.filter (a.declares name)).foldl (settle ctx a name) top

/-- **What a name refers to at the node `n` of the item `f`.** -/
def referent (f n : NodeId) (name : String) : Option NodeId :=
  referentAfter ctx a (topReferent ctx a root f name) name (a.visibleBefore f n)

/-- **The declaration `d` of the item `f` shadows what its name refers to**: it is a parameter, or
it does not say again what that is. -/
def shadows (f d : NodeId) : Bool :=
  a.isParameter d || (a.name? d).any fun name =>
    !(referent ctx a root f d name).any (restates ctx a name · d)

/-- **The declarations of a name that are in effect at the node `n` of the item `f`**: those that
are visible there and shadow what the name refers to around them. -/
def inEffect (f n : NodeId) (name : String) : List NodeId :=
  (a.visibleBefore f n).filter fun d => a.declares name d && shadows ctx a root f d

/-- **How a name is spelled at the node `n` of the item `f`**: by its place if it is an output and
no declaration of it is in effect there, and as it is otherwise. -/
def spelling (f n : NodeId) (name : String) : String :=
  match (Bindings.ofSlots ctx.slots).place? name with
  | some k => if (inEffect ctx a root f n name).isEmpty then "__outs[" ++ toString k ++ "]" else name
  | none => name

end Definitions

variable {ctx : Context} {a : Arena} {root f n d : NodeId} {top : Option NodeId} {name : String}
  {L : List NodeId}

theorem referentAfter_concat : referentAfter ctx a top name (L ++ [d]) =
    if a.declares name d then settle ctx a name (referentAfter ctx a top name L) d
    else referentAfter ctx a top name L := by
  unfold referentAfter
  rw [filter_append, foldl_append, filter_singleton]
  cases a.declares name d <;> rfl

/-- Whether a declaration shadows others, from what its name refers to in front of it. -/
theorem shadows_eq (hname : a.name? d = some name) (hparam : a.isParameter d = false) :
    shadows ctx a root f d = !(referent ctx a root f d name).any (restates ctx a name · d) := by
  unfold shadows
  rw [hname, hparam, Bool.false_or, Option.any_some]

theorem settle_of_shadows (hname : a.name? d = some name) (h : shadows ctx a root f d = true) :
    settle ctx a name (referent ctx a root f d name) d = some d := by
  refine if_neg fun hsame => ?_
  obtain ⟨hparam, hrestates⟩ := Bool.and_eq_true_iff.1 hsame
  rw [Bool.not_eq_true'] at hparam
  rw [shadows_eq hname hparam, hrestates] at h
  cases h

theorem settle_of_not_shadows (hname : a.name? d = some name)
    (h : shadows ctx a root f d = false) :
    settle ctx a name (referent ctx a root f d name) d = referent ctx a root f d name := by
  have hparam : a.isParameter d = false := (Bool.or_eq_false_iff.1 h).1
  rw [shadows_eq hname hparam, Bool.not_eq_false'] at h
  refine if_pos ?_
  rw [hparam, h]
  rfl

/-- A declaration settles what its name refers to behind it by what it refers to at it. A parameter
does so whatever stands in front of it. -/
theorem settle_referentAfter (h : Ordered a f (L ++ [d])) (hd : a.declares name d = true) :
    settle ctx a name (referentAfter ctx a (topReferent ctx a root f name) name L) d =
      if shadows ctx a root f d then some d
      else referentAfter ctx a (topReferent ctx a root f name) name L := by
  have hname := (Arena.declares_iff.1 hd).2
  cases hparam : a.isParameter d with
  | true =>
    unfold settle shadows
    rw [hparam]
    rfl
  | false =>
    have hvisible : a.visibleBefore f d = L := h L d [] rfl hparam
    have hreferent : referentAfter ctx a (topReferent ctx a root f name) name L =
        referent ctx a root f d name := by
      unfold referent
      rw [hvisible]
    rw [hreferent]
    split
    · next hs => exact settle_of_shadows hname hs
    · next hs => exact settle_of_not_shadows hname (Bool.eq_false_iff.2 hs)

/-- Behind declarations a name refers to the last one that shadows others. -/
theorem referentAfter_eq (h : Ordered a f L) :
    referentAfter ctx a (topReferent ctx a root f name) name L =
      ((L.filter fun d => a.declares name d && shadows ctx a root f d).getLast?).or
        (topReferent ctx a root f name) := by
  induction L using reverseRecOn with
  | nil => rfl
  | append_singleton L d ih =>
    rw [referentAfter_concat, filter_append, filter_singleton]
    cases hd : a.declares name d with
    | false =>
      rw [if_neg Bool.false_ne_true, Bool.false_and, cond_false, append_nil]
      exact ih h.of_append
    | true =>
      rw [if_pos rfl, settle_referentAfter h hd, Bool.true_and]
      cases shadows ctx a root f d with
      | false =>
        rw [if_neg Bool.false_ne_true, cond_false, append_nil]
        exact ih h.of_append
      | true =>
        rw [if_pos rfl, cond_true, getLast?_concat]
        rfl

/-- **A name refers to the last declaration that is in effect**, and if there is none to what it
refers to around the item. -/
theorem referent_eq (h : Ordered a f (a.visibleBefore f n)) :
    referent ctx a root f n name =
      ((inEffect ctx a root f n name).getLast?).or (topReferent ctx a root f name) :=
  referentAfter_eq h

end Emit.JavaScript

end VecLang
