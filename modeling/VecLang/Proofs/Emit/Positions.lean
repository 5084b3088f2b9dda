import VecLang.Proofs.Emit.Generate
import VecLang.Proofs.Emit.Script
import VecLang.Proofs.Emit.ScriptText

/-!
# Scopes and positions

The scopes in which a script is written show at every place what the positions of the declarations
say, so the script of a compiled program is the text of the statements that are found by positions.

* `Follows`: scopes show what names refer to behind certain declarations.
* `Follows.identText_eq`: then a name is written as it is spelled at a place where these are
  visible.
* `Follows.declared`, `Outlined.scripted`: what one declaration and any statement of a function
  keep up.
* `generate_by_positions`: the script of a compiled program.
-/

namespace VecLang

open List

variable {params body : List (Rose NodeId)} {names : List String} {ret : Rose NodeId}

namespace Slots

variable {slots : Slots} {name : String} {slot : Slot} {k : Nat}

theorem find?_of_mem (h : (slots.all.map Prod.fst).Nodup) (hmem : (name, slot) ∈ slots.all) :
    slots.find? name = some slot := by
  have hsome := Context.isSome_slotScopes (mem_map_of_mem (f := Prod.fst) hmem)
  rw [Context.get?_slotScopes h, Option.isSome_map] at hsome
  obtain ⟨slot', hfind⟩ := Option.isSome_iff_exists.1 hsome
  cases inj_on_of_nodup_map h hmem (mem_all_of_find? hfind) rfl
  exact hfind

theorem find?_of_place? (h : (slots.all.map Prod.fst).Nodup)
    (hplace : (Emit.Bindings.ofSlots slots).place? name = some k) :
    ∃ slot, slots.outputs.get? name = some slot ∧ slots.find? name = some slot := by
  have hkey := mem_of_getElem? ((Emit.Bindings.place?_ofSlots h).1 hplace)
  obtain ⟨slot, hget⟩ := Option.isSome_iff_exists.1 (Table.mem_keys_iff.1 hkey)
  exact ⟨slot, hget, find?_of_mem h (mem_all.2 ⟨.output, Table.mem_of_get? hget⟩)⟩

end Slots

namespace Emit.JavaScript

open Arena Collect

variable {ctx : Context} {a : Arena} {options : Options} {root f n d c : NodeId} {name : String}
  {top : Option NodeId} {L : List NodeId} {s s' : ScopeStack} {ss : List (Rose NodeId)}
  {depth : Nat} {text : String}

/-! ### Scopes that follow the declarations -/

theorem mem_of_referentAfter (h : referentAfter ctx a top name L = some c) : c ∈ L ∨ top = some c := by
  induction L using reverseRecOn with
  | nil => exact .inr h
  | append_singleton L d ih =>
    rw [referentAfter_concat] at h
    have hbefore := fun h => (ih h).imp_left (mem_append_left [d])
    split at h
    · unfold settle at h
      split at h
      · exact hbefore h
      · cases h
        exact .inl (by simp)
    · exact hbefore h

theorem topReferent_mem (hfiled : Filed a (a.children root) ctx.slots)
    (h : topReferent ctx a root f name = some c) : c ∈ a.children root := by
  unfold topReferent at h
  cases hfind : ctx.slots.find? name with
  | some slot =>
    rw [hfind] at h
    cases h
    exact hfiled.decl_mem (Slots.mem_all_of_find? hfind)
  | none =>
    rw [hfind] at h
    have hlast : a.lastDeclaring name (a.childrenBefore root f) = some c := h
    exact (takeWhile_sublist _).subset (mem_of_mem_filter (mem_of_getLast? hlast))

/-- **The scopes of a script in the item `f` behind the declarations `L`**: they show what names
refer to there, each with its type. -/
structure Follows (ctx : Context) (a : Arena) (root f : NodeId) (L : List NodeId)
    (s : ScopeStack) : Prop where
  decl : ∀ name, (s.get? name).bind Binding.decl? =
    referentAfter ctx a (topReferent ctx a root f name) name L
  bound : ∀ {name b}, s.get? name = some b → ∃ d, b.decl? = some d ∧ declaredType? a d = some b.type
  ordered : Ordered a f L
  inner : ∀ d ∈ L, d ∉ a.children root
  parameter : ∀ d ∈ L, ∀ q, a.parent? d = some q → a.kind q = .params → a.parent? q = some f

theorem Follows.type {b : Binding} (h : Follows ctx a root f L s) (hb : s.get? name = some b)
    (hd : b.decl? = some d) : declaredType? a d = some b.type := by
  obtain ⟨c, hc, htype⟩ := h.bound hb
  cases hd.symm.trans hc
  exact htype

section Follows

variable (hfiled : Filed a (a.children root) ctx.slots) (h : Follows ctx a root f L s)

include hfiled h

/-- **A name is written as it is spelled.** -/
theorem Follows.identText_eq (hn : a.visibleBefore f n = L) (name : String) :
    identText ctx s name = spelling ctx a root f n name := by
  unfold identText spelling
  cases hplace : (Bindings.ofSlots ctx.slots).place? name with
  | none =>
    cases hout : outputPlace? ctx s name with
    | none => rfl
    | some k =>
      rw [place?_of_outputPlace? hout] at hplace
      cases hplace
  | some k =>
    obtain ⟨slot, hget, hfind⟩ := Slots.find?_of_place? hfiled.nodup hplace
    have htop : topReferent ctx a root f name = some slot.decl := by
      unfold topReferent
      rw [hfind]
      rfl
    have hdecl := h.decl name
    rw [referentAfter_eq h.ordered, htop] at hdecl
    unfold inEffect
    rw [hn]
    cases hlast : (L.filter fun d => a.declares name d && shadows ctx a root f d).getLast? with
    | none =>
      -- what is visible is the output
      rw [hlast] at hdecl
      obtain ⟨b, hb, hbdecl⟩ := Option.bind_eq_some_iff.1 hdecl
      rw [(outputPlace?_eq_some_iff hfiled.nodup).2
        ⟨(Bindings.place?_ofSlots hfiled.nodup).1 hplace, slot, b, hget, hb, hbdecl⟩,
        getLast?_eq_none_iff.1 hlast]
      rfl
    | some d =>
      -- what is visible is declared in the item
      rw [hlast] at hdecl
      obtain ⟨b, hb, hbdecl⟩ := Option.bind_eq_some_iff.1 hdecl
      have hmem := mem_of_getLast? hlast
      have hne : b.decl? ≠ some slot.decl := by
        rw [hbdecl]
        intro he
        refine h.inner d (mem_of_mem_filter hmem) ?_
        rw [Option.some.inj he]
        exact hfiled.decl_mem (Slots.mem_all_of_find? hfind)
      have hout : outputPlace? ctx s name = none := by
        unfold outputPlace?
        rw [hget, hb]
        exact if_neg hne
      rw [hout, isEmpty_eq_false_iff.2 (ne_nil_of_mem hmem)]
      rfl

/-! ### Declarations -/

omit hfiled h

/-- **The place of a declaration** in the item `f`: outside functions it comes upon the slot of its
name, and in a function upon no parameters but those of the function. -/
structure Stands (ctx : Context) (a : Arena) (root f d : NodeId) : Prop where
  slot : ∀ {name slot}, ctx.slots.find? name = some slot → slot.decl = d ∨ isTopLevel a d = true →
    isTopLevel a d = true ∧ referent ctx a root f d name = some slot.decl
  parameter : ∀ {name c q}, referent ctx a root f d name = some c → a.parent? c = some q →
    a.kind q = .params →
      isTopLevel a d = false ∧ c ∉ a.children root ∧ a.parent? q = a.enclosing? d .function

theorem isParameter_iff : a.isParameter c = true ↔
    ∃ q, a.parent? c = some q ∧ a.kind q = .params := by
  unfold Arena.isParameter
  rw [Option.any_eq_true]
  simp only [beq_iff_eq]

variable {t : Ty} (hstands : Stands ctx a root f d) (hvisible : a.visibleBefore f d = L)
  (htype : declaredType? a d = some t)

include hvisible h in
theorem Follows.referent_eq (name : String) :
    (s.get? name).bind Binding.decl? = referent ctx a root f d name := by
  rw [h.decl]
  unfold referent
  rw [hvisible]

include hfiled h hstands hvisible htype

theorem Follows.restates_of_slot (hslot : restatesSlot ctx a s d name t = .ok true) :
    (referent ctx a root f d name).any (restates ctx a name · d) = true := by
  unfold restatesSlot at hslot
  split at hslot
  · cases hslot
  next slot hfind =>
  split at hslot
  · next hor =>
    obtain ⟨htop, hreferent⟩ := hstands.slot hfind hor
    rw [hreferent, Option.any_some]
    unfold restates
    rw [hfind, htop]
    simp
  · rw [h.referent_eq hvisible] at hslot
    split at hslot
    · next hreferent =>
      have hagree := TypeTable.agree_eq hslot
      rw [← hfiled.types _ (Slots.mem_all_of_find? hfind), ← htype] at hagree
      rw [hreferent, Option.any_some]
      unfold restates
      rw [hfind, hagree]
      simp
    · cases hslot

omit hfiled hstands in
theorem Follows.restates_of_parameter (hparam : restatesParameter ctx a s d name t = .ok true) :
    ∃ c, referent ctx a root f d name = some c ∧ a.isParameter c = true ∧
      restates ctx a name c d = true := by
  unfold restatesParameter at hparam
  split at hparam
  · cases hparam
  next b hb =>
  split at hparam
  · cases hparam
  next q hq =>
  obtain ⟨c, hc, hq⟩ := Option.bind_eq_some_iff.1 hq
  split at hparam
  swap
  · cases hparam
  next hparams =>
  have hagree := TypeTable.agree_eq hparam
  rw [← h.type hb hc, ← htype] at hagree
  have hreferent := h.referent_eq hvisible name
  rw [hb, Option.bind_some, hc] at hreferent
  have hisparam : a.isParameter c = true := isParameter_iff.2 ⟨q, hq, hparams.1⟩
  refine ⟨c, hreferent.symm, hisparam, ?_⟩
  unfold restates
  rw [hisparam, hagree]
  simp

theorem Follows.not_restates (hslot : restatesSlot ctx a s d name t = .ok false)
    (hparam : restatesParameter ctx a s d name t = .ok false) :
    (referent ctx a root f d name).any (restates ctx a name · d) = false := by
  have hdecl := h.referent_eq hvisible name
  cases hreferent : referent ctx a root f d name with
  | none => rfl
  | some c =>
    rw [hreferent] at hdecl
    obtain ⟨b, hb, hc⟩ := Option.bind_eq_some_iff.1 hdecl
    have hagrees : ctx.types.sameType b.type t = .ok false →
        ctx.types.agree (declaredType? a c) (declaredType? a d) = false := by
      intro hsame
      rw [h.type hb hc, htype]
      exact TypeTable.agree_eq hsame
    rw [Option.any_some]
    unfold restates
    refine Bool.or_eq_false_iff.2 ⟨?_, ?_⟩
    · -- it would be the slot
      unfold restatesSlot at hslot
      split at hslot
      · next hfind =>
        rw [hfind]
        rfl
      next slot hfind =>
      split at hslot
      · cases hslot
      next hor =>
      have htop : isTopLevel a d = false := Bool.eq_false_iff.2 fun ht => hor (.inr ht)
      rw [hfind, htop, Option.any_some, Bool.false_or]
      by_cases hsame : slot.decl = c
      · rw [hdecl, if_pos (congrArg some hsame.symm)] at hslot
        have htypes := hfiled.types _ (Slots.mem_all_of_find? hfind)
        rw [hsame, h.type hb hc] at htypes
        rw [← Option.some.inj htypes] at hslot
        rw [hagrees hslot, Bool.and_false]
      · rw [beq_eq_false_iff_ne.2 hsame, Bool.false_and]
    · -- it would be a parameter
      cases hisparam : a.isParameter c with
      | false => rfl
      | true =>
        obtain ⟨q, hq, hkq⟩ := isParameter_iff.1 hisparam
        unfold restatesParameter at hparam
        rw [hb] at hparam
        simp only [hc, Option.bind_some, hq] at hparam
        rw [if_pos ⟨hkq, (hstands.parameter hreferent hq hkq).2.2⟩] at hparam
        rw [hagrees hparam, Bool.and_false]

end Follows

theorem line_append {front back : String} (h : front ≠ "") (kind : Kind) :
    line options depth kind (front ++ back) =
      options.pad depth ++ (front ++ back) ++ terminator kind := by
  refine if_neg fun he => h ?_
  rw [String.isEmpty_iff, String.append_eq_empty_iff] at he
  exact he.1

theorem line_assignment (name value : String) :
    line options depth .varDecl (name ++ " = " ++ value) =
      Stmt.texts options depth [.plain (name ++ " = " ++ value)] := by
  rw [line_append (by simp), Stmt.texts_singleton, Stmt.text]
  rfl

theorem line_binding (name value : String) :
    line options depth .varDecl ("let " ++ name ++ " = " ++ value) =
      Stmt.texts options depth [.binding name value] := by
  rw [line_append (by simp), Stmt.texts_singleton, Stmt.text]
  rfl

section Declarations

variable (hfiled : Filed a (a.children root) ctx.slots) (h : Follows ctx a root f L s)
  (hstands : Stands ctx a root f d) (hvisible : a.visibleBefore f d = L)

include hfiled h hstands hvisible

theorem Follows.identText_of_parameter (hreferent : referent ctx a root f d name = some c)
    (hc : a.isParameter c = true) : identText ctx s name = name ∧ isTopLevel a d = false := by
  obtain ⟨q, hq, hkq⟩ := isParameter_iff.1 hc
  obtain ⟨htop, hchild, -⟩ := hstands.parameter hreferent hq hkq
  refine ⟨?_, htop⟩
  unfold identText
  cases hout : outputPlace? ctx s name with
  | none => rfl
  | some k =>
    obtain ⟨-, slot, b, hget, hb, hdecl⟩ := (outputPlace?_eq_some_iff hfiled.nodup).1 hout
    have hsame := h.referent_eq hvisible name
    rw [hb, Option.bind_some, hdecl, hreferent] at hsame
    refine absurd ?_ hchild
    rw [← Option.some.inj hsame]
    exact hfiled.decl_mem (e := (name, slot)) (Slots.mem_all.2 ⟨.output, Table.mem_of_get? hget⟩)

/-- **A declaration is written as the positions say**, and it binds its name if it shadows
others. -/
theorem Follows.declared (depth : Nat) (hspans : a.Spans (.node d ss))
    (hparam : a.isParameter d = false)
    (hinit : ∀ init, ss[1]? = some init → Respells ctx a options root f s init)
    (hdecl : declaration ctx a options s d ss = .ok (text, s')) :
    ∃ stmts name t, declarationScript ctx a options root f d ss = .ok stmts ∧
      line options depth .varDecl text = Stmt.texts options depth stmts ∧
      a.name? d = some name ∧ declaredType? a d = some t ∧
      s' = if shadows ctx a root f d then s.bind name { type := t, decl? := some d } else s := by
  obtain ⟨name, t, hname, ht, hcases⟩ := declaration_eq_ok hdecl
  have hname? : a.name? d = some name := nameOf_eq_ok hname
  have htype : declaredType? a d = some t := by
    rw [declaredType?_eq hspans]
    exact declaredType_eq_ok ht
  have hshadows : shadows ctx a root f d =
      !(referent ctx a root f d name).any (restates ctx a name · d) := shadows_eq hname? hparam
  have hspelling := h.identText_eq hfiled hvisible name
  have hscript : declarationScript ctx a options root f d ss =
      if shadows ctx a root f d then do
        return [.binding name (← initialText ctx a options root f t ss[1]?)]
      else assignmentScript ctx a options root f d name ss[1]? := by
    unfold declarationScript
    rw [hname, ht]
    rfl
  rw [hscript]
  -- what says again what a slot or a parameter is assigns at most
  have hassigned : ∀ {target : String} {assigns : Bool}, target = spelling ctx a root f d name →
      assigns = assignsSlot ctx a d name →
      assignment ctx a options s target assigns ss[1]? = .ok text →
      ∃ stmts, assignmentScript ctx a options root f d name ss[1]? = .ok stmts ∧
        line options depth .varDecl text = Stmt.texts options depth stmts := by
    rintro _ _ rfl rfl htext
    rcases assignment_eq_ok htext with ⟨rfl, hnone⟩ | ⟨init, value, hss, hassigns, hvalue, rfl⟩
    · refine ⟨[], ?_, rfl⟩
      cases hss : ss[1]? with
      | none => rfl
      | some init =>
        simp only [assignmentScript, hnone init hss]
        rfl
    · rw [show expression ctx options s (labelled a init) = _ from hinit init hss] at hvalue
      refine ⟨_, ?_, line_assignment _ _⟩
      simp only [hss, assignmentScript, spelledText, hvalue, hassigns, if_true]
      rfl
  rcases hcases with ⟨hslot, rfl, htext⟩ | ⟨hparameter, rfl, htext⟩ |
    ⟨hslot, hparameter, rfl, value, hvalue, rfl⟩
  · rw [h.restates_of_slot hfiled hstands hvisible htype hslot, Bool.not_true] at hshadows
    rw [hshadows]
    obtain ⟨stmts, hstmts, hline⟩ := hassigned hspelling rfl htext
    exact ⟨stmts, name, t, hstmts, hline, hname?, htype, rfl⟩
  · obtain ⟨c, hreferent, hisparam, hrestates⟩ := h.restates_of_parameter hvisible htype hparameter
    rw [hreferent, Option.any_some, hrestates, Bool.not_true] at hshadows
    rw [hshadows]
    obtain ⟨hsame, htop⟩ := h.identText_of_parameter hfiled hstands hvisible hreferent hisparam
    have hassigns : true = assignsSlot ctx a d name := by
      unfold assignsSlot
      rw [htop]
      rfl
    obtain ⟨stmts, hstmts, hline⟩ := hassigned (hsame.symm.trans hspelling) hassigns htext
    exact ⟨stmts, name, t, hstmts, hline, hname?, htype, rfl⟩
  · rw [h.not_restates hfiled hstands hvisible htype hslot hparameter, Bool.not_false] at hshadows
    rw [hshadows]
    refine ⟨[.binding name value], name, t, ?_, line_binding _ _, hname?, htype, rfl⟩
    have hvalue' : initialText ctx a options root f t ss[1]? = .ok value := by
      cases hss : ss[1]? with
      | none =>
        rw [hss] at hvalue
        exact hvalue
      | some init =>
        rw [hss] at hvalue
        exact (hinit init hss).symm.trans hvalue
    rw [if_pos rfl, hvalue']
    rfl

end Declarations

/-- **Behind a declaration** the scopes show what it says. -/
theorem Follows.concat {t : Ty} (h : Follows ctx a root f L s) (hk : a.kind d = .varDecl)
    (hname : a.name? d = some name) (htype : declaredType? a d = some t)
    (hvisible : a.isParameter d = false → a.visibleBefore f d = L) (hd : d ∉ a.children root)
    (hparam : ∀ q, a.parent? d = some q → a.kind q = .params → a.parent? q = some f) :
    Follows ctx a root f (L ++ [d])
      (if shadows ctx a root f d then s.bind name { type := t, decl? := some d } else s) := by
  -- the order of declarations decides what an earlier one of this name referred to
  have hordered := h.ordered.concat hvisible
  have hdeclares : ∀ other, a.declares other d = true ↔ other = name := fun other =>
    declares_iff.trans ⟨fun hd => Option.some.inj (hd.2.symm.trans hname), fun he => ⟨hk, he ▸ hname⟩⟩
  refine ⟨fun other => ?_, fun {other b} hb => ?_, hordered, ?_, ?_⟩
  · rw [referentAfter_concat]
    by_cases hother : other = name
    · have hd := (hdeclares other).2 hother
      have hsettle : settle ctx a other
          (referentAfter ctx a (topReferent ctx a root f other) other L) d = _ :=
        settle_referentAfter hordered hd
      rw [if_pos hd, hsettle]
      split
      · rw [ScopeStack.get?_bind, if_pos hother]
        rfl
      · exact h.decl other
    · rw [if_neg (mt (hdeclares other).1 hother), ← h.decl other]
      split
      · rw [ScopeStack.get?_bind, if_neg hother]
      · rfl
  · split at hb
    · rw [ScopeStack.get?_bind] at hb
      split at hb
      · cases hb
        exact ⟨d, rfl, htype⟩
      · exact h.bound hb
    · exact h.bound hb
  · intro c hc
    rcases mem_append.1 hc with hc | hc
    · exact h.inner c hc
    · rwa [mem_singleton.1 hc]
  · intro c hc
    rcases mem_append.1 hc with hc | hc
    · exact h.parameter c hc
    · rwa [mem_singleton.1 hc]

theorem Follows.push (h : Follows ctx a root f L s) : Follows ctx a root f L s.push :=
  ⟨h.decl, h.bound, h.ordered, h.inner, h.parameter⟩

/-- Parameters are bound one after the other, and all of them shadow others. -/
theorem Follows.parameters (h : Follows ctx a root f L s)
    (hparams : ∀ d ∈ params, a.Spans d ∧ a.kind d.entry = .varDecl ∧
      a.isParameter d.entry = true ∧ d.entry ∉ a.children root ∧
      ∀ q, a.parent? d.entry = some q → a.kind q = .params → a.parent? q = some f)
    (hbound : JavaScript.parameters ctx a s params = .ok (names, s')) :
    Follows ctx a root f (L ++ a.declarations params) s' ∧
      params.mapM (fun d => nameOf ctx (a.label d.entry)) = .ok names := by
  induction params generalizing L s names with
  | nil =>
    rw [JavaScript.parameters] at hbound
    cases hbound
    rw [declarations_nil, append_nil]
    exact ⟨h, rfl⟩
  | cons d params ih =>
    obtain ⟨d, cs⟩ := d
    obtain ⟨hspans, hk, hparam, hchild, hplace⟩ := hparams _ (.head _)
    rw [Rose.entry] at hk hparam hchild hplace
    rw [JavaScript.parameters] at hbound
    obtain ⟨name, hname, hbound⟩ := Except.bind_eq_ok.1 hbound
    obtain ⟨t, ht, hbound⟩ := Except.bind_eq_ok.1 hbound
    obtain ⟨⟨rest, s₁⟩, hrest, hbound⟩ := Except.bind_eq_ok.1 hbound
    cases hbound
    have htype : declaredType? a d = some t := by
      rw [declaredType?_eq hspans]
      exact declaredType_eq_ok ht
    have hstep := h.concat hk (nameOf_eq_ok hname) htype (fun he => by rw [hparam] at he; cases he)
      hchild hplace
    have hshadows : shadows ctx a root f d = true := by
      unfold shadows
      rw [hparam]
      rfl
    rw [hshadows, if_pos rfl] at hstep
    obtain ⟨hafter, hnames⟩ := ih hstep (fun u hu => hparams u (.tail _ hu)) hrest
    have hfirst : a.declarations [.node d cs] = [d] := declarations_singleton hk
    refine ⟨?_, ?_⟩
    · rw [← singleton_append, declarations_append, hfirst, ← append_assoc]
      exact hafter
    · rw [mapM_cons, Rose.entry, hname, hnames]
      rfl

/-! ### Statements of a function -/

/-- **Statements one after the other** are written as `one` and `more` say, if what `S` says of the
scopes behind some of them holds behind the next one as well. -/
theorem lines_scripted {S : List (Rose NodeId) → ScopeStack → Prop}
    (one : Rose NodeId → Except Error (List Stmt))
    {more : List (Rose NodeId) → Except Error (List Stmt)} (pre : List (Rose NodeId))
    {mid post : List (Rose NodeId)} (hnil : more [] = .ok [])
    (hcons : ∀ t ts, more (t :: ts) = do return (← one t) ++ (← more ts))
    (hstep : ∀ {pre t post s text s'}, ss = pre ++ t :: post → S pre s →
      statement ctx a options depth s t = .ok (text, s') →
      ∃ stmts, one t = .ok stmts ∧
        line options depth (a.kind t.entry) text = Stmt.texts options depth stmts ∧ S (pre ++ [t]) s')
    (hsplit : ss = pre ++ mid ++ post) (h : S pre s)
    (hlines : lines ctx a options depth s mid = .ok (text, s')) :
    ∃ stmts, more mid = .ok stmts ∧ text = Stmt.texts options depth stmts ∧ S (pre ++ mid) s' := by
  induction mid generalizing pre s text with
  | nil =>
    rw [lines] at hlines
    cases hlines
    exact ⟨[], hnil, rfl, by rwa [append_nil]⟩
  | cons t mid ih =>
    obtain ⟨first, s₁, rest, hfirst, hrest, rfl⟩ := lines_cons_eq_ok hlines
    have hplace : ss = pre ++ t :: (mid ++ post) := by simpa using hsplit
    obtain ⟨stmts, hstmts, hline, hafter⟩ := hstep hplace h hfirst
    obtain ⟨others, hothers, rfl, hend⟩ := ih _ (by simpa using hsplit) hafter hrest
    refine ⟨stmts ++ others, ?_, ?_, ?_⟩
    · rw [hcons, hstmts, hothers]
      rfl
    · rw [Stmt.texts_append, hline]
    · rwa [append_assoc, singleton_append] at hend

/-- The statement is written as the positions say, wherever the scopes follow the declarations that
are visible at it. -/
def Scripted (ctx : Context) (a : Arena) (options : Options) (root f : NodeId) (t : Rose NodeId) :
    Prop :=
  ∀ ⦃L : List NodeId⦄ ⦃s s' : ScopeStack⦄ ⦃depth : Nat⦄ ⦃text : String⦄, Sees a f L t →
    Follows ctx a root f L s → statement ctx a options depth s t = .ok (text, s') →
    ∃ stmts, script ctx a options root f t = .ok stmts ∧
      line options depth (a.kind t.entry) text = Stmt.texts options depth stmts ∧
      Follows ctx a root f (L ++ a.declarations [t]) s'

section Statements

variable {types : TypeTable} {id : NodeId} {u : Rose NodeId} {pre post : List (Rose NodeId)}

variable (hw : a.WellFormed) (hfiled : Filed a (a.children root) ctx.slots)
  (hsees : Sees a f L (.node id ss)) (hin : Interior types a f (.node id ss))
  (h : Follows ctx a root f L s)

include hw hsees hin h in
/-- **The first statements of a block.** -/
theorem Follows.lines (hk : a.kind id = .block)
    (hss : ∀ t ∈ ss, Scripted ctx a options root f t) (hsplit : ss = pre ++ post)
    (hlines : JavaScript.lines ctx a options depth s pre = .ok (text, s')) :
    ∃ stmts, scripts ctx a options root f pre = .ok stmts ∧ text = Stmt.texts options depth stmts ∧
      Follows ctx a root f (L ++ a.declarations pre) s' := by
  have hstart : Follows ctx a root f (L ++ a.declarations []) s := by
    rwa [declarations_nil, append_nil]
  refine lines_scripted (S := fun pre s => Follows ctx a root f (L ++ a.declarations pre) s)
    _ [] (by rw [scripts]) (fun t ts => by rw [scripts]) ?_ hsplit hstart hlines
  intro pre t post s text s' hsplit hpre hfirst
  obtain ⟨stmts, hstmts, hline, hafter⟩ := hss t (by simp [hsplit]) ((hsplit ▸ hsees).child hw
    (hsplit ▸ hin.spans) (hsplit ▸ hin.no_params) (by simp [hk])) hpre hfirst
  rw [append_assoc, ← declarations_append] at hafter
  exact ⟨stmts, hstmts, hline, hafter⟩

include hw hsees hin h in
theorem Follows.block (hk : a.kind id = .block) (hss : ∀ t ∈ ss, Scripted ctx a options root f t)
    (hstatement : statement ctx a options depth s (.node id ss) = .ok (text, s')) :
    ∃ stmts, script ctx a options root f (.node id ss) = .ok [.block stmts] ∧
      text = braces options depth (Stmt.texts options (depth + 1) stmts) ∧ s' = s := by
  have hrestores := ((statement_restores (.node id ss)).1 hstatement).2 (by simp [Rose.entry, hk])
  obtain ⟨out, inner, hlines, rfl, -⟩ := statement_block_eq_ok hk hstatement
  obtain ⟨stmts, hstmts, rfl, -⟩ :=
    h.push.lines hw hsees hin hk hss (append_nil ss).symm hlines
  refine ⟨stmts, ?_, rfl, hrestores⟩
  unfold script
  simp only [hk, hstmts]
  rfl

include hfiled h in
/-- **An expression is written with its names as they are spelled.** -/
theorem Follows.respells (hin : Interior types a f u)
    (hvisible : ∀ n ∈ u.preorder, a.visibleBefore f n = L) :
    Respells ctx a options root f s u :=
  expression_spelled (fun n hn => h.identText_eq hfiled (hvisible n hn)) hin.no_varRef

include hw h in
theorem Follows.governed (hsees : Sees a f L u) (hin : Interior types a f u)
    (hk : a.kind u.entry = .block) (hu : ∀ t ∈ u.children, Scripted ctx a options root f t)
    (hgoverned : JavaScript.governed ctx a options depth s u = .ok (text, s')) :
    ∃ stmts, script ctx a options root f u = .ok [.block stmts] ∧
      text = braces options depth (Stmt.texts options (depth + 1) stmts) ∧ s' = s := by
  obtain ⟨id, ss⟩ := u
  unfold JavaScript.governed branch at hgoverned
  rw [if_pos hk] at hgoverned
  exact h.block hw hsees hin hk hu hgoverned

theorem governs_of_conditional {stmts : List Stmt} (hk : a.kind u.entry = .conditional)
    (h : script ctx a options root f u = .ok stmts) : Stmt.governs stmts = stmts := by
  obtain ⟨id, ss⟩ := u
  rw [Rose.entry] at hk
  unfold script at h
  rcases ss with _ | ⟨cond, _ | ⟨yes, rest⟩⟩
  · simp only [hk] at h
    cases h
  · simp only [hk] at h
    cases h
  · simp only [hk] at h
    obtain ⟨test, -, h⟩ := Except.bind_eq_ok.1 h
    obtain ⟨yesStmts, -, h⟩ := Except.bind_eq_ok.1 h
    cases rest with
    | nil =>
      cases h
      rfl
    | cons no rest =>
      obtain ⟨noStmts, -, h⟩ := Except.bind_eq_ok.1 h
      cases h
      rfl

theorem ne_empty_of_conditional (hk : a.kind u.entry = .conditional)
    (h : statement ctx a options depth s u = .ok (text, s')) : text ≠ "" := by
  obtain ⟨id, ss⟩ := u
  obtain ⟨cond, yes, rest, condText, yesText, s₁, -, -, -, hrest⟩ := statement_conditional_eq_ok hk h
  rcases hrest with ⟨-, rfl, -⟩ | ⟨no, rest', noText, -, -, rfl⟩ <;> simp

include hw hfiled hsees hin h in
/-- **A conditional.** -/
theorem Follows.conditional (hk : a.kind id = .conditional)
    (hss : ∀ t ∈ ss, Scripted ctx a options root f t ∧ ∀ c ∈ t.children, Scripted ctx a options root f c)
    (hstatement : statement ctx a options depth s (.node id ss) = .ok (text, s')) :
    ∃ stmts, script ctx a options root f (.node id ss) = .ok stmts ∧
      line options depth .conditional text = Stmt.texts options depth stmts ∧ s' = s := by
  have hrestores := ((statement_restores (.node id ss)).1 hstatement).2 (by simp [Rose.entry, hk])
  have hne := ne_empty_of_conditional (u := .node id ss) hk hstatement
  have hline : line options depth .conditional text = options.pad depth ++ text ++ "\n" :=
    if_neg fun he => hne (String.isEmpty_iff.1 he)
  obtain ⟨cond, yes, rest, condText, yesText, s₁, rfl, hcond, hyes, hrest⟩ :=
    statement_conditional_eq_ok hk hstatement
  obtain ⟨hkcond, hkyes, hkrest⟩ := ScopeWalk.conditional_kinds hin.formed hk
  have hpart : ∀ c ∈ cond :: yes :: rest, Sees a f L c := fun c hc =>
    hsees.governed hw hin.spans hin.no_params hin.formed hk hc
  have htest : Respells ctx a options root f s cond := by
    have hcondin := hin.of_mem (s := cond) (by simp)
    have hinert := hcondin.inert (Kind.isInner_of_isExpression hkcond)
    exact h.respells hfiled hcondin fun n hn => (hpart cond (by simp)).inert hinert hn
  unfold Respells at htest
  rw [htest] at hcond
  obtain ⟨yesStmts, hyesScript, rfl, rfl⟩ := h.governed hw (hpart yes (by simp))
    (hin.of_mem (by simp)) hkyes (hss yes (by simp)).2 hyes
  rcases hrest with ⟨rfl, rfl, rfl⟩ | ⟨no, rest', noText, rfl, hno, rfl⟩
  · refine ⟨[.branch condText yesStmts], ?_, ?_, rfl⟩
    · unfold script
      simp only [hk, spelledText, hcond, hyesScript]
      rfl
    · rw [hline, Stmt.texts_singleton, Stmt.text]
  · have hnoSees := hpart no (by simp)
    have hnoin := hin.of_mem (s := no) (by simp)
    have hother : ∃ stmts, script ctx a options root f no = .ok stmts ∧
        noText = braces options depth (Stmt.texts options (depth + 1) (Stmt.governs stmts)) := by
      rcases otherwise_eq_ok hno with ⟨hkno, out, hout, rfl⟩ | ⟨hkno, hno⟩
      · -- a conditional stands in braces of its own
        obtain ⟨stmts, hscript, hnoLine, -⟩ := (hss no (by simp)).1 hnoSees h hout
        have hnoText := ne_empty_of_conditional hkno hout
        rw [hkno, line, if_neg fun he => hnoText (String.isEmpty_iff.1 he)] at hnoLine
        refine ⟨stmts, hscript, ?_⟩
        rw [governs_of_conditional hkno hscript, ← hnoLine]
        rfl
      · obtain ⟨stmts, hscript, rfl, -⟩ := h.governed hw hnoSees hnoin
          ((hkrest no (by simp)).resolve_right hkno) (hss no (by simp)).2 hno
        exact ⟨[.block stmts], hscript, rfl⟩
    obtain ⟨noStmts, hscript, rfl⟩ := hother
    refine ⟨[.choice condText yesStmts (Stmt.governs noStmts)], ?_, ?_, hrestores⟩
    · unfold script
      simp only [hk, spelledText, hcond, hyesScript, hscript]
      rfl
    · rw [hline, Stmt.texts_singleton, Stmt.text]

theorem script_expression (hk : (a.kind id).isInner = true) :
    script ctx a options root f (.node id ss) = (do
      let text ← spelledText ctx a options root f (.node id ss)
      return if text.isEmpty then [] else [.plain text]) := by
  unfold script
  split
  all_goals first | rfl | (rw [‹a.kind id = _›] at hk; cases hk)

include hfiled hsees hin h in
theorem Follows.plain (hk : (a.kind id).isInner = true)
    (hstatement : statement ctx a options depth s (.node id ss) = .ok (text, s')) :
    ∃ stmts, script ctx a options root f (.node id ss) = .ok stmts ∧
      line options depth (a.kind id) text = Stmt.texts options depth stmts ∧ s' = s := by
  have hnot : a.kind id ∉ [.function, .varDecl, .block, .conditional, .ret] := by
    intro hmem
    simp only [mem_cons, not_mem_nil, or_false] at hmem
    rcases hmem with he | he | he | he | he <;> rw [he] at hk <;> cases hk
  obtain ⟨rfl, htext⟩ := statement_expression_eq_ok hnot hstatement
  have hspelled : Respells ctx a options root f s' (.node id ss) :=
    h.respells hfiled hin fun n hn => hsees.inert (hin.inert hk) hn
  unfold Respells at hspelled
  rw [hspelled] at htext
  have hscript : script ctx a options root f (.node id ss) =
      .ok (if text.isEmpty then [] else [.plain text]) := by
    rw [script_expression hk, spelledText, htext]
    rfl
  refine ⟨_, hscript, ?_, rfl⟩
  have hends : terminator (a.kind id) = ";\n" := by
    cases hkind : a.kind id <;> first | rfl | (rw [hkind] at hk; cases hk)
  unfold line
  split
  · rfl
  · rw [hends, Stmt.texts_singleton, Stmt.text]

include hw hfiled hsees hin h in
theorem Follows.leave (hk : a.kind id = .ret)
    (hstatement : statement ctx a options depth s (.node id ss) = .ok (text, s')) :
    ∃ stmts, script ctx a options root f (.node id ss) = .ok stmts ∧
      line options depth .ret text = Stmt.texts options depth stmts ∧ s' = s := by
  obtain ⟨hrestores, hvalue⟩ := statement_ret_eq_ok hk hstatement
  cases ss with
  | nil =>
    unfold statement at hstatement
    simp only [hk] at hstatement
    cases hstatement
    refine ⟨[.plain "return"], ?_, ?_, rfl⟩
    · unfold script
      simp only [hk]
      rfl
    · rw [Stmt.texts_singleton, Stmt.text]
      rfl
  | cons value rest =>
    obtain ⟨out, hout, rfl⟩ := hvalue value rest rfl
    obtain hnil | ⟨_, heq, hkind⟩ := hin.ret hk
    · cases hnil
    cases heq
    have hvaluein := hin.of_mem (s := value) (by simp)
    have hinert := hvaluein.inert (Kind.isInner_of_isExpression hkind)
    have hpart : Sees a f L value := hsees.part hw hin.spans hin.no_params (by simp [hk]) (by simp)
      (forall_mem_singleton.2 (hinert _ value.entry_mem_preorder))
    have hspelled : Respells ctx a options root f s value := h.respells hfiled hvaluein fun n hn =>
      hpart.inert hinert hn
    unfold Respells at hspelled
    rw [hspelled] at hout
    refine ⟨[.plain ("return " ++ out)], ?_, ?_, hrestores⟩
    · unfold script
      simp only [hk, spelledText, hout]
      rfl
    · rw [line_append (by simp), Stmt.texts_singleton, Stmt.text]
      rfl

end Statements

/-! ### The top of a program -/

/-- **The scopes of a script behind the first items of a program**: they show the slots, and then
the declarations of other names. -/
structure FollowsTop (ctx : Context) (a : Arena) (done : List NodeId) (s : ScopeStack) : Prop where
  decl : ∀ name, (s.get? name).bind Binding.decl? =
    ((ctx.slots.find? name).map Slot.decl).or (a.lastDeclaring name done)
  bound : ∀ {name b}, s.get? name = some b → ∃ d, b.decl? = some d ∧ declaredType? a d = some b.type

theorem followsTop_slotScopes (hfiled : Filed a (a.children root) ctx.slots) :
    FollowsTop ctx a [] (Context.slotScopes ctx.slots) := by
  refine ⟨fun name => ?_, fun {name b} hb => ?_⟩
  · rw [Context.get?_slotScopes hfiled.nodup, show a.lastDeclaring name [] = none from rfl,
      Option.or_none]
    cases ctx.slots.find? name <;> rfl
  · obtain ⟨slot, hmem, rfl⟩ := Context.exists_slot hb
    exact ⟨slot.decl, rfl, hfiled.types _ hmem⟩

/-- Behind a declaration the scopes show it, unless it has the name of a slot. -/
theorem FollowsTop.declared {done : List NodeId} {t : Ty} (h : FollowsTop ctx a done s)
    (hk : a.kind d = .varDecl) (hname : a.name? d = some name)
    (htype : declaredType? a d = some t) :
    FollowsTop ctx a (done ++ [d])
      (if (ctx.slots.find? name).isNone then s.bind name { type := t, decl? := some d } else s) := by
  refine ⟨fun other => ?_, fun {other b} hb => ?_⟩
  · rw [lastDeclaring_append]
    by_cases hne : other = name
    · subst hne
      cases hfind : ctx.slots.find? other with
      | some slot =>
        have hdecl := h.decl other
        rw [hfind] at hdecl
        exact hdecl
      | none =>
        rw [Option.isNone_none, if_pos rfl, ScopeStack.get?_bind, if_pos rfl]
        unfold lastDeclaring
        rw [filter_singleton, declares_iff.2 ⟨hk, hname⟩]
        rfl
    · rw [lastDeclaring_of_name_ne hname hne, Option.none_or, ← h.decl other]
      split
      · rw [ScopeStack.get?_bind, if_neg hne]
      · rfl
  · split at hb
    · rw [ScopeStack.get?_bind] at hb
      split at hb
      · cases hb
        exact ⟨d, rfl, htype⟩
      · exact h.bound hb
    · exact h.bound hb

theorem FollowsTop.follows (h : FollowsTop ctx a (a.childrenBefore root f) s) :
    Follows ctx a root f [] s :=
  ⟨h.decl, h.bound, .nil a f, fun _ hd => (by cases hd), fun _ hd => (by cases hd)⟩

end Emit.JavaScript

/-! ### Functions -/

section Functions

open Arena Emit Emit.JavaScript

variable {options : Options} {root f d : NodeId} {L : List NodeId} {s s' : ScopeStack}
  {ss : List (Rose NodeId)} {depth : Nat} {text : String} {p : Program} {u : Rose NodeId}
  (h : Outlined p root) (hf : f ∈ p.arena.children root)
  (hk : p.arena.kind f = .function) {n : NodeId}

include h hf hk

/-- **The place of a declaration in a function.** -/
theorem Outlined.stands (hin : Interior p.context.types p.arena f (.node d ss))
    (hfollows : Follows p.context p.arena root f L s) (hvisible : p.arena.visibleBefore f d = L) :
    Stands p.context p.arena root f d := by
  have hlt := hin.spans.lt_size_of_mem d (by simp)
  obtain ⟨hunder, hne⟩ := hin.under d (by simp)
  have htop := not_isTopLevel h.wellFormed hk hlt hunder hne
  refine ⟨fun {name slot} hfind hor => ?_, fun {name c q} hreferent hq hkq => ?_⟩
  · rcases hor with rfl | hor
    · exact absurd (h.filed.decl_mem (Slots.mem_all_of_find? hfind)) (h.not_child hf hunder hne)
    · rw [htop] at hor
      cases hor
  · unfold referent at hreferent
    rw [hvisible] at hreferent
    rw [h.enclosing? hf hk hlt hunder hne]
    rcases mem_of_referentAfter hreferent with hc | hc
    · exact ⟨htop, hfollows.inner c hc, hfollows.parameter c hc q hq hkq⟩
    · -- what stands at the top stands below the root
      have hparent := (h.wellFormed.linked root c).1 (topReferent_mem h.filed hc)
      cases hq.symm.trans hparent
      cases h.block.symm.trans hkq

theorem Outlined.declared (hin : Interior p.context.types p.arena f (.node d ss))
    (hkd : p.arena.kind d = .varDecl) (hparam : p.arena.isParameter d = false) :
    Scripted p.context p.arena options root f (.node d ss) := by
  intro L s s' depth text hsees hfollows hstatement
  rw [statement_varDecl hkd] at hstatement
  have hvisible : p.arena.visibleBefore f d = L := hsees.entry
  obtain ⟨hunder, hne⟩ := hin.under d (by simp)
  obtain ⟨stmts, name, t, hscript, hline, hname, htype, rfl⟩ := hfollows.declared h.filed
    (h.stands hf hk hin hfollows hvisible) hvisible depth hin.spans hparam
    (fun init hinit => hfollows.respells h.filed (hin.of_mem (mem_of_getElem? hinit)) fun n hn =>
      hsees.initial h.wellFormed hin.spans hin.formed hkd
        (Rose.mem_preorder_of_mem (mem_of_getElem? hinit) hn)) hstatement
  refine ⟨stmts, ?_, ?_, ?_⟩
  · unfold script
    simp only [hkd]
    exact hscript
  · rw [Rose.entry, hkd]
    exact hline
  · rw [declarations_singleton (s := .node d ss) hkd, Rose.entry]
    refine hfollows.concat hkd hname htype (fun _ => hvisible) (h.not_child hf hunder hne) ?_
    intro q hq hkq
    rw [isParameter_iff.2 ⟨q, hq, hkq⟩] at hparam
    cases hparam

/-- **Every statement of a function is written as the positions say.** -/
theorem Outlined.scripted (hin : Interior p.context.types p.arena f u)
    (hparam : p.arena.isParameter u.entry = false) :
    Scripted p.context p.arena options root f u ∧
      ∀ c ∈ u.children, Scripted p.context p.arena options root f c := by
  have hw := h.wellFormed
  induction u using Rose.induction with
  | node id ss ih =>
    have hbelow : ∀ c ∈ ss, Scripted p.context p.arena options root f c ∧
        ∀ c' ∈ c.children, Scripted p.context p.arena options root f c' :=
      fun c hc => ih c hc (hin.of_mem hc) (hin.not_isParameter hw hc)
    refine ⟨?_, fun c hc => (hbelow c hc).1⟩
    by_cases hkd : p.arena.kind id = .varDecl
    · exact h.declared hf hk hin hkd hparam
    intro L s s' depth text hsees hfollows hstatement
    rw [declarations_of_kind (forall_mem_singleton.2 hkd), append_nil]
    suffices hstep : ∃ stmts, script p.context p.arena options root f (.node id ss) = .ok stmts ∧
        line options depth (p.arena.kind id) text = Stmt.texts options depth stmts ∧ s' = s by
      obtain ⟨stmts, hscript, hline, rfl⟩ := hstep
      exact ⟨stmts, hscript, hline, hfollows⟩
    obtain ⟨hfunction, hparams⟩ := hin.kinds id (by simp)
    cases hkind : p.arena.kind id with
    | varDecl => exact absurd hkind hkd
    | function => exact absurd hkind hfunction
    | params => exact absurd hkind hparams
    | varRef => exact absurd hkind (hin.no_varRef id (by simp))
    | block =>
      obtain ⟨stmts, hscript, rfl, rfl⟩ :=
        hfollows.block hw hsees hin hkind (fun c hc => (hbelow c hc).1) hstatement
      refine ⟨[.block stmts], hscript, ?_, rfl⟩
      rw [Stmt.texts_singleton, Stmt.text, braces, String.append_assoc, String.append_assoc,
        line_append (by simp)]
      simp only [String.append_assoc]
      rfl
    | conditional => exact hfollows.conditional hw h.filed hsees hin hkind hbelow hstatement
    | ret => exact hfollows.leave hw h.filed hsees hin hkind hstatement
    | _ =>
      rw [← hkind]
      exact hfollows.plain h.filed hsees hin (by rw [hkind]; rfl) hstatement

omit hf hk

theorem Outlined.parameters_follow {q b : NodeId}
    (hs : .node f [ret, .node q params, .node b body] ∈ (p.arena.shape root).children)
    (hk : p.arena.kind f = .function) (hfollows : Follows p.context p.arena root f [] s)
    (hbound : JavaScript.parameters p.context p.arena s.push params = .ok (names, s')) :
    Follows p.context p.arena root f (p.arena.declarations params) s' ∧
      params.mapM (fun d => nameOf p.context (p.arena.label d.entry)) = .ok names := by
  obtain ⟨_, _, _, _, _, heq, -, -, -, -, hparams, -⟩ := h.parts hs hk
  cases heq
  obtain ⟨hspans, -, hf⟩ := h.item hs
  have hw := h.wellFormed
  have hqparent : p.arena.parent? q = some f := hspans.parent_of_mem hw (s := .node q params) (by simp)
  refine hfollows.push.parameters (fun d hd => ?_) hbound
  obtain ⟨hkd, hin⟩ := hparams d hd
  obtain ⟨hunder, hne⟩ := hin.under d.entry d.entry_mem_preorder
  have hparent := (hspans.of_mem (s := .node q params) (by simp)).parent_of_mem hw hd
  refine ⟨hin.spans, hkd, h.isParameter_of_mem hs hk hd, h.not_child hf hunder hne, ?_⟩
  intro q' hq' _
  cases hparent.symm.trans hq'
  exact hqparent

theorem Outlined.not_isParameter_body {c : Rose NodeId}
    (hs : .node f [ret, u, c] ∈ (p.arena.shape root).children) (hk : p.arena.kind f = .function) :
    p.arena.isParameter c.entry = false := by
  unfold Arena.isParameter
  rw [(h.item hs).1.parent_of_mem h.wellFormed (s := c) (by simp), Option.any_some, hk]
  rfl

/-- **A function is written as the positions say.** -/
theorem Outlined.function (hs : .node f ss ∈ (p.arena.shape root).children)
    (hk : p.arena.kind f = .function) (hfollows : Follows p.context p.arena root f [] s)
    (hstatement : statement p.context p.arena options depth s (.node f ss) = .ok (text, s')) :
    ∃ stmts, script p.context p.arena options root f (.node f ss) = .ok stmts ∧
      line options depth .function text = Stmt.texts options depth stmts := by
  obtain ⟨ret, q, params, b, body, rfl, -, hkb, -, -, -, hbody⟩ := h.parts hs hk
  obtain ⟨-, -, hf⟩ := h.item hs
  obtain ⟨_, _, _, _, _, _, name, names, s₁, out, inner, heq, hname, hbound, hlines, rfl, -⟩ :=
    statement_function_eq_ok hk hstatement
  cases heq
  have hw := h.wellFormed
  obtain ⟨hafter, hnames⟩ := h.parameters_follow hs hk hfollows hbound
  have hbparam := h.not_isParameter_body hs hk
  obtain ⟨stmts, hscripts, rfl, -⟩ := hafter.lines hw (h.sees_body hs hk) hbody hkb
    (h.scripted hf hk hbody hbparam).2 (append_nil body).symm hlines
  refine ⟨[.function name names stmts], ?_, ?_⟩
  · unfold script
    simp only [hk, hname, hnames, hscripts]
    rfl
  · rw [line_append (by simp), Stmt.texts_singleton, Stmt.text]
    rfl

/-! ### Items -/

theorem Outlined.visibleBefore_eq_nil (hs : .node d ss ∈ (p.arena.shape root).children)
    (hkd : p.arena.kind d = .varDecl) (hn : n ∈ (Rose.node d ss).preorder) :
    p.arena.visibleBefore d n = [] := by
  rw [eq_nil_iff_forall_not_mem]
  intro x hx
  obtain ⟨hkx, hmem, hne⟩ := h.mem_visibleBefore hs hn hx
  rw [Rose.preorder_node, mem_cons] at hmem
  obtain ⟨c, hc, hxc⟩ := mem_flatMap.1 (hmem.resolve_left hne)
  exact (ScopeWalk.declaration_inert (h.item hs).2.1 hkd hc).kind_ne x hxc hkx

theorem Outlined.not_isParameter (hd : d ∈ p.arena.children root) :
    p.arena.isParameter d = false := by
  unfold Arena.isParameter
  rw [(h.wellFormed.linked root d).1 hd, Option.any_some, h.block]
  rfl

theorem Outlined.isTopLevel (hd : d ∈ p.arena.children root) (hkd : p.arena.kind d = .varDecl)
    (hlt : d < p.arena.size) : isTopLevel p.arena d = true :=
  isTopLevel_of_child h.wellFormed h.top (by simp [h.block])
    ((h.wellFormed.linked root d).1 hd) (by simp [hkd]) hlt

/-- **A declaration at the top** shadows others unless it has the name of a slot. -/
theorem Outlined.shadows_eq (hd : d ∈ p.arena.children root) (hkd : p.arena.kind d = .varDecl)
    (hlt : d < p.arena.size) (hvisible : p.arena.visibleBefore d d = []) {name : String}
    (hname : p.arena.name? d = some name) :
    shadows p.context p.arena root d d = (p.context.slots.find? name).isNone := by
  have hreferent : referent p.context p.arena root d d name =
      topReferent p.context p.arena root d name := by
    unfold referent
    rw [hvisible]
    rfl
  rw [Emit.JavaScript.shadows_eq hname (h.not_isParameter hd), hreferent]
  cases hfind : p.context.slots.find? name with
  | some slot =>
    have htop : topReferent p.context p.arena root d name = some slot.decl := by
      unfold topReferent
      rw [hfind]
      rfl
    rw [htop, Option.any_some]
    unfold restates
    rw [hfind, h.isTopLevel hd hkd hlt]
    simp
  | none =>
    cases htop : topReferent p.context p.arena root d name with
    | none => rfl
    | some c =>
      rw [Option.any_some]
      unfold restates
      rw [hfind, h.not_isParameter (topReferent_mem h.filed htop)]
      rfl

/-- **An item is written as the positions say.** -/
theorem Outlined.item_scripted (hs : u ∈ (p.arena.shape root).children)
    (hfollows : FollowsTop p.context p.arena (p.arena.childrenBefore root u.entry) s)
    (hstatement : statement p.context p.arena options depth s u = .ok (text, s')) :
    ∃ stmts, script p.context p.arena options root u.entry u = .ok stmts ∧
      line options depth (p.arena.kind u.entry) text = Stmt.texts options depth stmts ∧
      FollowsTop p.context p.arena (p.arena.childrenBefore root u.entry ++ [u.entry]) s' := by
  obtain ⟨d, ss⟩ := u
  obtain ⟨hspans, hformed, hd⟩ := h.item hs
  rw [Rose.entry] at hfollows hd ⊢
  rcases h.items d hd with hkd | hkd
  swap
  · -- a function leaves the scopes as they are
    obtain ⟨stmts, hscript, hline⟩ := h.function hs hkd hfollows.follows hstatement
    rw [((statement_restores (.node d ss)).1 hstatement).2 (by simp [Rose.entry, hkd]), hkd]
    refine ⟨stmts, hscript, hline, fun name => ?_, hfollows.bound⟩
    rw [hfollows.decl, lastDeclaring_append, lastDeclaring_eq_none (l := [d]) (by simp [hkd]),
      Option.none_or]
  have hlt := hspans.lt_size_of_mem d (by simp)
  have hvisible : p.arena.visibleBefore d d = [] := h.visibleBefore_eq_nil hs hkd (by simp)
  rw [statement_varDecl hkd] at hstatement
  -- outside of functions a name refers to a slot or to an item in front
  have hstands : Stands p.context p.arena root d d := by
    refine ⟨fun {name slot} hfind _ => ⟨h.isTopLevel hd hkd hlt, ?_⟩, fun {name c q} hc hq hkq => ?_⟩
    · unfold referent
      rw [hvisible]
      change topReferent p.context p.arena root d name = _
      unfold topReferent
      rw [hfind]
      rfl
    · unfold referent at hc
      rw [hvisible] at hc
      have hparent := h.not_isParameter (topReferent_mem h.filed hc)
      rw [isParameter_iff.2 ⟨q, hq, hkq⟩] at hparent
      cases hparent
  have hinit : ∀ init, ss[1]? = some init →
      Respells p.context p.arena options root d s init := by
    intro init hinit
    have hmem := mem_of_getElem? hinit
    rw [Rose.map_node] at hformed
    have hin := h.interior hs hmem (hspans.of_mem hmem) (hformed.of_mem (mem_map_of_mem hmem))
      (fun _ hx => hx) ?_
    · exact hfollows.follows.respells h.filed hin fun n hn =>
        h.visibleBefore_eq_nil hs hkd (Rose.mem_preorder_of_mem hmem hn)
    · intro hparams
      have hkind : Tree.kind (init.map p.arena.label) = .params := by rwa [Tree.kind_map]
      have hfunction := Kind.eq_function_of_admits hformed.root.admits
        (hkind ▸ mem_map_of_mem (mem_map_of_mem hmem))
      cases hkd.symm.trans hfunction
  obtain ⟨stmts, name, t, hscript, hline, hname, htype, rfl⟩ :=
    hfollows.follows.declared h.filed hstands hvisible depth hspans (h.not_isParameter hd) hinit
      hstatement
  refine ⟨stmts, ?_, ?_, ?_⟩
  · unfold script
    simp only [hkd]
    exact hscript
  · rw [hkd]
    exact hline
  rw [h.shadows_eq hd hkd hlt hvisible hname]
  exact hfollows.declared hkd hname htype

/-- **The first items of a program**, behind its slots. -/
theorem Outlined.first_items_scripted {pre post : List (Rose NodeId)}
    (hsplit : (p.arena.shape root).children = pre ++ post)
    (hlines : lines p.context p.arena options depth (Context.slotScopes p.context.slots) pre =
      .ok (text, s')) :
    ∃ stmts, itemScripts p.context p.arena options root pre = .ok stmts ∧
      text = Stmt.texts options depth stmts ∧
      FollowsTop p.context p.arena (pre.map Rose.entry) s' := by
  refine lines_scripted (S := fun pre s => FollowsTop p.context p.arena (pre.map Rose.entry) s)
    (fun t => script p.context p.arena options root t.entry t) [] rfl (fun _ _ => rfl) ?_
    hsplit (followsTop_slotScopes h.filed) hlines
  intro pre u post s text s' hsplit hfollows hfirst
  have hbefore := ScopeWalk.childrenBefore_eq h.wellFormed (hsplit ▸ h.spans_root)
  rw [← hbefore] at hfollows
  obtain ⟨stmts, hscript, hline, hafter⟩ := h.item_scripted (by simp [hsplit]) hfollows hfirst
  rw [hbefore, ← map_singleton, ← map_append] at hafter
  exact ⟨stmts, hscript, hline, hafter⟩

/-- Outside the body of a function only parameters are visible. -/
theorem Outlined.isParameter_of_visible {q b : NodeId}
    (hs : .node f [ret, .node q params, .node b body] ∈ (p.arena.shape root).children)
    (hk : p.arena.kind f = .function)
    (hn : n ∈ (Rose.node f [ret, .node q params, .node b body]).preorder)
    (hbody : n ∉ (Rose.node b body).preorder) (hd : d ∈ p.arena.visibleBefore f n) :
    p.arena.isParameter d = true := by
  obtain ⟨_, _, _, _, _, heq, hkq, hkb, hret, hkret, hparams, hin⟩ := h.parts hs hk
  cases heq
  obtain ⟨hkd, hmem, hne⟩ := h.mem_visibleBefore hs hn hd
  rw [Rose.preorder_node, mem_cons] at hmem
  obtain ⟨c, hc, hdc⟩ := mem_flatMap.1 (hmem.resolve_left hne)
  simp only [mem_cons, not_mem_nil, or_false] at hc
  rcases hc with rfl | rfl | rfl
  · exact absurd hkd (hret.inert (by rw [hkret]; rfl) d hdc)
  · rw [Rose.preorder_node, mem_cons] at hdc
    rcases hdc with rfl | hdc
    · cases hkq.symm.trans hkd
    obtain ⟨⟨x, xs⟩, hx, hdx⟩ := mem_flatMap.1 hdc
    rw [Rose.preorder_node, mem_cons] at hdx
    rcases hdx with rfl | hdx
    · exact h.isParameter_of_mem hs hk hx
    · obtain ⟨c, hc, hdc⟩ := mem_flatMap.1 hdx
      obtain ⟨hkx, hxin⟩ := hparams _ hx
      exact absurd hkd ((ScopeWalk.declaration_inert hxin.formed hkx hc).kind_ne d hdc)
  · -- what is declared in the body is visible there alone
    have hlt := (h.item hs).1.lt_size_of_mem n hn
    have hnot := not_visibleAt_of_below h.wellFormed hlt hin.spans hbody
      (fun x hx => (hin.kinds x hx).2) hdc fun he => by rw [he, Rose.entry, hkb] at hkd; cases hkd
    have hvisible := (Bool.and_eq_true_iff.1 (mem_filter.1 hd).2).2
    rw [hnot] at hvisible
    cases hvisible

/-- **What is visible at a node of a function is ordered.** -/
theorem Outlined.ordered (hf : f ∈ p.arena.children root) (hk : p.arena.kind f = .function)
    (hn : n ∈ p.arena.preorder f) : Ordered p.arena f (p.arena.visibleBefore f n) := by
  obtain ⟨ss, hs⟩ := h.exists_item hf
  obtain ⟨ret, q, params, b, body, rfl, -, -, -, -, -, hin⟩ := h.parts hs hk
  rw [show p.arena.preorder f = _ from (h.item hs).1.preorder_eq h.wellFormed] at hn
  by_cases hbody : n ∈ (Rose.node b body).preorder
  · exact Ordered.visibleBefore h.wellFormed (h.sees_body hs hk) hin (h.ordered_params hs hk) hbody
  · intro pre d post hsplit hparam
    have hd : d ∈ p.arena.visibleBefore f n := by
      rw [hsplit]
      exact mem_append_right _ (.head _)
    rw [h.isParameter_of_visible hs hk hn hbody hd] at hparam
    cases hparam

/-! ### Compiled programs -/

omit h

theorem generate_js_text {g : Generated} (hroot : p.arena.root? = some root)
    (hg : Registry.builtin.generate p "js" options = .ok g) :
    ∃ items s, lines p.context p.arena options 1 (Context.slotScopes p.context.slots)
        (p.arena.shape root).children = .ok (items, s) ∧
      g.text = closureText options p.context items := by
  have hscript := generate_js_program hroot hg
  unfold Emit.JavaScript.program at hscript
  obtain ⟨⟨items, s⟩, hlines, hscript⟩ := Except.bind_eq_ok.1 hscript
  exact ⟨items, s, hlines, (Except.ok.inj hscript).symm⟩

end Functions

end VecLang
