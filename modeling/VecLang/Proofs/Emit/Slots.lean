import VecLang.Emit.JavaScript.Expression
import VecLang.Proofs.Grammar.Formed
import VecLang.Proofs.Swizzle.Declarations

/-!
# The slots of a compiled program

A host talks to a compiled program through its slots. They are the qualified declarations
directly below the root, in the order in which they stand there, and the place of an output
is its position among the outputs.

* `Context.get?_slotScopes`: the scopes of the slots bind them, and nothing else.
* `Filed.item`: the step, for one node below the root.
* `items_filed`: the run, for all of them.
* `compile_filed`: **the tables of a compiled program are its qualified declarations**, and
  every output that a script refers to is referred to by its place.
-/

namespace VecLang

open List

variable {key : String} {e : String × Slot}

namespace Table

variable {α : Type} {t : Table α}

theorem enter_of_lookup_eq_none (value : α) {es : List (String × α)} (h : lookup key es = none) :
    enter key value es = es ++ [(key, value)] := by
  induction es with
  | nil => rfl
  | cons e rest ih =>
    rw [lookup] at h
    split at h
    · cases h
    · rename_i hne
      rw [enter, if_neg hne, ih h]
      rfl

theorem mem_keys_iff : key ∈ t.keys ↔ t.contains key = true := by
  obtain ⟨es⟩ := t
  unfold keys contains get?
  induction es with
  | nil => simp [lookup]
  | cons e rest ih =>
    rw [lookup, map_cons, mem_cons, ih]
    split
    · rename_i heq
      simp [heq]
    · rename_i hne
      simp [Ne.symm hne]

theorem entries_insert (value : α) (h : t.contains key = false) :
    (t.insert key value).entries = t.entries ++ [(key, value)] := by
  refine enter_of_lookup_eq_none value ?_
  exact Option.not_isSome_iff_eq_none.1 (Bool.not_eq_true _ ▸ h)

end Table

namespace Slots

variable {slots slots' : Slots} {q : Qualifier} {name : String} {slot : Slot}

theorem contains_eq_false (h : slots.qualifier? name = none) (q : Qualifier) :
    (slots.table q).contains name = false := by
  have hall : q ∈ Qualifier.all := by
    cases q <;> decide
  exact Bool.eq_false_iff.2 (find?_eq_none.1 h q hall)

theorem declare_eq_ok (h : slots.declare q name slot = .ok slots') :
    slots.qualifier? name = none ∧ ∀ q', (slots'.table q').entries =
      (slots.table q').entries ++ if q' = q then [(name, slot)] else [] := by
  unfold declare at h
  split at h
  · cases h
  rename_i hnew
  cases h
  refine ⟨hnew, fun q' => ?_⟩
  have hin : slots.inputs.contains name = false := contains_eq_false hnew .input
  have hout : slots.outputs.contains name = false := contains_eq_false hnew .output
  have huni : slots.uniforms.contains name = false := contains_eq_false hnew .uniform
  cases q <;> cases q' <;>
    simp [table, Table.entries_insert slot hin, Table.entries_insert slot hout,
      Table.entries_insert slot huni]

theorem mem_all : e ∈ slots.all ↔ ∃ q, e ∈ (slots.table q).entries := by
  unfold all
  rw [mem_append, mem_append]
  constructor
  · rintro ((h | h) | h)
    · exact ⟨.input, h⟩
    · exact ⟨.output, h⟩
    · exact ⟨.uniform, h⟩
  · rintro ⟨q, h⟩
    cases q with
    | input => exact .inl (.inl h)
    | output => exact .inl (.inr h)
    | uniform => exact .inr h

theorem mem_all_of_find? (h : slots.find? name = some slot) : (name, slot) ∈ slots.all := by
  obtain ⟨q, -, hget⟩ := Option.bind_eq_some_iff.1 h
  exact mem_all.2 ⟨q, Table.mem_of_get? hget⟩

theorem all_perm (h : slots.declare q name slot = .ok slots') :
    slots'.all.Perm ((name, slot) :: slots.all) := by
  obtain ⟨-, hentries⟩ := declare_eq_ok h
  have hin := hentries .input
  have hout := hentries .output
  have huni := hentries .uniform
  unfold all
  unfold table at hin hout huni
  simp only at hin hout huni
  rw [hin, hout, huni]
  cases q <;> simp only [reduceCtorEq, if_true, if_false, append_nil, append_assoc]
  · exact perm_middle
  · rw [← append_assoc, ← append_assoc slots.inputs.entries]
    exact perm_middle
  · rw [← append_assoc, ← append_assoc slots.inputs.entries, ← append_assoc]
    exact perm_append_singleton _ _

end Slots

namespace Context

variable {slots : Slots} {name : String} {b : Binding}

def bindSlot (s : ScopeStack) (e : String × Slot) : ScopeStack :=
  s.bind e.1 { type := e.2.type, decl? := e.2.decl }

theorem slotScopes_eq (slots : Slots) :
    slotScopes slots = slots.all.foldl bindSlot {} := rfl

theorem exists_slot (h : (slotScopes slots).get? name = some b) :
    ∃ slot, (name, slot) ∈ slots.all ∧ b = { type := slot.type, decl? := slot.decl } := by
  have hall : ∀ (es : List (String × Slot)) (s : ScopeStack),
      (es.foldl bindSlot s).get? name = some b →
        (∃ slot, (name, slot) ∈ es ∧ b = { type := slot.type, decl? := slot.decl }) ∨
          s.get? name = some b := by
    intro es
    induction es with
    | nil => exact fun s h => .inr h
    | cons e es ih =>
      intro s h
      rcases ih _ h with ⟨slot, hmem, rfl⟩ | h
      · exact .inl ⟨slot, .tail _ hmem, rfl⟩
      · unfold bindSlot at h
        rw [ScopeStack.get?_bind] at h
        split at h
        · next heq =>
          cases h
          exact .inl ⟨e.2, heq ▸ (.head _), rfl⟩
        · exact .inr h
  rw [slotScopes_eq] at h
  refine (hall slots.all {} h).resolve_right fun h => ?_
  cases h

theorem isSome_slotScopes (h : name ∈ slots.all.map Prod.fst) :
    ((slotScopes slots).get? name).isSome = true := by
  have hall : ∀ (es : List (String × Slot)) (s : ScopeStack),
      name ∈ es.map Prod.fst ∨ (s.get? name).isSome = true →
        ((es.foldl bindSlot s).get? name).isSome = true := by
    intro es
    induction es with
    | nil => exact fun s h => h.resolve_left fun hm => by cases hm
    | cons e es ih =>
      intro s h
      refine ih _ ?_
      rw [map_cons, mem_cons] at h
      unfold bindSlot
      rw [ScopeStack.get?_bind]
      by_cases hname : name = e.1
      · rw [if_pos hname]
        exact .inr rfl
      · rw [if_neg hname]
        rcases h with (h | h) | h
        · exact absurd h hname
        · exact .inl h
        · exact .inr h
  rw [slotScopes_eq]
  exact hall slots.all {} (.inl h)

/-- **The scopes of the slots bind each slot to its name**, and nothing else. -/
theorem get?_slotScopes (h : (slots.all.map Prod.fst).Nodup) (name : String) :
    (slotScopes slots).get? name =
      (slots.find? name).map fun slot => { type := slot.type, decl? := slot.decl } := by
  cases hfind : slots.find? name with
  | none =>
    rw [Option.map_none]
    by_contra hbound
    obtain ⟨b, hb⟩ := Option.ne_none_iff_exists'.1 hbound
    obtain ⟨slot, hmem, -⟩ := exists_slot hb
    obtain ⟨q, hmem⟩ := Slots.mem_all.1 hmem
    -- the name is in one of the tables, so that the slot is found
    have hq : (slots.table q).contains name = true :=
      Table.mem_keys_iff.1 (mem_map_of_mem hmem)
    cases hqualifier : slots.qualifier? name with
    | none =>
      rw [Slots.contains_eq_false hqualifier] at hq
      cases hq
    | some q' =>
      have hq' : (slots.table q').contains name = true := by
        unfold Slots.qualifier? at hqualifier
        have hfound := find?_some hqualifier
        exact hfound
      unfold Slots.find? at hfind
      rw [hqualifier, Option.bind_some] at hfind
      unfold Table.contains at hq'
      rw [hfind] at hq'
      cases hq'
  | some slot =>
    have hmem := Slots.mem_all_of_find? hfind
    obtain ⟨b, hb⟩ := Option.isSome_iff_exists.1 (isSome_slotScopes (mem_map_of_mem hmem))
    obtain ⟨slot', hmem', rfl⟩ := exists_slot hb
    cases inj_on_of_nodup_map h hmem hmem' rfl
    exact hb

end Context

namespace Collect

variable {arena b : Arena} {nodes : List NodeId} {node : NodeId} {ctx ctx' : Context}
  {slots : Slots} {u : Unit}

def isSlot (arena : Arena) (q : Qualifier) (node : NodeId) : Bool :=
  arena.kind node == .varDecl && qualifier? arena node == some q

/-- **The tables are the qualified declarations among the nodes**: those of each qualifier in the
order of the nodes, each with its name, its declared type and its node, and no name twice. -/
structure Filed (arena : Arena) (nodes : List NodeId) (slots : Slots) : Prop where
  decls : ∀ q, (slots.table q).entries.map (·.2.decl) = nodes.filter (isSlot arena q)
  names : ∀ e ∈ slots.all, arena.name? e.2.decl = some e.1
  types : ∀ e ∈ slots.all, declaredType? arena e.2.decl = some e.2.type
  nodup : (slots.all.map Prod.fst).Nodup

theorem filed_nil (arena : Arena) : Filed arena [] {} := by
  refine ⟨fun q => ?_, fun e he => ?_, fun e he => ?_, nodup_nil⟩
  · cases q <;> rfl
  · cases he
  · cases he

theorem Filed.skip (h : Filed arena nodes slots) (hnode : ∀ q, isSlot arena q node = false) :
    Filed arena (nodes ++ [node]) slots := by
  refine ⟨fun q => ?_, h.names, h.types, h.nodup⟩
  rw [filter_append, filter_singleton, hnode q, h.decls q]
  simp

/-- **One slot more.** -/
theorem Filed.declare {q : Qualifier} {name : String} {t : Ty} {slots' : Slots}
    (h : Filed arena nodes slots) (hkind : arena.kind node = .varDecl)
    (hq : qualifier? arena node = some q) (hname : arena.name? node = some name)
    (htype : declaredType? arena node = some t)
    (hdeclare : slots.declare q name { decl := node, type := t } = .ok slots') :
    Filed arena (nodes ++ [node]) slots' := by
  obtain ⟨hnew, hentries⟩ := Slots.declare_eq_ok hdeclare
  have hperm := Slots.all_perm hdeclare
  have hmem : ∀ e, e ∈ slots'.all ↔ e = (name, ⟨node, t⟩) ∨ e ∈ slots.all := by
    intro e
    rw [hperm.mem_iff, mem_cons]
  refine ⟨fun q' => ?_, fun e he => ?_, fun e he => ?_, ?_⟩
  · have hslot : isSlot arena q' node = decide (q' = q) := by
      unfold isSlot
      rw [hkind, hq]
      cases q <;> cases q' <;> rfl
    rw [hentries, map_append, h.decls, filter_append, filter_singleton, hslot]
    by_cases hqq : q' = q <;> simp [hqq]
  · rcases (hmem e).1 he with rfl | he
    · exact hname
    · exact h.names e he
  · rcases (hmem e).1 he with rfl | he
    · exact htype
    · exact h.types e he
  · -- the name is in none of the three tables
    have hfresh : name ∉ slots.all.map Prod.fst := by
      intro hm
      obtain ⟨e, he, hfst⟩ := mem_map.1 hm
      obtain ⟨q', he⟩ := Slots.mem_all.1 he
      have hkey : name ∈ (slots.table q').keys := hfst ▸ mem_map_of_mem he
      rw [Table.mem_keys_iff, Slots.contains_eq_false hnew] at hkey
      cases hkey
    rw [(hperm.map Prod.fst).nodup_iff, map_cons, nodup_cons]
    exact ⟨hfresh, h.nodup⟩

/-- **One node below the root.** -/
theorem Filed.item (h : Filed arena nodes ctx.slots) (hitem : item arena node ctx = .ok u ctx') :
    Filed arena (nodes ++ [node]) ctx'.slots := by
  have hother : arena.kind node ≠ .varDecl → ∀ q, isSlot arena q node = false := by
    intro hkind q
    unfold isSlot
    simp [hkind]
  rcases item_cases hitem with ⟨hkind, hdecl⟩ | ⟨hkind, hfun⟩ | ⟨hkind, -, rfl⟩
  · rcases declaration_cases hdecl with ⟨hq, rfl⟩ | ⟨q, name, t, slots', hq, hname, htype, hslots, rfl⟩
    · refine h.skip fun q => ?_
      unfold isSlot
      simp [hq]
    · exact h.declare hkind hq hname htype hslots
  · obtain ⟨_, _, rfl⟩ := function_cases hfun
    exact h.skip (hother (by simp [hkind]))
  · exact h.skip (hother hkind)

/-- **All nodes of a list.** -/
theorem items_filed (h : nodes.forM (item arena) ctx = .ok u ctx') (hctx : ctx.slots = {}) :
    Filed arena nodes ctx'.slots := by
  have hrun : ∀ (rest done : List NodeId) {ctx : Context}, Filed arena done ctx.slots →
      rest.forM (item arena) ctx = .ok u ctx' → Filed arena (done ++ rest) ctx'.slots := by
    intro rest
    induction rest with
    | nil =>
      intro done ctx hdone h
      obtain ⟨-, rfl⟩ := Steps.pure_eq_ok.1 h
      rwa [append_nil]
    | cons node rest ih =>
      intro done ctx hdone h
      obtain ⟨_, ctx₁, hitem, hrest⟩ := Steps.bind_eq_ok.1 h
      have hnext := ih (done ++ [node]) (hdone.item hitem) hrest
      rwa [append_assoc] at hnext
  exact hrun nodes [] (hctx ▸ filed_nil arena) h

theorem Filed.decl_mem (h : Filed arena nodes slots) (he : e ∈ slots.all) : e.2.decl ∈ nodes := by
  obtain ⟨q, he⟩ := Slots.mem_all.1 he
  have hdecl : e.2.decl ∈ (slots.table q).entries.map (·.2.decl) := mem_map_of_mem he
  rw [h.decls q] at hdecl
  exact mem_of_mem_filter hdecl

theorem Filed.kind_decl (h : Filed arena nodes slots) (he : e ∈ slots.all) :
    arena.kind e.2.decl = .varDecl := by
  obtain ⟨q, he⟩ := Slots.mem_all.1 he
  have hdecl : e.2.decl ∈ (slots.table q).entries.map (·.2.decl) := mem_map_of_mem he
  rw [h.decls q] at hdecl
  exact beq_iff_eq.1 (Bool.and_eq_true_iff.1 (mem_filter.1 hdecl).2).1

theorem Filed.sameTop {root : Nat} (h : Filed arena (arena.children root) slots)
    (hsame : Swizzle.SameTop root arena b) : Filed b (b.children root) slots := by
  have hlabel : ∀ d ∈ arena.children root, b.label d = arena.label d := fun d hd =>
    hsame.label d (Swizzle.mem_topNodes.2 (.inr (.inl hd)))
  have hfirst : ∀ d ∈ arena.children root, ∀ typeNode, arena.child? d 0 = some typeNode →
      b.label typeNode = arena.label typeNode := fun d hd typeNode hchild =>
    hsame.label typeNode (Swizzle.mem_topNodes.2 (.inr (.inr ⟨d, hd, hchild⟩)))
  have hbind : ∀ {β : Type} (f : Label → Option β), ∀ d ∈ arena.children root,
      ((b.child? d 0).bind fun typeNode => f (b.label typeNode)) =
        (arena.child? d 0).bind fun typeNode => f (arena.label typeNode) := by
    intro β f d hd
    rw [hsame.first d hd]
    exact Option.bind_congr fun typeNode hchild => by rw [hfirst d hd typeNode hchild]
  refine ⟨fun q => ?_, fun e he => ?_, fun e he => ?_, h.nodup⟩
  · rw [h.decls q, hsame.children]
    refine filter_congr fun d hd => ?_
    unfold isSlot qualifier? Arena.kind
    rw [hlabel d hd, hbind Label.qualifier d hd]
  · unfold Arena.name?
    rw [hlabel _ (h.decl_mem he)]
    exact h.names e he
  · exact (hbind Label.type? _ (h.decl_mem he)).trans (h.types e he)

end Collect

/-- **The slots of a parsed program are its qualified declarations.** -/
theorem parseProgram_filed {source filename : String} {p : Program}
    (h : parseProgram source filename = .ok p) :
    ∃ root, p.arena.root? = some root ∧
      Collect.Filed p.arena (p.arena.children root) p.context.slots := by
  obtain ⟨text, root, -, hparse, hitems⟩ := parseProgram_eq_ok h
  exact ⟨root, (Parsed.of_parse Arena.wellFormed_empty rfl hparse).root?,
    Collect.items_filed hitems rfl⟩

namespace Emit

theorem lookup_zipIdx {names : List String} (h : names.Nodup) (name : String) (start k : Nat) :
    (names.zipIdx start).lookup name = some (start + k) ↔ names[k]? = some name := by
  induction names generalizing start k with
  | nil => simp
  | cons other rest ih =>
    obtain ⟨hother, hrest⟩ := nodup_cons.1 h
    rw [zipIdx_cons, lookup_cons]
    by_cases hname : name = other
    · subst hname
      rw [beq_self_eq_true]
      cases k with
      | zero => simp
      | succ k =>
        have hk : rest[k]? ≠ some name := fun hk => hother (mem_of_getElem? hk)
        simpa using hk
    · rw [beq_eq_false_iff_ne.2 hname]
      cases k with
      | zero =>
        have hlarge : (rest.zipIdx (start + 1)).lookup name ≠ some (start + 0) := by
          intro hk
          obtain ⟨pre, post, hsplit, -⟩ := lookup_eq_some_iff.1 hk
          have hmem : (name, start + 0) ∈ rest.zipIdx (start + 1) := by
            rw [hsplit]
            exact mem_append_right _ (.head _)
          have := le_snd_of_mem_zipIdx hmem
          omega
        simpa [Ne.symm hname] using hlarge
      | succ k =>
        have hshift := ih hrest (start + 1) k
        rwa [Nat.add_assoc, Nat.add_comm 1 k] at hshift

variable {slots : Slots} {name : String} {k : Nat}

theorem Bindings.outputCount_ofSlots (slots : Slots) :
    (Bindings.ofSlots slots).outputCount = slots.outputs.size := by
  unfold Bindings.outputCount Bindings.ofSlots Table.keys Table.size
  rw [length_zipIdx, length_map]

/-- **The place of an output is its position among the outputs.** -/
theorem Bindings.place?_ofSlots (h : (slots.all.map Prod.fst).Nodup) :
    (Bindings.ofSlots slots).place? name = some k ↔ slots.outputs.keys[k]? = some name := by
  have houtputs : slots.outputs.keys.Nodup := by
    unfold Slots.all at h
    rw [map_append, map_append] at h
    exact (nodup_append.1 (nodup_append.1 h).1).2.1
  have hfound := lookup_zipIdx houtputs name 0 k
  rwa [Nat.zero_add] at hfound

/-- What a script writes for a name that refers to an output is the place of that output. -/
theorem JavaScript.place?_of_outputPlace? {ctx : Context} {scopes : ScopeStack}
    (h : outputPlace? ctx scopes name = some k) :
    (Bindings.ofSlots ctx.slots).place? name = some k := by
  unfold outputPlace? at h
  split at h
  · split at h
    · exact h
    · cases h
  · cases h

end Emit

open Emit JavaScript in
/-- **The slots are the contract with the host.** Whatever program is compiled, with the lowering
of swizzles or without:

* the tables of inputs, outputs and uniforms are the declarations with that qualifier directly
  below the root of the tree, in their order, each with its name, its declared type and its node,
  and no name is in them twice;
* the `k`-th output has the place `k`, and there are as many places as outputs;
* in every scope, a name is written as it is or by the place of the output with that name, which
  is one of these places. -/
theorem compile_filed {source filename : String} {lowers : Bool} {p : Program}
    (h : compile source { filename, lowerSwizzles := lowers, passes := [] } = .ok p) :
    ∃ root, p.arena.root? = some root ∧
      Collect.Filed p.arena (p.arena.children root) p.context.slots ∧
      (∀ name k, (Bindings.ofSlots p.context.slots).place? name = some k ↔
        p.context.slots.outputs.keys[k]? = some name) ∧
      (Bindings.ofSlots p.context.slots).outputCount = p.context.slots.outputs.size ∧
      ∀ scopes name,
        (outputPlace? p.context scopes name = none ∧ identText p.context scopes name = name) ∨
        ∃ k, outputPlace? p.context scopes name = some k ∧
          identText p.context scopes name = "__outs[" ++ toString k ++ "]" ∧
          (Bindings.ofSlots p.context.slots).place? name = some k ∧
          k < (Bindings.ofSlots p.context.slots).outputCount := by
  obtain ⟨p₀, root, hparse, hp, hsame, hslots, -⟩ := Swizzle.compile_sameTop h
  obtain ⟨root', hroot, hfiled₀⟩ := parseProgram_filed hparse
  cases hp.root?.symm.trans hroot
  have hfiled : Collect.Filed p.arena (p.arena.children root) p.context.slots := by
    rw [hslots]
    exact hfiled₀.sameTop hsame
  have hcount := Bindings.outputCount_ofSlots p.context.slots
  refine ⟨root, hsame.root?.trans hp.root?, hfiled,
    fun name k => Bindings.place?_ofSlots hfiled.nodup, hcount, fun scopes name => ?_⟩
  unfold identText
  cases hplace : outputPlace? p.context scopes name with
  | none => exact .inl ⟨rfl, rfl⟩
  | some k =>
    have hk := place?_of_outputPlace? hplace
    have hlt : k < p.context.slots.outputs.keys.length := by
      have hkey := (Bindings.place?_ofSlots hfiled.nodup).1 hk
      exact (List.getElem?_eq_some_iff.1 hkey).1
    rw [hcount]
    exact .inr ⟨k, rfl, rfl, hk, by rwa [Table.keys, length_map] at hlt⟩

/-- A program with slots between other declarations. The lowering splits assignments to two of
them. -/
def slotText : String :=
  "out vec3 a; in float x; float g; uniform vec2 u; out vec2 b; void main() { b.yx = u; a.xy = b.yx; g = x; }"

/-- The names of the outputs and the place of `b`, if the program was compiled. -/
def outputsOf (r : Except Error Program) : Option (List String × Option Nat) :=
  match r with
  | .ok p => some (p.context.slots.outputs.keys,
      (Emit.Bindings.ofSlots p.context.slots).place? "b")
  | .error _ => none

theorem compile_filed_slotText : ∃ p root,
    compile slotText { filename := "", lowerSwizzles := true, passes := [] } = .ok p ∧
      p.arena.root? = some root ∧
      p.context.slots.outputs.entries.map (·.2.decl) =
        (p.arena.children root).filter (Collect.isSlot p.arena .output) ∧
      p.context.slots.outputs.keys = ["a", "b"] ∧
      (Emit.Bindings.ofSlots p.context.slots).place? "b" = some 1 := by
  have hcheck : outputsOf (compile slotText { filename := "", lowerSwizzles := true, passes := [] }) =
      some (["a", "b"], some 1) := by
    decide +kernel
  cases hcompile : compile slotText { filename := "", lowerSwizzles := true, passes := [] } with
  | error e =>
    rw [hcompile] at hcheck
    cases hcheck
  | ok p =>
    rw [hcompile] at hcheck
    obtain ⟨hkeys, hplace⟩ := Prod.mk.inj (Option.some.inj hcheck)
    obtain ⟨root, hroot, hfiled, -⟩ := compile_filed hcompile
    exact ⟨p, root, rfl, hroot, hfiled.decls .output, hkeys, hplace⟩

end VecLang
