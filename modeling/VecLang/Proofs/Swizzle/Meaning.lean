import VecLang.Proofs.Execution
import VecLang.Proofs.Swizzle.Complete

/-!
# What a split assignment does

An assignment to a swizzle gives several components of a variable their values at once. It
is split into assignments to one component each, which evaluate the value again for each
component and after the components before it were written. If the value does not depend on
the variable, then both do the same: the value is the same each time, and the components
are different ones.

* `assignEach`: assigning to several elements at once.
* `after_eq_assignEach`: assigning to different elements one after the other is the same.
* `after_splitTrees`: the split assignments do what the assignment to the swizzle says.
* `lowerWrite_after`: so does what lowering puts in the place of the assignment.
-/

namespace VecLang

open List

variable {α β : Type} {is : List Nat} {r : Option (Datum α)} {ts : List Tree}
  {rs : List (Option (Datum α))} {s' : Store α} {xs : List (Datum α)} {sw : Swizzle} {base e : Tree}
  {n : Nat}

/-! ### Several elements at once -/

/-- The list with `xs[k]` in the place `is[k]` for all `k` at once. -/
def setEach (is : List Nat) (xs elems : List β) : List β :=
  elems.mapIdx fun j y => ((is.zip xs).lookup j).getD y

theorem setEach_nil (xs elems : List β) : setEach [] xs elems = elems := by
  unfold setEach
  refine ext_getElem (by simp) fun j hj hj' => ?_
  simp

theorem setEach_cons {i : Nat} (hi : i ∉ is) (x : β) (xs elems : List β) :
    setEach (i :: is) (x :: xs) elems = setEach is xs (elems.set i x) := by
  have hnone : (is.zip xs).lookup i = none := by
    rw [lookup_eq_none_iff]
    intro e he
    have hmem := (of_mem_zip he).1
    rw [bne_iff_ne]
    rintro rfl
    exact hi hmem
  unfold setEach
  refine ext_getElem (by simp) fun j hj hj' => ?_
  simp only [getElem_mapIdx, zip_cons_cons, lookup_cons, getElem_set]
  by_cases hji : i = j
  · subst hji
    simp [hnone]
  · have hbeq : (j == i) = false := beq_eq_false_iff_ne.2 (Ne.symm hji)
    simp [hji, hbeq]

/-- **Assigns to several elements of a variable at once.** -/
def assignEach (name : String) (is : List Nat) (xs : List (Datum α)) (s : Store α) :
    Option (Store α) := do
  let elems ← s.elems? name
  if is.length ≤ xs.length ∧ ∀ i ∈ is, i < elems.length then
    return s.set name (.array (setEach is xs elems))
  else none

/-! ### Assigning to one element -/

namespace Swizzle

variable {M : Machine α} {pos vpos : Pos} {name : String} {s : Store α} {t : Tree}

theorem eval_nameTree (M : Machine α) (name : String) (s : Store α) :
    M.eval (nameTree vpos name) s = (s name).map (·, s) := by
  unfold nameTree Tree.valued Machine.eval
  simp [Label.name?]

theorem eval_intTree (M : Machine α) (i : Nat) (s : Store α) :
    M.eval (.valued .intConst pos (.int i) []) s = some (M.constant (.int i), s) := by
  unfold Tree.valued Machine.eval
  rfl

theorem eval_elementTree (h : M.eval t s = r.map (·, s)) (k : Nat) :
    M.eval (elementTree pos t k) s = ((r.bind Datum.elems?).bind (·[k]?)).map (·, s) := by
  unfold elementTree Tree.plain Machine.eval
  simp only [Exec.bind_apply, h, eval_intTree, Exec.lift_apply]
  cases r with
  | none => rfl
  | some x => cases helems : x.elems? <;> simp [helems, M.position_int]

theorem assign_elementTree (M : Machine α) (x : Datum α) (i : Nat) (s : Store α) :
    M.assign (elementTree pos (nameTree vpos name) i) x s =
      (s.elems? name).bind fun elems =>
        if i < elems.length then some ((), s.set name (.array (elems.set i x))) else none := by
  have hname : ∀ (x : Datum α) (s : Store α),
      M.assign (nameTree vpos name) x s = some ((), s.set name x) := by
    intro x s
    unfold nameTree Tree.valued Machine.assign
    simp [Label.name?]
  unfold elementTree Tree.plain Machine.assign Store.elems?
  simp only [Exec.bind_apply, eval_nameTree, eval_intTree, Exec.lift_apply]
  cases s name with
  | none => rfl
  | some base =>
    cases helems : base.elems? with
    | none => simp [helems]
    | some elems =>
      simp only [Option.map_some, Option.bind_some, helems, M.position_int]
      split
      · exact hname _ s
      · rfl

/-- The assignment of `t` to element `i` of a variable. -/
def elementAssign (pos vpos : Pos) (name : String) (i : Nat) (t : Tree) : Tree :=
  .operated .assign pos .assign [elementTree pos (nameTree vpos name) i, t]

theorem eval_elementAssign (h : M.eval t s = r.map (·, s)) (i : Nat) :
    M.eval (elementAssign pos vpos name i t) s =
      r.bind fun x => (s.elems? name).bind fun elems =>
        if i < elems.length then some (x, s.set name (.array (elems.set i x))) else none := by
  unfold elementAssign Tree.operated Machine.eval
  simp only [Exec.bind_apply, h]
  cases r with
  | none => rfl
  | some x =>
    simp only [Option.map_some, Option.bind_some, assign_elementTree]
    cases s.elems? name with
    | none => rfl
    | some elems =>
      simp only [Option.bind_some]
      split <;> rfl

/-! ### Assigning one after the other -/

/-- What the expressions have for values in every store that differs from `s` in what `name`
holds. -/
def Values (M : Machine α) (name : String) (s : Store α) (ts : List Tree)
    (rs : List (Option (Datum α))) : Prop :=
  List.Forall₂ (fun t r => ∀ s', AgreeOff name s s' → M.eval t s' = r.map (·, s')) ts rs

theorem exists_values (h : ∀ t ∈ ts, Steady name s (M.eval t)) : ∃ rs, Values M name s ts rs := by
  induction ts with
  | nil => exact ⟨[], .nil⟩
  | cons t ts ih =>
    obtain ⟨r, hr⟩ := h t (.head _)
    obtain ⟨rs, hrs⟩ := ih fun u hu => h u (.tail _ hu)
    exact ⟨r :: rs, .cons hr hrs⟩

theorem Values.evalAll (h : Values M name s ts rs) (hagree : AgreeOff name s s') :
    M.evalAll ts s' = (rs.mapM id).map (·, s') := by
  induction h with
  | nil =>
    unfold Machine.evalAll
    rfl
  | @cons t r ts rs hr _ ih =>
    unfold Machine.evalAll
    rw [mapM_cons, Exec.bind_apply, hr s' hagree]
    cases r with
    | none => rfl
    | some x =>
      simp only [Option.map_some, Option.bind_some, Exec.bind_apply, ih]
      cases rs.mapM id <;> rfl

theorem Values.length_eq_of_mapM (h : Values M name s ts rs) (hxs : rs.mapM id = some xs) :
    xs.length = ts.length := by
  have hmap := congrArg length (mapM_eq_some_iff.1 hxs)
  rw [length_map, length_map] at hmap
  rw [← hmap, List.Forall₂.length_eq h]

/-- **Assignments to different elements, one after the other**: each value is the same as before
the others, and none of them is overwritten. -/
theorem after_elementAssigns {elems : List (Datum α)} (hvalues : Values M name s ts rs)
    (hnodup : is.Nodup) (hlen : is.length = ts.length) (hagree : AgreeOff name s s')
    (helems : s'.elems? name = some elems) :
    M.after (zipWith (elementAssign pos vpos name) is ts) s' =
      (rs.mapM id).bind fun xs =>
        if ∀ i ∈ is, i < elems.length then some (s'.set name (.array (setEach is xs elems)))
        else none := by
  induction hvalues generalizing is s' elems with
  | nil =>
    obtain rfl := length_eq_zero_iff.1 hlen
    rw [zipWith_nil_left, Machine.after_nil, mapM_nil]
    simp [setEach_nil, Store.set_eq_self (Store.elems?_eq_some.1 helems)]
  | @cons t r ts rs hr _ ih =>
    cases is with
    | nil => cases hlen
    | cons i is =>
      obtain ⟨hi, hnodup⟩ := nodup_cons.1 hnodup
      rw [zipWith_cons_cons, Machine.after_cons, eval_elementAssign (hr s' hagree),
        mapM_cons]
      cases r with
      | none => rfl
      | some x =>
        simp only [Option.bind_some, helems, id]
        by_cases hlt : i < elems.length
        · rw [if_pos hlt, Option.bind_some, ih hnodup (Nat.succ.inj hlen) (hagree.set _)
            (Store.elems?_set s' name _)]
          cases rs.mapM id with
          | none => rfl
          | some xs => simp [Store.set_set, setEach_cons hi, hlt]
        · rw [if_neg hlt]
          cases rs.mapM id with
          | none => rfl
          | some xs => simp [hlt]

/-- **Elements of a variable may be assigned to one after the other** instead of all at once. -/
theorem after_eq_assignEach (hvalues : Values M name s ts rs) (hnodup : is.Nodup) (hne : is ≠ [])
    (hlen : is.length = ts.length) :
    M.after (zipWith (elementAssign pos vpos name) is ts) s =
      (rs.mapM id).bind fun xs => assignEach name is xs s := by
  have hagree : AgreeOff name s s := fun _ _ => rfl
  unfold assignEach
  cases helems : s.elems? name with
  | some elems =>
    rw [after_elementAssigns hvalues hnodup hlen hagree helems]
    cases hrs : rs.mapM id with
    | none => rfl
    | some xs =>
      simp [hvalues.length_eq_of_mapM hrs, hlen]
  | none =>
    -- the first assignment already has nothing to assign to
    cases hvalues with
    | nil => exact absurd (length_eq_zero_iff.1 hlen) hne
    | @cons t r ts rs hr _ =>
      obtain ⟨i, is, rfl⟩ := exists_cons_of_ne_nil hne
      rw [zipWith_cons_cons, Machine.after_cons, eval_elementAssign (hr s hagree), helems]
      cases r <;> simp

/-! ### The components of a value -/

/-- **The expressions for the components of a value**: the arguments of a constructor that gives
one for each, or the elements of the value. -/
def components (pos : Pos) (n : Nat) (e : Tree) : List Tree :=
  match constructed? n e with
  | some args => args
  | none => (range n).map (elementTree pos e)

theorem length_components (pos : Pos) (n : Nat) (e : Tree) : (components pos n e).length = n := by
  unfold components
  split
  · next args hargs => exact (mem_subtrees_of_constructed hargs).1
  · simp

theorem components_of_uncaptured (h : Uncaptured sw base e) :
    components pos sw.width e = (range sw.width).map (valueAt pos sw base e) := by
  have hvalue : ∀ k < sw.width, _ := fun k hk => valueAt_of_uncaptured pos h hk
  unfold components
  cases hargs : constructed? sw.width e with
  | none =>
    refine map_congr_left fun k hk => ?_
    rw [hvalue k (mem_range.1 hk), hargs]
  | some args =>
    have hlen : args.length = sw.width := (mem_subtrees_of_constructed hargs).1
    refine ext_getElem (by simp [hlen]) fun k hk hk' => ?_
    simp [hvalue k (hlen ▸ hk), hargs, getElem?_eq_getElem hk]

/-- What an assignment to a swizzle is split into if no name is taken for an operand. -/
theorem splitTrees_of_uncaptured (h : Uncaptured sw (nameTree vpos name) e) :
    splitTrees pos sw (nameTree vpos name) e =
      zipWith (elementAssign pos vpos name) sw.indices (components pos sw.width e) := by
  rw [components_of_uncaptured h]
  unfold splitTrees writeTrees elementAssign width
  refine ext_getElem (by simp) fun k hk hk' => ?_
  simp

theorem mapM_getElem? (o : Option (List β)) (hn : 0 < n) :
    ((range n).map fun k => o.bind (·[k]?)).mapM id =
      o.bind fun xs => if n ≤ xs.length then some (xs.take n) else none := by
  -- a place that has no element
  have hnone : ∀ k < n, o.bind (·[k]?) = none →
      ((range n).map fun k => o.bind (·[k]?)).mapM id = none := by
    intro k hk hempty
    rw [Option.eq_none_iff_forall_ne_some]
    intro ys hys
    have hplace := congrArg (·[k]?) (mapM_eq_some_iff.1 hys)
    simp only [getElem?_map, getElem?_range hk, Option.map_some, hempty] at hplace
    obtain ⟨y, -, hy⟩ := Option.map_eq_some_iff.1 hplace.symm
    cases hy
  cases o with
  | none => exact hnone 0 hn rfl
  | some xs =>
    rw [Option.bind_some]
    split
    · next hle =>
      rw [mapM_eq_some_iff, map_id]
      refine ext_getElem (by simp [hle]) fun k hk hk' => ?_
      have hlt : k < n := by simpa using hk
      simp [getElem?_eq_getElem (Nat.lt_of_lt_of_le hlt hle)]
    · next hlt =>
      exact hnone xs.length (Nat.lt_of_not_le hlt) (getElem?_eq_none (Nat.le_refl _))

/-- **What the components of a value that does not depend on the variable are**: the elements of
the value, however often they are evaluated. -/
theorem exists_componentValues (h : Independent M name e) (s : Store α) (pos : Pos) (hn : 0 < n) :
    ∃ rs, Values M name s (components pos n e) rs ∧ ∃ r : Option (Datum α),
      M.eval e s = r.map (·, s) ∧ rs.mapM id = (r.bind Datum.elems?).bind fun xs =>
        if n ≤ xs.length then some (xs.take n) else none := by
  have hagree : AgreeOff name s s := fun _ _ => rfl
  unfold components
  cases hargs : constructed? n e with
  | none =>
    obtain ⟨r, hr⟩ := h.steady s
    refine ⟨_, ?_, r, hr s hagree, mapM_getElem? (r.bind Datum.elems?) hn⟩
    refine forall₂_map_left_iff.2 (forall₂_map_right_iff.2 ?_)
    exact forall₂_same.2 fun k _ s' hs => eval_elementTree (hr s' hs) k
  | some args =>
    -- the value is the array of what the arguments are
    obtain ⟨l, ts⟩ := e
    obtain ⟨hcall, hlen, callee, ⟨la, args⟩, more, rfl, rfl, ty, hty, hname⟩ :=
      constructed?_eq_some hargs
    obtain ⟨rs, hrs⟩ := exists_values fun t ht => (h.argument hcall ht).steady s
    have hxs : ∀ xs, rs.mapM id = some xs → xs.length = n :=
      fun xs h => (hrs.length_eq_of_mapM h).trans hlen
    refine ⟨rs, hrs, (rs.mapM id).map .array, ?_, ?_⟩
    · unfold Machine.eval
      simp only [hcall, Exec.bind_apply, hrs.evalAll hagree, Option.mem_def.1 hty]
      cases hmap : rs.mapM id with
      | none => rfl
      | some xs =>
        have hconstruct := M.construct_vector ty xs (by rw [hname, hxs xs hmap])
        simp [hconstruct]
    · cases hmap : rs.mapM id with
      | none => rfl
      | some xs => simp [Datum.elems?, ← hxs xs hmap]

/-! ### The assignment as a whole -/

/-- **Evaluates a value once and assigns its elements** to the components that a swizzle selects,
all at once. -/
def assignSwizzle (M : Machine α) (name : String) (sw : Swizzle) (e : Tree) (s : Store α) :
    Option (Store α) := do
  let r ← M.eval e s
  let xs ← r.1.elems?
  assignEach name sw.indices xs r.2

theorem assignEach_take (is : List Nat) (h : is.length ≤ xs.length) :
    assignEach name is (xs.take is.length) s = assignEach name is xs s := by
  have hzip : is.zip (xs.take is.length) = is.zip xs := by
    have hmin : is.zip xs = _ := zip_eq_zip_take_min
    rw [hmin, Nat.min_eq_left h, take_length]
  unfold assignEach setEach
  rw [hzip, length_take, Nat.min_eq_left h]
  simp [h]

/-- **The split assignments do what the assignment to the swizzle says.** -/
theorem after_splitTrees (h : Independent M name e) (hfree : Uncaptured sw (nameTree vpos name) e)
    (hnodup : sw.indices.Nodup) (hwidth : 0 < sw.width) :
    M.after (splitTrees pos sw (nameTree vpos name) e) s = assignSwizzle M name sw e s := by
  obtain ⟨rs, hvalues, r, hr, hrs⟩ := exists_componentValues h s pos hwidth
  have hlen : sw.indices.length = (components pos sw.width e).length :=
    (length_components pos sw.width e).symm
  rw [splitTrees_of_uncaptured hfree,
    after_eq_assignEach hvalues hnodup (ne_nil_of_length_pos hwidth) hlen, hrs]
  unfold assignSwizzle
  rw [hr]
  cases r with
  | none => rfl
  | some w =>
    change (w.elems?.bind _).bind _ = w.elems?.bind _
    cases w.elems? with
    | none => rfl
    | some xs =>
      rw [Option.bind_some, Option.bind_some]
      split
      · next hle => exact assignEach_take sw.indices hle
      · next hlt =>
        -- the value has too few elements
        unfold assignEach
        cases s.elems? name with
        | none => rfl
        | some elems => exact (if_neg fun hle => hlt hle.1).symm

/-! ### Lowering the assignment -/

open ScopeWalk Arena

variable {node list : NodeId} {v : View Unit}

/-- **The node is a statement `name.member = e`** of a block, and lowering splits it: the variable
is an array, and the member selects components as `sw` says. -/
structure WritesSwizzle (v : View Unit) (node list : NodeId) (vpos : Pos) (name : String)
    (sw : Swizzle) (e : Tree) : Prop where
  wellFormed : v.arena.WellFormed
  lt_size : node < v.arena.size
  types : v.context.types = Builtin.types
  array : ∃ t, v.context.bindingType name = .ok t ∧ t.isArray = true
  parent : v.arena.parent? node = some list
  block : v.arena.kind list = .block
  assigns : ∃ pos tpos mpos member, ofMember? member = some sw ∧ v.arena.tree node =
    .operated .assign pos .assign
      [.plain .member tpos [nameTree vpos name, nameTree mpos member], e]

theorem exists_spans_assign {a : Arena} {l m : Label} {member : Tree} (hw : a.WellFormed)
    (hlt : node < a.size) (h : a.tree node = .node l [.node m [base, member], e]) :
    ∃ target b c val, a.Spans (.node node [.node target [b, c], val]) ∧ a.label target = m ∧
      b.map a.label = base ∧ c.map a.label = member ∧ val.map a.label = e := by
  obtain ⟨ss, hs, htree⟩ := exists_tree_eq hw hlt
  rw [h] at htree
  obtain ⟨-, hss⟩ := Rose.node.inj htree
  obtain ⟨⟨target, ts⟩, rest, rfl, htarget, hrest⟩ := map_eq_cons_iff.1 hss.symm
  obtain ⟨val, rest, rfl, hval, hnil⟩ := map_eq_cons_iff.1 hrest
  obtain rfl := map_eq_nil_iff.1 hnil
  rw [Rose.map_node] at htarget
  obtain ⟨hlabel, hts⟩ := Rose.node.inj htarget
  obtain ⟨b, rest, rfl, hb, hrest⟩ := map_eq_cons_iff.1 hts
  obtain ⟨c, rest, rfl, hc, hnil⟩ := map_eq_cons_iff.1 hrest
  obtain rfl := map_eq_nil_iff.1 hnil
  exact ⟨target, b, c, val, hs, hlabel, hb, hc, hval⟩

theorem arrayBase?_of_array {id : NodeId} {b : Rose Nat} {ss : List (Rose Nat)} {t : Ty}
    (hs : v.arena.Spans (.node id (b :: ss))) (hb : b.map v.arena.label = nameTree vpos name)
    (htype : v.context.bindingType name = .ok t) (harray : t.isArray = true) :
    arrayBase? v id (fun n => n) = .ok (some b.entry) := by
  have hlabel : v.arena.label b.entry = { kind := .ident, value := some (.name name), pos := vpos } := by
    have hentry := congrArg Rose.entry hb
    rw [Rose.entry_map] at hentry
    exact hentry
  have hkind : v.arena.kind b.entry = .ident := congrArg Label.kind hlabel
  have hname : v.arena.name? b.entry = some name := congrArg Label.name? hlabel
  unfold arrayBase?
  rw [child?_zero hs]
  simp only [head?_cons, Option.map_some, if_pos hkind, hname, Option.getD_some, htype]
  exact congrArg Except.ok (if_pos harray)

theorem WritesSwizzle.runs (h : WritesSwizzle v node list vpos name sw e) :
    Steps.Runs (lowerWrite node) v fun flow v' => ∃ ss parts, flow = .replaced (parts.map Rose.entry) ∧
      Rewrites v.arena (.node node ss) v'.arena parts ∧
      ∃ pos, parts.map (Rose.map v'.arena.label) = splitTrees pos sw (nameTree vpos name) e := by
  obtain ⟨pos, tpos, mpos, member, hmember, hassigns⟩ := h.assigns
  obtain ⟨t, htype, harray⟩ := h.array
  obtain ⟨target, b, c, val, hs, hlabel, hb, hc, hval⟩ :=
    exists_spans_assign h.wellFormed h.lt_size hassigns
  have htarget := hs.of_mem (.head _)
  have hkind : v.arena.kind target = .member := congrArg Label.kind hlabel
  have hname : memberName? v.arena target = some member := by
    rw [memberName?_eq htarget, map_cons, map_cons, hc]
    rfl
  obtain ⟨-, hwidth, hindices⟩ := ofMember?_bounds hmember
  unfold lowerWrite
  refine .get_bind ?_
  simp only [child?_eq hs, getElem?_cons_zero, getElem?_cons_succ, Option.map_some,
    Rose.entry, if_pos hkind, hname, hmember, h.parent, if_pos h.block]
  rw [show arrayBase? v target id = _ from arrayBase?_of_array htarget hb htype harray]
  have hsplit := splitAssignment_runs (h.types ▸ templates_builtin) hwidth hindices h.wellFormed hs
    h.parent
  rw [hb, hval] at hsplit
  obtain ⟨flow, v', hrun, -, parts, hflow, hrw, -, htrees⟩ := hsplit
  exact ⟨flow, v', hrun, _, parts, hflow, hrw, _, htrees⟩

theorem WritesSwizzle.exists_parts (h : WritesSwizzle v node list vpos name sw e) :
    ∃ parts v' pos, lowerWrite node v = .ok (.replaced parts) v' ∧
      v'.arena.children list = splice node parts (v.arena.children list) ∧
      parts.map v'.arena.tree = splitTrees pos sw (nameTree vpos name) e := by
  obtain ⟨_, v', hrun, ss, parts, rfl, hrw, pos, htrees⟩ := h.runs
  have hlist : list ∉ (Rose.node node ss).preorder := fun hm =>
    h.wellFormed.not_under_of_parent h.parent ((hrw.focus.mem_preorder h.wellFormed).1 hm)
  have hplace := hrw.children list (h.wellFormed.parent_lt h.parent) hlist
  refine ⟨_, v', pos, hrun, hplace, ?_⟩
  rw [← htrees, map_map]
  exact map_congr_left fun u hu => (hrw.spans u hu).tree_eq hrw.wellFormed

/-- **An assignment to a swizzle is lowered to assignments that do what it says**: executing them
one after the other gives the store in which the elements of the value, evaluated once, were
assigned to the components all at once. They stand where the assignment stood. The value must
not depend on the variable, and none of its names may be taken for an operand of the template. -/
theorem lowerWrite_after (M : Machine α) {v : View Unit} {node list : NodeId} {vpos : Pos}
    {name : String} {sw : Swizzle} {e : Tree} (h : WritesSwizzle v node list vpos name sw e)
    (hindependent : Independent M name e) (hfree : Uncaptured sw (nameTree vpos name) e) :
    ∃ parts v', lowerWrite node v = .ok (.replaced parts) v' ∧
      v'.arena.children list = splice node parts (v.arena.children list) ∧
      ∀ s, M.after (parts.map v'.arena.tree) s = assignSwizzle M name sw e s := by
  obtain ⟨parts, v', pos, hrun, hplace, htrees⟩ := h.exists_parts
  obtain ⟨_, _, _, member, hmember, -⟩ := h.assigns
  have hwidth : 0 < sw.width := Nat.lt_of_lt_of_le Nat.two_pos (ofMember?_bounds hmember).1
  refine ⟨parts, v', hrun, hplace, fun s => ?_⟩
  rw [htrees]
  exact after_splitTrees hindependent hfree (ofMember?_nodup hmember) hwidth

/-! ### Vectors of integers -/

/-- The machine whose scalars are integers and that knows vectors and nothing else. -/
def integers : Machine Int where
  constant
    | .int n => .scalar n
    | _ => .scalar 0
  truth _ := none
  position
    | .scalar n => if 0 ≤ n then some n.toNat else none
    | .array _ => none
  unary _ _ := none
  binary _ _ _ := none
  member _ _ := none
  setMember _ _ _ := none
  construct t xs := if t.name = "vec" ++ toString xs.length then some (.array xs) else none
  builtin _ _ := none
  user _ := none
  position_int n := by simp
  construct_vector _ _ h := if_pos h

/-- A store with vectors, some with names of placeholders. -/
def vectorStore : Store Int
  | "v" => some (.array [.scalar 1, .scalar 2, .scalar 3])
  | "q" => some (.array [.scalar 4, .scalar 5])
  | "$a1" => some (.array [.scalar 7, .scalar 8])
  | "$n1" => some (.array [.scalar 10, .scalar 11])
  | _ => none

/-- The value `vec2(q[1], $a1[0])`. -/
def pickedValue : Tree :=
  .plain .call {} [.valued .varType {} (.type Builtin.vec2) [],
    .plain .args {} [elementTree {} (nameTree {} "q") 1, elementTree {} (nameTree {} "$a1") 0]]

/-- A block with the statement `v.zx = vec2(q[1], $a1[0])`. -/
def pickedView : View Unit where
  arena := (({} : Arena).graft (.plain .block {} [.operated .assign {} .assign
    [.plain .member {} [nameTree {} "v", nameTree {} "zx"], pickedValue]])).1
  context := Context.bind { source := "", filename := "", types := Builtin.types } "v"
    { type := Builtin.vec3 }
  notes := ()

/-- The last value has the name of an operand that is put in before it, which does no harm. -/
theorem lowerWrite_after_pickedView : ∃ parts v',
    lowerWrite 1 pickedView = .ok (.replaced parts) v' ∧ ¬ Avoids pickedValue ∧
      integers.after (parts.map v'.arena.tree) vectorStore =
        some (vectorStore.set "v" (.array [.scalar 7, .scalar 2, .scalar 5])) := by
  have hview : WritesSwizzle pickedView 1 0 {} "v" ⟨[2, 0]⟩ pickedValue := by
    refine ⟨(graft_spec _ wellFormed_empty).1.wellFormed, by decide +kernel, rfl,
      ⟨Builtin.vec3, by decide +kernel, rfl⟩, by decide +kernel, by decide +kernel,
      {}, {}, {}, "zx", by decide +kernel, by decide +kernel⟩
  have hindependent : Independent integers "v" pickedValue :=
    ⟨by decide +kernel, fun _ _ _ _ _ _ _ => rfl, by decide +kernel⟩
  have hfree : Uncaptured ⟨[2, 0]⟩ (nameTree {} "v") pickedValue := by
    unfold Uncaptured
    decide +kernel
  obtain ⟨parts, v', hrun, -, hafter⟩ := lowerWrite_after integers hview hindependent hfree
  exact ⟨parts, v', hrun, by decide +kernel, hafter vectorStore⟩

/-- A program that assigns a vector with the name of a placeholder. -/
def placeholderText : String := "void main() { vec2 v; vec2 $n1; v.xy = $n1; }"

/-- **A vector is assigned to itself** where the value has the name of the placeholder for the
vector that is assigned to. -/
theorem lowerWrite_captured : ∃ p v node list vpos npos parts v',
    parseProgram placeholderText "" = .ok p ∧ v.arena = p.arena ∧
      WritesSwizzle v node list vpos "v" ⟨[0, 1]⟩ (nameTree npos "$n1") ∧
      Independent integers "v" (nameTree npos "$n1") ∧
      lowerWrite node v = .ok (.replaced parts) v' ∧
      integers.after (parts.map v'.arena.tree) vectorStore ≠
        assignSwizzle integers "v" ⟨[0, 1]⟩ (nameTree npos "$n1") vectorStore := by
  have hcheck : checkParsed placeholderText fun p _ =>
      decide (9 < p.arena.size ∧ p.arena.parent? 9 = some 4 ∧ p.arena.kind 4 = .block ∧
        (p.context.bind "v" { type := Builtin.vec2 }).bindingType "v" = .ok Builtin.vec2 ∧
        p.arena.tree 9 = .operated .assign (p.arena.pos 9) .assign
          [.plain .member (p.arena.pos 10) [nameTree (p.arena.pos 11) "v",
            nameTree (p.arena.pos 12) "xy"], nameTree (p.arena.pos 13) "$n1"]) := by decide +kernel
  obtain ⟨p, root, hparse, -, hcheck⟩ := of_checkParsed hcheck
  obtain ⟨hlt, hparent, hblock, htype, hassigns⟩ := of_decide_eq_true hcheck
  obtain ⟨root, hp⟩ := parseProgram_parsed hparse
  have hview : WritesSwizzle
      { arena := p.arena, context := p.context.bind "v" { type := Builtin.vec2 }, notes := () }
      9 4 (p.arena.pos 11) "v" ⟨[0, 1]⟩ (nameTree (p.arena.pos 13) "$n1") :=
    ⟨hp.wellFormed, hlt, hp.types, ⟨Builtin.vec2, htype, rfl⟩, hparent, hblock,
      _, _, _, "xy", by decide +kernel, hassigns⟩
  obtain ⟨parts, v', pos, hrun, -, htrees⟩ := hview.exists_parts
  refine ⟨p, _, 9, 4, _, _, parts, v', hparse, rfl, hview, ?_, hrun, ?_⟩
  · refine ⟨fun u hu hk => ?_, fun _ _ _ _ _ _ _ => rfl, fun hv => ?_⟩
    · cases mem_singleton.1 hu
      cases hk
    · exact absurd (mem_singleton.1 hv) (by decide)
  · rw [htrees]
    intro heq
    -- the vector before, and the one with the name of the placeholder
    have hvector : some [Datum.scalar (1 : Int), .scalar 2, .scalar 3] =
        some [.scalar 10, .scalar 11, .scalar 3] :=
      congrArg (fun o => o.bind fun s => s.elems? "v") heq
    simp at hvector

end Swizzle

end VecLang
