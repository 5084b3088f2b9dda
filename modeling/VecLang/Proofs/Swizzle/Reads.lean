import VecLang.Proofs.Swizzle.Faults
import VecLang.Proofs.Swizzle.Template
import VecLang.Proofs.Traversal.Refines

/-!
# Lowering reads

The walk that lowers reads, said of trees: which member accesses select components of
an array, and what takes their place. The hook of the walk refines this rule, although
it works by parsing templates, moving the operand and copying it.

* `selection?`: the components that a node reads.
* `readRule`: what the walk does with a node.
* `readHook_refines`: the hook does so in place.
-/

namespace VecLang.Swizzle

open ScopeWalk Traversal Arena List

variable {a a₂ : Arena} {id i : Nat} {ss : List (Rose Nat)} {types : TypeTable} {s : Swizzle}
  {flow : Flow} {l : Label}

/-! ### What is selected -/

/-- The name of the member that a member access with these children names. -/
def memberOf? (ts : List Tree) : Option String :=
  ts[1]?.bind fun m => if m.entry.kind = .ident then m.entry.name? else none

/-- Whether a base is an array, given what its name is bound to if it is a name. There is no
answer where that type is unknown. -/
def isArray? (types : TypeTable) (bound : Option Ty) (base : Tree) : Option Bool :=
  if base.entry.kind = .ident then
    bound.bind fun t => (types.resolve t).toOption.map Ty.isArray
  else some true

/-- Components of a vector: one alone, or several as a vector of their own. -/
inductive Selection where
  | component (i : Nat)
  | vector (s : Swizzle)
deriving DecidableEq, Repr

def Selection.ofMember? (m : String) : Option Selection :=
  match axis? m with
  | some i => some (.component i)
  | none => (Swizzle.ofMember? m).map .vector

def Selection.tree (types : TypeTable) (pos : Pos) (base : Tree) : Selection → Tree
  | .component i => elementTree pos base i
  | .vector s => readTree types pos s base

/-- What the walk does with an access of the member `m`, if it is known whether the base is an
array: one that selects components of an array is replaced, except that a vector is left
where it is assigned to. -/
def readMember (types : TypeTable) (array : Option Bool) (place : Place) (pos : Pos) (base : Tree)
    (m : String) : Action :=
  match array, Selection.ofMember? m with
  | none, _ => .reject
  | some true, some (.component i) => .replace [elementTree pos base i]
  | some true, some (.vector s) =>
    if place = .target then .keep else .replace [readTree types pos s base]
  | _, _ => .keep

/-- **What the walk of the reads does with a node.** -/
def readRule (types : TypeTable) : Rule
  | σ, place, .node l (base :: rest) =>
    if l.kind = .member then
      match memberOf? (base :: rest) with
      | some m => readMember types (isArray? types (σ thisName) base) place l.pos base m
      | none => .keep
    else .keep
  | _, _, .node _ [] => .keep

/-! ### What the hook looks at -/

variable {v v' : View Unit}

theorem memberName?_eq (hs : a.Spans (.node id ss)) :
    memberName? a id = memberOf? (ss.map (Rose.map a.label)) := by
  unfold memberName? memberOf? child?
  rw [hs.children_eq, getElem?_map, getElem?_map]
  cases ss[1]? with
  | none => rfl
  | some m =>
    simp only [Option.map_some, Option.bind_some, Rose.entry_map]
    rfl

theorem bindingType_toOption (ctx : Context) (name : String) :
    (ctx.bindingType name).toOption = (ctx.names name).bind fun t => (ctx.types.resolve t).toOption := by
  unfold Context.bindingType Context.names
  cases ctx.scopes.get? name <;> rfl

/-- **What the hooks see of the base of a member access**: whether it is an array. If its type is
not known then that is a fault of the program. -/
theorem arrayBase?_cases {b : Rose Nat} (nameOf : String → String)
    (hs : v.arena.Spans (.node id (b :: ss))) :
    (∃ array, isArray? v.context.types (v.context.names (nameOf ((v.arena.name? b.entry).getD "")))
        (b.map v.arena.label) = some array ∧
      arrayBase? v id nameOf = .ok (if array then some b.entry else none)) ∨
    (isArray? v.context.types (v.context.names (nameOf ((v.arena.name? b.entry).getD "")))
        (b.map v.arena.label) = none ∧
      ∃ e, arrayBase? v id nameOf = .error e ∧ Reported v.context.filename e) := by
  unfold arrayBase? isArray?
  rw [child?_zero hs, Rose.entry_map]
  simp only [head?_cons, Option.map_some]
  by_cases hk : v.arena.kind b.entry = .ident
  · simp only [if_pos hk, if_pos (show (v.arena.label b.entry).kind = .ident from hk)]
    generalize nameOf ((v.arena.name? b.entry).getD "") = name
    have htype : ((v.context.names name).bind fun t =>
        (v.context.types.resolve t).toOption.map Ty.isArray) =
          (v.context.bindingType name).toOption.map Ty.isArray := by
      unfold Context.bindingType Context.names
      cases v.context.scopes.get? name <;> rfl
    rw [htype]
    cases hb : v.context.bindingType name with
    | ok t => exact .inl ⟨_, rfl, rfl⟩
    | error e => exact .inr ⟨rfl, _, rfl, reported_locate _ _ (bindingType_error hb)⟩
  · simp only [if_neg hk, if_neg (show ¬ (v.arena.label b.entry).kind = .ident from hk)]
    exact .inl ⟨true, rfl, rfl⟩

theorem isTarget_eq (a : Arena) (id : Nat) : isTarget a id = true ↔ placeOf a id = .target := by
  unfold isTarget placeOf
  cases a.parent? id with
  | none => simp
  | some p =>
    simp only [Bool.and_eq_true, beq_iff_eq]
    unfold Place.below
    by_cases hk : a.kind p = .block
    · simp [hk]
    · rw [if_neg hk]
      split
      · next h => simpa using h
      · next h => simpa using h

/-! ### The two ways to replace a read -/

def isNearly (n : Int) : Decimal.Decoded → Bool
  | .finite neg mant exp => Decimal.isNearlyWhole neg mant exp &&
      Decimal.clamp64 (Decimal.floor neg mant exp) == n
  | _ => false

theorem numberLabel_index (hi : i < 4) (pos : Pos) :
    numberLabel pos (Decimal.ofInteger i) =
      some { kind := .intConst, pos, value := some (.int i) } := by
  have hall : ∀ i : Nat, i < 4 → isNearly i (Decimal.decode (Decimal.ofInteger i)) = true := by
    decide +kernel
  have h := hall i hi
  unfold numberLabel
  cases hdecode : Decimal.decode (Decimal.ofInteger i) with
  | finite neg mant exp =>
    rw [hdecode] at h
    obtain ⟨hwhole, hfloor⟩ := Bool.and_eq_true_iff.1 h
    simp only [if_pos hwhole, eq_of_beq hfloor]
  | nan | infinite =>
    rw [hdecode] at h
    cases h

theorem subst_readTree (pos : Pos) (s : Swizzle) (base : Tree) :
    Tree.subst "$n1" base (readTree types pos s (nameTree pos "$n1")) = readTree types pos s base := by
  simp [readTree, elementTree, nameTree, Tree.plain, Tree.valued, Tree.subst_node, Label.name?,
    Function.comp_def]

section Replace

variable {id : Nat} {b : Rose Nat} {ss : List (Rose Nat)} {pos : Pos}

section

variable (ht : Templates v.context.types) (hwidth : 2 ≤ s.width ∧ s.width ≤ 4)
  (hindices : ∀ i ∈ s.indices, i < 4) (hw : v.arena.WellFormed)
  (hs : v.arena.Spans (.node id (b :: ss)))
include ht hwidth hindices hw hs

theorem lowerSwizzleRead_eq (pos : Pos) :
    ∃ a r, Drafted v.arena (.node id (b :: ss))
        (readTree v.context.types pos s (b.map v.arena.label)) a r ∧
      lowerSwizzleRead id b.entry pos s v = (perform (fun a => a.replaceInParent id r.entry) >>=
        fun _ => pure (.replaced [r.entry])) { v with arena := a } := by
  obtain ⟨u, hparse, htemplate⟩ :=
    parse_readText (v.context.snippet s.readText "(swizzle)") ht hwidth hindices pos
  unfold lowerSwizzleRead
  obtain ⟨_, _, ⟨a₁, r, rfl, hd, rfl, hwaits⟩, heq⟩ :=
    (parseSnippet_runs (by decide) pos hw hs hparse).bind_eq
  rw [heq]
  have hidb : b.entry ≠ id := fun he => hs.not_mem_child hw (.head _)
    (he ▸ b.entry_mem_preorder)
  have hb := hwaits b (Rose.mem_subtrees_of_mem (.head _) b.self_mem_subtrees) hidb
  rw [htemplate] at hd
  obtain ⟨_, _, ⟨a₂, r', rfl, hentry, hd', -⟩, heq₂⟩ := (Drafted.substitute
    (v := { v with arena := a₁ }) "$n1" hw hs hd (fun h => by cases h) hb).bind_eq
  rw [heq₂, ← hentry]
  have htypes : (v.context.snippet s.readText "(swizzle)").types = v.context.types := rfl
  rw [htypes, subst_readTree] at hd'
  exact ⟨a₂, r', hd', rfl⟩

/-- **A swizzle is replaced in place by the constructor of its components.** -/
theorem lowerSwizzleRead_runs {p : Nat} (hpar : v.arena.parent? id = some p) (pos : Pos) :
    Steps.Runs (lowerSwizzleRead id b.entry pos s) v fun flow v' => Does v (.node id (b :: ss)) flow v'
      (.replace [readTree v.context.types pos s (b.map v.arena.label)]) := by
  obtain ⟨a, r, hd, heq⟩ := lowerSwizzleRead_eq ht hwidth hindices hw hs pos
  obtain ⟨a', hput, hrw, htree⟩ := hd.replaceInParent hw hs hpar
  have hrest : Steps.Runs (perform (fun a => a.replaceInParent id r.entry) >>= fun _ =>
      (pure (.replaced [r.entry]) : Lowering Flow)) { v with arena := a } fun flow v' =>
        Does v (.node id (b :: ss)) flow v'
          (.replace [readTree v.context.types pos s (b.map v.arena.label)]) :=
    runs_perform_bind hput (Steps.runs_pure
      (@Does.replace _ v _ { v with arena := a' } [r] _ rfl hrw
        (Nat.lt_of_le_of_lt hd.fresh (hrw.spans r (.head _)).lt_size) (.inl rfl)
        (congrArg (fun t => [t]) htree)))
  unfold Steps.Runs at hrest ⊢
  rwa [heq]

theorem exists_parent_of_lowerSwizzleRead (h : lowerSwizzleRead id b.entry pos s v = .ok flow v') :
    ∃ p, v.arena.parent? id = some p := by
  obtain ⟨a, r, hd, heq⟩ := lowerSwizzleRead_eq ht hwidth hindices hw hs pos
  rw [heq] at h
  obtain ⟨_, _, hperform, -⟩ := Steps.bind_eq_ok.1 h
  obtain ⟨a', hput, -⟩ := perform_eq_ok.1 hperform
  obtain ⟨p, hp⟩ := exists_parent_of_replaceInParent hput
  exact ⟨p, (hd.parent? hs).symm.trans hp⟩

end

section

variable (hw : a.WellFormed) (hs : a.Spans (.node id (b :: ss)))
  (hput : (a.add l).1.replaceInParent id a.size = .ok a₂)
include hw hs hput

/-- **Putting a new node in the place of one with children**: it stands there without
children so far, and the first child is still where it was. -/
theorem wrap_placed :
    Rewrites a (.node id (b :: ss)) a₂ [.node a.size []] ∧ a₂.label = (a.add l).1.label ∧
      a₂.Spans b ∧ a₂.parent? b.entry = some id ∧ a₂.children a.size = [] ∧ a.size < a₂.size := by
  have hch₁ : Changes (fun _ => False) (fun _ => False) a (a.add l).1 := add_changes hw l
  obtain ⟨hleaf, htop⟩ := spans_add (a := a) l
  have hn₁ : a.size < (a.add l).1.size := hleaf.lt_size
  have hb := hs.of_mem (.head _)
  have hpar := hs.parent_of_mem hw (.head _)
  have hid : id ≠ a.size := Nat.ne_of_lt hs.lt_size
  have hidb : id ∉ b.preorder := hs.not_mem_child hw (.head _)
  have hrw : Rewrites a (.node id (b :: ss)) a₂ [.node a.size []] := by
    refine .of_replaceInParent hw hs hch₁ (fun _ hf => hf.elim) (fun _ hf => hf.elim) (fun hf => hf)
      hleaf htop ?_ (fun x hx => ?_) hput
    · simpa [Rose.entry] using hid
    · rw [Rose.preorder_node, flatMap_nil, mem_singleton] at hx
      exact .inr (Nat.le_of_eq hx.symm)
  have hrep := replaceInParent_replaced hch₁.wellFormed hn₁ hid hput
  have hch : ∀ x, a₂.children x = swapIn id a.size (a.children x) := fun x => by
    have hfree : (a.add l).1.parent? a.size ≠ some x := by
      rw [htop]
      exact fun he => (by cases he)
    rw [hrep.children x hfree, children_add]
  have hidbe : b.entry ≠ id := fun he => hidb (he ▸ b.entry_mem_preorder)
  refine ⟨hrw, funext hrep.label, ?_, ?_, ?_, hrep.size ▸ hn₁⟩
  · refine hb.congr hrw.size fun x hx => ?_
    rw [hch, swapIn_eq_self]
    exact fun hm => hidb (hb.closed hx hm)
  · rw [hrep.parent?, if_neg (Nat.ne_of_lt hb.lt_size), if_neg hidbe, parent?_add, hpar]
  · rw [hch, children_eq_nil_of_size_le (Nat.le_refl _)]
    rfl

/-- **Wrapping the first child**: a new node takes the place of `id`, and the first child of
`id` becomes its only one. -/
theorem wrap_rewrites {a₃ : Arena} (hpush : a₂.pushNode a.size b.entry = .ok a₃) :
    Rewrites a (.node id (b :: ss)) a₃ [.node a.size [b]] ∧ a₃.label a.size = l ∧
      b.map a₃.label = b.map a.label := by
  obtain ⟨hrw₂, hlabel₂, hb₂, hpar₂, hnil₂, hn₂⟩ := wrap_placed hw hs hput
  have hb := hs.of_mem (.head _)
  have hidb : id ∉ b.preorder := hs.not_mem_child hw (.head _)
  have hnb : a.size ∉ b.preorder := fun hm => Nat.lt_irrefl _ (hb.lt_size_of_mem _ hm)
  -- the child moves below the new node
  obtain ⟨hch₃, hsize₃, hone₃⟩ := pushNode_changes hrw₂.wellFormed hn₂ hb₂.lt_size hpush
  have hone : a₃.children a.size = [b.entry] := by
    rw [hone₃, hnil₂]
    rfl
  have hb₃ : a₃.Spans b := by
    refine hch₃.spans hb₂ fun x hx hC => ?_
    rcases hC with rfl | hp
    · exact hnb hx
    · rw [hpar₂] at hp
      cases hp
      exact hidb hx
  have hspan : a₃.Spans (.node a.size [b]) := by
    refine .node (hsize₃ ▸ hn₂) hone fun u hu => ?_
    rw [mem_singleton.1 hu]
    exact hb₃
  have hch₁ : Changes (fun _ => False) (fun _ => False) a (a.add l).1 := add_changes hw l
  refine ⟨hrw₂.within hch₃ (fun x hx => ?_) (fun x hx => ?_) rfl (fun u hu => ?_) (fun u hu => ?_)
    fun u hu x hx => ?_, ?_, ?_⟩
  · rcases hx with rfl | hp
    · exact .inr (Nat.le_refl _)
    · rw [hpar₂] at hp
      cases hp
      exact .inl (by simp)
  · exact .inl (Rose.mem_preorder_of_mem (.head _) (hx ▸ b.entry_mem_preorder))
  · rw [mem_singleton.1 hu]
    exact (Nat.ne_of_lt hb.lt_size).symm
  · rw [mem_singleton.1 hu]
    exact hspan
  · rw [mem_singleton.1 hu, Rose.preorder_node, mem_cons] at hx
    rcases hx with rfl | hx
    · exact .inr (Nat.le_refl _)
    · rw [flatMap_cons, flatMap_nil, append_nil] at hx
      exact .inl (Rose.mem_preorder_of_mem (.head _) hx)
  · rw [hch₃.label _ hn₂, hlabel₂, label_add, if_pos rfl]
  · rw [hch₃.map_label hb₂, hlabel₂, hch₁.map_label hb]

end

/-- **An axis is replaced in place by the component that it names.** -/
theorem lowerAxis_runs {p : Nat} (hi : i < 4) (hw : v.arena.WellFormed)
    (hs : v.arena.Spans (.node id (b :: ss))) (hpar : v.arena.parent? id = some p) (pos : Pos) :
    Steps.Runs (lowerAxis id b.entry pos i) v fun flow v' => Does v (.node id (b :: ss)) flow v'
      (.replace [elementTree pos (b.map v.arena.label) i]) := by
  -- the new node has nothing below it, so it can take any place, and then the base
  obtain ⟨hleaf, -⟩ := spans_add (a := v.arena) { kind := .index, pos }
  have hfree : p ∉ (Rose.node v.arena.size []).preorder := by
    simpa using Nat.ne_of_lt (hw.parent_lt hpar)
  obtain ⟨a₂, hput⟩ := exists_replaceInParent (hw.add { kind := .index, pos })
    ((parent?_add ..).trans hpar) (hleaf.not_under (hw.add _) hfree)
  obtain ⟨hrw₂, -, hb₂, -, -, hn₂⟩ := wrap_placed hw hs hput
  have hnb : v.arena.size ∉ b.preorder := fun hm =>
    Nat.lt_irrefl _ ((hs.of_mem (.head _)).lt_size_of_mem _ hm)
  obtain ⟨a₃, hpush⟩ := exists_pushNode hrw₂.wellFormed hn₂ (hb₂.not_under hrw₂.wellFormed hnb)
  obtain ⟨hrw₃, hlabel₃, hbtree₃⟩ := wrap_rewrites hw hs hput hpush
  have hpos : a₃.pos v.arena.size = pos := by
    unfold Arena.pos
    rw [hlabel₃]
  generalize hli : ({ kind := .intConst, pos, value := some (.int i) } : Label) = li
  generalize hn : v.arena.size = n at hrw₃ hlabel₃ hpos
  have hspan₃ := hrw₃.spans _ (.head _)
  have hb₃ := hspan₃.of_mem (.head _)
  have hn₃ : n < a₃.size := hspan₃.lt_size
  obtain ⟨hch₄, hsize₄, hchn₄, hnil₄, hlabel₄⟩ := addBelow_changes hrw₃.wellFormed hn₃ li
  obtain ⟨a₄, c, hpair⟩ : ∃ a₄ c, a₃.addBelow n li = (a₄, c) := ⟨_, _, rfl⟩
  rw [hpair] at hch₄ hsize₄ hchn₄ hnil₄ hlabel₄
  change a₄.size = _ at hsize₄
  have hint : a₃.push v.arena.size (.ofInt i) = .ok (a₄, c) := by
    change a₃.push v.arena.size (.number (Decimal.ofInteger i)) = _
    unfold Arena.push
    simp only [hn, hpos, numberLabel_index hi, hli, hpair]
  unfold lowerAxis addNode
  refine runs_edit_bind rfl (runs_perform_bind hput (runs_perform_bind hpush
    (runs_edit_bind hint (Steps.runs_pure ?_))))
  rw [hn]
  have hspan : a₄.Spans (.node n [b, .node a₃.size []]) := by
    refine .node (by omega) (by rw [hchn₄, hspan₃.children_eq]; rfl) fun u hu => ?_
    rcases mem_cons.1 hu with rfl | hu
    · exact hch₄.spans hb₃ fun x hx he =>
        hspan₃.not_mem_child hrw₃.wellFormed (.head _) (he ▸ hx)
    · rw [mem_singleton.1 hu]
      exact .node (by omega) hnil₄ fun _ hm => (by cases hm)
  have hrw : Rewrites v.arena (.node id (b :: ss)) a₄ [.node n [b, .node a₃.size []]] := by
    refine hrw₃.within hch₄ (fun x hx => .inr (by omega)) (fun _ hf => hf.elim) rfl
      (fun _ _ hf => hf) (fun u hu => ?_) fun u hu x hx => ?_
    · rw [mem_singleton.1 hu]
      exact hspan
    · rw [mem_singleton.1 hu] at hx
      simp only [Rose.preorder_node, flatMap_cons, flatMap_nil, append_nil,
        mem_cons, mem_append, not_mem_nil, or_false] at hx
      rcases hx with rfl | hx | rfl
      · exact .inr (by omega)
      · exact .inl (Rose.mem_preorder_of_mem (.head _) hx)
      · exact .inr (by omega)
  refine @Does.replace _ v _ { v with arena := a₄ } [_] _ rfl hrw (hn ▸ hspan.lt_size) (.inl rfl) ?_
  rw [map_singleton, Rose.map_node, map_cons, map_cons, map_nil, hch₄.map_label hb₃, hbtree₃,
    Rose.map_node, hch₄.label n hn₃, hlabel₃, hlabel₄, ← hli]
  rfl

theorem exists_parent_of_lowerAxis {n : Nat} (h : lowerAxis id n pos i v = .ok flow v') :
    ∃ p, v.arena.parent? id = some p := by
  unfold lowerAxis addNode at h
  obtain ⟨m, _, hadd, h⟩ := Steps.bind_eq_ok.1 h
  obtain ⟨a₁, hok, rfl⟩ := edit_eq_ok.1 hadd
  cases hok
  obtain ⟨_, _, hperform, -⟩ := Steps.bind_eq_ok.1 h
  obtain ⟨a₂, hput, -⟩ := perform_eq_ok.1 hperform
  obtain ⟨p, hp⟩ := exists_parent_of_replaceInParent hput
  exact ⟨p, (parent?_add ..).symm.trans hp⟩

end Replace

theorem readRule_of_kind {σ : Names} {p : Place} {ts : List Tree} (h : l.kind ≠ .member) :
    readRule types σ p (.node l ts) = .keep := by
  cases ts with
  | nil => rfl
  | cons base rest => exact if_neg h

theorem exists_parent_of_place {t : Tree} (hplace : placeOf a id = .top → t.kind = .block)
    (hkind : t.kind ≠ .block) : ∃ p, a.parent? id = some p := by
  unfold placeOf at hplace
  cases hp : a.parent? id with
  | some p => exact ⟨p, rfl⟩
  | none =>
    rw [hp] at hplace
    exact absurd (hplace rfl) hkind

/-- **The hook of the reads does in place what the rule does to trees**, and fails below other
nodes only with faults of the program. -/
theorem readHook_refines (ht : Templates types) :
    Refines Reported (fun p t => p = .top → t.kind = .block) readHook types (readRule types) := by
  intro v s hw hs htypes
  obtain ⟨id, ss⟩ := s
  rw [Rose.map_node, Rose.entry]
  unfold readHook
  refine .get_bind ?_
  by_cases hk : v.arena.kind id = .member
  swap
  · rw [if_neg hk, readRule_of_kind hk]
    exact Does.keep rfl rfl
  rw [if_pos hk]
  unfold lowerRead
  refine .get_bind ?_
  rw [memberName?_eq hs]
  cases ss with
  | nil => exact Does.keep rfl rfl
  | cons b ss =>
  rw [map_cons, readRule, if_pos (show (v.arena.label id).kind = .member from hk)]
  -- without a parent there is nothing to replace, but no member access is at the top
  have hunplaced : ∀ {ts : List Tree} {e : Error} {v' : View Unit},
      (¬ ∃ p, v.arena.parent? id = some p) → Action.replace ts ≠ .keep ∧
        ((placeOf v.arena id = .top → Tree.kind (.node (v.arena.label id)
            (b.map v.arena.label :: ss.map (Rose.map v.arena.label))) = .block) →
          Reported v.context.filename e ∧ v'.context = v.context) := fun hnone =>
    ⟨(fun h => by cases h), fun hplace => absurd (exists_parent_of_place hplace
      fun h => by cases hk.symm.trans h) hnone⟩
  cases hm : memberOf? (b.map v.arena.label :: ss.map (Rose.map v.arena.label)) with
  | none => exact Does.keep rfl rfl
  | some m =>
    simp only
    rcases arrayBase?_cases (fun _ => thisName) hs with
      ⟨array, harray, hbase⟩ | ⟨harray, e, hbase, hfault⟩
    swap
    · rw [htypes] at harray
      rw [hbase, harray]
      exact ⟨(fun h => by cases h), fun _ => ⟨hfault, rfl⟩⟩
    rw [htypes] at harray
    rw [hbase, harray]
    unfold readMember Selection.ofMember?
    cases array with
    | false => exact Does.keep rfl rfl
    | true =>
      simp only [if_true]
      cases haxis : axis? m with
      | some i =>
        refine Steps.Runs.ends_of (C := ∃ p, v.arena.parent? id = some p) ?_
          (fun _ _ h => exists_parent_of_lowerAxis h) fun h _ _ => hunplaced h
        rintro ⟨_, hpar⟩
        exact lowerAxis_runs (axis?_lt haxis) hw hs hpar _
      | none =>
        cases hsw : ofMember? m with
        | none => exact Does.keep rfl rfl
        | some s =>
          simp only [Option.map_some]
          by_cases hp : placeOf v.arena id = .target
          · rw [if_pos ((isTarget_eq v.arena id).2 hp)]
            simp only [if_pos hp]
            exact Does.keep rfl rfl
          · rw [if_neg fun hn => hp ((isTarget_eq v.arena id).1 hn)]
            simp only [if_neg hp]
            have hb := ofMember?_bounds hsw
            have ht' : Templates v.context.types := htypes ▸ ht
            rw [← htypes]
            refine Steps.Runs.ends_of (C := ∃ p, v.arena.parent? id = some p) ?_
              (fun _ _ h => exists_parent_of_lowerSwizzleRead ht' ⟨hb.1, hb.2.1⟩ hb.2.2 hw hs h)
              fun h _ _ => hunplaced h
            rintro ⟨_, hpar⟩
            exact lowerSwizzleRead_runs ht' ⟨hb.1, hb.2.1⟩ hb.2.2 hw hs hpar _

end VecLang.Swizzle
