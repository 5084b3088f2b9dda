import VecLang.Arena.InPlace
import VecLang.Proofs.Arena.Runs
import VecLang.Proofs.Steps

/-!
# Edits in place

An edit that moves a node checks, takes nodes out of their places and links them again.
Carried out on one arena that changes with every step, it could stop half-way, with a node
taken out and not put back. It does not: whatever makes an edit fail is found before anything
has changed. The one look-up behind a change, where `old` stands once `new` was taken out,
always finds it.

* `InPlace`: the edits step by step.
* `InPlace.graft_eq`: a tree that is made step by step, where no push is refused.
* `InPlace.replace_eq`: replacing, where the place is looked up a second time.
* `Edit.Refused`: what stands against an edit, said by the links alone.
* `edit_fails_iff_refused`: **an edit fails exactly if it is refused, and then no step of it
  has changed the arena.**
-/

namespace VecLang

open List

namespace InPlace

def insert (parent : NodeId) (index : Nat) (id : NodeId) : Editing Unit := do
  let count := ((← get).children parent).length
  if index > count then throw (.badArgument (.indexOutOfRange index parent count))
  else
    checkNoCycle parent id
    detach id
    let others := (← get).children parent
    modify fun a => a.setChildren parent (others.insertIdx (min index others.length) id)
    modify fun a => a.setParent id (some parent)

def remove (parent id : NodeId) : Editing Unit := do
  match (← get).indexOf? parent id with
  | none => throw (.notChild parent id)
  | some i =>
    modify fun a => a.setChildren parent ((a.children parent).eraseIdx i)
    modify fun a => a.setParent id none

/-- Links `new` where `old` is found among the children of `parent`. -/
def relink (parent old new : NodeId) : Editing Unit := do
  match (← get).indexOf? parent old with
  | none => throw (.notChild parent old)
  | some i =>
    modify fun a => a.setChildren parent ((a.children parent).set i new)
    modify fun a => a.setParent old none
    modify fun a => a.setParent new (some parent)

/-- The place of `old` is looked up again behind `detach new`, since `new` may have stood in
front of it. -/
def replace (parent old new : NodeId) : Editing Unit := do
  match (← get).indexOf? parent old with
  | none => throw (.notChild parent old)
  | some _ =>
    if old = new then pure ()
    else
      checkNoCycle parent new
      detach new
      relink parent old new

def replaceInParent (old new : NodeId) : Editing Unit := do
  match (← get).parent? old with
  | none => throw (.badArgument (.noParent old))
  | some parent => replace parent old new

/-- An edit step by step. One that cannot fail is a single step. -/
def edit : Arena.Edit → Editing Unit
  | .add l => modify fun a => (a.add l).1
  | .push parent child => push parent child
  | .insert parent index id => insert parent index id
  | .remove parent id => remove parent id
  | .replace parent old new => replace parent old new
  | .replaceInParent old new => replaceInParent old new
  | .detach id => detach id
  | .copy id => modify fun a => (a.copy id).1
  | .addReference name type index => modify fun a => (a.addReference name type index).1

variable {a : Arena} {p id old new : Nat}

/-- The outcome of an edit of `a`, with `a` as it was behind a failure. -/
def settle (a : Arena) : Except Error Arena → EStateM.Result Error Arena Unit
  | .ok b => .ok () b
  | .error e => .error e a

theorem get_bind_eq {α : Type} (f : Arena → Editing α) : (get >>= f) a = f a a := rfl

/-- Behind the check for a cycle, which changes nothing, an edit goes on from the same arena. -/
theorem checkNoCycle_bind_eq {next : Editing Unit} {b : Arena} (h : next a = .ok () b) :
    (checkNoCycle p id >>= fun _ => next) a =
      settle a (a.checkNoCycle p id >>= fun _ => .ok b) := by
  change EStateM.bind _ _ a = _
  unfold EStateM.bind checkNoCycle Arena.checkNoCycle
  rw [get_bind_eq]
  by_cases hcycle : a.isAncestor id p = true
  · rw [if_pos hcycle, if_pos hcycle]
    rfl
  · rw [if_neg hcycle, if_neg hcycle]
    exact h

theorem detach_eq : detach id a = .ok () (a.detach id) := by
  unfold detach Arena.detach
  rw [get_bind_eq]
  cases a.parent? id with
  | none => rfl
  | some q =>
    have hkeeps := Arena.children_setParent a id none q
    change EStateM.Result.ok () ((a.setParent id none).setChildren q _) = _
    rw [hkeeps]

theorem detach_bind_eq (next : Editing Unit) :
    (detach id >>= fun _ => next) a = next (a.detach id) := by
  change EStateM.bind _ _ a = _
  unfold EStateM.bind
  rw [detach_eq]

theorem push_eq (c : Arena.Child) : push p c a = settle a ((Arena.Edit.push p c).apply a) := by
  unfold push
  rw [get_bind_eq]
  change _ = settle a (a.push p c >>= fun r => .ok r.1)
  cases c with
  | node id =>
    have hsteps : (detach id >>= fun _ => attach p id) a = .ok () ((a.detach id).attach p id) :=
      detach_bind_eq _
    refine (checkNoCycle_bind_eq hsteps).trans ?_
    simp only [Arena.push, Arena.pushNode]
    cases a.checkNoCycle p id <;> rfl
  | number x =>
    simp only [Arena.push]
    cases Arena.numberLabel (a.pos p) x <;> rfl
  | ident name =>
    simp only [Arena.push]
    cases name.isEmpty <;> rfl
  | type t => rfl

/-- **No push of a graft is refused**: the tree is complete and was not appended yet, and no node
above `p` is among its nodes. -/
theorem push_graft_eq (hw : a.WellFormed) {t : Tree} {b : Arena} (h : Arena.Grafted a t b)
    (hp : p < a.size) : push p (.node a.size) b = .ok () (b.attach p a.size) := by
  have hsize : a.size ≤ b.size := by rw [h.size]; omega
  have hcheck : b.checkNoCycle p a.size = .ok () :=
    (Arena.checkNoCycle_eq_ok h.wellFormed (Nat.lt_of_lt_of_le hp hsize)).2 (h.not_under hw hp)
  have hdetach : b.detach a.size = b := by
    unfold Arena.detach
    rw [h.parent?]
  rw [push_eq]
  change settle b ((b.checkNoCycle p a.size >>= fun _ => _) >>= _ >>= _) = _
  rw [hcheck, hdetach]
  rfl

mutual

/-- **Step by step a graft comes to the grafted tree**, under the id that comes next. -/
theorem graft_eq : ∀ (t : Tree) {a : Arena}, a.WellFormed → graft t a = .ok a.size (a.graft t).1
  | .node l ts, a, hw => by
    have hbelow := graftAll_eq ts (hw.add l) (p := a.size) (by simp)
    rw [graft, Arena.graft]
    change EStateM.bind (graftAll a.size ts) _ (a.add l).1 = _
    unfold EStateM.bind
    rw [hbelow]
    rfl

theorem graftAll_eq : ∀ (ts : List Tree) {a : Arena} {p : Nat}, a.WellFormed → p < a.size →
    graftAll p ts a = .ok () (a.graftAll p ts)
  | [], _, _, _, _ => rfl
  | t :: ts, a, p, hw, hp => by
    obtain ⟨hg, hid⟩ := Arena.graft_spec t hw
    have htree := graft_eq t hw
    have hpush := push_graft_eq hw hg hp
    have hp' : p < ((a.graft t).1.attach p a.size).size := by
      rw [Arena.size_attach, hg.size]
      omega
    have hrest := graftAll_eq ts (hg.attach hw hp) hp'
    rw [graftAll, Arena.graftAll]
    simp only [hid]
    change EStateM.bind (graft t) _ a = _
    unfold EStateM.bind
    rw [htree]
    change EStateM.bind (push p (.node a.size)) _ (a.graft t).1 = _
    unfold EStateM.bind
    rw [hpush]
    exact hrest

end

theorem insert_eq (i : Nat) : insert p i id a = settle a (a.insert p i id) := by
  unfold insert Arena.insert
  rw [get_bind_eq]
  simp only
  by_cases hi : i > (a.children p).length
  · rw [if_pos hi, if_pos hi]
    rfl
  · rw [if_neg hi, if_neg hi]
    exact checkNoCycle_bind_eq (detach_bind_eq _)

theorem indexOf?_eq_none : a.indexOf? p id = none ↔ id ∉ a.children p := by
  unfold Arena.indexOf?
  rw [findIdx?_eq_none_iff]
  simp only [beq_eq_false_iff_ne]
  exact ⟨fun h hid => h id hid rfl, fun h x hx he => h (he ▸ hx)⟩

theorem remove_eq : remove p id a = settle a (a.remove p id) := by
  unfold remove Arena.remove
  rw [get_bind_eq]
  cases hindex : a.indexOf? p id with
  | none =>
    have hid := indexOf?_eq_none.1 hindex
    rw [if_neg (by rwa [contains_iff_mem])]
    rfl
  | some i =>
    have hid : id ∈ a.children p := by
      by_contra h
      rw [indexOf?_eq_none.2 h] at hindex
      cases hindex
    have herase : (a.children p).erase id = (a.children p).eraseIdx i := by
      rw [erase_eq_eraseIdx]
      unfold idxOf?
      rw [show findIdx? _ (a.children p) = some i from hindex]
    rw [if_pos (contains_iff_mem.2 hid), herase]
    rfl

theorem set_eq_swapIn {l : List Nat} {i : Nat} (hl : l.Nodup)
    (hi : l.findIdx? (· == old) = some i) : l.set i new = Arena.swapIn old new l := by
  obtain ⟨hlt, hfound, -⟩ := findIdx?_eq_some_iff_getElem.1 hi
  have hold : l[i] = old := beq_iff_eq.1 hfound
  unfold Arena.swapIn
  refine ext_getElem (by simp) fun j hj _ => ?_
  rw [getElem_set, getElem_map]
  have hj' : j < l.length := by simpa using hj
  by_cases hij : i = j
  · subst hij
    rw [if_pos rfl, if_pos hold]
  · have hne : l[j] ≠ old := fun he => hij (hl.getElem_inj_iff.1 (hold.trans he.symm))
    rw [if_neg hij, if_neg hne]

/-- **The second look-up finds its place**: taking `new` out leaves `old` where it is listed. -/
theorem relink_eq (hw : a.WellFormed) (hold : old ∈ a.children p) (hne : old ≠ new) :
    relink p old new (a.detach new) = .ok () ((((a.detach new).setChildren p
      (Arena.swapIn old new ((a.detach new).children p))).setParent old none).setParent new
        (some p)) := by
  have hchildren := Arena.children_detach hw new p
  have hstill : old ∈ (a.detach new).children p := by
    rw [hchildren]
    exact mem_filter.2 ⟨hold, bne_iff_ne.2 hne⟩
  have hnodup := (hw.detach new).nodup p
  unfold relink
  rw [get_bind_eq]
  cases hindex : (a.detach new).indexOf? p old with
  | none => exact absurd hstill (indexOf?_eq_none.1 hindex)
  | some i =>
    have hset : ((a.detach new).children p).set i new =
        Arena.swapIn old new ((a.detach new).children p) := set_eq_swapIn hnodup hindex
    change EStateM.Result.ok () ((((a.detach new).setChildren p _).setParent old none).setParent
      new (some p)) = _
    rw [hset]

theorem replace_eq (hw : a.WellFormed) : replace p old new a = settle a (a.replace p old new) := by
  unfold replace Arena.replace
  rw [get_bind_eq]
  cases hindex : a.indexOf? p old with
  | none =>
    have hold : (a.children p).contains old = false := by
      rw [← Bool.not_eq_true, contains_iff_mem]
      exact indexOf?_eq_none.1 hindex
    rw [hold]
    rfl
  | some i =>
    have hold : old ∈ a.children p := by
      by_contra h
      rw [indexOf?_eq_none.2 h] at hindex
      cases hindex
    rw [contains_iff_mem.2 hold]
    by_cases heq : old = new
    · simp only [if_pos heq]
      rfl
    · have hsteps := (detach_bind_eq (relink p old new)).trans (relink_eq hw hold heq)
      simp only [if_neg heq]
      exact checkNoCycle_bind_eq hsteps

theorem replaceInParent_eq (hw : a.WellFormed) :
    replaceInParent old new a = settle a (a.replaceInParent old new) := by
  unfold replaceInParent Arena.replaceInParent
  rw [get_bind_eq]
  cases a.parent? old with
  | none => rfl
  | some q => exact replace_eq hw

/-- **Step by step an edit comes to its outcome**, and where it fails to the arena it began
with. -/
theorem edit_eq (hw : a.WellFormed) (e : Arena.Edit) : edit e a = settle a (e.apply a) := by
  cases e with
  | add l => rfl
  | push p c => exact push_eq c
  | insert p i id => exact insert_eq i
  | remove p id => exact remove_eq
  | replace p old new => exact replace_eq hw
  | replaceInParent old new => exact replaceInParent_eq hw
  | detach id => exact detach_eq
  | copy id => rfl
  | addReference name type index => rfl

end InPlace

namespace Arena

variable {a : Arena}

/-- **What stands against an edit**: a node would come to lie below itself, a place or a child
is not there, or a literal has no node. -/
def Edit.Refused (a : Arena) : Edit → Prop
  | .push parent (.node id) => a.Under parent id
  | .push _ (.number x) => Decimal.isFinite x = false
  | .push _ (.ident name) => name = ""
  | .insert parent index id => (a.children parent).length < index ∨ a.Under parent id
  | .remove parent id => id ∉ a.children parent
  | .replace parent old new => old ∉ a.children parent ∨ old ≠ new ∧ a.Under parent new
  | .replaceInParent old new =>
    a.parent? old = none ∨ ∃ parent, a.parent? old = some parent ∧
      (old ∉ a.children parent ∨ old ≠ new ∧ a.Under parent new)
  | _ => False

theorem numberLabel_eq_none {pos : Pos} {x : Float} :
    numberLabel pos x = none ↔ Decimal.isFinite x = false := by
  unfold numberLabel Decimal.isFinite
  cases Decimal.decode x with
  | nan => simp
  | infinite neg => simp
  | finite neg mant exp =>
    simp only [Bool.true_eq_false, iff_false]
    split <;> exact Option.some_ne_none _

theorem exists_push_iff (hw : a.WellFormed) {p : Nat} {c : Child} (hp : p < a.size)
    (hc : ∀ id, c = .node id → id < a.size) :
    (∃ r, a.push p c = .ok r) ↔ ¬ (Edit.push p c).Refused a := by
  cases c with
  | node id =>
    have hid := hc id rfl
    change (∃ r, (a.pushNode p id >>= fun b => .ok (b, id)) = .ok r) ↔ ¬ a.Under p id
    constructor
    · rintro ⟨r, hr⟩
      obtain ⟨b, hb, -⟩ := Except.bind_eq_ok.1 hr
      exact (pushNode_moved hw hp hid hb).1
    · intro hcycle
      obtain ⟨b, hb⟩ := exists_pushNode hw hp hcycle
      exact ⟨(b, id), Except.bind_eq_ok.2 ⟨b, hb, rfl⟩⟩
  | number x =>
    change _ ↔ ¬ Decimal.isFinite x = false
    have hlabel : numberLabel (a.pos p) x = none ↔ Decimal.isFinite x = false :=
      numberLabel_eq_none
    rw [← hlabel]
    simp only [push]
    cases numberLabel (a.pos p) x with
    | none => simp
    | some l => simp
  | ident name =>
    change _ ↔ ¬ name = ""
    rw [← String.isEmpty_iff]
    simp only [push]
    split
    · next hempty => simp [hempty]
    · next hempty => simp [hempty]
  | type t => exact ⟨fun _ => not_false, fun _ => ⟨_, rfl⟩⟩

theorem exists_insert_iff (hw : a.WellFormed) {p i id : Nat} (hp : p < a.size) (hid : id < a.size) :
    (∃ b, a.insert p i id = .ok b) ↔ ¬ (Edit.insert p i id).Refused a := by
  change _ ↔ ¬ ((a.children p).length < i ∨ a.Under p id)
  rw [not_or, Nat.not_lt]
  constructor
  · rintro ⟨b, hb⟩
    refine ⟨?_, (insert_moved hw hp hid hb).1⟩
    by_contra hi
    unfold insert at hb
    simp only [if_pos (Nat.lt_of_not_le hi)] at hb
    cases hb
  · rintro ⟨hi, hcycle⟩
    exact exists_insert hw hp hi hcycle

theorem exists_remove_iff {p id : Nat} :
    (∃ b, a.remove p id = .ok b) ↔ ¬ (Edit.remove p id).Refused a := by
  change _ ↔ ¬ id ∉ a.children p
  rw [not_not]
  constructor
  · rintro ⟨b, hb⟩
    by_contra hid
    unfold remove at hb
    rw [if_neg (by rwa [contains_iff_mem])] at hb
    cases hb
  · exact exists_remove

theorem exists_replace_iff (hw : a.WellFormed) {p old new : Nat} (hnew : new < a.size) :
    (∃ b, a.replace p old new = .ok b) ↔ ¬ (Edit.replace p old new).Refused a := by
  change _ ↔ ¬ (old ∉ a.children p ∨ old ≠ new ∧ a.Under p new)
  rw [not_or, not_not, not_and]
  constructor
  · rintro ⟨b, hb⟩
    obtain ⟨hparent, hmoved⟩ := replace_moved hw hnew hb
    refine ⟨(hw.linked p old).2 hparent, fun hne => ?_⟩
    rcases hmoved with ⟨heq, -⟩ | ⟨-, hcycle, -⟩
    · exact absurd heq hne
    · exact hcycle
  · rintro ⟨hold, hcycle⟩
    have hparent := (hw.linked p old).1 hold
    by_cases heq : old = new
    · -- a node may replace itself, and then no cycle is looked for
      refine ⟨a, ?_⟩
      unfold replace
      rw [contains_iff_mem.2 hold]
      simp only [if_pos heq]
      rfl
    · obtain ⟨b, hb⟩ := exists_replaceInParent hw hparent (hcycle heq)
      unfold replaceInParent at hb
      rw [hparent] at hb
      exact ⟨b, hb⟩

theorem exists_replaceInParent_iff (hw : a.WellFormed) {old new : Nat} (hnew : new < a.size) :
    (∃ b, a.replaceInParent old new = .ok b) ↔ ¬ (Edit.replaceInParent old new).Refused a := by
  change _ ↔ ¬ (a.parent? old = none ∨ ∃ parent, a.parent? old = some parent ∧
    (Edit.replace parent old new).Refused a)
  unfold replaceInParent
  cases a.parent? old with
  | none => simp
  | some p => simp [exists_replace_iff hw hnew]

/-- An edit of allocated nodes has a result exactly if nothing stands against it. -/
theorem exists_apply_iff (hw : a.WellFormed) {e : Edit} (he : ∀ id ∈ e.nodes, id < a.size) :
    (∃ b, e.apply a = .ok b) ↔ ¬ e.Refused a := by
  cases e with
  | push p c =>
    have hp : p < a.size := he p (by cases c <;> exact .head _)
    have hc : ∀ id, c = .node id → id < a.size := by
      rintro id rfl
      exact he id (.tail _ (.head _))
    rw [← exists_push_iff hw hp hc]
    constructor
    · rintro ⟨b, hb⟩
      obtain ⟨r, hr, -⟩ := Except.bind_eq_ok.1 hb
      exact ⟨r, hr⟩
    · rintro ⟨r, hr⟩
      exact ⟨r.1, Except.bind_eq_ok.2 ⟨r, hr, rfl⟩⟩
  | insert p i id =>
    have hp := he p (.head _)
    have hid := he id (.tail _ (.head _))
    exact exists_insert_iff hw hp hid
  | remove p id => exact exists_remove_iff
  | replace p old new =>
    have hnew := he new (by simp [Edit.nodes])
    exact exists_replace_iff hw hnew
  | replaceInParent old new =>
    have hnew := he new (by simp [Edit.nodes])
    exact exists_replaceInParent_iff hw hnew
  | add l => exact ⟨fun _ => not_false, fun _ => ⟨_, rfl⟩⟩
  | detach id => exact ⟨fun _ => not_false, fun _ => ⟨_, rfl⟩⟩
  | copy id => exact ⟨fun _ => not_false, fun _ => ⟨_, rfl⟩⟩
  | addReference name type index => exact ⟨fun _ => not_false, fun _ => ⟨_, rfl⟩⟩

/-- **Failed edits are atomic and fail exactly when they should.** In a well-formed arena, an
edit of allocated nodes has an error as its outcome exactly if it is refused. Carried out step
by step on the arena itself it comes to the same error, with every node, link and label and the
number of nodes as they were; and where it is not refused, to the same new arena. -/
theorem edit_fails_iff_refused (hw : a.WellFormed) {e : Edit} (he : ∀ id ∈ e.nodes, id < a.size) :
    ((∃ error, e.apply a = .error error) ↔ e.Refused a) ∧
      (∀ error, e.apply a = .error error → InPlace.edit e a = .error error a) ∧
      ∀ b, e.apply a = .ok b → InPlace.edit e a = .ok () b := by
  have hok := exists_apply_iff hw he
  have hsteps := InPlace.edit_eq hw e
  cases happly : e.apply a with
  | error error =>
    rw [happly] at hok hsteps
    have hrefused : e.Refused a := by
      by_contra hnot
      obtain ⟨b, hb⟩ := hok.2 hnot
      cases hb
    refine ⟨iff_of_true ⟨error, rfl⟩ hrefused, fun error' herror => ?_, fun b hb => ?_⟩
    · cases herror
      exact hsteps
    · cases hb
  | ok b =>
    rw [happly] at hok hsteps
    have hallowed : ¬ e.Refused a := hok.1 ⟨b, rfl⟩
    refine ⟨iff_of_false (fun h => ?_) hallowed, fun error herror => ?_, fun b' hb' => ?_⟩
    · obtain ⟨error, herror⟩ := h
      cases herror
    · cases herror
    · cases hb'
      exact hsteps

/-- A way down of three nodes, and a node apart. -/
def wayDown : List Edit :=
  [.add default, .push 0 (.ident "a"), .push 1 (.ident "b"), .add default]

theorem replace_by_ancestor_refused :
    (∀ id ∈ (Edit.replace 1 2 0).nodes, id < (run {} wayDown).size) ∧
      (Edit.replace 1 2 0).Refused (run {} wayDown) ∧
      InPlace.edit (.replace 1 2 0) (run {} wayDown) =
        .error (.badArgument (.cycle 0 1)) (run {} wayDown) := by
  have hw : (run {} wayDown).WellFormed := wellFormed_empty.run (by decide)
  have hnodes : ∀ id ∈ (Edit.replace 1 2 0).nodes, id < (run {} wayDown).size := by decide
  have happly : (Edit.replace 1 2 0).apply (run {} wayDown) =
      .error (.badArgument (.cycle 0 1)) := by rfl
  obtain ⟨hrefused, hsteps, -⟩ := edit_fails_iff_refused hw hnodes
  exact ⟨hnodes, hrefused.1 ⟨_, happly⟩, hsteps _ happly⟩

end Arena

end VecLang
