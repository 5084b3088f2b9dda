import VecLang.Proofs.Arena.Runs
import VecLang.Proofs.Steps

/-!
# One move for each edit

An edit takes its node out of its place before it looks for the new one, so the indices that it
was given may have shifted: the node may have stood among the children of the same parent,
below another node, or below the very node that it replaces. In all these cases it lands in one
slot, said by the old list of children alone, and disturbs nothing else.

* `OneMove`: what a move changes, and that it changes nothing else.
* `Moved.oneMove`: linking a node that was taken out is one move.
* `edits_move_one`: **each successful edit moves one node, into the stated slot.**
-/

namespace VecLang.Arena

variable {a b : Arena}

/-- **The node `id` has moved, and nothing else.** It stands below `goal` now, or nowhere. Its
old parent, if that is another, has lost this one entry, the nodes `freed` have lost their parent,
and only `goal` may list other children than before. -/
structure OneMove (a : Arena) (id : Nat) (goal : Option Nat) (freed : List Nat) (b : Arena) : Prop where
  size : b.size = a.size
  root? : b.root? = a.root?
  label : ∀ x : Nat, b.label x = a.label x
  parent? : b.parent? id = goal
  parentless : ∀ x ∈ freed, b.parent? x = none
  parents : ∀ x : Nat, x ≠ id → x ∉ freed → b.parent? x = a.parent? x
  source : ∀ q : Nat, a.parent? id = some q → goal ≠ some q → b.children q = (a.children q).erase id
  others : ∀ x : Nat, a.parent? id ≠ some x → goal ≠ some x → b.children x = a.children x

/-- Where the children of every node but `goal` are those without `id`, only the old parent has
lost an entry. -/
theorem OneMove.of_filter (hw : a.WellFormed) {id : Nat} {goal : Option Nat} {freed : List Nat}
    (hsize : b.size = a.size) (hroot : b.root? = a.root?) (hlabel : ∀ x : Nat, b.label x = a.label x)
    (hid : b.parent? id = goal) (hfreed : ∀ x ∈ freed, b.parent? x = none)
    (hparents : ∀ x : Nat, x ≠ id → x ∉ freed → b.parent? x = a.parent? x)
    (hchildren : ∀ x : Nat, goal ≠ some x → b.children x = (a.children x).filter (· != id)) :
    OneMove a id goal freed b := by
  refine ⟨hsize, hroot, hlabel, hid, hfreed, hparents, fun q _ hq => ?_, fun x hx hgoal => ?_⟩
  · rw [hchildren q hq, (hw.nodup q).erase_eq_filter]
  · rw [hchildren x hgoal, filter_ne_eq_self]
    rwa [hw.linked]

theorem Moved.oneMove (hw : a.WellFormed) {p id : Nat} {l : List Nat} (h : Moved a p id l b) :
    OneMove a id (some p) [] b ∧ b.children p = l := by
  have hid : b.parent? id = some p := by rw [h.parent?, if_pos rfl]
  have hp : b.children p = l := by rw [h.children, if_pos rfl]
  refine ⟨.of_filter hw h.size h.root? h.label hid (List.forall_mem_nil _) (fun x hx _ => ?_)
    fun x hx => ?_, hp⟩
  · rw [h.parent?, if_neg hx]
  · rw [h.children, if_neg]
    rintro rfl
    exact hx rfl

theorem swapIn_eq_replace {old new : Nat} {l : List Nat} (hl : l.Nodup) :
    swapIn old new l = l.replace old new := by
  induction l with
  | nil => rfl
  | cons c l ih =>
    obtain ⟨hc, hl⟩ := List.nodup_cons.1 hl
    change (if c = old then new else c) :: swapIn old new l = _
    by_cases hold : c = old
    · subst hold
      rw [if_pos rfl, swapIn_eq_self hc, List.replace_cons_self]
    · have hne : (old == c) = false := beq_eq_false_iff_ne.2 fun h => hold h.symm
      rw [if_neg hold, ih hl, List.replace_cons, hne]

theorem replace_oneMove (hw : a.WellFormed) {p old new : Nat} (hnew : new < a.size)
    (hne : old ≠ new) (h : a.replace p old new = .ok b) :
    OneMove a new (some p) [old] b ∧
      b.children p = ((a.children p).erase new).replace old new := by
  obtain ⟨hold, ⟨heq, -⟩ | ⟨-, -, hm⟩⟩ := replace_moved hw hnew h
  · exact absurd heq hne
  have hlabel : ∀ x : Nat, b.label x = a.label x := fun x => by rw [hm.label, label_detach]
  have hid : b.parent? new = some p := by rw [hm.parent?, if_pos rfl]
  have hfreed : b.parent? old = none := by
    rw [hm.parent?, if_neg hne, parent?_detach, if_pos rfl]
  constructor
  · refine .of_filter hw (by rw [hm.size, size_detach]) (by rw [hm.root?, root?_detach]) hlabel hid
      (List.forall_mem_singleton.2 hfreed) (fun x hx hx' => ?_) fun x hx => ?_
    · rw [hm.parent?, if_neg hx, parent?_detach, if_neg fun h => hx' (List.mem_singleton.2 h)]
    · -- `old` stood below `p`, so it is no entry to be lost by `x`
      have hxp : x ≠ p := fun h => hx (congrArg some h.symm)
      have hskip : old ∉ a.children x := by
        rw [hw.linked, hold]
        exact hx
      rw [hm.children, if_neg hxp, children_detach hw, filter_ne_eq_self hskip]
  · rw [hm.children, if_pos rfl, swapIn_eq_replace ((hw.nodup p).filter _),
      (hw.nodup p).erase_eq_filter]

theorem detach_oneMove (hw : a.WellFormed) (id : Nat) : OneMove a id none [] (a.detach id) := by
  refine .of_filter hw (size_detach id) (root?_detach id) (fun x => label_detach id x) ?_
    (List.forall_mem_nil _) (fun x hx _ => ?_) fun x _ => children_detach hw id x
  · rw [parent?_detach, if_pos rfl]
  · rw [parent?_detach, if_neg hx]

theorem remove_oneMove (hw : a.WellFormed) {p id : Nat} (h : a.remove p id = .ok b) :
    a.parent? id = some p ∧ OneMove a id none [] b := by
  obtain ⟨hp, hsize, hlabel, hchildren, hparent, hroot⟩ := remove_views hw h
  refine ⟨hp, .of_filter hw hsize hroot hlabel (by rw [hparent, if_pos rfl])
    (List.forall_mem_nil _) (fun x hx _ => ?_) fun x _ => hchildren x⟩
  rw [hparent, if_neg hx]

/-- **Successful edits do exactly one move.** In a well-formed arena a successful `insert` leaves
the children of `p` as they were without `n`, with `n` put at the index or at the end of that
list; a successful `push` appends `n` to it; a successful `replace` overwrites the entry of `old`
by `new` and leaves `old` without a parent, also where `old` is found by its parent; `remove` and
`detach` take one entry out. In each case nothing else has changed. -/
theorem edits_move_one (hw : a.WellFormed) :
    (∀ {p i n : Nat} {b : Arena}, p < a.size → n < a.size → a.insert p i n = .ok b →
      OneMove a n (some p) [] b ∧ b.children p =
        ((a.children p).erase n).insertIdx (min i ((a.children p).erase n).length) n) ∧
    (∀ {p n : Nat} {r : Arena × NodeId}, p < a.size → n < a.size → a.push p (.node n) = .ok r →
      r.2 = n ∧ OneMove a n (some p) [] r.1 ∧ r.1.children p = (a.children p).erase n ++ [n]) ∧
    (∀ {p old new : Nat} {b : Arena}, new < a.size → old ≠ new → a.replace p old new = .ok b →
      OneMove a new (some p) [old] b ∧
        b.children p = ((a.children p).erase new).replace old new) ∧
    (∀ {old new : Nat} {b : Arena}, new < a.size → old ≠ new → a.replaceInParent old new = .ok b →
      ∃ p, a.parent? old = some p ∧ OneMove a new (some p) [old] b ∧
        b.children p = ((a.children p).erase new).replace old new) ∧
    (∀ {p n : Nat} {b : Arena}, a.remove p n = .ok b →
      a.parent? n = some p ∧ OneMove a n none [] b) ∧
    ∀ n : Nat, OneMove a n none [] (a.detach n) := by
  refine ⟨fun {p i n b} hp hn h => ?_, fun {p n r} hp hn h => ?_, fun hnew hne h => ?_,
    fun {old new b} hnew hne h => ?_, fun h => remove_oneMove hw h, detach_oneMove hw⟩
  · rw [(hw.nodup p).erase_eq_filter]
    exact (insert_moved hw hp hn h).2.oneMove hw
  · obtain ⟨b, hb, hr⟩ := Except.bind_eq_ok.1 h
    cases hr
    rw [(hw.nodup p).erase_eq_filter]
    exact ⟨rfl, (pushNode_moved hw hp hn hb).2.oneMove hw⟩
  · exact replace_oneMove hw hnew hne h
  · obtain ⟨p, hp⟩ := exists_parent_of_replaceInParent h
    unfold replaceInParent at h
    rw [hp] at h
    exact ⟨p, hp, replace_oneMove hw hnew hne h⟩

/-- A node with the children 1 to 4, where 5 stands below 2. -/
def fourChildren : List Edit :=
  [.add default, .push 0 (.ident "a"), .push 0 (.ident "b"), .push 0 (.ident "c"),
    .push 0 (.ident "d"), .push 2 (.ident "e")]

def outcomeOf (x : Except Error Arena) : Arena :=
  match x with
  | .ok b => b
  | .error _ => {}

/-- A child is moved towards the end, another is replaced by its own child, and one by a sibling in
front of it. -/
theorem edits_move_one_fourChildren :
    (outcomeOf ((run {} fourChildren).insert 0 2 1)).children 0 = [2, 3, 1, 4] ∧
    (outcomeOf ((run {} fourChildren).replace 0 2 5)).children 2 = [] ∧
    (outcomeOf ((run {} fourChildren).replaceInParent 3 1)).children 0 = [2, 1, 4] := by
  have hw : (run {} fourChildren).WellFormed := wellFormed_empty.run (by decide)
  obtain ⟨hinsert, -, hreplace, hinParent, -⟩ := edits_move_one hw
  refine ⟨?_, ?_, ?_⟩
  · exact (@hinsert 0 2 1 _ (by decide) (by decide) rfl).2
  · exact (@hreplace 0 2 5 _ (by decide) (by decide) rfl).1.source 2 rfl (by decide)
  · obtain ⟨p, hp, -, h⟩ := @hinParent 3 1 _ (by decide) (by decide) rfl
    cases hp
    exact h

end VecLang.Arena
