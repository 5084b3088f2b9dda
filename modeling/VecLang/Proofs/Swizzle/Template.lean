import VecLang.Proofs.Grammar.ReadProgram
import VecLang.Proofs.Swizzle.Substitute

/-!
# What the templates say

The texts of a swizzle write the trees that they should: the constructor of a vector of
components, and one assignment for each component.

* `readTree`, `writeTree`: the trees, with any operand in the place of a placeholder.
* `parse_readText`, `parse_writeText`, `parse_unpackedWriteText`: the texts are read as
  these trees.
-/

namespace VecLang

open List

variable {α β : Type} {m name : String} {i : Nat}

namespace Context

open Grammar

variable {ctx : Context}

theorem parseTree_statements {lines : List Line} (pos : Pos) (hblank : ∀ l ∈ lines, Blank l.blank)
    (hwritten : ∀ l ∈ lines, WrittenStatement ctx.types .statement l.text l.tree) :
    ∃ u, ctx.parseTree .statements (linesText lines) = .ok u ∧
      u.unplaced = (Tree.plain .block pos (lines.map Line.tree)).unplaced := by
  let env : Env := { types := ctx.types, lines := LineIndex.ofText (linesText lines) }
  have henv : ∀ l ∈ lines, WrittenStatement env.types .statement l.text l.tree := hwritten
  obtain ⟨u, c, hread, hu, hend⟩ := statements_written pos hblank henv
  refine ⟨u, ?_, hu⟩
  have hstop : c.atEnd = true := by
    rw [Cursor.atEnd, hend]
    rfl
  unfold parseTree
  simp only [produce, show statements ⟨ctx.types, LineIndex.ofText (linesText lines)⟩ _ = _ from hread,
    hstop, if_true]

end Context

theorem intercalate_cons (sep s : Text) (ss : List Text) :
    sep.intercalate (s :: ss) = s ++ ss.flatMap fun t => sep ++ t := by
  induction ss generalizing s with
  | nil => simp [intercalate]
  | cons t ss ih =>
    have hstep : sep.intercalate (s :: t :: ss) = s ++ (sep ++ sep.intercalate (t :: ss)) := by
      simp [intercalate]
    rw [hstep, ih, flatMap_cons, append_assoc]

theorem map_mapIdx {γ : Type} (f : Nat → α → β) (g : β → γ) (l : List α) :
    (l.mapIdx f).map g = l.mapIdx fun i x => g (f i x) := by
  apply ext_getElem?
  intro i
  simp [Function.comp_def]

theorem mapIdx_congr {f g : Nat → α → β} {l : List α} (h : ∀ i x, l[i]? = some x → f i x = g i x) :
    l.mapIdx f = l.mapIdx g := by
  apply ext_getElem?
  intro i
  rw [getElem?_mapIdx, getElem?_mapIdx]
  cases hx : l[i]? with
  | none => rfl
  | some x => rw [Option.map_some, Option.map_some, h i x hx]

theorem mapM_eq_some_iff {f : α → Option β} {l : List α} {xs : List β} :
    l.mapM f = some xs ↔ l.map f = xs.map some := by
  induction l generalizing xs with
  | nil => cases xs <;> simp
  | cons a l ih =>
    rw [mapM_cons, map_cons]
    constructor
    · intro h
      obtain ⟨x, hx, h⟩ := Option.bind_eq_some_iff.1 h
      obtain ⟨xs', hxs, h⟩ := Option.bind_eq_some_iff.1 h
      cases h
      rw [map_cons, ih.1 hxs, hx]
    · intro h
      cases xs with
      | nil => cases h
      | cons x xs =>
        obtain ⟨hx, hxs⟩ := cons.inj h
        rw [hx, ih.2 hxs]
        rfl

theorem axis?_lt (h : axis? m = some i) : i < 4 := by
  unfold axis? at h
  split at h
  · obtain ⟨letters, hl, hi⟩ := exists_of_findSome?_eq_some h
    have hlen : ∀ l ∈ axisSets, l.length ≤ 4 := by decide
    have hlt := findIdx?_eq_some_iff_findIdx_eq.1 hi
    exact Nat.lt_of_lt_of_le hlt.1 (hlen letters hl)
  · cases h

namespace Swizzle

open Grammar ScopeWalk Arena

theorem mem_of_idxOf?_mapM {letters member : Text} {is : List Nat}
    (h : member.mapM letters.idxOf? = some is) :
    is.length = member.length ∧ (∀ i ∈ is, i < letters.length) ∧ member ⊆ letters := by
  induction member generalizing is with
  | nil =>
    cases h
    simp
  | cons c member ih =>
    rw [mapM_cons] at h
    cases hc : letters.idxOf? c with
    | none => rw [hc] at h; cases h
    | some i =>
      cases hm : member.mapM letters.idxOf? with
      | none => rw [hc, hm] at h; cases h
      | some is' =>
        rw [hc, hm] at h
        cases h
        obtain ⟨hlen, hlt, hsub⟩ := ih hm
        have hi := findIdx?_eq_some_iff_findIdx_eq.1 hc
        refine ⟨by simp [hlen], fun j hj => ?_, fun d hd => ?_⟩
        · rcases mem_cons.1 hj with rfl | hj
          · exact hi.1
          · exact hlt j hj
        · rcases mem_cons.1 hd with rfl | hd
          · by_contra hn
            rw [idxOf?_eq_none_iff.2 hn] at hc
            cases hc
          · exact hsub hd

theorem ofMember?_bounds (h : ofMember? m = some s) :
    2 ≤ s.width ∧ s.width ≤ 4 ∧ ∀ i ∈ s.indices, i < 4 := by
  obtain ⟨letters, hl, hs⟩ := exists_of_findSome?_eq_some h
  have hlen : ∀ l ∈ axisSets, l.length ≤ 4 := by decide
  have hfour := hlen letters hl
  unfold ofSet? at hs
  split at hs
  · next hm =>
    obtain ⟨is, his, rfl⟩ := Option.map_eq_some_iff.1 hs
    obtain ⟨hlength, hlt, hsub⟩ := mem_of_idxOf?_mapM his
    have hle := (hm.2.subperm hsub).length_le
    unfold width
    refine ⟨by rw [hlength]; exact hm.1, by rw [hlength]; omega, fun i hi => ?_⟩
    exact Nat.lt_of_lt_of_le (hlt i hi) hfour
  · cases hs

theorem ofMember?_nodup (h : ofMember? m = some s) : s.indices.Nodup := by
  obtain ⟨letters, -, hs⟩ := exists_of_findSome?_eq_some h
  unfold ofSet? at hs
  split at hs
  · next hm =>
    obtain ⟨is, his, rfl⟩ := Option.map_eq_some_iff.1 hs
    have hmap := mapM_eq_some_iff.1 his
    -- letters at the same place are the same
    have hinj : ∀ c ∈ m.toList, ∀ d ∈ m.toList, letters.idxOf? c = letters.idxOf? d → c = d := by
      intro c hc d hd heq
      have hmem : letters.idxOf? c ∈ is.map some := hmap ▸ mem_map_of_mem hc
      obtain ⟨i, -, hi⟩ := mem_map.1 hmem
      have hplace : ∀ b, letters.idxOf? b = some i → letters[i]? = some b := by
        intro b hb
        obtain ⟨hlt, hbeq, -⟩ := findIdx?_eq_some_iff_getElem.1 hb
        rw [getElem?_eq_getElem hlt, eq_of_beq hbeq]
      have hcd := (hplace c hi.symm).symm.trans (hplace d (heq.symm.trans hi.symm))
      exact Option.some.inj hcd
    have hnodup : (is.map some).Nodup := hmap ▸ hm.2.map_on hinj
    exact hnodup.of_map some
  · cases hs

/-- The names for which operands are put into the templates. -/
def placeholders : List String := ["$n1", "$n2", "$a0", "$a1", "$a2", "$a3"]

/-- With these types the templates can be read: the vector types are known, and no
placeholder names a type. -/
structure Templates (types : TypeTable) : Prop where
  vector : ∀ n ∈ [2, 3, 4], (types.get? ("vec" ++ toString n)).isSome = true
  free : ∀ name ∈ placeholders, types.get? name = none

theorem templates_builtin : Templates Builtin.types := ⟨by decide, by decide⟩

def nameTree (pos : Pos) (name : String) : Tree := .valued .ident pos (.name name) []

def elementTree (pos : Pos) (base : Tree) (i : Nat) : Tree :=
  .plain .index pos [base, .valued .intConst pos (.int i) []]

/-- The type of the vectors with as many components as the swizzle. -/
def vectorType (types : TypeTable) (s : Swizzle) : Ty :=
  (types.get? s.vectorName).getD (.named s.vectorName)

/-- **The vector of the components that a swizzle selects.** -/
def readTree (types : TypeTable) (pos : Pos) (s : Swizzle) (base : Tree) : Tree :=
  .plain .call pos [.valued .varType pos (.type (vectorType types s)) [],
    .plain .args pos (s.indices.map (elementTree pos base))]

/-- **The assignments to the components that a swizzle selects**, of what `value` gives for
each place. -/
def writeTrees (pos : Pos) (s : Swizzle) (base : Tree) (value : Nat → Tree) : List Tree :=
  s.indices.mapIdx fun k i => .operated .assign pos .assign [elementTree pos base i, value k]

variable {types : TypeTable} {s : Swizzle} {ctx : Context} {pos : Pos}

theorem Templates.vectorType (ht : Templates types) (hw : 2 ≤ s.width ∧ s.width ≤ 4) :
    IsName s.vectorName ∧ types.get? s.vectorName = some (s.vectorType types) := by
  have hmem : s.width ∈ [2, 3, 4] := by
    simp only [mem_cons, not_mem_nil, or_false]
    omega
  have hnames : ∀ n ∈ [2, 3, 4], IsName ("vec" ++ toString n) := by decide
  obtain ⟨t, hget⟩ := Option.isSome_iff_exists.1 (ht.vector s.width hmem)
  refine ⟨hnames s.width hmem, ?_⟩
  unfold Swizzle.vectorType vectorName
  rw [hget]
  rfl

theorem written_name (ht : Templates types) (h : name ∈ placeholders) (pos : Pos) :
    Written types 11 name.toList (nameTree pos name) := by
  have hnames : ∀ n ∈ placeholders, IsName n := by decide
  exact .name (hnames name h) (ht.free name h)

def elementText (name : String) (i : Nat) : Text := name.toList ++ '[' :: (Nat.toDigits 10 i ++ [']'])

theorem written_element (ht : Templates types) (h : name ∈ placeholders) (hi : i < 4) :
    Written types 2 (elementText name i) (elementTree pos (nameTree pos name) i) := by
  have hle : i ≤ maxInt := Nat.le_trans (Nat.le_of_lt hi) (by decide)
  have hint : Written types 1 (Nat.toDigits 10 i) (.valued .intConst pos (.int i) []) :=
    Written.mono (.int hle) (by decide) (by decide) (by decide)
  have hindex : Written types 10 (elementText name i) (elementTree pos (nameTree pos name) i) :=
    .index (written_name ht h pos).atom hint
  exact hindex.mono (by decide) (by decide) (by decide)

theorem toList_element (i : Nat) : (element i).toList = elementText "$n1" i := by
  unfold element elementText
  simp

theorem written_readText (ht : Templates types) (hw : 2 ≤ s.width ∧ s.width ≤ 4)
    (hs : ∀ i ∈ s.indices, i < 4) :
    Written types 1 s.readText.toList (readTree types pos s (nameTree pos "$n1")) := by
  obtain ⟨hname, htype⟩ := ht.vectorType hw
  let items : List (Text × Tree) :=
    s.indices.map fun i => (elementText "$n1" i, elementTree pos (nameTree pos "$n1") i)
  have hitems : ∀ p ∈ items, Written types 1 p.1 p.2 := by
    intro p hp
    obtain ⟨i, hi, rfl⟩ := mem_map.1 hp
    exact (written_element ht (by decide) (hs i hi)).mono (by decide) (by decide) (by decide)
  have hfst : items.map Prod.fst = s.indices.map (elementText "$n1") := map_map
  have hsnd : items.map Prod.snd = s.indices.map (elementTree pos (nameTree pos "$n1")) :=
    map_map
  have hcall : Written types 11 (s.vectorName.toList ++ '(' :: (commas (items.map Prod.fst) ++ [')']))
      (.plain .call pos [.valued .varType pos (.type (vectorType types s)) [],
        .plain .args pos (items.map Prod.snd)]) :=
    .construct items hname htype hitems
  have htext : s.readText.toList =
      s.vectorName.toList ++ '(' :: (commas (s.indices.map (elementText "$n1")) ++ [')']) := by
    unfold readText
    rw [String.toList_append, String.toList_append, String.toList_append, String.toList_intercalate,
      map_map, show String.toList ∘ element = elementText "$n1" from funext toList_element]
    cases hidx : s.indices with
    | nil =>
      unfold width at hw
      rw [hidx] at hw
      exact absurd hw.1 (by decide)
    | cons i is =>
      rw [map_cons, intercalate_cons, commas, append_assoc, append_assoc]
      rfl
  rw [hfst, hsnd] at hcall
  rw [htext]
  unfold readTree
  exact hcall.mono (by decide) (by decide) (by decide)

/-- **The text of a read is parsed to the constructor of the components.** -/
theorem parse_readText (ctx : Context) (ht : Templates ctx.types) (hw : 2 ≤ s.width ∧ s.width ≤ 4)
    (hs : ∀ i ∈ s.indices, i < 4) (pos : Pos) :
    ∃ u, ctx.parseTree .expression s.readText.toList = .ok u ∧
      u.placed pos = readTree ctx.types pos s (nameTree pos "$n1") := by
  have hwritten : Written ctx.types 1 s.readText.toList
    (readTree ctx.types pos s (nameTree pos "$n1")) := written_readText ht hw hs
  obtain ⟨u, hparse, hu⟩ := Context.parseTree_expression hwritten
  refine ⟨u, hparse, ?_⟩
  rw [Tree.placed_eq_of_unplaced pos hu]
  simp [readTree, elementTree, nameTree, Tree.plain, Tree.valued, Function.comp_def]

def linesOf : List (Text × Tree) → List Line
  | [] => []
  | p :: ps => ⟨[], p.1, p.2⟩ :: ps.map fun p => ⟨['\n'], p.1, p.2⟩

theorem linesText_linesOf (ps : List (Text × Tree)) :
    linesText (linesOf ps) = ['\n'].intercalate (ps.map Prod.fst) := by
  cases ps with
  | nil => rfl
  | cons p ps =>
    rw [map_cons, intercalate_cons]
    simp [linesOf, linesText, flatMap_map]

theorem tree_linesOf (ps : List (Text × Tree)) :
    (linesOf ps).map Line.tree = ps.map Prod.snd := by
  cases ps with
  | nil => rfl
  | cons p ps => simp [linesOf, Function.comp_def]

theorem mem_linesOf {ps : List (Text × Tree)} {l : Line} (h : l ∈ linesOf ps) :
    Blank l.blank ∧ (l.text, l.tree) ∈ ps := by
  cases ps with
  | nil => cases h
  | cons p ps =>
    rcases mem_cons.1 h with rfl | h
    · exact ⟨fun _ h => (by cases h), .head _⟩
    · obtain ⟨q, hq, rfl⟩ := mem_map.1 h
      refine ⟨fun ch hch => ?_, .tail _ hq⟩
      rw [mem_singleton.1 hch]
      rfl

/-- **The text of a write is parsed to one assignment for each component**, whatever the
texts of the values. -/
theorem parse_writeTextWith (ctx : Context) (ht : Templates ctx.types) (hs : ∀ i ∈ s.indices, i < 4)
    {value : Nat → String} {tree : Nat → Tree} (hplaced : ∀ k, (tree k).placed pos = tree k)
    (hvalue : ∀ k < s.width, Written ctx.types 1 (value k).toList (tree k)) :
    ∃ u, ctx.parseTree .statements (s.writeTextWith value).toList = .ok u ∧
      u.placed pos = .plain .block pos (writeTrees pos s (nameTree pos "$n1") tree) := by
  let items : List (Text × Tree) := s.indices.mapIdx fun k i =>
    (elementText "$n1" i ++ ' ' :: '=' :: ' ' :: (value k).toList ++ [';'],
      .operated .assign pos .assign [elementTree pos (nameTree pos "$n1") i, tree k])
  have hitems : ∀ p ∈ items, WrittenStatement ctx.types .statement p.1 p.2 := by
    intro p hp
    obtain ⟨k, hk, rfl⟩ := mem_mapIdx.1 hp
    exact .expression (.assign (written_element ht (by decide) (hs _ (getElem_mem hk)))
      (hvalue k hk))
  have hsnd : items.map Prod.snd = writeTrees pos s (nameTree pos "$n1") tree := by
    unfold writeTrees
    rw [map_mapIdx]
  have htext : (s.writeTextWith value).toList = linesText (linesOf items) := by
    unfold writeTextWith
    rw [linesText_linesOf, String.toList_intercalate, map_mapIdx, map_mapIdx]
    refine congrArg (['\n'].intercalate ·) (mapIdx_congr fun k i _ => ?_)
    simp [toList_element]
  obtain ⟨u, hparse, hu⟩ := Context.parseTree_statements pos (fun l hl => (mem_linesOf hl).1)
    fun l hl => hitems _ (mem_linesOf hl).2
  rw [← htext] at hparse
  refine ⟨u, hparse, ?_⟩
  rw [Tree.placed_eq_of_unplaced pos hu, tree_linesOf, hsnd]
  unfold Tree.plain
  rw [Tree.placed_node]
  congr 1
  unfold writeTrees
  rw [map_mapIdx]
  refine mapIdx_congr fun k i _ => ?_
  simp [elementTree, nameTree, Tree.plain, Tree.valued, Tree.operated, hplaced]

theorem parse_writeText (ctx : Context) (ht : Templates ctx.types) (hw : s.width ≤ 4)
    (hs : ∀ i ∈ s.indices, i < 4) (pos : Pos) :
    ∃ u, ctx.parseTree .statements s.writeText.toList = .ok u ∧ u.placed pos = .plain .block pos
      (writeTrees pos s (nameTree pos "$n1") (elementTree pos (nameTree pos "$n2"))) := by
  refine parse_writeTextWith ctx ht hs (fun k => ?_) fun k hk => ?_
  · simp [elementTree, nameTree, Tree.plain, Tree.valued]
  · have htext : ("$n2[" ++ toString k ++ "]").toList = elementText "$n2" k := by
      unfold elementText
      simp
    rw [htext]
    exact (written_element ht (by decide) (by omega)).mono (by decide) (by decide) (by decide)

theorem parse_unpackedWriteText (ctx : Context) (ht : Templates ctx.types) (hw : s.width ≤ 4)
    (hs : ∀ i ∈ s.indices, i < 4) (pos : Pos) :
    ∃ u, ctx.parseTree .statements s.unpackedWriteText.toList = .ok u ∧
      u.placed pos = .plain .block pos
        (writeTrees pos s (nameTree pos "$n1") fun k => nameTree pos (argument k)) := by
  refine parse_writeTextWith ctx ht hs (fun k => ?_) fun k hk => ?_
  · simp [nameTree, Tree.valued]
  · have hmem : argument k ∈ placeholders := by
      have hall : ∀ k < 4, argument k ∈ placeholders := by decide
      exact hall k (by omega)
    exact (written_name ht hmem pos).mono (by decide) (by decide) (by decide)

end Swizzle

end VecLang
