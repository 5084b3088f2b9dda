import VecLang.Proofs.Context.Overloads
import VecLang.Proofs.Grammar.Token

/-!
# Reading keys back

A key puts underscores between its parts and in the place of every bracket, so that an array
suffix, a separator and the empty list of arguments all look alike. Over the builtin types it can
still be read back. A builtin name is a word that starts with a letter, and each array around it
adds an underscore, the digits of its length if it has one, and another underscore. So a letter
behind an underscore starts the next type and anything else goes on with the same one.

* `Mangling.spelled_eq`: how a type over the builtin ones is spelled in a key.
* `Mangling.spelling_append_inj`: where the spelling of a type ends.
* `mangle_eq_iff`: **the keys of one name are equal exactly if the names of the types are.**
-/

namespace VecLang

open Grammar List

/-- **The types over the builtin ones**: the resolution of a builtin type name, and arrays of such
types, of a fixed or an open length and without a name of their own. -/
inductive OverBuiltin : Ty → Prop
  | builtin {name : String} {t : Ty} : Builtin.types.resolve (.named name) = .ok t → OverBuiltin t
  | array {elem : Ty} (size : Nat) : OverBuiltin elem → OverBuiltin (.array elem size none)
  | unsized {elem : Ty} : OverBuiltin elem → OverBuiltin (.unsized elem none)

namespace Mangling

open Overloads (map_safeChar)

variable {w w' x x' y : Text} {ds ds' : List Text} {r r' t t' : Ty} {ts ts' : List Ty}

/-- A word of letters and digits that starts with a letter. -/
def IsBase (w : Text) : Prop :=
  (∃ c, w.head? = some c ∧ c.isAlpha = true) ∧ ∀ c ∈ w, c.isAlphanum = true

/-- The lengths of arrays, each as its digits. An open length has none. -/
def AreLengths (ds : List Text) : Prop := ∀ d ∈ ds, ∀ c ∈ d, c.isDigit = true

/-- A length in brackets, as in the name of a type. -/
def bracketed (d : Text) : Text := '[' :: (d ++ [']'])

/-- A length between underscores, as in a key. -/
def barred (d : Text) : Text := '_' :: (d ++ ['_'])

/-- **What may stand behind the spelling of a type**: nothing, or an underscore behind which
the text ends or goes on with a letter. -/
def Behind (x : Text) : Prop := x = [] ∨ ∃ y, x = '_' :: y ∧ ∀ c ∈ y.head?, c.isAlpha = true

theorem behind_nil : Behind [] := .inl rfl

theorem behind_cons (h : ∀ c ∈ y.head?, c.isAlpha = true) : Behind ('_' :: y) := .inr ⟨y, rfl, h⟩

theorem isAlphanum_of_isDigit {c : Char} (h : c.isDigit = true) : c.isAlphanum = true := by
  unfold Char.isAlphanum
  rw [h, Bool.or_true]

theorem map_safeChar_bracketed {d : Text} (hd : ∀ c ∈ d, c.isDigit = true) :
    (bracketed d).map Ty.safeChar = barred d := by
  have hopen : Ty.safeChar '[' = '_' := by decide
  have hclose : Ty.safeChar ']' = '_' := by decide
  have hdigits := map_safeChar fun c hc => isAlphanum_of_isDigit (hd c hc)
  simp only [bracketed, barred, map_cons, map_append, map_nil, hopen, hclose, hdigits]

def spelled (t : Ty) : Text := t.safeName.toList

theorem isBase_of_builtin {name : String} (h : Builtin.types.resolve (.named name) = .ok t) :
    IsBase t.name.toList := by
  have hwords : ∀ entry ∈ Builtin.types.entries, IsBase (entry.1.toList) ∧
      (entry.2.isArray = true → entry.2.name = entry.1) := by
    have hheads : ∀ entry ∈ Builtin.types.entries,
        entry.1.toList.head?.any Char.isAlpha = true ∧
          (∀ c ∈ entry.1.toList, c.isAlphanum = true) ∧
          (entry.2.isArray = true → entry.2.name = entry.1) := by decide +kernel
    intro entry hentry
    obtain ⟨hhead, hall, hname⟩ := hheads entry hentry
    exact ⟨⟨(Option.any_eq_true _ _).1 hhead, hall⟩, hname⟩
  rw [TypeTable.resolve] at h
  split at h
  · cases h
  next e he =>
  obtain ⟨hbase, hname⟩ := hwords (name, e) (Table.mem_of_get? he)
  cases h
  split
  · next harray =>
    rw [hname harray]
    exact hbase
  · exact hbase

/-- The name of a type over the builtin ones is a word and the lengths around it. -/
theorem name_eq (h : OverBuiltin t) :
    ∃ w ds, IsBase w ∧ AreLengths ds ∧ t.name.toList = w ++ ds.flatMap bracketed := by
  induction h with
  | @builtin name t h =>
    refine ⟨t.name.toList, [], isBase_of_builtin h, ?_, ?_⟩
    · intro d hd
      cases hd
    · rw [flatMap_nil, append_nil]
  | @array elem size _ ih =>
    obtain ⟨w, ds, hw, hds, hname⟩ := ih
    refine ⟨w, ds ++ [Nat.toDigits 10 size], hw, ?_, ?_⟩
    · intro d hd
      rcases mem_append.1 hd with hd | hd
      · exact hds d hd
      · rw [mem_singleton.1 hd]
        exact toDigits_isDigit
    · have hsize : (toString size).toList = Nat.toDigits 10 size := Nat.toList_repr
      have hstep : (Ty.name (.array elem size none)).toList =
          elem.name.toList ++ bracketed (Nat.toDigits 10 size) := by
        rw [Ty.name, String.toList_append, String.toList_append, String.toList_append, hsize]
        simp [bracketed]
      rw [hstep, hname, flatMap_append, append_assoc, flatMap_singleton]
  | @unsized elem _ ih =>
    obtain ⟨w, ds, hw, hds, hname⟩ := ih
    refine ⟨w, ds ++ [[]], hw, ?_, ?_⟩
    · intro d hd
      rcases mem_append.1 hd with hd | hd
      · exact hds d hd
      · rw [mem_singleton.1 hd]
        intro c hc
        cases hc
    · have hstep : (Ty.name (.unsized elem none)).toList = elem.name.toList ++ bracketed [] := by
        rw [Ty.name, String.toList_append]
        rfl
      rw [hstep, hname, flatMap_append, append_assoc, flatMap_singleton]

/-- **How a type is spelled in a key**: its brackets are underscores, and the rest stays. -/
theorem spelled_eq (h : OverBuiltin t) : ∃ w ds, IsBase w ∧ AreLengths ds ∧
    t.name.toList = w ++ ds.flatMap bracketed ∧ spelled t = w ++ ds.flatMap barred := by
  obtain ⟨w, ds, hw, hds, hname⟩ := name_eq h
  refine ⟨w, ds, hw, hds, hname, ?_⟩
  have hlengths : (ds.flatMap bracketed).map Ty.safeChar = ds.flatMap barred := by
    rw [map_flatMap]
    exact flatMap_congr fun d hd => map_safeChar_bracketed (hds d hd)
  unfold spelled Ty.safeName Ty.safeText
  rw [String.toList_ofList, hname, map_append, map_safeChar hw.2, hlengths]

/-- Two texts that start with a word of letters and digits, and nothing of that kind behind it,
start with the same word if they are the same. -/
theorem word_append_inj (hw : ∀ c ∈ w, c.isAlphanum = true) (hw' : ∀ c ∈ w', c.isAlphanum = true)
    (hx : ∀ c ∈ x.head?, c.isAlphanum = false) (hx' : ∀ c ∈ x'.head?, c.isAlphanum = false)
    (h : w ++ x = w' ++ x') : w = w' ∧ x = x' := by
  constructor
  · rw [← takeWhile_run hw hx, h, takeWhile_run hw' hx']
  · rw [← dropWhile_run hw hx, h, dropWhile_run hw' hx']

theorem underscore_not_alphanum : ('_' : Char).isAlphanum = false := by decide

theorem head_underscore (y : Text) : ∀ c ∈ ('_' :: y).head?, c.isAlphanum = false := by
  intro c hc
  cases hc
  exact underscore_not_alphanum

/-- Lengths, or what stands behind a type, never go on with a letter or a digit. -/
theorem head_lengths (ds : List Text) (hx : Behind x) :
    ∀ c ∈ (ds.flatMap barred ++ x).head?, c.isAlphanum = false := by
  cases ds with
  | cons d ds => exact head_underscore _
  | nil =>
    rcases hx with rfl | ⟨y, rfl, -⟩
    · intro c hc
      cases hc
    · exact head_underscore y

/-- **A further length is never taken for what stands behind a type**: it goes on with a digit or
an underscore and not with a letter. -/
theorem not_behind_barred {d : Text} (hd : ∀ c ∈ d, c.isDigit = true) (y : Text) :
    ¬ Behind (barred d ++ y) := by
  rintro (hnil | ⟨z, hz, hletter⟩)
  · cases hnil
  · have hrest : z = d ++ '_' :: y := by
      have htail : d ++ ['_'] ++ y = z := (cons.inj hz).2
      rw [← htail, append_assoc]
      rfl
    subst hrest
    cases d with
    | nil => exact absurd (hletter '_' rfl) (by decide)
    | cons c d =>
      have hdigit : c.isDigit = true := hd c (.head _)
      have halpha : c.isAlpha = true := hletter c rfl
      -- no character is both a digit and a letter
      delta Char.isDigit at hdigit
      delta Char.isAlpha Char.isUpper Char.isLower at halpha
      simp only [Bool.and_eq_true, Bool.or_eq_true, decide_eq_true_eq] at hdigit halpha
      have hvalue : c.val ≤ '9'.val := hdigit.2
      rcases halpha with ⟨hlow, -⟩ | ⟨hlow, -⟩
      · exact absurd (UInt32.le_trans hlow hvalue) (by decide)
      · exact absurd (UInt32.le_trans hlow hvalue) (by decide)

/-- **Where the lengths of a type end.** -/
theorem lengths_append_inj (hds : AreLengths ds) (hds' : AreLengths ds') (hx : Behind x)
    (hx' : Behind x') (h : ds.flatMap barred ++ x = ds'.flatMap barred ++ x') :
    ds = ds' ∧ x = x' := by
  induction ds generalizing ds' with
  | nil =>
    cases ds' with
    | nil => exact ⟨rfl, h⟩
    | cons d' ds' =>
      rw [flatMap_nil, nil_append, flatMap_cons, append_assoc] at h
      rw [h] at hx
      exact absurd hx (not_behind_barred (hds' d' (.head _)) _)
  | cons d ds ih =>
    obtain ⟨hd, hds⟩ := forall_mem_cons.1 hds
    cases ds' with
    | nil =>
      rw [flatMap_nil, nil_append, flatMap_cons, append_assoc] at h
      rw [← h] at hx'
      exact absurd hx' (not_behind_barred hd _)
    | cons d' ds' =>
      obtain ⟨hd', hds'⟩ := forall_mem_cons.1 hds'
      have hparts : d ++ '_' :: (ds.flatMap barred ++ x) = d' ++ '_' :: (ds'.flatMap barred ++ x') := by
        simpa [barred] using h
      obtain ⟨hdigits, hrest⟩ := word_append_inj (fun c hc => isAlphanum_of_isDigit (hd c hc))
        (fun c hc => isAlphanum_of_isDigit (hd' c hc)) (head_underscore _) (head_underscore _) hparts
      obtain ⟨hlengths, hbehind⟩ := ih hds hds' (cons.inj hrest).2
      exact ⟨by rw [hdigits, hlengths], hbehind⟩

/-- **Where the spelling of a type ends**, and that it tells the name of the type. -/
theorem spelling_append_inj (ht : OverBuiltin t) (ht' : OverBuiltin t') (hx : Behind x)
    (hx' : Behind x') (h : spelled t ++ x = spelled t' ++ x') : t.name = t'.name ∧ x = x' := by
  obtain ⟨w, ds, hw, hds, hname, hspelled⟩ := spelled_eq ht
  obtain ⟨w', ds', hw', hds', hname', hspelled'⟩ := spelled_eq ht'
  rw [hspelled, hspelled', append_assoc, append_assoc] at h
  obtain ⟨hword, hrest⟩ :=
    word_append_inj hw.2 hw'.2 (head_lengths ds hx) (head_lengths ds' hx') h
  obtain ⟨hlengths, hbehind⟩ := lengths_append_inj hds hds' hx hx' hrest
  refine ⟨String.toList_inj.1 ?_, hbehind⟩
  rw [hname, hname', hword, hlengths]

theorem spelled_head (h : OverBuiltin t) (x : Text) :
    ∃ c, (spelled t ++ x).head? = some c ∧ c.isAlpha = true := by
  obtain ⟨w, ds, ⟨⟨c, hc, halpha⟩, -⟩, -, -, hspelled⟩ := spelled_eq h
  refine ⟨c, ?_, halpha⟩
  rw [hspelled, append_assoc, head?_append, hc]
  rfl

/-- The types of a list as a key shows them, each behind an underscore. -/
def spelledAll (ts : List Ty) : Text := ts.flatMap fun t => '_' :: spelled t

theorem spelledAll_cons (t : Ty) (ts : List Ty) :
    spelledAll (t :: ts) = '_' :: (spelled t ++ spelledAll ts) := rfl

theorem behind_spelledAll (h : ∀ t ∈ ts, OverBuiltin t) : Behind (spelledAll ts) := by
  cases ts with
  | nil => exact behind_nil
  | cons t ts =>
    obtain ⟨c, hc, halpha⟩ := spelled_head (h t (.head _)) (spelledAll ts)
    rw [spelledAll_cons]
    refine behind_cons fun d hd => ?_
    rw [hc] at hd
    cases hd
    exact halpha

/-- **The types of a list can be told apart in a key.** -/
theorem spelledAll_inj (h : ∀ t ∈ ts, OverBuiltin t) (h' : ∀ t ∈ ts', OverBuiltin t)
    (heq : spelledAll ts = spelledAll ts') : ts.map Ty.name = ts'.map Ty.name := by
  induction ts generalizing ts' with
  | nil =>
    cases ts' with
    | nil => rfl
    | cons t' ts' => cases heq
  | cons t ts ih =>
    cases ts' with
    | nil => cases heq
    | cons t' ts' =>
      obtain ⟨ht, hts⟩ := forall_mem_cons.1 h
      obtain ⟨ht', hts'⟩ := forall_mem_cons.1 h'
      rw [spelledAll_cons, spelledAll_cons] at heq
      obtain ⟨hname, hrest⟩ := spelling_append_inj ht ht' (behind_spelledAll hts)
        (behind_spelledAll hts') (cons.inj heq).2
      rw [map_cons, map_cons, hname, ih hts hts' hrest]

/-- What a key shows behind the return type: the arguments, or an underscore if there are none. -/
def arguments (ts : List Ty) : Text := if ts = [] then ['_'] else spelledAll ts

theorem behind_arguments (h : ∀ t ∈ ts, OverBuiltin t) : Behind (arguments ts) := by
  unfold arguments
  split
  · refine behind_cons fun c hc => ?_
    cases hc
  · exact behind_spelledAll h

theorem arguments_inj (h : ∀ t ∈ ts, OverBuiltin t) (h' : ∀ t ∈ ts', OverBuiltin t)
    (heq : arguments ts = arguments ts') : ts.map Ty.name = ts'.map Ty.name := by
  -- a list of arguments shows a letter, and the lone underscore none
  have hlone : ∀ {us : List Ty}, us ≠ [] → (∀ t ∈ us, OverBuiltin t) → ['_'] ≠ spelledAll us := by
    intro us hne hus hlone
    obtain ⟨u, us, rfl⟩ := exists_cons_of_ne_nil hne
    obtain ⟨c, hc, -⟩ := spelled_head (hus u (.head _)) (spelledAll us)
    rw [spelledAll_cons] at hlone
    rw [← (cons.inj hlone).2] at hc
    cases hc
  unfold arguments at heq
  split at heq <;> split at heq
  · next hnil hnil' => rw [hnil, hnil']
  · next _ hne => exact absurd heq (hlone hne h')
  · next hne _ => exact absurd heq.symm (hlone hne h)
  · exact spelledAll_inj h h' heq

theorem toList_mangle (name : String) (r : Ty) (ts : List Ty) : (mangle name r ts).toList =
    '_' :: ((Ty.safeText name).toList ++ '_' :: (spelled r ++ arguments ts)) := by
  have hargs : '_' :: ("_".intercalate (ts.map Ty.safeName)).toList = arguments ts := by
    unfold arguments
    cases ts with
    | nil => rfl
    | cons t ts =>
      rw [if_neg (cons_ne_nil _ _)]
      induction ts generalizing t with
      | nil => simp [spelledAll, spelled]
      | cons u us ih =>
        rw [spelledAll_cons, ← ih u]
        simp [spelled]
  rw [← hargs]
  unfold mangle
  simp [spelled]

end Mangling

open Mangling

/-- **The keys of one name are equal exactly if the types have equal names.** For every name of a
function and all types over the builtin ones, two signatures of that name have one key exactly if
their return types have one name, and they have equally many arguments of pairwise the same
names. -/
theorem mangle_eq_iff (name : String) {r r' : Ty} {ts ts' : List Ty} (hr : OverBuiltin r)
    (hr' : OverBuiltin r') (hts : ∀ t ∈ ts, OverBuiltin t) (hts' : ∀ t ∈ ts', OverBuiltin t) :
    mangle name r ts = mangle name r' ts' ↔
      r.name = r'.name ∧ ts.map Ty.name = ts'.map Ty.name := by
  constructor
  · intro h
    have htexts := congrArg String.toList h
    rw [toList_mangle, toList_mangle] at htexts
    -- the name is the same in both, and so is all behind it
    have hbehind := append_cancel_left (cons.inj htexts).2
    obtain ⟨hname, hargs⟩ := spelling_append_inj hr hr' (behind_arguments hts)
      (behind_arguments hts') (cons.inj hbehind).2
    exact ⟨hname, arguments_inj hts hts' hargs⟩
  · rintro ⟨hname, hargs⟩
    rw [Signature.mangle_eq, Signature.mangle_eq, hname, hargs]

/-- Both keys are `_blend_vec3_2`, then underscores alone. -/
theorem mangle_eq_iff_underscores :
    (OverBuiltin (.unsized (.array Builtin.vec3 2 none) none) ∧
      OverBuiltin (.array Builtin.vec3 2 none)) ∧
      mangle "blend" (.unsized (.array Builtin.vec3 2 none) none) [] ≠
        mangle "blend" (.array Builtin.vec3 2 none) [] := by
  have hvec : OverBuiltin Builtin.vec3 := by
    have hresolve : Builtin.types.resolve (.named "vec3") = .ok Builtin.vec3 := by decide
    exact .builtin hresolve
  have hsized : OverBuiltin (.array Builtin.vec3 2 none) := .array 2 hvec
  refine ⟨⟨.unsized hsized, hsized⟩, fun h => ?_⟩
  have hnames := (mangle_eq_iff "blend" (.unsized hsized) hsized (forall_mem_nil _)
    (forall_mem_nil _)).1 h
  exact absurd hnames.1 (by decide)

end VecLang
