import VecLang.Proofs.Grammar.Token
import VecLang.Proofs.Source.Position

/-!
# Preprocessing line by line

What each line of a preprocessed text is, said without the scanners: which lines are
definitions (`Defines`), what a name stands for behind some lines (`Means`), and how a line
reads when its words are replaced by what they stand for (`Reads`).

* `Defines.read`, `defines_of_read`: the directives that are read are exactly the definitions.
* `reads_iff`: expansion gives the one text that a line reads as.
* `expandLines_line`: each line is emptied or expanded with the definitions above it.
* `preprocess_lines`: **preprocessing keeps the lines and treats each on its own.**
-/

namespace VecLang

open List

variable {p : Char → Bool} {b : Bool} {c : Char} {raw text : Text}

namespace Macro

open Grammar

variable {defs : Defs} {line s t w : Text} {name : String}

/-! ### Words and their values -/

theorem head_dropWhile (s : Text) : ∀ c ∈ (s.dropWhile p).head?, p c = false := by
  intro c hc
  have hhead := head?_dropWhile_not p s
  rw [Option.mem_def.1 hc] at hhead
  simpa using hhead

theorem all_takeWhile (s : Text) : ∀ c ∈ s.takeWhile p, p c = true :=
  List.all_eq_true.1 List.all_takeWhile

/-- **How a text reads**: a word that has a value is replaced by it, and all else stays. A word
is a longest run of word characters that does not start with a digit. -/
inductive Reads (value : String → Text → Prop) : Text → Text → Prop
  | nil : Reads value [] []
  | other {c : Char} {s t : Text} : Text.isWordChar c = false → Reads value s t →
      Reads value (c :: s) (c :: t)
  | replaced {w v s t : Text} : w.head?.any Text.isWordStart = true →
      (∀ c ∈ w, Text.isWordChar c = true) → NoWord s → value (String.ofList w) v →
      Reads value s t → Reads value (w ++ s) (v ++ t)
  | kept {w s t : Text} : w ≠ [] → (∀ c ∈ w, Text.isWordChar c = true) → NoWord s →
      (w.head?.any Text.isWordStart = true → ∀ v, ¬ value (String.ofList w) v) →
      Reads value s t → Reads value (w ++ s) (w ++ t)

theorem isChain_run (h : ∀ c ∈ w, Text.isWordChar c = b) :
    w.IsChain fun c d => (Text.isWordChar c == Text.isWordChar d) = true := by
  induction w with
  | nil => exact .nil
  | cons c w ih =>
    obtain ⟨hc, hw⟩ := forall_mem_cons.1 h
    refine isChain_cons.2 ⟨fun d hd => ?_, ih hw⟩
    have hd := hw d (mem_of_mem_head? hd)
    rw [hc, hd, beq_self_eq_true]

theorem expand_run (defs : Defs) (hne : w ≠ []) (hw : ∀ c ∈ w, Text.isWordChar c = b)
    (hs : ∀ c ∈ s.head?, Text.isWordChar c = !b) :
    expand defs (w ++ s) = expandRun defs w ++ expand defs s := by
  have hsplit : runs (w ++ s) = w :: runs s := by
    unfold runs
    rw [splitBy_append, splitBy_of_isChain hne (isChain_run hw), singleton_append]
    intro c hc d hd
    have hc := hw c (mem_of_mem_getLast? hc)
    have hd := hs d hd
    rw [hc, hd]
    cases b <;> rfl
  unfold expand
  rw [hsplit, flatMap_cons]

theorem expandRun_other (defs : Defs) (h : w.head?.any Text.isWordStart = false) :
    expandRun defs w = w := by
  unfold expandRun
  rw [h]
  rfl

theorem expand_other (defs : Defs) (hc : Text.isWordChar c = false) (s : Text) :
    expand defs (c :: s) = c :: expand defs s := by
  -- `s` goes on with further such characters up to the next word
  let u := s.takeWhile fun d => !Text.isWordChar d
  let r := s.dropWhile fun d => !Text.isWordChar d
  have hsplit : s = u ++ r := takeWhile_append_dropWhile.symm
  have hu : ∀ d ∈ u, Text.isWordChar d = false := by
    intro d hd
    simpa using all_takeWhile s d hd
  have hr : ∀ d ∈ r.head?, Text.isWordChar d = !false := by
    intro d hd
    simpa using head_dropWhile s d hd
  have hstart : ∀ v : Text, (∀ d ∈ v, Text.isWordChar d = false) →
      v.head?.any Text.isWordStart = false := by
    intro v hv
    cases v with
    | nil => rfl
    | cons d v =>
      have hd := hv d (.head _)
      cases hword : Text.isWordStart d with
      | false => exact hword
      | true =>
        rw [Text.isWordChar_of_isWordStart hword] at hd
        cases hd
  have hcu : ∀ d ∈ c :: u, Text.isWordChar d = false := forall_mem_cons.2 ⟨hc, hu⟩
  have hfirst : expand defs (c :: s) = (c :: u) ++ expand defs r := by
    rw [hsplit, ← cons_append, expand_run defs (cons_ne_nil _ _) hcu hr,
      expandRun_other defs (hstart _ hcu)]
  have hrest : expand defs s = u ++ expand defs r := by
    by_cases hne : u = []
    · rw [hsplit, hne, nil_append, nil_append]
    · rw [hsplit, expand_run defs hne hu hr, expandRun_other defs (hstart _ hu)]
  rw [hfirst, hrest, cons_append]

/-- A longest run of word characters is replaced if it is a word with a value. -/
theorem expand_word (defs : Defs) (hne : w ≠ []) (hw : ∀ c ∈ w, Text.isWordChar c = true)
    (hs : NoWord s) : expand defs (w ++ s) = expandRun defs w ++ expand defs s :=
  expand_run defs hne hw hs

theorem expandRun_replaced {v : Text} (hw : w.head?.any Text.isWordStart = true)
    (hv : defs.get? (String.ofList w) = some v) : expandRun defs w = v := by
  unfold expandRun
  rw [if_pos hw, hv, Option.getD_some]

theorem expandRun_kept (h : w.head?.any Text.isWordStart = true →
    ∀ v, defs.get? (String.ofList w) ≠ some v) : expandRun defs w = w := by
  cases hw : w.head?.any Text.isWordStart with
  | false => exact expandRun_other defs hw
  | true =>
    have hnone : defs.get? (String.ofList w) = none := Option.eq_none_iff_forall_ne_some.2 (h hw)
    unfold expandRun
    rw [if_pos hw, hnone, Option.getD_none]

theorem reads_expand (defs : Defs) (line : Text) :
    Reads (fun name v => defs.get? name = some v) line (expand defs line) := by
  -- by induction on the length, since a word is taken off as a whole
  generalize hn : line.length = n
  induction n using Nat.strongRecOn generalizing line with
  | ind n ih =>
    cases line with
    | nil => exact .nil
    | cons c rest =>
      cases hc : Text.isWordChar c with
      | false =>
        rw [expand_other defs hc]
        exact .other hc (ih rest.length (by rw [← hn]; exact Nat.lt_succ_self _) rest rfl)
      | true =>
        let w := (c :: rest).takeWhile Text.isWordChar
        let s := (c :: rest).dropWhile Text.isWordChar
        have hsplit : c :: rest = w ++ s := takeWhile_append_dropWhile.symm
        have hw : ∀ d ∈ w, Text.isWordChar d = true := all_takeWhile _
        have hs : NoWord s := head_dropWhile _
        have hne : w ≠ [] := by
          have hcons : w = c :: rest.takeWhile Text.isWordChar := takeWhile_cons_of_pos hc
          rw [hcons]
          exact cons_ne_nil _ _
        have hlen : s.length < n := by
          have hpos : 0 < w.length := length_pos_of_ne_nil hne
          have hsum : (c :: rest).length = w.length + s.length := by
            rw [← length_append, ← hsplit]
          omega
        have hrest := ih s.length hlen s rfl
        rw [hsplit, expand_word defs hne hw hs]
        by_cases hword : w.head?.any Text.isWordStart = true ∧ (defs.get? (String.ofList w)).isSome
        · obtain ⟨hstart, hsome⟩ := hword
          obtain ⟨v, hv⟩ := Option.isSome_iff_exists.1 hsome
          rw [expandRun_replaced hstart hv]
          exact .replaced hstart hw hs hv hrest
        · have hkept : w.head?.any Text.isWordStart = true →
              ∀ v, defs.get? (String.ofList w) ≠ some v := by
            intro hstart v hv
            exact hword ⟨hstart, by rw [hv]; rfl⟩
          rw [expandRun_kept hkept]
          exact .kept hne hw hs hkept hrest

/-- **Expansion gives the one text that a line reads as.** -/
theorem reads_iff {value : String → Text → Prop}
    (hvalue : ∀ name v, value name v ↔ defs.get? name = some v) :
    Reads value line t ↔ t = expand defs line := by
  constructor
  · intro h
    induction h with
    | nil => rfl
    | other hc _ ih => rw [expand_other defs hc, ih]
    | @replaced w v s t hstart hw hs hv _ ih =>
      have hne : w ≠ [] := by
        rintro rfl
        cases hstart
      rw [expand_word defs hne hw hs, expandRun_replaced hstart ((hvalue _ _).1 hv), ih]
    | @kept w s t hne hw hs hkept _ ih =>
      have hkept' : w.head?.any Text.isWordStart = true →
          ∀ v, defs.get? (String.ofList w) ≠ some v :=
        fun hstart v hv => hkept hstart v ((hvalue _ _).2 hv)
      rw [expand_word defs hne hw hs, expandRun_kept hkept', ih]
  · rintro rfl
    have hsame : value = fun name v => defs.get? name = some v :=
      funext fun name => funext fun v => propext (hvalue name v)
    rw [hsame]
    exact reads_expand defs line

/-! ### Definitions -/

/-- The text is made of the blanks that may stand inside a directive. -/
def Spaces (s : Text) : Prop := ∀ c ∈ s, isSpace c = true

/-- **The line defines a name**: `#define`, the name, and the value behind it, which is no list
of parameters. -/
inductive Defines : Text → String → Text → Prop
  | mk {indent gap sep name value : Text} : Spaces indent → Spaces gap → Spaces sep → sep ≠ [] →
      name.head?.any Text.isWordStart = true → (∀ c ∈ name, Text.isWordChar c = true) →
      NoWord value → value.head? ≠ some '(' →
      Defines (indent ++ '#' :: (gap ++ ("define".toList ++ (sep ++ (name ++ value)))))
        (String.ofList name) (Text.trim value)

theorem isSpace_of_isWordChar (h : Text.isWordChar c = true) : isSpace c = false := by
  have hspacing := isSpacing_of_isWordChar h
  simp only [isSpacing, Bool.or_eq_false_iff] at hspacing
  simp only [isSpace, hspacing.1.1.1, hspacing.1.1.2, Bool.or_false]

theorem isWordChar_of_isSpace (h : isSpace c = true) : Text.isWordChar c = false := by
  cases hc : Text.isWordChar c with
  | false => rfl
  | true => rw [isSpace_of_isWordChar hc] at h; cases h

theorem Defines.read (h : Defines line name raw) :
    ∃ text, directive? line = some text ∧ readDefine text = .ok (name, raw) := by
  obtain @⟨indent, gap, sep, name, value, hindent, hgap, hsep, hne, hstart, hname, hvalue, hparen⟩ := h
  have hhash : ∀ r : Text, ∀ c ∈ ('#' :: r).head?, isSpace c = false := by
    intro r c hc
    cases hc
    rfl
  have hkeyword : ∀ r : Text, ∀ c ∈ ("define".toList ++ r).head?, isSpace c = false := by
    intro r c hc
    cases hc
    rfl
  obtain ⟨c, name', rfl⟩ : ∃ c name', name = c :: name' := by
    cases name with
    | nil => cases hstart
    | cons c name' => exact ⟨c, name', rfl⟩
  obtain ⟨d, sep', rfl⟩ := exists_cons_of_ne_nil hne
  have hsepNoWord : NoWord (d :: sep' ++ (c :: name' ++ value)) :=
    noWord_cons (isWordChar_of_isSpace (hsep d (.head _)))
  have hnameHead : ∀ x ∈ (c :: name' ++ value).head?, isSpace x = false := by
    intro x hx
    cases hx
    exact isSpace_of_isWordChar (hname c (.head _))
  have hword : ∀ x ∈ "define".toList, Text.isWordChar x = true := by decide
  refine ⟨"define".toList ++ (d :: sep' ++ (c :: name' ++ value)), ?_, ?_⟩
  · unfold directive?
    rw [dropWhile_run hindent (hhash _)]
    simp only [dropWhile_run hgap (hkeyword _)]
  · have hlength : ¬ ((c :: name' ++ value).length = (d :: sep' ++ (c :: name' ++ value)).length ∨
        (c :: name' ++ value).head?.any Text.isWordStart = false) := by
      rintro (hlen | hhead)
      · have hsum : (d :: sep' ++ (c :: name' ++ value)).length =
            (d :: sep').length + (c :: name' ++ value).length := length_append
        rw [hsum, length_cons] at hlen
        omega
      · rw [cons_append, head?_cons] at hhead
        rw [head?_cons, hhead] at hstart
        cases hstart
    unfold readDefine
    simp only [takeWhile_run hword hsepNoWord, dropWhile_run hword hsepNoWord,
      dropWhile_run hsep hnameHead, takeWhile_run hname hvalue, dropWhile_run hname hvalue]
    rw [if_neg (not_not.2 rfl), if_neg hlength, if_neg hparen]

theorem defines_of_read (hline : directive? line = some text)
    (hread : readDefine text = .ok (name, raw)) : Defines line name raw := by
  unfold directive? at hline
  split at hline
  swap
  · cases hline
  next rest hrest =>
  cases hline
  unfold readDefine at hread
  simp only at hread
  -- the parts of the line, from its end to its start
  generalize htext : rest.dropWhile isSpace = text at hread
  generalize hafter : text.dropWhile Text.isWordChar = after at hread
  generalize hnamed : after.dropWhile isSpace = named at hread
  split at hread
  · cases hread
  next hword =>
  split at hread
  · cases hread
  next hhead =>
  split at hread
  · cases hread
  next hparen =>
  cases hread
  obtain ⟨hlen, hstart⟩ := not_or.1 hhead
  have hnamedEq : named = named.takeWhile Text.isWordChar ++ named.dropWhile Text.isWordChar :=
    takeWhile_append_dropWhile.symm
  have hafterEq : after = after.takeWhile isSpace ++ named := by
    rw [← hnamed, takeWhile_append_dropWhile]
  have htextEq : text = "define".toList ++ after := by
    rw [← hafter, ← not_not.1 hword, takeWhile_append_dropWhile]
  have hrestEq : rest = rest.takeWhile isSpace ++ text := by
    rw [← htext, takeWhile_append_dropWhile]
  have hlineEq : line = line.takeWhile isSpace ++ '#' :: rest := by
    rw [← hrest, takeWhile_append_dropWhile]
  have hsep : after.takeWhile isSpace ≠ [] := by
    intro hnil
    rw [hnil, nil_append] at hafterEq
    exact hlen (by rw [hafterEq])
  have hfirst : (named.takeWhile Text.isWordChar).head?.any Text.isWordStart = true := by
    have hany : named.head?.any Text.isWordStart = true := by simpa using hstart
    cases named with
    | nil => cases hany
    | cons c named =>
      have hc : Text.isWordStart c = true := hany
      rw [takeWhile_cons_of_pos (Text.isWordChar_of_isWordStart hc)]
      exact hc
  have hparts : line = line.takeWhile isSpace ++ '#' :: (rest.takeWhile isSpace ++
      ("define".toList ++ (after.takeWhile isSpace ++ (named.takeWhile Text.isWordChar ++
        named.dropWhile Text.isWordChar)))) := by
    rw [← hnamedEq, ← hafterEq, ← htextEq, ← hrestEq, ← hlineEq]
  rw [hparts]
  exact .mk (all_takeWhile _) (all_takeWhile _) (all_takeWhile _) hsep hfirst (all_takeWhile _)
    (head_dropWhile _) hparen

/-! ### What a name stands for -/

/-- **What a name stands for behind some lines**, the last of which comes first: the value of the
last definition of the name, read once with what the names stood for there. -/
def Means : List Text → String → Text → Prop
  | [], _, _ => False
  | line :: earlier, name, v =>
    (∃ raw, Defines line name raw ∧ Reads (Means earlier) raw v) ∨
      (∀ raw, ¬ Defines line name raw) ∧ Means earlier name v

/-- The macros are what the names stand for behind some lines. -/
def Holds (earlier : List Text) (defs : Defs) : Prop :=
  ∀ name v, Means earlier name v ↔ defs.get? name = some v

variable {earlier : List Text}

theorem holds_nil : Holds [] {} := by
  intro name v
  exact ⟨False.elim, fun h => by cases h⟩

theorem Holds.keep (h : Holds earlier defs) (hline : directive? line = none) :
    Holds (line :: earlier) defs := by
  intro name v
  have hnone : ∀ raw, ¬ Defines line name raw := by
    intro raw hdef
    obtain ⟨text, htext, -⟩ := hdef.read
    rw [hline] at htext
    cases htext
  rw [← h name v]
  constructor
  · rintro (⟨raw, hdef, -⟩ | ⟨-, hmeans⟩)
    · exact absurd hdef (hnone raw)
    · exact hmeans
  · intro hmeans
    exact .inr ⟨hnone, hmeans⟩

theorem Holds.define (h : Holds earlier defs) (hline : directive? line = some text)
    (hread : readDefine text = .ok (name, raw)) :
    Holds (line :: earlier) (defs.insert name (expand defs raw)) := by
  have hdef : ∀ other raw', Defines line other raw' ↔ other = name ∧ raw' = raw := by
    intro other raw'
    constructor
    · intro hdef
      obtain ⟨text', hline', hread'⟩ := hdef.read
      cases hline.symm.trans hline'
      cases hread.symm.trans hread'
      exact ⟨rfl, rfl⟩
    · rintro ⟨rfl, rfl⟩
      exact defines_of_read hline hread
  intro other v
  rw [Table.get?_insert]
  by_cases hother : other = name
  · rw [if_pos hother]
    constructor
    · rintro (⟨raw', hraw, hreads⟩ | ⟨hnone, -⟩)
      · obtain ⟨-, rfl⟩ := (hdef other raw').1 hraw
        rw [(reads_iff h).1 hreads]
      · exact absurd ((hdef other raw).2 ⟨hother, rfl⟩) (hnone raw)
    · intro hv
      refine .inl ⟨raw, (hdef other raw).2 ⟨hother, rfl⟩, (reads_iff h).2 ?_⟩
      exact (Option.some.inj hv).symm
  · rw [if_neg hother, ← h other v]
    constructor
    · rintro (⟨raw', hraw, -⟩ | ⟨-, hmeans⟩)
      · exact absurd ((hdef other raw').1 hraw).1 hother
      · exact hmeans
    · intro hmeans
      exact .inr ⟨fun raw' hraw => hother ((hdef other raw').1 hraw).1, hmeans⟩

/-! ### Line by line -/

/-- **What becomes of a line behind others**: nothing is left of a definition, and any other line
is the text that it reads as. -/
structure BecomesLine (earlier : List Text) (line result : Text) : Prop where
  definition : ∀ name raw, Defines line name raw → result = []
  text : (∀ name raw, ¬ Defines line name raw) →
    ∀ other, Reads (Means earlier) line other ↔ other = result

/-- **Each line is emptied or expanded with the definitions above it.** -/
theorem expandLines_line {offset : Nat} {lines out : List Text} (hdefs : Holds earlier defs)
    (h : expandLines defs offset lines = .ok out) :
    ∀ i line, lines[i]? = some line →
      ∃ result, out[i]? = some result ∧ BecomesLine ((lines.take i).reverse ++ earlier) line result := by
  induction lines generalizing defs offset out earlier with
  | nil => intro i line hi; cases hi
  | cons first rest ih =>
    rw [expandLines] at h
    -- the lines behind the first one see it as the last of the earlier ones
    have hlater : ∀ {defs' next others result}, Holds (first :: earlier) defs' →
        expandLines defs' next rest = .ok others → BecomesLine earlier first result →
        ∀ i line, (first :: rest)[i]? = some line → ∃ r, (result :: others)[i]? = some r ∧
          BecomesLine (((first :: rest).take i).reverse ++ earlier) line r := by
      intro defs' next others result hdefs' hothers hfirst i line hi
      cases i with
      | zero =>
        cases hi
        exact ⟨result, rfl, hfirst⟩
      | succ i =>
        obtain ⟨r, hr, hbecomes⟩ := ih hdefs' hothers i line hi
        refine ⟨r, hr, ?_⟩
        rw [take_succ_cons, reverse_cons, append_assoc]
        exact hbecomes
    split at h
    · next hline =>
      obtain ⟨others, hothers, h⟩ := Except.bind_eq_ok.1 h
      cases h
      refine hlater (hdefs.keep hline) hothers ⟨fun name raw hdef => ?_, fun _ other => reads_iff hdefs⟩
      obtain ⟨text, htext, -⟩ := hdef.read
      rw [hline] at htext
      cases htext
    · next text hline =>
      split at h
      · cases h
      · next name raw hread =>
        obtain ⟨others, hothers, h⟩ := Except.bind_eq_ok.1 h
        cases h
        refine hlater (hdefs.define hline hread) hothers ⟨fun _ _ _ => rfl, fun hnone => ?_⟩
        exact absurd (defines_of_read hline hread) (hnone name raw)

/-- **Preprocessing keeps the lines and treats each on its own.** The text has as many newlines as
the source. Line by line, nothing is left of the definitions in the source without its comments,
and every other line has its words replaced by what they stand for behind the lines above it. -/
theorem preprocess_lines {source text : String} (h : preprocess source = .ok text) :
    text.toList.count '\n' = source.toList.count '\n' ∧
      ∃ stripped, Comment.strip source.toList = .ok stripped ∧
        (Text.splitLines text.toList).length = (Text.splitLines stripped).length ∧
        ∀ i line, (Text.splitLines stripped)[i]? = some line →
          ∃ result, (Text.splitLines text.toList)[i]? = some result ∧
            BecomesLine ((Text.splitLines stripped).take i).reverse line result := by
  have hcount := length_splitLines_preprocess h
  rw [Text.length_splitLines, Text.length_splitLines] at hcount
  refine ⟨by omega, ?_⟩
  obtain ⟨stripped, hstrip, hlines, hlength⟩ := preprocess_eq_ok h
  refine ⟨stripped, hstrip, hlength, fun i line hi => ?_⟩
  have hline := expandLines_line holds_nil hlines i line hi
  rw [append_nil] at hline
  exact hline

/-- Definitions that use each other, one of them made again, around a comment of two lines. -/
def layeredText : String :=
  "#define N 2\n # define M (N * 1e5) \nM /* N\n */ + M1 N;\n#define N 3\nN + 2N M"

/-- The last line reads `N` as it was defined last and `M` as it was defined first. -/
theorem preprocess_lines_layeredText : ∃ stripped,
    Comment.strip layeredText.toList = .ok stripped ∧
      preprocess layeredText = .ok "\n\n(2 * 1e5) \n  + M1 2;\n\n3 + 2N (2 * 1e5)" ∧
      Reads (Means ((Text.splitLines stripped).take 5).reverse) "N + 2N M".toList
        "3 + 2N (2 * 1e5)".toList := by
  have hpreprocess : preprocess layeredText =
      .ok "\n\n(2 * 1e5) \n  + M1 2;\n\n3 + 2N (2 * 1e5)" := by decide +kernel
  obtain ⟨-, stripped, hstrip, -, hlines⟩ := preprocess_lines hpreprocess
  have hstripped : Comment.strip layeredText.toList =
      .ok "#define N 2\n # define M (N * 1e5) \nM \n  + M1 N;\n#define N 3\nN + 2N M".toList := by
    decide +kernel
  cases hstripped.symm.trans hstrip
  obtain ⟨result, hresult, hbecomes⟩ := hlines 5 "N + 2N M".toList (by decide +kernel)
  have hnone : ∀ name raw, ¬ Defines "N + 2N M".toList name raw := by
    intro name raw hdef
    obtain ⟨text, htext, -⟩ := hdef.read
    have hdirective : directive? "N + 2N M".toList = none := by decide
    rw [hdirective] at htext
    cases htext
  have hlast : (Text.splitLines
      "\n\n(2 * 1e5) \n  + M1 2;\n\n3 + 2N (2 * 1e5)".toList)[5]? = some "3 + 2N (2 * 1e5)".toList := by
    decide +kernel
  refine ⟨_, hstrip, hpreprocess, (hbecomes.text hnone _).2 ?_⟩
  exact Option.some.inj (hlast.symm.trans hresult)

end Macro

end VecLang
