import VecLang.Proofs.Source.Preprocess

/-!
# Macros and number literals

A run of word characters that starts with a digit is no word, so no macro is looked up in
a literal such as `1e5` or `1.5f`. Behind a point the run starts anew. In `1.e5` and `1.f`
it starts with a letter, and there it is taken for a word.

* `number?_spells`: how the literals are spelled that the parser reads.
* `Wordless.kept`: a text in which no word starts is kept, whatever stands behind it.
* `Spells.kept_iff`: of a literal only the letters directly behind its point can change.
* `literal_kept_iff`: **a literal is kept by all macros exactly if a digit or nothing stands
  behind its point.**
-/

namespace VecLang

open List

/-! ### The spelling of literals -/

namespace Grammar

variable {c d : Cursor} {lit r s : Text}

def IsDigits (s : Text) : Prop := ∀ ch ∈ s, ch.isDigit = true

/-- The suffix that a literal with a point or an exponent may have. -/
def IsSuffix (f : Text) : Prop := f = [] ∨ f = ['f']

inductive IsExponent : Text → Prop
  | mk {e : Char} {sign digits : Text} : e = 'e' ∨ e = 'E' →
      sign = [] ∨ sign = ['+'] ∨ sign = ['-'] → digits ≠ [] → IsDigits digits →
      IsExponent (e :: (sign ++ digits))

/-- **The spelling of a number literal.** -/
inductive Spells : Text → Prop
  | integer {digits : Text} : digits ≠ [] → IsDigits digits → Spells digits
  | point {whole frac exp f : Text} : IsDigits whole → IsDigits frac → (whole = [] → frac ≠ []) →
      exp = [] ∨ IsExponent exp → IsSuffix f → Spells (whole ++ '.' :: (frac ++ (exp ++ f)))
  | exponent {whole exp f : Text} : whole ≠ [] → IsDigits whole → IsExponent exp → IsSuffix f →
      Spells (whole ++ (exp ++ f))

theorem isDigits_takeWhile (s : Text) : IsDigits (s.takeWhile Char.isDigit) :=
  Macro.all_takeWhile s

theorem digits_append (s : Text) : s.takeWhile Char.isDigit ++ s.dropWhile Char.isDigit = s :=
  takeWhile_append_dropWhile

theorem exponent?_spells {n : Int} (h : exponent? s = some (n, r)) :
    ∃ exp, IsExponent exp ∧ s = exp ++ r := by
  -- the digits behind the sign, whatever the sign is
  have hdigits : ∀ (neg : Bool) (body : Text),
      (if (body.takeWhile Char.isDigit).isEmpty = true then none
        else some (Decimal.signed neg (Decimal.digitsValue (body.takeWhile Char.isDigit)),
          body.dropWhile Char.isDigit)) = some (n, r) →
      ∃ digits, digits ≠ [] ∧ IsDigits digits ∧ body = digits ++ r := by
    intro neg body h
    split at h
    · cases h
    next hne =>
    cases h
    exact ⟨_, fun he => hne (isEmpty_iff.2 he), isDigits_takeWhile body,
      (digits_append body).symm⟩
  cases s with
  | nil => cases h
  | cons e rest =>
    simp only [exponent?] at h
    split at h
    swap
    · cases h
    next he =>
    simp only [Bool.or_eq_true, beq_iff_eq] at he
    split at h
    · obtain ⟨digits, hne, hall, rfl⟩ := hdigits _ _ h
      exact ⟨_, .mk he (.inr (.inr rfl)) hne hall, rfl⟩
    · obtain ⟨digits, hne, hall, rfl⟩ := hdigits _ _ h
      exact ⟨_, .mk he (.inr (.inl rfl)) hne hall, rfl⟩
    · obtain ⟨digits, hne, hall, rfl⟩ := hdigits _ _ h
      exact ⟨_, .mk he (.inl rfl) hne hall, rfl⟩

theorem dropSuffix_spells (s : Text) : ∃ f, IsSuffix f ∧ s = f ++ dropSuffix s := by
  unfold dropSuffix
  split
  · exact ⟨_, .inr rfl, rfl⟩
  · exact ⟨_, .inl rfl, rfl⟩

/-- What is read as a number with a point or an exponent is spelled as one, with its suffix. -/
theorem decimals?_spells {parts : Decimals} (h : decimals? s = some (parts, r)) :
    ∃ lit, Spells lit ∧ s = lit ++ dropSuffix r := by
  obtain ⟨f, hf, hr⟩ := dropSuffix_spells r
  have hwhole := isDigits_takeWhile s
  have hsplit := digits_append s
  unfold decimals? at h
  simp only at h
  split at h
  · -- with a point
    next rest hrest =>
    split at h
    · cases h
    next hsome =>
    have hfrac := isDigits_takeWhile rest
    have hnone : s.takeWhile Char.isDigit = [] → rest.takeWhile Char.isDigit ≠ [] := by
      intro hw hf
      rw [hw, hf] at hsome
      exact hsome rfl
    obtain ⟨exp, hexp, hafter⟩ : ∃ exp, (exp = [] ∨ IsExponent exp) ∧
        rest.dropWhile Char.isDigit = exp ++ r := by
      split at h
      · next n after hexp =>
        cases h
        obtain ⟨exp, hspell, heq⟩ := exponent?_spells hexp
        exact ⟨exp, .inr hspell, heq⟩
      · cases h
        exact ⟨[], .inl rfl, rfl⟩
    refine ⟨_, .point hwhole hfrac hnone hexp hf, ?_⟩
    rw [append_assoc, cons_append, append_assoc, append_assoc, ← hr, ← hafter,
      digits_append rest, ← hrest, hsplit]
  · -- without one
    split at h
    · cases h
    next hne =>
    obtain ⟨⟨n, after⟩, hexp, heq⟩ := Option.map_eq_some_iff.1 h
    cases heq
    obtain ⟨exp, hspell, hafter⟩ := exponent?_spells hexp
    have hwhole' : s.takeWhile Char.isDigit ≠ [] := fun he => hne (isEmpty_iff.2 he)
    refine ⟨_, .exponent hwhole' hwhole hspell hf, ?_⟩
    rw [append_assoc, append_assoc, ← hr, ← hafter, hsplit]

/-- **A literal that is read is spelled as one**, and the blanks behind it are skipped. -/
theorem number?_spells {v : Value} (h : number? c = .ok (some (v, d))) :
    ∃ lit r, Spells lit ∧ c.rest = lit ++ r ∧ d.rest = skip r := by
  unfold number? at h
  split at h
  · next parts after hdec =>
    simp only at h
    split at h
    swap
    · cases h
    cases h
    obtain ⟨lit, hspell, hrest⟩ := decimals?_spells hdec
    refine ⟨lit, dropSuffix after, hspell, hrest, ?_⟩
    have hlen : c.rest.length - (dropSuffix after).length = lit.length := by
      rw [hrest, length_append]
      omega
    rw [Cursor.rest_skipBlanks, hlen, Cursor.rest_advance hrest]
  · split at h
    swap
    · cases h
    next digits hint =>
    cases h
    unfold integer? at hint
    simp only at hint
    split at hint
    · cases hint
    next hsome =>
    cases hint
    have hne : c.rest.takeWhile Char.isDigit ≠ [] := by
      intro he
      rw [he] at hsome
      exact hsome rfl
    refine ⟨_, c.rest.dropWhile Char.isDigit, .integer hne (isDigits_takeWhile _),
      (digits_append c.rest).symm, ?_⟩
    rw [Cursor.rest_skipBlanks, Cursor.rest_advance (digits_append c.rest).symm]

theorem Spells.isSpacing (h : Spells lit) : ∀ ch ∈ lit, isSpacing ch = false := by
  have hdigits : ∀ {s : Text}, IsDigits s → ∀ ch ∈ s, Grammar.isSpacing ch = false :=
    fun h ch hch => isSpacing_of_isWordChar (isWordChar_of_isDigit (h ch hch))
  have hsuffix : ∀ {f : Text}, IsSuffix f → ∀ ch ∈ f, Grammar.isSpacing ch = false := by
    rintro f (rfl | rfl)
    · exact fun _ hch => by cases hch
    · exact forall_mem_singleton.2 rfl
  have hexponent : ∀ {exp : Text}, IsExponent exp → ∀ ch ∈ exp, Grammar.isSpacing ch = false := by
    rintro exp ⟨he, hsign, -, hall⟩
    refine forall_mem_cons.2 ⟨?_, forall_mem_append.2 ⟨?_, hdigits hall⟩⟩
    · rcases he with rfl | rfl <;> rfl
    · rcases hsign with rfl | rfl | rfl <;> decide
  cases h with
  | integer _ hall => exact hdigits hall
  | point hwhole hfrac _ hexp hf =>
    refine forall_mem_append.2 ⟨hdigits hwhole, forall_mem_cons.2 ⟨rfl,
      forall_mem_append.2 ⟨hdigits hfrac, forall_mem_append.2 ⟨?_, hsuffix hf⟩⟩⟩⟩
    rcases hexp with rfl | hexp
    · exact fun _ hch => by cases hch
    · exact hexponent hexp
  | exponent _ hwhole hexp hf =>
    exact forall_mem_append.2 ⟨hdigits hwhole,
      forall_mem_append.2 ⟨hexponent hexp, hsuffix hf⟩⟩

/-- **The text is the literal that the parser reads in front of the rest.** It reads the blanks
behind a literal along, and these do not belong to it. -/
structure IsLiteral (lit rest : Text) : Prop where
  read : ∃ v d, number? { rest := lit ++ rest, offset := 0 } = .ok (some (v, d)) ∧
    d.rest = skip rest
  closed : ∀ ch ∈ lit.getLast?, isSpacing ch = false

theorem IsLiteral.spells (h : IsLiteral lit r) : Spells lit := by
  obtain ⟨v, d, hread, hd⟩ := h.read
  obtain ⟨token, after, hspell, hsplit, hafter⟩ := number?_spells hread
  have hskip : skip r = skip after := hd.symm.trans hafter
  rcases append_eq_append_iff.1 hsplit with ⟨more, htoken, hr⟩ | ⟨more, hlit, hr⟩
  · -- more was read: its first character is no blank, so that the rest begins with it
    cases more with
    | nil =>
      rw [append_nil] at htoken
      exact htoken ▸ hspell
    | cons ch more =>
      have hch : isSpacing ch = false := hspell.isSpacing ch (by rw [htoken]; simp)
      rw [hr, cons_append, skip_cons hch] at hskip
      have hlen := congrArg length hskip
      rw [length_cons, length_append] at hlen
      have hle := length_skip_le after
      omega
  · -- less was read: what is left of the text is blank, and its last character is not
    cases hmore : more.getLast? with
    | none =>
      rw [getLast?_eq_none_iff.1 hmore, append_nil] at hlit
      exact hlit ▸ hspell
    | some ch =>
      obtain ⟨init, rfl⟩ := getLast?_eq_some_iff.1 hmore
      have hch : isSpacing ch = false := by
        refine h.closed ch ?_
        rw [hlit, ← append_assoc]
        exact getLast?_concat
      have hlong : r.length < (skip after).length := by
        rw [hr, append_assoc, singleton_append]
        unfold skip
        rw [dropWhile_append]
        split
        · rw [dropWhile_cons_of_neg (by simp [hch])]
          exact Nat.lt_succ_self _
        · rw [length_append, length_cons]
          omega
      have hle := length_skip_le r
      rw [hskip] at hle
      omega

end Grammar

/-! ### Texts without words -/

namespace Macro

open Grammar

variable {defs : Defs} {lit pre post s w : Text}

/-- **No word starts in the text**: each run of word characters starts with a digit. -/
inductive Wordless : Text → Prop
  | nil : Wordless []
  | other {c : Char} {s : Text} : Text.isWordChar c = false → Wordless s → Wordless (c :: s)
  | run {c : Char} {w s : Text} : c.isDigit = true → (∀ ch ∈ w, Text.isWordChar ch = true) →
      NoWord s → Wordless s → Wordless (c :: w ++ s)

theorem expand_number (defs : Defs) {c : Char} (hc : c.isDigit = true)
    (hw : ∀ ch ∈ w, Text.isWordChar ch = true) (hs : NoWord s) :
    expand defs (c :: w ++ s) = c :: w ++ expand defs s := by
  have hall : ∀ ch ∈ c :: w, Text.isWordChar ch = true :=
    forall_mem_cons.2 ⟨isWordChar_of_isDigit hc, hw⟩
  have hstart : (c :: w).head?.any Text.isWordStart = false := isWordStart_eq_false_of_isDigit hc
  rw [expand_word defs (cons_ne_nil _ _) hall hs, expandRun_other defs hstart]

/-- **A text without words is kept**, whatever stands behind it. -/
theorem Wordless.kept (h : Wordless s) (defs : Defs) (post : Text) :
    s <+: expand defs (s ++ post) := by
  induction h with
  | nil => exact nil_prefix
  | other hc _ ih =>
    rw [cons_append, expand_other defs hc]
    exact cons_prefix_cons.2 ⟨rfl, ih⟩
  | @run c w s hc hw hs _ ih =>
    cases s with
    | cons x s =>
      have hnext : NoWord (x :: s ++ post) := noWord_cons (hs x rfl)
      rw [append_assoc, expand_number defs hc hw hnext]
      exact prefix_append_right_inj _ |>.2 ih
    | nil =>
      -- the run may go on behind the text, and still starts with the digit
      have hrun : post = post.takeWhile Text.isWordChar ++ post.dropWhile Text.isWordChar :=
        takeWhile_append_dropWhile.symm
      have hall : ∀ ch ∈ w ++ post.takeWhile Text.isWordChar, Text.isWordChar ch = true :=
        forall_mem_append.2 ⟨hw, all_takeWhile post⟩
      have hexpand := expand_number defs hc hall (head_dropWhile post)
      rw [append_nil, hrun, ← append_assoc, cons_append, hexpand]
      exact ⟨post.takeWhile Text.isWordChar ++ expand defs (post.dropWhile Text.isWordChar), by simp⟩

theorem expand_append (defs : Defs) (hpre : ∀ ch ∈ pre.getLast?, Text.isWordChar ch = false)
    (s : Text) : expand defs (pre ++ s) = expand defs pre ++ expand defs s := by
  -- by induction on the length, since a word is taken off as a whole
  generalize hn : pre.length = n
  induction n using Nat.strongRecOn generalizing pre with
  | ind n ih =>
    cases pre with
    | nil => rfl
    | cons c rest =>
      have hlast : ∀ {w r : Text}, c :: rest = w ++ r → r ≠ [] →
          ∀ ch ∈ r.getLast?, Text.isWordChar ch = false := by
        intro w r hsplit hr ch hch
        refine hpre ch ?_
        rw [hsplit, getLast?_append, Option.mem_def.1 hch]
        rfl
      cases hc : Text.isWordChar c with
      | false =>
        rw [cons_append, expand_other defs hc, expand_other defs hc, cons_append]
        congr 1
        by_cases hrest : rest = []
        · rw [hrest]
          rfl
        · refine ih rest.length ?_ (hlast (w := [c]) rfl hrest) rfl
          rw [← hn]
          exact Nat.lt_succ_self _
      | true =>
        let w := (c :: rest).takeWhile Text.isWordChar
        let r := (c :: rest).dropWhile Text.isWordChar
        have hsplit : c :: rest = w ++ r := takeWhile_append_dropWhile.symm
        have hw : ∀ ch ∈ w, Text.isWordChar ch = true := all_takeWhile _
        have hr : NoWord r := head_dropWhile _
        have hcons : w = c :: rest.takeWhile Text.isWordChar := takeWhile_cons_of_pos hc
        have hne : w ≠ [] := hcons ▸ cons_ne_nil _ _
        -- the text does not end in the word, so something stands behind it
        have hrne : r ≠ [] := by
          intro he
          rw [he, append_nil] at hsplit
          obtain ⟨ch, hch⟩ := Option.isSome_iff_exists.1 (getLast?_isSome.2 hne)
          have hword := hw ch (mem_of_mem_getLast? hch)
          rw [hpre ch (by rw [hsplit]; exact hch)] at hword
          cases hword
        have hlen : r.length < n := by
          have hpos : 0 < w.length := length_pos_of_ne_nil hne
          have hsum : (c :: rest).length = w.length + r.length := by
            rw [← length_append, ← hsplit]
          omega
        have hnext : NoWord (r ++ s) := by
          obtain ⟨x, r', hx⟩ := exists_cons_of_ne_nil hrne
          rw [hx] at hr ⊢
          exact noWord_cons (hr x rfl)
        rw [hsplit, append_assoc, expand_word defs hne hw hnext, expand_word defs hne hw hr,
          ih r.length hlen (hlast hsplit hrne) rfl, append_assoc]

/-! ### Literals -/

/-- What stands in a literal behind its point, if that is no digit. -/
def afterPoint (lit : Text) : Text :=
  match lit.dropWhile Char.isDigit with
  | '.' :: rest => if rest.head?.any Char.isDigit then [] else rest
  | _ => []

/-- An exponent with a suffix goes on with the run in front of it, and only a sign ends that. -/
theorem exponent_runs {exp f : Text} (hexp : exp = [] ∨ IsExponent exp) (hf : IsSuffix f) :
    ∃ w s, exp ++ f = w ++ s ∧ (∀ ch ∈ w, Text.isWordChar ch = true) ∧ NoWord s ∧ Wordless s := by
  have hf' : ∀ ch ∈ f, Text.isWordChar ch = true := by
    rcases hf with rfl | rfl <;> decide
  have hplain : ∀ {w : Text}, (∀ ch ∈ w, Text.isWordChar ch = true) → ∃ w' s, w = w' ++ s ∧
      (∀ ch ∈ w', Text.isWordChar ch = true) ∧ NoWord s ∧ Wordless s :=
    fun {w} hw => ⟨w, [], (append_nil w).symm, hw, noWord_nil, .nil⟩
  rcases hexp with rfl | @⟨e, sign, digits, he, hsign, hne, hall⟩
  · exact hplain hf'
  have he' : Text.isWordChar e = true := by rcases he with rfl | rfl <;> rfl
  have hword : ∀ ch ∈ digits ++ f, Text.isWordChar ch = true :=
    forall_mem_append.2 ⟨fun ch hch => isWordChar_of_isDigit (hall ch hch), hf'⟩
  have hsigned : ∀ {c : Char}, Text.isWordChar c = false → ∃ w s,
      e :: ([c] ++ digits) ++ f = w ++ s ∧ (∀ ch ∈ w, Text.isWordChar ch = true) ∧ NoWord s ∧
        Wordless s := by
    intro c hc
    obtain ⟨d, digits, rfl⟩ := exists_cons_of_ne_nil hne
    have hrun : Wordless (d :: (digits ++ f) ++ []) :=
      .run (hall d (.head _)) (forall_mem_cons.1 hword).2 noWord_nil .nil
    refine ⟨[e], c :: (d :: (digits ++ f)), by simp, forall_mem_singleton.2 he',
      noWord_cons hc, .other hc ?_⟩
    rwa [append_nil] at hrun
  rcases hsign with rfl | rfl | rfl
  · exact hplain (w := e :: (digits ++ f)) (forall_mem_cons.2 ⟨he', hword⟩)
  · exact hsigned rfl
  · exact hsigned rfl

theorem wordless_digits {digits exp f : Text} (hne : digits ≠ []) (hdigits : IsDigits digits)
    (hexp : exp = [] ∨ IsExponent exp) (hf : IsSuffix f) : Wordless (digits ++ (exp ++ f)) := by
  obtain ⟨w, s, hsplit, hw, hs, hrest⟩ := exponent_runs hexp hf
  obtain ⟨c, digits, rfl⟩ := exists_cons_of_ne_nil hne
  obtain ⟨hc, hdigits⟩ := forall_mem_cons.1 hdigits
  have hrun : ∀ ch ∈ digits ++ w, Text.isWordChar ch = true :=
    forall_mem_append.2 ⟨fun ch hch => isWordChar_of_isDigit (hdigits ch hch), hw⟩
  rw [hsplit, ← append_assoc]
  exact .run hc hrun hs hrest

theorem wordless_point {whole rest : Text} (hwhole : IsDigits whole) (h : Wordless rest) :
    Wordless (whole ++ '.' :: rest) := by
  have hpoint : Wordless ('.' :: rest) := .other rfl h
  cases whole with
  | nil => exact hpoint
  | cons c whole =>
    obtain ⟨hc, hwhole⟩ := forall_mem_cons.1 hwhole
    exact .run hc (fun ch hch => isWordChar_of_isDigit (hwhole ch hch)) (noWord_cons rfl) hpoint

theorem afterPoint_point {whole : Text} (hwhole : IsDigits whole) (rest : Text) :
    afterPoint (whole ++ '.' :: rest) = if rest.head?.any Char.isDigit then [] else rest := by
  have hpoint : ∀ ch ∈ ('.' :: rest).head?, ch.isDigit = false := by
    intro ch hch
    cases hch
    rfl
  unfold afterPoint
  rw [dropWhile_run hwhole hpoint]
  rfl

theorem afterPoint_of_head {digits rest : Text} (hdigits : IsDigits digits)
    (hrest : ∀ ch ∈ rest.head?, ch.isDigit = false ∧ ch ≠ '.') :
    afterPoint (digits ++ rest) = [] := by
  unfold afterPoint
  rw [dropWhile_run hdigits fun ch hch => (hrest ch hch).1]
  split
  · exact absurd rfl (hrest '.' rfl).2
  · rfl

theorem head_exponent {exp f : Text} (hexp : exp = [] ∨ IsExponent exp) (hf : IsSuffix f) :
    ∀ ch ∈ (exp ++ f).head?, Text.isWordStart ch = true ∧ ch.isDigit = false ∧ ch ≠ '.' := by
  rcases hexp with rfl | ⟨he, -, -, -⟩
  · rcases hf with rfl | rfl <;> decide
  · intro ch hch
    cases hch
    rcases he with rfl | rfl <;> decide

/-- The literal has a letter directly behind its point: after digits and the point, a word starts
in it that ends with it or at a sign. -/
structure Pointed (lit : Text) : Prop where
  split : ∃ c whole, c.isDigit = true ∧ (∀ ch ∈ whole, Text.isWordChar ch = true) ∧
    lit = c :: whole ++ '.' :: afterPoint lit
  start : (afterPoint lit).head?.any Text.isWordStart = true
  word : ∃ w s, afterPoint lit = w ++ s ∧ (∀ ch ∈ w, Text.isWordChar ch = true) ∧ NoWord s ∧
    Wordless s

/-- **No word starts in a literal**, except for one directly behind its point. -/
theorem wordless_or_pointed (h : Spells lit) :
    Wordless lit ∧ afterPoint lit = [] ∨ Pointed lit := by
  cases h with
  | integer hne hdigits =>
    have hwordless : Wordless (lit ++ ([] ++ [])) :=
      wordless_digits hne hdigits (.inl rfl) (.inl rfl)
    have hafter : afterPoint (lit ++ []) = [] :=
      afterPoint_of_head hdigits fun _ hch => by cases hch
    rw [append_nil, append_nil] at hwordless
    rw [append_nil] at hafter
    exact .inl ⟨hwordless, hafter⟩
  | exponent hne hwhole hexp hf =>
    exact .inl ⟨wordless_digits hne hwhole (.inr hexp) hf,
      afterPoint_of_head hwhole fun ch hch => (head_exponent (.inr hexp) hf ch hch).2⟩
  | @point whole frac exp f hwhole hfrac hnone hexp hf =>
    cases frac with
    | cons c frac =>
      have hc : c.isDigit = true := hfrac c (.head _)
      refine .inl ⟨wordless_point hwhole (wordless_digits (cons_ne_nil _ _) hfrac hexp hf), ?_⟩
      rw [afterPoint_point hwhole, cons_append, head?_cons, Option.any_some, if_pos hc]
    | nil =>
      rw [nil_append]
      have hafter : afterPoint (whole ++ '.' :: (exp ++ f)) = exp ++ f := by
        rw [afterPoint_point hwhole, if_neg]
        intro hdigit
        obtain ⟨ch, hch, hdigit⟩ := (Option.any_eq_true _ _).1 hdigit
        rw [(head_exponent hexp hf ch hch).2.1] at hdigit
        cases hdigit
      cases hhead : (exp ++ f).head? with
      | none =>
        rw [head?_eq_none_iff] at hhead
        rw [hhead] at hafter ⊢
        exact .inl ⟨wordless_point hwhole .nil, hafter⟩
      | some ch =>
        obtain ⟨c, whole, rfl⟩ := exists_cons_of_ne_nil fun he => hnone he rfl
        obtain ⟨hc, hrest⟩ := forall_mem_cons.1 hwhole
        refine .inr ⟨⟨c, whole, hc, fun x hx => isWordChar_of_isDigit (hrest x hx), ?_⟩, ?_, ?_⟩
        · rw [hafter]
        · rw [hafter, hhead]
          exact (head_exponent hexp hf ch hhead).1
        · rw [hafter]
          exact exponent_runs hexp hf

/-! ### Lines with literals -/

/-- The literal stands unchanged behind what its line reads as in front of it. -/
def Keeps (defs : Defs) (pre lit post : Text) : Prop :=
  ∃ after, expand defs (pre ++ lit ++ post) = expand defs pre ++ lit ++ after

theorem keeps_iff_behind (hpre : ∀ ch ∈ pre.getLast?, Text.isWordChar ch = false) :
    Keeps defs pre lit post ↔ lit <+: expand defs (lit ++ post) := by
  unfold Keeps
  rw [append_assoc, expand_append defs hpre]
  constructor
  · rintro ⟨after, h⟩
    rw [append_assoc, append_cancel_left_eq] at h
    exact ⟨after, h.symm⟩
  · rintro ⟨after, h⟩
    exact ⟨after, by rw [← h, append_assoc]⟩

/-- **Of a literal only what stands directly behind its point can change.** -/
theorem kept_iff_of_spells (h : Spells lit) (defs : Defs) (post : Text) :
    lit <+: expand defs (lit ++ post) ↔
      afterPoint lit <+: expand defs (afterPoint lit ++ post) := by
  rcases wordless_or_pointed h with ⟨hwordless, hnil⟩ | hpointed
  · rw [hnil]
    exact iff_of_true (hwordless.kept defs post) nil_prefix
  · obtain ⟨c, whole, hc, hwhole, hlit⟩ := hpointed.split
    -- the run behind the point is expanded on its own
    have hexpand : expand defs (lit ++ post) =
        c :: whole ++ '.' :: expand defs (afterPoint lit ++ post) := by
      have hnumber := expand_number defs hc hwhole (s := '.' :: (afterPoint lit ++ post))
        (noWord_cons rfl)
      rw [expand_other defs rfl] at hnumber
      rw [← hnumber, ← cons_append, ← append_assoc, ← hlit]
    rw [hexpand]
    nth_rewrite 1 [hlit]
    rw [prefix_append_right_inj, cons_prefix_cons, and_iff_right rfl]

/-- The word directly behind the point of a literal, which may go on behind the literal. -/
def pointWord (lit post : Text) : Text := (afterPoint lit ++ post).takeWhile Text.isWordChar

theorem pointWord_start (h : Pointed lit) : (pointWord lit post).head?.any Text.isWordStart = true := by
  have hstart := h.start
  unfold pointWord
  cases hafter : afterPoint lit with
  | nil =>
    rw [hafter] at hstart
    cases hstart
  | cons ch rest =>
    rw [hafter, head?_cons, Option.any_some] at hstart
    rw [cons_append, takeWhile_cons_of_pos (Text.isWordChar_of_isWordStart hstart)]
    exact hstart

theorem expand_pointWord (defs : Defs) (h : Pointed lit) (post : Text) :
    expand defs (afterPoint lit ++ post) = expandRun defs (pointWord lit post) ++
      expand defs ((afterPoint lit ++ post).dropWhile Text.isWordChar) := by
  have hne : pointWord lit post ≠ [] := by
    intro he
    have hstart : (pointWord lit post).head?.any Text.isWordStart = true := pointWord_start h
    rw [he] at hstart
    cases hstart
  rw [← expand_word defs hne (all_takeWhile _) (head_dropWhile _)]
  unfold pointWord
  rw [takeWhile_append_dropWhile]

theorem kept_of_pointWord (h : Pointed lit)
    (hnone : defs.get? (String.ofList (pointWord lit post)) = none) :
    afterPoint lit <+: expand defs (afterPoint lit ++ post) := by
  obtain ⟨w, s, hsplit, hw, hs, hrest⟩ := h.word
  have hkept : expandRun defs (pointWord lit post) = pointWord lit post :=
    expandRun_kept fun _ v hv => by rw [hnone] at hv; cases hv
  rw [expand_pointWord defs h, hkept]
  unfold pointWord
  rw [hsplit, append_assoc]
  cases s with
  | nil =>
    -- the word ends with the literal or behind it
    rw [append_nil, nil_append, takeWhile_append_of_pos hw, append_assoc]
    exact prefix_append _ _
  | cons c s =>
    have hnext : NoWord (c :: s ++ post) := noWord_cons (hs c rfl)
    rw [takeWhile_run hw hnext, dropWhile_run hw hnext]
    exact (prefix_append_right_inj w).2 (hrest.kept defs post)

/-- A macro for the word behind its point changes a literal if its value starts with a digit. -/
theorem not_kept_of_pointWord (h : Pointed lit) {d : Char} {v : Text} (hd : d.isDigit = true)
    (hdefs : defs.get? (String.ofList (pointWord lit post)) = some (d :: v)) :
    ¬ afterPoint lit <+: expand defs (afterPoint lit ++ post) := by
  rw [expand_pointWord defs h, expandRun_replaced (pointWord_start h) hdefs]
  have hstart := h.start
  cases hafter : afterPoint lit with
  | nil =>
    rw [hafter] at hstart
    cases hstart
  | cons ch rest =>
    rw [hafter, head?_cons, Option.any_some] at hstart
    rintro hfront
    rw [cons_append, cons_prefix_cons] at hfront
    rw [hfront.1, isWordStart_eq_false_of_isDigit hd] at hstart
    cases hstart

/-- **Which number literals macro expansion keeps.** For every literal of a line, read as the
parser reads it, in front of which no word goes on:

* all macros keep it exactly if its point, if it has one, is followed by a digit or ends it;
* with given macros it is kept exactly if the expansion of the letters behind its point, and of
  what follows them, still starts with these letters;
* so it is kept if the word behind its point is no macro. -/
theorem literal_kept_iff {pre lit post : Text}
    (hpre : ∀ ch ∈ pre.getLast?, Text.isWordChar ch = false) (hlit : IsLiteral lit post) :
    ((∀ defs, Keeps defs pre lit post) ↔ afterPoint lit = []) ∧
      ∀ defs, (Keeps defs pre lit post ↔
          afterPoint lit <+: expand defs (afterPoint lit ++ post)) ∧
        (defs.get? (String.ofList (pointWord lit post)) = none → Keeps defs pre lit post) := by
  have hspells := hlit.spells
  have hkeeps : ∀ defs, Keeps defs pre lit post ↔
      afterPoint lit <+: expand defs (afterPoint lit ++ post) :=
    fun defs => (keeps_iff_behind hpre).trans (kept_iff_of_spells hspells defs post)
  refine ⟨⟨fun hall => ?_, fun hnil defs => ?_⟩, fun defs => ⟨hkeeps defs, fun hnone => ?_⟩⟩
  · -- a macro for the word behind the point would change the literal
    rcases wordless_or_pointed hspells with ⟨-, hnil⟩ | hpointed
    · exact hnil
    · let defs : Defs := ({} : Defs).insert (String.ofList (pointWord lit post)) ['0']
      have hget : defs.get? (String.ofList (pointWord lit post)) = some ['0'] := by
        rw [Table.get?_insert, if_pos rfl]
      exact absurd ((hkeeps defs).1 (hall defs)) (not_kept_of_pointWord hpointed rfl hget)
  · rw [hkeeps, hnil]
    exact nil_prefix
  · rw [hkeeps]
    rcases wordless_or_pointed hspells with ⟨-, hnil⟩ | hpointed
    · rw [hnil]
      exact nil_prefix
    · exact kept_of_pointWord hpointed hnone

/-- No macro changes `1.5e-3f`, not even ones for `e` and `f`. -/
theorem literal_kept_exponent :
    IsLiteral "1.5e-3f".toList "*e;".toList ∧
      ∀ defs, Keeps defs "x = ".toList "1.5e-3f".toList "*e;".toList := by
  have hlit : IsLiteral "1.5e-3f".toList "*e;".toList :=
    ⟨⟨_, _, rfl, rfl⟩, by decide⟩
  exact ⟨hlit, (literal_kept_iff (by decide) hlit).1.2 (by decide)⟩

/-- **A macro `e5` turns `1.e5` into another literal.** -/
theorem literal_altered :
    IsLiteral "1.e5".toList ";".toList ∧
      expand (({} : Defs).insert "e5" "7".toList) "x = 1.e5;".toList = "x = 1.7;".toList ∧
      ¬ Keeps (({} : Defs).insert "e5" "7".toList) "x = ".toList "1.e5".toList ";".toList := by
  have hlit : IsLiteral "1.e5".toList ";".toList := ⟨⟨_, _, rfl, rfl⟩, by decide⟩
  refine ⟨hlit, by decide, ?_⟩
  rw [keeps_iff_behind (by decide)]
  decide

end Macro

end VecLang
