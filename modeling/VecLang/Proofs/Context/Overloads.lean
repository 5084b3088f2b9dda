import Mathlib.Data.List.Basic
import Mathlib.Data.List.Induction
import VecLang.Context.Builtin
import VecLang.Proofs.Steps

/-!
# Overloads and what was registered

The overloads of a context follow from the list of the signatures registered so far: a
key holds the last signature that was filed under it, and a name lists the keys of its
own signatures in the order in which they came. So the overloads of a name are what was
registered under it as long as no two registrations meet in one key. A key joins names
with a character that may stand in them, and where two keys meet, a name loses an
overload to another.

* `mem_named_ofLog`: the overloads of a name, read off the list.
* `exact_ofLog_iff`: they are the latest of each kind exactly if the keys are apart.
* `keysApart_of_plain`: so they are where all names are made of letters and digits.
* `named_file_iff`: what a registration does to the overloads of another name.
* `overloads_exact_iff_keysApart`: all of this for the registrations on a new context.
-/

namespace VecLang

variable {r : Registration} {rs : List Registration}

/-- Signatures that no call tells apart: one name, and types of the same names. -/
def Signature.Like (s t : Signature) : Prop :=
  s.name = t.name ∧ s.ret.name = t.ret.name ∧ s.args.map Ty.name = t.args.map Ty.name

/-- The key of the signature is the one made from its name and types. -/
def Signature.Keyed (s : Signature) : Prop := s.key = mangle s.name s.ret s.args

instance (s t : Signature) : Decidable (s.Like t) := inferInstanceAs (Decidable (_ ∧ _))

namespace Signature

variable {s t u : Signature}

theorem Like.symm (h : s.Like t) : t.Like s := ⟨h.1.symm, h.2.1.symm, h.2.2.symm⟩

theorem Like.trans (h : s.Like t) (h' : t.Like u) : s.Like u :=
  ⟨h.1.trans h'.1, h.2.1.trans h'.2.1, h.2.2.trans h'.2.2⟩

theorem mangle_eq (name : String) (ret : Ty) (args : List Ty) :
    mangle name ret args = "_" ++ Ty.safeText name ++ "_" ++ Ty.safeText ret.name ++ "_" ++
      "_".intercalate ((args.map Ty.name).map Ty.safeText) := by
  rw [List.map_map]
  rfl

theorem Like.key_eq (h : s.Like t) (hs : s.Keyed) (ht : t.Keyed) : s.key = t.key := by
  rw [hs, ht, mangle_eq, mangle_eq, h.1, h.2.1, h.2.2]

end Signature

/-! ### A list of registrations and its tables -/

namespace Overloads

variable {w : String}

/-- The signature filed under its key, and the key listed with its name. -/
def file (o : Overloads) (s : Signature) : Overloads :=
  let keys := (o.keysOf.get? s.name).getD []
  { byKey := o.byKey.insert s.key s
    keysOf := o.keysOf.insert s.name (if keys.contains s.key then keys else keys ++ [s.key]) }

theorem register_eq_file (o : Overloads) (name : String) (ret : Ty) (args : List Ty) :
    o.register name ret args =
      (o.file { name, ret, args, key := mangle name ret args }, mangle name ret args) := rfl

def ofLog (log : List Signature) : Overloads := log.foldl file {}

def keys (o : Overloads) (n : String) : List String := (o.keysOf.get? n).getD []

variable {log : List Signature} {o : Overloads} {s t : Signature} {n k : String}

theorem ofLog_concat (log : List Signature) (s : Signature) :
    ofLog (log ++ [s]) = (ofLog log).file s := by
  rw [ofLog, List.foldl_append]
  rfl

theorem get?_byKey_file :
    (o.file s).byKey.get? k = if k = s.key then some s else o.byKey.get? k :=
  Table.get?_insert _ _ _ _

theorem keys_file_self :
    (o.file s).keys s.name = if s.key ∈ o.keys s.name then o.keys s.name
      else o.keys s.name ++ [s.key] := by
  rw [keys, file, Table.get?_insert, if_pos rfl, Option.getD_some]
  simp only [List.contains_iff_mem]
  rfl

theorem keys_file_of_ne (h : n ≠ s.name) : (o.file s).keys n = o.keys n := by
  rw [keys, file, Table.get?_insert, if_neg h]
  rfl

theorem mem_keys_file : k ∈ (o.file s).keys n ↔ k ∈ o.keys n ∨ n = s.name ∧ k = s.key := by
  by_cases hn : n = s.name
  · subst hn
    rw [keys_file_self]
    split
    · next hk =>
      constructor
      · exact Or.inl
      · rintro (h | ⟨-, rfl⟩)
        · exact h
        · exact hk
    · simp
  · simp [keys_file_of_ne hn, hn]

/-- **A key holds the last signature that was filed under it.** -/
theorem get?_byKey_ofLog (log : List Signature) (k : String) :
    (ofLog log).byKey.get? k = log.reverse.find? (fun s => s.key == k) := by
  induction log using List.reverseRecOn with
  | nil => rfl
  | append_singleton log s ih =>
    rw [ofLog_concat, get?_byKey_file, List.reverse_concat, List.find?_cons, ih]
    by_cases hk : k = s.key
    · simp [hk]
    · have hne : (s.key == k) = false := by simpa using Ne.symm hk
      rw [if_neg hk, hne]

theorem mem_keys_ofLog :
    k ∈ (ofLog log).keys n ↔ ∃ t ∈ log, t.name = n ∧ t.key = k := by
  induction log using List.reverseRecOn with
  | nil =>
    constructor
    · intro h
      cases h
    · rintro ⟨t, ht, -⟩
      cases ht
  | append_singleton log s ih =>
    rw [ofLog_concat, mem_keys_file, ih]
    constructor
    · rintro (⟨t, ht, h⟩ | ⟨rfl, rfl⟩)
      · exact ⟨t, List.mem_append_left _ ht, h⟩
      · exact ⟨s, by simp, rfl, rfl⟩
    · rintro ⟨t, ht, rfl, rfl⟩
      rcases List.mem_append.1 ht with ht | ht
      · exact .inl ⟨t, ht, rfl, rfl⟩
      · rw [List.mem_singleton.1 ht]
        exact .inr ⟨rfl, rfl⟩

theorem nodup_keys_ofLog (log : List Signature) (n : String) : ((ofLog log).keys n).Nodup := by
  induction log using List.reverseRecOn with
  | nil => exact List.nodup_nil
  | append_singleton log s ih =>
    rw [ofLog_concat]
    by_cases hn : n = s.name
    · subst hn
      rw [keys_file_self]
      split
      · exact ih
      · next hk =>
        refine List.nodup_append.2 ⟨ih, by simp, fun k hmem k' hmem' heq => hk ?_⟩
        rwa [← List.mem_singleton.1 hmem', ← heq]
    · rw [keys_file_of_ne hn]
      exact ih

/-- **The overloads of a name**: for each key of the name the last signature filed under it,
whatever name it was filed for. -/
theorem mem_named_ofLog :
    s ∈ (ofLog log).named n ↔ (∃ t ∈ log, t.name = n ∧ t.key = s.key) ∧
      log.reverse.find? (fun t => t.key == s.key) = some s := by
  have hmem : s ∈ (ofLog log).named n ↔
      ∃ k ∈ (ofLog log).keys n, (ofLog log).byKey.get? k = some s := List.mem_filterMap
  rw [hmem]
  constructor
  · rintro ⟨k, hk, hget⟩
    rw [get?_byKey_ofLog] at hget
    have hkey : s.key = k := by simpa using List.find?_some hget
    subst hkey
    exact ⟨mem_keys_ofLog.1 hk, hget⟩
  · rintro ⟨hk, hget⟩
    exact ⟨s.key, mem_keys_ofLog.2 hk, by rw [get?_byKey_ofLog]; exact hget⟩

theorem named_ofLog_keys_pairwise (log : List Signature) (n : String) :
    ((ofLog log).named n).Pairwise fun s t => s.key ≠ t.key := by
  have hkeys : ((ofLog log).keys n).Pairwise (· ≠ ·) := nodup_keys_ofLog log n
  refine List.pairwise_filterMap.2 (hkeys.imp ?_)
  intro k k' hne s hs t ht hst
  rw [get?_byKey_ofLog] at hs ht
  have hs' : s.key = k := by simpa using List.find?_some hs
  have ht' : t.key = k' := by simpa using List.find?_some ht
  exact hne (hs'.symm.trans (hst.trans ht'))

/-! ### What the overloads should be -/

/-- The signature is in the list and none like it comes later. -/
def Latest (log : List Signature) (s : Signature) : Prop :=
  ∃ before later, log = before ++ s :: later ∧ ∀ t ∈ later, ¬ t.Like s

/-- **The overloads of each name are the signatures registered under it**, the latest of those
with the same types and no other. -/
def Exact (log : List Signature) (o : Overloads) : Prop :=
  ∀ n, (∀ s, s ∈ o.named n ↔ s.name = n ∧ Latest log s) ∧
    (o.named n).Pairwise fun s t => ¬ s.Like t

/-- **Signatures with one key are alike.** -/
def KeysApart (log : List Signature) : Prop :=
  ∀ s ∈ log, ∀ t ∈ log, s.key = t.key → s.Like t

instance (log : List Signature) : Decidable (KeysApart log) :=
  inferInstanceAs (Decidable (∀ _ ∈ _, ∀ _ ∈ _, _ → _))

theorem Latest.mem (h : Latest log s) : s ∈ log := by
  obtain ⟨before, later, rfl, -⟩ := h
  simp

theorem exists_latest (hs : s ∈ log) : ∃ t, t.Like s ∧ Latest log t := by
  induction log using List.reverseRecOn with
  | nil => cases hs
  | append_singleton log u ih =>
    by_cases hu : u.Like s
    · exact ⟨u, hu, log, [], rfl, fun t ht => by cases ht⟩
    · have hs' : s ∈ log := by
        rcases List.mem_append.1 hs with hs | hs
        · exact hs
        · rw [List.mem_singleton.1 hs] at hu
          exact absurd ⟨rfl, rfl, rfl⟩ hu
      obtain ⟨t, ht, before, later, rfl, hlater⟩ := ih hs'
      refine ⟨t, ht, before, later ++ [u], by simp, fun v hv => ?_⟩
      rcases List.mem_append.1 hv with hv | hv
      · exact hlater v hv
      · rw [List.mem_singleton.1 hv]
        exact fun h => hu (h.trans ht)

theorem find?_reverse_eq_some :
    log.reverse.find? (fun t => t.key == s.key) = some s ↔
      ∃ before later, log = before ++ s :: later ∧ ∀ t ∈ later, t.key ≠ s.key := by
  rw [List.find?_eq_some_iff_append]
  constructor
  · rintro ⟨-, later, before, hlog, hlater⟩
    refine ⟨before.reverse, later.reverse, ?_, fun t ht => ?_⟩
    · rw [← List.reverse_reverse log, hlog]
      simp
    · simpa using hlater t (List.mem_reverse.1 ht)
  · rintro ⟨before, later, rfl, hlater⟩
    refine ⟨by simp, later.reverse, before.reverse, by simp, fun t ht => ?_⟩
    simpa using hlater t (List.mem_reverse.1 ht)

/-- **The overloads are exact if and only if the keys are apart.** -/
theorem exact_ofLog_iff (hkeyed : ∀ s ∈ log, s.Keyed) :
    Exact log (ofLog log) ↔ KeysApart log := by
  constructor
  · -- Of two signatures in one key that are not alike, the key has lost the latest of one kind.
    intro hexact s hs t ht hst
    have hheld : ∀ u ∈ log, ∃ v, v.Like u ∧
        log.reverse.find? (fun w => w.key == u.key) = some v := by
      intro u hu
      obtain ⟨v, hvu, hv⟩ := exists_latest hu
      have hmem : v ∈ (ofLog log).named v.name := ((hexact v.name).1 v).2 ⟨rfl, hv⟩
      have hkey : v.key = u.key := hvu.key_eq (hkeyed v hv.mem) (hkeyed u hu)
      exact ⟨v, hvu, hkey ▸ (mem_named_ofLog.1 hmem).2⟩
    obtain ⟨v, hvs, hfindS⟩ := hheld s hs
    obtain ⟨w, hwt, hfindT⟩ := hheld t ht
    rw [hst, hfindT] at hfindS
    cases hfindS
    exact hvs.symm.trans hwt
  · intro hapart n
    refine ⟨fun s => ?_, ?_⟩
    · rw [mem_named_ofLog, find?_reverse_eq_some]
      constructor
      · rintro ⟨⟨t, ht, rfl, hkey⟩, before, later, rfl, hlater⟩
        have hlike : t.Like s := hapart t ht s (by simp) hkey
        refine ⟨hlike.1.symm, before, later, rfl, fun u hu hus => hlater u hu ?_⟩
        exact hus.key_eq (hkeyed u (by simp [hu])) (hkeyed s (by simp))
      · rintro ⟨rfl, before, later, rfl, hlater⟩
        refine ⟨⟨s, by simp, rfl, rfl⟩, before, later, rfl, fun u hu hkey => hlater u hu ?_⟩
        exact hapart u (by simp [hu]) s (by simp) hkey
    · have hkeyed' : ∀ s ∈ (ofLog log).named n, s.Keyed := by
        intro s hs
        have hfind := (mem_named_ofLog.1 hs).2
        exact hkeyed s (List.mem_reverse.1 (List.mem_of_find?_eq_some hfind))
      refine (named_ofLog_keys_pairwise log n).imp_of_mem ?_
      intro s t hs ht hne hlike
      exact hne (hlike.key_eq (hkeyed' s hs) (hkeyed' t ht))

/-! ### Names that keep keys apart -/

def PlainWord (w : String) : Prop := w ≠ "" ∧ ∀ c ∈ w.toList, c.isAlphanum = true

/-- The names in the signature are such words. -/
def Plain (s : Signature) : Prop :=
  PlainWord s.name ∧ PlainWord s.ret.name ∧ ∀ t ∈ s.args, PlainWord t.name

instance (w : String) : Decidable (PlainWord w) := inferInstanceAs (Decidable (_ ∧ _))

instance (s : Signature) : Decidable (Plain s) := inferInstanceAs (Decidable (_ ∧ _ ∧ _))

theorem map_safeChar {w : Text} (h : ∀ c ∈ w, c.isAlphanum = true) : w.map Ty.safeChar = w := by
  have hsafe : ∀ c ∈ w, Ty.safeChar c = c := by
    intro c hc
    rw [Ty.safeChar, h c hc]
    rfl
  rw [List.map_congr_left hsafe, List.map_id']

theorem PlainWord.safeText_eq (h : PlainWord w) : Ty.safeText w = w := by
  rw [Ty.safeText, map_safeChar h.2, String.ofList_toList]

theorem PlainWord.not_mem (h : PlainWord w) : '_' ∉ w.toList :=
  fun hmem => absurd (h.2 _ hmem) (by decide)

/-- The words of a key between its underscores. A signature without arguments has an empty
word in their place. -/
def words (s : Signature) : List String :=
  s.name :: s.ret.name :: if s.args = [] then [""] else s.args.map Ty.name

theorem Plain.toList_key (h : Plain s) (hs : s.Keyed) :
    s.key.toList = '_' :: ['_'].intercalate ((words s).map String.toList) := by
  obtain ⟨hname, hret, hargs⟩ := h
  have hsafe : (s.args.map Ty.name).map Ty.safeText = s.args.map Ty.name := by
    rw [List.map_map]
    exact List.map_congr_left fun t ht => (hargs t ht).safeText_eq
  rw [hs, Signature.mangle_eq, hname.safeText_eq, hret.safeText_eq, hsafe, words]
  cases s.args with
  | nil => simp [List.intercalate]
  | cons t ts => simp [List.intercalate]

/-- **Where all names are plain words, a key can be read back.** -/
theorem Plain.like_of_key_eq (hs : Plain s) (ht : Plain t) (hs' : s.Keyed) (ht' : t.Keyed)
    (h : s.key = t.key) : s.Like t := by
  have hwords : ∀ {u : Signature}, Plain u → ∀ w ∈ (words u).map String.toList, '_' ∉ w := by
    intro u hu w hw
    obtain ⟨v, hv, rfl⟩ := List.mem_map.1 hw
    rcases List.mem_cons.1 hv with rfl | hv
    · exact hu.1.not_mem
    rcases List.mem_cons.1 hv with rfl | hv
    · exact hu.2.1.not_mem
    split at hv
    · rw [List.mem_singleton.1 hv]
      simp
    · obtain ⟨ty, hty, rfl⟩ := List.mem_map.1 hv
      exact (hu.2.2 ty hty).not_mem
  -- The words are what stands between the underscores.
  have hlists : (words s).map String.toList = (words t).map String.toList := by
    have hjoined : ['_'].intercalate ((words s).map String.toList) =
        ['_'].intercalate ((words t).map String.toList) := by
      have hkeys := congrArg String.toList h
      rw [hs.toList_key hs', ht.toList_key ht'] at hkeys
      exact (List.cons.inj hkeys).2
    rw [← List.splitOn_intercalate '_' (hwords hs) (by simp [words]), hjoined,
      List.splitOn_intercalate '_' (hwords ht) (by simp [words])]
  have heq : words s = words t := List.map_injective_iff.2 (fun _ _ => String.toList_inj.1) hlists
  have hne : ∀ {u : Signature}, Plain u → "" ∉ u.args.map Ty.name := by
    intro u hu hmem
    obtain ⟨ty, hty, hempty⟩ := List.mem_map.1 hmem
    exact (hu.2.2 ty hty).1 hempty
  simp only [words, List.cons.injEq] at heq
  refine ⟨heq.1, heq.2.1, ?_⟩
  have hargs := heq.2.2
  split at hargs <;> split at hargs
  · simp_all
  · exact absurd (hargs ▸ List.mem_singleton_self "") (hne ht)
  · exact absurd (hargs ▸ List.mem_singleton_self "") (hne hs)
  · exact hargs

theorem keysApart_of_plain (hplain : ∀ s ∈ log, Plain s) (hkeyed : ∀ s ∈ log, s.Keyed) :
    KeysApart log := fun s hs t ht h =>
  (hplain s hs).like_of_key_eq (hplain t ht) (hkeyed s hs) (hkeyed t ht) h

/-! ### One registration and the other names -/

/-- **A registration leaves the overloads of another name** exactly if none of them has its
key, or is itself what is filed. -/
theorem named_file_iff (ho : ∀ k s, o.byKey.get? k = some s → s.key = k)
    (hheld : ∀ k ∈ o.keys n, (o.byKey.get? k).isSome) (hn : n ≠ s.name) :
    (o.file s).named n = o.named n ↔ ∀ t ∈ o.named n, t.key = s.key → t = s := by
  have hnamed : (o.file s).named n = (o.keys n).filterMap (o.file s).byKey.get? := by
    have hkeys := keys_file_of_ne (o := o) hn
    rw [← hkeys]
    rfl
  have hself : o.named n = (o.keys n).filterMap o.byKey.get? := rfl
  constructor
  · intro hsame t ht hkey
    rw [← hsame, hnamed] at ht
    obtain ⟨k, hk, hget⟩ := List.mem_filterMap.1 ht
    rw [get?_byKey_file] at hget
    split at hget
    · exact (Option.some.inj hget).symm
    · next hne => exact absurd ((ho k t hget).symm.trans hkey) hne
  · intro hsame
    rw [hnamed, hself]
    refine List.filterMap_congr (fun k hk => ?_)
    rw [get?_byKey_file]
    split
    · next hkey =>
      obtain ⟨t, ht⟩ := Option.isSome_iff_exists.1 (hheld k hk)
      have hmem : t ∈ o.named n := List.mem_filterMap.2 ⟨k, hk, ht⟩
      rw [ht, hsame t hmem ((ho k t ht).trans hkey)]
    · rfl

/-- Neither name, with the underscore after it, is how the other begins. -/
def Separate (m n : String) : Prop :=
  ¬ (Ty.safeText m ++ "_").toList <+: (Ty.safeText n ++ "_").toList ∧
    ¬ (Ty.safeText n ++ "_").toList <+: (Ty.safeText m ++ "_").toList

instance (m n : String) : Decidable (Separate m n) := inferInstanceAs (Decidable (_ ∧ _))

theorem Separate.key_ne (h : Separate s.name t.name) (hs : s.Keyed) (ht : t.Keyed) :
    s.key ≠ t.key := by
  have hbegin : ∀ {u : Signature}, u.Keyed →
      '_' :: (Ty.safeText u.name ++ "_").toList <+: u.key.toList := by
    intro u hu
    refine ⟨(Ty.safeText u.ret.name ++ "_" ++
      "_".intercalate ((u.args.map Ty.name).map Ty.safeText)).toList, ?_⟩
    rw [hu, Signature.mangle_eq]
    simp
  intro hkey
  have hs' := hbegin hs
  rw [hkey] at hs'
  rcases List.prefix_or_prefix_of_prefix hs' (hbegin ht) with hp | hp
  · exact h.1 (List.cons_prefix_cons.1 hp).2
  · exact h.2 (List.cons_prefix_cons.1 hp).2

/-- The tables of a list are such that a registration can be followed. -/
theorem named_file_ofLog_iff (hn : n ≠ s.name) :
    ((ofLog log).file s).named n = (ofLog log).named n ↔
      ∀ t ∈ (ofLog log).named n, t.key = s.key → t = s := by
  refine named_file_iff (fun k t ht => ?_) (fun k hk => ?_) hn
  · rw [get?_byKey_ofLog] at ht
    simpa using List.find?_some ht
  · obtain ⟨t, ht, -, hkey⟩ := mem_keys_ofLog.1 hk
    rw [get?_byKey_ofLog, List.find?_isSome]
    exact ⟨t, List.mem_reverse.2 ht, by simpa using hkey⟩

theorem named_file_of_separate (hkeyed : ∀ t ∈ log, t.Keyed) (hs : s.Keyed)
    (hsep : Separate n s.name) :
    ((ofLog log).file s).named n = (ofLog log).named n := by
  have hn : n ≠ s.name := by
    rintro rfl
    exact hsep.1 (List.prefix_refl _)
  rw [named_file_ofLog_iff hn]
  intro t ht hkey
  obtain ⟨⟨u, hu, rfl, hukey⟩, -⟩ := mem_named_ofLog.1 ht
  exact absurd (hukey.trans hkey) (Separate.key_ne hsep (hkeyed u hu) hs)

end Overloads

/-! ### Registrations on a context -/

open Builtin Overloads

namespace Context

variable {ctx ctx' : Context} {s : Signature}

/-- The signature that a registration files, where its types are known. -/
def signature (ctx : Context) (r : Registration) : Except Error Signature := do
  let ret ← ctx.resolveArg r.context r.ret
  let args ← r.args.mapM (ctx.resolveArg r.context)
  return { name := r.name, ret, args, key := mangle r.name ret args }

theorem addOverload_eq (ctx : Context) (r : Registration) :
    ctx.addOverload r.name r.ret r.args r.context = (do
      let s ← ctx.signature r
      return ({ ctx with overloads := ctx.overloads.file s }, s.key)) := by
  unfold addOverload signature
  simp only [register_eq_file]
  rw [bind_assoc]
  refine bind_congr fun ret => ?_
  rw [bind_assoc]
  rfl

theorem signature_spec (h : ctx.signature r = .ok s) : s.name = r.name ∧ s.Keyed := by
  obtain ⟨ret, -, h⟩ := Except.bind_eq_ok.1 h
  obtain ⟨args, -, h⟩ := Except.bind_eq_ok.1 h
  cases h
  exact ⟨rfl, rfl⟩

theorem signature_congr (h : ctx.types = ctx'.types) (r : Registration) :
    ctx.signature r = ctx'.signature r := by
  have harg : ctx.resolveArg r.context = ctx'.resolveArg r.context := by
    funext a
    cases a <;> simp only [resolveArg, h]
  unfold signature
  rw [harg]

/-- The signatures that registrations file one after the other. -/
def registered (ctx : Context) (rs : List Registration) : List Signature :=
  rs.filterMap fun r => (ctx.signature r).toOption

theorem file_eq_of_ok (h : ctx.signature r = .ok s) :
    r.file ctx = { ctx with overloads := ctx.overloads.file s } := by
  rw [Registration.file, addOverload_eq, h]
  rfl

theorem file_eq_of_error {e : Error} (h : ctx.signature r = .error e) : r.file ctx = ctx := by
  rw [Registration.file, addOverload_eq, h]
  rfl

theorem registered_congr (h : ctx.types = ctx'.types) (rs : List Registration) :
    ctx.registered rs = ctx'.registered rs :=
  List.filterMap_congr fun r _ => by rw [signature_congr h]

theorem registered_append (ctx : Context) (rs rs' : List Registration) :
    ctx.registered (rs ++ rs') = ctx.registered rs ++ ctx.registered rs' :=
  List.filterMap_append

/-- **Registrations change the overloads alone**, and these by the signatures that they file. -/
theorem foldl_file (ctx : Context) (rs : List Registration) :
    rs.foldl Registration.file ctx =
      { ctx with overloads := (ctx.registered rs).foldl Overloads.file ctx.overloads } := by
  induction rs generalizing ctx with
  | nil => rfl
  | cons r rs ih =>
    rw [List.foldl_cons, ih]
    cases hsig : ctx.signature r with
    | ok s =>
      have hlog : ctx.registered (r :: rs) = s :: ctx.registered rs := by
        simp [registered, hsig, Except.toOption]
      have hrest : Context.registered { ctx with overloads := ctx.overloads.file s } rs =
          ctx.registered rs := registered_congr rfl rs
      rw [file_eq_of_ok hsig, hlog, hrest]
      rfl
    | error e =>
      have hlog : ctx.registered (r :: rs) = ctx.registered rs := by
        simp [registered, hsig, Except.toOption]
      rw [file_eq_of_error hsig, hlog]

theorem registered_keyed : ∀ s ∈ ctx.registered rs, s.Keyed := by
  intro s hs
  obtain ⟨r, -, hr⟩ := List.mem_filterMap.1 hs
  cases hsig : ctx.signature r with
  | ok t =>
    rw [hsig] at hr
    cases hr
    exact (signature_spec hsig).2
  | error e =>
    rw [hsig] at hr
    cases hr

end Context

def Builtin.registrations : List Registration :=
  constructors ++ vectorFunctions ++ elementwiseFunctions

/-- **All signatures that a new context knows of** after further registrations: the builtin
ones and then those. -/
def signatureLog (rs : List Registration) : List Signature :=
  Context.registered { source := "", filename := "", types := Builtin.types }
    (Builtin.registrations ++ rs)

theorem signatureLog_keyed : ∀ s ∈ signatureLog rs, s.Keyed :=
  Context.registered_keyed

theorem overloads_foldl_file (source filename : String) (rs : List Registration) :
    (rs.foldl Registration.file (Context.new source filename)).overloads =
      ofLog (signatureLog rs) := by
  have hbuiltin : (Context.new source filename).overloads =
      ofLog (Context.registered { source := "", filename := "", types := Builtin.types }
        Builtin.registrations) := by
    have hnew : (Context.new source filename).overloads = Builtin.overloads := by
      simp only [Context.new, Context.reset]
    rw [hnew, Builtin.overloads, ← Builtin.registrations, Context.foldl_file]
    simp only [ofLog]
  rw [Context.foldl_file, hbuiltin, signatureLog, Context.registered_append, ofLog, ofLog,
    List.foldl_append]
  exact congrArg (List.foldl Overloads.file _) (Context.registered_congr rfl rs)

theorem builtin_plain : ∀ s ∈ signatureLog [], Plain s := by decide +kernel

/-- **What a new context lists after any registrations.** The overloads of every name are what
was registered under it, each kind once and by its latest registration, if and only if no two
registrations that differ meet in one key; they do not where all names are of letters and digits.
A registration that fails changes nothing. One that succeeds leaves the overloads of another
name as they are if and only if none of them has its key, and so whenever neither of the two
names is how the other begins. -/
theorem overloads_exact_iff_keysApart (source filename : String) (rs : List Registration) :
    let ctx := rs.foldl Registration.file (Context.new source filename)
    (Exact (signatureLog rs) ctx.overloads ↔ KeysApart (signatureLog rs)) ∧
      ((∀ r ∈ rs, ∀ s, ctx.signature r = .ok s → Plain s) →
        Exact (signatureLog rs) ctx.overloads) ∧
      ∀ r : Registration,
        (∀ e, ctx.addOverload r.name r.ret r.args r.context = .error e → r.file ctx = ctx) ∧
        ∀ ctx' key, ctx.addOverload r.name r.ret r.args r.context = .ok (ctx', key) →
          r.file ctx = ctx' ∧ ∀ m, m ≠ r.name →
            (ctx'.overloads.named m = ctx.overloads.named m ↔
              ∀ t ∈ ctx.overloads.named m, t.key = key →
                ctx'.overloads.byKey.get? key = some t) ∧
            (Separate m r.name → ctx'.overloads.named m = ctx.overloads.named m ∧
              ∀ args, ctx'.findOverload? m args = ctx.findOverload? m args) := by
  intro ctx
  have hover : ctx.overloads = ofLog (signatureLog rs) := overloads_foldl_file source filename rs
  have hctx : ctx = { Context.new source filename with overloads := ctx.overloads } := by
    change List.foldl _ _ _ = _
    rw [hover, ← overloads_foldl_file source filename, Context.foldl_file]
  have hiff : Exact (signatureLog rs) ctx.overloads ↔ KeysApart (signatureLog rs) := by
    rw [hover]
    exact exact_ofLog_iff signatureLog_keyed
  refine ⟨hiff, fun hplain => hiff.2 (keysApart_of_plain ?_ signatureLog_keyed), fun r => ⟨?_, ?_⟩⟩
  · -- The builtin names are plain, and the others by assumption.
    have htypes : ctx.types = Builtin.types := by rw [hctx]; rfl
    intro s hs
    rw [signatureLog, Context.registered_append] at hs
    rcases List.mem_append.1 hs with hs | hs
    · refine builtin_plain s ?_
      rw [signatureLog, List.append_nil]
      exact hs
    · rw [← Context.registered_congr htypes] at hs
      obtain ⟨r, hr, hsig⟩ := List.mem_filterMap.1 hs
      cases hok : ctx.signature r with
      | ok t =>
        rw [hok] at hsig
        cases hsig
        exact hplain r hr s hok
      | error e =>
        rw [hok] at hsig
        cases hsig
  · intro e he
    rw [Registration.file, he]
  · intro ctx' key hok
    refine ⟨by rw [Registration.file, hok], fun m hm => ?_⟩
    rw [Context.addOverload_eq] at hok
    obtain ⟨s, hsig, hok⟩ := Except.bind_eq_ok.1 hok
    cases hok
    obtain ⟨hname, hkeyed⟩ := Context.signature_spec hsig
    rw [← hname] at hm ⊢
    rw [hover]
    refine ⟨?_, fun hsep => ?_⟩
    · rw [named_file_ofLog_iff hm, get?_byKey_file, if_pos rfl]
      exact forall₂_congr fun t _ => by rw [Option.some.injEq, eq_comm (a := s)]
    · have hnamed : ((ofLog (signatureLog rs)).file s).named m = (ofLog (signatureLog rs)).named m :=
        named_file_of_separate signatureLog_keyed hkeyed hsep
      refine ⟨hnamed, fun args => ?_⟩
      unfold Context.findOverload? Overloads.find?
      rw [hover, hnamed]

/-- Overloads of two names with an underscore and a dollar sign, one of them registered twice. -/
def shades : List Registration :=
  [{ name := "mix_all", ret := .named "vec3", args := [.named "vec3", .named "float"], context := none },
   { name := "$tint", ret := .context, args := [.context], context := some vec4 },
   { name := "mix_all", ret := .type vec3, args := [.type vec3, .type float], context := none }]

theorem overloads_exact_shades : KeysApart (signatureLog shades) ∧
    Exact (signatureLog shades)
      (shades.foldl Registration.file (Context.new "" "")).overloads := by
  have hapart : KeysApart (signatureLog shades) := by decide +kernel
  exact ⟨hapart, (overloads_exact_iff_keysApart "" "" shades).1.2 hapart⟩

/-- A function whose key is that of the dot product of two vectors. -/
def dotFloat : Registration :=
  { name := "dot_float", ret := .named "vec3", args := [.named "vec3"], context := none }

/-- **A name loses an overload to another**: once `dot_float` is registered, `dot` lists it and
finds nothing for two vectors. -/
theorem dot_lost_to_dot_float :
    let ctx := Context.new "" ""
    let ctx' := dotFloat.file ctx
    let dot : Signature :=
      { name := "dot", ret := float, args := [vec3, vec3], key := "_dot_float_vec3_vec3" }
    ctx.overloads.find? "dot" ["vec3", "vec3"] = some dot ∧
      ctx'.overloads.find? "dot" ["vec3", "vec3"] = none ∧
      dot ∉ ctx'.overloads.named "dot" ∧ ¬ Exact (signatureLog [dotFloat]) ctx'.overloads := by
  intro ctx ctx' dot
  have hfound : ctx.overloads.find? "dot" ["vec3", "vec3"] = some dot := by decide +kernel
  have hnamed : ctx'.overloads.named "dot" =
      [⟨"dot", float, [vec2, vec2], "_dot_float_vec2_vec2"⟩,
       ⟨"dot_float", vec3, [vec3], "_dot_float_vec3_vec3"⟩,
       ⟨"dot", float, [vec4, vec4], "_dot_float_vec4_vec4"⟩] := by decide +kernel
  refine ⟨hfound, ?_, ?_, fun hexact => ?_⟩
  · rw [Overloads.find?, hnamed]
    decide
  · rw [hnamed]
    decide
  · have hlisted : (⟨"dot_float", vec3, [vec3], "_dot_float_vec3_vec3"⟩ : Signature) ∈
        ctx'.overloads.named "dot" := by simp [hnamed]
    exact absurd (((hexact "dot").1 _).1 hlisted).1 (by decide)

end VecLang
