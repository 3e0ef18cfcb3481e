import LinearSSA.Proofs.Layering
import Mathlib.Data.List.Induction
import Mathlib.Data.List.TakeWhile

/-! The grammar of option strings. The tokens of a string are its maximal runs of characters that
are neither white space nor commas, and a token stands for what its first colon says: there is no
white space in it that could be trimmed off. A string is refused for its first token with an empty
key or an empty value; otherwise the last token for a key gives its value. -/

namespace LinearSSA.Options

variable {s t gap rest key value : List Char} {ts us : List (List Char)}

/-! ### Runs of characters -/

/-- The maximal runs of characters that are no separators, in order. After a run the string ends
or goes on with a separator. -/
inductive Runs : List Char → List (List Char) → Prop
  | nil {gap : List Char} (hgap : ∀ c ∈ gap, isSeparator c) : Runs gap []
  | cons {gap t rest : List Char} {ts : List (List Char)} (hgap : ∀ c ∈ gap, isSeparator c)
      (hne : t ≠ []) (ht : ∀ c ∈ t, ¬ isSeparator c) (hend : ∀ c ∈ rest.head?, isSeparator c)
      (h : Runs rest ts) : Runs (gap ++ t ++ rest) (t :: ts)

theorem Runs.not_isSeparator (h : Runs s ts) (ht : t ∈ ts) : ∀ c ∈ t, ¬ isSeparator c := by
  induction h with
  | nil => simp at ht
  | cons _ _ hrun _ _ ih =>
    rcases List.mem_cons.mp ht with rfl | ht
    · exact hrun
    · exact ih ht

/-- A run that the string starts with. -/
theorem Runs.start (hne : t ≠ []) (ht : ∀ c ∈ t, ¬ isSeparator c)
    (hend : ∀ c ∈ rest.head?, isSeparator c) (h : Runs rest ts) : Runs (t ++ rest) (t :: ts) := by
  have hgap : ∀ c ∈ [], isSeparator c := by simp
  exact .cons hgap hne ht hend h

/-- A character in front of a string joins a gap, starts a run or joins the first one. -/
theorem Runs.exists_cons (h : Runs s ts) (c : Char) : ∃ us, Runs (c :: s) us := by
  by_cases hc : isSeparator c
  · cases h with
    | nil hgap => exact ⟨[], .nil (List.forall_mem_cons.mpr ⟨hc, hgap⟩)⟩
    | cons hgap hne ht hend h =>
      exact ⟨_, .cons (List.forall_mem_cons.mpr ⟨hc, hgap⟩) hne ht hend h⟩
  · have hfirst : ∀ d ∈ [c], ¬ isSeparator d := by simpa using hc
    cases h with
    | nil hgap =>
      have hend : ∀ d ∈ s.head?, isSeparator d := fun d hd => hgap d (List.mem_of_mem_head? hd)
      exact ⟨_, .start (List.cons_ne_nil c []) hfirst hend (.nil hgap)⟩
    | @cons gap t rest ts hgap hne ht hend h =>
      cases gap with
      | nil =>
        -- the string starts with its first run, which gets longer
        have hrun : ∀ d ∈ c :: t, ¬ isSeparator d := List.forall_mem_cons.mpr ⟨hc, ht⟩
        exact ⟨_, .start (List.cons_ne_nil c t) hrun hend h⟩
      | cons d gap =>
        have hnext : ∀ e ∈ (d :: gap ++ t ++ rest).head?, isSeparator e := by
          simpa using hgap d List.mem_cons_self
        exact ⟨_, .start (List.cons_ne_nil c []) hfirst hnext (.cons hgap hne ht hend h)⟩

theorem exists_runs (s : List Char) : ∃ ts, Runs s ts := by
  induction s with
  | nil => exact ⟨[], .nil (by simp)⟩
  | cons c s ih =>
    obtain ⟨ts, h⟩ := ih
    exact h.exists_cons c

theorem tokens_append_gap (hgap : ∀ c ∈ gap, isSeparator c) (o : List Char) :
    tokens (gap ++ o) = tokens o := by
  induction gap with
  | nil => rfl
  | cons c gap ih =>
    obtain ⟨hc, hgap⟩ := List.forall_mem_cons.mp hgap
    rw [← ih hgap]
    exact tokens_append hc [] (gap ++ o)

theorem tokens_append_run (hne : t ≠ []) (ht : ∀ c ∈ t, ¬ isSeparator c)
    (hend : ∀ c ∈ rest.head?, isSeparator c) : tokens (t ++ rest) = t :: tokens rest := by
  have hrun : tokens t = [t] := by
    rw [tokens, List.splitOnP_eq_singleton fun c hc => by simpa using ht c hc]
    simpa using hne
  cases rest with
  | nil => rw [List.append_nil, hrun]; rfl
  | cons c rest =>
    have hc : isSeparator c := hend c rfl
    have hskip : tokens (c :: rest) = tokens rest := tokens_append hc [] rest
    rw [tokens_append hc, hrun, hskip]
    rfl

/-- A string has its tokens as runs and no other ones. -/
theorem runs_iff : Runs s us ↔ us = tokens s := by
  have hunique : ∀ {s us}, Runs s us → us = tokens s := by
    intro s us h
    induction h with
    | nil hgap => exact (tokens_of_separators hgap).symm
    | cons hgap hne ht hend _ ih =>
      rw [List.append_assoc, tokens_append_gap hgap, tokens_append_run hne ht hend, ih]
  refine ⟨hunique, ?_⟩
  rintro rfl
  obtain ⟨ts, h⟩ := exists_runs s
  rwa [← hunique h]

theorem not_isSeparator_of_mem_tokens (ht : t ∈ tokens s) : ∀ c ∈ t, ¬ isSeparator c :=
  (runs_iff.mpr rfl).not_isSeparator ht

/-! ### Tokens -/

/-- What a token stands for: its first colon separates the key from the value, and a key by itself
is set to true. -/
inductive Denotes : List Char → List Char → List Char → Prop
  | pair {key value : List Char} (hkey : ':' ∉ key) : Denotes (key ++ ':' :: value) key value
  | flag {key : List Char} (hkey : ':' ∉ key) : Denotes key key "true".toList

/-- The key or the value is empty. -/
def Malformed (t : List Char) : Prop := ∃ key value, Denotes t key value ∧ (key = [] ∨ value = [])

/-- The token sets the key. -/
def Names (t key : List Char) : Prop := ∃ value, Denotes t key value

theorem Denotes.colon_not_mem (h : Denotes t key value) : ':' ∉ key := by
  cases h with
  | pair hkey => exact hkey
  | flag hkey => exact hkey

theorem true_not_isSeparator : ∀ c ∈ "true".toList, ¬ isSeparator c := by
  have hall : ("true".toList.all fun c => !isSeparator c) = true := by decide
  simpa only [List.all_eq_true, Bool.not_eq_true', Bool.not_eq_true] using hall

theorem Denotes.not_isSeparator (h : Denotes t key value) (ht : ∀ c ∈ t, ¬ isSeparator c) :
    (∀ c ∈ key, ¬ isSeparator c) ∧ ∀ c ∈ value, ¬ isSeparator c := by
  cases h with
  | pair _ => exact ⟨fun c hc => ht c (by simp [hc]), fun c hc => ht c (by simp [hc])⟩
  | flag _ => exact ⟨ht, true_not_isSeparator⟩

theorem splitColon?_append (hkey : ':' ∉ key) (value : List Char) :
    splitColon? (key ++ ':' :: value) = some (key, value) := by
  have hbefore : ∀ c ∈ key, decide (c ≠ ':') = true := by
    intro c hc
    simpa using fun h : c = ':' => hkey (h ▸ hc)
  have hdrop : (key ++ ':' :: value).dropWhile (· ≠ ':') = ':' :: value := by
    rw [List.dropWhile_append_of_pos hbefore]
    simp
  rw [splitColon?, hdrop, List.takeWhile_append_of_pos hbefore]
  simp

theorem splitColon?_of_not_mem (ht : ':' ∉ t) : splitColon? t = none := by
  have hdrop : t.dropWhile (· ≠ ':') = [] := by
    rw [List.dropWhile_eq_nil_iff]
    intro c hc
    simpa using fun h : c = ':' => ht (h ▸ hc)
  rw [splitColon?, hdrop]

theorem trim_of_not_isSeparator (ht : ∀ c ∈ t, ¬ isSeparator c) : Text.trim t = t :=
  Text.trim_eq_self fun c hc => by
    have hc := ht c hc
    simp only [isSeparator, Bool.or_eq_true, not_or, Bool.not_eq_true] at hc
    exact hc.1

/-- What is read from a token is what it stands for; trimming does not change it. -/
theorem keyValue_of_denotes (ht : ∀ c ∈ t, ¬ isSeparator c) (h : Denotes t key value) :
    keyValue t = (key, value) := by
  obtain ⟨hkey, hvalue⟩ := h.not_isSeparator ht
  cases h with
  | pair hcolon =>
    rw [keyValue, splitColon?_append hcolon]
    simp [trim_of_not_isSeparator hkey, trim_of_not_isSeparator hvalue]
  | flag hcolon => rw [keyValue, splitColon?_of_not_mem hcolon]

theorem exists_denotes (t : List Char) : ∃ key value, Denotes t key value := by
  by_cases h : ':' ∈ t
  · obtain ⟨key, value, rfl, hkey⟩ := List.eq_append_cons_of_mem h
    exact ⟨key, value, .pair hkey⟩
  · exact ⟨t, _, .flag h⟩

theorem denotes_iff (ht : ∀ c ∈ t, ¬ isSeparator c) :
    Denotes t key value ↔ keyValue t = (key, value) := by
  refine ⟨keyValue_of_denotes ht, fun h => ?_⟩
  obtain ⟨key', value', hd⟩ := exists_denotes t
  obtain ⟨rfl, rfl⟩ := Prod.mk.inj (h.symm.trans (keyValue_of_denotes ht hd))
  exact hd

theorem malformed_iff (ht : ∀ c ∈ t, ¬ isSeparator c) :
    Malformed t ↔ ((keyValue t).1.isEmpty || (keyValue t).2.isEmpty) = true := by
  simp only [Malformed, denotes_iff ht, Bool.or_eq_true, List.isEmpty_iff]
  constructor
  · rintro ⟨key, value, h, hempty⟩
    rwa [h]
  · exact fun hempty => ⟨_, _, rfl, hempty⟩

/-- The entry of a token that is not malformed. -/
def tokenEntry (t : List Char) : String × String :=
  (String.ofList (keyValue t).1, String.ofList (keyValue t).2)

theorem entry_of_malformed (ht : ∀ c ∈ t, ¬ isSeparator c) (h : Malformed t) :
    entry t = .error (.invalidOption (String.ofList t)) :=
  if_pos ((malformed_iff ht).mp h)

theorem entry_of_not_malformed (ht : ∀ c ∈ t, ¬ isSeparator c) (h : ¬ Malformed t) :
    entry t = .ok (tokenEntry t) :=
  if_neg (mt (malformed_iff ht).mpr h)

theorem tokenEntry_eq_iff (ht : ∀ c ∈ t, ¬ isSeparator c) {k v : String} :
    tokenEntry t = (k, v) ↔ Denotes t k.toList v.toList := by
  rw [denotes_iff ht, tokenEntry, Prod.mk.injEq, Prod.ext_iff, ← String.toList_inj,
    ← String.toList_inj, String.toList_ofList, String.toList_ofList]

theorem names_iff (ht : ∀ c ∈ t, ¬ isSeparator c) {k : String} :
    Names t k.toList ↔ (tokenEntry t).1 = k := by
  constructor
  · rintro ⟨value, h⟩
    rw [← String.toList_ofList (l := value), ← tokenEntry_eq_iff ht] at h
    rw [h]
  · rintro rfl
    exact ⟨_, (tokenEntry_eq_iff ht).mp rfl⟩

/-! ### The tokens of a string -/

/-- The tokens are read one after the other, up to the first malformed one. -/
theorem mapM_entry_cases (hts : ∀ t ∈ ts, ∀ c ∈ t, ¬ isSeparator c) :
    (∃ pre t post, ts = pre ++ t :: post ∧ (∀ u ∈ pre, ¬ Malformed u) ∧ Malformed t ∧
      ts.mapM entry = .error (.invalidOption (String.ofList t))) ∨
    (∀ t ∈ ts, ¬ Malformed t) ∧ ts.mapM entry = .ok (ts.map tokenEntry) := by
  induction ts with
  | nil => exact .inr ⟨by simp, rfl⟩
  | cons t ts ih =>
    obtain ⟨ht, hts⟩ := List.forall_mem_cons.mp hts
    by_cases hm : Malformed t
    · refine .inl ⟨[], t, ts, rfl, by simp, hm, ?_⟩
      rw [List.mapM_cons, entry_of_malformed ht hm]
      rfl
    · rw [List.mapM_cons, entry_of_not_malformed ht hm]
      rcases ih hts with ⟨pre, u, post, rfl, hpre, hu, he⟩ | ⟨hall, hdone⟩
      · refine .inl ⟨t :: pre, u, post, rfl, List.forall_mem_cons.mpr ⟨hm, hpre⟩, hu, ?_⟩
        rw [he]
        rfl
      · refine .inr ⟨List.forall_mem_cons.mpr ⟨hm, hall⟩, ?_⟩
        rw [hdone]
        rfl

/-! ### The options that tokens set -/

theorem ofList_concat (es : List (String × String)) (e : String × String) :
    ofList (es ++ [e]) = (ofList es).set e.1 e.2 := by
  rw [ofList, ofList, List.foldl_append]
  rfl

/-- The last entry for a key counts. -/
theorem get?_ofList (es : List (String × String)) (k : String) :
    (ofList es).get? k = (es.reverse.find? (·.1 = k)).map (·.2) := by
  induction es using List.reverseRecOn with
  | nil => rfl
  | append_singleton es e ih =>
    rw [ofList_concat, get?_set, List.reverse_append, List.reverse_singleton,
      List.singleton_append, List.find?_cons, ih]
    by_cases h : e.1 = k <;> simp [h]

theorem get?_ofList_eq_some_iff {es : List (String × String)} {k v : String} :
    (ofList es).get? k = some v ↔ ∃ pre post, es = pre ++ (k, v) :: post ∧ ∀ e ∈ post, e.1 ≠ k := by
  rw [get?_ofList, Option.map_eq_some_iff]
  constructor
  · rintro ⟨⟨k', v'⟩, hfind, rfl⟩
    obtain ⟨hk, post, pre, hes, hpost⟩ := List.find?_eq_some_iff_append.mp hfind
    obtain rfl : k' = k := by simpa using hk
    refine ⟨pre.reverse, post.reverse, ?_, fun e he => ?_⟩
    · simpa using congrArg List.reverse hes
    · simpa using hpost e (List.mem_reverse.mp he)
  · rintro ⟨pre, post, rfl, hpost⟩
    have hlast : ∀ e ∈ post.reverse, (!decide (e.1 = k)) = true := fun e he => by
      simpa using hpost e (List.mem_reverse.mp he)
    refine ⟨(k, v), List.find?_eq_some_iff_append.mpr ⟨by simp, ?_⟩, rfl⟩
    exact ⟨post.reverse, pre.reverse, by simp, hlast⟩

theorem get?_ofList_eq_none_iff {es : List (String × String)} {k : String} :
    (ofList es).get? k = none ↔ ∀ e ∈ es, e.1 ≠ k := by
  simp [get?_ofList]

theorem mem_toList {o : Options} {k v : String} : (k, v) ∈ o.toList ↔ o.get? k = some v :=
  Std.ExtTreeMap.mem_toList_iff_getElem?_eq_some

theorem nodup_keys (o : Options) : (o.toList.map (·.1)).Nodup := by
  rw [toList, Std.ExtTreeMap.map_fst_toList_eq_keys]
  exact Std.ExtTreeMap.nodup_keys

/-- The options are those that the tokens set: the last token for a key gives its value. -/
structure SetBy (o : Options) (ts : List (List Char)) : Prop where
  get?_eq_some_iff : ∀ k v, o.get? k = some v ↔
    ∃ pre t post, ts = pre ++ t :: post ∧ Denotes t k.toList v.toList ∧
      ∀ u ∈ post, ¬ Names u k.toList
  get?_eq_none_iff : ∀ k, o.get? k = none ↔ ∀ t ∈ ts, ¬ Names t k.toList

theorem setBy_ofList (hts : ∀ t ∈ ts, ∀ c ∈ t, ¬ isSeparator c) :
    (ofList (ts.map tokenEntry)).SetBy ts where
  get?_eq_some_iff k v := by
    rw [get?_ofList_eq_some_iff]
    constructor
    · rintro ⟨pre, post, hes, hpost⟩
      obtain ⟨us, vs, rfl, rfl, hvs⟩ := List.map_eq_append_iff.mp hes
      obtain ⟨t, vs, rfl, ht, rfl⟩ := List.map_eq_cons_iff.mp hvs
      refine ⟨us, t, vs, rfl, (tokenEntry_eq_iff (hts t (by simp))).mp ht, fun u hu => ?_⟩
      rw [names_iff (hts u (by simp [hu]))]
      exact hpost _ (List.mem_map_of_mem hu)
    · rintro ⟨pre, t, post, rfl, ht, hpost⟩
      refine ⟨pre.map tokenEntry, post.map tokenEntry, ?_, fun e he => ?_⟩
      · rw [List.map_append, List.map_cons, (tokenEntry_eq_iff (hts t (by simp))).mpr ht]
      · obtain ⟨u, hu, rfl⟩ := List.mem_map.mp he
        rw [Ne, ← names_iff (hts u (by simp [hu]))]
        exact hpost u hu
  get?_eq_none_iff k := by
    rw [get?_ofList_eq_none_iff, List.forall_mem_map]
    refine forall₂_congr fun t ht => ?_
    rw [names_iff (hts t ht)]

/-- A key or a value that is set stands in one of the tokens, so it holds no separator. -/
theorem SetBy.not_isSeparator {o : Options} (h : o.SetBy ts)
    (hts : ∀ t ∈ ts, ∀ c ∈ t, ¬ isSeparator c) {k v : String} (hv : o.get? k = some v) :
    (∀ c ∈ k.toList, ¬ isSeparator c ∧ c ≠ ':') ∧ ∀ c ∈ v.toList, ¬ isSeparator c := by
  obtain ⟨pre, t, post, rfl, ht, -⟩ := (h.get?_eq_some_iff k v).mp hv
  obtain ⟨hkey, hvalue⟩ := ht.not_isSeparator (hts t (by simp))
  exact ⟨fun c hc => ⟨hkey c hc, fun hcolon => ht.colon_not_mem (hcolon ▸ hc)⟩, hvalue⟩

/-- An option string is refused for the first of its tokens that is malformed; if there is none,
the options are those that the tokens set. -/
theorem parse_cases (s : String) :
    (∃ pre t post, tokens s.toList = pre ++ t :: post ∧ (∀ u ∈ pre, ¬ Malformed u) ∧ Malformed t ∧
      parse s = .error (.invalidOption (String.ofList t))) ∨
    (∀ t ∈ tokens s.toList, ¬ Malformed t) ∧
      ∃ o, parse s = .ok o ∧ o.SetBy (tokens s.toList) := by
  have hts : ∀ t ∈ tokens s.toList, ∀ c ∈ t, ¬ isSeparator c := fun t =>
    not_isSeparator_of_mem_tokens
  rcases mapM_entry_cases hts with ⟨pre, t, post, heq, hpre, ht, he⟩ | ⟨hall, hdone⟩
  · refine .inl ⟨pre, t, post, heq, hpre, ht, ?_⟩
    rw [parse, he]
    rfl
  · refine .inr ⟨hall, _, ?_, setBy_ofList hts⟩
    rw [parse, hdone]
    rfl

/-- Option strings are read by their grammar. The tokens are the runs between separators, each of
which stands for one key and one value. -/
theorem parse_follows_grammar (s : String) :
    ∃ ts, (∀ us, Runs s.toList us ↔ us = ts) ∧
      (∀ t ∈ ts, ∀ key value, Denotes t key value ↔ keyValue t = (key, value)) ∧
      ((∃ f, parse s = .error f) ↔ ∃ t ∈ ts, Malformed t) ∧
      (∀ f, parse s = .error f → ∃ pre t post, ts = pre ++ t :: post ∧
        (∀ u ∈ pre, ¬ Malformed u) ∧ Malformed t ∧ f = .invalidOption (String.ofList t)) ∧
      ∀ o, parse s = .ok o →
        o.SetBy ts ∧ (o.toList.map (·.1)).Nodup ∧
        ∀ k v, ((k, v) ∈ o.toList ↔ o.get? k = some v) ∧
          ((k, v) ∈ o.toList →
            (∀ c ∈ k.toList, Text.isBlank c = false ∧ c ≠ ',' ∧ c ≠ ':') ∧
            ∀ c ∈ v.toList, Text.isBlank c = false ∧ c ≠ ',') := by
  have hts : ∀ t ∈ tokens s.toList, ∀ c ∈ t, ¬ isSeparator c := fun t =>
    not_isSeparator_of_mem_tokens
  refine ⟨tokens s.toList, fun us => runs_iff, fun t ht key value => denotes_iff (hts t ht), ?_⟩
  rcases parse_cases s with ⟨pre, t, post, heq, hpre, ht, he⟩ | ⟨hall, o, hdone, hset⟩
  · rw [he]
    refine ⟨⟨fun _ => ⟨t, by simp [heq], ht⟩, fun _ => ⟨_, rfl⟩⟩, fun f hf => ?_, fun o ho => ?_⟩
    · cases hf
      exact ⟨pre, t, post, heq, hpre, ht, rfl⟩
    · cases ho
  · rw [hdone]
    refine ⟨⟨?_, ?_⟩, fun f hf => ?_, fun o' ho => ?_⟩
    · rintro ⟨f, hf⟩
      cases hf
    · rintro ⟨t, ht, hm⟩
      exact absurd hm (hall t ht)
    · cases hf
    · cases ho
      refine ⟨hset, nodup_keys o, fun k v => ⟨mem_toList, fun hkv => ?_⟩⟩
      obtain ⟨hk, hv⟩ := hset.not_isSeparator hts (mem_toList.mp hkv)
      simp only [isSeparator, Bool.or_eq_true, decide_eq_true_eq, not_or, Bool.not_eq_true] at hk hv
      exact ⟨fun c hc => ⟨(hk c hc).1.1, (hk c hc).1.2, (hk c hc).2⟩, hv⟩

/-- A key that is set twice, to values with colons in them; and a token without a key, in front of
one without a value. -/
theorem parse_follows_grammar_of_colons :
    let o := (empty.set "a" "x:").set "b" "true"
    parse "\u2003a:1:2,b ,a:x:" = .ok o ∧ ("a", "x:") ∈ o.toList ∧ (o.toList.map (·.1)).Nodup ∧
      parse "a:1,:v b:" = .error (.invalidOption ":v") ∧
      ∃ ts, Runs "a:1,:v b:".toList ts ∧ ∃ t ∈ ts, Malformed t := by
  intro o
  have hgood : parse "\u2003a:1:2,b ,a:x:" = .ok o := by rfl
  have hbad : parse "a:1,:v b:" = .error (.invalidOption ":v") := by rfl
  have ha : o.get? "a" = some "x:" := by rfl
  obtain ⟨ts, -, -, -, -, hdone⟩ := parse_follows_grammar "\u2003a:1:2,b ,a:x:"
  obtain ⟨-, hnodup, hall⟩ := hdone o hgood
  obtain ⟨us, hruns, -, hrefused, -⟩ := parse_follows_grammar "a:1,:v b:"
  exact ⟨hgood, (hall "a" "x:").1.mpr ha, hnodup, hbad, us, (hruns us).mpr rfl,
    hrefused.mp ⟨_, hbad⟩⟩

end LinearSSA.Options
