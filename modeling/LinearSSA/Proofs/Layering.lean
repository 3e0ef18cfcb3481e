import LinearSSA.Conversion

/-! Layers of options. Two option strings with a separator between them have the tokens of the
first followed by those of the second, so the whole parses to the second layered on top of the
first, and its first malformed token is the first of the earlier string that has one. A body is
therefore converted with an option string as it is with the two strings written as one: options
are given their meaning only after they are layered. -/

namespace LinearSSA

namespace Options

/-! ### Entries -/

@[simp] theorem merged_empty (o : Options) : o.merged empty = o :=
  ext_get? fun key => by simp

theorem merged_set (o p : Options) (key value : String) :
    (o.merged p).set key value = o.merged (p.set key value) := by
  refine ext_get? fun k => ?_
  by_cases h : key = k <;> simp [h]

theorem ofList_append (es fs : List (String × String)) :
    ofList (es ++ fs) = (ofList es).merged (ofList fs) := by
  have hset : ∀ (p : Options) (e : String × String),
      ((ofList es).merged p).set e.1 e.2 = (ofList es).merged (p.set e.1 e.2) :=
    fun p e => merged_set _ p e.1 e.2
  calc ofList (es ++ fs)
      = fs.foldl (fun o e => o.set e.1 e.2) (ofList es) := List.foldl_append
    _ = fs.foldl (fun o e => o.set e.1 e.2) ((ofList es).merged empty) := by rw [merged_empty]
    _ = (ofList es).merged (ofList fs) := List.foldl_hom _ hset

/-! ### Tokens -/

theorem tokens_append {c : Char} (hc : isSeparator c) (r o : List Char) :
    tokens (r ++ c :: o) = tokens r ++ tokens o := by
  rw [tokens, List.splitOnP_append_cons r o hc, List.filter_append]
  rfl

theorem tokens_of_separators {o : List Char} (ho : ∀ c ∈ o, isSeparator c) : tokens o = [] := by
  induction o with
  | nil => rfl
  | cons c o ih =>
    have htail : tokens o = [] := ih fun d hd => ho d (List.mem_cons_of_mem c hd)
    calc tokens (c :: o)
        = tokens [] ++ tokens o := tokens_append (ho c List.mem_cons_self) [] o
      _ = [] := htail

/-! ### Option strings -/

theorem parse_append {c : Char} (hc : isSeparator c) (r o : String) :
    parse (r ++ String.singleton c ++ o) =
      (parse r).bind fun p => (parse o).map fun q => p.merged q := by
  have htokens : tokens (r ++ String.singleton c ++ o).toList =
      tokens r.toList ++ tokens o.toList := by
    simpa using tokens_append hc r.toList o.toList
  rw [parse, htokens, List.mapM_append]
  unfold parse
  cases (tokens r.toList).mapM entry with
  | error f => rfl
  | ok es =>
    cases (tokens o.toList).mapM entry with
    | error f => rfl
    | ok fs => exact congrArg Except.ok (ofList_append es fs)

theorem parse_of_separators {o : String} (ho : ∀ c ∈ o.toList, isSeparator c) :
    parse o = .ok empty := by
  rw [parse, tokens_of_separators ho]
  rfl

end Options

/-! ### Conversions -/

namespace Body

theorem liftIn_insert (build : Builder) (reg : Registry) (phase : String) (o : Options)
    (b : Body) :
    b.liftIn build (reg.insert phase o) phase =
      (Settings.ofOptions phase o).bind (build b) := by
  rw [liftIn, Registry.insert_self]

/-- An option string is layered on what is registered for the phase. -/
theorem liftWith_eq (build : Builder) (reg : Registry) (phase o : String) (b : Body) :
    b.liftWith build reg phase o =
      (Options.parse o).bind fun q =>
        b.liftIn build (reg.insert phase ((reg phase).merged q)) phase := by
  simp only [liftIn_insert]
  rfl

theorem liftWith_of_separators (build : Builder) (reg : Registry) (phase : String) {o : String}
    (b : Body) (ho : ∀ c ∈ o.toList, Options.isSeparator c) :
    b.liftWith build reg phase o = b.liftIn build reg phase := by
  rw [liftWith_eq, Options.parse_of_separators ho]
  simp only [Except.bind, Options.merged_empty, liftIn_insert]
  rfl

/-- Option strings are layered as they are concatenated, with a separator in between; it does
not matter whether a body is converted with the second on top of the first or with both as one,
and separators by themselves have no effect. -/
theorem layers_concat (build : Builder) (reg : Registry) (phase r o : String) (b : Body)
    {c : Char} (hc : Options.isSeparator c) :
    (Options.parse (r ++ String.singleton c ++ o) =
        (Options.parse r).bind fun p => (Options.parse o).map fun q => p.merged q) ∧
      (Options.parse r = .ok (reg phase) →
        b.liftWith build reg phase o =
          (Options.parse (r ++ String.singleton c ++ o)).bind fun q =>
            b.liftIn build (reg.insert phase q) phase) ∧
      ((∀ d ∈ o.toList, Options.isSeparator d) →
        b.liftWith build reg phase o = b.liftIn build reg phase) := by
  have hparse := Options.parse_append hc r o
  refine ⟨hparse, fun hr => ?_, liftWith_of_separators build reg phase b⟩
  rw [hparse, hr, liftWith_eq]
  cases Options.parse o <;> rfl

/-- What is registered for the phase has a value that is not a truth value; an option string on
top of it repairs that, separators do not. -/
theorem layers_concat_of_repair :
    let b : Body := ofSignature ⟨"main", 1⟩
    let build : Builder := .verbatim fun _ => false
    let reg := Registry.empty.insert "ssa" (Options.empty.set "naive-phi-elimination" "maybe")
    let repaired := Options.empty.set "naive-phi-elimination" "true"
    Options.parse "naive-phi-elimination:maybe" = .ok (reg "ssa") ∧
      b.liftWith build reg "ssa" " ,\t" =
        .error (.invalidOption "naive-phi-elimination:maybe") ∧
      b.liftWith build reg "ssa" "naive-phi-elimination" =
        ((Options.parse "naive-phi-elimination:maybe,naive-phi-elimination").bind fun q =>
          b.liftIn build (reg.insert "ssa" q) "ssa") ∧
      b.liftWith build reg "ssa" "naive-phi-elimination" =
        .ok (.ofParts b.signature b.locals b.chain ⟨"ssa", true, repaired⟩) := by
  intro b build reg repaired
  have hc : Options.isSeparator ',' := by decide
  have hr : Options.parse "naive-phi-elimination:maybe" = .ok (reg "ssa") := by rfl
  have hblank : ∀ c ∈ " ,\t".toList, Options.isSeparator c := List.all_eq_true.mp (by decide)
  have hseparators := (layers_concat build reg "ssa" "" " ,\t" b hc).2.2 hblank
  have hlayers := (layers_concat build reg "ssa" "naive-phi-elimination:maybe"
    "naive-phi-elimination" b hc).2.1 hr
  exact ⟨hr, hseparators.trans (by rfl), hlayers, by rfl⟩

end Body

end LinearSSA
