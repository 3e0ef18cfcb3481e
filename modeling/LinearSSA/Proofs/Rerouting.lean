import LinearSSA.Chain.Reroute
import LinearSSA.Proofs.Landing

/-! Rerouted phi arguments. Unless the index has drifted from the statements, the phis that it names
are found, each of them once, so that nothing is refused, and each of them has its first argument
from the statement spread over the control predecessors. On a well-formed chain these are all the
phis with an argument from the statement. -/

namespace LinearSSA

theorem nodup_eraseDups : (ls : List Label) → ls.eraseDups.Nodup
  | [] => List.nodup_nil
  | l :: ls => by
    rw [List.eraseDups_cons]
    refine List.nodup_cons.mpr ⟨fun h => ?_, nodup_eraseDups _⟩
    have hl := (List.mem_filter.mp (List.mem_eraseDups.mp h)).2
    simp at hl
termination_by ls => ls.length
decreasing_by exact Nat.lt_succ_of_le (List.length_filter_le _ _)

/-- What is read off labels without repetitions names each of them at most once. -/
theorem nodup_map_filterMap {α : Type} {f : Label → Option α} {g : α → Label}
    (hg : ∀ l a, f l = some a → g a = l) {ls : List Label} (hd : ls.Nodup) :
    ((ls.filterMap f).map g).Nodup := by
  rw [List.map_filterMap]
  refine List.Nodup.filterMap (fun k k' l hk hk' => ?_) hd
  obtain ⟨a, ha, rfl⟩ := Option.map_eq_some_iff.mp hk
  obtain ⟨b, hb, hab⟩ := Option.map_eq_some_iff.mp hk'
  rw [← hg k a ha, ← hg k' b hb, hab]

namespace Phi

variable {φ : Phi} {l k : Label} {preds : List Label}

/-- The value of the first argument from `l` comes from each of `preds` instead. -/
def reroute (φ : Phi) (l : Label) (preds : List Label) : Phi :=
  match φ.valueFrom? l with
  | none => φ
  | some v => ⟨φ.args.eraseP (·.pred = l) ++ preds.map (⟨v, ·⟩)⟩

theorem reroute_of_not_mem (h : l ∉ φ.preds) : φ.reroute l preds = φ := by
  have hn : φ.valueFrom? l = none := by
    rw [← Option.not_isSome_iff_eq_none]
    exact mt valueFrom?_isSome.mp h
  rw [reroute, hn]

theorem foldl_addArg (φ : Phi) (v : Operand) (preds : List Label) :
    preds.foldl (·.addArg v ·) φ = ⟨φ.args ++ preds.map (⟨v, ·⟩)⟩ := by
  induction preds generalizing φ with
  | nil => simp
  | cons p ps ih => rw [List.foldl_cons, ih]; simp [addArg]

/-- The argument at the first position from `l` is the one that `eraseP` takes out. -/
theorem eraseIdx_argIndex? {i : Nat} (hi : φ.argIndex? l = some i) :
    φ.args.eraseIdx i = φ.args.eraseP (·.pred = l) := by
  obtain ⟨args⟩ := φ
  induction args generalizing i with
  | nil => simp [argIndex?, preds] at hi
  | cons a as ih =>
    by_cases ha : a.pred = l
    · obtain rfl : i = 0 := by simpa [argIndex?, Phi.preds, List.idxOf?_cons, ha] using hi.symm
      simp [ha]
    · obtain ⟨j, hj, rfl⟩ : ∃ j, argIndex? ⟨as⟩ l = some j ∧ j + 1 = i := by
        simpa [argIndex?, Phi.preds, List.idxOf?_cons, ha] using hi
      rw [List.eraseIdx_cons_succ, List.eraseP_cons_of_neg (by simpa using ha), ih hj]

theorem spread_eq_reroute {i : Nat} {v : Operand} (hi : φ.argIndex? l = some i)
    (hv : φ.value? i = some v) : φ.spread i v preds = φ.reroute l preds := by
  obtain ⟨a, ha, rfl⟩ := Option.map_eq_some_iff.mp hv
  have hval : φ.valueFrom? l = some a.value := by rw [valueFrom?, hi]; exact hv
  rw [spread, removeArg?, ha, reroute, hval]
  simp [foldl_addArg, eraseIdx_argIndex? hi]

theorem preds_reroute (hl : l ∈ φ.preds) :
    (φ.reroute l preds).preds = φ.preds.erase l ++ preds := by
  obtain ⟨v, hv⟩ := Option.isSome_iff_exists.mp (valueFrom?_isSome.mpr hl)
  have herase : (φ.args.eraseP (·.pred = l)).map (·.pred) = φ.preds.erase l := by
    rw [List.erase_eq_eraseP', Phi.preds, List.eraseP_map]
    rfl
  have hnew : (preds.map fun p => (⟨v, p⟩ : Arg)).map (·.pred) = preds := by
    rw [List.map_map]
    exact List.map_id preds
  rw [reroute, hv, Phi.preds, List.map_append, herase, hnew]

/-- One argument from `l` is lost, unless `l` is among the new labels. -/
theorem count_preds_reroute (hp : l ∉ preds) :
    (φ.reroute l preds).preds.count l = φ.preds.count l - 1 := by
  by_cases hl : l ∈ φ.preds
  · rw [preds_reroute hl, List.count_append, List.count_erase_self, List.count_eq_zero.mpr hp]
    rfl
  · rw [reroute_of_not_mem hl, List.count_eq_zero.mpr hl]

/-- What flows in from another statement is what did before, and the value from `l` where
that statement is new. -/
theorem valueFrom?_reroute (hk : k ≠ l) :
    (φ.reroute l preds).valueFrom? k =
      (φ.valueFrom? k).or (if k ∈ preds then φ.valueFrom? l else none) := by
  cases hv : φ.valueFrom? l with
  | none => rw [reroute, hv]; simp
  | some v =>
    have hrest : (φ.args.eraseP (·.pred = l)).find? (·.pred = k) = φ.args.find? (·.pred = k) := by
      induction φ.args with
      | nil => rfl
      | cons a as ih =>
        by_cases ha : a.pred = l
        · simp [ha, hk.symm]
        · rw [List.eraseP_cons_of_neg (by simpa using ha), List.find?_cons, List.find?_cons, ih]
    have hnew : (preds.map (⟨v, ·⟩)).find? (fun a : Arg => a.pred = k) =
        if k ∈ preds then some ⟨v, k⟩ else none := by
      induction preds with
      | nil => rfl
      | cons p ps ih =>
        by_cases hp : p = k
        · simp [hp]
        · simp [hp, ih, Ne.symm hp]
    rw [reroute, hv]
    simp only [valueFrom?_eq, List.find?_append, hrest, hnew]
    cases φ.args.find? (·.pred = k) <;> split <;> rfl

end Phi

namespace Stmt

/-- A phi without an argument from `l` is not rerouted. -/
theorem mapPhi_reroute_of_not_mem {s : Stmt} {l : Label} (h : l ∉ s.phiPreds)
    (preds : List Label) : s.mapPhi (·.reroute l preds) = s := by
  cases s with
  | assign x r =>
    cases r with
    | phi φ => exact congrArg (fun φ => assign x (.phi φ)) (Phi.reroute_of_not_mem h)
    | _ => rfl
  | _ => rfl

theorem mapPhi_congr {f g : Phi → Phi} {s : Stmt} (h : ∀ φ, s.phi? = some φ → f φ = g φ) :
    s.mapPhi f = s.mapPhi g := by
  cases s with
  | assign x r =>
    cases r with
    | phi φ => exact congrArg (fun φ => assign x (.phi φ)) (h φ rfl)
    | _ => rfl
  | _ => rfl

theorem phi?_of_mem_phiPreds {s : Stmt} {l : Label} (h : l ∈ s.phiPreds) :
    ∃ φ, s.phi? = some φ ∧ l ∈ φ.preds := by
  unfold phiPreds at h
  split at h
  · next φ hφ => exact ⟨φ, hφ, h⟩
  · cases h

theorem phiPreds_of_phi? {s : Stmt} {φ : Phi} (h : s.phi? = some φ) : s.phiPreds = φ.preds := by
  rw [phiPreds, h]

theorem phiPreds_reroute {s : Stmt} {l : Label} (h : l ∈ s.phiPreds) (preds : List Label) :
    (s.mapPhi (·.reroute l preds)).phiPreds = s.phiPreds.erase l ++ preds := by
  obtain ⟨φ, hφ, hl⟩ := phi?_of_mem_phiPreds h
  simp only [phiPreds, phi?_mapPhi, hφ, Option.map_some]
  exact Phi.preds_reroute hl

end Stmt

namespace Chain

variable {c : Chain} {l : Label}

theorem phis_eq (c : Chain) :
    c.phis = c.labels.filterMap fun p => ((c.get? p).bind (·.phi?)).map (p, ·) := by
  rw [phis, lines, List.filterMap_filterMap]
  congr 1
  funext p
  cases c.get? p <;> rfl

theorem Maps.phis_eq_map {c' : Chain} {f : Stmt → Stmt} {g : Phi → Phi} (h : c.Maps f c')
    (hf : ∀ s, (f s).phi? = s.phi?.map g) : c'.phis = c.phis.map fun x => (x.1, g x.2) := by
  rw [phis_eq, phis_eq, h.labels, List.map_filterMap]
  refine List.filterMap_congr fun p _ => ?_
  rw [h.get?]
  cases c.get? p with
  | none => rfl
  | some s => simp [hf, Function.comp_def]

/-- A phi is listed once. -/
theorem nodup_map_phis (hd : c.labels.Nodup) : (c.phis.map (·.1)).Nodup := by
  rw [phis_eq]
  refine nodup_map_filterMap (fun p x hx => ?_) hd
  obtain ⟨φ, -, rfl⟩ := Option.map_eq_some_iff.mp hx
  rfl

/-- The binding is the first argument from `l` of a phi. -/
def Binds (c : Chain) (l : Label) (b : Binding) : Prop :=
  ∃ s φ, c.get? b.phi = some s ∧ s.phi? = some φ ∧ φ.argIndex? l = some b.position ∧
    φ.value? b.position = some b.value

theorem bindingOf_of_mem {p : Label} {s : Stmt} (hs : c.get? p = some s) (hl : l ∈ s.phiPreds) :
    ∃ b, c.bindingOf l p = .ok b ∧ b.phi = p ∧ c.Binds l b := by
  obtain ⟨φ, hφ, hl⟩ := Stmt.phi?_of_mem_phiPreds hl
  obtain ⟨i, hi⟩ := Option.isSome_iff_exists.mp (Phi.argIndex?_isSome.mpr hl)
  obtain ⟨v, hv⟩ : ∃ v, φ.value? i = some v := by
    have h := Phi.valueFrom?_isSome.mpr hl
    rw [Phi.valueFrom?, hi] at h
    exact Option.isSome_iff_exists.mp h
  exact ⟨⟨p, i, v⟩, by simp [bindingOf, hs, hφ, hi, hv], rfl, s, φ, hs, hφ, hi, hv⟩

/-- All the arguments are found. -/
theorem mapM_bindingOf {ps : List Label}
    (hps : ∀ p ∈ ps, ∃ s, c.get? p = some s ∧ l ∈ s.phiPreds) :
    ∃ bs, ps.mapM (c.bindingOf l) = .ok bs ∧ bs.map (·.phi) = ps ∧ ∀ b ∈ bs, c.Binds l b := by
  induction ps with
  | nil => exact ⟨[], rfl, rfl, by simp⟩
  | cons p ps ih =>
    obtain ⟨s, hs, hl⟩ := hps p (by simp)
    obtain ⟨b, hb, hphi, hbinds⟩ := bindingOf_of_mem hs hl
    obtain ⟨bs, hbs, hphis, hall⟩ := ih fun q hq => hps q (by simp [hq])
    refine ⟨b :: bs, ?_, by rw [List.map_cons, hphi, hphis], ?_⟩
    · rw [List.mapM_cons, hb, hbs]
      rfl
    · rintro b' (_ | ⟨_, hb'⟩)
      · exact hbinds
      · exact hall b' hb'

theorem isPhiAt_iff {q : Label} :
    c.isPhiAt q = true ↔ ∃ s φ, c.get? q = some s ∧ s.phi? = some φ := by
  simp [isPhiAt, Option.any_eq_true, Stmt.isPhi, Option.isSome_iff_exists]

/-- A list of phis, each of them once, is as long as there are such phis. -/
theorem length_eq_countP_phis (hd : c.labels.Nodup) {ps : List Label} (hps : ps.Nodup)
    {q : Label × Phi → Bool} (hmem : ∀ p, p ∈ ps ↔ ∃ φ, (p, φ) ∈ c.phis ∧ q (p, φ) = true) :
    ps.length = c.phis.countP q := by
  have hnodup : ((c.phis.filter q).map (·.1)).Nodup :=
    (nodup_map_phis hd).sublist (List.filter_sublist.map _)
  have hperm : ps.Perm ((c.phis.filter q).map (·.1)) := by
    refine (List.perm_ext_iff_of_nodup hps hnodup).mpr fun p => ?_
    simp [hmem]
  rw [hperm.length_eq, List.length_map, List.countP_eq_length_filter]

/-! ### Whatever the index says -/

theorem mem_map_source {p : Label} :
    p ∈ (c.provenanceOf l).map (·.source) ↔ ⟨p, .provenance⟩ ∈ c.refsTo l := by
  simp only [provenanceOf, List.mem_map, List.mem_filter]
  constructor
  · rintro ⟨⟨p, kind⟩, ⟨hm, hk⟩, rfl⟩
    cases kind with
    | jump => simp [Use.isJump] at hk
    | provenance => exact hm
  · exact fun h => ⟨⟨p, .provenance⟩, ⟨h, rfl⟩, rfl⟩

theorem all_isJump_iff : (c.refsTo l).all (·.isJump) = true ↔ c.provenanceOf l = [] := by
  simp [provenanceOf, List.filter_eq_nil_iff]

/-- Without phi arguments from `l` there is nothing to reroute. -/
theorem reroute_of_provenanceOf (hl : c.contains l = true) (hp : c.provenanceOf l = []) :
    c.reroute l = .done 0 c := by
  rw [Chain.reroute, hl, all_isJump_iff.mpr hp]
  rfl

/-- The statement under `p` is a phi without an argument from `l`. -/
def UnboundPhi (c : Chain) (p l : Label) : Prop :=
  ∃ s φ, c.get? p = some s ∧ s.phi? = some φ ∧ l ∉ φ.preds

/-- The index says that a phi argument comes from `l`, but its holder is not in the chain, or is a
phi without such an argument. -/
def Drifted (c : Chain) (l : Label) : Prop :=
  ∃ p, ⟨p, .provenance⟩ ∈ c.refsTo l ∧ (c.contains p = false ∨ c.UnboundPhi p l)

theorem contains_of_not_drifted (h : ¬ c.Drifted l) {p : Label}
    (hp : ⟨p, .provenance⟩ ∈ c.refsTo l) : c.contains p = true := by
  by_contra hnot
  exact h ⟨p, hp, .inl (by simpa using hnot)⟩

theorem mem_preds_of_not_drifted (h : ¬ c.Drifted l) {p : Label} {s : Stmt} {φ : Phi}
    (hp : ⟨p, .provenance⟩ ∈ c.refsTo l) (hs : c.get? p = some s) (hφ : s.phi? = some φ) :
    l ∈ φ.preds := by
  by_contra hnot
  exact h ⟨p, hp, .inr ⟨s, φ, hs, hφ, hnot⟩⟩

/-- If none of the recorded holders is missing, the phis among them are found, each of them once. -/
theorem phiUsers_of_contains (h : ∀ p, ⟨p, .provenance⟩ ∈ c.refsTo l → c.contains p = true) :
    ∃ ps, c.phiUsers l = .ok ps ∧ ps.Nodup ∧
      ∀ p, p ∈ ps ↔ ⟨p, .provenance⟩ ∈ c.refsTo l ∧ c.isPhiAt p = true := by
  have hfind : ((c.provenanceOf l).map (·.source)).find? (!c.contains ·) = none := by
    refine List.find?_eq_none.mpr fun p hp => ?_
    simp [h p (mem_map_source.mp hp)]
  refine ⟨_, by rw [Chain.phiUsers, hfind], nodup_eraseDups _, fun p => ?_⟩
  rw [List.mem_eraseDups, List.mem_filter, mem_map_source]

/-- One phi after another is changed, and none of the changes is refused. -/
theorem spreadEach_done (preds : List Label) {bs : List Binding}
    (hd : (bs.map (·.phi)).Nodup) (hbs : ∀ b ∈ bs, c.Binds l b) :
    ∃ c', spreadEach preds bs c = .done () c' ∧ c'.labels = c.labels ∧
      ∀ k, c'.get? k =
        if k ∈ bs.map (·.phi) then (c.get? k).map (·.mapPhi (·.reroute l preds)) else c.get? k := by
  induction bs generalizing c with
  | nil => exact ⟨c, rfl, rfl, fun k => by simp⟩
  | cons b bs ih =>
    obtain ⟨hb, hd⟩ := List.nodup_cons.mp hd
    obtain ⟨s, φ, hs, hφ, hi, hv⟩ := hbs b (by simp)
    have hget := fun k => get?_update c b.phi k (·.mapPhi (·.spread b.position b.value preds))
    have hrest : ∀ b' ∈ bs,
        (c.update b.phi (·.mapPhi (·.spread b.position b.value preds))).Binds l b' := by
      intro b' hb'
      have hne : b'.phi ≠ b.phi := fun he => hb (List.mem_map.mpr ⟨b', hb', he⟩)
      obtain ⟨s', φ', hs', h⟩ := hbs b' (by simp [hb'])
      exact ⟨s', φ', by rw [hget, if_neg hne, hs'], h⟩
    obtain ⟨c', hdone, hlabels, hget'⟩ := ih hd hrest
    refine ⟨c', ?_, by rw [hlabels, labels_update], fun k => ?_⟩
    · rw [spreadEach, modify, hs]
      exact hdone
    · rw [hget' k, hget k]
      by_cases hk : k = b.phi
      · subst hk
        have hsame : s.mapPhi (·.spread b.position b.value preds) =
            s.mapPhi (·.reroute l preds) := by
          refine Stmt.mapPhi_congr fun φ' hφ' => ?_
          obtain rfl : φ = φ' := Option.some.inj (hφ.symm.trans hφ')
          exact Phi.spread_eq_reroute hi hv
        simp [hb, hs, hsame]
      · simp [hk]

/-- Unless the index has drifted, the phis that it names are rerouted, each of them once, and
nothing else changes. -/
theorem reroute_of_not_drifted (hl : c.contains l = true) (h : ¬ c.Drifted l) :
    ∃ (ps : List Label) (c' : Chain),
      ps.Nodup ∧ (∀ p, p ∈ ps ↔ ⟨p, .provenance⟩ ∈ c.refsTo l ∧ c.isPhiAt p = true) ∧
      c.reroute l = .done ps.length c' ∧ c'.labels = c.labels ∧
      ∀ k, c'.get? k =
        if k ∈ ps then (c.get? k).map (·.mapPhi (·.reroute l (c.controlPreds l)))
        else c.get? k := by
  obtain ⟨ps, hps, hd, hmem⟩ := phiUsers_of_contains fun _ => contains_of_not_drifted h
  have hbound : ∀ p ∈ ps, ∃ s, c.get? p = some s ∧ l ∈ s.phiPreds := by
    intro p hp
    obtain ⟨hentry, hphi⟩ := (hmem p).mp hp
    obtain ⟨s, φ, hs, hφ⟩ := isPhiAt_iff.mp hphi
    refine ⟨s, hs, ?_⟩
    rw [Stmt.phiPreds_of_phi? hφ]
    exact mem_preds_of_not_drifted h hentry hs hφ
  obtain ⟨bs, hbs, rfl, hall⟩ := mapM_bindingOf hbound
  obtain ⟨c', hdone, hlabels, hget⟩ := spreadEach_done (c.controlPreds l) hd hall
  have hbind : (c.phiUsers l).bind (·.mapM (c.bindingOf l)) = .ok bs := by rw [hps]; exact hbs
  refine ⟨_, c', hd, hmem, ?_, hlabels, hget⟩
  by_cases hp : c.provenanceOf l = []
  · -- no phi is named, so that there is nothing to change
    obtain rfl : bs = [] := List.map_eq_nil_iff.mp <|
      List.eq_nil_iff_forall_not_mem.mpr fun p hm => by
        have hentry := mem_map_source.mpr ((hmem p).mp hm).1
        simp [hp] at hentry
    obtain rfl : c = c' := congrArg Outcome.chain hdone
    exact reroute_of_provenanceOf hl hp
  · have hj : (c.refsTo l).all (·.isJump) = false :=
      Bool.eq_false_iff.mpr (mt all_isJump_iff.mp hp)
    rw [reroute, hl, hbind, hj, List.length_map]
    simp [hdone]

namespace WellFormed

/-! ### Well-formed chains -/

theorem mem_phis (hc : c.WellFormed) {p : Label} {φ : Phi} :
    (p, φ) ∈ c.phis ↔ ∃ s, c.get? p = some s ∧ s.phi? = some φ := by
  simp only [phis, List.mem_filterMap, mem_lines, Option.map_eq_some_iff, Prod.mk.injEq]
  constructor
  · rintro ⟨x, ⟨-, hx⟩, ψ, hψ, rfl, rfl⟩
    exact ⟨x.stmt, hx, hψ⟩
  · rintro ⟨s, hs, hφ⟩
    exact ⟨⟨p, s⟩, ⟨hc.mem_labels_of_get? hs, hs⟩, φ, hφ, rfl, rfl⟩

theorem isPhiAt_iff_mem_phis (hc : c.WellFormed) {p : Label} :
    c.isPhiAt p = true ↔ ∃ φ, (p, φ) ∈ c.phis := by
  simp only [isPhiAt_iff, hc.mem_phis]
  exact exists_comm

/-- The index names the phis with an argument from `l`. -/
theorem named_iff (hc : c.WellFormed) {p : Label} :
    ⟨p, .provenance⟩ ∈ c.refsTo l ∧ c.isPhiAt p = true ↔
      ∃ s, c.get? p = some s ∧ l ∈ s.phiPreds := by
  simp only [hc.mem_refsTo, Stmt.mem_refs_provenance]
  refine ⟨And.left, fun h => ⟨h, ?_⟩⟩
  obtain ⟨s, hs, hl⟩ := h
  obtain ⟨φ, hφ, -⟩ := Stmt.phi?_of_mem_phiPreds hl
  exact isPhiAt_iff.mpr ⟨s, φ, hs, hφ⟩

theorem not_drifted (hc : c.WellFormed) (l : Label) : ¬ c.Drifted l := by
  rintro ⟨p, hentry, hcause⟩
  obtain ⟨s, hs, hr⟩ := hc.mem_refsTo.mp hentry
  have hl := (s.mem_refs_provenance l).mp hr
  rcases hcause with hmissing | ⟨t, φ, ht, hφ, hnot⟩
  · simp [contains, hs] at hmissing
  · obtain rfl : s = t := Option.some.inj (hs.symm.trans ht)
    rw [Stmt.phiPreds_of_phi? hφ] at hl
    exact hnot hl

/-- The phis with an argument from `l` are found, each of them once. -/
theorem phiUsers (hc : c.WellFormed) (l : Label) :
    ∃ ps, c.phiUsers l = .ok ps ∧ ps.Nodup ∧
      ∀ p, p ∈ ps ↔ ∃ s, c.get? p = some s ∧ l ∈ s.phiPreds := by
  obtain ⟨ps, hps, hd, hmem⟩ := phiUsers_of_contains (c := c) (l := l) fun p hp => by
    obtain ⟨s, hs, -⟩ := hc.mem_refsTo.mp hp
    exact contains_iff.mpr ⟨s, hs⟩
  exact ⟨ps, hps, hd, fun p => (hmem p).trans hc.named_iff⟩

theorem chain_spreadEach (hc : c.WellFormed) (preds : List Label) (bs : List Binding) :
    (spreadEach preds bs c).chain.WellFormed := by
  induction bs generalizing c with
  | nil => exact hc
  | cons b bs ih =>
    refine Outcome.chain_bind ?_ fun _ _ hc' => ih hc'
    rw [chain_modify]
    exact hc.update _ _

theorem chain_reroute (hc : c.WellFormed) (l : Label) : (c.reroute l).chain.WellFormed := by
  unfold Chain.reroute
  split
  · exact hc
  · split
    · exact hc
    · split
      · exact hc
      · rw [Outcome.chain_map]
        exact hc.chain_spreadEach _ _

theorem mem_controlPreds (hc : c.WellFormed) {p : Label} :
    p ∈ c.controlPreds l ↔ c.Edge p l := by
  rw [controlPreds, List.mem_eraseDups, List.mem_append, edge_iff_fallsInto? hc.nodup, or_comm]
  have hjump : p ∈ c.jumpersTo l ↔ ∃ s, c.get? p = some s ∧ l ∈ s.jumpTargets := by
    simp only [jumpersTo, List.mem_map, List.mem_filter, mem_lines, decide_eq_true_eq]
    constructor
    · rintro ⟨x, ⟨⟨-, hx⟩, hl⟩, rfl⟩
      exact ⟨x.stmt, hx, hl⟩
    · rintro ⟨s, hs, hl⟩
      exact ⟨⟨p, s⟩, ⟨⟨hc.mem_labels_of_get? hs, hs⟩, hl⟩, rfl⟩
  rw [hjump, Option.mem_toList]

/-- Every phi is rerouted, and nothing else changes. -/
theorem reroute (hc : c.WellFormed) (hl : c.contains l = true) :
    ∃ c', c.reroute l = .done (c.phis.countP (l ∈ ·.2.preds)) c' ∧
      c.Maps (·.mapPhi (·.reroute l (c.controlPreds l))) c' := by
  obtain ⟨ps, c', hd, hmem, hdone, hlabels, hget⟩ := reroute_of_not_drifted hl (hc.not_drifted l)
  have hbound : ∀ p, p ∈ ps ↔ ∃ s, c.get? p = some s ∧ l ∈ s.phiPreds :=
    fun p => (hmem p).trans hc.named_iff
  have hlength : ps.length = c.phis.countP (l ∈ ·.2.preds) := by
    refine length_eq_countP_phis hc.nodup hd fun p => (hbound p).trans ?_
    constructor
    · rintro ⟨s, hs, hp⟩
      obtain ⟨φ, hφ, hp⟩ := Stmt.phi?_of_mem_phiPreds hp
      exact ⟨φ, hc.mem_phis.mpr ⟨s, hs, hφ⟩, decide_eq_true hp⟩
    · rintro ⟨φ, hm, hp⟩
      obtain ⟨s, hs, hφ⟩ := hc.mem_phis.mp hm
      exact ⟨s, hs, by rw [Stmt.phiPreds_of_phi? hφ]; exact of_decide_eq_true hp⟩
  have hwf : c'.WellFormed := by
    have h := hc.chain_reroute l
    rwa [hdone, Outcome.chain_done] at h
  refine ⟨c', hlength ▸ hdone, hwf, hlabels, fun k => ?_⟩
  rw [hget k]
  split
  · rfl
  · next hk =>
    cases hs : c.get? k with
    | none => rfl
    | some s =>
      have hnot : l ∉ s.phiPreds := fun h => hk ((hbound k).mpr ⟨s, hs, h⟩)
      rw [Option.map_some, Stmt.mapPhi_reroute_of_not_mem hnot]

/-- A rerouting is refused and changes nothing, or it is done. -/
theorem reroute_cases (hc : c.WellFormed) (l : Label) :
    (∃ e, c.reroute l = .refused e c) ∨
      ∃ n c', c.reroute l = .done n c' ∧
        c.Maps (·.mapPhi (·.reroute l (c.controlPreds l))) c' := by
  cases hl : c.contains l with
  | false => exact .inl ⟨.unknownStmt l, by rw [Chain.reroute, hl]; rfl⟩
  | true => exact .inr ⟨_, hc.reroute hl⟩

/-- With a landing, an excision is a removal after a rerouting that keeps the landing. -/
theorem excise_of_landing (hc : c.WellFormed) {d : Option Label}
    (hl : c.landing l = .ok d) :
    ∃ c₁, c.Maps (·.mapPhi (·.reroute l (c.controlPreds l))) c₁ ∧ c₁.landing l = .ok d ∧
      c.excise l = c₁.remove l := by
  obtain ⟨c₁, hdone, hmaps⟩ := hc.reroute (contains_iff.mpr (get?_of_landing hl))
  refine ⟨c₁, hmaps, ?_, by rw [Chain.excise, hl, hdone]; rfl⟩
  rw [hmaps.landing (Stmt.jumpTargets_mapPhi _) (Stmt.fallsThrough_mapPhi _) hc, hl]

/-- An excision is refused at once, or it is a removal after a rerouting. -/
theorem excise_cases (hc : c.WellFormed) (l : Label) :
    (∃ e, c.excise l = .refused e c) ∨
      ∃ c₁, c.Maps (·.mapPhi (·.reroute l (c.controlPreds l))) c₁ ∧ c.excise l = c₁.remove l := by
  cases hl : c.landing l with
  | error e => exact .inl ⟨e, by rw [Chain.excise, hl]⟩
  | ok d =>
    obtain ⟨c₁, hmaps, -, heq⟩ := hc.excise_of_landing hl
    exact .inr ⟨c₁, hmaps, heq⟩

end WellFormed

end Chain

end LinearSSA
