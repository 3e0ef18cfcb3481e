import LinearSSA.Chain.Recording
import LinearSSA.Proofs.Reachable

/-! The order of the recorded references. An edit is a row of steps each of which records one
statement, and a step takes the entries of its statement out, wherever they stand, and puts them
behind all others. So the entries for any statement stand in the order in which their holders were
recorded last, those of one holder side by side. -/

namespace LinearSSA

/-! ### Lists -/

/-- Of entries that stand side by side where they have one holder, those of one holder go. -/
theorem flatMap_diff {ls : List Label} (hd : ls.Nodup) {entries : Label → List Use}
    (hsource : ∀ l, ∀ u ∈ entries l, u.source = l) (l : Label) :
    (ls.flatMap entries).diff (entries l) = (ls.filter (· ≠ l)).flatMap entries := by
  induction ls with
  | nil => simp
  | cons k ls ih =>
    obtain ⟨hk, hd⟩ := List.nodup_cons.mp hd
    rw [List.flatMap_cons, List.filter_cons]
    by_cases hkl : k = l
    · subst hkl
      have hrest : ls.filter (· ≠ k) = ls :=
        List.filter_eq_self.mpr fun a ha => by simpa using fun he : a = k => hk (he ▸ ha)
      rw [append_diff_self, if_neg (by simp), hrest]
    · have hdisj : ∀ u ∈ entries k, u ∉ entries l := fun u hu hul =>
        hkl ((hsource k u hu).symm.trans (hsource l u hul))
      rw [append_diff_of_disjoint hdisj, ih hd, if_pos (by simpa using hkl), List.flatMap_cons]

theorem flatMap_filter_congr {ls : List Label} {l : Label} {entries entries' : Label → List Use}
    (h : ∀ k, k ≠ l → entries' k = entries k) :
    (ls.filter (· ≠ l)).flatMap entries' = (ls.filter (· ≠ l)).flatMap entries := by
  refine List.flatMap_congr fun k hk => h k ?_
  simpa using (List.mem_filter.mp hk).2

theorem dedup_append_singleton (ls : List Label) (l : Label) :
    (ls ++ [l]).dedup = ls.dedup.filter (· ≠ l) ++ [l] := by
  induction ls with
  | nil => simp
  | cons k ls ih =>
    rw [List.cons_append, List.dedup_cons, List.dedup_cons, ih]
    by_cases hkl : k = l
    · subst hkl
      by_cases hk : k ∈ ls <;> simp [hk]
    · by_cases hk : k ∈ ls <;> simp [hk, hkl]

namespace Chain

variable {c c' : Chain} {l : Label} {ls ms : List Label}

/-! ### Edits as rows of steps -/

namespace Records

theorem trans {c₁ : Chain} (h : c.Records ls c₁) (h' : c₁.Records ms c') :
    c.Records (ls ++ ms) c' := by
  induction h' with
  | start => rwa [List.append_nil]
  | place _ hi s ih =>
    rw [← List.append_assoc]
    exact ih.place hi s
  | update _ hl f ih =>
    rw [← List.append_assoc]
    exact ih.update hl f
  | detach _ hs hi hfree ih => exact ih.detach hs hi hfree

theorem wellFormed (h : c.Records ls c') (hc : c.WellFormed) : c'.WellFormed := by
  induction h with
  | start => exact hc
  | place _ hi s ih => exact ih.place hi s
  | update _ _ f ih => exact ih.update _ f
  | detach _ hs hi hfree ih => exact ih.detach hs hi hfree

end Records

theorem records_update (c : Chain) (l : Label) (f : Stmt → Stmt) :
    c.Records (if c.contains l then [l] else []) (c.update l f) := by
  split
  · next hl => exact Records.start.update hl f
  · next hl =>
    have hnone : c.get? l = none := by simpa [contains] using hl
    have hsame : c.update l f = c := by simp [update, hnone]
    rw [hsame]
    exact .start

theorem records_inserted {e : Edit} {s : Stmt} (he : e.Inserts s c) :
    c.Records (e.given? c).toList (e.apply c) := by
  rcases he with ⟨hgiven, happ⟩ | ⟨i, hi, hgiven, -, happ⟩
  · rw [hgiven, happ]
    exact .start
  · rw [hgiven, happ]
    exact Records.start.place hi s

theorem records_retargetEach (old new : Label) (hls : ∀ l ∈ ls, c.contains l = true) :
    c.Records ls (retargetEach old new ls c).chain := by
  induction ls generalizing c with
  | nil => exact .start
  | cons l ls ih =>
    obtain ⟨s, hs⟩ := contains_iff.mp (hls l (by simp))
    have hmod : c.modify l (·.retargetCounted old new) =
        .done (s.jumpTargets.count old) (c.update l (·.retarget old new)) := by
      simp [modify, hs, Stmt.retargetCounted]
    have hrest : ∀ k ∈ ls, (c.update l (·.retarget old new)).contains k = true := by
      intro k hk
      rw [contains_update]
      exact hls k (by simp [hk])
    have hfirst : c.Records [l] (c.update l (·.retarget old new)) :=
      Records.start.update (hls l (by simp)) _
    rw [retargetEach, hmod, Outcome.done_bind, Outcome.chain_map]
    exact hfirst.trans (ih hrest)

theorem records_spreadEach (preds : List Label) {bs : List Binding}
    (hbs : ∀ b ∈ bs, c.contains b.phi = true) :
    c.Records (bs.map (·.phi)) (spreadEach preds bs c).chain := by
  induction bs generalizing c with
  | nil => exact .start
  | cons b bs ih =>
    let f : Stmt → Stmt := (·.mapPhi (·.spread b.position b.value preds))
    obtain ⟨s, hs⟩ := contains_iff.mp (hbs b (by simp))
    have hmod : c.modify b.phi (fun s => ((), f s)) = .done () (c.update b.phi f) := by
      simp [modify, hs]
    have hrest : ∀ b' ∈ bs, (c.update b.phi f).contains b'.phi = true := by
      intro b' hb'
      rw [contains_update]
      exact hbs b' (by simp [hb'])
    have hfirst : c.Records [b.phi] (c.update b.phi f) :=
      Records.start.update (hbs b (by simp)) f
    rw [spreadEach, hmod, Outcome.done_bind]
    exact hfirst.trans (ih hrest)

namespace WellFormed

theorem records_retarget (hc : c.WellFormed) (old new : Label) :
    c.Records (c.retargeted old new) (c.retarget old new).chain := by
  rw [retargeted, Chain.retarget]
  cases ho : c.contains old with
  | false => exact .start
  | true =>
    cases hn : c.contains new with
    | false => exact .start
    | true =>
      refine records_retargetEach old new fun l hl => ?_
      obtain ⟨s, hs, -⟩ := hc.mem_jumpSources.mp hl
      exact contains_iff.mpr ⟨s, hs⟩

theorem records_reroute (hc : c.WellFormed) (l : Label) :
    c.Records (c.rerouted l) (c.reroute l).chain := by
  rw [rerouted]
  cases hl : c.contains l with
  | false =>
    rw [Chain.reroute, hl]
    exact .start
  | true =>
    obtain ⟨ps, hps, -, hmem⟩ := hc.phiUsers l
    obtain ⟨bs, hbs, rfl, hall⟩ := mapM_bindingOf fun p hp => (hmem p).mp hp
    have hbind : (c.phiUsers l).bind (·.mapM (c.bindingOf l)) = .ok bs := by rw [hps]; exact hbs
    have hphis : ∀ b ∈ bs, c.contains b.phi = true := by
      intro b hb
      obtain ⟨s, φ, hs, -⟩ := hall b hb
      exact contains_iff.mpr ⟨s, hs⟩
    rw [Chain.reroute, hl, hbind]
    by_cases hp : c.provenanceOf l = []
    · -- no phi has an argument from `l`, so none is changed
      have hnone : bs.map (·.phi) = [] := by
        refine List.eq_nil_iff_forall_not_mem.mpr fun p hm => ?_
        obtain ⟨s, hs, hp'⟩ := (hmem p).mp hm
        exact hc.provenanceOf_eq_nil_iff.mp hp p s hs hp'
      simp only [all_isJump_iff.mpr hp, hnone, if_true]
      exact .start
    · have hj : (c.refsTo l).all (·.isJump) = false :=
        Bool.eq_false_iff.mpr (mt all_isJump_iff.mp hp)
      simp only [hj, Bool.not_true, Bool.false_eq_true, if_false, if_true, Outcome.chain_map]
      exact records_spreadEach _ hphis

theorem records_evacuate (hc : c.WellFormed) (l : Label) (d : Option Label) :
    c.Records (c.evacuated l d) (c.evacuate l d).chain := by
  cases d with
  | none => exact .start
  | some d =>
    rw [Chain.evacuate]
    split
    · next hr =>
      have hnone : c.retargeted l d = [] := by
        simp [retargeted, jumpSources, List.isEmpty_iff.mp hr, collapse]
      rw [evacuated, hnone]
      exact .start
    · exact hc.records_retarget l d

theorem records_remove (hc : c.WellFormed) (l : Label) :
    c.Records (c.relinked l) (c.remove l).chain := by
  rw [relinked]
  cases hl : c.landing l with
  | error e =>
    rcases hc.remove_cases l with ⟨e', he'⟩ | ⟨d, s, c', hl', -⟩
    · rw [he']
      exact .start
    · rw [hl] at hl'
      cases hl'
  | ok d =>
    obtain ⟨s, hs⟩ := get?_of_landing hl
    obtain ⟨i, hi⟩ := hc.exists_position? hs
    cases hp : c.provenanceOf l with
    | cons u us =>
      rw [remove_of_provenance (hc.mem_labels_of_get? hs) (u := u) (by simp [hp])]
      exact .start
    | nil =>
      have hsteps := hc.records_evacuate l d
      have hrem : c.remove l = (c.evacuate l d).bind fun _ c => c.cut i l := by
        rw [Chain.remove, hi]
        simp [hp, hl]
      rw [hrem]
      rcases hc.evacuate_cases hl hp with ⟨d', -, -, -, he⟩ | ⟨n, c₁, hev, hm⟩
      · rw [he] at hsteps ⊢
        exact hsteps
      · obtain ⟨hcut, -⟩ := hc.detach_evacuated hl hp hm hi hs
        have hi₁ : c₁.position? l = some i := by rw [hm.position?, hi]
        rw [hev] at hsteps ⊢
        rw [Outcome.done_bind, hcut]
        exact hsteps.detach (hc.get?_evacuated hl hm hs) hi₁
          fun k t hk r hr => hc.target_ne_of_evacuated hl hp hm hk hr

theorem records_excise (hc : c.WellFormed) (l : Label) :
    c.Records ((Edit.excise l).recorded c) (c.excise l).chain := by
  rw [Edit.recorded]
  cases hl : c.landing l with
  | error e =>
    rw [Chain.excise, hl]
    exact .start
  | ok d =>
    have hfirst := hc.records_reroute l
    obtain ⟨c₁, hdone, hmaps⟩ := hc.reroute (contains_iff.mpr (get?_of_landing hl))
    rw [hdone] at hfirst
    rw [Chain.excise, hl, hdone]
    exact hfirst.trans (hmaps.wellFormed.records_remove l)

/-- What an edit records it records one after the other, and it does nothing else. -/
theorem records_apply (hc : c.WellFormed) (e : Edit) : c.Records (e.recorded c) (e.apply c) := by
  cases e with
  | push s => exact records_inserted (Edit.inserts_push s c)
  | insertAfter a s => exact records_inserted (Edit.inserts_insertAfter a s c)
  | insertBefore a s => exact records_inserted (Edit.inserts_insertBefore a s c)
  | modify l f =>
    rw [Edit.apply, chain_modify]
    exact records_update c l f
  | replace l s =>
    rw [Edit.apply, replace, chain_modify]
    exact records_update c l fun _ => s
  | retarget old new => exact hc.records_retarget old new
  | remove l => exact hc.records_remove l
  | reroute l => exact hc.records_reroute l
  | excise l => exact hc.records_excise l

theorem records_run (hc : c.WellFormed) (es : List Edit) :
    c.Records (recordings es c) (run es c) := by
  induction es generalizing c with
  | nil => exact .start
  | cons e es ih => exact (hc.records_apply e).trans (ih (hc.apply e))

end WellFormed

/-! ### The order of the entries -/

/-- The entries for `t` that the statement under `l` has; none if there is no statement. -/
def usesBy (c : Chain) (t l : Label) : List Use := ((c.get? l).map (·.uses l t)).getD []

theorem usesBy_of_get? {s : Stmt} (hs : c.get? l = some s) (t : Label) :
    c.usesBy t l = s.uses l t := by
  rw [usesBy, hs]
  rfl

theorem source_of_mem_usesBy {t : Label} {u : Use} (h : u ∈ c.usesBy t l) : u.source = l := by
  unfold usesBy at h
  cases hs : c.get? l with
  | none => simp [hs] at h
  | some s => exact Stmt.source_of_mem_uses (by simpa [hs] using h)

/-- All statements of the chain have been recorded, and the entries of the index stand in the
order in which their holders were recorded last. -/
structure Ordered (c : Chain) (ls : List Label) : Prop where
  mem : ∀ l, c.contains l = true → l ∈ ls
  refsTo : ∀ t, c.refsTo t = (c.byAge ls).flatMap (c.usesBy t)

theorem nodup_byAge (c : Chain) (ls : List Label) : (c.byAge ls).Nodup :=
  (List.nodup_dedup ls).filter _

/-- A recording makes its statement the youngest one. -/
theorem byAge_append (hl : c'.contains l = true)
    (hk : ∀ k, k ≠ l → c'.contains k = c.contains k) :
    c'.byAge (ls ++ [l]) = (c.byAge ls).filter (· ≠ l) ++ [l] := by
  rw [byAge, dedup_append_singleton, List.filter_append, byAge, List.filter_comm]
  congr 1
  · rw [List.filter_filter, List.filter_filter]
    refine List.filter_congr fun k _ => ?_
    by_cases hkl : k = l
    · simp [hkl]
    · simp [hkl, hk k hkl]
  · simp [hl]

namespace Ordered

/-- What is left of the entries when those of `l` are forgotten. -/
theorem refsTo_remove (h : c.Ordered ls) {s : Stmt} (hs : c.get? l = some s) (t : Label) :
    (c.index.remove l s).refsTo t = ((c.byAge ls).filter (· ≠ l)).flatMap (c.usesBy t) := by
  have hold : c.index.refsTo t = (c.byAge ls).flatMap (c.usesBy t) := h.refsTo t
  rw [RefIndex.refsTo_remove, hold, ← usesBy_of_get? hs]
  exact flatMap_diff (nodup_byAge c ls) (fun l u hu => source_of_mem_usesBy hu) l

theorem empty : Chain.empty.Ordered [] where
  mem l h := by simp [contains] at h
  refsTo t := by simp [Chain.refsTo, Chain.empty, byAge]

/-- Where an index without the entries of `l` records the statement of `l`, which alone is new,
`l` becomes the youngest one. -/
theorem recorded (h : c.Ordered ls) {x : RefIndex}
    (hx : ∀ t, x.refsTo t = ((c.byAge ls).filter (· ≠ l)).flatMap (c.usesBy t)) {s : Stmt}
    (hidx : c'.index = x.insert l s) (hs : c'.get? l = some s)
    (hk : ∀ k, k ≠ l → c'.get? k = c.get? k) : c'.Ordered (ls ++ [l]) where
  mem k hk' := by
    by_cases hkl : k = l
    · simp [hkl]
    · rw [contains, hk k hkl] at hk'
      exact List.mem_append_left _ (h.mem k hk')
  refsTo t := by
    have hrest : ((c.byAge ls).filter (· ≠ l)).flatMap (c'.usesBy t) =
        ((c.byAge ls).filter (· ≠ l)).flatMap (c.usesBy t) :=
      flatMap_filter_congr fun k hkl => by rw [usesBy, usesBy, hk k hkl]
    have hcontains : ∀ k, k ≠ l → c'.contains k = c.contains k := fun k hkl => by
      rw [contains, contains, hk k hkl]
    rw [byAge_append (contains_iff.mpr ⟨s, hs⟩) hcontains, List.flatMap_append, hrest,
      List.flatMap_singleton, usesBy_of_get? hs, Chain.refsTo, hidx, RefIndex.refsTo_insert, hx]

theorem place (h : c.Ordered ls) (i : Nat) (s : Stmt) :
    (c.place i s).2.Ordered (ls ++ [⟨c.next⟩]) := by
  have hnew : (c.byAge ls).filter (· ≠ ⟨c.next⟩) = c.byAge ls := by
    refine List.filter_eq_self.mpr fun k hk => ?_
    obtain ⟨t, ht⟩ := contains_iff.mp (List.mem_filter.mp hk).2
    have hlt := index_lt_of_get? ht
    simpa using fun he : k = ⟨c.next⟩ => by simp [he] at hlt
  refine h.recorded (x := c.index) (fun t => ?_) rfl ?_ fun k hk => ?_
  · rw [hnew]
    exact h.refsTo t
  · rw [get?_place, if_pos rfl]
  · rw [get?_place, if_neg hk]

theorem update (h : c.Ordered ls) (hl : c.contains l = true) (f : Stmt → Stmt) :
    (c.update l f).Ordered (ls ++ [l]) := by
  obtain ⟨s, hs⟩ := contains_iff.mp hl
  have hidx : (c.update l f).index = (c.index.remove l s).insert l (f s) := by
    simp [Chain.update, hs]
  refine h.recorded (h.refsTo_remove hs) hidx ?_ fun k hk => ?_
  · rw [get?_update, if_pos rfl, hs, Option.map_some]
  · rw [get?_update, if_neg hk]

theorem detach (h : c.Ordered ls) {s : Stmt} (hs : c.get? l = some s) (i : Nat)
    (hfree : ∀ k t, c.get? k = some t → ∀ r ∈ t.refs, r.target ≠ l) :
    (c.detach i l s).Ordered ls := by
  have hget : ∀ k, k ≠ l → (c.detach i l s).get? k = c.get? k := fun k hk => by
    rw [get?_detach hs, if_neg hk]
  have hage : (c.detach i l s).byAge ls = (c.byAge ls).filter (· ≠ l) := by
    rw [byAge, byAge, List.filter_filter]
    refine List.filter_congr fun k _ => ?_
    by_cases hkl : k = l
    · simp [hkl, contains, get?_detach hs]
    · simp [hkl, contains, hget k hkl]
  constructor
  · intro k hk
    rw [contains, get?_detach hs] at hk
    split at hk
    · cases hk
    · exact h.mem k hk
  · intro t
    have hidx : (c.detach i l s).refsTo t =
        if t = l then [] else (c.index.remove l s).refsTo t := RefIndex.refsTo_clear _ l t
    have hrest : ((c.byAge ls).filter (· ≠ l)).flatMap ((c.detach i l s).usesBy t) =
        ((c.byAge ls).filter (· ≠ l)).flatMap (c.usesBy t) :=
      flatMap_filter_congr fun k hkl => by rw [usesBy, usesBy, hget k hkl]
    rw [hidx, hage, hrest]
    split
    · next htl =>
      -- nothing refers to `l`, so there are no entries to be dropped
      symm
      refine List.flatMap_eq_nil_iff.mpr fun k _ => ?_
      subst htl
      cases hk : c.get? k with
      | none => simp [usesBy, hk]
      | some u => rw [usesBy_of_get? hk, Stmt.uses_of_target_ne (hfree k u hk)]
    · exact h.refsTo_remove hs t

end Ordered

/-- What the steps preserve. -/
theorem Records.ordered (h : Chain.empty.Records ls c) : c.Ordered ls := by
  induction h with
  | start => exact Ordered.empty
  | place _ _ s ih => exact ih.place _ s
  | update _ hl f ih => exact ih.update hl f
  | detach _ hs _ hfree ih => exact ih.detach hs _ hfree

/-! ### The order of the holders -/

/-- The statements that refer to `t`, in the order in which the index lists their last entries. -/
def sourcesTo (c : Chain) (t : Label) : List Label := ((c.refsTo t).map (·.source)).dedup

theorem pairwise_since (ls : List Label) :
    ls.dedup.Pairwise fun a b => since ls b < since ls a := by
  induction ls with
  | nil => simp
  | cons k ls ih =>
    have hsince : ∀ a ∈ ls, since (k :: ls) a = since ls a := fun a ha => by
      rw [since, since, List.reverse_cons, List.idxOf_append_of_mem (List.mem_reverse.mpr ha)]
    have hrest : ls.dedup.Pairwise fun a b => since (k :: ls) b < since (k :: ls) a := by
      refine ih.imp_of_mem fun {a b} ha hb hab => ?_
      rwa [hsince a (List.mem_dedup.mp ha), hsince b (List.mem_dedup.mp hb)]
    by_cases hk : k ∈ ls
    · rwa [List.dedup_cons_of_mem hk]
    · rw [List.dedup_cons_of_notMem hk]
      refine List.pairwise_cons.mpr ⟨fun b hb => ?_, hrest⟩
      have hlast : since (k :: ls) k = ls.length := by
        rw [since, List.reverse_cons, List.idxOf_append_of_notMem (by simpa using hk)]
        simp
      rw [hsince b (List.mem_dedup.mp hb), hlast, since, ← List.length_reverse]
      exact List.idxOf_lt_length_of_mem (List.mem_reverse.mpr (List.mem_dedup.mp hb))

/-- The holders of entries that stand side by side where they have one holder. -/
theorem dedup_map_source {entries : Label → List Use}
    (hsource : ∀ l, ∀ u ∈ entries l, u.source = l) (hd : ls.Nodup) :
    ((ls.flatMap entries).map (·.source)).dedup = ls.filter (entries · ≠ []) := by
  induction ls with
  | nil => rfl
  | cons l ls ih =>
    obtain ⟨hl, hd⟩ := List.nodup_cons.mp hd
    have hblock : (entries l).map (·.source) = List.replicate (entries l).length l :=
      List.eq_replicate_iff.mpr ⟨List.length_map _, fun a ha => by
        obtain ⟨u, hu, rfl⟩ := List.mem_map.mp ha
        exact hsource l u hu⟩
    have hdisj : List.Disjoint (List.replicate (entries l).length l)
        ((ls.flatMap entries).map (·.source)) := by
      intro a ha hm
      obtain rfl := List.eq_of_mem_replicate ha
      obtain ⟨u, hu, hus⟩ := List.mem_map.mp hm
      obtain ⟨k, hk, hu⟩ := List.mem_flatMap.mp hu
      exact hl (by rw [← hus, hsource k u hu]; exact hk)
    rw [List.flatMap_cons, List.map_append, hblock, hdisj.dedup_append, ih hd, List.filter_cons]
    by_cases he : entries l = []
    · simp [he]
    · rw [List.replicate_dedup (by simpa using he), if_pos (by simpa using he)]
      rfl

theorem Ordered.sourcesTo_eq (h : c.Ordered ls) (t : Label) :
    c.sourcesTo t = (c.byAge ls).filter (c.usesBy t · ≠ []) := by
  rw [sourcesTo, h.refsTo]
  exact dedup_map_source (fun l u hu => source_of_mem_usesBy hu) (nodup_byAge c ls)

theorem sameOrder_filter (p q : Label → Bool) (ls : List Label) :
    SameOrder (ls.filter p) (ls.filter q) := by
  rw [SameOrder, List.filter_filter, List.filter_filter]
  refine List.filter_congr fun l hl => ?_
  simp [hl, Bool.and_comm]

/-- After any edits, the entries for any statement stand in the order in which their holders were
recorded last, all entries of one holder side by side; so any two holders have the same order
wherever both are listed. -/
theorem run_orders_refs (es : List Edit) :
    let ls := recordings es empty
    let c := run es empty
    empty.Records ls c ∧ (c.byAge ls).Perm c.labels ∧
    (c.byAge ls).Pairwise (fun a b => since ls b < since ls a) ∧
    (∀ t, c.refsTo t = (c.byAge ls).flatMap (c.usesBy t)) ∧
    ∀ t t', SameOrder (c.sourcesTo t) (c.sourcesTo t') := by
  intro ls c
  have hsteps : empty.Records ls c := WellFormed.empty.records_run es
  have hc : c.WellFormed := hsteps.wellFormed WellFormed.empty
  have hord : c.Ordered ls := hsteps.ordered
  refine ⟨hsteps, ?_, (pairwise_since ls).filter _, hord.refsTo, fun t t' => ?_⟩
  · refine (List.perm_ext_iff_of_nodup (nodup_byAge c ls) hc.nodup).mpr fun l => ?_
    rw [hc.mem_labels, byAge, List.mem_filter, List.mem_dedup]
    exact and_iff_right_of_imp (hord.mem l)
  · rw [hord.sourcesTo_eq, hord.sourcesTo_eq]
    exact sameOrder_filter _ _ _

/-- A goto that is changed, though to the same goto, moves behind the other one. -/
example :
    let es : List Edit := [.push .nop, .push (.goto ⟨0⟩), .push (.goto ⟨0⟩), .modify ⟨1⟩ id]
    recordings es empty = [⟨0⟩, ⟨1⟩, ⟨2⟩, ⟨1⟩] ∧
      (run es empty).refsTo ⟨0⟩ = [⟨⟨2⟩, .jump⟩, ⟨⟨1⟩, .jump⟩] := by
  exact ⟨rfl, rfl⟩

end Chain

end LinearSSA
