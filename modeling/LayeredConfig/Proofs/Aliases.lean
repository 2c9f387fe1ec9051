import LayeredConfig.Proofs.Finished
import LayeredConfig.Proofs.Plain

/-! # Merging over an alias

An alias is a reference that a path leads to. A map with `$merge` is laid over what its path leads to
before that is evaluated. If this is a string, the map takes its place and the reference is never followed:
only the fields of the map are left. If it is a map with a `$merge` of its own, the two lay their fields
over the same target, and the alias is as good as what it stands for.
-/
namespace LayeredConfig
variable {scope : Scope} {levels depth index : Nat} {a b m v w : Value} {o : Option Value}
variable {fields rest base : Fields} {items : List Value} {p q : String} {d : Directive}
variable {evaluate : Value → Except Error (Option Value)}

namespace Value

def DirectiveFree (v : Value) : Prop := ∀ d : Directive, ∀ w, ¬ v.HoldsField d.key w

namespace DirectiveFree

theorem inside (h : v.DirectiveFree) (hw : w.Inside v) : w.DirectiveFree :=
  fun d u hu => h d u (hu.inside hw)

theorem settled (h : v.DirectiveFree) : v.Settled where
  consumed d _ := h d
  output w hw := absurd hw (h .output w)

theorem get?_eq_none (h : (map fields).DirectiveFree) (d : Directive) :
    fields.get? d.key = none :=
  Fields.get?_eq_none_iff.mpr fun w hw => h d w (HoldsField.map_iff.mpr (Or.inl hw))

theorem isRemoval (h : v.DirectiveFree) : isRemoval v = .ok false := by
  cases v with
  | map fields => exact isReplacement_of_get? (h.get?_eq_none .patch)
  | _ => rfl

end DirectiveFree

theorem directiveFree_iff : v.DirectiveFree ↔ ∀ w ∈ v.parts, ∀ d ∈ Directive.all, w.hasKey d.key = false := by
  constructor
  · intro h w hw d _
    cases w with
    | map fields => exact hasKey_map_eq_false_iff.mpr ((h.inside (inside_iff_mem_parts.mpr hw)).get?_eq_none d)
    | _ => rfl
  · rintro h d w ⟨fields,hf,hw⟩
    have hnone := hasKey_map_eq_false_iff.mp (h _ (inside_iff_mem_parts.mp hf) d d.mem_all)
    exact Fields.get?_eq_none_iff.mp hnone w hw

instance (v : Value) : Decidable v.DirectiveFree := decidable_of_iff _ directiveFree_iff.symm

def mergeOver (path : String) (fields : Fields) : Value :=
  map (fields.insert Directive.merge.key (string path))

end Value

theorem ok_of_evaluateFields {results : Fields} (h : evaluateFields evaluate fields = .ok results) :
    ∀ key v, (key, v) ∈ fields → ∃ o, evaluate v = .ok o := by
  induction fields generalizing results with
  | nil => simp
  | cons x rest ih =>
    obtain ⟨l,x⟩ := x
    obtain ⟨o,ho,h⟩ := bind_eq_ok_iff.mp h
    obtain ⟨later,hlater,_⟩ := bind_eq_ok_iff.mp h
    exact Fields.forall_mem_cons.mpr ⟨⟨o, labelled_eq_ok_iff.mp ho⟩, ih hlater⟩

theorem ok_of_evaluateItems {r : Option String × List Value}
    (h : evaluateItems evaluate index items = .ok r) :
    ∀ v ∈ items, encodeMark v = .ok none → ∃ o, evaluate v = .ok o := by
  induction items generalizing index r with
  | nil => simp
  | cons x rest ih =>
    obtain ⟨mark,hmark,h⟩ := bind_eq_ok_iff.mp h
    have hmark := labelled_eq_ok_iff.mp hmark
    cases mark with
    | some format =>
      obtain ⟨later,hlater,_⟩ := bind_eq_ok_iff.mp h
      refine List.forall_mem_cons.mpr ⟨?_, ih hlater⟩
      intro hnone
      cases hmark.symm.trans hnone
    | none =>
      obtain ⟨o,ho,h⟩ := bind_eq_ok_iff.mp h
      obtain ⟨later,hlater,_⟩ := bind_eq_ok_iff.mp h
      exact List.forall_mem_cons.mpr ⟨fun _ => ⟨o, labelled_eq_ok_iff.mp ho⟩, ih hlater⟩

theorem evaluateFields_upToDepth_ok
    (h : ∀ key v, (key, v) ∈ fields → ∃ o, UpToDepth (evaluate v) (.ok o)) :
    ∃ results, UpToDepth (evaluateFields evaluate fields) (.ok results) := by
  induction fields with
  | nil => exact ⟨[], .refl _⟩
  | cons x rest ih =>
    obtain ⟨l,x⟩ := x
    obtain ⟨⟨o,ho⟩,hrest⟩ := Fields.forall_mem_cons.mp h
    obtain ⟨results,hresults⟩ := ih hrest
    cases o with
    | none => exact ⟨results, (ho.labelled l).bind_ok (hresults.bind_ok (.refl _))⟩
    | some v => exact ⟨(l, v) :: results, (ho.labelled l).bind_ok (hresults.bind_ok (.refl _))⟩

theorem evaluateItems_upToDepth_ok (hmark : ∀ v ∈ items, encodeMark v = .ok none)
    (h : ∀ v ∈ items, ∃ o, UpToDepth (evaluate v) (.ok o)) :
    ∃ values, UpToDepth (evaluateItems evaluate index items) (.ok (none, values)) := by
  induction items generalizing index with
  | nil => exact ⟨[], .refl _⟩
  | cons x rest ih =>
    obtain ⟨hm,hmrest⟩ := List.forall_mem_cons.mp hmark
    obtain ⟨⟨o,ho⟩,hrest⟩ := List.forall_mem_cons.mp h
    obtain ⟨values,hvalues⟩ := @ih (index + 1) hmrest hrest
    refine ⟨o.toList ++ values, ?_⟩
    rw [evaluateItems_cons, hm]
    exact (ho.labelled (toString index)).bind_ok (hvalues.bind_ok (.refl _))

namespace Scope

theorem evaluateWithin_map_of_directiveFree (h : (Value.map fields).DirectiveFree) :
    scope.evaluateWithin (levels + 1) (.map fields) = (do
      let results ← evaluateFields (scope.evaluateWithin levels) fields
      .ok (some (.map results))) := by
  have ho := h.get?_eq_none .output
  rw [evaluateWithin_map_of_settled h.settled, Fields.erase_eq_self ho, ho]
  rfl

theorem isOmission_of_directiveFree (h : ∀ v ∈ items, v.DirectiveFree) :
    items.any isOmission = false := by
  rw [List.any_eq_false]
  intro v hv
  simp [isOmission_of_not_isMark (h v hv).settled.not_isMark]

theorem evaluateWithin_null_upToDepth :
    ∃ o, UpToDepth (scope.evaluateWithin levels .null) (.ok o) := by
  cases levels with
  | zero => exact ⟨none, .circular _⟩
  | succ levels => exact ⟨some .null, .refl _⟩

theorem evaluateWithin_map_upToDepth_ok (hf : (Value.map fields).DirectiveFree)
    (h : ∀ key v, (key, v) ∈ fields → ∃ o, UpToDepth (scope.evaluateWithin levels v) (.ok o)) :
    ∃ o, UpToDepth (scope.evaluateWithin (levels + 1) (.map fields)) (.ok o) := by
  obtain ⟨results,hresults⟩ := evaluateFields_upToDepth_ok h
  rw [evaluateWithin_map_of_directiveFree hf]
  exact ⟨some (.map results), hresults.bind_ok (.refl _)⟩

theorem evaluateWithin_list_upToDepth_ok (hf : ∀ v ∈ items, v.DirectiveFree)
    (h : ∀ v ∈ items, ∃ o, UpToDepth (scope.evaluateWithin levels v) (.ok o)) :
    ∃ o, UpToDepth (scope.evaluateWithin (levels + 1) (.list items)) (.ok o) := by
  have hmark : ∀ v ∈ items, encodeMark v = .ok none := fun v hv =>
    encodeMark_of_not_isMark (hf v hv).settled.not_isMark
  obtain ⟨values,hvalues⟩ : ∃ values,
      UpToDepth (evaluateItems (scope.evaluateWithin levels) 0 items) (.ok (none, values)) :=
    evaluateItems_upToDepth_ok hmark h
  rw [evaluateWithin_list, isOmission_of_directiveFree hf]
  exact ⟨some (.list values), hvalues.bind_ok (.refl _)⟩

/-- Where a value laid over another evaluates, so does the value alone: what stands in it stands in the
merge too, at the same depth, except for `null` and for what both sides hold. -/
theorem evaluateWithin_of_merged (ha : a.Ordered) (hb : b.Ordered) (hfa : a.DirectiveFree)
    (hfb : b.DirectiveFree) (hm : mergeAt depth a b = .ok m)
    (he : scope.evaluateWithin levels m = .ok o) :
    ∃ o, UpToDepth (scope.evaluateWithin levels b) (.ok o) := by
  induction levels generalizing depth a b m o with
  | zero => exact ⟨none, .circular _⟩
  | succ levels ih =>
    have hfm : m.DirectiveFree := by
      intro d w hw
      obtain ⟨u,hu⟩ := holdsField_of_mergeAt ha hb hm hw
      exact hu.elim (hfa d u) (hfb d u)
    cases (mergeAt_eq_ok_iff.mp hm).2 with
    | kept => exact evaluateWithin_null_upToDepth
    | taken => exact ⟨o, Or.inl he⟩
    | replaced hr =>
      rw [isReplacement_of_get? (hfb.get?_eq_none .patch)] at hr
      cases hr
    | @fields fs gs hs _ hfg =>
      rw [evaluateWithin_map_of_directiveFree hfm] at he
      obtain ⟨results,hres,_⟩ := bind_eq_ok_iff.mp he
      have hevaluates := ok_of_evaluateFields hres
      refine evaluateWithin_map_upToDepth_ok hfb ?_
      intro key y hy
      -- A `null` leaves nothing in the merge that could vouch for it, but it needs nothing either.
      by_cases hnull : y = .null
      · rw [hnull]
        exact evaluateWithin_null_upToDepth
      · have hmerged := exists_mem_of_mergeFields ha.ascending hb.ascending hfg hy hnull
        rcases hmerged with hmem | ⟨x,z,hx,hz,hmem⟩
        · obtain ⟨o,ho⟩ := hevaluates key y hmem
          exact ⟨o, Or.inl ho⟩
        · obtain ⟨o,ho⟩ := hevaluates key z hmem
          exact ih (ha.field hx) (hb.field hy) (hfa.inside (.field hx .refl))
            (hfb.inside (.field hy .refl)) hz ho
    | @items xs ys zs hxy =>
      have hys : ∀ y ∈ ys, y.DirectiveFree := fun y hy => hfb.inside (.item hy .refl)
      have hzs : ∀ z ∈ zs, z.DirectiveFree := fun z hz => hfm.inside (.item hz .refl)
      -- No element removes another, so that the elements laid on top are the last of the merge.
      rw [mergeItems_append fun y hy => (hys y hy).isRemoval] at hxy
      cases hxy
      rw [evaluateWithin_list, isOmission_of_directiveFree hzs] at he
      obtain ⟨r,hr,_⟩ := bind_eq_ok_iff.mp he
      refine evaluateWithin_list_upToDepth_ok hys ?_
      intro y hy
      have hmark : encodeMark y = .ok none := encodeMark_of_not_isMark (hys y hy).settled.not_isMark
      obtain ⟨o,ho⟩ := ok_of_evaluateItems hr y (List.mem_append_right _ hy) hmark
      exact ⟨o, Or.inl ho⟩

theorem evaluateWithin_mergeOver (hf : fields.Ascending)
    (hn : fields.get? Directive.merge.key = none) :
    scope.evaluateWithin (levels + 1) (.mergeOver p fields) = (do
      let target ← scope.resolve .merge (.string p)
      let merged ← labelled Directive.merge.key (merge target (.map fields))
      scope.evaluateWithin levels merged) := by
  have hm : (fields.insert Directive.merge.key (.string p)).get? Directive.merge.key =
      some (.string p) := by
    simp
  rw [Value.mergeOver, evaluateWithin_merge hm, Fields.erase_insert hf hn]

theorem evaluateWithin_mergeOver_of_isLeaf (hf : fields.Ascending)
    (hn : fields.get? Directive.merge.key = none) (ht : scope.root.atPath? q = some v) (hv : v.isLeaf) :
    scope.evaluateWithin (levels + 1) (.mergeOver q fields) =
      scope.evaluateWithin levels (.map fields) := by
  have hmerge : labelled Directive.merge.key (merge v (.map fields)) = .ok (.map fields) :=
    labelled_eq_ok_iff.mpr (merge_of_isLeaf hv)
  rw [evaluateWithin_mergeOver hf hn, resolve_string_of_some ht]
  simp only [bind, Except.bind, hmerge]

/-- A `$merge` in what a path leads to takes the place of the one that led there. -/
theorem merge_mergeOver (hf : fields.Ascending) (hfree : (Value.map fields).DirectiveFree)
    (hnull : ∀ key, (key, .null) ∉ fields) :
    merge (.mergeOver p []) (.map fields) = .ok (.mergeOver p fields) := by
  refine mergeAt_eq_ok_iff.mpr ⟨Nat.zero_le _, ?_⟩
  refine .fields (isReplacement_of_get? (hfree.get?_eq_none .patch)) ?_
  refine (mergeFields_eq_ok_iff Fields.Ascending.nil.insert hf).mpr ⟨hf.insert, ?_⟩
  intro key
  rw [Fields.get?_insert, Fields.get?_insert]
  by_cases hk : Directive.merge.key = key
  · rw [if_pos hk, if_pos hk, ← hk, hfree.get?_eq_none .merge]
    rfl
  · rw [if_neg hk, if_neg hk]
    cases hv : fields.get? key with
    | none => rfl
    | some v =>
      refine mergeEntry_none_left ?_
      rintro rfl
      exact hnull key (Fields.mem_of_get? hv)

theorem evaluateWithin_mergeOver_mergeOver (hf : fields.Ascending)
    (hfree : (Value.map fields).DirectiveFree) (hnull : ∀ key, (key, .null) ∉ fields)
    (hq : scope.root.atPath? q = some (.mergeOver p [])) :
    scope.evaluateWithin (levels + 1) (.mergeOver q fields) =
      scope.evaluateWithin levels (.mergeOver p fields) := by
  have hmerge : labelled Directive.merge.key (merge (.mergeOver p []) (.map fields)) =
      .ok (.mergeOver p fields) :=
    labelled_eq_ok_iff.mpr (merge_mergeOver hf hfree hnull)
  rw [evaluateWithin_mergeOver hf (hfree.get?_eq_none .merge), resolve_string_of_some hq]
  simp only [bind, Except.bind, hmerge]

/-- What a map without directives is laid over may be any map without directives for the map alone to
evaluate as well. -/
theorem evaluateWithin_rest_upToDepth (hroot : scope.root.Ordered) (hrest : (Value.map rest).Ordered)
    (hfree : (Value.map rest).DirectiveFree) (hp : scope.root.atPath? p = some (.map base))
    (hbase : (Value.map base).DirectiveFree)
    (h : scope.evaluateWithin (levels + 1) (.mergeOver p rest) = .ok o) :
    ∃ o, UpToDepth (scope.evaluateWithin levels (.map rest)) (.ok o) := by
  rw [evaluateWithin_mergeOver hrest.ascending (hfree.get?_eq_none .merge),
    resolve_string_of_some hp] at h
  obtain ⟨target,ht,h⟩ := bind_eq_ok_iff.mp h
  cases ht
  obtain ⟨merged,hmerge,h⟩ := bind_eq_ok_iff.mp h
  have hbo : (Value.map base).Ordered := hroot.inside (.of_atPath? hp)
  exact evaluateWithin_of_merged hbo hrest hbase hfree (labelled_eq_ok_iff.mp hmerge) h

theorem some_of_evaluateWithin_map (hfree : (Value.map rest).DirectiveFree)
    (h : scope.evaluateWithin levels (.map rest) = .ok o) : ∃ r, o = some r := by
  cases levels with
  | zero => simp [evaluateWithin_zero] at h
  | succ levels =>
    rw [evaluateWithin_map_of_directiveFree hfree] at h
    obtain ⟨results,_,h⟩ := bind_eq_ok_iff.mp h
    exact ⟨_, (Except.ok.inj h).symm⟩

/-- Merging over an alias. Over a string that stands for a path, a map keeps its own fields only; over a
map that merges over the path, it evaluates as over the path itself, unless a `null` of its own was to
delete something there. In both cases the alias costs a level, which may be the last. -/
theorem evaluate_mergeOver_alias (hroot : scope.root.Ordered) (hrest : (Value.map rest).Ordered)
    (hfree : (Value.map rest).DirectiveFree) (hp : scope.root.atPath? p = some (.map base))
    (hbase : (Value.map base).DirectiveFree)
    (h : scope.evaluate (.mergeOver p rest) = .ok (some v)) :
    (∀ q (d : Directive), d.IsReference →
      scope.root.atPath? q = some (.string (d.stringPrefix ++ p)) →
      (∃ w, scope.evaluate (.mergeOver q rest) = .ok (some w) ∧
        scope.evaluate (.map rest) = .ok (some w)) ∨
        ∃ e, scope.evaluate (.mergeOver q rest) = .error e ∧ e.IsCircular) ∧
    ∀ q, scope.root.atPath? q = some (.mergeOver p []) → (∀ key, (key, .null) ∉ rest) →
      scope.evaluate (.mergeOver q rest) = .ok (some v) ∨
        ∃ e, scope.evaluate (.mergeOver q rest) = .error e ∧ e.IsCircular := by
  constructor
  · intro q d _ hq
    have hself : scope.evaluate (.mergeOver q rest) = scope.evaluateWithin depthLimit (.map rest) :=
      evaluateWithin_mergeOver_of_isLeaf hrest.ascending (hfree.get?_eq_none .merge) hq rfl
    rw [hself]
    obtain ⟨o,ho | hc⟩ := evaluateWithin_rest_upToDepth hroot hrest hfree hp hbase h
    · obtain ⟨w,rfl⟩ := some_of_evaluateWithin_map hfree ho
      exact Or.inl ⟨w, ho, evaluateWithin_mono (Nat.le_succ _) ho⟩
    · exact Or.inr hc
  · intro q hq hnull
    have hself : scope.evaluate (.mergeOver q rest) =
        scope.evaluateWithin depthLimit (.mergeOver p rest) :=
      evaluateWithin_mergeOver_mergeOver hrest.ascending hfree hnull hq
    have hdepth : UpToDepth (scope.evaluateWithin depthLimit (.mergeOver p rest))
        (scope.evaluate (.mergeOver p rest)) :=
      evaluateWithin_upToDepth (Nat.le_succ _)
    rw [hself, ← h]
    exact hdepth

theorem evaluate_mergeOver_alias_link :
    let base := [("x", Value.string "1")]
    let rest := [("y", Value.string "2")]
    let root := Value.map [("alias", .string "$merge:base"), ("base", .map base),
      ("link", .map [("$merge", .string "base")])]
    let scope : Scope := ⟨root, [root], .builtIn⟩
    let r := Value.map [("x", .string "1"), ("y", .string "2")]
    scope.evaluate (.mergeOver "base" rest) = .ok (some r) ∧
      ((∃ w, scope.evaluate (.mergeOver "alias" rest) = .ok (some w) ∧
        scope.evaluate (.map rest) = .ok (some w)) ∨
        ∃ e, scope.evaluate (.mergeOver "alias" rest) = .error e ∧ e.IsCircular) ∧
      (scope.evaluate (.mergeOver "link" rest) = .ok (some r) ∨
        ∃ e, scope.evaluate (.mergeOver "link" rest) = .error e ∧ e.IsCircular) := by
  intro base rest root scope r
  have hroot : root.Ordered := by decide
  have hrest : (Value.map rest).Ordered := by decide
  have hbase : (Value.map base).DirectiveFree :=
    (Value.checkAt_eq_ok_iff.mp (by rfl : (Value.map base).checkAt [] = .ok ())).directive
  have hfree : (Value.map rest).DirectiveFree :=
    (Value.checkAt_eq_ok_iff.mp (by rfl : (Value.map rest).checkAt [] = .ok ())).directive
  have hp : scope.root.atPath? "base" = some (.map base) := by rfl
  have he : scope.evaluate (.mergeOver "base" rest) = .ok (some r) := by rfl
  obtain ⟨hstring,hmap⟩ := evaluate_mergeOver_alias hroot hrest hfree hp hbase he
  exact ⟨he, hstring "alias" .merge (Or.inl rfl) rfl, hmap "link" rfl (by simp [rest])⟩

/-- What a string stands for is lost when a map is merged over it. -/
theorem not_merged_over_string :
    let base := [("x", Value.string "1")]
    let rest := [("y", Value.string "2")]
    let root := Value.map [("alias", .string "$merge:base"), ("base", .map base)]
    let scope : Scope := ⟨root, [root], .builtIn⟩
    let r := Value.map [("x", .string "1"), ("y", .string "2")]
    (Value.map base).DirectiveFree ∧ (Value.map rest).DirectiveFree ∧
      scope.root.atPath? "alias" = some (.string "$merge:base") ∧
      scope.root.atPath? "base" = some (.map base) ∧
      scope.evaluate (.mergeOver "base" rest) = .ok (some r) ∧
      scope.evaluate (.mergeOver "alias" rest) = .ok (some (.map rest)) ∧
      scope.evaluate (.mergeOver "alias" rest) ≠ .ok (some r) := by
  intro base rest root scope r
  have hbase : (Value.map base).DirectiveFree :=
    (Value.checkAt_eq_ok_iff.mp (by rfl : (Value.map base).checkAt [] = .ok ())).directive
  have hrest : (Value.map rest).DirectiveFree :=
    (Value.checkAt_eq_ok_iff.mp (by rfl : (Value.map rest).checkAt [] = .ok ())).directive
  have halias : scope.evaluate (.mergeOver "alias" rest) = .ok (some (.map rest)) := by rfl
  refine ⟨hbase, hrest, by rfl, by rfl, by rfl, halias, ?_⟩
  rw [halias]
  simp [rest, r]

end Scope
end LayeredConfig
