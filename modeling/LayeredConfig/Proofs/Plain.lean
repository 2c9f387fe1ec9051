import LayeredConfig.Proofs.MergeLaws
import LayeredConfig.Proofs.References

/-! # Plain values

A value is plain if it is settled and none of its strings is a reference. A plain value evaluates to
itself as long as its places are within the depth limit, and ends in a circular reference beyond it. What
an evaluation returns is settled and within the limit already, so that evaluating it again changes nothing
unless an encoder wrote a reference into it.
-/
namespace LayeredConfig
variable {scope : Scope} {levels index : Nat} {v w r : Value} {fields results : Fields}
variable {items : List Value} {d : Directive}

namespace Value

def Literal (v : Value) : Prop :=
  ∀ s, (string s).Inside v → ∀ d : Directive, d.IsReference → ¬ d.stringPrefix.toList <+: s.toList

theorem Literal.inside (h : v.Literal) (hw : w.Inside v) : w.Literal :=
  fun s hs => h s (hs.trans hw)

theorem Settled.inside (h : v.Settled) (hw : w.Inside v) : w.Settled where
  consumed d hd u hu := h.consumed d hd u (hu.inside hw)
  output u hu := h.output u (hu.inside hw)

namespace Settled

theorem get?_eq_none (h : (map fields).Settled) (hd : d ∈ Directive.consumed) :
    fields.get? d.key = none := by
  refine Fields.get?_eq_none_iff.mpr ?_
  intro w hw
  exact h.consumed d hd w (HoldsField.map_iff.mpr (Or.inl hw))

theorem get?_output (h : (map fields).Settled) :
    fields.get? Directive.output.key = none ∨
      fields.get? Directive.output.key = some (bool true) := by
  cases ho : fields.get? Directive.output.key with
  | none => exact Or.inl rfl
  | some w =>
    have hw := h.output w (HoldsField.map_iff.mpr (Or.inl (Fields.mem_of_get? ho)))
    exact Or.inr (congrArg some hw)

theorem not_isMark (h : v.Settled) : ¬ v.IsMark := by
  rintro (rfl | ⟨format,rfl⟩)
  · cases h.output _ (HoldsField.map_iff.mpr (Or.inl List.mem_cons_self))
  · exact h.consumed .encode (by decide) format (HoldsField.map_iff.mpr (Or.inl List.mem_cons_self))

end Settled

def nested : Nat → Value → Value
  | 0, v => v
  | n + 1, v => map [("k", nested n v)]

theorem nested_depth (n : Nat) : (nested n v).depth = n + v.depth := by
  induction n with
  | zero => simp [nested]
  | succ n ih =>
    have hk : "k" ≠ Directive.output.key := by decide
    simp only [nested, depth, depthOfFields, if_neg hk, ih]
    omega

theorem nested_height (n : Nat) : (nested n v).height = n + v.height := by
  induction n with
  | zero => simp [nested]
  | succ n ih =>
    simp only [nested, height, heightFields, ih]
    omega

theorem nested_follow (n : Nat) (path : List String) :
    (nested n v).follow (List.replicate n "k" ++ path) = v.follow path := by
  induction n with
  | zero => rfl
  | succ n ih => simpa [nested, List.replicate_succ, follow, step, Fields.get?_cons] using ih

theorem Ordered.nested (h : v.Ordered) (n : Nat) : (nested n v).Ordered := by
  induction n with
  | zero => exact h
  | succ n ih => exact ordered_map.mpr ⟨List.pairwise_singleton _ _, by simpa using ih⟩

/-- The key of these maps is no directive. -/
theorem HoldsField.of_nested {n : Nat} (h : (nested n v).HoldsField d.key w) : v.HoldsField d.key w := by
  induction n with
  | zero => exact h
  | succ n ih =>
    rcases map_iff.mp h with hw | ⟨key,u,hu,hw⟩
    · have hk : d.key = "k" := congrArg Prod.fst (List.mem_singleton.mp hw)
      cases d <;> simp [Directive.key] at hk
    · cases List.mem_singleton.mp hu
      exact ih hw

theorem Settled.nested (h : v.Settled) (n : Nat) : (nested n v).Settled where
  consumed d hd w hw := h.consumed d hd w hw.of_nested
  output w hw := h.output w hw.of_nested

theorem Literal.nested (h : v.Literal) (n : Nat) : (nested n v).Literal := by
  induction n with
  | zero => exact h
  | succ n ih =>
    intro s hs
    rcases Inside.map_iff.mp hs with he | ⟨key,w,hw,hs⟩
    · cases he
    · cases List.mem_singleton.mp hw
      exact ih s hs

end Value

theorem evaluateFields_eq_self {evaluate : Value → Except Error (Option Value)}
    (h : ∀ key v, (key, v) ∈ fields → evaluate v = .ok (some v)) :
    evaluateFields evaluate fields = .ok fields := by
  induction fields with
  | nil => rfl
  | cons p rest ih =>
    obtain ⟨l,x⟩ := p
    obtain ⟨hx,hrest⟩ := Fields.forall_mem_cons.mp h
    rw [evaluateFields_cons, hx, ih hrest]
    rfl

theorem evaluateItems_eq_self {evaluate : Value → Except Error (Option Value)}
    (hmark : ∀ v ∈ items, encodeMark v = .ok none) (h : ∀ v ∈ items, evaluate v = .ok (some v)) :
    evaluateItems evaluate index items = .ok (none, items) := by
  induction items generalizing index with
  | nil => rfl
  | cons x rest ih =>
    obtain ⟨hm,hmrest⟩ := List.forall_mem_cons.mp hmark
    obtain ⟨hx,hrest⟩ := List.forall_mem_cons.mp h
    rw [evaluateItems_cons, hm, hx, ih hmrest hrest]
    rfl

theorem evaluateFields_ascending {evaluate : Value → Except Error (Option Value)}
    (hf : fields.Ascending) (h : evaluateFields evaluate fields = .ok results) : results.Ascending := by
  induction fields generalizing results with
  | nil =>
    cases h
    exact .nil
  | cons p rest ih =>
    obtain ⟨l,x⟩ := p
    obtain ⟨hl,hrest⟩ := Fields.Ascending.cons_iff.mp hf
    obtain ⟨o,_,h⟩ := bind_eq_ok_iff.mp h
    obtain ⟨later,hlater,h⟩ := bind_eq_ok_iff.mp h
    have hasc := ih hrest hlater
    cases o with
    | none =>
      cases h
      exact hasc
    | some y =>
      cases h
      refine Fields.Ascending.cons_iff.mpr ⟨?_, hasc⟩
      rintro ⟨key,w⟩ hw
      obtain ⟨u,hu,_⟩ := mem_evaluateFields hlater hw
      have hlt : l < key := hl (key, u) hu
      exact hlt

namespace Scope

theorem evaluateWithin_ordered (hs : scope.Ordered) (hv : v.Ordered)
    (h : scope.evaluateWithin levels v = .ok (some r)) : r.Ordered := by
  induction levels generalizing v r with
  | zero => simp [evaluateWithin_zero] at h
  | succ levels ih =>
    cases evaluateWithin_succ_eq_ok_iff.mp h with
    | merged _ ht hm h => exact ih (mergeAt_ordered (hs.resolve ht) hv.erase hm) h
    | replaced _ _ ht h => exact ih (hs.resolve ht) h
    | reference _ ht h => exact ih (hs.root.inside (.of_atPath? ht)) h
    | @map fields results selected _ _ _ _ _ _ hres =>
      have hresults : (Value.map results).Ordered := by
        refine Value.ordered_map.mpr ⟨evaluateFields_ascending hv.ascending.erase.erase.erase hres, ?_⟩
        intro key w hw
        obtain ⟨u,hu,he⟩ := mem_evaluateFields hres hw
        exact ih (hv.field (Fields.mem_of_mem_children hu)) he
      cases selected with
      | false => exact hresults
      | true => exact hresults.insert trivial
    | list _ hi =>
      refine Value.ordered_list.mpr ?_
      intro w hw
      obtain ⟨u,hu,he⟩ := mem_evaluateItems hi hw
      exact ih (Value.ordered_list.mp hv u hu) he
    | encodedMap _ _ _ _ _ _ henc =>
      obtain ⟨_,text,_,_,rfl⟩ := encode_eq_ok_iff.mp henc
      trivial
    | encodedList _ _ henc =>
      obtain ⟨_,text,_,_,rfl⟩ := encode_eq_ok_iff.mp henc
      trivial
    | text | null | bool | number => trivial

/-- A settled map is evaluated field by field, its mark for output left aside. -/
theorem evaluateWithin_map_of_settled (h : (Value.map fields).Settled) :
    scope.evaluateWithin (levels + 1) (.map fields) = (do
      let results ← evaluateFields (scope.evaluateWithin levels) (fields.erase Directive.output.key)
      .ok (some (.map ((fields.get? Directive.output.key).elim results
        (results.insert Directive.output.key ·))))) := by
  have hm : fields.get? Directive.merge.key = none := h.get?_eq_none (by decide)
  have hr : fields.get? Directive.replace.key = none := h.get?_eq_none (by decide)
  have he : fields.get? Directive.encode.key = none := h.get?_eq_none (by decide)
  have hp : fields.get? Directive.patch.key = none := h.get?_eq_none (by decide)
  have herase : (fields.erase Directive.output.key).erase Directive.encode.key =
      fields.erase Directive.output.key :=
    Fields.erase_eq_self ((Fields.get?_erase_of_ne (by decide)).trans he)
  have hb : isReplacement (fields.erase Directive.output.key) = .ok false :=
    isReplacement_of_get? ((Fields.get?_erase_of_ne (by decide)).trans hp)
  rw [evaluateWithin_fields hm hr]
  rcases h.get?_output with ho | ho
  · simp [selection, ho, requestedFormat, he, herase, hb, bind, Except.bind]
  · simp [selection, ho, requestedFormat, he, herase, hb, bind, Except.bind]

/-- A plain value is its own evaluation, given a level for each of its places. -/
theorem evaluateWithin_of_plain (hv : v.Ordered) (hs : v.Settled) (hl : v.Literal)
    (hd : v.depth < levels) : scope.evaluateWithin levels v = .ok (some v) := by
  obtain ⟨levels,rfl⟩ : ∃ n, levels = n + 1 := ⟨levels - 1, by omega⟩
  induction v generalizing levels with
  | list items ih =>
    have hdepth := Value.depth_list_le_iff.mp (Nat.lt_succ_iff.mp hd)
    have hsettled : ∀ v ∈ items, v.Settled := fun v hv => hs.inside (.item hv .refl)
    have homit : items.any isOmission = false := by
      rw [List.any_eq_false]
      intro v hv
      simp [isOmission_of_not_isMark (hsettled v hv).not_isMark]
    refine evaluateWithin_succ_eq_ok_iff.mpr (.list homit (evaluateItems_eq_self ?_ ?_))
    · exact fun v hv => encodeMark_of_not_isMark (hsettled v hv).not_isMark
    · intro w hw
      have hlt := hdepth w hw
      obtain ⟨n,rfl⟩ : ∃ n, levels = n + 1 := ⟨levels - 1, by omega⟩
      exact ih w hw (Value.ordered_list.mp hv w hw) (hsettled w hw) (hl.inside (.item hw .refl)) n hlt
  | map fields ih =>
    have hdepth := Value.depth_map_le_iff.mp (Nat.lt_succ_iff.mp hd)
    -- The mark for output is taken out before the fields are evaluated and put back after.
    let rest := Fields.erase Directive.output.key fields
    have hfields : evaluateFields (scope.evaluateWithin levels) rest = .ok rest := by
      refine evaluateFields_eq_self ?_
      intro key w hw
      have hmem := Fields.mem_erase hw
      have hlt := hdepth key w hmem (Fields.ne_of_mem_erase hv.ascending hw)
      obtain ⟨n,rfl⟩ : ∃ n, levels = n + 1 := ⟨levels - 1, by omega⟩
      exact ih key w hmem (hv.field hmem) (hs.inside (.field hmem .refl))
        (hl.inside (.field hmem .refl)) n hlt
    have hself : (Fields.get? Directive.output.key fields).elim rest
        (Fields.insert Directive.output.key · rest) = fields := by
      cases ho : Fields.get? Directive.output.key fields with
      | none => exact Fields.erase_eq_self ho
      | some mark => exact Fields.insert_erase hv.ascending ho
    rw [evaluateWithin_map_of_settled hs, hfields]
    exact congrArg (fun fs => Except.ok (some (Value.map fs))) hself
  | string s =>
    have hs : stringReference? s = none := stringReference?_eq_none_iff.mpr (hl s .refl)
    exact evaluateWithin_succ_eq_ok_iff.mpr (.text hs)
  | _ => rfl

theorem evaluateWithin_circular_of_plain (hv : v.Ordered) (hs : v.Settled) (hl : v.Literal)
    (hd : levels ≤ v.depth) : ∃ e, scope.evaluateWithin levels v = .error e ∧ e.IsCircular := by
  have hdeep : scope.evaluateWithin (v.depth + 1) v = .ok (some v) :=
    evaluateWithin_of_plain hv hs hl (Nat.lt_succ_self _)
  have hupto : UpToDepth (scope.evaluateWithin levels v) (scope.evaluateWithin (v.depth + 1) v) :=
    evaluateWithin_upToDepth (by omega)
  rcases hupto with he | hc
  · have hlt := depth_lt_of_evaluateWithin (he.trans hdeep)
    omega
  · exact hc

theorem evaluate_circular_of_plain (hv : v.Ordered) (hs : v.Settled) (hl : v.Literal)
    (hd : depthLimit < v.depth) : ∃ e, scope.evaluate v = .error e ∧ e.IsCircular :=
  evaluateWithin_circular_of_plain hv hs hl hd

/-- Evaluation leaves plain values alone up to the depth limit and refuses them beyond it; so evaluating
a second time changes nothing, unless an encoder has written a reference. -/
theorem evaluate_plain (scope : Scope) :
    (∀ v : Value, v.Ordered → v.Settled → v.Literal →
      (v.depth ≤ depthLimit → scope.evaluate v = .ok (some v)) ∧
      (depthLimit < v.depth → ∃ e, scope.evaluate v = .error e ∧ e.IsCircular)) ∧
    (scope.Ordered → ∀ u v : Value, u.Ordered → scope.evaluate u = .ok (some v) → v.Literal →
      scope.evaluate v = .ok (some v)) := by
  constructor
  · intro v hv hs hl
    refine ⟨?_, evaluate_circular_of_plain hv hs hl⟩
    intro hd
    exact evaluateWithin_of_plain hv hs hl (Nat.lt_succ_iff.mpr hd)
  · intro hs u v hu he hl
    refine evaluateWithin_of_plain ?_ ?_ hl (depth_lt_of_evaluateWithin he)
    · exact evaluateWithin_ordered hs hu he
    · exact evaluateWithin_settled hs hu he

theorem evaluate_plain_nested :
    let base := Value.map [("$output", .bool true), ("x", .list [.null])]
    let root := Value.map [("base", base), ("copy", .string "$merge:base")]
    let scope : Scope := ⟨root, [root], .builtIn⟩
    let r := Value.map [("base", base), ("copy", base)]
    let leaf := Value.string "leaf"
    scope.evaluate (.nested depthLimit leaf) = .ok (some (.nested depthLimit leaf)) ∧
      (∃ e, scope.evaluate (.nested (depthLimit + 1) leaf) = .error e ∧ e.IsCircular) ∧
      scope.evaluate root = .ok (some r) ∧ scope.evaluate r = .ok (some r) := by
  intro base root scope r leaf
  have hleaf : leaf.Ordered := trivial
  have hs : leaf.Settled := Value.settled_of_isLeaf rfl
  have hl : leaf.Literal := by
    simp [leaf, Value.Literal, Value.inside_iff_mem_parts, Value.parts, Directive.IsReference,
      Directive.stringPrefix, Directive.key]
  have hroot : root.Ordered := by decide
  have he : scope.evaluate root = .ok (some r) := by rfl
  have hr : r.Literal := by
    simp [r, base, Value.Literal, Value.inside_iff_mem_parts, Value.parts, Value.partsOfFields,
      Value.partsOfItems]
  obtain ⟨hplain,hidem⟩ := evaluate_plain scope
  refine ⟨?_, ?_, he, ?_⟩
  · refine (hplain _ (hleaf.nested _) (hs.nested _) (hl.nested _)).1 ?_
    exact Nat.le_of_eq (Value.nested_depth depthLimit)
  · refine (hplain _ (hleaf.nested _) (hs.nested _) (hl.nested _)).2 ?_
    rw [Value.nested_depth]
    exact Nat.lt_succ_self _
  · exact hidem ⟨hroot, by simpa [scope] using hroot⟩ root r hroot he hr

/-- Under a thousand maps a mark for output is one level too deep, but it is not evaluated. -/
theorem not_circular_of_deep_mark :
    let v := Value.nested depthLimit (.map [("$output", .bool true)])
    let scope : Scope := ⟨v, [v], .builtIn⟩
    v.Ordered ∧ v.Settled ∧ v.Literal ∧ depthLimit < v.height ∧
      v.follow (List.replicate depthLimit "k" ++ ["$output"]) = some (.bool true) ∧
      scope.evaluate v = .ok (some v) ∧ ¬ ∃ e, scope.evaluate v = .error e ∧ e.IsCircular := by
  intro v scope
  have hv : v.Ordered := Value.Ordered.nested (by decide) _
  have hs : v.Settled := by
    refine Value.Settled.nested (Value.settled_map ?_) _
    intro key w hw
    cases List.mem_singleton.mp hw
    exact ⟨by simp [Value.SettledField, Directive.consumed, Directive.key], Value.settled_of_isLeaf rfl⟩
  have hl : v.Literal := by
    refine Value.Literal.nested ?_ _
    simp [Value.Literal, Value.inside_iff_mem_parts, Value.parts, Value.partsOfFields]
  have hheight : v.height = depthLimit + 1 := Value.nested_height depthLimit
  have hdepth : v.depth = depthLimit := Value.nested_depth depthLimit
  have he : scope.evaluate v = .ok (some v) :=
    evaluateWithin_of_plain hv hs hl (Nat.lt_succ_iff.mpr (Nat.le_of_eq hdepth))
  refine ⟨hv, hs, hl, hheight ▸ Nat.lt_succ_self _, ?_, he, ?_⟩
  · exact Value.nested_follow depthLimit ["$output"]
  · rintro ⟨e,hfail,_⟩
    rw [he] at hfail
    cases hfail

end Scope
end LayeredConfig
