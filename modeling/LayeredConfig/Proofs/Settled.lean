import LayeredConfig.Proofs.Evaluation

/-! # Evaluated values are settled

A settled value holds none of the directives that evaluation uses up, at any depth, and marks for output
only with `true`. Every value that an evaluation returns is settled. The directives of a map are gone
because each key stands once; what a reference brings in is evaluated in its turn, with a level less, so
the induction is on the levels and not on the value.
-/
namespace LayeredConfig
variable {scope : Scope} {levels index : Nat} {key : String} {v w r target merged : Value}
variable {o : Option Value} {fields results : Fields} {items values : List Value}

def Directive.consumed : List Directive := [merge, replace, encode, patch]

structure Scope.Ordered (scope : Scope) : Prop where
  root : scope.root.Ordered
  documents : ∀ v ∈ scope.documents, v.Ordered

namespace Value

structure Settled (v : Value) : Prop where
  consumed : ∀ d ∈ Directive.consumed, ∀ w, ¬ v.HoldsField d.key w
  output : ∀ w, v.HoldsField Directive.output.key w → w = .bool true

/-- What a settled map may hold under a key. -/
def SettledField (key : String) (v : Value) : Prop :=
  (∀ d ∈ Directive.consumed, key ≠ d.key) ∧ (key = Directive.output.key → v = .bool true)

theorem settled_of_isLeaf (h : v.isLeaf) : v.Settled where
  consumed _ _ _ hw := HoldsField.not_leaf h hw
  output _ hw := absurd hw (HoldsField.not_leaf h)

theorem settled_list (h : ∀ v ∈ items, v.Settled) : (list items).Settled where
  consumed d hd w hw := by
    obtain ⟨v,hv,hw⟩ := HoldsField.list_iff.mp hw
    exact (h v hv).consumed d hd w hw
  output w hw := by
    obtain ⟨v,hv,hw⟩ := HoldsField.list_iff.mp hw
    exact (h v hv).output w hw

theorem settled_map (h : ∀ key v, (key, v) ∈ fields → SettledField key v ∧ v.Settled) :
    (map fields).Settled where
  consumed d hd w hw := by
    rcases HoldsField.map_iff.mp hw with hw | ⟨key,v,hv,hw⟩
    · exact (h _ w hw).1.1 d hd rfl
    · exact (h key v hv).2.consumed d hd w hw
  output w hw := by
    rcases HoldsField.map_iff.mp hw with hw | ⟨key,v,hv,hw⟩
    · exact (h _ w hw).1.2 rfl
    · exact (h key v hv).2.output w hw

end Value

theorem mem_evaluateFields {evaluate : Value → Except Error (Option Value)}
    (h : evaluateFields evaluate fields = .ok results) (hw : (key, w) ∈ results) :
    ∃ v, (key, v) ∈ fields ∧ evaluate v = .ok (some w) := by
  induction fields generalizing results with
  | nil =>
    cases h
    simp at hw
  | cons p rest ih =>
    obtain ⟨l,x⟩ := p
    obtain ⟨o,ho,h⟩ := bind_eq_ok_iff.mp h
    obtain ⟨later,hlater,h⟩ := bind_eq_ok_iff.mp h
    have hrest : (key, w) ∈ later → ∃ v, (key, v) ∈ (l, x) :: rest ∧ evaluate v = .ok (some w) := by
      intro hw
      obtain ⟨v,hv,he⟩ := ih hlater hw
      exact ⟨v, List.mem_cons_of_mem _ hv, he⟩
    cases o with
    | none =>
      cases h
      exact hrest hw
    | some y =>
      cases h
      rcases List.mem_cons.mp hw with he | hw
      · cases he
        exact ⟨x, List.mem_cons_self, labelled_eq_ok_iff.mp ho⟩
      · exact hrest hw

theorem mem_evaluateItems {evaluate : Value → Except Error (Option Value)} {format : Option String}
    (h : evaluateItems evaluate index items = .ok (format, values)) (hw : w ∈ values) :
    ∃ v ∈ items, evaluate v = .ok (some w) := by
  induction items generalizing index format values with
  | nil =>
    cases h
    simp at hw
  | cons x rest ih =>
    obtain ⟨mark,_,h⟩ := bind_eq_ok_iff.mp h
    cases mark with
    | some name =>
      obtain ⟨⟨later,results⟩,hlater,h⟩ := bind_eq_ok_iff.mp h
      cases h
      obtain ⟨v,hv,he⟩ := ih hlater hw
      exact ⟨v, List.mem_cons_of_mem _ hv, he⟩
    | none =>
      obtain ⟨o,ho,h⟩ := bind_eq_ok_iff.mp h
      obtain ⟨⟨later,results⟩,hlater,h⟩ := bind_eq_ok_iff.mp h
      cases h
      rcases List.mem_append.mp hw with hw | hw
      · rw [Option.mem_toList] at hw
        cases hw
        exact ⟨x, List.mem_cons_self, labelled_eq_ok_iff.mp ho⟩
      · obtain ⟨v,hv,he⟩ := ih hlater hw
        exact ⟨v, List.mem_cons_of_mem _ hv, he⟩

namespace Scope

/-- A reference leads into one of the documents in view. -/
theorem inside_of_resolve {d : Directive} {reference : Value}
    (h : scope.resolve d reference = .ok target) :
    ∃ v, (v = scope.root ∨ v ∈ scope.documents) ∧ target.Inside v := by
  obtain ⟨r,_,h⟩ := bind_eq_ok_iff.mp h
  obtain ⟨v,hv,h⟩ := bind_eq_ok_iff.mp h
  have hin : target.Inside v := by
    split at h
    · next ht =>
      cases h
      exact .of_atPath? ht
    · cases h
  refine ⟨v, ?_, hin⟩
  unfold Reference.document at hv
  split at hv
  · cases hv
    exact Or.inl rfl
  · split at hv
    · next hfind =>
      cases hv
      exact Or.inr (List.mem_of_find?_eq_some hfind)
    · cases hv
  · split at hv
    · next hget =>
      cases hv
      exact Or.inr (List.mem_of_getElem? hget)
    · cases hv

theorem Ordered.resolve {d : Directive} {reference : Value} (hs : scope.Ordered)
    (h : scope.resolve d reference = .ok target) : target.Ordered := by
  obtain ⟨v,hv,hin⟩ := inside_of_resolve h
  rcases hv with rfl | hv
  · exact hs.root.inside hin
  · exact (hs.documents v hv).inside hin

/-- The evaluated fields of a map without references are those of a settled map. -/
theorem settled_results (hf : fields.Ascending) (hm : fields.get? Directive.merge.key = none)
    (hr : fields.get? Directive.replace.key = none)
    (h : evaluateFields (scope.evaluateWithin levels) fields.children = .ok results)
    (ih : ∀ key v w, (key, v) ∈ fields → scope.evaluateWithin levels v = .ok (some w) → w.Settled) :
    ∀ key w, (key, w) ∈ results → Value.SettledField key w ∧ w.Settled := by
  intro key w hw
  obtain ⟨v,hv,he⟩ := mem_evaluateFields h hw
  obtain ⟨hpatch,hencode,houtput⟩ := Fields.ne_of_mem_children hf hv
  have hmem := Fields.mem_of_mem_children hv
  have hmerge : key ≠ Directive.merge.key := by
    rintro rfl
    exact Fields.get?_eq_none_iff.mp hm v hmem
  have hreplace : key ≠ Directive.replace.key := by
    rintro rfl
    exact Fields.get?_eq_none_iff.mp hr v hmem
  refine ⟨⟨?_, fun hk => absurd hk houtput⟩, ih key v w hmem he⟩
  intro d hd
  simp only [Directive.consumed, List.mem_cons, List.not_mem_nil, or_false] at hd
  rcases hd with rfl | rfl | rfl | rfl <;> assumption

theorem settled_values {format : Option String}
    (h : evaluateItems (scope.evaluateWithin levels) index items = .ok (format, values))
    (ih : ∀ v ∈ items, ∀ w, scope.evaluateWithin levels v = .ok (some w) → w.Settled) :
    ∀ w ∈ values, w.Settled := by
  intro w hw
  obtain ⟨v,hv,he⟩ := mem_evaluateItems h hw
  exact ih v hv w he

theorem evaluateWithin_settled (hs : scope.Ordered) (hv : v.Ordered)
    (h : scope.evaluateWithin levels v = .ok (some r)) : r.Settled := by
  induction levels generalizing v r with
  | zero => simp [evaluateWithin_zero] at h
  | succ levels ih =>
    have hfield : ∀ {fields : Fields}, (Value.map fields).Ordered → ∀ key v w, (key, v) ∈ fields →
        scope.evaluateWithin levels v = .ok (some w) → w.Settled :=
      fun hf _ _ _ hmem he => ih (hf.field hmem) he
    have hitem : ∀ {items : List Value}, (Value.list items).Ordered → ∀ v ∈ items, ∀ w,
        scope.evaluateWithin levels v = .ok (some w) → w.Settled :=
      fun hl v hmem _ he => ih (Value.ordered_list.mp hl v hmem) he
    cases evaluateWithin_succ_eq_ok_iff.mp h with
    | merged _ ht hm h => exact ih (mergeAt_ordered (hs.resolve ht) hv.erase hm) h
    | replaced _ _ ht h => exact ih (hs.resolve ht) h
    | @map _ results selected _ hm hr _ _ _ hres =>
      have hsettled := settled_results hv.ascending hm hr hres (hfield hv)
      refine Value.settled_map ?_
      intro key w hw
      split at hw
      · rcases Fields.mem_insert hw with he | hw
        · cases he
          refine ⟨⟨by decide, fun _ => rfl⟩, Value.settled_of_isLeaf rfl⟩
        · exact hsettled key w hw
      · exact hsettled key w hw
    | encodedMap _ _ _ _ _ _ henc =>
      obtain ⟨_,text,_,_,rfl⟩ := encode_eq_ok_iff.mp henc
      exact Value.settled_of_isLeaf rfl
    | list _ hi => exact Value.settled_list (settled_values hi (hitem hv))
    | encodedList _ _ henc =>
      obtain ⟨_,text,_,_,rfl⟩ := encode_eq_ok_iff.mp henc
      exact Value.settled_of_isLeaf rfl
    | reference _ ht h => exact ih (hs.root.inside (.of_atPath? ht)) h
    | text => exact Value.settled_of_isLeaf rfl
    | null => exact Value.settled_of_isLeaf rfl
    | bool => exact Value.settled_of_isLeaf rfl
    | number => exact Value.settled_of_isLeaf rfl

/-- Whatever an evaluation returns is settled: for every document at hand, every list of documents,
every registry and every value. -/
theorem evaluate_settled (hroot : scope.root.Ordered) (hdocs : ∀ v ∈ scope.documents, v.Ordered)
    (hv : v.Ordered) (h : scope.evaluate v = .ok (some r)) : r.Settled :=
  evaluateWithin_settled ⟨hroot, hdocs⟩ hv h

theorem evaluate_settled_reference :
    let base := Value.map [("$output", .bool true), ("x", .map [("$patch", .string "replace")])]
    let root := Value.map [("base", base),
      ("copy", .map [("$merge", .map [("index", .number (.integer ⟨0, by decide, by decide⟩)),
        ("path", .string "base")]), ("y", .string "$replace:base")])]
    let scope : Scope := ⟨root, [root], .empty⟩
    let settled := Value.map [("$output", .bool true), ("x", .map [])]
    let r := Value.map [("base", settled),
      ("copy", .map [("$output", .bool true), ("x", .map []), ("y", settled)])]
    root.Ordered ∧ scope.evaluate root = .ok (some r) ∧ r.Settled := by
  intro base root scope settled r
  have hroot : root.Ordered := by decide
  have he : scope.evaluate root = .ok (some r) := by rfl
  exact ⟨hroot, he, evaluate_settled hroot (by simpa [scope] using hroot) hroot he⟩

end Scope
end LayeredConfig
