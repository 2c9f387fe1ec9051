import LayeredConfig.Evaluation
import LayeredConfig.Proofs.Merge

/-! # What an evaluation does

`Scope.Evaluates` lists the ways in which the evaluation of a value succeeds with a number of levels
left, in terms of evaluations with one level less. An evaluated value is settled: no directive that
evaluation acts on is left in it, wherever its parts were brought in from.
-/
namespace LayeredConfig
variable {scope : Scope} {levels index : Nat} {key : String} {v w r target merged : Value}
variable {o : Option Value} {fields results : Fields} {items values : List Value}

namespace Fields

/-- The fields that are evaluated one by one: those under no directive of the map itself. -/
def children (fields : Fields) : Fields :=
  erase Directive.patch.key (erase Directive.encode.key (erase Directive.output.key fields))

theorem mem_of_mem_children (h : (key, v) ∈ children fields) : (key, v) ∈ fields :=
  mem_erase (mem_erase (mem_erase h))

theorem ne_of_mem_children (hf : Ascending fields) (h : (key, v) ∈ children fields) :
    key ≠ Directive.patch.key ∧ key ≠ Directive.encode.key ∧ key ≠ Directive.output.key := by
  refine ⟨ne_of_mem_erase hf.erase.erase h, ?_, ?_⟩
  · exact ne_of_mem_erase hf.erase (mem_erase h)
  · exact ne_of_mem_erase hf (mem_erase (mem_erase h))

end Fields

/-- An element that stands in a list to say something of the list: that it is omitted or encoded. -/
def Value.IsMark (v : Value) : Prop :=
  v = .map [(Directive.output.key, .bool false)] ∨ ∃ format, v = .map [(Directive.encode.key, format)]

theorem isOmission_of_not_isMark (h : ¬ v.IsMark) : isOmission v = false := by
  unfold isOmission
  split
  · next key =>
    have hne : key ≠ Directive.output.key := by
      rintro rfl
      exact h (Or.inl rfl)
    simpa using hne
  · rfl

theorem encodeMark_of_not_isMark (h : ¬ v.IsMark) : encodeMark v = .ok none := by
  unfold encodeMark
  split
  · next key format =>
    have hne : key ≠ Directive.encode.key := by
      rintro rfl
      exact h (Or.inr ⟨format, rfl⟩)
    rw [if_neg hne]
  · rfl

namespace Scope

/-- The ways in which an evaluation succeeds that has one level more than `levels`. -/
inductive Evaluates (scope : Scope) (levels : Nat) : Value → Option Value → Prop where
  | merged {fields : Fields} {reference target merged : Value} {o : Option Value} :
      fields.get? Directive.merge.key = some reference →
      scope.resolve .merge reference = .ok target →
      merge target (.map (fields.erase Directive.merge.key)) = .ok merged →
      scope.evaluateWithin levels merged = .ok o → Evaluates scope levels (.map fields) o
  | replaced {fields : Fields} {reference target : Value} {o : Option Value} :
      fields.get? Directive.merge.key = none → fields.get? Directive.replace.key = some reference →
      scope.resolve .replace reference = .ok target →
      scope.evaluateWithin levels target = .ok o → Evaluates scope levels (.map fields) o
  | omitted {fields : Fields} :
      fields.get? Directive.merge.key = none → fields.get? Directive.replace.key = none →
      selection fields = .ok none → Evaluates scope levels (.map fields) none
  | map {fields results : Fields} {selected b : Bool} :
      fields.get? Directive.merge.key = none → fields.get? Directive.replace.key = none →
      selection fields = .ok (some selected) → fields.get? Directive.encode.key = none →
      isReplacement ((fields.erase Directive.output.key).erase Directive.encode.key) = .ok b →
      evaluateFields (scope.evaluateWithin levels) fields.children = .ok results →
      Evaluates scope levels (.map fields) (some (.map (if selected then
        results.insert Directive.output.key (.bool true) else results)))
  | encodedMap {fields results : Fields} {selected b : Bool} {format : String} {r : Value} :
      fields.get? Directive.merge.key = none → fields.get? Directive.replace.key = none →
      selection fields = .ok (some selected) →
      fields.get? Directive.encode.key = some (.string format) →
      isReplacement ((fields.erase Directive.output.key).erase Directive.encode.key) = .ok b →
      evaluateFields (scope.evaluateWithin levels) fields.children = .ok results →
      scope.encode format (.map results) = .ok r → Evaluates scope levels (.map fields) (some r)
  | omittedList {items : List Value} :
      items.any isOmission = true → Evaluates scope levels (.list items) none
  | list {items values : List Value} : items.any isOmission = false →
      evaluateItems (scope.evaluateWithin levels) 0 items = .ok (none, values) →
      Evaluates scope levels (.list items) (some (.list values))
  | encodedList {items values : List Value} {format : String} {r : Value} :
      items.any isOmission = false →
      evaluateItems (scope.evaluateWithin levels) 0 items = .ok (some format, values) →
      scope.encode format (.list values) = .ok r → Evaluates scope levels (.list items) (some r)
  | reference {s path : String} {d : Directive} {target : Value} {o : Option Value} :
      stringReference? s = some (d, path) → scope.root.atPath? path = some target →
      scope.evaluateWithin levels target = .ok o → Evaluates scope levels (.string s) o
  | text {s : String} :
      stringReference? s = none → Evaluates scope levels (.string s) (some (.string s))
  | null : Evaluates scope levels .null (some .null)
  | bool (b : Bool) : Evaluates scope levels (.bool b) (some (.bool b))
  | number (n : Number) : Evaluates scope levels (.number n) (some (.number n))

theorem resolve_string {d : Directive} {path : String} :
    scope.resolve d (.string path) = match scope.root.atPath? path with
      | some target => .ok target
      | none => .error (.unresolved d path) := rfl

theorem resolve_string_eq_ok_iff {d : Directive} {path : String} :
    scope.resolve d (.string path) = .ok target ↔ scope.root.atPath? path = some target := by
  rw [resolve_string]
  cases scope.root.atPath? path <;> simp

/-- What a format writes of a value is a string. -/
theorem encode_eq_ok_iff {format : String} :
    scope.encode format v = .ok r ↔
      ∃ f text, scope.registry.get format = .ok f ∧ f.encode v = .ok text ∧ r = .string text := by
  simp only [encode, bind_eq_ok_iff, map_eq_ok_iff, labelled_eq_ok_iff]
  constructor
  · rintro ⟨f,hf,text,htext,rfl⟩
    exact ⟨f, text, hf, htext, rfl⟩
  · rintro ⟨f,text,hf,htext,rfl⟩
    exact ⟨f, hf, text, htext, rfl⟩

theorem formatName_eq_ok_iff {format : String} : formatName v = .ok format ↔ v = .string format := by
  cases v <;> simp [formatName]

theorem requestedFormat_eq_none_iff :
    requestedFormat fields = .ok none ↔ fields.get? Directive.encode.key = none := by
  rw [requestedFormat]
  cases fields.get? Directive.encode.key <;> simp [map_eq_ok_iff]

theorem requestedFormat_eq_some_iff {format : String} :
    requestedFormat fields = .ok (some format) ↔ fields.get? Directive.encode.key = some (.string format) := by
  rw [requestedFormat]
  cases fields.get? Directive.encode.key <;> simp [map_eq_ok_iff, formatName_eq_ok_iff]

theorem children_of_isReplacement {b : Bool}
    (h : isReplacement ((fields.erase Directive.output.key).erase Directive.encode.key) = .ok b) :
    (if b then ((fields.erase Directive.output.key).erase Directive.encode.key).erase
      Directive.patch.key else (fields.erase Directive.output.key).erase Directive.encode.key) =
      fields.children := by
  cases b with
  | true => rfl
  | false => exact (Fields.erase_eq_self (isReplacement_eq_ok_false h)).symm

theorem evaluateWithin_of_merge {reference : Value} (hm : fields.get? Directive.merge.key = some reference) :
    scope.evaluateWithin (levels + 1) (.map fields) = .ok o ↔ Evaluates scope levels (.map fields) o := by
  rw [evaluateWithin_merge hm]
  simp only [bind_eq_ok_iff, labelled_eq_ok_iff]
  constructor
  · rintro ⟨target,ht,merged,hmerge,h⟩
    exact .merged hm ht hmerge h
  · intro h
    cases h with
    | merged hm' ht hmerge h =>
      cases hm.symm.trans hm'
      exact ⟨_, ht, _, hmerge, h⟩
    | _ => simp_all

theorem evaluateWithin_of_replace {reference : Value} (hm : fields.get? Directive.merge.key = none)
    (hr : fields.get? Directive.replace.key = some reference) :
    scope.evaluateWithin (levels + 1) (.map fields) = .ok o ↔ Evaluates scope levels (.map fields) o := by
  rw [evaluateWithin_replace hm hr]
  simp only [bind_eq_ok_iff]
  constructor
  · rintro ⟨target,ht,h⟩
    exact .replaced hm hr ht h
  · intro h
    cases h with
    | replaced _ hr' ht h =>
      cases hr.symm.trans hr'
      exact ⟨_, ht, h⟩
    | _ => simp_all

/-- A map without references is omitted, or its fields are evaluated and perhaps encoded. -/
theorem evaluateWithin_of_fields (hm : fields.get? Directive.merge.key = none)
    (hr : fields.get? Directive.replace.key = none) :
    scope.evaluateWithin (levels + 1) (.map fields) = .ok o ↔ Evaluates scope levels (.map fields) o := by
  rw [evaluateWithin_fields hm hr]
  simp only [bind_eq_ok_iff]
  constructor
  · rintro ⟨s,hs,h⟩
    cases s with
    | none =>
      cases h
      exact .omitted hm hr hs
    | some selected =>
      obtain ⟨format,hf,h⟩ := bind_eq_ok_iff.mp h
      obtain ⟨b,hb,h⟩ := bind_eq_ok_iff.mp h
      rw [children_of_isReplacement hb] at h
      obtain ⟨results,hres,h⟩ := bind_eq_ok_iff.mp h
      cases format with
      | none =>
        cases h
        exact .map hm hr hs (requestedFormat_eq_none_iff.mp hf) hb hres
      | some format =>
        obtain ⟨r,henc,rfl⟩ := map_eq_ok_iff.mp h
        exact .encodedMap hm hr hs (requestedFormat_eq_some_iff.mp hf) hb hres henc
  · intro h
    cases h with
    | merged hm' => simp_all
    | replaced _ hr' => simp_all
    | omitted _ _ hs => exact ⟨none, hs, rfl⟩
    | @map _ results _ b _ _ hs he hb hres =>
      refine ⟨_, hs, bind_eq_ok_iff.mpr ⟨none, requestedFormat_eq_none_iff.mpr he, ?_⟩⟩
      refine bind_eq_ok_iff.mpr ⟨b, hb, ?_⟩
      rw [children_of_isReplacement hb]
      exact bind_eq_ok_iff.mpr ⟨results, hres, rfl⟩
    | @encodedMap _ results _ b format r _ _ hs he hb hres henc =>
      refine ⟨_, hs, bind_eq_ok_iff.mpr ⟨some format, requestedFormat_eq_some_iff.mpr he, ?_⟩⟩
      refine bind_eq_ok_iff.mpr ⟨b, hb, ?_⟩
      rw [children_of_isReplacement hb]
      exact bind_eq_ok_iff.mpr ⟨results, hres, map_eq_ok_iff.mpr ⟨r, henc, rfl⟩⟩

theorem evaluateWithin_map_eq_ok_iff :
    scope.evaluateWithin (levels + 1) (.map fields) = .ok o ↔ Evaluates scope levels (.map fields) o := by
  cases hm : fields.get? Directive.merge.key with
  | some reference => exact evaluateWithin_of_merge hm
  | none =>
    cases hr : fields.get? Directive.replace.key with
    | some reference => exact evaluateWithin_of_replace hm hr
    | none => exact evaluateWithin_of_fields hm hr

theorem evaluateWithin_list_eq_ok_iff :
    scope.evaluateWithin (levels + 1) (.list items) = .ok o ↔ Evaluates scope levels (.list items) o := by
  rw [evaluateWithin_list]
  cases ho : items.any isOmission with
  | true =>
    simp only [if_true]
    constructor
    · intro h
      cases h
      exact .omittedList ho
    · intro h
      cases h with
      | omittedList => rfl
      | _ => simp_all
  | false =>
    simp only [Bool.false_eq_true, if_false, bind_eq_ok_iff]
    constructor
    · rintro ⟨⟨format,values⟩,hi,h⟩
      cases format with
      | none =>
        cases h
        exact .list ho hi
      | some format =>
        obtain ⟨r,henc,rfl⟩ := map_eq_ok_iff.mp h
        exact .encodedList ho hi henc
    · intro h
      cases h with
      | omittedList ho' => simp_all
      | list _ hi => exact ⟨_, hi, rfl⟩
      | @encodedList _ _ _ r _ hi henc => exact ⟨_, hi, map_eq_ok_iff.mpr ⟨r, henc, rfl⟩⟩

theorem evaluateWithin_string_eq_ok_iff {s : String} :
    scope.evaluateWithin (levels + 1) (.string s) = .ok o ↔ Evaluates scope levels (.string s) o := by
  cases hs : stringReference? s with
  | none =>
    rw [evaluateWithin_text hs]
    constructor
    · rintro ⟨⟩
      exact .text hs
    · intro h
      cases h with
      | reference hs' => cases hs.symm.trans hs'
      | text => rfl
  | some p =>
    obtain ⟨d,path⟩ := p
    rw [evaluateWithin_reference hs, bind_eq_ok_iff]
    constructor
    · rintro ⟨target,ht,h⟩
      exact .reference hs (resolve_string_eq_ok_iff.mp ht) h
    · intro h
      cases h with
      | reference hs' ht h =>
        cases hs.symm.trans hs'
        exact ⟨_, resolve_string_eq_ok_iff.mpr ht, h⟩
      | text hs' => cases hs.symm.trans hs'

theorem evaluateWithin_succ_eq_ok_iff :
    scope.evaluateWithin (levels + 1) v = .ok o ↔ Evaluates scope levels v o := by
  cases v with
  | map fields => exact evaluateWithin_map_eq_ok_iff
  | list items => exact evaluateWithin_list_eq_ok_iff
  | string s => exact evaluateWithin_string_eq_ok_iff
  | _ =>
    constructor
    · rintro ⟨⟩
      constructor
    · rintro ⟨⟩
      rfl

end Scope
end LayeredConfig
