import LayeredConfig.Proofs.Encoders
import LayeredConfig.Proofs.Encoding
import LayeredConfig.Proofs.Ingredients

/-! # Required values

The required marks of a session can be listed before anything is evaluated. The list is complete: what an
evaluation makes of documents without the mark is without it, and evaluation itself fails for reasons of
its own.
-/
namespace LayeredConfig
variable {P : Error → Prop} {scope : Scope} {d : Directive} {reference v w : Value} {fields : Fields}
variable {items : List Value} {levels index : Nat} {place : List String} {s : Session}

inductive Error.OfEvaluation : Error → Prop where
  | merge {e : Error} : e.OfMerge → OfEvaluation e
  | referenceKind (d : Directive) (found : Kind) : OfEvaluation (.referenceKind d found)
  | directiveValue (d : Directive) (fault : DirectiveFault) : OfEvaluation (.directiveValue d fault)
  | invalidIndex (index count : Nat) : OfEvaluation (.invalidIndex index count)
  | noMatch (pattern : String) : OfEvaluation (.noMatch pattern)
  | unresolved (d : Directive) (path : String) : OfEvaluation (.unresolved d path)
  | circular (value : String) : OfEvaluation (.circular value)
  | unknownFormat (name : String) : OfEvaluation (.unknownFormat name)
  | encode (format : String) (fault : EncodeFault) : OfEvaluation (.encode format fault)

namespace Scope

theorem ofValue_failsWith : FailsWith Error.OfEvaluation (Reference.ofValue d reference) := by
  cases reference with
  | string path => exact .ok _
  | map selector =>
    rw [Reference.ofValue, Reference.ofSelector]
    repeat' split
    all_goals first | exact .ok _ | exact .error (.directiveValue _ _)
  | _ => exact .error (.referenceKind _ _)

theorem resolve_failsWith : FailsWith Error.OfEvaluation (scope.resolve d reference) := by
  refine ofValue_failsWith.bind fun r _ => ?_
  have hdocument : FailsWith Error.OfEvaluation (r.document scope.root scope.documents) := by
    unfold Reference.document
    split
    · exact .ok _
    · split
      · exact .ok _
      · exact .error (.noMatch _)
    · split
      · exact .ok _
      · exact .error (.invalidIndex _ _)
  refine hdocument.bind fun document _ => ?_
  split
  · exact .ok _
  · exact .error (.unresolved _ _)

theorem encode_failsWith {format : String} (hr : scope.registry.OnlyBuiltIn) :
    FailsWith Error.OfEvaluation (scope.encode format v) := by
  have hget : FailsWith Error.OfEvaluation (scope.registry.get format) := by
    rw [Registry.get]
    split
    · exact .ok _
    · exact .error (.unknownFormat _)
  refine hget.bind fun f hf => ?_
  exact ((hr.get hf).encode_failsWith .encode).labelled.map

end Scope

theorem encodeMark_failsWith : FailsWith Error.OfEvaluation (encodeMark v) := by
  unfold encodeMark
  split
  · split
    · unfold formatName
      split
      · exact .ok _
      · exact .error (.directiveValue _ _)
    · exact .ok _
  · exact .ok _

theorem evaluateFields_failsWith {evaluate : Value → Except Error (Option Value)}
    (h : ∀ v, FailsWith P (evaluate v)) : FailsWith P (evaluateFields evaluate fields) := by
  induction fields with
  | nil => exact .ok _
  | cons p rest ih =>
    refine (h p.2).labelled.bind fun _ _ => ?_
    exact ih.bind fun _ _ => .ok _

theorem evaluateItems_failsWith {evaluate : Value → Except Error (Option Value)}
    (h : ∀ v, FailsWith Error.OfEvaluation (evaluate v)) :
    FailsWith Error.OfEvaluation (evaluateItems evaluate index items) := by
  induction items generalizing index with
  | nil => exact .ok _
  | cons v rest ih =>
    refine encodeMark_failsWith.labelled.bind fun mark _ => ?_
    cases mark with
    | some format => exact ih.bind fun _ _ => .ok _
    | none =>
      refine (h v).labelled.bind fun _ _ => ?_
      exact ih.bind fun _ _ => .ok _

namespace Scope

theorem evaluateWithin_fields_failsWith (hr : scope.registry.OnlyBuiltIn)
    (h : ∀ v, FailsWith Error.OfEvaluation (scope.evaluateWithin levels v))
    (hm : fields.get? Directive.merge.key = none) (hp : fields.get? Directive.replace.key = none) :
    FailsWith Error.OfEvaluation (scope.evaluateWithin (levels + 1) (.map fields)) := by
  have hselection : FailsWith Error.OfEvaluation (selection fields) := by
    unfold selection
    split
    all_goals first | exact .ok _ | exact .error (.directiveValue _ _)
  have hformat : FailsWith Error.OfEvaluation (requestedFormat fields) := by
    rw [requestedFormat]
    cases fields.get? Directive.encode.key with
    | none => exact .ok _
    | some v => cases v <;> first | exact .ok _ | exact .error (.directiveValue _ _)
  rw [evaluateWithin_fields hm hp]
  refine hselection.bind fun selected _ => ?_
  cases selected with
  | none => exact .ok _
  | some selected =>
    refine hformat.bind fun format _ => ?_
    refine (isReplacement_failsWith.mono fun _ => .merge).bind fun replaces _ => ?_
    refine (evaluateFields_failsWith h).bind fun results _ => ?_
    cases format with
    | none => exact .ok _
    | some format => exact (encode_failsWith hr).map

/-- With no other than built-in encoders an evaluation fails for reasons of its own. -/
theorem evaluateWithin_failsWith (hr : scope.registry.OnlyBuiltIn) :
    FailsWith Error.OfEvaluation (scope.evaluateWithin levels v) := by
  induction levels generalizing v with
  | zero => exact .error (.circular _)
  | succ levels ih =>
    cases v with
    | map fields =>
      cases hm : Fields.get? Directive.merge.key fields with
      | some reference =>
        rw [evaluateWithin_merge hm]
        refine resolve_failsWith.bind fun target _ => ?_
        refine (mergeAt_failsWith.mono fun _ => .merge).labelled.bind fun merged _ => ?_
        exact ih
      | none =>
        cases hp : Fields.get? Directive.replace.key fields with
        | some reference =>
          rw [evaluateWithin_replace hm hp]
          exact resolve_failsWith.bind fun target _ => ih
        | none => exact evaluateWithin_fields_failsWith hr (fun _ => ih) hm hp
    | list items =>
      rw [evaluateWithin_list]
      split
      · exact .ok _
      · refine (evaluateItems_failsWith fun _ => ih).bind fun p _ => ?_
        obtain ⟨format,results⟩ := p
        cases format with
        | none => exact .ok _
        | some format => exact (encode_failsWith hr).map
    | string s =>
      cases hs : stringReference? s with
      | none =>
        rw [evaluateWithin_text hs]
        exact .ok _
      | some p =>
        rw [evaluateWithin_reference hs]
        exact resolve_failsWith.bind fun target _ => ih
    | _ => exact .ok _

end Scope

namespace Value

theorem requiredItems_eq_nil_iff : requiredItems items = [] ↔ ∀ v ∈ items, v.required? = none := by
  induction items with
  | nil => simp [requiredItems]
  | cons v rest ih => simp [requiredItems, ih]

theorem requiredFields_eq_nil_iff :
    requiredFields fields = [] ↔ ∀ key v, (key, v) ∈ fields → v.required? = none := by
  induction fields with
  | nil => simp [requiredFields]
  | cons p rest ih =>
    rw [requiredFields, Fields.forall_mem_cons, ← ih]
    cases p.2.required? <;> simp

/-- What is extracted from a value is nothing if and only if there is no required mark in it. -/
theorem required?_eq_none_iff : v.required? = none ↔ ¬ (string requiredMark).Inside v := by
  induction v with
  | list items ih =>
    have hnone : (list items).required? = none ↔ requiredItems items = [] := by
      rw [required?]
      split <;> simp_all
    rw [hnone, requiredItems_eq_nil_iff, Inside.list_iff]
    simp only [reduceCtorEq, false_or, not_exists, not_and]
    exact forall₂_congr ih
  | map fields ih =>
    have hnone : (map fields).required? = none ↔ requiredFields fields = [] := by
      rw [required?]
      split <;> simp_all
    rw [hnone, requiredFields_eq_nil_iff, Inside.map_iff]
    simp only [reduceCtorEq, false_or, not_exists, not_and]
    exact forall₃_congr ih
  | string s =>
    have hinside : (string requiredMark).Inside (string s) ↔ s = requiredMark := by
      constructor
      · rintro ⟨⟩
        rfl
      · rintro rfl
        exact .refl
    rw [hinside, required?]
    split <;> simp_all
  | _ =>
    refine iff_of_true rfl ?_
    rintro ⟨⟩

def NotRequired (v : Value) : Prop := v ≠ string requiredMark

theorem madeOf_notRequired_iff :
    v.MadeOf NotRequired (fun _ _ => True) ↔ ¬ (string requiredMark).Inside v := by
  constructor
  · intro h hin
    exact h.leaf _ hin rfl rfl
  · intro h
    refine ⟨?_, fun _ _ _ => trivial⟩
    rintro w hw _ rfl
    exact h hw

end Value

def Error.IsLeftover (e : Error) : Prop := ∃ path key, e = .leftoverDirective path key

namespace Value

theorem checkItems_failsWith (h : ∀ v ∈ items, ∀ place, FailsWith P (v.checkAt place)) :
    FailsWith P (checkItems place index items) := by
  induction items generalizing index with
  | nil => exact .ok _
  | cons v rest ih =>
    obtain ⟨hv,hrest⟩ := List.forall_mem_cons.mp h
    exact (hv _).bind fun _ _ => ih hrest

theorem checkFields_failsWith
    (h : ∀ key v, (key, v) ∈ fields → ∀ place, FailsWith Error.IsLeftover (v.checkAt place)) :
    FailsWith Error.IsLeftover (checkFields place fields) := by
  induction fields with
  | nil => exact .ok _
  | cons p rest ih =>
    obtain ⟨key,v⟩ := p
    obtain ⟨hv,hrest⟩ := Fields.forall_mem_cons.mp h
    rw [checkFields]
    split
    · exact .error ⟨_, key, rfl⟩
    · exact (hv _).bind fun _ _ => ih hrest

/-- On a value without a required mark the check fails for a directive only. -/
theorem checkAt_failsWith (h : ¬ (string requiredMark).Inside v) :
    FailsWith Error.IsLeftover (v.checkAt place) := by
  induction v generalizing place with
  | list items ih => exact checkItems_failsWith fun v hv _ => ih v hv fun hin => h (.item hv hin)
  | map fields ih =>
    exact checkFields_failsWith fun key v hv _ => ih key v hv fun hin => h (.field hv hin)
  | string s =>
    rw [checkAt]
    split
    · next hs =>
      subst hs
      exact absurd .refl h
    · exact .ok _
  | _ => exact .ok _

end Value

namespace Session

theorem checkAll_failsWith {values : List Value} (h : ∀ v ∈ values, FailsWith P v.checkFinished) :
    FailsWith P (checkAll values) := by
  induction values with
  | nil => exact .ok _
  | cons v rest ih =>
    obtain ⟨hv,hrest⟩ := List.forall_mem_cons.mp h
    exact hv.bind fun _ _ => ih hrest

/-- What a document without required marks evaluates to among documents without them has none. -/
theorem evaluate_notRequired {root : Value} (hr : s.registry.OnlyBuiltIn)
    (hs : ∀ d ∈ s.documents, d.data.required? = none) (hroot : s.document index = .ok root)
    (h : (s.scope root).evaluate root = .ok (some v)) :
    v.MadeOf Value.NotRequired fun _ _ => True := by
  have hvalues : ∀ w ∈ s.values, w.MadeOf Value.NotRequired fun _ _ => True := by
    intro w hw
    obtain ⟨d,hd,rfl⟩ := List.mem_map.mp hw
    exact Value.madeOf_notRequired_iff.mpr (Value.required?_eq_none_iff.mp (hs d hd))
  have hmem : root ∈ s.values := List.mem_of_getElem? (document_eq_ok_iff.mp hroot)
  have hencode : (s.scope root).Encodes Value.NotRequired := by
    intro format w r hw hr'
    obtain ⟨f,text,hf,htext,rfl⟩ := Scope.encode_eq_ok_iff.mp hr'
    rintro ⟨⟩
    exact (hr.get hf).encode_ne_requiredMark hw htext rfl
  exact Scope.evaluateWithin_madeOf ⟨hvalues root hmem, hvalues⟩ hencode ⟨trivial, nofun⟩
    (hvalues root hmem) h

/-- If nothing is required in any document of a session that has only built-in formats, then no output
fails because of a required value. -/
theorem outputsAt_of_required_eq_none (hr : s.registry.OnlyBuiltIn)
    (hs : ∀ d ∈ s.documents, d.data.required? = none) (index : Nat) {e : Error}
    (h : s.outputsAt index = .error e) (path : List String) : e.root ≠ .requiredMissing path := by
  have hfails : FailsWith (fun e => ∀ path, e ≠ .requiredMissing path) (s.outputsAt index) := by
    have hdocument : FailsWith (fun e => ∀ path, e ≠ .requiredMissing path) (s.document index) := by
      rw [Session.document]
      split
      · exact .ok _
      · exact .error fun path he => by cases he
    refine hdocument.bind fun root hroot => ?_
    have hevaluate : FailsWith (fun e => ∀ path, e ≠ .requiredMissing path)
        ((s.scope root).evaluate root) := by
      refine (Scope.evaluateWithin_failsWith hr).mono ?_
      rintro e he path rfl
      cases he with
      | merge he => cases he
    refine (hevaluate.bind fun o ho => ?_).labelled
    cases o with
    | none => exact .ok _
    | some v =>
      have hv := evaluate_notRequired hr hs hroot ho
      refine (checkAll_failsWith ?_).bind fun _ _ => .ok _
      intro w hw
      refine (Value.checkAt_failsWith (Value.madeOf_notRequired_iff.mp (hv.outputs hw))).mono ?_
      rintro e ⟨leftover,key,rfl⟩ path he
      cases he
  exact hfails e h path

theorem outputsAt_of_required_eq_none_leftover :
    let base := Value.map [("$parent", .string "defaults"), ("mode", .string "strict")]
    let data := Value.map [("app", .map [("$merge", .string "base"), ("name", .string "web")]), ("base", base)]
    let s : Session := ⟨[⟨0, [], data⟩], .builtIn, 1⟩
    let e := Error.context "[doc0]" (.leftoverDirective ["app", "$parent"] "$parent")
    s.registry.OnlyBuiltIn ∧ (∀ d ∈ s.documents, d.data.required? = none) ∧ s.outputsAt 0 = .error e ∧
      ∀ path, e.root ≠ .requiredMissing path := by
  intro base data s e
  have hs : ∀ d ∈ s.documents, d.data.required? = none := List.forall_mem_singleton.mpr (by rfl)
  have he : s.outputsAt 0 = .error e := by rfl
  exact ⟨Registry.onlyBuiltIn_builtIn, hs, he,
    outputsAt_of_required_eq_none Registry.onlyBuiltIn_builtIn hs 0 he⟩

end Session
end LayeredConfig
