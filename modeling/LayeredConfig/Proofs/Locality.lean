import LayeredConfig.Proofs.Ingredients
import LayeredConfig.Proofs.Plain

/-! # References read what they name

A reference names the document at hand by a bare path, and another document by a selector. Merging makes new
reference nodes while an evaluation runs, but none of a form that no tree had before: under `$merge` and
`$replace` stands what one side held there, or a map where both sides held maps. Without selectors the
documents are therefore never read, and without bare paths the document at hand is not.
-/
namespace LayeredConfig
variable {leaf : Value → Prop} {field : String → Kind → Prop} {levels : Nat} {v reference : Value}
variable {d : Directive} {scope scope' : Scope} {selector : Fields} {r : Reference}

namespace Value

def SelectorFree (v : Value) : Prop :=
  ∀ d : Directive, d.IsReference → ∀ fields, ¬ v.HoldsField d.key (map fields)

/-- No string in the value is a reference and no `$merge` or `$replace` in it holds a string: there is no
path into the document at hand. -/
structure PathFree (v : Value) : Prop where
  literal : v.Literal
  field : ∀ d : Directive, d.IsReference → ∀ s, ¬ v.HoldsField d.key (string s)

def RefersToNo (kind : Kind) (key : String) (found : Kind) : Prop :=
  ∀ d : Directive, d.IsReference → key = d.key → found ≠ kind

theorem SelectorFree.madeOf (h : v.SelectorFree) : v.MadeOf (fun _ => True) (RefersToNo .map) where
  leaf _ _ _ := trivial
  field key w hw := by
    rintro d hd rfl hk
    obtain ⟨fields,rfl⟩ := kind_eq_map_iff.mp hk
    exact h d hd fields hw

theorem PathFree.madeOf (h : v.PathFree) :
    v.MadeOf (fun w => ∀ s, w = string s → stringReference? s = none) (RefersToNo .string) where
  leaf w hw _ := by
    rintro s rfl
    exact stringReference?_eq_none_iff.mpr (h.literal s hw)
  field key w hw := by
    rintro d hd rfl hk
    cases w with
    | string s => exact h.field d hd s hw
    | _ => cases hk

/-- A reference is a field under one of the two directives, or a string that stands for a path. -/
theorem Refers.of_field_or_string (h : v.Refers d reference) :
    (d.IsReference ∧ v.HoldsField d.key reference) ∨
      ∃ s path, v = Value.string s ∧ stringReference? s = some (d, path) ∧ reference = Value.string path := by
  cases h with
  | merge hm => exact Or.inl ⟨Or.inl rfl, HoldsField.map_iff.mpr (Or.inl (Fields.mem_of_get? hm))⟩
  | replace hr => exact Or.inl ⟨Or.inr rfl, HoldsField.map_iff.mpr (Or.inl (Fields.mem_of_get? hr))⟩
  | string hs => exact Or.inr ⟨_, _, rfl, hs, rfl⟩

end Value

/-- A selector never stands for the document at hand. -/
theorem Reference.target_of_ofSelector (h : ofSelector d selector = .ok r) : r.target ≠ .current := by
  simp only [ofSelector, bind, Except.bind] at h
  grind

namespace Scope

/-- Only a map leads to the documents. -/
theorem resolve_of_not_map (hroot : scope.root = scope'.root) (h : reference.kind ≠ .map) :
    scope.resolve d reference = scope'.resolve d reference := by
  cases reference with
  | map selector => exact absurd rfl h
  | string path => rw [resolve_string, resolve_string, hroot]
  | _ => rfl

/-- Only a string leads to the document at hand. -/
theorem resolve_of_not_string (hdocs : scope.documents = scope'.documents)
    (h : reference.kind ≠ .string) : scope.resolve d reference = scope'.resolve d reference := by
  cases reference with
  | string path => exact absurd rfl h
  | map selector =>
    rw [resolve, resolve, hdocs]
    cases hr : Reference.ofValue d (.map selector) with
    | error e => rfl
    | ok r =>
      have htarget : r.target ≠ .current := Reference.target_of_ofSelector hr
      have hdocument : r.document scope.root scope'.documents =
          r.document scope'.root scope'.documents := by
        unfold Reference.document
        cases ht : r.target with
        | current => exact absurd ht htarget
        | _ => rfl
      simp only [bind, Except.bind, Reference.resolve, hdocument]
  | _ => rfl

/-- Two evaluations agree if they start from the same leaves and fields and the references made of these
lead to the same. -/
theorem evaluateWithin_congr (hregistry : scope.registry = scope'.registry)
    (hs : scope'.MadeOf leaf field)
    (hresolve : ∀ v : Value, v.MadeOf leaf field → ∀ d reference, v.Refers d reference →
      scope.resolve d reference = scope'.resolve d reference)
    (hv : v.MadeOf leaf field) :
    scope.evaluateWithin levels v = scope'.evaluateWithin levels v := by
  have hequal : Compatible (Except Error) fun x y => x = y :=
    ⟨fun _ => rfl, fun _ => rfl, fun {_ _ x _ _ _} hx hf => by
      subst hx
      cases x with
      | error e => rfl
      | ok a => exact hf a rfl, fun _ hx => hx ▸ rfl⟩
  induction levels generalizing v with
  | zero => rfl
  | succ levels ih =>
    refine hequal.evaluateWithin_succ hregistry (hresolve v hv) ?_
    intro w hw
    refine ih (hv.next ?_ hw)
    intro d reference target hr ht
    rw [hresolve v hv d reference hr] at ht
    exact hs.resolve ht

theorem evaluateWithin_of_selectorFree (hroot : scope.root.SelectorFree) (hv : v.SelectorFree) :
    scope.evaluateWithin levels v = { scope with documents := [] }.evaluateWithin levels v := by
  refine evaluateWithin_congr rfl ⟨hroot.madeOf, fun _ hd => nomatch hd⟩ ?_ hv.madeOf
  intro v hv d reference hr
  refine resolve_of_not_map rfl ?_
  rcases hr.of_field_or_string with ⟨hd,hw⟩ | ⟨s,path,_,_,rfl⟩
  · exact hv.field d.key reference hw d hd rfl
  · nofun

theorem evaluateWithin_of_pathFree (hdocs : ∀ d ∈ scope.documents, d.PathFree) (hv : v.PathFree) :
    scope.evaluateWithin levels v = { scope with root := .null }.evaluateWithin levels v := by
  have hnull : Value.null.MadeOf (fun w => ∀ s, w = .string s → stringReference? s = none)
      (Value.RefersToNo .string) := Value.madeOf_of_isLeaf rfl nofun
  refine evaluateWithin_congr rfl ⟨hnull, fun d hd => (hdocs d hd).madeOf⟩ ?_ hv.madeOf
  intro v hv d reference hr
  refine resolve_of_not_string rfl ?_
  rcases hr.of_field_or_string with ⟨hd,hw⟩ | ⟨s,path,rfl,hs,_⟩
  · exact hv.field d.key reference hw d hd rfl
  · rw [hv.leaf _ .refl rfl s rfl] at hs
    cases hs

/-- Without selectors an evaluation is the same for all lists of documents, and without paths into the
document at hand it is the same for all documents at hand; failures are the same too. -/
theorem evaluate_reads_named (registry : Registry) :
    (∀ root v : Value, root.SelectorFree → v.SelectorFree → ∀ documents documents' : List Value,
      evaluate ⟨root, documents, registry⟩ v = evaluate ⟨root, documents', registry⟩ v) ∧
    ∀ (documents : List Value) (v : Value), (∀ d ∈ documents, d.PathFree) → v.PathFree →
      ∀ root root' : Value,
        evaluate ⟨root, documents, registry⟩ v = evaluate ⟨root', documents, registry⟩ v := by
  constructor
  · intro root v hroot hv documents documents'
    have hempty : ∀ documents, evaluate ⟨root, documents, registry⟩ v = evaluate ⟨root, [], registry⟩ v :=
      fun documents => evaluateWithin_of_selectorFree hroot hv
    rw [hempty documents, hempty documents']
  · intro documents v hdocs hv root root'
    have hnull : ∀ root, evaluate ⟨root, documents, registry⟩ v = evaluate ⟨.null, documents, registry⟩ v :=
      fun root => evaluateWithin_of_pathFree hdocs hv
    rw [hnull root, hnull root']

theorem evaluate_reads_named_image :
    let image := Value.map [("name", .string "web"), ("tag", .string "1")]
    let root := Value.map [("app", .map [("$merge", .string "image"), ("tag", .string "$replace:tag")]),
      ("image", image), ("tag", .string "2")]
    let v := Value.map [("$merge", .map [("$match", .map [("name", .string "web")])]),
      ("tag", .string "3")]
    root.SelectorFree ∧ image.PathFree ∧ v.PathFree ∧
      evaluate ⟨root, [], .builtIn⟩ root = evaluate ⟨root, [image, root], .builtIn⟩ root ∧
      evaluate ⟨.null, [image], .builtIn⟩ v = evaluate ⟨root, [image], .builtIn⟩ v ∧
      evaluate ⟨root, [image], .builtIn⟩ v =
        .ok (some (.map [("name", .string "web"), ("tag", .string "3")])) := by
  intro image root v
  have hroot : root.SelectorFree := by
    simp [root, image, Value.SelectorFree, Directive.IsReference, Value.HoldsField,
      Value.inside_iff_mem_parts, Value.parts, Value.partsOfFields, Directive.key]
  have himage : image.PathFree := by
    constructor <;> simp [image, Value.Literal, Directive.IsReference, Value.HoldsField,
      Value.inside_iff_mem_parts, Value.parts, Value.partsOfFields, Directive.key, Directive.stringPrefix]
  have hv : v.PathFree := by
    constructor <;> simp [v, Value.Literal, Directive.IsReference, Value.HoldsField,
      Value.inside_iff_mem_parts, Value.parts, Value.partsOfFields, Directive.key, Directive.stringPrefix]
  obtain ⟨hselector,hpath⟩ := evaluate_reads_named .builtIn
  refine ⟨hroot, himage, hv, hselector root root hroot hroot [] [image, root], ?_, by rfl⟩
  exact hpath [image] v (by simpa using himage) hv .null root

end Scope
end LayeredConfig
