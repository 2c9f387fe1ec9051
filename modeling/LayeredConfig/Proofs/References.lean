import LayeredConfig.Formats
import LayeredConfig.Proofs.Levels

/-! # The forms of a reference

A reference is a string with a prefix or a map with a directive. As `$replace` the two are
interchangeable. As `$merge` they are wherever the path leads to a map or to nothing: the map form lays
its remaining fields, none of them, over what it finds, and a map laid over a list or a scalar is not
what it is laid over.
-/
namespace LayeredConfig
variable {scope : Scope} {levels : Nat} {d : Directive} {s p : String} {fields : Fields}
variable {reference dst target : Value}

def Directive.IsReference (d : Directive) : Prop := d = merge ∨ d = replace

theorem stringReference?_eq_none_iff :
    stringReference? s = none ↔
      ∀ d : Directive, d.IsReference → ¬ d.stringPrefix.toList <+: s.toList := by
  simp [stringReference?, Directive.IsReference]

theorem stringReference?_append (hd : d.IsReference) :
    stringReference? (d.stringPrefix ++ p) = some (d, p) := by
  rcases hd with rfl | rfl <;> simp [stringReference?, Directive.stringPrefix, Directive.key]

theorem merge_nil : merge (.map fields) (.map []) = .ok (.map fields) := mergeAt_map_nil (Nat.zero_le _)

theorem merge_of_isLeaf (h : dst.isLeaf) : merge dst (.map fields) = .ok (.map fields) :=
  mergeAt_of_isLeaf (Nat.zero_le _) h (by simp)

theorem merge_list_map {items : List Value} :
    merge (.list items) (.map fields) = .error (.mismatch .list .map) := by
  have hd : ¬ depthLimit < 0 := Nat.not_lt_zero _
  rw [merge, mergeAt, if_neg hd]

namespace Scope

theorem resolve_string_of_some (h : scope.root.atPath? p = some target) :
    scope.resolve d (.string p) = .ok target := by
  rw [resolve_string, h]

theorem evaluateWithin_string (hd : d.IsReference) :
    scope.evaluateWithin (levels + 1) (.string (d.stringPrefix ++ p)) =
      scope.resolve d (.string p) >>= scope.evaluateWithin levels :=
  evaluateWithin_reference (stringReference?_append hd)

/-- A string that refers to a value costs a level and is otherwise that value. -/
theorem evaluateWithin_of_atPath? (hd : d.IsReference) (h : scope.root.atPath? p = some target) :
    scope.evaluateWithin (levels + 1) (.string (d.stringPrefix ++ p)) =
      scope.evaluateWithin levels target := by
  rw [evaluateWithin_string hd, resolve_string_of_some h]
  rfl

/-- The string and the map form of a reference evaluate alike, but for a `$merge` of a list, which a map
cannot be laid over, and of a scalar, which the empty map takes the place of. -/
theorem evaluate_reference_forms (scope : Scope) (p : String) :
    scope.evaluate (.string (Directive.replace.stringPrefix ++ p)) =
        scope.evaluate (.map [(Directive.replace.key, .string p)]) ∧
      ((∀ target, scope.root.atPath? p = some target → target.kind = .map) →
        scope.evaluate (.string (Directive.merge.stringPrefix ++ p)) =
          scope.evaluate (.map [(Directive.merge.key, .string p)])) ∧
      (∀ items, scope.root.atPath? p = some (.list items) →
        scope.evaluate (.map [(Directive.merge.key, .string p)]) =
          .error (.context Directive.merge.key (.mismatch .list .map))) ∧
      ∀ target, scope.root.atPath? p = some target → target.isLeaf →
        scope.evaluate (.map [(Directive.merge.key, .string p)]) = .ok (some (.map [])) := by
  have hreplace : scope.evaluate (.map [(Directive.replace.key, .string p)]) =
      scope.resolve .replace (.string p) >>= scope.evaluateWithin depthLimit :=
    evaluateWithin_replace rfl rfl
  have hmerge : scope.evaluate (.map [(Directive.merge.key, .string p)]) = (do
      let target ← scope.resolve .merge (.string p)
      let merged ← labelled Directive.merge.key (merge target (.map []))
      scope.evaluateWithin depthLimit merged) :=
    evaluateWithin_merge rfl
  refine ⟨?_, ?_, ?_, ?_⟩
  · exact (evaluateWithin_string (Or.inr rfl)).trans hreplace.symm
  · intro hmap
    have hstring : scope.evaluate (.string (Directive.merge.stringPrefix ++ p)) =
        scope.resolve .merge (.string p) >>= scope.evaluateWithin depthLimit :=
      evaluateWithin_string (Or.inl rfl)
    rw [hstring, hmerge, resolve_string]
    cases ht : scope.root.atPath? p with
    | none => rfl
    | some target =>
      cases target with
      | map fields =>
        have hself : labelled Directive.merge.key (merge (.map fields) (.map [])) = .ok (.map fields) :=
          labelled_eq_ok_iff.mpr merge_nil
        simp [bind, Except.bind, hself]
      | _ => cases hmap _ ht
  · intro items ht
    rw [hmerge, resolve_string_of_some ht]
    simp [bind, Except.bind, labelled, merge_list_map]
  · intro target ht hl
    have hempty : labelled Directive.merge.key (merge target (.map [])) = .ok (.map []) :=
      labelled_eq_ok_iff.mpr (merge_of_isLeaf hl)
    rw [hmerge, resolve_string_of_some ht]
    simp only [bind, Except.bind, hempty]
    rfl

theorem evaluate_reference_forms_image :
    let image := Value.map [("tag", .string "$replace:version")]
    let root := Value.map [("args", .list [.string "run"]), ("image", image), ("version", .string "2")]
    let scope : Scope := ⟨root, [root], .builtIn⟩
    let r := Value.map [("tag", .string "2")]
    scope.evaluate (.string "$replace:args") = scope.evaluate (.map [("$replace", .string "args")]) ∧
      scope.evaluate (.string "$merge:image") = .ok (some r) ∧
      scope.evaluate (.map [("$merge", .string "image")]) = .ok (some r) ∧
      scope.evaluate (.map [("$merge", .string "args")]) =
        .error (.context "$merge" (.mismatch .list .map)) ∧
      scope.evaluate (.map [("$merge", .string "version")]) = .ok (some (.map [])) := by
  intro image root scope r
  have he : scope.evaluate (.string "$merge:image") = .ok (some r) := by rfl
  obtain ⟨hreplace,_,hlist,_⟩ := evaluate_reference_forms scope "args"
  obtain ⟨_,hmap,_,_⟩ := evaluate_reference_forms scope "image"
  obtain ⟨_,_,_,hleaf⟩ := evaluate_reference_forms scope "version"
  have himage : ∀ target, scope.root.atPath? "image" = some target → target.kind = .map := by
    intro target ht
    have hroot : scope.root.atPath? "image" = some image := by rfl
    cases hroot.symm.trans ht
    rfl
  exact ⟨hreplace, he, (hmap himage).symm.trans he, hlist _ rfl, hleaf _ rfl rfl⟩

/-- The string form of a `$merge` brings in a list that the map form refuses. -/
theorem not_interchangeable_of_list :
    let root := Value.map [("args", .list [.string "run"])]
    let scope : Scope := ⟨root, [root], .builtIn⟩
    scope.evaluate (.string "$merge:args") = .ok (some (.list [.string "run"])) ∧
      scope.evaluate (.map [("$merge", .string "args")]) =
        .error (.context "$merge" (.mismatch .list .map)) ∧
      scope.evaluate (.string "$merge:args") ≠ scope.evaluate (.map [("$merge", .string "args")]) := by
  intro root scope
  have hstring : scope.evaluate (.string "$merge:args") = .ok (some (.list [.string "run"])) := by rfl
  have hmap : scope.evaluate (.map [("$merge", .string "args")]) =
      .error (.context "$merge" (.mismatch .list .map)) := by rfl
  refine ⟨hstring, hmap, ?_⟩
  rw [hstring, hmap]
  simp

end Scope
end LayeredConfig
