import LayeredConfig.Formats
import LayeredConfig.Proofs.Comparison
import LayeredConfig.Proofs.Growth
import LayeredConfig.Session.Output

/-! # Appended documents

A selector reads the documents from the first one on: an index counts from there, and a pattern leads to
the first document that satisfies it. What is found so is found again when documents are appended, so that
an evaluation that succeeds is not disturbed by them. One that fails may succeed then.
-/
namespace LayeredConfig
variable {scope : Scope} {levels index : Nat} {v root : Value} {documents more : List Value}

def Extends {α : Type} (x y : Except Error α) : Prop := ∀ a, x = .ok a → y = .ok a

namespace Extends

theorem compatible : Compatible (Except Error) Extends where
  lift _ _ h := h
  pure _ _ h := h
  bind {_ _ x _ f g} h hf b hb := by
    obtain ⟨a,ha,hb⟩ := bind_eq_ok_iff.mp hb
    exact bind_eq_ok_iff.mpr ⟨a, h a ha, hf a ha b hb⟩
  labelled label h a ha := labelled_eq_ok_iff.mpr (h a (labelled_eq_ok_iff.mp ha))

end Extends

theorem Reference.document_append {r : Reference} (h : r.document root documents = .ok v) :
    r.document root (documents ++ more) = .ok v := by
  unfold Reference.document at h ⊢
  cases ht : r.target with
  | current => simpa only [ht] using h
  | matching pattern =>
    simp only [ht] at h ⊢
    split at h
    · next d hd =>
      rw [List.find?_append, hd]
      exact h
    · cases h
  | index n =>
    simp only [ht] at h ⊢
    split at h
    · next d hd =>
      rw [List.getElem?_append_left (List.getElem?_eq_some_iff.mp hd).1, hd]
      exact h
    · cases h

namespace Scope

def appending (scope : Scope) (more : List Value) : Scope :=
  { scope with documents := scope.documents ++ more }

theorem resolve_appending (d : Directive) (reference : Value) :
    Extends (scope.resolve d reference) ((scope.appending more).resolve d reference) := by
  intro v h
  obtain ⟨r,hr,h⟩ := bind_eq_ok_iff.mp h
  obtain ⟨document,hd,h⟩ := bind_eq_ok_iff.mp h
  refine bind_eq_ok_iff.mpr ⟨r, hr, bind_eq_ok_iff.mpr ⟨document, ?_, h⟩⟩
  exact Reference.document_append hd

/-- A value that an evaluation has reached is reached as well with more documents in view. -/
theorem evaluateWithin_appending (v : Value) :
    Extends (scope.evaluateWithin levels v) ((scope.appending more).evaluateWithin levels v) := by
  induction levels generalizing v with
  | zero => exact fun _ h => nomatch h
  | succ levels ih =>
    exact Extends.compatible.evaluateWithin_succ rfl (fun d reference _ => resolve_appending d reference)
      fun w _ => ih w

end Scope

namespace Session
variable {s t : Session} {patch : Value} {i : Nat} {outputs : List Value}

theorem isPrefix_of_applyPatch (hindex : s.documents.length ≤ index)
    (hpattern : (splitPattern patch.canonical).2 = none)
    (h : perform (applyPatch index patch) s = (.ok (), t)) :
    s.documents <+: t.documents ∧ t.registry = s.registry := by
  rw [applyPatch, apply] at h
  cases hp : splitPattern patch.canonical with
  | mk rest pattern =>
    rw [hp] at h hpattern
    cases hpattern
    simp only [perform_applyAt_merged] at h
    cases hd : s.patchedAt index rest with
    | error e =>
      rw [hd] at h
      cases h
    | ok data =>
      rw [hd] at h
      cases h
      refine ⟨List.prefix_iff_getElem?.mpr ?_, rfl⟩
      intro j hj
      have hne : j ≠ index := by omega
      rw [getElem?_merged_of_ne hj hne, List.getElem?_eq_getElem hj]

theorem outputsAt_of_isPrefix (hdocs : s.documents <+: t.documents) (hreg : t.registry = s.registry)
    (h : s.outputsAt i = .ok outputs) : t.outputsAt i = .ok outputs := by
  obtain ⟨more,hmore⟩ := hdocs
  obtain ⟨root,hroot,h⟩ := bind_eq_ok_iff.mp h
  have hscope : t.scope root = (s.scope root).appending (more.map (·.data)) := by
    simp [scope, Scope.appending, values, ← hmore, hreg]
  have hroot' : t.document i = .ok root := by
    unfold document at hroot ⊢
    split at hroot
    · next d hd =>
      rw [← hmore, List.getElem?_append_left (List.getElem?_eq_some_iff.mp hd).1, hd]
      exact hroot
    · cases hroot
  obtain ⟨o,ho,h⟩ := bind_eq_ok_iff.mp (labelled_eq_ok_iff.mp h)
  have ho' : (t.scope root).evaluate root = .ok o := by
    rw [hscope]
    exact Scope.evaluateWithin_appending root o ho
  refine bind_eq_ok_iff.mpr ⟨root, hroot', labelled_eq_ok_iff.mpr ?_⟩
  exact bind_eq_ok_iff.mpr ⟨o, ho', h⟩

/-- A document that is appended, with all `null` documents that are put before it, takes nothing from
what the others put out. -/
theorem outputsAt_append (hindex : s.documents.length ≤ index)
    (hpattern : (splitPattern patch.canonical).2 = none)
    (h : perform (applyPatch index patch) s = (.ok (), t)) (ho : s.outputsAt i = .ok outputs) :
    t.outputsAt i = .ok outputs := by
  obtain ⟨hdocs,hreg⟩ := isPrefix_of_applyPatch hindex hpattern h
  exact outputsAt_of_isPrefix hdocs hreg ho

/-- The reference still leads to the first of two documents that satisfy its pattern. -/
theorem outputsAt_append_matching :
    let kind := ("kind", Value.string "base")
    let selector := Value.map [("$match", .map [kind])]
    let s : Session := ⟨[⟨0, [], .map [kind, ("size", .bool true)]⟩,
      ⟨1, [], .map [("app", .map [("$merge", selector)])]⟩], .builtIn, 2⟩
    let patch := Value.map [kind, ("size", .bool false)]
    let t : Session := ⟨s.documents ++ [⟨2, [], .null⟩, ⟨3, [], patch⟩], .builtIn, 4⟩
    let r := Value.map [("app", .map [kind, ("size", .bool true)])]
    perform (applyPatch 3 patch) s = (.ok (), t) ∧ s.outputsAt 1 = .ok [r] ∧
      t.outputsAt 1 = .ok [r] := by
  intro kind selector s patch t r
  have h : perform (applyPatch 3 patch) s = (.ok (), t) := by rfl
  have ho : s.outputsAt 1 = .ok [r] := by rfl
  exact ⟨h, ho, outputsAt_append (by decide) rfl h ho⟩

end Session
end LayeredConfig
