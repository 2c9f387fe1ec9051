import LayeredConfig.Formats
import LayeredConfig.Proofs.Comparison
import LayeredConfig.Proofs.Finished
import LayeredConfig.Proofs.Invariants
import LayeredConfig.Proofs.Settled
import LayeredConfig.Session.Output

/-! # What is handed to encoders

An evaluation can be carried out by an evaluator that records every value it is to encode. The record changes no
result, and all that it holds is settled: evaluation itself keeps four of the seven directives out of encoded text. It
does not check what it encodes, so that the other three and required marks pass.
-/
namespace LayeredConfig

section Evaluator
variable {α β : Type} {P : Value → Prop} {scope : Scope} {levels : Nat} {v w : Value} {format : String}

abbrev Recorded : Type → Type := ExceptT Error (StateM (List Value))

namespace Recorded

def labelled (label : String) (x : Recorded α) : Recorded α :=
  ExceptT.mk (LayeredConfig.labelled label <$> x.run)

/-- A value is recorded when its format is found, before the encoder says what becomes of it. -/
def encode (scope : Scope) (format : String) (v : Value) : Recorded Value := do
  let f ← scope.registry.get format
  modifyThe (List Value) (· ++ [v])
  Except.map .string (LayeredConfig.labelled Directive.encode.key (f.encode v))

instance : Evaluator Recorded := ⟨labelled, encode⟩

theorem perform_encode (record : List Value) :
    perform (encode scope format v) record = (scope.encode format v, match scope.registry.get format with
      | .ok _ => record ++ [v]
      | .error _ => record) := by
  rw [encode, Scope.encode]
  cases scope.registry.get format <;> rfl

/-- On every record, the outcome is the result, and only values with a property are added. -/
def Meets (P : Value → Prop) (r : Except Error α) (x : Recorded α) : Prop :=
  ∀ record, (perform x record).1 = r ∧ ∀ v ∈ (perform x record).2, v ∈ record ∨ P v

namespace Meets

theorem lift (r : Except Error α) : Meets P r (liftM r) := fun _ => ⟨rfl, fun _ => Or.inl⟩

theorem bind {r : Except Error α} {x : Recorded α} {g : α → Except Error β} {f : α → Recorded β}
    (hx : Meets P r x) (hf : ∀ a, r = .ok a → Meets P (g a) (f a)) : Meets P (r >>= g) (x >>= f) := by
  intro record
  obtain ⟨hr,hin⟩ := hx record
  rw [perform_bind]
  cases hp : perform x record with
  | mk y mid =>
    rw [hp] at hr hin
    subst hr
    cases y with
    | error e => exact ⟨rfl, hin⟩
    | ok a =>
      obtain ⟨hr',hin'⟩ := hf a rfl mid
      refine ⟨hr', ?_⟩
      intro v hv
      rcases hin' v hv with hv | hv
      · exact hin v hv
      · exact Or.inr hv

theorem compatible : Compatible Recorded (Meets P) where
  lift := lift
  pure _ _ := ⟨rfl, fun _ => Or.inl⟩
  bind := bind
  labelled label h record := by
    obtain ⟨hr,hin⟩ := h record
    exact ⟨congrArg (LayeredConfig.labelled label) hr, hin⟩

theorem encode (hv : P v) : Meets P (scope.encode format v) (Recorded.encode scope format v) := by
  intro record
  rw [perform_encode]
  refine ⟨rfl, ?_⟩
  intro w hw
  split at hw
  · rcases List.mem_append.mp hw with hw | hw
    · exact Or.inl hw
    · exact Or.inr (List.mem_singleton.mp hw ▸ hv)
  · exact Or.inl hw

end Meets
end Recorded

namespace Scope

theorem Ordered.next (hs : scope.Ordered) (hv : v.Ordered) (h : scope.Next v w) : w.Ordered := by
  cases h with
  | field hmem => exact hv.field hmem
  | item hmem => exact Value.ordered_list.mp hv w hmem
  | target _ ht => exact hs.resolve ht
  | merged _ ht hmerge => exact mergeAt_ordered (hs.resolve ht) hv.erase hmerge

theorem settled_of_handsOver (hs : scope.Ordered) (hv : v.Ordered) (h : scope.HandsOver levels v w) : w.Settled := by
  cases h with
  | map hm hr hresults =>
    refine Value.settled_map (settled_results hv.ascending hm hr hresults ?_)
    intro key v w hmem he
    exact evaluateWithin_settled hs (hv.field hmem) he
  | list hresults =>
    refine Value.settled_list (settled_values hresults ?_)
    intro v hmem w he
    exact evaluateWithin_settled hs (Value.ordered_list.mp hv v hmem) he

/-- The record changes no result, and every value in it is settled. -/
theorem evaluateBy_recorded_meets (levels : Nat) (hs : scope.Ordered) (hv : v.Ordered) :
    Recorded.Meets Value.Settled (scope.evaluateWithin levels v) (scope.evaluateBy Recorded levels v) := by
  induction levels generalizing v with
  | zero => exact .lift _
  | succ levels ih =>
    refine Recorded.Meets.compatible.evaluateBy_succ (fun _ _ _ => .lift _) ?_ ?_
    · exact fun _ _ hw => .encode (settled_of_handsOver hs hv hw)
    · exact fun _ hw => ih (hs.next hv hw)

end Scope
end Evaluator

variable {s : Session} {v root : Value} {index : Nat} {outputs : List Value}

/-- What stays in a settled value for the check to refuse. -/
theorem Value.Settled.finished_iff (h : v.Settled) :
    v.Finished ↔ (∀ w, ¬ v.HoldsField Directive.parent.key w) ∧
      (∀ w, ¬ v.HoldsField Directive.pattern.key w) ∧
      ¬ v.HoldsField Directive.output.key (.bool true) ∧ ¬ (Value.string requiredMark).Inside v := by
  constructor
  · intro hf
    exact ⟨hf.directive .parent, hf.directive .pattern, hf.directive .output _, hf.required⟩
  · rintro ⟨hparent,hpattern,houtput,hrequired⟩
    refine ⟨?_, hrequired⟩
    intro d w hw
    cases d with
    | parent => exact hparent w hw
    | pattern => exact hpattern w hw
    | output => exact houtput (h.output w hw ▸ hw)
    | _ => exact h.consumed _ (by decide) w hw

namespace Session

theorem document_eq_ok_iff : s.document index = .ok root ↔ s.values[index]? = some root := by
  rw [document, values, List.getElem?_map]
  cases s.documents[index]? <;> simp

theorem Ordered.document (hs : s.Ordered) (h : s.document index = .ok root) : root.Ordered := by
  obtain ⟨d,hd,rfl⟩ := List.mem_map.mp (List.mem_of_getElem? (document_eq_ok_iff.mp h))
  exact hs d hd

theorem Ordered.scope (hs : s.Ordered) (h : root.Ordered) : (s.scope root).Ordered where
  root := h
  documents v hv := by
    obtain ⟨d,hd,rfl⟩ := List.mem_map.mp hv
    exact hs d hd

def recordAt (s : Session) (index : Nat) : Except Error (Option Value) × List Value :=
  match s.document index with
  | .ok root => perform ((s.scope root).evaluateBy Recorded (depthLimit + 1) root) []
  | .error e => (.error e, [])

/-- The trees handed to encoders on the way to an output are finished as far as evaluation sees to it:
the check finds `$parent`, `$match`, `$output: true` and required marks in them and nothing else. -/
theorem outputsAt_encoded (hs : s.Ordered) (h : s.outputsAt index = .ok outputs) :
    (∃ o, (s.recordAt index).1 = .ok o ∧ outputs = (o.map Value.outputs).getD []) ∧
      ∀ v ∈ (s.recordAt index).2, (v.checkFinished = .ok () ↔
        (∀ w, ¬ v.HoldsField Directive.parent.key w) ∧
          (∀ w, ¬ v.HoldsField Directive.pattern.key w) ∧
          ¬ v.HoldsField Directive.output.key (.bool true) ∧
          ¬ (Value.string requiredMark).Inside v) := by
  obtain ⟨root,hd,h⟩ := bind_eq_ok_iff.mp h
  have hroot := hs.document hd
  obtain ⟨hrun,hrecord⟩ := (Scope.evaluateBy_recorded_meets (depthLimit + 1) (hs.scope hroot) hroot) []
  simp only [recordAt, hd]
  constructor
  · obtain ⟨o,ho,h⟩ := bind_eq_ok_iff.mp (labelled_eq_ok_iff.mp h)
    refine ⟨o, hrun.trans ho, ?_⟩
    cases o with
    | none => exact (Except.ok.inj h).symm
    | some v =>
      obtain ⟨_,_,h⟩ := bind_eq_ok_iff.mp h
      exact (Except.ok.inj h).symm
  · intro v hv
    rcases hrecord v hv with hv | hv
    · cases hv
    · exact Value.checkAt_eq_ok_iff.trans hv.finished_iff

theorem outputsAt_encoded_json :
    let root := Value.map [("config", .map [("$encode", .string "json"), ("enabled", .bool true)])]
    let s : Session := ⟨[⟨0, [], root⟩], .builtIn, 1⟩
    let v := Value.map [("enabled", .bool true)]
    s.Ordered ∧ s.outputsAt 0 = .ok [.map [("config", .string "\x7b\"enabled\":true\x7d")]] ∧
      v ∈ (s.recordAt 0).2 ∧ v.checkFinished = .ok () := by
  intro root s v
  have hroot : root.Ordered := by decide
  have hs : s.Ordered := by simpa [s, Ordered] using hroot
  have ho : s.outputsAt 0 = .ok [.map [("config", .string "\x7b\"enabled\":true\x7d")]] := by rfl
  have hr : (s.recordAt 0).2 = [v] := by rfl
  have hv : v ∈ (s.recordAt 0).2 := by simp [hr]
  refine ⟨hs, ho, hv, ((outputsAt_encoded hs ho).2 v hv).mpr ?_⟩
  simp [v, Value.HoldsField, Value.inside_iff_mem_parts, Value.parts, Value.partsOfFields, Directive.key]

/-- A required mark and a selected map can be hidden in encoded text. -/
theorem not_finished_of_encoded :
    let root := Value.map [("config", .map [("$encode", .string "json"),
      ("image", .string "$required"), ("part", .map [("$output", .bool true)])])]
    let s : Session := ⟨[⟨0, [], root⟩], .builtIn, 1⟩
    (∃ outputs, s.outputsAt 0 = .ok outputs) ∧
      ∃ v ∈ (s.recordAt 0).2, ¬ v.checkFinished = .ok () := by
  intro root s
  have hr : (s.recordAt 0).2 =
    [.map [("image", .string "$required"), ("part", .map [("$output", .bool true)])]] := by rfl
  refine ⟨⟨_, rfl⟩, _, hr ▸ List.mem_cons_self, ?_⟩
  intro h
  cases h

end Session
end LayeredConfig
