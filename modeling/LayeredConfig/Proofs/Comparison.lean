import LayeredConfig.Proofs.Evaluation

/-! # Two evaluations compared

A relation between results and the outcomes of an evaluator may be one that steps pass on: where two computations
start with related results and go on in related ways, they end with related results. Evaluation is made of such steps.
So it passes the relation on from what references lead to, from what encoders are handed, and from the evaluations with
one level less, and needs no further look at its cases.

What a value asks of its scope is the references it holds itself, and what it leads to one level below are
its parts, the targets of those references, and what is merged over them.
-/
namespace LayeredConfig

inductive Value.Refers : Value → Directive → Value → Prop where
  | merge {fields : Fields} {reference : Value} : fields.get? Directive.merge.key = some reference →
      Refers (map fields) .merge reference
  | replace {fields : Fields} {reference : Value} : fields.get? Directive.replace.key = some reference →
      Refers (map fields) .replace reference
  | string {s path : String} {d : Directive} : stringReference? s = some (d, path) →
      Refers (string s) d (string path)

/-- The second value is evaluated on the way to the first, with one level less. -/
inductive Scope.Next (scope : Scope) : Value → Value → Prop where
  | field {key : String} {w : Value} {fields : Fields} : (key, w) ∈ fields → Next scope (.map fields) w
  | item {w : Value} {items : List Value} : w ∈ items → Next scope (.list items) w
  | target {v reference target : Value} {d : Directive} : v.Refers d reference →
      scope.resolve d reference = .ok target → Next scope v target
  | merged {fields : Fields} {reference target merged : Value} :
      fields.get? Directive.merge.key = some reference → scope.resolve .merge reference = .ok target →
      merge target (.map (fields.erase Directive.merge.key)) = .ok merged → Next scope (.map fields) merged

/-- Where a value is to be encoded, another is handed over: the evaluated parts of the first, put together. -/
inductive Scope.HandsOver (scope : Scope) (levels : Nat) : Value → Value → Prop where
  | map {fields results : Fields} : fields.get? Directive.merge.key = none →
      fields.get? Directive.replace.key = none →
      evaluateFields (scope.evaluateWithin levels) fields.children = .ok results →
      HandsOver scope levels (.map fields) (.map results)
  | list {items values : List Value} {format : Option String} :
      evaluateItems (scope.evaluateWithin levels) 0 items = .ok (format, values) →
      HandsOver scope levels (.list items) (.list values)

/-- A relation between results and the outcomes of an evaluator that is passed on from step to step. -/
structure Compatible (m : Type → Type) [Monad m] [MonadLiftT (Except Error) m] [Evaluator m]
    (R : {α : Type} → Except Error α → m α → Prop) : Prop where
  lift {α : Type} (x : Except Error α) : R x (liftM x)
  pure {α : Type} (a : α) : R (.ok a) (Pure.pure a)
  bind {α β : Type} {x : Except Error α} {y : m α} {f : α → Except Error β} {g : α → m β} :
    R x y → (∀ a, x = .ok a → R (f a) (g a)) → R (x >>= f) (y >>= g)
  labelled {α : Type} {x : Except Error α} {y : m α} (label : String) :
    R x y → R (labelled label x) (Evaluator.labelled label y)

namespace Compatible
section Evaluator
variable {m : Type → Type} [Monad m] [MonadLiftT (Except Error) m] [Evaluator m]
variable {R : {α : Type} → Except Error α → m α → Prop}
variable {evaluate : Value → Except Error (Option Value)} {evaluate' : Value → m (Option Value)}
variable {scope scope' : Scope} {v : Value} {fields : Fields} {items : List Value} {index levels levels' : Nat}

theorem evaluateFields (hR : Compatible m R) (h : ∀ p ∈ fields, R (evaluate p.2) (evaluate' p.2)) :
    R (evaluateFields evaluate fields) (LayeredConfig.evaluateFields evaluate' fields) := by
  induction fields with
  | nil => exact hR.pure _
  | cons p rest ih =>
    obtain ⟨key,v⟩ := p
    obtain ⟨hv,hrest⟩ := List.forall_mem_cons.mp h
    refine hR.bind (hR.labelled key hv) ?_
    intro result _
    exact hR.bind (ih hrest) fun _ _ => hR.pure _

theorem evaluateItems (hR : Compatible m R) (h : ∀ v ∈ items, R (evaluate v) (evaluate' v)) :
    R (evaluateItems evaluate index items) (LayeredConfig.evaluateItems evaluate' index items) := by
  induction items generalizing index with
  | nil => exact hR.pure _
  | cons v rest ih =>
    obtain ⟨hv,hrest⟩ := List.forall_mem_cons.mp h
    refine hR.bind (hR.lift _) ?_
    intro mark _
    cases mark with
    | some format => exact hR.bind (ih hrest) fun _ _ => hR.pure _
    | none =>
      refine hR.bind (hR.labelled _ hv) ?_
      intro result _
      exact hR.bind (ih hrest) fun _ _ => hR.pure _

variable [LawfulMonad m]

theorem map {α β : Type} {x : Except Error α} {y : m α} (hR : Compatible m R) (f : α → β) (h : R x y) :
    R (f <$> x) (f <$> y) := by
  rw [map_eq_pure_bind, map_eq_pure_bind]
  exact hR.bind h fun _ _ => hR.pure _

theorem evaluateBy_fields (hR : Compatible m R)
    (hencode : ∀ format w, scope.HandsOver levels (.map fields) w →
      R (scope.encode format w) (Evaluator.encode scope' format w))
    (h : ∀ p ∈ fields, R (scope.evaluateWithin levels p.2) (scope'.evaluateBy m levels' p.2))
    (hm : fields.get? Directive.merge.key = none) (hr : fields.get? Directive.replace.key = none) :
    R (scope.evaluateWithin (levels + 1) (.map fields)) (scope'.evaluateBy m (levels' + 1) (.map fields)) := by
  rw [Scope.evaluateWithin_fields hm hr, Scope.evaluateBy, hm, hr]
  refine hR.bind (hR.lift _) ?_
  intro selected _
  cases selected with
  | none => exact hR.pure _
  | some selected =>
    refine hR.bind (hR.lift _) ?_
    intro format _
    refine hR.bind (hR.lift _) ?_
    intro replaces hreplaces
    simp only [Scope.children_of_isReplacement hreplaces]
    refine hR.bind (hR.evaluateFields fun p hp => h p (Fields.mem_of_mem_children hp)) ?_
    intro results hresults
    cases format with
    | none => exact hR.pure _
    | some format => exact hR.map some (hencode format _ (.map hm hr hresults))

/-- What is related one level below, where references lead and where values are encoded, is related. -/
theorem evaluateBy_succ (hR : Compatible m R)
    (hresolve : ∀ d reference, v.Refers d reference →
      R (scope.resolve d reference) (liftM (scope'.resolve d reference)))
    (hencode : ∀ format w, scope.HandsOver levels v w →
      R (scope.encode format w) (Evaluator.encode scope' format w))
    (h : ∀ w, scope.Next v w → R (scope.evaluateWithin levels w) (scope'.evaluateBy m levels' w)) :
    R (scope.evaluateWithin (levels + 1) v) (scope'.evaluateBy m (levels' + 1) v) := by
  cases v with
  | map fields =>
    cases hm : Fields.get? Directive.merge.key fields with
    | some reference =>
      rw [Scope.evaluateWithin_merge hm, Scope.evaluateBy, hm]
      refine hR.bind (hresolve _ _ (.merge hm)) ?_
      intro target ht
      refine hR.bind (hR.lift _) ?_
      intro merged hmerge
      exact h merged (.merged hm ht (labelled_eq_ok_iff.mp hmerge))
    | none =>
      cases hr : Fields.get? Directive.replace.key fields with
      | some reference =>
        rw [Scope.evaluateWithin_replace hm hr, Scope.evaluateBy, hm, hr]
        exact hR.bind (hresolve _ _ (.replace hr)) fun target ht => h target (.target (.replace hr) ht)
      | none => exact hR.evaluateBy_fields hencode (fun p hp => h p.2 (.field hp)) hm hr
  | list items =>
    rw [Scope.evaluateWithin_list, Scope.evaluateBy]
    split
    · exact hR.pure _
    · refine hR.bind (hR.evaluateItems fun v hv => h v (.item hv)) ?_
      rintro ⟨format,results⟩ hresults
      cases format with
      | none => exact hR.pure _
      | some format => exact hR.map some (hencode format _ (.list hresults))
  | string s =>
    rw [Scope.evaluateBy]
    cases hs : stringReference? s with
    | none =>
      rw [Scope.evaluateWithin_text hs]
      exact hR.pure _
    | some p =>
      rw [Scope.evaluateWithin_reference hs]
      exact hR.bind (hresolve _ _ (.string hs)) fun target ht => h target (.target (.string hs) ht)
  | _ => exact hR.pure _

end Evaluator

variable {R : {α : Type} → Except Error α → Except Error α → Prop}
variable {scope scope' : Scope} {v : Value} {levels levels' : Nat}

theorem encode_congr (h : scope.registry = scope'.registry) : scope.encode = scope'.encode := by
  funext format v
  rw [Scope.encode, Scope.encode, h]

/-- What is related one level below, and where references lead, is related. -/
theorem evaluateWithin_succ (hR : Compatible (Except Error) R) (hregistry : scope.registry = scope'.registry)
    (hresolve : ∀ d reference, v.Refers d reference →
      R (scope.resolve d reference) (scope'.resolve d reference))
    (h : ∀ w, scope.Next v w → R (scope.evaluateWithin levels w) (scope'.evaluateWithin levels' w)) :
    R (scope.evaluateWithin (levels + 1) v) (scope'.evaluateWithin (levels' + 1) v) := by
  refine hR.evaluateBy_succ hresolve ?_ h
  intro format w _
  rw [encode_congr hregistry]
  exact hR.lift _

end Compatible
end LayeredConfig
