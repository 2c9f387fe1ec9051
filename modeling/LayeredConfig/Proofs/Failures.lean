import LayeredConfig.Proofs.Merge

/-! # How merges fail

A label says where a failure happened and nothing of why. Under all labels a merge fails for one of four
reasons: the trees nest too deeply, kinds of values do not go together, or a `$patch` is no string or no
known one.
-/
namespace LayeredConfig
variable {α β : Type} {P : Error → Prop} {x : Except Error α} {depth index : Nat}
variable {dst src : Value} {fs gs : Fields} {xs ys : List Value}

/-- If a result is a failure, its cause under all labels is of a kind. -/
def FailsWith (P : Error → Prop) (x : Except Error α) : Prop := ∀ e, x = .error e → P e.root

namespace FailsWith

theorem ok (a : α) : FailsWith P (.ok a : Except Error α) := fun _ h => nomatch h

theorem error {e : Error} (h : P e.root) : FailsWith P (.error e : Except Error α) := by
  rintro _ ⟨⟩
  exact h

theorem mono {Q : Error → Prop} (hx : FailsWith P x) (h : ∀ e, P e → Q e) : FailsWith Q x :=
  fun e he => h _ (hx e he)

theorem bind {f : α → Except Error β} (hx : FailsWith P x) (hf : ∀ a, x = .ok a → FailsWith P (f a)) :
    FailsWith P (x >>= f) := by
  cases x with
  | error e => exact error (hx e rfl)
  | ok a => exact hf a rfl

theorem map {f : α → β} (hx : FailsWith P x) : FailsWith P (f <$> x) := by
  cases x with
  | error e => exact error (hx e rfl)
  | ok a => exact ok _

theorem labelled {label : String} (hx : FailsWith P x) : FailsWith P (labelled label x) := by
  cases x with
  | error e => exact error (hx e rfl)
  | ok a => exact ok a

end FailsWith

inductive Error.OfMerge : Error → Prop where
  | tooDeep : OfMerge .tooDeep
  | mismatch (dst src : Kind) : OfMerge (.mismatch dst src)
  | patchKind (found : Kind) : OfMerge (.patchKind found)
  | patchValue (value : String) : OfMerge (.patchValue value)

theorem isReplacement_failsWith : FailsWith Error.OfMerge (isReplacement gs) := by
  unfold isReplacement
  split
  · exact .ok _
  · next s _ =>
    split
    · exact .ok _
    · exact .error (.patchValue s)
  · next v _ _ => exact .error (.patchKind v.kind)

theorem mergeItems_failsWith : FailsWith Error.OfMerge (mergeItems index xs ys) := by
  induction ys generalizing index xs with
  | nil => exact .ok _
  | cons y rest ih =>
    have hremoval : FailsWith Error.OfMerge (isRemoval y) := by
      cases y with
      | map gs => exact isReplacement_failsWith
      | _ => exact .ok _
    refine hremoval.labelled.bind ?_
    intro removes _
    cases removes with
    | true => exact ih
    | false => exact ih

theorem mergeFields_failsWith
    (h : ∀ key v, (key, v) ∈ gs → ∀ old, FailsWith Error.OfMerge (mergeAt (depth + 1) old v)) :
    FailsWith Error.OfMerge (mergeFields depth fs gs) := by
  induction gs generalizing fs with
  | nil => exact .ok _
  | cons p rest ih =>
    obtain ⟨key,v⟩ := p
    obtain ⟨hv,hrest⟩ := Fields.forall_mem_cons.mp h
    have hentry : FailsWith Error.OfMerge (mergeEntry depth (fs.get? key) (some v)) := by
      intro e he
      obtain ⟨x,y,_,hy,_,hm⟩ := mergeEntry_error he
      cases hy
      exact hv x e hm
    rw [mergeFields_eq_bind]
    exact hentry.labelled.bind fun _ _ => ih hrest

theorem mergeAt_failsWith : FailsWith Error.OfMerge (mergeAt depth dst src) := by
  induction src using Value.descend generalizing depth dst with
  | step src ih =>
    by_cases hd : depthLimit < depth
    · have hdeep : mergeAt depth dst src = .error .tooDeep := by cases src <;> simp [mergeAt, hd]
      rw [hdeep]
      exact .error .tooDeep
    · cases src <;> cases dst <;> simp only [mergeAt, if_neg hd]
      case map.map gs fs =>
        refine isReplacement_failsWith.bind ?_
        intro replaces _
        cases replaces with
        | true => exact .ok _
        | false => exact (mergeFields_failsWith fun key v hv _ => ih gs key v rfl hv).map
      case list.list => exact mergeItems_failsWith.map
      -- the other pairs are refused for their kinds, or one of the two is the result
      all_goals first | exact .ok _ | exact .error (.mismatch _ _)

end LayeredConfig
