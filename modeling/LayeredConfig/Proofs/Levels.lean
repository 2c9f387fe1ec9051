import LayeredConfig.Proofs.Comparison
import LayeredConfig.Proofs.Settled

/-! # Levels

Levels are a resource and nothing else. With fewer of them an evaluation gives what it gives with more,
or ends in a circular reference because they ran out; and a value that an evaluation returns is no deeper
than the levels it was given.
-/
namespace LayeredConfig
variable {α β : Type} {x y : Except Error α} {a : α} {scope : Scope} {levels more n : Nat}
variable {v r : Value} {fields : Fields} {items : List Value} {o : Option Value}

def Error.IsCircular (e : Error) : Prop := ∃ shown, e.root = .circular shown

/-- The first result is the second, unless the levels ran out before it was reached. -/
def UpToDepth (x y : Except Error α) : Prop := x = y ∨ ∃ e, x = .error e ∧ e.IsCircular

namespace UpToDepth

theorem refl (x : Except Error α) : UpToDepth x x := Or.inl rfl

theorem circular (shown : String) : UpToDepth (.error (.circular shown)) y :=
  Or.inr ⟨_, rfl, shown, rfl⟩

theorem eq_ok (h : UpToDepth x y) (hx : x = .ok a) : y = .ok a := by
  rcases h with rfl | ⟨e,he,_⟩
  · exact hx
  · rw [hx] at he
    cases he

theorem bind {f g : α → Except Error β} (h : UpToDepth x y)
    (hf : ∀ a, x = .ok a → UpToDepth (f a) (g a)) : UpToDepth (x >>= f) (y >>= g) := by
  rcases h with rfl | ⟨e,rfl,he⟩
  · cases x with
    | error e => exact refl _
    | ok a => exact hf a rfl
  · exact Or.inr ⟨e, rfl, he⟩

theorem bind_ok {f : α → Except Error β} {z : Except Error β} (h : UpToDepth x (.ok a))
    (hf : UpToDepth (f a) z) : UpToDepth (x >>= f) z := by
  rcases h with rfl | ⟨e,rfl,he⟩
  · exact hf
  · exact Or.inr ⟨e, rfl, he⟩

theorem labelled (label : String) (h : UpToDepth x y) :
    UpToDepth (labelled label x) (LayeredConfig.labelled label y) := by
  rcases h with rfl | ⟨e,rfl,he⟩
  · exact refl _
  · exact Or.inr ⟨.context label e, rfl, he⟩

theorem compatible : Compatible (Except Error) UpToDepth where
  lift := refl
  pure _ := refl _
  bind := bind
  labelled := labelled

end UpToDepth

namespace Scope

/-- With more levels an evaluation goes on where it ran out of them and changes in nothing else. -/
theorem evaluateWithin_upToDepth (h : levels ≤ more) :
    UpToDepth (scope.evaluateWithin levels v) (scope.evaluateWithin more v) := by
  induction levels generalizing more v with
  | zero => exact .circular _
  | succ levels ih =>
    obtain ⟨more,rfl⟩ : ∃ m, more = m + 1 := ⟨more - 1, by omega⟩
    have hstep : ∀ v, UpToDepth (scope.evaluateWithin levels v) (scope.evaluateWithin more v) :=
      fun v => ih (by omega)
    exact UpToDepth.compatible.evaluateWithin_succ rfl (fun _ _ _ => .refl _) fun w _ => hstep w

theorem evaluateWithin_mono (h : levels ≤ more) (he : scope.evaluateWithin levels v = .ok o) :
    scope.evaluateWithin more v = .ok o :=
  (evaluateWithin_upToDepth h).eq_ok he

end Scope

namespace Value

mutual

/-- How far below a value the deepest of its places is. What a map holds under `$output` is read with the
map and is no place of its own. -/
def depth : Value → Nat
  | list items => depthOfItems items
  | map fields => depthOfFields fields
  | _ => 0

def depthOfItems : List Value → Nat
  | [] => 0
  | v :: rest => max (v.depth + 1) (depthOfItems rest)

def depthOfFields : List (String × Value) → Nat
  | [] => 0
  | (key, v) :: rest =>
    if key = Directive.output.key then depthOfFields rest else max (v.depth + 1) (depthOfFields rest)

end

theorem depth_list_le_iff : (list items).depth ≤ n ↔ ∀ v ∈ items, v.depth < n := by
  rw [depth]
  induction items with
  | nil => simp [depthOfItems]
  | cons v rest ih =>
    rw [List.forall_mem_cons, ← ih, depthOfItems]
    omega

theorem depth_map_le_iff :
    (map fields).depth ≤ n ↔
      ∀ key v, (key, v) ∈ fields → key ≠ Directive.output.key → v.depth < n := by
  rw [depth]
  induction fields with
  | nil => simp [depthOfFields]
  | cons p rest ih =>
    obtain ⟨l,x⟩ := p
    rw [Fields.forall_mem_cons, ← ih, depthOfFields]
    by_cases hl : l = Directive.output.key
    · simp [hl]
    · rw [if_neg hl]
      constructor
      · exact fun h => ⟨fun _ => by omega, by omega⟩
      · rintro ⟨hx,hrest⟩
        have hlt := hx hl
        omega

end Value

namespace Scope

/-- However far references lead, what they bring in is evaluated with the levels that are left, and the
result stays within them. -/
theorem depth_lt_of_evaluateWithin (h : scope.evaluateWithin levels v = .ok (some r)) :
    r.depth < levels := by
  induction levels generalizing v r with
  | zero => simp [evaluateWithin_zero] at h
  | succ levels ih =>
    cases evaluateWithin_succ_eq_ok_iff.mp h with
    | merged _ _ _ h => exact Nat.lt_succ_of_lt (ih h)
    | replaced _ _ _ h => exact Nat.lt_succ_of_lt (ih h)
    | reference _ _ h => exact Nat.lt_succ_of_lt (ih h)
    | @map _ results selected _ _ _ _ _ _ hres =>
      refine Nat.lt_succ_iff.mpr (Value.depth_map_le_iff.mpr ?_)
      intro key w hw hne
      -- The mark for output is the one field that was not evaluated, and it has no depth of its own.
      have hmem : (key, w) ∈ results := by
        split at hw
        · rcases Fields.mem_insert hw with he | hw
          · exact absurd (congrArg Prod.fst he) hne
          · exact hw
        · exact hw
      obtain ⟨u,_,he⟩ := mem_evaluateFields hres hmem
      exact ih he
    | list _ hi =>
      refine Nat.lt_succ_iff.mpr (Value.depth_list_le_iff.mpr ?_)
      intro w hw
      obtain ⟨u,_,he⟩ := mem_evaluateItems hi hw
      exact ih he
    | encodedMap _ _ _ _ _ _ henc =>
      obtain ⟨_,text,_,_,rfl⟩ := encode_eq_ok_iff.mp henc
      exact Nat.succ_pos levels
    | encodedList _ _ henc =>
      obtain ⟨_,text,_,_,rfl⟩ := encode_eq_ok_iff.mp henc
      exact Nat.succ_pos levels
    | text | null | bool | number => exact Nat.succ_pos levels

end Scope
end LayeredConfig
