import LayeredConfig.Proofs.Difference

/-! # Comparisons that succeed

A comparison fails for its depth only. One that succeeds has looked at nothing beyond the limit, so it gives the
outcome, and gives it again wherever the values stand no deeper.
-/
namespace LayeredConfig.Comparison
variable {c : Comparison} {matchers : List String} {label key : String} {depth : Nat}
variable {a b r x y : Value} {fs gs kept : Fields} {items others results : List Value} {o : Option Value}

theorem ok_of_compareFields (h : c.compareFields matchers label depth gs fs = .ok kept) :
    ∀ key x y, (key, x) ∈ fs → gs.get? key = some y → c.skips x y = false →
      ∃ label o, c.compareAt matchers label (depth + 1) y x = .ok o := by
  induction fs generalizing kept with
  | nil => nofun
  | cons p rest ih =>
    obtain ⟨l,x'⟩ := p
    rw [compareFields] at h
    have hrest : ∃ kept, c.compareFields matchers label depth gs rest = .ok kept := by
      split at h
      · exact ⟨_, h⟩
      · split at h
        · exact ⟨_, h⟩
        · obtain ⟨_,_,h⟩ := bind_eq_ok_iff.mp h
          obtain ⟨results,hrest,_⟩ := bind_eq_ok_iff.mp h
          exact ⟨results, hrest⟩
    obtain ⟨results,hrest⟩ := hrest
    intro key x y hx hy hskip
    rcases List.mem_cons.mp hx with he | hx
    · cases he
      simp only [hy, hskip, Bool.false_eq_true, if_false] at h
      obtain ⟨o,ho,_⟩ := bind_eq_ok_iff.mp h
      exact ⟨_, o, ho⟩
    · exact ih hrest key x y hx hy hskip

theorem ok_of_compareItems (h : c.compareItems matchers label depth others items = .ok results) :
    ∀ fs gs, .map fs ∈ items → others.find? (Value.correlates matchers (.map fs)) = some (.map gs) →
      ∃ kept, c.compareFields matchers label (depth + 1) gs fs = .ok kept := by
  induction items generalizing results with
  | nil => nofun
  | cons x rest ih =>
    have hrest : ∃ results, c.compareItems matchers label depth others rest = .ok results := by
      cases x with
      | map fs =>
        rw [compareItems] at h
        split at h
        · obtain ⟨_,_,h⟩ := bind_eq_ok_iff.mp h
          obtain ⟨results,hrest,_⟩ := bind_eq_ok_iff.mp h
          exact ⟨results, hrest⟩
        · obtain ⟨results,hrest,_⟩ := bind_eq_ok_iff.mp h
          exact ⟨results, hrest⟩
      | _ =>
        obtain ⟨results,hrest,_⟩ := bind_eq_ok_iff.mp h
        exact ⟨results, hrest⟩
    obtain ⟨results',hrest⟩ := hrest
    intro fs gs hfs hfind
    rcases List.mem_cons.mp hfs with he | hfs
    · cases he
      rw [compareItems, hfind] at h
      obtain ⟨kept,hkept,_⟩ := bind_eq_ok_iff.mp h
      exact ⟨kept, hkept⟩
    · exact ih hrest fs gs hfs hfind

/-- Where the comparison of a value succeeds, it gives the outcome there and higher up. -/
def Settles (c : Comparison) (matchers : List String) (a : Value) : Prop :=
  ∀ ⦃label depth b o⦄ label' d, c.compareAt matchers label depth b a = .ok o → d ≤ depth →
    c.compareAt matchers label' d b a = .ok (c.outcome matchers b a)

def FieldsSettle (c : Comparison) (matchers : List String) (fs : Fields) : Prop :=
  ∀ ⦃label depth gs kept⦄ label' d, c.compareFields matchers label depth gs fs = .ok kept → d ≤ depth →
    c.compareFields matchers label' d gs fs = .ok (c.outcomeFields matchers gs fs)

theorem depth_le_of_compareAt (h : c.compareAt matchers label depth b a = .ok o) : depth ≤ depthLimit := by
  refine Nat.le_of_not_lt ?_
  intro hlt
  cases a <;> simp [compareAt, hlt] at h

theorem fieldsSettle (h : ∀ key x, (key, x) ∈ fs → c.Settles matchers x) : c.FieldsSettle matchers fs := by
  intro label depth gs kept label' d hkept hd
  refine compareFields_eq_outcomeFields ?_
  intro key x y hx hy hskip label
  obtain ⟨_,_,ho⟩ := ok_of_compareFields hkept key x y hx hy hskip
  exact h key x hx _ _ ho (by omega)

theorem settles_map (h : c.FieldsSettle matchers fs) : c.Settles matchers (.map fs) := by
  intro label depth b o label' d ho hd
  have hdepth : ¬ depthLimit < depth := Nat.not_lt.mpr (depth_le_of_compareAt ho)
  have hd' : ¬ depthLimit < d := by omega
  cases b with
  | map gs =>
    simp only [compareAt, if_neg hdepth] at ho
    obtain ⟨kept,hkept,_⟩ := bind_eq_ok_iff.mp ho
    simp [compareAt, outcome, hd', h label' d hkept hd, bind, Except.bind]
  | _ => simp [compareAt, outcome, hd']

theorem settles_list (h : ∀ fs, .map fs ∈ items → c.FieldsSettle matchers fs) :
    c.Settles matchers (.list items) := by
  intro label depth b o label' d ho hd
  have hdepth : ¬ depthLimit < depth := Nat.not_lt.mpr (depth_le_of_compareAt ho)
  have hd' : ¬ depthLimit < d := by omega
  cases b with
  | list others =>
    simp only [compareAt, if_neg hdepth] at ho
    obtain ⟨results,hresults,_⟩ := bind_eq_ok_iff.mp ho
    have hitems : c.compareItems matchers label' d others items = .ok (c.outcomeItems matchers others items) := by
      refine compareItems_eq_outcomeItems ?_
      intro fs gs hfs hfind
      obtain ⟨kept,hkept⟩ := ok_of_compareItems hresults fs gs hfs hfind
      exact h fs hfs _ _ hkept (by omega)
    simp only [compareAt, outcome, if_neg hd', hitems, bind, Except.bind]
    cases c.outcomeItems matchers others items <;> rfl
  | _ => simp [compareAt, outcome, hd']

/-- The fields of a list element are compared one level down without a look at the limit, so the fields of a map are
followed beside the map itself. -/
theorem settles_and_fieldsSettle (c : Comparison) (matchers : List String) (a : Value) :
    c.Settles matchers a ∧ ∀ fs, a = .map fs → c.FieldsSettle matchers fs := by
  induction a with
  | map fs ih =>
    have hfs := fieldsSettle fun key x hx => (ih key x hx).1
    refine ⟨settles_map hfs, ?_⟩
    rintro gs ⟨⟩
    exact hfs
  | list items ih =>
    refine ⟨settles_list fun fs hfs => (ih (.map fs) hfs).2 fs rfl, ?_⟩
    rintro gs ⟨⟩
  | _ =>
    refine ⟨?_, ?_⟩
    · intro label depth b o label' d ho hd
      have hd' : ¬ depthLimit < d := Nat.not_lt.mpr (Nat.le_trans hd (depth_le_of_compareAt ho))
      cases b <;> simp [compareAt, outcome, hd']
    · rintro gs ⟨⟩

theorem compareAt_of_ok (label' : String) {d : Nat} (h : c.compareAt matchers label depth b a = .ok o)
    (hd : d ≤ depth) : c.compareAt matchers label' d b a = .ok (c.outcome matchers b a) :=
  (settles_and_fieldsSettle c matchers a).1 label' d h hd

theorem compareFields_of_ok (label' : String) {d : Nat} (h : c.compareFields matchers label depth gs fs = .ok kept)
    (hd : d ≤ depth) : c.compareFields matchers label' d gs fs = .ok (c.outcomeFields matchers gs fs) :=
  (settles_and_fieldsSettle c matchers (.map fs)).2 fs rfl label' d h hd

/-- A comparison that succeeds gives the outcome of the canonical forms. -/
theorem compare_eq_ok_iff :
    c.compare matchers a b = .ok r ↔
      (∃ label depth o, c.compareAt matchers label depth b.canonical a.canonical = .ok o) ∧
        r = (c.outcome matchers b.canonical a.canonical).getD .null := by
  constructor
  · intro h
    obtain ⟨o,ho,he⟩ := bind_eq_ok_iff.mp h
    cases ho.symm.trans (compareAt_of_ok c.rootName ho (Nat.le_refl 0))
    cases he
    exact ⟨⟨_, _, _, ho⟩, rfl⟩
  · rintro ⟨⟨label,depth,o,ho⟩,rfl⟩
    rw [Comparison.compare, compareAt_of_ok c.rootName ho (Nat.zero_le depth)]
    rfl

end LayeredConfig.Comparison
