import LayeredConfig.Proofs.Aliases
import LayeredConfig.Proofs.Shapes
import Mathlib.Data.List.Chain
import Mathlib.Data.List.Nodup
import Mathlib.Logic.Relation

/-! # Chains of references

A string may refer to a path where the next such string stands. Each reference on the way costs a level, and
what stands at the end is evaluated with the levels that are left; a chain that comes back to one of its paths
has no end, and costs all of them.
-/
namespace LayeredConfig
variable {scope : Scope} {levels more : Nat} {v w : Value} {d : Directive} {p q : String}
variable {paths : List String} {fields : Fields}

/-- A chain that meets an element twice leads into a cycle. -/
theorem exists_cycle {α : Type} {r : α → α → Prop} {x : α} {xs : List α} (h : (x :: xs).IsChain r)
    (htwice : ¬ (x :: xs).Nodup) : ∃ c, Relation.ReflTransGen r x c ∧ Relation.TransGen r c c := by
  have hpairwise : (x :: xs).Pairwise (Relation.TransGen r) :=
    (h.imp fun _ _ hr => Relation.TransGen.single hr).pairwise
  obtain ⟨c,hc⟩ : ∃ c, [c, c].Sublist (x :: xs) := by
    simpa [List.nodup_iff_sublist] using htwice
  have hcycle : Relation.TransGen r c c := by simpa using hpairwise.sublist hc
  refine ⟨c, ?_, hcycle⟩
  rcases List.mem_cons.mp (hc.subset List.mem_cons_self) with rfl | hmem
  · exact .refl
  · exact (List.rel_of_pairwise_cons hpairwise hmem).to_reflTransGen

namespace Value

/-- At a path of the root stands a reference to another path. -/
def Forwards (root : Value) (p q : String) : Prop :=
  ∃ d : Directive, d.IsReference ∧ root.atPath? p = some (string (d.stringPrefix ++ q))

theorem DirectiveFree.reach_eq (h : v.DirectiveFree) : v.reach = v.depth := by
  induction v with
  | list items ih =>
    have heq : ∀ v ∈ items, v.reach = v.depth := fun v hv => ih v hv (h.inside (.item hv .refl))
    refine Nat.le_antisymm (reach_list_le_iff.mpr ?_) (depth_list_le_iff.mpr ?_)
    · intro v hv
      exact heq v hv ▸ depth_list_le_iff.mp (Nat.le_refl _) v hv
    · intro v hv
      exact heq v hv ▸ reach_lt_of_mem_items hv
  | map fields ih =>
    have heq : ∀ key v, (key, v) ∈ fields → v.reach = v.depth :=
      fun key v hv => ih key v hv (h.inside (.field hv .refl))
    refine Nat.le_antisymm (reach_map_le_iff.mpr ?_) (depth_map_le_iff.mpr ?_)
    · intro key v hv
      have hne : key ≠ Directive.output.key := by
        rintro rfl
        exact h .output v (HoldsField.map_iff.mpr (Or.inl hv))
      exact heq key v hv ▸ depth_map_le_iff.mp (Nat.le_refl _) key v hv hne
    · intro key v hv _
      exact heq key v hv ▸ reach_lt_of_mem_fields hv
  | _ => rfl

theorem DirectiveFree.nested (h : v.DirectiveFree) (n : Nat) : (nested n v).DirectiveFree :=
  fun d w hw => h d w hw.of_nested

end Value

namespace Scope

/-- With no more levels an evaluation that ran out of them runs out of them again. -/
theorem evaluateWithin_circular_mono (h : levels ≤ more)
    (hc : ∃ e, scope.evaluateWithin more v = .error e ∧ e.IsCircular) :
    ∃ e, scope.evaluateWithin levels v = .error e ∧ e.IsCircular := by
  have hupto : UpToDepth (scope.evaluateWithin levels v) (scope.evaluateWithin more v) :=
    evaluateWithin_upToDepth h
  rcases hupto with he | hc
  · rwa [he]
  · exact hc

/-- Each reference of a chain takes one level. -/
theorem evaluateWithin_chain (hd : d.IsReference) (hchain : (p :: paths).IsChain scope.root.Forwards)
    (hw : scope.root.atPath? ((p :: paths).getLast (List.cons_ne_nil p paths)) = some w) :
    scope.evaluateWithin (levels + (p :: paths).length) (.string (d.stringPrefix ++ p)) =
      scope.evaluateWithin levels w := by
  induction paths generalizing p d with
  | nil => exact evaluateWithin_of_atPath? hd hw
  | cons q rest ih =>
    obtain ⟨⟨next,hnext,hq⟩,hrest⟩ := List.isChain_cons_cons.mp hchain
    rw [List.getLast_cons (List.cons_ne_nil q rest)] at hw
    rw [List.length_cons, ← Nat.add_assoc, evaluateWithin_of_atPath? hd hq]
    exact ih hnext hrest hw

theorem evaluateWithin_cycle (hd : d.IsReference) {c : String}
    (hreach : Relation.ReflTransGen scope.root.Forwards p c)
    (hcycle : Relation.TransGen scope.root.Forwards c c) :
    ∃ e, scope.evaluateWithin levels (.string (d.stringPrefix ++ p)) = .error e ∧ e.IsCircular := by
  induction levels generalizing p d with
  | zero => exact ⟨_, rfl, _, rfl⟩
  | succ levels ih =>
    -- Where a cycle can be reached there is a next reference, and from its path the cycle can be reached.
    obtain ⟨q,⟨next,hnext,hq⟩,hreach⟩ := Relation.TransGen.head'_iff.mp (hcycle.trans_right hreach)
    rw [evaluateWithin_of_atPath? hd hq]
    exact ih hnext hreach

/-- A chain of references that comes back to one of its paths is a circular reference. One that ends in a value
without directives and references evaluates to this value, if the references on the way and the lists and maps
over its deepest place are within the depth limit together, and otherwise it counts as circular. -/
theorem evaluate_chain (hroot : scope.root.Ordered) (hd : d.IsReference)
    (hchain : (p :: paths).IsChain scope.root.Forwards) :
    (¬ (p :: paths).Nodup →
      ∃ e, scope.evaluate (.string (d.stringPrefix ++ p)) = .error e ∧ e.IsCircular) ∧
    ∀ w, scope.root.atPath? ((p :: paths).getLast (List.cons_ne_nil p paths)) = some w →
      w.DirectiveFree → w.Literal →
      ((p :: paths).length + w.reach ≤ depthLimit →
        scope.evaluate (.string (d.stringPrefix ++ p)) = .ok (some w)) ∧
      (depthLimit < (p :: paths).length + w.reach →
        ∃ e, scope.evaluate (.string (d.stringPrefix ++ p)) = .error e ∧ e.IsCircular) := by
  constructor
  · intro htwice
    obtain ⟨c,hreach,hcycle⟩ := exists_cycle hchain htwice
    exact evaluateWithin_cycle hd hreach hcycle
  · intro w hw hfree hl
    have ho : w.Ordered := hroot.inside (.of_atPath? hw)
    have hself (levels : Nat) :
        scope.evaluateWithin (levels + (p :: paths).length) (.string (d.stringPrefix ++ p)) =
          scope.evaluateWithin levels w :=
      evaluateWithin_chain hd hchain hw
    rw [hfree.reach_eq]
    constructor
    · intro hle
      obtain ⟨left,hleft⟩ := Nat.exists_eq_add_of_le' hle
      have hlevels : depthLimit + 1 = left + w.depth + 1 + (p :: paths).length := by omega
      rw [evaluate, hlevels, hself]
      exact evaluateWithin_of_plain ho hfree.settled hl (by omega)
    · intro hlt
      -- The levels of `w` alone would not do, and there are no more of them.
      have hle : depthLimit + 1 ≤ w.depth + (p :: paths).length := by omega
      refine evaluateWithin_circular_mono hle ?_
      rw [hself]
      exact evaluateWithin_circular_of_plain ho hfree.settled hl (Nat.le_refl _)

/-- Behind two references there is room for two levels less than without. -/
theorem evaluate_chain_nested :
    let leaf := Value.string "leaf"
    let root (n : Nat) := Value.map [("alias", .string "$replace:deep"), ("deep", .nested n leaf),
      ("left", .string "$merge:right"), ("right", .string "$replace:left"), ("start", .string "$merge:left")]
    let scope (n : Nat) : Scope := ⟨root n, [root n], .builtIn⟩
    (scope (depthLimit - 2)).evaluate (.string "$merge:alias") =
        .ok (some (.nested (depthLimit - 2) leaf)) ∧
      (∃ e, (scope (depthLimit - 1)).evaluate (.string "$merge:alias") = .error e ∧ e.IsCircular) ∧
      ∃ e, (scope 0).evaluate (.string "$merge:start") = .error e ∧ e.IsCircular := by
  intro leaf root scope
  have hleaf : leaf.Ordered := trivial
  have hfree (n : Nat) : (Value.nested n leaf).DirectiveFree :=
    .nested (fun _ _ => Value.HoldsField.not_leaf rfl) n
  have hl (n : Nat) : (Value.nested n leaf).Literal := by
    refine .nested ?_ n
    simp [leaf, Value.Literal, Value.inside_iff_mem_parts, Value.parts, Directive.IsReference,
      Directive.stringPrefix, Directive.key]
  have hroot (n : Nat) : (root n).Ordered := by
    have hkeys : ["alias", "deep", "left", "right", "start"].Pairwise (· < ·) := by decide
    refine Value.ordered_map.mpr ⟨List.pairwise_map.mp hkeys, ?_⟩
    intro key w hw
    simp only [List.mem_cons, Prod.mk.injEq, List.not_mem_nil, or_false] at hw
    rcases hw with ⟨_,rfl⟩ | ⟨_,rfl⟩ | ⟨_,rfl⟩ | ⟨_,rfl⟩ | ⟨_,rfl⟩
    · trivial
    · exact hleaf.nested n
    · trivial
    · trivial
    · trivial
  have hdeep (n : Nat) : (root n).atPath? "deep" = some (.nested n leaf) := by cases n <;> rfl
  have halias (n : Nat) : (root n).Forwards "alias" "deep" := ⟨.replace, Or.inr rfl, rfl⟩
  have hleft : (root 0).Forwards "left" "right" := ⟨.merge, Or.inl rfl, rfl⟩
  have hright : (root 0).Forwards "right" "left" := ⟨.replace, Or.inr rfl, rfl⟩
  have hstart : (root 0).Forwards "start" "left" := ⟨.merge, Or.inl rfl, rfl⟩
  have hreach (n : Nat) : (Value.nested n leaf).reach = n :=
    (hfree n).reach_eq.trans (Value.nested_depth n)
  have hends (n : Nat) := (@evaluate_chain (scope n) .merge "alias" ["deep"] (hroot n) (Or.inl rfl)
    (.cons_cons (halias n) (.singleton _))).2 _ (hdeep n) (hfree n) (hl n)
  refine ⟨?_, ?_, ?_⟩
  · refine (hends (depthLimit - 2)).1 ?_
    simp [hreach, depthLimit]
  · refine (hends (depthLimit - 1)).2 ?_
    simp [hreach, depthLimit]
  · exact (@evaluate_chain (scope 0) .merge "start" ["left", "right", "left"] (hroot 0) (Or.inl rfl)
      (.cons_cons hstart (.cons_cons hleft (.cons_cons hright (.singleton _))))).1 (by decide)

end Scope
end LayeredConfig
