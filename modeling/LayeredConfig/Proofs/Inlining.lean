import LayeredConfig.Formats
import LayeredConfig.Proofs.Finished
import LayeredConfig.Proofs.References

/-! # Writing references out

A string that is a reference may be written out: the value with what the reference leads to in its place
evaluates to the same. This holds wherever the string is evaluated as such, under lists and maps of every
kind. The one exception is an element of a list that becomes a mark of the list when it is written out. A
reference that is written out costs a level less, so that the levels that sufficed still do.
-/
namespace LayeredConfig
variable {scope : Scope} {root v w : Value} {levels index : Nat} {key : String}
variable {o : Option Value} {before after : List Value} {fs gs results : Fields}
variable {evaluate : Value → Except Error (Option Value)}

/-- The second value is the first with one reference in it written out, which is reached through elements
of lists and fields of maps that are evaluated one by one. -/
inductive Inlined (root : Value) : Value → Value → Prop where
  | reference {d : Directive} {path : String} {target : Value} : d.IsReference →
      root.atPath? path = some target → Inlined root (.string (d.stringPrefix ++ path)) target
  | item {before after : List Value} {v w : Value} : (v.isLeaf → ¬ w.IsMark) → Inlined root v w →
      Inlined root (.list (before ++ v :: after)) (.list (before ++ w :: after))
  | field {before after : Fields} {key : String} {v w : Value} : Directive.isKey key = false →
      Fields.get? Directive.merge.key (before ++ (key, v) :: after) = none →
      Fields.get? Directive.replace.key (before ++ (key, v) :: after) = none → Inlined root v w →
      Inlined root (.map (before ++ (key, v) :: after)) (.map (before ++ (key, w) :: after))

theorem not_isMark_of_field (h : Directive.isKey key = false) :
    ¬ (Value.map (fs ++ (key, v) :: gs)).IsMark := by
  have hmem : (key, v) ∈ fs ++ (key, v) :: gs := List.mem_append_right _ List.mem_cons_self
  rintro (he | ⟨format,he⟩)
  · rw [Value.map.inj he, List.mem_singleton] at hmem
    exact Directive.ne_key h .output (congrArg Prod.fst hmem)
  · rw [Value.map.inj he, List.mem_singleton] at hmem
    exact Directive.ne_key h .encode (congrArg Prod.fst hmem)

/-- Only the reference itself can turn into a mark. -/
theorem Inlined.not_isMark (h : Inlined root v w) (hw : v.isLeaf → ¬ w.IsMark) :
    ¬ v.IsMark ∧ ¬ w.IsMark := by
  cases h with
  | reference => exact ⟨by simp [Value.IsMark], hw rfl⟩
  | item => exact ⟨by simp [Value.IsMark], by simp [Value.IsMark]⟩
  | field hk => exact ⟨not_isMark_of_field hk, not_isMark_of_field hk⟩

theorem Fields.children_append_cons (hk : Directive.isKey key = false) (fs gs : Fields) :
    ∃ fs' gs' : Fields, ∀ v, children (fs ++ (key, v) :: gs) = fs' ++ (key, v) :: gs' := by
  have hne := Directive.ne_key hk
  obtain ⟨fs₁,gs₁,houtput⟩ := erase_append_cons (hne .output) fs gs
  obtain ⟨fs₂,gs₂,hencode⟩ := erase_append_cons (hne .encode) fs₁ gs₁
  obtain ⟨fs₃,gs₃,hpatch⟩ := erase_append_cons (hne .patch) fs₂ gs₂
  exact ⟨fs₃, gs₃, fun v => by rw [children, houtput, hencode, hpatch]⟩

theorem evaluateFields_of_field (h : ∀ o, evaluate v = .ok o → evaluate w = .ok o)
    (he : evaluateFields evaluate (fs ++ (key, v) :: gs) = .ok results) :
    evaluateFields evaluate (fs ++ (key, w) :: gs) = .ok results := by
  induction fs generalizing results with
  | nil =>
    obtain ⟨o,ho,he⟩ := bind_eq_ok_iff.mp he
    have hw : labelled key (evaluate w) = .ok o :=
      labelled_eq_ok_iff.mpr (h o (labelled_eq_ok_iff.mp ho))
    exact bind_eq_ok_iff.mpr ⟨o, hw, he⟩
  | cons p rest ih =>
    obtain ⟨l,x⟩ := p
    obtain ⟨o,ho,he⟩ := bind_eq_ok_iff.mp he
    obtain ⟨later,hlater,he⟩ := bind_eq_ok_iff.mp he
    exact bind_eq_ok_iff.mpr ⟨o, ho, bind_eq_ok_iff.mpr ⟨later, ih hlater, he⟩⟩

theorem evaluateFields_children_of_field (hk : Directive.isKey key = false)
    (h : ∀ o, evaluate v = .ok o → evaluate w = .ok o)
    (he : evaluateFields evaluate (Fields.children (fs ++ (key, v) :: gs)) = .ok results) :
    evaluateFields evaluate (Fields.children (fs ++ (key, w) :: gs)) = .ok results := by
  obtain ⟨fs',gs',hchildren⟩ := Fields.children_append_cons hk fs gs
  rw [hchildren] at he ⊢
  exact evaluateFields_of_field h he

theorem evaluateItems_of_item {r : Option String × List Value} (hv : ¬ v.IsMark) (hw : ¬ w.IsMark)
    (h : ∀ o, evaluate v = .ok o → evaluate w = .ok o)
    (he : evaluateItems evaluate index (before ++ v :: after) = .ok r) :
    evaluateItems evaluate index (before ++ w :: after) = .ok r := by
  induction before generalizing index r with
  | nil =>
    rw [List.nil_append, evaluateItems_cons, encodeMark_of_not_isMark hv] at he
    rw [List.nil_append, evaluateItems_cons, encodeMark_of_not_isMark hw]
    obtain ⟨mark,hmark,he⟩ := bind_eq_ok_iff.mp he
    cases hmark
    obtain ⟨o,ho,he⟩ := bind_eq_ok_iff.mp he
    have ho : labelled (toString index) (evaluate w) = .ok o :=
      labelled_eq_ok_iff.mpr (h o (labelled_eq_ok_iff.mp ho))
    exact bind_eq_ok_iff.mpr ⟨none, rfl, bind_eq_ok_iff.mpr ⟨o, ho, he⟩⟩
  | cons x rest ih =>
    obtain ⟨mark,hmark,he⟩ := bind_eq_ok_iff.mp he
    refine bind_eq_ok_iff.mpr ⟨mark, hmark, ?_⟩
    cases mark with
    | some format =>
      obtain ⟨later,hlater,he⟩ := bind_eq_ok_iff.mp he
      exact bind_eq_ok_iff.mpr ⟨later, ih hlater, he⟩
    | none =>
      obtain ⟨o,ho,he⟩ := bind_eq_ok_iff.mp he
      obtain ⟨later,hlater,he⟩ := bind_eq_ok_iff.mp he
      exact bind_eq_ok_iff.mpr ⟨o, ho, bind_eq_ok_iff.mpr ⟨later, ih hlater, he⟩⟩

namespace Scope

/-- One field of a map may be changed for another that evaluates alike, if it is no directive. -/
theorem evaluates_of_field (hk : Directive.isKey key = false)
    (hm : Fields.get? Directive.merge.key (fs ++ (key, v) :: gs) = none)
    (hr : Fields.get? Directive.replace.key (fs ++ (key, v) :: gs) = none)
    (h : ∀ o, scope.evaluateWithin levels v = .ok o → scope.evaluateWithin levels w = .ok o)
    (he : Evaluates scope levels (.map (fs ++ (key, v) :: gs)) o) :
    Evaluates scope levels (.map (fs ++ (key, w) :: gs)) o := by
  have hne := Directive.ne_key hk
  have hget : ∀ d : Directive, Fields.get? d.key (fs ++ (key, v) :: gs) =
      Fields.get? d.key (fs ++ (key, w) :: gs) := fun d => Fields.get?_append_cons (hne d)
  have hselection : selection (fs ++ (key, v) :: gs) = selection (fs ++ (key, w) :: gs) := by
    rw [selection, selection, hget .output]
  have hpatch : ∀ fields : Fields, Fields.get? Directive.patch.key
      (Fields.erase Directive.encode.key (Fields.erase Directive.output.key fields)) =
      Fields.get? Directive.patch.key fields := fun _ =>
    (Fields.get?_erase_of_ne (by decide)).trans (Fields.get?_erase_of_ne (by decide))
  have hreplacement : isReplacement
        (Fields.erase Directive.encode.key (Fields.erase Directive.output.key (fs ++ (key, v) :: gs))) =
      isReplacement
        (Fields.erase Directive.encode.key (Fields.erase Directive.output.key (fs ++ (key, w) :: gs))) := by
    rw [isReplacement, isReplacement, hpatch, hpatch, hget]
  rw [hget] at hm hr
  cases he with
  | merged hm' => simp [hget, hm] at hm'
  | replaced _ hr' => simp [hget, hr] at hr'
  | omitted _ _ hs => exact .omitted hm hr (hselection ▸ hs)
  | map _ _ hs he hb hres =>
    exact .map hm hr (hselection ▸ hs) (hget .encode ▸ he) (hreplacement ▸ hb)
      (evaluateFields_children_of_field hk h hres)
  | encodedMap _ _ hs he hb hres henc =>
    exact .encodedMap hm hr (hselection ▸ hs) (hget .encode ▸ he) (hreplacement ▸ hb)
      (evaluateFields_children_of_field hk h hres) henc

theorem evaluates_of_item (hv : ¬ v.IsMark) (hw : ¬ w.IsMark)
    (h : ∀ o, scope.evaluateWithin levels v = .ok o → scope.evaluateWithin levels w = .ok o)
    (he : Evaluates scope levels (.list (before ++ v :: after)) o) :
    Evaluates scope levels (.list (before ++ w :: after)) o := by
  have homit : (before ++ v :: after).any isOmission = (before ++ w :: after).any isOmission := by
    simp [isOmission_of_not_isMark hv, isOmission_of_not_isMark hw]
  cases he with
  | omittedList ho => exact .omittedList (homit ▸ ho)
  | list ho hi => exact .list (homit ▸ ho) (evaluateItems_of_item hv hw h hi)
  | encodedList ho hi henc => exact .encodedList (homit ▸ ho) (evaluateItems_of_item hv hw h hi) henc

theorem evaluateWithin_inlined (h : Inlined scope.root v w)
    (he : scope.evaluateWithin levels v = .ok o) : scope.evaluateWithin levels w = .ok o := by
  induction h generalizing levels o with
  | reference hd ht =>
    cases levels with
    | zero => cases he
    | succ levels =>
      -- In the place of the reference, the target is given back the level that following it cost.
      rw [evaluateWithin_of_atPath? hd ht] at he
      exact evaluateWithin_mono (Nat.le_succ _) he
  | item hmark hin ih =>
    cases levels with
    | zero => cases he
    | succ levels =>
      obtain ⟨hv,hw⟩ := hin.not_isMark hmark
      rw [evaluateWithin_succ_eq_ok_iff] at he ⊢
      exact evaluates_of_item hv hw (fun _ => ih) he
  | field hk hm hr _ ih =>
    cases levels with
    | zero => cases he
    | succ levels =>
      rw [evaluateWithin_succ_eq_ok_iff] at he ⊢
      exact evaluates_of_field hk hm hr (fun _ => ih) he

/-- Writing a reference out changes nothing in what a value evaluates to. -/
theorem evaluate_inlined (h : Inlined scope.root v w) (he : scope.evaluate v = .ok o) :
    scope.evaluate w = .ok o :=
  evaluateWithin_inlined h he

theorem evaluate_inlined_encoded :
    let base := Value.map [("x", .string "$replace:size")]
    let root := Value.map [("base", base), ("size", .string "1")]
    let scope : Scope := ⟨root, [root], .builtIn⟩
    let json := Value.map [("$encode", .string "json")]
    let v := Value.map [("$output", .bool true), ("text", .list [json, .string "$merge:base"])]
    let w := Value.map [("$output", .bool true), ("text", .list [json, base])]
    let r := Value.map [("$output", .bool true), ("text", .string "[\x7b\"x\":\"1\"\x7d]")]
    Inlined root v w ∧ scope.evaluate v = .ok (some r) ∧ scope.evaluate w = .ok (some r) := by
  intro base root scope json v w r
  have hmark : ¬ base.IsMark := by simp [base, Value.IsMark, Directive.key]
  have hreference : Inlined root (.string "$merge:base") base :=
    @Inlined.reference root .merge "base" base (Or.inl rfl) rfl
  have hitem : Inlined root (.list [json, .string "$merge:base"]) (.list [json, base]) :=
    @Inlined.item root [json] [] _ _ (fun _ => hmark) hreference
  have hfield : Inlined root v w :=
    @Inlined.field root [("$output", .bool true)] [] "text" _ _ (by decide) rfl rfl hitem
  have he : scope.evaluate v = .ok (some r) := by rfl
  exact ⟨hfield, he, evaluate_inlined hfield he⟩

end Scope
end LayeredConfig
