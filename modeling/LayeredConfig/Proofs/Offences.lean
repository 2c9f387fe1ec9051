import LayeredConfig.Proofs.DottedPaths

/-! # The first offence

The check of an output goes through it in document order, and looks at a key before it looks at the value under the
key. What it reports is therefore what comes first among all directives and required marks of the value, and the
place it names leads back there.
-/
namespace LayeredConfig

inductive Offence where
  | directive (d : Directive)
  | required

def Offence.error (place : List String) : Offence → Error
  | directive d => .leftoverDirective place d.key
  | required => .requiredMissing place

theorem Directive.key_injective : Function.Injective key := by
  intro d e h
  cases d <;> cases e <;> first | rfl | exact absurd h (by decide)

def Position.isDirective : Position → Bool
  | field key => Directive.isKey key
  | item _ => false

theorem Position.isDirective_iff {s : Position} : s.isDirective = true ↔ ∃ d : Directive, s = field d.key := by
  cases s with
  | item index => simp [isDirective]
  | field key =>
    simp only [isDirective, Directive.isKey_eq_true_iff, field.injEq]
    exact exists_congr fun d => eq_comm

namespace Value
variable {u v w : Value} {s : Position} {below : List Position} {o : Offence} {place : List String} {e : Error}
variable {before after : List (Position × Value)} {items : List Value} {fields : Fields} {index : Nat}

/-- A directive is the last key on the way to the place, a required mark stands at it. -/
def Offends (v : Value) (below : List Position) : Offence → Prop
  | .directive d => below.getLast? = some (.field d.key) ∧ ∃ w, v.locate? below = some w
  | .required => v.locate? below = some (string requiredMark)

/-- Every other offence is at a later place, or is the required mark under the key of a directive. -/
structure FirstOffence (v : Value) (below : List Position) (o : Offence) : Prop where
  offends : v.Offends below o
  first : ∀ p x, v.Offends p x → List.Lex Position.Before below p ∨ p = below ∧ (x = o ∨ x = .required)

theorem offends_nil_iff : v.Offends [] o ↔ o = .required ∧ v = string requiredMark := by
  cases o <;> simp [Offends, locate?]

theorem offends_cons_iff :
    v.Offends (s :: below) o ↔
      ∃ u, v.child? s = some u ∧ (u.Offends below o ∨ below = [] ∧ ∃ d, o = .directive d ∧ s = .field d.key) := by
  cases o with
  | required => simp [Offends, locate?, Option.bind_eq_some_iff]
  | directive d =>
    cases below with
    | nil => simp [Offends, locate?, and_comm]
    | cons t below =>
      have hlocated : (∃ w, v.locate? (s :: t :: below) = some w) ↔
          ∃ u, v.child? s = some u ∧ ∃ w, u.locate? (t :: below) = some w := by
        rw [locate?]
        cases v.child? s <;> simp
      simp only [Offends, List.getLast?_cons_cons, hlocated, reduceCtorEq, false_and, or_false]
      constructor
      · rintro ⟨hd,u,hu,hw⟩
        exact ⟨u, hu, hd, hw⟩
      · rintro ⟨u,hu,hd,hw⟩
        exact ⟨hd, u, hu, hw⟩

theorem Finished.inside (h : v.Finished) (hw : w.Inside v) : w.Finished where
  directive d u hu := h.directive d u (hu.inside hw)
  required hr := h.required (hr.trans hw)

theorem Finished.not_offends (h : v.Finished) : ¬ v.Offends below o := by
  induction below generalizing v with
  | nil =>
    rintro ho
    obtain ⟨_,rfl⟩ := offends_nil_iff.mp ho
    exact h.required .refl
  | cons s below ih =>
    intro ho
    obtain ⟨u,hu,ho | ⟨rfl,d,rfl,rfl⟩⟩ := offends_cons_iff.mp ho
    · exact ih (h.inside (.of_child? hu)) ho
    · cases v with
      | map fields => exact h.directive d u ⟨fields, .refl, Fields.mem_of_get? hu⟩
      | _ => cases hu

/-! ## The walk of the check -/

/-- What the check does at one position: the key first, then the value. -/
def checkEntry (place : List String) (x : Position × Value) : Except Error Unit := do
  if x.1.isDirective then .error (.leftoverDirective (x.1.text :: place).reverse x.1.text)
  x.2.checkAt (x.1.text :: place)

theorem checkItems_eq_forM :
    checkItems place index items =
      ((items.zipIdx index).map fun x => (Position.item x.2, x.1)).forM (checkEntry place) := by
  induction items generalizing index with
  | nil => rfl
  | cons v rest ih =>
    rw [checkItems, ih]
    rfl

theorem checkFields_eq_forM :
    checkFields place fields = (fields.map fun x => (Position.field x.1, x.2)).forM (checkEntry place) := by
  induction fields with
  | nil => rfl
  | cons p rest ih =>
    obtain ⟨key,v⟩ := p
    rw [checkFields, ih, List.map_cons, List.forM, checkEntry, Position.isDirective, Position.text]
    split <;> rfl

theorem checkAt_eq_forM (h : v ≠ string requiredMark) : v.checkAt place = v.entries.forM (checkEntry place) := by
  cases v with
  | list items => exact checkItems_eq_forM
  | map fields => exact checkFields_eq_forM
  | string s =>
    rw [checkAt, if_neg]
    · rfl
    · rintro rfl
      exact h rfl
  | _ => rfl

theorem checkEntry_eq_ok_iff : checkEntry place (s, u) = .ok () ↔ s.isDirective = false ∧ u.Finished := by
  have hu : u.checkAt (s.text :: place) = .ok () ↔ u.Finished := checkAt_eq_ok_iff
  rw [checkEntry, ← hu]
  cases s.isDirective <;> simp [bind, Except.bind]

/-- Where the entries up to one are finished, what offends is at that entry or comes after it. -/
theorem offends_cases (hv : v.Ordered) (hsplit : v.entries = before ++ (s, u) :: after)
    (hbefore : ∀ y ∈ before, checkEntry place y = .ok ()) (h : v.Offends below o) :
    ∃ t rest, below = t :: rest ∧
      (s.Before t ∨ t = s ∧ (u.Offends rest o ∨ rest = [] ∧ ∃ d, o = .directive d ∧ s = .field d.key)) := by
  cases below with
  | nil =>
    obtain ⟨_,rfl⟩ := offends_nil_iff.mp h
    cases before <;> cases hsplit
  | cons t rest =>
    refine ⟨t, rest, rfl, ?_⟩
    obtain ⟨w,hw,ho⟩ := offends_cons_iff.mp h
    have hasc := hsplit ▸ entries_ascending hv
    have hmem := hsplit ▸ (mem_entries_iff hv).mpr hw
    rcases List.mem_append.mp hmem with hmem | hmem
    · obtain ⟨hkey,hfinished⟩ := checkEntry_eq_ok_iff.mp (hbefore _ hmem)
      rcases ho with ho | ⟨_,d,_,ht⟩
      · exact absurd ho hfinished.not_offends
      · rw [Position.isDirective_iff.mpr ⟨d, ht⟩] at hkey
        cases hkey
    · rcases List.mem_cons.mp hmem with he | hmem
      · cases he
        exact Or.inr ⟨rfl, ho⟩
      · exact Or.inl ((List.pairwise_cons.mp (List.pairwise_append.mp hasc).2.1).1 _ hmem)

/-- An entry fails with the first offence that starts with its position. -/
theorem firstOffence_of_entries (hv : v.Ordered)
    (ih : ∀ s u, (s, u) ∈ v.entries → ∀ {place e}, u.checkAt place = .error e →
      ∃ below o, u.FirstOffence below o ∧ e = o.error (place.reverse ++ below.map Position.text))
    (h : v.entries.forM (checkEntry place) = .error e) :
    ∃ below o, v.FirstOffence below o ∧ e = o.error (place.reverse ++ below.map Position.text) := by
  obtain ⟨before,⟨s,u⟩,after,hsplit,hbefore,hfail⟩ := forM_eq_error h
  have hmem : (s, u) ∈ v.entries := by simp [hsplit]
  have hchild := (mem_entries_iff hv).mp hmem
  cases hs : s.isDirective with
  | true =>
    obtain ⟨d,rfl⟩ := Position.isDirective_iff.mp hs
    refine ⟨[.field d.key], .directive d, ⟨offends_cons_iff.mpr ⟨u, hchild, Or.inr ⟨rfl, d, rfl, rfl⟩⟩, ?_⟩, ?_⟩
    · intro p x hx
      obtain ⟨t,rest,rfl,hlt | ⟨rfl,ho⟩⟩ := offends_cases hv hsplit hbefore hx
      · exact Or.inl (.rel hlt)
      cases rest with
      | cons r rest => exact Or.inl (.cons .nil)
      | nil =>
        rcases ho with ho | ⟨_,d',rfl,hd⟩
        · exact Or.inr ⟨rfl, Or.inr (offends_nil_iff.mp ho).1⟩
        · cases Directive.key_injective (Position.field.inj hd)
          exact Or.inr ⟨rfl, Or.inl rfl⟩
    · rw [checkEntry, hs] at hfail
      cases hfail
      simp [Offence.error, Position.text]
  | false =>
    have hcheck : u.checkAt (s.text :: place) = .error e := by simpa [checkEntry, hs] using hfail
    obtain ⟨below,o,hfirst,rfl⟩ := ih s u hmem hcheck
    refine ⟨s :: below, o, ⟨offends_cons_iff.mpr ⟨u, hchild, Or.inl hfirst.offends⟩, ?_⟩, ?_⟩
    · intro p x hx
      obtain ⟨t,rest,rfl,hlt | ⟨rfl,ho⟩⟩ := offends_cases hv hsplit hbefore hx
      · exact Or.inl (.rel hlt)
      rcases ho with ho | ⟨_,d,_,hd⟩
      · rcases hfirst.first rest x ho with hlt | ⟨rfl,hx⟩
        · exact Or.inl (.cons hlt)
        · exact Or.inr ⟨rfl, hx⟩
      · rw [Position.isDirective_iff.mpr ⟨d, hd⟩] at hs
        cases hs
    · simp

/-- A failed check reports the first offence. -/
theorem firstOffence_of_checkAt (hv : v.Ordered) (h : v.checkAt place = .error e) :
    ∃ below o, v.FirstOffence below o ∧ e = o.error (place.reverse ++ below.map Position.text) := by
  induction v generalizing place e with
  | list items ih =>
    rw [checkAt_eq_forM (by nofun)] at h
    refine firstOffence_of_entries hv ?_ h
    intro s u hu
    obtain ⟨⟨u,index⟩,hx,⟨⟩⟩ := List.mem_map.mp hu
    have hmem := List.mem_of_getElem? (List.mem_zipIdx_iff_getElem?.mp hx)
    intro place e he
    exact ih u hmem (ordered_list.mp hv u hmem) he
  | map fields ih =>
    rw [checkAt_eq_forM (by nofun)] at h
    refine firstOffence_of_entries hv ?_ h
    intro s u hu
    obtain ⟨⟨key,u⟩,hx,⟨⟩⟩ := List.mem_map.mp hu
    intro place e he
    exact ih key u hx (hv.field hx) he
  | string s =>
    rw [checkAt] at h
    split at h
    · next hs =>
      subst hs
      cases h
      refine ⟨[], .required, ⟨rfl, ?_⟩, by simp [Offence.error]⟩
      intro p x hx
      cases p with
      | nil => exact Or.inr ⟨rfl, Or.inr (offends_nil_iff.mp hx).1⟩
      | cons t rest => exact Or.inl .nil
    · cases h
  | _ => cases h

/-! ## Where the offence is -/

theorem atPath?_of_required (ha : v.Addressable) (hleaf : v.isLeaf = false) (h : v.Offends below .required) :
    v.atPath? (placeText (below.map Position.text)) = some (string requiredMark) := by
  refine ha.atPath?_placeText ?_ h rfl
  rintro rfl
  obtain ⟨_,rfl⟩ := offends_nil_iff.mp h
  cases hleaf

theorem atPath?_of_directive {d : Directive} (ha : v.Addressable) (h : v.Offends below (.directive d)) :
    ∃ fields : Fields, fields.contains d.key = true ∧
      (placeText (below.map Position.text) = d.key ∧ v = map fields ∨
        ∃ above, placeText (below.map Position.text) = above ++ "." ++ d.key ∧ v.atPath? above = some (map fields)) := by
  obtain ⟨hlast,w,hw⟩ := h
  obtain ⟨above,rfl⟩ := List.getLast?_eq_some_iff.mp hlast
  rw [locate?_append] at hw
  obtain ⟨u,hu,hw⟩ := Option.bind_eq_some_iff.mp hw
  rw [locate?_singleton] at hw
  obtain ⟨fields,rfl⟩ : ∃ fields, u = map fields := by
    cases u with
    | map fields => exact ⟨fields, rfl⟩
    | _ => cases hw
  have hget : Fields.get? d.key fields = some w := hw
  refine ⟨fields, by simp [Fields.contains, hget], ?_⟩
  rw [List.map_append, List.map_singleton]
  cases above with
  | nil =>
    cases hu
    exact Or.inl ⟨placeText_singleton d.key, rfl⟩
  | cons s above =>
    refine Or.inr ⟨_, placeText_concat (by simp), ?_⟩
    exact ha.atPath?_placeText (List.cons_ne_nil s above) hu rfl

/-- The check accepts just the finished values and reports the first offence of any other; below the root, the
place it names leads to the required mark, or to the map that holds the directive. -/
theorem checkFinished_locates (hv : v.Ordered) :
    (v.checkFinished = .ok () ↔ v.Finished) ∧
      (∀ e, v.checkFinished = .error e →
        ∃ below o, v.FirstOffence below o ∧ e = o.error (below.map Position.text)) ∧
      (v.isLeaf = false → v.Addressable →
        (∀ path, v.checkFinished = .error (.requiredMissing path) →
          v.atPath? (placeText path) = some (string requiredMark)) ∧
        ∀ path key, v.checkFinished = .error (.leftoverDirective path key) →
          ∃ fields : Fields, fields.contains key = true ∧
            (placeText path = key ∧ v = map fields ∨
              ∃ above, placeText path = above ++ "." ++ key ∧ v.atPath? above = some (map fields))) := by
  have hfirst : ∀ e, v.checkFinished = .error e →
      ∃ below o, v.FirstOffence below o ∧ e = o.error (below.map Position.text) :=
    fun e h => firstOffence_of_checkAt hv h
  refine ⟨checkAt_eq_ok_iff, hfirst, ?_⟩
  intro hleaf ha
  constructor
  · intro path h
    obtain ⟨below,o,ho,he⟩ := hfirst _ h
    cases o <;> cases he
    exact atPath?_of_required ha hleaf ho.offends
  · intro path key h
    obtain ⟨below,o,ho,he⟩ := hfirst _ h
    cases o <;> cases he
    exact atPath?_of_directive ha ho.offends

theorem checkFinished_locates_services :
    let part := map [("$encode", string requiredMark), ("name", string "web")]
    let v := map [("a", list [bool true, map [("part", part)]]), ("b", string requiredMark)]
    let w := map [("a", list [null, string requiredMark])]
    v.Ordered ∧ w.Ordered ∧ v.Addressable ∧ w.Addressable ∧ ¬ v.Finished ∧
      v.checkFinished = .error (.leftoverDirective ["a", "1", "part", "$encode"] "$encode") ∧
      (∃ fields : Fields, fields.contains "$encode" = true ∧
        (placeText ["a", "1", "part", "$encode"] = "$encode" ∧ v = map fields ∨
          ∃ above, placeText ["a", "1", "part", "$encode"] = above ++ "." ++ "$encode" ∧
            v.atPath? above = some (map fields))) ∧
      w.checkFinished = .error (.requiredMissing ["a", "1"]) ∧
      w.atPath? (placeText ["a", "1"]) = some (string requiredMark) := by
  intro part v w
  have hv : v.Ordered := by decide
  have hw : w.Ordered := by decide
  have hva : v.Addressable := by decide
  have hwa : w.Addressable := by decide
  have hverror : v.checkFinished = .error (.leftoverDirective ["a", "1", "part", "$encode"] "$encode") := by rfl
  have hwerror : w.checkFinished = .error (.requiredMissing ["a", "1"]) := by rfl
  obtain ⟨hok,_,hplace⟩ := checkFinished_locates hv
  obtain ⟨_,_,hplace'⟩ := checkFinished_locates hw
  have hnot : ¬ v.Finished := by
    rw [← hok, hverror]
    nofun
  exact ⟨hv, hw, hva, hwa, hnot, hverror, (hplace rfl hva).2 _ _ hverror, hwerror, (hplace' rfl hwa).1 _ hwerror⟩

end Value
end LayeredConfig
