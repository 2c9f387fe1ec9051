import LayeredConfig.Proofs.Finished

/-! # Selected maps

A place in a value is the list of positions on the way down to it, and places in document order ascend
lexicographically. What is put out is read off the places of the marked maps that no marked map is above:
their values in this order, each without its mark.
-/
namespace LayeredConfig

inductive Position where
  | item (index : Nat)
  | field (key : String)

inductive Position.Before : Position → Position → Prop where
  | item {i j : Nat} : i < j → Before (item i) (item j)
  | field {k l : String} : k < l → Before (field k) (field l)

namespace Value
variable {v w u : Value} {s : Position} {place : List Position} {below : List (Position × Value)}

def child? : Value → Position → Option Value
  | list items, .item index => items[index]?
  | map fields, .field key => Fields.get? key fields
  | _, _ => none

def locate? (v : Value) : List Position → Option Value
  | [] => some v
  | s :: place => (v.child? s).bind (·.locate? place)

def Marked (v : Value) : Prop := v.field? Directive.output.key = some (bool true)

def withoutMark : Value → Value
  | map fields => map (Fields.erase Directive.output.key fields)
  | v => v

/-- The value at the place is marked and nothing above it is. -/
structure Outermost (v : Value) (place : List Position) (w : Value) : Prop where
  located : v.locate? place = some w
  marked : w.Marked
  above : ∀ before u, before <+: place → before ≠ place → v.locate? before = some u → ¬ u.Marked

/-- The places and values that are related, in document order and each once. -/
structure Enumerates (found : List (List Position × Value)) (related : List Position → Value → Prop) :
    Prop where
  ascending : found.Pairwise fun x y => List.Lex Position.Before x.1 y.1
  mem_iff : ∀ place w, (place, w) ∈ found ↔ related place w

/-- The values are what stands at the related places, in document order and without the marks. -/
def ReadOff (related : List Position → Value → Prop) (values : List Value) : Prop :=
  ∃ found, Enumerates found related ∧ values = found.map (·.2.withoutMark)

theorem outermost_nil_iff : v.Outermost [] w ↔ w = v ∧ v.Marked := by
  constructor
  · intro h
    cases h.located
    exact ⟨rfl, h.marked⟩
  · rintro ⟨rfl,h⟩
    refine ⟨rfl, h, ?_⟩
    intro before u hb hne
    exact absurd (List.prefix_nil.mp hb) hne

theorem outermost_cons_iff :
    v.Outermost (s :: place) w ↔ ¬ v.Marked ∧ ∃ u, v.child? s = some u ∧ u.Outermost place w := by
  constructor
  · rintro ⟨hl,hm,habove⟩
    obtain ⟨u,hu,hl⟩ := Option.bind_eq_some_iff.mp hl
    refine ⟨habove [] v List.nil_prefix (List.cons_ne_nil s place).symm rfl, u, hu, hl, hm, ?_⟩
    intro before x hb hne hx
    refine habove (s :: before) x (List.cons_prefix_cons.mpr ⟨rfl, hb⟩) ?_ ?_
    · simpa using hne
    · rw [locate?, hu]
      exact hx
  · rintro ⟨hv,u,hu,hl,hm,habove⟩
    refine ⟨?_, hm, ?_⟩
    · rw [locate?, hu]
      exact hl
    · intro before x hb hne hx
      cases before with
      | nil =>
        cases hx
        exact hv
      | cons t before =>
        obtain ⟨rfl,hp⟩ := List.cons_prefix_cons.mp hb
        rw [locate?, hu] at hx
        exact habove before x hp (fun he => hne (congrArg _ he)) hx

/-! ## One level -/

def entries : Value → List (Position × Value)
  | list items => items.zipIdx.map fun x => (.item x.2, x.1)
  | map fields => fields.map fun x => (.field x.1, x.2)
  | _ => []

theorem mem_entries_iff (hv : v.Ordered) : (s, u) ∈ v.entries ↔ v.child? s = some u := by
  cases v with
  | list items =>
    cases s with
    | item index =>
      simp only [entries, child?, List.mem_map, List.mem_zipIdx_iff_getElem?]
      constructor
      · rintro ⟨⟨x,i⟩,h,⟨⟩⟩
        exact h
      · intro h
        exact ⟨(u, index), h, rfl⟩
    | field key => simp [entries, child?]
  | map fields => cases s <;> simp [entries, child?, Fields.get?_eq_some_iff hv.ascending]
  | _ => simp [entries, child?]

theorem entries_ascending (hv : v.Ordered) : v.entries.Pairwise fun x y => x.1.Before y.1 := by
  cases v with
  | list items =>
    refine List.pairwise_map.mpr ?_
    have hrange : (items.zipIdx.map Prod.snd).Pairwise (· < ·) := by
      rw [List.zipIdx_map_snd]
      exact List.pairwise_lt_range'
    exact (List.pairwise_map.mp hrange).imp .item
  | map fields => exact List.pairwise_map.mpr (hv.ascending.imp .field)
  | _ => exact .nil

theorem selected_of_not_marked (h : ¬ v.Marked) : v.selected = v.entries.flatMap (·.2.selected) := by
  cases v with
  | list items =>
    have hitems : items.zipIdx.flatMap (·.1.selected) = items.flatMap selected := by
      rw [← List.flatMap_map Prod.fst selected, List.zipIdx_map_fst]
    rw [selected, selectedItems_eq_flatMap, entries, List.flatMap_map, hitems]
  | map fields =>
    rw [selected, if_neg (mt isSelected_iff.mp h), selectedFields_eq_flatMap, entries, List.flatMap_map]
  | _ => rfl

theorem selected_of_marked (h : v.Marked) : v.selected = [v.withoutMark] := by
  cases v with
  | map fields => rw [selected, if_pos (isSelected_iff.mpr h), withoutMark]
  | _ => cases h

theorem readOff_below (hasc : below.Pairwise fun x y => x.1.Before y.1)
    (h : ∀ s u, (s, u) ∈ below → ReadOff u.Outermost u.selected) :
    ReadOff (fun place w => ∃ s u rest, place = s :: rest ∧ (s, u) ∈ below ∧ u.Outermost rest w)
      (below.flatMap (·.2.selected)) := by
  induction below with
  | nil => exact ⟨[], ⟨.nil, by simp⟩, rfl⟩
  | cons x rest ih =>
    obtain ⟨s,u⟩ := x
    obtain ⟨hs,hrest⟩ := List.pairwise_cons.mp hasc
    obtain ⟨found,hfound,hsel⟩ := h s u List.mem_cons_self
    obtain ⟨later,hlater,hlsel⟩ := ih hrest fun t v ht => h t v (List.mem_cons_of_mem _ ht)
    refine ⟨found.map (fun x => (s :: x.1, x.2)) ++ later, ⟨?_, ?_⟩, ?_⟩
    · refine List.pairwise_append.mpr ⟨?_, hlater.ascending, ?_⟩
      · exact List.pairwise_map.mpr (hfound.ascending.imp .cons)
      -- All that is found below one position comes before what is found below the later ones.
      · rintro x hx ⟨place,w⟩ hy
        obtain ⟨x,_,rfl⟩ := List.mem_map.mp hx
        obtain ⟨t,_,p,rfl,ht,_⟩ := (hlater.mem_iff place w).mp hy
        exact .rel (hs _ ht)
    · intro place w
      rw [List.mem_append, hlater.mem_iff, List.mem_map]
      constructor
      · rintro (⟨⟨p,w⟩,hb,⟨⟩⟩ | ⟨t,v,p,rfl,ht,hb⟩)
        · exact ⟨s, u, p, rfl, List.mem_cons_self, (hfound.mem_iff p w).mp hb⟩
        · exact ⟨t, v, p, rfl, List.mem_cons_of_mem _ ht, hb⟩
      · rintro ⟨t,v,p,rfl,ht,hb⟩
        rcases List.mem_cons.mp ht with ht | ht
        · cases ht
          exact Or.inl ⟨(p, w), (hfound.mem_iff p w).mpr hb, rfl⟩
        · exact Or.inr ⟨t, v, p, rfl, ht, hb⟩
    · rw [List.flatMap_cons, hsel, hlsel, List.map_append, List.map_map]
      rfl

theorem enumerates_of_marked (h : v.Marked) : Enumerates [([], v)] v.Outermost where
  ascending := List.pairwise_singleton _ _
  mem_iff place w := by
    cases place with
    | nil => simp [outermost_nil_iff, h]
    | cons s place => simp [outermost_cons_iff, h]

theorem readOff_of_entries (hv : v.Ordered)
    (h : ∀ s u, (s, u) ∈ v.entries → ReadOff u.Outermost u.selected) :
    ReadOff v.Outermost v.selected := by
  by_cases hm : v.Marked
  · exact ⟨[([], v)], enumerates_of_marked hm, selected_of_marked hm⟩
  · obtain ⟨found,hfound,hsel⟩ := readOff_below (entries_ascending hv) h
    refine ⟨found, ⟨hfound.ascending, ?_⟩, (selected_of_not_marked hm).trans hsel⟩
    intro place w
    rw [hfound.mem_iff]
    cases place with
    | nil => simp [outermost_nil_iff, hm]
    | cons s place => simp [outermost_cons_iff, hm, mem_entries_iff hv, and_assoc]

theorem readOff_selected (hv : v.Ordered) : ReadOff v.Outermost v.selected := by
  induction v with
  | list items ih =>
    refine readOff_of_entries hv ?_
    intro s u hu
    obtain ⟨⟨u,index⟩,hx,⟨⟩⟩ := List.mem_map.mp hu
    have hmem := List.mem_of_getElem? (List.mem_zipIdx_iff_getElem?.mp hx)
    exact ih u hmem (ordered_list.mp hv u hmem)
  | map fields ih =>
    refine readOff_of_entries hv ?_
    intro s u hu
    obtain ⟨⟨key,u⟩,hx,⟨⟩⟩ := List.mem_map.mp hu
    exact ih key u hx (hv.field hx)
  | _ => exact readOff_of_entries hv fun s u hu => nomatch hu

/-- The walk that only looks for a mark finds it wherever it stands. -/
theorem hasSelection_iff_holdsField (hv : v.Ordered) :
    v.hasSelection = true ↔ v.HoldsField Directive.output.key (bool true) := by
  refine ⟨holdsField_of_hasSelection, ?_⟩
  intro h
  induction v with
  | list items ih =>
    obtain ⟨v,hmem,h⟩ := HoldsField.list_iff.mp h
    rw [hasSelection, hasSelectionItems_eq_any, List.any_eq_true]
    exact ⟨v, hmem, ih v hmem (ordered_list.mp hv v hmem) h⟩
  | map fields ih =>
    rw [hasSelection, Bool.or_eq_true]
    rcases HoldsField.map_iff.mp h with h | ⟨key,v,hmem,h⟩
    · exact Or.inl (isSelected_iff.mpr ((Fields.get?_eq_some_iff hv.ascending).mpr h))
    · rw [hasSelectionFields_eq_any, List.any_eq_true]
      exact Or.inr ⟨(key, v), hmem, ih key v hmem (hv.field hmem) h⟩
  | _ => exact absurd h (HoldsField.not_leaf rfl)

theorem outputs_ne_nil : v.outputs ≠ [] := by
  rw [outputs]
  split
  · next h => exact hasSelection_iff.mp h
  · exact List.cons_ne_nil v []

/-- A value in which a map is marked puts out the outermost marked maps in document order, and any other
value itself. -/
theorem outputs_outermost (hv : v.Ordered) :
    (v.HoldsField Directive.output.key (bool true) → ReadOff v.Outermost v.outputs) ∧
    (¬ v.HoldsField Directive.output.key (bool true) → v.outputs = [v]) ∧ v.outputs ≠ [] := by
  refine ⟨?_, ?_, outputs_ne_nil⟩
  · intro h
    rw [outputs, if_pos ((hasSelection_iff_holdsField hv).mpr h)]
    exact readOff_selected hv
  · intro h
    exact if_neg (mt (hasSelection_iff_holdsField hv).mp h)

theorem outputs_outermost_services :
    let mark := ("$output", bool true)
    let web := [("name", string "web"), ("part", map [mark])]
    let v := map [("apps", list [null, map (mark :: web)]),
      ("more", map [("$output", bool false), ("store", map [mark])])]
    let plain := map [("$output", string "true"), ("apps", list [])]
    ReadOff v.Outermost v.outputs ∧ v.outputs = [map web, map []] ∧
      plain.outputs = [plain] ∧ plain.outputs ≠ [] := by
  intro mark web v plain
  have hv : v.Ordered := by decide
  have hp : plain.Ordered := by decide
  have hmark : v.HoldsField Directive.output.key (bool true) :=
    (hasSelection_iff_holdsField hv).mp rfl
  have hnone : ¬ plain.HoldsField Directive.output.key (bool true) :=
    mt (hasSelection_iff_holdsField hp).mpr (by decide)
  obtain ⟨hread,_,_⟩ := outputs_outermost hv
  obtain ⟨_,hself,hne⟩ := outputs_outermost hp
  exact ⟨hread hmark, rfl, hself hnone, hne⟩

end Value
end LayeredConfig
