import LayeredConfig.Error
import LayeredConfig.Proofs.Selection

/-! # Dotted paths to places

A message names a place by its positions with dots between them. Where keys are words without dots, and lists no
longer than an index can count, the name is a dotted path that leads back to the place.
-/
namespace LayeredConfig
variable {path : List String} {cs : List Char} {n : Nat}

/-! ## Segments -/

theorem splitDots_eq_splitOn : splitDots cs = cs.splitOn '.' := by
  induction cs with
  | nil => rfl
  | cons c rest ih =>
    rw [splitDots, List.splitOn_cons_eq_if_modifyHead, ih]
    by_cases hc : c = '.'
    · simp [hc]
    · obtain ⟨piece,pieces,hp⟩ := List.exists_cons_of_ne_nil (List.splitOn_ne_nil '.' rest)
      simp [hc, hp]

theorem segments_ne_nil (path : String) : segments path ≠ [] := by
  simp [segments, splitDots_eq_splitOn]

/-- Dots between words are where the path is split again. -/
theorem segments_intercalate (hne : path ≠ []) (h : ∀ s ∈ path, '.' ∉ s.toList) :
    segments (".".intercalate path) = path := by
  have hsplit : splitDots (".".intercalate path).toList = path.map String.toList := by
    rw [splitDots_eq_splitOn, String.toList_intercalate]
    exact List.splitOn_intercalate '.' (by simpa using h) (by simpa using hne)
  have hself : String.ofList ∘ String.toList = id := funext fun s => String.ofList_toList
  rw [segments, hsplit, List.map_map, hself, List.map_id]

theorem toList_toString : (toString n).toList = Nat.toDigits 10 n := by
  rw [Nat.toString_eq_repr, Nat.toList_repr]

theorem listIndex?_of_digits {s : String} {c : Char} {rest : List Char} (hs : s.toList = c :: rest)
    (hd : ∀ d ∈ c :: rest, d.isDigit = true) (hn : Nat.ofDigitChars 10 (c :: rest) 0 < 18446744073709551616) :
    listIndex? s = some (Nat.ofDigitChars 10 (c :: rest) 0) := by
  have hplus : c ≠ '+' := by
    rintro rfl
    exact absurd (hd '+' List.mem_cons_self) (by decide)
  rw [Nat.ofDigitChars_eq_foldl] at hn ⊢
  rw [listIndex?, hs]
  split
  · next he => exact absurd (List.cons.inj he).1 hplus
  · rw [if_pos ⟨List.cons_ne_nil c rest, List.all_eq_true.mpr hd⟩]
    exact if_pos hn

/-- An index is read from its own digits. -/
theorem listIndex?_toString (h : n < 18446744073709551616) : listIndex? (toString n) = some n := by
  obtain ⟨c,rest,hcs⟩ := List.exists_cons_of_ne_nil (Nat.toDigits_ne_nil (n := n) (b := 10))
  have hdigit : ∀ d ∈ c :: rest, d.isDigit = true := by
    intro d hd
    exact Nat.isDigit_of_mem_toDigits (by decide) (by decide) (hcs ▸ hd)
  have hvalue : Nat.ofDigitChars 10 (c :: rest) 0 = n := hcs ▸ Nat.ofDigitChars_ten_toDigits
  rw [listIndex?_of_digits (toList_toString.trans hcs) hdigit (by rwa [hvalue]), hvalue]

def Position.text : Position → String
  | item index => toString index
  | field key => key

namespace Value
variable {u v w : Value} {s : Position} {place rest : List Position}

theorem locate?_append : v.locate? (place ++ rest) = (v.locate? place).bind (·.locate? rest) := by
  induction place generalizing v with
  | nil => rfl
  | cons s place ih =>
    rw [List.cons_append, locate?, locate?, Option.bind_assoc]
    exact congrArg _ (funext fun _ => ih)

theorem locate?_singleton : v.locate? [s] = v.child? s := by simp [locate?]

theorem Inside.of_child? (h : v.child? s = some w) : w.Inside v := by
  cases v with
  | list items =>
    cases s with
    | item index => exact .item (List.mem_of_getElem? h) .refl
    | field key => cases h
  | map fields =>
    cases s with
    | item index => cases h
    | field key => exact .field (Fields.mem_of_get? h) .refl
  | _ => cases s <;> cases h

/-- Every place can be named by a dotted path. Keys are words without dots; an index is a machine word, as it is in
any list that memory can hold. -/
structure Addressable (v : Value) : Prop where
  keys : ∀ key w, v.HoldsField key w → key ≠ "" ∧ '.' ∉ key.toList
  lists : ∀ items, (list items).Inside v → items.length ≤ 18446744073709551616

namespace Addressable

theorem inside (h : v.Addressable) (hw : w.Inside v) : w.Addressable where
  keys key u hu := h.keys key u (hu.inside hw)
  lists items hi := h.lists items (hi.trans hw)

theorem step_text (h : v.Addressable) (hs : v.child? s = some u) : v.step s.text = some u := by
  cases v with
  | list items =>
    cases s with
    | item index =>
      have hlt := (List.getElem?_eq_some_iff.mp hs).1
      have hlength := h.lists items .refl
      rw [Position.text, step, listIndex?_toString (by omega)]
      exact hs
    | field key => cases hs
  | map fields =>
    cases s with
    | item index => cases hs
    | field key => exact hs
  | _ => cases s <;> cases hs

theorem text_ne (h : v.Addressable) (hs : v.child? s = some u) : s.text ≠ "" ∧ '.' ∉ s.text.toList := by
  cases s with
  | item index =>
    rw [Position.text]
    refine ⟨?_, ?_⟩
    · rw [Nat.toString_eq_repr]
      exact Nat.repr_ne_empty
    · rw [toList_toString]
      intro hdot
      exact absurd (Nat.isDigit_of_mem_toDigits (by decide) (by decide) hdot) (by decide)
  | field key =>
    cases v with
    | map fields => exact h.keys key u ⟨fields, .refl, Fields.mem_of_get? hs⟩
    | _ => cases hs

theorem follow_text (h : v.Addressable) (hw : v.locate? place = some w) :
    v.follow (place.map Position.text) = some w := by
  induction place generalizing v with
  | nil => exact hw
  | cons s place ih =>
    obtain ⟨u,hu,hw⟩ := Option.bind_eq_some_iff.mp hw
    rw [List.map_cons, follow, h.step_text hu]
    exact ih (h.inside (.of_child? hu)) hw

theorem forall_mem_text (h : v.Addressable) (hw : v.locate? place = some w) :
    ∀ t ∈ place.map Position.text, t ≠ "" ∧ '.' ∉ t.toList := by
  induction place generalizing v with
  | nil => nofun
  | cons s place ih =>
    obtain ⟨u,hu,hw⟩ := Option.bind_eq_some_iff.mp hw
    exact List.forall_mem_cons.mpr ⟨h.text_ne hu, ih (h.inside (.of_child? hu)) hw⟩

end Addressable

def hasAddresses : Value → Bool
  | list items => items.length ≤ 18446744073709551616
  | map fields => fields.all fun p => p.1 ≠ "" ∧ '.' ∉ p.1.toList
  | _ => true

theorem addressable_iff : v.Addressable ↔ ∀ w ∈ v.parts, w.hasAddresses = true := by
  constructor
  · intro h w hw
    have hw := inside_iff_mem_parts.mpr hw
    cases w with
    | list items => exact decide_eq_true (h.lists items hw)
    | map fields =>
      refine List.all_eq_true.mpr ?_
      rintro ⟨key,u⟩ hu
      exact decide_eq_true (h.keys key u ⟨fields, hw, hu⟩)
    | _ => rfl
  · intro h
    constructor
    · rintro key u ⟨fields,hf,hu⟩
      exact of_decide_eq_true (List.all_eq_true.mp (h _ (inside_iff_mem_parts.mp hf)) (key, u) hu)
    · intro items hi
      exact of_decide_eq_true (h _ (inside_iff_mem_parts.mp hi))

instance (v : Value) : Decidable v.Addressable := decidable_of_iff _ addressable_iff.symm

end Value

theorem placeText_eq_intercalate (hne : path ≠ []) : placeText path = ".".intercalate path := by
  rw [placeText, List.isEmpty_eq_false_iff.mpr hne]
  rfl

theorem placeText_singleton (s : String) : placeText [s] = s := by
  rw [placeText_eq_intercalate (List.cons_ne_nil s []), String.intercalate_singleton]

theorem placeText_concat {s : String} (hne : path ≠ []) : placeText (path ++ [s]) = placeText path ++ "." ++ s := by
  rw [placeText_eq_intercalate hne, placeText_eq_intercalate (by simp),
    String.intercalate_append_of_ne_nil hne (by simp), String.intercalate_singleton]

/-- The name of a place below the root leads to what stands there. -/
theorem Value.Addressable.atPath?_placeText {v w : Value} {place : List Position} (h : v.Addressable)
    (hne : place ≠ []) (hw : v.locate? place = some w) (hnull : w.isNull = false) :
    v.atPath? (placeText (place.map Position.text)) = some w := by
  have htexts := h.forall_mem_text hw
  have hmap : place.map Position.text ≠ [] := by simpa using hne
  have hsegments := segments_intercalate hmap fun t ht => (htexts t ht).2
  have hempty : placeText (place.map Position.text) ≠ "" := by
    intro hempty
    rw [placeText_eq_intercalate hmap] at hempty
    rw [hempty] at hsegments
    -- The empty path has one segment, which is empty, and no position is named so.
    have hone : place.map Position.text = [""] := hsegments.symm
    exact (htexts "" (hone ▸ List.mem_cons_self)).1 rfl
  rw [Value.atPath?, if_neg hempty, placeText_eq_intercalate hmap, hsegments, h.follow_text hw]
  simp [Option.filter, hnull]

end LayeredConfig
