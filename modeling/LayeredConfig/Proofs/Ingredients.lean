import LayeredConfig.Proofs.Comparison
import LayeredConfig.Proofs.Finished
import LayeredConfig.Proofs.Settled

/-! # What values are made of

A value is made of its leaves and of the keys of its maps, each with the kind of what stands under it. What
merges and evaluations give is made of nothing else than what they were given: a merge under one key gives a
value of the kind of one side, and an evaluation adds only the mark for output and the texts of encoders. A
property of all leaves and of all fields is therefore passed on by them.
-/
namespace LayeredConfig
variable {leaf : Value → Prop} {field : String → Kind → Prop} {P : String → Prop}
variable {depth levels index : Nat} {key : String} {v w r dst src : Value} {fields fs gs hs : Fields}
variable {items : List Value} {scope : Scope}

namespace Value

/-- All leaves inside a value, and all fields of the maps inside it, are of the given ones. -/
structure MadeOf (leaf : Value → Prop) (field : String → Kind → Prop) (v : Value) : Prop where
  leaf : ∀ w, w.Inside v → w.isLeaf = true → leaf w
  field : ∀ key w, v.HoldsField key w → field key w.kind

theorem MadeOf.inside (h : v.MadeOf leaf field) (hw : w.Inside v) : w.MadeOf leaf field where
  leaf u hu := h.leaf u (hu.trans hw)
  field key u hu := h.field key u (hu.inside hw)

theorem madeOf_of_isLeaf (hv : v.isLeaf = true) (h : leaf v) : v.MadeOf leaf field where
  leaf w hw _ := by
    cases v with
    | list items => cases hv
    | map fields => cases hv
    | _ =>
      cases hw
      exact h
  field key w hw := absurd hw (HoldsField.not_leaf hv)

theorem madeOf_list : (list items).MadeOf leaf field ↔ ∀ v ∈ items, v.MadeOf leaf field := by
  constructor
  · intro h v hv
    exact h.inside (.item hv .refl)
  · intro h
    constructor
    · intro w hw hl
      rcases Inside.list_iff.mp hw with rfl | ⟨v,hv,hw⟩
      · cases hl
      · exact (h v hv).leaf w hw hl
    · intro key w hw
      obtain ⟨v,hv,hw⟩ := HoldsField.list_iff.mp hw
      exact (h v hv).field key w hw

theorem madeOf_map :
    (map fields).MadeOf leaf field ↔
      ∀ key v, (key, v) ∈ fields → field key v.kind ∧ v.MadeOf leaf field := by
  constructor
  · intro h key v hv
    exact ⟨h.field key v (HoldsField.map_iff.mpr (Or.inl hv)), h.inside (.field hv .refl)⟩
  · intro h
    constructor
    · intro w hw hl
      rcases Inside.map_iff.mp hw with rfl | ⟨key,v,hv,hw⟩
      · cases hl
      · exact (h key v hv).2.leaf w hw hl
    · intro key w hw
      rcases HoldsField.map_iff.mp hw with hw | ⟨k,v,hv,hw⟩
      · exact (h key w hw).1
      · exact (h k v hv).2.field key w hw

theorem MadeOf.erase (h : (map fields).MadeOf leaf field) :
    (map (fields.erase key)).MadeOf leaf field :=
  madeOf_map.mpr fun k w hw => madeOf_map.mp h k w (Fields.mem_erase hw)

theorem MadeOf.insert (h : (map fields).MadeOf leaf field) (hk : field key v.kind)
    (hv : v.MadeOf leaf field) : (map (fields.insert key v)).MadeOf leaf field := by
  refine madeOf_map.mpr ?_
  intro k w hw
  rcases Fields.mem_insert hw with he | hw
  · cases he
    exact ⟨hk, hv⟩
  · exact madeOf_map.mp h k w hw

theorem MadeOf.outputs (h : v.MadeOf leaf field) (hw : w ∈ v.outputs) : w.MadeOf leaf field := by
  rcases mem_outputs hw with rfl | ⟨fields,hin,rfl⟩
  · exact h
  · exact (h.inside hin).erase

end Value

/-- What all fields on both sides have is kept by a merge that keeps it under each key. -/
theorem forall_mem_of_mergeFields {Q : String → Value → Prop} (hf : ∀ key v, (key, v) ∈ fs → Q key v)
    (hg : ∀ key v, (key, v) ∈ gs → Q key v)
    (hmerge : ∀ key x y w, (key, y) ∈ gs → Q key x → Q key y → mergeAt (depth + 1) x y = .ok w → Q key w)
    (h : mergeFields depth fs gs = .ok hs) : ∀ key v, (key, v) ∈ hs → Q key v := by
  induction gs generalizing fs with
  | nil =>
    cases h
    exact hf
  | cons p rest ih =>
    obtain ⟨l,y⟩ := p
    obtain ⟨hy,hrest⟩ := Fields.forall_mem_cons.mp hg
    obtain ⟨o,ho,h⟩ := mergeFields_cons.mp h
    refine ih ?_ hrest (fun key x z w hz => hmerge key x z w (List.mem_cons_of_mem _ hz)) h
    intro key v hv
    cases o with
    | none => exact hf key v (Fields.mem_erase hv)
    | some w =>
      rcases Fields.mem_insert hv with he | hv
      · cases he
        rcases mergeEntry_eq_ok_some ho with hx | hw | ⟨x,z,hx,hz,hw⟩
        · exact hf _ _ (Fields.mem_of_get? hx)
        · cases hw
          exact hy
        · cases hz
          exact hmerge _ x _ _ List.mem_cons_self (hf _ _ (Fields.mem_of_get? hx)) hy hw
      · exact hf key v hv

theorem Merged.kind (h : Merged depth dst src r) : r.kind = dst.kind ∨ r.kind = src.kind := by
  cases h with
  | kept => exact Or.inl rfl
  | _ => exact Or.inr rfl

namespace Value.MadeOf

theorem mergeAt (hd : dst.MadeOf leaf field) (hs : src.MadeOf leaf field)
    (h : mergeAt depth dst src = .ok r) : r.MadeOf leaf field := by
  induction src using Value.descend generalizing depth dst r with
  | step src ih =>
    cases (mergeAt_eq_ok_iff.mp h).2 with
    | kept => exact hd
    | taken => exact hs
    | replaced => exact hs.erase
    | @fields fs gs hs' _ hm =>
      refine madeOf_map.mpr (forall_mem_of_mergeFields (madeOf_map.mp hd) (madeOf_map.mp hs) ?_ hm)
      rintro key x y w hy ⟨hxkind,hx⟩ ⟨hykind,hy'⟩ hw
      refine ⟨?_, ih gs key y rfl hy hx hy' hw⟩
      rcases (mergeAt_eq_ok_iff.mp hw).2.kind with hk | hk
      · exact hk ▸ hxkind
      · exact hk ▸ hykind
    | items hm =>
      refine madeOf_list.mpr ?_
      intro v hv
      rcases mem_of_mergeItems hm hv with hv | hv
      · exact madeOf_list.mp hd v hv
      · exact madeOf_list.mp hs v hv

/-- What a value leads to one level below is made as it is, if what its references point at is. -/
theorem next (hv : v.MadeOf leaf field)
    (htarget : ∀ d reference target, v.Refers d reference → scope.resolve d reference = .ok target →
      target.MadeOf leaf field)
    (h : scope.Next v w) : w.MadeOf leaf field := by
  cases h with
  | field hw => exact hv.inside (.field hw .refl)
  | item hw => exact hv.inside (.item hw .refl)
  | target hr ht => exact htarget _ _ _ hr ht
  | merged hm ht hmerge => exact (htarget _ _ _ (.merge hm) ht).mergeAt hv.erase hmerge

end Value.MadeOf

namespace Scope

structure MadeOf (leaf : Value → Prop) (field : String → Kind → Prop) (scope : Scope) : Prop where
  root : scope.root.MadeOf leaf field
  documents : ∀ v ∈ scope.documents, v.MadeOf leaf field

theorem MadeOf.resolve {d : Directive} {reference target : Value} (hs : scope.MadeOf leaf field)
    (h : scope.resolve d reference = .ok target) : target.MadeOf leaf field := by
  obtain ⟨v,hv,hin⟩ := inside_of_resolve h
  rcases hv with rfl | hv
  · exact hs.root.inside hin
  · exact (hs.documents v hv).inside hin

def Encodes (leaf : Value → Prop) (scope : Scope) : Prop :=
  ∀ format v r, v.isLeaf = false → scope.encode format v = .ok r → leaf r

/-- An evaluation makes its result of the leaves and the keys that it can see, of the mark for output and
of the texts of encoders. -/
theorem evaluateWithin_madeOf (hs : scope.MadeOf leaf fun key _ => P key) (hencode : scope.Encodes leaf)
    (hmark : P Directive.output.key ∧ leaf (.bool true)) (hv : v.MadeOf leaf fun key _ => P key)
    (h : scope.evaluateWithin levels v = .ok (some r)) : r.MadeOf leaf fun key _ => P key := by
  induction levels generalizing v r with
  | zero => simp [evaluateWithin_zero] at h
  | succ levels ih =>
    have hnext : ∀ {w o}, scope.Next v w → scope.evaluateWithin levels w = .ok (some o) →
        o.MadeOf leaf fun key _ => P key :=
      fun hw ho => ih (hv.next (fun _ _ _ _ ht => hs.resolve ht) hw) ho
    have hencoded : ∀ {format w}, w.isLeaf = false → scope.encode format w = .ok r →
        r.MadeOf leaf fun key _ => P key := by
      intro format w hw henc
      refine Value.madeOf_of_isLeaf ?_ (hencode format w r hw henc)
      obtain ⟨_,text,_,_,rfl⟩ := encode_eq_ok_iff.mp henc
      rfl
    cases evaluateWithin_succ_eq_ok_iff.mp h with
    | merged hm ht hmerge h => exact hnext (.merged hm ht hmerge) h
    | replaced _ hr ht h => exact hnext (.target (.replace hr) ht) h
    | reference hs' ht h =>
      refine hnext (.target (.string hs') ?_) h
      rw [resolve_string, ht]
    | @map fields results selected _ _ _ _ _ _ hres =>
      have hresults : (Value.map results).MadeOf leaf fun key _ => P key := by
        refine Value.madeOf_map.mpr ?_
        intro key w hw
        obtain ⟨u,hu,he⟩ := mem_evaluateFields hres hw
        have hmem := Fields.mem_of_mem_children hu
        exact ⟨(Value.madeOf_map.mp hv key u hmem).1, hnext (.field hmem) he⟩
      cases selected with
      | false => exact hresults
      | true => exact hresults.insert hmark.1 (Value.madeOf_of_isLeaf rfl hmark.2)
    | list _ hi =>
      refine Value.madeOf_list.mpr ?_
      intro w hw
      obtain ⟨u,hu,he⟩ := mem_evaluateItems hi hw
      exact hnext (.item hu) he
    | encodedMap _ _ _ _ _ _ henc => exact hencoded rfl henc
    | encodedList _ _ henc => exact hencoded rfl henc
    | text | null | bool | number => exact hv

end Scope
end LayeredConfig
