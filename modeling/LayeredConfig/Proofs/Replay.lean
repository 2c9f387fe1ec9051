import LayeredConfig.Proofs.Failures
import LayeredConfig.Proofs.Invariants

/-! # Replaying a session

A patch loses its pattern before it is merged, and a merge brings in no key of its own. So the documents of
a session that was built by changes have no pattern, and when they are merged into another session each of
them meets the document at its own position and no other.
-/
namespace LayeredConfig
variable {key : String} {depth : Nat} {dst src r patch : Value} {fields : Fields}

theorem hasKey_of_mergeAt (hdst : dst.Ordered) (hsrc : src.Ordered)
    (h : mergeAt depth dst src = .ok r) (hd : dst.hasKey key = false) (hs : src.hasKey key = false) :
    r.hasKey key = false := by
  cases (mergeAt_eq_ok_iff.mp h).2 with
  | kept => exact hd
  | taken => exact hs
  | items => rfl
  | replaced =>
    refine Value.hasKey_map_eq_false_iff.mpr (Fields.get?_eq_none_iff.mpr ?_)
    intro v hv
    exact Fields.get?_eq_none_iff.mp (Value.hasKey_map_eq_false_iff.mp hs) v (Fields.mem_erase hv)
  | fields _ hm =>
    have hk := ((mergeFields_eq_ok_iff hdst.ascending hsrc.ascending).mp hm).2 key
    rw [Value.hasKey_map_eq_false_iff.mp hd, Value.hasKey_map_eq_false_iff.mp hs] at hk
    exact Value.hasKey_map_eq_false_iff.mpr (Except.ok.inj hk).symm

namespace Session
variable {s t other : Session} {index k i : Nat} {data : Value} {origin : Option DocumentId}
variable {documents : List Document} {d : Document} {e : Error}

structure Positional (v : Value) : Prop where
  ordered : v.Ordered
  hasKey : v.hasKey Directive.pattern.key = false

theorem positional_splitPattern (hp : patch.Ordered) : Positional (splitPattern patch).1 where
  ordered := Ordered.splitPattern hp
  hasKey := by
    cases patch with
    | map fields => exact Value.hasKey_map_eq_false_iff.mpr (Fields.get?_erase_self hp.ascending)
    | _ => rfl

theorem splitPattern_of_hasKey (h : patch.hasKey Directive.pattern.key = false) :
    splitPattern patch = (patch, none) := by
  cases patch with
  | map fields =>
    have hget := Value.hasKey_map_eq_false_iff.mp h
    simp [splitPattern, hget, Fields.erase_eq_self hget]
  | _ => rfl

theorem positional_mergeClosed : MergeClosed Positional where
  null := ⟨trivial, rfl⟩
  merge hd hp hm :=
    ⟨mergeAt_ordered hd.ordered hp.ordered hm, hasKey_of_mergeAt hd.ordered hp.ordered hm hd.hasKey hp.hasKey⟩

def AllPositional (s : Session) : Prop := ∀ d ∈ s.documents, Positional d.data

/-- The sessions that changes lead to, those included that fail half-way. A clone of a session is that
session again, and identifiers may be taken for other documents at any time. -/
inductive Reachable : Session → Prop where
  | empty (registry : Registry) : Reachable (empty registry)
  | patch {s : Session} {v : Value} (index : Nat) : Reachable s → v.Ordered →
      Reachable (perform (applyPatch index v) s).2
  | session {s other : Session} : Reachable s → Reachable other →
      Reachable (perform (mergeSession other) s).2
  | layer {s : Session} {documents : List Document} (path : String) : Reachable s →
      (∀ d ∈ documents, d.data.Ordered) → Reachable (perform (mergeDocuments path documents) s).2
  | taken {s : Session} (count : Nat) : Reachable s →
      Reachable { s with nextId := s.nextId + count }

/-- No document of a reachable session carries a pattern. -/
theorem Reachable.allPositional (h : s.Reachable) : s.AllPositional := by
  induction h with
  | empty => exact fun d hd => nomatch hd
  | patch index _ hv ih =>
    exact positional_mergeClosed.keeps_apply (positional_splitPattern hv.canonical) _ ih
  | session _ _ ih iho =>
    exact positional_mergeClosed.keeps_mergeSession (fun d hd => positional_splitPattern (iho d hd).ordered) _ ih
  | layer path _ hd ih =>
    exact positional_mergeClosed.keeps_mergeDocuments (fun d hmem => positional_splitPattern (hd d hmem)) _ ih
  | taken _ _ ih => exact ih

/-- Documents were merged into a session, each at its position, from index `k` on. -/
structure Overlaid (s t : Session) (k : Nat) (documents : List Document) : Prop where
  length : t.documents.length = max s.documents.length (k + documents.length)
  merged : ∀ i d, documents[i]? = some d → merge (s.dataAt (k + i)) d.data = .ok (t.dataAt (k + i))
  kept : ∀ i, i < k ∨ k + documents.length ≤ i → t.documents[i]? = s.documents[i]?

namespace Overlaid

theorem nil (hk : k ≤ s.documents.length) : Overlaid s s k [] where
  length := by simp [hk]
  merged i d hd := by simp at hd
  kept i _ := rfl

theorem cons (hk : k ≤ s.documents.length) (hd : merge (s.dataAt k) d.data = .ok data)
    (h : Overlaid (s.merged k data origin) t (k + 1) documents) : Overlaid s t k (d :: documents) where
  length := by
    rw [h.length, length_merged, List.length_cons]
    omega
  merged i x hx := by
    cases i with
    | zero =>
      cases Option.some.inj hx
      have hfirst : t.dataAt k = data := by
        rw [dataAt, h.kept k (Or.inl k.lt_succ_self), ← dataAt, dataAt_merged, if_pos rfl]
      rw [Nat.add_zero, hfirst]
      exact hd
    | succ i =>
      have hm := h.merged i x hx
      have hi : k + 1 + i = k + (i + 1) := by omega
      have hne : k + (i + 1) ≠ k := by omega
      rwa [hi, dataAt_merged, if_neg hne] at hm
  kept i hi := by
    rw [List.length_cons] at hi
    have hne : i ≠ k := by omega
    rw [h.kept i (by omega)]
    by_cases hlt : i < s.documents.length
    · exact getElem?_merged_of_ne hlt hne
    · have hle : (s.merged k data origin).documents.length ≤ i := by
        rw [length_merged]
        omega
      rw [List.getElem?_eq_none hle, List.getElem?_eq_none (Nat.not_lt.mp hlt)]

end Overlaid

/-- Patches without a pattern that start within the session are merged at their positions, and what stops
them is the failure of a merge or an index that is too great. -/
theorem perform_replay {r : Except Error Unit} (hk : k ≤ s.documents.length)
    (hd : ∀ d ∈ documents, d.data.hasKey Directive.pattern.key = false)
    (h : perform ((documents.zipIdx k).forM fun (d, i) => apply i d.data (some d.id)) s = (r, t)) :
    (r = .ok () → Overlaid s t k documents) ∧
      ∀ e, r = .error e → e.root.OfMerge ∨ ∃ index count, e = .invalidIndex index count := by
  induction documents generalizing s k with
  | nil =>
    cases h
    exact ⟨fun _ => .nil hk, fun _ => (nomatch ·)⟩
  | cons d rest ih =>
    obtain ⟨hfirst,hrest⟩ := List.forall_mem_cons.mp hd
    rw [List.zipIdx_cons, List.forM, perform_bind] at h
    simp only [perform_apply_of_none (splitPattern_of_hasKey hfirst), perform_applyAt_merged] at h
    cases hp : s.patchedAt k d.data with
    | error e =>
      rw [hp] at h
      cases h
      constructor
      · rintro ⟨⟩
      · rintro _ ⟨⟩
        rw [patchedAt] at hp
        split at hp
        · cases hp
          exact Or.inr ⟨_, _, rfl⟩
        · exact Or.inl (mergeAt_failsWith e hp)
    | ok data =>
      rw [hp] at h
      have hk' : k + 1 ≤ (s.merged k data (some d.id)).documents.length := by
        rw [length_merged]
        omega
      obtain ⟨hok,herror⟩ := ih hk' hrest h
      exact ⟨fun hr => (hok hr).cons hk (merge_of_patchedAt hp), herror⟩

/-- The documents of a reachable session have no `$match`. So one reachable session is merged into another
position by position: no pattern fails to match, and in the end each document is laid over the one at its
position, or stands there alone, and all other documents are as they were. -/
theorem mergeSession_positional (hs : s.Reachable) (ho : other.Reachable) :
    (∀ d ∈ s.documents, d.data.hasKey Directive.pattern.key = false) ∧
      (∀ e t, perform (mergeSession other) s = (.error e, t) → ∀ shown, e.root ≠ .noMatch shown) ∧
      ∀ t, perform (mergeSession other) s = (.ok (), t) →
        t.documents.length = max s.documents.length other.documents.length ∧
        (∀ i d, other.documents[i]? = some d → merge (s.dataAt i) d.data = .ok (t.dataAt i)) ∧
        ∀ i, other.documents.length ≤ i → t.documents[i]? = s.documents[i]? := by
  have hreplay {r : Except Error Unit} {t : Session} (h : perform (mergeSession other) s = (r, t)) :=
    perform_replay s.documents.length.zero_le (fun d hd => (ho.allPositional d hd).hasKey) h
  refine ⟨fun d hd => (hs.allPositional d hd).hasKey, ?_, ?_⟩
  · intro e t h shown hroot
    rcases (hreplay h).2 e rfl with hm | ⟨index,count,rfl⟩
    · rw [hroot] at hm
      cases hm
    · cases hroot
  · intro t h
    have hover := (hreplay h).1 rfl
    refine ⟨?_, ?_, ?_⟩
    · rw [hover.length, Nat.zero_add]
    · intro i d hd
      simpa using hover.merged i d hd
    · intro i hi
      exact hover.kept i (Or.inr (by omega))

/-- The second session was built with a pattern, of which nothing is left when it is merged. -/
theorem mergeSession_positional_matched :
    let kind := ("kind", Value.string "x")
    let s := (perform (applyPatch 0 (.map [kind])) (empty .empty)).2
    let first := (perform (applyPatch 1 (.map [kind])) (empty .empty)).2
    let matched := Value.map [("$match", .map [kind]), ("size", .bool true)]
    let other := (perform (applyPatch 7 matched) first).2
    let t := (perform (mergeSession other) s).2
    s.Reachable ∧ other.Reachable ∧ perform (mergeSession other) s = (.ok (), t) ∧
      t.documents.length = 2 ∧
      merge (s.dataAt 1) (.map [kind, ("size", .bool true)]) = .ok (t.dataAt 1) := by
  intro kind s first matched other t
  have hs : s.Reachable := .patch 0 (.empty .empty) (by decide)
  have ho : other.Reachable := .patch 7 (.patch 1 (.empty .empty) (by decide)) (by decide)
  have h : perform (mergeSession other) s = (.ok (), t) := by rfl
  obtain ⟨_,_,hok⟩ := mergeSession_positional hs ho
  obtain ⟨hlength,hmerged,_⟩ := hok t h
  exact ⟨hs, ho, h, hlength, hmerged 1 _ rfl⟩

end Session
end LayeredConfig
