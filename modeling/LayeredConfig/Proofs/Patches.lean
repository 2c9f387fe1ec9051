import LayeredConfig.Proofs.Growth
import LayeredConfig.Proofs.Replay
import Mathlib.Data.List.TakeWhile

/-! # Patches by position and by content

A session can be read beyond its end: there stand the documents that it would be filled up with. So read, a
merge changes what stands at one index, and patches to two indices do not meet. A patch with a pattern goes to
the documents that satisfy the pattern when it arrives, whatever it makes of them.
-/
namespace LayeredConfig.Session
variable {s t : Session} {index count i j : Nat} {patch data other p q pattern : Value} {fields : Fields}
variable {origin origin' : Option DocumentId} {targets : List Nat}

/-- The document at an index, or beyond the end the one that would be filled in there. -/
def documentAt (s : Session) (index : Nat) : Document :=
  s.documents[index]?.getD ⟨s.nextId + (index - s.documents.length), [], .null⟩

theorem documentAt_of_lt (h : i < s.documents.length) : s.documents[i]? = some (s.documentAt i) := by
  rw [documentAt, List.getElem?_eq_getElem h, Option.getD_some]

theorem documentAt_of_le (h : s.documents.length ≤ i) :
    s.documentAt i = ⟨s.nextId + (i - s.documents.length), [], .null⟩ := by
  rw [documentAt, List.getElem?_eq_none h, Option.getD_none]

/-- Nothing else is needed to know a session. -/
theorem ext_documentAt (hr : s.registry = t.registry) (hl : s.documents.length = t.documents.length)
    (hd : ∀ i, s.documentAt i = t.documentAt i) : s = t := by
  have hdocs : s.documents = t.documents := by
    refine List.ext_getElem? ?_
    intro i
    by_cases hi : i < s.documents.length
    · rw [documentAt_of_lt hi, documentAt_of_lt (hl ▸ hi), hd]
    · have hle := Nat.not_lt.mp hi
      rw [List.getElem?_eq_none hle, List.getElem?_eq_none (hl ▸ hle)]
  have hid : s.nextId = t.nextId := by
    have hend := congrArg Document.id (hd s.documents.length)
    rwa [documentAt_of_le (Nat.le_refl _), documentAt_of_le (Nat.le_of_eq hl.symm), hl, Nat.sub_self] at hend
  cases s
  cases t
  simp_all

theorem documentAt_pad : (s.pad count).documentAt i = s.documentAt i := by
  by_cases hi : i < s.documents.length
  · rw [documentAt, getElem?_pad hi, documentAt_of_lt hi, Option.getD_some]
  · have hle := Nat.not_lt.mp hi
    rw [documentAt_of_le hle]
    by_cases hc : i < count
    · have hnew : (s.pad count).documents[i]? =
          some ⟨s.nextId + (i - s.documents.length), [], .null⟩ := by
        rw [pad, List.getElem?_append_right hle, List.getElem?_map, List.getElem?_range (by omega)]
        rfl
      rw [documentAt, hnew, Option.getD_some]
    · have hend : (s.pad count).documents.length ≤ i := by
        rw [length_pad]
        omega
      have hnext : (s.pad count).nextId = s.nextId + (count - s.documents.length) := rfl
      have hskip : count - s.documents.length + (i - max s.documents.length count) =
          i - s.documents.length := by omega
      rw [documentAt_of_le hend, length_pad, hnext, Nat.add_assoc, hskip]

theorem documentAt_setData_of_ne (h : i ≠ index) :
    (s.setData index data origin).documentAt i = s.documentAt i := by
  rw [documentAt, getElem?_setData_of_ne h, length_setData]
  rfl

theorem documentAt_setData_self (h : index < s.documents.length) :
    (s.setData index data origin).documentAt index =
      ⟨(s.documentAt index).id, (s.documentAt index).parents ++ origin.toList, data⟩ := by
  have hset : (s.setData index data origin).documents[index]? =
      some ⟨(s.documentAt index).id, (s.documentAt index).parents ++ origin.toList, data⟩ := by
    simp [setData, documentAt_of_lt h]
  rw [documentAt, hset, Option.getD_some]

/-- A merge changes what stands at its index, beyond the end too. -/
theorem documentAt_merged :
    (s.merged index data origin).documentAt i = if i = index then
      ⟨(s.documentAt index).id, (s.documentAt index).parents ++ origin.toList, data⟩ else s.documentAt i := by
  split
  · next hi => rw [hi, merged, documentAt_setData_self lt_length_pad, documentAt_pad]
  · next hi => rw [merged, documentAt_setData_of_ne hi, documentAt_pad]

theorem merged_comm (h : i ≠ j) :
    (s.merged i data origin).merged j other origin' = (s.merged j other origin').merged i data origin := by
  refine ext_documentAt rfl ?_ ?_
  · rw [length_merged, length_merged, length_merged, length_merged]
    omega
  · intro k
    simp only [documentAt_merged, if_neg h, if_neg h.symm]
    by_cases hi : k = i
    · have hj : k ≠ j := fun hj => h (hi.symm.trans hj)
      rw [if_pos hi, if_neg hj, if_pos hi]
    · rw [if_neg hi, if_neg hi]

def Unaddressed (patch : Value) : Prop := ∀ pattern, patch.field? Directive.pattern.key = some pattern → pattern = .null

theorem splitPattern_of_unaddressed (h : Unaddressed patch) :
    splitPattern patch.canonical = ((splitPattern patch.canonical).1, none) := by
  cases patch with
  | map fields =>
    rcases @Value.canonical_map fields with hc | ⟨text,_,hc⟩
    · rw [hc, splitPattern, Value.get?_canonicalFields]
      cases hm : Fields.get? Directive.pattern.key fields with
      | none => rfl
      | some pattern =>
        cases h pattern hm
        rfl
    · rw [hc]
      rfl
  | _ => rfl

theorem perform_applyPatch_of_unaddressed (hp : Unaddressed patch) (hi : index < maxIndex) :
    perform (applyPatch index patch) s =
      match merge (s.dataAt index) (splitPattern patch.canonical).1 with
      | .ok data => (.ok (), s.merged index data none)
      | .error e => (.error e, s) := by
  have hpatched : s.patchedAt index (splitPattern patch.canonical).1 =
      merge (s.dataAt index) (splitPattern patch.canonical).1 := if_neg (Nat.not_le.mpr hi)
  rw [applyPatch, perform_apply_of_none (splitPattern_of_unaddressed hp), ← hpatched]
  exact perform_applyAt_merged

theorem dataAt_applyPatch_of_ne (hp : Unaddressed patch) (hi : index < maxIndex) (h : i ≠ index) :
    (perform (applyPatch index patch) s).2.dataAt i = s.dataAt i := by
  rw [perform_applyPatch_of_unaddressed hp hi]
  cases merge (s.dataAt index) (splitPattern patch.canonical).1 with
  | error e => rfl
  | ok data => exact dataAt_merged.trans (if_neg h)

/-- Patches to different documents may change places: each of them is taken or refused as if it were alone, and
the session that they leave is the same. -/
theorem applyPatch_comm (hp : Unaddressed p) (hq : Unaddressed q) (hi : i < maxIndex) (hj : j < maxIndex)
    (h : i ≠ j) :
    let first := perform (applyPatch i p) s
    let second := perform (applyPatch j q) s
    (perform (applyPatch j q) first.2).2 = (perform (applyPatch i p) second.2).2 ∧
      (perform (applyPatch j q) first.2).1 = second.1 ∧ (perform (applyPatch i p) second.2).1 = first.1 := by
  intro first second
  have hfirst : first = _ := perform_applyPatch_of_unaddressed hp hi
  have hsecond : second = _ := perform_applyPatch_of_unaddressed hq hj
  have hread : first.2.dataAt j = s.dataAt j := dataAt_applyPatch_of_ne hp hi h.symm
  have hread' : second.2.dataAt i = s.dataAt i := dataAt_applyPatch_of_ne hq hj h
  rw [perform_applyPatch_of_unaddressed hq hj, perform_applyPatch_of_unaddressed hp hi, hread, hread', hfirst,
    hsecond]
  cases merge (s.dataAt i) (splitPattern p.canonical).1 with
  | error e => cases merge (s.dataAt j) (splitPattern q.canonical).1 <;> exact ⟨rfl, rfl, rfl⟩
  | ok data =>
    cases merge (s.dataAt j) (splitPattern q.canonical).1 with
    | error e => exact ⟨rfl, rfl, rfl⟩
    | ok other => exact ⟨merged_comm h, rfl, rfl⟩

theorem applyPatch_comm_beyond :
    let s : Session := ⟨[⟨0, [], .map []⟩], .empty, 1⟩
    let p := Value.map [("$match", .null), ("size", .bool true)]
    let q := Value.list [.null]
    let t : Session := ⟨[⟨0, [], .map []⟩, ⟨1, [], q⟩, ⟨2, [], .null⟩, ⟨3, [], .map [("size", .bool true)]⟩], .empty, 4⟩
    Unaddressed p ∧ Unaddressed q ∧ perform (applyPatch 1 q) (perform (applyPatch 3 p) s).2 = (.ok (), t) ∧
      (perform (applyPatch 3 p) (perform (applyPatch 1 q) s).2).2 = t ∧
      (perform (applyPatch 0 q) (perform (applyPatch 3 p) s).2).1 = .error (.mismatch .map .list) := by
  intro s p q t
  have hp : Unaddressed p := by
    intro pattern h
    cases h
    rfl
  have hq : Unaddressed q := fun _ h => nomatch h
  have hmax : 3 < maxIndex := by decide
  have h : perform (applyPatch 1 q) (perform (applyPatch 3 p) s).2 = (.ok (), t) := by rfl
  have hrefused : (perform (applyPatch 0 q) s).1 = .error (.mismatch .map .list) := by rfl
  obtain ⟨hsame,_,_⟩ := applyPatch_comm (s := s) hp hq hmax (by omega : 1 < maxIndex) (by decide)
  obtain ⟨_,hresult,_⟩ := applyPatch_comm (s := s) hp hq hmax (by omega : 0 < maxIndex) (by decide)
  exact ⟨hp, hq, h, hsame.symm.trans (congrArg Prod.snd h), hresult.trans hrefused⟩

def Selects (s : Session) (pattern : Value) (index : Nat) : Prop :=
  ∃ d, s.documents[index]? = some d ∧ d.data.satisfies pattern = true

theorem mem_matching : i ∈ s.matching pattern ↔ s.Selects pattern i := by
  simp only [matching, Selects, List.mem_map, List.mem_filter, Prod.exists, exists_eq_right,
    List.mem_zipIdx_iff_getElem?]

theorem matching_eq_nil_iff : s.matching pattern = [] ↔ ∀ i, ¬ s.Selects pattern i := by
  simp only [List.eq_nil_iff_forall_not_mem, mem_matching]

theorem splitPattern_of_get? (hm : fields.get? Directive.pattern.key = some pattern) (hn : pattern ≠ .null) :
    splitPattern (.map fields) = (.map (fields.erase Directive.pattern.key), some pattern) := by
  rw [splitPattern, hm]
  cases pattern with
  | null => exact absurd rfl hn
  | _ => rfl

/-- What is left of a patch without its pattern selects nothing any more. -/
theorem splitPattern_erase (h : fields.Ascending) :
    splitPattern (.map (fields.erase Directive.pattern.key)) =
      (.map (fields.erase Directive.pattern.key), none) :=
  splitPattern_of_hasKey (Value.hasKey_map_eq_false_iff.mpr (Fields.get?_erase_self h))

theorem reached_eq_iff : s.reached patch targets = targets ↔ ∀ i ∈ targets, ∃ data, s.patchedAt i patch = .ok data := by
  rw [reached, List.takeWhile_eq_self_iff]
  refine forall₂_congr fun i _ => ?_
  cases s.patchedAt i patch <;> simp [Except.isOk, Except.toBool]

theorem dataAt_of_getElem? {d : Document} (h : s.documents[i]? = some d) : s.dataAt i = d.data := by
  rw [dataAt, h]
  rfl

/-- A run over the selected documents succeeds if each of them takes the patch, and then each holds its merge and
all others are what they were. -/
theorem forM_matching {r : Except Error Unit}
    (h : perform ((s.matching pattern).forM fun i => applyAt i patch none) s = (r, t)) :
    (r = .ok () ↔ ∀ i, s.Selects pattern i → ∃ data, s.patchedAt i patch = .ok data) ∧
      (r = .ok () → SameFrame s t ∧ ∀ i d, s.documents[i]? = some d →
        (d.data.satisfies pattern = true → merge d.data patch = .ok (t.dataAt i)) ∧
        (d.data.satisfies pattern = false → t.documents[i]? = some d)) := by
  obtain ⟨hpatched,hok⟩ := forM_applyAt matching_nodup (fun i hi => lt_of_mem_matching hi) h
  refine ⟨hok.trans (reached_eq_iff.trans (forall_congr' fun i => by rw [mem_matching])), ?_⟩
  intro hr
  rw [hok.mp hr] at hpatched
  refine ⟨hpatched.frame, ?_⟩
  intro i d hd
  constructor
  · intro hsat
    rw [← dataAt_of_getElem? hd]
    exact hpatched.merged i (mem_matching.mpr ⟨d, hd, hsat⟩)
  · intro hsat
    have hnot : i ∉ s.matching pattern := by
      intro hi
      obtain ⟨d',hd',hsat'⟩ := mem_matching.mp hi
      cases hd.symm.trans hd'
      rw [hsat] at hsat'
      cases hsat'
    exact (hpatched.frame.getElem?_eq (hpatched.kept i hnot)).trans hd

/-- A patch with a pattern is merged into the documents that satisfy the pattern beforehand, at whatever index it
is applied and whatever it makes of them, and into no others. It is refused if there are none, or if one of them
refuses what is left of it without the pattern, which by itself goes to the document at its index. -/
theorem applyPatch_addressed (hp : patch.Ordered) (hc : patch.canonical = .map fields)
    (hm : fields.get? Directive.pattern.key = some pattern) (hn : pattern ≠ .null) :
    let rest := Value.map (fields.erase Directive.pattern.key)
    ((∀ i, ¬ s.Selects pattern i) →
        ∀ index, perform (applyPatch index patch) s = (.error (.noMatch pattern.summary), s)) ∧
      (∀ index, (∃ t, perform (applyPatch index patch) s = (.ok (), t)) ↔
        (∃ i, s.Selects pattern i) ∧ ∀ i, s.Selects pattern i → ∃ data, s.patchedAt i rest = .ok data) ∧
      (∀ index t, perform (applyPatch index patch) s = (.ok (), t) → SameFrame s t ∧
        ∀ i d, s.documents[i]? = some d →
          (d.data.satisfies pattern = true → merge d.data rest = .ok (t.dataAt i)) ∧
          (d.data.satisfies pattern = false → t.documents[i]? = some d)) ∧
      (∀ index index', perform (applyPatch index patch) s = perform (applyPatch index' patch) s) ∧
      ∀ index u, perform (apply index rest none) u = perform (applyAt index rest none) u := by
  intro rest
  have hsplit : splitPattern patch.canonical = (rest, some pattern) := hc ▸ splitPattern_of_get? hm hn
  have hnone : ∀ index, (∀ i, ¬ s.Selects pattern i) →
      perform (applyPatch index patch) s = (.error (.noMatch pattern.summary), s) :=
    fun index h => (perform_apply_of_some hsplit).trans (if_pos (matching_eq_nil_iff.mpr h))
  have hsome : ∀ index, (∃ i, s.Selects pattern i) → perform (applyPatch index patch) s =
      perform ((s.matching pattern).forM fun i => applyAt i rest none) s := by
    rintro index ⟨i,hi⟩
    exact (perform_apply_of_some hsplit).trans (if_neg fun h => matching_eq_nil_iff.mp h i hi)
  refine ⟨fun h index => hnone index h, ?_, ?_, ?_, ?_⟩
  · intro index
    by_cases hex : ∃ i, s.Selects pattern i
    · rw [hsome index hex, and_iff_right hex]
      cases hr : perform ((s.matching pattern).forM fun i => applyAt i rest none) s with
      | mk r t => simp only [Prod.mk.injEq, exists_and_left, exists_eq', and_true, (forM_matching hr).1]
    · rw [hnone index (not_exists.mp hex)]
      refine iff_of_false ?_ fun h => hex h.1
      rintro ⟨_,⟨⟩⟩
  · intro index t h
    by_cases hex : ∃ i, s.Selects pattern i
    · rw [hsome index hex] at h
      exact (forM_matching h).2 rfl
    · rw [hnone index (not_exists.mp hex)] at h
      cases h
  · intro index index'
    exact (perform_apply_of_some hsplit).trans (perform_apply_of_some hsplit).symm
  · intro index u
    have hf : (Value.map fields).Ordered := hc ▸ hp.canonical
    exact perform_apply_of_none (splitPattern_erase hf.ascending)

/-- The patch takes from a document what the pattern asks for, and the next one is still found. -/
theorem applyPatch_addressed_kind :
    let kind (k : String) := ("kind", Value.string k)
    let patch := Value.map [("$match", .map [kind "x"]), kind "y"]
    let s : Session := ⟨[⟨0, [], .map [kind "x"]⟩, ⟨1, [], .map [kind "z"]⟩,
      ⟨2, [], .map [kind "x", ("size", .bool true)]⟩], .empty, 3⟩
    let t : Session := ⟨[⟨0, [], .map [kind "y"]⟩, ⟨1, [], .map [kind "z"]⟩,
      ⟨2, [], .map [kind "y", ("size", .bool true)]⟩], .empty, 3⟩
    patch.Ordered ∧ perform (applyPatch 7 patch) s = (.ok (), t) ∧ SameFrame s t ∧
      merge (s.dataAt 2) (.map [kind "y"]) = .ok (t.dataAt 2) ∧ t.documents[1]? = s.documents[1]? ∧
      perform (applyPatch 0 patch) s = (.ok (), t) ∧
      perform (applyPatch 0 patch) t = (.error (.noMatch (Value.map [kind "x"]).summary), t) := by
  intro kind patch s t
  have hp : patch.Ordered := by decide
  have h : perform (applyPatch 7 patch) s = (.ok (), t) := by rfl
  have hrest (u : Session) := applyPatch_addressed (s := u) hp rfl rfl (nofun : Value.map [kind "x"] ≠ .null)
  obtain ⟨_,_,hdone,hindex,_⟩ := hrest s
  obtain ⟨hframe,hdocs⟩ := hdone 7 t h
  have hnone : ∀ i, ¬ t.Selects (.map [kind "x"]) i := matching_eq_nil_iff.mp rfl
  exact ⟨hp, h, hframe, (hdocs 2 _ rfl).1 rfl, (hdocs 1 _ rfl).2 rfl, (hindex 0 7).trans h, (hrest t).1 hnone 0⟩

end LayeredConfig.Session
