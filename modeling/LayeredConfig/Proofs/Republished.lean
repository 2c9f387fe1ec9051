import LayeredConfig.Proofs.Appending
import LayeredConfig.Proofs.Chains
import LayeredConfig.Proofs.Decoders
import LayeredConfig.Proofs.Encoding
import LayeredConfig.Proofs.Ingredients
import LayeredConfig.Proofs.Plain
import LayeredConfig.Proofs.Replay

/-! # Outputs as documents

What a session puts out can be taken as the documents of another session, which then puts out the same.
Decoders and patches bring in numbers in canonical form only, and merges and evaluations keep to them; so
the canonical form of an output differs from it at most where a map looks like a date. Evaluation, selection
and check have nothing left to do on a value that has passed them once.
-/
namespace LayeredConfig
variable {v w : Value} {fields : Fields} {vs : List Value}

namespace Value

def CanonicalLeaf (v : Value) : Prop := v.canonical = v

abbrev CanonicalLeaves (v : Value) : Prop := v.MadeOf CanonicalLeaf fun _ _ => True

theorem canonicalLeaves_canonical : v.canonical.CanonicalLeaves := by
  induction v with
  | list items ih =>
    rw [canonical, canonicalItems_eq_map]
    refine madeOf_list.mpr ?_
    intro w hw
    obtain ⟨v,hv,rfl⟩ := List.mem_map.mp hw
    exact ih v hv
  | map fields ih =>
    rcases @canonical_map fields with hc | ⟨text,_,hc⟩
    · rw [hc, canonicalFields_eq_map]
      refine madeOf_map.mpr ?_
      intro key w hw
      obtain ⟨⟨l,v⟩,hv,he⟩ := List.mem_map.mp hw
      cases he
      exact ⟨trivial, ih l v hv⟩
    · rw [hc]
      exact madeOf_of_isLeaf rfl rfl
  | number n => exact madeOf_of_isLeaf rfl (congrArg number n.canonical_canonical)
  | _ => exact madeOf_of_isLeaf rfl rfl

/-- Without the key of dates, a value whose numbers are in canonical form is. -/
theorem canonical_eq_self (h : v.MadeOf CanonicalLeaf fun key _ => key ≠ datetimeKey) :
    v.canonical = v := by
  induction v with
  | list items ih =>
    have hitems := madeOf_list.mp h
    rw [canonical, canonicalItems_eq_map, List.map_congr_left fun v hv => ih v hv (hitems v hv), List.map_id']
  | map fields ih =>
    have hfields := madeOf_map.mp h
    rcases @canonical_map fields with hc | ⟨text,rfl,_⟩
    · have hself : ∀ p ∈ fields, (fun p : String × Value => (p.1, p.2.canonical)) p = p :=
        fun p hp => Prod.ext rfl (ih p.1 p.2 hp (hfields p.1 p.2 hp).2)
      rw [hc, canonicalFields_eq_map, List.map_congr_left hself, List.map_id']
    · exact absurd rfl (hfields _ _ List.mem_cons_self).1
  | _ => exact h.leaf _ .refl rfl

structure Sound (v : Value) : Prop where
  ordered : v.Ordered
  leaves : v.CanonicalLeaves

theorem Ordered.sound_canonical (h : v.Ordered) : v.canonical.Sound := ⟨h.canonical, canonicalLeaves_canonical⟩

theorem IsDecoded.sound (h : v.IsDecoded) : v.Sound := by
  obtain ⟨u,hu,rfl⟩ := h
  exact hu.sound_canonical

theorem Sound.erase {key : String} (h : (map fields).Sound) : (map (fields.erase key)).Sound :=
  ⟨h.ordered.erase, h.leaves.erase⟩

theorem Sound.splitPattern (h : v.Sound) : (Session.splitPattern v).1.Sound := by
  cases v with
  | map fields => exact h.erase
  | _ => exact h

theorem Sound.withoutParent (h : v.Sound) : (withoutParent v).Sound := by
  cases v with
  | map fields => exact h.erase
  | _ => exact h

end Value

theorem sound_of_loadLayer {files : FileView} {registry : Registry} {path : String} {layer : Layer}
    (hr : registry.Canonicalizes) (h : loadLayer files registry path = .ok layer) :
    ∀ v ∈ layer.documents, v.Sound := by
  obtain ⟨format,hformat,h⟩ := bind_eq_ok_iff.mp h
  obtain ⟨text,_,h⟩ := bind_eq_ok_iff.mp h
  obtain ⟨values,hvalues,h⟩ := bind_eq_ok_iff.mp h
  obtain ⟨parent,_,h⟩ := bind_eq_ok_iff.mp h
  cases h
  intro v hv
  obtain ⟨u,hu,rfl⟩ := List.mem_map.mp hv
  have hformat : format.Canonicalizes := by
    rw [layerFormat] at hformat
    split at hformat
    · exact hr.of_get (withFile_eq_ok_iff.mp hformat)
    · cases hformat
  exact (hformat text values (withFile_eq_ok_iff.mp hvalues) u hu).sound.withoutParent

namespace Session
variable {s : Session} {index : Nat}

/-- The sessions that can be built, those included that are left when a change fails half-way: layers are
loaded with decoders that keep to their contract, and identifiers may be taken for other documents at any
time. -/
inductive Assembled : Session → Prop where
  | empty (registry : Registry) : Assembled (empty registry)
  | patch {s : Session} {v : Value} (index : Nat) : Assembled s → v.Ordered →
      Assembled (perform (applyPatch index v) s).2
  | session {s other : Session} : Assembled s → Assembled other →
      Assembled (perform (mergeSession other) s).2
  | layer {s : Session} {files : FileView} {registry : Registry} {path : String} {layer : Layer} :
      Assembled s → registry.Canonicalizes → loadLayer files registry path = .ok layer →
      Assembled (perform (mergeLayer layer) s).2
  | file {s : Session} (files : FileView) (path : String) : Assembled s → s.registry.Canonicalizes →
      Assembled (perform (mergeFile files path) s).2
  | fileLayers {s : Session} (files : FileView) (path : String) : Assembled s → s.registry.Canonicalizes →
      Assembled (perform (mergeFileLayers files path) s).2
  | taken {s : Session} (count : Nat) : Assembled s → Assembled { s with nextId := s.nextId + count }

def Sound (s : Session) : Prop := ∀ d ∈ s.documents, d.data.Sound

theorem sound_mergeClosed : MergeClosed Value.Sound where
  null := ⟨trivial, Value.madeOf_of_isLeaf rfl rfl⟩
  merge hd hp hm := ⟨mergeAt_ordered hd.ordered hp.ordered hm, hd.leaves.mergeAt hp.leaves hm⟩

theorem keeps_sound_applyPatch (hv : v.Ordered) : Keeps Sound (applyPatch index v) :=
  sound_mergeClosed.keeps_apply hv.sound_canonical.splitPattern

theorem keeps_sound_mergeSession {other : Session} (ho : other.Sound) : Keeps Sound (mergeSession other) :=
  sound_mergeClosed.keeps_mergeSession fun d hd => (ho d hd).splitPattern

theorem keeps_sound_mergeDocuments {path : String} {documents : List Document}
    (h : ∀ d ∈ documents, d.data.Sound) : Keeps Sound (mergeDocuments path documents) :=
  sound_mergeClosed.keeps_mergeDocuments fun d hd => (h d hd).splitPattern

theorem mem_numberedLayers {layers : List Layer} {first : DocumentId} {path : String}
    {documents : List Document} {d : Document} (h : (path, documents) ∈ numberedLayers first layers)
    (hd : d ∈ documents) : ∃ layer ∈ layers, d.data ∈ layer.documents := by
  induction layers with
  | nil => cases h
  | cons layer rest ih =>
    rcases List.mem_cons.mp h with he | h
    · cases he
      obtain ⟨⟨v,id⟩,hv,rfl⟩ := List.mem_map.mp hd
      exact ⟨layer, List.mem_cons_self, List.fst_mem_of_mem_zipIdx hv⟩
    · obtain ⟨other,ho,hd⟩ := ih h
      exact ⟨other, List.mem_cons_of_mem _ ho, hd⟩

theorem keeps_sound_mergeLayers {layers : List Layer}
    (h : ∀ layer ∈ layers, ∀ v ∈ layer.documents, v.Sound) : Keeps Sound (mergeLayers layers) := by
  have htake : Keeps Sound (takeIds (documentCount layers)) := fun _ hs => hs
  refine htake.bind fun first => .forM ?_
  rintro ⟨path,documents⟩ hp
  refine keeps_sound_mergeDocuments ?_
  intro d hd
  obtain ⟨layer,hlayer,hd⟩ := mem_numberedLayers hp hd
  exact h layer hlayer d.data hd

theorem keeps_sound_mergeLayer {files : FileView} {registry : Registry} {path : String} {layer : Layer}
    (hr : registry.Canonicalizes) (h : loadLayer files registry path = .ok layer) :
    Keeps Sound (mergeLayer layer) :=
  keeps_sound_mergeLayers (List.forall_mem_singleton.mpr (sound_of_loadLayer hr h))

theorem Assembled.sound (h : s.Assembled) : s.Sound := by
  induction h with
  | empty => exact fun d hd => nomatch hd
  | patch index _ hv ih => exact keeps_sound_applyPatch hv _ ih
  | session _ _ ih iho => exact keeps_sound_mergeSession iho _ ih
  | layer _ hr hlayer ih => exact keeps_sound_mergeLayer hr hlayer _ ih
  | @file s files path _ hr ih =>
    simp only [mergeFile, perform_bind, perform_get, perform_mk_pure]
    cases hload : loadLayer files s.registry path with
    | error e => exact ih
    | ok layer => exact keeps_sound_mergeLayer hr hload _ ih
  | @fileLayers s files path _ hr ih =>
    simp only [mergeFileLayers, perform_bind, perform_get, perform_mk_pure]
    cases hload : loadChain files s.registry path with
    | error e => exact ih
    | ok layers =>
      have hlayers : ∀ layer ∈ layers, ∀ v ∈ layer.documents, v.Sound :=
        fun layer hl => sound_of_loadLayer hr (loadLayer_of_loadChain hload layer hl)
      exact keeps_sound_mergeLayers hlayers _ ih
  | taken _ _ ih => exact ih

end Session

namespace Value

theorem Finished.settled (h : v.Finished) : v.Settled :=
  ⟨fun d _ => h.directive d, fun w hw => absurd hw (h.directive .output w)⟩

theorem Finished.outputs (h : v.Finished) : v.outputs = [v] :=
  if_neg fun hs => h.directive .output _ (holdsField_of_hasSelection hs)

/-- In a settled value nothing but the mark itself stands under the mark for output. -/
theorem Settled.depth_le_of_inside (h : v.Settled) (hw : w.Inside v) : w.depth ≤ v.depth := by
  induction hw with
  | refl => exact Nat.le_refl _
  | @item u items hu _ ih =>
    have hlt := depth_list_le_iff.mp (Nat.le_refl _) u hu
    exact Nat.le_trans (ih (h.inside (.item hu .refl))) (Nat.le_of_lt hlt)
  | @field key u fields hu _ ih =>
    have hle := ih (h.inside (.field hu .refl))
    by_cases hk : key = Directive.output.key
    · subst hk
      cases h.output u (HoldsField.map_iff.mpr (Or.inl hu))
      exact Nat.le_trans hle (Nat.zero_le _)
    · have hlt := depth_map_le_iff.mp (Nat.le_refl _) key u hu hk
      exact Nat.le_trans hle (Nat.le_of_lt hlt)

theorem depth_erase_le {key : String} : (map (fields.erase key)).depth ≤ (map fields).depth :=
  depth_map_le_iff.mpr fun k w hw hk => depth_map_le_iff.mp (Nat.le_refl _) k w (Fields.mem_erase hw) hk

/-- What a whole pass over a document leaves, so that another pass leaves it as it is. -/
structure Stable (v : Value) : Prop where
  ordered : v.Ordered
  finished : v.Finished
  literal : v.Literal
  depth : v.depth ≤ depthLimit
  canonical : v.canonical = v

end Value

namespace Session
variable {s t : Session} {index count : Nat} {outputs : List Value}

theorem checkAll_eq_ok_iff : checkAll vs = .ok () ↔ ∀ v ∈ vs, v.Finished := by
  induction vs with
  | nil => simp [checkAll]
  | cons v rest ih =>
    have hv : v.checkFinished = .ok () ↔ v.Finished := Value.checkAt_eq_ok_iff
    rw [checkAll, bind_eq_ok_iff, List.forall_mem_cons, ← ih, ← hv]
    exact ⟨fun ⟨_,hc,hr⟩ => ⟨hc, hr⟩, fun ⟨hc,hr⟩ => ⟨_, hc, hr⟩⟩

theorem outputsAt_of_stable (hd : s.document index = .ok v) (hv : v.Stable) :
    s.outputsAt index = .ok [v] := by
  have he : (s.scope v).evaluate v = .ok (some v) :=
    Scope.evaluateWithin_of_plain hv.ordered hv.finished.settled hv.literal (Nat.lt_succ_of_le hv.depth)
  have hcheck : checkAll [v] = .ok () := checkAll_eq_ok_iff.mpr (List.forall_mem_singleton.mpr hv.finished)
  refine bind_eq_ok_iff.mpr ⟨v, hd, labelled_eq_ok_iff.mpr (bind_eq_ok_iff.mpr ⟨some v, he, ?_⟩)⟩
  simp only [hv.finished.outputs, hcheck]
  rfl

theorem collect_eq_self {α : Type} {f : Nat → Except Error (List α)} {xs : List α}
    (h : ∀ i x, xs[i]? = some x → f (index + i) = .ok [x]) : collect f index xs.length = .ok xs := by
  induction xs generalizing index with
  | nil => rfl
  | cons x rest ih =>
    have hrest : collect f (index + 1) rest.length = .ok rest := by
      refine ih ?_
      intro i y hy
      rw [Nat.add_right_comm]
      exact h (i + 1) y hy
    have hx : f index = .ok [x] := h 0 x rfl
    rw [List.length_cons, collect, hx, hrest]
    rfl

theorem mem_of_collect {α : Type} {f : Nat → Except Error (List α)} {xs : List α} {x : α}
    (h : collect f index count = .ok xs) (hx : x ∈ xs) : ∃ i ys, f i = .ok ys ∧ x ∈ ys := by
  induction count generalizing index xs with
  | zero =>
    cases h
    cases hx
  | succ count ih =>
    obtain ⟨ys,hys,h⟩ := bind_eq_ok_iff.mp h
    obtain ⟨rest,hrest,h⟩ := bind_eq_ok_iff.mp h
    cases h
    rcases List.mem_append.mp hx with hx | hx
    · exact ⟨index, ys, hys, hx⟩
    · exact ih hrest hx

/-- A session of such documents puts out these documents. -/
theorem outputs_of_stable (h : ∀ v ∈ s.values, v.Stable) : s.outputs = .ok s.values := by
  have hlength : s.documents.length = s.values.length := (List.length_map _).symm
  rw [Session.outputs, hlength]
  refine collect_eq_self ?_
  intro i v hv
  rw [Nat.zero_add]
  exact outputsAt_of_stable (document_eq_ok_iff.mpr hv) (h v (List.mem_of_getElem? hv))

/-- Outputs are made of the leaves and the keys of the documents, of the mark for output and of texts. -/
theorem madeOf_of_outputsAt {leaf : Value → Prop} {P : String → Prop}
    (hs : ∀ v ∈ s.values, v.MadeOf leaf fun key _ => P key) (htext : ∀ text, leaf (.string text))
    (hmark : P Directive.output.key ∧ leaf (.bool true)) (h : s.outputsAt index = .ok outputs)
    (hw : w ∈ outputs) : w.MadeOf leaf fun key _ => P key := by
  obtain ⟨root,hroot,h⟩ := bind_eq_ok_iff.mp h
  obtain ⟨o,ho,h⟩ := bind_eq_ok_iff.mp (labelled_eq_ok_iff.mp h)
  have hmem : root ∈ s.values := List.mem_of_getElem? (document_eq_ok_iff.mp hroot)
  cases o with
  | none =>
    cases h
    cases hw
  | some v =>
    obtain ⟨⟨⟩,_,h⟩ := bind_eq_ok_iff.mp h
    cases h
    have hencode : (s.scope root).Encodes leaf := by
      intro format u r _ hr
      obtain ⟨_,text,_,_,rfl⟩ := Scope.encode_eq_ok_iff.mp hr
      exact htext text
    have hmade := Scope.evaluateWithin_madeOf ⟨hs root hmem, hs⟩ hencode hmark (hs root hmem) ho
    exact hmade.outputs hw

theorem stable_of_outputsAt (hs : s.Sound) (hkey : ∀ d ∈ s.documents, ∀ w, ¬ d.data.HoldsField datetimeKey w)
    (h : s.outputsAt index = .ok outputs) (hw : w ∈ outputs) (hl : w.Literal) : w.Stable := by
  have hordered : s.Ordered := fun d hd => (hs d hd).ordered
  have hvalues : ∀ v ∈ s.values, v.MadeOf Value.CanonicalLeaf fun key _ => key ≠ datetimeKey := by
    intro v hv
    obtain ⟨d,hd,rfl⟩ := List.mem_map.mp hv
    refine ⟨(hs d hd).leaves.leaf, ?_⟩
    rintro key u hu rfl
    exact hkey d hd u hu
  have hmade := madeOf_of_outputsAt hvalues (fun _ => rfl) ⟨by decide, rfl⟩ h hw
  obtain ⟨root,hroot,h⟩ := bind_eq_ok_iff.mp h
  obtain ⟨o,ho,h⟩ := bind_eq_ok_iff.mp (labelled_eq_ok_iff.mp h)
  have hrootOrdered := hordered.document hroot
  have hscope := hordered.scope hrootOrdered
  cases o with
  | none =>
    cases h
    cases hw
  | some v =>
    obtain ⟨⟨⟩,hcheck,h⟩ := bind_eq_ok_iff.mp h
    cases h
    have hv : v.Ordered := Scope.evaluateWithin_ordered hscope hrootOrdered ho
    have hsettled : v.Settled := Scope.evaluateWithin_settled hscope hrootOrdered ho
    have hdepth : v.depth ≤ depthLimit := Nat.lt_succ_iff.mp (Scope.depth_lt_of_evaluateWithin ho)
    refine ⟨?_, checkAll_eq_ok_iff.mp hcheck w hw, hl, ?_, Value.canonical_eq_self hmade⟩
    · rcases Value.mem_outputs hw with rfl | ⟨fields,hin,rfl⟩
      · exact hv
      · exact (hv.inside hin).erase
    · rcases Value.mem_outputs hw with rfl | ⟨fields,hin,rfl⟩
      · exact hdepth
      · exact Nat.le_trans Value.depth_erase_le (Nat.le_trans (hsettled.depth_le_of_inside hin) hdepth)

/-- A patch without a pattern that meets the end of a session becomes its next document. -/
theorem perform_applyPatch_next (hcount : s.values.length < maxIndex) (hv : v.Stable) :
    ∃ t, perform (applyPatch s.values.length v) s = (.ok (), t) ∧ t.values = s.values ++ [v] := by
  have hlength : s.values.length = s.documents.length := List.length_map _
  have hpattern : v.hasKey Directive.pattern.key = false := by
    cases v with
    | map fields =>
      refine Value.hasKey_map_eq_false_iff.mpr (Fields.get?_eq_none_iff.mpr ?_)
      intro w hw
      exact hv.finished.directive .pattern w (Value.HoldsField.map_iff.mpr (Or.inl hw))
    | _ => rfl
  have hpatched : s.patchedAt s.values.length v = .ok v := by
    have hnull : s.dataAt s.values.length = .null := by
      rw [dataAt, hlength, List.getElem?_eq_none (Nat.le_refl _)]
      rfl
    rw [patchedAt, if_neg (Nat.not_le.mpr hcount), hnull]
    exact mergeAt_null_left (Nat.zero_le _)
  refine ⟨s.merged s.values.length v none, ?_, ?_⟩
  · rw [applyPatch, hv.canonical, apply, splitPattern_of_hasKey hpattern]
    simp only [perform_applyAt_merged, hpatched]
  · simp [merged, pad, setData, values, List.modify_eq_take_cons_drop]

/-- Merges values one after another, each at its own position. -/
def republish (vs : List Value) : Edit Unit := vs.zipIdx.forM fun (v, i) => applyPatch i v

theorem perform_forM_applyPatch (hv : ∀ v ∈ vs, v.Stable) (hcount : s.values.length + vs.length ≤ maxIndex) :
    ∃ t, perform ((vs.zipIdx s.values.length).forM fun (v, i) => applyPatch i v) s = (.ok (), t) ∧
      t.values = s.values ++ vs := by
  induction vs generalizing s with
  | nil => exact ⟨s, rfl, (List.append_nil _).symm⟩
  | cons v rest ih =>
    obtain ⟨hv,hrest⟩ := List.forall_mem_cons.mp hv
    rw [List.length_cons] at hcount
    obtain ⟨t,ht,htv⟩ := perform_applyPatch_next (s := s) (by omega) hv
    have hlength : t.values.length = s.values.length + 1 := by simp [htv]
    obtain ⟨u,hu,huv⟩ := ih (s := t) hrest (by omega)
    refine ⟨u, ?_, by simp [huv, htv]⟩
    rw [List.zipIdx_cons, List.forM, perform_bind, ht, ← hlength]
    exact hu

/-- The outputs of a session without dates, none of whose strings an encoder wrote as a reference, are the
documents and the outputs of a session that is built of them. -/
theorem outputs_republish (hs : s.Assembled)
    (hkey : ∀ d ∈ s.documents, ∀ w, ¬ d.data.HoldsField datetimeKey w) (h : s.outputs = .ok vs)
    (hl : ∀ v ∈ vs, v.Literal) (hcount : vs.length ≤ maxIndex) (registry : Registry) :
    ∃ t, perform (republish vs) (empty registry) = (.ok (), t) ∧ t.values = vs ∧ t.outputs = .ok vs := by
  have hstable : ∀ v ∈ vs, v.Stable := by
    intro v hv
    obtain ⟨i,outputs,ho,hmem⟩ := mem_of_collect h hv
    exact stable_of_outputsAt hs.sound hkey ho hmem (hl v hv)
  have hempty : (empty registry).values.length + vs.length ≤ maxIndex := by simpa [empty, values] using hcount
  obtain ⟨t,ht,htv⟩ := perform_forM_applyPatch hstable hempty
  have hvalues : t.values = vs := htv
  refine ⟨t, ht, hvalues, ?_⟩
  have houtputs : t.outputs = .ok t.values := outputs_of_stable (by rwa [hvalues])
  rw [houtputs, hvalues]

def portLayer : FileTree where
  entries := [(["base.json"], .file "\x7b\"base\":\x7b\"to\":\"db\"\x7d\x7d".toUTF8)]
  working := []

theorem outputs_republish_selected :
    let port := ("port", Value.number (.integer ⟨80, by decide, by decide⟩))
    let target := ("to", Value.string "db")
    let selected := Value.map [("base", .map [("$output", .bool true)]),
      ("web", .map [("$merge", .string "base"), port])]
    let embedded := Value.map [("$encode", .string "json"), port]
    let loaded := (perform (mergeFile portLayer "base.json") (empty .builtIn)).2
    let s := (perform (applyPatch 2 embedded) (perform (applyPatch 0 selected) loaded).2).2
    let vs := [Value.map [target], .map [port, target], .null, .string "\x7b\"port\":80\x7d"]
    s.Assembled ∧ (∀ d ∈ s.documents, ∀ w, ¬ d.data.HoldsField datetimeKey w) ∧ s.outputs = .ok vs ∧
      (∀ v ∈ vs, v.Literal) ∧
      ∃ t, perform (republish vs) (empty .builtIn) = (.ok (), t) ∧ t.values = vs ∧ t.outputs = .ok vs := by
  intro port target selected embedded loaded s vs
  have hdecoders : (empty Registry.builtIn).registry.Canonicalizes := Registry.onlyBuiltIn_builtIn.canonicalizes
  have hs : s.Assembled :=
    .patch 2 (.patch 0 (.file portLayer "base.json" (.empty _) hdecoders) (by decide)) (by decide)
  let layer : Layer := ⟨"base.json", none, [.map [("base", .map [target])]]⟩
  have hdecode : Json.format.decode "\x7b\"base\":\x7b\"to\":\"db\"\x7d\x7d" = .ok layer.documents := by cbv
  have hload : loadLayer portLayer (empty .builtIn).registry "base.json" = .ok layer :=
    loadLayer_of_decode rfl rfl hdecode rfl
  have hloaded : loaded = (perform (mergeLayer layer) (empty .builtIn)).2 := by
    simp only [loaded, mergeFile, perform_bind, perform_get, perform_mk_pure, hload]
  let data := Value.map [("base", .map [("$output", .bool true), target]),
    ("web", .map [("$merge", .string "base"), port])]
  have hsession : s = ⟨[⟨1, [0], data⟩, ⟨2, [], .null⟩, ⟨3, [], embedded⟩], .builtIn, 4⟩ := by
    simp only [s, hloaded]
    rfl
  have hkey : ∀ d ∈ s.documents, ∀ w, ¬ d.data.HoldsField datetimeKey w := by
    rw [hsession]
    simp [data, embedded, port, target, datetimeKey, Value.HoldsField, Value.inside_iff_mem_parts, Value.parts,
      Value.partsOfFields]
  have ho : s.outputs = .ok vs := by
    rw [hsession]
    rfl
  have hl : ∀ v ∈ vs, v.Literal := by
    simp [vs, port, target, Value.Literal, Directive.IsReference, Value.inside_iff_mem_parts, Value.parts,
      Value.partsOfFields, Directive.stringPrefix, Directive.key]
  exact ⟨hs, hkey, ho, hl, outputs_republish hs hkey ho hl (by decide) .builtIn⟩

end Session
end LayeredConfig
