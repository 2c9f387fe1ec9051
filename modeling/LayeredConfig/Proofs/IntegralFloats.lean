import LayeredConfig.Proofs.Numbers
import LayeredConfig.Proofs.Republished

/-! # No integers among the floats

A pattern tells a float from an integer, even if both denote one number. So a session must hold an integer that
fits a word in one way only, and never as a float. Patches and decoders bring in no such float; merges and
evaluations, which do not look at numbers, move leaves from one place to another.
-/
namespace LayeredConfig
variable {v w : Value} {index : Nat} {vs : List Value}

namespace Value

def WithoutIntegralFloats (v : Value) : Prop :=
  ∀ x : Binary64, (number (.float x)).Inside v → ∀ k : ℤ, -2 ^ 63 ≤ k → k < 2 ^ 64 → x.toRat ≠ k

theorem CanonicalLeaves.toRat_ne (h : v.CanonicalLeaves) : v.WithoutIntegralFloats := by
  intro x hx k hlow hhigh hk
  have hself : (number (.float x)).canonical = number (.float x) := h.leaf _ hx rfl
  have hinteger : (Number.float x).canonical = .integer ⟨k, by simpa using hlow, by simpa using hhigh⟩ :=
    Number.canonical_eq_integer_iff.mpr hk
  rw [canonical, hinteger] at hself
  cases hself

end Value

namespace Session
variable {s : Session} {layer : Layer}

/-- The sessions that are built of patches, of such sessions and of layers that a built-in decoder read, those
included that are left when a merge fails half-way. A layer was loaded from any files at any time, so its
documents may have any identifiers. The formats of the session itself are not restricted: what they write into
an output are strings. -/
inductive Built : Session → Prop where
  | empty (registry : Registry) : Built (empty registry)
  | patch {s : Session} {v : Value} (index : Nat) : Built s → v.Ordered →
      Built (perform (applyPatch index v) s).2
  | session {s other : Session} : Built s → Built other → Built (perform (mergeSession other) s).2
  | layer {s : Session} {files : FileView} {registry : Registry} {path : String} {layer : Layer}
      {documents : List Document} : Built s → registry.OnlyBuiltIn →
      loadLayer files registry path = .ok layer → documents.map (·.data) = layer.documents →
      Built (perform (mergeDocuments layer.path documents) s).2
  | taken {s : Session} (count : Nat) : Built s → Built { s with nextId := s.nextId + count }

theorem perform_mergeLayer : perform (mergeLayer layer) s =
    perform (mergeDocuments layer.path (numbered s.nextId layer))
      { s with nextId := s.nextId + documentCount [layer] } := by
  have hnone : documentCount [] = 0 := rfl
  simp only [mergeLayer, mergeLayers, takeIds, perform_bind, perform_get, perform_set, perform_pure,
    numberedLayers, hnone, Nat.add_zero, List.forM]
  rcases perform (mergeDocuments layer.path (numbered s.nextId layer)) _ with ⟨_ | _, t⟩ <;> rfl

/-- A layer may be merged as soon as it is loaded. -/
theorem Built.mergeLayer {files : FileView} {registry : Registry} {path : String} (hs : s.Built)
    (hr : registry.OnlyBuiltIn) (h : loadLayer files registry path = .ok layer) :
    Built (perform (mergeLayer layer) s).2 := by
  have hdata : (numbered s.nextId layer).map (·.data) = layer.documents := by
    rw [numbered, List.map_map]
    exact List.zipIdx_map_fst s.nextId layer.documents
  rw [perform_mergeLayer]
  exact .layer (.taken _ hs) hr h hdata

theorem Built.sound (h : s.Built) : s.Sound := by
  induction h with
  | empty => exact fun d hd => nomatch hd
  | patch index _ hv ih => exact keeps_sound_applyPatch hv _ ih
  | session _ _ ih iho => exact keeps_sound_mergeSession iho _ ih
  | @layer _ _ _ _ layer documents _ hr hload hdocuments ih =>
    have hsound : ∀ d ∈ documents, d.data.Sound := by
      intro d hd
      refine sound_of_loadLayer hr.canonicalizes hload d.data ?_
      rw [← hdocuments]
      exact List.mem_map_of_mem hd
    exact keeps_sound_mergeDocuments hsound _ ih
  | taken _ _ ih => exact ih

theorem canonicalLeaves_of_outputsAt (hs : s.Sound) (h : s.outputsAt index = .ok vs) (hw : w ∈ vs) :
    w.CanonicalLeaves := by
  have hvalues : ∀ v ∈ s.values, v.CanonicalLeaves := by
    intro v hv
    obtain ⟨d,hd,rfl⟩ := List.mem_map.mp hv
    exact (hs d hd).leaves
  exact madeOf_of_outputsAt hvalues (fun _ => rfl) ⟨trivial, rfl⟩ h hw

/-- Neither the documents nor the outputs of a session hold a float that denotes an integer which fits a word. -/
theorem Built.withoutIntegralFloats (hs : s.Built) :
    (∀ d ∈ s.documents, d.data.WithoutIntegralFloats) ∧
      ∀ index vs, s.outputsAt index = .ok vs → ∀ w ∈ vs, w.WithoutIntegralFloats := by
  refine ⟨fun d hd => (hs.sound d hd).leaves.toRat_ne, ?_⟩
  intro index vs h w hw
  exact (canonicalLeaves_of_outputsAt hs.sound h hw).toRat_ne

def hostFile : FileTree where
  entries := [(["web.json"], .file "\x7b\"host\":\"db\"\x7d".toUTF8)]
  working := []

def portFloat : Binary64 := ⟨false, 8080 * Nat.pow 2 40, 1034, by decide, by decide, by decide⟩

def halfFloat : Binary64 := ⟨false, Nat.pow 2 52, 1021, by decide, by decide, by decide⟩

theorem withoutIntegralFloats_matched :
    let host := ("host", Value.string "db")
    let port := ("port", Value.number (.integer ⟨8080, by decide, by decide⟩))
    let float := ("port", Value.number (.float portFloat))
    let ratio := ("ratio", Value.number (.float halfFloat))
    let patch := Value.map [("$match", .map [float]), ratio]
    let layer : Layer := ⟨"web.json", none, [.map [host]]⟩
    let loaded := (perform (mergeLayer layer) (empty .builtIn)).2
    let s := (perform (applyPatch 9 patch) (perform (applyPatch 0 (.map [float])) loaded).2).2
    let v := Value.map [host, port, ratio]
    s.Built ∧ s.values = [v] ∧ s.outputsAt 0 = .ok [v] ∧ ¬ (Value.map [float]).WithoutIntegralFloats ∧
      (∀ d ∈ s.documents, d.data.WithoutIntegralFloats) ∧ v.WithoutIntegralFloats := by
  intro host port float ratio patch layer loaded s v
  have hdecode : Json.format.decode "\x7b\"host\":\"db\"\x7d" = .ok layer.documents := by cbv
  have hload : loadLayer hostFile .builtIn "web.json" = .ok layer := loadLayer_of_decode rfl rfl hdecode rfl
  have hs : s.Built :=
    .patch 9 (.patch 0 ((Built.empty _).mergeLayer Registry.onlyBuiltIn_builtIn hload) (by decide)) (by decide)
  have hport : (Number.float portFloat).canonical = .integer ⟨8080, by decide, by decide⟩ := by decide +kernel
  have hratio : (Number.float halfFloat).canonical = .float halfFloat := by decide +kernel
  have hfirst : (Value.map [float]).canonical = .map [port] := by
    simp [float, port, Value.canonical, Value.canonicalFields, hport]
  have hsecond : patch.canonical = .map [("$match", .map [port]), ratio] := by
    simp [patch, port, ratio, float, Value.canonical, Value.canonicalFields, hport, hratio]
  have hsession : s = ⟨[⟨1, [0], v⟩], .builtIn, 2⟩ := by
    simp only [s, applyPatch, hfirst, hsecond]
    rfl
  have hvalues : s.values = [v] := by
    rw [hsession]
    rfl
  have ho : s.outputsAt 0 = .ok [v] := by
    rw [hsession]
    rfl
  have hfloat : ¬ (Value.map [float]).WithoutIntegralFloats := fun h =>
    h portFloat (.field List.mem_cons_self .refl) 8080 (by norm_num) (by norm_num)
      (Number.canonical_eq_integer_iff.mp hport)
  obtain ⟨hdocuments,houtputs⟩ := hs.withoutIntegralFloats
  exact ⟨hs, hvalues, ho, hfloat, hdocuments, houtputs 0 _ ho v List.mem_cons_self⟩

end Session
end LayeredConfig
