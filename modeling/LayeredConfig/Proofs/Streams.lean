import LayeredConfig.Formats
import LayeredConfig.Proofs.Results
import LayeredConfig.Session.Output
import Mathlib.Data.List.Forall2

/-! # Streams and single texts

What a session puts out is encoded as one stream, or one text for each output. The stream is the same texts laid
out one after another when that is what the format does with several documents, and then either both ways
succeed or none does, although they look up the format, evaluate and encode in different orders.
-/
namespace LayeredConfig
variable {encode : Value → Except Error String} {v : Value} {vs ws : List Value} {texts : List String}

theorem encodeAll_cons_eq_ok_iff :
    encodeAll encode (v :: vs) = .ok texts ↔
      ∃ text rest, encode v = .ok text ∧ encodeAll encode vs = .ok rest ∧ text :: rest = texts := by
  simp only [encodeAll, bind_eq_ok_iff, Except.ok.injEq]
  constructor
  · rintro ⟨text,htext,rest,hrest,rfl⟩
    exact ⟨text, rest, htext, hrest, rfl⟩
  · rintro ⟨text,rest,htext,hrest,rfl⟩
    exact ⟨text, htext, rest, hrest, rfl⟩

theorem encodeAll_append_eq_ok_iff :
    encodeAll encode (vs ++ ws) = .ok texts ↔
      ∃ xs ys, encodeAll encode vs = .ok xs ∧ encodeAll encode ws = .ok ys ∧ xs ++ ys = texts := by
  induction vs generalizing texts with
  | nil => simp [encodeAll]
  | cons v rest ih =>
    simp only [List.cons_append, encodeAll_cons_eq_ok_iff, ih]
    constructor
    · rintro ⟨text,_,htext,⟨xs,ys,hxs,hys,rfl⟩,rfl⟩
      exact ⟨text :: xs, ys, ⟨text, xs, htext, hxs, rfl⟩, hys, rfl⟩
    · rintro ⟨_,ys,⟨text,xs,htext,hxs,rfl⟩,hys,rfl⟩
      exact ⟨text, xs ++ ys, htext, ⟨xs, ys, hxs, hys, rfl⟩, rfl⟩

/-- The texts are those of the documents, one for each. -/
theorem encodeAll_eq_ok_iff :
    encodeAll encode vs = .ok texts ↔ List.Forall₂ (fun v text => encode v = .ok text) vs texts := by
  induction vs generalizing texts with
  | nil => simp [encodeAll, eq_comm]
  | cons v rest ih =>
    simp only [encodeAll_cons_eq_ok_iff, ih, List.forall₂_cons_left_iff]
    constructor
    · rintro ⟨text,others,htext,hothers,rfl⟩
      exact ⟨text, others, htext, hothers, rfl⟩
    · rintro ⟨text,others,htext,hothers,rfl⟩
      exact ⟨text, others, htext, hothers, rfl⟩

def Format.LaysOut (f : Format) (layout : List String → String) : Prop :=
  ∀ vs, f.encodeStream vs = layout <$> encodeAll f.encode vs

theorem Format.laysOut_of_total {f : Format} {layout : List String → String} {text : Value → String}
    (he : ∀ v, f.encode v = .ok (text v)) (hs : ∀ vs, f.encodeStream vs = .ok (layout (vs.map text))) :
    f.LaysOut layout := by
  intro vs
  have hall : encodeAll f.encode vs = .ok (vs.map text) := by
    induction vs with
    | nil => rfl
    | cons v rest ih => exact encodeAll_cons_eq_ok_iff.mpr ⟨_, _, he v, ih, rfl⟩
  rw [hs, hall]
  rfl

inductive StreamFormat where
  | json | prettyJson | yaml

namespace StreamFormat

def format : StreamFormat → Format
  | json => Json.format
  | prettyJson => Json.prettyFormat
  | yaml => Yaml.format

def layout : StreamFormat → List String → String
  | json, texts | prettyJson, texts => String.join (texts.map (· ++ "\n"))
  | yaml, texts => "---\n".intercalate texts

def name : StreamFormat → String
  | json => "json"
  | prettyJson => "json-pretty"
  | yaml => "yaml"

theorem get_builtIn (f : StreamFormat) : Registry.builtIn.get f.name = .ok f.format := by
  cases f <;> rfl

theorem stream_eq_layout {text : Value → String} :
    Json.stream text vs = layout json (vs.map text) := by
  rw [layout, List.map_map]
  rfl

theorem laysOut (f : StreamFormat) : f.format.LaysOut f.layout := by
  cases f with
  | json => exact Format.laysOut_of_total (fun _ => rfl) fun _ => congrArg Except.ok stream_eq_layout
  | prettyJson => exact Format.laysOut_of_total (fun _ => rfl) fun _ => congrArg Except.ok stream_eq_layout
  | yaml => exact Format.laysOut_of_total (fun _ => rfl) fun _ => rfl

end StreamFormat

namespace Session
variable {s : Session} {f : Format} {name : String} {index out count : Nat} {layout : List String → String}

/-- The label of a failure makes no difference to what is encoded. -/
theorem encodeEach_eq_ok_iff : encodeEach f index out vs = .ok texts ↔ encodeAll f.encode vs = .ok texts := by
  induction vs generalizing out texts with
  | nil => rfl
  | cons v rest ih => simp only [encodeEach, encodeAll, bind_eq_ok_iff, labelled_eq_ok_iff, ih]

theorem textsAt_eq_ok_iff (hf : s.registry.get name = .ok f) :
    s.textsAt name index = .ok texts ↔
      ∃ values, s.outputsAt index = .ok values ∧ encodeAll f.encode values = .ok texts := by
  simp only [textsAt, hf, bind_eq_ok_iff, Except.ok.injEq, exists_eq_left', encodeEach_eq_ok_iff]

theorem collect_succ_eq_ok_iff {α : Type} {f : Nat → Except Error (List α)} {xs : List α} :
    collect f index (count + 1) = .ok xs ↔
      ∃ ys zs, f index = .ok ys ∧ collect f (index + 1) count = .ok zs ∧ ys ++ zs = xs := by
  simp only [collect, bind_eq_ok_iff, Except.ok.injEq]
  constructor
  · rintro ⟨ys,hys,zs,hzs,rfl⟩
    exact ⟨ys, zs, hys, hzs, rfl⟩
  · rintro ⟨ys,zs,hys,hzs,rfl⟩
    exact ⟨ys, hys, zs, hzs, rfl⟩

/-- What is collected is the concatenation of what each index gives. -/
theorem parts_of_collect {α : Type} {f : Nat → Except Error (List α)} {xs : List α}
    (h : collect f index count = .ok xs) :
    ∃ parts : List (List α), parts.length = count ∧
      (∀ i part, parts[i]? = some part → f (index + i) = .ok part) ∧ xs = parts.flatten := by
  induction count generalizing index xs with
  | zero =>
    cases h
    exact ⟨[], rfl, nofun, rfl⟩
  | succ count ih =>
    obtain ⟨ys,zs,hys,hzs,rfl⟩ := collect_succ_eq_ok_iff.mp h
    obtain ⟨parts,hlength,hparts,rfl⟩ := ih hzs
    refine ⟨ys :: parts, congrArg (· + 1) hlength, ?_, rfl⟩
    intro i part hi
    cases i with
    | zero =>
      cases hi
      exact hys
    | succ i =>
      have hshift : index + (i + 1) = index + 1 + i := by omega
      rw [hshift]
      exact hparts i part hi

/-- Encoding index by index gives the texts of everything that is put out. -/
theorem collect_textsAt_eq_ok_iff (hf : s.registry.get name = .ok f) :
    collect (s.textsAt name) index count = .ok texts ↔
      ∃ values, collect s.outputsAt index count = .ok values ∧ encodeAll f.encode values = .ok texts := by
  induction count generalizing index texts with
  | zero => simp [collect, encodeAll]
  | succ count ih =>
    simp only [collect_succ_eq_ok_iff, textsAt_eq_ok_iff hf, ih]
    constructor
    · rintro ⟨xs,ys,⟨vs,hvs,hxs⟩,⟨ws,hws,hys⟩,rfl⟩
      exact ⟨vs ++ ws, ⟨vs, ws, hvs, hws, rfl⟩, encodeAll_append_eq_ok_iff.mpr ⟨xs, ys, hxs, hys, rfl⟩⟩
    · rintro ⟨_,⟨vs,ws,hvs,hws,rfl⟩,htexts⟩
      obtain ⟨xs,ys,hxs,hys,rfl⟩ := encodeAll_append_eq_ok_iff.mp htexts
      exact ⟨xs, ys, ⟨vs, hvs, hxs⟩, ⟨ws, hws, hys⟩, rfl⟩

theorem texts_eq_ok_iff (hf : s.registry.get name = .ok f) :
    s.texts name = .ok texts ↔ ∃ values, s.outputs = .ok values ∧ encodeAll f.encode values = .ok texts :=
  collect_textsAt_eq_ok_iff hf

theorem render_eq_ok_iff {text : String} (hf : s.registry.get name = .ok f) (hl : f.LaysOut layout) :
    s.render name = .ok text ↔ ∃ texts, s.texts name = .ok texts ∧ layout texts = text := by
  simp only [render, hf, bind_eq_ok_iff, Except.ok.injEq, exists_eq_left', hl _, map_eq_ok_iff,
    texts_eq_ok_iff hf]
  constructor
  · rintro ⟨values,hvalues,texts,htexts,rfl⟩
    exact ⟨texts, ⟨values, hvalues, htexts⟩, rfl⟩
  · rintro ⟨texts,⟨values,hvalues,htexts⟩,rfl⟩
    exact ⟨values, hvalues, texts, htexts, rfl⟩

/-- The format is looked up for every document, so never when there are none. -/
theorem get_of_texts (h : s.texts name = .ok texts) (hne : s.documents ≠ []) : ∃ f, s.registry.get name = .ok f := by
  obtain ⟨count,hcount⟩ : ∃ count, s.documents.length = count + 1 :=
    Nat.exists_eq_succ_of_ne_zero fun hzero => hne (List.length_eq_zero_iff.mp hzero)
  rw [Session.texts, hcount] at h
  obtain ⟨_,_,htexts,_⟩ := collect_succ_eq_ok_iff.mp h
  obtain ⟨f,hf,_⟩ := bind_eq_ok_iff.mp htexts
  exact ⟨f, hf⟩

theorem get_of_render {text : String} (h : s.render name = .ok text) : ∃ f, s.registry.get name = .ok f := by
  obtain ⟨_,_,hrest⟩ := bind_eq_ok_iff.mp h
  obtain ⟨f,hf,_⟩ := bind_eq_ok_iff.mp hrest
  exact ⟨f, hf⟩

/-- In JSON and YAML the stream and the single texts agree: both succeed or none does, the texts are those of all
indices in order, one for each output, and the stream is these texts laid out. A session without documents has to
know the format, as it would notice only for the stream that it does not. -/
theorem render_agrees {f : StreamFormat} (hf : ∀ g, s.registry.get name = .ok g → g = f.format)
    (hknown : s.documents = [] → ∃ g, s.registry.get name = .ok g) :
    ((∃ text, s.render name = .ok text) ↔ ∃ texts, s.texts name = .ok texts) ∧
      ∀ texts, s.texts name = .ok texts →
        (∃ parts : List (List String), parts.length = s.documents.length ∧
          (∀ i part, parts[i]? = some part → s.textsAt name i = .ok part) ∧ texts = parts.flatten) ∧
        (∃ values, s.outputs = .ok values ∧
          List.Forall₂ (fun v text => f.format.encode v = .ok text) values texts) ∧
        s.render name = .ok (f.layout texts) := by
  have hget : ∀ texts, s.texts name = .ok texts → s.registry.get name = .ok f.format := by
    intro texts htexts
    obtain ⟨g,hg⟩ : ∃ g, s.registry.get name = .ok g := by
      by_cases hnone : s.documents = []
      · exact hknown hnone
      · exact get_of_texts htexts hnone
    rw [hg, hf g hg]
  refine ⟨⟨?_, ?_⟩, ?_⟩
  · rintro ⟨text,htext⟩
    obtain ⟨g,hg⟩ := get_of_render htext
    rw [hf g hg] at hg
    obtain ⟨texts,htexts,_⟩ := (render_eq_ok_iff hg f.laysOut).mp htext
    exact ⟨texts, htexts⟩
  · rintro ⟨texts,htexts⟩
    exact ⟨f.layout texts, (render_eq_ok_iff (hget texts htexts) f.laysOut).mpr ⟨texts, htexts, rfl⟩⟩
  · intro texts htexts
    refine ⟨?_, ?_, (render_eq_ok_iff (hget texts htexts) f.laysOut).mpr ⟨texts, htexts, rfl⟩⟩
    · obtain ⟨parts,hlength,hparts,he⟩ := parts_of_collect htexts
      refine ⟨parts, hlength, ?_, he⟩
      intro i part hi
      have hpart := hparts i part hi
      rwa [Nat.zero_add] at hpart
    · obtain ⟨values,hvalues,hencode⟩ := (texts_eq_ok_iff (hget texts htexts)).mp htexts
      exact ⟨values, hvalues, encodeAll_eq_ok_iff.mp hencode⟩

theorem render_agrees_yaml :
    let one := Value.number (.integer ⟨1, by decide, by decide⟩)
    let selected := Value.map [("job", .map [("$output", .bool true), ("x", one)]), ("name", .string "n"),
      ("web", .map [("$output", .bool true), ("x", .string "$replace:name")])]
    let s : Session := ⟨[⟨0, [], selected⟩, ⟨1, [], .map [("$output", .bool false)]⟩,
      ⟨2, [], .map [("x", .null)]⟩], .builtIn, 3⟩
    s.registry.get "yaml" = .ok StreamFormat.yaml.format ∧
      s.texts "yaml" = .ok ["x: 1\n", "x: n\n", "x: null\n"] ∧
      s.render "yaml" = .ok "x: 1\n---\nx: n\n---\nx: null\n" := by
  intro one selected s
  have hf : s.registry.get "yaml" = .ok StreamFormat.yaml.format := StreamFormat.get_builtIn .yaml
  have ho : s.outputs = .ok [.map [("x", one)], .map [("x", .string "n")], .map [("x", .null)]] := by rfl
  have hone : Yaml.text (.map [("x", one)]) = "x: 1\n" := by
    simp only [one, Yaml.text, Yaml.block, Yaml.blockField, Yaml.blockFields]
    rfl
  have hname : Yaml.text (.map [("x", .string "n")]) = "x: n\n" := by
    simp only [Yaml.text, Yaml.block, Yaml.blockField, Yaml.blockFields]
    rfl
  have hnull : Yaml.text (.map [("x", .null)]) = "x: null\n" := by
    simp only [Yaml.text, Yaml.block, Yaml.blockField, Yaml.blockFields]
    rfl
  have htexts : s.texts "yaml" = .ok ["x: 1\n", "x: n\n", "x: null\n"] := by
    refine (texts_eq_ok_iff hf).mpr ⟨_, ho, encodeAll_eq_ok_iff.mpr ?_⟩
    exact .cons (congrArg _ hone) (.cons (congrArg _ hname) (.cons (congrArg _ hnull) .nil))
  have hagrees := render_agrees (fun g hg => Except.ok.inj (hg.symm.trans hf)) fun _ => ⟨_, hf⟩
  exact ⟨hf, htexts, (hagrees.2 _ htexts).2.2⟩

/-- Without documents there is nothing to encode, in an unknown format either, but there is no stream of it. -/
theorem not_rendered_of_unknown :
    let s : Session := ⟨[], .empty, 0⟩
    s.texts "json" = .ok [] ∧ s.outputs = .ok [] ∧ ∀ text, s.render "json" ≠ .ok text := by
  intro s
  refine ⟨rfl, rfl, ?_⟩
  intro text h
  cases h

end Session
end LayeredConfig
