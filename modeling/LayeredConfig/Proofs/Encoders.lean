import LayeredConfig.Formats
import LayeredConfig.Proofs.Failures
import LayeredConfig.Proofs.Subtrees

/-! # Texts of lists and maps

The text that a built-in format writes for a list or a map is no single word: unless it is empty, a
bracket, a dash, a colon or a line end is in it. In TOML the line end is in every block, so that a text
without it has no block at all.
-/
namespace LayeredConfig
variable {f : Format} {v : Value} {text name : String} {cs : List Char} {fields : Fields}

inductive Format.IsBuiltIn : Format → Prop where
  | json : IsBuiltIn Json.format
  | prettyJson : IsBuiltIn Json.prettyFormat
  | yaml : IsBuiltIn Yaml.format
  | toml : IsBuiltIn Toml.format

def Registry.OnlyBuiltIn (r : Registry) : Prop := ∀ p ∈ r.formats, p.2.IsBuiltIn

theorem Registry.mem_of_get {r : Registry} (h : r.get name = .ok f) : ∃ p ∈ r.formats, p.2 = f := by
  rw [Registry.get] at h
  split at h
  · next hlookup =>
    cases h
    obtain ⟨before,after,hformats,_⟩ := List.lookup_eq_some_iff.mp hlookup
    exact ⟨(name, f), by simp [hformats], rfl⟩
  · cases h

theorem Registry.OnlyBuiltIn.get {r : Registry} (hr : r.OnlyBuiltIn) (h : r.get name = .ok f) :
    f.IsBuiltIn := by
  obtain ⟨p,hp,rfl⟩ := mem_of_get h
  exact hr p hp

theorem Registry.onlyBuiltIn_builtIn : Registry.builtIn.OnlyBuiltIn := by
  have hformats : Registry.builtIn.formats = [("json", Json.format), ("json-pretty", Json.prettyFormat),
      ("toml", Toml.format), ("yaml", Yaml.format), ("yml", Yaml.format)] := by rfl
  rw [OnlyBuiltIn, hformats]
  simp only [List.forall_mem_cons, List.not_mem_nil, false_implies, implies_true, and_true]
  exact ⟨.json, .prettyJson, .toml, .yaml, .yaml⟩

def structureSigns : List Char := ['[', '\x7b', '-', ':', '\n']

/-- Characters that are no single word: there are none, or a sign of a list or a map is among them. -/
def Structured (cs : List Char) : Prop := cs = [] ∨ ∃ c ∈ structureSigns, c ∈ cs

theorem structured_cons {c : Char} (hc : c ∈ structureSigns) : Structured (c :: cs) :=
  Or.inr ⟨c, hc, List.mem_cons_self⟩

theorem Structured.ne_requiredMark (h : Structured text.toList) : text ≠ requiredMark := by
  rintro rfl
  have hmark : requiredMark.toList = ['$', 'r', 'e', 'q', 'u', 'i', 'r', 'e', 'd'] := rfl
  rw [Structured, hmark] at h
  rcases h with h | ⟨c,hc,h⟩
  · cases h
  · simp only [structureSigns, List.mem_cons, List.not_mem_nil, or_false] at hc h
    rcases hc with rfl | rfl | rfl | rfl | rfl <;> revert h <;> decide

namespace Json

theorem compact_structured (h : v.isLeaf = false) : Structured (compact v) := by
  cases v with
  | list items => cases items <;> exact structured_cons (by decide)
  | map fields => rcases fields with _ | ⟨p,rest⟩ <;> exact structured_cons (by decide)
  | _ => cases h

theorem pretty_structured {level : Nat} (h : v.isLeaf = false) : Structured (pretty level v) := by
  cases v with
  | list items => cases items <;> exact structured_cons (by decide)
  | map fields => rcases fields with _ | ⟨p,rest⟩ <;> exact structured_cons (by decide)
  | _ => cases h

end Json

namespace Yaml

theorem colon_mem_blockField {column : Nat} {key : String} : ':' ∈ blockField column key v := by
  unfold blockField
  split <;> simp

theorem block_structured {column : Nat} (h : v.isLeaf = false) : Structured (block column v) := by
  cases v with
  | list items =>
    cases items with
    | nil => exact Or.inr ⟨'[', by decide, by simp [block]⟩
    | cons v rest => exact Or.inr ⟨'-', by decide, by simp [block]⟩
  | map fields =>
    rcases fields with _ | ⟨⟨key,v⟩,rest⟩
    · exact Or.inr ⟨'\x7b', by decide, by simp [block]⟩
    · exact Or.inr ⟨':', by decide, by simp [block, colon_mem_blockField]⟩
  | _ => cases h

theorem text_structured (h : v.isLeaf = false) : Structured (Yaml.text v).toList := by
  cases v with
  | list items => simpa [Yaml.text] using block_structured h
  | map fields => simpa [Yaml.text] using block_structured h
  | _ => cases h

end Yaml

namespace Toml

theorem lineEnd_mem_lines (h : lines fields ≠ []) : '\n' ∈ lines fields := by
  cases hf : fields.filter (!hasBlock ·.2) with
  | nil => simp [lines, hf] at h
  | cons p rest => simp [lines, hf]

theorem lineEnd_mem_mapBlock {path : List String} {b : List Char} (h : b ∈ mapBlock path fields) :
    '\n' ∈ b := by
  rw [mapBlock] at h
  split at h
  · cases h
  · cases List.mem_singleton.mp h
    simp

mutual

theorem lineEnd_mem_fieldBlocks (path : List String) :
    ∀ fields : Fields, ∀ b ∈ fieldBlocks path fields, '\n' ∈ b
  | [], b, h => nomatch h
  | (k, v) :: rest, b, h => by
    rw [fieldBlocks] at h
    rcases List.mem_append.mp h with h | h
    · exact lineEnd_mem_valueBlocks (path ++ [k]) v b h
    · exact lineEnd_mem_fieldBlocks path rest b h

theorem lineEnd_mem_valueBlocks (path : List String) : ∀ v : Value, ∀ b ∈ valueBlocks path v, '\n' ∈ b
  | .map fields, b, h => by
    rw [valueBlocks] at h
    rcases List.mem_append.mp h with h | h
    · exact lineEnd_mem_mapBlock h
    · exact lineEnd_mem_fieldBlocks path fields b h
  | .list items, b, h => by
    rw [valueBlocks] at h
    split at h
    · exact lineEnd_mem_elementBlocks path items b h
    · cases h
  | .null, b, h => nomatch h
  | .bool _, b, h => nomatch h
  | .number _, b, h => nomatch h
  | .string _, b, h => nomatch h

theorem lineEnd_mem_elementBlocks (path : List String) :
    ∀ items : List Value, ∀ b ∈ elementBlocks path items, '\n' ∈ b
  | [], b, h => nomatch h
  | .map fields :: rest, b, h => by
    rw [elementBlocks] at h
    rcases List.mem_cons.mp h with rfl | h
    · simp [elementBlock]
    · rcases List.mem_append.mp h with h | h
      · exact lineEnd_mem_fieldBlocks path fields b h
      · exact lineEnd_mem_elementBlocks path rest b h
  | .list _ :: rest, b, h => lineEnd_mem_elementBlocks path rest b h
  | .null :: rest, b, h => lineEnd_mem_elementBlocks path rest b h
  | .bool _ :: rest, b, h => lineEnd_mem_elementBlocks path rest b h
  | .number _ :: rest, b, h => lineEnd_mem_elementBlocks path rest b h
  | .string _ :: rest, b, h => lineEnd_mem_elementBlocks path rest b h

end

theorem structured_intercalate {blocks : List (List Char)} (h : ∀ b ∈ blocks, '\n' ∈ b) :
    Structured (['\n'].intercalate blocks) := by
  cases blocks with
  | nil => exact Or.inl rfl
  | cons b rest =>
    refine Or.inr ⟨'\n', by decide, ?_⟩
    have hb := h b List.mem_cons_self
    cases rest with
    | nil => simpa [List.intercalate] using hb
    | cons c rest => simp [List.intercalate]

theorem text_structured (h : Toml.text v = .ok text) : Structured text.toList := by
  cases v with
  | map fields =>
    rw [Toml.text] at h
    split at h
    · cases h
    · cases h
      rw [String.toList_ofList]
      refine structured_intercalate ?_
      intro b hb
      rcases List.mem_append.mp hb with hb | hb
      · split at hb
        · cases hb
        · next hlines =>
          cases List.mem_singleton.mp hb
          exact lineEnd_mem_lines (by simpa using hlines)
      · exact lineEnd_mem_fieldBlocks [] fields b hb
  | _ => cases h

end Toml

namespace Format.IsBuiltIn

/-- No built-in format writes the required mark for a list or a map. -/
theorem encode_ne_requiredMark (hf : f.IsBuiltIn) (hv : v.isLeaf = false) (h : f.encode v = .ok text) :
    text ≠ requiredMark := by
  refine Structured.ne_requiredMark ?_
  cases hf with
  | json =>
    cases h
    simpa [Json.text] using Json.compact_structured hv
  | prettyJson =>
    cases h
    simpa [Json.prettyText] using Json.pretty_structured hv
  | yaml =>
    cases h
    exact Yaml.text_structured hv
  | toml =>
    have htext : Toml.encode v = .ok text := h
    rw [Toml.encode] at htext
    split at htext
    · next htoml =>
      cases htext
      exact Toml.text_structured htoml
    · cases htext

theorem encode_failsWith {P : Error → Prop} (hP : ∀ format fault, P (.encode format fault))
    (hf : f.IsBuiltIn) : FailsWith P (f.encode v) := by
  cases hf with
  | toml =>
    have h : FailsWith P (Toml.encode v) := by
      rw [Toml.encode]
      split
      · exact .ok _
      · exact .error (hP _ _)
    exact h
  | _ => exact .ok _

end Format.IsBuiltIn
end LayeredConfig
