import LayeredConfig.Proofs.FileNames
import LayeredConfig.Tool.Wrapper

/-! # The names of links

A link to the wrapper has the name of a tool with a suffix after it. Of its file name the stem alone is read, so that
a tool is recognised exactly when there is no dot in its name, or only one in the first place. The last part of any
other name counts as an extension, and the suffix is lost with it.
-/
namespace LayeredConfig.Tool
variable {program directory tool : String} {args : List String}

theorem linkedTool?_eq_some_iff :
    linkedTool? program = some tool ↔ tool ≠ "" ∧ Path.stem? program = some (tool.toList ++ linkSuffix) := by
  have hne : ∀ {s : String}, s ≠ "" ↔ 0 < s.toList.length := by
    intro s
    rw [List.length_pos_iff, Ne, Ne, String.toList_eq_nil_iff]
  rw [linkedTool?, Option.bind_eq_some_iff]
  constructor
  · rintro ⟨stem,hstem,h⟩
    dsimp only at h
    split at h
    · next hlink =>
      obtain ⟨⟨before,rfl⟩,hlength⟩ := hlink.imp_left List.isSuffixOf_iff_suffix.mp
      cases h
      rw [List.length_append, Nat.add_sub_cancel] at hlength ⊢
      rw [List.take_left, hne, String.toList_ofList]
      exact ⟨hlength, hstem⟩
    · cases h
  · rintro ⟨htool,hstem⟩
    refine ⟨_, hstem, ?_⟩
    rw [hne] at htool
    simp only [List.length_append, Nat.add_sub_cancel, List.isSuffixOf_iff_suffix, List.suffix_append, htool,
      true_and, ↓reduceIte, List.take_left, String.ofList_toList]

/-- A link that stands in a directory is the file name of its path. -/
theorem fileName?_link (hdirectory : directory = "" ∨ directory.toList.getLast? = some '/') (htool : tool ≠ "")
    (hslash : '/' ∉ tool.toList) :
    Path.fileName? (directory ++ tool ++ "-strata") = some (tool.toList ++ linkSuffix) := by
  have hname : '/' ∉ tool.toList ++ linkSuffix := by
    rw [List.mem_append, not_or]
    exact ⟨hslash, by decide⟩
  have hpieces : ∃ first, Path.pieces (directory ++ tool ++ "-strata").toList = first ++ [tool.toList ++ linkSuffix] := by
    rw [String.toList_append, String.toList_append, List.append_assoc]
    rcases hdirectory with rfl | hlast
    · exact ⟨[], Path.pieces_of_notMem hname⟩
    · obtain ⟨cs,hcs⟩ := List.getLast?_eq_some_iff.mp hlast
      refine ⟨Path.pieces cs, ?_⟩
      rw [hcs, List.append_assoc, List.singleton_append, Path.pieces_append]
      exact congrArg _ (Path.pieces_of_notMem hname)
  obtain ⟨first,hpieces⟩ := hpieces
  obtain ⟨c,cs,hc⟩ := List.exists_cons_of_ne_nil (mt String.toList_eq_nil_iff.mp htool)
  refine Path.fileName?_eq_some_iff.mpr ⟨first, [], hpieces, nofun, ?_, ?_⟩
  · simp [hc, Path.isVoid, linkSuffix]
  · intro hup
    simpa [hc, linkSuffix] using congrArg List.length hup

/-- A name with a dot after its first character has a last dot, and something stands before it. -/
theorem exists_parts_of_dot {name : List Char} (h : '.' ∈ name.tail) :
    ∃ base part, name = base ++ '.' :: part ∧ base ≠ [] ∧ '.' ∉ part := by
  cases hsplit : Path.splitDot name with
  | none => exact absurd (List.mem_of_mem_tail h) (Path.splitDot_eq_none_iff.mp hsplit)
  | some parts =>
    obtain ⟨base,part⟩ := parts
    obtain ⟨hname,hpart⟩ := Path.splitDot_eq_some_iff.mp hsplit
    refine ⟨base, part, hname, ?_, hpart⟩
    rintro rfl
    rw [hname] at h
    exact hpart h

theorem splitInvocation_of_stem (args : List String) {stem : List Char} (h : Path.stem? program = some stem) :
    (∀ tool, tool ≠ "" → stem = tool.toList ++ linkSuffix → splitInvocation (program :: args) = .ok (tool, args)) ∧
      ((∀ tool, tool ≠ "" → stem ≠ tool.toList ++ linkSuffix) →
        splitInvocation (program :: args) = match args with
          | [] => .error .missingTool
          | tool :: args => .ok (tool, args)) := by
  constructor
  · rintro tool htool rfl
    rw [splitInvocation, List.headD_cons, linkedTool?_eq_some_iff.mpr ⟨htool, h⟩]
    rfl
  · intro hother
    have hlinked : linkedTool? program = none := by
      rw [Option.eq_none_iff_forall_ne_some]
      intro tool htool
      obtain ⟨hne,hstem⟩ := linkedTool?_eq_some_iff.mp htool
      exact hother tool hne (Option.some.inj (h.symm.trans hstem))
    rw [splitInvocation, List.headD_cons, hlinked]
    cases args <;> rfl

/-- A link that is named for a tool runs this tool, with all arguments, exactly when there is no dot in the name of
the tool after its first character. Of any other name what stands before the last dot is read: it may end in the suffix
itself, and else the first argument names the tool. -/
theorem splitInvocation_link (directory tool : String) (args : List String)
    (hdirectory : directory = "" ∨ directory.toList.getLast? = some '/') (htool : tool ≠ "")
    (hslash : '/' ∉ tool.toList) :
    (splitInvocation ((directory ++ tool ++ "-strata") :: args) = .ok (tool, args) ↔ '.' ∉ tool.toList.tail) ∧
      ∀ base part, tool.toList = base ++ '.' :: part → base ≠ [] → '.' ∉ part →
        (∀ other, other ≠ "" → base = other.toList ++ linkSuffix →
          splitInvocation ((directory ++ tool ++ "-strata") :: args) = .ok (other, args)) ∧
        ((∀ other, other ≠ "" → base ≠ other.toList ++ linkSuffix) →
          splitInvocation ((directory ++ tool ++ "-strata") :: args) = match args with
            | [] => .error .missingTool
            | first :: rest => .ok (first, rest)) := by
  have hfile := fileName?_link hdirectory htool hslash
  have hdotted : ∀ base part, tool.toList = base ++ '.' :: part → base ≠ [] → '.' ∉ part →
      Path.stem? (directory ++ tool ++ "-strata") = some base := by
    intro base part hparts hbase hpart
    rw [hparts, List.append_assoc, List.cons_append] at hfile
    refine Path.stem?_of_dot hfile hbase ?_
    rw [List.mem_append, not_or]
    exact ⟨hpart, by decide⟩
  refine ⟨⟨?_, ?_⟩, fun base part hparts hbase hpart =>
    splitInvocation_of_stem args (hdotted base part hparts hbase hpart)⟩
  · intro hok hdot
    obtain ⟨base,part,hparts,hbase,hpart⟩ := exists_parts_of_dot hdot
    obtain ⟨hnamed,hunnamed⟩ := splitInvocation_of_stem args (hdotted base part hparts hbase hpart)
    by_cases hother : ∃ other, other ≠ "" ∧ base = other.toList ++ linkSuffix
    · obtain ⟨other,hne,hsuffix⟩ := hother
      -- the other tool is named by less than the whole name
      cases (hnamed other hne hsuffix).symm.trans hok
      have hlength := congrArg List.length (hsuffix ▸ hparts)
      simp only [List.length_append, List.length_cons] at hlength
      omega
    · have hrest := (hunnamed fun other hne hsuffix => hother ⟨other, hne, hsuffix⟩).symm.trans hok
      cases args with
      | nil => cases hrest
      | cons first rest =>
        cases hrest
  · intro hdot
    have htail : '.' ∉ (tool.toList ++ linkSuffix).tail := by
      rw [List.tail_append_of_ne_nil (mt String.toList_eq_nil_iff.mp htool), List.mem_append, not_or]
      exact ⟨hdot, by decide⟩
    exact (splitInvocation_of_stem args (Path.stem?_of_notMem hfile htail)).1 tool htool rfl

/-- The name of the directory has dots, and that of the tool begins with one. -/
theorem splitInvocation_link_hidden :
    let directory := "./opt/v1.2/"
    let tool := ".jq-strata"
    (directory = "" ∨ directory.toList.getLast? = some '/') ∧ tool ≠ "" ∧ '/' ∉ tool.toList ∧
      '.' ∉ tool.toList.tail ∧
      splitInvocation ["./opt/v1.2/.jq-strata-strata", ".", "app.yaml"] = .ok (tool, [".", "app.yaml"]) := by
  intro directory tool
  have hdirectory : directory = "" ∨ directory.toList.getLast? = some '/' := by decide
  have htool : tool ≠ "" := by decide
  have hslash : '/' ∉ tool.toList := by decide
  have hdot : '.' ∉ tool.toList.tail := by decide
  exact ⟨hdirectory, htool, hslash, hdot,
    (splitInvocation_link directory tool [".", "app.yaml"] hdirectory htool hslash).1.mpr hdot⟩

/-- A tool with a dot in its name is not recognised: the first argument is run in its place. -/
theorem not_linked_of_dot :
    splitInvocation ["/usr/bin/python3.11-strata", "app.yaml"] = .ok ("app.yaml", []) ∧
      splitInvocation ["/usr/bin/python3.11-strata", "app.yaml"] ≠ .ok ("python3.11", ["app.yaml"]) := by
  have hrun : splitInvocation ["/usr/bin/python3.11-strata", "app.yaml"] = .ok ("app.yaml", []) := by rfl
  refine ⟨hrun, fun h => ?_⟩
  have htool := (Prod.mk.inj (Except.ok.inj (hrun.symm.trans h))).1
  exact absurd htool (by decide)

end LayeredConfig.Tool
