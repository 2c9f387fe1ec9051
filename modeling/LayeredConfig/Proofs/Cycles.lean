import LayeredConfig.Proofs.Chains

/-! # Reported cycles

A chain of layers that comes back to a file is reported with every file on the way to it. This way ends in a
circle, and it is a circle from its beginning only if the chain was started on one of the layers that lead
back to themselves: the layers that lead into the circle are reported with it.
-/
namespace LayeredConfig
variable {files : FileView} {registry : Registry} {path : String} {seen loads : List String}
variable {layers : List Layer} {r : Except Error (List Layer)} {cycle : List String}

def IsCircle (files : List String) : Prop :=
  1 < files.length ∧ files.head? = files.getLast? ∧ files.dropLast.Nodup

/-- A reported cycle is all that was met before, then all that is loaded from here on, then the one file that
is met again. -/
theorem Climbs.reported (h : Climbs files registry seen layers path loads r)
    (hr : r = .error (.cyclicParent cycle)) :
    ∃ again, cycle = seen.reverse ++ (loads ++ [again]) ∧ again ∈ loads ++ seen ∧
      ∀ i < (loads ++ [again]).length, ancestorFile files registry i path = (loads ++ [again])[i]? := by
  induction h with
  | missing => cases hr
  | unresolved => cases hr
  | @again seen _ path _ canonical hl hseen =>
    cases hr
    refine ⟨canonical, by simp, by simpa using hseen, ?_⟩
    intro i hi
    have hzero : i = 0 := by simpa using hi
    subst hzero
    exact hl.fileOf
  | broken _ _ hload =>
    cases hr
    cases loadLayer_failsWith _ hload
  | last => cases hr
  | @next seen loads _ path _ canonical parent layer _ hl _ hload hparent _ ih =>
    obtain ⟨again,hcycle,hmem,hfiles⟩ := ih hr
    refine ⟨again, by simpa using hcycle, ?_, ?_⟩
    · rcases List.mem_append.mp hmem with hm | hm
      · simp [hm]
      · rcases List.mem_cons.mp hm with rfl | hm
        · simp
        · simp [hm]
    · intro i hi
      cases i with
      | zero => exact hl.fileOf
      | succ i =>
        have hnext : parentOf files registry path = some parent := by
          rw [hl.parentOf, hload]
          exact hparent
        rw [ancestorFile_succ_of_some hnext, hfiles i (by simpa using hi)]
        rfl

/-- A way without repetition that comes back to one of its files is led into a circle at that file. -/
theorem exists_circle {again : String} (hnodup : loads.Nodup) (hagain : again ∈ loads) :
    ∃ leading circle : List String, loads ++ [again] = leading ++ circle ∧ IsCircle circle ∧
      leading.Nodup ∧ (∀ file ∈ leading, file ∉ circle) ∧ (IsCircle (loads ++ [again]) ↔ leading = []) := by
  obtain ⟨leading,rest,rfl⟩ := List.append_of_mem hagain
  obtain ⟨hleading,hrest,hdisjoint⟩ := List.nodup_append.mp hnodup
  have hcircle : IsCircle (again :: (rest ++ [again])) := by
    rw [← List.cons_append]
    refine ⟨by simp, ?_, ?_⟩
    · rw [List.getLast?_concat, List.cons_append, List.head?_cons]
    · rwa [List.dropLast_concat]
  have hapart : ∀ file ∈ leading, file ∉ again :: (rest ++ [again]) := by
    intro file hfile hmem
    refine hdisjoint file hfile file ?_ rfl
    simpa [or_comm, or_left_comm] using hmem
  have hwhole : leading ++ again :: rest ++ [again] = leading ++ again :: (rest ++ [again]) := by
    rw [List.append_assoc, List.cons_append]
  refine ⟨leading, again :: (rest ++ [again]), hwhole, hcircle, hleading, hapart, ?_⟩
  constructor
  · rintro ⟨_,hends,_⟩
    cases leading with
    | nil => rfl
    | cons file leading =>
      -- The whole way begins with a leading file and ends in the circle.
      rw [List.getLast?_concat, List.cons_append, List.cons_append, List.head?_cons] at hends
      cases hends
      exact absurd List.mem_cons_self (hapart again List.mem_cons_self)
  · rintro rfl
    exact hwhole ▸ hcircle

/-- What is reported as a cycle is the whole way from the path on, each file found through the parent of the
one before. It is some leading files, which take no part in the circle, followed by the circle; so it is a
circle itself only if there are none. -/
theorem loadChain_cycle (h : loadChain files registry path = .error (.cyclicParent cycle)) :
    ∃ leading circle : List String, cycle = leading ++ circle ∧ IsCircle circle ∧
      leading.Nodup ∧ (∀ file ∈ leading, file ∉ circle) ∧
      (∀ i < cycle.length, ancestorFile files registry i path = cycle[i]?) ∧
      (IsCircle cycle ↔ leading = []) := by
  obtain ⟨loads,hclimbs⟩ : ∃ loads, Climbs files registry [] [] path loads (loadChain files registry path) :=
    loadChainFrom_climbs List.nodup_nil (List.nil_subset _) (by simp)
  obtain ⟨again,hcycle,hmem,hfiles⟩ := hclimbs.reported h
  rw [List.reverse_nil, List.nil_append] at hcycle
  rw [List.append_nil] at hmem
  obtain ⟨leading,circle,hwhole,hcircle,hleading,hapart,hiff⟩ := exists_circle hclimbs.loads_nodup.1 hmem
  subst hcycle
  exact ⟨leading, circle, hwhole, hcircle, hleading, hapart, hfiles, hiff⟩

theorem loadChainFrom_next {fuel : Nat} {found canonical parent : String} {layer : Layer}
    (hl : Located files registry path found canonical) (hseen : canonical ∉ seen)
    (hload : loadLayer files registry found = .ok layer) (hparent : layer.parent = some parent) :
    loadChainFrom files registry (fuel + 1) seen layers path =
      loadChainFrom files registry fuel (canonical :: seen) (layer :: layers) parent := by
  rw [loadChainFrom, hl.find]
  simp [hl.canonical, hseen, hload, hparent, bind, Except.bind]

theorem loadChainFrom_again {fuel : Nat} {found canonical : String}
    (hl : Located files registry path found canonical) (hseen : canonical ∈ seen) :
    loadChainFrom files registry (fuel + 1) seen layers path =
      .error (.cyclicParent (canonical :: seen).reverse) := by
  rw [loadChainFrom, hl.find]
  simp [hl.canonical, hseen]

def leadingLayer : FileTree where
  entries := [(["app.json"], .file "\x7b\"$parent\":\"a.json\"\x7d".toUTF8),
    (["a.json"], .file "\x7b\"$parent\":\"b.json\"\x7d".toUTF8),
    (["b.json"], .file "\x7b\"$parent\":\"a.json\"\x7d".toUTF8)]
  working := []

theorem loadChain_leadingLayer :
    loadChain leadingLayer .builtIn "app.json" =
      .error (.cyclicParent ["/app.json", "/a.json", "/b.json", "/a.json"]) := by
  have ha : Json.format.decode "\x7b\"$parent\":\"a.json\"\x7d" =
      .ok [.map [("$parent", .string "a.json")]] := by cbv
  have hb : Json.format.decode "\x7b\"$parent\":\"b.json\"\x7d" =
      .ok [.map [("$parent", .string "b.json")]] := by cbv
  have happ : loadLayer leadingLayer .builtIn "app.json" = .ok ⟨"app.json", some "a.json", [.map []]⟩ :=
    loadLayer_of_decode rfl rfl ha rfl
  have hfirst : loadLayer leadingLayer .builtIn "a.json" = .ok ⟨"a.json", some "b.json", [.map []]⟩ :=
    loadLayer_of_decode rfl rfl hb rfl
  have hsecond : loadLayer leadingLayer .builtIn "b.json" = .ok ⟨"b.json", some "a.json", [.map []]⟩ :=
    loadLayer_of_decode rfl rfl ha rfl
  calc loadChain leadingLayer .builtIn "app.json"
      = loadChainFrom leadingLayer .builtIn 3 ["/app.json"] _ "a.json" :=
        loadChainFrom_next ⟨rfl, rfl⟩ (by decide) happ rfl
    _ = loadChainFrom leadingLayer .builtIn 2 ["/a.json", "/app.json"] _ "b.json" :=
        loadChainFrom_next ⟨rfl, rfl⟩ (by decide) hfirst rfl
    _ = loadChainFrom leadingLayer .builtIn 1 ["/b.json", "/a.json", "/app.json"] _ "a.json" :=
        loadChainFrom_next ⟨rfl, rfl⟩ (by decide) hsecond rfl
    _ = _ := loadChainFrom_again ⟨rfl, rfl⟩ (by decide)

theorem loadChain_cycle_led_into :
    let cycle := ["/app.json", "/a.json", "/b.json", "/a.json"]
    loadChain leadingLayer .builtIn "app.json" = .error (.cyclicParent cycle) ∧
      ∃ leading circle : List String, cycle = leading ++ circle ∧ IsCircle circle ∧ leading ≠ [] ∧
        (∀ file ∈ leading, file ∉ circle) ∧
        ∀ i < 4, ancestorFile leadingLayer .builtIn i "app.json" = cycle[i]? := by
  intro cycle
  obtain ⟨leading,circle,hcycle,hcircle,_,hapart,hfiles,hiff⟩ := loadChain_cycle loadChain_leadingLayer
  have hends : ¬ IsCircle cycle := fun h => absurd h.2.1 (by decide)
  exact ⟨loadChain_leadingLayer, leading, circle, hcycle, hcircle, fun he => hends (hiff.mpr he), hapart, hfiles⟩

/-- The reported cycle need not end where it begins. -/
theorem not_isCircle_of_leading :
    loadChain leadingLayer .builtIn "app.json" =
        .error (.cyclicParent ["/app.json", "/a.json", "/b.json", "/a.json"]) ∧
      ¬ IsCircle ["/app.json", "/a.json", "/b.json", "/a.json"] := by
  refine ⟨loadChain_leadingLayer, ?_⟩
  rintro ⟨_,hends,_⟩
  exact absurd hends (by decide)

end LayeredConfig
