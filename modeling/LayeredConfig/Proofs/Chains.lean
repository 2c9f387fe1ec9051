import LayeredConfig.Files.Tree
import LayeredConfig.Formats
import LayeredConfig.Layer
import LayeredConfig.Proofs.Failures

/-! # Chains of layers

The links from layer to parent need not end. `Climbs` says how the layers of a chain are loaded one after
another, with no bound on their number: it ends all the same, because no canonical path is met twice and
there are only so many. What is returned is the whole way along the links, and a cycle is reported exactly
when this way comes back to a file that was loaded.
-/
namespace LayeredConfig
variable {files : FileView} {registry : Registry} {path found canonical parent start : String}
variable {seen loads : List String} {layer : Layer} {layers : List Layer} {next : Option String}
variable {fuel : Nat} {r : Except Error (List Layer)}

structure Located (files : FileView) (registry : Registry) (path found canonical : String) : Prop where
  find : findLayer files registry path = some found
  canonical : files.canonicalPath found = .ok canonical

/-- How the loading of a chain goes on from a path, when files were met already and their layers loaded.
Beside the result it tells the canonical paths of the files that are loaded from here on, in order. -/
inductive Climbs (files : FileView) (registry : Registry) :
    List String → List Layer → String → List String → Except Error (List Layer) → Prop where
  | missing {seen : List String} {layers : List Layer} {path : String} :
      findLayer files registry path = none →
      Climbs files registry seen layers path [] (.error (missingLayer path seen.head?))
  | unresolved {seen : List String} {layers : List Layer} {path found : String} {kind : IoKind} :
      findLayer files registry path = some found → files.canonicalPath found = .error kind →
      Climbs files registry seen layers path [] (onFile found (.io ⟨kind, none⟩))
  | again {seen : List String} {layers : List Layer} {path found canonical : String} :
      Located files registry path found canonical → canonical ∈ seen →
      Climbs files registry seen layers path [] (.error (.cyclicParent (canonical :: seen).reverse))
  | broken {seen : List String} {layers : List Layer} {path found canonical : String} {e : Error} :
      Located files registry path found canonical → canonical ∉ seen →
      loadLayer files registry found = .error e →
      Climbs files registry seen layers path [canonical] (.error e)
  | last {seen : List String} {layers : List Layer} {path found canonical : String} {layer : Layer} :
      Located files registry path found canonical → canonical ∉ seen →
      loadLayer files registry found = .ok layer → layer.parent = none →
      Climbs files registry seen layers path [canonical] (.ok (layer :: layers))
  | next {seen loads : List String} {layers : List Layer} {path found canonical parent : String}
      {layer : Layer} {r : Except Error (List Layer)} :
      Located files registry path found canonical → canonical ∉ seen →
      loadLayer files registry found = .ok layer → layer.parent = some parent →
      Climbs files registry (canonical :: seen) (layer :: layers) parent loads r →
      Climbs files registry seen layers path (canonical :: loads) r

theorem isFile_of_findLayer (h : findLayer files registry path = some found) :
    files.isFile found = true := by
  rw [findLayer] at h
  split at h
  · next hfile =>
    cases h
    exact hfile
  · exact List.find?_some h

/-- While there is a turn left for each file that was not met, the bound on the turns is not felt. -/
theorem loadChainFrom_climbs (hn : seen.Nodup) (hsub : seen ⊆ files.canonicalPaths)
    (hfuel : files.canonicalPaths.length < seen.length + fuel) :
    ∃ loads, Climbs files registry seen layers path loads
      (loadChainFrom files registry fuel seen layers path) := by
  induction fuel generalizing seen layers path with
  | zero =>
    -- Different files were met, and more of them than there are.
    have hle := hn.length_le_of_subset hsub
    omega
  | succ fuel ih =>
    rw [loadChainFrom]
    cases hfound : findLayer files registry path with
    | none => exact ⟨[], .missing hfound⟩
    | some found =>
      cases hcanonical : files.canonicalPath found with
      | error kind =>
        simp only [hcanonical]
        exact ⟨[], .unresolved hfound hcanonical⟩
      | ok canonical =>
        have hlocated : Located files registry path found canonical := ⟨hfound, hcanonical⟩
        simp only [hcanonical]
        by_cases hseen : canonical ∈ seen
        · simp only [List.contains_eq_mem, hseen, decide_true, if_true]
          exact ⟨[], .again hlocated hseen⟩
        · simp only [List.contains_eq_mem, hseen, decide_false, Bool.false_eq_true, if_false]
          cases hload : loadLayer files registry found with
          | error e => exact ⟨[canonical], .broken hlocated hseen hload⟩
          | ok layer =>
            cases hparent : layer.parent with
            | none =>
              refine ⟨[canonical], ?_⟩
              simpa [bind, Except.bind, hparent] using .last hlocated hseen hload hparent
            | some parent =>
              have hmem := files.canonicalPath_mem (isFile_of_findLayer hfound) hcanonical
              have hfuel : files.canonicalPaths.length < (canonical :: seen).length + fuel := by
                rw [List.length_cons]
                omega
              obtain ⟨loads,hclimbs⟩ :=
                ih (List.nodup_cons.mpr ⟨hseen, hn⟩) (List.cons_subset.mpr ⟨hmem, hsub⟩) hfuel
              refine ⟨canonical :: loads, ?_⟩
              simpa [bind, Except.bind, hparent] using .next hlocated hseen hload hparent hclimbs

/-- Layers, oldest first, in a row along the links from a path on. The oldest names a parent to go on with,
if there is one; before there is any layer that is the path itself. -/
inductive Stacked (files : FileView) (registry : Registry) (start : String) :
    List Layer → Option String → Prop where
  | nil : Stacked files registry start [] (some start)
  | cons {layers : List Layer} {path found : String} {layer : Layer} :
      Stacked files registry start layers (some path) → findLayer files registry path = some found →
      loadLayer files registry found = .ok layer → Stacked files registry start (layer :: layers) layer.parent

theorem path_of_loadLayer (h : loadLayer files registry path = .ok layer) : layer.path = path := by
  obtain ⟨format,_,h⟩ := bind_eq_ok_iff.mp h
  obtain ⟨text,_,h⟩ := bind_eq_ok_iff.mp h
  obtain ⟨values,_,h⟩ := bind_eq_ok_iff.mp h
  obtain ⟨parent,_,h⟩ := bind_eq_ok_iff.mp h
  cases h
  rfl

namespace Stacked

theorem head (h : Stacked files registry start layers next) :
    (layers = [] ∧ next = some start) ∨ ∃ base, layers.head? = some base ∧ next = base.parent := by
  cases h with
  | nil => exact Or.inl ⟨rfl, rfl⟩
  | cons => exact Or.inr ⟨_, rfl, rfl⟩

theorem getLast (h : Stacked files registry start layers next) :
    layers = [] ∨ ∃ top, layers.getLast? = some top ∧ findLayer files registry start = some top.path := by
  induction h with
  | nil => exact Or.inl rfl
  | @cons layers path found layer hs hfind hload ih =>
    refine Or.inr ?_
    rcases ih with rfl | ⟨top,htop,hfound⟩
    · rcases hs.head with ⟨_,he⟩ | ⟨_,he,_⟩
      · cases he
        exact ⟨layer, rfl, by rw [path_of_loadLayer hload, hfind]⟩
      · cases he
    · exact ⟨top, by rw [List.getLast?_cons, htop]; rfl, hfound⟩

theorem link (h : Stacked files registry start layers next) :
    ∀ i lower upper, layers[i]? = some lower → layers[i + 1]? = some upper →
      ∃ p, upper.parent = some p ∧ findLayer files registry p = some lower.path := by
  induction h with
  | nil => exact fun i lower upper hlower => nomatch hlower
  | @cons layers path found layer hs hfind hload ih =>
    intro i lower upper hlower hupper
    cases i with
    | zero =>
      cases Option.some.inj hlower
      rcases hs.head with ⟨rfl,_⟩ | ⟨base,hbase,hparent⟩
      · cases hupper
      · rw [List.head?_eq_getElem?] at hbase
        cases Option.some.inj (hbase.symm.trans hupper)
        exact ⟨path, hparent.symm, by rw [path_of_loadLayer hload, hfind]⟩
    | succ i => exact ih i lower upper hlower hupper

theorem loaded (h : Stacked files registry start layers next) :
    ∀ layer ∈ layers, loadLayer files registry layer.path = .ok layer := by
  induction h with
  | nil => exact fun _ hl => nomatch hl
  | cons _ _ hload ih =>
    rw [List.forall_mem_cons, path_of_loadLayer hload]
    exact ⟨hload, ih⟩

end Stacked

namespace Climbs

theorem loads_nodup (h : Climbs files registry seen layers path loads r) :
    loads.Nodup ∧ ∀ c ∈ loads, c ∉ seen := by
  induction h with
  | missing | unresolved | again => exact ⟨List.nodup_nil, fun _ hc => nomatch hc⟩
  | broken _ hseen | last _ hseen => exact ⟨by simp, by simpa using hseen⟩
  | next _ hseen _ _ _ ih =>
    obtain ⟨hnodup,hnew⟩ := ih
    refine ⟨List.nodup_cons.mpr ⟨fun hc => hnew _ hc List.mem_cons_self, hnodup⟩, ?_⟩
    refine List.forall_mem_cons.mpr ⟨hseen, ?_⟩
    intro c hc hmem
    exact hnew c hc (List.mem_cons_of_mem _ hmem)

/-- Where the loading ends with layers, they stand in a row along the links from its start on, and their
files are those that were met. -/
theorem stacked (h : Climbs files registry seen layers path loads r)
    (hs : Stacked files registry start layers (some path))
    (hfiles : layers.map (fun l => files.canonicalPath l.path) = seen.map .ok) {result : List Layer}
    (hr : r = .ok result) : Stacked files registry start result none ∧
      result.map (fun l => files.canonicalPath l.path) = (loads.reverse ++ seen).map .ok := by
  induction h with
  | missing | unresolved | again | broken => cases hr
  | last hl _ hload hnone =>
    cases hr
    refine ⟨hnone ▸ hs.cons hl.find hload, ?_⟩
    simp [hfiles, path_of_loadLayer hload, hl.canonical]
  | next hl _ hload hparent _ ih =>
    obtain ⟨hstacked,hcanonical⟩ := ih (hparent ▸ hs.cons hl.find hload)
      (by simp [hfiles, path_of_loadLayer hload, hl.canonical]) hr
    exact ⟨hstacked, by simpa using hcanonical⟩

end Climbs

def fileOf (files : FileView) (registry : Registry) (path : String) : Option String :=
  (findLayer files registry path).bind fun found => (files.canonicalPath found).toOption

def parentOf (files : FileView) (registry : Registry) (path : String) : Option String := do
  let found ← findLayer files registry path
  let _ ← (files.canonicalPath found).toOption
  let layer ← (loadLayer files registry found).toOption
  layer.parent

def ancestor (files : FileView) (registry : Registry) : Nat → String → Option String
  | 0, path => some path
  | n + 1, path => (parentOf files registry path).bind (ancestor files registry n)

def ancestorFile (files : FileView) (registry : Registry) (n : Nat) (path : String) : Option String :=
  (ancestor files registry n path).bind (fileOf files registry)

theorem ancestorFile_zero : ancestorFile files registry 0 path = fileOf files registry path := rfl

theorem ancestorFile_succ_of_some {n : Nat} (h : parentOf files registry path = some parent) :
    ancestorFile files registry (n + 1) path = ancestorFile files registry n parent := by
  rw [ancestorFile, ancestor, h]
  rfl

theorem ancestorFile_succ_of_none {n : Nat} (h : parentOf files registry path = none) :
    ancestorFile files registry (n + 1) path = none := by
  rw [ancestorFile, ancestor, h]
  rfl

namespace Located

theorem fileOf (h : Located files registry path found canonical) :
    fileOf files registry path = some canonical := by
  rw [LayeredConfig.fileOf, h.find]
  simp [h.canonical, Except.toOption]

theorem parentOf (h : Located files registry path found canonical) :
    parentOf files registry path = (loadLayer files registry found).toOption.bind (·.parent) := by
  rw [LayeredConfig.parentOf, h.find]
  simp [h.canonical, Except.toOption]

end Located

/-- Along the links from a path there is a file that was met already, or one of them twice. -/
def ComesBack (files : FileView) (registry : Registry) (seen : List String) (path : String) : Prop :=
  ∃ n c, ancestorFile files registry n path = some c ∧
    (c ∈ seen ∨ ∃ m < n, ancestorFile files registry m path = some c)

theorem not_comesBack (hfile : ∀ c, fileOf files registry path = some c → c ∉ seen)
    (hparent : parentOf files registry path = none) : ¬ ComesBack files registry seen path := by
  rintro ⟨n,c,hc,hback⟩
  cases n with
  | succ n =>
    rw [ancestorFile_succ_of_none hparent] at hc
    cases hc
  | zero =>
    rcases hback with hseen | ⟨m,hm,_⟩
    · exact hfile c hc hseen
    · cases hm

theorem comesBack_iff (hfile : fileOf files registry path = some canonical) (hseen : canonical ∉ seen)
    (hparent : parentOf files registry path = some parent) :
    ComesBack files registry seen path ↔ ComesBack files registry (canonical :: seen) parent := by
  constructor
  · rintro ⟨n,c,hc,hback⟩
    cases n with
    | zero =>
      rw [ancestorFile_zero, hfile] at hc
      cases hc
      rcases hback with hmem | ⟨m,hm,_⟩
      · exact absurd hmem hseen
      · cases hm
    | succ n =>
      rw [ancestorFile_succ_of_some hparent] at hc
      refine ⟨n, c, hc, ?_⟩
      rcases hback with hmem | ⟨m,hm,hc'⟩
      · exact Or.inl (List.mem_cons_of_mem _ hmem)
      · cases m with
        | zero =>
          rw [ancestorFile_zero, hfile] at hc'
          cases hc'
          exact Or.inl List.mem_cons_self
        | succ m =>
          rw [ancestorFile_succ_of_some hparent] at hc'
          exact Or.inr ⟨m, Nat.lt_of_succ_lt_succ hm, hc'⟩
  · rintro ⟨n,c,hc,hback⟩
    -- One link further back, the file at hand is the one that no link is needed for.
    refine ⟨n + 1, c, (ancestorFile_succ_of_some hparent).trans hc, ?_⟩
    rcases hback with hmem | ⟨m,hm,hc'⟩
    · rcases List.mem_cons.mp hmem with rfl | hmem
      · exact Or.inr ⟨0, n.succ_pos, hfile⟩
      · exact Or.inl hmem
    · exact Or.inr ⟨m + 1, Nat.succ_lt_succ hm, (ancestorFile_succ_of_some hparent).trans hc'⟩

inductive Error.OfLayer : Error → Prop where
  | file (path : String) (cause : FileFault) : OfLayer (.file path cause)
  | invalidParent (path : String) (fault : ParentFault) : OfLayer (.invalidParent path fault)

theorem withFile_eq_ok_iff {ε α : Type} {fault : ε → FileFault} {x : Except ε α} {a : α} :
    withFile path fault x = .ok a ↔ x = .ok a := by
  cases x <;> simp [withFile, onFile]

theorem withFile_failsWith {ε α : Type} {fault : ε → FileFault} {x : Except ε α} :
    FailsWith Error.OfLayer (withFile path fault x) := by
  cases x with
  | error e => exact .error (.file path (fault e))
  | ok a => exact .ok a

theorem layerFormat_failsWith : FailsWith Error.OfLayer (layerFormat registry path) := by
  unfold layerFormat
  split
  · exact withFile_failsWith
  · exact .error (.file path _)

theorem layerParent_failsWith {values : List Value} :
    FailsWith Error.OfLayer (layerParent files registry path values) := by
  unfold layerParent declaredParent
  split
  · split
    · exact .ok _
    · split
      · exact .error (.invalidParent path _)
      · exact .ok _
    · exact .error (.invalidParent path _)
  · exact .ok _

theorem loadLayer_failsWith : FailsWith Error.OfLayer (loadLayer files registry path) := by
  refine layerFormat_failsWith.bind fun format _ => ?_
  refine withFile_failsWith.bind fun text _ => ?_
  refine withFile_failsWith.bind fun values _ => ?_
  exact layerParent_failsWith.bind fun parent _ => .ok _

theorem Climbs.cyclic_iff (h : Climbs files registry seen layers path loads r) :
    (∃ cycle, r = .error (.cyclicParent cycle)) ↔ ComesBack files registry seen path := by
  induction h with
  | @missing seen _ path hfind =>
    have hnot : ¬ ComesBack files registry seen path :=
      not_comesBack (by simp [fileOf, hfind]) (by simp [parentOf, hfind])
    simp [missingLayer, hnot]
  | @unresolved seen _ path found kind hfind hcanonical =>
    have hnot : ¬ ComesBack files registry seen path :=
      not_comesBack (by simp [fileOf, hfind, hcanonical, Except.toOption])
        (by simp [parentOf, hfind, hcanonical, Except.toOption])
    simp [onFile, hnot]
  | again hl hseen => exact ⟨fun _ => ⟨0, _, hl.fileOf, Or.inl hseen⟩, fun _ => ⟨_, rfl⟩⟩
  | @broken seen _ path _ canonical e hl hseen hload =>
    have hnot : ¬ ComesBack files registry seen path :=
      not_comesBack (by simpa [hl.fileOf] using hseen) (by simp [hl.parentOf, hload, Except.toOption])
    -- A layer that cannot be loaded fails for a reason of its own.
    refine iff_of_false ?_ hnot
    rintro ⟨cycle,he⟩
    cases he
    cases loadLayer_failsWith _ hload
  | @last seen _ path _ canonical layer hl hseen hload hnone =>
    have hnot : ¬ ComesBack files registry seen path :=
      not_comesBack (by simpa [hl.fileOf] using hseen)
        (by simp [hl.parentOf, hload, hnone, Except.toOption])
    simp [hnot]
  | next hl hseen hload hparent _ ih =>
    have hnext := hl.parentOf
    rw [hload] at hnext
    rw [ih, comesBack_iff hl.fileOf hseen (hnext.trans hparent)]

theorem loadLayer_of_loadChain (h : loadChain files registry path = .ok layers) :
    ∀ layer ∈ layers, loadLayer files registry layer.path = .ok layer := by
  obtain ⟨loads,hclimbs⟩ : ∃ loads, Climbs files registry [] [] path loads (loadChain files registry path) :=
    loadChainFrom_climbs List.nodup_nil (List.nil_subset _) (by simp)
  exact (hclimbs.stacked .nil rfl h).1.loaded

theorem loadLayer_of_decode {format : Format} {text : String} {values : List Value}
    {parent : Option String} (hformat : layerFormat registry path = .ok format)
    (hread : files.read path = .ok text) (hdecode : format.decode text = .ok values)
    (hparent : layerParent files registry path values = .ok parent) :
    loadLayer files registry path = .ok ⟨path, parent, values.map withoutParent⟩ := by
  rw [loadLayer, hformat, hread]
  simp [withFile, hdecode, hparent, bind, Except.bind]

/-- The loading of a chain ends, and no file is loaded twice. What is returned leads from the path to a
layer without a parent, each layer found through the parent of the next newer one, in files that all differ.
A cycle is reported exactly when the links from the path on come back to a file that was loaded. -/
theorem loadChain_along_links (files : FileView) (registry : Registry) (path : String) :
    (∃ loads, Climbs files registry [] [] path loads (loadChain files registry path) ∧ loads.Nodup) ∧
      (∀ layers, loadChain files registry path = .ok layers →
        (∃ top, layers.getLast? = some top ∧ findLayer files registry path = some top.path) ∧
        (∀ i lower upper, layers[i]? = some lower → layers[i + 1]? = some upper →
          ∃ p, upper.parent = some p ∧ findLayer files registry p = some lower.path) ∧
        (∃ base, layers.head? = some base ∧ base.parent = none) ∧
        (∀ layer ∈ layers, loadLayer files registry layer.path = .ok layer) ∧
        ∃ canonical : List String,
          layers.map (fun l => files.canonicalPath l.path) = canonical.map .ok ∧ canonical.Nodup) ∧
      ((∃ cycle, loadChain files registry path = .error (.cyclicParent cycle)) ↔
        ∃ m n file, m < n ∧ ancestorFile files registry m path = some file ∧
          ancestorFile files registry n path = some file) := by
  obtain ⟨loads,hclimbs⟩ : ∃ loads, Climbs files registry [] [] path loads (loadChain files registry path) :=
    loadChainFrom_climbs List.nodup_nil (List.nil_subset _) (by simp)
  have hnodup := hclimbs.loads_nodup.1
  refine ⟨⟨loads, hclimbs, hnodup⟩, ?_, ?_⟩
  · intro layers h
    obtain ⟨hstacked,hcanonical⟩ := hclimbs.stacked .nil rfl h
    rw [List.append_nil] at hcanonical
    have hne : layers ≠ [] := by
      rintro rfl
      rcases hstacked.head with ⟨_,he⟩ | ⟨_,he,_⟩ <;> cases he
    refine ⟨hstacked.getLast.resolve_left hne, hstacked.link, ?_, hstacked.loaded, ?_⟩
    · rcases hstacked.head with ⟨he,_⟩ | ⟨base,hbase,hparent⟩
      · exact absurd he hne
      · exact ⟨base, hbase, hparent.symm⟩
    · exact ⟨loads.reverse, hcanonical, List.pairwise_reverse.mpr (hnodup.imp Ne.symm)⟩
  · rw [hclimbs.cyclic_iff]
    constructor
    · rintro ⟨n,file,hn,hseen | ⟨m,hm,hfile⟩⟩
      · cases hseen
      · exact ⟨m, n, file, hm, hfile, hn⟩
    · rintro ⟨m,n,file,hm,hfile,hn⟩
      exact ⟨n, file, hn, Or.inr ⟨m, hm, hfile⟩⟩

/-- JSON, and a format in which a text is the path of a parent. -/
def linkRegistry : Registry where
  formats := [("json", Json.format), ("link", {
    decode := fun text => .ok [.map [(Directive.parent.key, .string text)]]
    encode := fun _ => .ok ""
    encodeStream := fun _ => .ok "" })]

/-- A parent is declared by one layer and implied by the name of the next. A layer that spells its own path
differently still comes back to itself. -/
theorem loadChain_along_links_spelled :
    let files : FileTree := ⟨[(["app.json"], .file "null".toUTF8), (["app.prod.json"], .file "null".toUTF8),
      (["site"], .directory), (["site", "eu.link"], .file "../app.prod".toUTF8),
      (["own.link"], .file "./own".toUTF8)], []⟩
    let base : Layer := ⟨"site/../app.json", none, [.null]⟩
    let prod : Layer := ⟨"site/../app.prod.json", some "site/../app.json", [.null]⟩
    let eu : Layer := ⟨"site/eu.link", some "site/../app.prod", [.map []]⟩
    loadChain files linkRegistry "site/eu" = .ok [base, prod, eu] ∧
      findLayer files linkRegistry "site/../app.prod" = some prod.path ∧
      loadChain files linkRegistry "own" = .error (.cyclicParent ["/own.link", "/own.link"]) ∧
      ∃ m n file, m < n ∧ ancestorFile files linkRegistry m "own" = some file ∧
        ancestorFile files linkRegistry n "own" = some file := by
  intro files base prod eu
  have hok : loadChain files linkRegistry "site/eu" = .ok [base, prod, eu] := by rfl
  have hcyclic : loadChain files linkRegistry "own" = .error (.cyclicParent ["/own.link", "/own.link"]) := by rfl
  obtain ⟨_,hchain,_⟩ := loadChain_along_links files linkRegistry "site/eu"
  obtain ⟨_,_,hcomesBack⟩ := loadChain_along_links files linkRegistry "own"
  obtain ⟨_,hlink,_⟩ := hchain _ hok
  obtain ⟨p,hp,hfound⟩ := hlink 1 prod eu rfl rfl
  cases hp
  exact ⟨hok, hfound, hcyclic, hcomesBack.mp ⟨_, hcyclic⟩⟩

end LayeredConfig
