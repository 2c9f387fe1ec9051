import LayeredConfig.Proofs.FileNames
import LayeredConfig.Proofs.Results
import LayeredConfig.Tool.Wrapper

/-! # Rewritten arguments

Each argument of a wrapped tool is rewritten by itself. One that names a layer becomes the path of a file that holds
what a fresh session puts out when it is given the chain of this layer and nothing else; any other stays as it is. The
files are staged in the order of the arguments, and the first that cannot be is the failure of the whole.
-/
namespace LayeredConfig.Tool
variable {staging : Staging} {files : FileView} {registry : Registry} {count : Nat}
variable {arg layer extension : String} {args rewritten : List String} {staged : List StagedFile} {file : StagedFile}
variable {e : Failure}

structure NamesLayer (files : FileView) (registry : Registry) (arg layer extension : String) : Prop where
  asked : Path.extension? arg = some extension
  listed : extension ∈ layerExtensions
  found : findLayer files registry arg = some layer

theorem layerArgument?_eq_some_iff :
    layerArgument? files registry arg = some (layer, extension) ↔ NamesLayer files registry arg layer extension := by
  constructor
  · intro h
    obtain ⟨ext,hext,h⟩ := Option.bind_eq_some_iff.mp h
    obtain ⟨found,hfound,h⟩ := Option.bind_eq_some_iff.mp h
    cases h
    obtain ⟨hext,hlisted⟩ := Option.filter_eq_some_iff.mp hext
    exact ⟨hext, by simpa using hlisted, hfound⟩
  · rintro ⟨hext,hlisted,hfound⟩
    refine Option.bind_eq_some_iff.mpr ⟨extension, Option.filter_eq_some_iff.mpr ⟨hext, by simpa using hlisted⟩, ?_⟩
    exact Option.bind_eq_some_iff.mpr ⟨layer, hfound, rfl⟩

/-- An argument that names no layer has another extension or leads to no file. -/
theorem layerArgument?_eq_none (h : (∀ extension, Path.extension? arg = some extension → extension ∉ layerExtensions) ∨
    findLayer files registry arg = none) : layerArgument? files registry arg = none := by
  rw [Option.eq_none_iff_forall_ne_some]
  rintro ⟨layer,extension⟩ hsome
  obtain ⟨hext,hlisted,hfound⟩ := layerArgument?_eq_some_iff.mp hsome
  rcases h with hother | hmissing
  · exact hother extension hext hlisted
  · cases hmissing.symm.trans hfound

/-- What a fresh session that is given the chain of a layer and nothing else puts out in a format. -/
def chainText (files : FileView) (layer format : String) : Except Error String := do
  let layers ← loadChain files .builtIn layer
  let (merged, session) := perform (Session.mergeLayers layers) (.empty .builtIn)
  merged
  session.render format

theorem chainText_of_perform {layers : List Layer} {session : Session}
    (hload : loadChain files .builtIn layer = .ok layers)
    (hmerge : perform (Session.mergeLayers layers) (.empty .builtIn) = (.ok (), session)) (format : String) :
    chainText files layer format = session.render format := by
  rw [chainText, hload]
  dsimp only [bind, Except.bind]
  rw [hmerge]

inductive NotStaged (staging : Staging) (files : FileView) (count : Nat) (layer extension : String) :
    Failure → Prop where
  | output {cause : Error} : chainText files layer extension = .error cause →
      NotStaged staging files count layer extension (.engine cause)
  | staging {text : String} {kind : IoKind} : chainText files layer extension = .ok text →
      staging.token count extension text = .error kind →
      NotStaged staging files count layer extension (.io layer ⟨kind, none⟩)

theorem perform_mergeFileLayers (s : Session) :
    perform (Session.mergeFileLayers files layer) s = match loadChain files s.registry layer with
      | .ok layers => perform (Session.mergeLayers layers) s
      | .error e => (.error e, s) := by
  rw [Session.mergeFileLayers, perform_bind, perform_get]
  dsimp only
  rw [perform_bind, perform_mk_pure]
  cases loadChain files s.registry layer <;> rfl

theorem loadSession_singleton : loadSession files [layer] =
    match perform (Session.mergeFileLayers files layer) (.empty .builtIn) with
      | (.ok (), session) => .ok session
      | (.error e, _) => .error (.engine e) := by
  have hforM : perform ([layer].forM (Session.mergeFileLayers files)) (.empty .builtIn) =
      perform (Session.mergeFileLayers files layer) (.empty .builtIn) := by
    change perform (Session.mergeFileLayers files layer >>= fun _ => pure ()) _ = _
    rw [perform_bind]
    rcases perform (Session.mergeFileLayers files layer) (.empty .builtIn) with ⟨r,s⟩
    cases r <;> rfl
  rw [perform] at hforM
  rw [loadSession, hforM]
  rcases perform (Session.mergeFileLayers files layer) (.empty .builtIn) with ⟨r,s⟩
  cases r <;> rfl

theorem stage_eq : stage staging files count layer extension = match chainText files layer extension with
    | .error cause => .error (.engine cause)
    | .ok text => match staging.token count extension text with
      | .ok token => .ok ⟨stagedPath staging.directory token extension, extension, text⟩
      | .error kind => .error (.io layer ⟨kind, none⟩) := by
  rw [stage, loadSession_singleton, perform_mergeFileLayers, chainText]
  have hregistry : (Session.empty .builtIn).registry = .builtIn := rfl
  rw [hregistry]
  cases loadChain files .builtIn layer with
  | error cause => rfl
  | ok layers =>
    dsimp only [bind, Except.bind]
    rcases perform (Session.mergeLayers layers) (.empty .builtIn) with ⟨merged,session⟩
    cases merged with
    | error cause => rfl
    | ok done =>
      dsimp only
      cases session.render extension <;> rfl

/-- A file holds what the chain of a layer puts out, and its path is that of a staged file with a number. -/
structure Holds (staging : Staging) (files : FileView) (count : Nat) (layer extension : String) (file : StagedFile) :
    Prop where
  text : chainText files layer extension = .ok file.text
  format : file.extension = extension
  path : ∃ token, staging.token count extension file.text = .ok token ∧
    file.path = stagedPath staging.directory token extension

theorem holds_of_stage (h : stage staging files count layer extension = .ok file) :
    Holds staging files count layer extension file := by
  rw [stage_eq] at h
  split at h
  · cases h
  · next htext =>
    split at h
    · next token htoken =>
      cases h
      exact ⟨htext, rfl, token, htoken, rfl⟩
    · cases h

theorem notStaged_of_stage (h : stage staging files count layer extension = .error e) :
    NotStaged staging files count layer extension e := by
  rw [stage_eq] at h
  split at h
  · next hcause =>
    cases h
    exact .output hcause
  · next htext =>
    split at h
    · cases h
    · next htoken =>
      cases h
      exact .staging htext htoken

/-! ## Paths of staged files -/

theorem plain_of_mem_layerExtensions (h : extension ∈ layerExtensions) :
    '.' ∉ extension.toList ∧ '/' ∉ extension.toList ∧ extension.toList.map Char.toLower = extension.toList := by
  revert extension
  decide

theorem fileName?_stagedPath (directory : String) {token : String} (htoken : '/' ∉ token.toList)
    (h : extension ∈ layerExtensions) : Path.fileName? (stagedPath directory token extension) =
      some (("strata-" ++ token).toList ++ '.' :: extension.toList) := by
  have hname : stagedPath directory token extension =
      Path.inside directory (.ofList (("strata-" ++ token).toList ++ '.' :: extension.toList)) := by
    rw [stagedPath]
    exact congrArg _ (String.toList_injective (by simp))
  have hslash : '/' ∉ ("strata-" ++ token).toList ++ '.' :: extension.toList := by
    simp [htoken, (plain_of_mem_layerExtensions h).2.1]
  rw [hname, Path.fileName?_inside _ hslash (Path.not_isVoid_of_dot (by simp)), if_neg]
  simp

/-- A staged file has the extension of the format that it is in. -/
theorem Holds.extension?_path (h : Holds staging files count layer extension file) (hext : extension ∈ layerExtensions) :
    Path.extension? file.path = some extension := by
  obtain ⟨token,htoken,hpath⟩ := h.path
  obtain ⟨hdot,_,hlower⟩ := plain_of_mem_layerExtensions hext
  rw [hpath, Path.extension?_of_dot (fileName?_stagedPath _ (staging.plain htoken) hext) (by simp) hdot, hlower,
    String.ofList_toList]

/-- Files that were staged one after another have different paths. -/
theorem Holds.path_ne {m n : Nat} {layer' extension' : String} {file' : StagedFile}
    (h : Holds staging files m layer extension file) (h' : Holds staging files n layer' extension' file')
    (hext : extension ∈ layerExtensions) (hext' : extension' ∈ layerExtensions) (hne : m ≠ n) :
    file.path ≠ file'.path := by
  obtain ⟨token,htoken,hpath⟩ := h.path
  obtain ⟨token',htoken',hpath'⟩ := h'.path
  intro he
  have hnames : ("strata-" ++ token).toList ++ '.' :: extension.toList =
      ("strata-" ++ token').toList ++ '.' :: extension'.toList := by
    have hsame := fileName?_stagedPath staging.directory (staging.plain htoken) hext
    rw [← hpath, he, hpath', fileName?_stagedPath _ (staging.plain htoken') hext'] at hsame
    exact (Option.some.inj hsame).symm
  have hsplit := Path.splitDot_append ("strata-" ++ token).toList (plain_of_mem_layerExtensions hext).1
  rw [hnames, Path.splitDot_append _ (plain_of_mem_layerExtensions hext').1] at hsplit
  have htokens : "strata-" ++ token' = "strata-" ++ token :=
    String.toList_injective (Prod.mk.inj (Option.some.inj hsplit)).1
  rw [(String.append_right_inj _).mp htokens] at htoken'
  exact hne (staging.injective htoken htoken')

/-! ## Rewriting -/

inductive Rewrites (staging : Staging) (files : FileView) (registry : Registry) :
    Nat → List String → List String → List StagedFile → Prop where
  | nil {count : Nat} : Rewrites staging files registry count [] [] []
  | plain {count : Nat} {arg : String} {args rewritten : List String} {staged : List StagedFile} :
      layerArgument? files registry arg = none → Rewrites staging files registry count args rewritten staged →
      Rewrites staging files registry count (arg :: args) (arg :: rewritten) staged
  | staged {count : Nat} {arg layer extension : String} {args rewritten : List String} {staged : List StagedFile}
      {file : StagedFile} :
      NamesLayer files registry arg layer extension → Holds staging files count layer extension file →
      Rewrites staging files registry (count + 1) args rewritten staged →
      Rewrites staging files registry count (arg :: args) (file.path :: rewritten) (file :: staged)

theorem rewriteFrom_cons_of_none (h : layerArgument? files registry arg = none) :
    rewriteFrom staging files registry count (arg :: args) =
      (fun r => (arg :: r.1, r.2)) <$> rewriteFrom staging files registry count args := by
  rw [rewriteFrom, h]
  rfl

theorem rewriteFrom_cons_of_some (h : layerArgument? files registry arg = some (layer, extension)) :
    rewriteFrom staging files registry count (arg :: args) =
      stage staging files count layer extension >>= fun file =>
        (fun r => (file.path :: r.1, file :: r.2)) <$> rewriteFrom staging files registry (count + 1) args := by
  rw [rewriteFrom, h]
  rfl

theorem rewrites_of_rewriteFrom (h : rewriteFrom staging files registry count args = .ok (rewritten, staged)) :
    Rewrites staging files registry count args rewritten staged := by
  induction args generalizing count rewritten staged with
  | nil =>
    cases h
    exact .nil
  | cons arg rest ih =>
    cases hlayer : layerArgument? files registry arg with
    | none =>
      rw [rewriteFrom_cons_of_none hlayer] at h
      obtain ⟨r,hr,he⟩ := map_eq_ok_iff.mp h
      cases he
      exact .plain hlayer (ih hr)
    | some named =>
      obtain ⟨layer,extension⟩ := named
      rw [rewriteFrom_cons_of_some hlayer] at h
      obtain ⟨file,hfile,h⟩ := bind_eq_ok_iff.mp h
      obtain ⟨r,hr,he⟩ := map_eq_ok_iff.mp h
      cases he
      exact .staged (layerArgument?_eq_some_iff.mp hlayer) (holds_of_stage hfile) (ih hr)

def layersAmong (files : FileView) (registry : Registry) (args : List String) : Nat :=
  args.countP fun arg => (layerArgument? files registry arg).isSome

theorem layersAmong_cons_of_none (h : layerArgument? files registry arg = none) :
    layersAmong files registry (arg :: args) = layersAmong files registry args := by
  simp [layersAmong, h]

theorem layersAmong_cons_of_namesLayer (h : NamesLayer files registry arg layer extension) :
    layersAmong files registry (arg :: args) = layersAmong files registry args + 1 := by
  simp [layersAmong, layerArgument?_eq_some_iff.mpr h]

namespace Rewrites

theorem length_eq (h : Rewrites staging files registry count args rewritten staged) :
    rewritten.length = args.length ∧ staged.length = layersAmong files registry args := by
  induction h with
  | nil => exact ⟨rfl, rfl⟩
  | plain hnone _ ih => exact ⟨congrArg (· + 1) ih.1, by rw [layersAmong_cons_of_none hnone, ih.2]⟩
  | staged hnames _ _ ih =>
    refine ⟨congrArg (· + 1) ih.1, ?_⟩
    rw [layersAmong_cons_of_namesLayer hnames, List.length_cons, ih.2]

theorem getElem?_of_none (h : Rewrites staging files registry count args rewritten staged)
    (hnone : layerArgument? files registry arg = none) :
    ∀ i : Nat, args[i]? = some arg → rewritten[i]? = some arg := by
  induction h with
  | nil => exact nofun
  | plain _ _ ih =>
    intro i hi
    cases i with
    | zero => exact hi
    | succ i => exact ih i hi
  | staged hnames _ _ ih =>
    intro i hi
    cases i with
    | zero =>
      cases hi
      cases hnone.symm.trans (layerArgument?_eq_some_iff.mpr hnames)
    | succ i => exact ih i hi

/-- The files that were staged before the one of an argument are those of the arguments before it. -/
theorem exists_file (h : Rewrites staging files registry count args rewritten staged)
    (hnames : NamesLayer files registry arg layer extension) :
    ∀ i : Nat, args[i]? = some arg → ∃ file, rewritten[i]? = some file.path ∧
      staged[layersAmong files registry (args.take i)]? = some file ∧
      Holds staging files (count + layersAmong files registry (args.take i)) layer extension file := by
  induction h with
  | nil => exact nofun
  | plain hnone _ ih =>
    intro i hi
    cases i with
    | zero =>
      cases hi
      cases hnone.symm.trans (layerArgument?_eq_some_iff.mpr hnames)
    | succ i =>
      rw [List.take_succ_cons, layersAmong_cons_of_none hnone]
      exact ih i hi
  | @staged _ _ _ _ _ _ _ file hfirst hholds _ ih =>
    intro i hi
    cases i with
    | zero =>
      cases hi
      cases (layerArgument?_eq_some_iff.mpr hfirst).symm.trans (layerArgument?_eq_some_iff.mpr hnames)
      exact ⟨file, rfl, rfl, hholds⟩
    | succ i =>
      rw [List.take_succ_cons, layersAmong_cons_of_namesLayer hfirst, ← Nat.add_assoc, Nat.add_right_comm]
      exact ih i hi

/-- Files get numbers from that of the files that were staged before on. -/
theorem holds (h : Rewrites staging files registry count args rewritten staged) :
    ∀ file ∈ staged, ∃ n layer extension, count ≤ n ∧ extension ∈ layerExtensions ∧
      Holds staging files n layer extension file := by
  induction h with
  | nil => exact nofun
  | plain _ _ ih => exact ih
  | @staged count _ layer extension _ _ _ _ hnames hholds _ ih =>
    refine List.forall_mem_cons.mpr ⟨⟨count, layer, extension, le_rfl, hnames.listed, hholds⟩, ?_⟩
    intro file hfile
    obtain ⟨n,layer,extension,hn,hext,hholds⟩ := ih file hfile
    exact ⟨n, layer, extension, Nat.le_of_succ_le hn, hext, hholds⟩

theorem nodup (h : Rewrites staging files registry count args rewritten staged) : (staged.map (·.path)).Nodup := by
  induction h with
  | nil => exact List.nodup_nil
  | plain _ _ ih => exact ih
  | staged hnames hholds hrest ih =>
    refine List.nodup_cons.mpr ⟨?_, ih⟩
    intro hmem
    obtain ⟨file,hfile,hpath⟩ := List.mem_map.mp hmem
    obtain ⟨n,layer,extension,hn,hext,hother⟩ := hrest.holds file hfile
    exact hother.path_ne hholds hext hnames.listed (by omega) hpath

end Rewrites

/-- Rewriting fails at the first argument for whose layer no file is staged. -/
theorem rewriteFrom_eq_error (h : rewriteFrom staging files registry count args = .error e) :
    ∃ before arg after layer extension rewritten staged, args = before ++ arg :: after ∧
      rewriteFrom staging files registry count before = .ok (rewritten, staged) ∧
      NamesLayer files registry arg layer extension ∧
      NotStaged staging files (count + staged.length) layer extension e := by
  induction args generalizing count with
  | nil => cases h
  | cons arg rest ih =>
    cases hlayer : layerArgument? files registry arg with
    | none =>
      rw [rewriteFrom_cons_of_none hlayer, map_eq_error_iff] at h
      obtain ⟨before,failing,after,layer,extension,rewritten,staged,rfl,hbefore,hnames,hfails⟩ := ih h
      refine ⟨arg :: before, failing, after, layer, extension, arg :: rewritten, staged, rfl, ?_, hnames, hfails⟩
      rw [rewriteFrom_cons_of_none hlayer, hbefore]
      rfl
    | some named =>
      obtain ⟨layer,extension⟩ := named
      rw [rewriteFrom_cons_of_some hlayer, bind_eq_error_iff] at h
      rcases h with hstage | ⟨file,hfile,h⟩
      · exact ⟨[], arg, rest, layer, extension, [], [], rfl, rfl, layerArgument?_eq_some_iff.mp hlayer,
          notStaged_of_stage hstage⟩
      · rw [map_eq_error_iff] at h
        obtain ⟨before,failing,after,layer',extension',rewritten,staged,rfl,hbefore,hnames,hfails⟩ := ih h
        refine ⟨arg :: before, failing, after, layer', extension', file.path :: rewritten, file :: staged, rfl, ?_,
          hnames, ?_⟩
        · rw [rewriteFrom_cons_of_some hlayer, hfile]
          simp only [bind, Except.bind, hbefore]
          rfl
        · rw [List.length_cons, ← Nat.add_assoc, Nat.add_right_comm]
          exact hfails

/-- Where rewriting succeeds there is one result for each argument: the argument itself, unless it names a layer, and
else the path of a file with the text of this layer alone. The files stand in the order of the arguments. Where it
fails, it fails at the first argument whose layer cannot be put out or whose text cannot be staged. -/
theorem rewriteArguments_positionwise (staging : Staging) (files : FileView) (registry : Registry)
    (args : List String) :
    (∀ rewritten staged, rewriteArguments staging files registry args = .ok (rewritten, staged) →
      rewritten.length = args.length ∧ staged.length = layersAmong files registry args ∧
        (staged.map (·.path)).Nodup ∧
        ∀ (i : Nat) (arg : String), args[i]? = some arg →
          ((∀ extension, Path.extension? arg = some extension → extension ∉ layerExtensions) ∨
            findLayer files registry arg = none → rewritten[i]? = some arg) ∧
          ∀ layer extension, NamesLayer files registry arg layer extension →
            ∃ file, rewritten[i]? = some file.path ∧
              staged[layersAmong files registry (args.take i)]? = some file ∧ file.extension = extension ∧
              Path.extension? file.path = some extension ∧ chainText files layer extension = .ok file.text) ∧
      ∀ e, rewriteArguments staging files registry args = .error e →
        ∃ before arg after layer extension rewritten staged, args = before ++ arg :: after ∧
          rewriteArguments staging files registry before = .ok (rewritten, staged) ∧
          NamesLayer files registry arg layer extension ∧
          NotStaged staging files staged.length layer extension e := by
  constructor
  · intro rewritten staged h
    have hrewrites := rewrites_of_rewriteFrom h
    refine ⟨hrewrites.length_eq.1, hrewrites.length_eq.2, hrewrites.nodup, fun i arg hi => ⟨?_, ?_⟩⟩
    · intro hnone
      exact hrewrites.getElem?_of_none (layerArgument?_eq_none hnone) i hi
    · intro layer extension hnames
      obtain ⟨file,hpath,hfile,hholds⟩ := hrewrites.exists_file hnames i hi
      exact ⟨file, hpath, hfile, hholds.format, hholds.extension?_path hnames.listed, hholds.text⟩
  · intro e h
    obtain ⟨before,arg,after,layer,extension,rewritten,staged,hargs,hbefore,hnames,hfails⟩ := rewriteFrom_eq_error h
    rw [Nat.zero_add] at hfails
    exact ⟨before, arg, after, layer, extension, rewritten, staged, hargs, hbefore, hnames, hfails⟩

/-- A flag stays, a layer is put out in another format than that of its file, and a missing layer stays. TOML has no
text for `null`. -/
theorem rewriteArguments_positionwise_mixed :
    let files : FileTree := ⟨[(["app.json"], .file "null".toUTF8), (["app.eu.json"], .file "true".toUTF8)], []⟩
    let args := ["-f", "app.eu.yaml", "gone.json", "app.json"]
    let eu : StagedFile := ⟨"/tmp/strata-0.yaml", "yaml", "true\n"⟩
    let base : StagedFile := ⟨"/tmp/strata-1.json", "json", "null\n"⟩
    let rewritten := ["-f", eu.path, "gone.json", base.path]
    (rewriteArguments .reliable files .builtIn args = .ok (rewritten, [eu, base]) ∧
      rewritten[0]? = some "-f" ∧ rewritten[2]? = some "gone.json" ∧
      ∃ file, rewritten[3]? = some file.path ∧ [eu, base][1]? = some file ∧
        chainText files "app.json" "json" = .ok file.text) ∧
      ∃ e, rewriteArguments .reliable files .builtIn ["-f", "app.toml", "app.json"] = .error e ∧
        ∃ before arg after layer extension rewritten staged, ["-f", "app.toml", "app.json"] = before ++ arg :: after ∧
          rewriteArguments .reliable files .builtIn before = .ok (rewritten, staged) ∧
          NamesLayer files .builtIn arg layer extension ∧
          NotStaged .reliable files staged.length layer extension e := by
  intro files args eu base rewritten
  have hflag : layerArgument? files .builtIn "-f" = none := by rfl
  have heu : layerArgument? files .builtIn "app.eu.yaml" = some ("app.eu.json", "yaml") := by rfl
  have hgone : layerArgument? files .builtIn "gone.json" = none := by rfl
  have hbase : layerArgument? files .builtIn "app.json" = some ("app.json", "json") := by rfl
  have htoml : layerArgument? files .builtIn "app.toml" = some ("app.json", "toml") := by rfl
  have heuStage : stage .reliable files 0 "app.eu.json" "yaml" = .ok eu := by
    have hload : loadChain files .builtIn "app.eu.json" = .ok [⟨"app.json", none, [.null]⟩,
      ⟨"app.eu.json", some "app.json", [.bool true]⟩] := by rfl
    have hmerge : perform (Session.mergeLayers [⟨"app.json", none, [.null]⟩,
      ⟨"app.eu.json", some "app.json", [.bool true]⟩]) (.empty .builtIn) =
        (.ok (), ⟨[⟨2, [1, 0], .bool true⟩], .builtIn, 3⟩) := by rfl
    have hencode : Yaml.format.encodeStream [.bool true] = .ok "true\n" := by
      change Except.ok (Yaml.text (.bool true)) = _
      simp only [Yaml.text, Yaml.block]
    rw [stage_eq, (chainText_of_perform hload hmerge "yaml").trans hencode]
    rfl
  have hload : loadChain files .builtIn "app.json" = .ok [⟨"app.json", none, [.null]⟩] := by rfl
  have hmerge : perform (Session.mergeLayers [⟨"app.json", none, [.null]⟩]) (.empty .builtIn) =
      (.ok (), ⟨[⟨1, [0], .null⟩], .builtIn, 2⟩) := by rfl
  have hbaseStage : stage .reliable files 1 "app.json" "json" = .ok base := by
    have hencode : Json.format.encodeStream [.null] = .ok "null\n" := by rfl
    rw [stage_eq, (chainText_of_perform hload hmerge "json").trans hencode]
    rfl
  have hrun : rewriteArguments .reliable files .builtIn args = .ok (rewritten, [eu, base]) := by
    rw [rewriteArguments, rewriteFrom_cons_of_none hflag, rewriteFrom_cons_of_some heu, heuStage,
      rewriteFrom_cons_of_none hgone, rewriteFrom_cons_of_some hbase, hbaseStage]
    rfl
  obtain ⟨_,_,_,hat⟩ := (rewriteArguments_positionwise .reliable files .builtIn args).1 _ _ hrun
  obtain ⟨file,hpath,hfile,_,_,htext⟩ := (hat 3 "app.json" rfl).2 _ _ (layerArgument?_eq_some_iff.mp hbase)
  have hcount : layersAmong files .builtIn (args.take 3) = 1 := by rfl
  rw [hcount] at hfile
  obtain ⟨cause,hencode⟩ : ∃ cause, Toml.format.encodeStream [.null] = .error cause := ⟨_, by rfl⟩
  have herror : rewriteArguments .reliable files .builtIn ["-f", "app.toml", "app.json"] = .error (.engine cause) := by
    rw [rewriteArguments, rewriteFrom_cons_of_none hflag, rewriteFrom_cons_of_some htoml, stage_eq,
      (chainText_of_perform hload hmerge "toml").trans hencode]
    rfl
  have hother : ∀ extension, Path.extension? "-f" = some extension → extension ∉ layerExtensions := by
    intro extension h
    cases h
  exact ⟨⟨hrun, (hat 0 "-f" rfl).1 (.inl hother), (hat 2 "gone.json" rfl).1 (.inr rfl), file, hpath, hfile, htext⟩,
    _, herror, (rewriteArguments_positionwise .reliable files .builtIn _).2 _ herror⟩

end LayeredConfig.Tool
