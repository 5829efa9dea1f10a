import RustLua.Proofs.Build.Outputs
import RustLua.Proofs.Build.Workers

/-! # Outputs beside their sources

Without an output path, the output of a source goes where the source is, with another
extension. The two are different places as long as the extension is not that of the source;
an extension with a slash can lead back to it. With two dots for an extension, the output of a
source without another name leads above it, where no source is. -/
namespace RustLua

/-! ## Where cleaned paths lead -/

namespace Disk.Tree

open RustLua.Path (cleanParts cleanStep IsStack AreNames)

variable {t : Tree} {start : Place} {rooted : Bool} {before parts : List Bytes} {root path : Bytes}

/-- Cleaning takes no step that leads elsewhere. -/
theorem foldl_placeStep_cleanStep {part : Bytes} (hstart : rooted = true → start = [])
    (h : IsStack rooted before) :
    (cleanStep rooted before part).reverse.foldl placeStep start =
      placeStep (before.reverse.foldl placeStep start) part := by
  obtain ⟨names, ups, rfl, hnames, hups, -⟩ := h
  unfold cleanStep
  split
  · rename_i hnone
    rw [placeStep, if_pos hnone]
  · split
    · rename_i hup
      subst hup
      cases names with
      | cons name names =>
        obtain ⟨hname, -⟩ := hnames name (by simp)
        simp [hname.2.2, placeStep_name hname, placeStep_up]
      | nil =>
        cases ups with
        | nil =>
          cases rooted with
          | true => simp [hstart rfl, placeStep]
          | false => rfl
        | cons u ups =>
          obtain rfl : u = Path.up := hups u (by simp)
          simp
    · simp

theorem foldl_placeStep_foldl (hstart : rooted = true → start = [])
    (h : IsStack rooted before) (hparts : ∀ part ∈ parts, Ascii.slash ∉ part) :
    (parts.foldl (cleanStep rooted) before).reverse.foldl placeStep start =
      parts.foldl placeStep (before.reverse.foldl placeStep start) := by
  induction parts generalizing before with
  | nil => rfl
  | cons part parts ih =>
    obtain ⟨hpart, hparts⟩ := List.forall_mem_cons.mp hparts
    rw [List.foldl_cons, ih (Path.isStack_cleanStep h hpart) hparts,
      foldl_placeStep_cleanStep hstart h, List.foldl_cons]

/-- Where the steps of a path start. -/
def origin (t : Tree) (rooted : Bool) : Place :=
  (if rooted then [] else t.home).foldl placeStep []

theorem placeOf_eq (t : Tree) (path : Bytes) :
    t.placeOf path = (cleanParts path).parts.foldl placeStep (t.origin (cleanParts path).rooted) := by
  have hempty : IsStack (cleanParts path).rooted [] :=
    ⟨[], [], rfl, by simp [AreNames], by simp, fun _ => rfl⟩
  have hstart : (cleanParts path).rooted = true → t.origin (cleanParts path).rooted = [] :=
    fun h => by rw [origin, h]; rfl
  have hparts : ∀ part ∈ Bytes.splitOnByte Ascii.slash path, Ascii.slash ∉ part :=
    fun _ => Bytes.notMem_of_mem_splitOnByte
  have hwalk := foldl_placeStep_foldl hstart hempty hparts
  rw [placeOf, steps, List.foldl_append]
  simpa [cleanParts, origin] using hwalk.symm

/-- What is joined to a path is walked along behind it. -/
theorem placeOf_join (hroot : root ≠ []) (path : Bytes) : t.placeOf (Path.join root path) =
    (Bytes.splitOnByte Ascii.slash path).foldl placeStep (t.placeOf root) := by
  have hstart : (cleanParts root).rooted = true → t.origin (cleanParts root).rooted = [] :=
    fun h => by rw [origin, h]; rfl
  rw [placeOf_eq, Path.cleanParts_join_of_ne_nil hroot, foldl_placeStep_foldl hstart
    (Path.isStack_cleanParts root) fun _ => Bytes.notMem_of_mem_splitOnByte,
    List.reverse_reverse, ← placeOf_eq]

/-- As many steps upwards as there are names lead back. -/
theorem foldl_placeStep_back {names : List Bytes} (h : AreNames names) (place : Place) :
    (names.map fun _ => Path.up).foldl placeStep (names.foldl placeStep place) = place := by
  induction names generalizing place with
  | nil => rfl
  | cons name names ih =>
    obtain ⟨⟨hname, -⟩, hnames⟩ := List.forall_mem_cons.mp h
    have hback := ih hnames (placeStep place name)
    rw [List.map_const'] at hback
    rw [List.map_const', List.length_cons, List.replicate_succ', List.foldl_append, List.foldl_cons,
      List.foldl_cons, hback, placeStep_name hname]
    exact List.dropLast_concat

/-- The relative path of what is below a directory leads to it. -/
theorem placeOf_relative (hroot : root ≠ []) (hname : Path.IsName (Path.lastPart path))
    (hpath : path = root ∨ ∃ rel, path = Path.join root rel) :
    t.placeOf (Path.join root ((Path.relative? root path).getD (Path.base path))) =
      t.placeOf path := by
  obtain ⟨hrel, hsame⟩ | ⟨names, common, down, hnames, hback, hdown, hsome, hrel⟩ :=
    Path.relative?_below hroot hname hpath
  · rw [hrel, Option.getD_some, placeOf_join hroot, placeOf_eq t path, hsame, placeOf_eq]
    rfl
  · have hslash : ∀ part ∈ names.map (fun _ => Path.up) ++ down, Ascii.slash ∉ part := by
      intro part hpart
      rcases List.mem_append.mp hpart with hpart | hpart
      · obtain ⟨-, -, rfl⟩ := List.mem_map.mp hpart
        decide
      · refine ((Path.isStack_cleanParts path).part (List.mem_reverse.mpr ?_)).2
        exact hdown ▸ List.mem_append_right _ hpart
    have hne : names.map (fun _ => Path.up) ++ down ≠ [] := by simpa using hsome
    rw [hrel, Option.getD_some, placeOf_join hroot, Path.splitOnByte_join hne hslash, placeOf_eq,
      hback, placeOf_eq t path, hdown, List.foldl_append, List.foldl_append,
      foldl_placeStep_back hnames, List.foldl_append]

end Disk.Tree

namespace Build

open RustLua.Disk (Tree Place)
open RustLua.Disk.Tree (disk placeOf_append run_bind isName_of_read isName_of_write)

variable {t t' : Tree} {config : Config} {target : Target} {input ext : Bytes}

/-! ## A single source -/

theorem besideInput_eq_iff : besideInput input ext = input ↔ Path.extension input = ext := by
  constructor
  · intro h
    have hsame : besideInput input ext = Path.withoutExtension input ++ Path.extension input :=
      h.trans (Path.withoutExtension_append input).symm
    exact (List.append_cancel_left hsame).symm
  · rintro rfl
    exact Path.withoutExtension_append input

/-- The place that a path with a name at its end leads to has that name. -/
theorem getLast?_placeOf {path : Bytes} (h : Path.IsName (Path.lastPart path)) :
    (t.placeOf path).getLast? = some (Path.lastPart path) := by
  obtain ⟨front, hfront, hpath, hlast⟩ := Path.exists_front path
  obtain ⟨outer, houter⟩ := t.placeOf_append hfront
  have hplace : t.placeOf path = outer ++ [Path.lastPart path] := by
    rw [← houter _ hlast h, ← hpath]
  rw [hplace, List.getLast?_concat]

/-- Another extension leads to another place. -/
theorem placeOf_besideInput_ne (hinput : Path.IsName (Path.lastPart input))
    (hslash : Ascii.slash ∉ ext) (hne : Path.extension input ≠ ext)
    (houtput : Path.IsName (Path.lastPart (besideInput input ext))) :
    t.placeOf (besideInput input ext) ≠ t.placeOf input := by
  intro he
  have hsource := Path.lastPart_append_ext (Path.slash_notMem_extension input)
    (Path.withoutExtension input)
  rw [Path.withoutExtension_append] at hsource
  have hlast := congrArg List.getLast? he
  rw [getLast?_placeOf houtput, getLast?_placeOf hinput, besideInput,
    Path.lastPart_append_ext hslash, hsource] at hlast
  exact hne (List.append_cancel_left (Option.some.inj hlast)).symm

/-- A source is compiled, and its output written beside it. -/
theorem emitFile_cases {result : Except EmitError Bytes}
    (h : (emitFile disk config target input []).run t = (result, t')) :
    (∃ e, compiledAt t config target input = .error e ∧ result = .error e ∧ t' = t) ∨
    ∃ text r, compiledAt t config target input = .ok text ∧
      (writeOutput disk (besideInput input (target.extension config)) text).run t = (r, t') ∧
      result = (fun () => besideInput input (target.extension config)) <$> r := by
  simp only [emitFile, run_bind, run_compileFile, List.isEmpty_nil, if_true] at h
  cases hcompiled : compiledAt t config target input with
  | error e =>
    rw [hcompiled] at h
    cases h
    exact .inl ⟨e, rfl, rfl, rfl⟩
  | ok text =>
    rw [hcompiled] at h
    simp only [run_bind] at h
    generalize hwrite : (writeOutput disk _ text).run t = written at h
    obtain ⟨r, t₁⟩ := written
    cases h
    exact .inr ⟨text, r, rfl, hwrite, rfl⟩

theorem read_of_compiledAt {file text : Bytes} (h : compiledAt t config target file = .ok text) :
    ∃ source, t.read file = .ok source := by
  cases hread : t.read file with
  | ok source => exact ⟨source, rfl⟩
  | error fault =>
    rw [compiledAt, Tree.textOf, hread] at h
    cases h

/-! ## The sources of a directory -/

/-- Two dots are more than an extension has. -/
theorem extension_ne_of_dots (hdots : Ascii.dot ∈ ext.tail) (path : Bytes) :
    Path.extension path ≠ ext := by
  rintro rfl
  exact Path.dot_notMem_extension_tail path hdots

/-- Behind any text, such an extension ends a name, unless there is no text and it is `..`. -/
theorem isName_append (hlength : 2 ≤ ext.length) (s : Bytes) :
    Path.IsName (s ++ ext) ∨ (s = [] ∧ ext = Path.up) := by
  have hne {part : Bytes} (hpart : part.length < 2) : s ++ ext ≠ part := by
    rintro rfl
    rw [List.length_append] at hpart
    omega
  by_cases hup : s ++ ext = Path.up
  · have htwo : (s ++ ext).length = 2 := congrArg List.length hup
    rw [List.length_append] at htwo
    obtain rfl : s = [] := List.length_eq_zero_iff.mp (by omega)
    exact .inr ⟨rfl, hup⟩
  · exact .inl ⟨hne (by decide), hne (by decide), hup⟩

/-- The path of an output without its extension, from the output directory on. -/
def outputStem (root file : Bytes) : Bytes :=
  Path.withoutExtension ((Path.relative? root file).getD (Path.base file))

/-- The last part of an output path has the extension. -/
theorem extension_outputPath {root file : Bytes} (hdot : Ascii.dot ∈ ext)
    (hslash : Ascii.slash ∉ ext) (hname : Path.IsName (Path.lastPart (outputStem root file) ++ ext))
    (outDir : Bytes) :
    Path.extension (Path.lastPart (outputPath root outDir ext file)) = Path.extension ext := by
  have hlast := Path.lastPart_append_ext hslash (outputStem root file)
  change Path.extension (Path.lastPart (Path.join outDir (outputStem root file ++ ext))) = _
  rw [Path.lastPart_join (hlast ▸ hname), hlast, Path.extension_append hdot hslash]

/-- An output that is named only by the two dots of its extension leads above its source. -/
theorem placeOf_outputPath_up {root file : Bytes} (hroot : root ≠ [])
    (hname : Path.IsName (Path.lastPart file))
    (hfile : file = root ∨ ∃ rel, file = Path.join root rel)
    (hstem : Path.lastPart (outputStem root file) = []) :
    t.placeOf (outputPath root root Path.up file) <+: t.placeOf file ∧
      t.placeOf (outputPath root root Path.up file) ≠ t.placeOf file := by
  generalize hrel : (Path.relative? root file).getD (Path.base file) = rel
  have hsource := Tree.placeOf_relative (t := t) hroot hname hfile
  have houtput : outputPath root root Path.up file =
      Path.join root (outputStem root file ++ Path.up) := rfl
  obtain ⟨front, hfront, hfrontStem, -⟩ := Path.exists_front (outputStem root file)
  rw [hstem, List.append_nil] at hfrontStem
  rw [outputStem, hrel] at hfrontStem
  obtain ⟨parts, hparts⟩ := Path.split_append hfront
  -- both walks go along the front, and part in their last step
  have hwalk {last : Bytes} (hlast : Ascii.slash ∉ last) :
      t.placeOf (Path.join root (front ++ last)) =
        Tree.placeStep (parts.foldl Tree.placeStep (t.placeOf root)) last := by
    rw [Tree.placeOf_join hroot, hparts last hlast, List.foldl_append]
    rfl
  generalize parts.foldl Tree.placeStep (t.placeOf root) = place at hwalk
  have hsome : t.placeOf file ≠ [] := fun he => by
    have := getLast?_placeOf (t := t) hname
    rw [he] at this
    cases this
  rw [hrel, ← Path.withoutExtension_append rel, hfrontStem,
    hwalk (Path.slash_notMem_extension rel)] at hsource
  rw [houtput, outputStem, hrel, hfrontStem, hwalk (by decide), Tree.placeStep_up]
  have hbelow : place <+: t.placeOf file := by
    rw [← hsource, Tree.placeStep, if_neg (extension_ne_of_dots (by decide) rel)]
    split
    · exact List.prefix_rfl
    · exact List.prefix_append _ _
  refine ⟨(List.dropLast_prefix _).trans hbelow, fun he => hsome ?_⟩
  have hlength := hbelow.length_le
  rw [← he, List.length_dropLast] at hlength
  rw [← he, ← List.length_eq_zero_iff, List.length_dropLast]
  omega

theorem extension_lastPart (path : Bytes) :
    Path.extension (Path.lastPart path) = Path.extension path := by
  obtain ⟨front, hfront, hpath, hlast⟩ := Path.exists_front path
  rw [← Path.extension_append_front hfront hlast, ← hpath]

theorem compiledAt_of_settle {outcomes : List (Except EmitError Bytes)} {texts : List Bytes}
    (h : settle outcomes = .ok texts) : ∀ o ∈ outcomes, ∃ text, o = .ok text := by
  unfold settle at h
  split at h
  · cases h
  · rw [Pool.mapM_id_eq] at h
    split at h
    · cases h
    · rename_i hnone
      intro o ho
      cases o with
      | ok text => exact ⟨text, rfl⟩
      | error e => cases List.findSome?_eq_none_iff.mp hnone _ ho

/-- Sources stay as they are if the extension of outputs does not end with that of sources. -/
theorem textAt?_emitDirectory {sources : Sources} {result : Except EmitError (List Bytes)}
    {file : Bytes} (hdot : Ascii.dot ∈ target.extension config)
    (hlength : 2 ≤ (target.extension config).length)
    (hslash : Ascii.slash ∉ target.extension config)
    (hext : Path.extension (target.extension config) ≠ sourceExtension)
    (hsources : (discover disk input).run t = (.ok sources, t))
    (h : (emitDirectory disk config target input []).run t = (result, t'))
    (hfile : file ∈ sources.files) : t'.textAt? (t.placeOf file) = t.textAt? (t.placeOf file) := by
  rw [run_emitDirectory hsources] at h
  cases hsettle : settle (sources.files.map (compiledAt t config target)) with
  | error e =>
    rw [hsettle] at h
    cases h
    rfl
  | ok texts =>
    rw [hsettle] at h
    simp only [Sources.write, run_bind] at h
    generalize hwrite : (writeOutputs disk (sources.outputs config target [] texts)).run t =
      written at h
    obtain ⟨r, t₁⟩ := written
    cases h
    have hread {file : Bytes} (hfile : file ∈ sources.files) : ∃ source, t.read file = .ok source := by
      obtain ⟨text, htext⟩ := compiledAt_of_settle hsettle _ (List.mem_map_of_mem hfile)
      exact read_of_compiledAt htext
    obtain ⟨source, hsource⟩ := hread hfile
    obtain ⟨-, hroot, hfound⟩ := discover_eq_ok hsources
    refine textAt?_writeOutputs_of_ne (fun o ho t₁ t₂ hwritten he => ?_) hwrite
    obtain ⟨other, hother, hpath⟩ := List.mem_map.mp (List.of_mem_zip ho).1
    obtain hname | ⟨hstem, hup⟩ := isName_append hlength (Path.lastPart (outputStem sources.root other))
    · have hlast : Path.lastPart o.1 = Path.lastPart file := by
        have hplaces := congrArg List.getLast? he
        rw [getLast?_placeOf (isName_of_write hwritten), getLast?_placeOf (isName_of_read hsource)]
          at hplaces
        exact Option.some.inj hplaces
      apply hext
      rw [← extension_outputPath hdot hslash hname, hpath, hlast, extension_lastPart,
        (hfound file hfile).1]
    · -- the output would be above a source, and nothing but directories is there
      obtain ⟨source', hsource'⟩ := hread hother
      obtain ⟨hbelow, hne⟩ := placeOf_outputPath_up (t := t)
        (hroot ▸ Path.clean_ne_nil input) (isName_of_read hsource') (hfound other hother).2 hstem
      have habove := Tree.textAt?_above hsource' hbelow hne
      rw [hup] at hpath
      change outputPath sources.root sources.root Path.up other = o.1 at hpath
      rw [hpath, he, Tree.textAt?_of_read hsource] at habove
      cases habove

/-! ## Settings -/

theorem outputExt_of_validate {level : Config.Level} (h : config.validate = .ok level) :
    config.outputExt.headD 0 = Ascii.dot ∧ 2 ≤ config.outputExt.length := by
  obtain ⟨-, -, h⟩ := bind_eq_ok.mp h
  obtain ⟨-, -, h⟩ := bind_eq_ok.mp h
  by_cases hext : config.outputExt.headD 0 ≠ Ascii.dot ∨ config.outputExt.length < 2
  · by_cases hworkers : config.workers < 1
    · rw [if_pos hworkers] at h
      cases h
    · rw [if_neg hworkers] at h
      simp only [if_pos hext] at h
      cases h
  · obtain ⟨hdot, hlength⟩ := not_or.mp hext
    exact ⟨Classical.not_not.mp hdot, by omega⟩

theorem extension_dotted {level : Config.Level} (h : config.validate = .ok level)
    (target : Target) :
    Ascii.dot ∈ target.extension config ∧ 2 ≤ (target.extension config).length := by
  obtain ⟨hdot, hlength⟩ := outputExt_of_validate h
  cases target with
  | lua =>
    cases hext : config.outputExt with
    | nil =>
      rw [hext] at hlength
      cases hlength
    | cons b rest =>
      rw [hext] at hdot hlength
      obtain rfl : b = Ascii.dot := hdot
      simpa [Target.extension, hext] using hlength
  | ir =>
    change Ascii.dot ∈ Bytes.ofString ".ir.yaml" ∧ 2 ≤ (Bytes.ofString ".ir.yaml").length
    decide
  | ast =>
    change Ascii.dot ∈ Bytes.ofString ".ast.txt" ∧ 2 ≤ (Bytes.ofString ".ast.txt").length
    decide

/-- The extensions that are not settings. -/
theorem fixed_extension_safe (h : ext = ".ir.yaml" ∨ ext = ".ast.txt") :
    Ascii.slash ∉ ext ∧ Path.extension ext ≠ sourceExtension ∧
      ∀ input, Path.extension input ≠ ext := by
  obtain rfl | rfl := h
  · exact ⟨by decide, by decide, extension_ne_of_dots (by decide)⟩
  · exact ⟨by decide, by decide, extension_ne_of_dots (by decide)⟩

/-- Without an output path, the output of a source goes to the path of the source exactly if
that has the extension of outputs. Otherwise a build leaves its sources as they are, unless
the extension has a slash or, for a directory, ends with the extension of sources.
The extensions that are not settings are safe. -/
theorem emit_beside_keeps_sources {level : Config.Level} (hconfig : config.validate = .ok level)
    (target : Target) :
    (∀ t input result t', (emitFile disk config target input []).run t = (result, t') →
      (∀ path, result = .ok path →
        (path = input ↔ Path.extension input = target.extension config)) ∧
      (Ascii.slash ∉ target.extension config →
        Path.extension input ≠ target.extension config →
        t'.textAt? (t.placeOf input) = t.textAt? (t.placeOf input))) ∧
    (∀ t input sources result t', (discover disk input).run t = (.ok sources, t) →
      (emitDirectory disk config target input []).run t = (result, t') →
      Ascii.slash ∉ target.extension config →
      Path.extension (target.extension config) ≠ sourceExtension →
      ∀ file ∈ sources.files, t'.textAt? (t.placeOf file) = t.textAt? (t.placeOf file)) ∧
    (target ≠ .lua → Ascii.slash ∉ target.extension config ∧
      Path.extension (target.extension config) ≠ sourceExtension ∧
      ∀ input, Path.extension input ≠ target.extension config) := by
  obtain ⟨hdot, hlength⟩ := extension_dotted hconfig target
  refine ⟨fun t input result t' h => ?_, fun t input sources result t' hsources h hslash hext
    file hfile => ?_, fun htarget => ?_⟩
  · obtain ⟨e, -, rfl, rfl⟩ | ⟨text, r, htext, hwrite, rfl⟩ := emitFile_cases h
    · exact ⟨(fun path hpath => by cases hpath), fun _ _ => rfl⟩
    · refine ⟨fun path hpath => ?_, fun hslash hne => ?_⟩
      · cases r with
        | error e => cases hpath
        | ok =>
          obtain rfl : besideInput input (target.extension config) = path := Except.ok.inj hpath
          exact besideInput_eq_iff
      · obtain ⟨source, hread⟩ := read_of_compiledAt htext
        obtain ⟨t₁, hfiles, ⟨-, hwritten⟩ | ⟨e, -, -, rfl⟩⟩ := writeOutput_cases hwrite
        · have hplaces := placeOf_besideInput_ne (t := t) (isName_of_read hread) hslash hne
            (isName_of_write hwritten)
          rw [Tree.textAt?_of_write hwritten, Tree.placeOf_congr hfiles.2,
            Function.update_of_ne hplaces.symm, textAt?_congr hfiles]
        · rw [textAt?_congr hfiles]
  · exact textAt?_emitDirectory hdot hlength hslash hext hsources h hfile
  · cases target with
    | lua => exact absurd rfl htarget
    | ir => exact fixed_extension_safe (.inl rfl)
    | ast => exact fixed_extension_safe (.inr rfl)

/-- A source in the working directory, and one in a directory below it. -/
def twoSources : Tree where
  files := [(["w", "a.rs"], "fn f()\x7b\x7d"), (["w", "d", "b.rs"], "fn g()\x7b\x7d")]
  home := ["w"]

theorem discover_twoSources : (discover disk ".").run twoSources =
    (.ok ⟨".", ["a.rs", "d/b.rs"]⟩, twoSources) :=
  run_discover (Prod.ext (ok_of_toOption (by decide +kernel)) rfl) (by simp) (by decide +kernel)
    (by decide +kernel)

theorem emit_beside_keeps_sources_nested :
    ∃ result t', (emitDirectory disk {} .lua "." []).run twoSources = (result, t') ∧
      result = .ok ["a.lua", "d/b.lua"] ∧
      ∀ file ∈ (["a.rs", "d/b.rs"] : List Bytes),
        t'.textAt? (twoSources.placeOf file) = twoSources.textAt? (twoSources.placeOf file) := by
  obtain ⟨level, hlevel⟩ : ∃ level, ({} : Config).validate = .ok level :=
    ⟨Config.Level.info, ok_of_toOption (by decide +kernel)⟩
  obtain ⟨-, hdirectory, -⟩ := emit_beside_keeps_sources hlevel .lua
  have hresult : ((emitDirectory disk {} .lua "." []).run twoSources).1 =
      .ok ["a.lua", "d/b.lua"] := by
    rw [run_emitDirectory discover_twoSources]
    exact ok_of_toOption (by decide +kernel)
  exact ⟨_, _, Prod.ext hresult rfl, rfl, hdirectory _ _ _ _ _ discover_twoSources
    (Prod.ext hresult rfl) (by decide) (by decide)⟩

/-- A file with the extension of outputs is compiled in place, and so are the sources of a
directory if outputs are to have their extension. -/
theorem emit_beside_overwrites_source :
    (∃ level, ({} : Config).validate = .ok level) ∧
    (∃ t', (emitFile disk {} .lua "a.lua" []).run ⟨[(["a.lua"], "fn f()\x7b\x7d")], [], []⟩ =
        (.ok "a.lua", t') ∧ t'.textAt? ["a.lua"] = some "function f()end;") ∧
    (∃ level, ({ outputExt := ".rs" } : Config).validate = .ok level) ∧
    ∃ t', (emitDirectory disk { outputExt := ".rs" } .lua "." []).run twoSources =
        (.ok ["a.rs", "d/b.rs"], t') ∧ t'.textAt? ["w", "a.rs"] = some "function f()end;" := by
  refine ⟨⟨Config.Level.info, ok_of_toOption (by decide +kernel)⟩,
    ⟨_, Prod.ext (ok_of_toOption (by decide +kernel)) rfl, by decide +kernel⟩,
    ⟨Config.Level.info, ok_of_toOption (by decide +kernel)⟩, ?_⟩
  rw [run_emitDirectory discover_twoSources]
  exact ⟨_, Prod.ext (ok_of_toOption (by decide +kernel)) rfl, by decide +kernel⟩

end Build
end RustLua
