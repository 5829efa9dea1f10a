import RustLua.Build.Emit
import RustLua.Proofs.Path

/-! # Outputs do not meet

The parts of a clean path are steps upwards, and behind them names. Names that are joined to a
directory stand behind its parts, and so the path from the directory to them can be read off
again. Different sources below a directory therefore have different outputs below any other. -/
namespace RustLua

namespace Path

variable {rooted : Bool} {before parts names : List Bytes} {path rel root : Bytes}

/-! ## Parts of clean paths -/

/-- Names of files and directories. -/
def AreNames (names : List Bytes) : Prop := ∀ name ∈ names, IsName name ∧ Ascii.slash ∉ name

/-- The parts of a clean path, the last one first. -/
def IsStack (rooted : Bool) (before : List Bytes) : Prop :=
  ∃ names ups, before = names ++ ups ∧ AreNames names ∧ (∀ u ∈ ups, u = up) ∧
    (rooted → ups = [])

theorem isStack_cleanStep {part : Bytes} (h : IsStack rooted before) (hpart : Ascii.slash ∉ part) :
    IsStack rooted (cleanStep rooted before part) := by
  obtain ⟨names, ups, rfl, hnames, hups, hrooted⟩ := h
  unfold cleanStep
  split
  · exact ⟨names, ups, rfl, hnames, hups, hrooted⟩
  · rename_i hkept
    split
    · cases names with
      | cons name names =>
        obtain ⟨⟨-, -, hne⟩, -⟩ := hnames name (by simp)
        simp only [List.cons_append, if_neg hne]
        exact ⟨names, ups, rfl, fun n hn => hnames n (by simp [hn]), hups, hrooted⟩
      | nil =>
        cases ups with
        | nil => exact ⟨[], if rooted then [] else [up], rfl, hnames, by split <;> simp, by simp⟩
        | cons u ups =>
          obtain rfl : u = up := hups u (by simp)
          simp only [List.nil_append, if_true]
          exact ⟨[], up :: up :: ups, rfl, hnames, by simpa using hups,
            fun h => by simpa using hrooted h⟩
    · rename_i hup
      have hname : IsName part := by simpa [IsName, hup] using hkept
      exact ⟨part :: names, ups, rfl, List.forall_mem_cons.mpr ⟨⟨hname, hpart⟩, hnames⟩, hups,
        hrooted⟩

theorem isStack_cleanParts (path : Bytes) :
    IsStack (cleanParts path).rooted (cleanParts path).parts.reverse := by
  have hfold {parts before : List Bytes} (hparts : ∀ part ∈ parts, Ascii.slash ∉ part)
      (h : IsStack (decide (path.headD 0 = Ascii.slash)) before) :
      IsStack (decide (path.headD 0 = Ascii.slash))
        (parts.foldl (cleanStep (path.headD 0 = Ascii.slash)) before) := by
    induction parts generalizing before with
    | nil => exact h
    | cons part parts ih =>
      obtain ⟨hpart, hparts⟩ := List.forall_mem_cons.mp hparts
      exact ih hparts (isStack_cleanStep h hpart)
  rw [cleanParts, List.reverse_reverse]
  exact hfold (fun _ => Bytes.notMem_of_mem_splitOnByte)
    ⟨[], [], rfl, by simp [AreNames], by simp, fun _ => rfl⟩

theorem IsStack.part {part : Bytes} (h : IsStack rooted before) (hpart : part ∈ before) :
    part ≠ [] ∧ Ascii.slash ∉ part := by
  obtain ⟨names, ups, rfl, hnames, hups, -⟩ := h
  rcases List.mem_append.mp hpart with hpart | hpart
  · exact ⟨(hnames part hpart).1.1, (hnames part hpart).2⟩
  · rw [hups part hpart]
    decide

theorem foldl_cleanStep_names (h : AreNames names) :
    names.foldl (cleanStep rooted) before = names.reverse ++ before := by
  induction names generalizing before with
  | nil => rfl
  | cons name names ih =>
    obtain ⟨⟨hname, -⟩, hnames⟩ := List.forall_mem_cons.mp h
    rw [List.foldl_cons, cleanStep_name hname, ih hnames]
    simp

theorem foldl_cleanStep_ups {ups : List Bytes} (h : ∀ u ∈ ups, u = up)
    (hbefore : ∀ u ∈ before, u = up) :
    ups.foldl (cleanStep false) before = ups.reverse ++ before := by
  induction ups generalizing before with
  | nil => rfl
  | cons u ups ih =>
    obtain ⟨rfl, hups⟩ := List.forall_mem_cons.mp h
    have hstep : cleanStep false before up = up :: before := by
      cases before with
      | nil => rfl
      | cons u before =>
        obtain rfl := hbefore u (by simp)
        rfl
    rw [List.foldl_cons, hstep, ih hups (by simpa using hbefore)]
    simp

theorem splitOnByte_join (hne : parts ≠ []) (h : ∀ part ∈ parts, Ascii.slash ∉ part) :
    Bytes.splitOnByte Ascii.slash (Bytes.join "/" parts) = parts := by
  induction parts with
  | nil => exact absurd rfl hne
  | cons part parts ih =>
    obtain ⟨hpart, hparts⟩ := List.forall_mem_cons.mp h
    cases parts with
    | nil =>
      have hjoin : Bytes.join "/" [part] = part := by simp [Bytes.join]
      rw [hjoin, Bytes.splitOnByte_of_notMem hpart]
    | cons next parts =>
      rw [join_cons, Bytes.splitOnByte_append, Bytes.splitOnByte_of_notMem hpart,
        ih (by simp) hparts]
      rfl

theorem headD_join {part : Bytes} (hne : part ≠ []) (hpart : Ascii.slash ∉ part) :
    (Bytes.join "/" (part :: parts)).headD 0 ≠ Ascii.slash := by
  obtain ⟨b, rest, rfl⟩ := List.exists_cons_of_ne_nil hne
  have hb : b ≠ Ascii.slash := fun h => hpart (by simp [h])
  cases parts with
  | nil => simpa [Bytes.join] using hb
  | cons next parts => simpa [join_cons] using hb

/-- A clean path has its own parts. -/
theorem cleanParts_text {p : Parts} (h : IsStack p.rooted p.parts.reverse) :
    cleanParts p.text = p := by
  obtain ⟨rooted, parts⟩ := p
  have hpart (part : Bytes) (hp : part ∈ parts) : part ≠ [] ∧ Ascii.slash ∉ part :=
    h.part (List.mem_reverse.mpr hp)
  obtain ⟨names, ups, hparts, hnames, hups, hrooted⟩ := h
  obtain rfl : parts = ups.reverse ++ names.reverse := by simpa using congrArg List.reverse hparts
  generalize hall : ups.reverse ++ names.reverse = parts at hpart
  have hfold : parts.foldl (cleanStep rooted) [] = parts.reverse := by
    have hnames' : AreNames names.reverse := fun n hn => hnames n (List.mem_reverse.mp hn)
    subst hall
    rw [List.foldl_append, foldl_cleanStep_names hnames']
    cases rooted with
    | true => simp [hrooted rfl]
    | false =>
      have hups' : ∀ u ∈ ups.reverse, u = up := by simpa using hups
      simp [foldl_cleanStep_ups hups']
  have hsplit : (Bytes.splitOnByte Ascii.slash (Bytes.join "/" parts)).foldl (cleanStep rooted) [] =
      parts.reverse := by
    cases parts with
    | nil => rfl
    | cons part parts =>
      rw [splitOnByte_join (List.cons_ne_nil _ _) (fun p hp => (hpart p hp).2), hfold]
  cases rooted with
  | true =>
    have htext : Parts.text ⟨true, parts⟩ = [] ++ Ascii.slash :: Bytes.join "/" parts := rfl
    rw [htext, cleanParts, Bytes.splitOnByte_append]
    simpa [Bytes.splitOnByte, cleanStep] using congrArg List.reverse hsplit
  | false =>
    cases parts with
    | nil => rfl
    | cons part parts =>
      obtain ⟨hne, hslash⟩ := hpart part (by simp)
      have htext : Parts.text ⟨false, part :: parts⟩ = Bytes.join "/" (part :: parts) := rfl
      rw [htext, cleanParts]
      simp only [decide_eq_false (headD_join hne hslash), hsplit, List.reverse_reverse]

theorem cleanParts_clean (path : Bytes) : cleanParts (clean path) = cleanParts path :=
  cleanParts_text (isStack_cleanParts path)

theorem clean_ne_nil (path : Bytes) : clean path ≠ [] := by
  unfold clean Parts.text
  split
  · exact List.append_ne_nil_of_left_ne_nil (by decide) _
  · split
    · decide
    · rename_i hparts
      obtain ⟨part, parts, hcons⟩ := List.exists_cons_of_ne_nil (show _ ≠ [] by simpa using hparts)
      have hne : part ≠ [] := ((isStack_cleanParts path).part (by simp [hcons])).1
      rw [hcons]
      cases parts with
      | nil => simpa [Bytes.join] using hne
      | cons next parts => simp [join_cons]

/-- What is joined to a path is cleaned behind its parts. -/
theorem cleanParts_join_of_ne_nil (hpath : path ≠ []) (rel : Bytes) :
    cleanParts (join path rel) = ⟨(cleanParts path).rooted,
      ((Bytes.splitOnByte Ascii.slash rel).foldl (cleanStep (cleanParts path).rooted)
        (cleanParts path).parts.reverse).reverse⟩ := by
  obtain ⟨b, path, rfl⟩ := List.exists_cons_of_ne_nil hpath
  have hcut : b :: path ++ "/" ++ rel = (b :: path) ++ Ascii.slash :: rel := by
    rw [List.append_assoc]
    rfl
  rw [join, if_neg (by simp), cleanParts_clean, hcut, cleanParts, Bytes.splitOnByte_append,
    List.foldl_append]
  simp [cleanParts]

/-- Names that are joined to a path stand behind its parts. -/
theorem cleanParts_join (hne : names ≠ []) (h : AreNames names) (path : Bytes) :
    cleanParts (join path (Bytes.join "/" names)) =
      ⟨(cleanParts path).rooted, (cleanParts path).parts ++ names⟩ := by
  have hsplit := splitOnByte_join hne fun name hname => (h name hname).2
  cases path with
  | nil =>
    obtain ⟨name, names, rfl⟩ := List.exists_cons_of_ne_nil hne
    have hsome : (Bytes.join "/" (name :: names)).isEmpty = false := by
      rw [List.isEmpty_eq_false_iff]
      intro hempty
      rw [hempty] at hsplit
      exact (h name (by simp)).1.1 (List.cons.inj hsplit).1.symm
    have hstack : IsStack false (name :: names).reverse :=
      ⟨_, [], (List.append_nil _).symm, fun n hn => h n (List.mem_reverse.mp hn), by simp, by simp⟩
    rw [join, List.isEmpty_nil, if_pos rfl, hsome, if_neg Bool.false_ne_true, cleanParts_clean]
    exact cleanParts_text (p := ⟨false, name :: names⟩) hstack
  | cons b path =>
    rw [cleanParts_join_of_ne_nil (List.cons_ne_nil _ _), hsplit, foldl_cleanStep_names h]
    simp

theorem dropCommon_append (c a b : List Bytes) :
    dropCommon (c ++ a) (c ++ b) = dropCommon a b := by
  induction c with
  | nil => rfl
  | cons x c ih => rw [List.cons_append, List.cons_append, dropCommon, if_pos rfl, ih]

/-- The path from a directory to names that are joined to it is made of these names. -/
theorem relative?_join (hne : names ≠ []) (h : AreNames names) (root : Bytes) :
    relative? root (join root (Bytes.join "/" names)) = some (Bytes.join "/" names) := by
  have hparts : (cleanParts root).parts ++ names ≠ [] := by simp [hne]
  have hother : cleanParts root ≠ ⟨(cleanParts root).rooted, (cleanParts root).parts ++ names⟩ := by
    intro he
    have := congrArg Parts.parts he
    simp [hne] at this
  have hcommon := dropCommon_append (cleanParts root).parts [] names
  rw [List.append_nil] at hcommon
  simp only [relative?, cleanParts_join hne h, if_neg hother]
  simp [hne, relativeParts?, hcommon, dropCommon]

/-! ## From a directory to what is below it -/

theorem dropCommon_eq (a b : List Bytes) :
    ∃ c l r, dropCommon a b = (l, r) ∧ a = c ++ l ∧ b = c ++ r := by
  fun_induction dropCommon a b with
  | case1 a x b ih =>
    obtain ⟨c, l, r, h, rfl, rfl⟩ := ih
    exact ⟨x :: c, l, r, h, rfl, rfl⟩
  | case2 | case3 => exact ⟨[], _, _, rfl, rfl, rfl⟩

/-- Steps upwards at the beginning of a path stay there. -/
theorem suffix_foldl_cleanStep {ups : List Bytes} (hups : ∀ u ∈ ups, u = up)
    (h : ups <:+ before) : ups <:+ parts.foldl (cleanStep rooted) before := by
  induction parts generalizing before with
  | nil => exact h
  | cons part parts ih =>
    refine ih ?_
    unfold cleanStep
    split
    · exact h
    · split
      · cases before with
        | nil => exact List.suffix_nil.mp h ▸ List.nil_suffix
        | cons last rest =>
          simp only
          split
          · exact h.trans (List.suffix_cons _ _)
          · rename_i hlast
            refine (List.suffix_cons_iff.mp h).resolve_left fun he => hlast (hups last ?_)
            simp [he]
      · exact h.trans (List.suffix_cons _ _)

/-- The way from a directory to what is below it: upwards over names, and then down. -/
theorem relative?_below (hroot : root ≠ []) (hname : IsName (lastPart path))
    (hpath : path = root ∨ ∃ rel, path = join root rel) :
    (relative? root path = some here ∧ cleanParts path = cleanParts root) ∨
    ∃ names common down, AreNames names ∧ (cleanParts root).parts = common ++ names ∧
      cleanParts path = ⟨(cleanParts root).rooted, common ++ down⟩ ∧ (names = [] → down ≠ []) ∧
      relative? root path = some (Bytes.join "/" (names.map (fun _ => up) ++ down)) := by
  by_cases hsame : cleanParts root = cleanParts path
  · exact .inl ⟨if_pos hsame, hsame.symm⟩
  obtain ⟨rel, rfl⟩ := hpath.resolve_left fun he => hsame (by rw [he])
  obtain ⟨names, ups, hstack, hnames, hups, -⟩ := isStack_cleanParts root
  have hback : (cleanParts root).parts = ups.reverse ++ names.reverse := by
    rw [← List.reverse_append, ← hstack, List.reverse_reverse]
  have hparts := cleanParts_join_of_ne_nil hroot rel
  have hfront : ups <:+ (Bytes.splitOnByte Ascii.slash rel).foldl
      (cleanStep (cleanParts root).rooted) (cleanParts root).parts.reverse :=
    suffix_foldl_cleanStep hups (hstack ▸ List.suffix_append names ups)
  obtain ⟨rest, hrest⟩ := hfront
  rw [← hrest, List.reverse_append] at hparts
  obtain ⟨common, back, down, hdrop, hcommon, hdown⟩ := dropCommon_eq names.reverse rest.reverse
  have hareNames : AreNames back := fun n hn =>
    hnames n (List.mem_reverse.mp (hcommon ▸ List.mem_append_right _ hn))
  refine .inr ⟨back, ups.reverse ++ common, down, hareNames, ?_, ?_, ?_, ?_⟩
  · rw [hback, List.append_assoc, ← hcommon]
  · rw [hparts, List.append_assoc, ← hdown]
  · rintro rfl rfl
    exact hsame (by rw [hparts, hdown, ← hcommon, ← hback])
  · obtain ⟨before, hlast⟩ := exists_cleanParts hname
    have hsome : (!(cleanParts (join root rel)).parts.isEmpty) = true := by simp [hlast]
    rw [relative?]
    simp only [if_neg hsame, hsome, Bool.or_true, if_true, relativeParts?]
    rw [if_neg (by rw [hparts]; simp), hback, hparts, dropCommon_append, hdrop]
    cases back with
    | nil => rfl
    | cons first more =>
      cases down with
      | nil => rfl
      | cons b bs =>
        have hfirst := (hareNames first (by simp)).1.2.2
        simp [hfirst]

end Path

namespace Build

variable {root ext rel rel₁ rel₂ file file₁ file₂ stem : Bytes}

/-- A source below a directory: a clean path that leads downwards to it is joined to that of the
directory. -/
structure SourceBelow (root rel file : Bytes) : Prop where
  file_eq : file = Path.join root rel
  clean : Path.clean rel = rel
  relative : rel.head? ≠ some Ascii.slash
  down : ¬Bytes.ofString "../" <+: rel
  source : sourceExtension <:+ rel

def isAlphanumeric (b : UInt8) : Bool := Ascii.isLower b || Ascii.isUpper b || Ascii.isDigit b

/-- A dot, and behind it letters, digits and dots, not dots alone. -/
def PlainExtension (ext : Bytes) : Prop :=
  ∃ rest, ext = Ascii.dot :: rest ∧ (∀ b ∈ rest, isAlphanumeric b ∨ b = Ascii.dot) ∧
    ∃ b ∈ rest, isAlphanumeric b

/-- A source below a directory is reached through names. -/
theorem SourceBelow.names (h : SourceBelow root rel file) :
    ∃ names, names ≠ [] ∧ Path.AreNames names ∧ rel = Bytes.join "/" names := by
  obtain ⟨names, ups, hparts, hnames, hups, -⟩ := Path.isStack_cleanParts rel
  have hrooted : (Path.cleanParts rel).rooted = false := by
    refine decide_eq_false fun hhead => h.relative ?_
    cases rel with
    | nil => exact absurd hhead (by decide)
    | cons b rest => exact congrArg some hhead
  have hrel : rel = Path.Parts.text ⟨false, ups.reverse ++ names.reverse⟩ := by
    rw [← List.reverse_append, ← hparts, List.reverse_reverse, ← hrooted]
    exact h.clean.symm
  have hreversed : Path.AreNames names.reverse := fun n hn => hnames n (List.mem_reverse.mp hn)
  cases hback : ups.reverse with
  | nil =>
    rw [hback, List.nil_append] at hrel
    cases hnone : names.reverse with
    | nil =>
      rw [hrel, hnone] at h
      exact absurd h.source (by decide)
    | cons name more =>
      rw [hnone] at hrel hreversed
      exact ⟨_, List.cons_ne_nil _ _, hreversed, hrel⟩
  | cons u more =>
    -- the first step leads upwards, and either it is the only one or a slash follows
    obtain rfl : u = Path.up := hups u (List.mem_reverse.mp (by simp [hback]))
    rw [hback, List.cons_append] at hrel
    cases hrest : more ++ names.reverse with
    | nil =>
      rw [hrel, hrest] at h
      exact absurd h.source (by decide)
    | cons next rest =>
      have htext : rel = Bytes.join "/" (Path.up :: next :: rest) := by rw [hrel, hrest]; rfl
      exact absurd ⟨_, (htext.trans (Path.join_cons _ _ _)).symm⟩ h.down

theorem PlainExtension.slash_notMem (h : PlainExtension ext) : Ascii.slash ∉ ext := by
  obtain ⟨rest, rfl, hrest, -⟩ := h
  intro hmem
  rcases List.mem_cons.mp hmem with hdot | hmem
  · cases hdot
  · rcases hrest _ hmem with halpha | hdot
    · cases halpha
    · cases hdot

theorem PlainExtension.isName_append (h : PlainExtension ext) (s : Bytes) :
    Path.IsName (s ++ ext) := by
  obtain ⟨rest, rfl, -, b, hb, halpha⟩ := h
  have hdots {part : Bytes} (hpart : part.all (· == Ascii.dot) = true) :
      s ++ Ascii.dot :: rest ≠ part := by
    rintro rfl
    have hdot : b = Ascii.dot := by simpa using List.all_eq_true.mp hpart b (by simp [hb])
    rw [hdot] at halpha
    cases halpha
  exact ⟨hdots rfl, hdots rfl, hdots rfl⟩

/-- Another ending of the last name makes another name of it. -/
theorem exists_names_append (hext : PlainExtension ext) {names : List Bytes} (hne : names ≠ [])
    (h : Path.AreNames names) (hrel : stem ++ sourceExtension = Bytes.join "/" names) :
    ∃ names', names' ≠ [] ∧ Path.AreNames names' ∧ stem ++ ext = Bytes.join "/" names' := by
  obtain rfl | ⟨init, last, rfl⟩ := names.eq_nil_or_concat
  · exact absurd rfl hne
  rw [List.concat_eq_append] at h hrel
  obtain ⟨front, hfront, hjoin⟩ := Path.exists_front_join init
  obtain ⟨hinit, hlast⟩ := List.forall_mem_append.mp h
  obtain ⟨-, hslash⟩ := hlast last (by simp)
  rw [hjoin] at hrel
  obtain rfl : last = Path.lastPart stem ++ sourceExtension := by
    rw [← Path.lastPart_append_ext (by decide), hrel, Path.lastPart_append hfront hslash]
  have hstem : stem = front ++ Path.lastPart stem :=
    List.append_cancel_right (hrel.trans (List.append_assoc ..).symm)
  refine ⟨init ++ [Path.lastPart stem ++ ext], by simp, ?_, ?_⟩
  · refine List.forall_mem_append.mpr ⟨hinit, ?_⟩
    simp only [List.mem_singleton, forall_eq, List.mem_append, not_or] at hslash ⊢
    exact ⟨hext.isName_append _, hslash.1, hext.slash_notMem⟩
  · rw [hjoin, ← List.append_assoc, ← hstem]

/-- The output of a source below a directory is as far below the output directory. -/
theorem SourceBelow.outputPath_eq (hext : PlainExtension ext) (h : SourceBelow root rel file)
    (outDir : Bytes) :
    ∃ stem names, rel = stem ++ sourceExtension ∧ Bytes.dropEnding sourceExtension rel = stem ∧
      names ≠ [] ∧ Path.AreNames names ∧ stem ++ ext = Bytes.join "/" names ∧
      outputPath root outDir ext file = Path.join outDir (stem ++ ext) := by
  obtain ⟨stem, rfl⟩ := h.source
  obtain ⟨names, hne, hnames, hrel⟩ := h.names
  obtain ⟨names', hne', hnames', hout⟩ := exists_names_append hext hne hnames hrel
  have hextension : Path.extension (stem ++ sourceExtension) = sourceExtension :=
    Path.extension_append (by decide) (by decide) stem
  have hwithout : Path.withoutExtension (stem ++ sourceExtension) = stem := by
    have := Path.withoutExtension_append (stem ++ sourceExtension)
    rw [hextension] at this
    exact List.append_cancel_right this
  refine ⟨stem, names', rfl, ?_, hne', hnames', hout, ?_⟩
  · rwa [Path.withoutExtension, hextension] at hwithout
  · rw [outputPath, h.file_eq, hrel, Path.relative?_join hne hnames, Option.getD_some, ← hrel,
      hwithout]

/-- Different sources below a directory have different outputs, each below the output directory
as the source is below its own, with the other extension. -/
theorem outputPath_distinct (hext : PlainExtension ext) (h₁ : SourceBelow root rel₁ file₁)
    (h₂ : SourceBelow root rel₂ file₂) (hne : file₁ ≠ file₂) (outDir : Bytes) :
    outputPath root outDir ext file₁ ≠ outputPath root outDir ext file₂ ∧
      outputPath root outDir ext file₁ =
        Path.join outDir (Bytes.dropEnding sourceExtension rel₁ ++ ext) ∧
      outputPath root outDir ext file₂ =
        Path.join outDir (Bytes.dropEnding sourceExtension rel₂ ++ ext) := by
  obtain ⟨stem₁, names₁, hrel₁, hdrop₁, hsome₁, hnames₁, hjoin₁, hout₁⟩ :=
    h₁.outputPath_eq hext outDir
  obtain ⟨stem₂, names₂, hrel₂, hdrop₂, hsome₂, hnames₂, hjoin₂, hout₂⟩ :=
    h₂.outputPath_eq hext outDir
  refine ⟨fun hsame => hne ?_, hdrop₁ ▸ hout₁, hdrop₂ ▸ hout₂⟩
  have hback₁ := Path.relative?_join hsome₁ hnames₁ outDir
  have hback₂ := Path.relative?_join hsome₂ hnames₂ outDir
  rw [← hjoin₁, ← hout₁, hsame, hout₂, hjoin₂, hback₂, ← hjoin₂] at hback₁
  have hstem : stem₂ = stem₁ := List.append_cancel_right (Option.some.inj hback₁)
  rw [h₁.file_eq, h₂.file_eq, hrel₁, hrel₂, hstem]

/-- A file whose whole name is the extension, and an output directory beside the root. -/
theorem outputPath_distinct_bare_extension :
    outputPath "src" "../out" ".ir.yaml" "src/a/.rs" ≠
        outputPath "src" "../out" ".ir.yaml" "src/a/b.rs" ∧
      outputPath "src" "../out" ".ir.yaml" "src/a/.rs" = Bytes.ofString "../out/a/.ir.yaml" := by
  have hbelow (rel : Bytes) (hclean : Path.clean rel = rel) (hrelative : rel.head? ≠ some Ascii.slash)
      (hdown : ¬Bytes.ofString "../" <+: rel) (hsource : sourceExtension <:+ rel) :
      SourceBelow "src" rel (Path.join "src" rel) := ⟨rfl, hclean, hrelative, hdown, hsource⟩
  have hplain : (Bytes.ofString "ir.yaml").all (fun b => isAlphanumeric b || b == Ascii.dot) = true :=
    rfl
  have hext : PlainExtension ".ir.yaml" := ⟨Bytes.ofString "ir.yaml", rfl, by simpa using hplain,
    Bytes.ofAscii 'y', List.elem_iff.mp rfl, rfl⟩
  have h := outputPath_distinct hext
    (hbelow "a/.rs" (by decide) (by decide) (by decide) (by decide))
    (hbelow "a/b.rs" (by decide) (by decide) (by decide) (by decide)) (by decide) "../out"
  exact ⟨h.1, h.2.1.trans (by decide)⟩

end Build
end RustLua
