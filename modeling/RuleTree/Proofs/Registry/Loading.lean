import RuleTree.Proofs.Registry
import RuleTree.Rules.Parsers
/-!
# Loading a directory

A file gives an engine if it has the suffix of a rule file and holds a map of rules whose graph
can be made (`Registry.Gives`), whatever the parsers of the two formats are. Loading files one
after the other binds every name to the engine that the last of its files gives, and leaves a
name bound as it was if none of its files gives one (`Registry.Loaded`), whatever keeps the other
files from giving one. An entry of a directory can be anything, also a directory with the suffix
of a rule file; only a registry whose own directory is a file cannot be loaded
(`Registry.loadDirectory_keeps`). With the parsers of the program, a file that loads binds its name
beside one that does not (`Registry.loadDirectory_keeps_sales`).
-/

namespace RuleTree

/-! ## Rule files -/

namespace Rules

variable {parsers : Parsers} {tree : FileTree} {file : FilePath} {rules : Value}

/-- The suffix is that of a rule file, in letters of either case. -/
def HasSuffix (file : FilePath) : Prop := file.suffix.toLower ∈ [".json", ".yaml", ".yml"]

/-- A text is rules to the parser that the suffix of the file tells. -/
def Parses (parsers : Parsers) (file : FilePath) (text : String) (rules : Value) : Prop :=
  (file.suffix.toLower = ".json" ∧ parsers.json text = .ok rules) ∨
    (file.suffix.toLower = ".yaml" ∨ file.suffix.toLower = ".yml") ∧ parsers.yaml text = .ok rules

/-- A map of rules is written in a file: its bytes are a text, and the text, with every line end
as a newline, is the map to the parser that the suffix tells. -/
structure Holds (parsers : Parsers) (tree : FileTree) (file : FilePath) (rules : Value) :
    Prop where
  written : ∃ content text, tree.find? file = some (.file content) ∧
    String.fromUTF8? content = some text ∧
    Parses parsers file (String.ofList (newlines text.toList)) rules
  isMap : rules.isMap = true

theorem isSome_ofPath?_iff : (Format.ofPath? file).isSome = true ↔ HasSuffix file :=
  Entries.isSome_get?_iff

/-- The format of a path is the one of its suffix. -/
theorem ofPath?_eq_some_iff {format : Format} : Format.ofPath? file = some format ↔
    (file.suffix.toLower = ".json" ∧ format = .json) ∨
      (file.suffix.toLower = ".yaml" ∨ file.suffix.toLower = ".yml") ∧ format = .yaml := by
  rw [Format.ofPath?]
  simp only [Entries.get?]
  generalize file.suffix.toLower = suffix
  by_cases hjson : suffix = ".json"
  · simp [hjson, eq_comm]
  by_cases hyaml : suffix = ".yaml"
  · simp [hyaml, eq_comm]
  by_cases hyml : suffix = ".yml"
  · simp [hyml, eq_comm]
  simp [hjson, hyaml, hyml, Ne.symm hjson, Ne.symm hyaml, Ne.symm hyml]

/-- The suffix tells the format, and the format the parser. -/
theorem parses_iff {text : String} : Parses parsers file text rules ↔
    ∃ format, Format.ofPath? file = some format ∧ parsers.parse format text = .ok rules := by
  constructor
  · rintro (⟨hsuffix, hrules⟩ | ⟨hsuffix, hrules⟩)
    · exact ⟨.json, ofPath?_eq_some_iff.mpr (Or.inl ⟨hsuffix, rfl⟩), hrules⟩
    · exact ⟨.yaml, ofPath?_eq_some_iff.mpr (Or.inr ⟨hsuffix, rfl⟩), hrules⟩
  · rintro ⟨format, hformat, hrules⟩
    rcases ofPath?_eq_some_iff.mp hformat with ⟨hsuffix, rfl⟩ | ⟨hsuffix, rfl⟩
    · exact Or.inl ⟨hsuffix, hrules⟩
    · exact Or.inr ⟨hsuffix, hrules⟩

/-- Loading gives the map of rules that the file holds. -/
theorem load_eq_ok_iff : load parsers tree file = .ok rules ↔ Holds parsers tree file rules := by
  constructor
  · intro h
    unfold load at h
    split at h
    · next entry hentry =>
      split at h
      · next format hformat =>
        split at h
        · next content =>
          split at h
          · next text htext =>
            obtain ⟨parsed, hparsed, h⟩ := exists_of_bind_eq_ok h
            split_ifs at h with hmap
            obtain rfl := Except.ok.inj h
            have hparses := parses_iff.mpr ⟨format, hformat, of_mapError_eq_ok hparsed⟩
            exact ⟨⟨content, text, hentry, htext, hparses⟩, hmap⟩
          · cases h
        · cases h
      · cases h
    · cases h
  · rintro ⟨⟨content, text, hentry, htext, hparses⟩, hmap⟩
    obtain ⟨format, hformat, hparsed⟩ := parses_iff.mp hparses
    rw [load, hentry, hformat]
    dsimp only
    rw [htext]
    dsimp only
    rw [hparsed]
    exact if_pos hmap

end Rules

namespace Registry

open Rules

variable {parsers : Parsers} {tree : FileTree} {settings : Settings} {file : FilePath}
  {name : String} {e : Engine} {r r' r'' : Registry} {files files' : List FilePath}

/-- A file with the suffix of a rule file holds a map of rules, and the engine is a new one over
these, with their graph. -/
structure Gives (parsers : Parsers) (settings : Settings) (tree : FileTree) (file : FilePath)
    (e : Engine) : Prop where
  suffix : HasSuffix file
  rules : Holds parsers tree file e.rules
  graph : Graph.ofRules e.rules = .ok e.graph
  settings : e.settings = settings
  facts : e.facts = .null

/-- A file with the suffix of a rule file gives the engine that can be made of it. -/
theorem gives_iff : Gives parsers r.settings tree file e ↔
    HasSuffix file ∧ r.engineOfFile parsers tree file = .ok e := by
  constructor
  · rintro ⟨hsuffix, hrules, hgraph, hsettings, hfacts⟩
    refine ⟨hsuffix, ?_⟩
    rw [engineOfFile, load_eq_ok_iff.mpr hrules]
    obtain ⟨rules, settings, graph, facts⟩ := e
    obtain rfl := hsettings
    obtain rfl := hfacts
    have hengine : Engine.ofRules rules r.settings = .ok ⟨rules, r.settings, graph, .null⟩ := by
      rw [Engine.ofRules, hgraph]
      rfl
    exact congrArg (Except.mapError LoadError.rules) hengine
  · rintro ⟨hsuffix, h⟩
    obtain ⟨rules, hrules, h⟩ := exists_of_bind_eq_ok h
    obtain ⟨graph, hgraph, h⟩ := exists_of_bind_eq_ok (of_mapError_eq_ok h)
    obtain rfl := Except.ok.inj h
    exact ⟨hsuffix, load_eq_ok_iff.mp (of_mapError_eq_ok hrules), hgraph, rfl, rfl⟩

/-! ## One file after the other -/

/-- The last of the files under a name that gives an engine. -/
structure LastGiven (parsers : Parsers) (settings : Settings) (tree : FileTree)
    (files : List FilePath) (name : String) (e : Engine) : Prop where
  last : ∃ front file back, files = front ++ file :: back ∧ file.stem = name ∧
    Gives parsers settings tree file e ∧
    ∀ later ∈ back, later.stem = name → ∀ e', ¬ Gives parsers settings tree later e'

/-- No file under a name gives an engine. -/
def NoneGiven (parsers : Parsers) (settings : Settings) (tree : FileTree)
    (files : List FilePath) (name : String) : Prop :=
  ∀ file ∈ files, file.stem = name → ∀ e, ¬ Gives parsers settings tree file e

/-- Files are loaded: every name has the engine that the last of its files gives, or the one that
it had before if none gives one. -/
structure Loaded (parsers : Parsers) (tree : FileTree) (files : List FilePath)
    (r r' : Registry) : Prop where
  directory : r'.directory = r.directory
  settings : r'.settings = r.settings
  bound : ∀ name, (∃ e, LastGiven parsers r.settings tree files name e ∧ r'.engine? name = some e) ∨
    NoneGiven parsers r.settings tree files name ∧ r'.engine? name = r.engine? name

namespace Loaded

theorem nil (parsers : Parsers) (tree : FileTree) (r : Registry) : Loaded parsers tree [] r r :=
  ⟨rfl, rfl, fun _ => Or.inr ⟨nofun, rfl⟩⟩

/-- The files that are loaded later decide first. -/
theorem append (h : Loaded parsers tree files r r') (h' : Loaded parsers tree files' r' r'') :
    Loaded parsers tree (files ++ files') r r'' := by
  refine ⟨h'.directory.trans h.directory, h'.settings.trans h.settings, fun name => ?_⟩
  have hafter := h'.bound name
  rw [h.settings] at hafter
  rcases hafter with ⟨e, ⟨front, file, back, rfl, hstem, hgives, hback⟩, he⟩ | ⟨hnone', he⟩
  · exact Or.inl ⟨e, ⟨files ++ front, file, back, by simp, hstem, hgives, hback⟩, he⟩
  · rw [he]
    rcases h.bound name with ⟨e, ⟨front, file, back, rfl, hstem, hgives, hback⟩, he⟩ | ⟨hnone, he⟩
    · refine Or.inl ⟨e, ⟨front, file, back ++ files', by simp, hstem, hgives, ?_⟩, he⟩
      exact fun later hl => (List.mem_append.mp hl).elim (hback later) (hnone' later)
    · refine Or.inr ⟨fun file hf => ?_, he⟩
      exact (List.mem_append.mp hf).elim (hnone file) (hnone' file)

/-- A file that gives an engine binds its name. -/
theorem put (h : Gives parsers r.settings tree file e) :
    Loaded parsers tree [file] r (r.put file.stem e) := by
  refine ⟨rfl, rfl, fun name => ?_⟩
  by_cases hname : file.stem = name
  · subst hname
    exact Or.inl ⟨e, ⟨[], file, [], rfl, rfl, h, nofun⟩, Entries.get?_put_self ..⟩
  · refine Or.inr ⟨fun other ho hstem => ?_, Entries.get?_put_of_ne (Ne.symm hname) ..⟩
    exact absurd (List.mem_singleton.mp ho ▸ hstem) hname

/-- A file that gives no engine changes nothing. -/
theorem skip (h : ∀ e, ¬ Gives parsers r.settings tree file e) : Loaded parsers tree [file] r r :=
  ⟨rfl, rfl, fun _ => Or.inr ⟨fun _ ho _ => List.mem_singleton.mp ho ▸ h, rfl⟩⟩

end Loaded

/-- One file is loaded, whether it gives an engine or not. -/
theorem loaded_loadFile (parsers : Parsers) (tree : FileTree) (r : Registry) (file : FilePath)
    (log : List LogRecord) :
    Loaded parsers tree [file] r ((loadFile parsers tree r file).run log).1 := by
  rw [loadFile]
  split_ifs with hformat
  · refine .skip fun e h => ?_
    have hsome := isSome_ofPath?_iff.mpr h.suffix
    rw [Option.isNone_iff_eq_none.mp hformat] at hsome
    cases hsome
  · have hsuffix : HasSuffix file := by
      refine isSome_ofPath?_iff.mp ?_
      rwa [← Option.not_isNone, Bool.not_eq_true', ← Bool.not_eq_true]
    cases hengine : r.engineOfFile parsers tree file with
    | ok e => exact .put (gives_iff.mpr ⟨hsuffix, hengine⟩)
    | error failure =>
      refine .skip fun e h => ?_
      cases (gives_iff.mp h).2.symm.trans hengine

/-- Loading files one after the other never fails. -/
theorem exists_loaded (parsers : Parsers) (tree : FileTree) : ∀ (files : List FilePath)
    (r : Registry) (log : List LogRecord), ∃ r' log', Loaded parsers tree files r r' ∧
      ((files.foldlM (fun r file => liftM (loadFile parsers tree r file)) r :
        Logged NotDirectory Registry).run.run log) = (.ok r', log')
  | [], r, log => ⟨r, log, .nil parsers tree r, rfl⟩
  | file :: files, r, log => by
    obtain ⟨r', log', hrest, hrun⟩ := exists_loaded parsers tree files
      ((loadFile parsers tree r file).run log).1 ((loadFile parsers tree r file).run log).2
    refine ⟨r', log', (loaded_loadFile parsers tree r file log).append hrest, ?_⟩
    rw [List.foldlM_cons, Logged.run_bind, Logged.run_lift]
    exact hrun

end Registry

/-! ## Entries of a directory -/

theorem nodup_eraseDups {α : Type} [BEq α] [LawfulBEq α] : ∀ l : List α, l.eraseDups.Nodup
  | [] => List.nodup_nil
  | a :: l => by
    rw [List.eraseDups_cons]
    refine List.nodup_cons.mpr ⟨fun h => ?_, nodup_eraseDups _⟩
    have hne := (List.mem_filter.mp (List.mem_eraseDups.mp h)).2
    simp at hne
  termination_by l => l.length
  decreasing_by exact Nat.lt_succ_of_le (List.length_filter_le _ _)

namespace FileTree

/-- The names in a directory are listed in order, each once. -/
theorem pairwise_namesIn (tree : FileTree) (p : FilePath) :
    (tree.namesIn p).Pairwise (· < ·) := by
  unfold namesIn
  split
  · exact Text.pairwise_sorted (nodup_eraseDups _)
  · exact .nil

/-- Nothing is in a directory that is not there. -/
theorem namesIn_of_find?_eq_none {tree : FileTree} {p : FilePath} (h : tree.find? p = none) :
    tree.namesIn p = [] := by
  unfold find? at h
  unfold namesIn
  dsimp only at h
  cases hresolve : tree.resolve (if p.root = "" then some [] else none) p.names with
  | none => rfl
  | some place =>
    rw [hresolve] at h
    cases place with
    | none => cases h
    | some place =>
      have hplace : tree.at? place = none := h
      -- with something below it the place would be there
      have hbelow : ∀ e ∈ tree, isBelow place e.1 = false := by
        unfold at? at hplace
        split at hplace
        · cases hplace
        · split_ifs at hplace with hany
          simp only [Bool.or_eq_true, List.any_eq_true, not_or, not_exists, not_and] at hany
          exact fun e he => Bool.eq_false_iff.mpr (hany.2 e he)
      dsimp only
      rw [List.filterMap_eq_nil_iff.mpr ?_, List.eraseDups_nil]
      · exact List.mergeSort_nil
      · exact fun e he => if_neg (by simp [hbelow e he])

end FileTree

namespace Registry

theorem name_entry (p : FilePath) (name : String) : (p.entry name).name = name := by
  simp [FilePath.entry, FilePath.name]

/-- The entries of a registry's directory, in the order of their names. -/
def entries (r : Registry) (tree : FileTree) : List FilePath :=
  match r.directory with
  | some directory => (tree.namesIn directory).map directory.entry
  | none => []

theorem pairwise_entries (r : Registry) (tree : FileTree) :
    (r.entries tree).Pairwise fun a b => a.name < b.name := by
  unfold entries
  split
  · rw [List.pairwise_map]
    simpa only [name_entry] using tree.pairwise_namesIn _
  · exact .nil

/-- Loading a directory loads its entries one after the other, in the order of their names. It
fails if the directory is a file, and never because of an entry. -/
theorem loadDirectory_keeps (parsers : Rules.Parsers) (r : Registry) (tree : FileTree) :
    (r.entries tree).Pairwise (fun a b => a.name < b.name) ∧
    ((∃ directory content, r.directory = some directory ∧
        tree.find? directory = some (.file content) ∧
        (r.loadDirectory parsers tree).outcome.1 = .error {}) ∨
      ∃ r', (r.loadDirectory parsers tree).outcome.1 = .ok r' ∧
        Loaded parsers tree (r.entries tree) r r') := by
  refine ⟨r.pairwise_entries tree, ?_⟩
  cases hdirectory : r.directory with
  | none =>
    have hentries : r.entries tree = [] := by rw [entries, hdirectory]
    refine Or.inr ⟨r, by rw [loadDirectory, hdirectory]; rfl, ?_⟩
    rw [hentries]
    exact .nil parsers tree r
  | some directory =>
    have hentries : r.entries tree = (tree.namesIn directory).map directory.entry := by
      rw [entries, hdirectory]
    rw [loadDirectory, hdirectory, hentries]
    dsimp only
    cases hfind : tree.find? directory with
    | none =>
      refine Or.inr ⟨r, rfl, ?_⟩
      rw [FileTree.namesIn_of_find?_eq_none hfind]
      exact .nil parsers tree r
    | some entry =>
      cases entry with
      | file content => exact Or.inl ⟨directory, content, rfl, hfind, rfl⟩
      | directory =>
        obtain ⟨r', log', hloaded, hrun⟩ :=
          exists_loaded parsers tree ((tree.namesIn directory).map directory.entry) r []
        exact Or.inr ⟨r', congrArg Prod.fst hrun, hloaded⟩

/-- A directory with a rule file, a broken one, and a directory that is named like one. -/
def salesTree : FileTree :=
  [(["rules", "sales.json"], .file "\x7b\"total\": \x7b\"var\": \"price\"\x7d\x7d".toUTF8),
    (["rules", "tax.json"], .file "\x7b\"due\": ".toUTF8), (["rules", "notes.yaml"], .directory)]

/-- A registry for this directory, in which an engine without rules stands for the broken file. -/
def taxRegistry : Registry :=
  { engines := [("tax", ⟨.ofEntries [], .standard, .ofEdges [], .null⟩)]
    directory := some (.ofText "rules")
    settings := .standard }

theorem mem_entries_salesTree {file : FilePath} : file ∈ taxRegistry.entries salesTree ↔
    file ∈ ["sales.json", "tax.json", "notes.yaml"].map (FilePath.ofText "rules").entry := by
  have hentries : taxRegistry.entries salesTree =
      (["sales.json", "tax.json", "notes.yaml"].mergeSort fun a b => decide (a ≤ b)).map
        (FilePath.ofText "rules").entry := rfl
  rw [hentries]
  simp only [List.mem_map, List.mem_mergeSort]

/-- Of the entries, only the rule file gives an engine. -/
theorem gives_salesTree {file : FilePath} {e : Engine}
    (hfile : file ∈ taxRegistry.entries salesTree)
    (h : Gives .standard .standard salesTree file e) :
    file.stem = "sales" ∧ e.rulePaths = ["total"] := by
  have hloads : ∀ file ∈
      ["sales.json", "tax.json", "notes.yaml"].map (FilePath.ofText "rules").entry, ∀ found ∈
        (taxRegistry.engineOfFile .standard salesTree file).toOption.map Engine.rulePaths,
        file.stem = "sales" ∧ found = ["total"] := by
    decide +kernel
  have hengine : taxRegistry.engineOfFile .standard salesTree file = .ok e := (gives_iff.mp h).2
  refine hloads file (mem_entries_salesTree.mp hfile) e.rulePaths ?_
  rw [hengine]
  rfl

/-- The rule file binds its name, and the name of the broken file keeps its engine. -/
theorem loadDirectory_keeps_sales : ∃ r' e,
    (taxRegistry.loadDirectory .standard salesTree).outcome.1 = .ok r' ∧
      r'.engine? "sales" = some e ∧ e.rulePaths = ["total"] ∧
      (taxRegistry.engine? "tax").isSome = true ∧
      r'.engine? "tax" = taxRegistry.engine? "tax" ∧ r'.engine? "notes" = none := by
  obtain ⟨-, ⟨directory, content, hdirectory, hfile, -⟩ | ⟨r', hr', hloaded⟩⟩ :=
    loadDirectory_keeps .standard taxRegistry salesTree
  · cases hdirectory
    have hfind : salesTree.find? (.ofText "rules") = some .directory := rfl
    cases hfind.symm.trans hfile
  have hkept : ∀ name, name ≠ "sales" → r'.engine? name = taxRegistry.engine? name := by
    intro name hname
    rcases hloaded.bound name with ⟨e, ⟨front, file, back, hfiles, hstem, hgives, -⟩, -⟩ | ⟨-, h⟩
    · have hmem : file ∈ taxRegistry.entries salesTree := hfiles ▸ by simp
      exact absurd (hstem.symm.trans (gives_salesTree hmem hgives).1) hname
    · exact h
  rcases hloaded.bound "sales" with ⟨e, ⟨front, file, back, hfiles, -, hgives, -⟩, he⟩ | ⟨hnone, -⟩
  · have hmem : file ∈ taxRegistry.entries salesTree := hfiles ▸ by simp
    exact ⟨r', e, hr', he, (gives_salesTree hmem hgives).2, rfl, hkept "tax" (by decide),
      hkept "notes" (by decide)⟩
  · have hfile : (FilePath.ofText "rules").entry "sales.json" ∈ taxRegistry.entries salesTree :=
      mem_entries_salesTree.mpr (by simp)
    have hloads : (taxRegistry.engineOfFile .standard salesTree
        ((FilePath.ofText "rules").entry "sales.json")).isOk = true := by
      decide +kernel
    cases he : taxRegistry.engineOfFile .standard salesTree
        ((FilePath.ofText "rules").entry "sales.json") with
    | error failure =>
      rw [he] at hloads
      cases hloads
    | ok e =>
      have hsuffix : Rules.HasSuffix ((FilePath.ofText "rules").entry "sales.json") :=
        Rules.isSome_ofPath?_iff.mp (by decide +kernel)
      exact absurd (gives_iff.mpr ⟨hsuffix, he⟩) (hnone _ hfile (by decide) e)

end Registry

end RuleTree
