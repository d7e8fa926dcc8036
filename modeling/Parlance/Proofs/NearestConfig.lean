import Parlance.Config

/-! # The nearest configuration counts, and nothing else

A search for the configuration climbs from a directory to the root. It ends at the
nearest directory that has an entry of the right name, whatever that entry is, and
says that there is none only where no directory on the way has one.

What is read is then a function of that one entry. In a tree whose entries stand
in directories the path that was found leads back to the entry, so a file that is
reported as missing while it is read never hides behind the settings for "no
configuration". Of the document three values are looked at, each with its default,
and a section that is no table is the only way for a document to be refused.

Hence two trees may differ in everything but the nearest entry, and that entry in
everything but three values, without a program noticing. -/
namespace Parlance

/-! ## Trees -/

namespace FileTree

def isDirectory (t : FileTree) (path : Path) : Bool :=
  match t.get? path with
  | some .directory => true
  | _ => false

/-- Every entry stands in a directory, and none has the name that leads out of one. -/
def Intact (t : FileTree) : Prop :=
  ∀ node ∈ t.nodes, node.1 ≠ [] →
    t.isDirectory node.1.dropLast = true ∧ node.1.getLast? ≠ some ".."

instance (t : FileTree) : Decidable t.Intact := List.decidableBAll _ _

theorem isDirectory_iff {t : FileTree} {path : Path} :
    t.isDirectory path = true ↔ t.get? path = some .directory := by
  unfold isDirectory
  split <;> simp_all

theorem mem_of_contains {t : FileTree} {path : Path} (h : t.contains path = true)
    (hne : path ≠ []) : ∃ node ∈ t.nodes, node.1 = path := by
  obtain ⟨name, names, rfl⟩ := List.exists_cons_of_ne_nil hne
  obtain ⟨node, hnode⟩ := Option.isSome_iff_exists.1 h
  obtain ⟨before, after, hnodes, -⟩ := List.lookup_eq_some_iff.1 hnode
  exact ⟨(name :: names, node), by simp [hnodes], rfl⟩

namespace Intact

variable {t : FileTree} {path : Path} {name : String}

theorem parent (ht : t.Intact) (h : t.contains (path ++ [name]) = true) :
    t.get? path = some .directory ∧ name ≠ ".." := by
  obtain ⟨node, hmem, hpath⟩ := mem_of_contains h (by simp)
  obtain ⟨hdir, hname⟩ := ht node hmem (by simp [hpath])
  rw [hpath, List.dropLast_concat] at hdir
  refine ⟨isDirectory_iff.1 hdir, ?_⟩
  rintro rfl
  exact hname (by simp [hpath])

theorem contains_above (ht : t.Intact) (names : List String)
    (h : t.contains (path ++ names) = true) : t.contains path = true := by
  induction names generalizing path with
  | nil => simpa using h
  | cons name names ih =>
    have hchild : t.contains (path ++ [name]) = true := ih (by simpa using h)
    simp [contains, (ht.parent hchild).1]

/-- Walking down to something that is there arrives. -/
theorem walk (ht : t.Intact) (names : List String) (h : t.contains (path ++ names) = true) :
    t.walk path names = .ok (path ++ names) := by
  induction names generalizing path with
  | nil => simp [FileTree.walk]
  | cons name names ih =>
    have hrest : t.contains ((path ++ [name]) ++ names) = true := by simpa using h
    obtain ⟨hdir, hname⟩ := ht.parent (ht.contains_above names hrest)
    simp only [FileTree.walk, hdir, if_neg hname]
    simpa using ih hrest

/-- What is there and no directory can be read. -/
theorem readFile (ht : t.Intact) (h : t.contains path = true) :
    (∃ content, t.get? path = some (.file content) ∧ t.readFile [] path = .ok content) ∨
      (t.get? path = some .directory ∧ t.readFile [] path = .error .isDirectory) := by
  have hwalk : t.walk [] path = .ok path := ht.walk path h
  obtain ⟨node, hnode⟩ := Option.isSome_iff_exists.1 h
  cases node with
  | file content => exact .inl ⟨content, hnode, by simp [FileTree.readFile, hwalk, hnode]⟩
  | directory => exact .inr ⟨hnode, by simp [FileTree.readFile, hwalk, hnode]⟩

end Intact
end FileTree

/-! ## Values

Values are compared part by part, so that what a file holds can be evaluated. -/

namespace Toml

def isTable : Toml → Bool
  | .table _ => true
  | _ => false

mutual

def equal : Toml → Toml → Bool
  | bool a, bool b => a = b
  | int a, int b => a = b
  | float a, float b => a = b
  | text a, text b => a = b
  | moment kind a, moment kind' b => kind = kind' && a = b
  | array items, array items' => equalItems items items'
  | table entries, table entries' => equalEntries entries entries'
  | _, _ => false

def equalItems : List Toml → List Toml → Bool
  | [], [] => true
  | v :: rest, v' :: rest' => v.equal v' && equalItems rest rest'
  | _, _ => false

def equalEntries : List (String × Toml) → List (String × Toml) → Bool
  | [], [] => true
  | (key, v) :: rest, (key', v') :: rest' => key = key' && v.equal v' && equalEntries rest rest'
  | _, _ => false

end

mutual

theorem equal_iff (v v' : Toml) : v.equal v' = true ↔ v = v' := by
  cases v <;> cases v' <;> simp [equal, equalItems_iff, equalEntries_iff]

theorem equalItems_iff (items items' : List Toml) :
    equalItems items items' = true ↔ items = items' := by
  cases items <;> cases items' <;> simp [equalItems, equal_iff, equalItems_iff]

theorem equalEntries_iff (entries entries' : List (String × Toml)) :
    equalEntries entries entries' = true ↔ entries = entries' := by
  match entries, entries' with
  | [], [] => simp [equalEntries]
  | [], _ :: _ => simp [equalEntries]
  | _ :: _, [] => simp [equalEntries]
  | (key, v) :: rest, (key', v') :: rest' =>
    simp [equalEntries, equal_iff v v', equalEntries_iff rest rest']

end

instance : DecidableEq Toml := fun v v' => decidable_of_iff _ (equal_iff v v')

end Toml

namespace Config

/-! ## Where the search ends -/

/-- A directory with an entry that has the name of a configuration file. -/
def HasEntry (t : FileTree) (directory : Path) : Prop :=
  t.get? directory = some .directory ∧ t.contains (directory ++ [fileName]) = true

/-- Of the directories from one up to the root that have an entry, the nearest. -/
structure Nearest (t : FileTree) (start directory : Path) : Prop where
  above : directory <+: start
  entry : HasEntry t directory
  closest : ∀ other, other <+: start → HasEntry t other → other <+: directory

/-- Where a search begins: at the start itself, or in the directory of a file. -/
def searchStart (t : FileTree) (start : Path) : Path :=
  match t.get? start with
  | some (.file _) => start.dropLast
  | _ => start

variable {t : FileTree} {start directory path : Path}

theorem Nearest.unique {other : Path} (h : Nearest t start directory)
    (h' : Nearest t start other) : directory = other := by
  have hle : directory <+: other := h'.closest _ h.above h.entry
  have hge : other <+: directory := h.closest _ h'.above h'.entry
  exact hle.eq_of_length_le hge.length_le

theorem hasEntry_iff (ht : t.Intact) :
    HasEntry t directory ↔ t.contains (directory ++ [fileName]) = true :=
  ⟨And.right, fun h => ⟨(ht.parent h).1, h⟩⟩

/-- An innermost directory without an entry leaves the nearest one as it was. -/
theorem Nearest.concat {name : String} (h : Nearest t start directory)
    (hno : ¬ HasEntry t (start ++ [name])) : Nearest t (start ++ [name]) directory where
  above := h.above.trans (List.prefix_append _ _)
  entry := h.entry
  closest other hother hentry := by
    obtain rfl | hother := List.prefix_concat_iff.1 hother
    · exact absurd hentry hno
    · exact h.closest other hother hentry

theorem climb_some (ht : t.Intact) (names : List String) (h : climb t names = some path) :
    ∃ directory, Nearest t names.reverse directory ∧ path = directory ++ [fileName] := by
  induction names with
  | nil =>
    simp only [climb] at h
    split at h
    case isTrue hentry =>
      have hroot : HasEntry t [] := (hasEntry_iff ht).2 hentry
      exact ⟨[], ⟨List.prefix_rfl, hroot, fun _ hother _ => hother⟩, by simpa using h.symm⟩
    case isFalse => cases h
  | cons name above ih =>
    simp only [climb] at h
    split at h
    case isTrue hentry =>
      have hhere : HasEntry t (name :: above).reverse := (hasEntry_iff ht).2 hentry
      exact ⟨_, ⟨List.prefix_rfl, hhere, fun _ hother _ => hother⟩, (Option.some.inj h).symm⟩
    case isFalse hno =>
      obtain ⟨directory, hnear, hpath⟩ := ih h
      rw [List.reverse_cons] at hno ⊢
      exact ⟨directory, hnear.concat fun hentry => hno hentry.2, hpath⟩

theorem climb_none (names : List String) (h : climb t names = none) :
    ∀ directory, directory <+: names.reverse → ¬ HasEntry t directory := by
  induction names with
  | nil =>
    rintro directory hdir ⟨-, hentry⟩
    obtain rfl : directory = [] := by simpa using hdir
    simp [climb, show t.contains [fileName] = true from hentry] at h
  | cons name above ih =>
    simp only [climb] at h
    split at h
    case isTrue => cases h
    case isFalse hno =>
      rw [List.reverse_cons] at hno ⊢
      intro directory hdir hentry
      obtain rfl | hdir := List.prefix_concat_iff.1 hdir
      · exact hno hentry.2
      · exact ih h directory hdir hentry

theorem locate_eq (t : FileTree) (start : Path) :
    locate t start = match climb t (searchStart t start).reverse with
      | some path => .ok path
      | none => .error .notFound := by
  unfold locate searchStart FileTree.isFile
  cases t.get? start with
  | none => rfl
  | some node => cases node <;> rfl

/-- The two ways a search ends. -/
theorem locate_cases (ht : t.Intact) (start : Path) :
    (∃ directory, Nearest t (searchStart t start) directory ∧
      locate t start = .ok (directory ++ [fileName])) ∨
    ((∀ directory, directory <+: searchStart t start → ¬ HasEntry t directory) ∧
      locate t start = .error .notFound) := by
  rw [locate_eq]
  cases hclimb : climb t (searchStart t start).reverse with
  | some path =>
    obtain ⟨directory, hnear, rfl⟩ := climb_some ht _ hclimb
    exact .inl ⟨directory, by simpa using hnear, rfl⟩
  | none => exact .inr ⟨by simpa using climb_none _ hclimb, rfl⟩

theorem locate_ok_iff (ht : t.Intact) :
    locate t start = .ok path ↔
      ∃ directory, Nearest t (searchStart t start) directory ∧
        path = directory ++ [fileName] := by
  obtain ⟨found, hfound, hlocate⟩ | ⟨hnone, hlocate⟩ := locate_cases ht start
  · rw [hlocate]
    constructor
    · rintro ⟨⟩
      exact ⟨found, hfound, rfl⟩
    · rintro ⟨directory, hnear, rfl⟩
      rw [hfound.unique hnear]
  · rw [hlocate]
    constructor
    · rintro ⟨⟩
    · rintro ⟨directory, hnear, -⟩
      exact absurd hnear.entry (hnone _ hnear.above)

theorem locate_notFound_iff (ht : t.Intact) :
    locate t start = .error .notFound ↔
      ∀ directory, directory <+: searchStart t start → ¬ HasEntry t directory := by
  obtain ⟨found, hfound, hlocate⟩ | ⟨hnone, hlocate⟩ := locate_cases ht start
  · rw [hlocate]
    constructor
    · rintro ⟨⟩
    · intro hnone
      exact absurd hfound.entry (hnone _ hfound.above)
  · exact iff_of_true hlocate hnone

/-! ## What a document says -/

/-- The sections with the one key of each that is known. -/
def knownKeys : List (String × String) :=
  [("grammar", "comparisons"), ("parse", "require_end"), ("output", "color")]

def value? (document : List (String × Toml)) (table key : String) : Option Toml :=
  match document.lookup table with
  | some (.table entries) => entries.lookup key
  | _ => none

/-- A section is there and no table. -/
def Misplaced (document : List (String × Toml)) (table : String) : Prop :=
  ∃ v ∈ document.lookup table, v.isTable = false

instance (document : List (String × Toml)) (table : String) :
    Decidable (Misplaced document table) :=
  inferInstanceAs (Decidable (∃ v ∈ document.lookup table, v.isTable = false))

def Refused (document : List (String × Toml)) : Prop :=
  ∃ known ∈ knownKeys, Misplaced document known.1

instance (document : List (String × Toml)) : Decidable (Refused document) :=
  List.decidableBEx _ _

/-- The settings that a document gives, each on where it says nothing. -/
def chosen (document : List (String × Toml)) : Config where
  comparisons := (value? document "grammar" "comparisons").getD (.bool true)
  requireEnd := (value? document "parse" "require_end").getD (.bool true)
  color := (value? document "output" "color").getD (.bool true)

/-- Two documents say the same about the known keys. -/
def Agree (document other : List (String × Toml)) : Prop :=
  ∀ known ∈ knownKeys,
    value? document known.1 known.2 = value? other known.1 known.2 ∧
      (Misplaced document known.1 ↔ Misplaced other known.1)

variable {document other : List (String × Toml)} {table key : String}

/-- The two ways a section is read. -/
theorem setting_cases (document : List (String × Toml)) (table key : String) :
    (¬ Misplaced document table ∧
      setting document table key = .ok ((value? document table key).getD (.bool true))) ∨
    (Misplaced document table ∧ ∃ kind, setting document table key = .error (.notTable kind)) := by
  unfold setting value? Misplaced
  cases document.lookup table with
  | none => exact .inl ⟨by simp, rfl⟩
  | some v =>
    cases v with
    | table entries => exact .inl ⟨by simp [Toml.isTable], rfl⟩
    | _ => exact .inr ⟨by simp [Toml.isTable], _, rfl⟩

theorem refused_iff : Refused document ↔
    Misplaced document "grammar" ∨ Misplaced document "parse" ∨ Misplaced document "output" := by
  simp [Refused, knownKeys]

/-- The two ways a document is read. -/
theorem ofDocument_cases (document : List (String × Toml)) :
    (¬ Refused document ∧ ofDocument document = .ok (chosen document)) ∨
      (Refused document ∧ ∃ kind, ofDocument document = .error (.notTable kind)) := by
  rw [refused_iff]
  simp only [ofDocument, bind, Except.bind, pure, Except.pure]
  obtain ⟨hgrammar, h⟩ | ⟨hgrammar, kind, h⟩ := setting_cases document "grammar" "comparisons"
  case inr => exact .inr ⟨.inl hgrammar, kind, by rw [h]⟩
  rw [h]
  obtain ⟨hparse, h⟩ | ⟨hparse, kind, h⟩ := setting_cases document "parse" "require_end"
  case inr => exact .inr ⟨.inr (.inl hparse), kind, by rw [h]⟩
  rw [h]
  obtain ⟨houtput, h⟩ | ⟨houtput, kind, h⟩ := setting_cases document "output" "color"
  case inr => exact .inr ⟨.inr (.inr houtput), kind, by rw [h]⟩
  rw [h]
  exact .inl ⟨not_or.2 ⟨hgrammar, not_or.2 ⟨hparse, houtput⟩⟩, rfl⟩

theorem Agree.chosen_eq (h : Agree document other) : chosen document = chosen other := by
  have hgrammar := (h ("grammar", "comparisons") (by simp [knownKeys])).1
  have hparse := (h ("parse", "require_end") (by simp [knownKeys])).1
  have houtput := (h ("output", "color") (by simp [knownKeys])).1
  simp only [chosen, hgrammar, hparse, houtput]

theorem Agree.refused_iff (h : Agree document other) : Refused document ↔ Refused other := by
  unfold Refused
  exact exists_congr fun known => and_congr_right fun hknown => (h known hknown).2

theorem Agree.ofDocument_ok_iff (h : Agree document other) {config : Config} :
    ofDocument document = .ok config ↔ ofDocument other = .ok config := by
  obtain ⟨hfine, hdoc⟩ | ⟨hrefused, kind, hdoc⟩ := ofDocument_cases document <;>
    obtain ⟨hfine', hdoc'⟩ | ⟨hrefused', kind', hdoc'⟩ := ofDocument_cases other
  · rw [hdoc, hdoc', h.chosen_eq]
  · exact absurd (h.refused_iff.2 hrefused') hfine
  · exact absurd (h.refused_iff.1 hrefused) hfine'
  · simp [hdoc, hdoc']

/-! ## What is read -/

def Holds (t : FileTree) (path : Path) (document : List (String × Toml)) : Prop :=
  ∃ content text, t.get? path = some (.file content) ∧ String.fromUTF8? content = some text ∧
    Toml.read text = .ok document

theorem holds_iff {content : ByteArray} (hfile : t.get? path = some (.file content)) :
    Holds t path document ↔
      ∃ text, String.fromUTF8? content = some text ∧ Toml.read text = .ok document := by
  constructor
  · rintro ⟨content', text, hfile', h⟩
    obtain rfl : content = content' := by simpa [hfile] using hfile'
    exact ⟨text, h⟩
  · rintro ⟨text, h⟩
    exact ⟨content, text, hfile, h⟩

/-- A file that a text was written to holds the document that the text is. -/
theorem holds_of_text {text : String} (hfile : t.get? path = some (.file text.toUTF8))
    (hread : (Toml.read text).toOption = some document) : Holds t path document := by
  refine ⟨text.toUTF8, text, hfile, dif_pos (String.isValidUTF8 text), ?_⟩
  cases h : Toml.read text with
  | ok found =>
    rw [h] at hread
    exact congrArg Except.ok (Option.some.inj hread)
  | error e =>
    rw [h] at hread
    cases hread

theorem Holds.unique (h : Holds t path document) (h' : Holds t path other) :
    document = other := by
  obtain ⟨content, text, hfile, htext, hread⟩ := h
  obtain ⟨text', htext', hread'⟩ := (holds_iff hfile).mp h'
  obtain rfl : text = text' := by simpa [htext] using htext'
  simpa [hread] using hread'

/-- The ways an entry is read. One that is there is never reported as missing. -/
theorem read_cases (ht : t.Intact) (h : t.contains path = true) :
    (∃ document, Holds t path document ∧ read t [] path = ofDocument document) ∨
    ((∀ document, ¬ Holds t path document) ∧
      ∃ e, read t [] path = .error e ∧ e.isMissing = false ∧ ∀ kind, e ≠ .notTable kind) := by
  obtain ⟨content, hfile, hread⟩ | ⟨hdir, hread⟩ := ht.readFile h
  · simp only [read, hread, ofBytes]
    cases htext : String.fromUTF8? content with
    | none =>
      have hno : ∀ document, ¬ Holds t path document := by simp [holds_iff hfile, htext]
      exact .inr ⟨hno, _, rfl, rfl, by simp⟩
    | some text =>
      dsimp only
      cases htoml : Toml.read text with
      | error cause =>
        have hno : ∀ document, ¬ Holds t path document := by simp [holds_iff hfile, htext, htoml]
        exact .inr ⟨hno, _, rfl, rfl, by simp⟩
      | ok document => exact .inl ⟨document, ⟨content, text, hfile, htext, htoml⟩, rfl⟩
  · have hno : ∀ document, ¬ Holds t path document := by simp [Holds, hdir]
    simp only [read, hread]
    exact .inr ⟨hno, _, rfl, rfl, by simp⟩

/-- The settings are those of the nearest entry, or the defaults where there is none. -/
theorem nearest_cases (ht : t.Intact) (start : Path) :
    ((∀ directory, directory <+: searchStart t start → ¬ HasEntry t directory) ∧
      nearest t start = .ok {}) ∨
    (∃ directory, Nearest t (searchStart t start) directory ∧
      ((∃ document, Holds t (directory ++ [fileName]) document ∧
          nearest t start = ofDocument document) ∨
        ((∀ document, ¬ Holds t (directory ++ [fileName]) document) ∧
          ∃ e, nearest t start = .error e ∧ ∀ kind, e ≠ .notTable kind))) := by
  unfold nearest
  obtain ⟨directory, hnear, hlocate⟩ | ⟨hnone, hlocate⟩ := locate_cases ht start
  case inr => exact .inl ⟨hnone, by simp [hlocate, Except.bind, ConfigError.isMissing]⟩
  refine .inr ⟨directory, hnear, ?_⟩
  simp only [hlocate, Except.bind]
  obtain ⟨document, hholds, hread⟩ | ⟨hno, e, hread, hmissing, hkind⟩ :=
    read_cases ht hnear.entry.2
  · refine .inl ⟨document, hholds, ?_⟩
    rw [hread]
    obtain ⟨-, hdoc⟩ | ⟨-, kind, hdoc⟩ := ofDocument_cases document
    · rw [hdoc]
    · simp [hdoc, ConfigError.isMissing]
  · exact .inr ⟨hno, e, by simp [hread, hmissing], hkind⟩

theorem nearest_of_holds (ht : t.Intact) (hnear : Nearest t (searchStart t start) directory)
    (hholds : Holds t (directory ++ [fileName]) document) :
    nearest t start = ofDocument document := by
  obtain ⟨hnone, -⟩ | ⟨found, hfound, hread⟩ := nearest_cases ht start
  · exact absurd hnear.entry (hnone _ hnear.above)
  · obtain rfl := hnear.unique hfound
    obtain ⟨other, hother, h⟩ | ⟨hno, -⟩ := hread
    · rw [h, hholds.unique hother]
    · exact absurd hholds (hno document)

/-! ## Only the nearest entry counts -/

theorem nearest_ok_iff (ht : t.Intact) (config : Config) :
    nearest t start = .ok config ↔
      ((∀ directory, directory <+: searchStart t start → ¬ HasEntry t directory) ∧
        config = {}) ∨
      (∃ directory document, Nearest t (searchStart t start) directory ∧
        Holds t (directory ++ [fileName]) document ∧ ¬ Refused document ∧
        config = chosen document) := by
  constructor
  · intro hconfig
    obtain ⟨hnone, h⟩ | ⟨directory, hnear, ⟨document, hholds, h⟩ | ⟨-, e, h, -⟩⟩ :=
      nearest_cases ht start
    · exact .inl ⟨hnone, by simpa [h] using hconfig.symm⟩
    · rw [h] at hconfig
      obtain ⟨hfine, hdoc⟩ | ⟨-, kind, hdoc⟩ := ofDocument_cases document
      · exact .inr ⟨directory, document, hnear, hholds, hfine, by simpa [hdoc] using hconfig.symm⟩
      · simp [hdoc] at hconfig
    · simp [h] at hconfig
  · rintro (⟨hnone, rfl⟩ | ⟨directory, document, hnear, hholds, hfine, rfl⟩)
    · obtain ⟨-, h⟩ | ⟨directory, hnear, -⟩ := nearest_cases ht start
      · exact h
      · exact absurd hnear.entry (hnone _ hnear.above)
    · rw [nearest_of_holds ht hnear hholds]
      obtain ⟨-, hdoc⟩ | ⟨hrefused, -⟩ := ofDocument_cases document
      · exact hdoc
      · exact absurd hrefused hfine

theorem nearest_notTable_iff (ht : t.Intact) :
    (∃ kind, nearest t start = .error (.notTable kind)) ↔
      ∃ directory document, Nearest t (searchStart t start) directory ∧
        Holds t (directory ++ [fileName]) document ∧ Refused document := by
  constructor
  · rintro ⟨kind, herror⟩
    obtain ⟨-, h⟩ | ⟨directory, hnear, ⟨document, hholds, h⟩ | ⟨-, e, h, hkind⟩⟩ :=
      nearest_cases ht start
    · simp [h] at herror
    · rw [h] at herror
      obtain ⟨-, hdoc⟩ | ⟨hrefused, -⟩ := ofDocument_cases document
      · simp [hdoc] at herror
      · exact ⟨directory, document, hnear, hholds, hrefused⟩
    · exact absurd (by simpa [h] using herror) (hkind kind)
  · rintro ⟨directory, document, hnear, hholds, hrefused⟩
    obtain ⟨hfine, -⟩ | ⟨-, kind, hdoc⟩ := ofDocument_cases document
    · exact absurd hrefused hfine
    · exact ⟨kind, by rw [nearest_of_holds ht hnear hholds, hdoc]⟩

/-- The search ends, and it ends at the nearest entry or where no directory on the
way has one. The settings are those that the entry gives, or the defaults; they are
refused for the document's sake exactly when a known section is no table; and
nothing else in the tree has a part in them. -/
theorem nearest_entry_decides (t : FileTree) (start : Path) (ht : t.Intact) :
    (∀ path, locate t start = .ok path ↔
      ∃ directory, Nearest t (searchStart t start) directory ∧
        path = directory ++ [fileName]) ∧
    (locate t start = .error .notFound ↔
      ∀ directory, directory <+: searchStart t start → ¬ HasEntry t directory) ∧
    (∀ e, locate t start = .error e → e = .notFound) ∧
    (∀ config, nearest t start = .ok config ↔
      ((∀ directory, directory <+: searchStart t start → ¬ HasEntry t directory) ∧
        config = ⟨.bool true, .bool true, .bool true⟩) ∨
      (∃ directory document, Nearest t (searchStart t start) directory ∧
        Holds t (directory ++ [fileName]) document ∧ ¬ Refused document ∧
        config = chosen document)) ∧
    ((∃ kind, nearest t start = .error (.notTable kind)) ↔
      ∃ directory document, Nearest t (searchStart t start) directory ∧
        Holds t (directory ++ [fileName]) document ∧ Refused document) ∧
    (∀ (u : FileTree) (place directory directory' : Path)
        (document document' : List (String × Toml)), u.Intact →
      Nearest t (searchStart t start) directory →
      Holds t (directory ++ [fileName]) document →
      Nearest u (searchStart u place) directory' →
      Holds u (directory' ++ [fileName]) document' →
      Agree document document' →
      ∀ config, nearest t start = .ok config ↔ nearest u place = .ok config) := by
  refine ⟨fun _ => locate_ok_iff ht, locate_notFound_iff ht, ?_, nearest_ok_iff ht,
    nearest_notTable_iff ht, ?_⟩
  · intro e he
    obtain ⟨directory, -, h⟩ | ⟨-, h⟩ := locate_cases ht start
    · simp [h] at he
    · simpa [h] using he.symm
  · intro u place directory directory' document document' hu hnear hholds hnear' hholds' hagree
      config
    rw [nearest_of_holds ht hnear hholds, nearest_of_holds hu hnear' hholds']
    exact hagree.ofDocument_ok_iff

def homeTree (text : String) (others : List (Path × FileNode)) : FileTree :=
  ⟨(["home"], .directory) :: (["home", "mpc.toml"], .file text.toUTF8) :: others⟩

/-- Seen from a file in one tree and from a place that is not there in the other, two
files that agree on one key and differ in all else give the same settings. -/
theorem nearest_entry_decides_home :
    let t := homeTree "[grammar]\ncomparisons = false\n"
      [(["mpc.toml"], .directory), (["home", "work"], .directory),
        (["home", "work", "sum.txt"], .file "1 + 2".toUTF8)]
    let u := homeTree "title = 1\n[grammar]\nother = 2\ncomparisons = false\n" []
    t.Intact ∧ u.Intact ∧
    Nearest t (searchStart t ["home", "work", "sum.txt"]) ["home"] ∧
    Nearest u (searchStart u ["home", "lost", "deep"]) ["home"] ∧
    nearest t ["home", "work", "sum.txt"] = .ok { comparisons := .bool false } ∧
    nearest u ["home", "lost", "deep"] = .ok { comparisons := .bool false } := by
  intro t u
  have ht : t.Intact := by decide +kernel
  have hu : u.Intact := by decide +kernel
  obtain ⟨hlocate, -, -, hok, -, hsame⟩ :=
    nearest_entry_decides t ["home", "work", "sum.txt"] ht
  have hnear : Nearest t (searchStart t ["home", "work", "sum.txt"]) ["home"] := by
    obtain ⟨directory, hnear, hpath⟩ := (hlocate (["home"] ++ [fileName])).1 rfl
    obtain rfl : ["home"] = directory := List.append_cancel_right hpath
    exact hnear
  have hnear' : Nearest u (searchStart u ["home", "lost", "deep"]) ["home"] := by
    obtain ⟨directory, hnear, hpath⟩ :=
      ((nearest_entry_decides u ["home", "lost", "deep"] hu).1 (["home"] ++ [fileName])).1 rfl
    obtain rfl : ["home"] = directory := List.append_cancel_right hpath
    exact hnear
  have hholds : Holds t (["home"] ++ [fileName])
      [("grammar", .table [("comparisons", .bool false)])] :=
    holds_of_text rfl (by decide +kernel)
  have hholds' : Holds u (["home"] ++ [fileName])
      [("title", .int 1), ("grammar", .table [("other", .int 2), ("comparisons", .bool false)])] :=
    holds_of_text rfl (by decide +kernel)
  have hfine : nearest t ["home", "work", "sum.txt"] = .ok { comparisons := .bool false } :=
    (hok _).2 (.inr ⟨["home"], _, hnear, hholds, by decide, rfl⟩)
  have hagree : Agree [("grammar", .table [("comparisons", .bool false)])]
      [("title", .int 1),
        ("grammar", .table [("other", .int 2), ("comparisons", .bool false)])] := by
    simp only [Agree, knownKeys, List.forall_mem_cons]
    exact ⟨⟨rfl, by decide⟩, ⟨rfl, by decide⟩, ⟨rfl, by decide⟩, by simp⟩
  exact ⟨ht, hu, hnear, hnear', hfine,
    (hsame u _ _ _ _ _ hu hnear hholds hnear' hholds' hagree _).1 hfine⟩

end Config
end Parlance
