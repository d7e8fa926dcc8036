import Parlance.Command.Run
import Parlance.Proofs.OutlineFidelity
import Parlance.Proofs.RoundTrip

/-! # Runs of the command

However a subcommand gets at its source and its settings, the run ends as the reply of the
parser to the stripped source says: with the tree on standard output, and a warning about
what is left over, or with one error. Since blanks at the ends are stripped, they make no
difference; and since what `parse` prints derives the tree again, printing is idempotent. -/
namespace Parlance

/-! ## Blanks -/

namespace Text

variable {text before after : List Char}

theorem strip_append_left (h : ∀ c ∈ before, isBlank c = true) :
    strip (before ++ text) = strip text := by
  rw [strip, List.dropWhile_append_of_pos h, strip]

theorem dropBlankEnd_append (h : ∀ c ∈ after, isBlank c = true) :
    dropBlankEnd (text ++ after) = dropBlankEnd text := by
  rw [dropBlankEnd, List.reverse_append,
    List.dropWhile_append_of_pos (by simpa using h), dropBlankEnd]

theorem strip_append_right (h : ∀ c ∈ after, isBlank c = true) :
    strip (text ++ after) = strip text := by
  rw [strip, strip, List.dropWhile_append]
  split
  · next hblank =>
    have hempty : text.dropWhile isBlank = [] := by simpa using hblank
    have hafter : (after ++ []).dropWhile isBlank = [] := List.dropWhile_append_of_pos h
    rw [List.append_nil] at hafter
    rw [hempty, hafter]
  · exact dropBlankEnd_append h

/-- A text with no blank at its ends is its own stripped form. -/
theorem strip_self (hfirst : ∀ c, text.head? = some c → isBlank c = false)
    (hlast : ∀ c, text.getLast? = some c → isBlank c = false) : strip text = text := by
  have hdrop {cs : List Char} (h : ∀ c, cs.head? = some c → isBlank c = false) :
      cs.dropWhile isBlank = cs := by
    cases cs with
    | nil => rfl
    | cons c cs => exact List.dropWhile_cons_of_neg (by rw [h c rfl]; exact Bool.false_ne_true)
  rw [strip, hdrop hfirst, dropBlankEnd, hdrop, List.reverse_reverse]
  intro c hc
  rw [List.head?_reverse] at hc
  exact hlast c hc

end Text

/-! ## Printed trees -/

namespace Expression

variable {e : Expression}

/-- ASCII without its blanks. -/
def isSolid (c : Char) : Bool := 0x20 < c.toNat && c.toNat < 0x7f

theorem isSolid_iff {c : Char} : isSolid c = true ↔ 0x20 < c.toNat ∧ c.toNat < 0x7f := by
  rw [isSolid, Bool.and_eq_true, decide_eq_true_iff, decide_eq_true_iff]

theorem isAscii_of_isSolid {c : Char} (h : isSolid c = true) : Text.isAscii c = true := by
  rw [isSolid_iff] at h
  rw [Text.isAscii, Bool.and_eq_true, decide_eq_true_iff, decide_eq_true_iff]
  omega

theorem isBlank_of_isSolid {c : Char} (h : isSolid c = true) : Text.isBlank c = false := by
  rw [isSolid_iff] at h
  simp only [Text.isBlank, Bool.or_eq_false_iff, Bool.and_eq_false_iff, decide_eq_false_iff_not]
  omega

theorem isSolid_of_isDigit {c : Char} (h : CodePoint.isDigit c.toNat = true) :
    isSolid c = true := by
  simp only [CodePoint.isDigit, Bool.and_eq_true, decide_eq_true_eq] at h
  exact isSolid_iff.mpr (by omega)

theorem isSolid_of_isLetter {c : Char} (h : CodePoint.isLetter c.toNat = true) :
    isSolid c = true := by
  simp only [CodePoint.isLetter, Bool.or_eq_true, Bool.and_eq_true, decide_eq_true_eq] at h
  exact isSolid_iff.mpr (by omega)

/-- A literal of digits has no blank in it. -/
theorem isSolid_of_mem_literal {value : Double} (h : value.IsNatural) :
    ∀ c ∈ value.literal.toList, isSolid c = true := by
  obtain ⟨digits, hliteral, _, hdigits, _⟩ := h.literal
  intro c hc
  rw [hliteral, String.toList_ofList] at hc
  exact isSolid_of_isDigit (hdigits c hc)

theorem isAscii_of_mem_toText (h : e.WellFormed) :
    ∀ c ∈ e.toText.toList, Text.isAscii c = true := by
  induction e with
  | number value =>
    intro c hc
    rw [toText_number] at hc
    exact isAscii_of_isSolid (isSolid_of_mem_literal h c hc)
  | identifier name =>
    intro c hc
    rw [toText_identifier] at hc
    exact isAscii_of_isSolid (isSolid_of_isLetter (h.2 c hc))
  | binary op left right ihleft ihright =>
    have hsymbol : op.symbol.toList.all Text.isAscii = true := by
      cases op <;> rfl
    intro c hc
    rw [toList_toText_binary] at hc
    simp only [List.mem_cons, List.mem_append, List.not_mem_nil, or_false] at hc
    rcases hc with rfl | ((hleft | rfl) | (hop | rfl | hright)) | rfl
    · rfl
    · exact ihleft h.2.1 c hleft
    · rfl
    · exact List.all_eq_true.mp hsymbol c hop
    · rfl
    · exact ihright h.2.2 c hright
    · rfl

/-- No blank stands at the ends of a printed tree. -/
theorem strip_toText (h : e.WellFormed) : Text.strip e.toText.toList = e.toText.toList := by
  have hsolid {text : List Char} (hall : ∀ c ∈ text, isSolid c = true) : Text.strip text = text :=
    Text.strip_self (fun c hc => isBlank_of_isSolid (hall c (List.mem_of_head? hc)))
      (fun c hc => isBlank_of_isSolid (hall c (List.mem_of_getLast? hc)))
  cases e with
  | number value =>
    rw [toText_number]
    exact hsolid (isSolid_of_mem_literal h)
  | identifier name =>
    rw [toText_identifier]
    exact hsolid fun c hc => isSolid_of_isLetter (h.2 c hc)
  | binary op left right =>
    rw [toList_toText_binary]
    refine Text.strip_self ?_ ?_
    · rintro c ⟨rfl⟩
      rfl
    · intro c hc
      rw [List.getLast?_cons, List.getLast?_append] at hc
      simp at hc
      rw [← hc]
      rfl

theorem printable_toText (h : e.WellFormed) : Text.Printable e.toText.toList :=
  fun c hc => Text.isPrintable_of_isAscii (isAscii_of_mem_toText h c hc)

end Expression

/-! ## Replies -/

namespace Grammar

/-- A reply is a rejection, or the tree of a prefix that it has reached the end of; the
prefix is the whole text where this is demanded. -/
theorem parse_cases (text : String) (opts : Options) :
    parse text opts = rejected ∨
    ∃ e taken, e.WellFormed ∧ taken <+: text.toList ∧
      (opts.requireEnd = true → taken = text.toList) ∧
      parse text opts = ⟨true, .expression e, taken.length⟩ := by
  obtain ⟨comparisons, requireEnd⟩ := opts
  cases requireEnd with
  | true =>
    rcases parse_complete_cases comparisons text with ⟨e, hderives, hparse⟩ | hrejected
    · refine Or.inr ⟨e, text.toList, hderives.wellFormed, List.prefix_refl _, fun _ => rfl, ?_⟩
      rw [hparse, String.length_toList]
    · exact Or.inl hrejected
  | false =>
    cases textReader_ends comparisons (nestingLimit comparisons) text with
    | takes taken rest htext hderives htakes =>
      exact Or.inr ⟨_, taken, hderives.wellFormed, ⟨rest, htext.symm⟩, nofun,
        parse_of_exit (exit_partial_of_takes htakes)⟩
    | refuses hrefuses => exact Or.inl (parse_of_exit (exit_of_refuses hrefuses))
    | sinks hsinks _ => exact Or.inl (parse_of_tooDeep (exit_of_sinks hsinks))

end Grammar

namespace Command

/-! ## Subcommands on a source -/

section OnSource

variable {n : Name} {s : Settings} {source : String} {e : Expression} {k : Nat}

/-- The reply of the parser to a source, stripped of its blanks. -/
def replyTo (s : Settings) (source : String) : Reply :=
  Grammar.parse (String.ofList (Text.strip source.toList)) ⟨s.comparisons, s.requireEnd⟩

/-- The warning about what is left over of a text behind `k` characters, if anything is. -/
def warningAt (color : Bool) (text : List Char) (k : Nat) : String :=
  if k < text.length then (leftover (text.drop k)).render color ++ "\n" else ""

def Ending.shown (w : World) (ending : Ending) : Ending :=
  { ending with
    stdout := Text.written w.stdoutTerminal ending.stdout
    stderr := Text.written w.stderrTerminal ending.stderr }

theorem onSource_of_rejected (h : replyTo s source = Grammar.rejected) :
    onSource n s source =
      { exitCode := 1, stderr := Diagnostic.invalidExpression.render s.color ++ "\n" } := by
  rw [replyTo] at h
  simp only [onSource, h]
  rfl

theorem onSource_of_tree (h : replyTo s source = ⟨true, .expression e, k⟩) :
    onSource n s source =
      { exitCode := 0
        stdout := display n e
        stderr := warningAt s.color (Text.strip source.toList) k } := by
  have hempty : ((Text.strip source.toList).drop k).isEmpty = true ↔
      ¬ k < (Text.strip source.toList).length := by
    rw [List.isEmpty_iff, List.drop_eq_nil_iff, Nat.not_lt]
  have hwarning : (if ((Text.strip source.toList).drop k).isEmpty then ""
      else diagnosticLine s (leftover ((Text.strip source.toList).drop k))) =
      warningAt s.color (Text.strip source.toList) k := by
    simp only [hempty, ite_not]
    rfl
  rw [replyTo] at h
  simp only [onSource, h]
  rw [← hwarning]
  rfl

/-! ## What is shown of an ending -/

theorem isPlain_invalidExpression : Diagnostic.invalidExpression.IsPlain :=
  ⟨.of_ascii rfl, .of_ascii rfl, rfl⟩

theorem isPlain_leftover (rest : List Char) : (leftover rest).IsPlain := by
  have hcode : Text.Printable "W100".toList := .of_ascii rfl
  have hopening : Text.Printable "unparsed input: ".toList := .of_ascii rfl
  refine ⟨hcode, ?_, rfl⟩
  rw [leftover, String.toList_append]
  exact hopening.append (Text.printable_quoted _)

theorem written_empty (terminal : Bool) : Text.written terminal "" = "" :=
  Text.written_self terminal (by decide)

theorem written_warningAt (terminal color : Bool) (text : List Char) (k : Nat) :
    Text.written terminal (warningAt color text k) = warningAt (color && terminal) text k := by
  rw [warningAt, warningAt]
  split
  · exact (isPlain_leftover _).written_render color terminal
  · exact written_empty terminal

/-- What is printed for a tree is shown as it is. -/
theorem written_display (h : e.WellFormed) (n : Name) (terminal : Bool) :
    Text.written terminal (display n e) = display n e := by
  cases n with
  | view => exact (Expression.outlineText_shape e 0).shown terminal
  | parse =>
    have hmissing : Text.escapeMark ∉ (e.toText ++ "\n").toList := by
      rw [String.toList_append, List.mem_append, not_or]
      exact ⟨(Expression.printable_toText h).not_mem rfl, by decide⟩
    exact Text.written_self terminal hmissing

/-- How a run of a subcommand on a source ends. -/
structure Reports (n : Name) (s : Settings) (source : String) (terminal : Bool)
    (ending : Ending) : Prop where
  /-- One error, and nothing else. -/
  failure : (replyTo s source).success = false →
    ending = { exitCode := 1
               stderr := Diagnostic.invalidExpression.render (s.color && terminal) ++ "\n" }
  /-- The tree, and one warning if something is left over. -/
  success : (replyTo s source).success = true → ∃ (e : Expression) (k : Nat),
    replyTo s source = ⟨true, .expression e, k⟩ ∧
    ending = { exitCode := 0
               stdout := display n e
               stderr := warningAt (s.color && terminal) (Text.strip source.toList) k }
  /-- Nothing is left over where the whole source has to be an expression. -/
  complete : s.requireEnd = true → (replyTo s source).success = true → ending.stderr = ""

/-- A source and the stream of the errors determine what is reported. -/
theorem Reports.unique {terminal : Bool} {ending ending' : Ending}
    (h : Reports n s source terminal ending) (h' : Reports n s source terminal ending') :
    ending = ending' := by
  cases hsuccess : (replyTo s source).success with
  | false => rw [h.failure hsuccess, h'.failure hsuccess]
  | true =>
    obtain ⟨e, k, hreply, hending⟩ := h.success hsuccess
    obtain ⟨e', k', hreply', hending'⟩ := h'.success hsuccess
    rw [hreply] at hreply'
    cases hreply'
    rw [hending, hending']

/-- However the parser replies, the ending reports it. -/
theorem reports_onSource (n : Name) (s : Settings) (source : String) (w : World) :
    Reports n s source w.stderrTerminal ((onSource n s source).shown w) := by
  rcases Grammar.parse_cases (String.ofList (Text.strip source.toList))
    ⟨s.comparisons, s.requireEnd⟩ with hparse | ⟨e, taken, hwell, hprefix, hwhole, hparse⟩
  · have hreply : replyTo s source = Grammar.rejected := hparse
    have hshown : (onSource n s source).shown w =
        { exitCode := 1
          stderr := Diagnostic.invalidExpression.render (s.color && w.stderrTerminal) ++ "\n" } := by
      rw [onSource_of_rejected hreply, Ending.shown, written_empty,
        isPlain_invalidExpression.written_render]
    refine ⟨fun _ => hshown, ?_, ?_⟩ <;> rw [hreply] <;> nofun
  · have hreply : replyTo s source = ⟨true, .expression e, taken.length⟩ := hparse
    have hshown : (onSource n s source).shown w =
        { exitCode := 0
          stdout := display n e
          stderr := warningAt (s.color && w.stderrTerminal) (Text.strip source.toList)
            taken.length } := by
      rw [onSource_of_tree hreply, Ending.shown, written_display hwell, written_warningAt]
    refine ⟨?_, fun _ => ⟨e, taken.length, hreply, hshown⟩, fun hend _ => ?_⟩
    · rw [hreply]
      nofun
    · rw [String.toList_ofList] at hwhole
      rw [hshown, hwhole hend, warningAt, if_neg (Nat.lt_irrefl _)]

end OnSource

/-! ## Invocations -/

/-- The command line runs a subcommand on a source: its options can be read, none asks for
help or for a log, there is one argument at most, and the settings are those of the nearest
configuration that no option switches off. -/
inductive Invokes (w : World) : List String → Name → Settings → String → Prop
  | intro {n : Name} {line args : List String} {options : List SubOption} {config : Config}
      {source : String} (hline : readLine subTable true line = .ok (options, args))
      (hhelp : SubOption.help ∉ options) (hargs : args.length ≤ 1)
      (hconfig : Config.nearest w.files w.directory = .ok config)
      (hsource : source? w options args.head? = some source) :
      Invokes w (n.label :: line) n ((Settings.ofConfig config).restrict options) source

variable {w w' : World} {line line' : List String} {n : Name} {s s' : Settings}
  {source : String}

theorem readLine_label (n : Name) (line : List String) :
    readLine groupTable false (n.label :: line) = .ok ([], n.label :: line) := by
  have hname : n.label ≠ "--" := by cases n <;> decide
  have hoption : looksLikeOption n.label = false := by cases n <;> decide +kernel
  rw [readLine, if_neg hname, if_neg (by rw [hoption]; exact Bool.false_ne_true),
    if_neg Bool.false_ne_true]

theorem dispatch_label (w : World) (n : Name) (line : List String) :
    dispatch w (n.label :: line) = runSub w n line := by
  cases n <;> rfl

/-- Whichever way a source is given, the run is that of the subcommand on the source. -/
theorem run_of_invokes (h : Invokes w line n s source) :
    run w line = (onSource n s source).shown w := by
  cases h with
  | @intro n line args options config source hline hhelp hargs hconfig hsource =>
    have hexecute : execute w n options args.head? =
        onSource n ((Settings.ofConfig config).restrict options) source := by
      rw [execute, hconfig, hsource]
    have hrunSub : runSub w n line = execute w n options args.head? := by
      have hasked : ¬ options.contains .help = true := fun h => hhelp (List.contains_iff_mem.mp h)
      simp only [runSub, hline, if_neg hasked]
      match args, hargs with
      | [], _ => rfl
      | [arg], _ => rfl
    have hcolored : colored w (n.label :: line) = runSub w n line := by
      rw [colored, withOptions, readLine_label]
      · exact dispatch_label w n line
      · exact List.cons_ne_nil _ _
    rw [run, hcolored, hrunSub, hexecute, Ending.shown]

/-! ## Every source under every settings -/

/-- Each word of the table is read as its option. -/
theorem readOption_word : ∀ flag ∈ subTable.words, looksLikeOption flag.1 = true ∧
    flag.1 ≠ "--" ∧ readOption subTable flag.1 = .ok [flag.2] := by
  intro flag hflag
  simp only [subTable, List.mem_cons, List.not_mem_nil, or_false] at hflag
  rcases hflag with rfl | rfl | rfl | rfl | rfl
  all_goals exact ⟨by decide +kernel, by decide, by rfl⟩

theorem readLine_words (flags : List (String × SubOption))
    (h : ∀ flag ∈ flags, flag ∈ subTable.words) (source : String) :
    readLine subTable true (flags.map Prod.fst ++ ["--", source]) =
      .ok (flags.map Prod.snd, [source]) := by
  induction flags with
  | nil => rfl
  | cons flag flags ih =>
    obtain ⟨hoption, hname, hread⟩ := readOption_word flag (h flag List.mem_cons_self)
    rw [List.map_cons, List.cons_append, readLine, if_neg hname, if_pos hoption, hread,
      ih fun f hf => h f (List.mem_cons_of_mem _ hf)]
    rfl

/-- The options that switch off what the settings leave out. -/
def switches (s : Settings) : List (String × SubOption) :=
  (if s.comparisons then [] else [("--basic", .basic)]) ++
    ((if s.requireEnd then [] else [("--partial", .prefixOnly)]) ++
      if s.color then [] else [("--no-color", .noColor)])

/-- Some command line runs the subcommand on the source under the settings. -/
theorem exists_invokes (n : Name) (s : Settings) (source : String) :
    ∃ w line, Invokes w line n s source := by
  obtain ⟨comparisons, requireEnd, color⟩ := s
  let flags := switches ⟨comparisons, requireEnd, color⟩
  have hwords : ∀ flag ∈ flags, flag ∈ subTable.words := by
    cases comparisons <;> cases requireEnd <;> cases color <;> decide
  have hhelp : SubOption.help ∉ flags.map Prod.snd := by
    cases comparisons <;> cases requireEnd <;> cases color <;> decide
  have hsource : source? {} (flags.map Prod.snd) (some source) = some source := by
    cases comparisons <;> cases requireEnd <;> cases color <;> rfl
  have hconfig : Config.nearest FileTree.empty [] = .ok {} := rfl
  have hsettings : (Settings.ofConfig {}).restrict (flags.map Prod.snd) =
      ⟨comparisons, requireEnd, color⟩ := by
    cases comparisons <;> cases requireEnd <;> cases color <;> rfl
  have hinvokes := Invokes.intro (n := n) (readLine_words flags hwords source) hhelp
    (Nat.le_refl 1) hconfig hsource
  rw [hsettings] at hinvokes
  exact ⟨_, _, hinvokes⟩

/-! ## Blanks and printed trees as sources -/

theorem onSource_congr {source' : String}
    (h : Text.strip source'.toList = Text.strip source.toList) :
    onSource n s source' = onSource n s source := by
  rw [onSource, onSource, h]

theorem strip_surrounded {before after : String}
    (hbefore : ∀ c ∈ before.toList, Text.isBlank c = true)
    (hafter : ∀ c ∈ after.toList, Text.isBlank c = true) (source : String) :
    Text.strip (before ++ source ++ after).toList = Text.strip source.toList := by
  rw [String.toList_append, String.toList_append, Text.strip_append_right hafter,
    Text.strip_append_left hbefore]

/-- What `parse` has printed, it prints again. -/
theorem onSource_toText {e : Expression} (h : e.WellFormed) (hheight : e.height ≤ 450)
    (hs : s.comparisons = true) :
    onSource .parse s e.toText = { exitCode := 0, stdout := e.toText ++ "\n" } := by
  have hexit := Grammar.exit_toText h (Grammar.nestingLimit true) s.requireEnd
  rw [if_pos (Nat.le_trans hheight (Grammar.nestingLimit_bounds true).1)] at hexit
  have hreply : replyTo s e.toText = ⟨true, .expression e, e.toText.length⟩ := by
    rw [replyTo, Expression.strip_toText h, String.ofList_toList, hs]
    exact Grammar.parse_of_exit hexit
  rw [onSource_of_tree hreply, Expression.strip_toText h, warningAt, String.length_toList,
    if_neg (Nat.lt_irrefl _)]
  rfl

/-- A success has a well-formed tree, and it is the one that is printed. -/
theorem tree_of_exit_zero (h : ((onSource n s source).shown w).exitCode = 0) :
    ∃ e, e.WellFormed ∧ (replyTo s source).value = .expression e ∧
      ((onSource n s source).shown w).stdout = display n e := by
  have hreports := reports_onSource n s source w
  cases hsuccess : (replyTo s source).success with
  | false =>
    rw [hreports.failure hsuccess] at h
    cases h
  | true =>
    obtain ⟨e, k, hreply, hending⟩ := hreports.success hsuccess
    have hexit := Grammar.exit_of_parse_success hsuccess
    obtain ⟨e', hvalue, hwell, _⟩ := Grammar.wellFormed_of_exit hexit hsuccess
    have hsame : (replyTo s source).value = .expression e' := hvalue
    rw [hreply] at hsame
    cases hsame
    exact ⟨e, hwell, by rw [hreply], by rw [hending]⟩

/-- Every run of a subcommand on a source reports the reply of the parser, every source can
be run under all settings, blanks around it make no difference, and what `parse` prints for
a tree that is not too high it prints again. -/
theorem run_reports_source :
    (∀ (n : Name) (s : Settings) (source : String), ∃ w line, Invokes w line n s source) ∧
    (∀ (w : World) (line : List String) (n : Name) (s : Settings) (source : String),
      Invokes w line n s source → Reports n s source w.stderrTerminal (run w line)) ∧
    (∀ (w w' : World) (line line' : List String) (n : Name) (s : Settings)
      (source before after : String), (∀ c ∈ before.toList, Text.isBlank c = true) →
      (∀ c ∈ after.toList, Text.isBlank c = true) → w'.stderrTerminal = w.stderrTerminal →
      Invokes w line n s source → Invokes w' line' n s (before ++ source ++ after) →
      run w' line' = run w line) ∧
    (∀ (w : World) (line : List String) (s : Settings) (source : String),
      Invokes w line .parse s source → (run w line).exitCode = 0 →
      ∃ e, (replyTo s source).value = .expression e ∧ (run w line).stdout = e.toText ++ "\n" ∧
        (e.height ≤ 450 → ∀ (w' : World) (line' : List String) (s' : Settings)
          (before after : String), s'.comparisons = true →
          (∀ c ∈ before.toList, Text.isBlank c = true) →
          (∀ c ∈ after.toList, Text.isBlank c = true) →
          Invokes w' line' .parse s' (before ++ e.toText ++ after) →
          run w' line' = { exitCode := 0, stdout := e.toText ++ "\n" })) := by
  refine ⟨exists_invokes, ?_, ?_, ?_⟩
  · intro w line n s source h
    rw [run_of_invokes h]
    exact reports_onSource n s source w
  · intro w w' line line' n s source before after hbefore hafter hterminal h h'
    rw [run_of_invokes h, run_of_invokes h',
      onSource_congr (strip_surrounded hbefore hafter source)]
    have hreports := reports_onSource n s source w'
    rw [hterminal] at hreports
    exact hreports.unique (reports_onSource n s source w)
  · intro w line s source h hexit
    rw [run_of_invokes h] at hexit ⊢
    obtain ⟨e, hwell, hvalue, hstdout⟩ := tree_of_exit_zero hexit
    refine ⟨e, hvalue, hstdout, fun hheight w' line' s' before after hs' hbefore hafter h' => ?_⟩
    have hprinted := written_display hwell .parse w'.stdoutTerminal
    rw [display] at hprinted
    rw [run_of_invokes h', onSource_congr (strip_surrounded hbefore hafter e.toText),
      onSource_toText hwell hheight hs', Ending.shown, written_empty, hprinted]

/-- Blanks that the grammar does not skip make no difference around a source of which a part
is left over, nor does it make one where the tree is printed to. -/
theorem run_reports_source_surrounded :
    run { stderrTerminal := true }
        ["view", "--basic", "--partial", "--", "\u3000\x1c1+x] \n"] =
      run { stdoutTerminal := true, stderrTerminal := true }
        ["view", "--basic", "--partial", "--", "1+x]"] := by
  let options : List (String × SubOption) := [("--basic", .basic), ("--partial", .prefixOnly)]
  have hwords : ∀ option ∈ options, option ∈ subTable.words := by decide
  have hconfig : Config.nearest FileTree.empty [] = .ok {} := rfl
  have hinvokes (source : String) (stdoutTerminal : Bool) :
      Invokes { stdoutTerminal, stderrTerminal := true }
        ["view", "--basic", "--partial", "--", source] .view ⟨false, false, true⟩ source := by
    have hsource : source? { stdoutTerminal, stderrTerminal := true } (options.map Prod.snd)
        (some source) = some source := rfl
    exact Invokes.intro (n := .view) (readLine_words options hwords source) (by decide)
      (Nat.le_refl 1) hconfig hsource
  refine run_reports_source.2.2.1 _ _ _ _ .view ⟨false, false, true⟩ "1+x]" "\u3000\x1c" " \n"
    ?_ ?_ rfl (hinvokes _ true) (hinvokes _ false)
  · exact List.all_eq_true.mp rfl
  · exact List.all_eq_true.mp rfl

end Command
end Parlance
