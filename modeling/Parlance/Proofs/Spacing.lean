import Mathlib.Data.List.Chain
import Parlance.Proofs.Conservativity

/-! # White space

Where white space may stand in an expression: anywhere but in front of the first
character and between two characters that one token holds together, which are two
digits, two letters, or the two of the sign `<>`. A text derives a tree exactly if it
does without its white space, and all of that stands where it may
(`derives_iff_compact`). No two words stand side by side in an expression, so white
space that stands where it may never parts one word into two, and leaving it out never
makes one of two. Edits of the white space of a text are then judged by what they do to
the gaps between its visible characters. -/
namespace Parlance.Grammar

variable {comparisons : Bool} {depth k : Nat} {cs : List Char} {e : Expression}

/-! ## Gaps between visible characters -/

def compact (cs : List Char) : List Char := cs.filter fun c => !isSpace c

/-- May no white space stand between the two? The start of the text is no character, and
ties whatever comes first. -/
def tied : Option Char → Char → Bool
  | none, _ => true
  | some a, b =>
    (CodePoint.isDigit a.toNat && CodePoint.isDigit b.toNat) ||
    (CodePoint.isLetter a.toNat && CodePoint.isLetter b.toNat) || (a = '<' && b = '>')

/-- White space stands only where it may, behind `last`, which is the last visible
character, and behind white space if there is a `gap`. -/
def WellSpaced : Option Char → Bool → List Char → Prop
  | _, _, [] => True
  | last, gap, c :: cs =>
    if isSpace c then WellSpaced last true cs
    else (gap = true → tied last c = false) ∧ WellSpaced (some c) false cs

@[simp]
theorem compact_append (cs cs' : List Char) : compact (cs ++ cs') = compact cs ++ compact cs' :=
  List.filter_append ..

theorem compact_cons_of_space {c : Char} (h : isSpace c = true) (cs : List Char) :
    compact (c :: cs) = compact cs := by
  simp [compact, h]

theorem compact_cons {c : Char} (h : isSpace c = false) (cs : List Char) :
    compact (c :: cs) = c :: compact cs := by
  simp [compact, h]

theorem compact_eq_nil_iff : compact cs = [] ↔ ∀ c ∈ cs, isSpace c = true := by
  simp [compact]

theorem compact_eq_self_iff : compact cs = cs ↔ ∀ c ∈ cs, isSpace c = false := by
  simp [compact]

section WellSpaced

variable {last : Option Char} {gap : Bool}

theorem wellSpaced_cons_of_space {c : Char} (h : isSpace c = true) :
    WellSpaced last gap (c :: cs) ↔ WellSpaced last true cs := by
  rw [WellSpaced, if_pos h]

theorem wellSpaced_cons {c : Char} (h : isSpace c = false) :
    WellSpaced last gap (c :: cs) ↔
      (gap = true → tied last c = false) ∧ WellSpaced (some c) false cs := by
  rw [WellSpaced, if_neg (by simp [h])]

/-- A gap that is not there asks for less. -/
theorem WellSpaced.of_gap {gap' : Bool} (h : WellSpaced last gap cs) (hgap : gap' = true → gap = true) :
    WellSpaced last gap' cs := by
  cases cs with
  | nil => trivial
  | cons c cs =>
    cases hc : isSpace c with
    | true =>
      rw [wellSpaced_cons_of_space hc] at h ⊢
      exact h
    | false =>
      rw [wellSpaced_cons hc] at h ⊢
      exact ⟨fun hgap' => h.1 (hgap hgap'), h.2⟩

theorem wellSpaced_blanks_append {blanks : List Char} (hblanks : ∀ c ∈ blanks, isSpace c = true) :
    WellSpaced last gap (blanks ++ cs) ↔ WellSpaced last (gap || !blanks.isEmpty) cs := by
  induction blanks generalizing gap with
  | nil => simp
  | cons b blanks ih =>
    rw [List.cons_append, wellSpaced_cons_of_space (hblanks b (by simp)),
      ih fun c hc => hblanks c (by simp [hc])]
    simp

theorem WellSpaced.left {cs' : List Char} (h : WellSpaced last gap (cs ++ cs')) :
    WellSpaced last gap cs := by
  induction cs generalizing last gap with
  | nil => trivial
  | cons c cs ih =>
    rw [List.cons_append] at h
    cases hc : isSpace c with
    | true =>
      rw [wellSpaced_cons_of_space hc] at h ⊢
      exact ih h
    | false =>
      rw [wellSpaced_cons hc] at h ⊢
      exact ⟨h.1, ih h.2⟩

theorem WellSpaced.right {cs' : List Char} (h : WellSpaced last gap (cs ++ cs')) :
    ∃ last' gap', WellSpaced last' gap' cs' := by
  induction cs generalizing last gap with
  | nil => exact ⟨last, gap, h⟩
  | cons c cs ih =>
    rw [List.cons_append] at h
    cases hc : isSpace c with
    | true => exact ih ((wellSpaced_cons_of_space hc).mp h)
    | false => exact ih ((wellSpaced_cons hc).mp h).2

end WellSpaced

/-! ## Characters that are not tied -/

theorem tied_of_left {a b : Char} (hdigit : CodePoint.isDigit a.toNat = false)
    (hletter : CodePoint.isLetter a.toNat = false) (hless : a ≠ '<') : tied (some a) b = false := by
  simp [tied, hdigit, hletter, hless]

theorem tied_of_right {a b : Char} (hdigit : CodePoint.isDigit b.toNat = false)
    (hletter : CodePoint.isLetter b.toNat = false) (hgreater : b ≠ '>') :
    tied (some a) b = false := by
  simp [tied, hdigit, hletter, hgreater]

/-- A sign is held together, is tied neither to what comes before nor to a phrase behind,
and has no white space in it. -/
theorem sign_spacing {s : List Char × Operator} (hs : s ∈ signs k) :
    ∃ first tail, s.1 = first :: tail ∧ (∀ a, tied (some a) first = false) ∧
      (∀ c ∈ s.1, isSpace c = false) ∧ s.1.IsChain (fun a b => tied (some a) b = true) ∧
      ∀ final, s.1.getLast? = some final → ∀ b, tied (some final) b = false := by
  match k with
  | 0 | 1 | 2 =>
    simp only [signs, List.mem_cons, List.not_mem_nil, or_false] at hs
    rcases hs with rfl | rfl
    all_goals
      refine ⟨_, _, rfl, fun a => tied_of_right (by decide) (by decide) (by decide),
        compact_eq_self_iff.mp rfl, by simp [tied], ?_⟩
      rintro final hfinal b
      cases hfinal
      exact tied_of_left (by decide) (by decide) (by decide)
  | k + 3 => simp [signs] at hs

/-! ## Phrases without their white space -/

theorem compact_blanks {blanks : List Char} (h : ∀ c ∈ blanks, isSpace c = true) :
    compact blanks = [] := compact_eq_nil_iff.mpr h

/-- The characters of a word are no white space. -/
theorem compact_word {holds : Nat → Bool} {word : List Char}
    (hclass : ∀ d : Char, holds d.toNat = true → isStart d = true)
    (hword : ∀ d ∈ word, holds d.toNat = true) : compact word = word :=
  compact_eq_self_iff.mpr fun d hd => isSpace_eq_false_of_isStart (hclass d (hword d hd))

theorem Derives.compact (h : Derives comparisons depth k cs e) :
    Derives comparisons depth k (compact cs) e := by
  have hnone : ∀ c ∈ ([] : List Char), isSpace c = true := by simp
  induction h with
  | number hne hdigits hblanks =>
    rw [compact_append, compact_word isStart_of_isDigit hdigits, compact_blanks hblanks]
    exact number hne hdigits hnone
  | identifier hne hletters hblanks =>
    rw [compact_append, compact_word isStart_of_isLetter hletters, compact_blanks hblanks]
    exact identifier hne hletters hnone
  | parens hbefore _ hbehind ih =>
    rw [compact_cons (by decide), compact_append, compact_append, compact_cons (by decide),
      compact_blanks hbefore, compact_blanks hbehind]
    exact parens hnone ih hnone
  | operand _ ih => exact operand ih
  | joined _ hsign hblanks _ ihleft ihright =>
    obtain ⟨_, _, _, _, hvisible, _⟩ := sign_spacing hsign
    rw [compact_append, compact_append, compact_append, compact_eq_self_iff.mpr hvisible,
      compact_blanks hblanks]
    exact joined ihleft hsign hnone ihright

/-- Nothing in `rest` is tied to a character in front. -/
def Loose (rest : List Char) : Prop := ∀ a gap, WellSpaced (some a) gap rest

theorem Loose.blanks_append {blanks rest : List Char} (h : Loose rest)
    (hblanks : ∀ c ∈ blanks, isSpace c = true) : Loose (blanks ++ rest) :=
  fun a _ => (wellSpaced_blanks_append hblanks).mpr (h a _)

/-- Visible characters side by side are well spaced, whatever they are. -/
theorem wellSpaced_visible {cs rest : List Char} (hvisible : ∀ c ∈ cs, isSpace c = false) (a : Char)
    (hrest : ∀ final, (a :: cs).getLast? = some final → WellSpaced (some final) false rest) :
    WellSpaced (some a) false (cs ++ rest) := by
  induction cs generalizing a with
  | nil => exact hrest a rfl
  | cons c cs ih =>
    rw [List.cons_append, wellSpaced_cons (hvisible c (by simp))]
    refine ⟨fun hgap => (by cases hgap), ih (fun d hd => hvisible d (by simp [hd])) c ?_⟩
    intro final hfinal
    exact hrest final (by rw [List.getLast?_cons_cons]; exact hfinal)

theorem wellSpaced_word {holds : Nat → Bool} {last : Option Char} {gap : Bool}
    {word blanks rest : List Char} (hclass : ∀ d : Char, holds d.toNat = true → isStart d = true)
    (hne : word ≠ []) (hword : ∀ d ∈ word, holds d.toNat = true)
    (hblanks : ∀ c ∈ blanks, isSpace c = true)
    (hlast : gap = true → ∀ b, isStart b = true → tied last b = false) (hrest : Loose rest) :
    WellSpaced last gap (word ++ blanks ++ rest) := by
  obtain ⟨d, word, rfl⟩ := List.exists_cons_of_ne_nil hne
  have hvisible : ∀ c ∈ d :: word, isSpace c = false := fun c hc =>
    isSpace_eq_false_of_isStart (hclass c (hword c hc))
  rw [List.append_assoc, List.cons_append, wellSpaced_cons (hvisible d (by simp))]
  refine ⟨fun hgap => hlast hgap d (hclass d (hword d (by simp))), ?_⟩
  exact wellSpaced_visible (fun c hc => hvisible c (by simp [hc])) d fun final _ =>
    hrest.blanks_append hblanks final false

/-- In a phrase white space stands only where it may. What is in front of the phrase and
what follows it is kept open for the induction. -/
theorem Derives.wellSpaced_append (h : Derives comparisons depth k cs e) :
    ∀ {last : Option Char} {gap : Bool} {rest : List Char},
      (gap = true → ∀ b, isStart b = true → tied last b = false) → Loose rest →
      WellSpaced last gap (cs ++ rest) := by
  induction h with
  | number hne hdigits hblanks =>
    exact fun hlast hrest => wellSpaced_word isStart_of_isDigit hne hdigits hblanks hlast hrest
  | identifier hne hletters hblanks =>
    exact fun hlast hrest => wellSpaced_word isStart_of_isLetter hne hletters hblanks hlast hrest
  | @parens _ before inner behind _ hbefore _ hbehind ih =>
    intro last gap rest hlast hrest
    have hclosing : Loose (')' :: (behind ++ rest)) := by
      intro a gap'
      rw [wellSpaced_cons (by decide)]
      exact ⟨fun _ => tied_of_right (by decide) (by decide) (by decide),
        hrest.blanks_append hbehind ')' false⟩
    have hinner : WellSpaced (some '(') (false || !before.isEmpty)
        (inner ++ ')' :: (behind ++ rest)) :=
      ih (fun _ _ _ => tied_of_left (by decide) (by decide) (by decide)) hclosing
    have htext : '(' :: (before ++ (inner ++ ')' :: behind)) ++ rest =
        '(' :: (before ++ (inner ++ ')' :: (behind ++ rest))) := by simp
    rw [htext, wellSpaced_cons (by decide), wellSpaced_blanks_append hbefore]
    exact ⟨fun hgap => hlast hgap '(' (by decide), hinner⟩
  | operand _ ih => exact fun hlast hrest => ih hlast hrest
  | @joined _ k left sign blanks right op _ _ _ hsign hblanks _ ihleft ihright =>
    intro last gap rest hlast hrest
    obtain ⟨first, tail, rfl, hfirst, hvisible, _, hfinal⟩ := sign_spacing hsign
    have hbehind : Loose (first :: (tail ++ (blanks ++ (right ++ rest)))) := by
      intro a gap'
      rw [wellSpaced_cons (hvisible first (by simp))]
      refine ⟨fun _ => hfirst a, wellSpaced_visible (fun c hc => hvisible c (by simp [hc])) first ?_⟩
      -- behind the sign comes the operand, which the sign is not tied to
      intro final hlast'
      rw [wellSpaced_blanks_append hblanks]
      exact ihright (fun _ b _ => hfinal final hlast' b) hrest
    have htext : left ++ (first :: tail ++ (blanks ++ right)) ++ rest =
        left ++ first :: (tail ++ (blanks ++ (right ++ rest))) := by simp
    rw [htext]
    exact ihleft hlast hbehind

/-! ## White space put back -/

/-- The text is these visible characters with white space where it may stand, and none in
front. -/
structure Respaced (visible cs : List Char) : Prop where
  compact_eq : compact cs = visible
  head : ∀ c, cs.head? = some c → isSpace c = false
  spaced : ∃ last gap, WellSpaced last gap cs

/-- Visible characters in two parts make two parts of the text; the white space between
them goes to the first. -/
theorem Respaced.exists_parts {front behind : List Char} (h : Respaced (front ++ behind) cs)
    (hne : front ≠ []) : ∃ x y, cs = x ++ y ∧ Respaced front x ∧ Respaced behind y := by
  obtain ⟨last, gap, hspaced⟩ := h.spaced
  obtain ⟨x, y, rfl, hx, hy⟩ := List.filter_eq_append_iff.mp h.compact_eq
  have htext : x ++ y = (x ++ y.takeWhile isSpace) ++ y.dropWhile isSpace := by
    rw [List.append_assoc, List.takeWhile_append_dropWhile]
  have hblanks : compact (y.takeWhile isSpace) = [] :=
    compact_blanks (List.all_eq_true.mp List.all_takeWhile)
  have hrest : compact (y.dropWhile isSpace) = compact y := by
    conv_rhs => rw [← List.takeWhile_append_dropWhile (p := isSpace) (l := y)]
    rw [compact_append, hblanks, List.nil_append]
  rw [htext] at hspaced
  refine ⟨_, _, htext, ⟨?_, ?_, last, gap, hspaced.left⟩,
    ⟨hrest.trans hy, head?_dropWhile_eq_false y, hspaced.right⟩⟩
  · rw [compact_append, hblanks, List.append_nil]
    exact hx
  · intro c hc
    cases x with
    | nil => exact absurd hx.symm hne
    | cons d x => exact h.head c hc

/-- Behind a gap the next visible character is not tied to the last one. -/
theorem WellSpaced.tied_eq_false {last : Option Char} {d : Char} {visible : List Char}
    (h : WellSpaced last true cs) (hcompact : compact cs = d :: visible) : tied last d = false := by
  induction cs with
  | nil => cases hcompact
  | cons c cs ih =>
    cases hc : isSpace c with
    | true =>
      rw [compact_cons_of_space hc] at hcompact
      exact ih ((wellSpaced_cons_of_space hc).mp h) hcompact
    | false =>
      rw [compact_cons hc] at hcompact
      obtain ⟨rfl, _⟩ := List.cons.inj hcompact
      exact ((wellSpaced_cons hc).mp h).1 rfl

/-- A run of characters each tied to the next stays together. -/
theorem Respaced.exists_blanks {run : List Char} (h : Respaced run cs) (hne : run ≠ [])
    (hrun : run.IsChain fun a b => tied (some a) b = true) :
    ∃ blanks, cs = run ++ blanks ∧ ∀ c ∈ blanks, isSpace c = true := by
  induction run generalizing cs with
  | nil => exact absurd rfl hne
  | cons d run ih =>
    obtain ⟨hcompact, hhead, last, gap, hspaced⟩ := h
    obtain ⟨c, rest, rfl⟩ : ∃ c rest, cs = c :: rest := by
      cases cs with
      | nil => cases hcompact
      | cons c rest => exact ⟨c, rest, rfl⟩
    have hc := hhead c rfl
    rw [compact_cons hc] at hcompact
    obtain ⟨rfl, hrest⟩ := List.cons.inj hcompact
    have htail := ((wellSpaced_cons hc).mp hspaced).2
    cases run with
    | nil => exact ⟨rest, rfl, compact_eq_nil_iff.mp hrest⟩
    | cons d' run =>
      obtain ⟨htied, hrun⟩ := List.isChain_cons_cons.mp hrun
      -- white space in front of the next one would stand where it may not
      have hnext : ∀ c', rest.head? = some c' → isSpace c' = false := by
        intro c' hc'
        obtain ⟨rest, rfl⟩ : ∃ tail, rest = c' :: tail := List.head?_eq_some_iff.mp hc'
        rw [← Bool.not_eq_true]
        intro hspace
        rw [wellSpaced_cons_of_space hspace] at htail
        rw [compact_cons_of_space hspace] at hrest
        rw [htail.tied_eq_false hrest] at htied
        cases htied
      obtain ⟨blanks, rfl, hblanks⟩ := ih ⟨hrest, hnext, _, _, htail⟩ (by simp) hrun
      exact ⟨blanks, rfl, hblanks⟩

theorem isChain_of_tied {holds : Nat → Bool} {word : List Char}
    (htied : ∀ a b : Char, holds a.toNat = true → holds b.toNat = true → tied (some a) b = true)
    (hword : ∀ d ∈ word, holds d.toNat = true) :
    word.IsChain fun a b => tied (some a) b = true := by
  induction word with
  | nil => exact .nil
  | cons d word ih =>
    cases word with
    | nil => exact .singleton d
    | cons d' word =>
      refine List.isChain_cons_cons.mpr ⟨htied d d' (hword d (by simp)) (hword d' (by simp)), ?_⟩
      exact ih fun c hc => hword c (by simp [hc])

/-- There is no white space between visible characters. -/
theorem Respaced.eq_nil {front blanks behind : List Char} (h : Respaced (front ++ (blanks ++ behind)) cs)
    (hblanks : ∀ c ∈ blanks, isSpace c = true) : blanks = [] := by
  refine List.eq_nil_iff_forall_not_mem.mpr fun c hc => ?_
  have hvisible : c ∈ compact cs := by
    rw [h.compact_eq]
    simp [hc]
  have hspace : isSpace c = false := by simpa using (List.mem_filter.mp hvisible).2
  rw [hblanks c hc] at hspace
  cases hspace

/-- A phrase stays one when white space is put where it may stand. -/
theorem Derives.respaced {visible : List Char} (h : Derives comparisons depth k visible e) :
    ∀ {cs : List Char}, Respaced visible cs → Derives comparisons depth k cs e := by
  induction h with
  | @number _ digits blanks hne hdigits hblanks =>
    intro cs hcs
    rw [← List.append_nil blanks] at hcs
    obtain rfl := hcs.eq_nil hblanks
    rw [List.append_nil, List.append_nil] at hcs
    obtain ⟨blanks, rfl, hblanks⟩ := hcs.exists_blanks hne
      (isChain_of_tied (fun a b ha hb => by simp [tied, ha, hb]) hdigits)
    exact number hne hdigits hblanks
  | @identifier _ letters blanks hne hletters hblanks =>
    intro cs hcs
    rw [← List.append_nil blanks] at hcs
    obtain rfl := hcs.eq_nil hblanks
    rw [List.append_nil, List.append_nil] at hcs
    obtain ⟨blanks, rfl, hblanks⟩ := hcs.exists_blanks hne
      (isChain_of_tied (fun a b ha hb => by simp [tied, ha, hb]) hletters)
    exact identifier hne hletters hblanks
  | @parens _ before inner behind _ hbefore hinner hbehind ih =>
    intro cs hcs
    have hopening : Respaced (['('] ++ (before ++ (inner ++ ')' :: behind))) cs := hcs
    obtain rfl := hopening.eq_nil hbefore
    obtain ⟨x, y, rfl, hx, hy⟩ := hopening.exists_parts (by simp)
    obtain ⟨before, rfl, hbefore⟩ := hx.exists_blanks (by simp) (.singleton _)
    rw [List.nil_append] at hy
    obtain ⟨u, v, rfl, hu, hv⟩ := hy.exists_parts hinner.ne_nil
    have hclosing : Respaced ([')'] ++ (behind ++ [])) v := by rwa [List.append_nil]
    obtain rfl := hclosing.eq_nil hbehind
    obtain ⟨behind, rfl, hbehind⟩ := hv.exists_blanks (by simp) (.singleton _)
    have hparens := parens hbefore (ih hu) hbehind
    simpa using hparens
  | operand _ ih => exact fun hcs => operand (ih hcs)
  | @joined _ k left sign blanks right op _ _ hleft hsign hblanks _ ihleft ihright =>
    intro cs hcs
    obtain ⟨x, y, rfl, hx, hy⟩ := hcs.exists_parts hleft.ne_nil
    obtain ⟨first, tail, rfl, _, _, htied, _⟩ := sign_spacing hsign
    obtain rfl := hy.eq_nil hblanks
    rw [List.nil_append] at hy
    obtain ⟨u, v, rfl, hu, hv⟩ := hy.exists_parts (by simp)
    obtain ⟨blanks, rfl, hblanks⟩ := hu.exists_blanks (by simp) htied
    rw [List.append_assoc]
    exact joined (ihleft hx) hsign hblanks (ihright hv)

/-- A text derives a tree exactly if it does without its white space, and that stands
where it may. -/
theorem derives_iff_compact : Derives comparisons depth k cs e ↔
    Derives comparisons depth k (compact cs) e ∧ WellSpaced none false cs := by
  constructor
  · intro h
    have hspaced : WellSpaced none false (cs ++ []) :=
      h.wellSpaced_append (fun hgap => by cases hgap) fun _ _ => trivial
    rw [List.append_nil] at hspaced
    exact ⟨h.compact, hspaced⟩
  · rintro ⟨h, hspaced⟩
    refine h.respaced ⟨rfl, fun c hc => ?_, none, false, hspaced⟩
    -- the start of the text is tied to its first visible character
    obtain ⟨rest, rfl⟩ : ∃ rest, cs = c :: rest := List.head?_eq_some_iff.mp hc
    obtain ⟨d, visible, hvisible, _⟩ := h.exists_start
    rw [← Bool.not_eq_true]
    intro hspace
    rw [compact_cons_of_space hspace] at hvisible
    have htied := ((wellSpaced_cons_of_space hspace).mp hspaced).tied_eq_false hvisible
    cases htied

/-! ## Edits of white space -/

/-- The characters from place `i` on, with the white space at the chosen places left out. -/
def withoutBlanks (chosen : Nat → Bool) : Nat → List Char → List Char
  | _, [] => []
  | i, c :: cs =>
    if isSpace c && chosen i then withoutBlanks chosen (i + 1) cs
    else c :: withoutBlanks chosen (i + 1) cs

/-- The characters from place `i` on, with what the gaps hold put in front of each and
behind the last. -/
def withBlanks (gaps : Nat → List Char) : Nat → List Char → List Char
  | i, [] => gaps i
  | i, c :: cs => gaps i ++ c :: withBlanks gaps (i + 1) cs

/-- The gaps hold white space only, and none between characters that are tied. `before` is
the character in front of place `i`. -/
def Fits (gaps : Nat → List Char) : Nat → Option Char → List Char → Prop
  | i, _, [] => ∀ b ∈ gaps i, isSpace b = true
  | i, before, c :: cs =>
    (∀ b ∈ gaps i, isSpace b = true) ∧ (tied before c = true → gaps i = []) ∧
      Fits gaps (i + 1) (some c) cs

theorem compact_withoutBlanks (chosen : Nat → Bool) (i : Nat) (cs : List Char) :
    compact (withoutBlanks chosen i cs) = compact cs := by
  induction cs generalizing i with
  | nil => rfl
  | cons c cs ih =>
    cases hc : isSpace c with
    | true =>
      rw [withoutBlanks, compact_cons_of_space hc]
      split
      · exact ih (i + 1)
      · rw [compact_cons_of_space hc, ih (i + 1)]
    | false =>
      rw [withoutBlanks, hc, Bool.false_and, if_neg Bool.false_ne_true, compact_cons hc,
        compact_cons hc, ih (i + 1)]

theorem compact_withBlanks {gaps : Nat → List Char} {i : Nat} {before : Option Char}
    (h : Fits gaps i before cs) : compact (withBlanks gaps i cs) = compact cs := by
  induction cs generalizing i before with
  | nil => exact compact_blanks h
  | cons c cs ih =>
    obtain ⟨hblanks, _, hrest⟩ := h
    have hcons : compact (c :: withBlanks gaps (i + 1) cs) = compact (c :: cs) := by
      cases hc : isSpace c with
      | true => rw [compact_cons_of_space hc, compact_cons_of_space hc, ih hrest]
      | false => rw [compact_cons hc, compact_cons hc, ih hrest]
    rw [withBlanks, compact_append, compact_blanks hblanks, List.nil_append, hcons]

/-- Leaving white space out opens no gap. -/
theorem WellSpaced.withoutBlanks {last : Option Char} {gap : Bool} (h : WellSpaced last gap cs)
    (chosen : Nat → Bool) (i : Nat) : WellSpaced last gap (withoutBlanks chosen i cs) := by
  induction cs generalizing last gap i with
  | nil => exact h
  | cons c cs ih =>
    cases hc : isSpace c with
    | true =>
      have hrest := ih ((wellSpaced_cons_of_space hc).mp h) (i + 1)
      rw [Grammar.withoutBlanks]
      split
      · exact hrest.of_gap fun _ => rfl
      · exact (wellSpaced_cons_of_space hc).mpr hrest
    | false =>
      obtain ⟨hgap, hrest⟩ := (wellSpaced_cons hc).mp h
      rw [Grammar.withoutBlanks, hc, Bool.false_and, if_neg Bool.false_ne_true, wellSpaced_cons hc]
      exact ⟨hgap, ih hrest (i + 1)⟩

/-- White space that fits opens gaps between characters that are not tied. Without a gap
the last visible character is the one in front. -/
theorem WellSpaced.withBlanks {gaps : Nat → List Char} {i : Nat} {last before : Option Char}
    {gap : Bool} (h : WellSpaced last gap cs) (hfits : Fits gaps i before cs)
    (hbefore : gap = false → before = last) : WellSpaced last gap (withBlanks gaps i cs) := by
  induction cs generalizing i last before gap with
  | nil =>
    rw [Grammar.withBlanks, ← List.append_nil (gaps i), wellSpaced_blanks_append hfits]
    trivial
  | cons c cs ih =>
    obtain ⟨hblanks, htied, hrest⟩ := hfits
    rw [Grammar.withBlanks, wellSpaced_blanks_append hblanks]
    cases hc : isSpace c with
    | true =>
      rw [wellSpaced_cons_of_space hc] at h ⊢
      exact ih h hrest fun hgap => by cases hgap
    | false =>
      rw [wellSpaced_cons hc] at h ⊢
      refine ⟨fun hopen => ?_, ih h.2 hrest fun _ => rfl⟩
      cases hgap : gap with
      | true => exact h.1 hgap
      | false =>
        rw [hbefore hgap] at htied
        rw [← Bool.not_eq_true]
        intro hlast
        rw [hgap, htied hlast] at hopen
        cases hopen

/-! ## Parsing texts with other white space -/

/-- Texts with the same visible characters derive the same tree, if white space stands
where it may. -/
theorem Derives.of_same_compact {cs' : List Char} (h : Derives comparisons depth k cs e)
    (hcompact : Grammar.compact cs' = Grammar.compact cs) (hspaced : WellSpaced none false cs') :
    Derives comparisons depth k cs' e := by
  rw [derives_iff_compact, hcompact]
  exact ⟨h.compact, hspaced⟩

variable {text : String}

theorem derives_of_tree (h : tree? (parse text ⟨comparisons, true⟩) = some e) :
    Derives comparisons (nestingLimit comparisons) (topLevel comparisons) text.toList e := by
  rcases parse_complete_cases comparisons text with ⟨f, hderives, hparse⟩ | hparse
  · rw [hparse] at h
    cases h
    exact hderives
  · rw [hparse] at h
    cases h

theorem tree_of_derives
    (h : Derives comparisons (nestingLimit comparisons) (topLevel comparisons) cs e) :
    tree? (parse (String.ofList cs) ⟨comparisons, true⟩) = some e := by
  rw [parse_of_derives (by rwa [String.toList_ofList])]
  rfl

/-- White space in front is refused at once. -/
theorem parse_eq_rejected_of_space {c : Char} (hc : isSpace c = true) (cs : List Char)
    (comparisons requireEnd : Bool) :
    parse (String.ofList (c :: cs)) ⟨comparisons, requireEnd⟩ = rejected := by
  have hfaces := Cursor.faces_ofText (String.ofList (c :: cs))
  rw [String.toList_ofList] at hfaces
  refine parse_of_exit (exit_of_refuses (reader_refuses hfaces ?_ _))
  intro d hd
  cases hd
  rw [← Bool.not_eq_true]
  intro hstart
  rw [isSpace_eq_false_of_isStart hstart] at hc
  cases hc

/-- The grammars agree on a text that both accept. -/
theorem Derives.tree_unique_across {comparisons' : Bool} {depth' : Nat} {e' : Expression}
    (h : Derives comparisons depth (topLevel comparisons) cs e)
    (h' : Derives comparisons' depth' (topLevel comparisons') cs e') : e = e' := by
  have hlarger : ∀ {comparisons : Bool} {depth : Nat} {e : Expression},
      Derives comparisons depth (topLevel comparisons) cs e →
      Derives true depth (topLevel true) cs e := by
    intro comparisons depth e h
    cases comparisons with
    | false => exact (derives_basic_iff.mp h).1
    | true => exact h
  exact (hlarger h).tree_unique (hlarger h')

/-- What edits of its white space make of an accepted text with the tree `e`. -/
structure ToleratesSpace (comparisons : Bool) (text : String) (e : Expression) : Prop where
  -- any of it may be left out
  deleted : ∀ chosen : Nat → Bool,
    tree? (parse (String.ofList (withoutBlanks chosen 0 text.toList)) ⟨comparisons, true⟩) = some e
  -- any may be put in, but not in front, nor between characters that are tied
  inserted : ∀ gaps : Nat → List Char, Fits gaps 0 none text.toList →
    tree? (parse (String.ofList (withBlanks gaps 0 text.toList)) ⟨comparisons, true⟩) = some e
  leading : ∀ c, isSpace c = true → ∀ requireEnd,
    parse (String.ofList (c :: text.toList)) ⟨comparisons, requireEnd⟩ = ⟨false, .null, 0⟩
  -- the visible characters decide on the tree
  decided : ∀ (comparisons' : Bool) (text' : String) (e' : Expression),
    tree? (parse text' ⟨comparisons', true⟩) = some e' →
      compact text'.toList = compact text.toList → e' = e

/-- An accepted text keeps its tree when white space is left out or put in where it may
stand; in front of a text it is an error. -/
theorem parse_tolerates_space (comparisons : Bool) (text : String) (e : Expression)
    (h : tree? (parse text ⟨comparisons, true⟩) = some e) : ToleratesSpace comparisons text e := by
  have hderives := derives_of_tree h
  obtain ⟨hcompact, hspaced⟩ := derives_iff_compact.mp hderives
  refine ⟨fun chosen => ?_, fun gaps hfits => ?_, fun c hc requireEnd => ?_, ?_⟩
  · exact tree_of_derives (hderives.of_same_compact (compact_withoutBlanks chosen 0 _)
      (hspaced.withoutBlanks chosen 0))
  · exact tree_of_derives (hderives.of_same_compact (compact_withBlanks hfits)
      (hspaced.withBlanks hfits fun _ => rfl))
  · exact parse_eq_rejected_of_space hc _ comparisons requireEnd
  · intro comparisons' text' e' h' hsame
    have hcompact' := (derives_iff_compact.mp (derives_of_tree h')).1
    rw [hsame] at hcompact'
    exact hcompact'.tree_unique_across hcompact

/-- Inside the parentheses stand a word, a sign of two characters and a blank on each side
of an operator. -/
theorem parse_tolerates_space_nested :
    tree? (parse "(ab <> (c + d))" ⟨true, true⟩) =
      some (.binary .notEqualTo (.identifier "ab") (.binary .add (.identifier "c") (.identifier "d"))) ∧
    ToleratesSpace true "(ab <> (c + d))"
      (.binary .notEqualTo (.identifier "ab") (.binary .add (.identifier "c") (.identifier "d"))) := by
  let e : Expression :=
    .binary .notEqualTo (.identifier "ab") (.binary .add (.identifier "c") (.identifier "d"))
  have htext : e.toText = "(ab <> (c + d))" := rfl
  have hword : ∀ {name : String}, name ≠ "" →
      name.toList.all (fun c => CodePoint.isLetter c.toNat) = true →
      (Expression.identifier name).WellFormed := fun hne hletters =>
    ⟨hne, List.all_eq_true.mp hletters⟩
  have hwf : e.WellFormed :=
    ⟨by decide, hword (by decide) (by decide), by decide, hword (by decide) (by decide),
      hword (by decide) (by decide)⟩
  have htree : tree? (parse e.toText ⟨true, true⟩) = some e := by
    rw [parse_of_derives (((derives_toText hwf).mono (by decide)).lift (Nat.zero_le _))]
    rfl
  rw [htext] at htree
  exact ⟨htree, parse_tolerates_space true _ e htree⟩

end Parlance.Grammar
