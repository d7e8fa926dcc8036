import Parlance.Proofs.Soundness

/-! # What derives is taken

Two facts about a phrase and the parser of its level. Where the phrase is followed
by something that cannot extend it, the parser takes just that phrase
(`Derives.takes`). Whatever follows it, the parser takes at least that phrase, or
sinks (`Derives.takes_more`): a parser that commits to every choice and takes all it
can never loses a derivation. In a chain the induction reaches, behind each complete
pair, the loop with the tree of what has been read. -/
namespace Parlance.Grammar

/-! ## Phrases that cannot be extended -/

/-- The parser reads a phrase: a term is taken as a whole, and a chain leads to its
loop with the tree of the phrase, whatever sign comes next. -/
def Reads (fs : Forwards) (id depth : Nat) : Nat → List Char → Expression → Prop
  | 0, text, e => ∀ (rounds : Nat) (c : Cursor) (rest : List Char), c.Faces (text ++ rest) →
      (text ++ rest).length < rounds → Follows 0 rest →
      (reader fs id rounds depth 0).Takes c text.length (.expression e)
  | k + 1, text, e => ∀ (rounds : Nat) (c : Cursor) (rest : List Char), c.Faces (text ++ rest) →
      (text ++ rest).length < rounds → Follows k rest →
      ∃ left, rest.length < left ∧ (reader fs id rounds depth (k + 1)).run c =
        (loop fs id rounds depth k left e (c.forward text.length)).run (c.forward text.length)

variable {fs : Forwards} {id rounds depth k : Nat} {comparisons : Bool} {c : Cursor}
  {text rest : List Char} {e : Expression}

theorem Reads.takes (h : Reads fs id depth k text e) (hfaces : c.Faces (text ++ rest))
    (hrounds : (text ++ rest).length < rounds) (hrest : Follows k rest) :
    (reader fs id rounds depth k).Takes c text.length (.expression e) := by
  cases k with
  | zero => exact h rounds c rest hfaces hrounds hrest
  | succ k =>
    obtain ⟨left, hleft, hrun⟩ := h rounds c rest hfaces hrounds hrest.of_succ
    obtain ⟨left, rfl⟩ : ∃ m, left = m + 1 := ⟨left - 1, by omega⟩
    have hjoiner : ((joiner k).matcher rounds (fs.call rounds depth)).Refuses
        (c.forward text.length) :=
      refuses_joiner hfaces.forward fun s hs => hrest.not_sign hs
    exact Matcher.Takes.of_run hrun (Matcher.takes_chainFrom_of_separator hjoiner)

/-- Behind a phrase that is joined to another, the loop takes the sign and stands
before the operand. -/
theorem Reads.sign {sign blanks ahead : List Char} {op : Operator}
    (h : Reads fs id depth (k + 1) text e) (hsign : (sign, op) ∈ signs k)
    (hblanks : ∀ d ∈ blanks, isSpace d = true)
    (hstop : ∀ d, ahead.head? = some d → isSpace d = false)
    (hfaces : c.Faces (text ++ (sign ++ (blanks ++ ahead))))
    (hrounds : (text ++ (sign ++ (blanks ++ ahead))).length < rounds) :
    ∃ left, ahead.length ≤ left ∧
      (reader fs id rounds depth (k + 1)).run c =
        (loop fs id rounds depth k (left + 1) e (c.forward text.length)).run
          (c.forward text.length) ∧
      ((joiner k).matcher rounds (fs.call rounds depth)).Takes (c.forward text.length)
        (sign ++ blanks).length (.operator op) ∧
      ((c.forward text.length).forward (sign ++ blanks).length).Faces ahead := by
  obtain ⟨left, hleft, hrun⟩ := h rounds c _ hfaces hrounds (follows_sign hsign _)
  obtain ⟨left, rfl⟩ : ∃ m, left = m + 1 := ⟨left - 1, by omega⟩
  have hspaces := takeWhile_append_of_stop hblanks hstop
  have hbehind := hfaces.forward
  refine ⟨left, ?_, hrun, ?_, ?_⟩
  · simp only [List.length_append] at hleft
    omega
  · rw [← hspaces]
    exact takes_joiner hsign hbehind
  · rw [← List.append_assoc] at hbehind
    exact hbehind.forward

/-- White space goes on with no word. -/
theorem holds_eq_false_of_isSpace {holds : Nat → Bool} {d : Char}
    (hclass : ∀ d : Char, holds d.toNat = true → isStart d = true) (hd : isSpace d = true) :
    holds d.toNat = false := by
  rw [← Bool.not_eq_true]
  intro hholds
  rw [isSpace_eq_false_of_isStart (hclass d hholds)] at hd
  cases hd

/-- Behind a word stands white space or what follows a phrase, and neither goes on
with it. -/
theorem word_stops {holds : Nat → Bool} {blanks : List Char}
    (hclass : ∀ d : Char, holds d.toNat = true → isStart d = true)
    (hblanks : ∀ d ∈ blanks, isSpace d = true) (hrest : Follows k rest) :
    ∀ d, (blanks ++ rest).head? = some d → holds d.toNat = false := by
  intro d hd
  cases blanks with
  | nil =>
    rw [← Bool.not_eq_true]
    intro hholds
    have hstart := hclass d hholds
    rw [(hrest.head_not hd).1] at hstart
    cases hstart
  | cons b blanks =>
    cases hd
    exact holds_eq_false_of_isSpace hclass (hblanks d (by simp))

theorem isStart_of_isDigit (d : Char) (h : CodePoint.isDigit d.toNat = true) :
    isStart d = true := by
  simp [isStart, h]

theorem isStart_of_isLetter (d : Char) (h : CodePoint.isLetter d.toNat = true) :
    isStart d = true := by
  simp [isStart, h]

theorem Derives.reads (hfs : Holds fs id comparisons) (h : Derives comparisons depth k text e) :
    Reads fs id depth k text e := by
  induction h with
  | @number depth digits blanks hne hdigits hblanks =>
    intro rounds c rest hfaces _ hrest
    have hspaces := takeWhile_append_of_stop hblanks fun d hd => (hrest.head_not hd).2
    rw [List.append_assoc] at hfaces
    rw [← hspaces]
    exact term_takes_number hfaces hne hdigits (word_stops isStart_of_isDigit hblanks hrest)
  | @identifier depth letters blanks hne hletters hblanks =>
    intro rounds c rest hfaces _ hrest
    have hspaces := takeWhile_append_of_stop hblanks fun d hd => (hrest.head_not hd).2
    rw [List.append_assoc] at hfaces
    rw [← hspaces]
    exact term_takes_identifier hfaces hne hletters
      (word_stops isStart_of_isLetter hblanks hrest)
  | @parens depth before inner behind e hbefore hinner hbehind ih =>
    intro rounds c rest hfaces hrounds hrest
    have hspaces := takeWhile_append_of_stop hbehind fun d hd => (hrest.head_not hd).2
    have hopening : c.Faces ('(' :: (before ++ (inner ++ ')' :: (behind ++ rest)))) := by
      simpa using hfaces
    have hlength : (inner ++ ')' :: (behind ++ rest)).length < rounds := by
      simp only [List.length_append, List.length_cons] at hrounds ⊢
      omega
    have htakes := ih.takes (faces_inner hopening) hlength (follows_close _ _)
    rw [← forward_succ hfs] at htakes
    rw [← hspaces]
    exact term_takes_parenthesized hopening
      (takes_parenthesized hopening hbefore (hinner.head_not_space _) htakes)
  | @operand depth k text e hoperand ih =>
    intro rounds c rest hfaces hrounds hrest
    exact ⟨rounds, by rw [List.length_append] at hrounds; omega,
      run_reader_succ (ih.takes hfaces hrounds hrest)⟩
  | @joined depth k left sign blanks right op e f hleft hsign hblanks hright ihleft ihright =>
    intro rounds c rest hfaces hrounds hrest
    have htext : left ++ (sign ++ (blanks ++ right)) ++ rest =
        left ++ (sign ++ (blanks ++ (right ++ rest))) := by simp
    rw [htext] at hfaces hrounds
    obtain ⟨m, hm, hrun, hseparator, hbehind⟩ :=
      ihleft.sign hsign hblanks (hright.head_not_space rest) hfaces hrounds
    have hlength : (right ++ rest).length < rounds := by
      simp only [List.length_append] at hrounds ⊢
      omega
    -- one round of the loop takes the sign and the operand; its rounds still suffice
    have hoperand := ihright.takes hbehind hlength hrest
    refine ⟨m, ?_, ?_⟩
    · obtain ⟨d, tail, rfl, _⟩ := hright.exists_start
      simp only [List.length_append, List.length_cons] at hm
      omega
    · rw [hrun, run_loop_succ hseparator hoperand, Cursor.forward_forward]
      simp only [List.length_append, Nat.add_assoc]

theorem Derives.takes (hfs : Holds fs id comparisons) (h : Derives comparisons depth k text e)
    (hfaces : c.Faces (text ++ rest)) (hrounds : (text ++ rest).length < rounds)
    (hrest : Follows k rest) :
    (reader fs id rounds depth k).Takes c text.length (.expression e) :=
  (h.reads hfs).takes hfaces hrounds hrest

/-! ## Phrases that may be extended -/

/-- The run takes at least so many characters, or sinks. -/
def ReadsOn (m : Matcher) (c : Cursor) (least : Nat) : Prop :=
  (∃ n v, least ≤ n ∧ m.Takes c n v) ∨ m.Sinks c

/-- A word and its white space are taken, and more if the word goes on. -/
theorem length_le_takeWhile {holds : Nat → Bool} {word blanks : List Char} (rest : List Char)
    (hclass : ∀ d : Char, holds d.toNat = true → isStart d = true)
    (hword : ∀ d ∈ word, holds d.toNat = true) (hblanks : ∀ d ∈ blanks, isSpace d = true) :
    (word ++ blanks).length ≤
      ((word ++ (blanks ++ rest)).takeWhile (fun d => holds d.toNat) ++
        ((word ++ (blanks ++ rest)).dropWhile fun d => holds d.toNat).takeWhile isSpace).length := by
  cases blanks with
  | nil =>
    rw [List.takeWhile_append_of_pos hword]
    simp only [List.length_append, List.length_nil]
    omega
  | cons b blanks =>
    have hb := holds_eq_false_of_isSpace hclass (hblanks b (by simp))
    have hdrop : (word ++ (b :: blanks ++ rest)).dropWhile (fun d => holds d.toNat)
        = b :: blanks ++ rest := by
      rw [List.dropWhile_append_of_pos hword]
      simp [hb]
    rw [hdrop, List.takeWhile_append_of_pos hword, List.takeWhile_append_of_pos hblanks]
    simp only [List.length_append]
    omega

theorem takeWhile_ne_nil {holds : Char → Bool} {word : List Char} (rest : List Char)
    (hne : word ≠ []) (hword : ∀ d ∈ word, holds d = true) :
    (word ++ rest).takeWhile holds ≠ [] := by
  rw [List.takeWhile_append_of_pos hword]
  exact List.append_ne_nil_of_left_ne_nil hne _

/-- A run that does not refuse takes a phrase. -/
theorem ReadsOn.exists_phrase {least : Nat} {ahead : List Char} (hfs : Holds fs id comparisons)
    (h : ReadsOn (reader fs id rounds depth k) c least) (hfaces : c.Faces ahead)
    (hrounds : ahead.length < rounds) :
    (∃ taken rest e, ahead = taken ++ rest ∧ least ≤ taken.length ∧
      Derives comparisons depth k taken e ∧
      (reader fs id rounds depth k).Takes c taken.length (.expression e)) ∨
    (reader fs id rounds depth k).Sinks c := by
  rcases h with ⟨n, v, hn, htakes⟩ | hsinks
  · cases reader_ends hfs depth k c ahead hfaces hrounds with
    | takes taken rest htext hderives htaken =>
      obtain ⟨rfl, _⟩ := htakes.unique htaken
      exact Or.inl ⟨taken, rest, _, htext, hn, hderives, htaken⟩
    | refuses hrefuses => exact absurd hrefuses htakes.not_refuses
    | sinks hsinks _ => exact absurd hsinks htakes.not_sinks
  · exact Or.inr hsinks

/-- Behind a complete phrase the loop of a chain takes no step back. -/
theorem loop_readsOn {left : Nat} {ahead : List Char} (hfs : Holds fs id comparisons)
    (h : Derives comparisons depth (k + 1) text e) (hfaces : c.Faces ahead)
    (hleft : ahead.length < left) (hrounds : ahead.length < rounds) :
    ReadsOn (loop fs id rounds depth k left e c) c 0 := by
  rcases loop_ends (reader_ends hfs depth k) left c ahead text e hfaces hleft hrounds h with
    ⟨more, _, _, _, _, htakes⟩ | ⟨hsinks, _⟩
  · exact Or.inl ⟨more.length, _, Nat.zero_le _, htakes⟩
  · exact Or.inr hsinks

theorem ReadsOn.of_run {m m' : Matcher} {n least : Nat} (hrun : m.run c = m'.run (c.forward n))
    (h : ReadsOn m' (c.forward n) least) : ReadsOn m c (n + least) := by
  rcases h with ⟨n', v, hn, htakes⟩ | hsinks
  · exact Or.inl ⟨n + n', v, by omega, Matcher.Takes.of_run hrun htakes⟩
  · exact Or.inr (Matcher.Sinks.of_run hrun hsinks)

theorem ReadsOn.mono {m : Matcher} {least least' : Nat} (h : ReadsOn m c least)
    (hle : least' ≤ least) : ReadsOn m c least' := by
  rcases h with ⟨n, v, hn, htakes⟩ | hsinks
  · exact Or.inl ⟨n, v, by omega, htakes⟩
  · exact Or.inr hsinks

theorem Derives.takes_more (hfs : Holds fs id comparisons)
    (h : Derives comparisons depth k text e) : ∀ {rounds : Nat} {c : Cursor} {rest : List Char},
      c.Faces (text ++ rest) → (text ++ rest).length < rounds →
      ReadsOn (reader fs id rounds depth k) c text.length := by
  induction h with
  | @number depth digits blanks hne hdigits hblanks =>
    intro rounds c rest hfaces _
    rw [List.append_assoc] at hfaces
    refine Or.inl ⟨_, _, length_le_takeWhile rest isStart_of_isDigit hdigits hblanks,
      term_takes_number ?_ (takeWhile_ne_nil _ hne hdigits)
        (List.all_eq_true.mp List.all_takeWhile) (head?_dropWhile_eq_false _)⟩
    rwa [List.takeWhile_append_dropWhile]
  | @identifier depth letters blanks hne hletters hblanks =>
    intro rounds c rest hfaces _
    rw [List.append_assoc] at hfaces
    refine Or.inl ⟨_, _, length_le_takeWhile rest isStart_of_isLetter hletters hblanks,
      term_takes_identifier ?_ (takeWhile_ne_nil _ hne hletters)
        (List.all_eq_true.mp List.all_takeWhile) (head?_dropWhile_eq_false _)⟩
    rwa [List.takeWhile_append_dropWhile]
  | @parens depth before inner behind e hbefore hinner hbehind ih =>
    intro rounds c rest hfaces hrounds
    have hopening : c.Faces ('(' :: (before ++ (inner ++ ')' :: (behind ++ rest)))) := by
      simpa using hfaces
    have hlength : (inner ++ ')' :: (behind ++ rest)).length < rounds := by
      simp only [List.length_append, List.length_cons] at hrounds ⊢
      omega
    have htakes := hinner.takes hfs (faces_inner hopening) hlength (follows_close _ _)
    rw [← forward_succ hfs] at htakes
    refine Or.inl ⟨_, _, ?_, term_takes_parenthesized hopening
      (takes_parenthesized hopening hbefore (hinner.head_not_space _) htakes)⟩
    rw [List.takeWhile_append_of_pos hbehind]
    simp only [List.length_append, List.length_cons]
    omega
  | @operand depth k text e hoperand ih =>
    intro rounds c rest hfaces hrounds
    -- the operand that is taken may be longer; the loop starts behind that one
    rcases (ih hfaces hrounds).exists_phrase hfs hfaces hrounds with
      ⟨taken, rest', f, htext, hlength, hphrase, htakes⟩ | hsinks
    · rw [htext] at hfaces hrounds
      have hbehind : rest'.length < rounds := by
        rw [List.length_append] at hrounds
        omega
      exact ((loop_readsOn hfs (Derives.operand hphrase) hfaces.forward hbehind hbehind).of_run
        (run_reader_succ htakes)).mono (by omega)
    · exact Or.inr (Matcher.sinks_chainl hsinks)
  | @joined depth k left sign blanks right op e f hleft hsign hblanks hright ihleft ihright =>
    intro rounds c rest hfaces hrounds
    have htext : left ++ (sign ++ (blanks ++ right)) ++ rest =
        left ++ (sign ++ (blanks ++ (right ++ rest))) := by simp
    rw [htext] at hfaces hrounds
    obtain ⟨m, hm, hrun, hseparator, hbehind⟩ :=
      (hleft.reads hfs).sign hsign hblanks (hright.head_not_space rest) hfaces hrounds
    have hlength : (right ++ rest).length < rounds := by
      simp only [List.length_append] at hrounds ⊢
      omega
    have hwhole : left.length + ((sign ++ blanks).length + right.length) =
        (left ++ (sign ++ (blanks ++ right))).length := by
      simp only [List.length_append]
      omega
    rw [← hwhole]
    -- the sign is reached just as in the phrase, so only the operand behind it may differ
    refine ReadsOn.of_run hrun ?_
    rcases (ihright hbehind hlength).exists_phrase hfs hbehind hlength with
      ⟨taken, rest', f', hahead, hle, hphrase, htakes⟩ | hsinks
    · rw [hahead] at hbehind hlength hm
      have hnext := hbehind.forward
      rw [Cursor.forward_forward] at hnext
      have hleft' := Derives.joined hleft hsign hblanks hphrase
      obtain ⟨d, tail, rfl, _⟩ := hphrase.exists_start
      simp only [List.length_append, List.length_cons] at hm hlength
      exact ((loop_readsOn hfs hleft' hnext (by omega) (by omega)).of_run
        (run_loop_succ hseparator htakes)).mono (by omega)
    · exact Or.inr (Matcher.sinks_chainFrom_of_operand hseparator hsinks)

end Parlance.Grammar
