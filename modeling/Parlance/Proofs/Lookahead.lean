import Parlance.Proofs.Completeness

/-! # Behind the place where a run stops

A phrase that is taken may be followed by anything. Where no sign of a chain begins
what follows, and no token goes on with it, the run stops behind the phrase without
another look (`Derives.takes_apart`). Where a sign begins it, the run goes on behind
the sign and looks for one more operand, and what comes of that decides how it ends
(`Derives.dangling`). Both are inductions on the level: up to its last operand a chain
is read as in the phrase, and behind it the level below decides
(`Derives.exists_last`). -/
namespace Parlance.Grammar

variable {fs : Forwards} {id rounds depth k : Nat} {comparisons : Bool} {c : Cursor}
  {text rest : List Char} {e : Expression}

/-! ## The last operand of a chain -/

/-- A chain ends with an operand. If the parser of operands sinks there, so does the
chain, and if it takes a phrase there, the chain is in its loop behind that phrase. -/
theorem Derives.exists_last (hfs : Holds fs id comparisons)
    (h : Derives comparisons depth (k + 1) text e) : ∃ front last f, text = front ++ last ∧
      Derives comparisons depth k last f ∧ ∀ {rounds : Nat} {c : Cursor} {rest : List Char},
        c.Faces (front ++ (last ++ rest)) → (front ++ (last ++ rest)).length < rounds →
        ((reader fs id rounds depth k).Sinks (c.forward front.length) →
          (reader fs id rounds depth (k + 1)).Sinks c) ∧
        ∀ taken ahead g, last ++ rest = taken ++ ahead → Derives comparisons depth k taken g →
          (reader fs id rounds depth k).Takes (c.forward front.length) taken.length
            (.expression g) →
          ∃ left e', ahead.length < left ∧ Derives comparisons depth (k + 1) (front ++ taken) e' ∧
            (reader fs id rounds depth (k + 1)).run c =
              (loop fs id rounds depth k left e' (c.forward (front ++ taken).length)).run
                (c.forward (front ++ taken).length) := by
  cases h with
  | operand hoperand =>
    refine ⟨[], text, e, rfl, hoperand, fun {rounds c rest} hfaces hrounds => ?_⟩
    rw [List.length_nil, Cursor.forward_zero]
    refine ⟨Matcher.sinks_chainl, fun taken ahead g htext hphrase htakes => ?_⟩
    refine ⟨rounds, g, ?_, Derives.operand hphrase, run_reader_succ htakes⟩
    rw [htext] at hrounds
    simp only [List.nil_append, List.length_append] at hrounds
    omega
  | @joined _ _ left sign blanks right op e f hleft hsign hblanks hright =>
    refine ⟨left ++ (sign ++ blanks), right, f, by simp, hright, fun {rounds c rest} hfaces hrounds => ?_⟩
    have htext : left ++ (sign ++ blanks) ++ (right ++ rest) =
        left ++ (sign ++ (blanks ++ (right ++ rest))) := by simp
    rw [htext] at hfaces hrounds
    obtain ⟨m, hm, hrun, hseparator, hbehind⟩ :=
      (hleft.reads hfs).sign hsign hblanks (hright.head_not_space rest) hfaces hrounds
    have hplace : c.forward (left ++ (sign ++ blanks)).length =
        (c.forward left.length).forward (sign ++ blanks).length := by
      rw [Cursor.forward_forward, List.length_append]
    rw [hplace]
    refine ⟨fun hsinks => Matcher.Sinks.of_run hrun
      (Matcher.sinks_chainFrom_of_operand hseparator hsinks), fun taken ahead g hahead hphrase htakes => ?_⟩
    refine ⟨m, .binary op e g, ?_, ?_, ?_⟩
    · obtain ⟨d, tail, rfl, _⟩ := hphrase.exists_start
      rw [hahead] at hm
      simp only [List.length_append, List.length_cons] at hm
      omega
    · simpa using Derives.joined hleft hsign hblanks hphrase
    · rw [hrun, run_loop_succ hseparator htakes, Cursor.forward_forward]
      simp only [List.length_append, Nat.add_assoc]

/-! ## Nothing that goes on -/

def wordClasses : List (Nat → Bool) := [CodePoint.isDigit, CodePoint.isLetter]

/-- No token goes on from the one text to the other: what follows begins with no white
space, and with no character of the class that the last one is of. -/
def Apart (text rest : List Char) : Prop :=
  ∀ c d, text.getLast? = some c → rest.head? = some d →
    isSpace d = false ∧ ∀ holds ∈ wordClasses, holds c.toNat = true → holds d.toNat = false

theorem isStart_of_wordClasses {holds : Nat → Bool} (hclass : holds ∈ wordClasses) (d : Char)
    (hd : holds d.toNat = true) : isStart d = true := by
  simp only [wordClasses, List.mem_cons, List.not_mem_nil, or_false] at hclass
  rcases hclass with rfl | rfl
  · exact isStart_of_isDigit d hd
  · exact isStart_of_isLetter d hd

namespace Apart

variable {word blanks : List Char} {holds : Nat → Bool}

theorem head_not_space (h : Apart text rest) (hne : text ≠ []) :
    ∀ d, rest.head? = some d → isSpace d = false :=
  fun d hd => (h _ d (List.getLast?_eq_some_getLast hne) hd).1

theorem of_append {front last : List Char} (h : Apart (front ++ last) rest) : Apart last rest := by
  intro c d hc hd
  apply h c d _ hd
  rw [List.getLast?_append, hc]
  rfl

theorem word_stops (h : Apart (word ++ blanks) rest) (hclass : holds ∈ wordClasses)
    (hne : word ≠ []) (hword : ∀ d ∈ word, holds d.toNat = true)
    (hblanks : ∀ d ∈ blanks, isSpace d = true) :
    ∀ d, (blanks ++ rest).head? = some d → holds d.toNat = false := by
  intro d hd
  cases blanks with
  | nil =>
    rw [List.append_nil] at h
    have hlast := hword _ (List.getLast_mem hne)
    exact (h _ d (List.getLast?_eq_some_getLast hne) hd).2 holds hclass hlast
  | cons b blanks =>
    cases hd
    exact holds_eq_false_of_isSpace (isStart_of_wordClasses hclass) (hblanks d (by simp))

end Apart

theorem Derives.ne_nil (h : Derives comparisons depth k text e) : text ≠ [] := by
  obtain ⟨d, tail, rfl, _⟩ := h.exists_start
  exact List.cons_ne_nil d tail

theorem Derives.takes_apart (hfs : Holds fs id comparisons)
    (h : Derives comparisons depth k text e) (hapart : Apart text rest)
    (hsigns : ∀ j < k, ∀ s ∈ signs j, ¬ s.1 <+: rest) (hfaces : c.Faces (text ++ rest))
    (hrounds : (text ++ rest).length < rounds) :
    ∃ f, Derives comparisons depth k text f ∧
      (reader fs id rounds depth k).Takes c text.length (.expression f) := by
  induction k generalizing text e c with
  | zero =>
    refine ⟨e, h, ?_⟩
    have hspace := hapart.head_not_space h.ne_nil
    cases h with
    | @number _ digits blanks hne hdigits hblanks =>
      rw [List.append_assoc] at hfaces
      rw [← takeWhile_append_of_stop hblanks hspace]
      exact term_takes_number hfaces hne hdigits
        (hapart.word_stops (by simp [wordClasses]) hne hdigits hblanks)
    | @identifier _ letters blanks hne hletters hblanks =>
      rw [List.append_assoc] at hfaces
      rw [← takeWhile_append_of_stop hblanks hspace]
      exact term_takes_identifier hfaces hne hletters
        (hapart.word_stops (by simp [wordClasses]) hne hletters hblanks)
    | @parens _ before inner behind _ hbefore hinner hbehind =>
      have hopening : c.Faces ('(' :: (before ++ (inner ++ ')' :: (behind ++ rest)))) := by
        simpa using hfaces
      have hlength : (inner ++ ')' :: (behind ++ rest)).length < rounds := by
        simp only [List.length_append, List.length_cons] at hrounds ⊢
        omega
      have htakes := hinner.takes hfs (faces_inner hopening) hlength (follows_close _ _)
      rw [← forward_succ hfs] at htakes
      rw [← takeWhile_append_of_stop hbehind hspace]
      exact term_takes_parenthesized hopening
        (takes_parenthesized hopening hbefore (hinner.head_not_space _) htakes)
  | succ k ih =>
    obtain ⟨front, last, f, rfl, hlast, hchain⟩ := h.exists_last hfs
    rw [List.append_assoc] at hfaces hrounds
    have hlength : (last ++ rest).length < rounds := by
      rw [List.length_append] at hrounds
      omega
    obtain ⟨g, hphrase, htakes⟩ := ih hlast hapart.of_append
      (fun j hj => hsigns j (by omega)) hfaces.forward hlength
    obtain ⟨left, e', hleft, hderives, hrun⟩ :=
      (hchain hfaces hrounds).2 last rest g rfl hphrase htakes
    obtain ⟨left, rfl⟩ : ∃ m, left = m + 1 := ⟨left - 1, by omega⟩
    -- behind the operand stands no sign of the chain
    have hbehind : (c.forward (front ++ last).length).Faces rest := by
      rw [← List.append_assoc] at hfaces
      exact hfaces.forward
    have hjoiner : ((joiner k).matcher rounds (fs.call rounds depth)).Refuses
        (c.forward (front ++ last).length) :=
      refuses_joiner hbehind fun s hs => hsigns k (Nat.lt_succ_self k) s hs
    exact ⟨e', hderives, Matcher.Takes.of_run hrun (Matcher.takes_chainFrom_of_separator hjoiner)⟩

/-- A character of a word that is the last of all is the last of the word. -/
theorem mem_word_of_getLast? {holds : Nat → Bool} (hclass : holds ∈ wordClasses) {a : Char}
    (ha : holds a.toNat = true) {word blanks : List Char}
    (hblanks : ∀ b ∈ blanks, isSpace b = true) (hlast : (word ++ blanks).getLast? = some a) :
    blanks = [] ∧ a ∈ word := by
  have hspace := isSpace_eq_false_of_isStart (isStart_of_wordClasses hclass a ha)
  cases blanks with
  | nil =>
    rw [List.append_nil] at hlast
    exact ⟨rfl, List.mem_of_getLast? hlast⟩
  | cons b blanks =>
    have hne := List.cons_ne_nil b blanks
    rw [List.getLast?_append, List.getLast?_eq_some_getLast hne, Option.some_or] at hlast
    cases hlast
    rw [hblanks _ (List.getLast_mem hne)] at hspace
    cases hspace

/-- A word at the end of a phrase may be made longer. -/
theorem Derives.append_word {holds : Nat → Bool} (hclass : holds ∈ wordClasses) {a d : Char}
    (ha : holds a.toNat = true) (hd : holds d.toNat = true)
    (h : Derives comparisons depth k text e) (hlast : text.getLast? = some a) :
    ∃ f, Derives comparisons depth k (text ++ [d]) f := by
  have hboth : ∀ b : Char, CodePoint.isDigit b.toNat = true → CodePoint.isLetter b.toNat = true →
      False := by
    intro b hdigit hletter
    rw [isDigit_eq_false_of_isLetter hletter] at hdigit
    cases hdigit
  have hkinds : holds = CodePoint.isDigit ∨ holds = CodePoint.isLetter := by
    simpa [wordClasses] using hclass
  induction h with
  | @number depth digits blanks hne hdigits hblanks =>
    obtain ⟨rfl, hmem⟩ := mem_word_of_getLast? hclass ha hblanks hlast
    rcases hkinds with rfl | rfl
    · have hlonger : ∀ b ∈ digits ++ [d], CodePoint.isDigit b.toNat = true :=
        List.forall_mem_append.mpr ⟨hdigits, List.forall_mem_singleton.mpr hd⟩
      have hnumber : Derives comparisons depth 0 ((digits ++ [d]) ++ []) _ :=
        Derives.number (by simp) hlonger hblanks
      rw [List.append_nil] at hnumber ⊢
      exact ⟨_, hnumber⟩
    · exact (hboth a (hdigits a hmem) ha).elim
  | @identifier depth letters blanks hne hletters hblanks =>
    obtain ⟨rfl, hmem⟩ := mem_word_of_getLast? hclass ha hblanks hlast
    rcases hkinds with rfl | rfl
    · exact (hboth a ha (hletters a hmem)).elim
    · have hlonger : ∀ b ∈ letters ++ [d], CodePoint.isLetter b.toNat = true :=
        List.forall_mem_append.mpr ⟨hletters, List.forall_mem_singleton.mpr hd⟩
      have hidentifier : Derives comparisons depth 0 ((letters ++ [d]) ++ []) _ :=
        Derives.identifier (by simp) hlonger hblanks
      rw [List.append_nil] at hidentifier ⊢
      exact ⟨_, hidentifier⟩
  | @parens depth before inner behind f hbefore _ hbehind _ =>
    have hsplit : '(' :: (before ++ (inner ++ ')' :: behind)) =
        ('(' :: (before ++ (inner ++ [')']))) ++ behind := by simp
    rw [hsplit] at hlast
    obtain ⟨rfl, _⟩ := mem_word_of_getLast? hclass ha hbehind hlast
    have hclosing : ')' = a := by simpa [List.getLast?_cons] using hlast
    subst hclosing
    rcases hkinds with rfl | rfl <;> cases ha
  | operand _ ih =>
    obtain ⟨f, hf⟩ := ih hlast
    exact ⟨f, Derives.operand hf⟩
  | @joined depth k left sign blanks right op e f hleft hsign hblanks hright _ ih =>
    rw [List.getLast?_append, List.getLast?_append, List.getLast?_append,
      List.getLast?_eq_some_getLast hright.ne_nil, Option.some_or, Option.some_or, Option.some_or,
      ← List.getLast?_eq_some_getLast hright.ne_nil] at hlast
    obtain ⟨g, hg⟩ := ih hlast
    exact ⟨_, by simpa using Derives.joined hleft hsign hblanks hg⟩

/-- A run that takes just a phrase leaves nothing that a token could go on with. -/
theorem Derives.apart_of_takes (hfs : Holds fs id comparisons)
    (h : Derives comparisons depth k text e) (hfaces : c.Faces (text ++ rest))
    (hrounds : (text ++ rest).length < rounds) {v : Value}
    (htakes : (reader fs id rounds depth k).Takes c text.length v) : Apart text rest := by
  intro a d ha hd
  obtain ⟨tail, rfl⟩ : ∃ tail, rest = d :: tail := List.head?_eq_some_iff.mp hd
  have hlonger : ∀ f, ¬ Derives comparisons depth k (text ++ [d]) f := by
    intro f hf
    have hsplit : text ++ d :: tail = text ++ [d] ++ tail := by simp
    rw [hsplit] at hfaces hrounds
    rcases hf.takes_more hfs hfaces hrounds with ⟨n, w, hn, htakes'⟩ | hsinks
    · rw [(htakes'.unique htakes).1, List.length_append, List.length_singleton] at hn
      omega
    · exact htakes.not_sinks hsinks
  refine ⟨?_, fun holds hclass hlast => ?_⟩
  · rw [← Bool.not_eq_true]
    exact fun hspace => hlonger e (h.append_blanks (by simpa using hspace))
  · rw [← Bool.not_eq_true]
    intro hholds
    obtain ⟨f, hf⟩ := h.append_word hclass hlast hholds ha
    exact hlonger f hf

/-! ## A sign that dangles -/

/-- Where nothing begins a phrase, every level refuses, whatever the depth. -/
theorem reader_refuses (hfaces : c.Faces rest)
    (hstart : ∀ d, rest.head? = some d → isStart d = false) (k : Nat) :
    (reader fs id rounds depth k).Refuses c := by
  induction k with
  | zero => exact term_refuses hfaces hstart
  | succ k ih => exact Matcher.refuses_chainl ih

/-- Where a word begins, every level finds a phrase, whatever the depth. -/
theorem reader_readsOn_word (hfs : Holds fs id comparisons) {holds : Nat → Bool}
    (hclass : holds ∈ wordClasses) {d : Char} {tail : List Char} (hd : holds d.toNat = true)
    (hfaces : c.Faces (d :: tail)) (hrounds : (d :: tail).length < rounds) (k : Nat) :
    ReadsOn (reader fs id rounds depth k) c 0 := by
  obtain ⟨word, blanks, rest, htext, hne, hword, hblanks, _⟩ := exists_word hd
  rw [htext, ← List.append_assoc] at hfaces hrounds
  have hphrase : ∃ e, Derives comparisons depth 0 (word ++ blanks) e := by
    simp only [wordClasses, List.mem_cons, List.not_mem_nil, or_false] at hclass
    rcases hclass with rfl | rfl
    · exact ⟨_, Derives.number hne hword hblanks⟩
    · exact ⟨_, Derives.identifier hne hword hblanks⟩
  obtain ⟨e, he⟩ := hphrase
  exact ((he.lift (Nat.zero_le k)).takes_more hfs hfaces hrounds).mono (Nat.zero_le _)

/-- Texts that begin with signs of two levels differ. -/
theorem level_eq_of_sign {j : Nat} {s s' : List Char × Operator} (hs : s ∈ signs k)
    (hs' : s' ∈ signs j) (h : s'.1 <+: s.1 ++ rest) : k = j := by
  obtain ⟨d, tail, hd, _, _, _, hunique⟩ := signs_heads k (lt_three_of_mem_signs hs) s hs
  obtain ⟨d', tail', hd', _⟩ := signs_heads j (lt_three_of_mem_signs hs') s' hs'
  rw [hd, hd', List.cons_append, List.cons_prefix_cons] at h
  have hhead : s'.1.head? = some d := by rw [hd', h.1]; rfl
  exact (hunique j (lt_three_of_mem_signs hs') s' hs' hhead).1

theorem exists_phrase_of_takes (hfs : Holds fs id comparisons) {n : Nat} {v : Value}
    (htakes : (reader fs id rounds depth k).Takes c n v) {ahead : List Char}
    (hfaces : c.Faces ahead) (hrounds : ahead.length < rounds) :
    ∃ taken rest f, ahead = taken ++ rest ∧ taken.length = n ∧ v = .expression f ∧
      Derives comparisons depth k taken f := by
  have hreads : ReadsOn (reader fs id rounds depth k) c n := Or.inl ⟨n, v, Nat.le_refl n, htakes⟩
  rcases hreads.exists_phrase hfs hfaces hrounds with
    ⟨taken, rest, f, htext, _, hderives, htaken⟩ | hsinks
  · obtain ⟨rfl, rfl⟩ := htakes.unique htaken
    exact ⟨taken, rest, f, htext, rfl, rfl, hderives⟩
  · exact absurd hsinks htakes.not_sinks

/-- How a run ends on a phrase and a sign behind it, by what comes of the look for an
operand behind the sign. -/
structure Dangles (m operand : Matcher) (c : Cursor) (length place : Nat) : Prop where
  refused : operand.Refuses (c.forward place) → ∃ v, m.Takes c length v
  sunk : operand.Sinks (c.forward place) → m.Sinks c
  taken : ∀ n v, operand.Takes (c.forward place) n v → ReadsOn m c (length + 1)

/-- The sign is one of the chain itself. -/
theorem Derives.dangling_here (hfs : Holds fs id comparisons)
    (h : Derives comparisons depth (k + 1) text e) {s : List Char × Operator} (hs : s ∈ signs k)
    {blanks operand : List Char} (hblanks : ∀ d ∈ blanks, isSpace d = true)
    (hstop : ∀ d, operand.head? = some d → isSpace d = false)
    (hfaces : c.Faces (text ++ (s.1 ++ (blanks ++ operand))))
    (hrounds : (text ++ (s.1 ++ (blanks ++ operand))).length < rounds) :
    Dangles (reader fs id rounds depth (k + 1)) (reader fs id rounds depth k) c text.length
      (text.length + (s.1 ++ blanks).length) := by
  obtain ⟨left, hleft, hrun, hseparator, hbehind⟩ :=
    (h.reads hfs).sign hs hblanks hstop hfaces hrounds
  have hlength : operand.length < rounds := by
    simp only [List.length_append] at hrounds
    omega
  refine ⟨fun hrefuses => ?_, fun hsinks => ?_, fun n v htakes => ?_⟩
  · rw [← Cursor.forward_forward] at hrefuses
    exact ⟨_, Matcher.Takes.of_run hrun (Matcher.takes_chainFrom_of_operand hseparator hrefuses)⟩
  · rw [← Cursor.forward_forward] at hsinks
    exact Matcher.Sinks.of_run hrun (Matcher.sinks_chainFrom_of_operand hseparator hsinks)
  · rw [← Cursor.forward_forward] at htakes
    obtain ⟨taken, rest, f, rfl, rfl, rfl, hphrase⟩ :=
      exists_phrase_of_takes hfs htakes hbehind hlength
    have hnext := hbehind.forward
    rw [Cursor.forward_forward] at hnext
    have hmore : rest.length < left ∧ rest.length < rounds := by
      obtain ⟨d, tail, rfl, _⟩ := hphrase.exists_start
      simp only [List.length_append, List.length_cons] at hleft hlength
      omega
    -- the chain is longer by the sign at least
    obtain ⟨d, tail, hd, _⟩ := signs_heads k (lt_three_of_mem_signs hs) s hs
    have hloop := loop_readsOn hfs (Derives.joined h hs hblanks hphrase) hnext hmore.1 hmore.2
    refine ((hloop.of_run (run_loop_succ hseparator htakes)).of_run hrun).mono ?_
    rw [hd, List.cons_append, List.length_cons]
    omega

/-- The sign is one of the chain or of a layer below; there it dangles from the last
operand. -/
theorem Derives.dangling (hfs : Holds fs id comparisons) {outer : Nat}
    (h : Derives comparisons depth outer text e) (hk : k < outer) {s : List Char × Operator}
    (hs : s ∈ signs k) {blanks operand : List Char} (hblanks : ∀ d ∈ blanks, isSpace d = true)
    (hstop : ∀ d, operand.head? = some d → isSpace d = false)
    (hfaces : c.Faces (text ++ (s.1 ++ (blanks ++ operand))))
    (hrounds : (text ++ (s.1 ++ (blanks ++ operand))).length < rounds) :
    Dangles (reader fs id rounds depth outer) (reader fs id rounds depth k) c text.length
      (text.length + (s.1 ++ blanks).length) := by
  induction outer generalizing text e c with
  | zero => omega
  | succ outer ih =>
    obtain ⟨front, last, f, rfl, hlast, hchain⟩ := h.exists_last hfs
    rw [List.append_assoc] at hfaces hrounds
    obtain ⟨hsinks, hloop⟩ := hchain hfaces hrounds
    have hlength : (last ++ (s.1 ++ (blanks ++ operand))).length < rounds := by
      rw [List.length_append] at hrounds
      omega
    have hplace : c.forward ((front ++ last).length + (s.1 ++ blanks).length) =
        (c.forward front.length).forward (last.length + (s.1 ++ blanks).length) := by
      rw [Cursor.forward_forward, List.length_append, Nat.add_assoc]
    -- a longer operand leaves the chain in its loop, which takes no step back
    have hreadsOn : ∀ least, ReadsOn (reader fs id rounds depth outer) (c.forward front.length) least →
        ReadsOn (reader fs id rounds depth (outer + 1)) c (front.length + least) := by
      intro least hreads
      rcases hreads.exists_phrase hfs hfaces.forward hlength with
        ⟨taken, ahead, g, htext, hle, hphrase, htakes⟩ | hsunk
      · obtain ⟨left, e', hleft, hderives, hrun⟩ := hloop taken ahead g htext hphrase htakes
        rw [htext, ← List.append_assoc] at hfaces hrounds
        have hbehind : ahead.length < rounds := by
          rw [List.length_append] at hrounds
          omega
        refine ((loop_readsOn hfs hderives hfaces.forward hleft hbehind).of_run hrun).mono ?_
        rw [List.length_append]
        omega
      · exact Or.inr (hsinks hsunk)
    have hend : (c.forward (front ++ last).length).Faces (s.1 ++ (blanks ++ operand)) := by
      rw [← List.append_assoc] at hfaces
      exact hfaces.forward
    by_cases houter : k = outer
    · subst houter
      rw [← List.append_assoc] at hfaces hrounds
      exact h.dangling_here hfs hs hblanks hstop hfaces hrounds
    · have hdangles := ih hlast (by omega) hfaces.forward hlength
      refine ⟨fun hrefuses => ?_, fun hsunk => ?_, fun n v htakes => ?_⟩
      · rw [hplace] at hrefuses
        obtain ⟨v, htakes⟩ := hdangles.refused hrefuses
        obtain ⟨taken, ahead, g, htext, hcount, rfl, hphrase⟩ :=
          exists_phrase_of_takes hfs htakes hfaces.forward hlength
        obtain ⟨rfl, rfl⟩ := List.append_inj htext hcount.symm
        obtain ⟨left, e', hleft, _, hrun⟩ := hloop last _ g rfl hphrase htakes
        obtain ⟨left, rfl⟩ : ∃ m, left = m + 1 := ⟨left - 1, by omega⟩
        have hjoiner : ((joiner outer).matcher rounds (fs.call rounds depth)).Refuses
            (c.forward (front ++ last).length) :=
          refuses_joiner hend fun s' hs' hprefix => houter (level_eq_of_sign hs hs' hprefix)
        exact ⟨_, Matcher.Takes.of_run hrun (Matcher.takes_chainFrom_of_separator hjoiner)⟩
      · rw [hplace] at hsunk
        exact hsinks (hdangles.sunk hsunk)
      · rw [hplace] at htakes
        have hreads := hreadsOn _ (hdangles.taken n v htakes)
        rwa [← Nat.add_assoc, ← List.length_append] at hreads

end Parlance.Grammar
