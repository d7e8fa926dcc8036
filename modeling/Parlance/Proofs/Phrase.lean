import Parlance.Grammar

/-! # Phrases

The language of expressions as a layered context-free grammar, said without any
parser. A phrase of level zero is a number, an identifier or an expression in
parentheses; a phrase of level `k + 1` is a phrase of level `k`, or a phrase of
level `k + 1` joined to one of level `k` by a sign of level `k`, so that a chain of
operands is folded from the left. Each token takes the white space behind it, and
there is none in front of the first. `Derives` carries a bound on the number of
parentheses open at once, which a derivation may stay below. -/
namespace Parlance.Grammar

def isSpace (c : Char) : Bool := CodePoint.isWhitespace c.toNat

/-- The signs that join phrases of a level, with their operators. -/
def signs : Nat → List (List Char × Operator)
  | 0 => [(['*'], .multiply), (['/'], .divide)]
  | 1 => [(['+'], .add), (['-'], .subtract)]
  | 2 => [(['='], .equalTo), (['<', '>'], .notEqualTo)]
  | _ => []

/-- The level of a whole expression: comparisons are the outermost layer, if there
are any. -/
def topLevel (comparisons : Bool) : Nat := if comparisons then 3 else 2

/-- `Derives comparisons depth k text e`: the text is a phrase of level `k` with the
tree `e`, and at no place in it are more than `depth` parentheses open. -/
inductive Derives (comparisons : Bool) : Nat → Nat → List Char → Expression → Prop
  | number {depth : Nat} {digits blanks : List Char} : digits ≠ [] →
      (∀ c ∈ digits, CodePoint.isDigit c.toNat = true) → (∀ c ∈ blanks, isSpace c = true) →
      Derives comparisons depth 0 (digits ++ blanks) (.number (Double.ofDigits digits))
  | identifier {depth : Nat} {letters blanks : List Char} : letters ≠ [] →
      (∀ c ∈ letters, CodePoint.isLetter c.toNat = true) → (∀ c ∈ blanks, isSpace c = true) →
      Derives comparisons depth 0 (letters ++ blanks) (.identifier (String.ofList letters))
  | parens {depth : Nat} {before inner behind : List Char} {e : Expression} :
      (∀ c ∈ before, isSpace c = true) →
      Derives comparisons depth (topLevel comparisons) inner e →
      (∀ c ∈ behind, isSpace c = true) →
      Derives comparisons (depth + 1) 0 ('(' :: (before ++ (inner ++ ')' :: behind))) e
  | operand {depth k : Nat} {text : List Char} {e : Expression} :
      Derives comparisons depth k text e → Derives comparisons depth (k + 1) text e
  | joined {depth k : Nat} {left sign blanks right : List Char} {op : Operator}
      {e f : Expression} :
      Derives comparisons depth (k + 1) left e → (sign, op) ∈ signs k →
      (∀ c ∈ blanks, isSpace c = true) → Derives comparisons depth k right f →
      Derives comparisons depth (k + 1) (left ++ (sign ++ (blanks ++ right))) (.binary op e f)

namespace Derives

variable {comparisons : Bool} {depth k : Nat} {text : List Char} {e : Expression}

/-- More parentheses may be open than are. -/
theorem mono (h : Derives comparisons depth k text e) :
    ∀ {depth' : Nat}, depth ≤ depth' → Derives comparisons depth' k text e := by
  induction h with
  | number hne hdigits hblanks => exact fun _ => number hne hdigits hblanks
  | identifier hne hletters hblanks => exact fun _ => identifier hne hletters hblanks
  | parens hbefore _ hbehind ih =>
    intro depth' hle
    obtain ⟨depth', rfl⟩ : ∃ m, depth' = m + 1 := ⟨depth' - 1, by omega⟩
    exact parens hbefore (ih (by omega)) hbehind
  | operand _ ih => exact fun hle => operand (ih hle)
  | joined _ hsign hblanks _ ihe ihf => exact fun hle => joined (ihe hle) hsign hblanks (ihf hle)

/-- A phrase is a phrase of every level above. -/
theorem lift {j : Nat} (h : Derives comparisons depth k text e) (hle : k ≤ j) :
    Derives comparisons depth j text e := by
  induction hle with
  | refl => exact h
  | step _ ih => exact operand ih

/-- White space may be added behind a phrase: it goes to the last token. -/
theorem append_blanks (h : Derives comparisons depth k text e) {more : List Char}
    (hmore : ∀ c ∈ more, isSpace c = true) : Derives comparisons depth k (text ++ more) e := by
  have hjoin : ∀ {blanks : List Char}, (∀ c ∈ blanks, isSpace c = true) →
      ∀ c ∈ blanks ++ more, isSpace c = true := by
    intro blanks hblanks c hc
    rcases List.mem_append.mp hc with hc | hc
    · exact hblanks c hc
    · exact hmore c hc
  induction h with
  | number hne hdigits hblanks =>
    rw [List.append_assoc]
    exact number hne hdigits (hjoin hblanks)
  | identifier hne hletters hblanks =>
    rw [List.append_assoc]
    exact identifier hne hletters (hjoin hblanks)
  | parens hbefore hinner hbehind _ =>
    simpa using parens hbefore hinner (hjoin hbehind)
  | operand _ ih => exact operand ih
  | joined hleft hsign hblanks _ _ ih =>
    simpa using joined hleft hsign hblanks ih

end Derives

/-! ## First characters -/

def isStart (c : Char) : Bool :=
  CodePoint.isDigit c.toNat || CodePoint.isLetter c.toNat || c = '('

theorem Derives.exists_start {comparisons : Bool} {depth k : Nat} {text : List Char}
    {e : Expression} (h : Derives comparisons depth k text e) :
    ∃ c rest, text = c :: rest ∧ isStart c = true := by
  induction h with
  | @number _ digits _ hne hdigits _ =>
    obtain ⟨c, rest, rfl⟩ := List.exists_cons_of_ne_nil hne
    exact ⟨c, _, rfl, by simp [isStart, hdigits c (by simp)]⟩
  | @identifier _ letters _ hne hletters _ =>
    obtain ⟨c, rest, rfl⟩ := List.exists_cons_of_ne_nil hne
    exact ⟨c, _, rfl, by simp [isStart, hletters c (by simp)]⟩
  | parens _ _ _ _ => exact ⟨'(', _, rfl, by decide⟩
  | operand _ ih => exact ih
  | joined _ _ _ _ ih _ =>
    obtain ⟨c, rest, rfl, hc⟩ := ih
    exact ⟨c, _, rfl, hc⟩

theorem isStart_iff {c : Char} : isStart c = true ↔
    (48 ≤ c.toNat ∧ c.toNat ≤ 57) ∨ ((65 ≤ c.toNat ∧ c.toNat ≤ 90) ∨ 97 ≤ c.toNat ∧ c.toNat ≤ 122) ∨
      c = '(' := by
  simp [isStart, CodePoint.isDigit, CodePoint.isLetter, or_assoc]

theorem isSpace_iff {c : Char} : isSpace c = true ↔
    c.toNat = 9 ∨ c.toNat = 10 ∨ c.toNat = 13 ∨ c.toNat = 32 := by
  rw [isSpace, CodePoint.isWhitespace, Bool.or_eq_true, Bool.or_eq_true, Bool.or_eq_true,
    decide_eq_true_iff, decide_eq_true_iff, decide_eq_true_iff, decide_eq_true_iff]
  simp only [CodePoint.tab, CodePoint.lineFeed, CodePoint.carriageReturn, CodePoint.space, or_assoc]

theorem isSpace_eq_false_of_isStart {c : Char} (h : isStart c = true) : isSpace c = false := by
  rw [Bool.eq_false_iff, ne_eq, isSpace_iff]
  rcases isStart_iff.mp h with hdigit | hletter | rfl
  · omega
  · omega
  · decide

/-- No white space stands in front of a phrase. -/
theorem Derives.head_not_space {comparisons : Bool} {depth k : Nat} {text : List Char}
    {e : Expression} (h : Derives comparisons depth k text e) (rest : List Char) :
    ∀ d, (text ++ rest).head? = some d → isSpace d = false := by
  intro d hd
  obtain ⟨c, tail, rfl, hc⟩ := h.exists_start
  cases hd
  exact isSpace_eq_false_of_isStart hc

/-! ## What follows a phrase

A parser that takes as much as it can stops behind a phrase of level `k` if the
text ends there, or goes on with a closing parenthesis or a sign of level `k` or
above: none of these begins a token of the phrase, and a sign says its level. -/

theorem lt_three_of_mem_signs {k : Nat} {s : List Char × Operator} (hs : s ∈ signs k) : k < 3 := by
  match k with
  | 0 | 1 | 2 => omega
  | k + 3 => simp [signs] at hs

/-- Signs differ in their first characters, which begin no phrase, close no
parenthesis and are no white space. -/
theorem signs_heads : ∀ j < 3, ∀ s ∈ signs j, ∃ c rest, s.1 = c :: rest ∧
    isStart c = false ∧ isSpace c = false ∧ c ≠ ')' ∧
      ∀ k < 3, ∀ s' ∈ signs k, s'.1.head? = some c → j = k ∧ s = s' := by
  intro j hj s hs
  match j, hj with
  | 0, _ | 1, _ | 2, _ =>
    simp only [signs, List.mem_cons, List.not_mem_nil, or_false] at hs
    rcases hs with rfl | rfl <;> exact ⟨_, _, rfl, by decide, by decide, by decide, by decide⟩

/-- What can stand behind a phrase of level `k`. -/
def Follows (k : Nat) (rest : List Char) : Prop :=
  rest = [] ∨ (∃ r, rest = ')' :: r) ∨ ∃ j s r, k ≤ j ∧ s ∈ signs j ∧ rest = s.1 ++ r

theorem follows_nil (k : Nat) : Follows k [] := Or.inl rfl

theorem follows_close (k : Nat) (rest : List Char) : Follows k (')' :: rest) :=
  Or.inr (Or.inl ⟨rest, rfl⟩)

theorem follows_sign {k : Nat} {s : List Char × Operator} (hs : s ∈ signs k) (rest : List Char) :
    Follows k (s.1 ++ rest) :=
  Or.inr (Or.inr ⟨k, s, rest, Nat.le_refl k, hs, rfl⟩)

namespace Follows

variable {k : Nat} {rest : List Char}

theorem of_succ (h : Follows (k + 1) rest) : Follows k rest := by
  rcases h with h | h | ⟨j, s, r, hj, hs, hr⟩
  · exact Or.inl h
  · exact Or.inr (Or.inl h)
  · exact Or.inr (Or.inr ⟨j, s, r, by omega, hs, hr⟩)

theorem head_not (h : Follows k rest) {c : Char} (hc : rest.head? = some c) :
    isStart c = false ∧ isSpace c = false := by
  rcases h with rfl | ⟨r, rfl⟩ | ⟨j, s, r, _, hs, rfl⟩
  · cases hc
  · cases hc
    decide
  · obtain ⟨d, tail, hd, hstart, hspace, _⟩ := signs_heads j (lt_three_of_mem_signs hs) s hs
    rw [hd] at hc
    cases hc
    exact ⟨hstart, hspace⟩

theorem not_sign (h : Follows (k + 1) rest) {s : List Char × Operator} (hs : s ∈ signs k) :
    ¬ s.1 <+: rest := by
  rintro ⟨r', hr'⟩
  obtain ⟨d, tail, hd, _, _, hclose, hunique⟩ := signs_heads k (lt_three_of_mem_signs hs) s hs
  rw [hd] at hr'
  rcases h with rfl | ⟨r, rfl⟩ | ⟨j, s', r, hj, hs', rfl⟩
  · cases hr'
  · exact hclose (List.cons.inj hr').1
  · obtain ⟨d', tail', hd', _⟩ := signs_heads j (lt_three_of_mem_signs hs') s' hs'
    rw [hd'] at hr'
    have hhead : s'.1.head? = some d := by rw [hd', (List.cons.inj hr').1]; rfl
    have heq := (hunique j (lt_three_of_mem_signs hs') s' hs' hhead).1
    omega

end Follows

end Parlance.Grammar
