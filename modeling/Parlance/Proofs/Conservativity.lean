import Parlance.Proofs.NestingLimit
import Parlance.Proofs.LongestPrefix
import Parlance.Proofs.RoundTrip

/-! # Comparisons extend the language conservatively

The grammar with comparisons has one more level on top, and its parentheses hold
expressions of that level, so the two grammars differ at every depth. They agree all
the same on trees without comparisons: a phrase of the smaller grammar is one of the
larger, and a phrase of the larger whose tree compares nothing is one of the smaller.
What the runs do follows from that. With enough depth either parser stops behind the
longest prefix that derives a tree, and of these prefixes the larger grammar has all
that the smaller has, and no others unless a sign of comparison is in the text. -/
namespace Parlance.Grammar

variable {comparisons : Bool} {depth k : Nat} {text : String} {e : Expression}

/-! ## Phrases of the two grammars -/

theorem Derives.withComparisons {cs : List Char} (h : Derives false depth k cs e) :
    Derives true depth k cs e := by
  induction h with
  | number hne hdigits hblanks => exact number hne hdigits hblanks
  | identifier hne hletters hblanks => exact identifier hne hletters hblanks
  | parens hbefore _ hbehind ih => exact parens hbefore (ih.lift (Nat.le_succ 2)) hbehind
  | operand _ ih => exact operand ih
  | joined _ hsign hblanks _ ihleft ihright => exact joined ihleft hsign hblanks ihright

/-- The signs of comparisons are those of the third level. -/
theorem isComparison_iff_of_mem_signs {s : List Char × Operator} (hs : s ∈ signs k) :
    s.2.isComparison = true ↔ k = 2 := by
  match k with
  | 0 | 1 | 2 =>
    simp only [signs, List.mem_cons, List.not_mem_nil, or_false] at hs
    rcases hs with rfl | rfl <;> decide
  | k + 3 => simp [signs] at hs

theorem Derives.withoutComparisons {cs : List Char} (h : Derives true depth k cs e)
    (hnone : e.hasComparison = false) : Derives false depth (min k 2) cs e := by
  induction h with
  | number hne hdigits hblanks => exact number hne hdigits hblanks
  | identifier hne hletters hblanks => exact identifier hne hletters hblanks
  | parens hbefore _ hbehind ih => exact parens hbefore (ih hnone) hbehind
  | operand _ ih => exact (ih hnone).lift (by omega)
  | @joined _ k _ _ _ _ op _ _ _ hsign hblanks _ ihleft ihright =>
    simp only [Expression.hasComparison, Bool.or_eq_false_iff] at hnone
    obtain ⟨⟨hop, hleft⟩, hright⟩ := hnone
    -- a sign that compares nothing stands below the third level, where both grammars agree
    have hlevel : k < 2 := by
      have hother : k ≠ 2 := fun hk => by
        rw [(isComparison_iff_of_mem_signs hsign).mpr hk] at hop
        cases hop
      have hthree := lt_three_of_mem_signs hsign
      omega
    have hleft' := ihleft hleft
    have hright' := ihright hright
    rw [Nat.min_eq_left (by omega)] at hleft' hright' ⊢
    exact joined hleft' hsign hblanks hright'

/-- A tree that compares something is written with a sign of comparison. -/
theorem Derives.hasComparison_of_no_sign {cs : List Char} (h : Derives comparisons depth k cs e)
    (hnone : ∀ s ∈ signs 2, ¬ s.1 <:+: cs) : e.hasComparison = false := by
  induction h with
  | number _ _ _ => rfl
  | identifier _ _ _ => rfl
  | @parens _ before inner behind _ _ _ _ ih =>
    refine ih fun s hs hwithin => hnone s hs (hwithin.trans ?_)
    exact ⟨'(' :: before, ')' :: behind, by simp⟩
  | operand _ ih => exact ih hnone
  | @joined _ k left sign blanks right op _ _ _ hsign _ _ ihleft ihright =>
    have hleft : left <:+: left ++ (sign ++ (blanks ++ right)) :=
      (List.prefix_append _ _).isInfix
    have hright : right <:+: left ++ (sign ++ (blanks ++ right)) :=
      ⟨left ++ (sign ++ blanks), [], by simp⟩
    have hop : op.isComparison = false := by
      rw [← Bool.not_eq_true]
      intro hcompares
      obtain rfl := (isComparison_iff_of_mem_signs hsign).mp hcompares
      exact hnone (sign, op) hsign ⟨left, blanks ++ right, by simp⟩
    rw [Expression.hasComparison, hop, ihleft fun s hs hwithin => hnone s hs (hwithin.trans hleft),
      ihright fun s hs hwithin => hnone s hs (hwithin.trans hright)]
    rfl

theorem derives_basic_iff {cs : List Char} :
    Derives false depth (topLevel false) cs e ↔
      Derives true depth (topLevel true) cs e ∧ e.hasComparison = false := by
  constructor
  · intro h
    exact ⟨h.withComparisons.lift (Nat.le_succ 2), h.hasComparison_eq_false (Nat.le_refl 2)⟩
  · rintro ⟨h, hnone⟩
    exact h.withoutComparisons hnone

/-! ## Runs below the limit -/

/-- A run that does not hit the limit is the run with any greater depth. -/
theorem exit_of_not_hitsLimit (h : ¬ HitsLimit comparisons text)
    (hdepth : nestingLimit comparisons ≤ depth) (requireEnd : Bool) :
    (attempt depth text ⟨comparisons, requireEnd⟩).exit =
      .ok (parse text ⟨comparisons, requireEnd⟩) := by
  obtain ⟨reply, hfree⟩ := exists_free_reply text ⟨comparisons, requireEnd⟩
  have hpeak : nestingPeak text ⟨comparisons, requireEnd⟩ ≤ nestingLimit comparisons :=
    nestingPeak_le_iff.mpr fun hsinks => h (exit_of_sinks hsinks)
  have hlimited := exit_attempt hfree (nestingLimit comparisons)
  rw [if_pos hpeak] at hlimited
  rw [exit_attempt hfree depth, if_pos (Nat.le_trans hpeak hdepth), parse_of_exit hlimited]

theorem tree_iff_derives_of_not_hitsLimit (h : ¬ HitsLimit comparisons text)
    (hdepth : nestingLimit comparisons ≤ depth) (e : Expression) :
    tree? (parse text ⟨comparisons, true⟩) = some e ↔
      Derives comparisons depth (topLevel comparisons) text.toList e := by
  have hexit := exit_of_not_hitsLimit h hdepth true
  constructor
  · intro htree
    rcases attempt_complete_cases comparisons depth text with ⟨f, hderives, hf⟩ | hf | hf
    · rw [hf] at hexit
      rw [← Except.ok.inj hexit] at htree
      cases htree
      exact hderives
    · rw [hf] at hexit
      rw [← Except.ok.inj hexit] at htree
      cases htree
    · rw [hf] at hexit
      cases hexit
  · intro hderives
    rw [exit_of_takes_whole (textReader_takes hderives)] at hexit
    rw [← Except.ok.inj hexit]
    rfl

/-- The partial parse stops behind the longest prefix that derives a tree, or fails
because there is none. -/
inductive StopsBehindLongest (comparisons : Bool) (depth : Nat) (text : String) : Prop
  | stops (taken : List Char) (e : Expression) : taken <+: text.toList →
      Derives comparisons depth (topLevel comparisons) taken e →
      parse text ⟨comparisons, false⟩ = ⟨true, .expression e, taken.length⟩ →
      (∀ part f, part <+: text.toList →
        Derives comparisons depth (topLevel comparisons) part f → part.length ≤ taken.length) →
      StopsBehindLongest comparisons depth text
  | fails : parse text ⟨comparisons, false⟩ = rejected →
      (∀ part f, part <+: text.toList →
        ¬ Derives comparisons depth (topLevel comparisons) part f) →
      StopsBehindLongest comparisons depth text

theorem Derives.textReader_readsOn {part : List Char}
    (h : Derives comparisons depth (topLevel comparisons) part e) (hpart : part <+: text.toList) :
    ReadsOn (textReader comparisons depth text) (.ofText text) part.length := by
  obtain ⟨rest, hrest⟩ := hpart
  have hfaces := Cursor.faces_ofText text
  have hrounds := length_lt_rounds text
  rw [← hrest] at hfaces hrounds
  exact h.takes_more (builtin_holds comparisons) hfaces hrounds

theorem stopsBehindLongest_of_not_hitsLimit (h : ¬ HitsLimit comparisons text)
    (hdepth : nestingLimit comparisons ≤ depth) : StopsBehindLongest comparisons depth text := by
  have hexit := exit_of_not_hitsLimit h hdepth false
  cases textReader_ends comparisons depth text with
  | @takes taken rest e htext hderives htakes =>
    rw [exit_partial_of_takes htakes] at hexit
    refine .stops taken e ⟨rest, htext.symm⟩ hderives (Except.ok.inj hexit).symm ?_
    intro part f hpart hf
    rcases hf.textReader_readsOn hpart with ⟨n, v, hn, htakes'⟩ | hsinks
    · rwa [(htakes'.unique htakes).1] at hn
    · exact absurd hsinks htakes.not_sinks
  | refuses hrefuses =>
    rw [exit_of_refuses hrefuses] at hexit
    refine .fails (Except.ok.inj hexit).symm ?_
    intro part f hpart hf
    rcases hf.textReader_readsOn hpart with ⟨n, v, _, htakes⟩ | hsinks
    · exact htakes.not_refuses hrefuses
    · exact hrefuses.not_sinks hsinks
  | sinks hsinks _ =>
    rw [exit_of_sinks hsinks] at hexit
    cases hexit

/-! ## The two grammars on one text -/

/-- A depth that is enough for both grammars where neither hits its limit. -/
def commonDepth : Nat := max (nestingLimit true) (nestingLimit false)

theorem nestingLimit_le_commonDepth (comparisons : Bool) :
    nestingLimit comparisons ≤ commonDepth := by
  cases comparisons
  · exact Nat.le_max_right _ _
  · exact Nat.le_max_left _ _

/-- With no sign of comparison in the text, the prefixes that derive a tree are the same
for both grammars. -/
theorem derives_prefix_iff {part : List Char} (hpart : part <+: text.toList)
    (hnone : ∀ s ∈ signs 2, ¬ s.1 <:+: text.toList) :
    Derives true depth (topLevel true) part e ↔ Derives false depth (topLevel false) part e := by
  rw [derives_basic_iff]
  constructor
  · intro h
    exact ⟨h, h.hasComparison_of_no_sign fun s hs hwithin =>
      hnone s hs (hwithin.trans hpart.isInfix)⟩
  · exact fun h => h.1

theorem parse_partial_eq_of_no_sign (htrue : ¬ HitsLimit true text)
    (hfalse : ¬ HitsLimit false text) (hnone : ∀ s ∈ signs 2, ¬ s.1 <:+: text.toList) :
    parse text ⟨false, false⟩ = parse text ⟨true, false⟩ := by
  have hbasic := stopsBehindLongest_of_not_hitsLimit hfalse (nestingLimit_le_commonDepth false)
  have hlarger := stopsBehindLongest_of_not_hitsLimit htrue (nestingLimit_le_commonDepth true)
  cases hbasic with
  | stops taken e htaken hderives hparse hlongest =>
    have hderives' := (derives_prefix_iff htaken hnone).mpr hderives
    cases hlarger with
    | stops taken' e' htaken' hderivesTrue hparse' hlongest' =>
      have hle := hlongest _ _ htaken' ((derives_prefix_iff htaken' hnone).mp hderivesTrue)
      have hge := hlongest' _ _ htaken hderives'
      -- two prefixes of the same length are the same, and derive one tree
      obtain rfl : taken = taken' :=
        (List.prefix_of_prefix_length_le htaken htaken' hge).eq_of_length (by omega)
      rw [hparse, hparse', hderives'.tree_unique hderivesTrue]
    | fails _ hno => exact absurd hderives' (hno _ _ htaken)
  | fails hparse hno =>
    cases hlarger with
    | stops taken' e' htaken' hderivesTrue _ _ =>
      exact absurd ((derives_prefix_iff htaken' hnone).mp hderivesTrue) (hno _ _ htaken')
    | fails hparse' _ => rw [hparse, hparse']

theorem parse_partial_reaches (htrue : ¬ HitsLimit true text) (hfalse : ¬ HitsLimit false text)
    (hsuccess : (parse text ⟨false, false⟩).success = true) :
    (parse text ⟨true, false⟩).success = true ∧
      (parse text ⟨false, false⟩).position ≤ (parse text ⟨true, false⟩).position := by
  have hbasic := stopsBehindLongest_of_not_hitsLimit hfalse (nestingLimit_le_commonDepth false)
  have hlarger := stopsBehindLongest_of_not_hitsLimit htrue (nestingLimit_le_commonDepth true)
  cases hbasic with
  | fails hparse _ =>
    rw [hparse] at hsuccess
    cases hsuccess
  | stops taken e htaken hderives hparse _ =>
    have hderives' := (derives_basic_iff.mp hderives).1
    cases hlarger with
    | fails _ hno => exact absurd hderives' (hno _ _ htaken)
    | stops taken' e' _ _ hparse' hlongest' =>
      have hle := hlongest' _ _ htaken hderives'
      rw [hparse, hparse']
      exact ⟨rfl, Int.ofNat_le.mpr hle⟩

/-- How the grammar with comparisons extends the one without on a text. -/
structure ExtendsOn (text : String) : Prop where
  -- on whole texts it adds trees with comparisons, and nothing else
  whole : ∀ e, tree? (parse text ⟨false, true⟩) = some e ↔
    tree? (parse text ⟨true, true⟩) = some e ∧ e.hasComparison = false
  -- a partial parse is the same where no sign of comparison is in the text
  same : '=' ∉ text.toList → ¬ ['<', '>'] <:+: text.toList →
    parse text ⟨false, false⟩ = parse text ⟨true, false⟩
  -- and never stops earlier
  reaches : (parse text ⟨false, false⟩).success = true →
    (parse text ⟨true, false⟩).success = true ∧
      (parse text ⟨false, false⟩).position ≤ (parse text ⟨true, false⟩).position

/-- On a text on which neither hits its limit on nesting, the grammar with comparisons
is a conservative extension of the grammar without. -/
theorem comparisons_extend_conservatively (text : String) (htrue : ¬ HitsLimit true text)
    (hfalse : ¬ HitsLimit false text) : ExtendsOn text where
  whole e := by
    rw [tree_iff_derives_of_not_hitsLimit hfalse (nestingLimit_le_commonDepth false),
      tree_iff_derives_of_not_hitsLimit htrue (nestingLimit_le_commonDepth true), derives_basic_iff]
  same hequal hunequal := by
    refine parse_partial_eq_of_no_sign htrue hfalse fun s hs hwithin => ?_
    simp only [signs, List.mem_cons, List.not_mem_nil, or_false] at hs
    rcases hs with rfl | rfl
    · exact hequal (hwithin.subset (by simp))
    · exact hunequal hwithin
  reaches := parse_partial_reaches htrue hfalse

/-- A comparison in parentheses, where the two grammars part. -/
theorem comparisons_extend_conservatively_nested :
    ¬ HitsLimit true "a+(1<>b)*2" ∧ ¬ HitsLimit false "a+(1<>b)*2" ∧ ExtendsOn "a+(1<>b)*2" := by
  have htrue : ¬ HitsLimit true "a+(1<>b)*2" := not_hitsLimit_of_count (by decide)
  have hfalse : ¬ HitsLimit false "a+(1<>b)*2" := not_hitsLimit_of_count (by decide)
  exact ⟨htrue, hfalse, comparisons_extend_conservatively _ htrue hfalse⟩

end Parlance.Grammar
