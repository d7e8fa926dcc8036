import Parlance.Proofs.Reading

/-! # Effects of primitives

On a cursor that stands in its text, what a primitive parser does is a function of
the characters ahead and of the level of indentation: whether it succeeds, with which
value or fault, how far it moves and on which level it ends. `Primitive.effect` is
that function. It never moves past the characters ahead, and never leads from a level
that is not negative to one that is. -/
namespace Parlance

/-- How a run ends that looks at no more than what is ahead. -/
structure Effect where
  /-- Success or failure with a value, or a fault. -/
  exit : Except Fault (Bool × Value)
  /-- How many characters are consumed. -/
  consumed : Nat
  /-- The level of indentation afterwards. -/
  indent : Int

namespace Effect

def takes (n : Nat) (v : Value) (indent : Int) : Effect := ⟨.ok (true, v), n, indent⟩

def fails (indent : Int) : Effect := ⟨.ok (false, .null), 0, indent⟩

def raises (fault : Fault) (indent : Int) : Effect := ⟨.error fault, 0, indent⟩

def outcome (e : Effect) (c : Cursor) : Outcome Reply :=
  ⟨e.exit.map fun a => ⟨a.1, a.2, c.position + e.consumed⟩,
    ⟨c.text, c.position + e.consumed, e.indent⟩, []⟩

@[simp]
theorem outcome_takes (n : Nat) (v : Value) (c : Cursor) :
    (takes n v c.indent).outcome c = ⟨.ok ⟨true, v, c.position + n⟩, c.forward n, []⟩ := rfl

@[simp]
theorem outcome_fails (c : Cursor) :
    (fails c.indent).outcome c = ⟨.ok ⟨false, .null, c.position⟩, c, []⟩ := by
  simp [outcome, fails, Except.map]

@[simp]
theorem outcome_raises (fault : Fault) (c : Cursor) :
    (raises fault c.indent).outcome c = ⟨.error fault, c, []⟩ := by
  simp [outcome, raises, Except.map]

end Effect

/-- What a primitive does before these characters on this level. -/
def Primitive.effect (ahead : List Char) (level : Int) : Primitive → Effect
  | success v => .takes 0 v level
  | failure => .fails level
  | anyChar =>
    match ahead with
    | [] => .fails level
    | c :: _ => .takes 1 (.int c.toNat) level
  | oneOf chars table =>
    match ahead.head?.bind (chars.idxOf? ·) with
    | none => .fails level
    -- the character is consumed even if the table ends in a fault
    | some index => ⟨(table index).map fun v => (true, v), 1, level⟩
  | oneOfMapped chars entries =>
    match (ahead.head?.bind (chars.idxOf? ·)).bind (entries[·]?) with
    | none => .fails level
    | some v => .takes 1 v level
  | satisfy check =>
    match ahead with
    | [] => .fails level
    | c :: _ =>
      match check c.toNat 0 with
      | .ok true => .takes 1 (.int c.toNat) level
      | .ok false => .fails level
      | .error fault => .raises fault level
  | takeWhile check =>
    match Cursor.runLength check ahead 0 with
    | .ok n => .takes n (.ofChars (ahead.take n)) level
    | .error fault => .raises fault level
  | skipWhile check =>
    match Cursor.runLength check ahead 0 with
    | .ok n => .takes n (.int n) level
    | .error fault => .raises fault level
  | literal chars => if chars <+: ahead then .takes chars.length .null level else .fails level
  | endOfText => if ahead = [] then .takes 0 .null level else .fails level
  | endOfLine =>
    match ahead with
    | [] => .takes 0 .null level
    | c :: rest =>
      if c.toNat = CodePoint.lineFeed then .takes 1 .null level
      else if c.toNat = CodePoint.carriageReturn then
        match rest with
        | d :: _ => if d.toNat = CodePoint.lineFeed then .takes 2 .null level else .takes 1 .null level
        | [] => .takes 1 .null level
      else .fails level
  | .indent => .takes 0 .null (level + 1)
  | dedent => if level < 1 then .fails level else .takes 0 .null (level - 1)
  | leadingTabs =>
    let n := (Cursor.runOf (Matcher.tabs level) ahead 0).length
    if level = 0 then .takes 0 (.int 0) level
    else if (n : Int) = level then .takes n (.int n) level
    else .fails level

theorem Primitive.run_matcher (leaf : Primitive) {c : Cursor} {ahead : List Char}
    (h : c.Faces ahead) : leaf.matcher.run c = (leaf.effect ahead c.indent).outcome c := by
  have hstart := h.isBeforeStart_eq
  have hnext := h.next?_eq
  cases leaf with
  | success v => simp [matcher, effect]
  | failure => simp [matcher, effect]
  | anyChar =>
    cases ahead with
    | nil => simp [matcher, effect, Matcher.anyChar, hstart, hnext]
    | cons d rest => simp [matcher, effect, Matcher.anyChar, Matcher.consume, hstart, hnext]
  | oneOf chars table =>
    cases hindex : ahead.head?.bind (chars.idxOf? ·) with
    | none => simp [matcher, effect, Matcher.oneOf, hstart, hnext, hindex]
    | some index =>
      cases htable : table index with
      | error fault =>
        simp [matcher, effect, Matcher.oneOf, hstart, hnext, hindex, htable, Effect.outcome,
          Except.map, Cursor.forward]
      | ok v =>
        simp [matcher, effect, Matcher.oneOf, hstart, hnext, hindex, htable, Effect.outcome,
          Except.map, Cursor.forward]
  | oneOfMapped chars entries =>
    cases hentry : (ahead.head?.bind (chars.idxOf? ·)).bind (entries[·]?) with
    | none => simp [matcher, effect, Matcher.oneOfMapped, hstart, hnext, hentry]
    | some v =>
      simp [matcher, effect, Matcher.oneOfMapped, Matcher.consume, hstart, hnext, hentry]
  | satisfy check =>
    cases ahead with
    | nil => simp [matcher, effect, Matcher.satisfy, hstart, hnext]
    | cons d rest =>
      rcases hcheck : check d.toNat 0 with fault | _ | _
      · simp [matcher, effect, Matcher.satisfy, hstart, hnext, hcheck]
      · simp [matcher, effect, Matcher.satisfy, hstart, hnext, hcheck]
      · simp [matcher, effect, Matcher.satisfy, Matcher.consume, hstart, hnext, hcheck]
  | takeWhile check =>
    cases hrun : Cursor.runLength check ahead 0 with
    | error fault => simp [matcher, effect, Matcher.takeWhile, Matcher.run_takeRun h, hrun]
    | ok n => simp [matcher, effect, Matcher.takeWhile, Matcher.run_takeRun h, hrun]
  | skipWhile check =>
    cases hrun : Cursor.runLength check ahead 0 with
    | error fault => simp [matcher, effect, Matcher.skipWhile, Matcher.run_skipRun h, hrun]
    | ok n => simp [matcher, effect, Matcher.skipWhile, Matcher.run_skipRun h, hrun]
  | literal chars =>
    by_cases hprefix : chars <+: ahead
    · obtain ⟨rest, rfl⟩ := hprefix
      simp [matcher, effect, (Matcher.takes_literal h).run_eq]
    · simp [matcher, effect, hprefix, (Matcher.refuses_literal h hprefix).run_eq]
  | endOfText =>
    cases ahead with
    | nil => simp [matcher, effect, (Matcher.takes_endOfText h).run_eq]
    | cons d rest => simp [matcher, effect, (Matcher.refuses_endOfText h (by simp)).run_eq]
  | endOfLine =>
    cases ahead with
    | nil => simp [matcher, effect, Matcher.endOfLine, hstart, hnext]
    | cons d rest =>
      have hbehind : (c.forward [d].length).Faces rest := Cursor.Faces.forward h
      rw [List.length_singleton] at hbehind
      by_cases hfeed : d.toNat = CodePoint.lineFeed
      · simp [matcher, effect, Matcher.endOfLine, Matcher.consume, hstart, hnext, hfeed]
      · by_cases hreturn : d.toNat = CodePoint.carriageReturn
        · rw [hreturn] at hfeed
          cases rest with
          | nil =>
            simp [matcher, effect, Matcher.endOfLine, hstart, hnext, hfeed, hreturn,
              hbehind.isBeforeStart_eq, hbehind.next?_eq]
          | cons d' rest =>
            by_cases hfeed' : d'.toNat = CodePoint.lineFeed
            · simp [matcher, effect, Matcher.endOfLine, Matcher.consume, hstart, hnext, hfeed,
                hreturn, hbehind.isBeforeStart_eq, hbehind.next?_eq, hfeed']
            · simp [matcher, effect, Matcher.endOfLine, hstart, hnext, hfeed, hreturn,
                hbehind.isBeforeStart_eq, hbehind.next?_eq, hfeed']
        · simp [matcher, effect, Matcher.endOfLine, hstart, hnext, hfeed, hreturn]
  | indent =>
    simp [matcher, effect, Matcher.indent, Cursor.increaseIndent, Effect.outcome, Effect.takes,
      Except.map]
  | dedent =>
    by_cases hlevel : c.indent < 1
    · simp [matcher, effect, Matcher.dedent, Cursor.decreaseIndent?, hlevel]
    · simp [matcher, effect, Matcher.dedent, Cursor.decreaseIndent?, hlevel, Effect.outcome,
        Effect.takes, Except.map]
  | leadingTabs =>
    by_cases hlevel : c.indent = 0
    · have heffect : leadingTabs.effect ahead c.indent = .takes 0 (.int 0) c.indent := by
        simp [effect, hlevel]
      rw [heffect, Effect.outcome_takes]
      simp [matcher, Matcher.leadingTabs, hlevel]
    · by_cases hcount : ((Cursor.runOf (Matcher.tabs c.indent) ahead 0).length : Int) = c.indent
      · simp [matcher, effect, Matcher.leadingTabs, hlevel, hcount, Matcher.run_skipRun_toCheck h]
      · simp [matcher, effect, Matcher.leadingTabs, hlevel, hcount, Matcher.run_skipRun_toCheck h]

/-- A primitive consumes characters that are ahead. -/
theorem Primitive.consumed_effect_le (leaf : Primitive) (ahead : List Char) (level : Int) :
    (leaf.effect ahead level).consumed ≤ ahead.length := by
  cases leaf with
  | success | failure | endOfText | indent | dedent =>
    simp only [effect]
    repeat' split
    all_goals exact Nat.zero_le _
  | anyChar =>
    cases ahead with
    | nil => exact Nat.le_refl 0
    | cons d rest => simp [effect, Effect.takes]
  | oneOf chars table =>
    cases ahead with
    | nil => exact Nat.le_refl 0
    | cons d rest =>
      simp only [effect]
      split
      · exact Nat.zero_le _
      · simp
  | oneOfMapped chars entries =>
    cases ahead with
    | nil => exact Nat.le_refl 0
    | cons d rest =>
      simp only [effect]
      split
      · exact Nat.zero_le _
      · simp [Effect.takes]
  | satisfy check =>
    cases ahead with
    | nil => exact Nat.le_refl 0
    | cons d rest =>
      simp only [effect]
      split
      · simp [Effect.takes]
      · exact Nat.zero_le _
      · exact Nat.zero_le _
  | takeWhile check | skipWhile check =>
    simp only [effect]
    split
    · exact Cursor.runLength_le ‹_›
    · exact Nat.zero_le _
  | literal chars =>
    simp only [effect]
    split
    · exact List.IsPrefix.length_le ‹_›
    · exact Nat.zero_le _
  | endOfLine =>
    rcases ahead with _ | ⟨d, _ | ⟨d', rest⟩⟩
    all_goals simp only [effect]
    all_goals repeat' split
    all_goals simp [Effect.takes, Effect.fails]
  | leadingTabs =>
    simp only [effect]
    split
    · exact Nat.zero_le _
    · split
      · exact Cursor.runLength_le (Cursor.runLength_toCheck _ _ _)
      · exact Nat.zero_le _

/-- A primitive does not lead below level zero. -/
theorem Primitive.indent_effect_nonneg (leaf : Primitive) (ahead : List Char) (level : Int)
    (h : 0 ≤ level) : 0 ≤ (leaf.effect ahead level).indent := by
  cases leaf with
  | indent => exact Int.le_add_one h
  | dedent =>
    simp only [effect]
    split
    · exact h
    · simp only [Effect.takes]
      omega
  | _ =>
    simp only [effect]
    repeat' split
    all_goals exact h

end Parlance
