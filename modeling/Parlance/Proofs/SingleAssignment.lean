import Parlance.Session
import Parlance.Proofs.Substitution

/-! # Forwards are assigned once

A table of forwards is changed by the steps of a session while parsers that refer to it
are built, kept and run. Each step leaves the definition of a forward as it is, unless it
is the first that defines the forward as something else than itself; so over any run of
steps the definition is that of the first such step (`target?_performAll`), and every
other attempt is refused without a trace in the session. Before its definition a run that
comes to the forward ends in a fault, and after it the forward does what its definition
does, in all parsers that hold it. -/
namespace Parlance

/-! ## Tables -/

namespace Forwards

variable {fs fs' : Forwards} {id id' : Nat} {p : Parser}

/-- The table in which the forward is defined so, whether it was defined or not. -/
def assign (fs : Forwards) (id : Nat) (p : Parser) : Forwards :=
  ⟨fs.slots.setIfInBounds id (some p)⟩

@[simp]
theorem size_assign : (fs.assign id p).slots.size = fs.slots.size := by simp [assign]

@[simp]
theorem size_create : fs.create.2.slots.size = fs.slots.size + 1 := by simp [create]

theorem target?_assign_of_ne (h : id' ≠ id) : (fs.assign id p).target? id' = fs.target? id' := by
  unfold target? assign
  rw [Array.getElem?_setIfInBounds_ne h.symm]

theorem target?_assign_self (h : id < fs.slots.size) : (fs.assign id p).target? id = some p := by
  unfold target? assign
  rw [Array.getElem?_setIfInBounds_self_of_lt h]
  rfl

theorem target?_create (h : id < fs.slots.size) : fs.create.2.target? id = fs.target? id := by
  unfold target? create
  rw [Array.getElem?_push_lt h]
  simp [h]

theorem target?_create_self : fs.create.2.target? fs.slots.size = none := by
  simp [target?, create]

theorem isDefined_iff : fs.isDefined id = true ↔ fs.target? id ≠ none := by
  unfold isDefined
  exact Option.isSome_iff_ne_none

theorem define_eq_ok (hundefined : fs.target? id = none) (hother : isForward id p = false) :
    fs.define id p = .ok (fs.assign id p) := by
  simp [define, isDefined, hundefined, hother, assign]

theorem define_eq_error (h : fs.target? id ≠ none ∨ isForward id p = true) :
    ∃ fault, fs.define id p = .error fault := by
  unfold define
  split
  · exact ⟨_, rfl⟩
  · next hundefined =>
    rw [isDefined_iff] at hundefined
    rw [if_pos (h.resolve_left hundefined)]
    exact ⟨_, rfl⟩

/-- A definition that is accepted is an assignment. -/
theorem eq_assign_of_define (h : fs.define id p = .ok fs') : fs' = fs.assign id p := by
  unfold define at h
  split at h
  · cases h
  · split at h
    · cases h
    · cases h
      rfl

end Forwards

/-- Building a grammar adds a forward and keeps the others. -/
theorem Grammar.build_keeps (fs : Forwards) (comparisons : Bool) :
    fs.slots.size ≤ (build fs comparisons).2.slots.size ∧
      ∀ id < fs.slots.size, (build fs comparisons).2.target? id = fs.target? id := by
  unfold build
  dsimp only
  split
  · next fs' hdefine =>
    rw [Forwards.eq_assign_of_define hdefine]
    refine ⟨by simp, fun id hid => ?_⟩
    have hother : id ≠ fs.create.1 := Nat.ne_of_lt hid
    rw [Forwards.target?_assign_of_ne hother, Forwards.target?_create hid]
  · exact ⟨by simp, fun id hid => Forwards.target?_create hid⟩

/-! ## Steps -/

namespace Session

variable {s : Session} {id : Nat} {name : String} {p : Parser}

/-- What the step would define the forward as. -/
def attempt? (s : Session) (id : Nat) : Step → Option Parser
  | .define name p =>
    match s.forward .define name with
    | .ok id' => if id' = id then some p else none
    | .error _ => none
  | _ => none

theorem perform_define_accepted (h : s.forward .define name = .ok id)
    (hundefined : s.forwards.target? id = none) (hother : Forwards.isForward id p = false) :
    s.perform (.define name p) =
      { answer := .ok .done, session := { s with forwards := s.forwards.assign id p } } := by
  show s.defining name p = _
  rw [defining, h]
  dsimp only
  rw [Forwards.define_eq_ok hundefined hother]

theorem perform_define_refused (h : s.forward .define name = .ok id)
    (hrefused : s.forwards.target? id ≠ none ∨ Forwards.isForward id p = true) :
    ∃ fault, s.perform (.define name p) = s.refusing (.grammar fault) := by
  obtain ⟨fault, hdefine⟩ := Forwards.define_eq_error hrefused
  refine ⟨fault, ?_⟩
  show s.defining name p = _
  rw [defining, h]
  dsimp only
  rw [hdefine]

theorem attempt?_define (h : s.forward .define name = .ok id) (p : Parser) :
    s.attempt? id (.define name p) = some p := by
  simp [attempt?, h]

/-- A definition of one forward is not one of another. -/
theorem attempt?_define_of_ne {id' : Nat} (h : s.forward .define name = .ok id') (hne : id' ≠ id)
    (p : Parser) : s.attempt? id (.define name p) = none := by
  simp [attempt?, h, hne]

/-- A step that defines this forward or another, or asks for what is no forward. -/
theorem target?_perform_define (hid : id < s.forwards.slots.size) (name : String) (p : Parser) :
    (s.perform (.define name p)).session.forwards.target? id = (s.forwards.target? id).or
      ((s.attempt? id (.define name p)).filter fun p => !Forwards.isForward id p) := by
  cases hforward : s.forward .define name with
  | error fault =>
    have hrefusing : s.perform (.define name p) = s.refusing fault := by
      show s.defining name p = _
      rw [defining, hforward]
    rw [hrefusing, attempt?, hforward]
    exact Option.or_none.symm
  | ok id' =>
    by_cases hrefused : s.forwards.target? id' ≠ none ∨ Forwards.isForward id' p = true
    · obtain ⟨fault, hrefusing⟩ := perform_define_refused hforward hrefused
      rw [hrefusing]
      show s.forwards.target? id = _
      by_cases hsame : id' = id
      · subst hsame
        rw [attempt?_define hforward]
        rcases hrefused with hdefined | hself
        · obtain ⟨q, hq⟩ := Option.ne_none_iff_exists'.mp hdefined
          rw [hq, Option.some_or]
        · rw [Option.filter_some, hself]
          exact Option.or_none.symm
      · rw [attempt?_define_of_ne hforward hsame]
        exact Option.or_none.symm
    · rw [not_or, Classical.not_not, Bool.not_eq_true] at hrefused
      obtain ⟨hundefined, hother⟩ := hrefused
      rw [perform_define_accepted hforward hundefined hother]
      by_cases hsame : id' = id
      · subst hsame
        rw [Forwards.target?_assign_self hid, attempt?_define hforward, hundefined,
          Option.filter_some, hother]
        rfl
      · rw [Forwards.target?_assign_of_ne (Ne.symm hsame), attempt?_define_of_ne hforward hsame]
        exact Option.or_none.symm

theorem size_perform_define (s : Session) (name : String) (p : Parser) :
    (s.perform (.define name p)).session.forwards.slots.size = s.forwards.slots.size := by
  show (s.defining name p).session.forwards.slots.size = _
  unfold defining
  split
  · rfl
  · split
    · next hdefine =>
      rw [Forwards.eq_assign_of_define hdefine]
      exact Forwards.size_assign
    · rfl

def changesForwards : Step → Bool
  | .create _ | .define _ _ | .buildGrammar _ _ => true
  | _ => false

theorem forwards_perform {step : Step} (h : changesForwards step = false) :
    (s.perform step).session.forwards = s.forwards := by
  cases step with
  | create | define | buildGrammar => cases h
  | isDefined | rewind | decreaseIndent =>
    unfold perform
    dsimp only
    split <;> rfl
  | _ => rfl

theorem attempt?_of_frame {step : Step} (h : changesForwards step = false) :
    s.attempt? id step = none := by
  cases step with
  | define => cases h
  | _ => rfl

/-- What a step does to the table: no forward is lost, and a definition is that which was
there, or else the one that the step attempts. -/
theorem perform_forwards (s : Session) (step : Step) :
    s.forwards.slots.size ≤ (s.perform step).session.forwards.slots.size ∧
      ∀ id < s.forwards.slots.size, (s.perform step).session.forwards.target? id =
        (s.forwards.target? id).or ((s.attempt? id step).filter fun p => !Forwards.isForward id p) := by
  cases step with
  | define name p =>
    exact ⟨Nat.le_of_eq (s.size_perform_define name p).symm,
      fun id hid => target?_perform_define hid name p⟩
  | create name =>
    refine ⟨?_, fun id hid => ?_⟩
    · show s.forwards.slots.size ≤ s.forwards.create.2.slots.size
      simp
    · show s.forwards.create.2.target? id = _
      rw [Forwards.target?_create hid]
      exact Option.or_none.symm
  | buildGrammar name comparisons =>
    obtain ⟨hsize, htarget⟩ := Grammar.build_keeps s.forwards comparisons
    refine ⟨hsize, fun id hid => ?_⟩
    show (Grammar.build s.forwards comparisons).2.target? id = _
    rw [htarget id hid]
    exact Option.or_none.symm
  | _ =>
    rw [forwards_perform rfl]
    refine ⟨Nat.le_refl _, fun id _ => ?_⟩
    rw [attempt?_of_frame rfl]
    exact Option.or_none.symm

/-! ## Histories -/

def performAll (s : Session) (steps : List Step) : Session :=
  steps.foldl (fun s step => (s.perform step).session) s

/-- What the steps would define the forward as, one after the other. -/
def attempts (id : Nat) : Session → List Step → List Parser
  | _, [] => []
  | s, step :: steps => (s.attempt? id step).toList ++ attempts id (s.perform step).session steps

/-- The first of these that is not the forward itself. -/
def firstAttempt? (s : Session) (id : Nat) (steps : List Step) : Option Parser :=
  (attempts id s steps).find? fun p => !Forwards.isForward id p

theorem size_performAll (s : Session) (steps : List Step) :
    s.forwards.slots.size ≤ (s.performAll steps).forwards.slots.size := by
  induction steps generalizing s with
  | nil => exact Nat.le_refl _
  | cons step steps ih => exact Nat.le_trans (s.perform_forwards step).1 (ih _)

theorem firstAttempt?_cons (s : Session) (id : Nat) (step : Step) (steps : List Step) :
    s.firstAttempt? id (step :: steps) =
      ((s.attempt? id step).filter fun p => !Forwards.isForward id p).or
        ((s.perform step).session.firstAttempt? id steps) := by
  unfold firstAttempt?
  rw [attempts, List.find?_append]
  cases s.attempt? id step with
  | none => rfl
  | some p => simp [List.find?_singleton, Option.filter_some]

/-- Over any run of steps a forward keeps its definition, and if it has none it gets the
first that is not the forward itself. -/
theorem target?_performAll (hid : id < s.forwards.slots.size) (steps : List Step) :
    (s.performAll steps).forwards.target? id =
      (s.forwards.target? id).or (s.firstAttempt? id steps) := by
  induction steps generalizing s with
  | nil => exact Option.or_none.symm
  | cons step steps ih =>
    obtain ⟨hsize, htarget⟩ := s.perform_forwards step
    show ((s.perform step).session.performAll steps).forwards.target? id = _
    rw [ih (Nat.lt_of_lt_of_le hid hsize), htarget id hid, firstAttempt?_cons, Option.or_assoc]

end Session

/-! ## Runs before the definition -/

/-- The run comes to the forward: what that is defined as makes a difference to it. -/
def Parser.Reaches (p : Parser) (fs : Forwards) (budget : Budget) (c : Cursor) (id : Nat) : Prop :=
  ∃ q, p.run (fs.assign id q) budget c ≠ p.run fs budget c

/-- A run that comes to a forward without definition ends there. Up to that point nothing
has been looked up, so any other run is the same under every definition. -/
theorem Parser.exit_of_reaches {fs : Forwards} {id : Nat} {p : Parser} {budget : Budget}
    {c : Cursor} (hundefined : fs.target? id = none) (h : p.Reaches fs budget c id) :
    (p.run fs budget c).exit = .error (.grammar .undefined) := by
  obtain ⟨q, hdiffers⟩ := h
  let cut : Fault → Prop := fun fault => fault = .grammar .undefined
  have htables : Extends.Tables cut fs (fs.assign id q) := by
    intro id'
    by_cases hid : id' = id
    · rw [hid]
      exact .inr ⟨rfl, hundefined⟩
    · exact .inl (Forwards.target?_assign_of_ne hid)
  have hrounds : (Extends.agreement cut).Rounds budget.rounds budget.rounds := .inl rfl
  have hruns := Extends.matcher (Extends.call htables hrounds budget.depth (.inl rfl)) hrounds p
  by_contra hexit
  refine hdiffers (Extends.run_eq hruns fun hends => hexit ?_)
  obtain ⟨fault, rfl, hfault⟩ := hends
  exact hfault

/-- A run of the forward itself comes to it at once. -/
theorem Parser.reaches_forward {fs : Forwards} {id : Nat} (hid : id < fs.slots.size)
    (hundefined : fs.target? id = none) (budget : Budget) (c : Cursor) :
    (forward id).Reaches fs budget c id := by
  refine ⟨failure, ?_⟩
  have htarget : (fs.assign id failure).target? id = some failure := Forwards.target?_assign_self hid
  obtain ⟨depth, rounds⟩ := budget
  unfold run matcher
  rw [Forwards.call_undefined _ hundefined]
  cases depth with
  | zero =>
    rw [Forwards.call_zero htarget]
    intro h
    cases congrArg Outcome.exit h
  | succ depth =>
    rw [Forwards.call_succ htarget]
    intro h
    cases congrArg Outcome.exit h

/-! ## All histories -/

/-- What holds of a forward in a state of a session. -/
structure Session.AssignsOnce (s : Session) (id : Nat) : Prop where
  /-- A forward that is created is a new one, stands under its name, and has no definition. -/
  created : ∀ name, s.forwards.slots.size ≠ id ∧
    (s.perform (.create name)).session.forward .define name = .ok s.forwards.slots.size ∧
    (s.perform (.create name)).session.forwards.target? s.forwards.slots.size = none
  /-- A first definition is taken, and touches no other forward. -/
  accepted : ∀ name p, s.forward .define name = .ok id → s.forwards.target? id = none →
    Forwards.isForward id p = false → (s.perform (.define name p)).answer = .ok .done ∧
      ∀ id', (s.perform (.define name p)).session.forwards.target? id' =
        if id' = id then some p else s.forwards.target? id'
  /-- A second one, or one as itself, is a fault of the grammar and changes nothing. -/
  refused : ∀ name p, s.forward .define name = .ok id →
    s.forwards.target? id ≠ none ∨ Forwards.isForward id p = true →
      ∃ fault, s.perform (.define name p) = s.refusing (.grammar fault)
  /-- So is a run that comes to the forward before its definition, as one of the forward
  itself does. -/
  reached : s.forwards.target? id = none → ∀ budget c,
    (Parser.forward id).Reaches s.forwards budget c id ∧
      ∀ p : Parser, p.Reaches s.forwards budget c id →
        (p.run s.forwards budget c).exit = .error (.grammar .undefined)
  /-- No later step changes the definition. -/
  kept : ∀ q, s.forwards.target? id = some q →
    ∀ later, (s.performAll later).forwards.target? id = some q
  /-- At any later time a run is the same with the definition in place of the forward. -/
  replaced : ∀ q, s.forwards.target? id = some q → ∀ later (p : Parser) budget c,
    ¬ (p.run (s.performAll later).forwards budget c).Exhausted →
      (p.subst id q).run (s.performAll later).forwards budget c =
        p.run (s.performAll later).forwards budget c
  /-- The definition in place of the forward does nothing that the forward would not do
  with one more level of depth. -/
  restored : ∀ q, s.forwards.target? id = some q → ∀ later (p : Parser) (budget : Budget) c,
    ¬ ((p.subst id q).run (s.performAll later).forwards budget c).Exhausted →
      p.run (s.performAll later).forwards ⟨budget.depth + 1, budget.rounds⟩ c =
        (p.subst id q).run (s.performAll later).forwards budget c
  /-- Answer, session and log are the same too. -/
  reported : ∀ q, s.forwards.target? id = some q → ∀ later (p : Parser),
    ¬ ((s.performAll later).runOn p (s.performAll later).cursor).Exhausted →
      (s.performAll later).perform (.parse (p.subst id q)) = (s.performAll later).perform (.parse p)

namespace Session

variable {s : Session} {id : Nat}

theorem forward_perform_create (s : Session) (request : ForwardRequest) (name : String) :
    (s.perform (.create name)).session.forward request name = .ok s.forwards.slots.size := by
  have hnamed : (s.perform (.create name)).session.named? name =
      some (.forward s.forwards.slots.size) := by
    show List.lookup name ((name, .forward s.forwards.slots.size) :: s.names) = _
    rw [List.lookup_cons_self]
  rw [forward, hnamed]

theorem perform_parse_of_runOn {p p' : Parser} (h : s.runOn p' s.cursor = s.runOn p s.cursor) :
    s.perform (.parse p') = s.perform (.parse p) := by
  show s.reporting (s.runOn p' s.cursor) .reply = s.reporting (s.runOn p s.cursor) .reply
  rw [h]

/-- From any state in which a forward exists and through all steps, its definition is the
one it had, or the first that is attempted and not the forward itself; every other attempt
is refused, a run that needs a definition before there is one ends in a fault, and
afterwards the forward does what its definition does. -/
theorem forward_assigned_once (s : Session) (id : Nat) (hid : id < s.forwards.slots.size)
    (steps : List Step) :
    (s.performAll steps).forwards.target? id =
        (s.forwards.target? id).or (s.firstAttempt? id steps) ∧
      (s.performAll steps).AssignsOnce id := by
  refine ⟨target?_performAll hid steps, ?_⟩
  have hid := Nat.lt_of_lt_of_le hid (s.size_performAll steps)
  have hkept : ∀ q, (s.performAll steps).forwards.target? id = some q →
      ∀ later, ((s.performAll steps).performAll later).forwards.target? id = some q := by
    intro q hq later
    rw [target?_performAll hid later, hq, Option.some_or]
  exact {
    created := fun name =>
      ⟨Nat.ne_of_gt hid, forward_perform_create _ .define name, Forwards.target?_create_self⟩
    accepted := fun name p hforward hundefined hother => by
      rw [perform_define_accepted hforward hundefined hother]
      refine ⟨rfl, fun id' => ?_⟩
      split
      · next hsame => rw [hsame, Forwards.target?_assign_self hid]
      · next hne => rw [Forwards.target?_assign_of_ne hne]
    refused := fun _ _ hforward hrefused => perform_define_refused hforward hrefused
    reached := fun hundefined budget c => ⟨Parser.reaches_forward hid hundefined budget c,
      fun _ hreaches => Parser.exit_of_reaches hundefined hreaches⟩
    kept := hkept
    replaced := fun q hq later _ _ _ hrun => Parser.run_subst_eq (hkept q hq later) hrun
    restored := fun q hq later _ _ _ hrun => Parser.run_eq_run_subst (hkept q hq later) hrun
    reported := fun q hq later _ hrun =>
      perform_parse_of_runOn (Parser.run_subst_eq (hkept q hq later) hrun) }

/-- A forward with two names is defined as itself, as a list that holds it, and once more. -/
theorem forward_assigned_once_shared :
    let s := ((Session.start "aab").perform (.create "list")).session
    let list := ((Parser.literal "a").seqRight (.forward 2)).orElse (.success .null)
    let steps := [.assign "alias" (.forward 2), .define "list" (.forward 2),
      .parse (.forward 2), .define "alias" list, .define "list" .anyChar]
    2 < s.forwards.slots.size ∧ s.forwards.target? 2 = none ∧
      attempts 2 s steps = [.forward 2, list, .anyChar] ∧
      (s.performAll steps).forwards.target? 2 = some list ∧ (s.performAll steps).AssignsOnce 2 := by
  intro s list steps
  have hid : 2 < s.forwards.slots.size := by decide
  have htarget : s.forwards.target? 2 = none := rfl
  have hattempts : attempts 2 s steps = [.forward 2, list, .anyChar] := rfl
  obtain ⟨hfirst, hassigns⟩ := forward_assigned_once s 2 hid steps
  rw [htarget, firstAttempt?, hattempts] at hfirst
  exact ⟨hid, htarget, hattempts, hfirst, hassigns⟩

end Session
end Parlance
