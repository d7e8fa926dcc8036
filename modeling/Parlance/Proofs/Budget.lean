import Parlance.Proofs.Agreement
import Parlance.Proofs.Effect

/-! # Budgets

What a budget does to a run. A larger budget changes nothing in a run that the
smaller one did not cut short. How much depth a run needs can be read off its trace
under a table whose forwards trace themselves: it is the largest number of them that
are open at once (`openPeak`). With that depth the run is the same, and with less it
is cut short, whatever it would have done later. -/
namespace Parlance

theorem Reply.eq_of_shifted_zero {r r' : Reply} (h : r.Shifted 0 r') : r = r' := by
  rcases r with ⟨success, v, position⟩
  rcases r' with ⟨success', v', position'⟩
  obtain ⟨hsuccess, hvalue, hposition⟩ := h
  simp_all

theorem ExitsAlike.eq_of_shifted_zero {exit exit' : Except Fault Reply}
    (h : ExitsAlike (Reply.Shifted 0) exit exit') : exit = exit' := by
  cases h with
  | ok hr => rw [Reply.eq_of_shifted_zero hr]
  | error fault => rfl

theorem exitsAlike_shifted_zero (exit : Except Fault Reply) :
    ExitsAlike (Reply.Shifted 0) exit exit := by
  cases exit with
  | ok r => exact .ok ⟨rfl, rfl, by simp⟩
  | error fault => exact .error fault

/-! ## Larger budgets -/

/-- The budget has cut the run short. -/
def Outcome.Exhausted {α : Type} (o : Outcome α) : Prop :=
  o.exit = .error .tooDeep ∨ o.exit = .error .endless

theorem Outcome.not_exhausted_of_ok {α : Type} {o : Outcome α} {a : α} (h : o.exit = .ok a) :
    ¬ o.Exhausted := by
  rintro (hcut | hcut) <;> rw [h] at hcut <;> cases hcut

/-- The faults of a run that has used up its budget. -/
def Fault.CutsShort (fault : Fault) : Prop := fault = .tooDeep ∨ fault = .endless

theorem Fault.not_cutsShort {fault : Fault} (hdepth : fault ≠ .tooDeep) (hrounds : fault ≠ .endless) :
    ¬ fault.CutsShort :=
  not_or.mpr ⟨hdepth, hrounds⟩

def Outcome.EndsIn {α : Type} (cut : Fault → Prop) (o : Outcome α) : Prop :=
  ∃ fault, cut fault ∧ o.exit = .error fault

theorem Outcome.exhausted_iff {α : Type} {o : Outcome α} :
    o.Exhausted ↔ o.EndsIn Fault.CutsShort := by
  constructor
  · rintro (hexit | hexit)
    · exact ⟨_, .inl rfl, hexit⟩
    · exact ⟨_, .inr rfl, hexit⟩
  · rintro ⟨fault, rfl | rfl, hexit⟩
    · exact .inl hexit
    · exact .inr hexit

/-- Unless the first run is cut by one of these faults, the second is the same. -/
def Extends {α : Type} (cut : Fault → Prop) (Q : α → α → Prop) (m m' : Action α) : Prop :=
  ∀ c, (m.run c).EndsIn cut ∨
    (ExitsAlike Q (m.run c).exit (m'.run c).exit ∧ (m'.run c).cursor = (m.run c).cursor ∧
      (m'.run c).trace = (m.run c).trace)

namespace Extends

variable {α β : Type} {cut : Fault → Prop} {Q : α → α → Prop} {Q' : β → β → Prop}

theorem bind {m m' : Action α} {f f' : α → Action β} (hm : Extends cut Q m m')
    (hf : ∀ a a', Q a a' → Extends cut Q' (f a) (f' a')) :
    Extends cut Q' (m >>= f) (m' >>= f') := by
  intro c
  rw [Action.run_bind, Action.run_bind]
  have hc := hm c
  rcases ho : m.run c with ⟨exit, c₁, trace⟩
  rcases ho' : m'.run c with ⟨exit', c₁', trace'⟩
  rw [ho, ho'] at hc
  rcases hc with ⟨fault, hcut, hexit⟩ | ⟨hexit, rfl, rfl⟩
  · cases hexit
    exact .inl ⟨fault, hcut, rfl⟩
  · cases hexit with
    | error fault => exact .inr ⟨.error fault, rfl, rfl⟩
    | ok hQ =>
      rcases hf _ _ hQ c₁' with hcut | ⟨hexit, hcursor, htrace⟩
      · exact .inl hcut
      · refine .inr ⟨hexit, hcursor, ?_⟩
        simp only [Outcome.andThen_ok, Outcome.after, htrace]

theorem raise_left {fault : Fault} (h : cut fault) (m' : Action α) :
    Extends cut Q (Action.raise fault) m' :=
  fun _ => .inl ⟨fault, h, rfl⟩

def agreement (cut : Fault → Prop) : Agreement where
  Agree := Extends cut
  Marks := Eq
  Leaf _ := True
  Name _ := True
  shift := 0
  position_eq h := by simp [h]
  pure h := fun _ => .inr ⟨.ok h, rfl, rfl⟩
  bind := bind
  raise fault := fun _ => .inr ⟨.error fault, rfl, rfl⟩
  mark := fun _ => .inr ⟨.ok rfl, rfl, rfl⟩
  rewind h := fun _ => .inr ⟨.ok trivial, by rw [h], rfl⟩
  peek := by
    intro c
    rw [Action.run_peek]
    right
    split
    · exact ⟨.error _, rfl, rfl⟩
    · exact ⟨.ok rfl, rfl, rfl⟩
  record _ _ := fun _ => .inr ⟨.ok trivial, rfl, rfl⟩
  leaf _ := fun _ => .inr ⟨exitsAlike_shifted_zero _, rfl, rfl⟩

theorem refl (run : Matcher) : (agreement cut).Match run run :=
  fun _ => .inr ⟨exitsAlike_shifted_zero _, rfl, rfl⟩

/-- Nothing is asked of the parser: hand-written parts are the same in both runs. -/
theorem matcher {call call' : Nat → Matcher} {rounds rounds' : Nat}
    (hcall : ∀ id, (agreement cut).Match (call id) (call' id))
    (hrounds : (agreement cut).Rounds rounds rounds') (p : Parser) :
    (agreement cut).Match (p.matcher rounds call) (p.matcher rounds' call') :=
  have hp : p.MadeWith (fun _ => True) (fun _ => True) (fun _ => True) fun _ => True :=
    p.madeWith_of_forall (fun _ => trivial) (fun _ => trivial) (fun _ => trivial) fun _ => trivial
  Agreement.matcherWith (fun run _ => refl run) (fun id _ => hcall id) hrounds p hp

theorem rounds (hcut : cut .endless) {n n' : Nat} (h : n ≤ n') : (agreement cut).Rounds n n' :=
  .inr ⟨h, fun _ m' => raise_left hcut m'⟩

/-- The second table holds what the first holds, and more only where it is a cut that
the first does not. -/
def Tables (cut : Fault → Prop) (fs fs' : Forwards) : Prop :=
  ∀ id, fs'.target? id = fs.target? id ∨ (cut (.grammar .undefined) ∧ fs.target? id = none)

/-- The depths are the same, or the second is larger and it is a cut to reach the first. -/
def Depths (cut : Fault → Prop) (depth depth' : Nat) : Prop :=
  depth = depth' ∨ (cut .tooDeep ∧ depth ≤ depth')

theorem call {fs fs' : Forwards} (hfs : Tables cut fs fs') {rounds rounds' : Nat}
    (hrounds : (agreement cut).Rounds rounds rounds') (depth : Nat) : ∀ {depth' : Nat},
      Depths cut depth depth' →
        ∀ id, (agreement cut).Match (fs.call rounds depth id) (fs'.call rounds' depth' id) := by
  induction depth with
  | zero =>
    intro depth' hdepth id
    cases h : fs.target? id with
    | none =>
      rw [Forwards.call_undefined _ h]
      rcases hfs id with hsame | ⟨hcut, _⟩
      · rw [Forwards.call_undefined _ (hsame.trans h)]
        exact (agreement cut).raise _
      · exact raise_left hcut _
    | some body =>
      rw [Forwards.call_zero h]
      rcases hdepth with rfl | ⟨hcut, _⟩
      · rcases hfs id with hsame | ⟨_, hnone⟩
        · rw [Forwards.call_zero (hsame.trans h)]
          exact (agreement cut).raise _
        · rw [h] at hnone
          cases hnone
      · exact raise_left hcut _
  | succ depth ih =>
    intro depth' hdepth id
    obtain ⟨k, rfl, hk⟩ : ∃ k, depth' = k + 1 ∧ Depths cut depth k := by
      rcases hdepth with rfl | ⟨hcut, hle⟩
      · exact ⟨depth, rfl, .inl rfl⟩
      · exact ⟨depth' - 1, by omega, .inr ⟨hcut, by omega⟩⟩
    cases h : fs.target? id with
    | none =>
      rw [Forwards.call_undefined _ h]
      rcases hfs id with hsame | ⟨hcut, _⟩
      · rw [Forwards.call_undefined _ (hsame.trans h)]
        exact (agreement cut).raise _
      · exact raise_left hcut _
    | some body =>
      rcases hfs id with hsame | ⟨_, hnone⟩
      · rw [Forwards.call_succ h, Forwards.call_succ (hsame.trans h)]
        exact matcher (ih hk) hrounds body
      · rw [h] at hnone
        cases hnone

theorem run_eq {p p' : Matcher} {c : Cursor} (h : (agreement cut).Match p p')
    (hcut : ¬ (p.run c).EndsIn cut) : p'.run c = p.run c := by
  rcases h c with hends | ⟨hexit, hcursor, htrace⟩
  · exact absurd hends hcut
  · exact Outcome.ext hexit.eq_of_shifted_zero.symm hcursor htrace

end Extends

theorem Parser.run_eq_of_not_exhausted {fs : Forwards} {p : Parser} {budget budget' : Budget}
    {c : Cursor} (hdepth : budget.depth ≤ budget'.depth) (hrounds : budget.rounds ≤ budget'.rounds)
    (h : ¬ (p.run fs budget c).Exhausted) : p.run fs budget' c = p.run fs budget c := by
  have hrounds : (Extends.agreement Fault.CutsShort).Rounds budget.rounds budget'.rounds :=
    Extends.rounds (.inr rfl) hrounds
  have htables : Extends.Tables Fault.CutsShort fs fs := fun _ => .inl rfl
  have hcall := Extends.call htables hrounds budget.depth (.inr ⟨.inl rfl, hdepth⟩)
  exact Extends.run_eq (Extends.matcher hcall hrounds p) fun hends =>
    h (Outcome.exhausted_iff.mpr hends)

/-! ## Runs that are open -/

/-- What a line of trace does to the number of runs that are open. -/
def Record.change (r : Record) : Int := if r.phase = .entered then 1 else -1

/-- How many runs a trace enters and does not leave. -/
def openAfter : List Record → Int
  | [] => 0
  | r :: rest => r.change + openAfter rest

/-- The largest number of runs that are open at once in the course of a trace. -/
def openPeak : List Record → Int
  | [] => 0
  | r :: rest => max 0 (r.change + openPeak rest)

theorem openPeak_nonneg (trace : List Record) : 0 ≤ openPeak trace := by
  cases trace with
  | nil => exact Int.le_refl 0
  | cons r rest => exact Int.le_max_left _ _

theorem openAfter_append (trace trace' : List Record) :
    openAfter (trace ++ trace') = openAfter trace + openAfter trace' := by
  induction trace with
  | nil => simp [openAfter]
  | cons r rest ih =>
    simp only [List.cons_append, openAfter, ih]
    omega

theorem openPeak_append (trace trace' : List Record) :
    openPeak (trace ++ trace') = max (openPeak trace) (openAfter trace + openPeak trace') := by
  induction trace with
  | nil =>
    have hnonneg := openPeak_nonneg trace'
    simp only [List.nil_append, openPeak, openAfter]
    omega
  | cons r rest ih =>
    simp only [List.cons_append, openPeak, openAfter, ih]
    omega

/-- The table in which every forward traces its runs under a name. -/
def Forwards.watched (fs : Forwards) (name : String) : Forwards :=
  ⟨fs.slots.map fun slot => slot.map (·.traced name)⟩

theorem Forwards.target?_watched (fs : Forwards) (name : String) (id : Nat) :
    (fs.watched name).target? id = (fs.target? id).map (·.traced name) := by
  simp only [target?, watched, Array.getElem?_map]
  cases fs.slots[id]? with
  | none => rfl
  | some slot => rfl

/-! ## The depth that a run needs -/

/-- With `opened` runs open already: if the first run opens no more than the limit
allows, the second is the same run, and otherwise it is cut short. -/
def Limits {α : Type} (limit opened : Nat) (Q : α → α → Prop) (m m' : Action α) : Prop :=
  ∀ c, 0 ≤ c.position →
    (opened + openPeak (m.run c).trace ≤ limit →
      ExitsAlike Q (m.run c).exit (m'.run c).exit ∧ (m'.run c).cursor = (m.run c).cursor ∧
      0 ≤ (m.run c).cursor.position ∧
      ∀ a, (m.run c).exit = .ok a → openAfter (m.run c).trace = 0) ∧
    (limit < opened + openPeak (m.run c).trace → (m'.run c).exit = .error .tooDeep)

namespace Limits

variable {α β : Type} {Q : α → α → Prop} {Q' : β → β → Prop} {limit opened : Nat}

/-- An action without a trace opens nothing. -/
theorem of_silent {m m' : Action α} (hopened : opened ≤ limit)
    (h : ∀ c, 0 ≤ c.position → (m.run c).trace = [] ∧
      ExitsAlike Q (m.run c).exit (m'.run c).exit ∧ (m'.run c).cursor = (m.run c).cursor ∧
      0 ≤ (m.run c).cursor.position) : Limits limit opened Q m m' := by
  intro c hc
  obtain ⟨htrace, hexit, hcursor, hposition⟩ := h c hc
  rw [htrace]
  simp only [openPeak, openAfter]
  exact ⟨fun _ => ⟨hexit, hcursor, hposition, fun _ _ => trivial⟩, fun hpast => by omega⟩

theorem bind {m m' : Action α} {f f' : α → Action β} (hm : Limits limit opened Q m m')
    (hf : ∀ a a', Q a a' → Limits limit opened Q' (f a) (f' a')) :
    Limits limit opened Q' (m >>= f) (m' >>= f') := by
  intro c hc
  have hfirst := hm c hc
  rw [Action.run_bind, Action.run_bind]
  rcases ho : m.run c with ⟨exit, c₁, trace⟩
  rcases ho' : m'.run c with ⟨exit', c₁', trace'⟩
  rw [ho, ho'] at hfirst
  obtain ⟨hwithin, hpast⟩ := hfirst
  dsimp only at hwithin hpast
  by_cases hopen : opened + openPeak trace ≤ limit
  · obtain ⟨hexit, rfl, hposition, hclosed⟩ := hwithin hopen
    cases hexit with
    | error fault => exact ⟨fun _ => ⟨.error fault, rfl, hposition, nofun⟩, fun h => by
        simp only [Outcome.andThen_error] at h
        omega⟩
    | @ok a a' hQ =>
      obtain ⟨hwithin₂, hpast₂⟩ := hf a a' hQ c₁' hposition
      have hpeak := openPeak_append trace ((f a).run c₁').trace
      have hafter := openAfter_append trace ((f a).run c₁').trace
      rw [hclosed a rfl, Int.zero_add] at hpeak hafter
      simp only [Outcome.andThen_ok, Outcome.after, hpeak, hafter]
      exact ⟨fun hle => hwithin₂ (by omega), fun hlt => hpast₂ (by omega)⟩
  · -- the first part is cut short, so the whole is, and later records open no less
    have hcut := hpast (by omega)
    subst hcut
    have hmore : openPeak trace ≤ openPeak ((⟨exit, c₁, trace⟩ : Outcome α).andThen f).trace := by
      cases exit with
      | error fault => exact Int.le_refl _
      | ok a =>
        simp only [Outcome.andThen_ok, Outcome.after, openPeak_append]
        exact Int.le_max_left _ _
    exact ⟨fun hle => by omega, fun _ => rfl⟩

theorem leaf (hopened : opened ≤ limit) (leaf : Primitive) :
    Limits limit opened (Reply.Shifted 0) leaf.matcher leaf.matcher := by
  refine of_silent hopened fun c hc => ?_
  have hfaces : c.Faces c.rest := ⟨hc, rfl⟩
  rw [Primitive.run_matcher _ hfaces]
  refine ⟨rfl, exitsAlike_shifted_zero _, rfl, ?_⟩
  simp only [Effect.outcome]
  omega

def agreement (limit opened : Nat) (hopened : opened ≤ limit) : Agreement where
  Agree := Limits limit opened
  Marks m m' := m = m' ∧ 0 ≤ m.position
  Leaf _ := True
  Name _ := False
  shift := 0
  position_eq h := by simp [h.1]
  pure h := of_silent hopened fun _ hc => ⟨rfl, .ok h, rfl, hc⟩
  bind := bind
  raise fault := of_silent hopened fun _ hc => ⟨rfl, .error fault, rfl, hc⟩
  mark := of_silent hopened fun _ hc => ⟨rfl, .ok ⟨rfl, hc⟩, rfl, hc⟩
  rewind h := of_silent hopened fun _ _ => ⟨rfl, .ok trivial, by rw [h.1], h.2⟩
  peek := by
    refine of_silent hopened fun c hc => ?_
    rw [Action.run_peek]
    split
    · exact ⟨rfl, .error _, rfl, hc⟩
    · exact ⟨rfl, .ok rfl, rfl, hc⟩
  record _ h := h.elim
  leaf {leaf} _ := Limits.leaf hopened leaf

/-- A run that traces itself is one more that is open. -/
theorem traced {p p' : Matcher} (name : String)
    (h : Limits limit (opened + 1) (Reply.Shifted 0) p p') :
    Limits limit opened (Reply.Shifted 0) (p.traced name) p' := by
  intro c hc
  obtain ⟨hwithin, hpast⟩ := h c hc
  have hrun : (p.traced name).run c = ((p.run c).andThen fun r => do
      Action.record name (if r.success then .succeeded else .failed)
      pure r).after [⟨name, .entered, c.position⟩] := rfl
  rw [hrun]
  rcases ho : p.run c with ⟨exit, c₁, trace⟩
  rw [ho] at hwithin hpast
  dsimp only at hwithin hpast
  have hnonneg := openPeak_nonneg trace
  cases exit with
  | error fault =>
    simp only [Outcome.andThen_error, Outcome.after_mk, List.singleton_append, openPeak,
      Record.change, if_true]
    refine ⟨fun hle => ?_, fun hlt => hpast (by omega)⟩
    obtain ⟨hexit, hcursor, hposition, _⟩ := hwithin (by omega)
    exact ⟨hexit, hcursor, hposition, nofun⟩
  | ok r =>
    have hleft : ∀ phase : Phase, phase ≠ .entered →
        Record.change ⟨name, phase, c₁.position⟩ = -1 := by
      intro phase hphase
      simp [Record.change, hphase]
    have hexited : Record.change ⟨name, if r.success then .succeeded else .failed, c₁.position⟩
        = -1 := by
      apply hleft
      split <;> simp
    simp only [Outcome.andThen_ok, Action.run_bind, Action.run_record, Action.run_pure,
      Outcome.after_mk, List.singleton_append, List.append_nil, openPeak, openAfter,
      openPeak_append, openAfter_append, hexited]
    simp only [Record.change, if_true]
    refine ⟨fun hle => ?_, fun hlt => ?_⟩
    · obtain ⟨hexit, hcursor, hposition, hclosed⟩ := hwithin (by omega)
      refine ⟨hexit, hcursor, hposition, fun _ _ => ?_⟩
      rw [hclosed r rfl]
      rfl
    · by_cases hopen : (opened + 1 : Nat) + openPeak trace ≤ limit
      · have hclosed := (hwithin hopen).2.2.2 r rfl
        omega
      · exact hpast (by omega)

/-- The forwards of a table that watches them, and the same forwards with as much
depth as the limit leaves. -/
theorem call {fs : Forwards} {Id : Nat → Prop}
    (hfs : fs.Closed (fun _ => True) (fun _ => False) Id) (name : String) (rounds depth' : Nat) :
    ∀ {depth opened : Nat}, depth' ≤ depth → opened + depth' = limit → ∀ id, Id id →
      Limits limit opened (Reply.Shifted 0) ((fs.watched name).call rounds depth id)
        (fs.call rounds depth' id) := by
  induction depth' with
  | zero =>
    intro depth opened _ hlimit id _
    have htarget := fs.target?_watched name id
    cases h : fs.target? id with
    | none =>
      rw [h] at htarget
      rw [Forwards.call_undefined _ htarget, Forwards.call_undefined _ h]
      exact (agreement limit opened (by omega)).raise _
    | some body =>
      rw [h] at htarget
      rw [Forwards.call_zero h]
      cases depth with
      | zero =>
        rw [Forwards.call_zero htarget]
        exact (agreement limit opened (by omega)).raise _
      | succ depth =>
        -- one more is opened at once, which is one too many
        intro c hc
        refine ⟨fun hle => ?_, fun _ => rfl⟩
        rw [Forwards.call_succ htarget] at hle
        obtain ⟨rest, hrest⟩ : ∃ rest, (((body.traced name).matcher rounds
            ((fs.watched name).call rounds depth)).run c).trace =
              ⟨name, .entered, c.position⟩ :: rest := ⟨_, rfl⟩
        have hnonneg := openPeak_nonneg rest
        simp only at hle
        rw [hrest] at hle
        simp only [openPeak, Record.change, if_true] at hle
        omega
  | succ depth' ih =>
    intro depth opened hle hlimit id hid
    obtain ⟨depth, rfl⟩ : ∃ k, depth = k + 1 := ⟨depth - 1, by omega⟩
    have htarget := fs.target?_watched name id
    cases h : fs.target? id with
    | none =>
      rw [h] at htarget
      rw [Forwards.call_undefined _ htarget, Forwards.call_undefined _ h]
      exact (agreement limit opened (by omega)).raise _
    | some body =>
      rw [h] at htarget
      rw [Forwards.call_succ htarget, Forwards.call_succ h]
      exact traced name ((agreement limit (opened + 1) (by omega)).matcher
        (ih (by omega) (by omega)) (Agreement.Rounds.refl rounds) body (hfs id body hid h))

end Limits

/-- The depth decides between the whole run and one that is cut short, and what it is
measured against is the number of forwards open at once. -/
theorem Parser.run_of_depth {fs : Forwards} {p : Parser} {Id : Nat → Prop}
    (hfs : fs.Closed (fun _ => True) (fun _ => False) Id)
    (hp : p.MadeOf (fun _ => True) (fun _ => False) Id) (name : String) {depth depth' : Nat}
    (hle : depth' ≤ depth) (rounds : Nat) {c : Cursor} (hc : 0 ≤ c.position) :
    (openPeak (p.run (fs.watched name) ⟨depth, rounds⟩ c).trace ≤ depth' →
      (p.run fs ⟨depth', rounds⟩ c).exit = (p.run (fs.watched name) ⟨depth, rounds⟩ c).exit) ∧
    (depth' < openPeak (p.run (fs.watched name) ⟨depth, rounds⟩ c).trace →
      (p.run fs ⟨depth', rounds⟩ c).exit = .error .tooDeep) := by
  have hlimits := (Limits.agreement depth' 0 (Nat.zero_le _)).matcher
    (Limits.call hfs name rounds depth' hle (Nat.zero_add _))
    (Agreement.Rounds.refl rounds) p hp
  obtain ⟨hwithin, hpast⟩ := hlimits c hc
  rw [Int.natCast_zero, Int.zero_add] at hwithin hpast
  exact ⟨fun hle => (hwithin hle).1.eq_of_shifted_zero.symm, hpast⟩

/-- A run that ends with a reply ends with it under watch too, and opens no more than
its depth. -/
theorem Parser.run_watched_of_ok {fs : Forwards} {p : Parser} {Id : Nat → Prop}
    (hfs : fs.Closed (fun _ => True) (fun _ => False) Id)
    (hp : p.MadeOf (fun _ => True) (fun _ => False) Id) (name : String) {depth depth' : Nat}
    (hle : depth' ≤ depth) {rounds : Nat} {c : Cursor} (hc : 0 ≤ c.position) {reply : Reply}
    (h : (p.run fs ⟨depth', rounds⟩ c).exit = .ok reply) :
    (p.run (fs.watched name) ⟨depth, rounds⟩ c).exit = .ok reply ∧
      openPeak (p.run (fs.watched name) ⟨depth, rounds⟩ c).trace ≤ depth' := by
  obtain ⟨hwithin, hpast⟩ := run_of_depth hfs hp name hle rounds hc
  by_cases hopen : openPeak (p.run (fs.watched name) ⟨depth, rounds⟩ c).trace ≤ depth'
  · exact ⟨by rw [← hwithin hopen, h], hopen⟩
  · rw [hpast (by omega)] at h
    cases h

/-- The depth at which a run begins to end with its reply is the largest number of
forwards that it has open at once; with less it is cut short. -/
theorem Parser.exit_of_depth {fs : Forwards} {p : Parser} {Id : Nat → Prop}
    (hfs : ∀ Name, fs.Closed (fun _ => True) Name Id)
    (hp : ∀ Name, p.MadeOf (fun _ => True) Name Id) (name : String) {free rounds : Nat} {c : Cursor}
    (hc : 0 ≤ c.position) {reply : Reply} (h : (p.run fs ⟨free, rounds⟩ c).exit = .ok reply)
    (depth : Nat) :
    (p.run fs ⟨depth, rounds⟩ c).exit =
      if (openPeak (p.run (fs.watched name) ⟨free, rounds⟩ c).trace).toNat ≤ depth then .ok reply
      else .error .tooDeep := by
  obtain ⟨hexit, hpeak⟩ := run_watched_of_ok (hfs _) (hp _) name (Nat.le_refl free) hc h
  by_cases hdepth : depth ≤ free
  · obtain ⟨hwithin, hpast⟩ := run_of_depth (hfs _) (hp _) name hdepth rounds hc
    split
    · rw [hwithin (by omega), hexit]
    · exact hpast (by omega)
  · have hsame : p.run fs ⟨depth, rounds⟩ c = p.run fs ⟨free, rounds⟩ c :=
      run_eq_of_not_exhausted (Nat.le_of_not_le hdepth) (Nat.le_refl rounds)
        (Outcome.not_exhausted_of_ok h)
    rw [if_pos (by omega), hsame, h]

end Parlance
