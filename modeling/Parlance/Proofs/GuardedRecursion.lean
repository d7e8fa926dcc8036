import Mathlib.Data.Fintype.Card
import Mathlib.Data.Fintype.EquivFin
import Mathlib.Logic.Relation
import Parlance.Proofs.Settling

/-! # Guarded recursion

A grammar recurses through its forwards, and nothing in a run bounds that recursion but
the text. A part of a parser is in head position if it can run before the parser has
consumed anything (`HeadPart`). If no forward comes back to itself through head positions
alone, then between two entries of it something is consumed, and every run settles: by
induction on what is left of the text, and at one place in the text along the head
positions, which lead nowhere for ever because the forwards are finitely many. Loops need
no induction of their own at a place: a repetition gives up if its body has consumed
nothing, and of the separator and the operand of a chain one has to consume. -/
namespace Parlance.Parser

/-! ## Head positions -/

/-- The parts that may run where the parser starts. -/
def atStart : Parser → List Parser
  | replace p _ | map p _ | withDefault p _ | filter p _ | atLeast p _ | many p | manyChars p
  | traced p _ => [p]
  | butNot p q | orElse p q | branch _ p q => [p, q]
  | _ => []

/-- The parts that run one behind the other, in this order. -/
def inOrder : Parser → List Parser
  | seqLeft p q | seqRight p q | pair p q | chainl p q _ => [p, q]
  | enclosed p opening closing => [opening, p, closing]
  | triple p q t => [p, q, t]
  | _ => []

/-- The part can run before the parser has consumed anything: at its start, or behind parts
that may succeed without consuming. -/
inductive HeadPart (fs : Forwards) : Parser → Parser → Prop
  | definition {id : Nat} {body : Parser} (h : fs.target? id = some body) :
    HeadPart fs (forward id) body
  | start {p q : Parser} (h : q ∈ p.atStart) : HeadPart fs p q
  | behind {p q : Parser} (before : List Parser) {after : List Parser}
    (h : p.inOrder = before ++ q :: after) (hstays : ∀ r ∈ before, r.Stays fs) : HeadPart fs p q

/-- The parser is put together from primitives and combinators and holds forwards of the
family only; its callbacks are harmless, and of the separator and the operand of a chain
one consumes. -/
def WellBuilt (fs : Forwards) (Id : Nat → Prop) : Parser → Prop
  | primitive leaf => leaf.Tame
  | native _ => False
  | forward id => Id id
  | map p f => Harmless f ∧ p.WellBuilt fs Id
  | filter p accepts => Harmless accepts ∧ p.WellBuilt fs Id
  | replace p _ | withDefault p _ | atLeast p _ | many p | manyChars p | traced p _ =>
    p.WellBuilt fs Id
  | butNot p q | seqLeft p q | seqRight p q | pair p q | orElse p q | branch _ p q =>
    p.WellBuilt fs Id ∧ q.WellBuilt fs Id
  | enclosed p q t | triple p q t =>
    p.WellBuilt fs Id ∧ q.WellBuilt fs Id ∧ t.WellBuilt fs Id
  | chainl p separator f =>
    (∀ v w, Harmless (f v w)) ∧ (¬ p.Stays fs ∨ ¬ separator.Stays fs) ∧
      p.WellBuilt fs Id ∧ separator.WellBuilt fs Id

/-- The forwards of the family are defined, if at all, by such parsers. -/
def Family (fs : Forwards) (Id : Nat → Prop) : Prop :=
  ∀ id body, Id id → fs.target? id = some body → body.WellBuilt fs Id

section Parts

variable {fs : Forwards} {Id : Nat → Prop} {p q : Parser}

theorem WellBuilt.madeOf (h : p.WellBuilt fs Id) :
    p.MadeOf (fun _ => True) (fun _ => True) Id := by
  induction p <;> simp_all [WellBuilt, MadeOf, MadeWith]

theorem Family.closed (h : Family fs Id) : fs.Closed (fun _ => True) (fun _ => True) Id :=
  fun id body hid hbody => (h id body hid hbody).madeOf

theorem WellBuilt.atStart (h : p.WellBuilt fs Id) (hq : q ∈ p.atStart) : q.WellBuilt fs Id := by
  cases p with
  | replace | withDefault | atLeast | many | manyChars | traced =>
    rw [List.mem_singleton.mp hq]
    exact h
  | map | filter =>
    rw [List.mem_singleton.mp hq]
    exact h.2
  | butNot | orElse | branch =>
    rcases List.mem_pair.mp hq with rfl | rfl
    · exact h.1
    · exact h.2
  | _ => cases hq

theorem WellBuilt.inOrder (h : p.WellBuilt fs Id) (hq : q ∈ p.inOrder) : q.WellBuilt fs Id := by
  cases p with
  | seqLeft | seqRight | pair =>
    rcases List.mem_pair.mp hq with rfl | rfl
    · exact h.1
    · exact h.2
  | chainl =>
    rcases List.mem_pair.mp hq with rfl | rfl
    · exact h.2.2.1
    · exact h.2.2.2
  | enclosed =>
    rcases List.mem_cons.mp hq with rfl | hq
    · exact h.2.1
    · rcases List.mem_pair.mp hq with rfl | rfl
      · exact h.1
      · exact h.2.2
  | triple =>
    rcases List.mem_cons.mp hq with rfl | hq
    · exact h.1
    · rcases List.mem_pair.mp hq with rfl | rfl
      · exact h.2.1
      · exact h.2.2
  | _ => cases hq

theorem HeadPart.target {id : Nat} (h : HeadPart fs (forward id) q) : fs.target? id = some q := by
  cases h with
  | definition hbody => exact hbody
  | start hq => cases hq
  | behind _ horder _ => simp [Parser.inOrder] at horder

theorem HeadPart.wellBuilt (hfs : Family fs Id) (h : HeadPart fs p q) (hp : p.WellBuilt fs Id) :
    q.WellBuilt fs Id := by
  cases h with
  | definition hbody => exact hfs _ q hp hbody
  | start hq => exact hp.atStart hq
  | behind _ horder _ => exact hp.inOrder (by rw [horder]; simp)

/-- Head positions lead to smaller parsers, but for those of forwards. -/
theorem HeadPart.sizeOf_lt (h : HeadPart fs p q) (hp : ∀ id, p ≠ forward id) :
    sizeOf q < sizeOf p := by
  have hpart : q ∈ p.atStart ∨ q ∈ p.inOrder := by
    cases h with
    | definition _ => exact absurd rfl (hp _)
    | start hq => exact .inl hq
    | behind _ horder _ => exact .inr (by rw [horder]; simp)
  cases p with
  | primitive | native | forward => simp [Parser.atStart, Parser.inOrder] at hpart
  | replace | map | withDefault | filter | atLeast | many | manyChars | traced =>
    simp only [Parser.atStart, Parser.inOrder, List.mem_singleton, List.not_mem_nil, or_false] at hpart
    subst hpart
    simp +arith
  | butNot | orElse | branch | seqLeft | seqRight | pair | chainl =>
    simp only [Parser.atStart, Parser.inOrder, List.mem_pair, List.not_mem_nil, or_false,
      false_or] at hpart
    rcases hpart with rfl | rfl <;> simp +arith
  | enclosed | triple =>
    simp only [Parser.atStart, Parser.inOrder, List.mem_cons, List.not_mem_nil, false_or,
      or_false] at hpart
    rcases hpart with rfl | rfl | rfl <;> simp +arith

end Parts

/-! ## Chains of head positions end -/

section Chains

variable {fs : Forwards} {Id : Nat → Prop} {p : Parser}

/-- No chain of head positions from here goes on for ever. -/
def HeadEnds (fs : Forwards) (p : Parser) : Prop := Acc (fun q p => HeadPart fs p q) p

/-- It is enough that none does from the forwards that it comes to. -/
theorem headEnds_of_forwards
    (h : ∀ id, Relation.ReflTransGen (HeadPart fs) p (forward id) → HeadEnds fs (forward id)) :
    HeadEnds fs p := by
  induction hn : sizeOf p using Nat.strongRecOn generalizing p with
  | ind n ih =>
    subst hn
    by_cases hforward : ∃ id, p = forward id
    · obtain ⟨id, rfl⟩ := hforward
      exact h id .refl
    · refine Acc.intro p fun q hq => ?_
      have hsmaller := hq.sizeOf_lt fun id hp => hforward ⟨id, hp⟩
      exact ih _ hsmaller (fun id hreach => h id (.head hq hreach)) rfl

theorem headEnds_of_undefined {id : Nat} (h : fs.target? id = none) : HeadEnds fs (forward id) := by
  refine Acc.intro _ fun q hq => ?_
  have htarget := hq.target
  rw [h] at htarget
  cases htarget

theorem wellBuilt_of_reaches (hfs : Family fs Id) {q : Parser} (hp : p.WellBuilt fs Id)
    (h : Relation.ReflTransGen (HeadPart fs) p q) : q.WellBuilt fs Id := by
  induction h with
  | refl => exact hp
  | tail _ hpart ih => exact hpart.wellBuilt hfs ih

/-- Forwards that do not come back to themselves come to fewer and fewer of the forwards of
the table. -/
theorem headEnds_forward (hfs : Family fs Id)
    (hacyclic : ∀ id, Id id → ¬ Relation.TransGen (HeadPart fs) (forward id) (forward id))
    (i : { i : Fin fs.slots.size // Id i }) : HeadEnds fs (forward i.1) := by
  have hwf : WellFounded fun j i : { i : Fin fs.slots.size // Id i } =>
      Relation.TransGen (HeadPart fs) (forward i.1) (forward j.1) := by
    have : IsTrans { i : Fin fs.slots.size // Id i } fun j i =>
        Relation.TransGen (HeadPart fs) (forward i.1) (forward j.1) := ⟨fun _ _ _ h h' => h'.trans h⟩
    have : Std.Irrefl fun j i : { i : Fin fs.slots.size // Id i } =>
        Relation.TransGen (HeadPart fs) (forward i.1) (forward j.1) := ⟨fun i => hacyclic i.1 i.2⟩
    exact Finite.wellFounded_of_trans_of_irrefl _
  induction i using hwf.induction with
  | _ i ih =>
    refine Acc.intro _ fun body hbody => headEnds_of_forwards fun id hreach => ?_
    have hid : Id id := wellBuilt_of_reaches hfs (hbody.wellBuilt hfs i.2) hreach
    by_cases hcreated : id < fs.slots.size
    · exact ih ⟨⟨id, hcreated⟩, hid⟩ (Relation.TransGen.head' hbody hreach)
    · exact headEnds_of_undefined (by simp [Forwards.target?, hcreated])

theorem WellBuilt.headEnds (hfs : Family fs Id)
    (hacyclic : ∀ id, Id id → ¬ Relation.TransGen (HeadPart fs) (forward id) (forward id))
    (hp : p.WellBuilt fs Id) : HeadEnds fs p := by
  refine headEnds_of_forwards fun id hreach => ?_
  have hid : Id id := wellBuilt_of_reaches hfs hp hreach
  by_cases hcreated : id < fs.slots.size
  · exact headEnds_forward hfs hacyclic ⟨⟨id, hcreated⟩, hid⟩
  · exact headEnds_of_undefined (by simp [Forwards.target?, hcreated])

end Chains

/-! ## Runs settle -/

section Runs

variable {fs : Forwards} {Id : Nat → Prop} {p q t : Parser} {c c' : Cursor}

def meaning (p : Parser) (fs : Forwards) (budget : Budget) : Matcher :=
  p.matcher budget.rounds (fs.call budget.rounds budget.depth)

theorem reaches_of_returns (hfs : Family fs Id) (hp : p.WellBuilt fs Id) {b : Budget} {r : Reply}
    (h : (p.meaning fs b).Returns c r c') : c.Reaches c' := by
  have hreach := reaches_run hfs.closed hp.madeOf b c
  have hcursor : (p.run fs b c).cursor = c' := h.2
  rwa [hcursor] at hreach

theorem stays_of_returns {b : Budget} {r : Reply} (h : (p.meaning fs b).Returns c r c')
    (hsuccess : r.success = true) (hposition : c'.position = c.position) : p.Stays fs := by
  have hcursor : (p.run fs b c).cursor = c' := h.2
  exact ⟨b, c, r, h.1, hsuccess, by rw [hcursor, hposition]⟩

/-- A forward opens a level of depth for its definition. -/
theorem settles_forward {id : Nat} (h : ∀ body, fs.target? id = some body → Settles (body.meaning fs) c) :
    Settles ((forward id).meaning fs) c := by
  cases htarget : fs.target? id with
  | none =>
    have hraises : (forward id).meaning fs = fun _ => Action.raise (.grammar .undefined) := by
      funext b
      exact Forwards.call_undefined b.depth htarget
    rw [hraises]
    exact Settles.raise (Fault.not_cutsShort nofun nofun)
  | some body =>
    obtain ⟨b, hrun, hsame⟩ := h body htarget
    refine Settles.of_le ⟨b.depth + 1, b.rounds⟩ hrun ?_
    rintro ⟨depth, rounds⟩ ⟨hdepth, hrounds⟩
    obtain ⟨k, rfl⟩ : ∃ k, depth = k + 1 := ⟨depth - 1, by dsimp only at hdepth; omega⟩
    have hcall : (forward id).meaning fs ⟨k + 1, rounds⟩ = body.meaning fs ⟨k, rounds⟩ :=
      Forwards.call_succ htarget
    have hle : b ≤ ⟨k, rounds⟩ := ⟨Nat.le_of_succ_le_succ hdepth, hrounds⟩
    rw [hcall, hsame _ hle]

/-- Well-built parsers settle at places that a run from `c` may come to, before it has
consumed anything only if they are in head position of `p`. -/
def PartsSettle (fs : Forwards) (Id : Nat → Prop) (p : Parser) (c : Cursor) : Prop :=
  ∀ q c', q.WellBuilt fs Id → c.Reaches c' → (c'.position = c.position → HeadPart fs p q) →
    Settles (q.meaning fs) c'

namespace PartsSettle

theorem start (h : PartsSettle fs Id p c) (hp : p.WellBuilt fs Id) (hq : q ∈ p.atStart)
    (hc : c.Reaches c') : Settles (q.meaning fs) c' :=
  h q c' (hp.atStart hq) hc fun _ => .start hq

/-- A part behind others runs farther on, or all of them may stay. -/
theorem behind (h : PartsSettle fs Id p c) (hp : p.WellBuilt fs Id) (before : List Parser)
    {after : List Parser} (horder : p.inOrder = before ++ q :: after) (hc : c.Reaches c')
    (hstays : c'.position = c.position → ∀ r ∈ before, r.Stays fs) : Settles (q.meaning fs) c' :=
  h q c' (hp.inOrder (by rw [horder]; simp)) hc fun hposition =>
    .behind before horder (hstays hposition)

theorem first {rest : List Parser} (h : PartsSettle fs Id p c) (hp : p.WellBuilt fs Id)
    (horder : p.inOrder = q :: rest) (hc : c.Reaches c') : Settles (q.meaning fs) c' :=
  h.behind hp [] horder hc fun _ _ hr => by cases hr

/-- The second part, behind a success of the first. -/
theorem second {rest : List Parser} (hfs : Family fs Id) (h : PartsSettle fs Id p c)
    (hp : p.WellBuilt fs Id) (horder : p.inOrder = t :: q :: rest) {b : Budget} {r : Reply}
    (hr : (t.meaning fs b).Returns c r c') (hsuccess : r.success = true) :
    Settles (q.meaning fs) c' := by
  have ht : t.WellBuilt fs Id := hp.inOrder (by rw [horder]; simp)
  refine h.behind hp [t] horder (reaches_of_returns hfs ht hr) fun hposition t' ht' => ?_
  rw [List.mem_singleton.mp ht']
  exact stays_of_returns hr hsuccess hposition

/-- The third part, behind successes of the first two. If nothing has been consumed in the
end, neither of them has. -/
theorem third {u : Parser} {c'' : Cursor} (hfs : Family fs Id) (h : PartsSettle fs Id p c)
    (hp : p.WellBuilt fs Id) (horder : p.inOrder = [t, u, q]) {b b' : Budget} {r s : Reply}
    (hr : (t.meaning fs b).Returns c r c') (hsuccess : r.success = true)
    (hs : (u.meaning fs b').Returns c' s c'') (hsuccess' : s.success = true) :
    Settles (q.meaning fs) c'' := by
  have ht : t.WellBuilt fs Id := hp.inOrder (by rw [horder]; simp)
  have hu : u.WellBuilt fs Id := hp.inOrder (by rw [horder]; simp)
  have hc' := reaches_of_returns hfs ht hr
  have hc'' := reaches_of_returns hfs hu hs
  refine h.behind hp [t, u] horder (hc'.trans hc'') fun hposition t' ht' => ?_
  have hlower := hc'.lower
  have hlower' := hc''.lower
  rcases List.mem_pair.mp ht' with rfl | rfl
  · exact stays_of_returns hr hsuccess (by omega)
  · exact stays_of_returns hs hsuccess' (by omega)

end PartsSettle

/-- A chain of which the separator or the operand consumes. -/
theorem settles_chainl {f : Value → Value → Value → Except Fault Value} (hfs : Family fs Id)
    (hp : (p.chainl q f).WellBuilt fs Id) (hparts : PartsSettle fs Id (p.chainl q f) c) :
    Settles ((p.chainl q f).meaning fs) c := by
  obtain ⟨hf, hconsumes, hoperand, hseparator⟩ := id hp
  refine Settles.first (hparts.first hp rfl (Cursor.reaches_self c)) fun b r c₁ hr hsuccess =>
    Settles.marked ?_
  have hc₁ := reaches_of_returns hfs hoperand hr
  refine Settles.chainFrom hf c₁.Reaches (fun c' hc' => ?_)
    (fun b c' s d hc' hs _ => ?_) ?_ 0 r.value c₁.mark (Cursor.reaches_self c₁)
  · -- a separator at the start of the chain is one behind an operand that has stayed
    refine hparts.behind hp [p] rfl (hc₁.trans hc') fun hposition t ht => ?_
    rw [List.mem_singleton.mp ht]
    have hlower := hc₁.lower
    have hlower' := hc'.lower
    exact stays_of_returns hr hsuccess (by omega)
  · exact hparts.first hp rfl (hc₁.trans (hc'.trans (reaches_of_returns hfs hseparator hs)))
  · intro b b' c' s d r' e hc' hs hsuccess' hr' hsuccess''
    have hd := reaches_of_returns hfs hseparator hs
    have he := reaches_of_returns hfs hoperand hr'
    refine ⟨hc'.trans (hd.trans he), (hd.trans he).remaining_lt fun hposition => ?_⟩
    have hlower := hd.lower
    have hlower' := he.lower
    rcases hconsumes with hmoves | hmoves
    · exact hmoves (stays_of_returns hr' hsuccess'' (by omega))
    · exact hmoves (stays_of_returns hs hsuccess' (by omega))

/-- One combinator: a parser settles if its parts do wherever it may come to them. -/
theorem settles_of_parts (hfs : Family fs Id) (hp : p.WellBuilt fs Id)
    (hparts : PartsSettle fs Id p c) : Settles (p.meaning fs) c := by
  have hstart := Cursor.reaches_self c
  cases p with
  | primitive leaf =>
    refine Settles.of_run fun hexhausted => ?_
    obtain ⟨fault, hcut, hexit⟩ := Outcome.exhausted_iff.mp hexhausted
    exact (leaf.ends c).fault fault hexit hp hcut
  | native run => exact hp.elim
  | forward id =>
    exact settles_forward fun body hbody =>
      hparts body c (hfs id body hp hbody) hstart fun _ => .definition hbody
  | replace p v => exact Settles.replace (hparts.start hp (.head _) hstart) v
  | map p f => exact Settles.map (hparts.start hp (.head _) hstart) hp.1
  | withDefault p default => exact Settles.withDefault (hparts.start hp (.head _) hstart) default
  | filter p accepts => exact Settles.filter (hparts.start hp (.head _) hstart) hp.1
  | atLeast p n => exact Settles.atLeast (hparts.start hp (.head _) hstart) n
  | traced p name => exact Settles.traced (hparts.start hp (.head _) hstart) name
  | many p =>
    have hbody : p.WellBuilt fs Id := hp
    exact Settles.many c.Reaches (fun _ hc => hparts.start hp (.head _) hc)
      (Settles.next_of_reaches fun _ _ _ _ => reaches_of_returns hfs hbody) hstart
  | manyChars p =>
    have hbody : p.WellBuilt fs Id := hp
    exact Settles.manyChars c.Reaches (fun _ hc => hparts.start hp (.head _) hc)
      (Settles.next_of_reaches fun _ _ _ _ => reaches_of_returns hfs hbody) hstart
  | butNot p q =>
    exact Settles.butNot (hparts.start hp (.tail _ (.head _)) hstart) fun _ _ _ hr =>
      hparts.start hp (.head _) (reaches_of_returns hfs hp.2 hr)
  | orElse p q =>
    exact Settles.orElse (hparts.start hp (.head _) hstart) fun _ _ _ hr =>
      hparts.start hp (.tail _ (.head _)) (reaches_of_returns hfs hp.1 hr)
  | branch chars p q =>
    exact Settles.branch chars (hparts.start hp (.head _) hstart)
      (hparts.start hp (.tail _ (.head _)) hstart)
  | seqLeft p q | seqRight p q | pair p q =>
    exact Settles.two (hparts.first hp rfl hstart) fun _ _ _ hr hsuccess =>
      hparts.second hfs hp rfl hr hsuccess
  | enclosed p q t | triple p q t =>
    exact Settles.three (hparts.first hp rfl hstart) fun _ _ _ hr hsuccess =>
      ⟨hparts.second hfs hp rfl hr hsuccess, fun _ _ _ hs hsuccess' =>
        hparts.third hfs hp rfl hr hsuccess hs hsuccess'⟩
  | chainl p q f => exact settles_chainl hfs hp hparts

/-- Every run settles. The outer induction is on what is left of the text, the inner one
along head positions, at all cursors that have as much left. -/
theorem settles (hfs : Family fs Id)
    (hacyclic : ∀ id, Id id → ¬ Relation.TransGen (HeadPart fs) (forward id) (forward id))
    (hp : p.WellBuilt fs Id) (c : Cursor) : Settles (p.meaning fs) c := by
  induction hn : c.remaining using Nat.strongRecOn generalizing c p with
  | ind n ihText =>
    have hends := hp.headEnds hfs hacyclic
    induction hends generalizing c with
    | intro p _ ihHead =>
      refine settles_of_parts hfs hp fun q c' hq hc' hhead => ?_
      by_cases hposition : c'.position = c.position
      · exact ihHead q (hhead hposition) hq c' ((hc'.remaining_eq hposition).trans hn)
      · exact ihText _ (hn ▸ hc'.remaining_lt hposition) hq c' rfl

end Runs

/-! ## Head positions found in the parsers -/

section Static

variable {fs : Forwards} {Id : Nat → Prop} {stay : Nat → Bool} {p q : Parser}

/-- The forwards in head position, if forwards may succeed without consuming as `stay`
says. -/
def headForwards (stay : Nat → Bool) : Parser → List Nat
  | primitive _ | native _ => []
  | forward id => [id]
  | replace p _ | map p _ | withDefault p _ | filter p _ | atLeast p _ | many p | manyChars p
  | traced p _ => p.headForwards stay
  | butNot p q | orElse p q | branch _ p q => p.headForwards stay ++ q.headForwards stay
  | seqLeft p q | seqRight p q | pair p q | chainl p q _ =>
    p.headForwards stay ++ if p.mayStay stay then q.headForwards stay else []
  | enclosed p q t =>
    q.headForwards stay ++ if q.mayStay stay then
      p.headForwards stay ++ if p.mayStay stay then t.headForwards stay else []
    else []
  | triple p q t =>
    p.headForwards stay ++ if p.mayStay stay then
      q.headForwards stay ++ if q.mayStay stay then t.headForwards stay else []
    else []

def headForwardsOf (stay : Nat → Bool) : List Parser → List Nat
  | [] => []
  | p :: rest => p.headForwards stay ++ if p.mayStay stay then headForwardsOf stay rest else []

theorem headForwards_of_inOrder (h : p.inOrder ≠ []) :
    p.headForwards stay = headForwardsOf stay p.inOrder := by
  cases p with
  | seqLeft | seqRight | pair | chainl | enclosed | triple =>
    simp [headForwards, headForwardsOf, inOrder]
  | _ => exact absurd rfl h

theorem subset_headForwardsOf {before : List Parser} (after : List Parser)
    (h : ∀ r ∈ before, r.mayStay stay = true) :
    q.headForwards stay ⊆ headForwardsOf stay (before ++ q :: after) := by
  induction before with
  | nil => exact List.subset_append_left _ _
  | cons r before ih =>
    have hrest := ih fun r' hr' => h r' (List.mem_cons_of_mem r hr')
    rw [List.cons_append, headForwardsOf, if_pos (h r (List.mem_cons_self ..))]
    exact List.subset_append_of_subset_right _ hrest

/-- A part in head position has no others there than the parser. -/
theorem HeadPart.headForwards_subset (h : HeadPart fs p q) (hp : ∀ id, p ≠ forward id)
    (hstay : ∀ r ∈ p.inOrder, r.Stays fs → r.mayStay stay = true) :
    q.headForwards stay ⊆ p.headForwards stay := by
  cases h with
  | definition _ => exact absurd rfl (hp _)
  | start hq =>
    cases p with
    | replace | map | withDefault | filter | atLeast | many | manyChars | traced =>
      rw [List.mem_singleton.mp hq]
      exact List.Subset.refl _
    | butNot | orElse | branch =>
      rcases List.mem_pair.mp hq with rfl | rfl
      · exact List.subset_append_left _ _
      · exact List.subset_append_right _ _
    | _ => cases hq
  | behind before horder hstays =>
    have hparts : p.inOrder ≠ [] := by rw [horder]; simp
    rw [headForwards_of_inOrder hparts, horder]
    refine subset_headForwardsOf _ fun r hr => hstay r ?_ (hstays r hr)
    rw [horder]
    exact List.mem_append_left _ hr

/-- Ranks only go down along head positions, if each forward ranks above those that its
definition has there. -/
theorem HeadPart.rank_lt (hfs : Family fs Id) (hbound : StayBound fs stay Id) {rank : Nat → Nat}
    (hrank : ∀ id body, Id id → fs.target? id = some body →
      ∀ id' ∈ body.headForwards stay, rank id' < rank id) {n : Nat} (h : HeadPart fs p q)
    (hp : p.WellBuilt fs Id) (hbelow : ∀ id ∈ p.headForwards stay, rank id < n) :
    ∀ id ∈ q.headForwards stay, rank id < n := by
  intro id hid
  by_cases hforward : ∃ id', p = forward id'
  · obtain ⟨id', rfl⟩ := hforward
    have hlower := hrank id' q hp h.target id hid
    exact Nat.lt_trans hlower (hbelow id' (List.mem_singleton_self id'))
  · refine hbelow id (h.headForwards_subset (fun id' hp' => hforward ⟨id', hp'⟩) ?_ hid)
    intro r hr hstays
    by_contra hmoves
    rw [Bool.not_eq_true] at hmoves
    exact not_stays hfs.closed hbound (hp.inOrder hr).madeOf hmoves hstays

/-- A forward that came back to itself would rank below itself. -/
theorem acyclic_of_rank (hfs : Family fs Id) (hbound : StayBound fs stay Id) (rank : Nat → Nat)
    (hrank : ∀ id body, Id id → fs.target? id = some body →
      ∀ id' ∈ body.headForwards stay, rank id' < rank id) {id : Nat} (hid : Id id) :
    ¬ Relation.TransGen (HeadPart fs) (forward id) (forward id) := by
  have hlower : ∀ q, Relation.TransGen (HeadPart fs) (forward id) q →
      q.WellBuilt fs Id ∧ ∀ id' ∈ q.headForwards stay, rank id' < rank id := by
    intro q hreach
    induction hreach with
    | single hpart => exact ⟨hpart.wellBuilt hfs hid, hrank id _ hid hpart.target⟩
    | tail _ hpart ih =>
      exact ⟨hpart.wellBuilt hfs ih.1, hpart.rank_lt hfs hbound hrank ih.1 ih.2⟩
  intro hcycle
  exact Nat.lt_irrefl _ ((hlower _ hcycle).2 id (List.mem_singleton_self id))

end Static

/-- A parser whose forwards do not come back to themselves through head positions, and
whose chains consume, ends from every cursor under some budget, not cut short by it, and
every larger budget gives the same run. -/
theorem guarded_recursion_ends (fs : Forwards) (Id : Nat → Prop) (hfs : Family fs Id)
    (hacyclic : ∀ id, Id id → ¬ Relation.TransGen (HeadPart fs) (forward id) (forward id))
    (p : Parser) (hp : p.WellBuilt fs Id) (c : Cursor) :
    ∃ budget : Budget, ¬ (p.run fs budget c).Exhausted ∧
      ∀ budget' : Budget, budget.depth ≤ budget'.depth → budget.rounds ≤ budget'.rounds →
        p.run fs budget' c = p.run fs budget c := by
  obtain ⟨budget, hrun, hsame⟩ := settles hfs hacyclic hp c
  exact ⟨budget, hrun, fun budget' hdepth hrounds => hsame budget' ⟨hdepth, hrounds⟩⟩

/-- A value is a number or items in brackets, and items are values with commas between
them, if there are any: either holds the other, but a value only behind its bracket. -/
theorem guarded_recursion_ends_mutual :
    let digit := satisfy fun code _ => CodePoint.isDigit code
    let value := ((forward 1).enclosed (literal "[") (literal "]")).orElse (digit.manyChars.atLeast 1)
    let items := ((forward 0).chainl (literal ",") fun left _ right =>
      .ok (.tuple [left, right])).withDefault (.list [])
    let fs : Forwards := ⟨#[some value, some items]⟩
    Family fs (· < 2) ∧
      (∀ id < 2, ¬ Relation.TransGen (HeadPart fs) (forward id) (forward id)) ∧
      (forward 1).WellBuilt fs (· < 2) ∧
      ∃ budget : Budget, ¬ ((forward 1).run fs budget (.ofText "[1,[2]],")).Exhausted ∧
        ∀ budget' : Budget, budget.depth ≤ budget'.depth → budget.rounds ≤ budget'.rounds →
          (forward 1).run fs budget' (.ofText "[1,[2]],") =
            (forward 1).run fs budget (.ofText "[1,[2]],") := by
  intro digit value items fs
  have hzero : 0 < 2 := by decide
  have hone : 1 < 2 := by decide
  have htable : ∀ id body, fs.target? id = some body → id = 0 ∧ body = value ∨ id = 1 ∧ body = items := by
    intro id body h
    match id with
    | 0 => cases h; exact .inl ⟨rfl, rfl⟩
    | 1 => cases h; exact .inr ⟨rfl, rfl⟩
    | id + 2 => cases h
  have hclosed : fs.Closed (fun _ => True) (fun _ => True) (· < 2) := by
    intro id body _ h
    rcases htable id body h with ⟨rfl, rfl⟩ | ⟨rfl, rfl⟩
    · exact ⟨⟨hone, trivial, trivial⟩, trivial⟩
    · exact ⟨hzero, trivial⟩
  -- items may be none at all, but a value consumes
  let stay : Nat → Bool := fun id => id = 1
  have hbound : StayBound fs stay (· < 2) := by
    intro id body _ h hmoves
    rcases htable id body h with ⟨rfl, rfl⟩ | ⟨rfl, rfl⟩
    · rfl
    · cases hmoves
  have hfs : Family fs (· < 2) := by
    intro id body _ h
    rcases htable id body h with ⟨rfl, rfl⟩ | ⟨rfl, rfl⟩
    · exact ⟨⟨hone, trivial, trivial⟩, fun _ _ _ hfault => by cases hfault⟩
    · refine ⟨fun _ _ _ _ hfault => (by cases hfault), .inr ?_, hzero, trivial⟩
      exact not_stays hclosed hbound trivial rfl
  have hacyclic : ∀ id < 2, ¬ Relation.TransGen (HeadPart fs) (forward id) (forward id) := by
    intro id hid
    refine acyclic_of_rank hfs hbound (fun id => id) ?_ hid
    intro id body _ h id' hid'
    rcases htable id body h with ⟨rfl, rfl⟩ | ⟨rfl, rfl⟩
    · cases hid'
    · rw [List.mem_singleton.mp hid']
      decide
  exact ⟨hfs, hacyclic, hone, guarded_recursion_ends fs (· < 2) hfs hacyclic (forward 1) hone _⟩

end Parlance.Parser
