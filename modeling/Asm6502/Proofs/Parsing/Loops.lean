import Asm6502.Proofs.Parsing.BlockSoundness

/-!
# Loops and their bounds

The loops of the parser (a chain of primaries, a data list, a code block, the
statements of a program) are given by recursion on a bound, which makes them end by
construction.  A bound that cut a loop short would be a flaw, so it has to be shown
that none ever does.

For that each loop is told once more, by what a single round does, and without a
bound: `Rounds` says that round after round the loop comes to its own end.  As each
round passes a token, it does so within as many rounds as tokens are ahead, and what
it ends with is what the bounded recursion computes.

## Main results

* `exists_rounds_of_bounded` — a bound that a measure stays under plays no part.
* `Rounds.invariant`, `Rounds.alike`, `Rounds.follow` — what one loop keeps, and what two
  loops share.
* `sumRest_rounds`, `dataRest_rounds`, `blockItems_rounds` — the loops inside statements.
-/

namespace Asm6502.Parser

open Syntax

/-! ## Rounds -/

section Rounds

variable {σ ρ τ : Type} {round : σ → σ ⊕ ρ} {x y : σ} {r : ρ} {n : Nat}

/-- From `x` on, the loop goes through `n` more rounds and then ends with `r`. -/
inductive Rounds (round : σ → σ ⊕ ρ) : Nat → σ → ρ → Prop where
  | last {x : σ} {r : ρ} (h : round x = .inr r) : Rounds round 0 x r
  | more {n : Nat} {x y : σ} {r : ρ} (h : round x = .inl y) (rest : Rounds round n y r) :
      Rounds round (n + 1) x r

/-- What each round keeps holds where the loop ends. -/
theorem Rounds.invariant (keeps : σ → Prop) (ends : ρ → Prop) (h : Rounds round n x r)
    (hx : keeps x) (hmore : ∀ x y, keeps x → round x = .inl y → keeps y)
    (hlast : ∀ x r, keeps x → round x = .inr r → ends r) : ends r := by
  induction h with
  | last h => exact hlast _ _ hx h
  | more h _ ih => exact ih (hmore _ _ hx h)

/-- Two loops whose rounds go alike end alike. -/
theorem Rounds.alike {x' : σ} {r' : ρ} {n' : Nat} (rel : σ → σ → Prop) (ends : ρ → ρ → Prop)
    (h : Rounds round n x r) (h' : Rounds round n' x' r') (hx : rel x x')
    (hround : ∀ x x', rel x x' → Sum.LiftRel rel ends (round x) (round x')) : ends r r' := by
  induction h generalizing x' n' with
  | last h =>
      have hlift := hround _ _ hx
      rw [h] at hlift
      cases h' with
      | last h' =>
          rw [h'] at hlift
          cases hlift with
          | inr hends => exact hends
      | more h' =>
          rw [h'] at hlift
          cases hlift
  | more h _ ih =>
      have hlift := hround _ _ hx
      rw [h] at hlift
      cases h' with
      | last h' =>
          rw [h'] at hlift
          cases hlift
      | more h' rest' =>
          rw [h'] at hlift
          cases hlift with
          | inl hnext => exact ih rest' hnext

/-- A loop over images goes to the image of the end. -/
theorem Rounds.eq_of_map {r' : ρ} {n' : Nat} {f : σ → σ} {g : ρ → ρ}
    (h : Rounds round n x r) (h' : Rounds round n' (f x) r')
    (hround : ∀ x, round (f x) = (round x).map f g) : r' = g r := by
  refine h.alike (fun x x' => x' = f x) (fun r r' => r' = g r) h' rfl ?_
  rintro x _ rfl
  rw [hround]
  cases round x with
  | inl y => exact .inl rfl
  | inr r => exact .inr rfl

/-- A loop that can follow another one comes to the point where the other one ends. -/
theorem Rounds.follow {x' : σ} {r' : ρ} {n' : Nat} (rel : σ → σ → Prop)
    (h : Rounds round n x r) (h' : Rounds round n' x' r') (hx : rel x x')
    (hround : ∀ x x' y', rel x x' → round x' = .inl y' → ∃ y, round x = .inl y ∧ rel y y') :
    ∃ m y y', Rounds round m y r ∧ rel y y' ∧ round y' = .inr r' := by
  induction h' generalizing x n with
  | last h' => exact ⟨n, x, _, h, hx, h'⟩
  | more h' _ ih =>
      obtain ⟨y, hy, hrel⟩ := hround _ _ _ hx h'
      cases h with
      | last h =>
          rw [h] at hy
          cases hy
      | more h rest =>
          rw [h] at hy
          cases hy
          exact ih rest hrel

/-- Let `run` go through rounds as long as its bound lasts.  If each round lowers a
measure, the bound plays no part as long as the measure is below it. -/
theorem exists_rounds_of_bounded (measure : σ → Nat) (run : List τ → σ → ρ) (keeps : σ → Prop)
    (hnil : ∀ x r, measure x = 0 → round x = .inr r → run [] x = r)
    (hcons : ∀ b bound x, run (b :: bound) x = (round x).elim (run bound) id)
    (hround : ∀ x y, keeps x → round x = .inl y → keeps y ∧ measure y < measure x)
    (bound : List τ) (hx : keeps x) (hbound : measure x ≤ bound.length) :
    ∃ n ≤ measure x, Rounds round n x (run bound x) := by
  induction bound generalizing x with
  | nil =>
      cases h : round x with
      | inl y =>
          have hlt := (hround x y hx h).2
          rw [List.length_nil] at hbound
          omega
      | inr r =>
          rw [hnil x r (Nat.le_zero.1 hbound) h]
          exact ⟨0, Nat.zero_le _, .last h⟩
  | cons b bound ih =>
      rw [hcons]
      cases h : round x with
      | inl y =>
          obtain ⟨hy, hlt⟩ := hround x y hx h
          rw [List.length_cons] at hbound
          obtain ⟨n, hn, hrest⟩ := ih hy (by omega)
          exact ⟨n + 1, by omega, .more h hrest⟩
      | inr r => exact ⟨0, Nat.zero_le _, .last h⟩

end Rounds

variable {s s' : State} {limit : Nat} {E : Parser (Option NodeId)}

/-- The result of a run. -/
abbrev Result (α : Type) := EStateM.Result Failure State α

/-! ## Passing tokens -/

theorem State.Reads.remaining_le {passed : List Token} {reported : List Diagnostic}
    (h : s.Reads s' passed reported) : s'.remaining ≤ s.remaining := by
  have hlength := congrArg List.length h.ahead_eq
  rw [List.length_append] at hlength
  show s'.stream.ahead.length ≤ s.stream.ahead.length
  omega

theorem State.Reads.remaining_lt {passed : List Token} {reported : List Diagnostic}
    (h : s.Reads s' passed reported) (hpassed : passed ≠ []) : s'.remaining < s.remaining := by
  have hlength := congrArg List.length h.ahead_eq
  have hpos := List.length_pos_iff.2 hpassed
  rw [List.length_append] at hlength
  show s'.stream.ahead.length < s.stream.ahead.length
  omega

theorem State.remaining_advance_lt (h : s.current.kind ≠ .eof) :
    s.advance.remaining < s.remaining :=
  (State.reads_advance h).remaining_lt (List.cons_ne_nil _ _)

theorem remaining_le_of_expression (limit levels : Nat) {answer : Option NodeId}
    (h : expression limit levels s = .ok answer s') : s'.remaining ≤ s.remaining := by
  have hends := expression_ends limit levels s
  rw [Ends, h] at hends
  cases answer with
  | none =>
      cases hends
      exact Nat.le_refl _
  | some id =>
      obtain ⟨e, he, _⟩ := hends
      exact he.reads.remaining_le

/-! ## Chains of primaries -/

/-- One link of a chain, behind its part `x.1`. -/
def sumRound (E : Parser (Option NodeId)) (x : NodeId × State) :
    (NodeId × State) ⊕ Result NodeId :=
  match sumOperator? x.2.current.kind with
  | none => .inr (.ok x.1 x.2)
  | some operator =>
    match required (primary E) x.2.current x.2.advance with
    | .ok right s => .inl (s.add (.sum operator x.1 right) (s.tree.line x.1))
    | .error e s => .inr (.error e s)

theorem sumRest_cons (b : Token) (bound : List Token) (x : NodeId × State) :
    sumRest E (b :: bound) x.1 x.2 =
      (sumRound E x).elim (fun y => sumRest E bound y.1 y.2) id := by
  obtain ⟨left, s⟩ := x
  rw [sumRest, sumRound]
  simp only [bind, EStateM.bind, current]
  cases sumOperator? s.current.kind with
  | none => rfl
  | some operator =>
      simp only [EStateM.bind, advance]
      cases required (primary E) s.current s.advance with
      | ok right s' => rfl
      | error e s' => rfl

/-- A link passes its sign at least. -/
theorem remaining_lt_of_sumRound {limit levels : Nat} {x y : NodeId × State}
    (h : sumRound (expression limit levels) x = .inl y) : y.2.remaining < x.2.remaining := by
  unfold sumRound at h
  split at h
  next => cases h
  next operator hoperator =>
    have hadvance := State.remaining_advance_lt (ne_eof_of_eq_some hoperator rfl)
    split at h
    next right s' hright =>
      cases h
      have hends : Ends (required (primary (expression limit levels)) x.2.current) x.2.advance
          (fun _ s' => s'.remaining ≤ x.2.advance.remaining) (fun _ _ => True) := by
        rw [ends_required]
        refine (primary_ends (expression_ends limit levels) x.2.advance).imp ?_ fun _ _ _ => trivial
        intro answer s' ha
        cases answer with
        | none => trivial
        | some id =>
            obtain ⟨e, he, _⟩ := ha
            exact he.reads.remaining_le
      rw [Ends, hright] at hends
      exact Nat.lt_of_le_of_lt hends hadvance
    next => cases h

theorem State.ahead_of_remaining (h : s.remaining = 0) : s.stream.ahead = [] :=
  List.eq_nil_of_length_eq_zero h

/-- A chain ends by itself. -/
theorem sumRest_rounds (limit levels : Nat) {bound : List Token} (left : NodeId)
    (hbound : s.remaining ≤ bound.length) :
    ∃ n ≤ s.remaining, Rounds (sumRound (expression limit levels)) n (left, s)
      (sumRest (expression limit levels) bound left s) := by
  refine exists_rounds_of_bounded (x := (left, s)) (fun x => x.2.remaining)
    (fun bound x => sumRest (expression limit levels) bound x.1 x.2)
    (fun _ => True) ?_ sumRest_cons
    (fun x y _ h => ⟨trivial, remaining_lt_of_sumRound h⟩) bound trivial hbound
  intro x r hnone h
  unfold sumRound at h
  rw [sumOperator?_current_of_nil (State.ahead_of_remaining hnone)] at h
  cases h
  rfl

/-! ## Data lists -/

/-- One comma of a data list and what stands behind it. -/
def dataRound (limit : Nat) (x : List NodeId × State) :
    (List NodeId × State) ⊕ Result (List NodeId) :=
  if x.2.current.kind = .comma then
    match expression limit limit x.2.advance with
    | .ok (some id) s => .inl (id :: x.1, s)
    | .ok none s => .inr (.ok x.1.reverse s)
    | .error e s => .inr (.error e s)
  else .inr (.ok x.1.reverse x.2)

theorem dataRest_cons (b : Token) (bound : List Token) (x : List NodeId × State) :
    dataRest limit (b :: bound) x.1 x.2 =
      (dataRound limit x).elim (fun y => dataRest limit bound y.1 y.2) id := by
  obtain ⟨done, s⟩ := x
  rw [dataRest, dataRound]
  simp only [bind, EStateM.bind, current]
  by_cases hcomma : s.current.kind = .comma
  · rw [if_pos hcomma, if_pos hcomma]
    simp only [EStateM.bind, advance]
    cases expression limit limit s.advance with
    | ok answer s' =>
        cases answer with
        | none => rfl
        | some id => rfl
    | error e s' => rfl
  · rw [if_neg hcomma, if_neg hcomma]
    rfl

/-- A round passes its comma at least. -/
theorem remaining_lt_of_dataRound {x y : List NodeId × State} (h : dataRound limit x = .inl y) :
    y.2.remaining < x.2.remaining := by
  unfold dataRound at h
  split at h
  next hcomma =>
    have hadvance := State.remaining_advance_lt (s := x.2) (by rw [hcomma]; decide)
    split at h
    next id s' hanswer =>
      cases h
      exact Nat.lt_of_le_of_lt (remaining_le_of_expression limit limit hanswer) hadvance
    next => cases h
    next => cases h
  next => cases h

/-- A data list ends by itself. -/
theorem dataRest_rounds (limit : Nat) {bound : List Token} (done : List NodeId)
    (hbound : s.remaining ≤ bound.length) :
    ∃ n ≤ s.remaining, Rounds (dataRound limit) n (done, s) (dataRest limit bound done s) := by
  refine exists_rounds_of_bounded (x := (done, s)) (fun x => x.2.remaining)
    (fun bound x => dataRest limit bound x.1 x.2)
    (fun _ => True) ?_ dataRest_cons
    (fun x y _ h => ⟨trivial, remaining_lt_of_dataRound h⟩) bound trivial hbound
  intro x r hnone h
  have hcurrent : x.2.current.kind ≠ .comma := by
    rw [State.current_of_nil (State.ahead_of_remaining hnone)]
    simp [Token.endAt]
  unfold dataRound at h
  rw [if_neg hcurrent] at h
  cases h
  rfl

/-! ## Code blocks -/

/-- One step through a code block. -/
def blockRound (limit : Nat) (x : List NodeId × State) :
    (List NodeId × State) ⊕ (List NodeId × State) :=
  if endsBlock x.2.stream then .inr (x.1.reverse, x.2)
  else if x.2.current.kind = .directive then .inl (x.1, x.2.skipDirective)
  else match item? limit x.2.current.kind with
    | none => .inl (x.1, x.2.skip .stall)
    | some item =>
      match item x.2 with
      | .ok found s => .inl (found.toList ++ x.1, s)
      | .error e s => .inr (x.1.reverse, s.recover e)

/-- What one step does, case by case. -/
inductive BlockStep (limit : Nat) (x : List NodeId × State) :
    (List NodeId × State) ⊕ (List NodeId × State) → Prop where
  | ends (hends : endsBlock x.2.stream = true) : BlockStep limit x (.inr (x.1.reverse, x.2))
  | directive (hgoes : ¬ endsBlock x.2.stream = true) (hdirective : x.2.current.kind = .directive) :
      BlockStep limit x (.inl (x.1, x.2.skipDirective))
  | stall (hgoes : ¬ endsBlock x.2.stream = true) :
      BlockStep limit x (.inl (x.1, x.2.skip .stall))
  | item {item : Parser (Option NodeId)} {found : Option NodeId} {s : State}
      (hgoes : ¬ endsBlock x.2.stream = true) (hitem : item? limit x.2.current.kind = some item)
      (hrun : item x.2 = .ok found s) : BlockStep limit x (.inl (found.toList ++ x.1, s))
  | failure {item : Parser (Option NodeId)} {e : Failure} {s : State}
      (hgoes : ¬ endsBlock x.2.stream = true) (hitem : item? limit x.2.current.kind = some item)
      (hrun : item x.2 = .error e s) : BlockStep limit x (.inr (x.1.reverse, s.recover e))

theorem blockStep (limit : Nat) (x : List NodeId × State) :
    BlockStep limit x (blockRound limit x) := by
  unfold blockRound
  split_ifs with hends hdirective
  · exact .ends hends
  · exact .directive hends hdirective
  · cases hitem : item? limit x.2.current.kind with
    | none => exact .stall hends
    | some item =>
        dsimp only
        cases hrun : item x.2 with
        | ok found s => exact .item hends hitem hrun
        | error e s => exact .failure hends hitem hrun

/-- No block ends where an item starts. -/
theorem not_endsBlock_of_item? {item : Parser (Option NodeId)}
    (h : item? limit s.current.kind = some item) :
    ¬ endsBlock s.stream = true ∧ s.current.kind ≠ .directive := by
  cases hk : s.current.kind with
  | instruction | dataBytes | dataWords =>
      have hkind : s.stream.current.kind = _ := hk
      simp [endsBlock, startsStatement, hkind]
  | _ =>
      rw [hk] at h
      cases h

theorem blockRound_of_item {x : List NodeId × State} {item : Parser (Option NodeId)}
    {answer : Option NodeId} (hitem : item? limit x.2.current.kind = some item)
    (hrun : item x.2 = .ok answer s') : blockRound limit x = .inl (answer.toList ++ x.1, s') := by
  obtain ⟨hgoes, hdirective⟩ := not_endsBlock_of_item? hitem
  rw [blockRound, if_neg hgoes, if_neg hdirective, hitem]
  simp only [hrun]

theorem blockRound_of_failure {x : List NodeId × State} {item : Parser (Option NodeId)}
    {e : Failure} (hitem : item? limit x.2.current.kind = some item)
    (hrun : item x.2 = .error e s') : blockRound limit x = .inr (x.1.reverse, s'.recover e) := by
  obtain ⟨hgoes, hdirective⟩ := not_endsBlock_of_item? hitem
  rw [blockRound, if_neg hgoes, if_neg hdirective, hitem]
  simp only [hrun]

theorem blockItems_cons (b : Token) (bound : List Token) (x : List NodeId × State) :
    blockItems limit (b :: bound) x.1 x.2 =
      (blockRound limit x).elim (fun y => blockItems limit bound y.1 y.2) id := by
  obtain ⟨done, s⟩ := x
  rw [blockItems, blockRound]
  by_cases hends : endsBlock s.stream = true
  · rw [if_pos hends, if_pos hends]
    rfl
  · rw [if_neg hends, if_neg hends]
    by_cases hdirective : s.current.kind = .directive
    · rw [if_pos hdirective, if_pos hdirective]
      rfl
    · rw [if_neg hdirective, if_neg hdirective]
      dsimp only
      cases item? limit s.current.kind with
      | none => rfl
      | some item =>
          dsimp only
          cases item s with
          | ok found s' => rfl
          | error e s' => rfl

theorem current_ne_eof_of_not_endsBlock (h : ¬ endsBlock s.stream = true) :
    s.current.kind ≠ .eof := by
  intro hk
  apply h
  have hkind : s.stream.current.kind = .eof := hk
  simp [endsBlock, startsStatement, hkind]

theorem ItemAnswer.remaining_lt {answer : Option NodeId} (h : ItemAnswer limit s answer s') :
    s'.remaining < s.remaining := by
  cases answer with
  | none => exact h.2.remaining_lt (List.cons_ne_nil _ _)
  | some id =>
      obtain ⟨i, hreads, _⟩ := h
      apply hreads.remaining_lt
      cases i with
      | instruction | data => exact List.cons_ne_nil _ _

/-- A step passes a token, whatever it is. -/
theorem remaining_lt_of_blockRound {x y : List NodeId × State}
    (h : blockRound limit x = .inl y) : y.2.remaining < x.2.remaining := by
  have hstep := blockStep limit x
  rw [h] at hstep
  cases hstep with
  | directive hgoes hdirective =>
      obtain ⟨argument, hreads⟩ := State.reads_skipDirective hdirective
      exact hreads.remaining_lt (List.cons_ne_nil _ _)
  | stall hgoes => exact State.remaining_advance_lt (current_ne_eof_of_not_endsBlock hgoes)
  | item hgoes hitem hrun =>
      have hends := item?_ends hitem
      rw [Ends, hrun] at hends
      exact hends.remaining_lt

/-- A code block ends by itself. -/
theorem blockItems_rounds (limit : Nat) {bound : List Token} (done : List NodeId)
    (hbound : s.remaining ≤ bound.length) :
    ∃ n ≤ s.remaining, Rounds (blockRound limit) n (done, s) (blockItems limit bound done s) := by
  refine exists_rounds_of_bounded (x := (done, s)) (fun x => x.2.remaining)
    (fun bound x => blockItems limit bound x.1 x.2)
    (fun _ => True) ?_ blockItems_cons
    (fun x y _ h => ⟨trivial, remaining_lt_of_blockRound h⟩) bound trivial hbound
  intro x r hnone h
  have hcurrent : x.2.stream.current.kind = .eof :=
    congrArg Token.kind (State.current_of_nil (State.ahead_of_remaining hnone))
  have hends : endsBlock x.2.stream = true := by simp [endsBlock, startsStatement, hcurrent]
  unfold blockRound at h
  rw [if_pos hends] at h
  cases h
  rfl

end Asm6502.Parser
