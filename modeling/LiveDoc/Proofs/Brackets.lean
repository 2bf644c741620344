import LiveDoc.Evaluation.World
import Mathlib.Data.List.Perm.Basic

/-! # What begins ends

A computation that waits is polled in whatever world others have left. From one rest to the next it
goes a leg, and on its legs it begins and ends evaluations. It keeps its brackets if it only ever
ends the innermost evaluation that it has begun, in the epoch of that, and leaves none open when it
ends.
-/

namespace LiveDoc

variable {σ α β : Type}

/-- The cache that a computation is given and the one that it leaves, from one rest to the next. -/
structure Leg where
  given : Cache
  left : Cache

/-- Starting with a cache, the step goes its legs to a result and a world, polled in whatever worlds
others leave in between. -/
inductive Step.Passes : Cache → Step σ α → List Leg → α → World σ → Prop where
  | done (c : Cache) (a : α) (w : World σ) : Passes c (.done a w) [⟨c, w.cache⟩] a w
  | wait {c : Cache} {call : Call σ} {next : Except String Value → World σ → Step σ α} {w : World σ}
    (v : World σ) {legs : List Leg} {a : α} {w' : World σ}
    (rest : Passes v.cache (call.poll next v) legs a w') :
    Passes c (.wait call next w) (⟨c, w.cache⟩ :: legs) a w'

/-- The legs of a step that is polled once in each of the worlds that others make of those it leaves,
if that is often enough. -/
def Step.pass? : List (World σ → World σ) → Cache → Step σ α → Option (List Leg × α × World σ)
  | _, c, .done a w => some ([⟨c, w.cache⟩], a, w)
  | [], _, .wait _ _ _ => none
  | change :: changes, c, .wait call next w => do
    let (legs, a, w') ← pass? changes (change w).cache (call.poll next (change w))
    return (⟨c, w.cache⟩ :: legs, a, w')

theorem Step.passes_of_pass? {changes : List (World σ → World σ)} {s : Step σ α} {c : Cache}
    {legs : List Leg} {a : α} {w : World σ} (h : s.pass? changes c = some (legs, a, w)) :
    s.Passes c legs a w := by
  induction changes generalizing s c legs with
  | nil =>
    cases s with
    | done b v =>
      cases h
      exact .done c a w
    | wait call next v => cases h
  | cons change changes ih =>
    cases s with
    | done b v =>
      cases h
      exact .done c a w
    | wait call next v =>
      obtain ⟨⟨legs', b, w'⟩, hrest, hlegs⟩ := Option.bind_eq_some_iff.1 h
      cases hlegs
      exact .wait (change v) (ih hrest)

theorem Step.exists_passes (changes : List (World σ → World σ)) {s : Step σ α} {c : Cache} {a : α}
    {running : List Nat}
    (h : (s.pass? changes c).map (fun p => (p.2.1, p.2.2.cache.running)) = some (a, running)) :
    ∃ legs w, s.Passes c legs a w ∧ w.cache.running = running := by
  obtain ⟨⟨legs, a', w⟩, hpass, ha⟩ := Option.map_eq_some_iff.1 h
  obtain ⟨rfl, hrunning⟩ := Prod.mk.inj ha
  exact ⟨legs, w, passes_of_pass? hpass, hrunning⟩

/-- The first leg begins with the cache that the step is given. -/
theorem Step.Passes.head {s : Step σ α} {c : Cache} {legs : List Leg} {a : α} {w : World σ}
    (h : s.Passes c legs a w) : ∃ left more, legs = ⟨c, left⟩ :: more := by
  cases h with
  | done => exact ⟨_, [], rfl⟩
  | wait v rest => exact ⟨_, _, rfl⟩

/-! ## Marks -/

/-- An evaluation of an epoch begins or ends. -/
inductive Mark where
  | began (epoch : Nat)
  | ended (epoch : Nat)
  deriving DecidableEq, Repr

namespace Mark

/-- The marks lead from one cache to another: nothing else happens to it but that results are kept. -/
inductive Lead : List Mark → Cache → Cache → Prop where
  | none (c : Cache) : Lead [] c c
  | began {c c' : Cache} {marks : List Mark} (rest : Lead marks c.begin c') :
    Lead (.began c.epoch :: marks) c c'
  | ended {c c' : Cache} {marks : List Mark} (epoch : Nat) (rest : Lead marks (c.finish epoch) c') :
    Lead (.ended epoch :: marks) c c'
  | kept {c c' : Cache} {marks : List Mark} (key : CacheKey) (entry : CacheEntry)
    (rest : Lead marks (c.insert key entry) c') : Lead marks c c'

/-- Every begin is matched by one end of the same epoch, and what lies between the two is matched in
itself. -/
inductive Matched : List Mark → Prop where
  | nil : Matched []
  | pair {inner rest : List Mark} (epoch : Nat) (inside : Matched inner) (behind : Matched rest) :
    Matched (.began epoch :: inner ++ .ended epoch :: rest)

/-- The marks turn the epochs of open evaluations, the innermost first, into others. Only the
innermost may end. -/
inductive Turns : List Nat → List Mark → List Nat → Prop where
  | nil (own : List Nat) : Turns own [] own
  | began {own own' : List Nat} {marks : List Mark} {epoch : Nat}
    (rest : Turns (epoch :: own) marks own') : Turns own (.began epoch :: marks) own'
  | ended {own own' : List Nat} {marks : List Mark} {epoch : Nat} (rest : Turns own marks own') :
    Turns (epoch :: own) (.ended epoch :: marks) own'

variable {marks more : List Mark} {own own' own'' others : List Nat} {c c' c'' : Cache}

theorem Lead.append (h : Lead marks c c') (h' : Lead more c' c'') : Lead (marks ++ more) c c'' := by
  induction h with
  | none => exact h'
  | began _ ih => exact .began (ih h')
  | ended epoch _ ih => exact .ended epoch (ih h')
  | kept key entry _ ih => exact .kept key entry (ih h')

theorem Turns.append (h : Turns own marks own') (h' : Turns own' more own'') :
    Turns own (marks ++ more) own'' := by
  induction h with
  | nil => exact h'
  | began _ ih => exact .began (ih h')
  | ended _ ih => exact .ended (ih h')

/-- Evaluations around those that are turned stay open. -/
theorem Turns.around (h : Turns own marks own') (outer : List Nat) :
    Turns (own ++ outer) marks (own' ++ outer) := by
  induction h with
  | nil => exact .nil _
  | began _ ih => exact .began ih
  | ended _ ih => exact .ended ih

/-- The marks close the open evaluations one after the other, and what lies between is matched. -/
inductive Closes : List Nat → List Mark → Prop where
  | nil {marks : List Mark} (matched : Matched marks) : Closes [] marks
  | cons {inner rest : List Mark} {epoch : Nat} {own : List Nat} (matched : Matched inner)
    (closes : Closes own rest) : Closes (epoch :: own) (inner ++ .ended epoch :: rest)

/-- In front of what is closed an evaluation may begin and end. -/
theorem Closes.pair {epoch : Nat} {inner rest : List Mark} (hi : Matched inner)
    (h : Closes own rest) : Closes own (.began epoch :: inner ++ .ended epoch :: rest) := by
  cases h with
  | nil matched => exact .nil (.pair epoch hi matched)
  | @cons between after last own matched closes =>
    have hc : Closes (last :: own) ((.began epoch :: inner ++ .ended epoch :: between) ++
      .ended last :: after) := .cons (.pair epoch hi matched) closes
    rwa [List.append_assoc] at hc

theorem Turns.closes (h : Turns own marks []) : Closes own marks := by
  generalize hnone : ([] : List Nat) = none at h
  induction h with
  | nil own =>
    subst hnone
    exact .nil .nil
  | began rest ih =>
    cases ih hnone with
    | cons matched closes => exact closes.pair matched
  | ended rest ih => exact .cons .nil (ih hnone)

theorem Turns.matched (h : Turns [] marks []) : Matched marks := by
  cases h.closes with
  | nil matched => exact matched

/-- What runs besides the open evaluations is the same before and after. -/
theorem Lead.running (h : Lead marks c c') (ht : Turns own marks own')
    (hr : c.running.Perm (own ++ others)) : c'.running.Perm (own' ++ others) := by
  induction h generalizing own with
  | none =>
    cases ht
    exact hr
  | began _ ih =>
    cases ht with
    | began ht => exact ih ht (hr.cons _)
  | ended epoch _ ih =>
    cases ht with
    | ended ht =>
      have herased := hr.erase epoch
      rw [List.cons_append, List.erase_cons_head] at herased
      exact ih ht herased
  | kept key entry _ ih => exact ih ht hr

end Mark

/-- While the legs are gone, others have evaluations of some epochs running: of the first ones in the
beginning, of the last ones in the end. What they do to the running evaluations between two legs they
do to their own. -/
inductive Leg.Among : List Nat → List Leg → List Nat → Prop where
  | last (others : List Nat) (leg : Leg) : Among others [leg] others
  | more {others others' others'' : List Nat} {leg next : Leg} {legs : List Leg}
    (apart : (next.given.running ++ others).Perm (leg.left.running ++ others'))
    (rest : Among others' (next :: legs) others'') : Among others (leg :: next :: legs) others''

/-! ## Brackets -/

namespace Step

/-- With some of its evaluations open, the step ends or rests next with others open and goes on so,
whatever world it is given. When it ends none is open, and the result satisfies a condition. -/
inductive Bracketed (Q : α → Prop) : List Nat → Cache → Step σ α → Prop where
  | done {own : List Nat} {c : Cache} {marks : List Mark} {a : α} {w : World σ}
    (lead : Mark.Lead marks c w.cache) (turns : Mark.Turns own marks []) (result : Q a) :
    Bracketed Q own c (.done a w)
  | wait {own own' : List Nat} {c : Cache} {marks : List Mark} {call : Call σ}
    {next : Except String Value → World σ → Step σ α} {w : World σ}
    (lead : Mark.Lead marks c w.cache) (turns : Mark.Turns own marks own')
    (rest : ∀ answer v, Bracketed Q own' v.cache (next answer v)) :
    Bracketed Q own c (.wait call next w)

variable {Q : α → Prop} {R : β → Prop} {s : Step σ α} {own own' outer : List Nat}
  {c c' : Cache} {marks : List Mark}

theorem bracketed_done {a : α} {w : World σ} (hc : w.cache = c) (h : Q a) :
    (Step.done a w).Bracketed Q [] c :=
  .done (hc ▸ .none w.cache) (.nil []) h

theorem Bracketed.mono {P : α → Prop} (h : s.Bracketed P own c) (hPQ : ∀ a, P a → Q a) :
    s.Bracketed Q own c := by
  induction h with
  | done lead turns result => exact .done lead turns (hPQ _ result)
  | wait lead turns _ ih => exact .wait lead turns ih

theorem Bracketed.after (hl : Mark.Lead marks c c') (ht : Mark.Turns own marks own')
    (h : s.Bracketed Q own' c') : s.Bracketed Q own c := by
  cases h with
  | done lead turns result => exact .done (hl.append lead) (ht.append turns) result
  | wait lead turns rest => exact .wait (hl.append lead) (ht.append turns) rest

/-- Evaluations that are open around the whole step may be ended by what follows it. -/
theorem Bracketed.bind {f : α → World σ → Step σ β} (h : s.Bracketed Q own c)
    (hf : ∀ a w, Q a → (f a w).Bracketed R outer w.cache) :
    (s.bind f).Bracketed R (own ++ outer) c := by
  induction h with
  | done lead turns result => exact (hf _ _ result).after lead (turns.around outer)
  | wait lead turns _ ih => exact .wait lead (turns.around outer) ih

theorem bracketed_poll {call : Call σ} {next : Except String Value → World σ → Step σ α}
    (h : ∀ answer v, (next answer v).Bracketed Q own v.cache) (v : World σ) :
    (call.poll next v).Bracketed Q own v.cache := by
  unfold Call.poll
  rcases call.resolver.ask call.args call.asked v.host with ⟨_ | answer, host⟩
  · exact .wait (.none v.cache) (.nil own) h
  · exact h answer { v with host := host }

/-- What a bracketed step has done when it ends. The marks of each leg are those between the cache
that it was given and the one that it left. -/
theorem Bracketed.passes {legs : List Leg} {a : α} {w : World σ} (h : s.Bracketed Q own c)
    (hp : s.Passes c legs a w) : Q a ∧
      (∃ marks : List (List Mark),
        List.Forall₂ (fun leg ms => Mark.Lead ms leg.given leg.left) legs marks ∧
          Mark.Turns own marks.flatten []) ∧
      ∀ others others', Leg.Among others legs others' → c.running.Perm (own ++ others) →
        w.cache.running.Perm others' := by
  induction hp generalizing own with
  | done c a w =>
    cases h with
    | @done _ _ marks _ _ lead turns result =>
      refine ⟨result, ⟨[marks], .cons lead .nil, by simpa using turns⟩, ?_⟩
      rintro others _ ⟨⟩ hr
      exact lead.running turns hr
  | @wait c call next w v legs a w' rest ih =>
    cases h with
    | @wait _ own' _ marks _ _ _ lead turns next =>
      obtain ⟨hq, ⟨later, hlater, hturns⟩, hcounts⟩ := ih (bracketed_poll next v)
      refine ⟨hq, ⟨marks :: later, .cons lead hlater, ?_⟩, ?_⟩
      · rw [List.flatten_cons]
        exact turns.append hturns
      · intro others others' ha hr
        have hleft := lead.running turns hr
        obtain ⟨left, more, rfl⟩ := rest.head
        cases ha with
        | @more _ between _ _ _ _ apart after =>
          refine hcounts between others' after ((List.perm_append_right_iff others).1 ?_)
          calc List.Perm (v.cache.running ++ others) (w.cache.running ++ between) := apart
            List.Perm _ (own' ++ others ++ between) := hleft.append_right between
            List.Perm _ (own' ++ between ++ others) := by
              simpa only [List.append_assoc] using List.perm_append_comm.append_left own'

end Step

end LiveDoc
